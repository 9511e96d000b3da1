import MklDnn.Conv.Proofs.ForwardLoopsProofs

/-!
# Proofs: the columns of a convolution by GEMM

A thread unfolds the image when the block of its columns changes, and uses the columns again for the other blocks of
output channels. If what it unfolds is right, then its program multiplies the right columns in every block.
-/

open LoopNest Interleaving

namespace MklDnn.GemmConvolutionFwd

variable {R : Type*} [CommRing R] [LinearOrder R] {jcp : JitGemmConvConf} {args : Args R} {nthrIn : ℕ} {part : Part}

/-! ## Elements of the output -/

/-- The number of positions of the output. -/
def spWork (jcp : JitGemmConvConf) : ℕ := jcp.mb * jcp.ngroups * jcp.od * jcp.os

/-- The offset of an element of `dst`. -/
def addr (jcp : JitGemmConvConf) (x oc : ℕ) : ℕ := x / M jcp * dstStep jcp + oc * M jcp + x % M jcp

/-- The offset in the weights for a position of the output. -/
def weightsAddr (jcp : JitGemmConvConf) (x oc q : ℕ) : ℕ :=
  x / M jcp % jcp.ngroups * weightsGSize jcp + oc * weightsOcSize jcp + q

theorem M_pos {x : ℕ} (hx : x < spWork jcp) : 0 < M jcp := by
  unfold spWork at hx
  unfold M
  rw [Nat.mul_comm, Nat.pos_iff_ne_zero]
  intro hzero
  rw [Nat.mul_assoc, hzero] at hx
  omega

theorem div_M_lt {x : ℕ} (hx : x < spWork jcp) : x / M jcp < jcp.mb * jcp.ngroups := by
  rw [Nat.div_lt_iff_lt_mul (M_pos hx)]
  unfold spWork at hx
  unfold M
  rw [Nat.mul_comm jcp.os, ← Nat.mul_assoc]
  exact hx

/-- The image and the group of a position. -/
theorem posOf_image {x : ℕ} (hx : x < spWork jcp) (ic oc : ℕ) :
    (posOf jcp x ic oc).n * jcp.ngroups + (posOf jcp x ic oc).g = x / M jcp ∧
      (posOf jcp x ic oc).g = x / M jcp % jcp.ngroups := by
  have hlt := div_M_lt hx
  have hM : jcp.od * jcp.os = M jcp := Nat.mul_comm _ _
  rw [posOf_eq]
  dsimp only
  rw [Nat.mul_comm jcp.ngroups, ← Nat.div_div_eq_div_mul, hM, Nat.mod_eq_of_lt, Nat.div_add_mod']
  · exact ⟨rfl, rfl⟩
  · rw [Nat.mul_comm] at hlt
    exact Nat.div_lt_of_lt_mul hlt

/-- A position of the same row of blocks. -/
theorem posOf_add {spatial i : ℕ} (hi : spatial % jcp.os + i < jcp.os) (ic oc : ℕ) :
    posOf jcp (spatial + i) ic oc =
      { posOf jcp spatial ic oc with sp := (posOf jcp spatial ic oc).sp + i } := by
  have hos : 0 < jcp.os := by omega
  have hsplit : spatial + i = jcp.os * (spatial / jcp.os) + (spatial % jcp.os + i) := by
    have := Nat.div_add_mod spatial jcp.os
    omega
  have hdiv : (spatial + i) / jcp.os = spatial / jcp.os := by
    rw [hsplit, Nat.mul_add_div hos, Nat.div_eq_of_lt hi, Nat.add_zero]
  have hmod : (spatial + i) % jcp.os = spatial % jcp.os + i := by
    rw [hsplit, Nat.mul_add_mod, Nat.mod_eq_of_lt hi]
  have hdiv' : ∀ k, (spatial + i) / (k * jcp.os) = spatial / (k * jcp.os) := by
    intro k
    rw [Nat.mul_comm, ← Nat.div_div_eq_div_mul, hdiv, Nat.div_div_eq_div_mul]
  simp only [posOf_eq, hdiv, hmod, hdiv', ← Nat.mul_assoc]

/-- The elements of `dst` of a block. -/
theorem dstOf_posOf {spatial i : ℕ} (hx : spatial + i < spWork jcp) (hi : spatial % jcp.os + i < jcp.os)
    (ic oc j : ℕ) :
    dstOf jcp (posOf jcp spatial ic oc) (i + j * M jcp) = addr jcp (spatial + i) (oc + j) := by
  obtain ⟨himage, -⟩ := posOf_image hx ic oc
  have hmod : (spatial + i) % M jcp =
      (posOf jcp (spatial + i) ic oc).od * jcp.os + (posOf jcp (spatial + i) ic oc).sp := by
    rw [posOf_eq]
    dsimp only
    rw [M, Nat.mod_mul]
    ring
  rw [posOf_add hi] at himage hmod
  dsimp only at himage hmod
  unfold dstOf addr
  rw [himage, hmod, posOf_oc]
  ring

/-- Different elements of `dst` have different offsets. -/
theorem addr_injective {x oc x' oc' : ℕ} (hx : x < spWork jcp) (hoc : oc < jcp.oc) (hoc' : oc' < jcp.oc)
    (h : addr jcp x oc = addr jcp x' oc') : x = x' ∧ oc = oc' := by
  have hM := M_pos hx
  have hmod := Nat.mod_lt x hM
  have hmod' := Nat.mod_lt x' hM
  have hform : ∀ q c r, q * (jcp.oc * M jcp) + c * M jcp + r = r + (c + q * jcp.oc) * M jcp := by
    intro q c r
    ring
  unfold addr dstStep at h
  rw [hform, hform] at h
  obtain ⟨hrem, hquot⟩ := add_mul_inj hmod hmod' h
  obtain ⟨hoc, hdiv⟩ := add_mul_inj hoc hoc' hquot
  refine ⟨?_, hoc⟩
  rw [← Nat.div_add_mod x (M jcp), ← Nat.div_add_mod x' (M jcp), hdiv, hrem]

/-! ## Blocks -/

/-- A call of a thread whose block lies in the output. -/
structure Call.Valid (jcp : JitGemmConvConf) (part : Part) (c : Call) : Prop where
  spatial : c.spatial < part.endSp
  ic : c.ic < jcp.ic
  oc : c.oc < part.endOc

theorem valid_of_mem_calls {c : Call} (hc : c ∈ calls jcp part) : c.Valid jcp part := by
  obtain ⟨hsp, hic, hoc⟩ := mem_calls.mp hc
  exact ⟨(mem_starts hsp).2, (mem_starts hic).2, (mem_starts hoc).2⟩

/-- The positions of a block. -/
theorem Part.Inside.position {spatial i : ℕ} (hin : part.Inside jcp) (hi : i < lenSp jcp part spatial) :
    spatial + i < part.endSp ∧ spatial + i < spWork jcp ∧ spatial % jcp.os + i < jcp.os := by
  have hend := hin.endSp
  unfold lenSp at hi
  unfold spWork
  omega

theorem Part.Inside.channel {oc j : ℕ} (hin : part.Inside jcp) (hj : j < lenOc jcp part oc) :
    oc + j < part.endOc ∧ oc + j < jcp.oc := by
  have hend := hin.endOc
  unfold lenOc at hj
  omega

/-- The number of rows of the columns of a block. -/
def rows (jcp : JitGemmConvConf) (c : Call) : ℕ := lenIc jcp c.ic * jcp.ks

/-- The distance of two rows of the columns. -/
def lda (jcp : JitGemmConvConf) (part : Part) (c : Call) : ℕ :=
  if jcp.im2colSz ≠ 0 then lenSp jcp part c.spatial else M jcp

/-- The columns of a block hold the values `val` of its rows and its positions. -/
def Filled (jcp : JitGemmConvConf) (args : Args R) (part : Part) (val : ℕ → ℕ → R) (c : Call) (col : ℤ → R) : Prop :=
  ∀ i < lenSp jcp part c.spatial, ∀ p < rows jcp c,
    source jcp args (c.pos jcp) col (i + p * lda jcp part c) = val (c.spatial + i) (c.ic * jcp.ks + p)

/-- The factor of the old elements of `dst`. -/
def betaOf (args : Args R) (ic : ℕ) : R := if ic = 0 then args.beta else 1

/-- The product of a block with the values `val` of the columns. -/
def productOf (jcp : JitGemmConvConf) (args : Args R) (part : Part) (val : ℕ → ℕ → R) (c : Call) :
    List (Assign ℕ R) :=
  (List.range (lenOc jcp part c.oc)).flatMap fun j =>
    (List.range (lenSp jcp part c.spatial)).map fun i => ⟨addr jcp (c.spatial + i) (c.oc + j), fun mem =>
      (∑ p ∈ Finset.range (rows jcp c), val (c.spatial + i) (c.ic * jcp.ks + p) *
        args.weights (weightsAddr jcp (c.spatial + i) (c.oc + j) (c.ic * jcp.ks + p))) +
          betaOf args c.ic * mem (addr jcp (c.spatial + i) (c.oc + j))⟩

omit [LinearOrder R] in
theorem product_eq (hin : part.Inside jcp) {val : ℕ → ℕ → R} {c : Call} {col : ℤ → R}
    (hcol : Filled jcp args part val c col) :
    product jcp args (c.pos jcp) (c.step jcp part) col = productOf jcp args part val c := by
  unfold product extendedSgemm productOf
  rw [List.flatMap_def, List.flatMap_def]
  congr 1
  apply List.map_congr_left
  intro j hj
  apply List.map_congr_left
  intro i hi
  obtain ⟨-, hx, hrow⟩ := hin.position (List.mem_range.mp hi)
  have hdst : dstOf jcp (c.pos jcp) (i + j * M jcp) = addr jcp (c.spatial + i) (c.oc + j) :=
    dstOf_posOf hx hrow c.ic c.oc j
  have hgroup : (c.pos jcp).g = (c.spatial + i) / M jcp % jcp.ngroups := by
    have hg := (posOf_image hx c.ic c.oc).2
    rw [posOf_add hrow] at hg
    exact hg
  have hbeta : (if (c.pos jcp).ic = 0 then args.beta else 1) = betaOf args c.ic := by
    unfold Call.pos
    rw [posOf_ic]
    rfl
  dsimp only
  rw [hdst, hbeta]
  congr 1
  funext mem
  congr 1
  apply Finset.sum_congr rfl
  intro p hp
  have hval := hcol i (List.mem_range.mp hi) p (Finset.mem_range.mp hp)
  have hweights : (c.pos jcp).g * weightsGSize jcp + (c.pos jcp).oc * weightsOcSize jcp + (c.pos jcp).ic * jcp.ks +
      (p + j * (jcp.ic * jcp.ks)) = weightsAddr jcp (c.spatial + i) (c.oc + j) (c.ic * jcp.ks + p) := by
    rw [hgroup]
    unfold Call.pos weightsAddr weightsOcSize
    rw [posOf_ic, posOf_oc]
    ring
  rw [if_neg Bool.false_ne_true, if_neg Bool.false_ne_true, hweights, ← hval]
  rfl

/-- The program of a call. -/
def kerProg (jcp : JitGemmConvConf) (args : Args R) (nthrIn : ℕ) (part : Part) (val : ℕ → ℕ → R) (c : Call) :
    List (Assign ℕ R) :=
  productOf jcp args part val c ++
    if c.ic + lenIc jcp c.ic = jcp.ic then postOps jcp args nthrIn (c.pos jcp) (c.step jcp part) else []

/-! ## The columns between two calls -/

/-- What a thread unfolds for its calls is right, whatever its columns held before. The columns keep the property
`J`. -/
structure Unfolds (jcp : JitGemmConvConf) (args : Args R) (nthrIn : ℕ) (part : Part) (val : ℕ → ℕ → R)
    (J : (ℤ → R) → Prop) : Prop where
  fill : jcp.im2colSz ≠ 0 → ∀ c ∈ calls jcp part, ∀ col, J col →
    J (im2colOf jcp args nthrIn (c.pos jcp) (c.step jcp part) col) ∧
      Filled jcp args part val c (im2colOf jcp args nthrIn (c.pos jcp) (c.step jcp part) col)
  direct : jcp.im2colSz = 0 → ∀ c ∈ calls jcp part, ∀ col, Filled jcp args part val c col

/-- The columns are those of the previous call. -/
structure Inv (jcp : JitGemmConvConf) (args : Args R) (part : Part) (val : ℕ → ℕ → R) (J : (ℤ → R) → Prop)
    (s : State R) : Prop where
  keeps : J s.col
  prev : ∀ p, s.prev = some p → ∃ c : Call, c.Valid jcp part ∧ p = c.pos jcp ∧ Filled jcp args part val c s.col

/-- A position is known from its counters. -/
theorem spatial_eq {spatial spatial' ic ic' oc oc' : ℕ} (hx : spatial < spWork jcp) (hx' : spatial' < spWork jcp)
    (hn : (posOf jcp spatial ic oc).n = (posOf jcp spatial' ic' oc').n)
    (hg : (posOf jcp spatial ic oc).g = (posOf jcp spatial' ic' oc').g)
    (hod : (posOf jcp spatial ic oc).od = (posOf jcp spatial' ic' oc').od)
    (hsp : (posOf jcp spatial ic oc).sp = (posOf jcp spatial' ic' oc').sp) : spatial = spatial' := by
  have himage := (posOf_image hx ic oc).1
  have himage' := (posOf_image hx' ic' oc').1
  have hmod : ∀ y ic oc, y % M jcp = (posOf jcp y ic oc).sp + jcp.os * (posOf jcp y ic oc).od := by
    intro y ic oc
    rw [posOf_eq, M, Nat.mod_mul]
  rw [← Nat.div_add_mod spatial (M jcp), ← Nat.div_add_mod spatial' (M jcp), ← himage, ← himage', hn, hg,
    hmod spatial ic oc, hmod spatial' ic' oc', hod, hsp]

omit [CommRing R] [LinearOrder R] in
/-- A call with the columns of the previous one. -/
theorem Filled.of_not_doIm2col {val : ℕ → ℕ → R} {c c' : Call} {col : ℤ → R} (hin : part.Inside jcp)
    (hc : c.Valid jcp part) (hc' : c'.Valid jcp part) (hskip : (c'.pos jcp).doIm2col (some (c.pos jcp)) = false)
    (h : Filled jcp args part val c col) : Filled jcp args part val c' col := by
  simp only [ImPos.doIm2col, decide_eq_false_iff_not, not_or, not_not] at hskip
  obtain ⟨hn, hg, hod, hsp, hic⟩ := hskip
  have hlt : ∀ c : Call, c.Valid jcp part → c.spatial < spWork jcp :=
    fun c hc => Nat.lt_of_lt_of_le hc.spatial hin.endSp
  have hspatial : c'.spatial = c.spatial := spatial_eq (hlt c' hc') (hlt c hc) hn hg hod hsp
  have hic : c'.ic = c.ic := by
    unfold Call.pos at hic
    rw [posOf_ic, posOf_ic] at hic
    exact hic
  intro i hi p hp
  have hval := h i (by rw [← hspatial]; exact hi) p (by unfold rows at hp ⊢; rw [← hic]; exact hp)
  rw [hspatial, hic, ← hval]
  have hlda : lda jcp part c' = lda jcp part c := by
    unfold lda
    rw [hspatial]
  have hic' : (c'.pos jcp).ic = (c.pos jcp).ic := by
    unfold Call.pos
    rw [posOf_ic, posOf_ic, hic]
  unfold source srcOf
  rw [hlda, hn, hg, hod, hsp, hic']

/-- The program of a call whose columns hold the values `val`. -/
theorem call_prog_eq (hin : part.Inside jcp) {val : ℕ → ℕ → R} {s : State R} {c : Call}
    (hcol : Filled jcp args part val c (call jcp args nthrIn part s c).col) :
    (call jcp args nthrIn part s c).prog = s.prog ++ kerProg jcp args nthrIn part val c := by
  have hprod := product_eq hin hcol
  have hlast : ((c.pos jcp).ic : ℤ) = jcp.ic - (c.step jcp part).ic ↔ c.ic + lenIc jcp c.ic = jcp.ic := by
    have hic : (c.pos jcp).ic = c.ic := by
      unfold Call.pos
      rw [posOf_ic]
    have hlen : (c.step jcp part).ic = lenIc jcp c.ic := rfl
    rw [hic, hlen]
    omega
  have hprog : (call jcp args nthrIn part s c).prog = s.prog ++
      (product jcp args (c.pos jcp) (c.step jcp part) (call jcp args nthrIn part s c).col ++
        if ((c.pos jcp).ic : ℤ) = jcp.ic - (c.step jcp part).ic then
          postOps jcp args nthrIn (c.pos jcp) (c.step jcp part) else []) := by
    have hstep : stepOf jcp part c.spatial (c.pos jcp) = c.step jcp part := stepOf_posOf part c.spatial c.ic c.oc
    unfold call innerKer
    dsimp only
    rw [hstep]
  rw [hprog, hprod, kerProg, if_congr hlast rfl rfl]

/-- A call multiplies the right columns. -/
theorem call_prog (hin : part.Inside jcp) {val : ℕ → ℕ → R} {J : (ℤ → R) → Prop}
    (hunf : Unfolds jcp args nthrIn part val J) {s : State R} (hs : Inv jcp args part val J s) {c : Call}
    (hc : c ∈ calls jcp part) :
    Inv jcp args part val J (call jcp args nthrIn part s c) ∧
      (call jcp args nthrIn part s c).prog = s.prog ++ kerProg jcp args nthrIn part val c := by
  have hvalid := valid_of_mem_calls hc
  have hstep : stepOf jcp part c.spatial (c.pos jcp) = c.step jcp part := stepOf_posOf part c.spatial c.ic c.oc
  have hcol : J (call jcp args nthrIn part s c).col ∧
      Filled jcp args part val c (call jcp args nthrIn part s c).col := by
    unfold call innerKer
    dsimp only
    rw [hstep]
    split_ifs with hdo
    · exact hunf.fill hdo.1 c hc s.col hs.keeps
    · refine ⟨hs.keeps, ?_⟩
      by_cases hsz : jcp.im2colSz = 0
      · exact hunf.direct hsz c hc s.col
      · -- the block of the previous call has the same columns
        have hskip : (c.pos jcp).doIm2col s.prev = false := by
          rw [← Bool.not_eq_true]
          exact fun hdo' => hdo ⟨hsz, hdo'⟩
        cases hprev : s.prev with
        | none =>
          rw [hprev] at hskip
          cases hskip
        | some p =>
          obtain ⟨c', hc', rfl, hfilled⟩ := hs.prev p hprev
          rw [hprev] at hskip
          exact hfilled.of_not_doIm2col hin hc' hvalid hskip
  refine ⟨⟨hcol.1, ?_⟩, call_prog_eq hin hcol.2⟩
  intro p hp
  exact ⟨c, hvalid, (Option.some.inj hp).symm, hcol.2⟩

/-- The program of a thread multiplies the right columns in every block. -/
theorem foldl_call_prog (hin : part.Inside jcp) {val : ℕ → ℕ → R} {J : (ℤ → R) → Prop}
    (hunf : Unfolds jcp args nthrIn part val J) {l : List Call} (hl : ∀ c ∈ l, c ∈ calls jcp part) {s : State R}
    (hs : Inv jcp args part val J s) :
    (l.foldl (call jcp args nthrIn part) s).prog = s.prog ++ l.flatMap (kerProg jcp args nthrIn part val) := by
  induction l generalizing s with
  | nil => exact (List.append_nil _).symm
  | cons c l ih =>
    obtain ⟨hinv, hprog⟩ := call_prog hin hunf hs (hl c List.mem_cons_self)
    rw [List.foldl_cons, ih (fun c hc => hl c (List.mem_cons_of_mem _ hc)) hinv, hprog, List.flatMap_cons,
      List.append_assoc]

end MklDnn.GemmConvolutionFwd
