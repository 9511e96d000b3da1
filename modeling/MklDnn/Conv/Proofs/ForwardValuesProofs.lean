import MklDnn.Conv.Proofs.ForwardColumnsProofs
import MklDnn.Lib.Sums

/-!
# Proofs: what a thread of a convolution by GEMM leaves

An element of the output belongs to one block of positions and to one block of output channels. The blocks of the
input channels add their parts of the sum to it, the first one to the scaled old value, and the last one applies the
bias and the element-wise operation.
-/

open LoopNest Interleaving

namespace MklDnn.GemmConvolutionFwd

variable {R : Type*} [CommRing R] [LinearOrder R] {jcp : JitGemmConvConf} {args : Args R} {nthrIn : ℕ} {part : Part}

/-! ## The end of the loops -/

/-- A thread without a part has no calls. -/
theorem calls_eq_nil (hempty : part.Empty) : calls jcp part = [] := by
  rw [List.eq_nil_iff_forall_not_mem]
  intro c hc
  obtain ⟨hsp, -, hoc⟩ := mem_calls.mp hc
  have hsp := mem_starts hsp
  have hoc := mem_starts hoc
  unfold Part.Empty at hempty
  omega

/-- It does nothing. -/
theorem loops_eq_of_empty (hempty : part.Empty) {s : State R} (hsp : 0 < s.step.sp) (hic : 0 < s.step.ic)
    (hin : part.Inside jcp) : loops jcp args nthrIn (fuel jcp) part s = some s := by
  have hspLoop : ∀ ic, forSteps part.endSp (fun spatial => ocLoop jcp args nthrIn (fuel jcp) part spatial ic)
      (fun s => s.step.sp) (fuel jcp) part.startSp s = some s := by
    intro ic
    rcases hempty with hoc | hle
    · apply forSteps_id
      · exact hsp
      · exact fun _ _ => forSteps_of_le hoc
      · exact hin.fuel_sp
    · exact forSteps_of_le hle
  have hicLoop : ∀ spatial, part.endOc ≤ part.startOc →
      forSteps jcp.ic (fun ic => ocLoop jcp args nthrIn (fuel jcp) part spatial ic) (fun s => s.step.ic)
        (fuel jcp) 0 s = some s := by
    intro spatial hoc
    apply forSteps_id
    · exact hic
    · exact fun _ _ => forSteps_of_le hoc
    · exact fuel_ic jcp
  unfold loops
  cases jcp.loopOrder with
  | rlb =>
    apply forSteps_id
    · exact hic
    · exact fun ic _ => hspLoop ic
    · exact fuel_ic jcp
  | lrb =>
    rcases hempty with hoc | hle
    · apply forSteps_id
      · exact hsp
      · exact fun spatial _ => hicLoop spatial hoc
      · exact hin.fuel_sp
    · exact forSteps_of_le hle

/-- The loops of a thread end, and run through its calls. -/
theorem loops_eq (h : Blocks jcp) (hic : 0 < jcp.ic) (hin : part.Inside jcp) {s : State R} (hsp : 0 < s.step.sp)
    (hsic : 0 < s.step.ic) :
    loops jcp args nthrIn (fuel jcp) part s = some ((calls jcp part).foldl (call jcp args nthrIn part) s) := by
  by_cases hempty : part.Empty
  · rw [loops_eq_of_empty hempty hsp hsic hin, calls_eq_nil hempty]
    rfl
  · exact loops_eq_of_nonempty h hin hempty hic s

/-! ## The post-operations -/

/-- The bias of an output channel. -/
def biasOf (jcp : JitGemmConvConf) (args : Args R) (x oc : ℕ) : R :=
  if jcp.withBias then args.bias (x / M jcp % jcp.ngroups * jcp.oc + oc) else 0

/-- The bias and the element-wise operation for an element. -/
def postOf (jcp : JitGemmConvConf) (args : Args R) (x oc : ℕ) (d : R) : R :=
  args.activation (d + biasOf jcp args x oc)

/-- The fast branch for ReLU. -/
theorem Eltwise.apply_eq (eltwise : Eltwise R) (d : R) : eltwise.apply d = eltwise.computeScalar d := by
  cases eltwise with
  | relu alpha =>
    show (if d < 0 then d * alpha else d) = if 0 < d then d else d * alpha
    rcases lt_trichotomy d 0 with hneg | rfl | hpos
    · rw [if_pos hneg, if_neg (not_lt.mpr hneg.le)]
    · rw [if_neg (lt_irrefl _), if_neg (lt_irrefl _), zero_mul]
    · rw [if_neg (not_lt.mpr hpos.le), if_pos hpos]
  | other f => rfl

/-- The element of a block with the place `i` and the output channel `j`. -/
theorem block_unique (hin : part.Inside jcp) {c : Call} {i j i' j' : ℕ} (hi : i < lenSp jcp part c.spatial)
    (hj : j < lenOc jcp part c.oc) (hj' : j' < lenOc jcp part c.oc)
    (h : addr jcp (c.spatial + i') (c.oc + j') = addr jcp (c.spatial + i) (c.oc + j)) : i' = i ∧ j' = j := by
  obtain ⟨-, hx, -⟩ := hin.position hi
  obtain ⟨hx, hoc⟩ := addr_injective hx (hin.channel hj).2 (hin.channel hj').2 h.symm
  omega

/-- The offsets of the post-operations of a block. -/
theorem postOps_addr (hin : part.Inside jcp) {c : Call} {i j : ℕ} (hi : i < lenSp jcp part c.spatial) :
    dstOf jcp (c.pos jcp) (j * M jcp + i) = addr jcp (c.spatial + i) (c.oc + j) := by
  obtain ⟨-, hx, hrow⟩ := hin.position hi
  rw [Nat.add_comm]
  exact dstOf_posOf hx hrow c.ic c.oc j

theorem postOps_group (hin : part.Inside jcp) {c : Call} {i : ℕ} (hi : i < lenSp jcp part c.spatial) :
    (c.pos jcp).g = (c.spatial + i) / M jcp % jcp.ngroups := by
  obtain ⟨-, hx, hrow⟩ := hin.position hi
  have hg := (posOf_image hx c.ic c.oc).2
  rw [posOf_add hrow] at hg
  exact hg

/-- The assignments of the post-operations to one element. -/
def postProg (jcp : JitGemmConvConf) (args : Args R) (x oc : ℕ) : List (Assign ℕ R) :=
  match args.eltwise with
  | some eltwise =>
    [Assign.add (addr jcp x oc) (biasOf jcp args x oc), ⟨addr jcp x oc, fun mem => eltwise.apply (mem (addr jcp x oc))⟩]
  | none => if jcp.withBias then [Assign.add (addr jcp x oc) (biasOf jcp args x oc)] else []

theorem postOps_eq (hnthr : 0 < nthrIn) (hin : part.Inside jcp) (c : Call) :
    postOps jcp args nthrIn (c.pos jcp) (c.step jcp part) =
      (List.range (lenOc jcp part c.oc)).flatMap fun j =>
        (List.range (lenSp jcp part c.spatial)).flatMap fun i => postProg jcp args (c.spatial + i) (c.oc + j) := by
  have hoc : (c.pos jcp).oc = c.oc := posOf_oc ..
  have hstep : c.step jcp part = ⟨lenOc jcp part c.oc, lenSp jcp part c.spatial, lenIc jcp c.ic⟩ := rfl
  have hbias : ∀ i < lenSp jcp part c.spatial, ∀ j,
      (if jcp.withBias then args.bias ((c.pos jcp).g * jcp.oc + (c.pos jcp).oc + j) else 0) =
        biasOf jcp args (c.spatial + i) (c.oc + j) := by
    intro i hi j
    rw [postOps_group hin hi, hoc, biasOf, Nat.add_assoc]
  unfold postOps postProg
  rw [hstep]
  dsimp only
  cases args.eltwise with
  | some eltwise =>
    dsimp only
    rw [parallelNd_singleton hnthr, List.flatMap_map]
    apply List.flatMap_congr
    intro j hj
    apply List.flatMap_congr
    intro i hi
    rw [postOps_addr hin (List.mem_range.mp hi), hbias i (List.mem_range.mp hi)]
  | none =>
    dsimp only
    by_cases hwith : jcp.withBias = true
    · rw [if_pos hwith, parallelNd_singleton hnthr, List.flatMap_map]
      apply List.flatMap_congr
      intro j hj
      dsimp only
      rw [List.map_eq_flatMap]
      apply List.flatMap_congr
      intro i hi
      rw [postOps_addr hin (List.mem_range.mp hi), ← hbias i (List.mem_range.mp hi), if_pos hwith, if_pos hwith]
    · simp [hwith]

theorem postProg_dst {x oc : ℕ} {e : Assign ℕ R} (he : e ∈ postProg jcp args x oc) : e.dst = addr jcp x oc := by
  unfold postProg at he
  cases heltwise : args.eltwise with
  | some eltwise =>
    rw [heltwise] at he
    rcases List.mem_pair.mp he with rfl | rfl
    · rfl
    · rfl
  | none =>
    rw [heltwise] at he
    dsimp only at he
    split_ifs at he
    · rw [List.mem_singleton.mp he]
      rfl
    · cases he

theorem trace_postProg (x oc : ℕ) (v : R) :
    trace (addr jcp x oc) (postProg jcp args x oc) v = postOf jcp args x oc v := by
  unfold postProg postOf Args.activation
  cases args.eltwise with
  | some eltwise =>
    dsimp only
    rw [← Eltwise.apply_eq]
    show trace (Assign.add (addr jcp x oc) (biasOf jcp args x oc)).dst _ v = _
    rw [trace_cons_self]
    exact trace_cons_self _ [] _
  | none =>
    dsimp only
    split_ifs with hwith
    · exact trace_cons_self (Assign.add (addr jcp x oc) (biasOf jcp args x oc)) [] v
    · rw [biasOf, if_neg hwith, add_zero]
      rfl

/-! ## One block -/

/-- A call assigns to the elements of its block. -/
theorem kerProg_dst (hnthr : 0 < nthrIn) (hin : part.Inside jcp) {val : ℕ → ℕ → R} {c : Call} {e : Assign ℕ R}
    (he : e ∈ kerProg jcp args nthrIn part val c) :
    e.Local ∧ ∃ i < lenSp jcp part c.spatial, ∃ j < lenOc jcp part c.oc,
      e.dst = addr jcp (c.spatial + i) (c.oc + j) := by
  rcases List.mem_append.mp he with he | he
  · obtain ⟨j, hj, he⟩ := List.mem_flatMap.mp he
    obtain ⟨i, hi, rfl⟩ := List.mem_map.mp he
    refine ⟨?_, i, List.mem_range.mp hi, j, List.mem_range.mp hj, rfl⟩
    intro m m' hm
    dsimp only at hm ⊢
    rw [hm]
  · split_ifs at he
    · rw [postOps_eq hnthr hin] at he
      obtain ⟨j, hj, he⟩ := List.mem_flatMap.mp he
      obtain ⟨i, hi, he⟩ := List.mem_flatMap.mp he
      refine ⟨?_, i, List.mem_range.mp hi, j, List.mem_range.mp hj, postProg_dst he⟩
      unfold postProg at he
      cases heltwise : args.eltwise with
      | some eltwise =>
        rw [heltwise] at he
        rcases List.mem_pair.mp he with rfl | rfl
        · exact Assign.local_add _ _
        · intro m m' hm
          exact congrArg eltwise.apply hm
      | none =>
        rw [heltwise] at he
        dsimp only at he
        split_ifs at he
        · rw [List.mem_singleton.mp he]
          exact Assign.local_add _ _
        · cases he
    · cases he

/-- It assigns to all of them. -/
theorem exists_mem_kerProg (args : Args R) (nthrIn : ℕ) (val : ℕ → ℕ → R) {c : Call} {i j : ℕ} (hi : i < lenSp jcp part c.spatial)
    (hj : j < lenOc jcp part c.oc) :
    ∃ e ∈ kerProg jcp args nthrIn part val c, e.dst = addr jcp (c.spatial + i) (c.oc + j) := by
  unfold kerProg productOf
  simp only [List.mem_append, List.mem_flatMap, List.mem_map, List.mem_range]
  exact ⟨_, Or.inl ⟨j, hj, i, hi, rfl⟩, rfl⟩

/-- The part of the sum of a block of input channels. -/
def partialSum (jcp : JitGemmConvConf) (args : Args R) (val : ℕ → ℕ → R) (x oc ic : ℕ) : R :=
  ∑ p ∈ Finset.range (lenIc jcp ic * jcp.ks), val x (ic * jcp.ks + p) * args.weights (weightsAddr jcp x oc (ic * jcp.ks + p))

/-- What the block of input channels from `ic` on does to an element. -/
def blockValue (jcp : JitGemmConvConf) (args : Args R) (val : ℕ → ℕ → R) (x oc : ℕ) (v : R) (ic : ℕ) : R :=
  let u := partialSum jcp args val x oc ic + betaOf args ic * v
  if ic + lenIc jcp ic = jcp.ic then postOf jcp args x oc u else u

theorem trace_kerProg (hnthr : 0 < nthrIn) (hin : part.Inside jcp) (val : ℕ → ℕ → R) {c : Call} {i j : ℕ}
    (hi : i < lenSp jcp part c.spatial) (hj : j < lenOc jcp part c.oc) (v : R) :
    trace (addr jcp (c.spatial + i) (c.oc + j)) (kerProg jcp args nthrIn part val c) v =
      blockValue jcp args val (c.spatial + i) (c.oc + j) v c.ic := by
  have hprod : ∀ v, trace (addr jcp (c.spatial + i) (c.oc + j)) (productOf jcp args part val c) v =
      partialSum jcp args val (c.spatial + i) (c.oc + j) c.ic + betaOf args c.ic * v := by
    intro v
    unfold productOf
    rw [trace_flatMap_of_unique List.nodup_range (List.mem_range.mpr hj)]
    · have hi' := List.mem_range.mpr hi
      rw [List.map_eq_flatMap, trace_flatMap_of_unique List.nodup_range hi']
      · exact trace_cons_self _ [] v
      · intro i' _ hne e he heq
        rw [List.mem_singleton.mp he] at heq
        exact hne (block_unique hin hi hj hj heq).1
    · intro j' hj' hne e he heq
      obtain ⟨i', _, rfl⟩ := List.mem_map.mp he
      exact hne (block_unique hin hi hj (List.mem_range.mp hj') heq).2
  have hpost : ∀ v, trace (addr jcp (c.spatial + i) (c.oc + j)) (postOps jcp args nthrIn (c.pos jcp) (c.step jcp part)) v =
      postOf jcp args (c.spatial + i) (c.oc + j) v := by
    intro v
    rw [postOps_eq hnthr hin, trace_flatMap_of_unique List.nodup_range (List.mem_range.mpr hj),
      trace_flatMap_of_unique List.nodup_range (List.mem_range.mpr hi), trace_postProg]
    · intro i' _ hne e he heq
      rw [postProg_dst he] at heq
      exact hne (block_unique hin hi hj hj heq).1
    · intro j' hj' hne e he heq
      obtain ⟨i', _, he⟩ := List.mem_flatMap.mp he
      rw [postProg_dst he] at heq
      exact hne (block_unique hin hi hj (List.mem_range.mp hj') heq).2
  unfold kerProg blockValue
  rw [trace_append, hprod]
  dsimp only
  split_ifs with hlast
  · exact hpost _
  · rfl

/-! ## All blocks of input channels -/

/-- The whole sum. -/
def fullSum (jcp : JitGemmConvConf) (args : Args R) (val : ℕ → ℕ → R) (x oc : ℕ) : R :=
  ∑ q ∈ Finset.range (jcp.ic * jcp.ks), val x q * args.weights (weightsAddr jcp x oc q)

/-- The blocks of input channels from `ic` on, by induction on the blocks. -/
theorem foldl_blockValue (h : Blocks jcp) (val : ℕ → ℕ → R) (x oc : ℕ) {fuel ic : ℕ} (hic : ic < jcp.ic)
    (hfuel : jcp.ic ≤ ic + fuel) (v : R) :
    (starts (lenIc jcp) jcp.ic fuel ic).foldl (blockValue jcp args val x oc) v =
      postOf jcp args x oc (∑ q ∈ Finset.range ((jcp.ic - ic) * jcp.ks),
        val x (ic * jcp.ks + q) * args.weights (weightsAddr jcp x oc (ic * jcp.ks + q)) + betaOf args ic * v) := by
  induction fuel generalizing ic v with
  | zero => omega
  | succ fuel ih =>
    have hpos := h.lenIc_pos ic hic
    have hle : lenIc jcp ic ≤ jcp.ic - ic := min_le_right _ _
    unfold starts
    rw [if_pos hic, List.foldl_cons]
    by_cases hlast : ic + lenIc jcp ic = jcp.ic
    · have hlen : lenIc jcp ic = jcp.ic - ic := by omega
      rw [starts_of_le (by omega), List.foldl_nil, blockValue, if_pos hlast, partialSum, hlen]
    · have hbeta : betaOf args (ic + lenIc jcp ic) = 1 := by
        unfold betaOf
        rw [if_neg (by omega)]
      have hsplit : (jcp.ic - ic) * jcp.ks = lenIc jcp ic * jcp.ks + (jcp.ic - (ic + lenIc jcp ic)) * jcp.ks := by
        rw [← Nat.add_mul]
        congr 1
        omega
      have hshift : ∀ q, ic * jcp.ks + (lenIc jcp ic * jcp.ks + q) = (ic + lenIc jcp ic) * jcp.ks + q := by
        intro q
        ring
      rw [ih (by omega) (by omega), hbeta, one_mul, hsplit, Finset.sum_range_add, blockValue, if_neg hlast, partialSum]
      simp only [hshift]
      congr 1
      ring

/-- An element of the part of a thread. -/
def Part.Has (part : Part) (x oc : ℕ) : Prop :=
  (part.startSp ≤ x ∧ x < part.endSp) ∧ part.startOc ≤ oc ∧ oc < part.endOc

/-- A call whose block contains the element. -/
theorem exists_call (h : Blocks jcp) (hic : 0 < jcp.ic) (hin : part.Inside jcp) {x oc : ℕ} (hhas : part.Has x oc) :
    ∃ c ∈ calls jcp part, ∃ i < lenSp jcp part c.spatial, ∃ j < lenOc jcp part c.oc,
      c.spatial + i = x ∧ c.oc + j = oc := by
  obtain ⟨sp, hsp, hx⟩ := exists_start h.lenSp_pos hin.fuel_sp hhas.1.1 hhas.1.2
  obtain ⟨c, hc, hoc⟩ := exists_start (h.lenOc_pos hin.endOc) hin.fuel_oc hhas.2.1 hhas.2.2
  obtain ⟨rest, hrest, -⟩ := starts_eq_cons (lenIc jcp) hic (fuel_ic jcp)
  have hic0 : 0 ∈ icStarts jcp := by
    unfold icStarts
    rw [hrest]
    exact List.mem_cons_self
  refine ⟨⟨sp, 0, c⟩, mem_calls.mpr ⟨hsp, hic0, hc⟩, x - sp, ?_, oc - c, ?_, ?_, ?_⟩
  all_goals
    dsimp only
    omega

/-- The innermost loop for an element that belongs to the block of positions. -/
theorem trace_ocCalls (h : Blocks jcp) (hnthr : 0 < nthrIn) (hin : part.Inside jcp) (val : ℕ → ℕ → R) {x oc : ℕ}
    (hhas : part.Has x oc) {spatial : ℕ} (hx : spatial ≤ x ∧ x < spatial + lenSp jcp part spatial) (ic : ℕ) (v : R) :
    trace (addr jcp x oc) ((ocCalls jcp part spatial ic).flatMap (kerProg jcp args nthrIn part val)) v =
      blockValue jcp args val x oc v ic := by
  obtain ⟨c, hc, hoc⟩ := exists_start (h.lenOc_pos hin.endOc) hin.fuel_oc hhas.2.1 hhas.2.2
  obtain ⟨i, rfl⟩ := Nat.exists_eq_add_of_le hx.1
  obtain ⟨j, rfl⟩ := Nat.exists_eq_add_of_le hoc.1
  have hi : i < lenSp jcp part spatial := by omega
  have hj : j < lenOc jcp part c := by omega
  unfold ocCalls ocStarts
  rw [List.flatMap_map, trace_flatMap_of_unique (nodup_starts (h.lenOc_pos hin.endOc)) hc]
  · exact trace_kerProg (c := ⟨spatial, ic, c⟩) hnthr hin val hi hj v
  · intro c' hc' hne e he heq
    obtain ⟨-, i', -, j', hj', hdst⟩ := kerProg_dst hnthr hin he
    rw [hdst] at heq
    obtain ⟨-, hoc'⟩ := addr_injective (hin.position hi).2.1 (hin.channel hj).2 (hin.channel hj').2 heq.symm
    dsimp only at hoc' hj'
    have hblock : c' ≤ c + j ∧ c + j < c' + lenOc jcp part c' := by omega
    exact hne (start_unique hc' hc hblock hoc)

/-- The other blocks of positions do not touch the element. -/
theorem ocCalls_dst_ne (hnthr : 0 < nthrIn) (hin : part.Inside jcp) {val : ℕ → ℕ → R} {x oc : ℕ}
    (hhas : part.Has x oc) {sp spatial ic : ℕ} (hsp : sp ∈ spStarts jcp part) (hspatial : spatial ∈ spStarts jcp part)
    (hx : sp ≤ x ∧ x < sp + lenSp jcp part sp) (hne : spatial ≠ sp) :
    ∀ e ∈ (ocCalls jcp part spatial ic).flatMap (kerProg jcp args nthrIn part val), e.dst ≠ addr jcp x oc := by
  intro e he heq
  obtain ⟨c, hc, he⟩ := List.mem_flatMap.mp he
  obtain ⟨-, i, hi, j, hj, hdst⟩ := kerProg_dst hnthr hin he
  have hmem := mem_ocCalls hc
  rw [hdst] at heq
  obtain ⟨hx', -⟩ := addr_injective (hin.position hi).2.1 (hin.channel hj).2
    (Nat.lt_of_lt_of_le hhas.2.2 hin.endOc) heq
  rw [hmem.1] at hx' hi
  exact hne (start_unique hspatial hsp ⟨by omega, by omega⟩ hx)

/-- What the program of a thread does to an element of its part. -/
theorem trace_calls (h : Blocks jcp) (hic : 0 < jcp.ic) (hnthr : 0 < nthrIn) (hin : part.Inside jcp) (val : ℕ → ℕ → R)
    {x oc : ℕ} (hhas : part.Has x oc) (v : R) :
    trace (addr jcp x oc) ((calls jcp part).flatMap (kerProg jcp args nthrIn part val)) v =
      postOf jcp args x oc (fullSum jcp args val x oc + args.beta * v) := by
  obtain ⟨sp, hsp, hx⟩ := exists_start h.lenSp_pos hin.fuel_sp hhas.1.1 hhas.1.2
  have hnodup : (spStarts jcp part).Nodup := nodup_starts h.lenSp_pos
  -- the blocks of input channels one after the other
  have hblocks : trace (addr jcp x oc) ((calls jcp part).flatMap (kerProg jcp args nthrIn part val)) v =
      (icStarts jcp).foldl (blockValue jcp args val x oc) v := by
    unfold calls
    cases jcp.loopOrder with
    | rlb =>
      dsimp only
      rw [List.flatMap_assoc, trace_flatMap]
      congr 1
      funext v ic
      rw [List.flatMap_assoc, trace_flatMap_of_unique hnodup hsp]
      · exact trace_ocCalls h hnthr hin val hhas hx ic v
      · intro spatial hspatial hne
        exact ocCalls_dst_ne hnthr hin hhas hsp hspatial hx hne
    | lrb =>
      dsimp only
      rw [List.flatMap_assoc, trace_flatMap_of_unique hnodup hsp, List.flatMap_assoc, trace_flatMap]
      · congr 1
        funext v ic
        exact trace_ocCalls h hnthr hin val hhas hx ic v
      · intro spatial hspatial hne e he
        rw [List.flatMap_assoc] at he
        obtain ⟨ic, _, he⟩ := List.mem_flatMap.mp he
        exact ocCalls_dst_ne hnthr hin hhas hsp hspatial hx hne e he
  rw [hblocks, icStarts, foldl_blockValue h val x oc hic (fuel_ic jcp), fullSum]
  simp only [Nat.zero_mul, Nat.zero_add, Nat.sub_zero]
  rfl

end MklDnn.GemmConvolutionFwd
