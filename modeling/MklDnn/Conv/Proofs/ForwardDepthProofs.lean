import MklDnn.Conv.Proofs.VolumeProofs

/-!
# Proofs: when the forward convolution by GEMM handles the depth

The helpers for planes are chosen if the image has one plane, whatever the depth of the kernel and of the output.
-/

open LoopNest Interleaving

namespace MklDnn

open JitGemmConvolutionUtils

namespace JitGemmConvConf

/-- No tap of the kernel lies inside the rows and the columns of the image. -/
def NoTap (jcp : JitGemmConvConf) : Prop :=
  ∀ kh < jcp.kh, ∀ kw < jcp.kw, ∀ oh < jcp.oh, ∀ ow < jcp.ow, ¬ InPlane jcp oh ow kh kw

/-- The image has several planes, or there is nothing to do in the third dimension. -/
def DepthHandled (jcp : JitGemmConvConf) : Prop :=
  jcp.id ≠ 1 ∨ jcp.kd = 1 ∧ (jcp.od = 1 ∧ jcp.fPad = 0 ∨ jcp.NoTap)

end JitGemmConvConf

namespace GemmConvolutionFwd

variable {R : Type*} [CommRing R] [LinearOrder R] {jcp : JitGemmConvConf}

/-- The forward pass leaves what the reference computes, for all inputs and attributes, whatever the columns held
before, for every team and in every order of the threads. -/
def ComputesReference (R : Type*) [CommRing R] [LinearOrder R] (jcp : JitGemmConvConf) : Prop :=
  ∀ (args : Args R) (scratch : ℕ → ℤ → R) (nthr nthrIn : ℕ), 0 < nthr → 0 < nthrIn →
    ∃ progs : ℕ → List (Assign ℕ R),
      (∀ ithr, program jcp args nthrIn scratch nthr ithr = some (progs ithr)) ∧
      ∀ mb < jcp.mb, ∀ g < jcp.ngroups, ∀ oc < jcp.oc, ∀ od < jcp.od, ∀ oh < jcp.oh, ∀ ow < jcp.ow,
        ∀ o, IsOrder progs o → ∀ dst : ℕ → R,
          execAll (o.map Prod.snd) dst (RefConvolution.dstOff jcp mb (g * jcp.oc + oc) od oh ow) =
            args.activation
              (args.beta * dst (RefConvolution.dstOff jcp mb (g * jcp.oc + oc) od oh ow) +
                RefConvolution.executeForward jcp args.src args.weights args.bias g mb oc od oh ow)

/-- Columns whose sums are those of the reference. -/
theorem computesReference_of_val (hacc : jcp.Accepted) (hblocks : jcp.FwdBlocks) {J : (ℤ → R) → Prop}
    {val : Args R → ℕ → ℕ → R}
    (hunf : ∀ (args : Args R) (scratch : ℕ → ℤ → R) (nthr nthrIn : ℕ), 0 < nthrIn →
      AllUnfold jcp args nthrIn nthr (val args) scratch J)
    (hsum : ∀ (args : Args R) {mb g od oh ow : ℕ}, IsOut jcp mb g od oh ow → ∀ oc,
      fullSum jcp args (val args) (outPos jcp mb g od oh ow) oc =
        RefConvolution.fwdKer jcp args.src args.weights g mb oc od oh ow) : ComputesReference R jcp := by
  intro args scratch nthr nthrIn hnthr hnthrIn
  have hb := blocks_of hacc hblocks
  refine ⟨threadProg jcp args nthrIn (val args) nthr,
    program_eq hb hacc.ic hblocks.nthrOc (hunf args scratch nthr nthrIn hnthrIn), ?_⟩
  intro mb hmb g hg oc hoc od hod oh hoh ow how o ho dst
  have hout : IsOut jcp mb g od oh ow := ⟨hmb, hg, hod, hoh, how⟩
  rw [← hout.addr_outPos,
    execAll_threads hb hacc.ic hblocks.nthrOc hnthrIn hnthr ho dst hout.outPos_lt hoc, postOf, hsum args hout,
    hout.biasOf_outPos]
  unfold RefConvolution.executeForward
  congr 1
  ring

theorem computesReference_volume (hacc : jcp.Accepted) (hblocks : jcp.FwdBlocks) (hid : jcp.id ≠ 1) :
    ComputesReference R jcp := by
  refine @computesReference_of_val R _ _ jcp hacc hblocks (KeepsZero jcp) (volumeVal jcp) ?_ ?_
  · intro args scratch nthr nthrIn hnthrIn
    refine ⟨fun ithr hithr => unfolds_volume hacc hblocks hid hnthrIn hithr, fun ithr _ hsz => ?_⟩
    unfold initState
    rw [if_pos ⟨hsz, hid⟩]
    exact fun _ _ _ _ _ _ _ _ => rfl
  · exact fun args _ _ _ _ _ hout oc => fullSum_volume hout oc

/-- One plane of the kernel, and nothing to do in the third dimension. -/
theorem computesReference_plane (hacc : jcp.Accepted) (hblocks : jcp.FwdBlocks) (hid : jcp.id = 1) (hkd : jcp.kd = 1)
    (h : jcp.od = 1 ∧ jcp.fPad = 0 ∨ jcp.NoTap) : ComputesReference R jcp := by
  refine @computesReference_of_val R _ _ jcp hacc hblocks (fun _ => True) (planeVal jcp) ?_ ?_
  · intro args scratch nthr nthrIn hnthrIn
    exact ⟨fun ithr hithr => unfolds_plane hacc hid hkd hnthrIn (partOf_inside hblocks.nthrOc hithr),
      fun _ _ => trivial⟩
  · intro args mb g od oh ow hout oc
    rw [fullSum_plane hid hkd hout, fwdKer_eq]
    refine Finset.sum_congr rfl fun ic _ => Finset.sum_congr rfl fun kd hkd' => Finset.sum_congr rfl fun kh hkh =>
      Finset.sum_congr rfl fun kw hkw => ?_
    rcases h with ⟨hod, hfPad⟩ | hno
    · have hzero : idOf jcp od kd = 0 := by
        have hod0 : od = 0 := by
          have hlt := hout.od
          omega
        rw [hkd, Finset.mem_range] at hkd'
        unfold idOf
        rw [hod0, hfPad, Nat.lt_one_iff.mp hkd']
        push_cast
        ring
      rw [hzero, if_pos ⟨le_refl _, by omega⟩]
      rfl
    · have hout' : ∀ id, planeTerm jcp args.src args.weights g mb oc oh ow id ic kd kh kw = 0 :=
        fun id => if_neg (hno kh (Finset.mem_range.mp hkh) kw (Finset.mem_range.mp hkw) oh hout.oh ow hout.ow)
      rw [hout', hout', ite_self]

/-! ## Failures -/

/-- The tap that does not belong to the image. -/
def tapArgs (R : Type*) [CommRing R] (src : R) (q : ℕ) : Args R where
  src := fun _ => src
  weights := fun i => if i = q then 1 else 0
  bias := fun _ => 0
  beta := 0
  eltwise := none

omit [LinearOrder R] in
theorem tapArgs_weights (src : R) (q i : ℕ) : (tapArgs R src q).weights i = if i = q then 1 else 0 := rfl

omit [LinearOrder R] in
theorem biasOf_tapArgs (src : R) (q x oc : ℕ) : biasOf jcp (tapArgs R src q) x oc = 0 := ite_self 0

theorem postOf_tapArgs (src : R) (q x oc : ℕ) (d : R) : postOf jcp (tapArgs R src q) x oc d = d := by
  rw [postOf, biasOf_tapArgs, add_zero]
  rfl

theorem blockValue_tapArgs (src : R) (q : ℕ) (val : ℕ → ℕ → R) (x oc : ℕ) (v : R) (ic : ℕ) :
    blockValue jcp (tapArgs R src q) val x oc v ic =
      partialSum jcp (tapArgs R src q) val x oc ic + betaOf (tapArgs R src q) ic * v := by
  unfold blockValue
  dsimp only
  rw [postOf_tapArgs, ite_self]

theorem isOut_zero (hacc : jcp.Accepted) {od oh ow : ℕ} (hod : od < jcp.od) (hoh : oh < jcp.oh) (how : ow < jcp.ow) :
    IsOut jcp 0 0 od oh ow := ⟨hacc.mb, hacc.ngroups, hod, hoh, how⟩

/-- The weights of the first group and the first output channel. -/
theorem weightsAddr_zero {x q : ℕ} (hx : x < M jcp) : weightsAddr jcp x 0 q = q := by
  unfold weightsAddr
  rw [Nat.div_eq_of_lt hx, Nat.zero_mod, Nat.zero_mul, Nat.zero_mul, Nat.zero_add]

/-- The first image and group. -/
theorem outPos_zero_lt {od oh ow : ℕ} (hout : IsOut jcp 0 0 od oh ow) : outPos jcp 0 0 od oh ow < M jcp := by
  have hlt := hout.slice_lt
  unfold outPos
  rw [Nat.zero_mul, Nat.zero_add, Nat.zero_mul, Nat.zero_add]
  exact hlt

omit [LinearOrder R] in
/-- Only one tap has a weight. -/
theorem fullSum_tapArgs (src : R) (val : ℕ → ℕ → R) {x q : ℕ} (hx : x < M jcp) (hq : q < jcp.ic * jcp.ks) :
    fullSum jcp (tapArgs R src q) val x 0 = val x q := by
  unfold fullSum
  rw [Finset.sum_eq_single q]
  · rw [weightsAddr_zero hx, tapArgs_weights, if_pos rfl, mul_one]
  · intro p _ hne
    rw [weightsAddr_zero hx, tapArgs_weights, if_neg hne, mul_zero]
  · exact fun hnot => absurd (Finset.mem_range.mpr hq) hnot

omit [LinearOrder R] in
/-- The first block of input channels. -/
theorem partialSum_tapArgs (src : R) (val : ℕ → ℕ → R) {x q : ℕ} (hx : x < M jcp) (hq : q < lenIc jcp 0 * jcp.ks) :
    partialSum jcp (tapArgs R src q) val x 0 0 = val x q := by
  unfold partialSum
  simp only [Nat.zero_mul, Nat.zero_add]
  rw [Finset.sum_eq_single q]
  · rw [weightsAddr_zero hx, tapArgs_weights, if_pos rfl, mul_one]
  · intro p _ hne
    rw [weightsAddr_zero hx, tapArgs_weights, if_neg hne, mul_zero]
  · exact fun hnot => absurd (Finset.mem_range.mpr hq) hnot

/-- With a kernel of one plane, every plane of the output is that of the first plane of the image. -/
theorem depth_of_plane [Nontrivial R] (hacc : jcp.Accepted) (hblocks : jcp.FwdBlocks) (hid : jcp.id = 1)
    (hkd : jcp.kd = 1) (h : ComputesReference R jcp) : jcp.od = 1 ∧ jcp.fPad = 0 ∨ jcp.NoTap := by
  by_contra hcond
  rw [not_or] at hcond
  obtain ⟨hdepth, htap⟩ := hcond
  unfold JitGemmConvConf.NoTap at htap
  push Not at htap
  obtain ⟨kh, hkh, kw, hkw, oh, hoh, ow, how, hin⟩ := htap
  -- a plane of the output that does not read the plane of the image
  obtain ⟨od, hod, hidOf⟩ : ∃ od < jcp.od, idOf jcp od (0 : ℕ) ≠ 0 := by
    obtain ⟨padR, hstride, -⟩ := hacc.descD
    unfold idOf
    by_cases hfPad : jcp.fPad = 0
    · refine ⟨1, ?_, ?_⟩
      · have hpos := hacc.od
        have hne : jcp.od ≠ 1 := fun hod => hdepth ⟨hod, hfPad⟩
        omega
      · rw [hfPad]
        push_cast
        omega
    · refine ⟨0, hacc.od, ?_⟩
      push_cast
      omega
  have hout := isOut_zero hacc hod hoh how
  have hb := blocks_of hacc hblocks
  have hq : kh * jcp.kw + kw < jcp.ks := tap_lt_ks hacc.kd hkh hkw
  obtain ⟨progs, hprogs, hvalue⟩ := h (tapArgs R 1 (kh * jcp.kw + kw)) (fun _ _ => 0) 1 1 Nat.one_pos Nat.one_pos
  have hunf : AllUnfold jcp (tapArgs R 1 (kh * jcp.kw + kw)) 1 1 (planeVal jcp (tapArgs R 1 (kh * jcp.kw + kw)))
      (fun _ _ => 0) (fun _ => True) := {
    unfolds := fun ithr hithr => unfolds_plane hacc hid hkd Nat.one_pos (partOf_inside hblocks.nthrOc hithr)
    init := fun _ _ => trivial }
  have hthread : progs = threadProg jcp (tapArgs R 1 (kh * jcp.kw + kw)) 1
      (planeVal jcp (tapArgs R 1 (kh * jcp.kw + kw))) 1 := by
    funext ithr
    have heq := program_eq hb hacc.ic hblocks.nthrOc hunf ithr
    rw [hprogs] at heq
    exact Option.some.inj heq
  have hempty : ∀ p ≠ 0, progs p = [] := by
    intro p hp
    rw [hthread]
    exact if_neg (by omega)
  have horder := isOrder_single hempty
  have href := hvalue 0 hacc.mb 0 hacc.ngroups 0 hacc.oc od hod oh hoh ow how _ horder (fun _ => 0)
  rw [hthread] at horder
  have hcode := execAll_threads hb hacc.ic hblocks.nthrOc Nat.one_pos Nat.one_pos horder (fun _ => 0) hout.outPos_lt
    hacc.oc
  rw [hout.addr_outPos, ← hthread, href] at hcode
  -- the reference has no tap there
  have hker : RefConvolution.fwdKer jcp (tapArgs R 1 (kh * jcp.kw + kw)).src (tapArgs R 1 (kh * jcp.kw + kw)).weights 0 0 0
      od oh ow = 0 := by
    rw [fwdKer_eq]
    refine Finset.sum_eq_zero fun ic _ => Finset.sum_eq_zero fun kd hkd' => Finset.sum_eq_zero fun kh' _ =>
      Finset.sum_eq_zero fun kw' _ => ?_
    rw [hkd, Finset.mem_range, Nat.lt_one_iff] at hkd'
    rw [hkd', if_neg]
    omega
  have hq' : kh * jcp.kw + kw < jcp.ic * jcp.ks := hq.trans_le (Nat.le_mul_of_pos_left _ hacc.ic)
  have hval : planeVal jcp (tapArgs R 1 (kh * jcp.kw + kw)) (outPos jcp 0 0 od oh ow) (kh * jcp.kw + kw) = 1 := by
    unfold planeVal
    rw [hout.row, hout.column, Nat.mod_eq_of_lt hq, Nat.mul_comm kh, Nat.mul_add_div hacc.kw, Nat.div_eq_of_lt hkw,
      Nat.add_zero, Nat.mul_add_mod, Nat.mod_eq_of_lt hkw]
    exact if_pos hin
  rw [postOf_tapArgs, fullSum_tapArgs 1 _ (outPos_zero_lt hout) hq', hval] at hcode
  unfold RefConvolution.executeForward at hcode
  rw [hker] at hcode
  simp [tapArgs, Args.activation] at hcode

/-- The values that the columns of a call hold. -/
def valOf (jcp : JitGemmConvConf) (args : Args R) (part : Part) (c : Call) (col : ℤ → R) (x q : ℕ) : R :=
  source jcp args (c.pos jcp) col (x - c.spatial + (q - c.ic * jcp.ks) * lda jcp part c)

omit [CommRing R] [LinearOrder R] in
theorem filled_valOf (args : Args R) (part : Part) (c : Call) (col : ℤ → R) :
    Filled jcp args part (valOf jcp args part c col) c col := by
  intro i _ p _
  unfold valOf
  rw [Nat.add_sub_cancel_left, Nat.add_sub_cancel_left]

/-- A call that keeps an element, whatever the columns hold. -/
theorem trace_foldl_call {args : Args R} {nthrIn : ℕ} {part : Part} (hin : part.Inside jcp) {a : ℕ} {l : List Call}
    (hl : ∀ c ∈ l, ∀ (val : ℕ → ℕ → R) (v : R), trace a (kerProg jcp args nthrIn part val c) v = v) (s : State R) (v : R) :
    trace a (l.foldl (call jcp args nthrIn part) s).prog v = trace a s.prog v := by
  induction l generalizing s with
  | nil => rfl
  | cons c l ih =>
    rw [List.foldl_cons, ih fun c hc => hl c (List.mem_cons_of_mem _ hc), call_prog_eq hin (filled_valOf args part c _),
      trace_append, hl c List.mem_cons_self]

/-- The assignments of a thread belong to its calls. -/
theorem mem_foldl_call {args : Args R} {nthrIn : ℕ} {part : Part} (hin : part.Inside jcp) {l : List Call} {s : State R}
    {e : Assign ℕ R} (he : e ∈ (l.foldl (call jcp args nthrIn part) s).prog) :
    e ∈ s.prog ∨ ∃ (c : Call) (val : ℕ → ℕ → R), e ∈ kerProg jcp args nthrIn part val c := by
  induction l generalizing s with
  | nil => exact Or.inl he
  | cons c l ih =>
    rw [List.foldl_cons] at he
    rcases ih he with he | hmem
    · rw [call_prog_eq hin (filled_valOf args part c _)] at he
      rcases List.mem_append.mp he with he | he
      · exact Or.inl he
      · exact Or.inr ⟨c, _, he⟩
    · exact Or.inr hmem

/-- A call for other input channels adds nothing. -/
theorem trace_kerProg_other (hacc : jcp.Accepted) {nthrIn : ℕ} (hnthrIn : 0 < nthrIn) {part : Part}
    (hin : part.Inside jcp) {c : Call} (hspatial : c.spatial < spWork jcp) {q : ℕ} (hq : q < jcp.ks)
    (hne : ¬ (c.spatial = 0 ∧ c.ic = 0 ∧ c.oc = 0)) (src : R) (val : ℕ → ℕ → R) (v : R) :
    trace (addr jcp 0 0) (kerProg jcp (tapArgs R src q) nthrIn part val c) v = v := by
  by_cases hblock : (c.spatial = 0 ∧ c.oc = 0) ∧ 0 < lenSp jcp part c.spatial ∧ 0 < lenOc jcp part c.oc
  · obtain ⟨⟨hsp, hoc⟩, hlenSp, hlenOc⟩ := hblock
    have hic : 0 < c.ic := Nat.pos_of_ne_zero fun hic => hne ⟨hsp, hic, hoc⟩
    have htrace : trace _ (kerProg jcp (tapArgs R src q) nthrIn part val c) v = _ :=
      trace_kerProg hnthrIn hin val hlenSp hlenOc v
    rw [hsp, hoc, Nat.add_zero] at htrace
    rw [htrace]
    have hsum : partialSum jcp (tapArgs R src q) val 0 0 c.ic = 0 := by
      apply Finset.sum_eq_zero
      intro p _
      have hks : jcp.ks ≤ c.ic * jcp.ks := Nat.le_mul_of_pos_left _ hic
      rw [weightsAddr_zero (M_pos (hsp ▸ hspatial)), tapArgs_weights, if_neg (by omega), mul_zero]
    have hbeta : betaOf (tapArgs R src q) c.ic = 1 := if_neg (Nat.ne_of_gt hic)
    rw [blockValue_tapArgs, hsum, hbeta, one_mul, zero_add]
  · apply trace_of_ne
    intro e he hdst
    obtain ⟨-, i, hi, j, hj, hdst'⟩ := kerProg_dst hnthrIn hin he
    rw [hdst] at hdst'
    obtain ⟨hx, hoc⟩ := addr_injective (hin.position hi).2.1 (hin.channel hj).2 hacc.oc hdst'.symm
    omega

/-- A team of one thread. -/
theorem partOf_one (hid : jcp.id = 1) (hnthrOc : 0 < jcp.nthrOc) : partOf jcp 1 0 = ⟨0, spWork jcp, 0, jcp.oc⟩ := by
  have hcount : min jcp.nthrOc 1 = 1 := Nat.min_eq_right hnthrOc
  unfold partOf balance2D
  rw [if_pos hid, hcount]
  rfl

omit [LinearOrder R] in
/-- The columns of one plane do not reach the second plane of the kernel. -/
theorem im2col_second_plane (hacc : jcp.Accepted) (hkd : 1 < jcp.kd) {im : ℤ → R} {ss sb cs cb nthrIn : ℕ}
    (hnthrIn : 0 < nthrIn) (hsb : 0 < sb) (col : ℤ → R) :
    applyWrites (im2col jcp im ss sb cs cb nthrIn) col (jcp.kh * jcp.kw * sb : ℕ) = col (jcp.kh * jcp.kw * sb : ℕ) := by
  apply applyWrites_of_notMem
  intro w hw heq
  obtain ⟨ic, -, kh, hkh, kw, hkw, s, hs, rfl⟩ := (fillsTile_im2col hacc.ow hnthrIn w).mp hw
  have hflat : s + (ic * jcp.ks + (kh * jcp.kw + kw)) * sb = 0 + jcp.kh * jcp.kw * sb := by
    have hnat := Int.ofNat.inj heq
    unfold colIdx at hnat
    omega
  have hrow := (add_mul_inj hs hsb hflat).2
  have htap : kw + kh * jcp.kw < jcp.kh * jcp.kw := add_mul_lt hkw hkh
  have hplane : 0 < jcp.kh * jcp.kw := Nat.mul_pos hacc.kh hacc.kw
  have hks : jcp.kh * jcp.kw < jcp.ks := (Nat.lt_mul_iff_one_lt_right hplane).mpr hkd
  rcases Nat.eq_zero_or_pos ic with rfl | hic
  · omega
  · have hle : jcp.ks ≤ ic * jcp.ks := Nat.le_mul_of_pos_left _ hic
    omega

/-- With several planes of the kernel, the columns of one plane leave what the buffer held before. -/
theorem kd_eq_one [Nontrivial R] (hacc : jcp.Accepted) (hblocks : jcp.FwdBlocks) (hid : jcp.id = 1)
    (h : ComputesReference R jcp) : jcp.kd = 1 := by
  by_contra hkd
  have hkd : 1 < jcp.kd := by
    have hpos := hacc.kd
    omega
  have hplane : 0 < jcp.kh * jcp.kw := Nat.mul_pos hacc.kh hacc.kw
  have hq : jcp.kh * jcp.kw < jcp.ks := (Nat.lt_mul_iff_one_lt_right hplane).mpr hkd
  have hsz : jcp.im2colSz ≠ 0 := by
    intro hsz
    have hone := (hacc.of_no_columns hsz).2.2.2.2.2.2.1
    omega
  have hb := blocks_of hacc hblocks
  have hout := isOut_zero hacc hacc.od hacc.oh hacc.ow
  obtain ⟨progs, hprogs, hvalue⟩ := h (tapArgs R 0 (jcp.kh * jcp.kw)) (fun _ _ => 1) 1 1 Nat.one_pos Nat.one_pos
  have hempty : ∀ p ≠ 0, progs p = [] := by
    intro p hp
    have hprog := hprogs p
    unfold program at hprog
    rw [if_neg (by omega)] at hprog
    exact (Option.some.inj hprog).symm
  have hfirst := hprogs 0
  unfold program at hfirst
  have hin : (partOf jcp 1 0).Inside jcp := partOf_inside hblocks.nthrOc Nat.one_pos
  have hpart := partOf_one hid hblocks.nthrOc
  have hzero : 0 < spWork jcp := Nat.lt_of_le_of_lt (Nat.zero_le _) hout.outPos_lt
  rw [if_pos Nat.one_pos, loops_eq hb hacc.ic hin hb.osBlock hb.icBlock, Option.map_some, Option.some.injEq] at hfirst
  have hfuel : (partOf jcp 1 0).endSp ≤ fuel jcp := by
    rw [hpart]
    unfold fuel
    exact (Nat.le_add_right _ _).trans (Nat.le_add_right _ _)
  obtain ⟨rest, hcalls, hrest⟩ := calls_eq_cons hb hacc.ic hin.endOc hfuel (by rw [hpart]; exact hzero)
    (by rw [hpart]; exact hacc.oc)
  have hmem : ∀ c ∈ rest, c ∈ calls jcp (partOf jcp 1 0) := by
    intro c hc
    rw [hcalls]
    exact List.mem_cons_of_mem _ hc
  rw [hcalls, hpart] at hfirst
  rw [hpart] at hin hrest hmem
  have hlocal : ∀ e ∈ progs 0, e.Local := by
    intro e he
    rw [← hfirst] at he
    rcases mem_foldl_call hin he with he | ⟨c, val, he⟩
    · cases he
    · exact (kerProg_dst Nat.one_pos hin he).1
  -- the first call reads the second plane of the kernel, and the others add nothing
  have hlenSp : 0 < lenSp jcp ⟨0, spWork jcp, 0, jcp.oc⟩ 0 := hb.lenSp_pos 0 hzero
  have hlenOc : 0 < lenOc jcp ⟨0, spWork jcp, 0, jcp.oc⟩ 0 := hb.lenOc_pos hin.endOc 0 hacc.oc
  have hfirstCall : ∀ col, col (jcp.kh * jcp.kw * lenSp jcp ⟨0, spWork jcp, 0, jcp.oc⟩ 0 : ℕ) = (1 : R) →
      trace (addr jcp 0 0) (kerProg jcp (tapArgs R 0 (jcp.kh * jcp.kw)) 1 ⟨0, spWork jcp, 0, jcp.oc⟩
        (valOf jcp (tapArgs R 0 (jcp.kh * jcp.kw)) ⟨0, spWork jcp, 0, jcp.oc⟩ ⟨0, 0, 0⟩ col) ⟨0, 0, 0⟩) 0 = 1 := by
    intro col hcol
    have hblock := fun args : Args R => @trace_kerProg R _ _ jcp args 1 ⟨0, spWork jcp, 0, jcp.oc⟩ Nat.one_pos hin
      (valOf jcp args ⟨0, spWork jcp, 0, jcp.oc⟩ ⟨0, 0, 0⟩ col) ⟨0, 0, 0⟩ 0 0 hlenSp hlenOc 0
    refine (hblock _).trans ?_
    rw [blockValue_tapArgs, mul_zero, add_zero]
    have hlenIc := hb.lenIc_pos 0 hacc.ic
    have hks : jcp.ks ≤ lenIc jcp 0 * jcp.ks := Nat.le_mul_of_pos_left _ hlenIc
    rw [partialSum_tapArgs 0 _ (M_pos hzero) (hq.trans_le hks)]
    unfold valOf source lda
    rw [if_pos hsz, if_pos hsz, Nat.zero_mul, Nat.sub_zero, Nat.sub_zero, Nat.zero_add]
    exact hcol
  have htrace : trace (addr jcp 0 0) (progs 0) 0 = 1 := by
    rw [← hfirst, List.foldl_cons, trace_foldl_call hin, call_prog_eq hin (filled_valOf _ _ _ _)]
    · apply hfirstCall
      have hstep : stepOf jcp ⟨0, spWork jcp, 0, jcp.oc⟩ 0 (Call.pos jcp ⟨0, 0, 0⟩) =
          Call.step jcp ⟨0, spWork jcp, 0, jcp.oc⟩ ⟨0, 0, 0⟩ := stepOf_posOf _ _ _ _
      unfold call innerKer
      dsimp only
      rw [if_pos ⟨hsz, rfl⟩, hstep]
      unfold im2colOf initState
      rw [if_pos hid, if_neg fun hboth => hboth.2 hid]
      exact im2col_second_plane hacc hkd Nat.one_pos hlenSp _
    · intro c hc val v
      obtain ⟨hsp, -, -⟩ := mem_calls.mp (hmem c hc)
      exact trace_kerProg_other hacc Nat.one_pos hin (mem_starts hsp).2 hq (hrest c hc) 0 val v
  have horder := isOrder_single hempty
  have hvalue := hvalue 0 hacc.mb 0 hacc.ngroups 0 hacc.oc 0 hacc.od 0 hacc.oh 0 hacc.ow _ horder (fun _ => 0)
  have haddr : RefConvolution.dstOff jcp 0 (0 * jcp.oc + 0) 0 0 0 = addr jcp 0 0 := by
    rw [← hout.addr_outPos]
    unfold outPos
    simp only [Nat.zero_mul, Nat.zero_add]
  rw [haddr, List.map_map, execAll_eq_trace] at hvalue
  · have hsame : List.map (Prod.snd ∘ fun e : Assign ℕ R => ((0 : ℕ), e)) (progs 0) = progs 0 := List.map_id _
    rw [hsame, htrace] at hvalue
    -- the reference reads an image that is zero
    have hker : RefConvolution.fwdKer jcp (tapArgs R 0 (jcp.kh * jcp.kw)).src (tapArgs R 0 (jcp.kh * jcp.kw)).weights
        0 0 0 0 0 0 = 0 := by
      rw [fwdKer_eq]
      refine Finset.sum_eq_zero fun ic _ => Finset.sum_eq_zero fun kd _ => Finset.sum_eq_zero fun kh _ =>
        Finset.sum_eq_zero fun kw _ => ?_
      have hterm : ∀ id, planeTerm jcp (tapArgs R 0 (jcp.kh * jcp.kw)).src (tapArgs R 0 (jcp.kh * jcp.kw)).weights
          0 0 0 0 0 id ic kd kh kw = 0 := by
        intro id
        unfold planeTerm
        rw [show (tapArgs R 0 (jcp.kh * jcp.kw)).src = fun _ => 0 from rfl, zero_mul, ite_self]
      rw [hterm, ite_self]
    unfold RefConvolution.executeForward at hvalue
    rw [hker] at hvalue
    simp [tapArgs, Args.activation] at hvalue
  · intro e he
    obtain ⟨x, hx, rfl⟩ := List.mem_map.mp he
    exact hlocal x hx

/-- The forward pass computes what the reference computes if and only if the depth is handled. -/
theorem computesReference_iff [Nontrivial R] (hacc : jcp.Accepted) (hblocks : jcp.FwdBlocks) :
    ComputesReference R jcp ↔ jcp.DepthHandled := by
  constructor
  · intro h
    by_cases hid : jcp.id = 1
    · have hkd := kd_eq_one hacc hblocks hid h
      exact Or.inr ⟨hkd, depth_of_plane hacc hblocks hid hkd h⟩
    · exact Or.inl hid
  · intro h
    by_cases hid : jcp.id = 1
    · obtain ⟨hkd, h⟩ := h.resolve_left (not_not.mpr hid)
      exact computesReference_plane hacc hblocks hid hkd h
    · exact computesReference_volume hacc hblocks hid

end GemmConvolutionFwd

end MklDnn
