import MklDnn.Conv.ConvolutionPd
import MklDnn.Conv.Proofs.ForwardProofs
import MklDnn.Conv.Proofs.Im2colProofs

/-!
# Proofs: the forward convolution by GEMM on planes

For an image of one plane and a kernel of one plane the columns are those of the padded image, and the sum over the
columns is the direct convolution.
-/

open LoopNest Interleaving

namespace MklDnn

open JitGemmConvolutionUtils

/-! ## Accepted descriptors -/

namespace JitGemmConvConf.Accepted

variable {jcp : JitGemmConvConf} (h : jcp.Accepted)

include h

/-- Without columns the convolution is a product at every position. -/
theorem of_no_columns (hsz : jcp.im2colSz = 0) : jcp.os = jcp.is ∧ jcp.ow = jcp.iw ∧ jcp.od = jcp.id ∧ jcp.ks = 1 ∧
    jcp.kh = 1 ∧ jcp.kw = 1 ∧ jcp.kd = 1 ∧ jcp.strideW = 1 ∧ jcp.strideH = 1 ∧ jcp.strideD = 1 := by
  obtain ⟨how, hoh, hod, hsw, hsh, hsd, hks, -⟩ := h.im2colSz.mp hsz
  obtain ⟨hplane, hkd⟩ := mul_eq_one.mp (show jcp.kh * jcp.kw * jcp.kd = 1 from hks)
  obtain ⟨hkh, hkw⟩ := mul_eq_one.mp hplane
  refine ⟨?_, how, hod, hks, hkh, hkw, hkd, hsw, hsh, hsd⟩
  unfold os is
  rw [how, hoh]

omit h in
/-- A dimension that keeps its size under a kernel of one element has no padding. -/
theorem padL_eq_zero {src dil : ℕ} {padL padR : ℤ} (h : convDescInitDim src 1 dil padL padR 1 src) : padL = 0 := by
  obtain ⟨-, hpadL, hpadR, hdst⟩ := h
  rw [Nat.cast_one, Int.tdiv_one] at hdst
  rw [Nat.cast_one] at hpadR
  simp only [sub_self, zero_mul, add_zero] at hdst
  omega

/-- Then there is no padding. -/
theorem pads_of_no_columns (hsz : jcp.im2colSz = 0) : jcp.fPad = 0 ∧ jcp.tPad = 0 ∧ jcp.lPad = 0 := by
  obtain ⟨-, how, hod, -, hkh, hkw, hkd, hsw, hsh, hsd⟩ := h.of_no_columns hsz
  have hoh := (h.im2colSz.mp hsz).2.1
  obtain ⟨padD, hdescD⟩ := h.descD
  obtain ⟨padH, hdescH⟩ := h.descH
  obtain ⟨padW, hdescW⟩ := h.descW
  rw [hkd, hsd, hod] at hdescD
  rw [hkh, hsh, hoh] at hdescH
  rw [hkw, hsw, how] at hdescW
  exact ⟨padL_eq_zero hdescD, padL_eq_zero hdescH, padL_eq_zero hdescW⟩

/-- A position reads the element of the image at the same place. -/
theorem taps_of_no_columns (hsz : jcp.im2colSz = 0) (i : ℕ) :
    idOf jcp i (0 : ℕ) = i ∧ ihOf jcp i (0 : ℕ) = i ∧ iwOf jcp i (0 : ℕ) = i := by
  obtain ⟨-, -, -, -, -, -, -, hsw, hsh, hsd⟩ := h.of_no_columns hsz
  obtain ⟨hfPad, htPad, hlPad⟩ := h.pads_of_no_columns hsz
  unfold idOf ihOf iwOf
  rw [hsw, hsh, hsd, hfPad, htPad, hlPad, Nat.cast_zero, Nat.cast_one, zero_mul, zero_mul, zero_mul, mul_one, sub_zero,
    add_zero]
  exact ⟨rfl, rfl, rfl⟩

theorem os_pos : 0 < jcp.os := Nat.mul_pos h.oh h.ow

theorem ks_pos : 0 < jcp.ks := Nat.mul_pos (Nat.mul_pos h.kh h.kw) h.kd

end JitGemmConvConf.Accepted

namespace GemmConvolutionFwd

variable {R : Type*} [CommRing R] [LinearOrder R] {jcp : JitGemmConvConf} {args : Args R} {nthrIn nthr : ℕ}

/-! ## Columns of planes -/

/-- The image and the group that a position of the output reads. -/
def imageOf (jcp : JitGemmConvConf) (args : Args R) (x : ℕ) (i : ℤ) : R :=
  args.src (x / M jcp * srcStep jcp + i.toNat)

/-- The columns of an image with one plane, under a kernel of one plane. -/
def planeVal (jcp : JitGemmConvConf) (args : Args R) (x q : ℕ) : R :=
  padded jcp (imageOf jcp args x) (q / jcp.ks) (ihOf jcp (x % jcp.os / jcp.ow : ℕ) (q % jcp.ks / jcp.kw : ℕ))
    (iwOf jcp (x % jcp.os % jcp.ow : ℕ) (q % jcp.ks % jcp.kw : ℕ))

omit [CommRing R] [LinearOrder R] in
/-- The image of a block. -/
theorem srcOf_pos {part : Part} (hin : part.Inside jcp) {c : Call} {i : ℕ} (hi : i < lenSp jcp part c.spatial) (k : ℕ) :
    srcOf jcp args (c.pos jcp) k = args.src ((c.spatial + i) / M jcp * srcStep jcp + k) := by
  obtain ⟨-, hx, hrow⟩ := hin.position hi
  have himage := (posOf_image hx c.ic c.oc).1
  rw [posOf_add hrow] at himage
  unfold srcOf
  rw [← himage]
  rfl

omit [LinearOrder R] in
/-- The place of an element of a block in the whole columns. -/
theorem planeVal_block {part : Part} (hks : 0 < jcp.ks) (hin : part.Inside jcp) {c : Call} {i : ℕ}
    (hi : i < lenSp jcp part c.spatial) (p : ℕ) :
    planeVal jcp args (c.spatial + i) (c.ic * jcp.ks + p) =
      padded jcp (imageOf jcp args (c.spatial + i)) (c.ic + p / jcp.ks)
        (ihOf jcp ((c.spatial % jcp.os + i) / jcp.ow : ℕ) (p % jcp.ks / jcp.kw : ℕ))
        (iwOf jcp ((c.spatial % jcp.os + i) % jcp.ow : ℕ) (p % jcp.ks % jcp.kw : ℕ)) := by
  obtain ⟨-, -, hrow⟩ := hin.position hi
  have hmod : (c.spatial + i) % jcp.os = c.spatial % jcp.os + i := by
    have hsp := congrArg ImPos.sp (posOf_add hrow c.ic c.oc)
    dsimp only at hsp
    rw [posOf_sp, posOf_sp] at hsp
    exact hsp
  unfold planeVal
  rw [hmod, Nat.mul_comm c.ic, Nat.mul_add_div hks, Nat.mul_add_mod]

omit [LinearOrder R] in
/-- The columns of planes are unfolded for every block. -/
theorem unfolds_plane (hacc : jcp.Accepted) (hid : jcp.id = 1) (hkd : jcp.kd = 1) (hnthrIn : 0 < nthrIn) {part : Part}
    (hin : part.Inside jcp) : Unfolds jcp args nthrIn part (planeVal jcp args) (fun _ => True) where
  fill := by
    intro hsz c _ col _
    refine ⟨trivial, ?_⟩
    intro i hi p hp
    have hks : jcp.ks = jcp.kh * jcp.kw := by
      unfold JitGemmConvConf.ks
      rw [hkd, Nat.mul_one]
    have hic : p / jcp.ks < lenIc jcp c.ic := (Nat.div_lt_iff_lt_mul hacc.ks_pos).mpr hp
    have hmod : p % jcp.ks < jcp.kh * jcp.kw := hks ▸ Nat.mod_lt p hacc.ks_pos
    have hkh : p % jcp.ks / jcp.kw < jcp.kh := (Nat.div_lt_iff_lt_mul hacc.kw).mpr hmod
    have hkw : p % jcp.ks % jcp.kw < jcp.kw := Nat.mod_lt _ hacc.kw
    have himage : (fun i : ℤ => srcOf jcp args (c.pos jcp) i.toNat) = imageOf jcp args (c.spatial + i) := by
      funext k
      exact srcOf_pos hin hi k.toNat
    have hidx : i + p * lenSp jcp part c.spatial =
        colIdx jcp (lenSp jcp part c.spatial) (p / jcp.ks) (p % jcp.ks / jcp.kw) (p % jcp.ks % jcp.kw) i := by
      unfold colIdx
      rw [Nat.div_add_mod', Nat.div_add_mod', Nat.add_comm]
    have hfill : FillsTile jcp (imageOf jcp args (c.spatial + i)) (c.spatial % jcp.os) (lenSp jcp part c.spatial) c.ic
        (lenIc jcp c.ic) _ := fillsTile_im2col hacc.ow hnthrIn
    unfold source im2colOf lda
    rw [if_pos hsz, if_pos hsz, if_pos hid, himage, hidx, planeVal_block hacc.ks_pos hin hi]
    unfold Call.pos Call.step
    rw [posOf_sp, posOf_ic]
    exact hfill.applyWrites hacc.kd hic hkh hkw hi col
  direct := by
    intro hsz c _ col i hi p hp
    obtain ⟨hos, how, hod, hks, -⟩ := hacc.of_no_columns hsz
    obtain ⟨-, -, hrow⟩ := hin.position hi
    have hod1 : (c.pos jcp).od = 0 := by
      unfold Call.pos
      rw [posOf_eq, hod, hid, Nat.mod_one]
    have hM : M jcp = jcp.is := by
      unfold M
      rw [hod, hid, Nat.mul_one, hos]
    have hplane := Nat.div_add_mod' (c.spatial % jcp.os + i) jcp.ow
    have hih : (c.spatial % jcp.os + i) / jcp.ow < jcp.ih := by
      rw [← (hacc.im2colSz.mp hsz).2.1, Nat.div_lt_iff_lt_mul hacc.ow]
      exact hrow
    have hiw : (c.spatial % jcp.os + i) % jcp.ow < jcp.iw := how ▸ Nat.mod_lt _ hacc.ow
    rw [planeVal_block hacc.ks_pos hin hi, hks, Nat.div_one, Nat.mod_one, Nat.zero_div, Nat.zero_mod,
      (hacc.taps_of_no_columns hsz _).2.1, (hacc.taps_of_no_columns hsz _).2.2]
    unfold source lda padded imageOf
    rw [if_neg (not_not.mpr hsz), if_neg (not_not.mpr hsz), hod1, hM, srcOf_pos hin hi, if_pos, hM]
    · congr 2
      unfold Call.pos
      rw [posOf_ic, posOf_sp]
      have hplane' : (((c.spatial % jcp.os + i) / jcp.ow : ℕ) : ℤ) * jcp.iw + ((c.spatial % jcp.os + i) % jcp.ow : ℕ) =
          (c.spatial % jcp.os + i : ℕ) := by
        rw [← how]
        exact_mod_cast hplane
      rw [hplane']
      have hnat : ((c.ic + p : ℕ) : ℤ) * jcp.is + (c.spatial % jcp.os + i : ℕ) =
          (c.ic * jcp.is + 0 * jcp.os + c.spatial % jcp.os + (i + p * jcp.is) : ℕ) := by
        push_cast
        ring
      rw [hnat, Int.toNat_natCast]
    · exact ⟨⟨Int.natCast_nonneg _, by exact_mod_cast hih⟩, Int.natCast_nonneg _, by exact_mod_cast hiw⟩

/-! ## The direct convolution -/

section Reference

variable {mb g od oh ow : ℕ}

/-- The product for a tap of the kernel, in plane `id` of the image. -/
def planeTerm (jcp : JitGemmConvConf) (src weights : ℕ → R) (g mb oc oh ow id ic kd kh kw : ℕ) : R :=
  if InPlane jcp oh ow kh kw then
    src (RefConvolution.srcOff jcp mb (g * jcp.ic + ic) id (ihOf jcp oh kh).toNat (iwOf jcp ow kw).toNat) *
      weights (RefConvolution.weightsOff jcp g oc ic kd kh kw)
  else 0

omit [LinearOrder R] in
/-- The direct convolution by the planes of the image. -/
theorem fwdKer_eq (src weights : ℕ → R) (g mb oc od oh ow : ℕ) :
    RefConvolution.fwdKer jcp src weights g mb oc od oh ow =
      ∑ ic ∈ Finset.range jcp.ic, ∑ kd ∈ Finset.range jcp.kd, ∑ kh ∈ Finset.range jcp.kh, ∑ kw ∈ Finset.range jcp.kw,
        if 0 ≤ idOf jcp od kd ∧ idOf jcp od kd < jcp.id then
          planeTerm jcp src weights g mb oc oh ow (idOf jcp od kd).toNat ic kd kh kw
        else 0 := by
  unfold RefConvolution.fwdKer
  refine Finset.sum_congr rfl fun ic _ => Finset.sum_congr rfl fun kd _ => Finset.sum_congr rfl fun kh _ =>
    Finset.sum_congr rfl fun kw _ => ?_
  show (if idOf jcp od kd < 0 ∨ jcp.id ≤ idOf jcp od kd then 0
    else if ihOf jcp oh kh < 0 ∨ jcp.ih ≤ ihOf jcp oh kh then 0
    else if iwOf jcp ow kw < 0 ∨ jcp.iw ≤ iwOf jcp ow kw then 0
    else _) = _
  unfold planeTerm
  by_cases hid : 0 ≤ idOf jcp od kd ∧ idOf jcp od kd < jcp.id
  · rw [if_pos hid, if_neg (by omega)]
    by_cases hih : 0 ≤ ihOf jcp oh kh ∧ ihOf jcp oh kh < jcp.ih
    · rw [if_neg (by omega)]
      by_cases hiw : 0 ≤ iwOf jcp ow kw ∧ iwOf jcp ow kw < jcp.iw
      · rw [if_neg (by omega), if_pos ⟨hih, hiw⟩]
        rfl
      · rw [if_pos (by omega), if_neg fun h => hiw h.2]
    · rw [if_pos (by omega), if_neg fun h => hih h.1]
  · rw [if_neg hid, if_pos (by omega)]

omit [LinearOrder R] in
/-- The sum over the columns of planes. -/
theorem fullSum_plane (hid : jcp.id = 1) (hkd : jcp.kd = 1) (hout : IsOut jcp mb g od oh ow)
    (oc : ℕ) :
    fullSum jcp args (planeVal jcp args) (outPos jcp mb g od oh ow) oc =
      ∑ ic ∈ Finset.range jcp.ic, ∑ kd ∈ Finset.range jcp.kd, ∑ kh ∈ Finset.range jcp.kh, ∑ kw ∈ Finset.range jcp.kw,
        planeTerm jcp args.src args.weights g mb oc oh ow 0 ic kd kh kw := by
  rw [sum_kernel]
  apply Finset.sum_congr rfl
  intro q _
  have hks : jcp.ks = jcp.kh * jcp.kw := by
    unfold JitGemmConvConf.ks
    rw [hkd, Nat.mul_one]
  have hmod : q % jcp.ks % (jcp.kh * jcp.kw) = q % jcp.ks := by rw [← hks, Nat.mod_mod]
  have hpadded : ∀ kh kw : ℕ, padded jcp (imageOf jcp args (outPos jcp mb g od oh ow)) (q / jcp.ks) (ihOf jcp oh kh)
      (iwOf jcp ow kw) = if InPlane jcp oh ow kh kw then imageOf jcp args (outPos jcp mb g od oh ow)
        ((q / jcp.ks : ℕ) * jcp.is + (ihOf jcp oh kh * jcp.iw + iwOf jcp ow kw)) else 0 := fun _ _ => rfl
  unfold planeVal planeTerm
  rw [hout.row, hout.column, hout.weightsAddr_outPos, hmod, hpadded]
  by_cases hin : InPlane jcp oh ow (q % jcp.ks / jcp.kw : ℕ) (q % jcp.ks % jcp.kw : ℕ)
  · rw [if_pos hin, if_pos hin]
    obtain ⟨hih, hiw⟩ := hin
    congr 1
    unfold imageOf RefConvolution.srcOff srcStep JitGemmConvConf.is
    rw [hout.div_M, hid]
    congr 1
    generalize ihOf jcp oh (q % jcp.ks / jcp.kw : ℕ) = ih at hih
    generalize iwOf jcp ow (q % jcp.ks % jcp.kw : ℕ) = iw at hiw
    lift ih to ℕ using hih.1
    lift iw to ℕ using hiw.1
    have hnat : ((q / jcp.ks : ℕ) : ℤ) * ((jcp.ih * jcp.iw : ℕ) : ℤ) + (ih * jcp.iw + iw) =
        ((q / jcp.ks * (jcp.ih * jcp.iw) + (ih * jcp.iw + iw) : ℕ) : ℤ) := by push_cast; ring
    rw [hnat, Int.toNat_natCast, Int.toNat_natCast, Int.toNat_natCast]
    ring
  · rw [if_neg hin, if_neg hin]
    exact zero_mul _

omit [LinearOrder R] in
/-- For problems of one and two dimensions this is the direct convolution. -/
theorem fullSum_planar (hplanar : jcp.Planar) (hout : IsOut jcp mb g od oh ow) (oc : ℕ) :
    fullSum jcp args (planeVal jcp args) (outPos jcp mb g od oh ow) oc =
      RefConvolution.fwdKer jcp args.src args.weights g mb oc od oh ow := by
  have hod : od = 0 := by
    have hlt := hout.od
    rw [hplanar.od] at hlt
    omega
  rw [fullSum_plane hplanar.id hplanar.kd hout, fwdKer_eq]
  refine Finset.sum_congr rfl fun ic _ => Finset.sum_congr rfl fun kd hkd => Finset.sum_congr rfl fun kh _ =>
    Finset.sum_congr rfl fun kw _ => ?_
  have hzero : idOf jcp od kd = 0 := by
    rw [hplanar.kd, Finset.mem_range] at hkd
    unfold idOf
    rw [hod, hplanar.fPad, Nat.lt_one_iff.mp hkd]
    push_cast
    ring
  rw [hzero, if_pos ⟨le_refl _, by rw [hplanar.id]; exact zero_lt_one⟩]
  rfl

end Reference

/-! ## Main result -/

theorem blocks_of (hacc : jcp.Accepted) (hblocks : jcp.FwdBlocks) : Blocks jcp where
  icBlock := hblocks.icBlock
  ocBlock := hblocks.ocBlock
  osBlock := hblocks.osBlock
  os := hacc.os_pos

/-- For problems of one and two dimensions, whatever blocks are selected, the loops of every thread end, one thread
assigns to an element of `dst`, and in every order of the threads the element holds the direct convolution with the
bias and the scaled old value, after one application of the element-wise operation. -/
theorem executeForward_planar (hacc : jcp.Accepted) (hplanar : jcp.Planar) (hblocks : jcp.FwdBlocks)
    (hnthr : 0 < nthr) (hnthrIn : 0 < nthrIn) (args : Args R) (scratch : ℕ → ℤ → R) :
    ∃ progs : ℕ → List (Assign ℕ R),
      (∀ ithr, program jcp args nthrIn scratch nthr ithr = some (progs ithr)) ∧
      ∀ mb < jcp.mb, ∀ g < jcp.ngroups, ∀ oc < jcp.oc, ∀ oh < jcp.oh, ∀ ow < jcp.ow,
        (∃! ithr, ∃ e ∈ progs ithr, e.dst = RefConvolution.dstOff jcp mb (g * jcp.oc + oc) 0 oh ow) ∧
        ∀ o, IsOrder progs o → ∀ dst : ℕ → R,
          execAll (o.map Prod.snd) dst (RefConvolution.dstOff jcp mb (g * jcp.oc + oc) 0 oh ow) =
            args.activation
              (args.beta * dst (RefConvolution.dstOff jcp mb (g * jcp.oc + oc) 0 oh ow) +
                RefConvolution.executeForward jcp args.src args.weights args.bias g mb oc 0 oh ow) := by
  have hb := blocks_of hacc hblocks
  have hunf : AllUnfold jcp args nthrIn nthr (planeVal jcp args) scratch (fun _ => True) := {
    unfolds := fun ithr hithr =>
      unfolds_plane hacc hplanar.id hplanar.kd hnthrIn (partOf_inside hblocks.nthrOc hithr)
    init := fun _ _ => trivial }
  refine ⟨threadProg jcp args nthrIn (planeVal jcp args) nthr, program_eq hb hacc.ic hblocks.nthrOc hunf, ?_⟩
  intro mb hmb g hg oc hoc oh hoh ow how
  have hout : IsOut jcp mb g 0 oh ow := ⟨hmb, hg, hacc.od, hoh, how⟩
  rw [← hout.addr_outPos]
  refine ⟨existsUnique_thread hb hacc.ic hblocks.nthrOc hnthrIn hnthr hout.outPos_lt hoc, ?_⟩
  intro o ho dst
  rw [execAll_threads hb hacc.ic hblocks.nthrOc hnthrIn hnthr ho dst hout.outPos_lt hoc, postOf,
    fullSum_planar hplanar hout, hout.biasOf_outPos]
  unfold RefConvolution.executeForward
  congr 1
  ring

/-- ReLU after the sum with the old `dst`. -/
def reluArgs : Args ℤ := ⟨fun i => i, fun i => i + 1, fun i => i, 1, some (.relu 0)⟩

theorem executeForward_planar_conv3x3 :
    ∃ progs : ℕ → List (Assign ℕ ℤ),
      (∀ ithr, program conv3x3 reluArgs 1 (fun _ _ => 5) 4 ithr = some (progs ithr)) ∧
      ∀ mb < conv3x3.mb, ∀ g < conv3x3.ngroups, ∀ oc < conv3x3.oc, ∀ oh < conv3x3.oh, ∀ ow < conv3x3.ow,
        (∃! ithr, ∃ e ∈ progs ithr, e.dst = RefConvolution.dstOff conv3x3 mb (g * conv3x3.oc + oc) 0 oh ow) ∧
        ∀ o, IsOrder progs o → ∀ dst : ℕ → ℤ,
          execAll (o.map Prod.snd) dst (RefConvolution.dstOff conv3x3 mb (g * conv3x3.oc + oc) 0 oh ow) =
            reluArgs.activation
              (reluArgs.beta * dst (RefConvolution.dstOff conv3x3 mb (g * conv3x3.oc + oc) 0 oh ow) +
                RefConvolution.executeForward conv3x3 reluArgs.src reluArgs.weights reluArgs.bias g mb oc 0 oh ow) :=
  executeForward_planar conv3x3_accepted conv3x3_planar conv3x3_fwdBlocks (Nat.succ_pos 3) Nat.one_pos reluArgs _

end GemmConvolutionFwd

end MklDnn
