import Mathlib.Algebra.BigOperators.Ring.Finset
import MklDnn.Conv.ConvolutionPd
import MklDnn.Conv.Proofs.BwdDataColumnsProofs
import MklDnn.Conv.Proofs.Col2im3dProofs
import MklDnn.Conv.Proofs.ForwardDepthProofs
import MklDnn.Conv.RefConvolution

/-!
# Proofs: reference convolution, backward by data

The taps that `ref_convolution_bwd_data_t` finds by division are the taps that fall on the element of the image.
-/

open LoopNest

namespace MklDnn.RefConvolution

open JitGemmConvolutionUtils

section

variable {M : Type*} [AddCommMonoid M]

/-- The output under one tap, found by division. -/
theorem sum_outputs {jcp : JitGemmConvConf} (hacc : jcp.Accepted) (f : ℕ → ℕ → ℕ → M) (kd kh kw id y x : ℕ) :
    ∑ od ∈ Finset.range jcp.od, ∑ oh ∈ Finset.range jcp.oh, ∑ ow ∈ Finset.range jcp.ow,
        (if Hits3d jcp od oh ow kd kh kw id y x then f od oh ow else 0) =
      if (x : ℤ) + jcp.lPad < kw * jcp.dw ∨ (y : ℤ) + jcp.tPad < kh * jcp.dh ∨ (id : ℤ) + jcp.fPad < kd * jcp.dd then 0
      else if (x - kw * jcp.dw + jcp.lPad).tmod jcp.strideW ≠ 0 ∨ (y - kh * jcp.dh + jcp.tPad).tmod jcp.strideH ≠ 0 ∨
        (id - kd * jcp.dd + jcp.fPad).tmod jcp.strideD ≠ 0 then 0
      else if (id - kd * jcp.dd + jcp.fPad).tdiv jcp.strideD < jcp.od ∧
        (y - kh * jcp.dh + jcp.tPad).tdiv jcp.strideH < jcp.oh ∧ (x - kw * jcp.dw + jcp.lPad).tdiv jcp.strideW < jcp.ow then
        f ((id - kd * jcp.dd + jcp.fPad).tdiv jcp.strideD).toNat ((y - kh * jcp.dh + jcp.tPad).tdiv jcp.strideH).toNat
          ((x - kw * jcp.dw + jcp.lPad).tdiv jcp.strideW).toNat
      else 0 := by
  obtain ⟨-, hsd, -⟩ := hacc.descD
  obtain ⟨-, hsh, -⟩ := hacc.descH
  obtain ⟨-, hsw, -⟩ := hacc.descW
  have hhits : ∀ od oh ow : ℕ, Hits3d jcp od oh ow kd kh kw id y x ↔
      (od : ℤ) * jcp.strideD = id - kd * jcp.dd + jcp.fPad ∧ (oh : ℤ) * jcp.strideH = y - kh * jcp.dh + jcp.tPad ∧
        (ow : ℤ) * jcp.strideW = x - kw * jcp.dw + jcp.lPad := by
    intro od oh ow
    unfold Hits3d idOf ihOf iwOf
    refine and_congr ?_ (and_congr ?_ ?_) <;> constructor <;> intro h <;> linarith
  have hx : (x : ℤ) + jcp.lPad < kw * jcp.dw ↔ (x : ℤ) - kw * jcp.dw + jcp.lPad < 0 := by
    constructor <;> intro h <;> linarith
  have hy : (y : ℤ) + jcp.tPad < kh * jcp.dh ↔ (y : ℤ) - kh * jcp.dh + jcp.tPad < 0 := by
    constructor <;> intro h <;> linarith
  have hid : (id : ℤ) + jcp.fPad < kd * jcp.dd ↔ (id : ℤ) - kd * jcp.dd + jcp.fPad < 0 := by
    constructor <;> intro h <;> linarith
  simp only [hhits, hx, hy, hid]
  exact sum_range_multiples hsd hsh hsw _ _ _ f

end

/-- An element of `diff_src` is the sum over the taps that fall on it. -/
theorem executeBackwardData_eq {R : Type*} [NonUnitalNonAssocSemiring R] {jcp : JitGemmConvConf} (hacc : jcp.Accepted)
    (diffDst weights : ℕ → R) (g mb ic id y x : ℕ) :
    executeBackwardData jcp diffDst weights g mb ic id y x =
      ∑ oc ∈ Finset.range jcp.oc, ∑ kd ∈ Finset.range jcp.kd, ∑ kh ∈ Finset.range jcp.kh, ∑ kw ∈ Finset.range jcp.kw,
        ∑ od ∈ Finset.range jcp.od, ∑ oh ∈ Finset.range jcp.oh, ∑ ow ∈ Finset.range jcp.ow,
          if Hits3d jcp od oh ow kd kh kw id y x then
            diffDst (dstOff jcp mb (g * jcp.oc + oc) od oh ow) * weights (weightsOff jcp g oc ic kd kh kw)
          else 0 := by
  refine Finset.sum_congr rfl fun oc _ => Finset.sum_congr rfl fun kd _ => Finset.sum_congr rfl fun kh _ =>
    Finset.sum_congr rfl fun kw _ => ?_
  exact (sum_outputs hacc (fun od oh ow => diffDst (dstOff jcp mb (g * jcp.oc + oc) od oh ow) *
    weights (weightsOff jcp g oc ic kd kh kw)) kd kh kw id y x).symm

end MklDnn.RefConvolution

/-!
## Proofs: the backward pass by data of a convolution by GEMM

If the depth is handled, an element of `diff_src` is the sum over the taps that fall on it.
-/

open LoopNest Interleaving

namespace MklDnn.GemmConvolutionBwdData

open JitGemmConvolutionUtils

variable {R : Type*} [CommSemiring R] {jcp : JitGemmConvConf} {diffDst weights : ℕ → R} {nthrIn : ℕ}

/-! ## Sums over taps -/

/-- What the columns under one element of the kernel hold. -/
theorem colOf_colIdx3d {n g od ic kd kh kw oh ow : ℕ} (h : IsCol jcp ic kd kh kw oh ow) :
    colOf jcp diffDst weights n g od (colIdx3d jcp ic kd kh kw oh ow) =
      ∑ oc ∈ Finset.range jcp.oc, diffDst (RefConvolution.dstOff jcp n (g * jcp.oc + oc) od oh ow) *
        weights (RefConvolution.weightsOff jcp g oc ic kd kh kw) := by
  unfold colOf gemmElem
  rw [Int.toNat_natCast, h.mod_os, h.div_os]
  apply Finset.sum_congr rfl
  intro oc _
  congr 1
  · show diffDst ((n * jcp.ngroups + g) * dstStep jcp + od * jcp.os + (oh * jcp.ow + ow + oc * M jcp)) = _
    congr 1
    unfold RefConvolution.dstOff dstStep M JitGemmConvConf.os
    ring
  · show weights (g * weightsGSize jcp + (ic * jcp.ks + tapIdx jcp kd kh kw + oc * (jcp.ic * jcp.ks))) = _
    congr 1
    unfold RefConvolution.weightsOff weightsGSize tapIdx JitGemmConvConf.ks
    ring

/-- What the taps on an element of the image add up to. -/
def hitSum (jcp : JitGemmConvConf) (diffDst weights : ℕ → R) (n g ic id y x : ℕ) : R :=
  ∑ kd ∈ Finset.range jcp.kd, ∑ kh ∈ Finset.range jcp.kh, ∑ kw ∈ Finset.range jcp.kw, ∑ od ∈ Finset.range jcp.od,
    ∑ oh ∈ Finset.range jcp.oh, ∑ ow ∈ Finset.range jcp.ow,
      if Hits3d jcp od oh ow kd kh kw id y x then colOf jcp diffDst weights n g od (colIdx3d jcp ic kd kh kw oh ow) else 0

/-- It is what the reference computes. -/
theorem hitSum_eq (hacc : jcp.Accepted) {n g ic id y x : ℕ} (hic : ic < jcp.ic) :
    hitSum jcp diffDst weights n g ic id y x =
      RefConvolution.executeBackwardData jcp diffDst weights g n ic id y x := by
  symm
  rw [RefConvolution.executeBackwardData_eq hacc, Finset.sum_comm]
  apply Finset.sum_congr rfl
  intro kd hkd
  rw [Finset.sum_comm]
  apply Finset.sum_congr rfl
  intro kh hkh
  rw [Finset.sum_comm]
  apply Finset.sum_congr rfl
  intro kw hkw
  rw [Finset.sum_comm]
  apply Finset.sum_congr rfl
  intro od _
  rw [Finset.sum_comm]
  apply Finset.sum_congr rfl
  intro oh hoh
  rw [Finset.sum_comm]
  apply Finset.sum_congr rfl
  intro ow how
  rw [Finset.mem_range] at hkd hkh hkw hoh how
  split_ifs
  · exact (colOf_colIdx3d ⟨hic, hkd, hkh, hkw, hoh, how⟩).symm
  · exact Finset.sum_const_zero

/-! ## Images -/

omit [CommSemiring R] in
/-- A program for an image, at the place of the image. -/
theorem execAll_shift (offset : ℤ) (prog : List (Assign ℤ R)) (m : ℤ → R) (a : ℤ) :
    execAll (prog.map (shift offset)) m (offset + a) = execAll prog (fun b => m (offset + b)) a := by
  induction prog generalizing m with
  | nil => rfl
  | cons e prog ih =>
    have hexec : (fun b => (shift offset e).exec m (offset + b)) = e.exec fun b => m (offset + b) := by
      funext b
      by_cases hb : e.dst = b
      · subst hb
        rw [Assign.exec_self]
        exact Assign.exec_self m (shift offset e)
      · rw [Assign.exec_of_ne hb]
        apply Assign.exec_of_ne
        intro h
        exact hb (Int.add_left_cancel h)
    rw [List.map_cons, execAll_cons, ih, hexec, execAll_cons]

/-- The offset of an element in its image. -/
theorem diffSrc_add (n g ic id y x : ℕ) : RefConvolution.srcOff jcp n (g * jcp.ic + ic) id y x =
    diffSrc jcp n g + imIdx3d jcp ic id y x := by
  unfold RefConvolution.srcOff diffSrc srcStep imIdx3d
  ring

theorem inImage_of_isPixel {ic id y x : ℕ} (h : IsPixel jcp ic id y x) (n g : ℕ) :
    InImage jcp n g ((diffSrc jcp n g : ℤ) + imIdx3d jcp ic id y x) := by
  have hlt : imIdx3d jcp ic id y x < srcStep jcp := h.imIdx3d_lt
  unfold InImage
  omega

/-! ## Several planes -/

/-- The planes of the output add to the image one after the other. -/
theorem execAll_imageProg_volume (hnthrIn : 0 < nthrIn) (hid : jcp.id ≠ 1) (hsz : jcp.im2colSz ≠ 0) {n g ic id y x : ℕ}
    (h : IsPixel jcp ic id y x) (m : ℤ → R) :
    execAll (imageProg jcp diffDst weights nthrIn n g) m (diffSrc jcp n g + imIdx3d jcp ic id y x) =
      m (diffSrc jcp n g + imIdx3d jcp ic id y x) + hitSum jcp diffDst weights n g ic id y x := by
  have hprog : imageProg jcp diffDst weights nthrIn n g =
      (((List.range jcp.od).flatMap fun od => (List.range jcp.ic).flatMap fun ic' =>
        col2im3dAdds jcp (colOf jcp diffDst weights n g od) od ic').map fun w => Assign.add w.1 w.2).map
          (shift (diffSrc jcp n g)) := by
    unfold imageProg
    rw [List.map_flatMap, List.map_flatMap]
    apply List.flatMap_congr
    intro od _
    unfold planeProg foldBase col2im3d
    rw [if_pos hsz, if_neg hid, parallelNd_singleton hnthrIn]
    simp only [List.flatMap_map, List.map_flatMap]
  rw [hprog, execAll_shift, execAll_add]
  congr 1
  rw [sum_map_flatMap]
  refine Eq.trans ?_ (sum_interleave _ _ _ _ _ _ fun od oh ow kd kh kw =>
    if Hits3d jcp od oh ow kd kh kw id y x then colOf jcp diffDst weights n g od (colIdx3d jcp ic kd kh kw oh ow) else 0)
  apply Finset.sum_congr rfl
  intro od _
  rw [sum_map_flatMap, Finset.sum_congr rfl fun ic' _ => sum_col2im3dAdds h.id h.y h.x, Finset.sum_ite_eq',
    if_pos (Finset.mem_range.mpr h.ic)]

/-- `diff_src` is set to zero in every order of the threads. -/
theorem execAll_zeros {nthr : ℕ} (hnthr : 0 < nthr) {o : List (ℕ × Assign ℤ R)} (ho : IsOrder (zeros jcp nthr) o) {n g : ℕ}
    (hn : n < jcp.mb) (hg : g < jcp.ngroups) {a : ℤ} (ha : InImage jcp n g a) (m : ℤ → R) :
    execAll (o.map Prod.snd) m a = 0 := by
  obtain ⟨hle, hlt⟩ := ha
  have hnonneg : 0 ≤ a := (Int.natCast_nonneg _).trans hle
  lift a to ℕ using hnonneg
  have hsize : a < jcp.ngroups * jcp.mb * srcStep jcp := by
    have himage : g + n * jcp.ngroups + 1 ≤ jcp.mb * jcp.ngroups := add_mul_lt hg hn
    have hmul : (g + n * jcp.ngroups + 1) * srcStep jcp ≤ jcp.mb * jcp.ngroups * srcStep jcp :=
      Nat.mul_le_mul_right _ himage
    have hend : a < diffSrc jcp n g + srcStep jcp := by exact_mod_cast hlt
    calc a < diffSrc jcp n g + srcStep jcp := hend
      _ = (g + n * jcp.ngroups + 1) * srcStep jcp := by
          unfold diffSrc
          ring
      _ ≤ jcp.mb * jcp.ngroups * srcStep jcp := hmul
      _ = jcp.ngroups * jcp.mb * srcStep jcp := by ring
  have hprogs : zeros (R := R) jcp nthr = fun p =>
      (flatIters nthr (jcp.ngroups * jcp.mb * srcStep jcp) p).flatMap fun i : ℕ => [Assign.set (i : ℤ) 0] := by
    funext p
    unfold zeros
    dsimp only
    rw [parallelNdIters_eq, List.prod_singleton, List.flatMap_map]
    apply List.flatMap_congr
    intro i hi
    rw [ndIndex_singleton (lt_of_mem_flatIters hi)]
  have hrace : Interleaving.RaceFree fun i : ℕ => [Assign.set (i : ℤ) (0 : R)] := by
    apply Interleaving.RaceFree.of_local
    · intro i e he i' hne e' he' hdst
      rw [List.mem_singleton.mp he, List.mem_singleton.mp he'] at hdst
      exact hne (Int.ofNat.inj hdst)
    · intro i e he
      rw [List.mem_singleton.mp he]
      exact Assign.local_set _ _
  have hprivate : Private (fun i : ℕ => [Assign.set (i : ℤ) (0 : R)]) a (a : ℤ) := by
    intro i hne e he hdst
    rw [List.mem_singleton.mp he] at hdst
    exact hne (Int.ofNat.inj hdst)
  rw [hprogs] at ho
  obtain ⟨p, hp⟩ := exists_mem_flatIters hnthr hsize
  rw [hrace.execAll_threads (nodup_flatIters nthr _) (fun _ _ => flatIters_disjoint) ho hp hprivate]
  exact Assign.exec_self m (Assign.set (a : ℤ) 0)

/-! ## One plane -/

/-- The taps of `col2im` that fall on the plane of the image. -/
theorem gathered_eq (hkd : jcp.kd = 1) (h : jcp.od = 1 ∧ jcp.fPad = 0 ∨ jcp.NoTap) {n g ic y x : ℕ} (hy : y < jcp.ih)
    (hx : x < jcp.iw) :
    gathered jcp (fun t => colOf jcp diffDst weights n g (jcp.od - 1) ((ic * (jcp.ks * jcp.os) +
        (((t.1 * jcp.kw + t.2.1) * jcp.oh + t.2.2.1) * jcp.ow + t.2.2.2) : ℕ) : ℤ)) y x =
      hitSum jcp diffDst weights n g ic 0 y x := by
  have hidx : ∀ kh kw oh ow, ic * (jcp.ks * jcp.os) + (((kh * jcp.kw + kw) * jcp.oh + oh) * jcp.ow + ow) =
      colIdx3d jcp ic 0 kh kw oh ow := by
    intro kh kw oh ow
    rw [← colIdx3d_eq, Nat.zero_mul, Nat.add_zero]
  unfold gathered hitSum
  rw [sum_taps fun kh kw oh ow => if Hits jcp (kh, kw, oh, ow) y x then
    colOf jcp diffDst weights n g (jcp.od - 1) ((ic * (jcp.ks * jcp.os) +
      (((kh * jcp.kw + kw) * jcp.oh + oh) * jcp.ow + ow) : ℕ) : ℤ) else 0]
  simp only [hidx, hits_iff]
  rw [hkd, Finset.sum_range_one]
  refine Finset.sum_congr rfl fun kh hkh => Finset.sum_congr rfl fun kw hkw => ?_
  rw [Finset.mem_range] at hkh hkw
  rcases h with ⟨hod, hfPad⟩ | hno
  · rw [hod, Finset.sum_range_one]
    refine Finset.sum_congr rfl fun oh _ => Finset.sum_congr rfl fun ow _ => ?_
    have hplane : idOf jcp (0 : ℕ) (0 : ℕ) = (0 : ℕ) := by
      unfold idOf
      rw [hfPad]
      simp
    have hhits : Hits3d jcp 0 oh ow 0 kh kw 0 y x ↔ ihOf jcp oh kh = y ∧ iwOf jcp ow kw = x :=
      and_iff_right hplane
    exact if_congr hhits.symm rfl rfl
  · have hmiss : ∀ oh < jcp.oh, ∀ ow < jcp.ow, ¬ (ihOf jcp oh kh = y ∧ iwOf jcp ow kw = x) := by
      rintro oh hoh ow how ⟨hih, hiw⟩
      apply hno kh hkh kw hkw oh hoh ow how
      unfold InPlane
      omega
    rw [Finset.sum_eq_zero, Finset.sum_eq_zero]
    · intro od _
      refine Finset.sum_eq_zero fun oh hoh => Finset.sum_eq_zero fun ow how => if_neg fun hhit => ?_
      exact hmiss oh (Finset.mem_range.mp hoh) ow (Finset.mem_range.mp how) hhit.2
    · intro oh hoh
      refine Finset.sum_eq_zero fun ow how => if_neg ?_
      exact hmiss oh (Finset.mem_range.mp hoh) ow (Finset.mem_range.mp how)

/-- The threads that fold the columns back, one after the other. -/
theorem execAll_col2im_threads (hnthrIn : 0 < nthrIn) (col m : ℤ → R) {ic y x : ℕ} (hic : ic < jcp.ic) (hy : y < jcp.ih)
    (hx : x < jcp.iw) :
    execAll ((List.range nthrIn).flatMap (col2im jcp col nthrIn)) m (imIdx jcp ic y x) =
      gathered jcp (fun t => col ((ic * (jcp.ks * jcp.os) +
        (((t.1 * jcp.kw + t.2.1) * jcp.oh + t.2.2.1) * jcp.ow + t.2.2.2) : ℕ) : ℤ)) y x := by
  have horder := isOrder_flatMap (col2im jcp col nthrIn) (@List.nodup_range nthrIn)
  have hidle : (fun ithr => if ithr ∈ List.range nthrIn then col2im jcp col nthrIn ithr else []) =
      col2im jcp col nthrIn := by
    funext ithr
    split_ifs with hithr
    · rfl
    · rw [List.mem_range] at hithr
      unfold col2im
      rw [parallelNdIters_eq, List.prod_singleton]
      have hnone : flatIters nthrIn jcp.ic ithr = [] := by
        rw [List.eq_nil_iff_forall_not_mem]
        intro i hi
        rw [mem_flatIters] at hi
        obtain ⟨hteam, -⟩ := hi
        split_ifs at hteam <;> omega
      rw [hnone]
      rfl
  rw [hidle] at horder
  have hmap : ((List.range nthrIn).flatMap fun ithr => (col2im jcp col nthrIn ithr).map fun e => (ithr, e)).map Prod.snd =
      (List.range nthrIn).flatMap (col2im jcp col nthrIn) := by
    rw [List.map_flatMap]
    apply List.flatMap_congr
    intro ithr _
    rw [List.map_map]
    exact List.map_id _
  rw [← hmap]
  exact execAll_col2im hnthrIn horder m hic hy hx

/-- The last plane of the output replaces the image. -/
theorem execAll_imageProg_plane (hacc : jcp.Accepted) (hnthrIn : 0 < nthrIn) (hid : jcp.id = 1) (hkd : jcp.kd = 1)
    (hdepth : jcp.od = 1 ∧ jcp.fPad = 0 ∨ jcp.NoTap) (hsz : jcp.im2colSz ≠ 0) {n g ic id y x : ℕ}
    (h : IsPixel jcp ic id y x) (m : ℤ → R) :
    execAll (imageProg jcp diffDst weights nthrIn n g) m (diffSrc jcp n g + imIdx3d jcp ic id y x) =
      hitSum jcp diffDst weights n g ic id y x := by
  have hid0 : id = 0 := by
    have hlt := h.id
    omega
  obtain ⟨d, hd⟩ : ∃ d, jcp.od = d + 1 := ⟨jcp.od - 1, by have := hacc.od; omega⟩
  have hlast : jcp.od - 1 = d := by omega
  have hidx : (imIdx3d jcp ic 0 y x : ℤ) = imIdx jcp ic y x := by
    unfold imIdx imIdx3d JitGemmConvConf.is
    rw [hid]
    push_cast
    ring
  subst hid0
  rw [← gathered_eq hkd hdepth h.y h.x, hlast]
  unfold imageProg
  rw [hd, List.range_succ, List.flatMap_append, execAll_append, List.flatMap_singleton]
  unfold planeProg foldBase
  rw [if_pos hsz, if_pos hid, execAll_shift, hidx]
  exact execAll_col2im_threads hnthrIn _ _ h.ic h.y h.x

/-! ## No columns -/

/-- Then one tap falls on an element. -/
theorem hitSum_direct (hacc : jcp.Accepted) (hsz : jcp.im2colSz = 0) {n g ic id y x : ℕ} (h : IsPixel jcp ic id y x) :
    hitSum jcp diffDst weights n g ic id y x = colOf jcp diffDst weights n g id (colIdx3d jcp ic 0 0 0 y x) := by
  obtain ⟨-, how, hod, -, hkh, hkw, hkd, -⟩ := hacc.of_no_columns hsz
  have hoh := (hacc.im2colSz.mp hsz).2.1
  have hhits : ∀ od oh ow : ℕ, Hits3d jcp od oh ow 0 0 0 id y x ↔ od = id ∧ oh = y ∧ ow = x := by
    intro od oh ow
    unfold Hits3d
    rw [(hacc.taps_of_no_columns hsz od).1, (hacc.taps_of_no_columns hsz oh).2.1, (hacc.taps_of_no_columns hsz ow).2.2,
      Int.natCast_inj, Int.natCast_inj, Int.natCast_inj]
  unfold hitSum
  rw [hkd, hkh, hkw, Finset.sum_range_one, Finset.sum_range_one, Finset.sum_range_one, Finset.sum_eq_single id,
    Finset.sum_eq_single y, Finset.sum_eq_single x]
  · exact if_pos ((hhits id y x).mpr ⟨rfl, rfl, rfl⟩)
  · exact fun ow _ hne => if_neg fun hhit => hne ((hhits _ _ _).mp hhit).2.2
  · exact fun hnot => absurd (Finset.mem_range.mpr (how ▸ h.x)) hnot
  · exact fun oh _ hne => Finset.sum_eq_zero fun ow _ => if_neg fun hhit => hne ((hhits _ _ _).mp hhit).2.1
  · exact fun hnot => absurd (Finset.mem_range.mpr (hoh ▸ h.y)) hnot
  · exact fun od _ hne => Finset.sum_eq_zero fun oh _ => Finset.sum_eq_zero fun ow _ =>
      if_neg fun hhit => hne ((hhits _ _ _).mp hhit).1
  · exact fun hnot => absurd (Finset.mem_range.mpr (hod ▸ h.id)) hnot

/-- Without columns, every element of the image is the product at its position. -/
theorem execAll_imageProg_direct (hacc : jcp.Accepted) (hnthrIn : 0 < nthrIn) (hsz : jcp.im2colSz = 0) {n g ic id y x : ℕ}
    (h : IsPixel jcp ic id y x) (m : ℤ → R) :
    execAll (imageProg jcp diffDst weights nthrIn n g) m (diffSrc jcp n g + imIdx3d jcp ic id y x) =
      hitSum jcp diffDst weights n g ic id y x := by
  obtain ⟨hos, how, hod, hks, -⟩ := hacc.of_no_columns hsz
  have hoh := (hacc.im2colSz.mp hsz).2.1
  have hpixel : y * jcp.ow + x < jcp.os := by
    rw [Nat.add_comm]
    exact add_mul_lt (how ▸ h.x) (hoh ▸ h.y)
  have hslice : y * jcp.ow + x + id * jcp.os < jcp.od * jcp.os := add_mul_lt hpixel (hod ▸ h.id)
  have hic : ic < jcp.ic * jcp.ks := by
    rw [hks, Nat.mul_one]
    exact h.ic
  have hM : M jcp = jcp.od * jcp.os := Nat.mul_comm _ _
  have haddr : (diffSrc jcp n g : ℤ) + imIdx3d jcp ic id y x =
      ((diffSrc jcp n g + id * jcp.os + (y * jcp.ow + x + ic * M jcp) : ℕ) : ℤ) := by
    unfold imIdx3d M
    rw [hos, hod, how]
    unfold JitGemmConvConf.is
    push_cast
    ring
  have hinj : ∀ od < jcp.od, ∀ i < jcp.os, ∀ od' < jcp.od, ∀ i' < jcp.os, ∀ j j' : ℕ,
      diffSrc jcp n g + od * jcp.os + (i + j * M jcp) = diffSrc jcp n g + od' * jcp.os + (i' + j' * M jcp) →
        od = od' ∧ i = i' ∧ j = j' := by
    intro od hod i hi od' hod' i' hi' j j' heq
    rw [hM] at heq
    obtain ⟨hplane, hj⟩ := add_mul_inj (add_mul_lt hi hod) (add_mul_lt hi' hod') (by omega :
      i + od * jcp.os + j * (jcp.od * jcp.os) = i' + od' * jcp.os + j' * (jcp.od * jcp.os))
    obtain ⟨hi, hod⟩ := add_mul_inj hi hi' hplane
    exact ⟨hod, hi, hj⟩
  have hlocal : ∀ e ∈ imageProg jcp diffDst weights nthrIn n g, e.Local := fun e he => (mem_imageProg hacc hnthrIn he).2
  have hid : id < jcp.od := hod ▸ h.id
  have hplane : planeProg jcp diffDst weights nthrIn n g id = product jcp diffDst weights n g id
      (fun i => ((diffSrc jcp n g + id * jcp.os + i : ℕ) : ℤ)) (M jcp) := if_neg (not_not.mpr hsz)
  rw [execAll_eq_trace hlocal, haddr]
  unfold imageProg
  rw [trace_flatMap_of_unique List.nodup_range (List.mem_range.mpr hid), hplane]
  · unfold product
    dsimp only
    rw [← execAll_eq_trace fun e he => (mem_extendedSgemm he).2, execAll_extendedSgemm _ _ hpixel hic,
      hitSum_direct hacc hsz h, zero_mul, add_zero]
    · have hcol : IsCol jcp ic 0 0 0 y x := ⟨h.ic, hacc.kd, hacc.kh, hacc.kw, hoh ▸ h.y, how ▸ h.x⟩
      have htap : tapIdx jcp 0 0 0 = 0 := by
        unfold tapIdx
        rw [Nat.zero_mul, Nat.zero_mul]
      unfold colOf
      rw [Int.toNat_natCast, hcol.mod_os, hcol.div_os, htap, hks, Nat.mul_one, Nat.add_zero, Nat.mul_one]
    · intro i hi i' hi' j j' heq
      exact (hinj id hid i hi id hid i' hi' j j' (Int.ofNat.inj heq)).2
  · intro od hod' hne e he hdst
    unfold planeProg at he
    rw [if_neg (not_not.mpr hsz)] at he
    unfold product at he
    obtain ⟨⟨i, hi, j, -, hdst'⟩, -⟩ := mem_extendedSgemm he
    rw [hdst'] at hdst
    exact hne (hinj od (List.mem_range.mp hod') i hi id hid _ hpixel j ic (Int.ofNat.inj hdst)).1

/-! ## Main result -/

/-- The backward pass by data leaves what the reference computes, for all inputs, whatever the columns and `diff_src`
held before, for all teams and in every order of the threads. -/
def ComputesReference (R : Type*) [CommSemiring R] (jcp : JitGemmConvConf) : Prop :=
  ∀ (diffDst weights : ℕ → R) (scratch : ℕ → ℤ → R) (nthrIn nthrZero nthr : ℕ), 0 < nthrIn → 0 < nthrZero → 0 < nthr →
    ∀ m m' : ℤ → R, RunPhases (phases jcp diffDst weights nthrIn scratch nthrZero nthr) m m' →
      ∀ mb < jcp.mb, ∀ g < jcp.ngroups, ∀ ic < jcp.ic, ∀ id < jcp.id, ∀ ih < jcp.ih, ∀ iw < jcp.iw,
        m' (RefConvolution.srcOff jcp mb (g * jcp.ic + ic) id ih iw : ℕ) =
          RefConvolution.executeBackwardData jcp diffDst weights g mb ic id ih iw

theorem computesReference (hacc : jcp.Accepted) (h : jcp.DepthHandled) : ComputesReference R jcp := by
  intro diffDst weights scratch nthrIn nthrZero nthr hnthrIn hnthrZero hnthr m m' hrun mb hmb g hg ic hic id hid ih hih iw hiw
  have hpixel : IsPixel jcp ic id ih iw := ⟨hic, hid, hih, hiw⟩
  have hin := inImage_of_isPixel hpixel mb g
  have haddr : ((RefConvolution.srcOff jcp mb (g * jcp.ic + ic) id ih iw : ℕ) : ℤ) =
      diffSrc jcp mb g + imIdx3d jcp ic id ih iw := by
    rw [diffSrc_add]
    push_cast
    rfl
  rw [haddr, ← hitSum_eq hacc hic]
  unfold phases at hrun
  split_ifs at hrun with hdeep
  · obtain ⟨o, ho, o', ho', rfl⟩ := hrun
    rw [execAll_program hacc hnthrIn hnthr ho' hmb hg hin]
    by_cases hsz : jcp.im2colSz = 0
    · exact execAll_imageProg_direct hacc hnthrIn hsz hpixel _
    · rw [execAll_imageProg_volume hnthrIn (by omega) hsz hpixel, execAll_zeros hnthrZero ho hmb hg hin, zero_add]
  · obtain ⟨o, ho, rfl⟩ := hrun
    have hid1 : jcp.id = 1 := by
      have hpos := hacc.id
      omega
    rw [execAll_program hacc hnthrIn hnthr ho hmb hg hin]
    by_cases hsz : jcp.im2colSz = 0
    · exact execAll_imageProg_direct hacc hnthrIn hsz hpixel _
    · obtain ⟨hkd, hdepth⟩ := h.resolve_left (not_not.mpr hid1)
      exact execAll_imageProg_plane hacc hnthrIn hid1 hkd hdepth hsz hpixel _

end MklDnn.GemmConvolutionBwdData
