import MklDnn.Conv.BwdWeights
import MklDnn.Conv.Proofs.Col2im3dProofs
import MklDnn.Conv.Proofs.PlanarProofs
import MklDnn.Conv.Proofs.SgemmProofs

/-!
# Proofs: the program of a thread of the backward pass by data

The columns are multiplied anew for every plane of the output, so what a thread does for an image does not depend on
what the columns held before.
-/

open LoopNest Interleaving

namespace MklDnn

open JitGemmConvolutionUtils

/-! ## The columns that are folded back -/

namespace JitGemmConvolutionUtils

/-- The same columns of one plane of the output. -/
def SameColumns {R : Type*} (jcp : JitGemmConvConf) (col col' : ℤ → R) : Prop :=
  ∀ a : ℕ, a < jcp.ic * jcp.ks * jcp.os → col a = col' a

variable {R : Type*} {jcp : JitGemmConvConf} {col col' : ℤ → R}

theorem SameColumns.col2imAdds (h : SameColumns jcp col col') (hkd : 0 < jcp.kd) {ic : ℕ} (hic : ic < jcp.ic) :
    col2imAdds jcp col ic = col2imAdds jcp col' ic := by
  unfold JitGemmConvolutionUtils.col2imAdds
  apply List.flatMap_congr
  intro kh hkh
  apply List.flatMap_congr
  intro oh hoh
  dsimp only
  split_ifs
  · rfl
  · apply List.flatMap_congr
    intro kw hkw
    apply List.flatMap_congr
    intro ow how
    rw [List.mem_range] at hkh hoh hkw how
    split_ifs
    · rfl
    · have hcol : IsCol jcp ic 0 kh kw oh ow := ⟨hic, hkd, hkh, hkw, hoh, how⟩
      have hidx := colIdx3d_eq jcp ic 0 kh kw oh ow
      rw [Nat.zero_mul, Nat.add_zero] at hidx
      rw [hidx, h _ hcol.lt]

theorem SameColumns.col2im [AddCommMonoid R] (h : SameColumns jcp col col') (hkd : 0 < jcp.kd) (nthr ithr : ℕ) :
    col2im jcp col nthr ithr = col2im jcp col' nthr ithr := by
  unfold JitGemmConvolutionUtils.col2im
  rw [parallelNdIters_eq, List.prod_singleton, List.flatMap_map, List.flatMap_map]
  apply List.flatMap_congr
  intro ic hic
  have hlt := lt_of_mem_flatIters hic
  rw [ndIndex_singleton hlt]
  show col2imChannel jcp col ic = col2imChannel jcp col' ic
  unfold col2imChannel
  rw [h.col2imAdds hkd hlt]

theorem SameColumns.col2im3dAdds (h : SameColumns jcp col col') (od : ℕ) {ic : ℕ} (hic : ic < jcp.ic) :
    col2im3dAdds jcp col od ic = col2im3dAdds jcp col' od ic := by
  unfold JitGemmConvolutionUtils.col2im3dAdds
  apply List.flatMap_congr
  intro kd hkd
  dsimp only
  split_ifs
  · rfl
  apply List.flatMap_congr
  intro oh hoh
  apply List.flatMap_congr
  intro kh hkh
  split_ifs
  · rfl
  · apply List.flatMap_congr
    intro ow how
    apply List.flatMap_congr
    intro kw hkw
    rw [List.mem_range] at hkd hkh hoh hkw how
    split_ifs
    · rfl
    · have hcol : IsCol jcp ic kd kh kw oh ow := ⟨hic, hkd, hkh, hkw, hoh, how⟩
      rw [colIdx3d_eq, h _ hcol.lt]

theorem SameColumns.col2im3d [AddCommMonoid R] (h : SameColumns jcp col col') (od : ℕ) {nthr : ℕ} (hnthr : 0 < nthr) :
    col2im3d jcp col od nthr = col2im3d jcp col' od nthr := by
  unfold JitGemmConvolutionUtils.col2im3d
  rw [parallelNd_singleton hnthr, List.flatMap_map, List.flatMap_map]
  apply List.flatMap_congr
  intro ic hic
  dsimp only
  rw [h.col2im3dAdds od (List.mem_range.mp hic)]

end JitGemmConvolutionUtils

namespace GemmConvolutionBwdData

variable {R : Type*} [CommSemiring R] {jcp : JitGemmConvConf} {diffDst weights : ℕ → R} {nthrIn : ℕ}

/-! ## The program for an image -/

/-- What the columns of plane `od` of the output hold. -/
def colOf (jcp : JitGemmConvConf) (diffDst weights : ℕ → R) (n g od : ℕ) (a : ℤ) : R :=
  gemmElem false true jcp.oc (fun i => diffDst ((n * jcp.ngroups + g) * dstStep jcp + od * jcp.os + i)) (M jcp)
    (fun i => weights (g * weightsGSize jcp + i)) (jcp.ic * jcp.ks) (a.toNat % jcp.os) (a.toNat / jcp.os)

/-- The product replaces the columns. -/
theorem sameColumns_product (hos : 0 < jcp.os) (n g od : ℕ) (col : ℤ → R) :
    SameColumns jcp (execAll (product jcp diffDst weights n g od (fun i : ℕ => (i : ℤ)) jcp.os) col)
      (colOf jcp diffDst weights n g od) := by
  intro a ha
  have hmod : a % jcp.os < jcp.os := Nat.mod_lt _ hos
  have hdiv : a / jcp.os < jcp.ic * jcp.ks := (Nat.div_lt_iff_lt_mul hos).mpr ha
  have hc : ∀ i < jcp.os, ∀ i' < jcp.os, ∀ j j' : ℕ,
      ((i + j * jcp.os : ℕ) : ℤ) = ((i' + j' * jcp.os : ℕ) : ℤ) → i = i' ∧ j = j' :=
    fun i hi i' hi' j j' h => add_mul_inj hi hi' (Int.ofNat.inj h)
  unfold product
  dsimp only
  have hentry := Nat.mod_add_div' a jcp.os
  calc execAll (extendedSgemm false true _ _ _ _ _ _ _ 0 (fun i : ℕ => (i : ℤ)) jcp.os) col a
      = execAll (extendedSgemm false true _ _ _ _ _ _ _ 0 (fun i : ℕ => (i : ℤ)) jcp.os) col
          ((a % jcp.os + a / jcp.os * jcp.os : ℕ) : ℤ) := by rw [hentry]
    _ = _ := execAll_extendedSgemm hc col hmod hdiv
    _ = colOf jcp diffDst weights n g od a := by
        rw [zero_mul, add_zero]
        rfl

/-- What a thread does with the columns of a plane, on an image at the start of the memory. -/
def foldBase (jcp : JitGemmConvConf) (nthrIn od : ℕ) (col : ℤ → R) : List (Assign ℤ R) :=
  if jcp.id = 1 then (List.range nthrIn).flatMap (col2im jcp col nthrIn) else col2im3d jcp col od nthrIn

theorem fold_congr (hkd : 0 < jcp.kd) (hnthrIn : 0 < nthrIn) (n g od : ℕ) {col col' : ℤ → R}
    (h : SameColumns jcp col col') : fold jcp nthrIn n g od col = fold jcp nthrIn n g od col' := by
  have hcol2im : ∀ ithr, col2im jcp col nthrIn ithr = col2im jcp col' nthrIn ithr := h.col2im hkd nthrIn
  unfold fold
  dsimp only
  rw [h.col2im3d od hnthrIn, List.flatMap_congr fun ithr _ => hcol2im ithr]

/-- The program for one plane of the output. -/
def planeProg (jcp : JitGemmConvConf) (diffDst weights : ℕ → R) (nthrIn n g od : ℕ) : List (Assign ℤ R) :=
  if jcp.im2colSz ≠ 0 then (foldBase jcp nthrIn od (colOf jcp diffDst weights n g od)).map (shift (diffSrc jcp n g))
  else product jcp diffDst weights n g od (fun i => ((diffSrc jcp n g + od * jcp.os + i : ℕ) : ℤ)) (M jcp)

/-- The program for an image. -/
def imageProg (jcp : JitGemmConvConf) (diffDst weights : ℕ → R) (nthrIn n g : ℕ) : List (Assign ℤ R) :=
  (List.range jcp.od).flatMap (planeProg jcp diffDst weights nthrIn n g)

theorem prog_odStep (hacc : jcp.Accepted) (hnthrIn : 0 < nthrIn) (n g od : ℕ) (s : State R) :
    (odStep jcp diffDst weights nthrIn n g s od).prog = s.prog ++ planeProg jcp diffDst weights nthrIn n g od := by
  unfold odStep planeProg
  split_ifs with hsz
  · dsimp only
    rw [fold_congr hacc.kd hnthrIn n g od (sameColumns_product hacc.os_pos n g od s.col)]
    rfl
  · rfl

omit [CommSemiring R] in
/-- Steps that append to the program. -/
theorem prog_foldl {α : Type*} {step : State R → α → State R} {progOf : α → List (Assign ℤ R)} {l : List α}
    (h : ∀ x ∈ l, ∀ s, (step s x).prog = s.prog ++ progOf x) (s : State R) :
    (l.foldl step s).prog = s.prog ++ l.flatMap progOf := by
  induction l generalizing s with
  | nil => exact (List.append_nil _).symm
  | cons x l ih =>
    rw [List.foldl_cons, ih fun y hy => h y (List.mem_cons_of_mem _ hy), h x List.mem_cons_self, List.flatMap_cons,
      List.append_assoc]

/-- The work of a thread, image by image. -/
def workProg (jcp : JitGemmConvConf) (diffDst weights : ℕ → R) (nthrIn iwork : ℕ) : List (Assign ℤ R) :=
  if iwork < jcp.ngroups * jcp.mb then imageProg jcp diffDst weights nthrIn (iwork % jcp.mb) (iwork / jcp.mb) else []

/-- The images of a thread. -/
def works (jcp : JitGemmConvConf) (nthr ithr : ℕ) : List ℕ :=
  if ithr < nthr then
    let range := balance211 (jcp.ngroups * jcp.mb) nthr ithr
    List.range' range.1 (range.2 - range.1)
  else []

/-- A thread does the work of its images, whatever its columns held before. -/
theorem program_eq (hacc : jcp.Accepted) (hnthrIn : 0 < nthrIn) (scratch : ℕ → ℤ → R) (nthr ithr : ℕ) :
    program jcp diffDst weights nthrIn scratch nthr ithr =
      (works jcp nthr ithr).flatMap (workProg jcp diffDst weights nthrIn) := by
  unfold program works
  split_ifs with hithr
  · have hprod : [jcp.ngroups, jcp.mb].prod = jcp.ngroups * jcp.mb := by simp
    have hend : (balance211 (jcp.ngroups * jcp.mb) nthr ithr).2 ≤ jcp.ngroups * jcp.mb := balance211_snd_le hithr
    rw [forNd_eq (by rw [hprod]; exact hend), hprod, List.foldl_map]
    refine prog_foldl ?_ _
    intro iwork hiwork s
    rw [List.mem_range'_1] at hiwork
    have hlt : iwork < jcp.ngroups * jcp.mb := by omega
    have hg : iwork / jcp.mb < jcp.ngroups := (Nat.div_lt_iff_lt_mul hacc.mb).mpr hlt
    have hindex : ndIndex [jcp.ngroups, jcp.mb] iwork = [iwork / jcp.mb, iwork % jcp.mb] := by
      simp [Nat.mod_eq_of_lt hg]
    rw [hindex, workProg, if_pos hlt]
    exact prog_foldl (fun od _ s => prog_odStep hacc hnthrIn _ _ od s) s
  · rfl

/-! ## Images -/

theorem nodup_works (nthr ithr : ℕ) : (works jcp nthr ithr).Nodup := by
  unfold works
  split_ifs
  · exact List.nodup_range'
  · exact List.nodup_nil

theorem mem_works {nthr ithr iwork : ℕ} : iwork ∈ works jcp nthr ithr ↔
    ithr < nthr ∧ (balance211 (jcp.ngroups * jcp.mb) nthr ithr).1 ≤ iwork ∧
      iwork < (balance211 (jcp.ngroups * jcp.mb) nthr ithr).2 := by
  unfold works
  split_ifs with hithr
  · dsimp only
    rw [List.mem_range'_1]
    omega
  · simp [hithr]

theorem works_disjoint {nthr p q : ℕ} (hne : p ≠ q) : ∀ i ∈ works jcp nthr p, i ∉ works jcp nthr q := by
  intro i hp hq
  rw [mem_works] at hp hq
  exact hne (balance211_unique hp.1 hq.1 hp.2 hq.2)

/-- Every image belongs to a thread. -/
theorem exists_works {nthr iwork : ℕ} (hnthr : 0 < nthr) (h : iwork < jcp.ngroups * jcp.mb) :
    ∃ p, iwork ∈ works jcp nthr p := by
  obtain ⟨p, hp, hrange⟩ := exists_balance211 hnthr h
  exact ⟨p, mem_works.mpr ⟨hp, hrange⟩⟩

/-- An element of the image `n` of group `g`. -/
def InImage (jcp : JitGemmConvConf) (n g : ℕ) (a : ℤ) : Prop :=
  (diffSrc jcp n g : ℤ) ≤ a ∧ a < diffSrc jcp n g + srcStep jcp

omit [CommSemiring R] in
theorem shift_local {offset : ℤ} {e : Assign ℤ R} (h : e.Local) : (shift offset e).Local := by
  intro mem mem' heq
  exact h _ _ heq

/-- What is folded back lies in the image. -/
theorem mem_foldBase (hacc : jcp.Accepted) (hnthrIn : 0 < nthrIn) {od : ℕ} {col : ℤ → R} {e : Assign ℤ R}
    (he : e ∈ foldBase jcp nthrIn od col) : (0 ≤ e.dst ∧ e.dst < srcStep jcp) ∧ e.Local := by
  have hpixel : ∀ {ic id y x : ℕ}, IsPixel jcp ic id y x →
      0 ≤ (imIdx3d jcp ic id y x : ℤ) ∧ (imIdx3d jcp ic id y x : ℤ) < srcStep jcp :=
    fun h => ⟨Int.natCast_nonneg _, Int.ofNat_lt.mpr h.imIdx3d_lt⟩
  unfold foldBase at he
  split_ifs at he with hid
  · obtain ⟨ithr, -, he⟩ := List.mem_flatMap.mp he
    unfold col2im at he
    rw [parallelNdIters_eq, List.prod_singleton, List.flatMap_map] at he
    obtain ⟨ic, hic, he⟩ := List.mem_flatMap.mp he
    have hlt := lt_of_mem_flatIters hic
    rw [ndIndex_singleton hlt] at he
    obtain ⟨⟨y, hy, x, hx, hdst⟩, hlocal⟩ := dst_col2imChannel he
    have hidx : imIdx jcp ic y x = (imIdx3d jcp ic 0 y x : ℤ) := by
      unfold imIdx imIdx3d JitGemmConvConf.is
      rw [hid]
      push_cast
      ring
    rw [hdst, hidx]
    exact ⟨hpixel ⟨hlt, hacc.id, hy, hx⟩, hlocal⟩
  · unfold col2im3d at he
    rw [parallelNd_singleton hnthrIn, List.flatMap_map] at he
    obtain ⟨ic, hic, he⟩ := List.mem_flatMap.mp he
    obtain ⟨w, hw, rfl⟩ := List.mem_map.mp he
    obtain ⟨kd, -, oh, -, kh, -, ow, -, kw, -, id, hid, y, hy, x, hx, -, rfl⟩ := mem_col2im3dAdds.mp hw
    exact ⟨hpixel ⟨List.mem_range.mp hic, hid, hy, hx⟩, Assign.local_add _ _⟩

theorem mem_imageProg (hacc : jcp.Accepted) (hnthrIn : 0 < nthrIn) {n g : ℕ} {e : Assign ℤ R}
    (he : e ∈ imageProg jcp diffDst weights nthrIn n g) : InImage jcp n g e.dst ∧ e.Local := by
  obtain ⟨od, hod, he⟩ := List.mem_flatMap.mp he
  rw [List.mem_range] at hod
  unfold planeProg at he
  split_ifs at he with hsz
  · obtain ⟨e, hbase, rfl⟩ := List.mem_map.mp he
    obtain ⟨hdst, hlocal⟩ := mem_foldBase hacc hnthrIn hbase
    refine ⟨?_, shift_local hlocal⟩
    show (diffSrc jcp n g : ℤ) ≤ diffSrc jcp n g + e.dst ∧ (diffSrc jcp n g : ℤ) + e.dst < diffSrc jcp n g + srcStep jcp
    omega
  · unfold product at he
    obtain ⟨⟨i, hi, j, hj, hdst⟩, hlocal⟩ := mem_extendedSgemm he
    refine ⟨?_, hlocal⟩
    obtain ⟨hos, -, hodId, hks, -⟩ := hacc.of_no_columns (not_not.mp hsz)
    rw [hks, Nat.mul_one] at hj
    have hplane : i + od * jcp.os < jcp.od * jcp.os := add_mul_lt hi hod
    have himage : i + od * jcp.os + j * (jcp.od * jcp.os) < jcp.ic * (jcp.od * jcp.os) := add_mul_lt hplane hj
    have hstep : srcStep jcp = jcp.ic * (jcp.od * jcp.os) := by
      unfold srcStep
      rw [hos, hodId]
      unfold JitGemmConvConf.is
      ring
    have hM : j * M jcp = j * (jcp.od * jcp.os) := by
      unfold M
      ring
    rw [hdst]
    unfold InImage
    rw [hstep, hM]
    generalize j * (jcp.od * jcp.os) = a at *
    generalize jcp.ic * (jcp.od * jcp.os) = b at *
    generalize od * jcp.os = c at *
    push_cast
    omega

theorem mem_workProg (hacc : jcp.Accepted) (hnthrIn : 0 < nthrIn) {iwork : ℕ} {e : Assign ℤ R}
    (he : e ∈ workProg jcp diffDst weights nthrIn iwork) :
    iwork < jcp.ngroups * jcp.mb ∧ InImage jcp (iwork % jcp.mb) (iwork / jcp.mb) e.dst ∧ e.Local := by
  unfold workProg at he
  split_ifs at he with hlt
  · exact ⟨hlt, mem_imageProg hacc hnthrIn he⟩
  · cases he

/-- Different images have no element in common. -/
theorem InImage.inj (hacc : jcp.Accepted) {iwork iwork' : ℕ} (hlt : iwork < jcp.ngroups * jcp.mb)
    (hlt' : iwork' < jcp.ngroups * jcp.mb) {a : ℤ} (h : InImage jcp (iwork % jcp.mb) (iwork / jcp.mb) a)
    (h' : InImage jcp (iwork' % jcp.mb) (iwork' / jcp.mb) a) : iwork = iwork' := by
  unfold InImage diffSrc at h h'
  have hnonneg : 0 ≤ a := (Int.natCast_nonneg _).trans h.1
  lift a to ℕ using hnonneg
  obtain ⟨r, hr⟩ := Nat.exists_eq_add_of_le (Int.ofNat_le.mp h.1)
  obtain ⟨r', hr'⟩ := Nat.exists_eq_add_of_le (Int.ofNat_le.mp h'.1)
  have hrow := (add_mul_inj (n := srcStep jcp) (by omega) (by omega) (by omega :
    r + (iwork % jcp.mb * jcp.ngroups + iwork / jcp.mb) * srcStep jcp =
      r' + (iwork' % jcp.mb * jcp.ngroups + iwork' / jcp.mb) * srcStep jcp)).2
  have hg : iwork / jcp.mb < jcp.ngroups := (Nat.div_lt_iff_lt_mul hacc.mb).mpr hlt
  have hg' : iwork' / jcp.mb < jcp.ngroups := (Nat.div_lt_iff_lt_mul hacc.mb).mpr hlt'
  obtain ⟨hgroup, himage⟩ := add_mul_inj hg hg' (by omega : iwork / jcp.mb + iwork % jcp.mb * jcp.ngroups =
    iwork' / jcp.mb + iwork' % jcp.mb * jcp.ngroups)
  rw [← Nat.div_add_mod iwork jcp.mb, hgroup, himage, Nat.div_add_mod]

theorem raceFree_workProg (hacc : jcp.Accepted) (hnthrIn : 0 < nthrIn) :
    Interleaving.RaceFree (workProg jcp diffDst weights nthrIn) := by
  apply Interleaving.RaceFree.of_local
  · intro iwork e he iwork' hne e' he' hdst
    obtain ⟨hlt, hin, -⟩ := mem_workProg hacc hnthrIn he
    obtain ⟨hlt', hin', -⟩ := mem_workProg hacc hnthrIn he'
    rw [hdst] at hin'
    exact hne (InImage.inj hacc hlt' hlt hin' hin)
  · intro iwork e he
    exact (mem_workProg hacc hnthrIn he).2.2

/-- In every order of the threads an image is what its program leaves. -/
theorem execAll_program (hacc : jcp.Accepted) (hnthrIn : 0 < nthrIn) {scratch : ℕ → ℤ → R} {nthr : ℕ} (hnthr : 0 < nthr)
    {o : List (ℕ × Assign ℤ R)} (ho : IsOrder (program jcp diffDst weights nthrIn scratch nthr) o) {n g : ℕ}
    (hn : n < jcp.mb) (hg : g < jcp.ngroups) {a : ℤ} (ha : InImage jcp n g a) (m : ℤ → R) :
    execAll (o.map Prod.snd) m a = execAll (imageProg jcp diffDst weights nthrIn n g) m a := by
  have hlt : n + g * jcp.mb < jcp.ngroups * jcp.mb := add_mul_lt hn hg
  have hmod : (n + g * jcp.mb) % jcp.mb = n := by rw [Nat.add_mul_mod_self_right, Nat.mod_eq_of_lt hn]
  have hdiv : (n + g * jcp.mb) / jcp.mb = g := by
    rw [Nat.add_mul_div_right _ _ hacc.mb, Nat.div_eq_of_lt hn, Nat.zero_add]
  have hprivate : Private (workProg jcp diffDst weights nthrIn) (n + g * jcp.mb) a := by
    intro iwork hne e he hdst
    obtain ⟨hlt', hin, -⟩ := mem_workProg hacc hnthrIn he
    rw [hdst] at hin
    exact hne (InImage.inj hacc hlt' hlt hin (by rw [hmod, hdiv]; exact ha))
  have hprogs : program jcp diffDst weights nthrIn scratch nthr =
      fun p => (works jcp nthr p).flatMap (workProg jcp diffDst weights nthrIn) := by
    funext p
    exact program_eq hacc hnthrIn scratch nthr p
  rw [hprogs] at ho
  obtain ⟨p, hp⟩ := exists_works hnthr hlt
  rw [(raceFree_workProg hacc hnthrIn).execAll_threads (nodup_works nthr) (fun _ _ => works_disjoint) ho hp hprivate,
    workProg, if_pos hlt, hmod, hdiv]

end GemmConvolutionBwdData

end MklDnn
