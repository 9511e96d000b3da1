import Mathlib.Tactic.Linarith
import MklDnn.Lib.Checks
import MklDnn.Pooling.PoolingDesc

/-!
# Proofs: initialisation of pooling descriptors

The windows of a dimension begin at numbers that follow one another, so that all of them meet the image if the first one
and the last one do.
-/

open Checks

namespace MklDnn.PoolingInit

open DescInit (Stop arrayCopy toDim toSize)
open PrimitiveHashing (PoolingDesc)

/-! ## Windows -/

namespace Axis

variable (a : Axis)

/-- The window contains an element of the image. -/
def Meets (o : ℤ) : Prop := ∃ x, 0 ≤ x ∧ x < a.i ∧ o * a.s - a.pad ≤ x ∧ x < o * a.s - a.pad + a.k

/-- The image and the kernel are not empty, the first window begins before the end of the image, and the last one meets
it. -/
structure Suits : Prop where
  i : 0 < a.i
  k : 0 < a.k
  first : -a.pad < a.i
  last : (a.o - 1) * a.s - a.pad < a.i
  lastEnd : 0 < (a.o - 1) * a.s - a.pad + a.k

variable {a}

theorem startOffset_eq (o : ℤ) : a.startOffset o = a.start o := by
  unfold startOffset start
  split_ifs <;> omega

theorem meets_iff_output {o : ℤ} :
    a.Meets o ↔ 0 < a.i ∧ 0 < a.k ∧ o * a.s - a.pad < a.i ∧ 0 < o * a.s - a.pad + a.k := by
  constructor
  · rintro ⟨x, hx, hx', hlow, hhigh⟩
    omega
  · rintro ⟨hi, hk, hstart, hend⟩
    exact ⟨max (o * a.s - a.pad) 0, by omega⟩

/-- A window that meets the image has a positive length there. -/
theorem start_lt_stop {o : ℤ} (h : a.Meets o) : a.start o < a.stop o := by
  obtain ⟨x, hx, hx', hlow, hhigh⟩ := h
  unfold start stop
  omega

/-- All windows meet the image if and only if the first and the last one do. -/
theorem meets_all_iff (hpad : a.pad < a.k) :
    (∀ o, 0 ≤ o → o < a.o → a.Meets o) ↔ (0 < a.o → a.Suits) := by
  constructor
  · intro h ho
    obtain ⟨hi, hk, hfirst, -⟩ := meets_iff_output.mp (h 0 (by omega) ho)
    obtain ⟨-, -, hlast, hend⟩ := meets_iff_output.mp (h (a.o - 1) (by omega) (by omega))
    exact ⟨hi, hk, by omega, hlast, hend⟩
  · intro h o ho ho'
    have hsuits := h (by omega)
    rw [meets_iff_output]
    refine ⟨hsuits.i, hsuits.k, ?_, ?_⟩
    · -- a window begins between the first and the last one
      have hfirst := hsuits.first
      have hlast := hsuits.last
      rcases le_total 0 a.s with hs | hs
      · have hle : o * a.s ≤ (a.o - 1) * a.s := mul_le_mul_of_nonneg_right (by omega) hs
        omega
      · have hle : o * a.s ≤ 0 := mul_nonpos_of_nonneg_of_nonpos ho hs
        omega
    · have hend := hsuits.lastEnd
      rcases le_total 0 a.s with hs | hs
      · have hle : 0 ≤ o * a.s := mul_nonneg ho hs
        omega
      · have hle : (a.o - 1) * a.s ≤ o * a.s := mul_le_mul_of_nonpos_right (by omega) hs
        omega

end Axis

/-! ## Checks -/

namespace Checked

variable (args : Checked)

/-- A spatial dimension. -/
def IsSpatial (i : ℕ) : Prop := 2 ≤ i ∧ (i : ℤ) < args.srcDesc.ndims

/-- The numbers of a spatial dimension, as the caller passed them. -/
def axis (i : ℕ) : Axis :=
  ⟨args.srcDesc.dims i, args.dstDesc.dims i, args.kernel (i - 2), args.strides (i - 2), args.paddingL (i - 2)⟩

/-- The size of the output that the code computes. -/
def outSize (i : ℕ) : ℤ :=
  toDim (toDim ((toDim (toDim (toDim (args.srcDesc.dims i - args.kernel (i - 2)) + args.paddingL (i - 2)) +
    args.paddingR (i - 2))).tdiv (args.strides (i - 2))) + 1)

/-- What the code checks in a spatial dimension. -/
structure Passes (i : ℕ) : Prop where
  stride : args.strides (i - 2) ≠ 0
  size : args.outSize i = args.dstDesc.dims i
  paddings : args.algKind = .poolingAvgExcludePadding →
    args.paddingL (i - 2) < args.kernel (i - 2) ∧ args.paddingR (i - 2) < args.kernel (i - 2)

theorem mem_spatialDims (i : ℕ) : i ∈ args.spatialDims ↔ args.IsSpatial i := by
  unfold spatialDims IsSpatial
  rw [List.mem_map]
  constructor
  · rintro ⟨j, hj, rfl⟩
    rw [List.mem_range] at hj
    omega
  · rintro ⟨hlow, hhigh⟩
    refine ⟨i - 2, ?_, by omega⟩
    rw [List.mem_range]
    omega

theorem spatialDims_sorted : args.spatialDims.Pairwise (· < ·) := by
  unfold spatialDims
  rw [List.pairwise_map]
  exact List.pairwise_lt_range.imp fun hlt => by omega

theorem dim_false (i : ℕ) : args.dim false i = .ok false := rfl

theorem dim_eq_divisionByZero (i : ℕ) : args.dim true i = .error .divisionByZero ↔ args.strides (i - 2) = 0 := by
  unfold dim dimDiv
  rw [if_pos rfl]
  by_cases hzero : args.strides (i - 2) = 0
  · rw [if_pos hzero]
    exact ⟨fun _ => hzero, fun _ => rfl⟩
  · rw [if_neg hzero]
    constructor
    · intro h
      cases h
    · intro h
      exact absurd h hzero

theorem dim_eq_ok_true (i : ℕ) : args.dim true i = .ok true ↔ args.Passes i := by
  unfold dim dimDiv
  rw [if_pos rfl]
  by_cases hzero : args.strides (i - 2) = 0
  · rw [if_pos hzero]
    constructor
    · intro h
      cases h
    · intro h
      exact absurd hzero h.stride
  · rw [if_neg hzero]
    show Except.ok _ = _ ↔ _
    rw [Except.ok.injEq]
    split_ifs with halg
    · simp only [Bool.and_eq_true, decide_eq_true_iff]
      constructor
      · rintro ⟨⟨hsize, hl⟩, hr⟩
        exact ⟨hzero, hsize, fun _ => ⟨hl, hr⟩⟩
      · rintro ⟨-, hsize, hpad⟩
        exact ⟨⟨hsize, (hpad halg).1⟩, (hpad halg).2⟩
    · rw [decide_eq_true_iff]
      exact ⟨fun hsize => ⟨hzero, hsize, fun h => absurd h halg⟩, fun h => h.size⟩

end Checked

variable {args : Args} {checked : Checked}

theorem Args.check_ne_divisionByZero (args : Args) : args.check ≠ .error .divisionByZero := by
  unfold Args.check
  split
  · split_ifs <;> intro h <;> cases h
  · intro h
    cases h

/-- What is accepted. -/
theorem poolingDescInit_eq_ok {pd : PoolingDesc} : poolingDescInit args = .ok pd ↔ ∃ checked, args.check = .ok checked ∧
    checked.consistency = true ∧ (∀ i, checked.IsSpatial i → checked.Passes i) ∧ checked.desc = pd := by
  have hfalse : ∀ (checked : Checked) (i : ℕ), checked.dim false i ≠ .ok true := by
    intro checked i h
    cases h
  unfold poolingDescInit
  constructor
  · intro h
    obtain ⟨checked, hchecked, h⟩ := bind_eq_ok.mp h
    obtain ⟨consistency, hloop, h⟩ := bind_eq_ok.mp h
    split_ifs at h with hc
    rw [hc, foldlM_eq_ok_true fun i _ => hfalse checked i] at hloop
    obtain ⟨hcons, hpass⟩ := hloop
    refine ⟨checked, hchecked, hcons, fun i hi => ?_, Except.ok.inj h⟩
    exact (checked.dim_eq_ok_true i).mp (hpass i ((checked.mem_spatialDims i).mpr hi))
  · rintro ⟨checked, hchecked, hcons, hpass, rfl⟩
    refine bind_eq_ok.mpr ⟨checked, hchecked, bind_eq_ok.mpr ⟨true, ?_, rfl⟩⟩
    rw [foldlM_eq_ok_true fun i _ => hfalse checked i]
    exact ⟨hcons, fun i hi => (checked.dim_eq_ok_true i).mpr (hpass i ((checked.mem_spatialDims i).mp hi))⟩

/-- A stride of zero behind dimensions that pass ends the function. -/
theorem poolingDescInit_eq_divisionByZero : poolingDescInit args = .error .divisionByZero ↔
    ∃ checked, args.check = .ok checked ∧ checked.consistency = true ∧
      ∃ i, checked.IsSpatial i ∧ checked.strides (i - 2) = 0 ∧
        ∀ j, checked.IsSpatial j → j < i → checked.Passes j := by
  unfold poolingDescInit
  constructor
  · intro h
    rcases bind_eq_error.mp h with h | ⟨checked, hchecked, h⟩
    · exact absurd h args.check_ne_divisionByZero
    · rcases bind_eq_error.mp h with hloop | ⟨consistency, -, h⟩
      · rw [foldlM_eq_error checked.spatialDims_sorted fun i _ => checked.dim_false i] at hloop
        obtain ⟨hcons, i, hi, hstop, hbefore⟩ := hloop
        refine ⟨checked, hchecked, hcons, i, (checked.mem_spatialDims i).mp hi,
          (checked.dim_eq_divisionByZero i).mp hstop, fun j hj hlt => ?_⟩
        exact (checked.dim_eq_ok_true j).mp (hbefore j ((checked.mem_spatialDims j).mpr hj) hlt)
      · split_ifs at h
        cases h
  · rintro ⟨checked, hchecked, hcons, i, hi, hzero, hbefore⟩
    refine bind_eq_error.mpr (Or.inr ⟨checked, hchecked, bind_eq_error.mpr (Or.inl ?_)⟩)
    rw [foldlM_eq_error checked.spatialDims_sorted fun i _ => checked.dim_false i]
    refine ⟨hcons, i, (checked.mem_spatialDims i).mpr hi, (checked.dim_eq_divisionByZero i).mpr hzero, fun j hj hlt => ?_⟩
    exact (checked.dim_eq_ok_true j).mpr (hbefore j ((checked.mem_spatialDims j).mp hj) hlt)

/-! ## The descriptor -/

theorem Checked.ndims_cases (hcons : checked.consistency = true) :
    checked.srcDesc.ndims = 3 ∨ checked.srcDesc.ndims = 4 ∨ checked.srcDesc.ndims = 5 := by
  unfold Checked.consistency at hcons
  simp only [Bool.and_eq_true, decide_eq_true_eq, List.mem_cons, List.not_mem_nil, or_false] at hcons
  exact hcons.1.1.1

theorem srcDesc_desc (checked : Checked) : srcDesc checked.desc = checked.srcDesc := by
  unfold srcDesc Checked.desc
  cases isFwd checked.propKind <;> rfl

theorem dstDesc_desc (checked : Checked) : dstDesc checked.desc = checked.dstDesc := by
  unfold dstDesc Checked.desc
  cases isFwd checked.propKind <;> rfl

/-- The numbers that an implementation reads are those of a spatial dimension of the caller. -/
theorem axisFromEnd_desc (hcons : checked.consistency = true) {back : ℕ} (hback : 0 < back)
    (h : back + 2 ≤ checked.srcDesc.ndims.toNat) :
    axisFromEnd checked.desc back = checked.axis (checked.srcDesc.ndims.toNat - back) := by
  have hndims : ndims checked.desc = checked.srcDesc.ndims.toNat := by
    unfold ndims
    rw [srcDesc_desc]
  have hsize : checked.srcDesc.ndims.toNat - back - 2 < toSize (checked.srcDesc.ndims - 2) := by
    have := checked.ndims_cases hcons
    unfold toSize
    omega
  unfold axisFromEnd Checked.axis
  rw [hndims, if_pos h, srcDesc_desc, dstDesc_desc]
  unfold Checked.desc arrayCopy
  dsimp only
  rw [if_pos hsize, if_pos hsize, if_pos hsize]

/-- Every window of an accepted geometry contains an element of the source in each dimension, and the divisor is
positive. -/
structure Sound (pd : PoolingDesc) : Prop where
  windows : ∀ back, 1 ≤ back → back ≤ 3 → ∀ o, 0 ≤ o → o < (axisFromEnd pd back).o → (axisFromEnd pd back).Meets o
  summands : ∀ od oh ow, 0 ≤ od → od < (axisD pd).o → 0 ≤ oh → oh < (axisH pd).o → 0 ≤ ow → ow < (axisW pd).o →
    0 < numSummands pd Axis.start od oh ow ∧ 0 < numSummands pd Axis.startOffset od oh ow ∧
      0 < countSummands pd od oh ow

/-- If all windows meet the source, the divisors are positive. -/
theorem sound_of_windows {pd : PoolingDesc} (halg : pd.algKind = .poolingAvgExcludePadding)
    (h : ∀ back, 1 ≤ back → back ≤ 3 → ∀ o, 0 ≤ o → o < (axisFromEnd pd back).o → (axisFromEnd pd back).Meets o) :
    Sound pd := by
  refine ⟨h, ?_⟩
  intro od oh ow hod hod' hoh hoh' how how'
  have hd := Axis.start_lt_stop (h 3 (by decide) (by decide) od hod hod')
  have hh := Axis.start_lt_stop (h 2 (by decide) (by decide) oh hoh hoh')
  have hw := Axis.start_lt_stop (h 1 (by decide) (by decide) ow how how')
  have hinclude : pd.algKind ≠ .poolingAvgIncludePadding := by
    rw [halg]
    decide
  have hpos : 0 < numSummands pd Axis.start od oh ow := by
    unfold numSummands
    rw [if_neg hinclude]
    exact Int.mul_pos (Int.mul_pos (by unfold axisD; omega) (by unfold axisH; omega)) (by unfold axisW; omega)
  refine ⟨hpos, ?_, ?_⟩
  · unfold numSummands at hpos ⊢
    simp only [Axis.startOffset_eq]
    exact hpos
  · unfold countSummands iterations
    rw [if_neg hinclude]
    simp only [Axis.startOffset_eq]
    refine Int.mul_pos (Int.mul_pos ?_ ?_) ?_
    · unfold axisD
      omega
    · unfold axisH
      omega
    · unfold axisW
      omega

/-- No division by zero, and sound averages. -/
def Expected (args : Args) : Prop :=
  poolingDescInit args ≠ .error .divisionByZero ∧
    ∀ pd, poolingDescInit args = .ok pd → pd.algKind = .poolingAvgExcludePadding → Sound pd

/-- The strides are not zero, up to the first dimension that the code rejects, and the images, kernels and windows of an
average that it accepts are as in `Suits`. -/
structure Checked.Suits (checked : Checked) : Prop where
  strides : ∀ i, checked.IsSpatial i → (∀ j, checked.IsSpatial j → j < i → checked.Passes j) →
    checked.strides (i - 2) ≠ 0
  windows : checked.algKind = .poolingAvgExcludePadding → (∀ i, checked.IsSpatial i → checked.Passes i) →
    ∀ i, checked.IsSpatial i → 0 < checked.dstDesc.dims i → (checked.axis i).Suits

/-- The dimensions of an accepted average are sound if and only if each of them suits. -/
theorem sound_iff (hcons : checked.consistency = true) (halg : checked.algKind = .poolingAvgExcludePadding)
    (hpass : ∀ i, checked.IsSpatial i → checked.Passes i) :
    Sound checked.desc ↔ ∀ i, checked.IsSpatial i → 0 < checked.dstDesc.dims i → (checked.axis i).Suits := by
  have hndims := checked.ndims_cases hcons
  have hmeets : ∀ i, checked.IsSpatial i →
      ((∀ o, 0 ≤ o → o < (checked.axis i).o → (checked.axis i).Meets o) ↔
        (0 < checked.dstDesc.dims i → (checked.axis i).Suits)) :=
    fun i hi => Axis.meets_all_iff ((hpass i hi).paddings halg).1
  constructor
  · intro h i hi
    apply (hmeets i hi).mp
    obtain ⟨hlow, hhigh⟩ := hi
    have haxis : axisFromEnd checked.desc (checked.srcDesc.ndims.toNat - i) =
        checked.axis (checked.srcDesc.ndims.toNat - (checked.srcDesc.ndims.toNat - i)) :=
      axisFromEnd_desc hcons (by omega) (by omega)
    have hback : checked.srcDesc.ndims.toNat - (checked.srcDesc.ndims.toNat - i) = i := by omega
    rw [hback] at haxis
    rw [← haxis]
    exact h.windows _ (by omega) (by omega)
  · intro h
    apply sound_of_windows halg
    intro back hlow hhigh
    by_cases hexists : back + 2 ≤ checked.srcDesc.ndims.toNat
    · rw [axisFromEnd_desc hcons (by omega) hexists]
      have hi : checked.IsSpatial (checked.srcDesc.ndims.toNat - back) := ⟨by omega, by omega⟩
      exact (hmeets _ hi).mpr (h _ hi)
    · -- a dimension that is not there has one window, of one element
      have hndims' : ndims checked.desc = checked.srcDesc.ndims.toNat := by
        unfold ndims
        rw [srcDesc_desc]
      unfold axisFromEnd
      rw [hndims', if_neg hexists]
      intro o ho ho'
      have hone : o = 0 := by
        change o < 1 at ho'
        omega
      rw [hone]
      exact ⟨0, by decide, by decide, by decide, by decide⟩

/-- A descriptor with one image and one channel. -/
def lineDesc (width : ℤ) : PrimitiveHashing.MemoryDesc :=
  { PrimitiveHashing.zeroMd with
    ndims := 3
    dims := fun i => if i = 2 then width else 1
    dataType := .f32
    formatKind := .any }

/-- An average along a line. -/
def lineArgs (src stride kernel paddingL paddingR : ℤ) : Args where
  hasDesc := true
  propKind := .forwardInference
  algKind := .poolingAvgExcludePadding
  srcDesc := some (lineDesc src)
  dstDesc := some (lineDesc 1)
  strides := some fun _ => stride
  kernel := some fun _ => kernel
  paddingL := some fun _ => paddingL
  paddingR := some fun _ => paddingR

end MklDnn.PoolingInit
