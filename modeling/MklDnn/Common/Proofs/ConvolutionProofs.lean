import Mathlib.Tactic.Linarith
import Mathlib.Tactic.Ring
import MklDnn.Common.Convolution
import MklDnn.Lib.Checks

/-!
# Proofs: the shape law of convolution descriptors

An accepted descriptor is one whose last window fits, and after which no other window does, in every spatial dimension,
unless the kernel is larger than the padded input or a number does not fit into an `int`.
-/

open Checks

namespace MklDnn.DescInit

/-! ## The shape law -/

/-- The numbers of a spatial dimension, as the caller passed them. -/
structure SpatialDim where
  src : ℤ
  ker : ℤ
  dil : ℤ
  padL : ℤ
  padR : ℤ
  str : ℤ
  dst : ℤ

namespace SpatialDim

variable (d : SpatialDim)

/-- `ker_range`, without overflow. -/
def kerRange : ℤ := 1 + (d.ker - 1) * (d.dil + 1)

/-- How much the padded input exceeds the kernel. -/
def slack : ℤ := d.src + d.padL + d.padR - d.kerRange

/-- The last window fits the padded input, and the next one would not. -/
structure Law : Prop where
  str : 1 ≤ d.str
  dil : 0 ≤ d.dil
  fits : (d.dst - 1) * d.str + d.kerRange ≤ d.src + d.padL + d.padR
  last : d.src + d.padL + d.padR < d.dst * d.str + d.kerRange

/-- The equation that the code checks, which rounds towards zero. -/
def Rounds : Prop := d.str ≠ 0 ∧ d.slack.tdiv d.str + 1 = d.dst

/-- The kernel is larger than the padded input, and the stride does not divide the difference. -/
def Truncates : Prop := d.slack < 0 ∧ ¬ d.str ∣ d.slack

/-- Rounding towards zero is rounding up below zero. -/
theorem slack_lt_tdiv_mul (hstr : 0 < d.str) (h : d.Truncates) : d.slack < d.slack.tdiv d.str * d.str := by
  obtain ⟨hneg, hndvd⟩ := h
  have hquot : (-d.slack).tdiv d.str = -d.slack / d.str := Int.tdiv_eq_ediv_of_nonneg (by omega)
  rw [Int.neg_tdiv] at hquot
  have hle : -d.slack / d.str * d.str ≤ -d.slack := Int.ediv_mul_le _ (by omega)
  have hne : -d.slack / d.str * d.str ≠ -d.slack := by
    intro heq
    apply hndvd
    exact Int.dvd_neg.mp ⟨-d.slack / d.str, by rw [mul_comm]; exact heq.symm⟩
  rw [← hquot, neg_mul] at hle hne
  omega

theorem tdiv_mul_le (hstr : 0 < d.str) (h : ¬ d.Truncates) : d.slack.tdiv d.str * d.str ≤ d.slack := by
  by_cases hneg : d.slack < 0
  · have hdvd : d.str ∣ d.slack := by
      by_contra hndvd
      exact h ⟨hneg, hndvd⟩
    exact le_of_eq (Int.tdiv_mul_cancel_of_dvd hdvd)
  · rw [Int.tdiv_eq_ediv_of_nonneg (by omega)]
    exact Int.ediv_mul_le _ (by omega)

/-- What the checks of the code leave to the law. -/
theorem law_iff (hdil : 0 ≤ d.dil) (hstr : 0 < d.str) (hround : d.Rounds) : d.Law ↔ ¬ d.Truncates := by
  obtain ⟨-, hdst⟩ := hround
  have hrange : d.src + d.padL + d.padR = d.slack + d.kerRange := by
    unfold slack
    ring
  constructor
  · rintro ⟨-, -, hfits, -⟩ htrunc
    have hlt := d.slack_lt_tdiv_mul hstr htrunc
    rw [hrange, ← hdst, add_sub_cancel_right] at hfits
    omega
  · intro hnot
    refine ⟨hstr, hdil, ?_, ?_⟩
    · have hle := d.tdiv_mul_le hstr hnot
      rw [hrange, ← hdst, add_sub_cancel_right]
      omega
    · have hlt := Int.lt_tdiv_add_one_mul_self d.slack hstr
      rw [hrange, ← hdst]
      omega

end SpatialDim

/-! ## `int` -/

/-- The number is one of type `int`. -/
def IsInt (x : ℤ) : Prop := -2 ^ 31 ≤ x ∧ x < 2 ^ 31

instance (x : ℤ) : Decidable (IsInt x) := inferInstanceAs (Decidable (_ ∧ _))

theorem toInt_of_isInt {x : ℤ} (h : IsInt x) : toInt x = x := by
  obtain ⟨hlow, hhigh⟩ := h
  exact Int.bmod_eq_of_le (by omega) (by omega)

@[simp] theorem toInt_toInt_add (a b : ℤ) : toInt (toInt a + b) = toInt (a + b) := Int.bmod_add_bmod

@[simp] theorem toInt_add_toInt (a b : ℤ) : toInt (a + toInt b) = toInt (a + b) := Int.add_bmod_bmod

@[simp] theorem toInt_toInt_sub (a b : ℤ) : toInt (toInt a - b) = toInt (a - b) := Int.bmod_sub_bmod

@[simp] theorem toInt_sub_toInt (a b : ℤ) : toInt (a - toInt b) = toInt (a - b) := Int.sub_bmod_bmod

@[simp] theorem toInt_toInt_mul (a b : ℤ) : toInt (toInt a * b) = toInt (a * b) := Int.bmod_mul_bmod

@[simp] theorem toInt_mul_toInt (a b : ℤ) : toInt (a * toInt b) = toInt (a * b) := Int.mul_bmod_bmod

@[simp] theorem toInt_toDim (a : ℤ) : toInt (toDim a) = toInt a := Int.bmod_bmod_of_dvd ⟨2 ^ 32, by norm_num⟩

/-! ## The loops over the spatial dimensions -/

namespace Checked

variable (args : Checked)

/-- The numbers of a spatial dimension of a convolution. -/
def convSpatial (i : ℕ) : SpatialDim where
  src := args.srcDesc.dims i
  ker := args.weightsDesc.dims (args.groupDims + i)
  dil := (args.dilates.getD fun _ => 0) (i - 2)
  padL := args.paddingL (i - 2)
  padR := args.paddingR (i - 2)
  str := args.strides (i - 2)
  dst := args.dstDesc.dims i

/-- The numbers of a spatial dimension of a deconvolution, with the roles of `src` and `dst` exchanged. -/
def deconvSpatial (i : ℕ) : SpatialDim :=
  { args.convSpatial i with src := args.dstDesc.dims i, dst := args.srcDesc.dims i }

/-- A spatial dimension. -/
def IsSpatial (i : ℕ) : Prop := 2 ≤ i ∧ (i : ℤ) < args.srcDesc.ndims

@[simp] theorem mem_spatialDims (i : ℕ) : i ∈ args.spatialDims ↔ args.IsSpatial i := by
  unfold spatialDims IsSpatial
  rw [List.mem_map]
  constructor
  · rintro ⟨j, hj, rfl⟩
    rw [List.mem_range] at hj
    omega
  · rintro ⟨hlow, hhigh⟩
    refine ⟨i - 2, ?_, by omega⟩
    rw [List.mem_range]
    omega

theorem spatialDims_sorted : args.spatialDims.Pairwise (· < ·) := by
  unfold spatialDims
  rw [List.pairwise_map]
  exact List.pairwise_lt_range.imp fun hlt => by omega

theorem ranksOk_ndims {biasDim : ℤ} (h : args.ranksOk biasDim = true) : args.srcDesc.ndims ∈ [3, 4, 5] := by
  unfold ranksOk at h
  simp only [Bool.and_eq_true, decide_eq_true_eq] at h
  exact h.1.1.1.1.1.1.2

/-- The dilation read back from the descriptor is the one of the caller. -/
theorem dilate_eq (hndims : args.srcDesc.ndims ∈ [3, 4, 5]) {i : ℕ} (hi : args.IsSpatial i) :
    args.dilate (i - 2) = (args.convSpatial i).dil := by
  obtain ⟨hlow, hhigh⟩ := hi
  have hsize : i - 2 < toSize (args.srcDesc.ndims - 2) := by
    simp only [List.mem_cons, List.not_mem_nil, or_false] at hndims
    unfold toSize
    omega
  unfold dilate desc arrayCopy
  dsimp only
  rw [if_pos hsize]
  rfl

/-- The numbers that the division of the code and its neighbours work on are of type `int`. -/
structure Representable (d : SpatialDim) : Prop where
  dil : IsInt d.dil
  str : IsInt d.str
  dst : IsInt d.dst
  slack : IsInt d.slack
  quot : IsInt (d.slack.tdiv d.str + 1)

/-- The paddings of a convolution are as well. -/
structure ConvRepresentable (d : SpatialDim) : Prop extends Representable d where
  padL : IsInt d.padL
  padR : IsInt d.padR
  step : IsInt (d.padR + d.str)

/-- What `conv_desc_init` checks in a spatial dimension. -/
structure ConvPasses (d : SpatialDim) : Prop where
  str : 1 ≤ d.str
  dil : 0 ≤ d.dil
  padL : 0 ≤ d.padL
  padR : 0 < d.padR + d.str
  rounds : d.Rounds

theorem slack_convSpatial (i : ℕ) : toInt (toInt (toInt (toInt (args.srcDesc.dims i) - toInt (1 + toInt (toInt
    (toInt (args.weightsDesc.dims (args.groupDims + i)) - 1) * toInt (toInt (args.convSpatial i).dil + 1)))) +
      toInt (args.paddingL (i - 2))) + toInt (args.paddingR (i - 2))) = toInt (args.convSpatial i).slack := by
  simp only [toInt_toInt_add, toInt_add_toInt, toInt_toInt_sub, toInt_sub_toInt, toInt_toInt_mul, toInt_mul_toInt]
  congr 1
  unfold SpatialDim.slack SpatialDim.kerRange convSpatial
  ring

theorem slack_deconvSpatial (i : ℕ) : toInt (toInt (toInt (args.dstDesc.dims i) - toInt (1 + toInt (toInt
    (toInt (args.weightsDesc.dims (args.groupDims + i)) - 1) * toInt (toInt (args.convSpatial i).dil + 1)))) +
      toInt (toDim (args.paddingL (i - 2) + args.paddingR (i - 2)))) = toInt (args.deconvSpatial i).slack := by
  simp only [toInt_toInt_add, toInt_add_toInt, toInt_toInt_sub, toInt_sub_toInt, toInt_toInt_mul, toInt_mul_toInt,
    toInt_toDim]
  congr 1
  unfold SpatialDim.slack SpatialDim.kerRange deconvSpatial convSpatial
  ring

/-- The division, and the comparison of what it leaves. -/
theorem intDiv_round {d : SpatialDim} (hrep : Representable d) (hstr : d.str ≠ 0) :
    ((do
      let q ← intDiv d.slack d.str
      return decide (toInt (q + 1) = d.dst)) : Except Stop Bool) = .ok (decide (d.slack.tdiv d.str + 1 = d.dst)) := by
  unfold intDiv
  rw [if_neg hstr]
  show Except.ok (decide (toInt (toInt (d.slack.tdiv d.str) + 1) = d.dst)) = _
  rw [toInt_toInt_add, toInt_of_isInt hrep.quot]

theorem convDim_eq_ok_true {i : ℕ} (hdil : args.dilate (i - 2) = (args.convSpatial i).dil)
    (hrep : ConvRepresentable (args.convSpatial i)) :
    args.convDim true i = .ok true ↔ ConvPasses (args.convSpatial i) := by
  have hslack := args.slack_convSpatial i
  rw [toInt_of_isInt hrep.slack] at hslack
  have hl : toInt (args.paddingL (i - 2)) = (args.convSpatial i).padL := toInt_of_isInt hrep.padL
  have hs : toInt (args.strides (i - 2)) = (args.convSpatial i).str := toInt_of_isInt hrep.str
  have ho : toInt (args.dstDesc.dims i) = (args.convSpatial i).dst := toInt_of_isInt hrep.dst
  have hr : toInt (toInt (args.paddingR (i - 2)) + (args.convSpatial i).str) =
      (args.convSpatial i).padR + (args.convSpatial i).str := by
    rw [toInt_toInt_add]
    exact toInt_of_isInt hrep.step
  unfold convDim
  rw [hdil]
  dsimp only
  rw [hslack, toInt_of_isInt hrep.dil, hl, hs, ho, hr]
  by_cases hstr : (args.convSpatial i).str < 1
  · rw [if_pos hstr]
    constructor
    · intro h
      cases h
    · intro h
      exact absurd h.str (by omega)
  · rw [if_neg hstr, intDiv_round hrep.toRepresentable (by omega)]
    constructor
    · intro h
      split_ifs at h with hchecks
      · simp only [Bool.and_eq_true, decide_eq_true_eq] at hchecks
        obtain ⟨⟨⟨-, hdil⟩, hl⟩, hr⟩ := hchecks
        injection h with h
        exact ⟨by omega, hdil, hl, hr, by omega, of_decide_eq_true h⟩
      · cases h
    · intro h
      rw [if_pos (by simp [h.dil, h.padL, h.padR]), decide_eq_true h.rounds.2]

theorem convDim_false (i : ℕ) : args.convDim false i ≠ .ok true := by
  unfold convDim
  dsimp only
  split_ifs
  · intro h
    cases h
  · simp_all
  · intro h
    cases h

theorem convDim_ne_divisionByZero (c : Bool) (i : ℕ) : args.convDim c i ≠ .error .divisionByZero := by
  unfold convDim
  dsimp only
  split_ifs with hstr hchecks
  · intro h
    cases h
  · unfold intDiv
    rw [if_neg (by omega)]
    intro h
    cases h
  · intro h
    cases h

theorem deconvDim_false (i : ℕ) : args.deconvDim false i = .ok false := rfl

theorem deconvDim_true {i : ℕ} (hdil : args.dilate (i - 2) = (args.convSpatial i).dil)
    (hrep : Representable (args.deconvSpatial i)) :
    args.deconvDim true i = do
      let q ← intDiv (args.deconvSpatial i).slack (args.deconvSpatial i).str
      return decide (toInt (q + 1) = (args.deconvSpatial i).dst) := by
  have hslack := args.slack_deconvSpatial i
  rw [toInt_of_isInt hrep.slack] at hslack
  have hs : toInt (args.strides (i - 2)) = (args.deconvSpatial i).str := toInt_of_isInt hrep.str
  have ho : toInt (args.srcDesc.dims i) = (args.deconvSpatial i).dst := toInt_of_isInt hrep.dst
  unfold deconvDim
  rw [hdil]
  dsimp only
  rw [if_pos rfl, hslack, hs, ho]

theorem deconvDim_eq_ok_true {i : ℕ} (hdil : args.dilate (i - 2) = (args.convSpatial i).dil)
    (hrep : Representable (args.deconvSpatial i)) :
    args.deconvDim true i = .ok true ↔ (args.deconvSpatial i).Rounds := by
  rw [args.deconvDim_true hdil hrep]
  by_cases hstr : (args.deconvSpatial i).str = 0
  · unfold intDiv
    rw [if_pos hstr]
    constructor
    · intro h
      cases h
    · intro h
      exact absurd hstr h.1
  · rw [intDiv_round hrep hstr]
    constructor
    · intro h
      injection h with h
      exact ⟨hstr, of_decide_eq_true h⟩
    · intro h
      rw [decide_eq_true h.2]

theorem deconvDim_eq_error {i : ℕ} (hdil : args.dilate (i - 2) = (args.convSpatial i).dil)
    (hrep : Representable (args.deconvSpatial i)) :
    args.deconvDim true i = .error .divisionByZero ↔ (args.deconvSpatial i).str = 0 := by
  rw [args.deconvDim_true hdil hrep]
  by_cases hstr : (args.deconvSpatial i).str = 0
  · unfold intDiv
    rw [if_pos hstr]
    exact ⟨fun _ => hstr, fun _ => rfl⟩
  · rw [intDiv_round hrep hstr]
    constructor
    · intro h
      cases h
    · intro h
      exact absurd h hstr

end Checked

/-! ## The functions -/

/-- No division by zero, and the shape law for what `conv_desc_init` accepts. -/
def ConvLaw (args : Args) : Prop :=
  convDescInit args ≠ .error .divisionByZero ∧ ∀ cd, convDescInit args = .ok cd →
    ∃ checked, args.check convAlgKinds = .ok checked ∧ ∀ i, checked.IsSpatial i → (checked.convSpatial i).Law

/-- No division by zero, and the shape law for what `deconv_desc_init` accepts. -/
def DeconvLaw (args : Args) : Prop :=
  deconvDescInit args ≠ .error .divisionByZero ∧ ∀ dd, deconvDescInit args = .ok dd →
    ∃ checked, args.check deconvAlgKinds = .ok checked ∧ ∀ i, checked.IsSpatial i → (checked.deconvSpatial i).Law

/-- The numbers of a convolution with matching ranks and channels are of type `int`. -/
def ConvRepresentable (args : Args) : Prop :=
  ∀ checked, args.check convAlgKinds = .ok checked → checked.convConsistency = true →
    ∀ i, checked.IsSpatial i → Checked.ConvRepresentable (checked.convSpatial i)

def DeconvRepresentable (args : Args) : Prop :=
  ∀ checked, args.check deconvAlgKinds = .ok checked → checked.deconvConsistency = true →
    ∀ i, checked.IsSpatial i → Checked.Representable (checked.deconvSpatial i)

/-- A convolution that satisfies every check, with a kernel that is larger than the padded input by a number that the stride
does not divide. -/
def ConvTruncates (args : Args) : Prop :=
  ∃ checked, args.check convAlgKinds = .ok checked ∧ checked.convConsistency = true ∧
    (∀ i, checked.IsSpatial i → Checked.ConvPasses (checked.convSpatial i)) ∧
      ∃ i, checked.IsSpatial i ∧ (checked.convSpatial i).Truncates

/-- A stride of zero behind dimensions that satisfy the equation. -/
def DeconvDividesByZero (args : Args) : Prop :=
  ∃ checked, args.check deconvAlgKinds = .ok checked ∧ checked.deconvConsistency = true ∧
    ∃ i, checked.IsSpatial i ∧ (checked.deconvSpatial i).str = 0 ∧
      ∀ j, checked.IsSpatial j → j < i → (checked.deconvSpatial j).Rounds

/-- A deconvolution that satisfies every check, with a negative stride or dilation, or a kernel as in `ConvTruncates`. -/
def DeconvUnchecked (args : Args) : Prop :=
  ∃ checked, args.check deconvAlgKinds = .ok checked ∧ checked.deconvConsistency = true ∧
    (∀ i, checked.IsSpatial i → (checked.deconvSpatial i).Rounds) ∧
      ∃ i, checked.IsSpatial i ∧ ((checked.deconvSpatial i).str < 0 ∨ (checked.deconvSpatial i).dil < 0 ∨
        (checked.deconvSpatial i).Truncates)

theorem Args.check_ne_divisionByZero (args : Args) (algKinds : List PrimitiveHashing.AlgKind) :
    args.check algKinds ≠ .error .divisionByZero := by
  unfold Args.check
  split
  · split_ifs <;> intro h <;> cases h
  · intro h
    cases h

theorem convDescInit_ne_divisionByZero (args : Args) : convDescInit args ≠ .error .divisionByZero := by
  unfold convDescInit
  intro h
  rcases bind_eq_error.mp h with h | ⟨checked, -, h⟩
  · exact args.check_ne_divisionByZero _ h
  · rcases bind_eq_error.mp h with h | ⟨consistency, -, h⟩
    · exact foldlM_ne_error (fun c i _ => checked.convDim_ne_divisionByZero c i) _ h
    · split_ifs at h
      cases h

theorem convDescInit_eq_ok (args : Args) : (∃ cd, convDescInit args = .ok cd) ↔
    ∃ checked, args.check convAlgKinds = .ok checked ∧ checked.convConsistency = true ∧
      ∀ i, checked.IsSpatial i → checked.convDim true i = .ok true := by
  unfold convDescInit
  constructor
  · rintro ⟨cd, h⟩
    obtain ⟨checked, hchecked, h⟩ := bind_eq_ok.mp h
    obtain ⟨consistency, hloop, h⟩ := bind_eq_ok.mp h
    split_ifs at h with hc
    rw [hc, foldlM_eq_ok_true fun i _ => checked.convDim_false i] at hloop
    obtain ⟨hcons, hpass⟩ := hloop
    exact ⟨checked, hchecked, hcons, fun i hi => hpass i ((checked.mem_spatialDims i).mpr hi)⟩
  · rintro ⟨checked, hchecked, hcons, hpass⟩
    refine ⟨checked.desc .convolution, bind_eq_ok.mpr ⟨checked, hchecked, bind_eq_ok.mpr ⟨true, ?_, rfl⟩⟩⟩
    rw [foldlM_eq_ok_true fun i _ => checked.convDim_false i]
    exact ⟨hcons, fun i hi => hpass i ((checked.mem_spatialDims i).mp hi)⟩

theorem deconvDescInit_eq_ok (args : Args) : (∃ dd, deconvDescInit args = .ok dd) ↔
    ∃ checked, args.check deconvAlgKinds = .ok checked ∧ checked.deconvConsistency = true ∧
      ∀ i, checked.IsSpatial i → checked.deconvDim true i = .ok true := by
  have hfalse : ∀ (checked : Checked) (i : ℕ), checked.deconvDim false i ≠ .ok true := by
    intro checked i h
    rw [checked.deconvDim_false] at h
    cases h
  unfold deconvDescInit
  constructor
  · rintro ⟨dd, h⟩
    obtain ⟨checked, hchecked, h⟩ := bind_eq_ok.mp h
    obtain ⟨consistency, hloop, h⟩ := bind_eq_ok.mp h
    split_ifs at h with hc
    rw [hc, foldlM_eq_ok_true fun i _ => hfalse checked i] at hloop
    obtain ⟨hcons, hpass⟩ := hloop
    exact ⟨checked, hchecked, hcons, fun i hi => hpass i ((checked.mem_spatialDims i).mpr hi)⟩
  · rintro ⟨checked, hchecked, hcons, hpass⟩
    refine ⟨checked.desc .deconvolution, bind_eq_ok.mpr ⟨checked, hchecked, bind_eq_ok.mpr ⟨true, ?_, rfl⟩⟩⟩
    rw [foldlM_eq_ok_true fun i _ => hfalse checked i]
    exact ⟨hcons, fun i hi => hpass i ((checked.mem_spatialDims i).mp hi)⟩

theorem deconvDescInit_eq_divisionByZero (args : Args) : deconvDescInit args = .error .divisionByZero ↔
    ∃ checked, args.check deconvAlgKinds = .ok checked ∧ checked.deconvConsistency = true ∧
      ∃ i, checked.IsSpatial i ∧ checked.deconvDim true i = .error .divisionByZero ∧
        ∀ j, checked.IsSpatial j → j < i → checked.deconvDim true j = .ok true := by
  unfold deconvDescInit
  constructor
  · intro h
    rcases bind_eq_error.mp h with h | ⟨checked, hchecked, h⟩
    · exact absurd h (args.check_ne_divisionByZero _)
    · rcases bind_eq_error.mp h with h | ⟨consistency, -, h⟩
      · rw [foldlM_eq_error checked.spatialDims_sorted fun i _ => checked.deconvDim_false i] at h
        obtain ⟨hcons, i, hi, hzero, hbefore⟩ := h
        exact ⟨checked, hchecked, hcons, i, (checked.mem_spatialDims i).mp hi, hzero,
          fun j hj => hbefore j ((checked.mem_spatialDims j).mpr hj)⟩
      · split_ifs at h
        cases h
  · rintro ⟨checked, hchecked, hcons, i, hi, hzero, hbefore⟩
    refine bind_eq_error.mpr (Or.inr ⟨checked, hchecked, bind_eq_error.mpr (Or.inl ?_)⟩)
    rw [foldlM_eq_error checked.spatialDims_sorted fun i _ => checked.deconvDim_false i]
    exact ⟨hcons, i, (checked.mem_spatialDims i).mpr hi, hzero,
      fun j hj => hbefore j ((checked.mem_spatialDims j).mp hj)⟩

/-! ## The law -/

theorem Checked.convConsistency_ndims {checked : Checked} (h : checked.convConsistency = true) :
    checked.srcDesc.ndims ∈ [3, 4, 5] := by
  unfold Checked.convConsistency at h
  simp only [Bool.and_eq_true] at h
  exact checked.ranksOk_ndims h.2

/-- A convolution that is accepted passes the checks without overflow. -/
theorem ConvRepresentable.accepted_iff {args : Args} (hrep : ConvRepresentable args) : (∃ cd, convDescInit args = .ok cd) ↔
    ∃ checked, args.check convAlgKinds = .ok checked ∧ checked.convConsistency = true ∧
      ∀ i, checked.IsSpatial i → Checked.ConvPasses (checked.convSpatial i) := by
  rw [convDescInit_eq_ok]
  apply exists_congr
  intro checked
  apply and_congr_right
  intro hchecked
  apply and_congr_right
  intro hcons
  refine forall_congr' fun i => forall_congr' fun hi => ?_
  exact checked.convDim_eq_ok_true (checked.dilate_eq (Checked.convConsistency_ndims hcons) hi) (hrep checked hchecked hcons i hi)

theorem ConvRepresentable.law_iff {args : Args} (hrep : ConvRepresentable args) : ConvLaw args ↔ ¬ ConvTruncates args := by
  constructor
  · rintro ⟨-, hlaw⟩ ⟨checked, hchecked, hcons, hpass, i, hi, htrunc⟩
    obtain ⟨cd, hcd⟩ := hrep.accepted_iff.mpr ⟨checked, hchecked, hcons, hpass⟩
    obtain ⟨checked', hchecked', hlaw⟩ := hlaw cd hcd
    rw [hchecked] at hchecked'
    injection hchecked' with hsame
    subst hsame
    have hi' := hpass i hi
    exact ((checked.convSpatial i).law_iff hi'.dil hi'.str hi'.rounds).mp (hlaw i hi) htrunc
  · intro hnot
    refine ⟨convDescInit_ne_divisionByZero args, fun cd hcd => ?_⟩
    obtain ⟨checked, hchecked, hcons, hpass⟩ := hrep.accepted_iff.mp ⟨cd, hcd⟩
    refine ⟨checked, hchecked, fun i hi => ?_⟩
    have hi' := hpass i hi
    rw [(checked.convSpatial i).law_iff hi'.dil hi'.str hi'.rounds]
    intro htrunc
    exact hnot ⟨checked, hchecked, hcons, hpass, i, hi, htrunc⟩

theorem DeconvRepresentable.accepted_iff {args : Args} (hrep : DeconvRepresentable args) :
    (∃ dd, deconvDescInit args = .ok dd) ↔
      ∃ checked, args.check deconvAlgKinds = .ok checked ∧ checked.deconvConsistency = true ∧
        ∀ i, checked.IsSpatial i → (checked.deconvSpatial i).Rounds := by
  rw [deconvDescInit_eq_ok]
  apply exists_congr
  intro checked
  apply and_congr_right
  intro hchecked
  apply and_congr_right
  intro hcons
  refine forall_congr' fun i => forall_congr' fun hi => ?_
  exact checked.deconvDim_eq_ok_true (checked.dilate_eq (checked.ranksOk_ndims hcons) hi) (hrep checked hchecked hcons i hi)

theorem DeconvRepresentable.divides_iff {args : Args} (hrep : DeconvRepresentable args) :
    deconvDescInit args = .error .divisionByZero ↔ DeconvDividesByZero args := by
  rw [deconvDescInit_eq_divisionByZero]
  apply exists_congr
  intro checked
  apply and_congr_right
  intro hchecked
  apply and_congr_right
  intro hcons
  have hdil := fun i => checked.dilate_eq (i := i) (checked.ranksOk_ndims hcons)
  have hrep := hrep checked hchecked hcons
  apply exists_congr
  intro i
  apply and_congr_right
  intro hi
  apply and_congr
  · exact checked.deconvDim_eq_error (hdil i hi) (hrep i hi)
  · refine forall_congr' fun j => forall_congr' fun hj => forall_congr' fun _ => ?_
    exact checked.deconvDim_eq_ok_true (hdil j hj) (hrep j hj)

theorem DeconvRepresentable.law_iff {args : Args} (hrep : DeconvRepresentable args) :
    DeconvLaw args ↔ ¬ DeconvDividesByZero args ∧ ¬ DeconvUnchecked args := by
  unfold DeconvLaw
  apply and_congr
  · exact not_congr hrep.divides_iff
  · constructor
    · rintro hlaw ⟨checked, hchecked, hcons, hround, i, hi, hbad⟩
      obtain ⟨dd, hdd⟩ := hrep.accepted_iff.mpr ⟨checked, hchecked, hcons, hround⟩
      obtain ⟨checked', hchecked', hlaw⟩ := hlaw dd hdd
      rw [hchecked] at hchecked'
      injection hchecked' with hsame
      subst hsame
      have hi' := hlaw i hi
      rcases hbad with hstr | hdil | htrunc
      · exact absurd hi'.str (by omega)
      · exact absurd hi'.dil (by omega)
      · exact ((checked.deconvSpatial i).law_iff hi'.dil hi'.str (hround i hi)).mp hi' htrunc
    · intro hnot dd hdd
      obtain ⟨checked, hchecked, hcons, hround⟩ := hrep.accepted_iff.mp ⟨dd, hdd⟩
      refine ⟨checked, hchecked, fun i hi => ?_⟩
      have hbad : ¬ ((checked.deconvSpatial i).str < 0 ∨ (checked.deconvSpatial i).dil < 0 ∨
          (checked.deconvSpatial i).Truncates) := fun hbad => hnot ⟨checked, hchecked, hcons, hround, i, hi, hbad⟩
      have hne := (hround i hi).1
      rw [not_or, not_or] at hbad
      obtain ⟨hstr, hdil, htrunc⟩ := hbad
      exact ((checked.deconvSpatial i).law_iff (by omega) (by omega) (hround i hi)).mpr htrunc

/-- When the shape law holds, of numbers that are of type `int`. Only the check of deconvolutions can divide by zero. -/
theorem shapeLaw_iff (args : Args) : convDescInit args ≠ .error .divisionByZero ∧
    (ConvRepresentable args → (ConvLaw args ↔ ¬ ConvTruncates args)) ∧
      (DeconvRepresentable args → (DeconvLaw args ↔ ¬ DeconvDividesByZero args ∧ ¬ DeconvUnchecked args)) :=
  ⟨convDescInit_ne_divisionByZero args, ConvRepresentable.law_iff, DeconvRepresentable.law_iff⟩

/-! ### Problems of one dimension -/

/-- A tensor of one image and one channel. -/
def lineMd (n : ℤ) : PrimitiveHashing.MemoryDesc :=
  { PrimitiveHashing.zeroMd with
    ndims := 3
    dims := fun i => if i = 2 then n else 1
    dataType := .f32
    formatKind := .any }

/-- A forward pass over a line, without padding. -/
def line (algKind : PrimitiveHashing.AlgKind) (src ker str dst : ℤ) : Args where
  hasDesc := true
  propKind := .forwardInference
  algKind := algKind
  srcDesc := some (lineMd src)
  weightsDesc := some (lineMd ker)
  biasDesc := none
  dstDesc := some (lineMd dst)
  strides := some fun _ => str
  dilates := none
  paddingL := some fun _ => 0
  paddingR := none

/-- What the check leaves of `line`. -/
def lineChecked (algKind : PrimitiveHashing.AlgKind) (src ker str dst : ℤ) : Checked where
  propKind := .forwardInference
  algKind := algKind
  srcDesc := lineMd src
  weightsDesc := lineMd ker
  biasDesc := none
  dstDesc := lineMd dst
  strides := fun _ => str
  dilates := none
  paddingL := fun _ => 0
  paddingR := fun _ => 0

theorem line_isSpatial {algKind : PrimitiveHashing.AlgKind} {src ker str dst : ℤ} {i : ℕ}
    (h : (lineChecked algKind src ker str dst).IsSpatial i) : i = 2 := by
  obtain ⟨hlow, hhigh⟩ := h
  have hndims : (lineChecked algKind src ker str dst).srcDesc.ndims = 3 := rfl
  omega

theorem shapeLaw_line :
    ConvLaw (line .convolutionDirect 7 3 2 3) ∧ DeconvLaw (line .deconvolutionDirect 3 3 2 7) := by
  constructor
  · refine ((shapeLaw_iff _).2.1 ?_).mpr ?_
    · rintro checked hchecked - i hi
      obtain rfl : lineChecked .convolutionDirect 7 3 2 3 = checked := Except.ok.inj hchecked
      obtain rfl := line_isSpatial hi
      exact ⟨⟨by decide, by decide, by decide, by decide, by decide⟩, by decide, by decide, by decide⟩
    · rintro ⟨checked, hchecked, -, -, i, hi, htrunc, -⟩
      obtain rfl : lineChecked .convolutionDirect 7 3 2 3 = checked := Except.ok.inj hchecked
      obtain rfl := line_isSpatial hi
      revert htrunc
      decide
  · refine ((shapeLaw_iff _).2.2 ?_).mpr ⟨?_, ?_⟩
    · rintro checked hchecked - i hi
      obtain rfl : lineChecked .deconvolutionDirect 3 3 2 7 = checked := Except.ok.inj hchecked
      obtain rfl := line_isSpatial hi
      exact ⟨by decide, by decide, by decide, by decide, by decide⟩
    · rintro ⟨checked, hchecked, -, i, hi, hstr, -⟩
      obtain rfl : lineChecked .deconvolutionDirect 3 3 2 7 = checked := Except.ok.inj hchecked
      obtain rfl := line_isSpatial hi
      revert hstr
      decide
    · rintro ⟨checked, hchecked, -, -, i, hi, hbad⟩
      obtain rfl : lineChecked .deconvolutionDirect 3 3 2 7 = checked := Except.ok.inj hchecked
      obtain rfl := line_isSpatial hi
      have hslack : ¬ ((lineChecked .deconvolutionDirect 3 3 2 7).deconvSpatial 2).slack < 0 := by decide
      rcases hbad with hstr | hdil | htrunc
      · revert hstr
        decide
      · revert hdil
        decide
      · exact hslack htrunc.1

/-- A convolution is accepted with a kernel of two over one element, and with a size that is one modulo `2 ^ 32`; a
deconvolution without stride divides by zero. -/
theorem not_shapeLaw_line :
    ¬ ConvLaw (line .convolutionDirect 1 2 2 1) ∧ ¬ ConvLaw (line .convolutionDirect (2 ^ 32 + 1) 1 1 1) ∧
      ¬ DeconvLaw (line .deconvolutionDirect 1 1 0 1) := by
  refine ⟨?_, ?_, ?_⟩
  · rintro ⟨-, hlaw⟩
    obtain ⟨checked, hchecked, hlaw⟩ := hlaw _ rfl
    obtain rfl : lineChecked .convolutionDirect 1 2 2 1 = checked := Except.ok.inj hchecked
    have hfits := (hlaw 2 ⟨by decide, by decide⟩).fits
    revert hfits
    decide
  · rintro ⟨-, hlaw⟩
    obtain ⟨checked, hchecked, hlaw⟩ := hlaw _ rfl
    obtain rfl : lineChecked .convolutionDirect (2 ^ 32 + 1) 1 1 1 = checked := Except.ok.inj hchecked
    have hlast := (hlaw 2 ⟨by decide, by decide⟩).last
    revert hlast
    decide
  · rintro ⟨hzero, -⟩
    exact hzero rfl

end MklDnn.DescInit
