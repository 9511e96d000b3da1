import MklDnn.Lib.Tilings
import MklDnn.Memory.Proofs.FillBlockedProofs

/-!
# Proofs: created descriptors as nests of loops

What is known of a descriptor created from strides or from a format tag, and the loops whose offsets are
those of its elements.
-/

open LoopNest Offsets

namespace MklDnn

/-! ## Created descriptors -/

/-- The descriptor was created by `dnnl_memory_desc_init_by_strides` or
`dnnl_memory_desc_init_by_tag`. -/
def MemoryDesc.Created (md : MemoryDesc) : Prop :=
  (∃ ndims dims dataType strides, memoryDescInitByStrides ndims dims dataType strides = .ok md) ∨
    ∃ ndims dims dataType tag, memoryDescInitByTag ndims dims dataType tag = .ok md

/-- What is known of a blocked descriptor that was created. -/
structure BlockedLayout (md : MemoryDesc) : Prop where
  ndims_pos : 0 < md.ndims
  formatKind : md.formatKind = .blocked
  dataType : md.dataType ≠ .undef
  offset0 : md.offset0 = 0
  inner : ValidInner md.ndims md.blocking.inner
  paddedDims : ∀ d < md.ndims, md.paddedDims d = rndUp (md.dims d) (innerBlocks md.blocking.inner d)
  paddedOffsets : ∀ d, md.paddedOffsets d = 0
  extra : md.extra.compensationConvS8s8 = false
  dense : md.blocking.inner ≠ [] → (∀ d < md.ndims, 0 < md.dims d) → ∃ perm, Dense md perm

theorem blockedLayout_of_strides {ndims : ℕ} {dims : ℕ → ℤ} {dt : DataType} {strides : Option (ℕ → ℤ)}
    {md : MemoryDesc} (h : memoryDescInitByStrides ndims dims dt strides = .ok md)
    (hk : md.formatKind = .blocked) : BlockedLayout md := by
  unfold memoryDescInitByStrides at h
  split_ifs at h with h0 hsane
  · obtain rfl := Except.ok.inj h
    cases hk
  · obtain rfl := Except.ok.inj h
    simp only [memoryDescSanityCheck, decide_eq_true_eq, h0, false_or] at hsane
    refine ⟨hsane.1, rfl, hsane.2.2.1, rfl, fun b hb => absurd hb List.not_mem_nil, fun d hd => ?_, fun _ => rfl, rfl,
      fun hne => absurd rfl hne⟩
    rw [rndUp]
    simp [newMd]

theorem blockedLayout_of_tag {ndims : ℕ} {dims : ℕ → ℤ} {dt : DataType} {tag : FormatTag}
    {md : MemoryDesc} (h : memoryDescInitByTag ndims dims dt tag = .ok md)
    (hk : md.formatKind = .blocked) : BlockedLayout md := by
  obtain ⟨args, _, hlayout⟩ := memoryDescInitByTag_tagLayout h hk
  obtain ⟨_, hblk⟩ := memoryDescInitByTag_cases h hk
  obtain ⟨_, args', _, _, _, hfill⟩ := computeBlocking_cases hblk
  have hfields : md.offset0 = 0 ∧ (∀ d, md.paddedOffsets d = 0) ∧
      md.extra.compensationConvS8s8 = false := by
    unfold fillBlocked at hfill
    split_ifs at hfill
    obtain rfl := Except.ok.inj hfill
    refine ⟨rfl, fun d => ?_, rfl⟩
    show (if d < ndims then 0 else 0) = 0
    split_ifs <;> rfl
  exact ⟨hlayout.ndims_pos, hk, hlayout.dataType, hfields.1, hlayout.valid, hlayout.paddedDims,
    hfields.2.1, hfields.2.2, fun _ hdims => ⟨_, hlayout.dense hdims⟩⟩

theorem MemoryDesc.Created.blockedLayout {md : MemoryDesc} (h : md.Created)
    (hk : md.formatKind = .blocked) : BlockedLayout md := by
  rcases h with ⟨_, _, _, _, h⟩ | ⟨_, _, _, _, h⟩
  · exact blockedLayout_of_strides h hk
  · exact blockedLayout_of_tag h hk

/-! ## The loops of a descriptor -/

/-- The loops over the tensor from dimension `dimStart` on: one over the outer blocks of each dimension
and one over the inner block. -/
def MemoryDesc.loops (md : MemoryDesc) (dimStart : ℕ) : List (ℕ × ℤ) :=
  ((List.range (md.ndims - dimStart)).map fun i =>
    (md.outerBlocks (dimStart + i), md.blocking.strides (dimStart + i))) ++
      [(blockSize md.blocking.inner, 1)]

theorem nest_dimNodes_eq_one {L : List InnerBlk} {d : ℕ} (h : innerBlocks L d = 1) :
    nest (dimNodes L d) = 1 := by
  induction L with
  | nil => rfl
  | cons b L ih =>
    rw [innerBlocks_cons] at h
    rw [dimNodes]
    by_cases hb : b.idx = d
    · rw [if_pos hb] at h
      rw [if_pos hb, nest_cons, ih (Nat.eq_one_of_mul_eq_one_left h), Nat.eq_one_of_mul_eq_one_right h,
        strided_one, mul_one]
    · rw [if_neg hb, Nat.one_mul] at h
      rw [if_neg hb, ih h]

section Loops

variable {md : MemoryDesc} {dimStart : ℕ} (hL : ValidInner md.ndims md.blocking.inner)
  (hds : dimStart ≤ md.ndims) (hone : ∀ d < dimStart, innerBlocks md.blocking.inner d = 1)

include hL hds hone

theorem prod_Ico_innerBlocks :
    ∏ d ∈ Finset.Ico dimStart md.ndims, innerBlocks md.blocking.inner d = blockSize md.blocking.inner := by
  rw [← prod_innerBlocks hL, ← Finset.prod_range_mul_prod_Ico _ hds,
    Finset.prod_eq_one fun d hd => hone d (Finset.mem_range.mp hd), Nat.one_mul]

theorem prod_Ico_dimNodes :
    ∏ d ∈ Finset.Ico dimStart md.ndims, nest (dimNodes md.blocking.inner d) =
      strided (blockSize md.blocking.inner) 1 := by
  rw [← prod_nest_dimNodes hL, ← Finset.prod_range_mul_prod_Ico _ hds,
    Finset.prod_eq_one fun d hd => nest_dimNodes_eq_one (hone d (Finset.mem_range.mp hd)), one_mul]

variable (hpad : ∀ d < md.ndims, dimStart ≤ d →
  md.dims d = md.outerBlocks d * innerBlocks md.blocking.inner d)

include hpad

theorem prod_loops :
    ((md.loops dimStart).map Prod.fst).prod = ∏ d ∈ Finset.Ico dimStart md.ndims, md.dims d := by
  have hdims : ∏ d ∈ Finset.Ico dimStart md.ndims, md.dims d =
      ∏ d ∈ Finset.Ico dimStart md.ndims, (md.outerBlocks d * innerBlocks md.blocking.inner d) :=
    Finset.prod_congr rfl fun d hd =>
      hpad d (Finset.mem_Ico.mp hd).2 (Finset.mem_Ico.mp hd).1
  rw [hdims, Finset.prod_mul_distrib, prod_Ico_innerBlocks hL hds hone, Finset.prod_Ico_eq_prod_range,
    prod_perm (List.Perm.refl _), MemoryDesc.loops, List.map_append, List.prod_append, List.map_map]
  simp [Function.comp_def]

/-- The offsets of the elements, relative to the first one, are those of the loops. -/
theorem prod_ofList_dimOff :
    ∏ d ∈ Finset.Ico dimStart md.ndims, ofList (List.range (md.dims d)) (md.dimOff d) =
      nest (md.loops dimStart) := by
  have hdims : ∏ d ∈ Finset.Ico dimStart md.ndims, ofList (List.range (md.dims d)) (md.dimOff d) =
      ∏ d ∈ Finset.Ico dimStart md.ndims, (strided (md.outerBlocks d) (md.blocking.strides d) *
        map (Nat.castAddMonoidHom ℤ) (nest (dimNodes md.blocking.inner d))) := by
    refine Finset.prod_congr rfl fun d hd => ?_
    rw [hpad d (Finset.mem_Ico.mp hd).2 (Finset.mem_Ico.mp hd).1, md.ofList_dimOff hL]
  have hmap : ∏ d ∈ Finset.Ico dimStart md.ndims,
      map (Nat.castAddMonoidHom ℤ) (nest (dimNodes md.blocking.inner d)) =
        strided (blockSize md.blocking.inner) 1 := by
    rw [Finset.prod_Ico_eq_prod_range, ← map_prod_range, ← Finset.prod_Ico_eq_prod_range
      (fun d => nest (dimNodes md.blocking.inner d)), prod_Ico_dimNodes hL hds hone, map_strided]
    rfl
  rw [hdims, Finset.prod_mul_distrib, hmap, Finset.prod_Ico_eq_prod_range, prod_perm (List.Perm.refl _),
    MemoryDesc.loops, nest_append, nest_cons, nest_nil, mul_one, nest, List.map_map]
  rfl

end Loops

end MklDnn
