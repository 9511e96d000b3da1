import MklDnn.Memory.Proofs.LoopsProofs
import MklDnn.Reorder.Simple

/-!
# Proofs: when the direct copies are applicable

`similar_to` makes the layouts of input and output agree; the density checks exclude padding, and for the
copy row by row also blocks along dimension `0`.
-/

open LoopNest Offsets

namespace MklDnn

/-- The facts `similar_to` checks. -/
structure Similar (lhs rhs : MemoryDesc) (dimStart : ℕ) : Prop where
  formatKind : lhs.formatKind = .blocked
  formatKind_eq : lhs.formatKind = rhs.formatKind
  ndims : lhs.ndims = rhs.ndims
  dimStart_le : dimStart ≤ lhs.ndims
  dims : ∀ d < lhs.ndims, dimStart ≤ d → lhs.dims d = rhs.dims d
  strides : ∀ d < lhs.ndims, dimStart ≤ d → lhs.blocking.strides d = rhs.blocking.strides d
  inner : lhs.blocking.inner = rhs.blocking.inner

theorem MemoryDesc.similarTo_similar {lhs rhs : MemoryDesc} {dimStart : ℕ}
    (h : lhs.similarTo rhs true false dimStart = true) : Similar lhs rhs dimStart := by
  unfold MemoryDesc.similarTo at h
  split_ifs at h with h1 h2
  have h := of_decide_eq_true h
  refine ⟨?_, h.2.2.1, h.1, h.2.1, h.2.2.2.2.1, h.2.2.2.2.2.1, h.2.2.2.2.2.2.1⟩
  cases hk : lhs.formatKind with
  | undef => exact absurd (Or.inl hk) h1
  | any => exact absurd (Or.inr hk) h1
  | blocked => rfl
  | wino => exact absurd (Or.inl hk) h2
  | rnnPacked => exact absurd (Or.inr hk) h2

/-- Extents below others with the same product are the same. -/
theorem eq_of_prod_eq {s : Finset ℕ} {f g : ℕ → ℕ} (hpos : ∀ d ∈ s, 0 < f d) (hle : ∀ d ∈ s, f d ≤ g d)
    (h : ∏ d ∈ s, f d = ∏ d ∈ s, g d) : ∀ d ∈ s, f d = g d := by
  by_contra hne
  push Not at hne
  obtain ⟨d, hd, hne⟩ := hne
  exact (Finset.prod_lt_prod hpos hle ⟨d, hd, lt_of_le_of_ne (hle d hd) hne⟩).ne h

namespace BlockedLayout

variable {md : MemoryDesc} (h : BlockedLayout md)

include h

theorem innerBlocks_pos (d : ℕ) : 0 < innerBlocks md.blocking.inner d := h.inner.innerBlocks_pos d

theorem nelems_eq : md.nelems false = volume md.dims md.ndims := by
  have hpos := h.ndims_pos
  simp [MemoryDesc.nelems, MemoryDesc.isZero]
  omega

/-- Without inner blocks nothing is padded. -/
theorem unpadded_of_inner_eq_nil (hnil : md.blocking.inner = []) {d : ℕ} (hd : d < md.ndims) :
    md.dims d = md.outerBlocks d * innerBlocks md.blocking.inner d := by
  rw [MemoryDesc.outerBlocks, h.paddedDims d hd, hnil]
  simp [rndUp]

/-- A dense tensor is not padded. -/
theorem unpadded_of_isDense (hdims : ∀ d < md.ndims, 0 < md.dims d) (hdense : md.isDense false = true) :
    ∀ d < md.ndims, md.dims d = md.outerBlocks d * innerBlocks md.blocking.inner d := by
  by_cases hnil : md.blocking.inner = []
  · exact fun d hd => h.unpadded_of_inner_eq_nil hnil hd
  · obtain ⟨perm, hperm⟩ := h.dense hnil hdims
    unfold MemoryDesc.isDense at hdense
    rw [if_neg (by simp [h.formatKind])] at hdense
    have hsize := of_decide_eq_true hdense
    rw [hperm.size_eq, h.nelems_eq] at hsize
    have hadd : md.additionalBufferSize = 0 := by
      rw [MemoryDesc.additionalBufferSize, h.extra]
      rfl
    have hdt : 0 < md.dataType.size := by
      have := h.dataType
      cases hdt : md.dataType <;> simp_all [DataType.size]
    rw [hadd, Nat.add_zero] at hsize
    have hvol := Nat.eq_of_mul_eq_mul_right hdt hsize
    intro d hd
    rw [← hperm.paddedDims_eq hd]
    exact eq_of_prod_eq (fun d hd => hdims d (Finset.mem_range.mp hd))
      (fun d hd => hperm.dims_le (Finset.mem_range.mp hd)) hvol d (Finset.mem_range.mpr hd)

theorem nelemsNoDim0_eq :
    DirectCopyExceptDim0.nelemsNoDim0 md = ∏ d ∈ Finset.Ico 1 md.ndims, md.dims d := by
  have hpos := h.ndims_pos
  rw [DirectCopyExceptDim0.nelemsNoDim0, Finset.prod_Ico_eq_prod_range]
  split_ifs with h1
  · obtain h1 : md.ndims = 1 := by omega
    simp [h1]
  · exact Finset.prod_congr rfl fun d _ => by rw [Nat.add_comm]

theorem nelems_eq_mul :
    md.nelems false = md.dims 0 * DirectCopyExceptDim0.nelemsNoDim0 md := by
  rw [h.nelems_eq, h.nelemsNoDim0_eq, volume, ← Finset.prod_range_mul_prod_Ico _ h.ndims_pos,
    Finset.prod_range_one]

theorem nelemsNoDim0_pos (hdense : DirectCopyExceptDim0.isDenseNo0 md = true) :
    0 < DirectCopyExceptDim0.nelemsNoDim0 md := by
  have hsize := of_decide_eq_true hdense
  have hB : 0 < blockSize md.blocking.inner := h.inner.blockSize_pos
  have hBle : (blockSize md.blocking.inner : ℤ) ≤ DirectCopyExceptDim0.sizeNoDim0 md :=
    (le_foldl_max _ _ _).1
  omega

end BlockedLayout

/-- Among nested loops, the outermost one other than dimension `0` spans all loops but that one. -/
theorem DenseStrides.exists_spanning {m : ℕ → ℕ} {strides : ℕ → ℤ} {s : ℕ} {perm : List ℕ}
    (h : DenseStrides m strides s perm) (hm : ∀ d ∈ perm, 0 < m d) (hne : ∃ d ∈ perm, d ≠ 0) :
    ∃ d ∈ perm, d ≠ 0 ∧ ((s * ((perm.filter (· ≠ 0)).map m).prod : ℕ) : ℤ) ≤ m d * strides d := by
  induction perm with
  | nil => simp at hne
  | cons e perm ih =>
    obtain ⟨he, hperm⟩ := h
    by_cases h0 : e = 0
    · obtain ⟨d, hd, hd0⟩ := hne
      have hd' : d ∈ perm := by
        rcases List.mem_cons.mp hd with rfl | hd
        · exact absurd h0 hd0
        · exact hd
      obtain ⟨d', hd', hd0', hle⟩ := ih hperm (fun x hx => hm x (List.mem_cons_of_mem _ hx)) ⟨d, hd', hd0⟩
      refine ⟨d', List.mem_cons_of_mem _ hd', hd0', ?_⟩
      rwa [List.filter_cons_of_neg (by simpa using h0)]
    · refine ⟨e, List.mem_cons_self, h0, ?_⟩
      have hsub : ((perm.filter (· ≠ 0)).map m).prod ≤ (perm.map m).prod := by
        refine Nat.le_of_dvd (List.prod_pos fun a ha => ?_) ?_
        · obtain ⟨x, hx, rfl⟩ := List.mem_map.mp ha
          exact hm x (List.mem_cons_of_mem _ hx)
        · exact (List.filter_sublist.map m).prod_dvd_prod
      rw [List.filter_cons_of_pos (by simpa using h0), List.map_cons, List.prod_cons, he,
        Nat.mul_left_comm]
      exact_mod_cast Nat.mul_le_mul_left _ (Nat.mul_le_mul_left s hsub)

/-- A dense tensor without dimension `0` extends over all of its outer blocks. -/
theorem Dense.le_sizeNoDim0 {md : MemoryDesc} {perm : List ℕ} (h : Dense md perm) :
    ((blockSize md.blocking.inner * ∏ d ∈ Finset.Ico 1 md.ndims, md.outerBlocks d : ℕ) : ℤ) ≤
      DirectCopyExceptDim0.sizeNoDim0 md := by
  have hblocks : md.computeBlocks = innerBlocks md.blocking.inner := by
    simp [MemoryDesc.computeBlocks, MemoryDesc.isBlockingDesc, h.formatKind]
  obtain ⟨hblk, hmax⟩ := le_foldl_max (fun d => ((md.outerBlocks d : ℕ) : ℤ) * md.blocking.strides d)
    (List.range' 1 (md.ndims - 1)) (blockSize md.blocking.inner : ℤ)
  have hsize : DirectCopyExceptDim0.sizeNoDim0 md = (List.range' 1 (md.ndims - 1)).foldl
      (fun maxSize d => max maxSize (((md.outerBlocks d : ℕ) : ℤ) * md.blocking.strides d))
      (blockSize md.blocking.inner : ℤ) := by
    rw [DirectCopyExceptDim0.sizeNoDim0, hblocks]
    rfl
  rw [hsize]
  by_cases h1 : md.ndims = 1
  · rw [h1] at hblk ⊢
    simp
  · have hn := h.ndims_pos
    obtain ⟨d, hd, hd0, hle⟩ := h.strides.exists_spanning
      (fun d hd => h.outerBlocks_pos (h.mem_perm.mp hd)) ⟨1, h.mem_perm.mpr (by omega), one_ne_zero⟩
    have hfilter : ((perm.filter (· ≠ 0)).map md.outerBlocks).prod =
        ∏ d ∈ Finset.Ico 1 md.ndims, md.outerBlocks d := by
      obtain ⟨k, hk⟩ : ∃ k, md.ndims = k + 1 := ⟨md.ndims - 1, by omega⟩
      have hrange : (List.range md.ndims).filter (· ≠ 0) = (List.range k).map Nat.succ := by
        rw [hk, List.range_succ_eq_map, List.filter_cons_of_neg (by simp)]
        exact List.filter_eq_self.mpr fun a ha => by
          obtain ⟨b, _, rfl⟩ := List.mem_map.mp ha
          simp
      rw [((h.perm_range.filter _).map _).prod_eq, hrange, List.map_map, Finset.prod_Ico_eq_prod_range,
        prod_perm (List.Perm.refl _), hk, Nat.add_sub_cancel]
      refine congrArg List.prod (List.map_congr_left fun i _ => ?_)
      rw [Nat.add_comm]
      rfl
    rw [← hfilter]
    refine le_trans hle (hmax d ?_)
    have hlt := h.mem_perm.mp hd
    exact List.mem_range'_1.mpr (by omega)

/-- A tensor whose elements without dimension `0` are dense is neither blocked along dimension `0` nor
padded along another dimension. -/
theorem BlockedLayout.unpadded_of_isDenseNo0 {md : MemoryDesc} (h : BlockedLayout md)
    (hdims : 0 < md.dims 0) (hdense : DirectCopyExceptDim0.isDenseNo0 md = true) :
    innerBlocks md.blocking.inner 0 = 1 ∧
      ∀ d < md.ndims, 1 ≤ d → md.dims d = md.outerBlocks d * innerBlocks md.blocking.inner d := by
  by_cases hnil : md.blocking.inner = []
  · rw [hnil]
    refine ⟨rfl, fun d hd _ => ?_⟩
    rw [← hnil]
    exact h.unpadded_of_inner_eq_nil hnil hd
  · have hsize := of_decide_eq_true hdense
    have hB : 0 < blockSize md.blocking.inner := h.inner.blockSize_pos
    have hBle : (blockSize md.blocking.inner : ℤ) ≤ DirectCopyExceptDim0.sizeNoDim0 md :=
      (le_foldl_max _ _ _).1
    have hM : 0 < DirectCopyExceptDim0.nelemsNoDim0 md := by omega
    have hpos : ∀ d < md.ndims, 0 < md.dims d := by
      intro d hd
      rcases Nat.eq_zero_or_pos d with rfl | hd0
      · exact hdims
      · rw [h.nelemsNoDim0_eq] at hM
        exact Nat.pos_of_dvd_of_pos (Finset.dvd_prod_of_mem _ (Finset.mem_Ico.mpr ⟨hd0, hd⟩)) hM
    obtain ⟨perm, hperm⟩ := h.dense hnil hpos
    have hle := hperm.le_sizeNoDim0
    rw [← hsize, Nat.cast_le, h.nelemsNoDim0_eq] at hle
    set outer := ∏ d ∈ Finset.Ico 1 md.ndims, md.outerBlocks d with houter
    set inner := ∏ d ∈ Finset.Ico 1 md.ndims, innerBlocks md.blocking.inner d with hinner
    have hpadded : ∏ d ∈ Finset.Ico 1 md.ndims, md.paddedDims d = outer * inner := by
      rw [houter, hinner, ← Finset.prod_mul_distrib]
      exact Finset.prod_congr rfl fun d hd => hperm.paddedDims_eq (Finset.mem_Ico.mp hd).2
    have hdimsLe : ∏ d ∈ Finset.Ico 1 md.ndims, md.dims d ≤ outer * inner := by
      rw [← hpadded]
      exact Finset.prod_le_prod' fun d hd => hperm.dims_le (Finset.mem_Ico.mp hd).2
    have hblock : blockSize md.blocking.inner = innerBlocks md.blocking.inner 0 * inner := by
      rw [← prod_innerBlocks h.inner, ← Finset.prod_range_mul_prod_Ico _ h.ndims_pos,
        Finset.prod_range_one]
    have hpos' : 0 < outer * inner := Nat.mul_pos
      (Finset.prod_pos fun d hd => hperm.outerBlocks_pos (Finset.mem_Ico.mp hd).2)
      (Finset.prod_pos fun d _ => hperm.innerBlocks_pos d)
    have hassoc : blockSize md.blocking.inner * outer =
        innerBlocks md.blocking.inner 0 * (outer * inner) := by
      rw [hblock]
      ring
    rw [hassoc] at hle
    have h0 : innerBlocks md.blocking.inner 0 = 1 := by
      have h1 := hperm.innerBlocks_pos 0
      by_contra hne
      have h2 : 2 * (outer * inner) ≤ innerBlocks md.blocking.inner 0 * (outer * inner) :=
        Nat.mul_le_mul_right _ (by omega)
      omega
    refine ⟨h0, fun d hd hd1 => ?_⟩
    rw [h0, Nat.one_mul] at hle
    rw [← hperm.paddedDims_eq hd]
    refine eq_of_prod_eq (s := Finset.Ico 1 md.ndims) (fun d hd => hpos d (Finset.mem_Ico.mp hd).2)
      (fun d hd => hperm.dims_le (Finset.mem_Ico.mp hd).2) ?_ d (Finset.mem_Ico.mpr ⟨hd1, hd⟩)
    rw [hpadded]
    exact le_antisymm hdimsLe hle

end MklDnn
