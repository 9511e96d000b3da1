import MklDnn.Lib.Tilings
import MklDnn.Reorder.Proofs.ApplicabilityProofs

/-!
# Proofs: the size of the buffer

`size` takes the largest extent of a single dimension and `is_dense` compares sizes only. Both are right for the
layout of a format tag. With strides of the user the elements may reach beyond the largest extent, or share offsets
in a buffer of the right size.
-/

open LoopNest Offsets

namespace MklDnn

/-- What is relied on where buffers are allocated and copied. -/
structure MemoryDesc.FitsBuffer (md : MemoryDesc) : Prop where
  /-- The elements lie inside a buffer of `size` bytes. -/
  lt_size : md.isBlockingDesc = true → ∀ pos ∈ box md.dims md.ndims,
    md.offV pos false < (md.size / md.dataType.size : ℕ)
  /-- The elements of a dense tensor lie on the offsets from zero on, each on its own. -/
  dense : ∀ withPadding, md.isDense withPadding = true →
    Set.BijOn (fun pos => md.offV pos withPadding)
      {pos | pos ∈ box (if withPadding then md.paddedDims else md.dims) md.ndims}
      {y | 0 ≤ y ∧ y < (md.nelems withPadding : ℤ)}

/-- A loop over a list visits an interval from zero on, each offset once. -/
theorem bijOn_iff_ofList_eq {α : Type*} {l : List α} (hl : l.Nodup) (f : α → ℤ) (n : ℕ) :
    Set.BijOn f {x | x ∈ l} {y | 0 ≤ y ∧ y < (n : ℤ)} ↔ ofList l f = strided n 1 := by
  rw [strided_unit, ofList_eq_iff]
  have hmem : ∀ y : ℤ, y ∈ (List.range n).map (fun i : ℕ => (i : ℤ)) ↔ 0 ≤ y ∧ y < n := by
    intro y
    simp only [List.mem_map, List.mem_range]
    constructor
    · rintro ⟨i, hi, rfl⟩
      omega
    · intro hy
      exact ⟨y.toNat, by omega, by omega⟩
  have hrange : ((List.range n).map fun i : ℕ => (i : ℤ)).Nodup := List.nodup_range.map Nat.cast_injective
  constructor
  · intro h
    refine (List.perm_ext_iff_of_nodup (hl.map_on fun x hx y hy => h.injOn hx hy) hrange).mpr fun y => ?_
    rw [hmem, List.mem_map]
    constructor
    · rintro ⟨x, hx, rfl⟩
      exact h.mapsTo hx
    · exact fun hy => h.surjOn hy
  · intro h
    refine ⟨fun x hx => (hmem _).mp (h.mem_iff.mp (List.mem_map_of_mem hx)), fun x hx y hy => ?_, fun y hy => ?_⟩
    · exact List.inj_on_of_nodup_map (h.nodup_iff.mpr hrange) hx hy
    · exact List.mem_map.mp (h.mem_iff.mpr ((hmem y).mpr hy))

theorem DataType.size_pos {dt : DataType} (h : dt ≠ .undef) : 0 < dt.size := by
  cases dt with
  | undef => exact absurd rfl h
  | f16 | bf16 | f32 | s32 | s8 | u8 => decide

/-! ## Format tags -/

theorem MemoryDesc.nelems_of_ne_zero {md : MemoryDesc} (h : md.ndims ≠ 0) (withPadding : Bool) :
    md.nelems withPadding = volume (if withPadding then md.paddedDims else md.dims) md.ndims := by
  unfold nelems isZero
  rw [if_neg (by simpa using h)]

/-- A tensor without elements needs no buffer. -/
theorem fitsBuffer_of_hasZeroDim {md : MemoryDesc} (h : BlockedLayout md) {d : ℕ} (hd : d < md.ndims)
    (hzero : md.dims d = 0) : md.FitsBuffer := by
  have hpadded : md.paddedDims d = 0 := by
    rw [h.paddedDims d hd, hzero, rndUp, divUp, Nat.zero_add, Nat.div_eq_of_lt (by have := h.innerBlocks_pos d; omega),
      Nat.zero_mul]
  have hempty : ∀ {f : ℕ → ℕ}, f d = 0 → ∀ pos, pos ∉ box f md.ndims := by
    intro f hf pos hpos
    have hlt := (mem_box.mp hpos).1 d hd
    omega
  have hnone : ∀ withPadding : Bool, (if withPadding then md.paddedDims else md.dims) d = 0 := by
    intro withPadding
    cases withPadding with
    | true => exact hpadded
    | false => exact hzero
  refine ⟨fun _ pos hpos => absurd hpos (hempty hzero pos), fun withPadding _ => ?_⟩
  rw [md.nelems_of_ne_zero (by omega), volume_eq_zero.mpr ⟨d, hd, hnone withPadding⟩]
  refine ⟨fun pos hpos => absurd hpos (hempty (hnone withPadding) pos),
    fun pos hpos => absurd hpos (hempty (hnone withPadding) pos), fun y hy => ?_⟩
  have hy : 0 ≤ y ∧ y < ((0 : ℕ) : ℤ) := hy
  omega

/-- A dense layout fits. -/
theorem Dense.fits {md : MemoryDesc} {perm : List ℕ} (h : Dense md perm) (hlayout : BlockedLayout md) :
    md.FitsBuffer := by
  have hdt := DataType.size_pos hlayout.dataType
  have hadd : md.additionalBufferSize = 0 := by
    rw [MemoryDesc.additionalBufferSize, hlayout.extra]
    rfl
  have hnd : md.ndims ≠ 0 := by
    have := h.ndims_pos
    omega
  have hsize : md.size = volume md.paddedDims md.ndims * md.dataType.size := by rw [h.size_eq, hadd, Nat.add_zero]
  have hoff : ∀ pos, md.offV pos false = md.offV pos true := MemoryDesc.offV_unpadded hlayout.paddedOffsets
  refine ⟨fun _ pos hpos => ?_, fun withPadding hdense => ?_⟩
  · obtain ⟨hlt, hz⟩ := mem_box.mp hpos
    have hmem : pos ∈ box md.paddedDims md.ndims :=
      mem_box.mpr ⟨fun d hd => lt_of_lt_of_le (hlt d hd) (h.dims_le hd), hz⟩
    rw [hoff, hsize, Nat.mul_div_cancel _ hdt]
    exact (h.bijOn_offV.mapsTo hmem).2
  · rw [md.nelems_of_ne_zero hnd]
    cases withPadding with
    | true => exact h.bijOn_offV
    | false =>
      -- nothing is padded
      have hdims : ∀ d < md.ndims, md.dims d = md.paddedDims d := fun d hd =>
        (hlayout.unpadded_of_isDense h.dims_pos hdense d hd).trans (h.paddedDims_eq hd).symm
      rw [if_neg Bool.false_ne_true, box_congr hdims, volume_congr hdims]
      simp only [hoff]
      exact h.bijOn_offV

theorem memoryDescInitByTag_fitsBuffer {ndims : ℕ} {dims : ℕ → ℤ} {dt : DataType} {tag : FormatTag} {md : MemoryDesc}
    (h : memoryDescInitByTag ndims dims dt tag = .ok md) : md.FitsBuffer := by
  by_cases hk : md.formatKind = .blocked
  · have hlayout := blockedLayout_of_tag h hk
    obtain ⟨args, -, htag⟩ := memoryDescInitByTag_tagLayout h hk
    by_cases hpos : ∀ d < md.ndims, 0 < md.dims d
    · exact (htag.dense hpos).fits hlayout
    · push Not at hpos
      obtain ⟨d, hd, hzero⟩ := hpos
      exact fitsBuffer_of_hasZeroDim hlayout hd (Nat.le_zero.mp hzero)
  · -- the formats `undef` and `any`
    have hkind : md.formatKind = .undef ∨ md.formatKind = .any := by
      unfold memoryDescInitByTag at h
      split_ifs at h with h0 hsane hany hblk
      · obtain rfl := Except.ok.inj h
        exact Or.inl rfl
      · obtain rfl := Except.ok.inj h
        exact Or.inr (hany ▸ rfl)
      · rw [hblk] at h
        obtain ⟨-, _, -, -, -, hfill⟩ := computeBlocking_cases h
        exact absurd (fillBlocked_fields hfill).2.2.2.1 hk
    refine ⟨fun hb => absurd (by simpa [MemoryDesc.isBlockingDesc] using hb) hk, fun withPadding hdense => ?_⟩
    rw [MemoryDesc.isDense, if_pos hkind] at hdense
    cases hdense

/-! ## Strides -/

/-- The strides place the elements below the largest extent of a dimension, and if that is the number of elements,
then the loops over the dimensions can be nested so that they visit an interval. -/
def MemoryDesc.StridesFit (md : MemoryDesc) : Prop :=
  md.ndims = 0 ∨ (∃ d < md.ndims, md.dims d = 0) ∨
    (∃ d < md.ndims, ∑ e ∈ Finset.range md.ndims, ((md.dims e : ℤ) - 1) * md.blocking.strides e <
      md.dims d * md.blocking.strides d) ∧
    (Nestable ((List.range md.ndims).map fun d => (md.dims d, md.blocking.strides d)) ∨
      (∃ d < md.ndims, (volume md.dims md.ndims : ℤ) < md.dims d * md.blocking.strides d) ∨
      ∀ d < md.ndims, (md.dims d * md.blocking.strides d : ℤ) < volume md.dims md.ndims)

/-- What `dnnl_memory_desc_init_by_strides` builds. -/
theorem memoryDescInitByStrides_blocked {ndims : ℕ} {dims : ℕ → ℤ} {dt : DataType} {strides : Option (ℕ → ℤ)}
    {md : MemoryDesc} (h : memoryDescInitByStrides ndims dims dt strides = .ok md) (hne : md.ndims ≠ 0) :
    md.formatKind = .blocked ∧ md.blocking.inner = [] ∧ md.paddedDims = md.dims := by
  unfold memoryDescInitByStrides at h
  split_ifs at h with h0 hsane
  · obtain rfl := Except.ok.inj h
    exact absurd rfl hne
  · obtain rfl := Except.ok.inj h
    exact ⟨rfl, rfl, rfl⟩

/-- The largest extent of a dimension. -/
def MemoryDesc.span (md : MemoryDesc) : ℕ :=
  (List.range md.ndims).foldl (fun m d => max m (md.dims d * (md.blocking.strides d).toNat)) 0

section Strides

variable {md : MemoryDesc} (hlayout : BlockedLayout md) (hinner : md.blocking.inner = [])
  (hpadded : md.paddedDims = md.dims) (hpos : ∀ d < md.ndims, 0 < md.dims d)
  (hstrides : ∀ d < md.ndims, 0 ≤ md.blocking.strides d)

include hlayout hinner in
theorem offV_of_strides (pos : ℕ → ℕ) (isPosPadded : Bool) :
    md.offV pos isPosPadded = ∑ d ∈ Finset.range md.ndims, (pos d : ℤ) * md.blocking.strides d := by
  have hoff : md.offV pos isPosPadded = md.offV pos true := by
    cases isPosPadded with
    | true => rfl
    | false => exact MemoryDesc.offV_unpadded hlayout.paddedOffsets pos
  rw [hoff, MemoryDesc.offV_padded hlayout.inner, hlayout.offset0, zero_add]
  refine Finset.sum_congr rfl fun d _ => ?_
  simp [MemoryDesc.dimOff, hinner, innerOff]

include hstrides in
theorem span_cast (d : ℕ) (hd : d < md.ndims) :
    ((md.dims d * (md.blocking.strides d).toNat : ℕ) : ℤ) = md.dims d * md.blocking.strides d := by
  rw [Nat.cast_mul, Int.toNat_of_nonneg (hstrides d hd)]

include hlayout hinner hpadded hpos hstrides in
theorem size_of_strides : md.size = md.span * md.dataType.size := by
  have hnd := hlayout.ndims_pos
  have hzero : md.hasZeroDim = false := by
    have hvol := volume_pos hpos
    rw [MemoryDesc.hasZeroDim, md.nelems_of_ne_zero (by omega)]
    simp only [Bool.false_eq_true, if_false]
    simp
    omega
  have hadd : md.additionalBufferSize = 0 := by
    rw [MemoryDesc.additionalBufferSize, hlayout.extra]
    rfl
  have hblocks : md.computeBlocks = fun _ => 1 := by
    rw [MemoryDesc.computeBlocks, if_pos (by simp [MemoryDesc.isBlockingDesc, hlayout.formatKind]), hinner]
    rfl
  have hspan : (List.range md.ndims).foldl (fun maxSize d =>
      max maxSize (toSizeT ((md.paddedDims d / md.computeBlocks d : ℕ) * md.blocking.strides d))) 0 = md.span := by
    rw [MemoryDesc.span]
    refine List.foldl_ext _ _ 0 fun m d hd => ?_
    have hd := List.mem_range.mp hd
    rw [hblocks, hpadded, Nat.div_one, ← span_cast hstrides d hd, toSizeT_of_nonneg (Int.natCast_nonneg _),
      Int.toNat_natCast]
  have hguard : ¬ (md.isZero = true ∨ md.hasZeroDim = true ∨ md.formatKind = .any) := by
    simp [MemoryDesc.isZero, hzero, hlayout.formatKind]
    omega
  unfold MemoryDesc.size
  rw [if_neg hguard, if_neg (by simp [hlayout.formatKind]), if_neg (by simp [hlayout.formatKind]),
    if_neg (by simp [hlayout.offset0])]
  simp only [hspan, hadd, Nat.add_zero]
  rw [if_neg (by simp [BlockingDesc.innerNblks, hinner])]

include hlayout in
theorem isDense_iff_span {withPadding : Bool} (hsize : md.size = md.span * md.dataType.size)
    (hpadded : md.paddedDims = md.dims) :
    md.isDense withPadding = true ↔ volume md.dims md.ndims = md.span := by
  have hnd := hlayout.ndims_pos
  have hdims : (if withPadding then md.paddedDims else md.dims) = md.dims := by
    rw [hpadded]
    exact ite_self _
  rw [MemoryDesc.isDense, if_neg (by simp [hlayout.formatKind]), md.nelems_of_ne_zero (by omega), hdims, hsize,
    decide_eq_true_eq]
  exact Nat.mul_left_inj (DataType.size_pos hlayout.dataType).ne'

include hstrides in
/-- A number lies below the largest extent exactly if it lies below some extent. -/
theorem lt_span_iff {x : ℤ} (hx : 0 ≤ x) :
    x < md.span ↔ ∃ d < md.ndims, x < md.dims d * md.blocking.strides d := by
  obtain ⟨k, rfl⟩ := Int.eq_ofNat_of_zero_le hx
  constructor
  · intro hlt
    by_contra hnone
    push Not at hnone
    have hle : md.span ≤ k := by
      refine foldl_max_le (Nat.zero_le _) fun d hd => ?_
      have hd := List.mem_range.mp hd
      have hext := hnone d hd
      rw [← span_cast hstrides d hd] at hext
      exact_mod_cast hext
    omega
  · rintro ⟨d, hd, hlt⟩
    have hle := (le_foldl_max (fun d => md.dims d * (md.blocking.strides d).toNat) (List.range md.ndims) 0).2 d
      (List.mem_range.mpr hd)
    rw [← span_cast hstrides d hd] at hlt
    have hle : md.dims d * (md.blocking.strides d).toNat ≤ md.span := hle
    omega

include hpos hstrides in
/-- The element with the largest coordinates has the largest offset. -/
theorem forall_offset_lt_iff (b : ℤ) :
    (∀ pos ∈ box md.dims md.ndims, ∑ d ∈ Finset.range md.ndims, (pos d : ℤ) * md.blocking.strides d < b) ↔
      ∑ d ∈ Finset.range md.ndims, ((md.dims d : ℤ) - 1) * md.blocking.strides d < b := by
  constructor
  · intro h
    have hlast := h (fun d => if d < md.ndims then md.dims d - 1 else 0)
      (mem_box.mpr ⟨fun d hd => ?_, fun d hd => if_neg (by omega)⟩)
    · refine lt_of_eq_of_lt (Finset.sum_congr rfl fun d hd => ?_) hlast
      have hd := Finset.mem_range.mp hd
      rw [if_pos hd, Nat.cast_pred (hpos d hd)]
    · have := hpos d hd
      rw [if_pos hd]
      omega
  · intro h pos hmem
    refine lt_of_le_of_lt (Finset.sum_le_sum fun d hd => ?_) h
    have hd := Finset.mem_range.mp hd
    have hlt := (mem_box.mp hmem).1 d hd
    exact mul_le_mul_of_nonneg_right (by omega) (hstrides d hd)

/-- The elements lie on an interval of offsets from zero on, each on its own, exactly if the loops can be nested. -/
theorem bijOn_strides_iff (md : MemoryDesc) :
    Set.BijOn (fun pos => ∑ d ∈ Finset.range md.ndims, (pos d : ℤ) * md.blocking.strides d)
        {pos | pos ∈ box md.dims md.ndims} {y | 0 ≤ y ∧ y < (volume md.dims md.ndims : ℤ)} ↔
      Nestable ((List.range md.ndims).map fun d => (md.dims d, md.blocking.strides d)) := by
  have hprod : (((List.range md.ndims).map fun d => (md.dims d, md.blocking.strides d)).map Prod.fst).prod =
      volume md.dims md.ndims := by
    rw [List.map_map, volume, prod_perm (List.Perm.refl _)]
    rfl
  have hnest : ofList (box md.dims md.ndims)
      (fun pos => ∑ d ∈ Finset.range md.ndims, (pos d : ℤ) * md.blocking.strides d) =
      nest ((List.range md.ndims).map fun d => (md.dims d, md.blocking.strides d)) := by
    rw [ofList_box md.dims md.ndims fun d x => (x : ℤ) * md.blocking.strides d, prod_perm (List.Perm.refl _), nest,
      List.map_map]
    refine congrArg List.prod (List.map_congr_left fun d _ => ofList_congr fun x _ => ?_)
    rw [nsmul_eq_mul]
  rw [bijOn_iff_ofList_eq (nodup_box _ _), hnest, ← nest_eq_strided_iff, hprod]

end Strides

theorem fitsBuffer_iff_stridesFit {ndims : ℕ} {dims : ℕ → ℤ} {dt : DataType} {strides : Option (ℕ → ℤ)}
    {md : MemoryDesc} (h : memoryDescInitByStrides ndims dims dt strides = .ok md)
    (hstrides : ∀ d < md.ndims, 0 ≤ md.blocking.strides d) : md.FitsBuffer ↔ md.StridesFit := by
  by_cases hnd : md.ndims = 0
  · refine ⟨fun _ => Or.inl hnd, fun _ => ?_⟩
    have hzero : md = zeroMd := by
      unfold memoryDescInitByStrides at h
      split_ifs at h with h0
      · exact (Except.ok.inj h).symm
      · obtain rfl := Except.ok.inj h
        exact absurd hnd h0
    rw [hzero]
    exact ⟨fun hb => absurd hb Bool.false_ne_true, fun _ hdense => absurd hdense Bool.false_ne_true⟩
  obtain ⟨hk, hinner, hpadded⟩ := memoryDescInitByStrides_blocked h hnd
  have hlayout := blockedLayout_of_strides h hk
  by_cases hpos : ∀ d < md.ndims, 0 < md.dims d
  · have hsize := size_of_strides hlayout hinner hpadded hpos hstrides
    have hspan : md.size / md.dataType.size = md.span := by
      rw [hsize, Nat.mul_div_cancel _ (DataType.size_pos hlayout.dataType)]
    have hlast : 0 ≤ ∑ d ∈ Finset.range md.ndims, ((md.dims d : ℤ) - 1) * md.blocking.strides d := by
      refine Finset.sum_nonneg fun d hd => ?_
      have hd := Finset.mem_range.mp hd
      have hd1 := hpos d hd
      exact mul_nonneg (by omega) (hstrides d hd)
    have hvol : 0 < volume md.dims md.ndims := volume_pos hpos
    have hfit : (∀ pos ∈ box md.dims md.ndims, md.offV pos false < (md.size / md.dataType.size : ℕ)) ↔
        ∃ d < md.ndims, ∑ e ∈ Finset.range md.ndims, ((md.dims e : ℤ) - 1) * md.blocking.strides e <
          md.dims d * md.blocking.strides d := by
      simp only [hspan, offV_of_strides hlayout hinner]
      rw [forall_offset_lt_iff hpos hstrides, lt_span_iff hstrides hlast]
    have hdense : ∀ withPadding, (md.isDense withPadding = true →
        Set.BijOn (fun pos => md.offV pos withPadding)
          {pos | pos ∈ box (if withPadding then md.paddedDims else md.dims) md.ndims}
          {y | 0 ≤ y ∧ y < (md.nelems withPadding : ℤ)}) ↔
        (volume md.dims md.ndims = md.span →
          Nestable ((List.range md.ndims).map fun d => (md.dims d, md.blocking.strides d))) := by
      intro withPadding
      have hdims : (if withPadding then md.paddedDims else md.dims) = md.dims := by
        rw [hpadded]
        exact ite_self _
      rw [isDense_iff_span hlayout hsize hpadded, md.nelems_of_ne_zero hnd, hdims, ← bijOn_strides_iff]
      simp only [offV_of_strides hlayout hinner]
    have hblocking : md.isBlockingDesc = true := by simp [MemoryDesc.isBlockingDesc, hk]
    constructor
    · intro h
      refine Or.inr (Or.inr ⟨hfit.mp (h.lt_size hblocking), ?_⟩)
      rcases lt_trichotomy (volume md.dims md.ndims) md.span with hlt | heq | hgt
      · exact Or.inr (Or.inl ((lt_span_iff hstrides (Int.natCast_nonneg _)).mp (by exact_mod_cast hlt)))
      · exact Or.inl ((hdense false).mp (h.dense false) heq)
      · refine Or.inr (Or.inr fun d hd => ?_)
        by_contra hle
        have hlt := (lt_span_iff hstrides (x := volume md.dims md.ndims - 1) (by omega)).mpr ⟨d, hd, by omega⟩
        omega
    · rintro (h | ⟨d, hd, hzero⟩ | ⟨hlt, hcases⟩)
      · exact absurd h hnd
      · exact absurd hzero (hpos d hd).ne'
      · refine ⟨fun _ => hfit.mpr hlt, fun withPadding => (hdense withPadding).mpr fun heq => ?_⟩
        rcases hcases with h | ⟨d, hd, hbelow⟩ | habove
        · exact h
        · have hlt := (lt_span_iff hstrides (Int.natCast_nonneg _)).mpr ⟨d, hd, hbelow⟩
          omega
        · -- the largest extent is that of some dimension
          obtain ⟨d, hd, hlt⟩ := (lt_span_iff hstrides (x := volume md.dims md.ndims - 1) (by omega)).mp (by omega)
          have hgt := habove d hd
          omega
  · push Not at hpos
    obtain ⟨d, hd, hzero⟩ := hpos
    have hzero := Nat.le_zero.mp hzero
    exact ⟨fun _ => Or.inr (Or.inl ⟨d, hd, hzero⟩), fun _ => fitsBuffer_of_hasZeroDim hlayout hd hzero⟩

/-- The buffer of a format tag fits; that of strides does exactly if the strides fit. -/
theorem MemoryDesc.fitsBuffer (ndims : ℕ) (dims : ℕ → ℤ) (dt : DataType) (md : MemoryDesc) :
    (∀ tag, memoryDescInitByTag ndims dims dt tag = .ok md → md.FitsBuffer) ∧
      ∀ strides, memoryDescInitByStrides ndims dims dt strides = .ok md →
        (∀ d < md.ndims, 0 ≤ md.blocking.strides d) → (md.FitsBuffer ↔ md.StridesFit) :=
  ⟨fun _ h => memoryDescInitByTag_fitsBuffer h, fun _ h => fitsBuffer_iff_stridesFit h⟩

/-- A matrix of 4 x 3 elements with gaps between the rows. -/
theorem MemoryDesc.fitsBuffer_gaps : ∃ md : MemoryDesc,
    memoryDescInitByStrides 2 (fun d => if d = 0 then 4 else 3) .f32 (some fun d => if d = 0 then 5 else 1) = .ok md ∧
      (md.FitsBuffer ↔ md.StridesFit) :=
  ⟨_, rfl, (MemoryDesc.fitsBuffer 2 (fun d => if d = 0 then 4 else 3) .f32 _).2
    (some fun d => if d = 0 then 5 else 1) rfl (by decide)⟩

/-- The last element of a matrix of 2 x 3 elements with strides 3 and 2 has offset 7 in a buffer of 6 elements. -/
theorem MemoryDesc.not_fitsBuffer_interleaved : ¬ ∀ ndims dims dt strides md,
    memoryDescInitByStrides ndims dims dt strides = .ok md → (∀ d < md.ndims, 0 ≤ md.blocking.strides d) →
      md.FitsBuffer := by
  intro hall
  have hfit := hall 2 (fun d => if d = 0 then 2 else 3) .f32 (some fun d => if d = 0 then 3 else 2) _ rfl (by decide)
  have hlt := hfit.lt_size rfl (fun d => if d = 0 then 1 else if d = 1 then 2 else 0)
    (mem_box.mpr ⟨by decide, fun d hd => ?_⟩)
  · exact absurd hlt (by decide)
  · have hd : 2 ≤ d := hd
    show (if d = 0 then 1 else if d = 1 then 2 else 0) = 0
    rw [if_neg (by omega), if_neg (by omega)]

end MklDnn
