import MklDnn.Memory.Proofs.DenseProofs

/-!
# Proofs: `fill_blocked` and the format tags

`fill_blocked` builds a dense descriptor for every permutation of the dimensions and every list of inner
blocks, and every case of `compute_blocking` passes it such arguments.
-/

open LoopNest

namespace MklDnn

/-- The overall number of elements `fill_blocked` starts the strides from. -/
theorem foldl_mul_outer {pd bl : ℕ → ℕ} {l : List ℕ} (h : ∀ d ∈ l, pd d ≠ 0) (s : ℕ) :
    l.foldl (fun stride d => stride * if pd d = 0 then 1 else pd d / bl d) s =
      s * (l.map fun d => pd d / bl d).prod := by
  induction l generalizing s with
  | nil => simp
  | cons d l ih =>
    rw [List.foldl_cons, if_neg (h d List.mem_cons_self),
      ih (fun e he => h e (List.mem_cons_of_mem _ he)), List.map_cons, List.prod_cons, Nat.mul_assoc]

/-- `fill_blocked` accepts a permutation and inner blocks of the dimensions. -/
theorem fillBlocked_dense {md : MemoryDesc} {perm innerBlks innerIdxs : List ℕ}
    (hnd : md.ndims ≠ 0) (hk : md.formatKind = .blocked) (hdims : ∀ d < md.ndims, 0 < md.dims d)
    (hperm : perm.Perm (List.range md.ndims)) (hlen : innerBlks.length = innerIdxs.length)
    (hinner : ValidInner md.ndims (List.zipWith InnerBlk.mk innerIdxs innerBlks)) :
    ∃ md', fillBlocked md perm innerBlks innerIdxs = .ok md' ∧ Dense md' perm ∧
      md'.ndims = md.ndims ∧ md'.dims = md.dims ∧ md'.dataType = md.dataType ∧
      md'.blocking.inner = List.zipWith InnerBlk.mk innerIdxs innerBlks := by
  have hl : perm.length = md.ndims := by rw [hperm.length_eq, List.length_range]
  have hblk := hinner.innerBlocks_pos
  have hmem : ∀ d, d ∈ perm → d < md.ndims := fun d hd => List.mem_range.mp (hperm.mem_iff.mp hd)
  rw [fillBlocked, if_pos ⟨hl, hlen⟩]
  refine ⟨_, rfl, ?_, rfl, rfl, rfl, rfl⟩
  set inner := List.zipWith InnerBlk.mk innerIdxs innerBlks with hinnerdef
  set pd : ℕ → ℕ := fun d =>
    if d < md.ndims then rndUp (md.dims d) (innerBlocks inner d) else md.paddedDims d with hpd
  have hpd_eq : ∀ d < md.ndims, pd d = rndUp (md.dims d) (innerBlocks inner d) := fun d hd => by
    simp only [hpd, if_pos hd]
  have hpd_pos : ∀ d < md.ndims, 0 < pd d := fun d hd => by
    rw [hpd_eq d hd]
    exact rndUp_pos (hdims d hd) (hblk d)
  have hm : ∀ d ∈ perm, pd d / innerBlocks inner d = pd d / innerBlocks inner d ∧
      0 < pd d / innerBlocks inner d := fun d hd => by
    refine ⟨rfl, ?_⟩
    rw [hpd_eq d (hmem d hd), rndUp_div (hblk d)]
    exact divUp_pos (hdims d (hmem d hd)) (hblk d)
  have hstart : (List.range md.ndims).foldl
      (fun stride d => stride * if pd d = 0 then 1 else pd d / innerBlocks inner d)
      (blockSize inner) =
        blockSize inner * (perm.map fun d => pd d / innerBlocks inner d).prod := by
    rw [foldl_mul_outer fun d hd => (hpd_pos d (List.mem_range.mp hd)).ne']
    congr 1
    exact (hperm.map _).prod_eq.symm
  exact {
    ndims_pos := Nat.pos_of_ne_zero hnd
    formatKind := hk
    offset0 := rfl
    inner := hinner
    dims_pos := hdims
    perm_range := hperm
    paddedDims := hpd_eq
    paddedOffsets := fun d hd => if_pos hd
    strides := by
      show DenseStrides (fun d => pd d / innerBlocks inner d) _ (blockSize inner) perm
      rw [hstart]
      exact denseStrides_assignStrides (hperm.nodup_iff.mpr List.nodup_range) hm _ _ }

/-! ## The cases of `compute_blocking` -/

/-- The arguments of a case describe a permutation of the dimensions and inner blocks of them. -/
def BlockingArgs.Valid (args : BlockingArgs) : Prop :=
  args.perm.Perm (List.range args.perm.length) ∧
    args.innerBlks.length = args.innerIdxs.length ∧
    ValidInner args.perm.length (List.zipWith InnerBlk.mk args.innerIdxs args.innerBlks)

instance (args : BlockingArgs) : Decidable args.Valid :=
  inferInstanceAs (Decidable (_ ∧ _ ∧ _))

theorem blockingArgs_valid {tag : FormatTag} {args : BlockingArgs} (h : blockingArgs tag = some args) :
    args.Valid := by
  cases tag <;> cases h <;> decide

/-- A descriptor that `compute_blocking` builds comes from a valid call of `fill_blocked`. -/
theorem computeBlocking_cases {md md' : MemoryDesc} {tag : FormatTag}
    (h : computeBlocking md tag = .ok md') :
    md.ndims ≠ 0 ∧ ∃ args : BlockingArgs, blockingArgs tag = some args ∧ args.Valid ∧
      args.perm.length = md.ndims ∧
      fillBlocked md args.perm args.innerBlks args.innerIdxs = .ok md' := by
  unfold computeBlocking at h
  split_ifs at h with hnd
  cases hargs : blockingArgs tag with
  | none => simp [hargs] at h
  | some args =>
    simp only [hargs] at h
    refine ⟨hnd, args, rfl, blockingArgs_valid hargs, ?_, h⟩
    unfold fillBlocked at h
    split_ifs at h with hl
    exact hl.1

theorem computeBlocking_dense {md md' : MemoryDesc} {tag : FormatTag}
    (hk : md.formatKind = .blocked) (hdims : ∀ d < md.ndims, 0 < md.dims d)
    (h : computeBlocking md tag = .ok md') :
    ∃ args : BlockingArgs, blockingArgs tag = some args ∧ Dense md' args.perm ∧
      md'.ndims = md.ndims ∧ md'.dims = md.dims ∧ md'.dataType = md.dataType ∧
      md'.blocking.inner = List.zipWith InnerBlk.mk args.innerIdxs args.innerBlks := by
  obtain ⟨hnd, args, hargs, ⟨hperm, hlen, hinner⟩, hl, hfill⟩ := computeBlocking_cases h
  rw [hl] at hperm hinner
  obtain ⟨md'', hfill', hdense⟩ := fillBlocked_dense hnd hk hdims hperm hlen hinner
  have hmd : md'' = md' := by
    rw [hfill] at hfill'
    exact (Except.ok.inj hfill').symm
  exact ⟨args, hargs, hmd ▸ hdense⟩

/-- What `fill_blocked` sets for any extents, zero ones included. -/
theorem fillBlocked_fields {md md' : MemoryDesc} {perm innerBlks innerIdxs : List ℕ}
    (h : fillBlocked md perm innerBlks innerIdxs = .ok md') :
    md'.ndims = md.ndims ∧ md'.dims = md.dims ∧ md'.dataType = md.dataType ∧
      md'.formatKind = md.formatKind ∧
      ∀ d < md.ndims, md'.paddedDims d = rndUp (md.dims d) (innerBlocks md'.blocking.inner d) := by
  unfold fillBlocked at h
  split_ifs at h
  obtain rfl := Except.ok.inj h
  exact ⟨rfl, rfl, rfl, rfl, fun d hd => if_pos hd⟩

/-- A blocked descriptor built by `dnnl_memory_desc_init_by_tag` comes from `compute_blocking`. -/
theorem memoryDescInitByTag_cases {ndims : ℕ} {dims : ℕ → ℤ} {dt : DataType} {tag : FormatTag}
    {md : MemoryDesc} (h : memoryDescInitByTag ndims dims dt tag = .ok md)
    (hk : md.formatKind = .blocked) :
    dt ≠ .undef ∧ computeBlocking (newMd ndims dims dt .blocked) tag = .ok md := by
  unfold memoryDescInitByTag at h
  split_ifs at h with h0 hsane hany hblk
  · obtain rfl := Except.ok.inj h
    simp [zeroMd] at hk
  · obtain rfl := Except.ok.inj h
    subst hany
    simp [newMd, FormatTag.kind] at hk
  · rw [hblk] at h
    have hnd : ndims ≠ 0 := fun hn => h0 (Or.inl hn)
    simp only [memoryDescSanityCheck, decide_eq_true_eq, hnd, false_or] at hsane
    exact ⟨hsane.2.2.1, h⟩

/-- What is known of a blocked descriptor built for a format tag. Its extents may be zero. -/
structure TagLayout (md : MemoryDesc) (args : BlockingArgs) : Prop where
  ndims_pos : 0 < md.ndims
  dataType : md.dataType ≠ .undef
  length : args.perm.length = md.ndims
  inner : md.blocking.inner = List.zipWith InnerBlk.mk args.innerIdxs args.innerBlks
  valid : ValidInner md.ndims md.blocking.inner
  paddedDims : ∀ d < md.ndims, md.paddedDims d = rndUp (md.dims d) (innerBlocks md.blocking.inner d)
  paddedOffsets : ∀ d < md.ndims, md.paddedOffsets d = 0
  dense : (∀ d < md.ndims, 0 < md.dims d) → Dense md args.perm

theorem memoryDescInitByTag_tagLayout {ndims : ℕ} {dims : ℕ → ℤ} {dt : DataType} {tag : FormatTag}
    {md : MemoryDesc} (h : memoryDescInitByTag ndims dims dt tag = .ok md)
    (hk : md.formatKind = .blocked) : ∃ args, blockingArgs tag = some args ∧ TagLayout md args := by
  obtain ⟨hdt, hblk⟩ := memoryDescInitByTag_cases h hk
  obtain ⟨hnd, args, hargs, ⟨_, _, hvalid⟩, hlen, hfill⟩ := computeBlocking_cases hblk
  obtain ⟨hndims, hdims, hdt', _, hpadded⟩ := fillBlocked_fields hfill
  have hinner : md.blocking.inner = List.zipWith InnerBlk.mk args.innerIdxs args.innerBlks ∧
      ∀ d < md.ndims, md.paddedOffsets d = 0 := by
    unfold fillBlocked at hfill
    split_ifs at hfill
    obtain rfl := Except.ok.inj hfill
    exact ⟨rfl, fun d hd => if_pos hd⟩
  obtain ⟨hinner, hoffsets⟩ := hinner
  refine ⟨args, hargs, ?_, ?_, ?_, hinner, ?_, ?_, hoffsets, ?_⟩
  · rw [hndims]
    exact Nat.pos_of_ne_zero hnd
  · rw [hdt']
    exact hdt
  · rw [hndims, hlen]
  · rw [hinner, hndims, ← hlen]
    exact hvalid
  · rw [hndims, hdims]
    exact hpadded
  · intro hpos
    rw [hndims, hdims] at hpos
    obtain ⟨args', hargs', hdense, _⟩ := computeBlocking_dense rfl hpos hblk
    obtain rfl : args = args' := by
      rw [hargs] at hargs'
      exact Option.some.inj hargs'
    exact hdense

/-! ## Where a blocked descriptor places its elements -/

/-- The descriptor places its padded area bijectively on an interval of offsets that starts at zero,
addresses it linearly in row-major order, and its size is the size of that interval. -/
structure PlacesPaddedArea (md : MemoryDesc) : Prop where
  offV_bijOn : Set.BijOn (fun pos => md.offV pos true) {pos | pos ∈ box md.paddedDims md.ndims}
    {y | 0 ≤ y ∧ y < (∏ d ∈ Finset.range md.ndims, md.paddedDims d : ℕ)}
  offL_eq : ∀ l, md.offL l true = md.offV (rowMajor md.paddedDims md.ndims l) true
  size_eq : md.size = (∏ d ∈ Finset.range md.ndims, md.paddedDims d) * md.dataType.size +
    md.additionalBufferSize

theorem Dense.placesPaddedArea {md : MemoryDesc} {perm : List ℕ} (h : Dense md perm) :
    PlacesPaddedArea md where
  offV_bijOn := h.bijOn_offV
  offL_eq l := by
    unfold MemoryDesc.offL
    rw [if_pos rfl, offLPos_eq_rowMajor]
  size_eq := h.size_eq

/-- For positive extents, `fill_blocked` with any permutation and any inner blocks, and in particular
`compute_blocking` with any format tag, builds a descriptor that places its padded area. -/
theorem computeBlocking_placesPaddedArea (md : MemoryDesc) (hk : md.formatKind = .blocked)
    (hnd : md.ndims ≠ 0) (hdims : ∀ d < md.ndims, 0 < md.dims d) :
    (∀ perm innerBlks innerIdxs : List ℕ, perm.Perm (List.range md.ndims) →
      innerBlks.length = innerIdxs.length → (∀ b ∈ innerBlks, 0 < b) →
      (∀ d ∈ innerIdxs, d < md.ndims) →
      ∃ md', fillBlocked md perm innerBlks innerIdxs = .ok md' ∧ PlacesPaddedArea md') ∧
    ∀ tag md', computeBlocking md tag = .ok md' → PlacesPaddedArea md' := by
  constructor
  · intro perm innerBlks innerIdxs hperm hlen hblks hidxs
    have hinner : ValidInner md.ndims (List.zipWith InnerBlk.mk innerIdxs innerBlks) := by
      intro b hb
      obtain ⟨i, hi, rfl⟩ := List.mem_iff_getElem.mp hb
      rw [List.getElem_zipWith]
      exact ⟨hidxs _ (List.getElem_mem _), hblks _ (List.getElem_mem _)⟩
    obtain ⟨md', hfill, hdense, _⟩ := fillBlocked_dense hnd hk hdims hperm hlen hinner
    exact ⟨md', hfill, hdense.placesPaddedArea⟩
  · intro tag md' h
    obtain ⟨args, _, hdense, _⟩ := computeBlocking_dense hk hdims h
    exact hdense.placesPaddedArea

/-- A tensor of two unevenly blocked dimensions in the format `OIw4i16o4i`. -/
theorem computeBlocking_placesPaddedArea_ABc4b16a4b :
    ∃ md', computeBlocking (newMd 3 (fun d => [20, 5, 3].getD d 0) .f32 .blocked) .ABc4b16a4b =
      .ok md' ∧ PlacesPaddedArea md' := by
  have hplaces := computeBlocking_placesPaddedArea
    (newMd 3 (fun d => [20, 5, 3].getD d 0) .f32 .blocked) rfl (by decide) (by decide)
  exact ⟨_, rfl, hplaces.2 .ABc4b16a4b _ rfl⟩

end MklDnn
