import MklDnn.Lib.Checks
import MklDnn.Memory.Proofs.BuiltProofs
import MklDnn.Memory.Proofs.LoopsProofs
import MklDnn.Memory.Proofs.TagsProofs

/-!
# Proofs: parts of tensors that match a tag

`memory_desc_matches_tag` compares the inner blocks and the strides, so a match gives the offsets of the tag. A part that
ends inside a block before the end of the tensor is not padded to whole blocks, but the descriptor of the tag is.
-/

open LoopNest

namespace MklDnn

/-- `md` is the part of `whole` from position `o` on, by any number of calls of `dnnl_memory_desc_init_submemory`. -/
inductive MemoryDesc.HasPart (whole : MemoryDesc) : (ℕ → ℕ) → MemoryDesc → Prop
  | all : HasPart whole (fun _ => 0) whole
  | submemory {o : ℕ → ℕ} {parent sub : MemoryDesc} {dims offsets : ℕ → ℤ} (hparent : HasPart whole o parent)
      (h : memoryDescInitSubmemory parent dims offsets = .ok sub) :
      HasPart whole (fun d => o d + (offsets d).toNat) sub

theorem BlockedLayout.wellFormed {md : MemoryDesc} (h : BlockedLayout md) : md.WellFormed where
  valid := h.inner
  dims_le := fun d hd => by
    rw [h.paddedDims d hd]
    exact le_rndUp (h.inner.innerBlocks_pos d)
  paddedOffsets := fun d _ => h.paddedOffsets d

/-- How a part is padded: to whole blocks where the tensor ends, and not at all elsewhere. -/
structure MemoryDesc.PartLayout (whole md : MemoryDesc) (o : ℕ → ℕ) : Prop where
  wellFormed : md.WellFormed
  ndims : md.ndims = whole.ndims
  blocking : md.blocking = whole.blocking
  add_le : ∀ d < whole.ndims, o d + md.dims d ≤ whole.dims d
  dvd : ∀ d < whole.ndims, innerBlocks whole.blocking.inner d ∣ o d
  paddedDims : ∀ d < whole.ndims, md.paddedDims d =
    if o d + md.dims d = whole.dims d then rndUp (md.dims d) (innerBlocks whole.blocking.inner d) else md.dims d

theorem MemoryDesc.HasPart.formatKind {whole md : MemoryDesc} {o : ℕ → ℕ} (h : whole.HasPart o md) :
    md.formatKind = .blocked → whole.formatKind = .blocked := by
  induction h with
  | all => exact id
  | submemory _ h ih => exact fun _ => ih (memoryDescInitSubmemory_isPart h).1

theorem MemoryDesc.HasPart.partLayout {whole md : MemoryDesc} {o : ℕ → ℕ} (hwhole : whole.Created)
    (hk : whole.formatKind = .blocked) (h : whole.HasPart o md) : whole.PartLayout md o := by
  induction h with
  | all =>
    have hblocked := hwhole.blockedLayout hk
    exact {
      wellFormed := hblocked.wellFormed
      ndims := rfl
      blocking := rfl
      add_le := fun d _ => by rw [Nat.zero_add]
      dvd := fun d _ => Nat.dvd_zero _
      paddedDims := fun d hd => by rw [if_pos (Nat.zero_add _), hblocked.paddedDims d hd] }
  | @submemory o parent sub dims offsets _ h ih =>
    obtain ⟨-, hpart, -⟩ := memoryDescInitSubmemory_isPart h
    have hB := ih.wellFormed.valid.innerBlocks_pos
    rw [ih.blocking] at hB
    refine {
      wellFormed := ih.wellFormed.submemory h
      ndims := hpart.ndims.trans ih.ndims
      blocking := hpart.blocking.trans ih.blocking
      add_le := fun d hd => ?_
      dvd := fun d hd => ?_
      paddedDims := fun d hd => ?_ }
    all_goals
      have hd' : d < parent.ndims := ih.ndims ▸ hd
      have hle := hpart.add_le d hd'
      have hle' := ih.add_le d hd
      have hdvd := hpart.dvd d hd'
      rw [ih.blocking] at hdvd
    · omega
    · exact Nat.dvd_add (ih.dvd d hd) hdvd
    · rw [hpart.paddedDims d hd', ih.paddedDims d hd]
      by_cases hend : (offsets d).toNat + sub.dims d = parent.dims d
      · rw [if_pos hend]
        by_cases hend' : o d + parent.dims d = whole.dims d
        · rw [if_pos hend', if_pos (by omega), ← hend, rndUp_add_of_dvd (hB d) hdvd, Nat.add_sub_cancel_left]
        · rw [if_neg hend', if_neg (by omega)]
          omega
      · rw [if_neg hend, if_neg (by omega)]

/-- The offsets of two descriptors with the same blocking differ by their first offsets. -/
theorem MemoryDesc.WellFormed.offV_sub {md md' : MemoryDesc} (h : md.WellFormed) (h' : md'.WellFormed)
    (hndims : md'.ndims = md.ndims) (hinner : md'.blocking.inner = md.blocking.inner)
    (hstrides : ∀ d < md.ndims, md.blocking.strides d = md'.blocking.strides d) (pos : ℕ → ℕ) :
    md.offV pos true - md.offset0 = md'.offV pos true - md'.offset0 := by
  rw [md.offV_padded h.valid, md'.offV_padded h'.valid, add_sub_cancel_left, add_sub_cancel_left, hndims]
  refine Finset.sum_congr rfl fun d hd => ?_
  rw [MemoryDesc.dimOff, MemoryDesc.dimOff, hinner, hstrides d (Finset.mem_range.mp hd)]

/-- What a match with a tag compares. -/
theorem MemoryDesc.matchesTag_gold {md : MemoryDesc} {tag : FormatTag} (h : md.matchesTag tag = true) :
    ∃ gold, memoryDescInitByTag md.ndims (fun d => md.dims d) md.dataType tag = .ok gold ∧
      md.formatKind = .blocked ∧ md.formatKind = tag.kind ∧ md.blocking.inner = gold.blocking.inner ∧
        ∀ d < md.ndims, md.blocking.strides d = gold.blocking.strides d := by
  unfold matchesTag at h
  split_ifs at h with hkind
  cases hgold : memoryDescInitByTag md.ndims (fun d => md.dims d) md.dataType tag with
  | error e =>
    rw [hgold] at h
    cases h
  | ok gold =>
    rw [hgold] at h
    dsimp only at h
    rw [decide_eq_true_eq] at h
    exact ⟨gold, rfl, h.1, not_not.mp hkind, h.2⟩

theorem memoryDescInitByTag_blocked {ndims : ℕ} {dims : ℕ → ℤ} {dt : DataType} {tag : FormatTag} {md : MemoryDesc}
    (h : memoryDescInitByTag ndims dims dt tag = .ok md) (hndims : 0 < ndims) (hk : tag.kind = .blocked) :
    md.formatKind = .blocked ∧ md.ndims = ndims ∧ ∀ d < ndims, md.dims d = (dims d).toNat := by
  unfold memoryDescInitByTag at h
  split_ifs at h with hzero hsane hany
  · rcases hzero with hzero | rfl
    · omega
    · cases hk
  · subst hany
    cases hk
  · obtain ⟨-, args, -, -, -, hfill⟩ := computeBlocking_cases h
    obtain ⟨hn, hdims, -, hkind, -⟩ := fillBlocked_fields hfill
    refine ⟨hkind.trans hk, hn, fun d hd => ?_⟩
    rw [hdims]
    exact if_pos hd

/-- The inner blocks of a match. -/
theorem MemoryDesc.matchesTag_inner {md : MemoryDesc} {tag : FormatTag} (h : md.matchesTag tag = true)
    (hndims : 0 < md.ndims) : ∃ args, blockingArgs tag = some args ∧ args.perm.length = md.ndims ∧
      md.blocking.inner = List.zipWith InnerBlk.mk args.innerIdxs args.innerBlks := by
  obtain ⟨gold, hgold, hk, hkind, hinner, -⟩ := MemoryDesc.matchesTag_gold h
  obtain ⟨hgoldKind, hgoldNdims, -⟩ := memoryDescInitByTag_blocked hgold hndims (hkind.symm.trans hk)
  obtain ⟨args, hargs, hlayout⟩ := memoryDescInitByTag_tagLayout hgold hgoldKind
  exact ⟨args, hargs, hlayout.length.trans hgoldNdims, hinner.trans hlayout.inner⟩

/-- A descriptor that matches a tag gives different places of the padded area different offsets. -/
theorem MemoryDesc.Built.matchesTag_injOn {md : MemoryDesc} (hbuilt : md.Built) {tag : FormatTag}
    (h : md.matchesTag tag = true) :
    Set.InjOn (fun pos => md.offV pos true) {pos | pos ∈ box md.paddedDims md.ndims} := by
  obtain ⟨gold, hgold, hk, hkind, hinner, hstrides⟩ := MemoryDesc.matchesTag_gold h
  obtain ⟨hgoldKind, hgoldNdims, hgoldDims⟩ :=
    memoryDescInitByTag_blocked hgold (hbuilt.ndims_pos hk) (hkind.symm.trans hk)
  obtain ⟨args, -, hlayout⟩ := memoryDescInitByTag_tagLayout hgold hgoldKind
  have hoffsets := hbuilt.wellFormed.offV_sub (memoryDescInitByTag_wellFormed hgold hgoldKind) hgoldNdims hinner.symm
    hstrides
  have hB := hbuilt.wellFormed.valid.innerBlocks_pos
  have hgoldPadded : ∀ d < md.ndims, gold.paddedDims d = rndUp (md.dims d) (innerBlocks md.blocking.inner d) := by
    intro d hd
    rw [hlayout.paddedDims d (hgoldNdims ▸ hd), hgoldDims d hd, Int.toNat_natCast, hinner]
  have hle : ∀ d < md.ndims, md.paddedDims d ≤ gold.paddedDims d := by
    intro d hd
    rw [hgoldPadded d hd]
    rcases hbuilt.paddedDims_eq hd with heq | heq
    · rw [heq]
      exact le_rndUp (hB d)
    · exact heq.le
  have hgoldBox : ∀ {pos}, pos ∈ box md.paddedDims md.ndims → pos ∈ box gold.paddedDims gold.ndims := by
    intro pos hpos
    obtain ⟨hlt, hzero⟩ := mem_box.mp hpos
    rw [hgoldNdims]
    exact mem_box.mpr ⟨fun d hd => (hlt d hd).trans_le (hle d hd), hzero⟩
  intro pos hpos pos' hpos' heq
  have hdims : ∀ d < gold.ndims, 0 < gold.dims d := by
    intro d hd
    rw [hgoldNdims] at hd
    rw [hgoldDims d hd, Int.toNat_natCast]
    apply Nat.pos_of_ne_zero
    intro hzero
    have hlt := ((mem_box.mp hpos).1 d hd).trans_le (hle d hd)
    rw [hgoldPadded d hd, hzero, (rndUp_eq_self_iff (hB d)).mpr (Nat.dvd_zero _)] at hlt
    exact Nat.not_lt_zero _ hlt
  apply (hlayout.dense hdims).bijOn_offV.injOn (hgoldBox hpos) (hgoldBox hpos')
  have h1 := hoffsets pos
  have h2 := hoffsets pos'
  dsimp only at heq ⊢
  omega

/-- Different elements have different offsets. -/
theorem MemoryDesc.Built.matchesTag_distinct {md : MemoryDesc} (hbuilt : md.Built) {tag : FormatTag}
    (h : md.matchesTag tag = true) : md.Distinct := by
  have hpadded : ∀ {pos}, pos ∈ box md.dims md.ndims → pos ∈ box md.paddedDims md.ndims := by
    intro pos hpos
    obtain ⟨hlt, hzero⟩ := mem_box.mp hpos
    exact mem_box.mpr ⟨fun d hd => (hlt d hd).trans_le (hbuilt.wellFormed.dims_le d hd), hzero⟩
  intro pos hpos pos' hpos' heq
  apply hbuilt.matchesTag_injOn h (hpadded hpos) (hpadded hpos')
  dsimp only at heq ⊢
  rw [← hbuilt.wellFormed.offV_eq, ← hbuilt.wellFormed.offV_eq]
  exact heq

/-- A part that matches a tag has the padding of the tag and, up to the first offset, its offsets in the padded area, if and
only if along every dimension it consists of whole blocks or ends where the tensor ends. -/
theorem matchesTag_layout_iff {whole md : MemoryDesc} {o : ℕ → ℕ} {tag : FormatTag} (hwhole : whole.Created)
    (hpart : whole.HasPart o md) (hmatch : md.matchesTag tag = true) :
    ∃ gold, memoryDescInitByTag md.ndims (fun d => md.dims d) md.dataType tag = .ok gold ∧
      (((∀ d < md.ndims, md.paddedDims d = gold.paddedDims d) ∧
          ∀ pos ∈ box md.paddedDims md.ndims, md.offV pos true - md.offset0 = gold.offV pos true - gold.offset0) ↔
        ∀ d < md.ndims, md.dims d % md.computeBlocks d = 0 ∨ o d + md.dims d = whole.dims d) := by
  obtain ⟨gold, hgold, hk, hkind, hinner, hstrides⟩ := MemoryDesc.matchesTag_gold hmatch
  have hlayout := hpart.partLayout hwhole (hpart.formatKind hk)
  have hndims : 0 < md.ndims := by
    rw [hlayout.ndims]
    exact (hwhole.blockedLayout (hpart.formatKind hk)).ndims_pos
  obtain ⟨hgoldKind, hgoldNdims, hgoldDims⟩ := memoryDescInitByTag_blocked hgold hndims (hkind.symm.trans hk)
  have hgoldLayout := blockedLayout_of_tag hgold hgoldKind
  have hblocks : md.computeBlocks = innerBlocks md.blocking.inner := by
    simp [MemoryDesc.computeBlocks, MemoryDesc.isBlockingDesc, hk]
  refine ⟨gold, hgold, ?_⟩
  have hoffsets : ∀ pos ∈ box md.paddedDims md.ndims, md.offV pos true - md.offset0 = gold.offV pos true - gold.offset0 :=
    fun pos _ => hlayout.wellFormed.offV_sub hgoldLayout.wellFormed hgoldNdims hinner.symm hstrides pos
  rw [and_iff_left hoffsets]
  refine forall₂_congr fun d hd => ?_
  have hB := hlayout.wellFormed.valid.innerBlocks_pos d
  have hgoldDim : gold.dims d = md.dims d := by rw [hgoldDims d hd, Int.toNat_natCast]
  rw [hgoldLayout.paddedDims d (hgoldNdims ▸ hd), hgoldDim, ← hinner, hblocks, hlayout.paddedDims d (hlayout.ndims ▸ hd),
    ← hlayout.blocking, ← Nat.dvd_iff_mod_eq_zero]
  split_ifs with hend
  · exact iff_of_true rfl (Or.inr hend)
  · rw [or_iff_left hend, eq_comm, rndUp_eq_self_iff hB]

/-- The second image of a batch, which ends where the tensor ends. -/
theorem matchesTag_layout_iff_aBcd16b : ∃ whole md,
    memoryDescInitByTag 4 (fun d => [2, 12, 3, 5].getD d 0) .f32 .aBcd16b = .ok whole ∧
    memoryDescInitSubmemory whole (fun d => [1, 12, 3, 5].getD d 0) (fun d => [1, 0, 0, 0].getD d 0) = .ok md ∧
    ∃ gold, memoryDescInitByTag md.ndims (fun d => md.dims d) md.dataType .aBcd16b = .ok gold ∧
      (((∀ d < md.ndims, md.paddedDims d = gold.paddedDims d) ∧
          ∀ pos ∈ box md.paddedDims md.ndims, md.offV pos true - md.offset0 = gold.offV pos true - gold.offset0) ↔
        ∀ d < md.ndims, md.dims d % md.computeBlocks d = 0 ∨
          0 + (([1, 0, 0, 0] : List ℤ).getD d 0).toNat + md.dims d = whole.dims d) := by
  have hall : (memoryDescInitByTag 4 (fun d => [2, 12, 3, 5].getD d 0) .f32 .aBcd16b).toOption.any (fun whole =>
      (memoryDescInitSubmemory whole (fun d => [1, 12, 3, 5].getD d 0)
        (fun d => [1, 0, 0, 0].getD d 0)).toOption.any fun md => md.matchesTag .aBcd16b) = true := by
    decide +kernel
  obtain ⟨whole, hwhole, hrest⟩ := Checks.exists_ok_of_any hall
  obtain ⟨md, hmd, hmatch⟩ := Checks.exists_ok_of_any hrest
  exact ⟨whole, md, hwhole, hmd, matchesTag_layout_iff (Or.inr ⟨_, _, _, _, hwhole⟩) (.submemory .all hmd) hmatch⟩

/-- Eight of sixteen channels match the tag, but the tag has eight more channels of padding. -/
theorem matchesTag_unpadded : ∃ whole md gold,
    memoryDescInitByTag 4 (fun d => [1, 16, 1, 1].getD d 0) .f32 .aBcd16b = .ok whole ∧
    memoryDescInitSubmemory whole (fun d => [1, 8, 1, 1].getD d 0) (fun _ => 0) = .ok md ∧
    md.matchesTag .aBcd16b = true ∧
    memoryDescInitByTag md.ndims (fun d => md.dims d) md.dataType .aBcd16b = .ok gold ∧
    ¬ ((∀ d < md.ndims, md.paddedDims d = gold.paddedDims d) ∧
        ∀ pos ∈ box md.paddedDims md.ndims, md.offV pos true - md.offset0 = gold.offV pos true - gold.offset0) := by
  have hall : (memoryDescInitByTag 4 (fun d => [1, 16, 1, 1].getD d 0) .f32 .aBcd16b).toOption.any (fun whole =>
      (memoryDescInitSubmemory whole (fun d => [1, 8, 1, 1].getD d 0) (fun _ => 0)).toOption.any fun md =>
        md.matchesTag .aBcd16b &&
          (memoryDescInitByTag md.ndims (fun d => md.dims d) md.dataType .aBcd16b).toOption.any fun gold =>
            decide (1 < md.ndims ∧ md.paddedDims 1 ≠ gold.paddedDims 1)) = true := by
    decide +kernel
  obtain ⟨whole, hwhole, hrest⟩ := Checks.exists_ok_of_any hall
  obtain ⟨md, hmd, hrest⟩ := Checks.exists_ok_of_any hrest
  rw [Bool.and_eq_true] at hrest
  obtain ⟨gold, hgold, hpadded⟩ := Checks.exists_ok_of_any hrest.2
  rw [decide_eq_true_eq] at hpadded
  exact ⟨whole, md, gold, hwhole, hmd, hrest.1, hgold, fun h => hpadded.2 (h.1 1 hpadded.1)⟩

end MklDnn
