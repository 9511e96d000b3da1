import MklDnn.Memory.Desc
import MklDnn.Memory.Proofs.SubmemoryProofs

/-!
# Proofs: the descriptors that the initialisation functions build

A descriptor of a whole tensor or of a part of one is well formed, and a format tag gives different elements different offsets.
-/

open LoopNest Offsets

namespace MklDnn

/-! ## Well-formed descriptors -/

/-- The descriptors that the initialisation functions build. -/
structure MemoryDesc.WellFormed (md : MemoryDesc) : Prop where
  valid : ValidInner md.ndims md.blocking.inner
  dims_le : ∀ d < md.ndims, md.dims d ≤ md.paddedDims d
  paddedOffsets : ∀ d < md.ndims, md.paddedOffsets d = 0

theorem memoryDescInitByTag_wellFormed {ndims : ℕ} {dims : ℕ → ℤ} {dt : DataType} {tag : FormatTag}
    {md : MemoryDesc} (h : memoryDescInitByTag ndims dims dt tag = .ok md)
    (hk : md.formatKind = .blocked) : md.WellFormed := by
  obtain ⟨args, -, hlayout⟩ := memoryDescInitByTag_tagLayout h hk
  refine { valid := hlayout.valid, dims_le := fun d hd => ?_, paddedOffsets := hlayout.paddedOffsets }
  rw [hlayout.paddedDims d hd]
  exact le_rndUp (hlayout.valid.innerBlocks_pos d)

theorem memoryDescInitByStrides_wellFormed {ndims : ℕ} {dims : ℕ → ℤ} {dt : DataType}
    {strides : Option (ℕ → ℤ)} {md : MemoryDesc}
    (h : memoryDescInitByStrides ndims dims dt strides = .ok md) : md.WellFormed := by
  unfold memoryDescInitByStrides at h
  split_ifs at h
  · obtain rfl := Except.ok.inj h
    exact { valid := by simp [ValidInner, zeroMd], dims_le := by simp [zeroMd],
            paddedOffsets := by simp [zeroMd] }
  · obtain rfl := Except.ok.inj h
    exact { valid := by simp [ValidInner], dims_le := fun d _ => le_rfl,
            paddedOffsets := fun d _ => rfl }

/-- A part of a tensor is described by a well-formed descriptor, too. -/
theorem MemoryDesc.WellFormed.submemory {parent sub : MemoryDesc} {dims offsets : ℕ → ℤ}
    (hparent : parent.WellFormed) (h : memoryDescInitSubmemory parent dims offsets = .ok sub) :
    sub.WellFormed := by
  obtain ⟨-, hpart, -⟩ := memoryDescInitSubmemory_isPart h
  refine { valid := ?_, dims_le := fun d hd => ?_, paddedOffsets := ?_ }
  · rw [hpart.ndims, hpart.blocking]
    exact hparent.valid
  · rw [hpart.ndims] at hd
    have hle := hparent.dims_le d hd
    rw [hpart.paddedDims d hd]
    split_ifs with hright
    · omega
    · exact le_rfl
  · unfold memoryDescInitSubmemory at h
    dsimp only at h
    split_ifs at h
    obtain rfl := Except.ok.inj h
    exact hparent.paddedOffsets

/-- A tensor with elements has no empty dimension. -/
theorem MemoryDesc.dims_pos {md : MemoryDesc} (hzero : md.hasZeroDim = false) {d : ℕ}
    (hd : d < md.ndims) : 0 < md.dims d := by
  have hvol : volume md.dims md.ndims ≠ 0 := by
    have hnd : md.ndims ≠ 0 := by omega
    simpa [hasZeroDim, nelems, isZero, hnd] using hzero
  exact Nat.pos_of_ne_zero fun h0 => hvol (volume_eq_zero.mpr ⟨d, hd, h0⟩)

/-- A tensor without elements has an empty dimension. -/
theorem MemoryDesc.exists_dim_eq_zero {md : MemoryDesc} (hzero : md.hasZeroDim = true) (hndims : 0 < md.ndims) :
    ∃ d < md.ndims, md.dims d = 0 := by
  have hvol : volume md.dims md.ndims = 0 := by
    simpa [hasZeroDim, nelems, isZero, hndims.ne'] using hzero
  exact volume_eq_zero.mp hvol

/-- A tensor without elements has no positions. -/
theorem MemoryDesc.notMem_box {md : MemoryDesc} (hzero : md.hasZeroDim = true) (hndims : 0 < md.ndims) (pos : ℕ → ℕ) :
    pos ∉ box md.dims md.ndims := by
  intro hpos
  obtain ⟨d, hd, hd0⟩ := md.exists_dim_eq_zero hzero hndims
  exact absurd ((mem_box.mp hpos).1 d hd) (by omega)

/-- The padded area of a tensor with elements is not empty. -/
theorem MemoryDesc.WellFormed.paddedDims_pos {md : MemoryDesc} (h : md.WellFormed)
    (hzero : md.hasZeroDim = false) {d : ℕ} (hd : d < md.ndims) : 0 < md.paddedDims d :=
  (md.dims_pos hzero hd).trans_le (h.dims_le d hd)

/-- The first element of a well-formed tensor is the initial offset. -/
theorem MemoryDesc.WellFormed.offV_zero {md : MemoryDesc} (h : md.WellFormed) :
    md.offV (fun _ => 0) false = md.offset0 := by
  have hinner : ∀ d ∈ Finset.range md.ndims,
      (innerOff md.blocking.inner d (0 + md.paddedOffsets d) : ℤ) = 0 := by
    intro d hd
    rw [h.paddedOffsets d (Finset.mem_range.mp hd), Nat.add_zero, innerOff_zero, Nat.cast_zero]
  have houter : ∀ d ∈ Finset.range md.ndims,
      ((0 + md.paddedOffsets d) / innerBlocks md.blocking.inner d : ℕ) * md.blocking.strides d =
        (0 : ℤ) := by
    intro d hd
    rw [h.paddedOffsets d (Finset.mem_range.mp hd), Nat.add_zero, Nat.zero_div, Nat.cast_zero,
      zero_mul]
  simp only [offV, Bool.false_eq_true, if_false, foldr_peelBlk h.valid]
  rw [Finset.sum_eq_zero hinner, Finset.sum_eq_zero houter, add_zero, add_zero]

/-- The offset of a position does not depend on whether the padding in front is counted. -/
theorem MemoryDesc.WellFormed.offV_eq {md : MemoryDesc} (h : md.WellFormed) (pos : ℕ → ℕ) :
    md.offV pos false = md.offV pos true := by
  have hpos : ∀ d ∈ Finset.range md.ndims, pos d + md.paddedOffsets d = pos d := by
    intro d hd
    rw [h.paddedOffsets d (Finset.mem_range.mp hd), Nat.add_zero]
  simp only [offV, Bool.false_eq_true, if_false, if_true, foldr_peelBlk h.valid, Nat.add_zero]
  refine congrArg₂ _ (congrArg _ (Finset.sum_congr rfl fun d hd => ?_)) (Finset.sum_congr rfl fun d hd => ?_)
  · rw [hpos d hd]
  · rw [hpos d hd]

/-! ## Built descriptors -/

/-- A descriptor that was built: of a whole tensor, or of a part of a tensor with a built one. -/
inductive MemoryDesc.Built : MemoryDesc → Prop
  | whole {md : MemoryDesc} (h : IsWholeTensor md) : Built md
  | part {parent sub : MemoryDesc} {dims offsets : ℕ → ℤ} (hparent : Built parent)
      (h : memoryDescInitSubmemory parent dims offsets = .ok sub) : Built sub

theorem MemoryDesc.Built.wellFormed {md : MemoryDesc} (h : md.Built) : md.WellFormed := by
  induction h with
  | whole h =>
    rcases h with ⟨_, _, _, _, h, hk⟩ | ⟨_, _, _, _, h⟩
    · exact memoryDescInitByTag_wellFormed h hk
    · exact memoryDescInitByStrides_wellFormed h
  | part _ h ih => exact ih.submemory h

theorem MemoryDesc.Built.ndims_pos {md : MemoryDesc} (h : md.Built) (hk : md.formatKind = .blocked) : 0 < md.ndims := by
  induction h with
  | whole h =>
    rcases h with ⟨_, _, _, _, h, hk⟩ | ⟨_, _, _, _, h⟩
    · obtain ⟨args, -, hlayout⟩ := memoryDescInitByTag_tagLayout h hk
      exact hlayout.ndims_pos
    · unfold memoryDescInitByStrides at h
      split_ifs at h with hzero
      · obtain rfl := Except.ok.inj h
        cases hk
      · obtain rfl := Except.ok.inj h
        exact Nat.pos_of_ne_zero hzero
  | part _ h ih =>
    obtain ⟨hparent, hpart, -⟩ := memoryDescInitSubmemory_isPart h
    rw [hpart.ndims]
    exact ih hparent

/-- A built descriptor passes `memory_desc_sanity_check`. -/
theorem MemoryDesc.Built.sane {md : MemoryDesc} (h : md.Built) (hk : md.formatKind = .blocked) :
    md.ndims ≤ maxNdims ∧ md.dataType ≠ .undef := by
  induction h with
  | @whole md h =>
    have hcheck : ∀ {ndims : ℕ} {dims : ℕ → ℤ} {dt : DataType} {kind : FormatKind}, ndims ≠ 0 →
        memoryDescSanityCheck ndims dims dt kind = true → ndims ≤ maxNdims ∧ dt ≠ .undef := by
      intro ndims dims dt kind hndims hsane
      simp only [memoryDescSanityCheck, decide_eq_true_eq, hndims, false_or] at hsane
      exact ⟨hsane.2.1, hsane.2.2.1⟩
    rcases h with ⟨_, _, _, _, h, -⟩ | ⟨_, _, _, _, h⟩
    · unfold memoryDescInitByTag at h
      split_ifs at h with hzero hsane hany
      · obtain rfl := Except.ok.inj h
        cases hk
      · obtain rfl := Except.ok.inj h
        exact hcheck (fun hz => hzero (Or.inl hz)) hsane
      · obtain ⟨-, args, -, -, -, hfill⟩ := computeBlocking_cases h
        obtain ⟨hndims, -, hdt, -⟩ := fillBlocked_fields hfill
        rw [hndims, hdt]
        exact hcheck (fun hz => hzero (Or.inl hz)) hsane
    · unfold memoryDescInitByStrides at h
      split_ifs at h with hzero hsane
      · obtain rfl := Except.ok.inj h
        cases hk
      · obtain rfl := Except.ok.inj h
        exact hcheck hzero hsane
  | part _ h ih =>
    obtain ⟨hparent, hpart, -⟩ := memoryDescInitSubmemory_isPart h
    obtain ⟨hndims, hdt⟩ := ih hparent
    refine ⟨hpart.ndims ▸ hndims, ?_⟩
    unfold memoryDescInitSubmemory at h
    dsimp only at h
    split_ifs at h
    obtain rfl := Except.ok.inj h
    exact hdt

/-- A dimension is padded to whole blocks or not at all. -/
theorem MemoryDesc.Built.paddedDims_eq {md : MemoryDesc} (h : md.Built) {d : ℕ} (hd : d < md.ndims) :
    md.paddedDims d = md.dims d ∨ md.paddedDims d = rndUp (md.dims d) (innerBlocks md.blocking.inner d) := by
  induction h with
  | whole h =>
    rcases h with ⟨_, _, _, _, h, hk⟩ | ⟨_, _, _, _, h⟩
    · obtain ⟨args, -, hlayout⟩ := memoryDescInitByTag_tagLayout h hk
      exact Or.inr (hlayout.paddedDims d hd)
    · unfold memoryDescInitByStrides at h
      split_ifs at h
      · obtain rfl := Except.ok.inj h
        exact Or.inl rfl
      · obtain rfl := Except.ok.inj h
        exact Or.inl rfl
  | @part parent sub dims offsets hparent h ih =>
    obtain ⟨-, hpart, -⟩ := memoryDescInitSubmemory_isPart h
    rw [hpart.ndims] at hd
    have hB := hparent.wellFormed.valid.innerBlocks_pos d
    have hdvd := hpart.dvd d hd
    rw [hpart.paddedDims d hd, hpart.blocking]
    split_ifs with hend
    · rcases ih hd with heq | heq
      · left
        omega
      · right
        rw [heq, ← hend, rndUp_add_of_dvd hB hdvd, Nat.add_sub_cancel_left]
    · exact Or.inl rfl

/-- The extents of the dimensions that a descriptor does not have are zero. -/
theorem MemoryDesc.Built.dims_eq_zero {md : MemoryDesc} (h : md.Built) {d : ℕ} (hd : md.ndims ≤ d) :
    md.dims d = 0 := by
  induction h with
  | whole h =>
    rcases h with ⟨_, _, _, _, h, hk⟩ | ⟨_, _, _, _, h⟩
    · obtain ⟨-, hblk⟩ := memoryDescInitByTag_cases h hk
      obtain ⟨-, _, -, -, -, hfill⟩ := computeBlocking_cases hblk
      obtain ⟨hndims, hdims, -⟩ := fillBlocked_fields hfill
      rw [hndims] at hd
      rw [hdims]
      exact if_neg (Nat.not_lt.mpr hd)
    · unfold memoryDescInitByStrides at h
      split_ifs at h
      · obtain rfl := Except.ok.inj h
        rfl
      · obtain rfl := Except.ok.inj h
        exact if_neg (Nat.not_lt.mpr hd)
  | part _ h ih =>
    unfold memoryDescInitSubmemory at h
    dsimp only at h
    split_ifs at h
    obtain rfl := Except.ok.inj h
    exact (if_neg (Nat.not_lt.mpr hd)).trans (ih hd)

/-- Every inner block is a power of two. -/
def PowerBlocks (L : List InnerBlk) : Prop := ∀ b ∈ L, ∃ k, b.blk = 2 ^ k

theorem PowerBlocks.innerBlocks {L : List InnerBlk} (h : PowerBlocks L) (d : ℕ) :
    ∃ k, innerBlocks L d = 2 ^ k := by
  induction L with
  | nil => exact ⟨0, rfl⟩
  | cons b L ih =>
    obtain ⟨k, hk⟩ := ih fun c hc => h c (List.mem_cons_of_mem _ hc)
    obtain ⟨j, hj⟩ := h b List.mem_cons_self
    rw [innerBlocks_cons, hk]
    split_ifs
    · exact ⟨j + k, by rw [hj, Nat.pow_add]⟩
    · exact ⟨k, by rw [Nat.one_mul]⟩

theorem blockingArgs_powerBlocks {tag : FormatTag} {args : BlockingArgs}
    (h : blockingArgs tag = some args) :
    PowerBlocks (List.zipWith InnerBlk.mk args.innerIdxs args.innerBlks) := by
  have hpow : ∀ b ∈ List.zipWith InnerBlk.mk args.innerIdxs args.innerBlks, ∃ k < 7, b.blk = 2 ^ k := by
    cases tag <;> cases h <;> decide
  intro b hb
  obtain ⟨k, -, hk⟩ := hpow b hb
  exact ⟨k, hk⟩

theorem MemoryDesc.Built.powerBlocks {md : MemoryDesc} (h : md.Built) : PowerBlocks md.blocking.inner := by
  induction h with
  | whole h =>
    rcases h with ⟨_, _, _, _, h, hk⟩ | ⟨_, _, _, _, h⟩
    · obtain ⟨-, hblk⟩ := memoryDescInitByTag_cases h hk
      obtain ⟨-, args, hargs, -, -, hfill⟩ := computeBlocking_cases hblk
      unfold fillBlocked at hfill
      split_ifs at hfill
      obtain rfl := Except.ok.inj hfill
      exact blockingArgs_powerBlocks hargs
    · unfold memoryDescInitByStrides at h
      split_ifs at h
      · obtain rfl := Except.ok.inj h
        exact fun b hb => absurd hb List.not_mem_nil
      · obtain rfl := Except.ok.inj h
        exact fun b hb => absurd hb List.not_mem_nil
  | part _ h ih =>
    obtain ⟨-, hpart, -⟩ := memoryDescInitSubmemory_isPart h
    rw [hpart.blocking]
    exact ih

/-! ## Offsets of elements -/

/-- The offset of an element, by its place in row-major order. -/
theorem MemoryDesc.WellFormed.offL_eq {md : MemoryDesc} (h : md.WellFormed) (l : ℕ) :
    md.offL l false = md.offset0 + ∑ d ∈ Finset.range md.ndims, md.dimOff d (rowMajor md.dims md.ndims l d) := by
  unfold offL
  rw [if_neg Bool.false_ne_true, offLPos_eq_rowMajor, h.offV_eq, offV_padded h.valid]

/-- Different elements have different offsets: the descriptor lays a tensor out. -/
def MemoryDesc.Distinct (md : MemoryDesc) : Prop :=
  Set.InjOn (fun pos => md.offV pos false) {pos | pos ∈ box md.dims md.ndims}

theorem MemoryDesc.Distinct.offL_inj {md : MemoryDesc} (h : md.Distinct) {l l' : ℕ} (hl : l < volume md.dims md.ndims)
    (hl' : l' < volume md.dims md.ndims) (heq : md.offL l false = md.offL l' false) : l = l' := by
  have hpos : ∀ d < md.ndims, 0 < md.dims d := by
    intro d hd
    apply Nat.pos_of_ne_zero
    intro hzero
    rw [volume_eq_zero.mpr ⟨d, hd, hzero⟩] at hl
    exact Nat.not_lt_zero _ hl
  unfold offL at heq
  rw [if_neg Bool.false_ne_true, offLPos_eq_rowMajor, offLPos_eq_rowMajor] at heq
  exact (rowMajor_eq_iff hl hl').mp (h (rowMajor_mem_box hpos l) (rowMajor_mem_box hpos l') heq)

/-- A tensor of a format tag. -/
theorem memoryDescInitByTag_distinct {ndims : ℕ} {dims : ℕ → ℤ} {dt : DataType} {tag : FormatTag} {md : MemoryDesc}
    (h : memoryDescInitByTag ndims dims dt tag = .ok md) (hk : md.formatKind = .blocked) : md.Distinct := by
  obtain ⟨args, -, hlayout⟩ := memoryDescInitByTag_tagLayout h hk
  have hwf := memoryDescInitByTag_wellFormed h hk
  intro pos hpos pos' hpos' heq
  obtain ⟨hlt, hz⟩ := mem_box.mp hpos
  obtain ⟨hlt', hz'⟩ := mem_box.mp hpos'
  have hdense := hlayout.dense fun d hd => lt_of_le_of_lt (Nat.zero_le _) (hlt d hd)
  have hpadded : ∀ {p : ℕ → ℕ}, (∀ d < md.ndims, p d < md.dims d) → (∀ d, md.ndims ≤ d → p d = 0) →
      p ∈ box md.paddedDims md.ndims :=
    fun hp hp0 => mem_box.mpr ⟨fun d hd => lt_of_lt_of_le (hp d hd) (hwf.dims_le d hd), hp0⟩
  refine hdense.bijOn_offV.injOn (hpadded hlt hz) (hpadded hlt' hz') ?_
  dsimp only at heq ⊢
  rw [← hwf.offV_eq, ← hwf.offV_eq]
  exact heq

/-! ## Parts of a tensor -/

/-- The position in the parent of a position in a part of it. -/
def partPos (parent : MemoryDesc) (offsets : ℕ → ℤ) (pos : ℕ → ℕ) : ℕ → ℕ :=
  fun d => if d < parent.ndims then (offsets d).toNat + pos d else 0

/-- A part starts at the beginning of a block, and so its elements lie where those of the parent lie. -/
theorem MemoryDesc.WellFormed.offV_part {parent sub : MemoryDesc} {dims offsets : ℕ → ℤ} (hwf : parent.WellFormed)
    (h : memoryDescInitSubmemory parent dims offsets = .ok sub) (pos : ℕ → ℕ) :
    sub.offV pos true = parent.offV (partPos parent offsets pos) true := by
  obtain ⟨-, hpart, -⟩ := memoryDescInitSubmemory_isPart h
  have hsub := hwf.submemory h
  rw [MemoryDesc.offV_padded hsub.valid, MemoryDesc.offV_padded hwf.valid, hpart.offset0, hpart.ndims, add_assoc,
    ← Finset.sum_add_distrib]
  refine congrArg (parent.offset0 + ·) (Finset.sum_congr rfl fun d hmem => ?_)
  obtain ⟨a, ha⟩ := hpart.dvd d (Finset.mem_range.mp hmem)
  have hB := hwf.valid.innerBlocks_pos d
  rw [partPos, if_pos (Finset.mem_range.mp hmem)]
  unfold MemoryDesc.dimOff
  rw [hpart.blocking, ha, Nat.mul_div_cancel_left _ hB, Nat.mul_add_div hB, Nat.mul_comm _ a, innerOff_mul_add]
  push_cast
  ring

theorem partPos_mem_box {parent sub : MemoryDesc} {dims offsets : ℕ → ℤ}
    (h : memoryDescInitSubmemory parent dims offsets = .ok sub) {pos : ℕ → ℕ} (hpos : pos ∈ box sub.dims sub.ndims) :
    partPos parent offsets pos ∈ box parent.dims parent.ndims := by
  obtain ⟨-, hpart, -⟩ := memoryDescInitSubmemory_isPart h
  obtain ⟨hlt, -⟩ := mem_box.mp hpos
  rw [hpart.ndims] at hlt
  refine mem_box.mpr ⟨fun d hd => ?_, fun d hd => if_neg (by omega)⟩
  have hadd := hpart.add_le d hd
  have hpd := hlt d hd
  rw [partPos, if_pos hd]
  omega

/-- The padding of a part is padding of the parent: only where a part ends with its parent is it padded. -/
theorem partPos_padding {parent sub : MemoryDesc} {dims offsets : ℕ → ℤ} (hwf : parent.WellFormed)
    (h : memoryDescInitSubmemory parent dims offsets = .ok sub) {pos : ℕ → ℕ}
    (hpos : pos ∈ box sub.paddedDims sub.ndims) (hpad : pos ∉ box sub.dims sub.ndims) :
    partPos parent offsets pos ∈ box parent.paddedDims parent.ndims ∧
      partPos parent offsets pos ∉ box parent.dims parent.ndims := by
  obtain ⟨-, hpart, -⟩ := memoryDescInitSubmemory_isPart h
  obtain ⟨hlt, hzero⟩ := mem_box.mp hpos
  rw [hpart.ndims] at hlt hzero
  refine ⟨mem_box.mpr ⟨fun d hd => ?_, fun d hd => if_neg (by omega)⟩, fun hmem => hpad ?_⟩
  · have hadd := hpart.add_le d hd
    have hle := hwf.dims_le d hd
    have hpd := hlt d hd
    rw [hpart.paddedDims d hd] at hpd
    rw [partPos, if_pos hd]
    split_ifs at hpd <;> omega
  · rw [hpart.ndims]
    refine mem_box.mpr ⟨fun d hd => ?_, hzero⟩
    have hdims := (mem_box.mp hmem).1 d hd
    have hpd := hlt d hd
    rw [partPos, if_pos hd] at hdims
    rw [hpart.paddedDims d hd] at hpd
    split_ifs at hpd with hright
    · omega
    · exact hpd

/-- A part of a tensor lies inside the tensor: its elements are elements of the parent, its padding is padding of
the parent. -/
theorem memoryDescInitSubmemory_offV {parent sub : MemoryDesc} {dims offsets : ℕ → ℤ} (hparent : IsWholeTensor parent)
    (h : memoryDescInitSubmemory parent dims offsets = .ok sub) :
    (∀ pos ∈ box sub.dims sub.ndims, partPos parent offsets pos ∈ box parent.dims parent.ndims ∧
      sub.offV pos false = parent.offV (partPos parent offsets pos) false) ∧
    ∀ pos ∈ box sub.paddedDims sub.ndims, pos ∉ box sub.dims sub.ndims →
      (partPos parent offsets pos ∈ box parent.paddedDims parent.ndims ∧
        partPos parent offsets pos ∉ box parent.dims parent.ndims) ∧
      sub.offV pos true = parent.offV (partPos parent offsets pos) true := by
  have hwf := (MemoryDesc.Built.whole hparent).wellFormed
  refine ⟨fun pos hpos => ⟨partPos_mem_box h hpos, ?_⟩, fun pos hpos hpad => ⟨partPos_padding hwf h hpos hpad, ?_⟩⟩
  · rw [(hwf.submemory h).offV_eq, hwf.offV_eq, hwf.offV_part h]
  · exact hwf.offV_part h pos

/-- The channels from 16 on of a tensor of 2 x 20 x 3 x 3 elements in blocks of 16 channels. -/
theorem memoryDescInitSubmemory_offV_nChw16c : ∃ parent sub,
    IsWholeTensor parent ∧ sub.paddedDims 1 = 16 ∧
      memoryDescInitSubmemory parent (fun d => if d = 0 then 1 else if d = 1 then 4 else 3)
        (fun d => if d = 0 then 1 else if d = 1 then 16 else 0) = .ok sub ∧
      ∀ pos ∈ box sub.dims sub.ndims, sub.offV pos false =
        parent.offV (partPos parent (fun d => if d = 0 then 1 else if d = 1 then 16 else 0) pos) false := by
  have hpart : ∃ parent sub, IsWholeTensor parent ∧ sub.paddedDims 1 = 16 ∧
      memoryDescInitSubmemory parent (fun d => if d = 0 then 1 else if d = 1 then 4 else 3)
        (fun d => if d = 0 then 1 else if d = 1 then 16 else 0) = .ok sub :=
    ⟨_, _, Or.inl ⟨4, fun d => if d = 0 then 2 else if d = 1 then 20 else 3, .f32, .aBcd16b, rfl, rfl⟩, rfl, rfl⟩
  obtain ⟨parent, sub, hparent, hpadded, hsub⟩ := hpart
  exact ⟨parent, sub, hparent, hpadded, hsub, fun pos hpos => ((memoryDescInitSubmemory_offV hparent hsub).1 pos hpos).2⟩

/-- A part of a tensor. -/
theorem MemoryDesc.Distinct.submemory {parent sub : MemoryDesc} {dims offsets : ℕ → ℤ} (hparent : parent.Distinct)
    (hwf : parent.WellFormed) (h : memoryDescInitSubmemory parent dims offsets = .ok sub) : sub.Distinct := by
  obtain ⟨-, hpart, -⟩ := memoryDescInitSubmemory_isPart h
  have hshift : ∀ pos, sub.offV pos false = parent.offV (partPos parent offsets pos) false := fun pos => by
    rw [(hwf.submemory h).offV_eq, hwf.offV_eq, hwf.offV_part h]
  intro pos hpos pos' hpos' heq
  obtain ⟨-, hz⟩ := mem_box.mp hpos
  obtain ⟨-, hz'⟩ := mem_box.mp hpos'
  rw [hpart.ndims] at hz hz'
  dsimp only at heq
  rw [hshift, hshift] at heq
  have hfun := hparent (partPos_mem_box h hpos) (partPos_mem_box h hpos') heq
  funext d
  by_cases hd : d < parent.ndims
  · have hval : partPos parent offsets pos d = partPos parent offsets pos' d := congrFun hfun d
    rw [partPos, partPos, if_pos hd, if_pos hd] at hval
    omega
  · rw [hz d (by omega), hz' d (by omega)]

/-! ## Equal descriptors -/

/-- What the comparison of two blocked descriptors compares. -/
structure MemoryDesc.SameFields (lhs rhs : MemoryDesc) : Prop where
  ndims : lhs.ndims = rhs.ndims
  dims : ∀ d < rhs.ndims, lhs.dims d = rhs.dims d
  dataType : lhs.dataType = rhs.dataType
  paddedDims : ∀ d < rhs.ndims, lhs.paddedDims d = rhs.paddedDims d
  paddedOffsets : ∀ d < rhs.ndims, lhs.paddedOffsets d = rhs.paddedOffsets d
  offset0 : lhs.offset0 = rhs.offset0
  formatKind : lhs.formatKind = rhs.formatKind
  strides : ∀ d < rhs.ndims, lhs.blocking.strides d = rhs.blocking.strides d
  inner : lhs.blocking.inner = rhs.blocking.inner

theorem MemoryDesc.sameFields_of_isEqual {lhs rhs : MemoryDesc} (h : lhs.isEqual rhs = true) (hn : 0 < rhs.ndims)
    (hk : rhs.formatKind = .blocked) : lhs.SameFields rhs := by
  unfold MemoryDesc.isEqual at h
  rw [if_neg (by omega)] at h
  split_ifs at h with hfields hextra
  obtain ⟨hndims, hdims, hdt, hpadded, hoffs, hoff0, hkind⟩ := hfields
  rw [hkind, hk] at h
  simp only [decide_eq_true_eq] at h
  obtain ⟨hstrides, hinner⟩ := h
  rw [hndims] at hdims hpadded hoffs hstrides
  exact { ndims := hndims, dims := hdims, dataType := hdt, paddedDims := hpadded, paddedOffsets := hoffs, offset0 := hoff0,
          formatKind := hkind, strides := hstrides, inner := hinner }

section SameFields

variable {lhs rhs : MemoryDesc} (h : lhs.SameFields rhs)

include h

theorem MemoryDesc.SameFields.wellFormed (hwf : rhs.WellFormed) : lhs.WellFormed where
  valid := by
    rw [h.ndims, h.inner]
    exact hwf.valid
  dims_le := fun d hd => by
    rw [h.ndims] at hd
    rw [h.dims d hd, h.paddedDims d hd]
    exact hwf.dims_le d hd
  paddedOffsets := fun d hd => by
    rw [h.ndims] at hd
    rw [h.paddedOffsets d hd]
    exact hwf.paddedOffsets d hd

theorem MemoryDesc.SameFields.nelems_eq (withPadding : Bool) : lhs.nelems withPadding = rhs.nelems withPadding := by
  cases withPadding with
  | false => simp only [MemoryDesc.nelems, MemoryDesc.isZero, h.ndims, volume_congr h.dims, Bool.false_eq_true, if_false]
  | true => simp only [MemoryDesc.nelems, MemoryDesc.isZero, h.ndims, volume_congr h.paddedDims, if_true]

theorem MemoryDesc.SameFields.offV_eq (hwf : rhs.WellFormed) (pos : ℕ → ℕ) (isPosPadded : Bool) :
    lhs.offV pos isPosPadded = rhs.offV pos isPosPadded := by
  have hpadded : lhs.offV pos true = rhs.offV pos true := by
    rw [MemoryDesc.offV_padded (h.wellFormed hwf).valid, MemoryDesc.offV_padded hwf.valid, h.offset0, h.ndims]
    refine congrArg _ (Finset.sum_congr rfl fun d hd => ?_)
    rw [MemoryDesc.dimOff, MemoryDesc.dimOff, h.inner, h.strides d (Finset.mem_range.mp hd)]
  cases isPosPadded with
  | false => rw [(h.wellFormed hwf).offV_eq, hwf.offV_eq, hpadded]
  | true => exact hpadded

theorem MemoryDesc.SameFields.isPadding_iff (pos : ℕ → ℕ) : lhs.IsPadding pos ↔ rhs.IsPadding pos := by
  unfold MemoryDesc.IsPadding
  rw [h.ndims, box_congr h.paddedDims]
  exact and_congr_right fun _ => exists_congr fun d => and_congr_right fun hd => by rw [h.dims d hd]

end SameFields

end MklDnn
