import MklDnn.Memory.Proofs.BorrowProofs
import MklDnn.Memory.Submemory

/-!
# Proofs: zero padding a submemory

`zero_pad` takes the padded extents of a submemory for multiples of the block size. Where a part of the
tensor ends inside a block before the end of the tensor this is not so: the routine finds no block along
that dimension and addresses the block in front of the part.
-/

open LoopNest

namespace MklDnn

/-- Setting the offsets `ws` to zero, in whatever order, changes no element of the tensor `md` and
touches nothing outside of its buffer. -/
structure SafeToZero (md : MemoryDesc) (ws : List ℤ) : Prop where
  data : ∀ ws' : List ℤ, ws'.Perm ws → ∀ m : ℤ → ℤ, ∀ pos ∈ box md.dims md.ndims,
    applyWrites (ws'.map fun y => (y, 0)) m (md.offV pos true) = m (md.offV pos true)
  buffer : ∀ y ∈ ws, 0 ≤ y ∧ (y + 1) * md.dataType.size ≤ md.size

/-- The number of elements of the tensor in its last block along a dimension. -/
def MemoryDesc.lastBlock (md : MemoryDesc) (d : ℕ) : ℕ :=
  md.dims d - (divUp (md.dims d) (md.computeBlocks d) - 1) * md.computeBlocks d

/-- The part of the tensor ends in the padded block of one blocked dimension `d1` and inside a block of
another blocked dimension `d2` before the end of the tensor, where `zero_pad` would have to clear the
block in front of the part, and that block is not padding. -/
def CutsBlock (parentMd : MemoryDesc) (dims offsets : ℕ → ℤ) : Prop :=
  let blocks := parentMd.computeBlocks
  ∃ c ∈ zeroPadCase parentMd.blocking.inner, ∃ d1 ∈ c.1.dims, ∃ d2 ∈ c.1.dims,
    (∀ d < parentMd.ndims, 0 < dims d) ∧
    (offsets d1 + dims d1 = parentMd.dims d1 ∧ dims d1 % blocks d1 ≠ 0) ∧
    (offsets d2 + dims d2 < parentMd.dims d2 ∧ dims d2 < blocks d2) ∧
    (0 < offsets d2 ∨ dims d2 < parentMd.lastBlock d2 ∨
      ∀ d < parentMd.ndims, d ≠ d2 → parentMd.blocking.strides d2 ≤ parentMd.blocking.strides d →
        offsets d = 0)

/-! ## Accepted parts -/

/-- The descriptor of a part of a tensor that starts at the position `o`. -/
structure IsPart (parent sub : MemoryDesc) (o : ℕ → ℕ) : Prop where
  ndims : sub.ndims = parent.ndims
  dataType : sub.dataType = parent.dataType
  formatKind : sub.formatKind = .blocked
  blocking : sub.blocking = parent.blocking
  add_le : ∀ d < parent.ndims, o d + sub.dims d ≤ parent.dims d
  dvd : ∀ d < parent.ndims, innerBlocks parent.blocking.inner d ∣ o d
  shape : ∀ d < parent.ndims, innerBlocks parent.blocking.inner d ∣ sub.dims d ∨
    sub.dims d < innerBlocks parent.blocking.inner d
  paddedDims : ∀ d < parent.ndims, sub.paddedDims d =
    if o d + sub.dims d = parent.dims d then parent.paddedDims d - o d else sub.dims d
  offset0 : sub.offset0 = parent.offset0 + ∑ d ∈ Finset.range parent.ndims,
    (o d / innerBlocks parent.blocking.inner d : ℕ) * parent.blocking.strides d

/-- `dnnl_memory_desc_init_submemory` accepts parts of blocked tensors only. -/
theorem memoryDescInitSubmemory_isPart {parent sub : MemoryDesc} {dims offsets : ℕ → ℤ}
    (h : memoryDescInitSubmemory parent dims offsets = .ok sub) :
    parent.formatKind = .blocked ∧ IsPart parent sub (fun d => (offsets d).toNat) ∧
      ∀ d < parent.ndims, 0 ≤ offsets d ∧ dims d = sub.dims d := by
  unfold memoryDescInitSubmemory at h
  dsimp only at h
  split_ifs at h with hsane hbounds hk hok
  obtain rfl := Except.ok.inj h
  push Not at hbounds hok hk
  have hblocks : parent.computeBlocks = innerBlocks parent.blocking.inner := by
    simp [MemoryDesc.computeBlocks, MemoryDesc.isBlockingDesc, hk]
  rw [hblocks] at hok
  refine ⟨hk, ⟨rfl, rfl, hk, rfl, fun d hd => ?_, fun d hd => ?_, fun d hd => ?_, fun d hd => ?_, ?_⟩,
    fun d hd => ?_⟩
  · have hb := hbounds d hd
    simp only [if_pos hd]
    omega
  · have hb := hbounds d hd
    have hdvd := Int.dvd_of_emod_eq_zero (hok d hd).1
    rw [← Int.toNat_of_nonneg hb.2.1] at hdvd
    exact_mod_cast hdvd
  · have hb := hbounds d hd
    simp only [if_pos hd]
    rcases (hok d hd).2.2 with hm | hlt
    · left
      have hdvd := Int.dvd_of_emod_eq_zero hm
      rw [← Int.toNat_of_nonneg hb.1] at hdvd
      exact_mod_cast hdvd
    · right
      omega
  · have hb := hbounds d hd
    simp only [if_pos hd]
    by_cases hr : offsets d + dims d = parent.dims d
    · rw [if_pos hr, if_pos (by omega)]
      omega
    · rw [if_neg hr, if_neg (by omega)]
  · rw [hblocks]
    refine congrArg (parent.offset0 + ·) (Finset.sum_congr rfl fun d hd => ?_)
    have hb := hbounds d (Finset.mem_range.mp hd)
    rw [Int.natCast_ediv, Int.toNat_of_nonneg hb.2.1]
  · have hb := hbounds d hd
    simp only [if_pos hd]
    omega

namespace IsPart

variable {parent sub : MemoryDesc} {o : ℕ → ℕ} {perm : List ℕ}

/-- The offset of a position of the part is that of the position of the tensor. -/
theorem offV_eq (h : IsPart parent sub o) (hd : Dense parent perm) (pos : ℕ → ℕ) :
    sub.offV pos true = parent.offV (fun d => o d + pos d) true := by
  have hL : ValidInner sub.ndims sub.blocking.inner := by
    rw [h.ndims, h.blocking]
    exact hd.inner
  rw [MemoryDesc.offV_padded hL, MemoryDesc.offV_padded hd.inner, h.offset0, h.ndims, add_assoc,
    ← Finset.sum_add_distrib]
  refine congrArg (parent.offset0 + ·) (Finset.sum_congr rfl fun d hmem => ?_)
  obtain ⟨a, ha⟩ := h.dvd d (Finset.mem_range.mp hmem)
  have hB := hd.innerBlocks_pos d
  have hcomm : innerBlocks parent.blocking.inner d * a = a * innerBlocks parent.blocking.inner d :=
    Nat.mul_comm _ _
  unfold MemoryDesc.dimOff
  rw [h.blocking, ha, Nat.mul_div_cancel_left _ hB, Nat.mul_add_div hB, hcomm, innerOff_mul_add]
  push_cast
  ring

theorem paddedDims_add_le (h : IsPart parent sub o) (hd : Dense parent perm) {d : ℕ}
    (hdn : d < parent.ndims) : o d + sub.paddedDims d ≤ parent.paddedDims d := by
  have hle := h.add_le d hdn
  have hpad := hd.dims_le hdn
  rw [h.paddedDims d hdn]
  split_ifs <;> omega

theorem dims_le_paddedDims (h : IsPart parent sub o) (hd : Dense parent perm) {d : ℕ}
    (hdn : d < parent.ndims) : sub.dims d ≤ sub.paddedDims d := by
  have hle := h.add_le d hdn
  have hpad := hd.dims_le hdn
  rw [h.paddedDims d hdn]
  split_ifs <;> omega

/-- A padding position of the part is a padding position of the tensor. -/
theorem isPadding (h : IsPart parent sub o) (hd : Dense parent perm) {pos : ℕ → ℕ}
    (hpos : sub.IsPadding pos) :
    parent.IsPadding fun d => if d < parent.ndims then o d + pos d else 0 := by
  obtain ⟨hbox, d, hdn, hle⟩ := hpos
  obtain ⟨hlt, hz⟩ := mem_box.mp hbox
  rw [h.ndims] at hlt hdn
  refine ⟨mem_box.mpr ⟨fun e he => ?_, fun e he => if_neg (by omega)⟩, d, hdn, ?_⟩
  · have hadd := h.paddedDims_add_le hd he
    have hpe := hlt e he
    rw [if_pos he]
    omega
  · show parent.dims d ≤ if d < parent.ndims then o d + pos d else 0
    rw [if_pos hdn]
    have hpd := hlt d hdn
    have hp := h.paddedDims d hdn
    split_ifs at hp <;> omega

/-- The generic routine only clears padding of the tensor. -/
theorem exists_isPadding (h : IsPart parent sub o) (hd : Dense parent perm) {pos : ℕ → ℕ}
    (hpos : sub.IsPadding pos) :
    ∃ pos', parent.IsPadding pos' ∧ parent.offV pos' true = sub.offV pos true := by
  refine ⟨_, h.isPadding hd hpos, ?_⟩
  rw [h.offV_eq hd, MemoryDesc.offV_padded hd.inner, MemoryDesc.offV_padded hd.inner]
  refine congrArg (parent.offset0 + ·) (Finset.sum_congr rfl fun d hmem => ?_)
  rw [if_pos (Finset.mem_range.mp hmem)]

/-! ### The specialised routine on a part -/

section Blk

variable {kind : BlkKind} {bs : ℕ}

theorem blkCount_eq (h : IsPart parent sub o) (hf : FastInner kind bs parent.blocking.inner)
    (h3 : 3 ≤ parent.ndims) (d : ℕ) :
    blkCount sub bs d = if d < parent.ndims then
      (if d ∈ kind.dims then sub.paddedDims d / bs else sub.dims d) else 1 := by
  unfold blkCount
  rw [h.blocking, h.ndims]
  by_cases hd3 : d < 3
  · have hdn : d < parent.ndims := by omega
    rw [if_pos hd3, if_pos hdn]
    exact if_congr (hf.dimIsBlocked_iff d) rfl rfl
  · rw [if_neg hd3, if_neg fun hm => hd3 (BlkKind.dims_lt hm)]

/-- The loops of the routine stay inside the blocks of the tensor. -/
theorem add_blkCount_le (h : IsPart parent sub o) (hd : Dense parent perm)
    (hf : FastInner kind bs parent.blocking.inner) (h3 : 3 ≤ parent.ndims) {d : ℕ}
    (hdn : d < parent.ndims) :
    o d / innerBlocks parent.blocking.inner d + blkCount sub bs d ≤ parent.outerBlocks d := by
  have hadd := h.paddedDims_add_le hd hdn
  have hB := hd.innerBlocks_pos d
  have hquot : o d / innerBlocks parent.blocking.inner d +
      sub.paddedDims d / innerBlocks parent.blocking.inner d ≤ parent.outerBlocks d := by
    obtain ⟨a, ha⟩ := h.dvd d hdn
    rw [ha, Nat.mul_div_cancel_left _ hB, ← Nat.mul_add_div hB, ← ha]
    exact Nat.div_le_div_right hadd
  rw [h.blkCount_eq hf h3, if_pos hdn]
  by_cases hm : d ∈ kind.dims
  · rw [if_pos hm]
    rwa [hf.innerBlocks_eq, if_pos hm] at hquot ⊢
  · have hle := h.dims_le_paddedDims hd hdn
    rw [if_neg hm]
    rw [hf.innerBlocks_eq, if_neg hm, Nat.div_one, Nat.div_one] at hquot
    rw [hf.innerBlocks_eq, if_neg hm, Nat.div_one]
    omega

/-- The outer indices of the part, as outer indices of the tensor. -/
def shift (parent : MemoryDesc) (o : ℕ → ℕ) (q : ℕ → ℤ) (d : ℕ) : ℤ :=
  q d + if d < parent.ndims then ((o d / innerBlocks parent.blocking.inner d : ℕ) : ℤ) else 0

theorem outerOff_eq (h : IsPart parent sub o) (h6 : parent.ndims ≤ 6) (q : ℕ → ℤ) :
    outerOff sub q = outerOff parent (shift parent o q) := by
  have hsum : ∑ d ∈ Finset.range parent.ndims,
      ((o d / innerBlocks parent.blocking.inner d : ℕ) : ℤ) * parent.blocking.strides d =
      ∑ d ∈ Finset.range 6, (if d < parent.ndims then
        ((o d / innerBlocks parent.blocking.inner d : ℕ) : ℤ) else 0) * parent.blocking.strides d := by
    rw [← Finset.sum_subset (Finset.range_subset_range.mpr h6) fun d _ hd => by
      rw [if_neg (by simpa using hd), zero_mul]]
    refine Finset.sum_congr rfl fun d hd => ?_
    rw [if_pos (Finset.mem_range.mp hd)]
  unfold outerOff shift
  rw [h.offset0, h.blocking, hsum]
  simp only [add_mul, Finset.sum_add_distrib]
  ring

/-- The bounds of the loops, as bounds on the outer indices of the tensor. -/
theorem shift_bounds (h : IsPart parent sub o) (hd : Dense parent perm)
    (hf : FastInner kind bs parent.blocking.inner) (h3 : 3 ≤ parent.ndims) {q : ℕ → ℤ} {d : ℕ}
    (hq : 0 ≤ q d ∧ q d < blkCount sub bs d) :
    (d < parent.ndims → 0 ≤ shift parent o q d ∧ shift parent o q d < parent.outerBlocks d) ∧
      (parent.ndims ≤ d → shift parent o q d = 0) := by
  unfold shift
  constructor
  · intro hdn
    have hle := h.add_blkCount_le hd hf h3 hdn
    rw [if_pos hdn]
    generalize o d / innerBlocks parent.blocking.inner d = a at hle
    omega
  · intro hdn
    rw [h.blkCount_eq hf h3, if_neg (by omega)] at hq
    rw [if_neg (by omega)]
    omega

/-- A valid outer index and coordinates inside the block that lie beyond the tensor along `e`. -/
theorem exists_isPadding_of_blocks (hd : Dense parent perm) (h6 : parent.ndims ≤ 6) {q : ℕ → ℤ}
    {r : ℕ → ℕ} (hq : ∀ d < parent.ndims, 0 ≤ q d ∧ q d < parent.outerBlocks d)
    (hq0 : ∀ d < 6, parent.ndims ≤ d → q d = 0)
    (hr : r ∈ box (innerBlocks parent.blocking.inner) 6) {e : ℕ} (he : e < parent.ndims)
    (hle : parent.dims e ≤ (q e).toNat * innerBlocks parent.blocking.inner e + r e) :
    ∃ pos, parent.IsPadding pos ∧
      parent.offV pos true = outerOff parent q + inBlock parent.blocking.inner r := by
  refine ⟨_, ⟨mem_box.mpr ⟨fun d hdn => ?_, fun d hdn => ?_⟩, e, he, ?_⟩,
    MemoryDesc.offV_of_blocks hd.inner h6 (fun d hdn => (hq d hdn).1) hq0 hr⟩
  · have hqd := hq d hdn
    have hrd := (mem_box.mp hr).1 d (by omega)
    rw [hd.paddedDims_eq hdn, if_pos hdn]
    calc (q d).toNat * innerBlocks parent.blocking.inner d + r d <
          (q d).toNat * innerBlocks parent.blocking.inner d + innerBlocks parent.blocking.inner d := by
            omega
      _ = ((q d).toNat + 1) * innerBlocks parent.blocking.inner d := (Nat.succ_mul _ _).symm
      _ ≤ _ := Nat.mul_le_mul_right _ (by omega)
  · exact if_neg (by omega)
  · show parent.dims e ≤ if e < parent.ndims then _ else 0
    rwa [if_pos he]

/-- At the end of the tensor the routine clears padding of the tensor. -/
theorem exists_isPadding_of_border (h : IsPart parent sub o) (hd : Dense parent perm)
    (hf : FastInner kind bs parent.blocking.inner) (h3 : 3 ≤ parent.ndims) (h6 : parent.ndims ≤ 6)
    {e : ℕ} (he : e ∈ kind.dims) (hr : o e + sub.dims e = parent.dims e)
    (htail : sub.dims e % bs ≠ 0) {y : ℤ} (hy : InTail sub bs e y) :
    ∃ pos, parent.IsPadding pos ∧ parent.offV pos true = y := by
  obtain ⟨q, hq, hqe, r, hrbox, hre, rfl⟩ := hy
  rw [h.blocking] at hrbox
  have hen : e < parent.ndims := lt_of_lt_of_le (BlkKind.dims_lt he) h3
  have hB : innerBlocks parent.blocking.inner e = bs := by rw [hf.innerBlocks_eq, if_pos he]
  have hbs : 0 < bs := hB ▸ hd.innerBlocks_pos e
  obtain ⟨a, ha⟩ := h.dvd e hen
  rw [hB] at ha
  have hpadded : parent.paddedDims e = parent.outerBlocks e * bs := by rw [hd.paddedDims_eq hen, hB]
  have hcount : blkCount sub bs e = parent.outerBlocks e - a := by
    rw [h.blkCount_eq hf h3, if_pos hen, if_pos he, h.paddedDims e hen, if_pos hr, hpadded, ha,
      Nat.mul_comm bs a, ← Nat.sub_mul, Nat.mul_div_cancel _ hbs]
  have hpos : a < parent.outerBlocks e := by
    by_contra hge
    have hmul : parent.outerBlocks e * bs ≤ a * bs := Nat.mul_le_mul_right _ (by omega)
    have hle := hd.dims_le hen
    rw [Nat.mul_comm bs a] at ha
    have h0 : sub.dims e = 0 := by omega
    rw [h0, Nat.zero_mod] at htail
    exact htail rfl
  have hoa : o e / innerBlocks parent.blocking.inner e = a := by
    rw [hB, ha, Nat.mul_div_cancel_left _ hbs]
  have hqlt : ∀ d < 6, 0 ≤ q d ∧ q d < blkCount sub bs d := by
    intro d hd6
    by_cases hde : d = e
    · subst hde
      rw [hqe, hcount]
      omega
    · exact hq d hd6 hde
  rw [h.blocking, h.outerOff_eq h6]
  refine exists_isPadding_of_blocks hd h6
    (fun d hdn => (h.shift_bounds hd hf h3 (hqlt d (by omega))).1 hdn)
    (fun d hd6 hdn => (h.shift_bounds hd hf h3 (hqlt d hd6)).2 hdn) hrbox hen ?_
  have hshift : (shift parent o q e).toNat + 1 = parent.outerBlocks e := by
    unfold shift
    rw [if_pos hen, hoa, hqe, hcount]
    omega
  have hmod : parent.dims e % bs = sub.dims e % bs := by
    rw [← hr, ha, Nat.mul_add_mod]
  rw [hB]
  refine (hd.le_coord_iff hf he hen (by omega) ?_).mpr ⟨?_, hshift, ?_⟩
  · rw [← hB]
    exact (mem_box.mp hrbox).1 e (by omega)
  · rwa [hmod]
  · rwa [hmod]

/-- The block that the routine addresses where the part ends inside a block before the end of the
tensor: it lies in front of the first block of the part. -/
theorem shift_cut (h : IsPart parent sub o) (hf : FastInner kind bs parent.blocking.inner)
    (h3 : 3 ≤ parent.ndims) {e : ℕ} (he : e ∈ kind.dims) (hcut : o e + sub.dims e < parent.dims e)
    (hlt : sub.dims e < bs) {q : ℕ → ℤ} (hqe : q e = blkCount sub bs e - 1) :
    shift parent o q e = (o e / bs : ℕ) - 1 := by
  have hen : e < parent.ndims := lt_of_lt_of_le (BlkKind.dims_lt he) h3
  have hcount : blkCount sub bs e = 0 := by
    rw [h.blkCount_eq hf h3, if_pos hen, if_pos he, h.paddedDims e hen, if_neg (by omega),
      Nat.div_eq_of_lt hlt]
  unfold shift
  rw [if_pos hen, hf.innerBlocks_eq, if_pos he, hqe, hcount]
  ring

theorem lastBlock_eq (hd : Dense parent perm) {e : ℕ} (hen : e < parent.ndims) :
    parent.lastBlock e =
      parent.dims e - (parent.outerBlocks e - 1) * innerBlocks parent.blocking.inner e := by
  have hblocks : parent.computeBlocks = innerBlocks parent.blocking.inner := by
    simp [MemoryDesc.computeBlocks, MemoryDesc.isBlockingDesc, hd.formatKind]
  rw [MemoryDesc.lastBlock, hblocks, hd.outerBlocks_eq hen]

/-- A cut at the start of the tensor that leaves no element of the last block uncovered, with something
to borrow from: the routine clears padding of the tensor. -/
theorem exists_isPadding_of_cut (h : IsPart parent sub o) (hd : Dense parent perm)
    (hf : FastInner kind bs parent.blocking.inner) (h3 : 3 ≤ parent.ndims) (h6 : parent.ndims ≤ 6)
    {e : ℕ} (he : e ∈ kind.dims) (hcut : o e + sub.dims e < parent.dims e) (hlt : sub.dims e < bs)
    (ho : o e = 0) (hfill : parent.lastBlock e ≤ sub.dims e)
    (hnz : ∃ d < parent.ndims, d ≠ e ∧ parent.blocking.strides e ≤ parent.blocking.strides d ∧ o d ≠ 0)
    {y : ℤ} (hy : InTail sub bs e y) : ∃ pos, parent.IsPadding pos ∧ parent.offV pos true = y := by
  obtain ⟨q, hq, hqe, r, hrbox, hre, rfl⟩ := hy
  rw [h.blocking] at hrbox
  rw [Nat.mod_eq_of_lt hlt] at hre
  have hen : e < parent.ndims := lt_of_lt_of_le (BlkKind.dims_lt he) h3
  have hB : innerBlocks parent.blocking.inner e = bs := by rw [hf.innerBlocks_eq, if_pos he]
  have hshift : shift parent o q e = -1 := by
    rw [h.shift_cut hf h3 he hcut hlt hqe, ho]
    simp
  have hbounds : ∀ d < parent.ndims, d ≠ e →
      0 ≤ shift parent o q d ∧ shift parent o q d < parent.outerBlocks d := fun d hdn hde =>
    (h.shift_bounds hd hf h3 (hq d (by omega) hde)).1 hdn
  have hzero : ∀ d < 6, parent.ndims ≤ d → shift parent o q d = 0 := fun d hd6 hdn =>
    (h.shift_bounds hd hf h3 (hq d hd6 (by omega))).2 hdn
  obtain ⟨q', hsum, hq'e, hq', hq'0⟩ := hd.exists_borrow h6 hen hshift hbounds hzero (by
    obtain ⟨d, hdn, hde, hle, hod⟩ := hnz
    refine ⟨d, hdn, hde, hle, ?_⟩
    have hqd := (hq d (by omega) hde).1
    obtain ⟨a, ha⟩ := h.dvd d hdn
    have hBd := hd.innerBlocks_pos d
    have ha0 : 0 < a := by
      rcases Nat.eq_zero_or_pos a with rfl | ha0
      · exact absurd ha hod
      · exact ha0
    unfold shift
    rw [if_pos hdn, ha, Nat.mul_div_cancel_left _ hBd]
    omega)
  rw [h.blocking, h.outerOff_eq h6, ← hsum]
  refine exists_isPadding_of_blocks hd h6 hq' hq'0 hrbox hen ?_
  have hpos := hd.outerBlocks_pos hen
  have hq'n : (q' e).toNat = parent.outerBlocks e - 1 := by omega
  rw [lastBlock_eq hd hen] at hfill
  rw [hq'n]
  omega

/-- An element of the tensor in every block: the first one along the other dimensions. -/
theorem exists_data_of_blocks (hd : Dense parent perm) (h6 : parent.ndims ≤ 6) {q : ℕ → ℤ} {e x : ℕ}
    (hq : ∀ d < parent.ndims, 0 ≤ q d ∧ q d < parent.outerBlocks d)
    (hq0 : ∀ d < 6, parent.ndims ≤ d → q d = 0) (he : e < parent.ndims)
    (hx : x < innerBlocks parent.blocking.inner e)
    (hlt : (q e).toNat * innerBlocks parent.blocking.inner e + x < parent.dims e) :
    ∃ pos ∈ box parent.dims parent.ndims, parent.offV pos true =
      outerOff parent q + inBlock parent.blocking.inner (Function.update (fun _ => 0) e x) := by
  set r : ℕ → ℕ := Function.update (fun _ => 0) e x with hrdef
  have hre : r e = x := Function.update_self ..
  have hr0 : ∀ d, d ≠ e → r d = 0 := fun d hde => Function.update_of_ne hde _ _
  have hrbox : r ∈ box (innerBlocks parent.blocking.inner) 6 := by
    refine mem_box.mpr ⟨fun d _ => ?_, fun d hd6 => hr0 d (by omega)⟩
    by_cases hde : d = e
    · subst hde
      rwa [hre]
    · rw [hr0 d hde]
      exact hd.innerBlocks_pos d
  refine ⟨_, mem_box.mpr ⟨fun d hdn => ?_, fun d hdn => if_neg (by omega)⟩,
    MemoryDesc.offV_of_blocks hd.inner h6 (fun d hdn => (hq d hdn).1) hq0 hrbox⟩
  rw [if_pos hdn]
  by_cases hde : d = e
  · subst hde
    rwa [hre]
  · -- every block starts with an element of the tensor
    have hqd := hq d hdn
    have hB := hd.innerBlocks_pos d
    have hlast : (parent.outerBlocks d - 1) * innerBlocks parent.blocking.inner d < parent.dims d := by
      have hrnd := rndUp_lt hB (a := parent.dims d)
      rw [← hd.paddedDims d hdn, hd.paddedDims_eq hdn] at hrnd
      rw [Nat.sub_mul, Nat.one_mul]
      have hle : 1 * innerBlocks parent.blocking.inner d ≤
          parent.outerBlocks d * innerBlocks parent.blocking.inner d :=
        Nat.mul_le_mul_right _ (hd.outerBlocks_pos hdn)
      omega
    have hmul : (q d).toNat * innerBlocks parent.blocking.inner d ≤
        (parent.outerBlocks d - 1) * innerBlocks parent.blocking.inner d :=
      Nat.mul_le_mul_right _ (by omega)
    rw [hr0 d hde]
    omega

/-- Any other cut makes the routine clear an element of the tensor or write in front of its buffer. -/
theorem exists_unsafe_of_cut (h : IsPart parent sub o) (hd : Dense parent perm)
    (hf : FastInner kind bs parent.blocking.inner) (h3 : 3 ≤ parent.ndims) (h6 : parent.ndims ≤ 6)
    (hpos : ∀ d < parent.ndims, 0 < sub.dims d) {e : ℕ} (he : e ∈ kind.dims)
    (hcut : o e + sub.dims e < parent.dims e) (hlt : sub.dims e < bs)
    (hother : ∀ d ∈ kind.dims, d ≠ e → 0 < sub.paddedDims d / bs)
    (hbad : 0 < o e ∨ sub.dims e < parent.lastBlock e ∨ ∀ d < parent.ndims, d ≠ e →
      parent.blocking.strides e ≤ parent.blocking.strides d → o d = 0) :
    ∃ y, InTail sub bs e y ∧
      (y < 0 ∨ ∃ pos ∈ box parent.dims parent.ndims, parent.offV pos true = y) := by
  have hen : e < parent.ndims := lt_of_lt_of_le (BlkKind.dims_lt he) h3
  have hB : innerBlocks parent.blocking.inner e = bs := by rw [hf.innerBlocks_eq, if_pos he]
  set q : ℕ → ℤ := fun d => if d = e then (blkCount sub bs e : ℤ) - 1 else 0 with hqdef
  have hqe : q e = blkCount sub bs e - 1 := if_pos rfl
  have hq : ∀ d < 6, d ≠ e → 0 ≤ q d ∧ q d < blkCount sub bs d := by
    intro d _ hde
    have hqd : q d = 0 := if_neg hde
    have hcount : 0 < blkCount sub bs d := by
      rw [h.blkCount_eq hf h3]
      split_ifs with hdn hm
      · exact hother d hm hde
      · exact hpos d hdn
      · exact Nat.one_pos
    rw [hqd]
    omega
  have hbounds : ∀ d < parent.ndims, d ≠ e →
      0 ≤ shift parent o q d ∧ shift parent o q d < parent.outerBlocks d := fun d hdn hde =>
    (h.shift_bounds hd hf h3 (hq d (by omega) hde)).1 hdn
  have hzero : ∀ d < 6, parent.ndims ≤ d → shift parent o q d = 0 := fun d hd6 hdn =>
    (h.shift_bounds hd hf h3 (hq d hd6 (by omega))).2 hdn
  have hshift : shift parent o q e = (o e / bs : ℕ) - 1 := h.shift_cut hf h3 he hcut hlt hqe
  have hx : sub.dims e < innerBlocks parent.blocking.inner e := by rwa [hB]
  refine ⟨_, ⟨q, hq, hqe, Function.update (fun _ => 0) e (sub.dims e), ?_, ?_, rfl⟩, ?_⟩
  · rw [h.blocking]
    refine mem_box.mpr ⟨fun d _ => ?_, fun d hd6 => Function.update_of_ne (by omega) _ _⟩
    by_cases hde : d = e
    · subst hde
      rwa [Function.update_self]
    · rw [Function.update_of_ne hde]
      exact hd.innerBlocks_pos d
  · rw [Function.update_self]
    exact Nat.mod_le _ _
  · rw [h.blocking, h.outerOff_eq h6]
    rcases Nat.eq_zero_or_pos (o e) with ho | ho
    · have hshift' : shift parent o q e = -1 := by
        rw [hshift, ho]
        simp
      by_cases hnz : ∀ d < parent.ndims, d ≠ e →
          parent.blocking.strides e ≤ parent.blocking.strides d → o d = 0
      · -- nothing to borrow from
        left
        refine hd.outerOff_neg h6 hen hshift' hbounds hzero (fun d hdn hde hle => ?_) _
        have hqd : q d = 0 := if_neg hde
        unfold shift
        rw [if_pos hdn, hnz d hdn hde hle, hqd]
        simp
      · right
        push Not at hnz
        obtain ⟨d, hdn, hde, hle, hod⟩ := hnz
        have hfill : sub.dims e < parent.lastBlock e := by
          rcases hbad with hbad | hbad | hbad
          · omega
          · exact hbad
          · exact absurd (hbad d hdn hde hle) hod
        obtain ⟨q', hsum, hq'e, hq', hq'0⟩ := hd.exists_borrow h6 hen hshift' hbounds hzero (by
          refine ⟨d, hdn, hde, hle, ?_⟩
          have hqd : q d = 0 := if_neg hde
          obtain ⟨a, ha⟩ := h.dvd d hdn
          have ha0 : a ≠ 0 := fun h0 => hod (by rw [ha, h0, Nat.mul_zero])
          unfold shift
          rw [if_pos hdn, hqd, ha, Nat.mul_div_cancel_left _ (hd.innerBlocks_pos d)]
          omega)
        rw [← hsum]
        refine exists_data_of_blocks hd h6 hq' hq'0 hen hx ?_
        have hpos' := hd.outerBlocks_pos hen
        have hq'n : (q' e).toNat = parent.outerBlocks e - 1 := by omega
        rw [lastBlock_eq hd hen] at hfill
        rw [hq'n]
        omega
    · -- the block in front of the part is a block of the tensor
      right
      obtain ⟨a, ha⟩ := h.dvd e hen
      rw [hB] at ha
      have hbs : 0 < bs := by omega
      have ha0 : 0 < a := by
        rcases Nat.eq_zero_or_pos a with rfl | ha0
        · omega
        · exact ha0
      have hdiv : o e / bs = a := by rw [ha, Nat.mul_div_cancel_left _ hbs]
      rw [hdiv] at hshift
      have hle := h.add_blkCount_le hd hf h3 hen
      rw [hB, hdiv] at hle
      refine exists_data_of_blocks hd h6 (fun d hdn => ?_) hzero hen hx ?_
      · by_cases hde : d = e
        · subst hde
          rw [hshift]
          omega
        · exact hbounds d hdn hde
      · have hnat : (shift parent o q e).toNat = a - 1 := by omega
        have hmul : (a - 1) * bs + bs = o e := by
          rw [← Nat.succ_mul, Nat.succ_eq_add_one, Nat.sub_add_cancel ha0, ha, Nat.mul_comm]
        rw [hnat, hB]
        omega

end Blk

end IsPart

/-! ## Safe writes -/

namespace SafeToZero

variable {md : MemoryDesc} {ws : List ℤ}

theorem nil (md : MemoryDesc) : SafeToZero md [] where
  data ws' hp m pos _ := by rw [List.perm_nil.mp hp]; rfl
  buffer y hy := absurd hy List.not_mem_nil

/-- Clearing padding is safe. -/
theorem of_isPadding {perm : List ℕ} (h : Dense md perm)
    (hws : ∀ y ∈ ws, ∃ pos, md.IsPadding pos ∧ md.offV pos true = y) : SafeToZero md ws where
  data ws' hp m pos hpos := by
    refine applyWrites_of_notMem (fun w hw he => ?_) m
    obtain ⟨y, hy, rfl⟩ := List.mem_map.mp hw
    obtain ⟨pos', hpad, rfl⟩ := hws y (hp.mem_iff.mp hy)
    exact h.offV_ne_of_isPadding hpos hpad he
  buffer y hy := by
    obtain ⟨pos, hpad, rfl⟩ := hws y hy
    obtain ⟨h0, hlt⟩ := h.bijOn_offV.mapsTo hpad.1
    refine ⟨h0, ?_⟩
    rw [h.size_eq]
    have hmul : (md.offV pos true + 1) * (md.dataType.size : ℤ) ≤
        (volume md.paddedDims md.ndims : ℤ) * md.dataType.size :=
      Int.mul_le_mul_of_nonneg_right hlt (Int.natCast_nonneg _)
    push_cast
    omega

/-- Clearing an element of the tensor or writing in front of the buffer is not. -/
theorem not_of_mem {y : ℤ} (hy : y ∈ ws)
    (hbad : y < 0 ∨ ∃ pos ∈ box md.dims md.ndims, md.offV pos true = y) : ¬ SafeToZero md ws := by
  intro hsafe
  rcases hbad with hneg | ⟨pos, hpos, rfl⟩
  · have h0 := (hsafe.buffer y hy).1
    omega
  · have hdata := hsafe.data ws (List.Perm.refl ws) (fun _ => 1) pos hpos
    have hzero : applyWrites (ws.map fun y => (y, (0 : ℤ))) (fun _ => 1) (md.offV pos true) = 0 :=
      applyWrites_of_mem (Consistent.of_map fun _ _ _ _ _ => rfl)
        (List.mem_map.mpr ⟨_, hy, rfl⟩) _
    rw [hzero] at hdata
    exact absurd hdata (by decide)

end SafeToZero

/-! ## The memory object on a part -/

/-- What `dnnl_memory_desc_init_by_strides` sets: there are no inner blocks and there is no padding. -/
theorem memoryDescInitByStrides_fields {ndims : ℕ} {dims : ℕ → ℤ} {dt : DataType}
    {strides : Option (ℕ → ℤ)} {md : MemoryDesc}
    (h : memoryDescInitByStrides ndims dims dt strides = .ok md) (hk : md.formatKind = .blocked) :
    0 < md.ndims ∧ md.dataType ≠ .undef ∧ md.blocking.inner = [] ∧
      ∀ d < md.ndims, md.paddedDims d = md.dims d := by
  unfold memoryDescInitByStrides at h
  split_ifs at h with hnd hsane
  · obtain rfl := Except.ok.inj h
    simp [zeroMd] at hk
  · obtain rfl := Except.ok.inj h
    simp only [memoryDescSanityCheck, decide_eq_true_eq, hnd, false_or] at hsane
    exact ⟨Nat.pos_of_ne_zero hnd, hsane.2.2.1, rfl, fun d hd => rfl⟩

/-- An empty part has no padding. -/
theorem IsPart.nelems_eq_of_zero {parent sub : MemoryDesc} {o : ℕ → ℕ} (h : IsPart parent sub o)
    (hL : ValidInner parent.ndims parent.blocking.inner) (hp : ∀ d < parent.ndims,
      parent.paddedDims d = rndUp (parent.dims d) (innerBlocks parent.blocking.inner d))
    {d : ℕ} (hdn : d < parent.ndims) (h0 : sub.dims d = 0) : sub.nelems false = sub.nelems true := by
  have hpad0 : sub.paddedDims d = 0 := by
    rw [h.paddedDims d hdn, h0]
    split_ifs with hr
    · obtain ⟨a, ha⟩ := h.dvd d hdn
      have hB := hL.innerBlocks_pos d
      rw [hp d hdn, ← hr, Nat.add_zero, ha, rndUp, divUp_mul a hB, Nat.mul_comm, Nat.sub_self]
    · rfl
  have hv : volume sub.dims sub.ndims = 0 := volume_eq_zero.mpr ⟨d, h.ndims ▸ hdn, h0⟩
  have hv' : volume sub.paddedDims sub.ndims = 0 := volume_eq_zero.mpr ⟨d, h.ndims ▸ hdn, hpad0⟩
  simp [MemoryDesc.nelems, hv, hv']

/-- A part that ends in a padded block has padding. -/
theorem IsPart.nelems_ne_of_border {parent sub : MemoryDesc} {o : ℕ → ℕ} {perm : List ℕ}
    (h : IsPart parent sub o) (hd : Dense parent perm) (hpos : ∀ d < parent.ndims, 0 < sub.dims d)
    {d : ℕ} (hdn : d < parent.ndims) (hr : o d + sub.dims d = parent.dims d)
    (ht : sub.dims d % innerBlocks parent.blocking.inner d ≠ 0) :
    sub.nelems false ≠ sub.nelems true := by
  have hB := hd.innerBlocks_pos d
  have hlt : sub.dims d < sub.paddedDims d := by
    rw [h.paddedDims d hdn, if_pos hr]
    have hne : parent.dims d ≠ parent.paddedDims d := by
      intro he
      obtain ⟨a, ha⟩ := h.dvd d hdn
      have hmod : parent.dims d % innerBlocks parent.blocking.inner d = 0 := by
        rw [he, hd.paddedDims_eq hdn, Nat.mul_mod_left]
      rw [← hr, ha, Nat.mul_add_mod] at hmod
      exact ht hmod
    have hle := hd.dims_le hdn
    omega
  have hvol : volume sub.dims sub.ndims < volume sub.paddedDims sub.ndims := by
    rw [h.ndims]
    exact Finset.prod_lt_prod (fun i hi => hpos i (Finset.mem_range.mp hi))
      (fun i hi => h.dims_le_paddedDims hd (Finset.mem_range.mp hi))
      ⟨d, Finset.mem_range.mpr hdn, hlt⟩
  have hz : sub.isZero = false := by
    rw [MemoryDesc.isZero, h.ndims]
    simpa using hd.ndims_pos.ne'
  simp only [MemoryDesc.nelems, hz, Bool.false_eq_true, if_false, if_true]
  omega

/-- A part with padding ends in a padded block of the tensor. -/
theorem IsPart.exists_border {parent sub : MemoryDesc} {o : ℕ → ℕ} {perm : List ℕ}
    (h : IsPart parent sub o) (hd : Dense parent perm) (hne : sub.nelems false ≠ sub.nelems true) :
    ∃ d < parent.ndims, o d + sub.dims d = parent.dims d ∧
      sub.dims d % innerBlocks parent.blocking.inner d ≠ 0 := by
  by_contra hnone
  push Not at hnone
  have hsame : ∀ d < sub.ndims, sub.dims d = sub.paddedDims d := by
    intro d hdn
    rw [h.ndims] at hdn
    rw [h.paddedDims d hdn]
    split_ifs with hrd
    · obtain ⟨a, ha⟩ := h.dvd d hdn
      obtain ⟨b, hb⟩ := Nat.dvd_of_mod_eq_zero (hnone d hdn hrd)
      have hdim : parent.dims d = innerBlocks parent.blocking.inner d * (a + b) := by
        rw [← hrd, ha, hb]
        ring
      rw [hd.paddedDims d hdn, hdim, rndUp, divUp_mul _ (hd.innerBlocks_pos d), ha, hb,
        Nat.mul_comm (a + b), ← Nat.mul_sub, Nat.add_sub_cancel_left]
    · rfl
  refine hne ?_
  simp only [MemoryDesc.nelems, Bool.false_eq_true, if_false, if_true]
  rw [volume_congr hsame]

section Part

variable {parent sub : MemoryDesc} {dims offsets : ℕ → ℤ} {perm : List ℕ} {kind : BlkKind} {bs : ℕ}
  (h : IsPart parent sub fun d => (offsets d).toNat)
  (hdims : ∀ d < parent.ndims, 0 ≤ offsets d ∧ dims d = sub.dims d) (hd : Dense parent perm)
  (hpos : ∀ d < parent.ndims, 0 < sub.dims d)

include h hdims hd hpos

/-- A cut block makes the specialised routine write where it must not. -/
theorem CutsBlock.exists_unsafe (hcase : zeroPadCase parent.blocking.inner = some (kind, bs))
    (hf : FastInner kind bs parent.blocking.inner) (h3 : 3 ≤ parent.ndims) (h6 : parent.ndims ≤ 6)
    (hcuts : CutsBlock parent dims offsets) :
    ∃ e ∈ kind.dims, sub.dims e % bs ≠ 0 ∧ ∃ y, InTail sub bs e y ∧
      (y < 0 ∨ ∃ pos ∈ box parent.dims parent.ndims, parent.offV pos true = y) := by
  obtain ⟨⟨kind', bs'⟩, hc, d1, hd1, d2, hd2, -, ⟨hr, ht⟩, ⟨hcut, hlt⟩, hbad⟩ := hcuts
  obtain ⟨rfl, rfl⟩ : kind' = kind ∧ bs' = bs := by
    have hc' := hc
    rw [hcase] at hc'
    simpa [eq_comm] using hc'
  have hblocks : parent.computeBlocks = innerBlocks parent.blocking.inner := by
    simp [MemoryDesc.computeBlocks, MemoryDesc.isBlockingDesc, hd.formatKind]
  have hBk : ∀ d ∈ kind'.dims, innerBlocks parent.blocking.inner d = bs' := fun d hm => by
    rw [hf.innerBlocks_eq, if_pos hm]
  have hdn1 : d1 < parent.ndims := lt_of_lt_of_le (BlkKind.dims_lt hd1) h3
  have hdn2 : d2 < parent.ndims := lt_of_lt_of_le (BlkKind.dims_lt hd2) h3
  obtain ⟨ho1, hdim1⟩ := hdims d1 hdn1
  obtain ⟨ho2, hdim2⟩ := hdims d2 hdn2
  rw [hblocks, hBk d2 hd2, hdim2] at hlt
  have hlt' : sub.dims d2 < bs' := by exact_mod_cast hlt
  -- along the other blocked dimension the part has a block
  have hother : ∀ d ∈ kind'.dims, d ≠ d2 → 0 < sub.paddedDims d / bs' := by
    intro d hm hde
    obtain rfl : d = d1 := by
      have hne : d1 ≠ d2 := fun he => by
        subst he
        omega
      clear hcase hc hf hBk hlt hlt'
      cases kind' <;> simp [BlkKind.dims] at hd1 hd2 hm <;> omega
    have hbs := hd.innerBlocks_pos d
    have hp := hd.paddedDims_eq hdn1
    have hle := hd.dims_le hdn1
    have hspos := hpos d hdn1
    obtain ⟨a, ha⟩ := h.dvd d hdn1
    rw [hBk d hd1] at ha hp hbs
    have hsub : parent.paddedDims d - (offsets d).toNat = (parent.outerBlocks d - a) * bs' := by
      rw [hp, ha, Nat.sub_mul, Nat.mul_comm bs' a]
    rw [h.paddedDims d hdn1, if_pos (by omega), hsub, Nat.mul_div_cancel _ hbs]
    by_contra hz
    have h0 : parent.outerBlocks d - a = 0 := by omega
    rw [h0, Nat.zero_mul] at hsub
    omega
  obtain ⟨y, hy, hyb⟩ := h.exists_unsafe_of_cut hd hf h3 h6 hpos hd2 (by omega) hlt' hother (by
    rcases hbad with hbad | hbad | hbad
    · left
      omega
    · right; left
      omega
    · right; right
      intro d hdn hde hle
      have ho := hbad d hdn hde hle
      omega)
  refine ⟨d2, hd2, ?_, y, hy, hyb⟩
  rw [Nat.mod_eq_of_lt hlt']
  exact (hpos d2 hdn2).ne'

/-- Without a cut block the specialised routine clears padding of the tensor only. -/
theorem exists_isPadding_of_not_cutsBlock
    (hcase : zeroPadCase parent.blocking.inner = some (kind, bs))
    (hf : FastInner kind bs parent.blocking.inner) (h3 : 3 ≤ parent.ndims) (h6 : parent.ndims ≤ 6)
    (hne : sub.nelems false ≠ sub.nelems true) (hcuts : ¬ CutsBlock parent dims offsets) {e : ℕ}
    (he : e ∈ kind.dims) (ht : sub.dims e % bs ≠ 0) {y : ℤ} (hy : InTail sub bs e y) :
    ∃ pos, parent.IsPadding pos ∧ parent.offV pos true = y := by
  have hblocks : parent.computeBlocks = innerBlocks parent.blocking.inner := by
    simp [MemoryDesc.computeBlocks, MemoryDesc.isBlockingDesc, hd.formatKind]
  have hBe : innerBlocks parent.blocking.inner e = bs := by rw [hf.innerBlocks_eq, if_pos he]
  have hen : e < parent.ndims := lt_of_lt_of_le (BlkKind.dims_lt he) h3
  by_cases hr : (offsets e).toNat + sub.dims e = parent.dims e
  · exact h.exists_isPadding_of_border hd hf h3 h6 he hr ht hy
  have hle := h.add_le e hen
  have hcut : (offsets e).toNat + sub.dims e < parent.dims e := by omega
  have hlt : sub.dims e < bs := by
    rcases h.shape e hen with hdvd | hlt
    · rw [hBe] at hdvd
      exact absurd (Nat.mod_eq_zero_of_dvd hdvd) ht
    · rwa [hBe] at hlt
  obtain ⟨d1, hdn1, hd1r, hd1t⟩ := h.exists_border hd hne
  have hd1 : d1 ∈ kind.dims := by
    by_contra hm
    rw [hf.innerBlocks_eq, if_neg hm, Nat.mod_one] at hd1t
    exact hd1t rfl
  obtain ⟨ho1, hdim1⟩ := hdims d1 hdn1
  obtain ⟨ho, hdim⟩ := hdims e hen
  have hharmless : ¬ (0 < offsets e ∨ dims e < parent.lastBlock e ∨
      ∀ d < parent.ndims, d ≠ e →
        parent.blocking.strides e ≤ parent.blocking.strides d → offsets d = 0) := by
    intro hbad
    refine hcuts ⟨(kind, bs), hcase, d1, hd1, e, he, fun d hdn => ?_, ⟨by omega, ?_⟩,
      ⟨by omega, ?_⟩, hbad⟩
    · have hpd := hpos d hdn
      rw [(hdims d hdn).2]
      omega
    · rw [hblocks, hdim1]
      exact_mod_cast hd1t
    · rw [hblocks, hBe, hdim]
      exact_mod_cast hlt
  push Not at hharmless
  obtain ⟨ho0, hfill, d, hdn, hde, hle', hod⟩ := hharmless
  refine h.exists_isPadding_of_cut hd hf h3 h6 he hcut hlt (by omega) (by omega)
    ⟨d, hdn, hde, hle', ?_⟩ hy
  have ho' := (hdims d hdn).1
  show (offsets d).toNat ≠ 0
  omega

/-- The parts of a dense tensor for which `zero_pad` is safe. -/
theorem typedZeroPad_safe_iff {nthr : ℕ} (hnthr : 0 < nthr)
    (hfast : ∀ kind bs, zeroPadCase parent.blocking.inner = some (kind, bs) →
      FastInner kind bs parent.blocking.inner ∧ 3 ≤ parent.ndims ∧ parent.ndims ≤ 6) :
    ∃ ws, typedZeroPad nthr sub = .ok ws ∧
      (SafeToZero parent ws ↔ ¬ CutsBlock parent dims offsets) := by
  unfold typedZeroPad
  rw [if_neg (by simp [h.formatKind])]
  split_ifs with hnelems
  · -- no padding, so no padded block in which the part could end
    refine ⟨[], rfl, iff_of_true (SafeToZero.nil parent) ?_⟩
    rintro ⟨⟨kind, bs⟩, hc, d1, hd1, d2, hd2, -, ⟨hr, ht⟩, -, -⟩
    have hdn : d1 < parent.ndims := lt_of_lt_of_le (BlkKind.dims_lt hd1) (hfast kind bs hc).2.1
    obtain ⟨ho, hdim⟩ := hdims d1 hdn
    have hblocks : parent.computeBlocks = innerBlocks parent.blocking.inner := by
      simp [MemoryDesc.computeBlocks, MemoryDesc.isBlockingDesc, hd.formatKind]
    refine h.nelems_ne_of_border hd hpos hdn (by omega) ?_ hnelems
    rw [hblocks, hdim] at ht
    exact_mod_cast ht
  · rw [h.blocking]
    split
    · rename_i kind bs hcase
      obtain ⟨hf, h3, h6⟩ := hfast kind bs hcase
      have hmem : ∀ y, y ∈ typedZeroPadBlk nthr sub kind bs ↔
          ∃ e ∈ kind.dims, sub.dims e % bs ≠ 0 ∧ InTail sub bs e y :=
        fun y => mem_typedZeroPadBlk hnthr (by rwa [h.blocking])
      refine ⟨_, rfl, ?_⟩
      constructor
      · intro hsafe hcuts
        obtain ⟨e, he, ht, y, hy, hyb⟩ := hcuts.exists_unsafe h hdims hd hpos hcase hf h3 h6
        exact SafeToZero.not_of_mem ((hmem y).mpr ⟨e, he, ht, hy⟩) hyb hsafe
      · intro hcuts
        refine SafeToZero.of_isPadding hd fun y hy => ?_
        obtain ⟨e, he, ht, hy⟩ := (hmem y).mp hy
        exact exists_isPadding_of_not_cutsBlock h hdims hd hpos hcase hf h3 h6 hnelems hcuts he ht hy
    · -- the generic routine
      rename_i hcase
      have hnd : 0 < sub.ndims := by
        rw [h.ndims]
        exact hd.ndims_pos
      have hppos : ∀ d < sub.ndims, 0 < sub.paddedDims d := fun d hdn => by
        rw [h.ndims] at hdn
        exact lt_of_lt_of_le (hpos d hdn) (h.dims_le_paddedDims hd hdn)
      refine ⟨_, rfl, iff_of_true (SafeToZero.of_isPadding hd fun y hy => ?_) ?_⟩
      · obtain ⟨pos, hpad, rfl⟩ := (mem_typedZeroPadGenericBlocked hnthr hnd hppos).mp hy
        exact h.exists_isPadding hd hpad
      · rintro ⟨c, hc, -⟩
        rw [hcase] at hc
        exact absurd hc (by simp)

end Part

/-- The check of a descriptor asks of extents only that they are not negative. -/
theorem sanityCheck_natCast {ndims : ℕ} (dims dims' : ℕ → ℕ) {dataType : DataType} {formatKind : FormatKind} :
    memoryDescSanityCheck ndims (fun d => dims d) dataType formatKind =
      memoryDescSanityCheck ndims (fun d => dims' d) dataType formatKind := by
  simp [memoryDescSanityCheck]

/-- A part of a part is described as the part of the whole tensor that starts at the sum of the offsets, with the same errors. -/
theorem submemory_of_submemory {parent sub : MemoryDesc} {dims offsets dims' offsets' : ℕ → ℤ}
    (hsub : memoryDescInitSubmemory parent dims offsets = .ok sub)
    (hinside : ∀ d < parent.ndims, 0 ≤ offsets' d ∧ offsets' d + dims' d ≤ dims d) :
    memoryDescInitSubmemory sub dims' offsets' = memoryDescInitSubmemory parent dims' fun d => offsets d + offsets' d := by
  unfold memoryDescInitSubmemory at hsub
  dsimp only at hsub
  split_ifs at hsub with hsane hbounds hk hok
  obtain rfl := Except.ok.inj hsub
  push Not at hbounds hok
  unfold memoryDescInitSubmemory
  dsimp only
  rw [sanityCheck_natCast _ parent.dims, if_neg hsane, if_neg hsane]
  refine if_congr ?_ rfl (if_congr Iff.rfl rfl (if_congr ?_ rfl (congrArg Except.ok ?_)))
  · refine exists_congr fun d => and_congr_right fun hd => ?_
    have hb := hbounds d hd
    have hi := hinside d hd
    rw [if_pos hd]
    omega
  · refine exists_congr fun d => and_congr_right fun hd => ?_
    have heq : (offsets d + offsets' d) % parent.computeBlocks d = offsets' d % parent.computeBlocks d := by
      rw [Int.add_emod, (hok d hd).1, zero_add, Int.emod_emod]
    rw [heq]
    rfl
  · have hdims : ∀ d, (if d < parent.ndims then (dims' d).toNat else if d < parent.ndims then (dims d).toNat else parent.dims d) =
        if d < parent.ndims then (dims' d).toNat else parent.dims d := by
      intro d
      split_ifs <;> rfl
    have hoffset : parent.offset0 + ∑ d ∈ Finset.range parent.ndims, offsets d / parent.computeBlocks d * parent.blocking.strides d +
        ∑ d ∈ Finset.range parent.ndims, offsets' d / parent.computeBlocks d * parent.blocking.strides d =
          parent.offset0 + ∑ d ∈ Finset.range parent.ndims,
            (offsets d + offsets' d) / parent.computeBlocks d * parent.blocking.strides d := by
      rw [add_assoc, ← Finset.sum_add_distrib]
      refine congrArg (parent.offset0 + ·) (Finset.sum_congr rfl fun d hd => ?_)
      rw [Int.add_ediv_of_dvd_left (Int.dvd_of_emod_eq_zero (hok d (Finset.mem_range.mp hd)).1), add_mul]
    congr 1
    · exact funext hdims
    · funext d
      by_cases hd : d < parent.ndims
      · have hb := hbounds d hd
        have hi := hinside d hd
        simp only [if_pos hd]
        split_ifs <;> omega
      · simp only [if_neg hd]

/-- The last `8` of the `16` rows from the eighth one on, in the format `OIhw8i8o`. -/
theorem submemory_of_submemory_ABcd8b8a :
    ∃ parent sub, memoryDescInitByTag 4 (fun d => [24, 16, 1, 1].getD d 0) .f32 .ABcd8b8a = .ok parent ∧
      memoryDescInitSubmemory parent (fun d => [16, 16, 1, 1].getD d 0) (fun d => [8, 0, 0, 0].getD d 0) = .ok sub ∧
      memoryDescInitSubmemory sub (fun d => [8, 8, 1, 1].getD d 0) (fun d => [8, 8, 0, 0].getD d 0) =
        memoryDescInitSubmemory parent (fun d => [8, 8, 1, 1].getD d 0) fun d => [8, 0, 0, 0].getD d 0 + [8, 8, 0, 0].getD d 0 := by
  obtain ⟨parent, hparent, hndims⟩ : ∃ parent, memoryDescInitByTag 4 (fun d => [24, 16, 1, 1].getD d 0) .f32 .ABcd8b8a =
      .ok parent ∧ parent.ndims = 4 := ⟨_, rfl, rfl⟩
  obtain ⟨sub, hsub⟩ : ∃ sub, memoryDescInitSubmemory parent (fun d => [16, 16, 1, 1].getD d 0)
      (fun d => [8, 0, 0, 0].getD d 0) = .ok sub := by
    obtain rfl := Except.ok.inj hparent
    exact ⟨_, rfl⟩
  refine ⟨parent, sub, hparent, hsub, submemory_of_submemory hsub ?_⟩
  rw [hndims]
  decide

end MklDnn
