import MklDnn.Memory.Proofs.BuiltProofs
import MklDnn.Rnn.StateCopies
import MklDnn.Rnn.Proofs.RnnDescProofs
import MklDnn.Softmax.Proofs.RefSoftmaxProofs

/-!
# Proofs: the copies of the states of an RNN

The layers are copied with the type of their elements. The states are not when there are no initial states, or when the cell
states are not `f32`.
-/

open Checks LoopNest Offsets

namespace MklDnn

/-! ## Rows -/

/-- Byte `y` belongs to the element at offset `off`. -/
def InElement (dt : DataType) (off y : ℤ) : Prop := off * dt.size ≤ y ∧ y < (off + 1) * dt.size

/-- The bytes of the elements that a descriptor describes. -/
def describedBytes (md : MemoryDesc) : Set ℤ :=
  {y | ∃ pos ∈ box md.dims md.ndims, InElement md.dataType (md.offV pos false) y}

/-- A built descriptor whose last dimension is contiguous. -/
structure MemoryDesc.Contiguous (md : MemoryDesc) (n : ℕ) : Prop where
  built : md.Built
  formatKind : md.formatKind = .blocked
  ndims : md.ndims = n
  stride : md.blocking.strides (n - 1) = 1

/-- Without blocks of several elements an offset is a sum of strides. -/
theorem dimOff_of_blockSize {md : MemoryDesc} (h : blockSize md.blocking.inner = 1) (d x : ℕ) : md.dimOff d x = x * md.blocking.strides d := by
  have hunit : ∀ b ∈ md.blocking.inner, b.blk = 1 := fun b hb =>
    Nat.dvd_one.mp (h ▸ List.dvd_prod (List.mem_map_of_mem hb))
  have hblocks : innerBlocks md.blocking.inner d = 1 ∧ innerOff md.blocking.inner d x = 0 := by
    generalize md.blocking.inner = L at hunit
    induction L with
    | nil => exact ⟨rfl, rfl⟩
    | cons b L ih =>
      obtain ⟨hB, hoff⟩ := ih fun c hc => hunit c (List.mem_cons_of_mem _ hc)
      have hb := hunit b List.mem_cons_self
      rw [innerBlocks_cons, innerOff, hB, hoff, hb, Nat.mod_one, Nat.zero_mul]
      simp
  rw [MemoryDesc.dimOff, hblocks.1, hblocks.2, Nat.div_one, Nat.cast_zero, zero_add]

/-- The offsets of a contiguous descriptor. -/
theorem MemoryDesc.Contiguous.offV_eq {md : MemoryDesc} {n : ℕ} (h : md.Contiguous (n + 1))
    (hpos : ∀ d < md.ndims, 0 < md.dims d) (pos : ℕ → ℕ) :
    md.offV pos false = md.offset0 + ∑ d ∈ Finset.range n, pos d * md.blocking.strides d + pos n := by
  have hwf := h.built.wellFormed
  have hlast : n < md.ndims := h.ndims ▸ Nat.lt_succ_self n
  have hstride : md.blocking.strides n = 1 := h.stride
  have hsize : blockSize md.blocking.inner = 1 := by
    rcases h.built.blockSize_le_strides h.formatKind hpos hlast with hnil | hle
    · rw [hnil, blockSize_nil]
    · have hsizePos := hwf.valid.blockSize_pos
      omega
  rw [hwf.offV_eq, md.offV_padded hwf.valid, h.ndims, Finset.sum_range_succ, dimOff_of_blockSize hsize,
    hstride, mul_one, add_assoc]
  congr 2
  exact Finset.sum_congr rfl fun d _ => dimOff_of_blockSize hsize d _

/-- The elements of a tensor of three dimensions lie in rows. -/
theorem MemoryDesc.Contiguous.describedBytes_layer {md : MemoryDesc} (h : md.Contiguous 3) : describedBytes md =
    {y | ∃ it < md.dims 0, ∃ b < md.dims 1, ∃ s < md.dims 2,
      InElement md.dataType (md.blkOff [(it : ℤ), b, 0] + (s : ℕ)) y} := by
  ext y
  simp only [describedBytes, Set.mem_ofPred_eq, h.ndims]
  constructor
  · rintro ⟨pos, hp, hy⟩
    have hlt := (mem_box.mp hp).1
    have hpos : ∀ d < md.ndims, 0 < md.dims d := fun d hd => (Nat.zero_le _).trans_lt (hlt d (h.ndims ▸ hd))
    refine ⟨pos 0, hlt 0 (by decide), pos 1, hlt 1 (by decide), pos 2, hlt 2 (by decide), ?_⟩
    rw [h.offV_eq hpos] at hy
    convert hy using 1
    simp [blkOff, Finset.sum_range_succ]
    ring
  · rintro ⟨it, hit, b, hb, s, hs, hy⟩
    have hpos : ∀ d < md.ndims, 0 < md.dims d := by
      intro d hd
      rw [h.ndims] at hd
      interval_cases d <;> omega
    refine ⟨fun d => if d = 0 then it else if d = 1 then b else if d = 2 then s else 0, mem_box.mpr ⟨?_, ?_⟩, ?_⟩
    · intro d hd
      interval_cases d <;> simpa
    · intro d hd
      rw [if_neg (by omega), if_neg (by omega), if_neg (by omega)]
    · rw [h.offV_eq hpos]
      convert hy using 1
      simp [blkOff, Finset.sum_range_succ]
      ring

/-- The elements of a tensor of four dimensions lie in rows. -/
theorem MemoryDesc.Contiguous.describedBytes_states {md : MemoryDesc} (h : md.Contiguous 4) : describedBytes md =
    {y | ∃ lay < md.dims 0, ∃ dir < md.dims 1, ∃ b < md.dims 2, ∃ s < md.dims 3,
      InElement md.dataType (md.blkOff [(lay : ℤ), dir, b, 0] + (s : ℕ)) y} := by
  ext y
  simp only [describedBytes, Set.mem_ofPred_eq, h.ndims]
  constructor
  · rintro ⟨pos, hp, hy⟩
    have hlt := (mem_box.mp hp).1
    have hpos : ∀ d < md.ndims, 0 < md.dims d := fun d hd => (Nat.zero_le _).trans_lt (hlt d (h.ndims ▸ hd))
    refine ⟨pos 0, hlt 0 (by decide), pos 1, hlt 1 (by decide), pos 2, hlt 2 (by decide), pos 3, hlt 3 (by decide), ?_⟩
    rw [h.offV_eq hpos] at hy
    convert hy using 1
    simp [blkOff, Finset.sum_range_succ]
    ring
  · rintro ⟨lay, hlay, dir, hdir, b, hb, s, hs, hy⟩
    have hpos : ∀ d < md.ndims, 0 < md.dims d := by
      intro d hd
      rw [h.ndims] at hd
      interval_cases d <;> omega
    refine ⟨fun d => if d = 0 then lay else if d = 1 then dir else if d = 2 then b else if d = 3 then s else 0,
      mem_box.mpr ⟨?_, ?_⟩, ?_⟩
    · intro d hd
      interval_cases d <;> simpa
    · intro d hd
      rw [if_neg (by omega), if_neg (by omega), if_neg (by omega), if_neg (by omega)]
    · rw [h.offV_eq hpos]
      convert hy using 1
      simp [blkOff, Finset.sum_range_succ]
      ring

namespace Rnn

open PrimitiveHashing (AlgKind RnnDirection)

/-! ## What the copies access -/

/-- The assignment writes or reads the cell. -/
def Assign.Accesses (a : Assign) (c : Cell) : Prop := a.target = c ∨ a.value.source = some c

/-- The bytes of a tensor that are written. -/
def writtenBytes (prog : List Assign) (tensor : UserTensor) : Set ℤ :=
  {y | ∃ a ∈ prog, ∃ dt off, a.target = .user tensor dt off ∧ InElement dt off y}

theorem writtenBytes_append (l l' : List Assign) (tensor : UserTensor) :
    writtenBytes (l ++ l') tensor = writtenBytes l tensor ∪ writtenBytes l' tensor := by
  ext y
  simp only [writtenBytes, List.mem_append, Set.mem_union, Set.mem_ofPred_eq, or_and_right, exists_or]

namespace Pd

variable {pd : Pd} {dt dt' : DataType} {off : ℤ} {tensor : UserTensor} {a : Assign}

theorem mem_forStates {body : ℕ → ℕ → ℕ → List Assign} :
    a ∈ pd.forStates body ↔ ∃ lay < pd.nLayer, ∃ dir < pd.nDir, ∃ b < pd.mb, a ∈ body lay dir b := by
  simp [forStates]

/-! ### Initial states -/

theorem accesses_copyInitIter (ha : a ∈ pd.copyInitIter dt) (hacc : a.Accesses (.user tensor dt' off)) :
    pd.withSrcIter = true ∧ 0 < pd.nLayer ∧ 0 < pd.mb ∧
      (tensor = .srcIter ∧ dt' = dt ∨ tensor = .srcIterC ∧ dt' = .f32 ∧ 0 < pd.dic) := by
  unfold copyInitIter at ha
  by_cases hsrc : pd.withSrcIter = true
  · rw [if_pos hsrc] at ha
    obtain ⟨lay, hlay, dir, -, b, hb, ha⟩ := mem_forStates.mp ha
    refine ⟨hsrc, by omega, by omega, ?_⟩
    rcases List.mem_append.mp ha with ha | ha
    · obtain ⟨s, -, rfl⟩ := List.mem_map.mp ha
      simp only [Assign.Accesses, Value.source, reduceCtorEq, false_or, Option.some.injEq, Cell.user.injEq] at hacc
      exact Or.inl ⟨hacc.1.symm, hacc.2.1.symm⟩
    · split_ifs at ha with hlstm
      · obtain ⟨s, hs, rfl⟩ := List.mem_map.mp ha
        simp only [Assign.Accesses, Value.source, reduceCtorEq, false_or, Option.some.injEq, Cell.user.injEq] at hacc
        exact Or.inr ⟨hacc.1.symm, hacc.2.1.symm, (Nat.zero_le s).trans_lt (List.mem_range.mp hs)⟩
      · cases ha
  · rw [if_neg hsrc] at ha
    obtain ⟨lay, -, dir, -, b, -, ha⟩ := mem_forStates.mp ha
    rcases List.mem_append.mp ha with ha | ha <;> obtain ⟨s, -, rfl⟩ := List.mem_map.mp ha <;>
      simp [Assign.Accesses, Value.source] at hacc

/-- The cell states are read. -/
theorem exists_access_srcIterC (hsrc : pd.withSrcIter = true) (hlstm : pd.isLstm = true) (hlay : 0 < pd.nLayer)
    (hdir : 0 < pd.nDir) (hb : 0 < pd.mb) (hdic : 0 < pd.dic) (dt : DataType) :
    ∃ a ∈ pd.copyInitIter dt, ∃ off, a.Accesses (.user .srcIterC .f32 off) := by
  unfold copyInitIter
  rw [if_pos hsrc]
  simp only [if_pos hlstm]
  exact ⟨_, mem_forStates.mpr ⟨0, hlay, 0, hdir, 0, hb, List.mem_append_right _
    (List.mem_map_of_mem (List.mem_range.mpr hdic))⟩, _, Or.inr rfl⟩

theorem writtenBytes_copyInitIter (dt : DataType) (tensor : UserTensor) :
    writtenBytes (pd.copyInitIter dt) tensor = ∅ := by
  refine Set.eq_empty_of_forall_notMem fun y hy => ?_
  obtain ⟨a, ha, dt', off, htarget, -⟩ := hy
  unfold copyInitIter at ha
  by_cases hsrc : pd.withSrcIter = true
  · rw [if_pos hsrc] at ha
    obtain ⟨lay, -, dir, -, b, -, ha⟩ := mem_forStates.mp ha
    rcases List.mem_append.mp ha with ha | ha
    · obtain ⟨s, -, rfl⟩ := List.mem_map.mp ha
      cases htarget
    · split_ifs at ha
      · obtain ⟨s, -, rfl⟩ := List.mem_map.mp ha
        cases htarget
      · cases ha
  · rw [if_neg hsrc] at ha
    obtain ⟨lay, -, dir, -, b, -, ha⟩ := mem_forStates.mp ha
    rcases List.mem_append.mp ha with ha | ha <;> obtain ⟨s, -, rfl⟩ := List.mem_map.mp ha <;> cases htarget

/-! ### Final states -/

theorem accesses_copyResIter (ha : a ∈ pd.copyResIter dt) (hacc : a.Accesses (.user tensor dt' off)) :
    pd.withDstIter = true ∧ 0 < pd.nLayer ∧ 0 < pd.mb ∧ 0 < pd.dic ∧
      (tensor = .dstIter ∧ dt' = dt ∨ tensor = .dstIterC ∧ dt' = .f32) := by
  unfold copyResIter at ha
  by_cases hdst : pd.withDstIter = true
  · rw [if_pos hdst] at ha
    obtain ⟨lay, hlay, dir, -, b, hb, ha⟩ := mem_forStates.mp ha
    rcases List.mem_append.mp ha with ha | ha
    · obtain ⟨s, hs, rfl⟩ := List.mem_map.mp ha
      rw [List.mem_range] at hs
      simp only [Assign.Accesses, Value.source, Option.some.injEq, reduceCtorEq, or_false, Cell.user.injEq] at hacc
      exact ⟨hdst, by omega, by omega, by omega, Or.inl ⟨hacc.1.symm, hacc.2.1.symm⟩⟩
    · split_ifs at ha with hlstm
      · obtain ⟨s, hs, rfl⟩ := List.mem_map.mp ha
        rw [List.mem_range] at hs
        simp only [Assign.Accesses, Value.source, Option.some.injEq, reduceCtorEq, or_false, Cell.user.injEq] at hacc
        exact ⟨hdst, by omega, by omega, by omega, Or.inr ⟨hacc.1.symm, hacc.2.1.symm⟩⟩
      · cases ha
  · rw [if_neg hdst] at ha
    cases ha

/-- Both states are written. -/
theorem exists_access_dstIter (hdst : pd.withDstIter = true) (hlstm : pd.isLstm = true) (hlay : 0 < pd.nLayer)
    (hdir : 0 < pd.nDir) (hb : 0 < pd.mb) (hdic : 0 < pd.dic) (dt : DataType) :
    (∃ a ∈ pd.copyResIter dt, ∃ off, a.Accesses (.user .dstIter dt off)) ∧
      ∃ a ∈ pd.copyResIter dt, ∃ off, a.Accesses (.user .dstIterC .f32 off) := by
  unfold copyResIter
  rw [if_pos hdst]
  simp only [if_pos hlstm]
  exact ⟨⟨_, mem_forStates.mpr ⟨0, hlay, 0, hdir, 0, hb, List.mem_append_left _
      (List.mem_map_of_mem (List.mem_range.mpr hdic))⟩, _, Or.inl rfl⟩,
    ⟨_, mem_forStates.mpr ⟨0, hlay, 0, hdir, 0, hb, List.mem_append_right _
      (List.mem_map_of_mem (List.mem_range.mpr hdic))⟩, _, Or.inl rfl⟩⟩

theorem writtenBytes_copyResIter (dt : DataType) : writtenBytes (pd.copyResIter dt) .dstIter =
    {y | pd.withDstIter = true ∧ ∃ lay < pd.nLayer, ∃ dir < pd.nDir, ∃ b < pd.mb, ∃ s < pd.dic,
      InElement dt ((pd.dstMd 1).blkOff [(lay : ℤ), dir, b, 0] + (s : ℕ)) y} := by
  ext y
  simp only [writtenBytes, Set.mem_ofPred_eq]
  unfold copyResIter
  by_cases hdst : pd.withDstIter = true
  · rw [if_pos hdst]
    constructor
    · rintro ⟨a, ha, dt', off, htarget, hy⟩
      obtain ⟨lay, hlay, dir, hdir, b, hb, ha⟩ := mem_forStates.mp ha
      rcases List.mem_append.mp ha with ha | ha
      · obtain ⟨s, hs, rfl⟩ := List.mem_map.mp ha
        cases htarget
        exact ⟨hdst, lay, hlay, dir, hdir, b, hb, s, List.mem_range.mp hs, hy⟩
      · split_ifs at ha
        · obtain ⟨s, -, rfl⟩ := List.mem_map.mp ha
          cases htarget
        · cases ha
    · rintro ⟨-, lay, hlay, dir, hdir, b, hb, s, hs, hy⟩
      exact ⟨_, mem_forStates.mpr ⟨lay, hlay, dir, hdir, b, hb,
        List.mem_append_left _ (List.mem_map_of_mem (List.mem_range.mpr hs))⟩, dt, _, rfl, hy⟩
  · rw [if_neg hdst]
    simp [hdst]

theorem writtenBytes_copyResIter_dstLayer (dt : DataType) : writtenBytes (pd.copyResIter dt) .dstLayer = ∅ := by
  refine Set.eq_empty_of_forall_notMem fun y hy => ?_
  obtain ⟨a, ha, dt', off, htarget, -⟩ := hy
  have hacc := (accesses_copyResIter ha (Or.inl htarget)).2.2.2.2
  simp at hacc

/-! ### The last layer -/

/-- The channels of the last layer. -/
def layerChannels (pd : Pd) : ℕ := if pd.direction = .bidirectionalConcat then 2 * pd.dic else pd.dic

theorem mem_copyResLayer (ha : a ∈ pd.copyResLayer dt) : ∃ it < pd.nIter, ∃ b < pd.mb, ∃ c s,
    s < pd.dic ∧ c + s < pd.layerChannels ∧ a.target = .user .dstLayer dt ((pd.dstMd 0).blkOff [(it : ℤ), b, (c : ℕ)] + (s : ℕ)) ∧
      ∀ cell, a.value.source = some cell → ∃ lay dir iter b s, cell = .wsStates lay dir iter b s := by
  unfold copyResLayer at ha
  simp only [List.mem_flatMap, List.mem_range] at ha
  obtain ⟨it, hit, b, hb, ha⟩ := ha
  refine ⟨it, hit, b, hb, ?_⟩
  unfold layerChannels
  rcases List.mem_append.mp ha with ha | ha
  · by_cases hright : pd.direction = .unidirectionalRight2left
    · rw [if_pos hright] at ha
      cases ha
    · rw [if_neg hright] at ha
      obtain ⟨s, hs, rfl⟩ := List.mem_map.mp ha
      rw [List.mem_range] at hs
      refine ⟨0, s, hs, ?_, rfl, fun cell hcell => ⟨_, _, _, _, _, (Option.some.inj hcell).symm⟩⟩
      split_ifs <;> omega
  · by_cases hleft : pd.direction = .unidirectionalLeft2right
    · rw [if_pos hleft] at ha
      cases ha
    · rw [if_neg hleft] at ha
      by_cases hsum : pd.direction = .bidirectionalSum
      · rw [if_pos hsum] at ha
        obtain ⟨s, hs, rfl⟩ := List.mem_map.mp ha
        rw [List.mem_range] at hs
        refine ⟨0, s, hs, ?_, rfl, fun cell hcell => ⟨_, _, _, _, _, (Option.some.inj hcell).symm⟩⟩
        split_ifs <;> omega
      · rw [if_neg hsum] at ha
        obtain ⟨s, hs, rfl⟩ := List.mem_map.mp ha
        rw [List.mem_range] at hs
        refine ⟨_, s, hs, ?_, rfl, fun cell hcell => ⟨_, _, _, _, _, (Option.some.inj hcell).symm⟩⟩
        by_cases hright : pd.direction = .unidirectionalRight2left
        · rw [if_pos hright, Nat.zero_mul, hright]
          simpa using hs
        · have hconcat : pd.direction = .bidirectionalConcat := by
            cases hdir : pd.direction with
            | unidirectionalLeft2right => exact absurd hdir hleft
            | unidirectionalRight2left => exact absurd hdir hright
            | bidirectionalConcat => rfl
            | bidirectionalSum => exact absurd hdir hsum
          rw [if_neg hright, if_pos hconcat]
          omega

theorem exists_mem_copyResLayer {it b s : ℕ} (hit : it < pd.nIter) (hb : b < pd.mb) (hs : s < pd.layerChannels)
    (dt : DataType) : ∃ a ∈ pd.copyResLayer dt, ∃ c s', c + s' = s ∧
      a.target = .user .dstLayer dt ((pd.dstMd 0).blkOff [(it : ℤ), b, (c : ℕ)] + (s' : ℕ)) := by
  unfold copyResLayer
  simp only [List.mem_flatMap, List.mem_range]
  by_cases hright : pd.direction = .unidirectionalRight2left
  · have hsum : pd.direction ≠ .bidirectionalSum := by
      rw [hright]
      decide
    have hleft : pd.direction ≠ .unidirectionalLeft2right := by
      rw [hright]
      decide
    have hdic : s < pd.dic := by
      rw [layerChannels, if_neg (by rw [hright]; decide)] at hs
      exact hs
    simp only [if_pos hright, if_neg hleft, if_neg hsum]
    exact ⟨_, ⟨it, hit, b, hb, List.mem_append_right _ (List.mem_map_of_mem (List.mem_range.mpr hdic))⟩, _, s,
      by rw [Nat.zero_mul, Nat.zero_add], rfl⟩
  · simp only [if_neg hright]
    by_cases hdic : s < pd.dic
    · exact ⟨_, ⟨it, hit, b, hb, List.mem_append_left _ (List.mem_map_of_mem (List.mem_range.mpr hdic))⟩, 0, s,
        Nat.zero_add s, rfl⟩
    · have hconcat : pd.direction = .bidirectionalConcat := by
        by_contra hne
        rw [layerChannels, if_neg hne] at hs
        exact hdic hs
      have hsum : pd.direction ≠ .bidirectionalSum := by
        rw [hconcat]
        decide
      have hleft : pd.direction ≠ .unidirectionalLeft2right := by
        rw [hconcat]
        decide
      have hrest : s - pd.dic < pd.dic := by
        rw [layerChannels, if_pos hconcat] at hs
        omega
      simp only [if_neg hleft, if_neg hsum]
      exact ⟨_, ⟨it, hit, b, hb, List.mem_append_right _ (List.mem_map_of_mem (List.mem_range.mpr hrest))⟩, _, s - pd.dic,
        by omega, rfl⟩

theorem blkOff_channel {md : MemoryDesc} (h : md.blocking.strides 2 = 1) (it b c s : ℕ) :
    md.blkOff [(it : ℤ), b, (c : ℕ)] + (s : ℕ) = md.blkOff [(it : ℤ), b, 0] + ((c + s : ℕ) : ℤ) := by
  simp only [MemoryDesc.blkOff, List.zipIdx_cons, List.zipIdx_nil, List.map_cons, List.map_nil, List.sum_cons,
    List.sum_nil, h]
  push_cast
  ring

theorem accesses_copyResLayer (ha : a ∈ pd.copyResLayer dt) (hacc : a.Accesses (.user tensor dt' off)) :
    tensor = .dstLayer ∧ dt' = dt := by
  obtain ⟨it, -, b, -, c, s, -, -, htarget, hsource⟩ := mem_copyResLayer ha
  rcases hacc with hacc | hacc
  · rw [htarget] at hacc
    cases hacc
    exact ⟨rfl, rfl⟩
  · obtain ⟨_, _, _, _, _, hcell⟩ := hsource _ hacc
    cases hcell

theorem writtenBytes_copyResLayer (h : (pd.dstMd 0).blocking.strides 2 = 1) (dt : DataType) :
    writtenBytes (pd.copyResLayer dt) .dstLayer = {y | ∃ it < pd.nIter, ∃ b < pd.mb, ∃ s < pd.layerChannels,
      InElement dt ((pd.dstMd 0).blkOff [(it : ℤ), b, 0] + (s : ℕ)) y} := by
  ext y
  constructor
  · rintro ⟨a, ha, dt', off, htarget, hy⟩
    obtain ⟨it, hit, b, hb, c, s, -, hs, htarget', -⟩ := mem_copyResLayer ha
    rw [htarget'] at htarget
    cases htarget
    rw [blkOff_channel h] at hy
    exact ⟨it, hit, b, hb, c + s, hs, hy⟩
  · rintro ⟨it, hit, b, hb, s, hs, hy⟩
    obtain ⟨a, ha, c, s', rfl, htarget⟩ := exists_mem_copyResLayer hit hb hs dt
    refine ⟨a, ha, dt, _, htarget, ?_⟩
    rwa [blkOff_channel h]

theorem writtenBytes_copyResLayer_dstIter (dt : DataType) : writtenBytes (pd.copyResLayer dt) .dstIter = ∅ := by
  refine Set.eq_empty_of_forall_notMem fun y hy => ?_
  obtain ⟨a, ha, dt', off, htarget, -⟩ := hy
  cases (accesses_copyResLayer ha (Or.inl htarget)).1

/-! ## Descriptors that are accepted -/

/-- What the checks leave of an int8 descriptor. -/
structure Checked (pd : Pd) : Prop where
  srcLayer : (pd.srcMd 0).dataType = .u8
  lstm : pd.isLstm = true
  layerType : (pd.dstMd 0).dataType = .u8 ∨ (pd.dstMd 0).dataType = .f32
  stateTypes : ∃ dt : DataType, (dt = .u8 ∨ dt = .f32) ∧ (pd.withSrcIter = true → (pd.srcMd 1).dataType = dt) ∧
    (pd.withDstIter = true → (pd.dstMd 1).dataType = dt)
  layer : (pd.dstMd 0).Contiguous 3
  layerDims : (pd.dstMd 0).dims 0 = pd.nIter ∧ (pd.dstMd 0).dims 1 = pd.mb ∧ (pd.dstMd 0).dims 2 = pd.layerChannels
  iter : pd.withDstIter = true → (pd.dstMd 1).Contiguous 4
  iterDims : pd.withDstIter = true → (pd.dstMd 1).dims 0 = pd.nLayer ∧ (pd.dstMd 1).dims 1 = pd.nDir ∧
    (pd.dstMd 1).dims 2 = pd.mb ∧ (pd.dstMd 1).dims 3 = pd.dic
  nDir : 0 < pd.nDir

/-- The type that the copies of the states see. -/
def iterType (pd : Pd) : DataType := if (pd.srcMd 1).dataType = .u8 then .u8 else .f32

namespace Checked

variable (h : pd.Checked)

include h

theorem copyIn_eq : pd.copyIn = pd.copyInitIter pd.iterType := by
  have hsrc := h.srcLayer
  unfold copyIn dtConf dtConfOf iterType
  by_cases hiter : (pd.srcMd 1).dataType = .u8
  · by_cases hlayer : (pd.dstMd 0).dataType = .u8 <;> simp [hsrc, hiter, hlayer]
  · by_cases hlayer : (pd.dstMd 0).dataType = .u8 <;> simp [hsrc, hiter, hlayer]

theorem copyOut_eq : pd.copyOut = pd.copyResLayer (pd.dstMd 0).dataType ++ pd.copyResIter pd.iterType := by
  have hsrc := h.srcLayer
  unfold copyOut dtConf dtConfOf iterType
  rcases h.layerType with hlayer | hlayer
  · by_cases hiter : (pd.srcMd 1).dataType = .u8 <;> simp [hsrc, hiter, hlayer]
  · by_cases hiter : (pd.srcMd 1).dataType = .u8 <;> simp [hsrc, hiter, hlayer]

end Checked

/-! ## The types of the copies -/

/-- The descriptor of a tensor. -/
def tensorMd (pd : Pd) : UserTensor → MemoryDesc
  | .srcIter => pd.srcMd 1
  | .srcIterC => pd.srcMd 2
  | .dstLayer => pd.dstMd 0
  | .dstIter => pd.dstMd 1
  | .dstIterC => pd.dstMd 2

/-- Every tensor is read and written with the type of its own elements, and the elements of the results are written and
nothing else. -/
structure Meets (pd : Pd) : Prop where
  types : ∀ a ∈ pd.copyIn ++ pd.copyOut, ∀ tensor dt off, a.Accesses (.user tensor dt off) →
    dt = (pd.tensorMd tensor).dataType
  dstLayer : writtenBytes (pd.copyIn ++ pd.copyOut) .dstLayer = describedBytes (pd.dstMd 0)
  dstIter : writtenBytes (pd.copyIn ++ pd.copyOut) .dstIter = describedBytes (pd.dstMd 1)

/-- The cell states that are copied are `f32`, and states that are `u8` are not written without any that are read. -/
structure StatesTyped (pd : Pd) : Prop where
  srcIterC : pd.withSrcIter = true → pd.md.srcIterC.dataType = .f32
  dstIterC : pd.withDstIter = true → pd.md.dstIterC.dataType = .f32
  dstIter : pd.withDstIter = true → pd.md.dstIter.dataType = .u8 → pd.withSrcIter = true

theorem srcMd_one (hsrc : pd.withSrcIter = true) : pd.srcMd 1 = pd.md.srcIter := by
  simp [srcMd, hsrc]

theorem srcMd_one_absent (hsrc : ¬ pd.withSrcIter = true) : pd.srcMd 1 = zeroMd := by
  simp [srcMd, hsrc]

theorem dstMd_one (hdst : pd.withDstIter = true) : pd.dstMd 1 = pd.md.dstIter := by
  simp [dstMd, hdst]

theorem dstMd_one_absent (hdst : ¬ pd.withDstIter = true) : pd.dstMd 1 = zeroMd := by
  simp [dstMd, hdst]

theorem describedBytes_zeroMd : describedBytes zeroMd = ∅ := by
  refine Set.eq_empty_of_forall_notMem fun y hy => ?_
  obtain ⟨pos, -, hlow, hhigh⟩ := hy
  simp only [zeroMd, DataType.size, Nat.cast_zero, mul_zero] at hlow hhigh
  omega

namespace Checked

variable (h : pd.Checked)

include h

theorem srcMd_two (hsrc : pd.withSrcIter = true) : pd.srcMd 2 = pd.md.srcIterC := by
  have hpresent : pd.withSrcIterC = true := by
    unfold withSrcIter at hsrc
    rw [withSrcIterC, h.lstm, hsrc]
    rfl
  simp [srcMd, hpresent]

theorem dstMd_two (hdst : pd.withDstIter = true) : pd.dstMd 2 = pd.md.dstIterC := by
  have hpresent : pd.withDstIterC = true := by
    unfold withDstIter at hdst
    rw [withDstIterC, h.lstm, hdst]
    rfl
  simp [dstMd, hpresent]

/-- Initial states are read with their type. -/
theorem iterType_eq_src (hsrc : pd.withSrcIter = true) : pd.iterType = (pd.srcMd 1).dataType := by
  obtain ⟨dt, hdt, hs, -⟩ := h.stateTypes
  rw [iterType, hs hsrc]
  rcases hdt with rfl | rfl <;> rfl

/-- Final states are written with their type, unless they are `u8` and there are no initial ones. -/
theorem iterType_eq_dst_iff (hdst : pd.withDstIter = true) :
    pd.iterType = (pd.dstMd 1).dataType ↔ (pd.md.dstIter.dataType = .u8 → pd.withSrcIter = true) := by
  obtain ⟨dt, hdt, hs, hd⟩ := h.stateTypes
  have hmd := hd hdst
  rw [dstMd_one hdst] at hmd ⊢
  by_cases hsrc : pd.withSrcIter = true
  · refine iff_of_true ?_ fun _ => hsrc
    rw [iterType_eq_src h hsrc, hs hsrc, hmd]
  · have htype : pd.iterType = .f32 := by
      rw [iterType, srcMd_one_absent hsrc]
      rfl
    rw [htype, hmd]
    rcases hdt with rfl | rfl
    · exact iff_of_false (by decide) fun hno => hsrc (hno rfl)
    · exact iff_of_true rfl fun hno => by cases hno

theorem types_of_states
    (hstates : pd.nLayer = 0 ∨ pd.mb = 0 ∨ pd.dic = 0 ∨ pd.StatesTyped) :
    ∀ a ∈ pd.copyIn ++ pd.copyOut, ∀ tensor dt off, a.Accesses (.user tensor dt off) →
      dt = (pd.tensorMd tensor).dataType := by
  intro a ha tensor dt off hacc
  rw [h.copyIn_eq, h.copyOut_eq] at ha
  rcases List.mem_append.mp ha with ha | ha
  · obtain ⟨hsrc, hlay, hb, ⟨rfl, rfl⟩ | ⟨rfl, rfl, hdic⟩⟩ := accesses_copyInitIter ha hacc
    · exact h.iterType_eq_src hsrc
    · have htyped := hstates.resolve_left hlay.ne' |>.resolve_left hb.ne' |>.resolve_left hdic.ne'
      rw [tensorMd, h.srcMd_two hsrc, htyped.srcIterC hsrc]
  · rcases List.mem_append.mp ha with ha | ha
    · obtain ⟨rfl, rfl⟩ := accesses_copyResLayer ha hacc
      rfl
    · obtain ⟨hdst, hlay, hb, hdic, htensor⟩ := accesses_copyResIter ha hacc
      have htyped := hstates.resolve_left hlay.ne' |>.resolve_left hb.ne' |>.resolve_left hdic.ne'
      rcases htensor with ⟨rfl, rfl⟩ | ⟨rfl, rfl⟩
      · exact (h.iterType_eq_dst_iff hdst).mpr (htyped.dstIter hdst)
      · rw [tensorMd, h.dstMd_two hdst, htyped.dstIterC hdst]

theorem states_of_types (htypes : ∀ a ∈ pd.copyIn ++ pd.copyOut, ∀ tensor dt off, a.Accesses (.user tensor dt off) →
    dt = (pd.tensorMd tensor).dataType) : pd.nLayer = 0 ∨ pd.mb = 0 ∨ pd.dic = 0 ∨ pd.StatesTyped := by
  rcases Nat.eq_zero_or_pos pd.nLayer with hlay | hlay
  · exact Or.inl hlay
  rcases Nat.eq_zero_or_pos pd.mb with hb | hb
  · exact Or.inr (Or.inl hb)
  rcases Nat.eq_zero_or_pos pd.dic with hdic | hdic
  · exact Or.inr (Or.inr (Or.inl hdic))
  rw [h.copyIn_eq, h.copyOut_eq] at htypes
  refine Or.inr (Or.inr (Or.inr ⟨fun hsrc => ?_, fun hdst => ?_, fun hdst => ?_⟩))
  · obtain ⟨a, ha, off, hacc⟩ := exists_access_srcIterC hsrc h.lstm hlay h.nDir hb hdic pd.iterType
    have htype := htypes a (List.mem_append_left _ ha) _ _ _ hacc
    rw [tensorMd, h.srcMd_two hsrc] at htype
    exact htype.symm
  · obtain ⟨-, a, ha, off, hacc⟩ := exists_access_dstIter hdst h.lstm hlay h.nDir hb hdic pd.iterType
    have htype := htypes a (List.mem_append_right _ (List.mem_append_right _ ha)) _ _ _ hacc
    rw [tensorMd, h.dstMd_two hdst] at htype
    exact htype.symm
  · obtain ⟨⟨a, ha, off, hacc⟩, -⟩ := exists_access_dstIter hdst h.lstm hlay h.nDir hb hdic pd.iterType
    exact (h.iterType_eq_dst_iff hdst).mp (htypes a (List.mem_append_right _ (List.mem_append_right _ ha)) _ _ _ hacc)

theorem writtenBytes_dstLayer : writtenBytes (pd.copyIn ++ pd.copyOut) .dstLayer = describedBytes (pd.dstMd 0) := by
  obtain ⟨hit, hb, hs⟩ := h.layerDims
  rw [h.copyIn_eq, h.copyOut_eq, writtenBytes_append, writtenBytes_append, writtenBytes_copyInitIter,
    writtenBytes_copyResLayer h.layer.stride, writtenBytes_copyResIter_dstLayer, Set.empty_union, Set.union_empty,
    h.layer.describedBytes_layer, hit, hb, hs]

theorem writtenBytes_dstIter (hstates : pd.nLayer = 0 ∨ pd.mb = 0 ∨ pd.dic = 0 ∨ pd.StatesTyped) :
    writtenBytes (pd.copyIn ++ pd.copyOut) .dstIter = describedBytes (pd.dstMd 1) := by
  rw [h.copyIn_eq, h.copyOut_eq, writtenBytes_append, writtenBytes_append, writtenBytes_copyInitIter,
    writtenBytes_copyResLayer_dstIter, writtenBytes_copyResIter, Set.empty_union, Set.empty_union]
  by_cases hdst : pd.withDstIter = true
  · obtain ⟨hlay, hdir, hb, hs⟩ := h.iterDims hdst
    have htype : ∀ {lay b s : ℕ}, lay < pd.nLayer → b < pd.mb → s < pd.dic → pd.iterType = (pd.dstMd 1).dataType := by
      intro lay b s hlay hb hs
      have htyped := hstates.resolve_left (by omega) |>.resolve_left (by omega) |>.resolve_left (by omega)
      exact (h.iterType_eq_dst_iff hdst).mpr (htyped.dstIter hdst)
    rw [(h.iter hdst).describedBytes_states, hlay, hdir, hb, hs]
    ext y
    constructor
    · rintro ⟨-, lay, hlay, dir, hdir, b, hb, s, hs, hy⟩
      rw [htype hlay hb hs] at hy
      exact ⟨lay, hlay, dir, hdir, b, hb, s, hs, hy⟩
    · rintro ⟨lay, hlay, dir, hdir, b, hb, s, hs, hy⟩
      rw [← htype hlay hb hs] at hy
      exact ⟨hdst, lay, hlay, dir, hdir, b, hb, s, hs, hy⟩
  · rw [dstMd_one_absent hdst, describedBytes_zeroMd]
    exact Set.eq_empty_of_forall_notMem fun y hy => hdst hy.1

theorem meets_iff_states : pd.Meets ↔ pd.nLayer = 0 ∨ pd.mb = 0 ∨ pd.dic = 0 ∨ pd.StatesTyped :=
  ⟨fun hmeets => h.states_of_types hmeets.types,
    fun hstates => ⟨h.types_of_states hstates, h.writtenBytes_dstLayer, h.writtenBytes_dstIter hstates⟩⟩

end Checked

end Pd

/-! ## The descriptor is checked -/

section

variable {p : Params} {t : Tensors (Option MemoryDesc)} {pd : Pd} {md md' : MemoryDesc} {tag : FormatTag}

theorem copyMaybeNull_raw (md : Option MemoryDesc) : copyMaybeNull (md.map MemoryDesc.raw) = (md.getD zeroMd).raw := by
  cases md with
  | none => rfl
  | some md => rfl

theorem isZeroMd_raw (md : Option MemoryDesc) : isZeroMd (md.map MemoryDesc.raw) = (md.getD zeroMd).isZero := by
  rw [isZeroMd_eq, copyMaybeNull_raw]
  simp [isZero, MemoryDesc.isZero, MemoryDesc.raw]

theorem hasType_raw {dts : List DataType} {md : Option MemoryDesc} : hasType dts (md.map MemoryDesc.raw) = true ↔
    ((md.getD zeroMd).isZero = false → (md.getD zeroMd).dataType ∈ dts) := by
  rw [hasType, isZeroMd_raw, copyMaybeNull_raw]
  cases (md.getD zeroMd).isZero with
  | false => simp [MemoryDesc.raw]
  | true => simp

theorem setDefault_of_isZero (h : setDefault md tag = .ok md') (hzero : md.ndims = 0) : md'.ndims = 0 := by
  unfold setDefault at h
  split_ifs at h with hany
  · unfold memoryDescInitByTag at h
    rw [if_pos (Or.inl hzero)] at h
    obtain rfl := Except.ok.inj h
    rfl
  · obtain rfl := Except.ok.inj h
    exact hzero

theorem setDefault_ok (h : setDefault md tag = .ok md') (htag : tag = .abc ∨ tag = .abcd) (hndims : md.ndims ≠ 0) :
    md'.ndims = md.ndims ∧ (∀ d < md.ndims, md'.dims d = md.dims d) ∧ md'.dataType = md.dataType ∧
      ((md.formatKind = .blocked → md.Built) → md'.formatKind = .blocked → md'.Built) := by
  unfold setDefault at h
  by_cases hany : md.formatKind = .any
  · rw [if_pos hany] at h
    have hkind : tag.kind = .blocked := by
      rcases htag with rfl | rfl <;> rfl
    have hblocked : md'.formatKind = .blocked := by
      have hinit := h
      have hnone : ¬(md.ndims = 0 ∨ tag = .undef) := by
        rintro (hzero | rfl)
        · exact hndims hzero
        · rcases htag with h | h <;> cases h
      have hne : tag ≠ .any := by
        rcases htag with rfl | rfl <;> decide
      simp only [memoryDescInitByTag, if_neg hnone, if_neg hne, if_pos hkind] at hinit
      split_ifs at hinit
      obtain ⟨-, args, -, -, -, hfill⟩ := computeBlocking_cases hinit
      rw [(fillBlocked_fields hfill).2.2.2.1]
      exact hkind
    obtain ⟨-, hblk⟩ := memoryDescInitByTag_cases h hblocked
    obtain ⟨-, args, -, -, -, hfill⟩ := computeBlocking_cases hblk
    obtain ⟨hn, hdims, hdt, -⟩ := fillBlocked_fields hfill
    refine ⟨hn, fun d hd => ?_, hdt, fun _ _ => .whole (Or.inl ⟨_, _, _, _, h, hblocked⟩)⟩
    rw [hdims]
    exact (if_pos hd).trans (Int.toNat_natCast _)
  · rw [if_neg hany] at h
    obtain rfl := Except.ok.inj h
    exact ⟨rfl, fun _ _ => rfl, rfl, fun hbuilt hk => hbuilt hk⟩

theorem isBlocked_iff {n : ℕ} : isBlocked md n = true ↔
    md.formatKind = .blocked ∧ md.ndims = n ∧ md.blocking.strides (md.ndims - 1) = 1 := by
  simp only [isBlocked, Bool.and_eq_true, decide_eq_true_eq, and_assoc]

/-- The parts of a primitive descriptor that is created. -/
theorem createPd_ok (h : createPd p t = .ok pd) : FwdChecks p (t.map (Option.map MemoryDesc.raw)) ∧ pd.cellKind = p.cellKind ∧
    pd.direction = p.direction ∧ pd.desc = t.map (·.getD zeroMd) ∧ layoutsOk pd.md = true ∧
    setDefault pd.desc.srcLayer .abc = .ok pd.md.srcLayer ∧ setDefault pd.desc.dstLayer .abc = .ok pd.md.dstLayer ∧
    (pd.withSrcIter = true → setDefault pd.desc.srcIter .abcd = .ok pd.md.srcIter) ∧
    (pd.withDstIter = true → setDefault pd.desc.dstIter .abcd = .ok pd.md.dstIter) ∧
    pd.md.weightsLayer = pd.desc.weightsLayer := by
  simp only [createPd, bind_eq_ok] at h
  obtain ⟨rd, hrd, md, hmd, h⟩ := h
  split_ifs at h with hlayouts
  obtain rfl := Except.ok.inj h
  simp only [setDefaultParams, bind_eq_ok] at hmd
  obtain ⟨srcLayer, hsrcLayer, dstLayer, hdstLayer, srcIter, hsrcIter, srcIterC, -, bias, -, dstIter, hdstIter, dstIterC, -,
    hmd⟩ := hmd
  obtain rfl := Except.ok.inj hmd
  refine ⟨(rnnCommonFwdDescInit_eq_ok.mp hrd).1, rfl, rfl, rfl, hlayouts, hsrcLayer, hdstLayer, fun hsrc => ?_,
    fun hdst => ?_, rfl⟩
  · have hpresent : (!(t.map fun md : Option MemoryDesc => md.getD zeroMd).srcIter.isZero) = true := hsrc
    rwa [setDefaultIf, if_pos hpresent] at hsrcIter
  · have hpresent : (!(t.map fun md : Option MemoryDesc => md.getD zeroMd).dstIter.isZero) = true := hdst
    rwa [setDefaultIf, if_pos hpresent] at hdstIter

/-- The types of an int8 descriptor. -/
theorem types_of_checks (hchecks : FwdChecks p (t.map (Option.map MemoryDesc.raw)))
    (hint8 : (t.srcLayer.getD zeroMd).dataType = .u8) : p.cellKind = .vanillaLstm ∧
      ((t.dstLayer.getD zeroMd).dataType = .u8 ∨ (t.dstLayer.getD zeroMd).dataType = .f32) ∧
      ∃ dt : DataType, (dt = .u8 ∨ dt = .f32) ∧
        ((t.srcIter.getD zeroMd).isZero = false → (t.srcIter.getD zeroMd).dataType = dt) ∧
        ((t.dstIter.getD zeroMd).isZero = false → (t.dstIter.getD zeroMd).dataType = dt) := by
  have htypes := hchecks.types
  simp only [checkDataTypeConsistencyFwd] at htypes
  split_ifs at htypes with h
  have hno : ∀ dt : DataType, dt ≠ .u8 → isFloat dt (t.map (Option.map MemoryDesc.raw)) = false := by
    intro dt hdt
    have hne : (copyMaybeNull (t.map (Option.map MemoryDesc.raw)).srcLayer).dataType ≠ dt := by
      rw [show (t.map (Option.map MemoryDesc.raw)).srcLayer = t.srcLayer.map MemoryDesc.raw from rfl, copyMaybeNull_raw]
      exact fun heq => hdt (heq.symm.trans hint8)
    simp [isFloat, hne]
  rw [hno .f32 (by decide), hno .f16 (by decide)] at h
  simp only [Bool.and_eq_true, Bool.or_eq_true, Bool.false_or, decide_eq_true_eq] at h
  obtain ⟨-, ⟨hint, hlstm⟩, _⟩ := h
  refine ⟨hlstm, ?_⟩
  rcases hint with h | h
  · simp only [isU8u8u8, Tensors.map, copyMaybeNull_raw, hasType_raw, Bool.and_eq_true, decide_eq_true_eq,
      List.contains_iff_mem, List.mem_cons, List.not_mem_nil, or_false, MemoryDesc.raw] at h
    obtain ⟨⟨⟨⟨⟨⟨⟨⟨-, hsrc⟩, -⟩, hdst⟩, -⟩, hlayer⟩, -⟩, -⟩, -⟩ := h
    exact ⟨hlayer, .u8, Or.inl rfl, hsrc, hdst⟩
  · simp only [isF32u8f32, Tensors.map, copyMaybeNull_raw, hasType_raw, Bool.and_eq_true, decide_eq_true_eq,
      List.contains_iff_mem, List.mem_cons, List.not_mem_nil, or_false, MemoryDesc.raw] at h
    obtain ⟨⟨⟨⟨⟨⟨-, hsrc⟩, hdst⟩, hlayer⟩, -⟩, -⟩, -⟩ := h
    exact ⟨hlayer, .f32, Or.inr rfl, hsrc, hdst⟩

/-- Twice a number of channels that fits does not wrap around to a number of channels. -/
theorem eq_two_mul_of_toInt {x y : ℕ} (hx : (x : ℤ) = DescInit.toInt x) (h : DescInit.toInt (2 * (x : ℤ)) = y) :
    y = 2 * x := by
  simp only [DescInit.toInt, Int.bmod_def] at hx h
  omega

/-- The dimensions of the descriptors, as the checks relate them. -/
theorem dims_of_checks (hchecks : FwdChecks p (t.map (Option.map MemoryDesc.raw))) :
    0 < (t.weightsLayer.getD zeroMd).dims 1 ∧
      (t.dstLayer.getD zeroMd).dims 0 = (t.srcLayer.getD zeroMd).dims 0 ∧
      (t.dstLayer.getD zeroMd).dims 1 = (t.srcLayer.getD zeroMd).dims 1 ∧
      (t.dstLayer.getD zeroMd).dims 2 = (if p.direction = .bidirectionalConcat then 2 * (t.weightsLayer.getD zeroMd).dims 4
        else (t.weightsLayer.getD zeroMd).dims 4) ∧
      ((t.dstIter.getD zeroMd).isZero = false →
        (t.dstIter.getD zeroMd).dims 0 = (t.weightsLayer.getD zeroMd).dims 0 ∧
        (t.dstIter.getD zeroMd).dims 1 = (t.weightsLayer.getD zeroMd).dims 1 ∧
        (t.dstIter.getD zeroMd).dims 2 = (t.srcLayer.getD zeroMd).dims 1 ∧
        (t.dstIter.getD zeroMd).dims 3 = (t.weightsLayer.getD zeroMd).dims 4) := by
  obtain ⟨hdims, -, -, hDLC, -, -⟩ := checkDimConsistency_ok hchecks.dims
  obtain ⟨hL, hD, -, -, hDIC⟩ := hasDims_five.mp hdims.weightsLayer
  obtain ⟨hT, hN, -⟩ := hasDims_three.mp hdims.srcLayer
  obtain ⟨hT', hN', hDLC'⟩ := hasDims_three.mp hdims.dstLayer
  have hiter := hdims.dstIter
  rw [HasDimsIfPresent] at hiter
  simp only [hasDims_four] at hiter
  simp only [sizes, Tensors.map, copyMaybeNull_raw, isZeroMd_raw, MemoryDesc.raw] at *
  rw [← hL, ← hDIC, ← hN, ← hD] at hiter
  rw [← hDIC, ← hDLC'] at hDLC
  refine ⟨?_, by rwa [← hT, Nat.cast_inj] at hT', by rwa [← hN, Nat.cast_inj] at hN', ?_, ?_⟩
  · have hpos : 0 < numDirections p.direction := by
      cases p.direction <;> decide
    rw [← hD] at hpos
    exact Nat.cast_pos.mp hpos
  · unfold dlcMultiplier at hDLC
    split_ifs at hDLC ⊢ with hconcat
    · exact eq_two_mul_of_toInt hDIC hDLC
    · rw [one_mul, ← hDIC, Nat.cast_inj] at hDLC
      exact hDLC.symm
  · simpa only [Nat.cast_inj] using hiter

/-- The descriptors of the results that are blocked are built. -/
def ResultsBuilt (t : Tensors (Option MemoryDesc)) : Prop :=
  ∀ md, t.dstLayer = some md ∨ t.dstIter = some md → md.formatKind = .blocked → md.Built

theorem built_of_results (h : ResultsBuilt t) {o : Option MemoryDesc} (ho : o = t.dstLayer ∨ o = t.dstIter) :
    (o.getD zeroMd).formatKind = .blocked → (o.getD zeroMd).Built := by
  cases o with
  | none => exact fun hk => by cases hk
  | some md => exact h md (ho.imp Eq.symm Eq.symm)

/-- The default of a descriptor that is blocked. -/
theorem setDefault_blocked (h : setDefault md tag = .ok md') (htag : tag = .abc ∨ tag = .abcd) {n : ℕ} (hn : n ≠ 0)
    (hblocked : isBlocked md' n = true) : ((md.formatKind = .blocked → md.Built) → md'.Contiguous n) ∧
      (∀ d < n, md'.dims d = md.dims d) ∧ md'.dataType = md.dataType := by
  obtain ⟨hk, hndims, hstride⟩ := isBlocked_iff.mp hblocked
  have hne : md.ndims ≠ 0 := fun hzero => hn (hndims.symm.trans (setDefault_of_isZero h hzero))
  obtain ⟨hsame, hdims, hdt, hb⟩ := setDefault_ok h htag hne
  have hmd : md.ndims = n := hsame.symm.trans hndims
  exact ⟨fun hbuilt => ⟨hb hbuilt hk, hk, hndims, hndims ▸ hstride⟩, fun d hd => hdims d (hmd ▸ hd), hdt⟩

/-- The states that are present are blocked. -/
theorem isBlocked_of_present (h : setDefault md .abcd = .ok md') (hmd : md.isZero = false)
    (hlayout : md'.isZero = true ∨ isBlocked md' 4 = true) : isBlocked md' 4 = true := by
  refine hlayout.resolve_left fun hzero => ?_
  have hne : md.ndims ≠ 0 := of_decide_eq_false hmd
  exact hne ((setDefault_ok h (Or.inr rfl) hne).1.symm.trans (of_decide_eq_true hzero))

/-- The descriptor of an int8 cell that is created is checked. -/
theorem checked_of_createPd (hcreate : createPd p t = .ok pd) (hint8 : (pd.srcMd 0).dataType = .u8)
    (hbuilt : ResultsBuilt t) : pd.Checked := by
  obtain ⟨hchecks, hcell, hdir, hdesc, hlayouts, hsrcLayer, hdstLayer, hsrcIter, hdstIter, hweights⟩ := createPd_ok hcreate
  simp only [layoutsOk, Bool.and_eq_true, Bool.or_eq_true] at hlayouts
  obtain ⟨⟨⟨⟨⟨⟨hblkSrc, hblkDst⟩, hblkSrcIter⟩, -⟩, hblkIter⟩, -⟩, -⟩ := hlayouts
  obtain ⟨-, hsrcDims, hsrcType⟩ := setDefault_blocked hsrcLayer (Or.inl rfl) (by decide) hblkSrc
  obtain ⟨hdst, hdstDims, hdstType⟩ := setDefault_blocked hdstLayer (Or.inl rfl) (by decide) hblkDst
  have hiter : pd.withDstIter = true → (t.dstIter.getD zeroMd).isZero = false ∧ pd.md.dstIter.Contiguous 4 ∧
      (∀ d < 4, pd.md.dstIter.dims d = pd.desc.dstIter.dims d) ∧ pd.md.dstIter.dataType = pd.desc.dstIter.dataType := by
    intro hpresent
    have hmd : pd.desc.dstIter.isZero = false := by simpa [Pd.withDstIter] using hpresent
    have hdefault := hdstIter hpresent
    obtain ⟨hcontiguous, hdims, htype⟩ := setDefault_blocked hdefault (Or.inr rfl) (by decide)
      (isBlocked_of_present hdefault hmd hblkIter)
    rw [hdesc] at hmd hcontiguous
    exact ⟨hmd, hcontiguous (built_of_results hbuilt (Or.inr rfl)), hdims, htype⟩
  have hsrcStates : pd.withSrcIter = true → (t.srcIter.getD zeroMd).isZero = false ∧
      pd.md.srcIter.dataType = pd.desc.srcIter.dataType := by
    intro hpresent
    have hmd : pd.desc.srcIter.isZero = false := by simpa [Pd.withSrcIter] using hpresent
    have hdefault := hsrcIter hpresent
    have htype := (setDefault_blocked hdefault (Or.inr rfl) (by decide)
      (isBlocked_of_present hdefault hmd hblkSrcIter)).2.2
    rw [hdesc] at hmd
    exact ⟨hmd, htype⟩
  rw [hdesc] at hsrcDims hsrcType hdst hdstDims hdstType hiter hsrcStates hweights
  change pd.md.srcLayer.dataType = .u8 at hint8
  rw [hsrcType] at hint8
  obtain ⟨hlstm, hlayerType, dt, hdt, hsrcDt, hdstDt⟩ := types_of_checks hchecks hint8
  obtain ⟨hnDir, hT, hN, hDLC, hstates⟩ := dims_of_checks hchecks
  exact {
    srcLayer := hsrcType.trans hint8
    lstm := decide_eq_true (hcell.trans hlstm)
    layerType := by
      change pd.md.dstLayer.dataType = _ ∨ pd.md.dstLayer.dataType = _
      rw [hdstType]
      exact hlayerType
    stateTypes := by
      refine ⟨dt, hdt, fun hpresent => ?_, fun hpresent => ?_⟩
      · rw [Pd.srcMd_one hpresent, (hsrcStates hpresent).2]
        exact hsrcDt (hsrcStates hpresent).1
      · obtain ⟨hmd, -, -, htype⟩ := hiter hpresent
        rw [Pd.dstMd_one hpresent, htype]
        exact hdstDt hmd
    layer := hdst (built_of_results hbuilt (Or.inl rfl))
    layerDims := by
      have hsrcMd : pd.srcMd 0 = pd.md.srcLayer := rfl
      have hdstMd : pd.dstMd 0 = pd.md.dstLayer := rfl
      rw [Pd.nIter, Pd.mb, Pd.layerChannels, Pd.dic, hsrcMd, hdstMd, hdir, hweights, hdstDims 0 (by decide),
        hdstDims 1 (by decide), hdstDims 2 (by decide), hsrcDims 0 (by decide), hsrcDims 1 (by decide)]
      exact ⟨hT, hN, hDLC⟩
    iter := fun hpresent => by
      rw [Pd.dstMd_one hpresent]
      exact (hiter hpresent).2.1
    iterDims := fun hpresent => by
      obtain ⟨hmd, -, hdims, -⟩ := hiter hpresent
      rw [Pd.dstMd_one hpresent, hdims 0 (by decide), hdims 1 (by decide), hdims 2 (by decide), hdims 3 (by decide),
        Pd.nLayer, Pd.nDir, Pd.mb, Pd.dic, hweights, show pd.srcMd 0 = pd.md.srcLayer from rfl, hsrcDims 1 (by decide)]
      exact hstates hmd
    nDir := by
      rw [Pd.nDir, hweights]
      exact hnDir }

end

/-! ## Final states without initial states -/

/-- A descriptor in any format. -/
def anyMd (dims : List ℕ) (dt : DataType) : MemoryDesc :=
  { zeroMd with
    ndims := dims.length
    dims := fun d => dims.getD d 0
    dataType := dt
    formatKind := .any }

def int8Params : Params where
  propKind := .forwardInference
  cellKind := .vanillaLstm
  direction := .unidirectionalLeft2right
  flags := 0
  activation := .undef
  alpha := ⟨0⟩
  beta := ⟨0⟩

/-- An LSTM cell with one layer and `u8` final states, where the arguments are the initial states. -/
def int8Tensors (srcIter srcIterC : Option MemoryDesc) : Tensors (Option MemoryDesc) where
  srcLayer := some (anyMd [1, 1, 1] .u8)
  srcIter := srcIter
  srcIterC := srcIterC
  weightsLayer := some (anyMd [1, 1, 1, 4, 1] .s8)
  weightsIter := some (anyMd [1, 1, 1, 4, 1] .s8)
  bias := none
  dstLayer := some (anyMd [1, 1, 1] .u8)
  dstIter := some (anyMd [1, 1, 1, 1] .u8)
  dstIterC := some (anyMd [1, 1, 1, 1] .f32)

theorem resultsBuilt_int8Tensors (srcIter srcIterC : Option MemoryDesc) : ResultsBuilt (int8Tensors srcIter srcIterC) := by
  rintro md (h | h) hk <;>
  · obtain rfl := Option.some.inj h
    cases hk

end Rnn

end MklDnn
