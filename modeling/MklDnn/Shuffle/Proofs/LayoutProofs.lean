import Mathlib.Data.Set.Function
import Mathlib.Tactic.LinearCombination
import Mathlib.Tactic.Ring
import MklDnn.Common.Proofs.UtilsProofs
import MklDnn.Memory.Proofs.BuiltProofs
import MklDnn.Memory.Proofs.TagsProofs
import MklDnn.Shuffle.RefShuffle

/-!
# Proofs: the table of indices

`rev_transposed_` is the transposition of a matrix, and the table of the opposite direction is its inverse.
-/

open LoopNest

namespace MklDnn

open PrimitiveHashing

namespace ShuffleDesc

variable {sd sd' : ShuffleDesc}

/-! ## Accepted descriptors -/

/-- What `shuffle_desc_init` checks. -/
structure Accepted (sd : ShuffleDesc) : Prop where
  axis : sd.axis < sd.dataDesc.ndims
  groupSize : 0 < sd.groupSize
  le : sd.groupSize ≤ sd.axisSize
  dvd : sd.groupSize ∣ sd.axisSize

theorem init_accepted {propKind : PropKind} {md : MemoryDesc} {axis groupSize : ℤ}
    (h : shuffleDescInit propKind md axis groupSize = .ok sd) : sd.Accepted ∧ sd.dataDesc = md := by
  unfold shuffleDescInit at h
  split_ifs at h with hargs hdvd
  rw [not_not] at hdvd
  obtain ⟨-, haxis, hlt, hpos, hle⟩ := hargs
  obtain rfl := Except.ok.inj h
  have hcast : ((groupSize.toNat : ℕ) : ℤ) = groupSize := Int.toNat_of_nonneg hpos.le
  refine ⟨⟨?_, ?_, ?_, ?_⟩, rfl⟩
  · show axis.toNat < md.ndims
    omega
  · show 0 < groupSize.toNat
    omega
  · show groupSize.toNat ≤ md.dims axis.toNat
    omega
  · show groupSize.toNat ∣ md.dims axis.toNat
    have hz := Int.dvd_of_emod_eq_zero hdvd
    rw [← hcast] at hz
    exact_mod_cast hz

/-- The shuffle in the opposite direction. -/
structure Opposite (sd sd' : ShuffleDesc) : Prop where
  dataDesc : sd'.dataDesc = sd.dataDesc
  axis : sd'.axis = sd.axis
  isFwd : sd'.isFwd = !sd.isFwd

theorem Opposite.axisSize (h : sd.Opposite sd') : sd'.axisSize = sd.axisSize := by
  unfold ShuffleDesc.axisSize
  rw [h.dataDesc, h.axis]

/-! ## The matrix -/

theorem Accepted.col_mul_row (h : sd.Accepted) : sd.transposeCol * sd.transposeRow = sd.axisSize := by
  unfold transposeCol transposeRow
  split_ifs
  · exact Nat.div_mul_cancel h.dvd
  · exact Nat.mul_div_cancel' h.dvd

theorem Accepted.axisSize_pos (h : sd.Accepted) : 0 < sd.axisSize := lt_of_lt_of_le h.groupSize h.le

theorem Accepted.col_pos (h : sd.Accepted) : 0 < sd.transposeCol := by
  apply Nat.pos_of_ne_zero
  intro hzero
  have hsize := h.col_mul_row
  have hpos := h.axisSize_pos
  rw [hzero, zero_mul] at hsize
  omega

theorem Accepted.row_pos (h : sd.Accepted) : 0 < sd.transposeRow := by
  apply Nat.pos_of_ne_zero
  intro hzero
  have hsize := h.col_mul_row
  have hpos := h.axisSize_pos
  rw [hzero, mul_zero] at hsize
  omega

/-- An entry of the table. -/
theorem Accepted.revTransposed_eq (h : sd.Accepted) {a : ℕ} (ha : a < sd.axisSize) :
    sd.revTransposed a = a % sd.transposeCol * sd.transposeRow + a / sd.transposeCol := by
  have hcol := h.col_pos
  have hrow : a / sd.transposeCol < sd.transposeRow := by
    apply Nat.div_lt_of_lt_mul
    rw [h.col_mul_row]
    exact ha
  unfold revTransposed
  apply applyWrites_of_mem
  · intro w hw w' hw' heq
    simp only [List.mem_flatMap, List.mem_map, List.mem_range] at hw hw'
    obtain ⟨i, hi, j, hj, rfl⟩ := hw
    obtain ⟨i', hi', j', hj', rfl⟩ := hw'
    have heq' : i + j * sd.transposeCol = i' + j' * sd.transposeCol := by
      rw [add_comm i, add_comm i']
      exact heq
    obtain ⟨rfl, rfl⟩ := add_mul_inj hi hi' heq'
    rfl
  · simp only [List.mem_flatMap, List.mem_map, List.mem_range]
    refine ⟨a % sd.transposeCol, Nat.mod_lt _ hcol, a / sd.transposeCol, hrow, ?_⟩
    rw [Nat.div_add_mod']

theorem Accepted.revTransposed_lt (h : sd.Accepted) {a : ℕ} (ha : a < sd.axisSize) : sd.revTransposed a < sd.axisSize := by
  have hrow : a / sd.transposeCol < sd.transposeRow := by
    apply Nat.div_lt_of_lt_mul
    rw [h.col_mul_row]
    exact ha
  rw [h.revTransposed_eq ha, ← h.col_mul_row, add_comm]
  exact add_mul_lt hrow (Nat.mod_lt _ h.col_pos)

/-- Two tables with rows and columns exchanged undo each other. -/
theorem Accepted.revTransposed_cancel (h : sd.Accepted) (h' : sd'.Accepted) (hrow : sd'.transposeRow = sd.transposeCol)
    (hcol : sd'.transposeCol = sd.transposeRow) {a : ℕ} (ha : a < sd.axisSize) :
    sd'.revTransposed (sd.revTransposed a) = a := by
  have hsize : sd'.axisSize = sd.axisSize := by
    rw [← h.col_mul_row, ← h'.col_mul_row, hrow, hcol, mul_comm]
  have hlt : a / sd.transposeCol < sd.transposeRow := by
    apply Nat.div_lt_of_lt_mul
    rw [h.col_mul_row]
    exact ha
  have hrev := h.revTransposed_lt ha
  rw [← hsize] at hrev
  have hquot : (a / sd.transposeCol + a % sd.transposeCol * sd.transposeRow) / sd.transposeRow = a % sd.transposeCol := by
    rw [Nat.add_mul_div_right _ _ h.row_pos, Nat.div_eq_of_lt hlt, zero_add]
  have hrem : (a / sd.transposeCol + a % sd.transposeCol * sd.transposeRow) % sd.transposeRow = a / sd.transposeCol := by
    rw [Nat.add_mul_mod_self_right, Nat.mod_eq_of_lt hlt]
  rw [h'.revTransposed_eq hrev, h.revTransposed_eq ha, hrow, hcol, add_comm (a % sd.transposeCol * sd.transposeRow), hrem,
    hquot, Nat.div_add_mod']

theorem Opposite.transpose (h : sd.Opposite sd') (hgroup : sd'.groupSize = sd.groupSize) :
    sd'.transposeRow = sd.transposeCol ∧ sd'.transposeCol = sd.transposeRow := by
  unfold transposeRow transposeCol
  rw [h.isFwd, h.axisSize, hgroup]
  cases sd.isFwd
  · exact ⟨rfl, rfl⟩
  · exact ⟨rfl, rfl⟩

/-- The group size of the opposite direction exchanges rows and columns once more. -/
theorem Opposite.transpose_div (h : sd.Opposite sd') (hacc : sd.Accepted)
    (hgroup : sd'.groupSize = sd.axisSize / sd.groupSize) :
    sd'.transposeRow = sd.transposeRow ∧ sd'.transposeCol = sd.transposeCol := by
  have hdiv : sd.axisSize / (sd.axisSize / sd.groupSize) = sd.groupSize :=
    Nat.div_div_self hacc.dvd hacc.axisSize_pos.ne'
  unfold transposeRow transposeCol
  rw [h.isFwd, h.axisSize, hgroup, hdiv]
  cases sd.isFwd
  · exact ⟨rfl, rfl⟩
  · exact ⟨rfl, rfl⟩

/-- The table is a permutation of the axis. -/
theorem Accepted.bijOn_revTransposed (h : sd.Accepted) :
    Set.BijOn sd.revTransposed (Set.Iio sd.axisSize) (Set.Iio sd.axisSize) := by
  -- the table of the opposite direction
  obtain ⟨kind, hkind⟩ : ∃ kind : PropKind, decide (kind ∈ [PropKind.forwardTraining, .forwardInference]) = !sd.isFwd := by
    cases sd.isFwd
    · exact ⟨.forwardTraining, rfl⟩
    · exact ⟨.backwardData, rfl⟩
  let sd' : ShuffleDesc := ⟨kind, sd.dataDesc, sd.axis, sd.groupSize⟩
  have hopp : sd.Opposite sd' := ⟨rfl, rfl, hkind⟩
  have hacc : sd'.Accepted := ⟨h.axis, h.groupSize, h.le, h.dvd⟩
  obtain ⟨hrow, hcol⟩ := hopp.transpose rfl
  have hinv : Set.InvOn sd'.revTransposed sd.revTransposed (Set.Iio sd.axisSize) (Set.Iio sd.axisSize) :=
    ⟨fun a ha => h.revTransposed_cancel hacc hrow hcol ha, fun a ha => hacc.revTransposed_cancel h hcol.symm hrow.symm ha⟩
  exact hinv.bijOn (fun a ha => h.revTransposed_lt ha) fun a ha => hacc.revTransposed_lt ha

/-- Shuffles of the same matrix make the same moves. -/
theorem execute_congr (hdata : sd'.dataDesc = sd.dataDesc) (haxis : sd'.axis = sd.axis)
    (hrow : sd'.transposeRow = sd.transposeRow) (hcol : sd'.transposeCol = sd.transposeCol) :
    sd'.execute = sd.execute := by
  have hrev : sd'.revTransposed = sd.revTransposed := by
    unfold revTransposed
    rw [hrow, hcol]
  unfold execute executeAny executeBlocked executeLast executePlain datTag axisSize SP D H W MB C
  simp only [hdata, haxis, hrev]

end ShuffleDesc

end MklDnn

/-!
## Proofs: the layouts with a branch of their own

In the layouts that `execute_` singles out, the offset of an element is the sum of a term of the image, a term of the channel
and a multiple of the position in the image.
-/

open LoopNest

namespace MklDnn

namespace ShuffleDesc

variable {sd : ShuffleDesc}

/-! ## Places -/

/-- The number of elements behind one entry of the axis. -/
def innerSize (sd : ShuffleDesc) : ℕ := ∏ d ∈ Finset.Ico (sd.axis + 1) sd.dataDesc.ndims, sd.dataDesc.dims d

/-- The number of elements ahead of the axis. -/
def outerSize (sd : ShuffleDesc) : ℕ := ∏ d ∈ Finset.range sd.axis, sd.dataDesc.dims d

/-- The offset of an element: outer place, entry of the axis, inner place. -/
def place (sd : ShuffleDesc) (ou a i : ℕ) : ℤ := sd.dataDesc.offL ((ou * sd.axisSize + a) * sd.innerSize + i) false

theorem executeAny_eq (sd : ShuffleDesc) : sd.executeAny =
    (List.range sd.outerSize).flatMap fun ou => (List.range sd.axisSize).flatMap fun a => (List.range sd.innerSize).map fun i =>
      (sd.place ou a i, sd.place ou (sd.revTransposed a) i) := by
  have hoff : ∀ ou a i : ℕ, ou * (sd.axisSize * sd.innerSize) + i + a * sd.innerSize =
      (ou * sd.axisSize + a) * sd.innerSize + i := by
    intro ou a i
    ring
  have hinner : ∏ d ∈ Finset.Ico (sd.axis + 1) sd.dataDesc.ndims, sd.dataDesc.dims d = sd.innerSize := rfl
  unfold executeAny place
  simp only [hinner, hoff]
  rfl

/-- A tensor as the source sees it when the axis is the channel: images, channels, positions. -/
structure Planar (sd : ShuffleDesc) : Prop where
  axis : sd.axis = 1
  ndims : sd.dataDesc.ndims = 4 ∨ sd.dataDesc.ndims = 5

theorem Planar.sizes (h : sd.Planar) : sd.outerSize = sd.MB ∧ sd.axisSize = sd.C ∧ sd.innerSize = sd.SP := by
  unfold outerSize axisSize innerSize MB C SP D H W
  rw [h.axis]
  rcases h.ndims with hn | hn
  · simp [hn, Finset.prod_Ico_succ_top]
  · simp [hn, Finset.prod_Ico_succ_top, mul_assoc]

/-- The coordinates of an element, in four dimensions. -/
theorem rowMajor_four {dims : ℕ → ℕ} {mb c sp : ℕ} (hmb : mb < dims 0) (hc : c < dims 1) (hsp : sp < dims 2 * dims 3) :
    rowMajor dims 4 ((mb * dims 1 + c) * (dims 2 * dims 3) + sp) 0 = mb ∧
    rowMajor dims 4 ((mb * dims 1 + c) * (dims 2 * dims 3) + sp) 1 = c ∧
    rowMajor dims 4 ((mb * dims 1 + c) * (dims 2 * dims 3) + sp) 2 * dims 3 +
      rowMajor dims 4 ((mb * dims 1 + c) * (dims 2 * dims 3) + sp) 3 = sp := by
  have hw : 0 < dims 3 := Nat.pos_of_ne_zero fun h => by rw [h, mul_zero] at hsp; exact Nat.not_lt_zero _ hsp
  have hh : sp / dims 3 < dims 2 := Nat.div_lt_of_lt_mul (by rw [mul_comm]; exact hsp)
  have hplace : (mb * dims 1 + c) * (dims 2 * dims 3) + sp =
      (((0 * dims 0 + mb) * dims 1 + c) * dims 2 + sp / dims 3) * dims 3 + sp % dims 3 := by
    have hsplit := Nat.div_add_mod' sp (dims 3)
    calc (mb * dims 1 + c) * (dims 2 * dims 3) + sp
        = (mb * dims 1 + c) * (dims 2 * dims 3) + (sp / dims 3 * dims 3 + sp % dims 3) := by rw [hsplit]
      _ = _ := by ring
  rw [hplace, rowMajor_succ_mul_add dims 3 _ (Nat.mod_lt _ hw), rowMajor_succ_mul_add dims 2 _ hh,
    rowMajor_succ_mul_add dims 1 _ hc, rowMajor_succ_mul_add dims 0 _ hmb]
  simp [Function.update, Nat.div_add_mod']

/-- The coordinates of an element, in five dimensions. -/
theorem rowMajor_five {dims : ℕ → ℕ} {mb c sp : ℕ} (hmb : mb < dims 0) (hc : c < dims 1)
    (hsp : sp < dims 2 * (dims 3 * dims 4)) :
    rowMajor dims 5 ((mb * dims 1 + c) * (dims 2 * (dims 3 * dims 4)) + sp) 0 = mb ∧
    rowMajor dims 5 ((mb * dims 1 + c) * (dims 2 * (dims 3 * dims 4)) + sp) 1 = c ∧
    (rowMajor dims 5 ((mb * dims 1 + c) * (dims 2 * (dims 3 * dims 4)) + sp) 2 * dims 3 +
      rowMajor dims 5 ((mb * dims 1 + c) * (dims 2 * (dims 3 * dims 4)) + sp) 3) * dims 4 +
        rowMajor dims 5 ((mb * dims 1 + c) * (dims 2 * (dims 3 * dims 4)) + sp) 4 = sp := by
  have hwpos : 0 < dims 4 := Nat.pos_of_ne_zero fun h => by rw [h, mul_zero, mul_zero] at hsp; exact Nat.not_lt_zero _ hsp
  have hhpos : 0 < dims 3 := Nat.pos_of_ne_zero fun h => by rw [h, zero_mul, mul_zero] at hsp; exact Nat.not_lt_zero _ hsp
  have hrow : sp / dims 4 < dims 2 * dims 3 := Nat.div_lt_of_lt_mul (by rw [mul_comm, mul_assoc]; exact hsp)
  have hd : sp / dims 4 / dims 3 < dims 2 := Nat.div_lt_of_lt_mul (by rw [mul_comm]; exact hrow)
  have hplace : (mb * dims 1 + c) * (dims 2 * (dims 3 * dims 4)) + sp =
      ((((0 * dims 0 + mb) * dims 1 + c) * dims 2 + sp / dims 4 / dims 3) * dims 3 + sp / dims 4 % dims 3) * dims 4 +
        sp % dims 4 := by
    have hsplit := Nat.div_add_mod' sp (dims 4)
    have hsplit' := Nat.div_add_mod' (sp / dims 4) (dims 3)
    calc (mb * dims 1 + c) * (dims 2 * (dims 3 * dims 4)) + sp
        = (mb * dims 1 + c) * (dims 2 * (dims 3 * dims 4)) +
            ((sp / dims 4 / dims 3 * dims 3 + sp / dims 4 % dims 3) * dims 4 + sp % dims 4) := by rw [hsplit', hsplit]
      _ = _ := by ring
  rw [hplace, rowMajor_succ_mul_add dims 4 _ (Nat.mod_lt _ hwpos), rowMajor_succ_mul_add dims 3 _ (Nat.mod_lt _ hhpos),
    rowMajor_succ_mul_add dims 2 _ hd, rowMajor_succ_mul_add dims 1 _ hc, rowMajor_succ_mul_add dims 0 _ hmb]
  simp [Function.update, Nat.div_add_mod']

/-! ## Offsets -/

/-- The offset of an element splits into a term of the image, of the channel and of the position. -/
def SplitsAs (sd : ShuffleDesc) (channel : ℕ → ℕ) (step : ℕ) : Prop :=
  ∀ mb c sp, mb < sd.MB → c < sd.C → sp < sd.SP →
    sd.place mb c sp = sd.dataDesc.offset0 + (mb * sd.dataDesc.blocking.strides 0 + channel c + (sp * step : ℕ))

/-- The term of a channel in blocks. -/
def blockedChannel (sd : ShuffleDesc) (blksize c : ℕ) : ℕ := c / blksize * sd.SP * blksize + c % blksize

section Tags

variable (hwf : sd.dataDesc.WellFormed) (haxis : sd.axis = 1)

include hwf haxis

/-- The offset of an element of a tensor of four dimensions. -/
theorem place_four (hn : sd.dataDesc.ndims = 4) {channel : ℕ → ℕ} {step : ℕ}
    (hspatial : ∀ c h w, sd.dataDesc.dimOff 1 c + sd.dataDesc.dimOff 2 h + sd.dataDesc.dimOff 3 w =
      channel c + ((h * sd.dataDesc.dims 3 + w) * step : ℕ))
    (hmb0 : ∀ mb, sd.dataDesc.dimOff 0 mb = mb * sd.dataDesc.blocking.strides 0) : sd.SplitsAs channel step := by
  intro mb c sp hmb hc hsp
  have hsizes := (Planar.mk haxis (Or.inl hn)).sizes
  have hC : sd.C = sd.dataDesc.dims 1 := by
    unfold C
    rw [if_pos (by omega)]
  have hSP : sd.SP = sd.dataDesc.dims 2 * sd.dataDesc.dims 3 := by
    unfold SP D H W
    simp [hn]
  rw [hC] at hc
  rw [hSP] at hsp
  obtain ⟨h0, h1, h2⟩ := rowMajor_four hmb hc hsp
  have hplace : (mb * sd.axisSize + c) * sd.innerSize + sp =
      (mb * sd.dataDesc.dims 1 + c) * (sd.dataDesc.dims 2 * sd.dataDesc.dims 3) + sp := by
    rw [hsizes.2.1, hsizes.2.2, hC, hSP]
  unfold place
  rw [hplace, hwf.offL_eq, hn, Finset.sum_range_succ, Finset.sum_range_succ, Finset.sum_range_succ, Finset.sum_range_one,
    h0, h1, hmb0, add_assoc (_ + _), add_assoc, ← add_assoc (sd.dataDesc.dimOff 1 c), hspatial, h2]
  ring

theorem place_five (hn : sd.dataDesc.ndims = 5) {channel : ℕ → ℕ} {step : ℕ}
    (hspatial : ∀ c d h w, sd.dataDesc.dimOff 1 c + sd.dataDesc.dimOff 2 d + sd.dataDesc.dimOff 3 h +
      sd.dataDesc.dimOff 4 w = channel c + (((d * sd.dataDesc.dims 3 + h) * sd.dataDesc.dims 4 + w) * step : ℕ))
    (hmb0 : ∀ mb, sd.dataDesc.dimOff 0 mb = mb * sd.dataDesc.blocking.strides 0) : sd.SplitsAs channel step := by
  intro mb c sp hmb hc hsp
  have hsizes := (Planar.mk haxis (Or.inr hn)).sizes
  have hC : sd.C = sd.dataDesc.dims 1 := by
    unfold C
    rw [if_pos (by omega)]
  have hSP : sd.SP = sd.dataDesc.dims 2 * (sd.dataDesc.dims 3 * sd.dataDesc.dims 4) := by
    unfold SP D H W
    simp [hn]
  rw [hC] at hc
  rw [hSP] at hsp
  obtain ⟨h0, h1, h2⟩ := rowMajor_five hmb hc hsp
  have hplace : (mb * sd.axisSize + c) * sd.innerSize + sp =
      (mb * sd.dataDesc.dims 1 + c) * (sd.dataDesc.dims 2 * (sd.dataDesc.dims 3 * sd.dataDesc.dims 4)) + sp := by
    rw [hsizes.2.1, hsizes.2.2, hC, hSP]
  unfold place
  rw [hplace, hwf.offL_eq, hn, Finset.sum_range_succ, Finset.sum_range_succ, Finset.sum_range_succ, Finset.sum_range_succ,
    Finset.sum_range_one, h0, h1, hmb0]
  have hsum := hspatial c (rowMajor sd.dataDesc.dims 5 ((mb * sd.dataDesc.dims 1 + c) *
    (sd.dataDesc.dims 2 * (sd.dataDesc.dims 3 * sd.dataDesc.dims 4)) + sp) 2) (rowMajor sd.dataDesc.dims 5
      ((mb * sd.dataDesc.dims 1 + c) * (sd.dataDesc.dims 2 * (sd.dataDesc.dims 3 * sd.dataDesc.dims 4)) + sp) 3)
        (rowMajor sd.dataDesc.dims 5 ((mb * sd.dataDesc.dims 1 + c) *
          (sd.dataDesc.dims 2 * (sd.dataDesc.dims 3 * sd.dataDesc.dims 4)) + sp) 4)
  rw [h2] at hsum
  linear_combination hsum

/-! ## Tags -/

/-- `nChw16c`, `nChw8c`, `nCdhw16c` and `nCdhw8c`. -/
theorem splitsAs_blocked {B : ℕ} (hinner : sd.dataDesc.blocking.inner = [⟨1, B⟩])
    (hn : sd.dataDesc.ndims = 4 ∨ sd.dataDesc.ndims = 5)
    (hstrides : DenseStrides (fun d => divUp (sd.dataDesc.dims d) (innerBlocks sd.dataDesc.blocking.inner d))
      sd.dataDesc.blocking.strides (blockSize sd.dataDesc.blocking.inner) (List.range sd.dataDesc.ndims)) :
    sd.SplitsAs (sd.blockedChannel B) B := by
  have hblocks : ∀ d, d ≠ 1 → divUp (sd.dataDesc.dims d) (innerBlocks sd.dataDesc.blocking.inner d) = sd.dataDesc.dims d := by
    intro d hd
    simp [hinner, innerBlocks, hd]
  have hsize : blockSize sd.dataDesc.blocking.inner = B := by
    simp [hinner, blockSize]
  rw [hsize] at hstrides
  have h0 : ∀ mb, sd.dataDesc.dimOff 0 mb = mb * sd.dataDesc.blocking.strides 0 := by
    intro mb
    rw [MemoryDesc.dimOff_of_channels hinner, if_neg Nat.zero_ne_one]
  rcases hn with hn | hn
  · rw [hn] at hstrides
    obtain ⟨-, h1, h2, h3, -⟩ := hstrides
    simp only [List.map_cons, List.map_nil, List.prod_cons, List.prod_nil, hblocks 2 (by omega), hblocks 3 (by omega)]
      at h1 h2 h3
    refine place_four hwf haxis hn (fun c h w => ?_) h0
    have hSP : sd.SP = sd.dataDesc.dims 2 * sd.dataDesc.dims 3 := by
      unfold SP D H W
      simp [hn]
    simp only [MemoryDesc.dimOff_of_channels hinner, h1, h2, h3, blockedChannel, hSP]
    push_cast
    ring
  · rw [hn] at hstrides
    obtain ⟨-, h1, h2, h3, h4, -⟩ := hstrides
    simp only [List.map_cons, List.map_nil, List.prod_cons, List.prod_nil, hblocks 2 (by omega), hblocks 3 (by omega),
      hblocks 4 (by omega)] at h1 h2 h3 h4
    refine place_five hwf haxis hn (fun c d h w => ?_) h0
    have hSP : sd.SP = sd.dataDesc.dims 2 * (sd.dataDesc.dims 3 * sd.dataDesc.dims 4) := by
      unfold SP D H W
      simp [hn]
    simp only [MemoryDesc.dimOff_of_channels hinner, h1, h2, h3, h4, blockedChannel, hSP]
    push_cast
    ring

/-- `nchw` and `ncdhw`. -/
theorem splitsAs_plain (hinner : sd.dataDesc.blocking.inner = []) (hn : sd.dataDesc.ndims = 4 ∨ sd.dataDesc.ndims = 5)
    (hstrides : DenseStrides (fun d => divUp (sd.dataDesc.dims d) (innerBlocks sd.dataDesc.blocking.inner d))
      sd.dataDesc.blocking.strides (blockSize sd.dataDesc.blocking.inner) (List.range sd.dataDesc.ndims)) :
    sd.SplitsAs (fun c => c * sd.SP) 1 := by
  have hblocks : ∀ d, divUp (sd.dataDesc.dims d) (innerBlocks sd.dataDesc.blocking.inner d) = sd.dataDesc.dims d := by
    intro d
    simp [hinner, innerBlocks]
  have hsize : blockSize sd.dataDesc.blocking.inner = 1 := by
    simp [hinner, blockSize]
  rw [hsize] at hstrides
  simp only [hblocks] at hstrides
  rcases hn with hn | hn
  · rw [hn] at hstrides
    obtain ⟨-, h1, h2, h3, -⟩ := hstrides
    simp only [List.map_cons, List.map_nil, List.prod_cons, List.prod_nil] at h1 h2 h3
    refine place_four hwf haxis hn (fun c h w => ?_) (MemoryDesc.dimOff_of_plain hinner 0)
    have hSP : sd.SP = sd.dataDesc.dims 2 * sd.dataDesc.dims 3 := by
      unfold SP D H W
      simp [hn]
    simp only [MemoryDesc.dimOff_of_plain hinner, h1, h2, h3, hSP]
    push_cast
    ring
  · rw [hn] at hstrides
    obtain ⟨-, h1, h2, h3, h4, -⟩ := hstrides
    simp only [List.map_cons, List.map_nil, List.prod_cons, List.prod_nil] at h1 h2 h3 h4
    refine place_five hwf haxis hn (fun c d h w => ?_) (MemoryDesc.dimOff_of_plain hinner 0)
    have hSP : sd.SP = sd.dataDesc.dims 2 * (sd.dataDesc.dims 3 * sd.dataDesc.dims 4) := by
      unfold SP D H W
      simp [hn]
    simp only [MemoryDesc.dimOff_of_plain hinner, h1, h2, h3, h4, hSP]
    push_cast
    ring

/-- `nhwc` and `ndhwc`. -/
theorem splitsAs_last (hinner : sd.dataDesc.blocking.inner = []) (hn : sd.dataDesc.ndims = 4 ∨ sd.dataDesc.ndims = 5)
    (hstrides : DenseStrides (fun d => divUp (sd.dataDesc.dims d) (innerBlocks sd.dataDesc.blocking.inner d))
      sd.dataDesc.blocking.strides (blockSize sd.dataDesc.blocking.inner)
        (if sd.dataDesc.ndims = 4 then [0, 2, 3, 1] else [0, 2, 3, 4, 1])) :
    sd.SplitsAs (fun c => c) sd.C := by
  have hblocks : ∀ d, divUp (sd.dataDesc.dims d) (innerBlocks sd.dataDesc.blocking.inner d) = sd.dataDesc.dims d := by
    intro d
    simp [hinner, innerBlocks]
  have hsize : blockSize sd.dataDesc.blocking.inner = 1 := by
    simp [hinner, blockSize]
  have hC : sd.C = sd.dataDesc.dims 1 := by
    unfold C
    rw [if_pos (by omega)]
  rw [hsize] at hstrides
  simp only [hblocks] at hstrides
  rw [hC]
  rcases hn with hn | hn
  · rw [if_pos hn] at hstrides
    obtain ⟨-, h2, h3, h1, -⟩ := hstrides
    simp only [List.map_cons, List.map_nil, List.prod_cons, List.prod_nil] at h1 h2 h3
    refine place_four hwf haxis hn (fun c h w => ?_) (MemoryDesc.dimOff_of_plain hinner 0)
    simp only [MemoryDesc.dimOff_of_plain hinner, h1, h2, h3]
    push_cast
    ring
  · rw [if_neg (by omega)] at hstrides
    obtain ⟨-, h2, h3, h4, h1, -⟩ := hstrides
    simp only [List.map_cons, List.map_nil, List.prod_cons, List.prod_nil] at h1 h2 h3 h4
    refine place_five hwf haxis hn (fun c d h w => ?_) (MemoryDesc.dimOff_of_plain hinner 0)
    simp only [MemoryDesc.dimOff_of_plain hinner, h1, h2, h3, h4]
    push_cast
    ring

end Tags

end ShuffleDesc

end MklDnn
