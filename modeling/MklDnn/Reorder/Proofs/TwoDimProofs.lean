import Mathlib.Tactic.Linarith
import Mathlib.Tactic.Ring
import MklDnn.Reorder.Proofs.BlockStoresProofs

/-!
# Proofs: reorders from and to formats with two blocked dimensions

The kernels compute the place of an element in its block as the inner blocks of the registered formats lay it out, and the
loops run through the elements of the blocks that the padded extents have room for.
-/

open LoopNest Interleaving

namespace MklDnn.TwoDim

/-! ## The registered formats -/

/-- The inner blocks `L` lie as the kernels compute it. -/
def InnerLayout (t : TagTraits) (L : List InnerBlk) : Prop :=
  innerBlocks L (withG t).toNat = blksize0 t ∧ innerBlocks L ((withG t).toNat + 1) = blksize1 t ∧
    (∀ b ∈ L, b.idx = (withG t).toNat ∨ b.idx = (withG t).toNat + 1) ∧
    ∀ x0 < blksize0 t, ∀ x1 < blksize1 t,
      innerOff L (withG t).toNat x0 + innerOff L ((withG t).toNat + 1) x1 = abOrBcBlkOff t.innerBlks x0 x1

instance (t : TagTraits) (L : List InnerBlk) : Decidable (InnerLayout t L) := by
  unfold InnerLayout
  infer_instance

/-- What the loops rely on of a registered format. -/
structure Registered (tag : FormatTag) (t : TagTraits) : Prop where
  blockDims : t.blockDims = .AB ∨ t.blockDims = .BC
  ndims : t.ndims = 3 + (withG t).toNat ∨ t.ndims = 4 + (withG t).toNat ∨ t.ndims = 5 + (withG t).toNat
  blksize0_pos : 0 < blksize0 t ∧ blksize0 t ≤ 16
  blksize1_pos : 0 < blksize1 t ∧ blksize1 t ≤ 16
  args : (blockingArgs tag).any fun args =>
    args.perm.length = t.ndims ∧ InnerLayout t (List.zipWith InnerBlk.mk args.innerIdxs args.innerBlks)

theorem registered {tag : FormatTag} (htag : tag ∈ twoDimTags) : ∃ t, tagTraits tag = some t ∧ Registered tag t := by
  have hall : ∀ tag ∈ twoDimTags, (tagTraits tag).any fun t =>
      (t.blockDims = .AB ∨ t.blockDims = .BC) ∧
        (t.ndims = 3 + (withG t).toNat ∨ t.ndims = 4 + (withG t).toNat ∨ t.ndims = 5 + (withG t).toNat) ∧
        (0 < blksize0 t ∧ blksize0 t ≤ 16) ∧ (0 < blksize1 t ∧ blksize1 t ≤ 16) ∧
        (blockingArgs tag).any fun args =>
          args.perm.length = t.ndims ∧
            InnerLayout t (List.zipWith InnerBlk.mk args.innerIdxs args.innerBlks) := by
    decide +kernel
  have h := hall tag htag
  cases ht : tagTraits tag with
  | none =>
    rw [ht] at h
    cases h
  | some t =>
    rw [ht, Option.any_some, decide_eq_true_eq] at h
    exact ⟨t, rfl, h.1, h.2.1, h.2.2.1, h.2.2.2.1, h.2.2.2.2⟩

/-! ## Positions and counters -/

variable {t : TagTraits} {md inputD outputD : MemoryDesc} {keep : Bool}

/-- The position of an element: the counters of the parallel loops and the place in the block. -/
def place (t : TagTraits) (idx : List ℕ) (x0 x1 : ℕ) : ℕ → ℕ :=
  let m0 := idx.getD 3 0
  let m1 := idx.getD 4 0
  let m2 := idx.getD 5 0
  let blocks := [idx.getD 1 0 * blksize0 t + x0, idx.getD 2 0 * blksize1 t + x1]
  let mids := if t.ndims ≥ 5 + (withG t).toNat then [m0, m1, m2]
    else if t.ndims ≥ 4 + (withG t).toNat then [m1, m2] else [m2]
  fun d => ((if withG t then [idx.getD 0 0] else []) ++ blocks ++ mids).getD d 0

/-- The counters of the parallel loops for a position. -/
def idxOf (t : TagTraits) (pos : ℕ → ℕ) : List ℕ :=
  [if withG t then pos 0 else 0, pos (withG t).toNat / blksize0 t, pos ((withG t).toNat + 1) / blksize1 t,
    if t.ndims ≥ 5 + (withG t).toNat then pos (t.ndims - 3) else 0,
    if t.ndims ≥ 4 + (withG t).toNat then pos (t.ndims - 2) else 0, pos (t.ndims - 1)]

theorem mem_loop {idx : List ℕ} (hn : 3 + (withG t).toNat ≤ t.ndims) :
    List.Forall₂ (· < ·) idx (loopDims keep t inputD outputD) ↔ ∃ g b0 b1 m0 m1 m2, idx = [g, b0, b1, m0, m1, m2] ∧
      g < (if withG t then inputD.dims 0 else 1) ∧
      b0 < (if keep then outputD else inputD).paddedDims (withG t).toNat / blksize0 t ∧
      b1 < (if keep then outputD else inputD).paddedDims ((withG t).toNat + 1) / blksize1 t ∧
      m0 < (if t.ndims ≥ 5 + (withG t).toNat then inputD.dims (t.ndims - 3) else 1) ∧
      m1 < (if t.ndims ≥ 4 + (withG t).toNat then inputD.dims (t.ndims - 2) else 1) ∧
      m2 < inputD.dims (t.ndims - 1) := by
  unfold loopDims
  dsimp only
  rw [Nat.zero_add, Nat.add_comm 1, if_pos hn]
  simp only [List.forall₂_cons_right_iff, List.forall₂_nil_right_iff]
  constructor
  · rintro ⟨g, _, h0, ⟨b0, _, h1, ⟨b1, _, h2, ⟨m0, _, h3, ⟨m1, _, h4, ⟨m2, _, h5, rfl, rfl⟩, rfl⟩, rfl⟩, rfl⟩, rfl⟩, rfl⟩
    exact ⟨g, b0, b1, m0, m1, m2, rfl, h0, h1, h2, h3, h4, h5⟩
  · rintro ⟨g, b0, b1, m0, m1, m2, rfl, h0, h1, h2, h3, h4, h5⟩
    exact ⟨g, _, h0, ⟨b0, _, h1, ⟨b1, _, h2, ⟨m0, _, h3, ⟨m1, _, h4, ⟨m2, _, h5, rfl, rfl⟩, rfl⟩, rfl⟩, rfl⟩, rfl⟩, rfl⟩

theorem place_block0 (idx : List ℕ) (x0 x1 : ℕ) :
    place t idx x0 x1 (withG t).toNat = idx.getD 1 0 * blksize0 t + x0 := by
  cases hg : withG t <;> simp [place, hg]

theorem place_block1 (idx : List ℕ) (x0 x1 : ℕ) :
    place t idx x0 x1 ((withG t).toNat + 1) = idx.getD 2 0 * blksize1 t + x1 := by
  cases hg : withG t <;> simp [place, hg]

section Counters

variable (hn : t.ndims = 3 + (withG t).toNat ∨ t.ndims = 4 + (withG t).toNat ∨ t.ndims = 5 + (withG t).toNat)

include hn

theorem idxOf_place {idx : List ℕ} (hidx : List.Forall₂ (· < ·) idx (loopDims keep t inputD outputD)) {x0 x1 : ℕ}
    (hx0 : x0 < blksize0 t) (hx1 : x1 < blksize1 t) : idxOf t (place t idx x0 x1) = idx := by
  have hdiv : ∀ {q x b : ℕ}, x < b → (q * b + x) / b = q := fun hx => by
    rw [Nat.mul_comm, Nat.mul_add_div (by omega), Nat.div_eq_of_lt hx, Nat.add_zero]
  have hn3 : 3 + (withG t).toNat ≤ t.ndims := by omega
  obtain ⟨g, b0, b1, m0, m1, m2, rfl, h0, -, -, h1, h2, -⟩ := (mem_loop hn3).mp hidx
  cases hg : withG t <;> rw [hg] at hn h0 h1 h2 <;> rcases hn with hn | hn | hn <;> simp [hn] at h0 h1 h2 <;>
    simp [idxOf, place, hg, hn, hdiv hx0, hdiv hx1, h0, h1, h2]

/-- A position comes from its counters. -/
theorem place_idxOf {pos : ℕ → ℕ} (hpos : ∀ d, t.ndims ≤ d → pos d = 0) :
    place t (idxOf t pos) (pos (withG t).toNat % blksize0 t) (pos ((withG t).toNat + 1) % blksize1 t) = pos := by
  have hsplit0 := Nat.div_add_mod' (pos (withG t).toNat) (blksize0 t)
  have hsplit1 := Nat.div_add_mod' (pos ((withG t).toNat + 1)) (blksize1 t)
  have hcoords : place t (idxOf t pos) (pos (withG t).toNat % blksize0 t) (pos ((withG t).toNat + 1) % blksize1 t) =
      fun d => ((List.range t.ndims).map pos).getD d 0 := by
    cases hg : withG t <;> rw [hg] at hn hsplit0 hsplit1 <;> simp only [Bool.toNat_false, Bool.toNat_true] at hsplit0 hsplit1 <;>
      rcases hn with hn | hn | hn <;> simp [place, idxOf, hg, hn, hsplit0, hsplit1, List.range_succ]
  rw [hcoords, getD_map_range hpos]

/-- The counters of the positions of the tensor in a block of the loop. -/
theorem idxOf_mem {pos : ℕ → ℕ} (hpos : ∀ d < t.ndims, pos d < inputD.dims d)
    (hblock0 : pos (withG t).toNat / blksize0 t <
      (if keep then outputD else inputD).paddedDims (withG t).toNat / blksize0 t)
    (hblock1 : pos ((withG t).toNat + 1) / blksize1 t <
      (if keep then outputD else inputD).paddedDims ((withG t).toNat + 1) / blksize1 t) :
    List.Forall₂ (· < ·) (idxOf t pos) (loopDims keep t inputD outputD) := by
  have h0 := hpos 0 (by omega)
  have h1 := hpos (t.ndims - 3) (by omega)
  have h2 := hpos (t.ndims - 2) (by omega)
  have h3 := hpos (t.ndims - 1) (by omega)
  rw [mem_loop (by omega)]
  refine ⟨_, _, _, _, _, _, rfl, ?_, hblock0, hblock1, ?_, ?_, h3⟩
  · split_ifs <;> omega
  · split_ifs <;> omega
  · split_ifs <;> omega

/-- The positions of the loops are positions of the tensor. -/
theorem place_mem_box {idx : List ℕ} (hidx : List.Forall₂ (· < ·) idx (loopDims keep t inputD outputD)) {x0 x1 : ℕ}
    (hndims : inputD.ndims = t.ndims) (hblock0 : place t idx x0 x1 (withG t).toNat < inputD.dims (withG t).toNat)
    (hblock1 : place t idx x0 x1 ((withG t).toNat + 1) < inputD.dims ((withG t).toNat + 1)) :
    place t idx x0 x1 ∈ box inputD.dims inputD.ndims := by
  have hn3 : 3 + (withG t).toNat ≤ t.ndims := by omega
  obtain ⟨g, b0, b1, m0, m1, m2, rfl, h0, -, -, h3, h4, h5⟩ := (mem_loop hn3).mp hidx
  rw [place_block0] at hblock0
  rw [place_block1] at hblock1
  rw [hndims]
  -- one list of coordinates for every number of dimensions
  cases hg : withG t <;> rw [hg] at hn hblock0 hblock1 h0 h3 h4 <;> rcases hn with hn | hn | hn <;>
    simp only [hn, place, hg] at h0 h3 h4 h5 ⊢
  · exact getD_mem_box (.cons hblock0 (.cons hblock1 (.cons h5 .nil)))
  · exact getD_mem_box (.cons hblock0 (.cons hblock1 (.cons h4 (.cons h5 .nil))))
  · exact getD_mem_box (.cons hblock0 (.cons hblock1 (.cons h3 (.cons h4 (.cons h5 .nil)))))
  · exact getD_mem_box (.cons h0 (.cons hblock0 (.cons hblock1 (.cons h5 .nil))))
  · exact getD_mem_box (.cons h0 (.cons hblock0 (.cons hblock1 (.cons h4 (.cons h5 .nil)))))
  · exact getD_mem_box (.cons h0 (.cons hblock0 (.cons hblock1 (.cons h3 (.cons h4 (.cons h5 .nil))))))

end Counters

/-! ## Offsets -/

/-- A plain side of a reorder. -/
structure Flat (t : TagTraits) (md : MemoryDesc) : Prop where
  wellFormed : md.WellFormed
  ndims : md.ndims = t.ndims
  inner : md.blocking.inner = []

/-- A blocked side of a reorder. -/
structure Blocked (t : TagTraits) (md : MemoryDesc) : Prop where
  wellFormed : md.WellFormed
  ndims : md.ndims = t.ndims
  layout : InnerLayout t md.blocking.inner

theorem Flat.offV_place (h : Flat t md)
    (hn : t.ndims = 3 + (withG t).toNat ∨ t.ndims = 4 + (withG t).toNat ∨ t.ndims = 5 + (withG t).toNat)
    (g b0 b1 m0 m1 m2 x0 x1 : ℕ) :
    md.offV (place t [g, b0, b1, m0, m1, m2] x0 x1) false =
      md.blkOff (offArgs t g (blksize0 t * b0 : ℕ) (blksize1 t * b1 : ℕ) m0 m1 m2) +
        (x0 * md.blocking.strides ((withG t).toNat + 0) + x1 * md.blocking.strides ((withG t).toNat + 1)) := by
  have hdim : ∀ d y, md.dimOff d y = y * md.blocking.strides d := by
    intro d y
    simp [MemoryDesc.dimOff, h.inner, innerOff]
  rw [h.wellFormed.offV_eq, MemoryDesc.offV_padded h.wellFormed.valid, h.ndims]
  cases hg : withG t <;> rw [hg] at hn <;> rcases hn with hn | hn | hn <;>
    simp [hg, hn, place, offArgs, MemoryDesc.blkOff, hdim, Finset.sum_range_succ] <;> ring

theorem Blocked.dimOff_blocks (h : Blocked t md) {x0 x1 : ℕ} (hx0 : x0 < blksize0 t) (hx1 : x1 < blksize1 t)
    (b0 b1 : ℕ) : md.dimOff (withG t).toNat (b0 * blksize0 t + x0) +
        md.dimOff ((withG t).toNat + 1) (b1 * blksize1 t + x1) =
      b0 * md.blocking.strides (withG t).toNat + b1 * md.blocking.strides ((withG t).toNat + 1) +
        abOrBcBlkOff t.innerBlks x0 x1 := by
  obtain ⟨hB0, hB1, -, hplace⟩ := h.layout
  have hdiv : ∀ {q x b : ℕ}, x < b → (q * b + x) / b = q := fun hx => by
    rw [Nat.mul_comm, Nat.mul_add_div (by omega), Nat.div_eq_of_lt hx, Nat.add_zero]
  have h0 := innerOff_mul_add md.blocking.inner (withG t).toNat b0 x0
  have h1 := innerOff_mul_add md.blocking.inner ((withG t).toNat + 1) b1 x1
  rw [hB0] at h0
  rw [hB1] at h1
  unfold MemoryDesc.dimOff
  rw [hB0, hB1, h0, h1, hdiv hx0, hdiv hx1, ← hplace x0 hx0 x1 hx1, Nat.cast_add]
  ring

theorem Blocked.dimOff_line (h : Blocked t md) {d : ℕ} (hd0 : d ≠ (withG t).toNat) (hd1 : d ≠ (withG t).toNat + 1)
    (x : ℕ) : md.dimOff d x = x * md.blocking.strides d := by
  have hidx : ∀ b ∈ md.blocking.inner, b.idx ≠ d := by
    intro b hb heq
    rcases h.layout.2.2.1 b hb with hw | hw
    · exact hd0 (heq.symm.trans hw)
    · exact hd1 (heq.symm.trans hw)
  unfold MemoryDesc.dimOff
  rw [innerOff_of_notMem hidx, innerBlocks_of_notMem hidx, Nat.div_one, Nat.cast_zero, zero_add]

theorem Blocked.offV_place (h : Blocked t md)
    (hn : t.ndims = 3 + (withG t).toNat ∨ t.ndims = 4 + (withG t).toNat ∨ t.ndims = 5 + (withG t).toNat)
    (g b0 b1 m0 m1 m2 : ℕ) {x0 x1 : ℕ} (hx0 : x0 < blksize0 t) (hx1 : x1 < blksize1 t) :
    md.offV (place t [g, b0, b1, m0, m1, m2] x0 x1) false =
      md.blkOff (offArgs t g b0 b1 m0 m1 m2) + abOrBcBlkOff t.innerBlks x0 x1 := by
  have hblocks := h.dimOff_blocks hx0 hx1 b0 b1
  have hline := fun d hd0 hd1 y => h.dimOff_line (d := d) hd0 hd1 y
  rw [h.wellFormed.offV_eq, MemoryDesc.offV_padded h.wellFormed.valid, h.ndims]
  cases hg : withG t <;> rw [hg] at hn hblocks hline <;> rcases hn with hn | hn | hn <;>
    simp [hg, hn, place, offArgs, MemoryDesc.blkOff, Finset.sum_range_succ, hline] at hblocks ⊢ <;> linarith only [hblocks]

/-! ## Stores -/

/-- The positions of one iteration of the parallel loops. -/
def places (t : TagTraits) (inputD : MemoryDesc) (idx : List ℕ) : List (ℕ → ℕ) :=
  (List.range (blockLen (blksize0 t) (inputD.dims (withG t).toNat) (idx.getD 1 0)).toNat).flatMap fun x0 =>
    (List.range (blockLen (blksize1 t) (inputD.dims ((withG t).toNat + 1)) (idx.getD 2 0)).toNat).map (place t idx x0)

/-- The two sides of a reorder. -/
structure Sides (keep : Bool) (t : TagTraits) (inputD outputD : MemoryDesc) : Prop where
  ndims : t.ndims = 3 + (withG t).toNat ∨ t.ndims = 4 + (withG t).toNat ∨ t.ndims = 5 + (withG t).toNat
  blksize0_pos : 0 < blksize0 t
  blksize1_pos : 0 < blksize1 t
  flat : Flat t (if keep then inputD else outputD)
  blocked : Blocked t (if keep then outputD else inputD)
  paddedDims0 : (if keep then outputD else inputD).paddedDims (withG t).toNat = inputD.dims (withG t).toNat ∨
    (if keep then outputD else inputD).paddedDims (withG t).toNat = rndUp (inputD.dims (withG t).toNat) (blksize0 t)
  paddedDims1 : (if keep then outputD else inputD).paddedDims ((withG t).toNat + 1) =
      inputD.dims ((withG t).toNat + 1) ∨
    (if keep then outputD else inputD).paddedDims ((withG t).toNat + 1) =
      rndUp (inputD.dims ((withG t).toNat + 1)) (blksize1 t)

theorem Sides.ndims_input (h : Sides keep t inputD outputD) : inputD.ndims = t.ndims := by
  cases keep
  · exact h.blocked.ndims
  · exact h.flat.ndims

theorem lt_blksize {blksize H b x : ℕ} (hx : x < (blockLen blksize H b).toNat) : x < blksize := by
  have hle : blockLen blksize H b ≤ blksize := min_le_left _ _
  omega

/-- The stores of one iteration. -/
theorem Sides.body_eq (h : Sides keep t inputD outputD) (alphaIsOne betaIsZero : Bool) {idx : List ℕ}
    (hidx : List.Forall₂ (· < ·) idx (loopDims keep t inputD outputD)) :
    body keep t inputD outputD alphaIsOne betaIsZero idx = (places t inputD idx).map
      (storeAt inputD outputD (alphaIsOne && betaIsZero) fun pos => outputD.offV pos false) := by
  have hn3 : 3 + (withG t).toNat ≤ t.ndims := by have := h.ndims; omega
  obtain ⟨g, b0, b1, m0, m1, m2, rfl, -⟩ := (mem_loop hn3).mp hidx
  unfold body ker places
  dsimp only
  rw [List.map_flatMap, Nat.zero_add, Nat.add_comm 1]
  refine List.flatMap_congr fun x0 hx0 => ?_
  rw [List.map_map]
  refine List.map_congr_left fun x1 hx1 => ?_
  have hflat := h.flat.offV_place h.ndims g b0 b1 m0 m1 m2 x0 x1
  have hblock := h.blocked.offV_place h.ndims g b0 b1 m0 m1 m2 (lt_blksize (List.mem_range.mp hx0))
    (lt_blksize (List.mem_range.mp hx1))
  show _ = storeAt _ _ _ _ (place t _ x0 x1)
  unfold storeAt
  dsimp only
  cases keep
  · rw [if_neg Bool.false_ne_true] at hflat hblock
    rw [hflat, hblock]
    cases alphaIsOne && betaIsZero <;> simp
  · rw [if_pos rfl] at hflat hblock
    rw [hflat, hblock]
    cases alphaIsOne && betaIsZero <;> simp

/-- The loops run through an element. -/
def Covers (keep : Bool) (t : TagTraits) (inputD outputD : MemoryDesc) (pos : ℕ → ℕ) : Prop :=
  BlockCovers (blksize0 t) ((if keep then outputD else inputD).paddedDims (withG t).toNat) (inputD.dims (withG t).toNat)
      (pos (withG t).toNat) ∧
    BlockCovers (blksize1 t) ((if keep then outputD else inputD).paddedDims ((withG t).toNat + 1))
      (inputD.dims ((withG t).toNat + 1)) (pos ((withG t).toNat + 1))

instance (pos : ℕ → ℕ) : Decidable (Covers keep t inputD outputD pos) := inferInstanceAs (Decidable (_ ∧ _))

/-- The positions that the loops run through. -/
theorem Sides.mem_places (h : Sides keep t inputD outputD) {nthr : ℕ} (hnthr : 0 < nthr) {pos : ℕ → ℕ} :
    pos ∈ (parallelNd nthr (loopDims keep t inputD outputD)).flatMap (places t inputD) ↔
      pos ∈ box inputD.dims inputD.ndims ∧ Covers keep t inputD outputD pos := by
  have hn3 : 3 + (withG t).toNat ≤ t.ndims := by have := h.ndims; omega
  simp only [places, List.mem_flatMap, List.mem_map, List.mem_range, mem_parallelNd hnthr]
  constructor
  · rintro ⟨idx, hidx, x0, hx0, x1, hx1, rfl⟩
    obtain ⟨g, b0, b1, m0, m1, m2, rfl, -, hb0, hb1, -⟩ := (mem_loop hn3).mp hidx
    have hcovers : Covers keep t inputD outputD (place t [g, b0, b1, m0, m1, m2] x0 x1) := by
      unfold Covers
      rw [place_block0, place_block1]
      exact ⟨blockCovers_mul_add hb0 hx0, blockCovers_mul_add hb1 hx1⟩
    exact ⟨place_mem_box h.ndims hidx h.ndims_input (hcovers.1.lt h.blksize0_pos h.paddedDims0)
      (hcovers.2.lt h.blksize1_pos h.paddedDims1), hcovers⟩
  · rintro ⟨hpos, hcovers0, hcovers1⟩
    obtain ⟨hlt, hzero⟩ := mem_box.mp hpos
    rw [h.ndims_input] at hlt hzero
    have hlen0 := hcovers0.2
    have hlen1 := hcovers1.2
    refine ⟨idxOf t pos, idxOf_mem h.ndims hlt hcovers0.1 hcovers1.1, pos (withG t).toNat % blksize0 t, ?_,
      pos ((withG t).toNat + 1) % blksize1 t, ?_, place_idxOf h.ndims hzero⟩
    · show _ < (blockLen _ _ (pos (withG t).toNat / blksize0 t)).toNat
      omega
    · show _ < (blockLen _ _ (pos ((withG t).toNat + 1) / blksize1 t)).toNat
      omega

theorem Sides.nodup_places (h : Sides keep t inputD outputD) {nthr : ℕ} (hnthr : 0 < nthr) :
    ((parallelNd nthr (loopDims keep t inputD outputD)).flatMap (places t inputD)).Nodup := by
  have hmem : ∀ {idx pos}, pos ∈ places t inputD idx →
      ∃ x0 x1, x0 < blksize0 t ∧ x1 < blksize1 t ∧ pos = place t idx x0 x1 := by
    intro idx pos hpos
    unfold places at hpos
    simp only [List.mem_flatMap, List.mem_map, List.mem_range] at hpos
    obtain ⟨x0, hx0, x1, hx1, rfl⟩ := hpos
    exact ⟨x0, x1, lt_blksize hx0, lt_blksize hx1, rfl⟩
  refine List.nodup_flatMap.mpr ⟨fun idx _ => ?_, (nodup_parallelNd hnthr _).pairwise_of_forall_ne ?_⟩
  · refine List.nodup_flatMap.mpr ⟨fun x0 _ => ?_, List.nodup_range.pairwise_of_forall_ne ?_⟩
    · refine List.nodup_range.map fun x1 x1' heq => ?_
      have hx := congrFun heq ((withG t).toNat + 1)
      rw [place_block1, place_block1] at hx
      omega
    · intro x0 _ x0' _ hne pos hpos hpos'
      obtain ⟨x1, -, rfl⟩ := List.mem_map.mp hpos
      obtain ⟨x1', -, heq⟩ := List.mem_map.mp hpos'
      have hx := congrFun heq (withG t).toNat
      rw [place_block0, place_block0] at hx
      omega
  · intro idx hidx idx' hidx' hne pos hpos hpos'
    obtain ⟨x0, x1, hx0, hx1, rfl⟩ := hmem hpos
    obtain ⟨y0, y1, hy0, hy1, heq⟩ := hmem hpos'
    have hself := idxOf_place h.ndims ((mem_parallelNd hnthr).mp hidx) hx0 hx1
    have hother := idxOf_place h.ndims ((mem_parallelNd hnthr).mp hidx') hy0 hy1
    rw [heq, hother] at hself
    exact hne hself.symm

/-- The stores are those of the elements that the loops run through. -/
theorem Sides.places (h : Sides keep t inputD outputD) (alphaIsOne betaIsZero : Bool) {nthr : ℕ} (hnthr : 0 < nthr) :
    Places inputD outputD nthr (alphaIsOne && betaIsZero) (fun pos => outputD.offV pos false)
      (Covers keep t inputD outputD) (thread keep t inputD outputD alphaIsOne betaIsZero nthr) where
  idle := fun ithr hithr => by
    unfold thread
    rw [parallelNdIters_of_le hnthr _ hithr]
    rfl
  perm := by
    unfold thread
    rw [← List.flatMap_assoc, flatMap_parallelNdIters hnthr,
      List.flatMap_congr fun idx hidx => h.body_eq alphaIsOne betaIsZero ((mem_parallelNd hnthr).mp hidx),
      ← List.map_flatMap]
    refine List.Perm.map _ ((List.perm_ext_iff_of_nodup (h.nodup_places hnthr) ((nodup_box _ _).filter _)).mpr ?_)
    intro pos
    rw [h.mem_places hnthr, List.mem_filter, decide_eq_true_eq]

/-- A side that matches a registered tag. -/
theorem Registered.blocked {tag : FormatTag} (hreg : Registered tag t) (hbuilt : md.Built)
    (hmatch : md.matchesTag tag = true) : Blocked t md := by
  obtain ⟨gold, -, hk, -⟩ := MemoryDesc.matchesTag_gold hmatch
  obtain ⟨args, hargs, hlen, hinner⟩ := MemoryDesc.matchesTag_inner hmatch (hbuilt.ndims_pos hk)
  have htable := hreg.args
  rw [hargs, Option.any_some, decide_eq_true_eq] at htable
  refine ⟨hbuilt.wellFormed, hlen.symm.trans htable.1, ?_⟩
  rw [hinner]
  exact htable.2

theorem flat_of_isPlain (hbuilt : md.Built) (hplain : md.isPlain = true) (hndims : md.ndims = t.ndims) : Flat t md := by
  unfold MemoryDesc.isPlain at hplain
  rw [Bool.and_eq_true, decide_eq_true_eq] at hplain
  exact ⟨hbuilt.wellFormed, hndims, List.length_eq_zero_iff.mp hplain.2⟩

/-- The two sides of a reorder that is applicable, and the padding of its output. -/
theorem Registered.sides {tag : FormatTag} (hreg : Registered tag t) (hin : inputD.Built) (hout : outputD.Built)
    (hconsistent : inputD.consistentWith outputD = true) {attr : Option OutputScales}
    (happ : plainToBlockedIsApplicable keep tag inputD outputD attr = true) :
    Sides keep t inputD outputD ∧ ∀ pos ∈ box inputD.dims inputD.ndims,
      ∀ pos' ∈ box outputD.paddedDims outputD.ndims, pos' ∉ box outputD.dims outputD.ndims →
        outputD.offV pos false ≠ outputD.offV pos' true := by
  have hbox := MemoryDesc.box_eq_of_consistentWith hconsistent
  unfold MemoryDesc.consistentWith at hconsistent
  rw [decide_eq_true_eq] at hconsistent
  obtain ⟨hndims, hdims⟩ := hconsistent
  unfold plainToBlockedIsApplicable at happ
  rw [Bool.and_eq_true] at happ
  have hlt : (withG t).toNat + 1 < t.ndims := by have := hreg.ndims; omega
  have hpadded : ∀ {md : MemoryDesc}, md.Built → Blocked t md →
      (md.paddedDims (withG t).toNat = md.dims (withG t).toNat ∨
        md.paddedDims (withG t).toNat = rndUp (md.dims (withG t).toNat) (blksize0 t)) ∧
      (md.paddedDims ((withG t).toNat + 1) = md.dims ((withG t).toNat + 1) ∨
        md.paddedDims ((withG t).toNat + 1) = rndUp (md.dims ((withG t).toNat + 1)) (blksize1 t)) := by
    intro md hbuilt hblocked
    obtain ⟨hB0, hB1, -⟩ := hblocked.layout
    rw [← hB0, ← hB1]
    exact ⟨hbuilt.paddedDims_eq (by rw [hblocked.ndims]; omega), hbuilt.paddedDims_eq (by rw [hblocked.ndims]; omega)⟩
  cases keep
  · have hmatch := happ.2
    rw [if_neg Bool.false_ne_true, Bool.and_eq_true] at hmatch
    have hblocked := hreg.blocked hin hmatch.1
    have hflat : Flat t outputD := flat_of_isPlain hout hmatch.2 (hndims.symm.trans hblocked.ndims)
    refine ⟨⟨hreg.ndims, hreg.blksize0_pos.1, hreg.blksize1_pos.1, hflat, hblocked, (hpadded hin hblocked).1,
      (hpadded hin hblocked).2⟩, ?_⟩
    intro pos _ pos' hpos' hpadding
    have hdims' : ∀ d < outputD.ndims, outputD.paddedDims d = outputD.dims d := by
      intro d hd
      have heq := hout.paddedDims_eq hd
      rw [hflat.inner, innerBlocks_nil, rndUp_one, or_self] at heq
      exact heq
    rw [box_congr hdims'] at hpos'
    exact absurd hpos' hpadding
  · have hmatch := happ.2
    rw [if_pos rfl, Bool.and_eq_true] at hmatch
    have hblocked := hreg.blocked hout hmatch.1
    have hndims' : inputD.ndims = t.ndims := hndims.trans hblocked.ndims
    have hdims' : ∀ d < t.ndims, outputD.dims d = inputD.dims d := fun d hd => (hdims d (by omega)).symm
    have hpadded' := hpadded hout hblocked
    rw [hdims' _ hlt, hdims' _ (by omega)] at hpadded'
    refine ⟨⟨hreg.ndims, hreg.blksize0_pos.1, hreg.blksize1_pos.1, flat_of_isPlain hin hmatch.2 hndims', hblocked,
      hpadded'.1, hpadded'.2⟩, ?_⟩
    intro pos hpos pos' hpos' hpadding heq
    rw [← hbox] at hpos
    obtain ⟨hltd, hzero⟩ := mem_box.mp hpos
    have hmem : pos ∈ box outputD.paddedDims outputD.ndims :=
      mem_box.mpr ⟨fun d hd => (hltd d hd).trans_le (hout.wellFormed.dims_le d hd), hzero⟩
    rw [hout.wellFormed.offV_eq] at heq
    have hsame := hout.matchesTag_injOn hmatch.1 hmem hpos' heq
    exact hpadding (hsame ▸ hpos)

/-! ## The reorder -/

/-- A reorder with a format that has two blocked dimensions moves every element once between its offsets on the two sides and
leaves the padding alone if and only if the tensor has no element, or the type `int` holds the extents of the two blocked
dimensions and these are padded to whole blocks. -/
theorem movesOnce_iff {tag : FormatTag} (htag : tag ∈ twoDimTags) (ht : tagTraits tag = some t) (hin : inputD.Built)
    (hout : outputD.Built) (hconsistent : inputD.consistentWith outputD = true) {attr : Option OutputScales}
    (happ : plainToBlockedIsApplicable keep tag inputD outputD attr = true) (alphaIsOne betaIsZero : Bool) {nthr : ℕ}
    (hnthr : 0 < nthr) :
    MovesOnce inputD outputD (alphaIsOne && betaIsZero)
        ((List.range nthr).flatMap (thread keep t inputD outputD alphaIsOne betaIsZero nthr)) ↔
      inputD.hasZeroDim = true ∨
        inputD.dims (withG t).toNat < 2 ^ 31 ∧ inputD.dims ((withG t).toNat + 1) < 2 ^ 31 ∧
          blksize0 t ∣ (if keep then outputD else inputD).paddedDims (withG t).toNat ∧
          blksize1 t ∣ (if keep then outputD else inputD).paddedDims ((withG t).toNat + 1) := by
  obtain ⟨t', ht', hreg⟩ := registered htag
  obtain rfl : t = t' := Option.some.inj (ht.symm.trans ht')
  obtain ⟨h, hpadding⟩ := hreg.sides hin hout hconsistent happ
  have hplaces := h.places alphaIsOne betaIsZero hnthr
  have hlt : (withG t).toNat + 1 < inputD.ndims := by
    have := h.ndims
    rw [h.ndims_input]
    omega
  have hle0 : blksize0 t ≤ 2 ^ 31 := hreg.blksize0_pos.2.trans (by omega)
  have hle1 : blksize1 t ≤ 2 ^ 31 := hreg.blksize1_pos.2.trans (by omega)
  constructor
  · intro hmoves
    rw [or_iff_not_imp_left]
    intro hzero
    have hpos : ∀ d < inputD.ndims, 0 < inputD.dims d := fun d hd => MemoryDesc.dims_pos (Bool.not_eq_true _ ▸ hzero) hd
    have hcovers : ∀ {d x}, d < inputD.ndims → x < inputD.dims d →
        Covers keep t inputD outputD (Function.update (fun _ => 0) d x) :=
      fun hd hx => hplaces.covers_of_movesOnce hmoves (update_mem_box hpos hd hx)
    have hblocks0 := fun x (hx : x < inputD.dims (withG t).toNat) => (hcovers (by omega) hx).1
    have hblocks1 := fun x (hx : x < inputD.dims ((withG t).toNat + 1)) => (hcovers hlt hx).2
    simp only [Function.update_self] at hblocks0 hblocks1
    obtain ⟨hH0, hdvd0⟩ := (forall_blockCovers_iff h.blksize0_pos hle0 (hpos _ (by omega)) h.paddedDims0).mp hblocks0
    obtain ⟨hH1, hdvd1⟩ := (forall_blockCovers_iff h.blksize1_pos hle1 (hpos _ hlt) h.paddedDims1).mp hblocks1
    exact ⟨hH0, hH1, hdvd0, hdvd1⟩
  · rintro (hzero | ⟨hH0, hH1, hdvd0, hdvd1⟩)
    · refine hplaces.movesOnce (fun pos hpos => ?_) hpadding
      rw [(MemoryDesc.hasZeroDim_iff (by omega)).mp hzero] at hpos
      cases hpos
    · refine hplaces.movesOnce (fun pos hpos => ?_) hpadding
      have hlt0 := (mem_box.mp hpos).1 (withG t).toNat (by omega)
      have hlt1 := (mem_box.mp hpos).1 ((withG t).toNat + 1) hlt
      exact ⟨(forall_blockCovers_iff h.blksize0_pos hle0 (by omega) h.paddedDims0).mpr ⟨hH0, hdvd0⟩ _ hlt0,
        (forall_blockCovers_iff h.blksize1_pos hle1 (by omega) h.paddedDims1).mpr ⟨hH1, hdvd1⟩ _ hlt1⟩

/-- Twelve of sixteen and twenty of thirty-two channels. -/
theorem movesOnce_iff_ABcd4b16a4b : ∃ inputD outputD,
    memoryDescInitByTag 4 (fun d => [12, 20, 3, 3].getD d 0) .s8 .abcd = .ok inputD ∧
    memoryDescInitByTag 4 (fun d => [12, 20, 3, 3].getD d 0) .s8 .ABcd4b16a4b = .ok outputD ∧
    (MovesOnce inputD outputD true
        ((List.range 4).flatMap (thread true ⟨.AB, ._4b16a4b, 4⟩ inputD outputD true true 4)) ↔
      inputD.hasZeroDim = true ∨
        inputD.dims 0 < 2 ^ 31 ∧ inputD.dims 1 < 2 ^ 31 ∧ 16 ∣ outputD.paddedDims 0 ∧ 16 ∣ outputD.paddedDims 1) := by
  have hall : (memoryDescInitByTag 4 (fun d => [12, 20, 3, 3].getD d 0) .s8 .abcd).toOption.any (fun inputD =>
      (memoryDescInitByTag 4 (fun d => [12, 20, 3, 3].getD d 0) .s8 .ABcd4b16a4b).toOption.any fun outputD =>
        decide (inputD.formatKind = .blocked) && decide (outputD.formatKind = .blocked) &&
          inputD.consistentWith outputD && plainToBlockedIsApplicable true .ABcd4b16a4b inputD outputD none) = true := by
    decide +kernel
  obtain ⟨inputD, hinput, hrest⟩ := Checks.exists_ok_of_any hall
  obtain ⟨outputD, houtput, hrest⟩ := Checks.exists_ok_of_any hrest
  simp only [Bool.and_eq_true, decide_eq_true_eq] at hrest
  obtain ⟨⟨⟨hkin, hkout⟩, hconsistent⟩, happ⟩ := hrest
  exact ⟨inputD, outputD, hinput, houtput, movesOnce_iff (by decide) rfl
    (.whole (Or.inl ⟨_, _, _, _, hinput, hkin⟩)) (.whole (Or.inl ⟨_, _, _, _, houtput, hkout⟩)) hconsistent happ true true
    (by decide)⟩

/-- The first four of sixteen rows of blocks of eight rows: the part has room for no block, and nothing is moved. -/
theorem not_movesOnce_ABcd8b8a : ∃ whole inputD outputD,
    memoryDescInitByTag 4 (fun d => [16, 8, 1, 1].getD d 0) .f32 .ABcd8b8a = .ok whole ∧
    memoryDescInitSubmemory whole (fun d => [4, 8, 1, 1].getD d 0) (fun _ => 0) = .ok outputD ∧
    memoryDescInitByTag 4 (fun d => [4, 8, 1, 1].getD d 0) .f32 .abcd = .ok inputD ∧
    inputD.consistentWith outputD = true ∧ plainToBlockedIsApplicable true .ABcd8b8a inputD outputD none = true ∧
    ¬ MovesOnce inputD outputD true
      ((List.range 1).flatMap (thread true ⟨.AB, ._8b8a, 4⟩ inputD outputD true true 1)) := by
  have hall : (memoryDescInitByTag 4 (fun d => [16, 8, 1, 1].getD d 0) .f32 .ABcd8b8a).toOption.any (fun whole =>
      (memoryDescInitSubmemory whole (fun d => [4, 8, 1, 1].getD d 0) (fun _ => 0)).toOption.any fun outputD =>
        (memoryDescInitByTag 4 (fun d => [4, 8, 1, 1].getD d 0) .f32 .abcd).toOption.any fun inputD =>
          inputD.consistentWith outputD && plainToBlockedIsApplicable true .ABcd8b8a inputD outputD none &&
            decide ((List.range 1).flatMap (thread true ⟨.AB, ._8b8a, 4⟩ inputD outputD true true 1) = []) &&
            decide (inputD.nelems false = 32)) = true := by
    decide +kernel
  obtain ⟨whole, hwhole, hrest⟩ := Checks.exists_ok_of_any hall
  obtain ⟨outputD, houtput, hrest⟩ := Checks.exists_ok_of_any hrest
  obtain ⟨inputD, hinput, hrest⟩ := Checks.exists_ok_of_any hrest
  simp only [Bool.and_eq_true, decide_eq_true_eq] at hrest
  obtain ⟨⟨⟨hconsistent, happ⟩, hstores⟩, hnelems⟩ := hrest
  refine ⟨whole, inputD, outputD, hwhole, houtput, hinput, hconsistent, happ, fun hmoves => ?_⟩
  have hlen := hmoves.perm.length_eq
  rw [hstores, List.map_nil, List.length_nil, List.length_map, length_box] at hlen
  unfold MemoryDesc.nelems at hnelems
  rw [if_neg Bool.false_ne_true, ← hlen] at hnelems
  split_ifs at hnelems

end MklDnn.TwoDim
