import Mathlib.Tactic.Ring
import MklDnn.Reorder.Proofs.BlockStoresProofs

/-!
# Proofs: reorders from and to formats with one blocked dimension

The loops run through the elements of the blocks that the padded extent has room for. The general variant of the loops to a
blocked format reads the old values in lines of `blksize` elements, whatever the stride of a line is.
-/

open LoopNest Interleaving

namespace MklDnn.OneDim

/-! ## The registered formats -/

/-- What the loops rely on of a registered format. -/
structure Registered (tag : FormatTag) (t : TagTraits) : Prop where
  blockDims : t.blockDims = .A ∨ t.blockDims = .B
  ndims : t.ndims = 3 ∨ t.ndims = 4 ∨ t.ndims = 5 ∨ t.ndims = 6
  blksize_pos : 0 < blksize t
  blksize_le : blksize t ≤ 16
  args : (blockingArgs tag).any fun args =>
    args.perm.length = t.ndims ∧ List.zipWith InnerBlk.mk args.innerIdxs args.innerBlks = [⟨blkIdx t, blksize t⟩]

theorem registered {tag : FormatTag} (htag : tag ∈ oneDimTags) : ∃ t, tagTraits tag = some t ∧ Registered tag t := by
  have hall : ∀ tag ∈ oneDimTags, (tagTraits tag).any fun t =>
      (t.blockDims = .A ∨ t.blockDims = .B) ∧ (t.ndims = 3 ∨ t.ndims = 4 ∨ t.ndims = 5 ∨ t.ndims = 6) ∧
        0 < blksize t ∧ blksize t ≤ 16 ∧ (blockingArgs tag).any fun args =>
          args.perm.length = t.ndims ∧
            List.zipWith InnerBlk.mk args.innerIdxs args.innerBlks = [⟨blkIdx t, blksize t⟩] := by
    decide +kernel
  have h := hall tag htag
  cases ht : tagTraits tag with
  | none =>
    rw [ht] at h
    cases h
  | some t =>
    rw [ht, Option.any_some, decide_eq_true_eq] at h
    exact ⟨t, rfl, h.1, h.2.1, h.2.2.1, h.2.2.2.1, h.2.2.2.2⟩

/-! ## Positions and counters -/

variable {t : TagTraits} {md inputD outputD : MemoryDesc} {keep : Bool}

/-- The position of an element: the counters of the parallel loops, the line and the place in the block. -/
def place (t : TagTraits) (idx : List ℕ) (l x : ℕ) : ℕ → ℕ :=
  let x0 := idx.getD 0 0
  let x1 := idx.getD 1 0
  let m0 := idx.getD 2 0
  let m1 := idx.getD 3 0
  let m2 := idx.getD 4 0
  let outer := if blkIdx t = 0 then [x0 * blksize t + x, x1] else [x0, x1 * blksize t + x]
  let mids := if t.ndims ≥ 6 then [m0, m1, m2] else if t.ndims ≥ 5 then [m1, m2] else if t.ndims ≥ 4 then [m2] else []
  fun d => (outer ++ mids ++ [l]).getD d 0

/-- The counters of the parallel loops for a position. -/
def idxOf (t : TagTraits) (pos : ℕ → ℕ) : List ℕ :=
  (if blkIdx t = 0 then [pos 0 / blksize t, pos 1] else [pos 0, pos 1 / blksize t]) ++
    if t.ndims ≥ 6 then [pos 2, pos 3, pos 4] else if t.ndims ≥ 5 then [0, pos 2, pos 3]
    else if t.ndims ≥ 4 then [0, 0, pos 2] else [0, 0, 0]

theorem blkIdx_cases (t : TagTraits) : blkIdx t = 0 ∨ blkIdx t = 1 := by
  unfold blkIdx
  split_ifs
  · exact Or.inl rfl
  · exact Or.inr rfl

theorem place_block (idx : List ℕ) (l x : ℕ) :
    place t idx l x (blkIdx t) = idx.getD (blkIdx t) 0 * blksize t + x := by
  rcases blkIdx_cases t with hb | hb <;> simp [place, hb]

theorem mem_loop {idx : List ℕ} : List.Forall₂ (· < ·) idx (loopDims keep t inputD outputD) ↔
    ∃ x0 x1 m0 m1 m2, idx = [x0, x1, m0, m1, m2] ∧
      x0 < (if blkIdx t = 0 then (if keep then outputD else inputD).paddedDims 0 / blksize t else inputD.dims 0) ∧
      x1 < (if blkIdx t = 0 then inputD.dims 1 else (if keep then outputD else inputD).paddedDims 1 / blksize t) ∧
      m0 < (if t.ndims ≥ 6 then inputD.dims (t.ndims - 4) else 1) ∧
      m1 < (if t.ndims ≥ 5 then inputD.dims (t.ndims - 3) else 1) ∧
      m2 < (if t.ndims ≥ 4 then inputD.dims (t.ndims - 2) else 1) := by
  have hdims : loopDims keep t inputD outputD =
      [if blkIdx t = 0 then (if keep then outputD else inputD).paddedDims 0 / blksize t else inputD.dims 0,
        if blkIdx t = 0 then inputD.dims 1 else (if keep then outputD else inputD).paddedDims 1 / blksize t,
        if t.ndims ≥ 6 then inputD.dims (t.ndims - 4) else 1, if t.ndims ≥ 5 then inputD.dims (t.ndims - 3) else 1,
        if t.ndims ≥ 4 then inputD.dims (t.ndims - 2) else 1] := by
    unfold loopDims
    split_ifs <;> rfl
  rw [hdims]
  simp only [List.forall₂_cons_right_iff, List.forall₂_nil_right_iff]
  constructor
  · rintro ⟨x0, _, h0, ⟨x1, _, h1, ⟨m0, _, h2, ⟨m1, _, h3, ⟨m2, _, h4, rfl, rfl⟩, rfl⟩, rfl⟩, rfl⟩, rfl⟩
    exact ⟨x0, x1, m0, m1, m2, rfl, h0, h1, h2, h3, h4⟩
  · rintro ⟨x0, x1, m0, m1, m2, rfl, h0, h1, h2, h3, h4⟩
    exact ⟨x0, _, h0, ⟨x1, _, h1, ⟨m0, _, h2, ⟨m1, _, h3, ⟨m2, _, h4, rfl, rfl⟩, rfl⟩, rfl⟩, rfl⟩, rfl⟩

/-- The counter of the blocks. -/
theorem getD_lt {idx : List ℕ} (hidx : List.Forall₂ (· < ·) idx (loopDims keep t inputD outputD)) :
    idx.getD (blkIdx t) 0 < (if keep then outputD else inputD).paddedDims (blkIdx t) / blksize t := by
  obtain ⟨x0, x1, m0, m1, m2, rfl, h0, h1, -⟩ := mem_loop.mp hidx
  rcases blkIdx_cases t with hb | hb
  · rw [if_pos hb] at h0
    rw [hb]
    exact h0
  · have hb0 : ¬ blkIdx t = 0 := by omega
    rw [if_neg hb0] at h1
    rw [hb]
    exact h1

section Counters

variable (hn : t.ndims = 3 ∨ t.ndims = 4 ∨ t.ndims = 5 ∨ t.ndims = 6)

include hn

theorem place_line (idx : List ℕ) (l x : ℕ) : place t idx l x (t.ndims - 1) = l := by
  rcases blkIdx_cases t with hb | hb <;> rcases hn with hn | hn | hn | hn <;> simp [place, hb, hn]

theorem idxOf_place {idx : List ℕ} (hidx : List.Forall₂ (· < ·) idx (loopDims keep t inputD outputD)) (l : ℕ) {x : ℕ}
    (hx : x < blksize t) : idxOf t (place t idx l x) = idx := by
  have hdiv : ∀ q, (q * blksize t + x) / blksize t = q := fun q => by
    rw [Nat.mul_comm, Nat.mul_add_div (by omega), Nat.div_eq_of_lt hx, Nat.add_zero]
  obtain ⟨x0, x1, m0, m1, m2, rfl, -, -, h0, h1, h2⟩ := mem_loop.mp hidx
  rcases hn with hn | hn | hn | hn <;> simp [hn] at h0 h1 h2 <;> rcases blkIdx_cases t with hb | hb <;>
    simp [idxOf, place, hb, hn, hdiv, h0, h1, h2]

/-- A position comes from its counters. -/
theorem place_idxOf {pos : ℕ → ℕ} (hpos : ∀ d, t.ndims ≤ d → pos d = 0) :
    place t (idxOf t pos) (pos (t.ndims - 1)) (pos (blkIdx t) % blksize t) = pos := by
  have hsplit := Nat.div_add_mod' (pos (blkIdx t)) (blksize t)
  have hcoords : place t (idxOf t pos) (pos (t.ndims - 1)) (pos (blkIdx t) % blksize t) =
      fun d => ((List.range t.ndims).map pos).getD d 0 := by
    rcases blkIdx_cases t with hb | hb <;> rw [hb] at hsplit <;> rcases hn with hn | hn | hn | hn <;>
      simp [place, idxOf, hb, hn, hsplit, List.range_succ]
  rw [hcoords, getD_map_range hpos]

/-- The counters of the positions of the tensor in a block of the loop. -/
theorem idxOf_mem {pos : ℕ → ℕ} (hpos : ∀ d < t.ndims, pos d < inputD.dims d)
    (hblock : pos (blkIdx t) / blksize t < (if keep then outputD else inputD).paddedDims (blkIdx t) / blksize t) :
    List.Forall₂ (· < ·) (idxOf t pos) (loopDims keep t inputD outputD) := by
  have h0 := hpos 0 (by omega)
  have h1 := hpos 1 (by omega)
  have h2 := hpos (t.ndims - 4) (by omega)
  have h3 := hpos (t.ndims - 3) (by omega)
  have h4 := hpos (t.ndims - 2) (by omega)
  rw [mem_loop]
  rcases hn with hn | hn | hn | hn <;> rw [hn] at h2 h3 h4 <;> rcases blkIdx_cases t with hb | hb <;>
    rw [hb] at hblock <;> simp [idxOf, hb, hn, hblock, h0, h1, h2, h3, h4]

/-- The positions of the loops are positions of the tensor. -/
theorem place_mem_box {idx : List ℕ} (hidx : List.Forall₂ (· < ·) idx (loopDims keep t inputD outputD)) {l x : ℕ}
    (hndims : inputD.ndims = t.ndims) (hl : l < inputD.dims (t.ndims - 1))
    (hblock : place t idx l x (blkIdx t) < inputD.dims (blkIdx t)) : place t idx l x ∈ box inputD.dims inputD.ndims := by
  obtain ⟨x0, x1, m0, m1, m2, rfl, h0, h1, h2, h3, h4⟩ := mem_loop.mp hidx
  rw [place_block] at hblock
  rw [hndims]
  -- one list of coordinates for every number of dimensions
  rcases blkIdx_cases t with hb | hb <;> rw [hb] at hblock <;> simp only [hb] at h0 h1 <;>
    rcases hn with hn | hn | hn | hn <;> simp only [hn, place, hb] at hl h2 h3 h4 ⊢
  · exact getD_mem_box (.cons hblock (.cons h1 (.cons hl .nil)))
  · exact getD_mem_box (.cons hblock (.cons h1 (.cons h4 (.cons hl .nil))))
  · exact getD_mem_box (.cons hblock (.cons h1 (.cons h3 (.cons h4 (.cons hl .nil)))))
  · exact getD_mem_box (.cons hblock (.cons h1 (.cons h2 (.cons h3 (.cons h4 (.cons hl .nil))))))
  · exact getD_mem_box (.cons h0 (.cons hblock (.cons hl .nil)))
  · exact getD_mem_box (.cons h0 (.cons hblock (.cons h4 (.cons hl .nil))))
  · exact getD_mem_box (.cons h0 (.cons hblock (.cons h3 (.cons h4 (.cons hl .nil)))))
  · exact getD_mem_box (.cons h0 (.cons hblock (.cons h2 (.cons h3 (.cons h4 (.cons hl .nil))))))

end Counters

/-! ## Offsets -/

/-- A plain side of a reorder. -/
structure Flat (t : TagTraits) (md : MemoryDesc) : Prop where
  wellFormed : md.WellFormed
  ndims : md.ndims = t.ndims
  inner : md.blocking.inner = []

/-- A blocked side of a reorder. -/
structure Blocked (t : TagTraits) (md : MemoryDesc) : Prop where
  wellFormed : md.WellFormed
  ndims : md.ndims = t.ndims
  inner : md.blocking.inner = [⟨blkIdx t, blksize t⟩]

theorem Flat.offV_place (h : Flat t md) (hn : t.ndims = 3 ∨ t.ndims = 4 ∨ t.ndims = 5 ∨ t.ndims = 6)
    (x0 x1 m0 m1 m2 l x : ℕ) :
    md.offV (place t [x0, x1, m0, m1, m2] l x) false =
      md.blkOff (if blkIdx t = 0 then offArgs t.ndims (x0 * blksize t : ℕ) x1 m0 m1 m2
        else offArgs t.ndims x0 (x1 * blksize t : ℕ) m0 m1 m2) +
        (x * md.blocking.strides (blkIdx t) + l * md.blocking.strides (t.ndims - 1)) := by
  have hdim : ∀ d y, md.dimOff d y = y * md.blocking.strides d := by
    intro d y
    simp [MemoryDesc.dimOff, h.inner, innerOff]
  rw [h.wellFormed.offV_eq, MemoryDesc.offV_padded h.wellFormed.valid, h.ndims]
  rcases blkIdx_cases t with hb | hb <;> rcases hn with hn | hn | hn | hn <;>
    simp [hb, hn, place, offArgs, MemoryDesc.blkOff, hdim, Finset.sum_range_succ] <;> ring

theorem Blocked.dimOff_block (h : Blocked t md) {x : ℕ} (hx : x < blksize t) (q : ℕ) :
    md.dimOff (blkIdx t) (q * blksize t + x) = q * md.blocking.strides (blkIdx t) + x := by
  have hdiv : (q * blksize t + x) / blksize t = q := by
    rw [Nat.mul_comm, Nat.mul_add_div (by omega), Nat.div_eq_of_lt hx, Nat.add_zero]
  have hmod : (q * blksize t + x) % blksize t = x := by
    rw [Nat.mul_comm, Nat.mul_add_mod, Nat.mod_eq_of_lt hx]
  unfold MemoryDesc.dimOff
  rw [h.inner, innerBlocks_cons, if_pos rfl, innerBlocks_nil, Nat.mul_one, hdiv]
  show ((innerOff [] (blkIdx t) _ + if _ then _ else 0 : ℕ) : ℤ) + _ = _
  rw [if_pos rfl, innerOff, innerBlocks_nil, Nat.div_one, hmod, blockSize_nil, Nat.mul_one, Nat.zero_add, add_comm]

theorem Blocked.dimOff_line (h : Blocked t md) {d : ℕ} (hd : d ≠ blkIdx t) (x : ℕ) :
    md.dimOff d x = x * md.blocking.strides d := by
  simp [MemoryDesc.dimOff, h.inner, innerOff, innerBlocks_cons, hd.symm]

theorem Blocked.offV_place (h : Blocked t md) (hn : t.ndims = 3 ∨ t.ndims = 4 ∨ t.ndims = 5 ∨ t.ndims = 6)
    (x0 x1 m0 m1 m2 l : ℕ) {x : ℕ} (hx : x < blksize t) :
    md.offV (place t [x0, x1, m0, m1, m2] l x) false =
      md.blkOff (offArgs t.ndims x0 x1 m0 m1 m2) + (l * md.blocking.strides (t.ndims - 1) + x) := by
  have hblock := h.dimOff_block hx
  have hline := fun d hd y => h.dimOff_line (d := d) hd y
  rw [h.wellFormed.offV_eq, MemoryDesc.offV_padded h.wellFormed.valid, h.ndims]
  rcases blkIdx_cases t with hb | hb <;> rw [hb] at hblock hline <;> rcases hn with hn | hn | hn | hn <;>
    simp [hb, hn, place, offArgs, MemoryDesc.blkOff, Finset.sum_range_succ, hblock, hline] <;> ring

/-! ## Stores -/

/-- The positions of one iteration of the parallel loops. -/
def places (t : TagTraits) (inputD : MemoryDesc) (idx : List ℕ) : List (ℕ → ℕ) :=
  (List.range (inputD.dims (t.ndims - 1))).flatMap fun l =>
    (List.range (blockLen (blksize t) (inputD.dims (blkIdx t)) (idx.getD (blkIdx t) 0)).toNat).map (place t idx l)

/-- Where the old value of an element is read. -/
def old (keep : Bool) (t : TagTraits) (outputD : MemoryDesc) (pos : ℕ → ℕ) : ℤ :=
  outputD.offV pos false +
    if keep then pos (t.ndims - 1) * (blksize t - outputD.blocking.strides (t.ndims - 1)) else 0

/-- The two sides of a reorder. -/
structure Sides (keep : Bool) (t : TagTraits) (inputD outputD : MemoryDesc) : Prop where
  ndims : t.ndims = 3 ∨ t.ndims = 4 ∨ t.ndims = 5 ∨ t.ndims = 6
  blksize_pos : 0 < blksize t
  dims : ∀ d < t.ndims, outputD.dims d = inputD.dims d
  flat : Flat t (if keep then inputD else outputD)
  blocked : Blocked t (if keep then outputD else inputD)
  distinct : (if keep then outputD else inputD).Distinct
  paddedDims : (if keep then outputD else inputD).paddedDims (blkIdx t) = inputD.dims (blkIdx t) ∨
    (if keep then outputD else inputD).paddedDims (blkIdx t) = rndUp (inputD.dims (blkIdx t)) (blksize t)

/-- The stores of a block whose elements have the offsets that the loops compute. -/
theorem ker_eq {flatD blockD : MemoryDesc} (hflatD : flatD = if keep then inputD else outputD)
    (hblockD : blockD = if keep then outputD else inputD) (alphaIsOne betaIsZero : Bool) {i o block : ℤ}
    {pos : ℕ → ℕ → ℕ → ℕ} (hlast : ∀ l x, pos l x (t.ndims - 1) = l)
    (hflat : ∀ l x : ℕ, x < block.toNat → flatD.offV (pos l x) false = (if keep then i else o) +
      (x * flatD.blocking.strides (blkIdx t) + l * flatD.blocking.strides (t.ndims - 1)))
    (hblock : ∀ l x : ℕ, x < block.toNat → blockD.offV (pos l x) false = (if keep then o else i) +
      (l * blockD.blocking.strides (t.ndims - 1) + x)) (hL : inputD.dims (t.ndims - 1) < 2 ^ 31) :
    ker keep t inputD outputD alphaIsOne betaIsZero i o block =
      some (((List.range (inputD.dims (t.ndims - 1))).flatMap fun l => (List.range block.toNat).map (pos l)).map
        (storeAt inputD outputD (alphaIsOne && betaIsZero) (old keep t outputD))) := by
  unfold ker
  dsimp only
  rw [if_pos hL, List.map_flatMap]
  refine congrArg some (List.flatMap_congr fun l _ => ?_)
  rw [List.map_map]
  refine List.map_congr_left fun x hx => ?_
  have h1 := hflat l x (List.mem_range.mp hx)
  have h2 := hblock l x (List.mem_range.mp hx)
  subst hflatD hblockD
  show _ = storeAt _ _ _ _ (pos l x)
  unfold storeAt old
  rw [hlast]
  cases keep
  · rw [if_neg Bool.false_ne_true, if_neg Bool.false_ne_true] at h1 h2
    rw [h1, h2]
    cases alphaIsOne && betaIsZero <;> simp
  · rw [if_pos rfl, if_pos rfl] at h1 h2
    rw [h1, h2]
    cases alphaIsOne && betaIsZero
    · simp
      ring
    · simp

/-- The stores of one iteration. -/
theorem Sides.body_eq (h : Sides keep t inputD outputD) (alphaIsOne betaIsZero : Bool) {idx : List ℕ}
    (hidx : List.Forall₂ (· < ·) idx (loopDims keep t inputD outputD)) (hL : inputD.dims (t.ndims - 1) < 2 ^ 31) :
    body keep t inputD outputD alphaIsOne betaIsZero idx = some ((places t inputD idx).map
      (storeAt inputD outputD (alphaIsOne && betaIsZero) (old keep t outputD))) := by
  obtain ⟨x0, x1, m0, m1, m2, rfl, -⟩ := mem_loop.mp hidx
  have hlen : ∀ {H b x : ℕ}, x < (blockLen (blksize t) H b).toNat → x < blksize t := by
    intro H b x hx
    have hle : blockLen (blksize t) H b ≤ blksize t := min_le_left _ _
    omega
  have hlast := fun l x => place_line h.ndims [x0, x1, m0, m1, m2] l x
  have hflat := fun l x => h.flat.offV_place h.ndims x0 x1 m0 m1 m2 l x
  have hblock := fun l {x} (hx : x < blksize t) => h.blocked.offV_place h.ndims x0 x1 m0 m1 m2 l hx
  unfold body places
  dsimp only
  rcases blkIdx_cases t with hb | hb
  · rw [if_pos hb, hb]
    refine ker_eq rfl rfl alphaIsOne betaIsZero hlast (fun l x hx => ?_) (fun l x hx => ?_) hL
    · rw [hflat, if_pos hb]
      cases keep <;> rfl
    · rw [hblock l (hlen hx)]
      cases keep <;> simp
  · have hb0 : ¬ blkIdx t = 0 := by omega
    rw [if_neg hb0, hb]
    refine ker_eq rfl rfl alphaIsOne betaIsZero hlast (fun l x hx => ?_) (fun l x hx => ?_) hL
    · rw [hflat, if_neg hb0]
      cases keep <;> rfl
    · rw [hblock l (hlen hx)]
      cases keep <;> simp

/-- The loops run through an element. -/
def Covers (keep : Bool) (t : TagTraits) (inputD outputD : MemoryDesc) (pos : ℕ → ℕ) : Prop :=
  BlockCovers (blksize t) ((if keep then outputD else inputD).paddedDims (blkIdx t)) (inputD.dims (blkIdx t))
    (pos (blkIdx t))

instance (pos : ℕ → ℕ) : Decidable (Covers keep t inputD outputD pos) := inferInstanceAs (Decidable (BlockCovers _ _ _ _))

/-- The stores of thread `ithr`, by position. -/
def stores (keep : Bool) (t : TagTraits) (inputD outputD : MemoryDesc) (alphaIsOne betaIsZero : Bool) (nthr ithr : ℕ) :
    List BlockStore :=
  ((parallelNdIters nthr (loopDims keep t inputD outputD) ithr).flatMap (places t inputD)).map
    (storeAt inputD outputD (alphaIsOne && betaIsZero) (old keep t outputD))

theorem Sides.ndims_input (h : Sides keep t inputD outputD) : inputD.ndims = t.ndims := by
  cases keep
  · exact h.blocked.ndims
  · exact h.flat.ndims

/-- The positions that the loops run through. -/
theorem Sides.mem_places (h : Sides keep t inputD outputD) {nthr : ℕ} (hnthr : 0 < nthr) {pos : ℕ → ℕ} :
    pos ∈ (parallelNd nthr (loopDims keep t inputD outputD)).flatMap (places t inputD) ↔
      pos ∈ box inputD.dims inputD.ndims ∧ Covers keep t inputD outputD pos := by
  simp only [places, List.mem_flatMap, List.mem_map, List.mem_range, mem_parallelNd hnthr]
  constructor
  · rintro ⟨idx, hidx, l, hl, x, hx, rfl⟩
    have hcovers : Covers keep t inputD outputD (place t idx l x) := by
      unfold Covers
      rw [place_block]
      exact blockCovers_mul_add (getD_lt hidx) hx
    exact ⟨place_mem_box h.ndims hidx h.ndims_input hl (hcovers.lt h.blksize_pos h.paddedDims), hcovers⟩
  · rintro ⟨hpos, hcovers⟩
    obtain ⟨hlt, hzero⟩ := mem_box.mp hpos
    rw [h.ndims_input] at hlt hzero
    have hgetD : (idxOf t pos).getD (blkIdx t) 0 = pos (blkIdx t) / blksize t := by
      rcases blkIdx_cases t with hb | hb <;> simp [idxOf, hb]
    refine ⟨idxOf t pos, idxOf_mem h.ndims hlt hcovers.1, pos (t.ndims - 1), hlt _ ?_, pos (blkIdx t) % blksize t, ?_,
      place_idxOf h.ndims hzero⟩
    · rcases h.ndims with hn | hn | hn | hn <;> omega
    · have hlen := hcovers.2
      rw [hgetD]
      omega

theorem Sides.nodup_places (h : Sides keep t inputD outputD) {nthr : ℕ} (hnthr : 0 < nthr) :
    ((parallelNd nthr (loopDims keep t inputD outputD)).flatMap (places t inputD)).Nodup := by
  have hmem : ∀ {idx pos}, pos ∈ OneDim.places t inputD idx → ∃ l x, x < blksize t ∧ pos = place t idx l x := by
    intro idx pos hpos
    unfold OneDim.places at hpos
    simp only [List.mem_flatMap, List.mem_map, List.mem_range] at hpos
    obtain ⟨l, -, x, hx, rfl⟩ := hpos
    have hle : blockLen (blksize t) (inputD.dims (blkIdx t)) (idx.getD (blkIdx t) 0) ≤ blksize t := min_le_left _ _
    exact ⟨l, x, by omega, rfl⟩
  refine List.nodup_flatMap.mpr ⟨fun idx _ => ?_, (nodup_parallelNd hnthr _).pairwise_of_forall_ne ?_⟩
  · refine List.nodup_flatMap.mpr ⟨fun l _ => ?_, List.nodup_range.pairwise_of_forall_ne ?_⟩
    · refine List.nodup_range.map fun x x' heq => ?_
      have hx := congrFun heq (blkIdx t)
      rw [place_block, place_block] at hx
      omega
    · intro l _ l' _ hne pos hpos hpos'
      obtain ⟨x, -, rfl⟩ := List.mem_map.mp hpos
      obtain ⟨x', -, heq⟩ := List.mem_map.mp hpos'
      have hl := congrFun heq (t.ndims - 1)
      rw [place_line h.ndims, place_line h.ndims] at hl
      exact hne hl.symm
  · intro idx hidx idx' hidx' hne pos hpos hpos'
    obtain ⟨l, x, hx, rfl⟩ := hmem hpos
    obtain ⟨l', x', hx', heq⟩ := hmem hpos'
    have hself := idxOf_place h.ndims ((mem_parallelNd hnthr).mp hidx) l hx
    have hother := idxOf_place h.ndims ((mem_parallelNd hnthr).mp hidx') l' hx'
    rw [heq, hother] at hself
    exact hne hself.symm

/-- The stores are those of the elements that the loops run through. -/
theorem Sides.places (h : Sides keep t inputD outputD) (alphaIsOne betaIsZero : Bool) {nthr : ℕ} (hnthr : 0 < nthr) :
    Places inputD outputD nthr (alphaIsOne && betaIsZero) (old keep t outputD) (Covers keep t inputD outputD)
      (stores keep t inputD outputD alphaIsOne betaIsZero nthr) where
  idle := fun ithr hithr => by
    unfold stores
    rw [parallelNdIters_of_le hnthr _ hithr]
    rfl
  perm := by
    unfold stores
    rw [← List.map_flatMap, ← List.flatMap_assoc, flatMap_parallelNdIters hnthr]
    refine List.Perm.map _ ((List.perm_ext_iff_of_nodup (h.nodup_places hnthr) ((nodup_box _ _).filter _)).mpr ?_)
    intro pos
    rw [h.mem_places hnthr, List.mem_filter, decide_eq_true_eq]

theorem Sides.thread_eq (h : Sides keep t inputD outputD) (alphaIsOne betaIsZero : Bool)
    (hL : inputD.dims (t.ndims - 1) < 2 ^ 31 ∨ ∀ idx, ¬ List.Forall₂ (· < ·) idx (loopDims keep t inputD outputD))
    (nthr ithr : ℕ) : thread keep t inputD outputD alphaIsOne betaIsZero nthr ithr =
      some (stores keep t inputD outputD alphaIsOne betaIsZero nthr ithr) := by
  have hbody : ∀ idx ∈ parallelNdIters nthr (loopDims keep t inputD outputD) ithr,
      body keep t inputD outputD alphaIsOne betaIsZero idx = some ((OneDim.places t inputD idx).map
        (storeAt inputD outputD (alphaIsOne && betaIsZero) (old keep t outputD))) := by
    intro idx hidx
    have hloop := forall₂_of_mem_parallelNdIters hidx
    exact h.body_eq alphaIsOne betaIsZero hloop (hL.resolve_right fun hnone => hnone idx hloop)
  unfold thread stores
  rw [Checks.mapM_eq_some hbody, List.map_flatMap, List.flatMap_def]
  rfl

/-- A side that matches a registered tag. -/
theorem Registered.blocked {tag : FormatTag} (hreg : Registered tag t) (hbuilt : md.Built)
    (hmatch : md.matchesTag tag = true) : Blocked t md := by
  obtain ⟨gold, -, hk, -⟩ := MemoryDesc.matchesTag_gold hmatch
  obtain ⟨args, hargs, hlen, hinner⟩ := MemoryDesc.matchesTag_inner hmatch (hbuilt.ndims_pos hk)
  have htable := hreg.args
  rw [hargs, Option.any_some, decide_eq_true_eq] at htable
  exact ⟨hbuilt.wellFormed, hlen.symm.trans htable.1, hinner.trans htable.2⟩

theorem flat_of_isPlain (hbuilt : md.Built) (hplain : md.isPlain = true) (hndims : md.ndims = t.ndims) : Flat t md := by
  unfold MemoryDesc.isPlain at hplain
  rw [Bool.and_eq_true, decide_eq_true_eq] at hplain
  exact ⟨hbuilt.wellFormed, hndims, List.length_eq_zero_iff.mp hplain.2⟩

theorem Blocked.paddedDims_eq (h : Blocked t md) (hbuilt : md.Built) (hlt : blkIdx t < t.ndims) :
    md.paddedDims (blkIdx t) = md.dims (blkIdx t) ∨
      md.paddedDims (blkIdx t) = rndUp (md.dims (blkIdx t)) (blksize t) := by
  have hpadded := hbuilt.paddedDims_eq (d := blkIdx t) (by rw [h.ndims]; exact hlt)
  rw [h.inner, innerBlocks_cons, if_pos rfl, innerBlocks_nil, Nat.mul_one] at hpadded
  exact hpadded

/-- The two sides of a reorder that is applicable. -/
theorem Registered.sides {tag : FormatTag} (hreg : Registered tag t) (hin : inputD.Built) (hout : outputD.Built)
    (hconsistent : inputD.consistentWith outputD = true) {attr : Option OutputScales}
    (happ : plainToBlockedIsApplicable keep tag inputD outputD attr = true) : Sides keep t inputD outputD := by
  unfold MemoryDesc.consistentWith at hconsistent
  rw [decide_eq_true_eq] at hconsistent
  obtain ⟨hndims, hdims⟩ := hconsistent
  unfold plainToBlockedIsApplicable at happ
  rw [Bool.and_eq_true] at happ
  have hlt : blkIdx t < t.ndims := by
    rcases blkIdx_cases t with hb | hb <;> rcases hreg.ndims with hn | hn | hn | hn <;> omega
  cases keep
  · have hmatch := happ.2
    rw [if_neg Bool.false_ne_true, Bool.and_eq_true] at hmatch
    have hblocked := hreg.blocked hin hmatch.1
    exact {
      ndims := hreg.ndims
      blksize_pos := hreg.blksize_pos
      dims := fun d hd => (hdims d (by rw [hblocked.ndims]; exact hd)).symm
      flat := flat_of_isPlain hout hmatch.2 (hndims.symm.trans hblocked.ndims)
      blocked := hblocked
      distinct := hin.matchesTag_distinct hmatch.1
      paddedDims := hblocked.paddedDims_eq hin hlt }
  · have hmatch := happ.2
    rw [if_pos rfl, Bool.and_eq_true] at hmatch
    have hblocked := hreg.blocked hout hmatch.1
    have hndims' : inputD.ndims = t.ndims := hndims.trans hblocked.ndims
    have hdims' : ∀ d < t.ndims, outputD.dims d = inputD.dims d := fun d hd => (hdims d (by omega)).symm
    have hpadded := hblocked.paddedDims_eq hout hlt
    rw [hdims' _ hlt] at hpadded
    exact {
      ndims := hreg.ndims
      blksize_pos := hreg.blksize_pos
      dims := hdims'
      flat := flat_of_isPlain hin hmatch.2 hndims'
      blocked := hblocked
      distinct := hout.matchesTag_distinct hmatch.1
      paddedDims := hpadded }

/-! ## The reorder -/

/-- Without elements, or for extents that the type `int` holds, every thread has its stores. -/
theorem Sides.threads_of_zero (h : Sides keep t inputD outputD) (hzero : inputD.hasZeroDim = true) :
    inputD.dims (t.ndims - 1) < 2 ^ 31 ∨ ∀ idx, ¬ List.Forall₂ (· < ·) idx (loopDims keep t inputD outputD) := by
  have hndims : 0 < inputD.ndims := by
    rw [h.ndims_input]
    rcases h.ndims with hn | hn | hn | hn <;> omega
  have hbox := (MemoryDesc.hasZeroDim_iff hndims).mp hzero
  by_cases hL : inputD.dims (t.ndims - 1) = 0
  · exact Or.inl (by omega)
  · -- the first element of a block would be an element of the tensor
    refine Or.inr fun idx hidx => ?_
    have hblock : place t idx 0 0 (blkIdx t) < inputD.dims (blkIdx t) := by
      rw [place_block, Nat.add_zero]
      exact mul_lt_of_padded h.blksize_pos h.paddedDims (getD_lt hidx)
    have hmem := place_mem_box h.ndims hidx h.ndims_input (Nat.pos_of_ne_zero hL) hblock
    rw [hbox] at hmem
    cases hmem

/-- If every thread has its stores, the counter of the lines does not overflow. -/
theorem threads_of_some {alphaIsOne betaIsZero : Bool} {nthr : ℕ} (hnthr : 0 < nthr) {ps : ℕ → List BlockStore}
    (hps : ∀ ithr, thread keep t inputD outputD alphaIsOne betaIsZero nthr ithr = some (ps ithr)) :
    inputD.dims (t.ndims - 1) < 2 ^ 31 ∨ ∀ idx, ¬ List.Forall₂ (· < ·) idx (loopDims keep t inputD outputD) := by
  by_contra hnone
  rw [not_or, not_forall_not] at hnone
  obtain ⟨hL, idx, hidx⟩ := hnone
  have hmem := (mem_parallelNd hnthr).mpr hidx
  rw [← flatMap_parallelNdIters hnthr] at hmem
  obtain ⟨ithr, -, hithr⟩ := List.mem_flatMap.mp hmem
  have hthread := hps ithr
  unfold thread at hthread
  have hsome : ((parallelNdIters nthr (loopDims keep t inputD outputD) ithr).mapM
      (body keep t inputD outputD alphaIsOne betaIsZero)).isSome := by
    cases hmap : (parallelNdIters nthr (loopDims keep t inputD outputD) ithr).mapM
        (body keep t inputD outputD alphaIsOne betaIsZero) with
    | none =>
      rw [hmap] at hthread
      cases hthread
    | some l => rfl
  have hbody := Checks.isSome_of_mapM hsome idx hithr
  unfold body ker at hbody
  dsimp only at hbody
  rw [if_neg hL, if_neg hL, ite_self] at hbody
  cases hbody

/-- A reorder with a format that has one blocked dimension converts every element, whatever the conversion, the tensors and
the order of the threads, if and only if the tensor has no element, or the type `int` holds the extents of the blocked and of
the last dimension, the blocked dimension is padded to whole blocks, different elements have different offsets in the output
and, on the way to a blocked format with a part of the old value, the tensor has one line or the lines of the output are next
to each other. -/
theorem converts_iff {tag : FormatTag} (htag : tag ∈ oneDimTags) (ht : tagTraits tag = some t) (hin : inputD.Built)
    (hout : outputD.Built) (hconsistent : inputD.consistentWith outputD = true) {attr : Option OutputScales}
    (happ : plainToBlockedIsApplicable keep tag inputD outputD attr = true) (alphaIsOne betaIsZero : Bool) {nthr : ℕ}
    (hnthr : 0 < nthr) (α β : Type*) [Nontrivial α] [Nontrivial β] :
    (∃ ps, (∀ ithr, thread keep t inputD outputD alphaIsOne betaIsZero nthr ithr = some (ps ithr)) ∧
        Converts α β alphaIsOne betaIsZero inputD outputD ps) ↔
      inputD.hasZeroDim = true ∨
        inputD.dims (blkIdx t) < 2 ^ 31 ∧ inputD.dims (t.ndims - 1) < 2 ^ 31 ∧
          blksize t ∣ (if keep then outputD else inputD).paddedDims (blkIdx t) ∧ outputD.Distinct ∧
          (keep = true → betaIsZero = true ∨ inputD.dims (t.ndims - 1) = 1 ∨
            outputD.blocking.strides (t.ndims - 1) = blksize t) := by
  obtain ⟨t', ht', hreg⟩ := registered htag
  obtain rfl : t = t' := Option.some.inj (ht.symm.trans ht')
  have h := hreg.sides hin hout hconsistent happ
  have hplaces := h.places alphaIsOne betaIsZero hnthr
  have hn : 2 < t.ndims := by rcases h.ndims with hn | hn | hn | hn <;> omega
  have hndims : 0 < inputD.ndims := by rw [h.ndims_input]; omega
  have hbox := MemoryDesc.box_eq_of_consistentWith hconsistent
  have hlt : blkIdx t < t.ndims := by rcases blkIdx_cases t with hb | hb <;> omega
  have hle : blksize t ≤ 2 ^ 31 := hreg.blksize_le.trans (by omega)
  constructor
  · rintro ⟨ps, hps, hconv⟩
    rw [or_iff_not_imp_left]
    intro hzero
    have hpos : ∀ d < inputD.ndims, 0 < inputD.dims d := fun d hd => MemoryDesc.dims_pos (Bool.not_eq_true _ ▸ hzero) hd
    have hL := threads_of_some hnthr hps
    obtain rfl : ps = stores keep t inputD outputD alphaIsOne betaIsZero nthr := by
      funext ithr
      exact Option.some.inj ((hps ithr).symm.trans (h.thread_eq alphaIsOne betaIsZero hL nthr ithr))
    have hdistinct : Set.InjOn (fun pos => outputD.offV pos false) {pos | pos ∈ box inputD.dims inputD.ndims} := by
      have hblocked := h.distinct
      cases keep
      · exact hplaces.injOn_output hconv hblocked
      · unfold MemoryDesc.Distinct at hblocked
        rw [if_pos rfl, hbox] at hblocked
        exact hblocked
    have hcovers : ∀ pos ∈ box inputD.dims inputD.ndims, Covers keep t inputD outputD pos :=
      fun pos hpos => hplaces.covers_of_converts hconv hdistinct hpos
    have hblocks : ∀ x < inputD.dims (blkIdx t), BlockCovers (blksize t)
        ((if keep then outputD else inputD).paddedDims (blkIdx t)) (inputD.dims (blkIdx t)) x := by
      intro x hx
      have hx := hcovers _ (update_mem_box hpos (by rw [h.ndims_input]; exact hlt) hx)
      unfold Covers at hx
      rw [Function.update_self] at hx
      exact hx
    obtain ⟨hH, hdvd⟩ := (forall_blockCovers_iff h.blksize_pos hle
      (hpos _ (by rw [h.ndims_input]; exact hlt)) h.paddedDims).mp hblocks
    have hlines : inputD.dims (t.ndims - 1) < 2 ^ 31 := by
      have hblock := hblocks 0 (hpos _ (by rw [h.ndims_input]; exact hlt))
      have horigin : ∀ d < t.ndims, 0 < inputD.dims d := fun d hd => hpos d (by rw [h.ndims_input]; exact hd)
      exact hL.resolve_right fun hnone => hnone _ (idxOf_mem h.ndims horigin hblock.1)
    refine ⟨hH, hlines, hdvd, ?_, fun hkeep => ?_⟩
    · unfold MemoryDesc.Distinct
      rw [hbox]
      exact hdistinct
    · rw [or_iff_not_imp_left, or_iff_not_imp_left]
      intro hbeta hline
      have hlast : t.ndims - 1 < inputD.ndims := by rw [h.ndims_input]; omega
      have hsecond := update_mem_box hpos hlast (x := 1) (by have := hpos _ hlast; omega)
      have hold := hplaces.old_of_converts hconv hdistinct (Bool.not_eq_true _ ▸ hbeta) hsecond
      unfold old at hold
      rw [if_pos hkeep, Function.update_self] at hold
      omega
  · rintro (hzero | ⟨hH, hL, hdvd, hdistinct, hold⟩)
    · refine ⟨_, h.thread_eq alphaIsOne betaIsZero (h.threads_of_zero hzero) nthr, ?_⟩
      intro c input output o _ pos hpos
      rw [(MemoryDesc.hasZeroDim_iff hndims).mp hzero] at hpos
      cases hpos
    · refine ⟨_, h.thread_eq alphaIsOne betaIsZero (Or.inl hL) nthr, ?_⟩
      unfold MemoryDesc.Distinct at hdistinct
      rw [hbox] at hdistinct
      have hcovers : ∀ pos ∈ box inputD.dims inputD.ndims, Covers keep t inputD outputD pos := by
        intro pos hpos
        have hlt' := (mem_box.mp hpos).1 (blkIdx t) (by rw [h.ndims_input]; exact hlt)
        exact (forall_blockCovers_iff h.blksize_pos hle (by omega) h.paddedDims).mpr ⟨hH, hdvd⟩ _ hlt'
      refine hplaces.converts α β hcovers hdistinct ?_
      cases keep
      · exact Or.inr fun pos _ => add_zero _
      · rcases hold rfl with hbeta | hline | hstride
        · exact Or.inl hbeta
        · refine Or.inr fun pos hpos => ?_
          have hzero := (mem_box.mp hpos).1 (t.ndims - 1) (by rw [h.ndims_input]; omega)
          have hlast : pos (t.ndims - 1) = 0 := by omega
          unfold old
          rw [if_pos rfl, hlast, Nat.cast_zero, zero_mul, add_zero]
        · refine Or.inr fun pos _ => ?_
          unfold old
          rw [if_pos rfl, hstride, sub_self, mul_zero, add_zero]

/-- Three of eight channels of a block. -/
theorem converts_iff_Acdb8a : ∃ inputD outputD,
    memoryDescInitByTag 4 (fun d => [3, 2, 1, 2].getD d 0) .f32 .abcd = .ok inputD ∧
    memoryDescInitByTag 4 (fun d => [3, 2, 1, 2].getD d 0) .f32 .Acdb8a = .ok outputD ∧
    ((∃ ps, (∀ ithr, thread true ⟨.A, ._8a, 4⟩ inputD outputD true true 4 ithr = some (ps ithr)) ∧
        Converts ℤ ℤ true true inputD outputD ps) ↔
      inputD.hasZeroDim = true ∨
        inputD.dims 0 < 2 ^ 31 ∧ inputD.dims 3 < 2 ^ 31 ∧ 8 ∣ outputD.paddedDims 0 ∧ outputD.Distinct ∧
          (true = true → true = true ∨ inputD.dims 3 = 1 ∨ outputD.blocking.strides 3 = (8 : ℕ))) := by
  have hall : (memoryDescInitByTag 4 (fun d => [3, 2, 1, 2].getD d 0) .f32 .abcd).toOption.any (fun inputD =>
      (memoryDescInitByTag 4 (fun d => [3, 2, 1, 2].getD d 0) .f32 .Acdb8a).toOption.any fun outputD =>
        decide (inputD.formatKind = .blocked) && decide (outputD.formatKind = .blocked) &&
          inputD.consistentWith outputD && plainToBlockedIsApplicable true .Acdb8a inputD outputD none) = true := by
    decide +kernel
  obtain ⟨inputD, hinput, hrest⟩ := Checks.exists_ok_of_any hall
  obtain ⟨outputD, houtput, hrest⟩ := Checks.exists_ok_of_any hrest
  simp only [Bool.and_eq_true, decide_eq_true_eq] at hrest
  obtain ⟨⟨⟨hkin, hkout⟩, hconsistent⟩, happ⟩ := hrest
  exact ⟨inputD, outputD, hinput, houtput, converts_iff (by decide) rfl (.whole (Or.inl ⟨_, _, _, _, hinput, hkin⟩))
    (.whole (Or.inl ⟨_, _, _, _, houtput, hkout⟩)) hconsistent happ true true (by decide) ℤ ℤ⟩

/-- A sum of a plain tensor to a blocked one that has two lines of two channels each: the second line is added to the old
values of the other channel. -/
theorem not_converts_Acdb8a : ∃ inputD outputD,
    memoryDescInitByTag 4 (fun d => [8, 2, 1, 2].getD d 0) .f32 .abcd = .ok inputD ∧
    memoryDescInitByTag 4 (fun d => [8, 2, 1, 2].getD d 0) .f32 .Acdb8a = .ok outputD ∧
    inputD.consistentWith outputD = true ∧ plainToBlockedIsApplicable true .Acdb8a inputD outputD none = true ∧
    ¬ ∃ ps, (∀ ithr, thread true ⟨.A, ._8a, 4⟩ inputD outputD true false 1 ithr = some (ps ithr)) ∧
      Converts ℤ ℤ true false inputD outputD ps := by
  let sum : Conversion ℤ ℤ false := ⟨fun x => x, fun x y => x + y, fun h => absurd h Bool.false_ne_true⟩
  have hall : (memoryDescInitByTag 4 (fun d => [8, 2, 1, 2].getD d 0) .f32 .abcd).toOption.any (fun inputD =>
      (memoryDescInitByTag 4 (fun d => [8, 2, 1, 2].getD d 0) .f32 .Acdb8a).toOption.any fun outputD =>
        inputD.consistentWith outputD && plainToBlockedIsApplicable true .Acdb8a inputD outputD none &&
          decide (inputD.ndims = 4) && (List.range 4).all (fun d => decide (0 < inputD.dims d)) &&
          decide (1 < inputD.dims 3) && decide (outputD.offV (Function.update (fun _ => 0) 3 1) false = 16) &&
          decide ((thread true ⟨.A, ._8a, 4⟩ inputD outputD true false 1 0).map (fun stores =>
            execAll (stores.map (BlockStore.assign sum fun _ => 0)) (fun a => if a = 8 then 1 else 0) 16) =
              some 1)) = true := by
    decide +kernel
  obtain ⟨inputD, hinput, hrest⟩ := Checks.exists_ok_of_any hall
  obtain ⟨outputD, houtput, hrest⟩ := Checks.exists_ok_of_any hrest
  simp only [Bool.and_eq_true, decide_eq_true_eq, List.all_eq_true, List.mem_range] at hrest
  obtain ⟨⟨⟨⟨⟨⟨hconsistent, happ⟩, hndims⟩, hpos⟩, hline⟩, hoffset⟩, hvalue⟩ := hrest
  refine ⟨inputD, outputD, hinput, houtput, hconsistent, happ, ?_⟩
  rintro ⟨ps, hps, hconv⟩
  have hidle : ∀ ithr ≠ 0, (ps ithr).map (BlockStore.assign sum fun _ => 0) = [] := by
    intro ithr hithr
    have hthread := hps ithr
    unfold thread at hthread
    rw [parallelNdIters_of_le Nat.one_pos _ (by omega)] at hthread
    rw [← Option.some.inj hthread]
    rfl
  have hmem : Function.update (fun _ => 0) 3 1 ∈ box inputD.dims inputD.ndims := by
    rw [hndims]
    exact update_mem_box hpos (by omega) hline
  have hsum := hconv sum (fun _ => 0) (fun a => if a = 8 then 1 else 0) _ (isOrder_single hidle) _ hmem
  rw [hps 0, Option.map_some] at hvalue
  rw [List.map_map, hoffset] at hsum
  have hprogram : (ps 0).map (BlockStore.assign sum fun _ => 0) =
      ((ps 0).map (BlockStore.assign sum fun _ => 0)).map (Prod.snd ∘ fun e => (0, e)) := (List.map_id _).symm
  rw [← hprogram, Option.some.inj hvalue] at hsum
  exact absurd hsum (by decide)

end MklDnn.OneDim
