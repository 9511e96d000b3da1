import MklDnn.Memory.Proofs.BuiltProofs
import MklDnn.Reorder.Proofs.MergeProofs

/-!
# Proofs: the problem of two descriptors

`cvt_mem_desc_to_layout_desc` lists the digits of every dimension of a descriptor, and the offset of a
coordinate in this list is the term of the coordinate in `off_v`. With `mergeLayouts_nest` the nodes of
`prb_init` run through the padded area of both tensors.
-/

open LoopNest Offsets

namespace MklDnn

/-! ## The layout of a dimension -/

/-- The blocks of dimension `d`, pushed from the innermost one. -/
theorem foldr_pushBlk (L : List InnerBlk) (d : ℕ) :
    L.foldr (fun b (st : List Chunk × ℕ) =>
        (if b.idx = d then st.1 ++ [⟨d, b.blk, st.2⟩] else st.1, st.2 * b.blk)) ([], 1) =
      (((dimNodes L d).map fun x => (⟨d, x.1, x.2⟩ : Chunk)).reverse, blockSize L) := by
  induction L with
  | nil => rfl
  | cons b L ih =>
    rw [List.foldr_cons, ih, dimNodes, blockSize_cons, Nat.mul_comm]
    by_cases h : b.idx = d
    · simp only [if_pos h, List.map_cons, List.reverse_cons]
    · simp only [if_neg h]

/-- The layout entries of the inner blocks of dimension `d`. -/
def blockChunks (L : List InnerBlk) (d : ℕ) : List Chunk :=
  if innerBlocks L d ≠ 1 then (dimNodes L d).map fun x => ⟨d, x.1, x.2⟩ else []

theorem dimChunks_eq {md : MemoryDesc} (hk : md.isBlockingDesc = true) (d : ℕ) :
    dimChunks md d = ⟨d, md.paddedDims d / innerBlocks md.blocking.inner d, md.blocking.strides d⟩ ::
      blockChunks md.blocking.inner d := by
  have hblocks : md.computeBlocks = innerBlocks md.blocking.inner := by
    rw [MemoryDesc.computeBlocks, if_pos hk]
  unfold dimChunks blockChunks
  dsimp only
  rw [hblocks, foldr_pushBlk]
  split_ifs <;> simp

theorem chunkProd_blockChunks (L : List InnerBlk) (d : ℕ) :
    chunkProd (blockChunks L d) = innerBlocks L d := by
  unfold blockChunks
  split_ifs with h
  · rw [chunkProd, List.map_map, ← prod_dimNodes]
    rfl
  · rw [chunkProd_nil, not_not.mp h]

theorem chunkVal_dimNodes {n : ℕ} {L : List InnerBlk} (hL : ValidInner n L) (d : ℕ) {x : ℕ}
    (hx : x < innerBlocks L d) :
    chunkVal ((dimNodes L d).map fun x => (⟨d, x.1, x.2⟩ : Chunk)) x = innerOff L d x := by
  induction L generalizing x with
  | nil => rfl
  | cons b L ih =>
    rw [innerBlocks_cons] at hx
    have hB := hL.tail.innerBlocks_pos d
    have hprod : chunkProd ((dimNodes L d).map fun x => (⟨d, x.1, x.2⟩ : Chunk)) =
        innerBlocks L d := by
      rw [chunkProd, List.map_map, ← prod_dimNodes]
      rfl
    rw [dimNodes, innerOff]
    by_cases h : b.idx = d
    · rw [if_pos h] at hx
      have hq : x / innerBlocks L d < b.blk := Nat.div_lt_of_lt_mul (by rwa [Nat.mul_comm])
      rw [if_pos h, if_pos h, List.map_cons, chunkVal, hprod, ih hL.tail (Nat.mod_lt _ hB),
        Nat.mod_eq_of_lt hq, innerOff_mod]
      push_cast
      ring
    · rw [if_neg h, Nat.one_mul] at hx
      rw [if_neg h, if_neg h, ih hL.tail hx, Nat.add_zero]

/-- The offset of a coordinate in the layout of its dimension is its term in `off_v`. -/
theorem chunkVal_dimChunks {md : MemoryDesc} (hk : md.isBlockingDesc = true)
    (hL : ValidInner md.ndims md.blocking.inner) (d x : ℕ) :
    chunkVal (dimChunks md d) x = md.dimOff d x := by
  have hB := hL.innerBlocks_pos d
  have hblocks : chunkVal (blockChunks md.blocking.inner d) (x % innerBlocks md.blocking.inner d) =
      innerOff md.blocking.inner d x := by
    rw [← innerOff_mod]
    unfold blockChunks
    split_ifs with h
    · exact chunkVal_dimNodes hL d (Nat.mod_lt _ hB)
    · rw [not_not.mp h, Nat.mod_one, innerOff_zero]
      rfl
  rw [dimChunks_eq hk, chunkVal, chunkProd_blockChunks, hblocks, MemoryDesc.dimOff, add_comm]

theorem chunkProd_dimChunks {md : MemoryDesc} (hk : md.isBlockingDesc = true) {d : ℕ}
    (hmod : md.paddedDims d % innerBlocks md.blocking.inner d = 0) :
    chunkProd (dimChunks md d) = md.paddedDims d := by
  rw [dimChunks_eq hk, chunkProd_cons, chunkProd_blockChunks]
  exact Nat.div_mul_cancel (Nat.dvd_of_mod_eq_zero hmod)

theorem dimChunks_ids {md : MemoryDesc} (hk : md.isBlockingDesc = true) {d : ℕ} {c : Chunk}
    (hc : c ∈ dimChunks md d) : c.id = d := by
  rw [dimChunks_eq hk, blockChunks] at hc
  rcases List.mem_cons.mp hc with rfl | hc
  · rfl
  · split_ifs at hc
    · obtain ⟨x, -, rfl⟩ := List.mem_map.mp hc
      rfl
    · cases hc

/-! ## The scale strides -/

/-- The product of the extents of the masked dimensions from `k` on. -/
def maskedProd (masked : ℕ → Bool) (dims : ℕ → ℕ) (k n : ℕ) : ℕ :=
  ∏ d ∈ Finset.Ico k n, if masked d then dims d else 1

theorem maskedProd_self (masked : ℕ → Bool) (dims : ℕ → ℕ) (k : ℕ) :
    maskedProd masked dims k k = 1 := by
  rw [maskedProd, Finset.Ico_self, Finset.prod_empty]

theorem maskedProd_succ {masked : ℕ → Bool} {dims : ℕ → ℕ} {k n : ℕ} (h : k < n) :
    maskedProd masked dims k n = (if masked k then dims k else 1) * maskedProd masked dims (k + 1) n :=
  Finset.prod_eq_prod_Ico_succ_bot h _

theorem maskedProd_congr {masked : ℕ → Bool} {dims dims' : ℕ → ℕ} {n : ℕ}
    (h : ∀ d < n, dims d = dims' d) (k : ℕ) :
    maskedProd masked dims k n = maskedProd masked dims' k n :=
  Finset.prod_congr rfl fun d hd => by rw [h d (Finset.mem_Ico.mp hd).2]

/-- The entries of a dimension with their scale strides: those of a masked dimension count its
coordinates in steps of `w`. -/
def scaledChunks (masked : Bool) (w : ℕ) : List Chunk → List (Chunk × ℤ)
  | [] => []
  | c :: cs => (c, if masked then (w * chunkProd cs : ℕ) else 0) :: scaledChunks masked w cs

theorem scaledChunks_chunks (masked : Bool) (w : ℕ) (cs : List Chunk) :
    (scaledChunks masked w cs).map Prod.fst = cs := by
  induction cs with
  | nil => rfl
  | cons c cs ih => rw [scaledChunks, List.map_cons, ih]

/-- The scale offset of a coordinate. -/
theorem chunkVal_scaledChunks (masked : Bool) (w : ℕ) {cs : List Chunk} {x : ℕ} (hx : x < chunkProd cs) :
    chunkVal ((scaledChunks masked w cs).map scaleChunk) x = if masked then (x * w : ℕ) else 0 := by
  induction cs generalizing x with
  | nil =>
    rw [chunkProd_nil, Nat.lt_one_iff] at hx
    simp [scaledChunks, chunkVal, hx]
  | cons c cs ih =>
    have hP : 0 < chunkProd cs := by
      rw [chunkProd_cons] at hx
      exact Nat.pos_of_mul_pos_left (lt_of_le_of_lt (Nat.zero_le x) hx)
    have hprod : chunkProd ((scaledChunks masked w cs).map scaleChunk) = chunkProd cs := by
      rw [chunkProd_scaleChunk, scaledChunks_chunks]
    rw [scaledChunks, List.map_cons, chunkVal, hprod, ih (Nat.mod_lt x hP)]
    cases masked with
    | false => simp [scaleChunk]
    | true =>
      have hdigits : x / chunkProd cs * (w * chunkProd cs) + x % chunkProd cs * w = x * w := by
        conv_rhs => rw [← Nat.div_add_mod x (chunkProd cs)]
        ring
      simp only [scaleChunk, if_true]
      exact_mod_cast hdigits

/-- One step of the loop over the entries of the output layout. -/
def scaleStep (masked : ℕ → Bool) (c : Chunk) (st : List (Chunk × ℤ) × ℕ) : List (Chunk × ℤ) × ℕ :=
  if masked c.id then ((c, (st.2 : ℤ)) :: st.1, st.2 * c.n) else ((c, 0) :: st.1, st.2)

/-- The steps over the entries of one dimension. -/
theorem foldr_scaleStep_dim (masked : ℕ → Bool) {d : ℕ} {cs : List Chunk} (hids : ∀ c ∈ cs, c.id = d)
    (acc : List (Chunk × ℤ)) (w : ℕ) :
    cs.foldr (scaleStep masked) (acc, w) =
      (scaledChunks (masked d) w cs ++ acc, (if masked d then chunkProd cs else 1) * w) := by
  induction cs with
  | nil => simp [scaledChunks]
  | cons c cs ih =>
    have hid : c.id = d := hids c List.mem_cons_self
    rw [List.foldr_cons, ih fun c hc => hids c (List.mem_cons_of_mem _ hc), scaleStep, hid, scaledChunks]
    cases masked d with
    | false => simp
    | true =>
      simp only [if_true, List.cons_append, chunkProd_cons]
      rw [Nat.mul_comm w, Nat.mul_right_comm, Nat.mul_comm (chunkProd cs) c.n]

/-- The steps over the entries of the dimensions from `k` on. -/
theorem foldr_scaleStep (masked : ℕ → Bool) (C : ℕ → List Chunk) (hids : ∀ d, ∀ c ∈ C d, c.id = d)
    (n m : ℕ) {k : ℕ} (hk : k + m = n) :
    ((List.range' k m).flatMap C).foldr (scaleStep masked) ([], 1) =
      ((List.range' k m).flatMap fun d =>
        scaledChunks (masked d) (maskedProd masked (fun e => chunkProd (C e)) (d + 1) n) (C d),
      maskedProd masked (fun e => chunkProd (C e)) k n) := by
  induction m generalizing k with
  | zero => rw [← hk, Nat.add_zero, maskedProd_self]; rfl
  | succ m ih =>
    rw [List.range'_succ, List.flatMap_cons, List.foldr_append, ih (by omega),
      foldr_scaleStep_dim masked (hids k), List.flatMap_cons, maskedProd_succ (by omega : k < n)]

/-- The scale strides of the output layout, dimension by dimension. -/
theorem scaleStrides_flatMap (scaleType : ScaleType) (mask : ℕ) (C : ℕ → List Chunk)
    (hids : ∀ d, ∀ c ∈ C d, c.id = d) (n : ℕ) :
    scaleStrides scaleType mask ((List.range n).flatMap C) =
      (List.range n).flatMap fun d =>
        scaledChunks (scaleType = .many ∧ mask.testBit d)
          (maskedProd (fun e => scaleType = .many ∧ mask.testBit e) (fun e => chunkProd (C e)) (d + 1) n)
          (C d) := by
  have hstep : (fun c (st : List (Chunk × ℤ) × ℕ) =>
      if scaleType = .many ∧ mask.testBit c.id then ((c, (st.2 : ℤ)) :: st.1, st.2 * c.n)
      else ((c, 0) :: st.1, st.2)) = scaleStep fun e => scaleType = .many ∧ mask.testBit e := by
    funext c st
    rw [scaleStep]
    exact if_congr decide_eq_true_iff.symm rfl rfl
  rw [scaleStrides, hstep, List.range_eq_range',
    foldr_scaleStep _ C hids n n (Nat.zero_add n)]

/-! ## Two layouts -/

/-- Of the blocks of a dimension in the two descriptors, at every level, one divides the other. -/
def MutuallyDivisible (imd omd : MemoryDesc) : Prop :=
  ∀ d < imd.ndims, ∀ L1 ∈ imd.blocking.inner.tails, ∀ L2 ∈ omd.blocking.inner.tails,
    innerBlocks L1 d ∣ innerBlocks L2 d ∨ innerBlocks L2 d ∣ innerBlocks L1 d

instance (imd omd : MemoryDesc) : Decidable (MutuallyDivisible imd omd) :=
  inferInstanceAs (Decidable (∀ d < imd.ndims, ∀ L1 ∈ imd.blocking.inner.tails,
    ∀ L2 ∈ omd.blocking.inner.tails,
      innerBlocks L1 d ∣ innerBlocks L2 d ∨ innerBlocks L2 d ∣ innerBlocks L1 d))

/-- The last inner blocks of a dimension make up a block of some level. -/
theorem exists_tails_of_suffix {L : List InnerBlk} {d : ℕ} {cs : List Chunk}
    (h : cs <:+ (dimNodes L d).map fun x => (⟨d, x.1, x.2⟩ : Chunk)) :
    ∃ L' ∈ L.tails, chunkProd cs = innerBlocks L' d := by
  induction L with
  | nil =>
    obtain rfl := List.suffix_nil.mp h
    exact ⟨[], by simp, rfl⟩
  | cons b L ih =>
    have htails : ∀ L' ∈ L.tails, L' ∈ (b :: L).tails := by
      intro L' hL'
      rw [List.tails_cons]
      exact List.mem_cons_of_mem _ hL'
    rw [dimNodes] at h
    split_ifs at h with hb
    · rw [List.map_cons] at h
      rcases List.suffix_cons_iff.mp h with rfl | hsuffix
      · -- all inner blocks of the dimension
        refine ⟨b :: L, by simp, ?_⟩
        rw [chunkProd_cons, innerBlocks_cons, if_pos hb, ← prod_dimNodes, chunkProd, List.map_map]
        rfl
      · obtain ⟨L', hmem, hprod⟩ := ih hsuffix
        exact ⟨L', htails L' hmem, hprod⟩
    · obtain ⟨L', hmem, hprod⟩ := ih h
      exact ⟨L', htails L' hmem, hprod⟩

theorem exists_tails_of_suffix_blockChunks {L : List InnerBlk} {d : ℕ} {cs : List Chunk}
    (h : cs <:+ blockChunks L d) : ∃ L' ∈ L.tails, chunkProd cs = innerBlocks L' d := by
  unfold blockChunks at h
  split_ifs at h
  · exact exists_tails_of_suffix h
  · obtain rfl := List.suffix_nil.mp h
    exact ⟨[], by simp, rfl⟩

theorem MutuallyDivisible.suffixesDivide {imd omd : MemoryDesc} (h : MutuallyDivisible imd omd)
    (hik : imd.isBlockingDesc = true) (hok : omd.isBlockingDesc = true) {d : ℕ} (hd : d < imd.ndims) :
    SuffixesDivide (dimChunks imd d) (dimChunks omd d) := by
  intro l1 h1 l2 h2
  rw [dimChunks_eq hik, List.tail_cons] at h1
  rw [dimChunks_eq hok, List.tail_cons] at h2
  obtain ⟨L1, hL1, hprod1⟩ := exists_tails_of_suffix_blockChunks h1
  obtain ⟨L2, hL2, hprod2⟩ := exists_tails_of_suffix_blockChunks h2
  rw [hprod1, hprod2]
  exact h d hd L1 hL1 L2 hL2

/-- The blocks of built descriptors divide each other. -/
theorem MemoryDesc.Built.mutuallyDivisible {imd omd : MemoryDesc} (hi : imd.Built) (ho : omd.Built) :
    MutuallyDivisible imd omd := by
  intro d _ L1 hL1 L2 hL2
  have hpow : ∀ {L L' : List InnerBlk}, PowerBlocks L → L' ∈ L.tails → ∃ k, innerBlocks L' d = 2 ^ k :=
    fun h hL' => PowerBlocks.innerBlocks
      (fun b hb => h b (((List.mem_tails _ _).mp hL').subset hb)) d
  obtain ⟨k1, h1⟩ := hpow hi.powerBlocks hL1
  obtain ⟨k2, h2⟩ := hpow ho.powerBlocks hL2
  rw [h1, h2]
  rcases Nat.le_total k1 k2 with hle | hle
  · exact Or.inl (Nat.pow_dvd_pow 2 hle)
  · exact Or.inr (Nat.pow_dvd_pow 2 hle)

end MklDnn
