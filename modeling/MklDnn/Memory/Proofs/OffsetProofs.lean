import MklDnn.Memory.Offset

/-!
# Proofs: the offsets of a blocked descriptor

`off_v` is a sum of one term per dimension, and the term of a dimension runs through the offsets of a
loop nest: one loop for each inner block of the dimension and one for its outer blocks. All facts about
the offsets of a descriptor follow from this.
-/

open LoopNest Offsets

namespace MklDnn

/-! ## Block sizes -/

@[simp] theorem innerBlocks_nil (d : ℕ) : innerBlocks [] d = 1 := rfl

/-- The accumulated block sizes scale with the block sizes the loop starts from. -/
theorem foldl_innerBlocks (L : List InnerBlk) (f : ℕ → ℕ) (d : ℕ) :
    L.foldl (fun blocks b => Function.update blocks b.idx (blocks b.idx * b.blk)) f d =
      f d * innerBlocks L d := by
  induction L generalizing f with
  | nil => simp
  | cons b L ih =>
    rw [innerBlocks, List.foldl_cons, List.foldl_cons, ih, ih]
    by_cases h : d = b.idx
    · subst h; simp [Nat.mul_assoc]
    · simp [Function.update_of_ne h]

theorem innerBlocks_cons (b : InnerBlk) (L : List InnerBlk) (d : ℕ) :
    innerBlocks (b :: L) d = (if b.idx = d then b.blk else 1) * innerBlocks L d := by
  rw [innerBlocks, List.foldl_cons, foldl_innerBlocks]
  by_cases h : b.idx = d
  · subst h; simp
  · rw [Function.update_of_ne (Ne.symm h), if_neg h]

@[simp] theorem blockSize_nil : blockSize [] = 1 := rfl

@[simp] theorem blockSize_cons (b : InnerBlk) (L : List InnerBlk) :
    blockSize (b :: L) = b.blk * blockSize L := by
  simp [blockSize]

/-- The blocks of a descriptor of `n` dimensions: every block is positive and blocks one of them. -/
def ValidInner (n : ℕ) (L : List InnerBlk) : Prop := ∀ b ∈ L, b.idx < n ∧ 0 < b.blk

instance (n : ℕ) (L : List InnerBlk) : Decidable (ValidInner n L) :=
  inferInstanceAs (Decidable (∀ b ∈ L, b.idx < n ∧ 0 < b.blk))

theorem ValidInner.tail {n : ℕ} {b : InnerBlk} {L : List InnerBlk} (h : ValidInner n (b :: L)) :
    ValidInner n L := fun c hc => h c (List.mem_cons_of_mem _ hc)

theorem ValidInner.head {n : ℕ} {b : InnerBlk} {L : List InnerBlk} (h : ValidInner n (b :: L)) :
    b.idx < n ∧ 0 < b.blk := h b List.mem_cons_self

theorem ValidInner.innerBlocks_pos {n : ℕ} {L : List InnerBlk} (h : ValidInner n L) (d : ℕ) :
    0 < innerBlocks L d := by
  induction L with
  | nil => simp
  | cons b L ih =>
    rw [innerBlocks_cons]
    refine Nat.mul_pos ?_ (ih h.tail)
    split_ifs
    · exact h.head.2
    · exact Nat.one_pos

/-- A dimension that does not exist is not blocked. -/
theorem ValidInner.innerBlocks_eq_one {n : ℕ} {L : List InnerBlk} (h : ValidInner n L) {d : ℕ}
    (hd : n ≤ d) : innerBlocks L d = 1 := by
  induction L with
  | nil => rfl
  | cons b L ih =>
    have hb := h.head.1
    rw [innerBlocks_cons, if_neg (by omega), ih h.tail]

theorem ValidInner.blockSize_pos {n : ℕ} {L : List InnerBlk} (h : ValidInner n L) :
    0 < blockSize L := by
  induction L with
  | nil => simp
  | cons b L ih => rw [blockSize_cons]; exact Nat.mul_pos h.head.2 (ih h.tail)

/-! ## The term of one dimension -/

/-- The part of the offset inside the block that coordinate `x` of dimension `d` contributes. -/
def innerOff : List InnerBlk → ℕ → ℕ → ℕ
  | [], _, _ => 0
  | b :: L, d, x =>
    innerOff L d x + if b.idx = d then x / innerBlocks L d % b.blk * blockSize L else 0

/-- The term of the offset that coordinate `x` of dimension `d` contributes. -/
def MemoryDesc.dimOff (md : MemoryDesc) (d x : ℕ) : ℤ :=
  innerOff md.blocking.inner d x + (x / innerBlocks md.blocking.inner d : ℕ) * md.blocking.strides d

/-- The state of `off_v` after its loop over the inner blocks. -/
theorem foldr_peelBlk {n : ℕ} {L : List InnerBlk} (hL : ValidInner n L) (pos : ℕ → ℕ) (off : ℤ) :
    L.foldr peelBlk ⟨pos, off, 1⟩ =
      ⟨fun d => pos d / innerBlocks L d,
        off + ∑ d ∈ Finset.range n, (innerOff L d (pos d) : ℤ), blockSize L⟩ := by
  induction L with
  | nil => simp [innerOff]
  | cons b L ih =>
    have hb : b.idx ∈ Finset.range n := Finset.mem_range.mpr hL.head.1
    rw [List.foldr_cons, ih hL.tail, peelBlk]
    simp only [OffState.mk.injEq]
    refine ⟨funext fun d => ?_, ?_, by rw [blockSize_cons, Nat.mul_comm]⟩
    · rw [innerBlocks_cons]
      by_cases h : d = b.idx
      · subst h
        simp [Nat.div_div_eq_div_mul, Nat.mul_comm]
      · rw [Function.update_of_ne h, if_neg (Ne.symm h), Nat.one_mul]
    · simp only [innerOff, Nat.cast_add, Finset.sum_add_distrib, Nat.cast_ite, Nat.cast_zero,
        Finset.sum_ite_eq, if_pos hb]
      ring

/-- `off_v` of a position of the padded area is the sum of the terms of its coordinates. -/
theorem MemoryDesc.offV_padded {md : MemoryDesc} (hL : ValidInner md.ndims md.blocking.inner)
    (pos : ℕ → ℕ) :
    md.offV pos true = md.offset0 + ∑ d ∈ Finset.range md.ndims, md.dimOff d (pos d) := by
  simp only [offV, foldr_peelBlk hL, dimOff, Finset.sum_add_distrib, if_true, Nat.add_zero]
  ring

/-- Without padding offsets the two readings of a position agree. -/
theorem MemoryDesc.offV_unpadded {md : MemoryDesc} (h : ∀ d, md.paddedOffsets d = 0) (pos : ℕ → ℕ) :
    md.offV pos false = md.offV pos true := by
  simp [offV, h]

/-! ## The loop nest of one dimension -/

/-- The inner blocks of dimension `d` from the outermost one, each with its stride. -/
def dimNodes : List InnerBlk → ℕ → List (ℕ × ℕ)
  | [], _ => []
  | b :: L, d => if b.idx = d then (b.blk, blockSize L) :: dimNodes L d else dimNodes L d

theorem prod_dimNodes (L : List InnerBlk) (d : ℕ) :
    ((dimNodes L d).map Prod.fst).prod = innerBlocks L d := by
  induction L with
  | nil => simp [dimNodes]
  | cons b L ih =>
    rw [dimNodes, innerBlocks_cons]
    split_ifs <;> simp [ih]

/-- A dimension without inner blocks. -/
theorem innerBlocks_of_notMem {L : List InnerBlk} {d : ℕ} (h : ∀ b ∈ L, b.idx ≠ d) : innerBlocks L d = 1 := by
  induction L with
  | nil => rfl
  | cons b L ih =>
    rw [innerBlocks_cons, ih fun c hc => h c (List.mem_cons_of_mem _ hc), if_neg (h b List.mem_cons_self)]

theorem innerOff_of_notMem {L : List InnerBlk} {d : ℕ} (h : ∀ b ∈ L, b.idx ≠ d) (x : ℕ) :
    innerOff L d x = 0 := by
  induction L with
  | nil => rfl
  | cons b L ih =>
    rw [innerOff, ih fun c hc => h c (List.mem_cons_of_mem _ hc), if_neg (h b List.mem_cons_self)]

/-- The offset inside the block only depends on the coordinate inside the block. -/
theorem innerOff_mul_add (L : List InnerBlk) (d q x : ℕ) :
    innerOff L d (q * innerBlocks L d + x) = innerOff L d x := by
  induction L generalizing q with
  | nil => rfl
  | cons b L ih =>
    simp only [innerOff, innerBlocks_cons]
    by_cases h : b.idx = d
    · simp only [if_pos h]
      have hB : q * (b.blk * innerBlocks L d) + x = (q * b.blk) * innerBlocks L d + x := by ring
      rw [hB, ih (q * b.blk)]
      rcases Nat.eq_zero_or_pos (innerBlocks L d) with h0 | h0
      · simp [h0]
      · rw [Nat.add_comm _ x, Nat.add_mul_div_right _ _ h0, Nat.add_mul_mod_self_right]
    · simp only [if_neg h, Nat.one_mul, Nat.add_zero]
      exact ih q

theorem innerOff_mod (L : List InnerBlk) (d x : ℕ) :
    innerOff L d (x % innerBlocks L d) = innerOff L d x := by
  conv_rhs => rw [← Nat.div_add_mod' x (innerBlocks L d)]
  exact (innerOff_mul_add L d _ _).symm

theorem innerOff_zero (L : List InnerBlk) (d : ℕ) : innerOff L d 0 = 0 := by
  induction L with
  | nil => rfl
  | cons b L ih => simp [innerOff, ih]

/-- The offsets of one block along dimension `d`. -/
theorem ofList_innerOff {L : List InnerBlk} {n : ℕ} (hL : ValidInner n L) (d : ℕ) :
    ofList (List.range (innerBlocks L d)) (innerOff L d) = nest (dimNodes L d) := by
  induction L with
  | nil => rw [dimNodes, nest_nil]; rfl
  | cons b L ih =>
    have hB := hL.tail.innerBlocks_pos d
    rw [innerBlocks_cons, dimNodes]
    by_cases h : b.idx = d
    · rw [if_pos h, if_pos h, nest_cons, ← ih hL.tail, strided]
      refine ofList_range_mul _ _ fun q hq r hr => ?_
      rw [innerOff, if_pos h, innerOff_mul_add, Nat.add_comm, smul_eq_mul]
      congr 2
      rw [Nat.mul_comm q, Nat.mul_add_div hB, Nat.div_eq_of_lt hr, Nat.add_zero,
        Nat.mod_eq_of_lt hq]
    · rw [if_neg h, if_neg h, Nat.one_mul, ← ih hL.tail]
      exact ofList_congr fun x _ => by rw [innerOff, if_neg h, Nat.add_zero]

/-- The offsets of one dimension: a loop over its `m` outer blocks around the loops of one block. -/
theorem MemoryDesc.ofList_dimOff {md : MemoryDesc} (hL : ValidInner md.ndims md.blocking.inner)
    (d m : ℕ) :
    ofList (List.range (m * innerBlocks md.blocking.inner d)) (md.dimOff d) =
      strided m (md.blocking.strides d) *
        map (Nat.castAddMonoidHom ℤ) (nest (dimNodes md.blocking.inner d)) := by
  set L := md.blocking.inner with hLdef
  have hB := hL.innerBlocks_pos d
  rw [← ofList_innerOff hL d, map_ofList, strided]
  refine ofList_range_mul _ _ fun q _ r hr => ?_
  have hq : (q * innerBlocks L d + r) / innerBlocks L d = q := by
    rw [Nat.mul_comm, Nat.mul_add_div hB, Nat.div_eq_of_lt hr, Nat.add_zero]
  rw [dimOff, ← hLdef, innerOff_mul_add, hq, nsmul_eq_mul, Nat.coe_castAddMonoidHom, add_comm]

/-- The offsets of the padded area: the product over the dimensions of their loop nests. -/
theorem MemoryDesc.ofList_offV {md : MemoryDesc} (hL : ValidInner md.ndims md.blocking.inner)
    {m : ℕ → ℕ} (hm : ∀ d < md.ndims, md.paddedDims d = m d * innerBlocks md.blocking.inner d)
    (h0 : md.offset0 = 0) :
    ofList (box md.paddedDims md.ndims) (fun pos => md.offV pos true) =
      ∏ d ∈ Finset.range md.ndims, (strided (m d) (md.blocking.strides d) *
        map (Nat.castAddMonoidHom ℤ) (nest (dimNodes md.blocking.inner d))) := by
  have hoff : ∀ pos, md.offV pos true = ∑ d ∈ Finset.range md.ndims, md.dimOff d (pos d) :=
    fun pos => by rw [md.offV_padded hL, h0, zero_add]
  simp only [hoff]
  rw [ofList_box]
  refine Finset.prod_congr rfl fun d hd => ?_
  rw [hm d (Finset.mem_range.mp hd), md.ofList_dimOff hL]

/-- The inner blocks of all dimensions together form one dense block. -/
theorem prod_nest_dimNodes {n : ℕ} {L : List InnerBlk} (hL : ValidInner n L) :
    ∏ d ∈ Finset.range n, nest (dimNodes L d) = strided (blockSize L) 1 := by
  induction L with
  | nil => simp [dimNodes]
  | cons b L ih =>
    have hb : b.idx ∈ Finset.range n := Finset.mem_range.mpr hL.head.1
    have hsplit : ∀ d, nest (dimNodes (b :: L) d) =
        (if b.idx = d then strided b.blk (blockSize L) else 1) * nest (dimNodes L d) := by
      intro d
      rw [dimNodes]
      split_ifs <;> simp
    simp only [hsplit]
    rw [Finset.prod_mul_distrib, Finset.prod_ite_eq, if_pos hb, ih hL.tail, blockSize_cons,
      strided_mul, smul_eq_mul, Nat.mul_one]

end MklDnn
