import Mathlib.Tactic.IntervalCases
import MklDnn.Common.Proofs.ThreadingProofs
import MklDnn.Memory.Proofs.OffsetProofs
import MklDnn.Memory.ZeroPad

/-!
# Proofs: the specialised zero padding routine

`typed_zero_pad_blk` sets the tails of the last blocks along the blocked dimensions to zero. This holds
for every descriptor with the inner blocks the routine assumes, also for one whose padded extents are
no multiples of the block size.
-/

open LoopNest

namespace MklDnn

/-! ## The inner blocks -/

/-- The inner blocks that `typed_zero_pad_blk` assumes: blocks of size `bs` of the dimensions of the
kind, where the block of the outer dimension may be split around the other block. -/
def FastInner (kind : BlkKind) (bs : ℕ) : List InnerBlk → Prop
  | [b0] => kind.dims = [b0.idx] ∧ b0.blk = bs
  | [b0, b1] => kind.dims = [b0.idx, b1.idx] ∧ b0.blk = bs ∧ b1.blk = bs
  | [b0, b1, b2] =>
    kind.dims = [b0.idx, b1.idx] ∧ b2.idx = b0.idx ∧ b0.blk * b2.blk = bs ∧ b1.blk = bs ∧ 0 < b2.blk
  | _ => False

instance (kind : BlkKind) (bs : ℕ) : (L : List InnerBlk) → Decidable (FastInner kind bs L)
  | [] => inferInstanceAs (Decidable False)
  | [_] => inferInstanceAs (Decidable (_ ∧ _))
  | [_, _] => inferInstanceAs (Decidable (_ ∧ _ ∧ _))
  | [_, _, _] => inferInstanceAs (Decidable (_ ∧ _ ∧ _ ∧ _ ∧ _))
  | _ :: _ :: _ :: _ :: _ => inferInstanceAs (Decidable False)

theorem BlkKind.dims_lt {kind : BlkKind} {d : ℕ} (h : d ∈ kind.dims) : d < 3 := by
  cases kind <;> simp [BlkKind.dims] at h <;> omega

theorem BlkKind.dims_nodup (kind : BlkKind) : kind.dims.Nodup := by
  cases kind <;> decide

namespace FastInner

variable {kind : BlkKind} {bs : ℕ} {L : List InnerBlk}

/-- The shapes of the inner blocks: one block, or two dimensions of which the outer one may be split. -/
theorem cases (h : FastInner kind bs L) :
    (∃ d0, kind.dims = [d0] ∧ L = [⟨d0, bs⟩]) ∨
    (∃ d0 d1, kind.dims = [d0, d1] ∧ L = [⟨d0, bs⟩, ⟨d1, bs⟩]) ∨
    ∃ d0 d1 x z, kind.dims = [d0, d1] ∧ x * z = bs ∧ 0 < z ∧ L = [⟨d0, x⟩, ⟨d1, bs⟩, ⟨d0, z⟩] := by
  match L, h with
  | [⟨d0, x⟩], ⟨hdims, hx⟩ =>
    obtain rfl : x = bs := hx
    exact Or.inl ⟨d0, hdims, rfl⟩
  | [⟨d0, x⟩, ⟨d1, y⟩], ⟨hdims, hx, hy⟩ =>
    obtain rfl : x = bs := hx
    obtain rfl : y = x := hy
    exact Or.inr (Or.inl ⟨d0, d1, hdims, rfl⟩)
  | [⟨d0, x⟩, ⟨d1, y⟩, ⟨d2, z⟩], ⟨hdims, hd2, hxz, hy, hz⟩ =>
    obtain rfl : d2 = d0 := hd2
    obtain rfl : y = bs := hy
    exact Or.inr (Or.inr ⟨d2, d1, x, z, hdims, hxz, hz, rfl⟩)

theorem dimIsBlocked_iff (h : FastInner kind bs L) (d : ℕ) :
    dimIsBlocked L d = true ↔ d ∈ kind.dims := by
  rcases h.cases with ⟨d0, hk, rfl⟩ | ⟨d0, d1, hk, rfl⟩ | ⟨d0, d1, x, z, hk, -, -, rfl⟩ <;>
    rw [hk] <;>
    simp only [dimIsBlocked, List.any_cons, List.any_nil, Bool.or_false, Bool.or_eq_true,
      decide_eq_true_eq, List.mem_cons, List.not_mem_nil, or_false] <;>
    omega

theorem innerBlocks_eq (h : FastInner kind bs L) (d : ℕ) :
    innerBlocks L d = if d ∈ kind.dims then bs else 1 := by
  have hnd := kind.dims_nodup
  rcases h.cases with ⟨d0, hk, rfl⟩ | ⟨d0, d1, hk, rfl⟩ | ⟨d0, d1, x, z, hk, hxz, -, rfl⟩
  · rw [hk]
    simp [innerBlocks_cons, eq_comm]
  · rw [hk] at hnd ⊢
    have hne : d0 ≠ d1 := by simpa using hnd
    simp only [innerBlocks_cons, innerBlocks_nil, List.mem_cons, List.not_mem_nil, or_false]
    by_cases h0 : d = d0
    · subst h0
      simp [hne.symm]
    · by_cases h1 : d = d1
      · subst h1
        simp [hne]
      · simp [h0, h1, Ne.symm h0, Ne.symm h1]
  · rw [hk] at hnd ⊢
    have hne : d0 ≠ d1 := by simpa using hnd
    simp only [innerBlocks_cons, innerBlocks_nil, List.mem_cons, List.not_mem_nil, or_false]
    by_cases h0 : d = d0
    · subst h0
      simp [hne.symm, hxz]
    · by_cases h1 : d = d1
      · subst h1
        simp [hne]
      · simp [h0, h1, Ne.symm h0, Ne.symm h1]

theorem innerOff_eq_zero (h : FastInner kind bs L) {d : ℕ} (hd : d ∉ kind.dims) (x : ℕ) :
    innerOff L d x = 0 := by
  refine innerOff_of_notMem (fun b hb he => hd ?_) x
  rw [← h.dimIsBlocked_iff, dimIsBlocked, List.any_eq_true]
  exact ⟨b, hb, by simpa using he⟩

end FastInner

/-- The offset inside a block of two dimensions is the sum of the terms of its two coordinates. -/
theorem FastInner.tailOff_eq {kind : BlkKind} {bs : ℕ} {L : List InnerBlk} (h : FastInner kind bs L)
    {d0 d1 : ℕ} (hk : kind.dims = [d0, d1]) {b1 b2 : ℕ} (hb1 : b1 < bs) (hb2 : b2 < bs) :
    tailOff bs (innerBlkOf L) b1 b2 = innerOff L d0 b1 + innerOff L d1 b2 := by
  have hne : d0 ≠ d1 := by
    have hnd := kind.dims_nodup
    rw [hk] at hnd
    simpa using hnd
  rcases h.cases with ⟨e0, hk', rfl⟩ | ⟨e0, e1, hk', rfl⟩ | ⟨e0, e1, x, z, hk', hxz, hz, rfl⟩
  · rw [hk] at hk'
    simp at hk'
  · rw [hk] at hk'
    obtain ⟨rfl, rfl⟩ : d0 = e0 ∧ d1 = e1 := by simpa using hk'
    simp only [tailOff, innerBlkOf, innerOff, innerBlocks_cons, innerBlocks_nil, blockSize_cons,
      blockSize_nil, hne, hne.symm, if_true, if_false, Nat.zero_add, Nat.add_zero, Nat.mul_one,
      Nat.div_one, Nat.one_mul, Nat.mod_eq_of_lt hb1, Nat.mod_eq_of_lt hb2, Nat.mod_one]
  · rw [hk] at hk'
    obtain ⟨rfl, rfl⟩ : d0 = e0 ∧ d1 = e1 := by simpa using hk'
    have hx : b1 / z < x := Nat.div_lt_of_lt_mul (by rw [Nat.mul_comm, hxz]; exact hb1)
    simp only [tailOff, innerBlkOf, innerOff, innerBlocks_cons, innerBlocks_nil, blockSize_cons,
      blockSize_nil, hne, hne.symm, if_true, if_false, Nat.zero_add, Nat.add_zero, Nat.mul_one,
      Nat.div_one, Nat.one_mul, Nat.mod_eq_of_lt hx, Nat.mod_eq_of_lt hb2]
    ring

/-- The part of an offset inside a block, as a sum over the dimensions `typed_zero_pad_blk` knows. -/
def inBlock (L : List InnerBlk) (r : ℕ → ℕ) : ℤ := ∑ d ∈ Finset.range 6, (innerOff L d (r d) : ℤ)

namespace FastInner

variable {kind : BlkKind} {bs : ℕ} {L : List InnerBlk}

theorem inBlock_one (h : FastInner kind bs L) {d0 : ℕ} (hk : kind.dims = [d0]) (r : ℕ → ℕ) :
    inBlock L r = innerOff L d0 (r d0) := by
  have hd0 : d0 < 3 := BlkKind.dims_lt (by rw [hk]; exact List.mem_cons_self)
  refine Finset.sum_eq_single d0 (fun d _ hne => ?_) fun hn => ?_
  · rw [h.innerOff_eq_zero (by rw [hk]; simpa using hne), Nat.cast_zero]
  · exact absurd (Finset.mem_range.mpr (by omega)) hn

theorem inBlock_two (h : FastInner kind bs L) {d0 d1 : ℕ} (hk : kind.dims = [d0, d1]) (r : ℕ → ℕ) :
    inBlock L r = innerOff L d0 (r d0) + innerOff L d1 (r d1) := by
  have hnd := kind.dims_nodup
  have hd0 : d0 < 3 := BlkKind.dims_lt (by rw [hk]; exact List.mem_cons_self)
  have hd1 : d1 < 3 := BlkKind.dims_lt (by rw [hk]; simp)
  rw [hk] at hnd
  have hne : d0 ≠ d1 := by simpa using hnd
  refine Finset.sum_eq_add d0 d1 hne (fun d _ hd => ?_) (fun hn => ?_) fun hn => ?_
  · rw [h.innerOff_eq_zero (by rw [hk]; simpa using hd), Nat.cast_zero]
  · exact absurd (Finset.mem_range.mpr (by omega)) hn
  · exact absurd (Finset.mem_range.mpr (by omega)) hn

/-- The coordinates inside a block. -/
theorem mem_box_iff (h : FastInner kind bs L) {r : ℕ → ℕ} :
    r ∈ box (innerBlocks L) 6 ↔ (∀ d ∈ kind.dims, r d < bs) ∧ ∀ d, d ∉ kind.dims → r d = 0 := by
  rw [mem_box]
  constructor
  · rintro ⟨hlt, hz⟩
    refine ⟨fun d hd => ?_, fun d hd => ?_⟩
    · have hd' := hlt d (by have := BlkKind.dims_lt hd; omega)
      rwa [h.innerBlocks_eq, if_pos hd] at hd'
    · by_cases h6 : d < 6
      · have hd' := hlt d h6
        rw [h.innerBlocks_eq, if_neg hd] at hd'
        omega
      · exact hz d (by omega)
  · rintro ⟨hlt, hz⟩
    refine ⟨fun d _ => ?_, fun d hd => hz d fun hm => ?_⟩
    · rw [h.innerBlocks_eq]
      split_ifs with hm
      · exact hlt d hm
      · rw [hz d hm]
        exact Nat.one_pos
    · have := BlkKind.dims_lt hm
      omega

/-- The tail along the only blocked dimension. -/
theorem mem_zeroizeTail (h : FastInner kind bs L) {d0 : ℕ} (hk : kind.dims = [d0]) {x y : ℤ}
    {tail : ℕ} : y ∈ zeroizeTail bs x tail ↔
      ∃ r ∈ box (innerBlocks L) 6, tail ≤ r d0 ∧ y = x + inBlock L r := by
  have hoff : ∀ b < bs, innerOff L d0 b = b := by
    intro b hb
    rcases h.cases with ⟨e0, hk', rfl⟩ | ⟨e0, e1, hk', rfl⟩ | ⟨e0, e1, x, z, hk', -, -, rfl⟩
    · rw [hk] at hk'
      obtain rfl : d0 = e0 := by simpa using hk'
      simp [innerOff, Nat.mod_eq_of_lt hb]
    · simp [hk] at hk'
    · simp [hk] at hk'
  simp only [zeroizeTail, List.mem_map, List.mem_range'_1]
  constructor
  · rintro ⟨b, hb, rfl⟩
    refine ⟨Function.update (fun _ => 0) d0 b, h.mem_box_iff.mpr ⟨fun d hd => ?_, fun d hd => ?_⟩,
      ?_, ?_⟩
    · obtain rfl : d = d0 := by simpa [hk] using hd
      rw [Function.update_self]
      omega
    · rw [Function.update_of_ne (by simpa [hk] using hd)]
    · rw [Function.update_self]
      exact hb.1
    · rw [h.inBlock_one hk, Function.update_self, hoff b (by omega)]
  · rintro ⟨r, hr, htail, rfl⟩
    have hlt := (h.mem_box_iff.mp hr).1 d0 (by rw [hk]; exact List.mem_cons_self)
    refine ⟨r d0, by omega, ?_⟩
    rw [h.inBlock_one hk, hoff _ hlt]

/-- The offsets of a block of two dimensions, by their two coordinates. -/
theorem exists_tailOff_iff (h : FastInner kind bs L) {d0 d1 : ℕ} (hk : kind.dims = [d0, d1])
    (P : ℕ → ℕ → Prop) {x y : ℤ} :
    (∃ b1 < bs, ∃ b2 < bs, P b1 b2 ∧ x + tailOff bs (innerBlkOf L) b1 b2 = y) ↔
      ∃ r ∈ box (innerBlocks L) 6, P (r d0) (r d1) ∧ y = x + inBlock L r := by
  have hnd := kind.dims_nodup
  rw [hk] at hnd
  have hne : d0 ≠ d1 := by simpa using hnd
  constructor
  · rintro ⟨b1, hb1, b2, hb2, hP, rfl⟩
    set r := Function.update (Function.update (fun _ => 0) d0 b1) d1 b2 with hrdef
    have hr0 : r d0 = b1 := by
      rw [hrdef, Function.update_of_ne hne, Function.update_self]
    have hr1 : r d1 = b2 := Function.update_self ..
    refine ⟨r, h.mem_box_iff.mpr ⟨fun d hd => ?_, fun d hd => ?_⟩, ?_, ?_⟩
    · rcases (by simpa [hk] using hd : d = d0 ∨ d = d1) with rfl | rfl
      · rwa [hr0]
      · rwa [hr1]
    · have hd' : d ≠ d0 ∧ d ≠ d1 := by simpa [hk] using hd
      rw [hrdef, Function.update_of_ne hd'.2, Function.update_of_ne hd'.1]
    · rwa [hr0, hr1]
    · rw [h.inBlock_two hk, hr0, hr1, h.tailOff_eq hk hb1 hb2, Nat.cast_add]
  · rintro ⟨r, hr, hP, rfl⟩
    have hlt0 := (h.mem_box_iff.mp hr).1 d0 (by rw [hk]; exact List.mem_cons_self)
    have hlt1 := (h.mem_box_iff.mp hr).1 d1 (by rw [hk]; simp)
    refine ⟨r d0, hlt0, r d1, hlt1, hP, ?_⟩
    rw [h.inBlock_two hk, h.tailOff_eq hk hlt0 hlt1, Nat.cast_add]

/-- The tail along the inner one of two blocked dimensions. -/
theorem mem_zeroizeTailInner (h : FastInner kind bs L) {d0 d1 : ℕ} (hk : kind.dims = [d0, d1])
    {x y : ℤ} {tail : ℕ} : y ∈ zeroizeTailInner bs (innerBlkOf L) x tail ↔
      ∃ r ∈ box (innerBlocks L) 6, tail ≤ r d1 ∧ y = x + inBlock L r := by
  rw [← h.exists_tailOff_iff hk fun _ b2 => tail ≤ b2]
  simp only [zeroizeTailInner, List.mem_flatMap, List.mem_range, List.mem_map, List.mem_range'_1]
  constructor
  · rintro ⟨b1, hb1, b2, hb2, rfl⟩
    exact ⟨b1, hb1, b2, by omega, hb2.1, rfl⟩
  · rintro ⟨b1, hb1, b2, hb2, htail, rfl⟩
    exact ⟨b1, hb1, b2, by omega, rfl⟩

/-- The tail along the outer one of two blocked dimensions. -/
theorem mem_zeroizeTailOuter (h : FastInner kind bs L) {d0 d1 : ℕ} (hk : kind.dims = [d0, d1])
    {x y : ℤ} {tail : ℕ} : y ∈ zeroizeTailOuter bs (innerBlkOf L) x tail ↔
      ∃ r ∈ box (innerBlocks L) 6, tail ≤ r d0 ∧ y = x + inBlock L r := by
  rw [← h.exists_tailOff_iff hk fun b1 _ => tail ≤ b1]
  simp only [zeroizeTailOuter, List.mem_flatMap, List.mem_range, List.mem_map, List.mem_range'_1]
  constructor
  · rintro ⟨b1, hb1, b2, hb2, rfl⟩
    exact ⟨b1, by omega, b2, hb2, hb1.1, rfl⟩
  · rintro ⟨b1, hb1, b2, hb2, htail, rfl⟩
    exact ⟨b1, by omega, b2, hb2, rfl⟩

end FastInner

/-! ## The loops over the last blocks -/

/-- The number of blocks along a dimension that `typed_zero_pad_blk` loops over. -/
def blkCount (md : MemoryDesc) (bs d : ℕ) : ℕ :=
  if d < 3 then
    if dimIsBlocked md.blocking.inner d then md.paddedDims d / bs else md.dims d
  else if md.ndims > d then md.dims d else 1

/-- The offset of the outer block `q`. -/
def outerOff (md : MemoryDesc) (q : ℕ → ℤ) : ℤ :=
  md.offset0 + ∑ d ∈ Finset.range 6, q d * md.blocking.strides d

/-- The offset `y` lies in the tail of a last block along dimension `e`. -/
def InTail (md : MemoryDesc) (bs e : ℕ) (y : ℤ) : Prop :=
  ∃ q : ℕ → ℤ, (∀ d < 6, d ≠ e → 0 ≤ q d ∧ q d < blkCount md bs d) ∧ q e = blkCount md bs e - 1 ∧
    ∃ r ∈ box (innerBlocks md.blocking.inner) 6, md.dims e % bs ≤ r e ∧
      y = outerOff md q + inBlock md.blocking.inner r

theorem mem_flatMap_body5 {α : Type*} {nthr : ℕ} (hnthr : 0 < nthr) {n0 n1 n2 n3 n4 : ℕ}
    {f : ℕ → ℕ → ℕ → ℕ → ℕ → List α} {y : α} :
    y ∈ (parallelNd nthr [n0, n1, n2, n3, n4]).flatMap (body5 f) ↔
      ∃ i0 < n0, ∃ i1 < n1, ∃ i2 < n2, ∃ i3 < n3, ∃ i4 < n4, y ∈ f i0 i1 i2 i3 i4 := by
  simp only [List.mem_flatMap, mem_parallelNd hnthr]
  constructor
  · rintro ⟨p, hp, hy⟩
    obtain ⟨i0, p0, h0, hp0, rfl⟩ := List.forall₂_cons_right_iff.mp hp
    obtain ⟨i1, p1, h1, hp1, rfl⟩ := List.forall₂_cons_right_iff.mp hp0
    obtain ⟨i2, p2, h2, hp2, rfl⟩ := List.forall₂_cons_right_iff.mp hp1
    obtain ⟨i3, p3, h3, hp3, rfl⟩ := List.forall₂_cons_right_iff.mp hp2
    obtain ⟨i4, p4, h4, hp4, rfl⟩ := List.forall₂_cons_right_iff.mp hp3
    obtain rfl := List.forall₂_nil_right_iff.mp hp4
    exact ⟨i0, h0, i1, h1, i2, h2, i3, h3, i4, h4, hy⟩
  · rintro ⟨i0, h0, i1, h1, i2, h2, i3, h3, i4, h4, hy⟩
    exact ⟨[i0, i1, i2, i3, i4], by simp [h0, h1, h2, h3, h4], hy⟩

theorem blkOff_six (md : MemoryDesc) (q : ℕ → ℤ) :
    md.blkOff [q 0, q 1, q 2, q 3, q 4, q 5] = outerOff md q := by
  simp only [MemoryDesc.blkOff, outerOff, List.zipIdx_cons, List.zipIdx_nil, List.map_cons,
    List.map_nil, List.sum_cons, List.sum_nil, Finset.sum_range_succ, Finset.sum_range_zero]
  ring

/-- What a routine for the last block along `e` has to set to zero in the block at `x`. -/
def IsTailOf (md : MemoryDesc) (bs e : ℕ) (tail : ℤ → List ℤ) : Prop :=
  ∀ x y, y ∈ tail x ↔ ∃ r ∈ box (innerBlocks md.blocking.inner) 6, md.dims e % bs ≤ r e ∧
    y = x + inBlock md.blocking.inner r

section Sections

variable {md : MemoryDesc} {bs nthr : ℕ} {tail : ℤ → List ℤ} {y : ℤ}

/-- A loop whose body treats the last block along `e` of every outer block. -/
theorem IsTailOf.inTail {e : ℕ} (ht : IsTailOf md bs e tail) (q : ℕ → ℤ)
    (hq : ∀ d < 6, d ≠ e → 0 ≤ q d ∧ q d < blkCount md bs d) (hqe : q e = blkCount md bs e - 1)
    (hy : y ∈ tail (md.blkOff [q 0, q 1, q 2, q 3, q 4, q 5])) : InTail md bs e y := by
  rw [blkOff_six] at hy
  exact ⟨q, hq, hqe, (ht _ _).mp hy⟩

theorem IsTailOf.exists_counters {e : ℕ} (ht : IsTailOf md bs e tail) (h : InTail md bs e y) :
    ∃ q : ℕ → ℕ, (∀ d < 6, d ≠ e → q d < blkCount md bs d) ∧
      y ∈ tail (outerOff md (Function.update (fun d => (q d : ℤ)) e (blkCount md bs e - 1))) := by
  obtain ⟨q, hq, hqe, hy⟩ := h
  refine ⟨fun d => (q d).toNat, fun d hd hne => ?_, (ht _ _).mpr ?_⟩
  · have hqd := hq d hd hne
    show (q d).toNat < _
    omega
  · have hsame : outerOff md (Function.update (fun d => ((q d).toNat : ℤ)) e
        (blkCount md bs e - 1)) = outerOff md q := by
      unfold outerOff
      refine congrArg (md.offset0 + ·) (Finset.sum_congr rfl fun d hd => ?_)
      by_cases hde : d = e
      · subst hde
        rw [Function.update_self, hqe]
      · have hqd := hq d (Finset.mem_range.mp hd) hde
        rw [Function.update_of_ne hde, Int.toNat_of_nonneg hqd.1]
    rw [hsame]
    exact hy

theorem mem_sectionC (hnthr : 0 < nthr) (ht : IsTailOf md bs 2 tail) :
    y ∈ (parallelNd nthr [blkCount md bs 0, blkCount md bs 1, blkCount md bs 3, blkCount md bs 4,
        blkCount md bs 5]).flatMap (body5 fun a b d e f =>
          tail (md.blkOff [a, b, blkCount md bs 2 - 1, d, e, f])) ↔ InTail md bs 2 y := by
  rw [mem_flatMap_body5 hnthr]
  constructor
  · rintro ⟨a, ha, b, hb, d, hd, e, he, f, hf, hy⟩
    refine ht.inTail (fun i => [(a : ℤ), b, blkCount md bs 2 - 1, d, e, f].getD i 0)
      (fun i hi hne => ?_) rfl hy
    interval_cases i <;> simp_all
  · intro h
    obtain ⟨q, hq, hy⟩ := ht.exists_counters h
    rw [← blkOff_six] at hy
    exact ⟨q 0, hq 0 (by omega) (by omega), q 1, hq 1 (by omega) (by omega), q 3,
      hq 3 (by omega) (by omega), q 4, hq 4 (by omega) (by omega), q 5, hq 5 (by omega) (by omega),
      by simpa using hy⟩

theorem mem_sectionB (hnthr : 0 < nthr) (ht : IsTailOf md bs 1 tail) :
    y ∈ (parallelNd nthr [blkCount md bs 0, blkCount md bs 2, blkCount md bs 3, blkCount md bs 4,
        blkCount md bs 5]).flatMap (body5 fun a c d e f =>
          tail (md.blkOff [a, blkCount md bs 1 - 1, c, d, e, f])) ↔ InTail md bs 1 y := by
  rw [mem_flatMap_body5 hnthr]
  constructor
  · rintro ⟨a, ha, c, hc, d, hd, e, he, f, hf, hy⟩
    refine ht.inTail (fun i => [(a : ℤ), blkCount md bs 1 - 1, c, d, e, f].getD i 0)
      (fun i hi hne => ?_) rfl hy
    interval_cases i <;> simp_all
  · intro h
    obtain ⟨q, hq, hy⟩ := ht.exists_counters h
    rw [← blkOff_six] at hy
    exact ⟨q 0, hq 0 (by omega) (by omega), q 2, hq 2 (by omega) (by omega), q 3,
      hq 3 (by omega) (by omega), q 4, hq 4 (by omega) (by omega), q 5, hq 5 (by omega) (by omega),
      by simpa using hy⟩

theorem mem_sectionA (hnthr : 0 < nthr) (ht : IsTailOf md bs 0 tail) :
    y ∈ (parallelNd nthr [blkCount md bs 1, blkCount md bs 2, blkCount md bs 3, blkCount md bs 4,
        blkCount md bs 5]).flatMap (body5 fun b c d e f =>
          tail (md.blkOff [blkCount md bs 0 - 1, b, c, d, e, f])) ↔ InTail md bs 0 y := by
  rw [mem_flatMap_body5 hnthr]
  constructor
  · rintro ⟨b, hb, c, hc, d, hd, e, he, f, hf, hy⟩
    refine ht.inTail (fun i => [(blkCount md bs 0 : ℤ) - 1, b, c, d, e, f].getD i 0)
      (fun i hi hne => ?_) rfl hy
    interval_cases i <;> simp_all
  · intro h
    obtain ⟨q, hq, hy⟩ := ht.exists_counters h
    rw [← blkOff_six] at hy
    exact ⟨q 1, hq 1 (by omega) (by omega), q 2, hq 2 (by omega) (by omega), q 3,
      hq 3 (by omega) (by omega), q 4, hq 4 (by omega) (by omega), q 5, hq 5 (by omega) (by omega),
      by simpa using hy⟩

end Sections

/-- The specialised routine sets the tails of the last blocks along the blocked dimensions to zero. -/
theorem mem_typedZeroPadBlk {md : MemoryDesc} {kind : BlkKind} {bs nthr : ℕ} (hnthr : 0 < nthr)
    (h : FastInner kind bs md.blocking.inner) {y : ℤ} :
    y ∈ typedZeroPadBlk nthr md kind bs ↔
      ∃ e ∈ kind.dims, md.dims e % bs ≠ 0 ∧ InTail md bs e y := by
  have hsec : ∀ (e : ℕ) (dims : List ℕ) (body : List ℕ → List ℤ) ,
      (e ∈ kind.dims → (y ∈ (parallelNd nthr dims).flatMap body ↔ InTail md bs e y)) →
      ((y ∈ if (if dimIsBlocked md.blocking.inner e then md.dims e % bs else 0) ≠ 0 then
          (parallelNd nthr dims).flatMap body else []) ↔
        e ∈ kind.dims ∧ md.dims e % bs ≠ 0 ∧ InTail md bs e y) := by
    intro e dims body hbody
    by_cases he : e ∈ kind.dims
    · simp only [(h.dimIsBlocked_iff e).mpr he, if_true, he, true_and]
      split_ifs with ht
      · rw [hbody he]
        tauto
      · tauto
    · have hblk : dimIsBlocked md.blocking.inner e = false := by
        rw [← Bool.not_eq_true, h.dimIsBlocked_iff]
        exact he
      simp [hblk, he]
  have htailC : 2 ∈ kind.dims → IsTailOf md bs 2 fun x =>
      zeroizeC kind bs (innerBlkOf md.blocking.inner) x
        (if dimIsBlocked md.blocking.inner 2 then md.dims 2 % bs else 0) := by
    intro he x y
    rw [if_pos ((h.dimIsBlocked_iff 2).mpr he)]
    cases kind with
    | c => exact h.mem_zeroizeTail rfl
    | bc => exact h.mem_zeroizeTailInner rfl
    | cb => exact h.mem_zeroizeTailOuter rfl
    | a | b | ab | ba => simp [BlkKind.dims] at he
  have htailB : 1 ∈ kind.dims → IsTailOf md bs 1 fun x =>
      zeroizeB kind bs (innerBlkOf md.blocking.inner) x
        (if dimIsBlocked md.blocking.inner 1 then md.dims 1 % bs else 0) := by
    intro he x y
    rw [if_pos ((h.dimIsBlocked_iff 1).mpr he)]
    cases kind with
    | b => exact h.mem_zeroizeTail rfl
    | ab | cb => exact h.mem_zeroizeTailInner rfl
    | ba | bc => exact h.mem_zeroizeTailOuter rfl
    | a | c => simp [BlkKind.dims] at he
  have htailA : 0 ∈ kind.dims → IsTailOf md bs 0 fun x =>
      zeroizeA kind bs (innerBlkOf md.blocking.inner) x
        (if dimIsBlocked md.blocking.inner 0 then md.dims 0 % bs else 0) := by
    intro he x y
    rw [if_pos ((h.dimIsBlocked_iff 0).mpr he)]
    cases kind with
    | a => exact h.mem_zeroizeTail rfl
    | ba => exact h.mem_zeroizeTailInner rfl
    | ab => exact h.mem_zeroizeTailOuter rfl
    | b | c | bc | cb => simp [BlkKind.dims] at he
  have hC := hsec 2 _ _ fun he => mem_sectionC hnthr (htailC he)
  have hB := hsec 1 _ _ fun he => mem_sectionB hnthr (htailB he)
  have hA := hsec 0 _ _ fun he => mem_sectionA hnthr (htailA he)
  have hsplit : y ∈ typedZeroPadBlk nthr md kind bs ↔
      (2 ∈ kind.dims ∧ md.dims 2 % bs ≠ 0 ∧ InTail md bs 2 y) ∨
      (1 ∈ kind.dims ∧ md.dims 1 % bs ≠ 0 ∧ InTail md bs 1 y) ∨
      (0 ∈ kind.dims ∧ md.dims 0 % bs ≠ 0 ∧ InTail md bs 0 y) := by
    rw [← hA, ← hB, ← hC, ← or_assoc]
    unfold typedZeroPadBlk
    rw [List.mem_append, List.mem_append]
    exact Iff.rfl
  rw [hsplit]
  constructor
  · rintro (he | he | he)
    · exact ⟨2, he⟩
    · exact ⟨1, he⟩
    · exact ⟨0, he⟩
  · rintro ⟨e, he⟩
    have hlt := BlkKind.dims_lt he.1
    interval_cases e
    · exact Or.inr (Or.inr he)
    · exact Or.inr (Or.inl he)
    · exact Or.inl he

end MklDnn
