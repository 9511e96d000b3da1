import Mathlib.Tactic.LinearCombination
import MklDnn.Memory.Proofs.ZeroPadProofs

/-!
# Proofs: the block in front of the first block

In a dense descriptor the offset of the block with index `-1` along a dimension is the offset of another
block, whose outer indices are found by borrowing as in a subtraction of numbers; or it lies in front of
the buffer, when there is nothing to borrow from.
-/

open LoopNest

namespace MklDnn

/-! ## Sums of digits -/

/-- The offset of outer indices `q`, the dimensions taken in the order of a list. -/
def digitSum (strides : ℕ → ℤ) (perm : List ℕ) (q : ℕ → ℤ) : ℤ :=
  (perm.map fun d => q d * strides d).sum

@[simp] theorem digitSum_nil (strides : ℕ → ℤ) (q : ℕ → ℤ) : digitSum strides [] q = 0 := rfl

@[simp] theorem digitSum_cons (strides : ℕ → ℤ) (d : ℕ) (perm : List ℕ) (q : ℕ → ℤ) :
    digitSum strides (d :: perm) q = q d * strides d + digitSum strides perm q := by
  simp [digitSum]

@[simp] theorem digitSum_append (strides : ℕ → ℤ) (l l' : List ℕ) (q : ℕ → ℤ) :
    digitSum strides (l ++ l') q = digitSum strides l q + digitSum strides l' q := by
  simp [digitSum]

theorem digitSum_congr {strides : ℕ → ℤ} {l : List ℕ} {q q' : ℕ → ℤ} (h : ∀ d ∈ l, q d = q' d) :
    digitSum strides l q = digitSum strides l q' := by
  unfold digitSum
  rw [List.map_congr_left fun d hd => by rw [h d hd]]

theorem digitSum_eq_zero {strides : ℕ → ℤ} {l : List ℕ} {q : ℕ → ℤ} (h : ∀ d ∈ l, q d = 0) :
    digitSum strides l q = 0 := by
  have hzero : digitSum strides l q = digitSum strides l fun _ => 0 := digitSum_congr h
  rw [hzero]
  simp [digitSum]

theorem DenseStrides.of_append {m : ℕ → ℕ} {strides : ℕ → ℤ} {s : ℕ} {l l' : List ℕ}
    (h : DenseStrides m strides s (l ++ l')) : DenseStrides m strides s l' := by
  induction l with
  | nil => exact h
  | cons d l ih => exact ih h.2

/-- Digits below their bounds stay below the next stride. -/
theorem DenseStrides.digitSum_add_le {m : ℕ → ℕ} {strides : ℕ → ℤ} {s : ℕ} {perm : List ℕ}
    (h : DenseStrides m strides s perm) {q : ℕ → ℤ} (hq : ∀ d ∈ perm, q d < m d) :
    digitSum strides perm q + s ≤ (s * (perm.map m).prod : ℕ) := by
  induction perm with
  | nil => simp
  | cons d perm ih =>
    obtain ⟨hd, hperm⟩ := h
    have ih' := ih hperm fun e he => hq e (List.mem_cons_of_mem _ he)
    have hqd : q d ≤ m d - 1 := by
      have := hq d List.mem_cons_self
      omega
    have hprod : 0 ≤ ((s * (perm.map m).prod : ℕ) : ℤ) := Int.natCast_nonneg _
    have hcons : ((s * ((d :: perm).map m).prod : ℕ) : ℤ) = m d * (s * (perm.map m).prod : ℕ) := by
      rw [List.map_cons, List.prod_cons]
      push_cast
      ring
    rw [digitSum_cons, hd, hcons]
    have hmul : q d * ((s * (perm.map m).prod : ℕ) : ℤ) ≤
        (m d - 1) * ((s * (perm.map m).prod : ℕ) : ℤ) := Int.mul_le_mul_of_nonneg_right hqd hprod
    rw [Int.sub_mul, Int.one_mul] at hmul
    omega

/-- The largest digits of the leading dimensions, and one more, are the next stride. -/
theorem DenseStrides.digitSum_max {m : ℕ → ℕ} {strides : ℕ → ℤ} {s : ℕ} {l l' : List ℕ}
    (h : DenseStrides m strides s (l ++ l')) :
    digitSum strides l (fun d => (m d : ℤ) - 1) + (s * (l'.map m).prod : ℕ) =
      (s * ((l ++ l').map m).prod : ℕ) := by
  induction l with
  | nil => simp
  | cons d l ih =>
    obtain ⟨hd, hl⟩ := h
    have hd : strides d = (s * ((l ++ l').map m).prod : ℕ) := hd
    have ih' := ih hl
    rw [List.cons_append, digitSum_cons, hd, List.map_cons, List.prod_cons, add_assoc, ih',
      Nat.mul_left_comm, Nat.cast_mul (m d)]
    ring

theorem DenseStrides.pos {m : ℕ → ℕ} {strides : ℕ → ℤ} {s : ℕ} {perm : List ℕ}
    (h : DenseStrides m strides s perm) (hs : 0 < s) (hm : ∀ d ∈ perm, 0 < m d) :
    ∀ d ∈ perm, 0 < strides d := by
  induction perm with
  | nil => exact fun d hd => absurd hd List.not_mem_nil
  | cons e perm ih =>
    obtain ⟨he, hperm⟩ := h
    have hprod : 0 < s * (perm.map m).prod := by
      refine Nat.mul_pos hs (List.prod_pos fun x hx => ?_)
      obtain ⟨d, hd, rfl⟩ := List.mem_map.mp hx
      exact hm d (List.mem_cons_of_mem _ hd)
    intro d hd
    rcases List.mem_cons.mp hd with rfl | hd
    · rw [he]
      exact_mod_cast hprod
    · exact ih hperm (fun x hx => hm x (List.mem_cons_of_mem _ hx)) d hd

/-! ## Borrowing -/

/-- Either all digits are zero, or there is a last digit that is not zero. -/
theorem exists_last_nonzero (q : ℕ → ℤ) (l : List ℕ) :
    (∀ d ∈ l, q d = 0) ∨ ∃ l1 e l2, l = l1 ++ e :: l2 ∧ q e ≠ 0 ∧ ∀ d ∈ l2, q d = 0 := by
  induction l with
  | nil => exact Or.inl fun d hd => absurd hd List.not_mem_nil
  | cons d l ih =>
    rcases ih with hz | ⟨l1, e, l2, rfl, he, hz⟩
    · by_cases hd : q d = 0
      · refine Or.inl fun e he => ?_
        rcases List.mem_cons.mp he with rfl | he
        · exact hd
        · exact hz e he
      · exact Or.inr ⟨[], d, l, rfl, hd, hz⟩
    · exact Or.inr ⟨d :: l1, e, l2, rfl, he, hz⟩

/-- The digit `-1` of `d2` is resolved by borrowing from the last digit in front of it that is not
zero: that digit is decremented, and those between become the largest ones. -/
theorem DenseStrides.borrow {m : ℕ → ℕ} {strides : ℕ → ℤ} {s : ℕ} {pre post : List ℕ} {d2 : ℕ}
    (h : DenseStrides m strides s (pre ++ d2 :: post)) (hnd : (pre ++ d2 :: post).Nodup) {q : ℕ → ℤ}
    (hd2 : q d2 = -1) (hq : ∀ d ∈ pre, 0 ≤ q d ∧ q d < m d) :
    (∀ d ∈ pre, q d = 0) ∨ ∃ q' : ℕ → ℤ,
      digitSum strides (pre ++ d2 :: post) q' = digitSum strides (pre ++ d2 :: post) q ∧
      q' d2 = m d2 - 1 ∧
      (∀ d ∈ pre, 0 ≤ q' d ∧ q' d < m d) ∧ ∀ d ∉ pre, d ≠ d2 → q' d = q d := by
  rcases exists_last_nonzero q pre with hz | ⟨l1, e, l2, rfl, he, hz⟩
  · exact Or.inl hz
  right
  have hmem : ∀ d, d ∈ l1 ∨ d = e ∨ d ∈ l2 ↔ d ∈ l1 ++ e :: l2 := by
    intro d
    simp
  have hge : 0 < q e := by
    have := (hq e (by simp)).1
    omega
  -- the order of the dimensions: `l1`, then `e`, then `l2`, then `d2`, then `post`
  simp only [List.append_assoc, List.cons_append] at h hnd ⊢
  obtain ⟨-, hnd1, hdisj1⟩ := List.nodup_append.mp hnd
  obtain ⟨he1, hnd2⟩ := List.nodup_cons.mp hnd1
  obtain ⟨-, hnd3, hdisj2⟩ := List.nodup_append.mp hnd2
  obtain ⟨hd2post, -⟩ := List.nodup_cons.mp hnd3
  have hed2 : e ≠ d2 := fun h => he1 (by simp [h])
  have hel2 : e ∉ l2 := fun h => he1 (by simp [h])
  have hepost : e ∉ post := fun h => he1 (by simp [h])
  have hl1 : ∀ d ∈ l1, d ≠ e ∧ d ∉ l2 ∧ d ≠ d2 := fun d hd =>
    ⟨hdisj1 d hd e (by simp), fun hm => hdisj1 d hd d (by simp [hm]) rfl,
      hdisj1 d hd d2 (by simp)⟩
  have hl2 : ∀ d ∈ l2, d ≠ e ∧ d ≠ d2 := fun d hd =>
    ⟨fun hde => hel2 (hde ▸ hd), hdisj2 d hd d2 (by simp)⟩
  have hpost : ∀ d ∈ post, d ≠ e ∧ d ∉ l2 ∧ d ≠ d2 := fun d hd =>
    ⟨fun hde => hepost (hde ▸ hd), fun hm => hdisj2 d hm d (by simp [hd]) rfl,
      fun hde => hd2post (hde ▸ hd)⟩
  set q' : ℕ → ℤ := fun d =>
    if d = e then q e - 1 else if d ∈ l2 ∨ d = d2 then m d - 1 else q d with hq'
  have hq'e : q' e = q e - 1 := by simp [hq']
  have hq'd2 : q' d2 = m d2 - 1 := by simp [hq', hed2.symm]
  have hq'l2 : ∀ d ∈ l2, q' d = m d - 1 := fun d hd => by simp [hq', (hl2 d hd).1, hd]
  have hq'l1 : ∀ d ∈ l1, q' d = q d := fun d hd => by
    obtain ⟨h1, h2, h3⟩ := hl1 d hd
    simp [hq', h1, h2, h3]
  have hq'post : ∀ d ∈ post, q' d = q d := fun d hd => by
    obtain ⟨h1, h2, h3⟩ := hpost d hd
    simp [hq', h1, h2, h3]
  refine ⟨q', ?_, hq'd2, fun d hd => ?_, fun d hd hne => ?_⟩
  · have htail := h.of_append
    have hstride : strides e = (s * ((l2 ++ d2 :: post).map m).prod : ℕ) := htail.1
    have hstride2 : strides d2 = (s * (post.map m).prod : ℕ) := htail.2.of_append.1
    have hmax : digitSum strides (l2 ++ [d2]) (fun d => (m d : ℤ) - 1) + strides d2 = strides e := by
      have hcons : l2 ++ d2 :: post = (l2 ++ [d2]) ++ post := by simp
      rw [hstride, hstride2, hcons]
      exact DenseStrides.digitSum_max (hcons ▸ htail.2)
    simp only [digitSum_append, digitSum_cons, digitSum_nil, add_zero] at hmax ⊢
    rw [digitSum_congr hq'l1, digitSum_congr hq'post, digitSum_congr hq'l2, digitSum_eq_zero hz, hq'e,
      hq'd2, hd2]
    linear_combination hmax
  · rcases (hmem d).mpr hd with hd1 | rfl | hd2'
    · rw [hq'l1 d hd1]
      exact hq d hd
    · rw [hq'e]
      have := hq d hd
      omega
    · rw [hq'l2 d hd2']
      have := hq d hd
      omega
  · have h1 : d ≠ e := fun hde => hd (by simp [hde])
    have h2 : d ∉ l2 := fun hm => hd (by simp [hm])
    simp [hq', h1, h2, hne]

/-! ## Blocks of a dense descriptor -/

/-- The part of an offset inside a block is less than the size of the block. -/
theorem sum_innerOff_lt {n : ℕ} {L : List InnerBlk} (hL : ValidInner n L) {N : ℕ} (hN : n ≤ N)
    (r : ℕ → ℕ) : ∑ d ∈ Finset.range N, innerOff L d (r d) < blockSize L := by
  induction L with
  | nil => simp [innerOff]
  | cons b L ih =>
    have hb : b.idx ∈ Finset.range N := Finset.mem_range.mpr (lt_of_lt_of_le hL.head.1 hN)
    have hlt := ih hL.tail
    have hmod : r b.idx / innerBlocks L b.idx % b.blk < b.blk := Nat.mod_lt _ hL.head.2
    simp only [innerOff, Finset.sum_add_distrib, Finset.sum_ite_eq, if_pos hb, blockSize_cons]
    calc _ < blockSize L + r b.idx / innerBlocks L b.idx % b.blk * blockSize L :=
          Nat.add_lt_add_right hlt _
      _ = (r b.idx / innerBlocks L b.idx % b.blk + 1) * blockSize L := by ring
      _ ≤ b.blk * blockSize L := Nat.mul_le_mul_right _ hmod

namespace Dense

variable {md : MemoryDesc} {perm : List ℕ}

theorem outerOff_eq (h : Dense md perm) (h6 : md.ndims ≤ 6) {q : ℕ → ℤ}
    (hq0 : ∀ d < 6, md.ndims ≤ d → q d = 0) :
    outerOff md q = digitSum md.blocking.strides perm q := by
  have hsum : ∑ d ∈ Finset.range 6, q d * md.blocking.strides d =
      ∑ d ∈ Finset.range md.ndims, q d * md.blocking.strides d := by
    refine (Finset.sum_subset (Finset.range_subset_range.mpr h6) fun d hd hn => ?_).symm
    rw [hq0 d (Finset.mem_range.mp hd) (by simpa using hn), zero_mul]
  rw [outerOff, h.offset0, zero_add, hsum]
  exact ((h.perm_range.map fun d => q d * md.blocking.strides d).sum_eq).symm

/-- The dimensions with at least two blocks and a stride as large as that of `d2` lie outside of it. -/
theorem mem_pre_of_strides_le (h : Dense md perm) {pre post : List ℕ} {d d2 : ℕ}
    (hperm : perm = pre ++ d2 :: post) (hdn : d < md.ndims) (hne : d ≠ d2)
    (hle : md.blocking.strides d2 ≤ md.blocking.strides d) (hm : 1 < md.outerBlocks d) : d ∈ pre := by
  have hstrides := h.strides
  rw [hperm] at hstrides
  have hpos : ∀ e ∈ post, 0 < md.outerBlocks e := fun e he =>
    h.outerBlocks_pos (h.mem_perm.mp (by rw [hperm]; simp [he]))
  have hmem : d ∈ pre ++ d2 :: post := hperm ▸ h.mem_perm.mpr hdn
  rcases List.mem_append.mp hmem with hpre | hpost
  · exact hpre
  · rcases List.mem_cons.mp hpost with rfl | hpost
    · exact absurd rfl hne
    · -- the stride of an inner dimension with two blocks is smaller
      obtain ⟨hd2, htail⟩ := hstrides.of_append
      have hmul := htail.mul_le hpos d hpost
      have hd := htail.pos h.inner.blockSize_pos hpos d hpost
      have h2 : 2 * md.blocking.strides d ≤ md.outerBlocks d * md.blocking.strides d :=
        Int.mul_le_mul_of_nonneg_right (by omega) hd.le
      omega

/-- The strides do not grow from the outer dimensions to the inner ones. -/
theorem strides_le_of_mem_pre (h : Dense md perm) {pre post : List ℕ} {d d2 : ℕ}
    (hperm : perm = pre ++ d2 :: post) (hd : d ∈ pre) :
    md.blocking.strides d2 ≤ md.blocking.strides d := by
  obtain ⟨l1, l2, rfl⟩ := List.append_of_mem hd
  have hstrides := h.strides
  rw [hperm, List.append_assoc] at hstrides
  obtain ⟨hstride, htail⟩ := hstrides.of_append
  have hpos : ∀ e ∈ l2 ++ d2 :: post, 0 < md.outerBlocks e := fun e he =>
    h.outerBlocks_pos (h.mem_perm.mp (by
      rw [hperm]
      rcases List.mem_append.mp he with he | he <;> simp at he ⊢ <;> tauto))
  have hmul := htail.mul_le hpos d2 (by simp)
  have hd2 := htail.pos h.inner.blockSize_pos hpos d2 (by simp)
  have hm := hpos d2 (by simp)
  have hone : 1 * md.blocking.strides d2 ≤ md.outerBlocks d2 * md.blocking.strides d2 :=
    Int.mul_le_mul_of_nonneg_right (by omega) hd2.le
  have hstride' : md.blocking.strides d = (blockSize md.blocking.inner *
      ((l2 ++ d2 :: post).map md.outerBlocks).prod : ℕ) := hstride
  rw [hstride']
  omega

section Borrow

variable {q : ℕ → ℤ} {e : ℕ} (h : Dense md perm) (h6 : md.ndims ≤ 6) (he : e < md.ndims)
  (hqe : q e = -1) (hq : ∀ d < md.ndims, d ≠ e → 0 ≤ q d ∧ q d < md.outerBlocks d)
  (hq0 : ∀ d < 6, md.ndims ≤ d → q d = 0)

include h h6 he hqe hq hq0

/-- With nothing to borrow from, the block in front of the first one lies in front of the buffer. -/
theorem outerOff_neg (hz : ∀ d < md.ndims, d ≠ e → md.blocking.strides e ≤ md.blocking.strides d →
    q d = 0) (r : ℕ → ℕ) : outerOff md q + inBlock md.blocking.inner r < 0 := by
  obtain ⟨pre, post, hperm⟩ := List.append_of_mem (h.mem_perm.mpr he)
  have hnd := h.nodup
  have hstrides := h.strides
  rw [hperm] at hnd hstrides
  have hpre : ∀ d ∈ pre, q d = 0 := by
    intro d hd
    refine hz d (h.mem_perm.mp (by rw [hperm]; simp [hd])) ?_ (h.strides_le_of_mem_pre hperm hd)
    exact (List.nodup_append.mp hnd).2.2 d hd e (by simp)
  have hpost : ∀ d ∈ post, q d < md.outerBlocks d := by
    intro d hd
    refine (hq d (h.mem_perm.mp (by rw [hperm]; simp [hd])) ?_).2
    rintro rfl
    exact (List.nodup_cons.mp (List.nodup_append.mp hnd).2.1).1 hd
  obtain ⟨hstride, htail⟩ := hstrides.of_append
  have hle := htail.digitSum_add_le hpost
  have hin : inBlock md.blocking.inner r < blockSize md.blocking.inner := by
    have hlt := sum_innerOff_lt h.inner h6 r
    unfold inBlock
    exact_mod_cast hlt
  rw [h.outerOff_eq h6 hq0, hperm, digitSum_append, digitSum_cons, digitSum_eq_zero hpre, hqe, hstride]
  omega

/-- Otherwise it has the offset of a block of the tensor, the last one along its dimension. -/
theorem exists_borrow (hnz : ∃ d < md.ndims, d ≠ e ∧
    md.blocking.strides e ≤ md.blocking.strides d ∧ q d ≠ 0) :
    ∃ q' : ℕ → ℤ, outerOff md q' = outerOff md q ∧ q' e = md.outerBlocks e - 1 ∧
      (∀ d < md.ndims, 0 ≤ q' d ∧ q' d < md.outerBlocks d) ∧
      ∀ d < 6, md.ndims ≤ d → q' d = 0 := by
  obtain ⟨pre, post, hperm⟩ := List.append_of_mem (h.mem_perm.mpr he)
  have hnd := h.nodup
  have hstrides := h.strides
  rw [hperm] at hnd hstrides
  have hpre : ∀ d ∈ pre, d < md.ndims ∧ d ≠ e := by
    intro d hd
    refine ⟨h.mem_perm.mp (by rw [hperm]; simp [hd]), ?_⟩
    exact (List.nodup_append.mp hnd).2.2 d hd e (by simp)
  rcases hstrides.borrow hnd hqe fun d hd => hq d (hpre d hd).1 (hpre d hd).2 with
    hz | ⟨q', hsum, hq'e, hq'pre, hq'eq⟩
  · obtain ⟨d, hdn, hde, hle, hqd⟩ := hnz
    have hqd' := hq d hdn hde
    exact absurd (hz d (h.mem_pre_of_strides_le hperm hdn hde hle (by omega))) hqd
  · have hq'0 : ∀ d < 6, md.ndims ≤ d → q' d = 0 := by
      intro d hd6 hdn
      rw [hq'eq d (fun hm => absurd (hpre d hm).1 (by omega)) (by omega)]
      exact hq0 d hd6 hdn
    refine ⟨q', ?_, hq'e, fun d hdn => ?_, hq'0⟩
    · rw [h.outerOff_eq h6 hq'0, h.outerOff_eq h6 hq0, hperm]
      exact hsum
    · by_cases hm : d ∈ pre
      · exact hq'pre d hm
      · by_cases hde : d = e
        · subst hde
          have hpos := h.outerBlocks_pos hdn
          rw [hq'e]
          omega
        · rw [hq'eq d hm hde]
          exact hq d hdn hde

end Borrow

end Dense

end MklDnn
