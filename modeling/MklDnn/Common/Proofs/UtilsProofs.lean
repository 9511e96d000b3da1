import Mathlib.Logic.Equiv.Basic
import Mathlib.Tactic.Common
import MklDnn.Common.Utils

/-!
# Proofs: rounding up
-/

namespace MklDnn

theorem rndUp_eq (a b : ℕ) : rndUp a b = divUp a b * b := rfl

theorem le_rndUp {a b : ℕ} (hb : 0 < b) : a ≤ rndUp a b := by
  have h := Nat.div_add_mod (a + b - 1) b
  have hmod := Nat.mod_lt (a + b - 1) hb
  have hcomm : rndUp a b = b * ((a + b - 1) / b) := Nat.mul_comm _ _
  omega

theorem rndUp_lt {a b : ℕ} (hb : 0 < b) : rndUp a b < a + b := by
  have h := Nat.div_mul_le_self (a + b - 1) b
  have hdef : rndUp a b = (a + b - 1) / b * b := rfl
  omega

theorem divUp_pos {a b : ℕ} (ha : 0 < a) (hb : 0 < b) : 0 < divUp a b :=
  Nat.div_pos (by omega) hb

@[simp] theorem divUp_zero {b : ℕ} (hb : 0 < b) : divUp 0 b = 0 :=
  Nat.div_eq_of_lt (by omega)

@[simp] theorem divUp_one (a : ℕ) : divUp a 1 = a := by
  simp [divUp]

theorem rndUp_div {a b : ℕ} (hb : 0 < b) : rndUp a b / b = divUp a b :=
  Nat.mul_div_cancel _ hb

theorem rndUp_pos {a b : ℕ} (ha : 0 < a) (hb : 0 < b) : 0 < rndUp a b :=
  Nat.mul_pos (divUp_pos ha hb) hb

theorem divUp_mul (a : ℕ) {b : ℕ} (hb : 0 < b) : divUp (b * a) b = a := by
  have heq : b * a + b - 1 = b * a + (b - 1) := by omega
  rw [divUp, heq, Nat.mul_add_div hb, Nat.div_eq_of_lt (by omega), Nat.add_zero]

theorem rndUp_one (a : ℕ) : rndUp a 1 = a := by
  rw [rndUp_eq, divUp_one, Nat.mul_one]

theorem rndUp_add_of_dvd {a c b : ℕ} (hb : 0 < b) (hdvd : b ∣ c) : rndUp (c + a) b = c + rndUp a b := by
  obtain ⟨k, rfl⟩ := hdvd
  have heq : b * k + a + b - 1 = b * k + (a + b - 1) := by omega
  rw [rndUp_eq, rndUp_eq, divUp, heq, Nat.mul_add_div hb, Nat.add_mul, Nat.mul_comm b k]
  rfl

theorem rndUp_eq_self_iff {a b : ℕ} (hb : 0 < b) : rndUp a b = a ↔ b ∣ a := by
  constructor
  · intro h
    rw [← h, rndUp_eq]
    exact Nat.dvd_mul_left b _
  · rintro ⟨k, rfl⟩
    rw [rndUp_eq, divUp_mul k hb, Nat.mul_comm]

theorem divUp_le_iff {a b n : ℕ} (hb : 0 < b) : divUp a b ≤ n ↔ a ≤ n * b := by
  rw [divUp, ← Nat.lt_succ_iff, Nat.div_lt_iff_lt_mul hb, Nat.succ_mul]
  omega

/-- The place of an element in blocks of `n` elements. -/
theorem add_mul_lt {a b n m : ℕ} (ha : a < n) (hb : b < m) : a + b * n < m * n := by
  have h : (b + 1) * n ≤ m * n := Nat.mul_le_mul_right n hb
  rw [Nat.succ_mul] at h
  omega

/-- Places in different blocks are different. -/
theorem add_mul_inj {a b a' b' n : ℕ} (ha : a < n) (ha' : a' < n)
    (h : a + b * n = a' + b' * n) : a = a' ∧ b = b' := by
  have hmod := congrArg (· % n) h
  have hdiv := congrArg (· / n) h
  have hn : 0 < n := by omega
  simp only [Nat.add_mul_mod_self_right, Nat.mod_eq_of_lt ha, Nat.mod_eq_of_lt ha',
    Nat.add_mul_div_right _ _ hn, Nat.div_eq_of_lt ha, Nat.div_eq_of_lt ha', Nat.zero_add] at hmod hdiv
  exact ⟨hmod, hdiv⟩

end MklDnn

/-!
## Proofs: `utils::simultaneous_sort`

The sort is stable: it permutes the entries into the order of the comparator and keeps the order of entries that
the comparator takes for equal.
-/

namespace MklDnn

variable {α T U : Type*}

theorem swapNext_eq (a : ℕ → α) (j : ℕ) : swapNext a j = a ∘ Equiv.swap j (j + 1) := by
  funext k
  rw [swapNext, Function.comp_apply]
  by_cases hnext : k = j + 1
  · rw [hnext, Function.update_self, Equiv.swap_apply_right]
  · rw [Function.update_of_ne hnext]
    by_cases hself : k = j
    · rw [hself, Function.update_self, Equiv.swap_apply_left]
    · rw [Function.update_of_ne hself, Equiv.swap_apply_of_ne_of_ne hself hnext]

/-- Two entries keep their order when other neighbours are swapped. -/
theorem swap_lt_swap {j a b : ℕ} (hab : a < b) (hne : ¬ (a = j ∧ b = j + 1)) :
    Equiv.swap j (j + 1) a < Equiv.swap j (j + 1) b := by
  simp only [Equiv.swap_apply_def]
  split_ifs <;> omega

theorem swap_lt {j a k : ℕ} (hak : a < k) (hk : j + 1 < k) : Equiv.swap j (j + 1) a < k := by
  rw [Equiv.swap_apply_def]
  split_ifs <;> omega

/-! ## The invariants of the loops -/

/-- What the sort relies on: `comparator a b ≤ 0` says that `a` may stand before `b`. -/
structure IsComparator (comparator : T → T → ℤ) : Prop where
  total : ∀ a b, comparator a b > 0 → comparator b a ≤ 0
  trans : ∀ a b c, comparator a b ≤ 0 → comparator b c ≤ 0 → comparator a c ≤ 0

/-- The arrays are the initial ones up to a permutation `σ` of the first `size` entries that keeps the order of
equal entries. -/
structure IsRearranged (comparator : T → T → ℤ) (vals : ℕ → T) (keys : ℕ → U) (size : ℕ) (st : SortState T U)
    (σ : Equiv.Perm ℕ) : Prop where
  vals : st.vals = vals ∘ σ
  keys : st.keys = keys ∘ σ
  outside : ∀ k, size ≤ k → σ k = k
  stable : ∀ j k, j < k → k < size → comparator (st.vals k) (st.vals j) ≤ 0 → σ j < σ k

/-- The entries from `start` on are at their final places. -/
def SortedFrom (comparator : T → T → ℤ) (size : ℕ) (st : SortState T U) (start : ℕ) : Prop :=
  ∀ k, start ≤ k → k < size → ∀ j < k, comparator (st.vals j) (st.vals k) ≤ 0

variable {comparator : T → T → ℤ} {vals : ℕ → T} {keys : ℕ → U} {size : ℕ} {st : SortState T U} {σ : Equiv.Perm ℕ}

theorem IsRearranged.compareSwap (h : IsRearranged comparator vals keys size st σ) {j : ℕ} (hj : j + 1 < size) :
    ∃ σ', IsRearranged comparator vals keys size (st.compareSwap comparator j) σ' := by
  unfold SortState.compareSwap
  split_ifs with hgt
  · refine ⟨(Equiv.swap j (j + 1)).trans σ, ?_, ?_, fun k hk => ?_, fun a b hab hb hle => ?_⟩
    · dsimp only
      rw [swapNext_eq, h.vals, Equiv.coe_trans, Function.comp_assoc]
    · dsimp only
      rw [swapNext_eq, h.keys, Equiv.coe_trans, Function.comp_assoc]
    · rw [Equiv.trans_apply, Equiv.swap_apply_of_ne_of_ne (by omega) (by omega)]
      exact h.outside k hk
    · dsimp only at hle
      rw [swapNext_eq] at hle
      -- the entries that change their order are not equal
      have hne : ¬ (a = j ∧ b = j + 1) := by
        rintro ⟨rfl, rfl⟩
        rw [Function.comp_apply, Function.comp_apply, Equiv.swap_apply_left, Equiv.swap_apply_right] at hle
        omega
      have hsize : Equiv.swap j (j + 1) b < size := by
        rw [Equiv.swap_apply_def]
        split_ifs <;> omega
      exact h.stable _ _ (swap_lt_swap hab hne) hsize hle
  · exact ⟨σ, h⟩

theorem SortedFrom.compareSwap {start : ℕ} (h : SortedFrom comparator size st start) {j : ℕ} (hj : j + 1 < start) :
    SortedFrom comparator size (st.compareSwap comparator j) start := by
  unfold SortState.compareSwap
  split_ifs
  · intro k hk hsize a ha
    dsimp only
    have hkeep : Equiv.swap j (j + 1) k = k := Equiv.swap_apply_of_ne_of_ne (by omega) (by omega)
    rw [swapNext_eq, Function.comp_apply, Function.comp_apply, hkeep]
    exact h k hk hsize _ (swap_lt ha (by omega))
  · exact h

/-! ## One pass -/

/-- After `count` steps of a pass the largest of the first entries stands last; a pass that swaps nothing has
found them in order. -/
structure PassInv (comparator : T → T → ℤ) (st : SortState T U) (count : ℕ) : Prop where
  last : ∀ j ≤ count, comparator (st.vals j) (st.vals count) ≤ 0
  sorted : st.swapped = false → ∀ j < count, comparator (st.vals j) (st.vals (j + 1)) ≤ 0

theorem IsComparator.refl (hcmp : IsComparator comparator) (a : T) : comparator a a ≤ 0 := by
  by_contra hlt
  exact hlt (hcmp.total a a (by omega))

theorem PassInv.compareSwap (hcmp : IsComparator comparator) {count : ℕ} (h : PassInv comparator st count) :
    PassInv comparator (st.compareSwap comparator count) (count + 1) := by
  unfold SortState.compareSwap
  split_ifs with hgt
  · refine ⟨fun j hj => ?_, fun hfalse => by cases hfalse⟩
    dsimp only
    rw [swapNext_eq, Function.comp_apply, Function.comp_apply, Equiv.swap_apply_right]
    by_cases hnext : j = count + 1
    · rw [hnext, Equiv.swap_apply_right]
      exact hcmp.refl _
    · by_cases hself : j = count
      · rw [hself, Equiv.swap_apply_left]
        exact hcmp.total _ _ hgt
      · rw [Equiv.swap_apply_of_ne_of_ne hself hnext]
        exact h.last j (by omega)
  · have hle : comparator (st.vals count) (st.vals (count + 1)) ≤ 0 := by omega
    refine ⟨fun j hj => ?_, fun hfalse j hj => ?_⟩
    · rcases Nat.lt_or_eq_of_le hj with hlt | rfl
      · exact hcmp.trans _ _ _ (h.last j (by omega)) hle
      · exact hcmp.refl _
    · rcases Nat.lt_or_eq_of_le (Nat.le_of_lt_succ hj) with hlt | rfl
      · exact h.sorted hfalse j hlt
      · exact hle

/-- A pass over the entries in front of those that are at their final places. -/
theorem pass_spec (hcmp : IsComparator comparator) (h : IsRearranged comparator vals keys size st σ) {count : ℕ}
    (hcount : count < size) (hsorted : SortedFrom comparator size st (count + 1)) :
    (∃ σ', IsRearranged comparator vals keys size (st.pass comparator count) σ') ∧
      SortedFrom comparator size (st.pass comparator count) (count + 1) ∧
      PassInv comparator (st.pass comparator count) count := by
  -- the inner loop, after `m` of its steps
  suffices hm : ∀ m ≤ count, ∃ st' : SortState T U,
      (List.range m).foldl (SortState.compareSwap comparator) ⟨st.vals, st.keys, false⟩ = st' ∧
        (∃ σ', IsRearranged comparator vals keys size st' σ') ∧ SortedFrom comparator size st' (count + 1) ∧
        PassInv comparator st' m by
    obtain ⟨st', hst', hspec⟩ := hm count (Nat.le_refl _)
    rw [SortState.pass, hst']
    exact hspec
  intro m
  induction m with
  | zero =>
    intro _
    refine ⟨_, rfl, ⟨σ, h.vals, h.keys, h.outside, h.stable⟩, hsorted, fun j hj => ?_, fun _ j hj => ?_⟩
    · obtain rfl := Nat.le_zero.mp hj
      exact hcmp.refl _
    · exact absurd hj (Nat.not_lt_zero j)
  | succ m ih =>
    intro hle
    obtain ⟨st', hst', ⟨σ', hσ'⟩, htail, hinv⟩ := ih (by omega)
    refine ⟨_, ?_, hσ'.compareSwap (j := m) (by omega), htail.compareSwap (by omega), hinv.compareSwap hcmp⟩
    rw [List.range_succ, List.foldl_append, hst']
    rfl

/-! ## The sort -/

theorem PassInv.sortedFrom {count : ℕ} (h : PassInv comparator st count)
    (htail : SortedFrom comparator size st (count + 1)) : SortedFrom comparator size st count := by
  intro k hk hsize j hj
  rcases Nat.lt_or_eq_of_le hk with hlt | rfl
  · exact htail k hlt hsize j hj
  · exact h.last j (by omega)

/-- A pass that swaps nothing ends the sort. -/
theorem PassInv.sorted_all (hcmp : IsComparator comparator) {count : ℕ} (h : PassInv comparator st count)
    (hswapped : st.swapped = false) (htail : SortedFrom comparator size st (count + 1)) :
    SortedFrom comparator size st 0 := by
  intro k _ hsize j hj
  rcases Nat.lt_or_ge count k with hlt | hge
  · exact htail k hlt hsize j hj
  · -- the chain of neighbours from `j` to `k`
    obtain ⟨m, rfl⟩ := Nat.exists_eq_add_of_lt hj
    clear hj
    induction m with
    | zero => exact h.sorted hswapped j (by omega)
    | succ m ih =>
      exact hcmp.trans _ _ _ (ih (by omega) (by omega) (by omega)) (h.sorted hswapped (j + m + 1) (by omega))

theorem passes_spec (hcmp : IsComparator comparator) {fuel i : ℕ} (hfuel : i + fuel + 1 = size)
    (h : IsRearranged comparator vals keys size st σ) (hsorted : SortedFrom comparator size st (size - i)) :
    (∃ σ', IsRearranged comparator vals keys size (SortState.passes comparator size fuel i st) σ') ∧
      SortedFrom comparator size (SortState.passes comparator size fuel i st) 0 := by
  induction fuel generalizing i st σ with
  | zero =>
    refine ⟨⟨σ, h⟩, fun k _ hsize j hj => hsorted k (by omega) hsize j hj⟩
  | succ fuel ih =>
    have hcount : size - i - 1 + 1 = size - i := by omega
    have hlt : size - i - 1 < size := by omega
    obtain ⟨⟨σ', hσ'⟩, htail, hinv⟩ := pass_spec hcmp h hlt (by rwa [hcount])
    rw [SortState.passes]
    split_ifs with hswapped
    · exact ⟨⟨σ', hσ'⟩, hinv.sorted_all hcmp hswapped htail⟩
    · exact ih (by omega) hσ' (hinv.sortedFrom htail)

/-- The sort permutes the entries, puts them in the order of the comparator and is stable. -/
theorem simultaneousSort_spec (hcmp : IsComparator comparator) (vals : ℕ → T) (keys : ℕ → U) (size : ℕ) :
    ∃ σ, IsRearranged comparator vals keys size (simultaneousSort vals keys size comparator) σ ∧
      SortedFrom comparator size (simultaneousSort vals keys size comparator) 0 := by
  have hinit : IsRearranged comparator vals keys size ⟨vals, keys, false⟩ (Equiv.refl ℕ) :=
    ⟨rfl, rfl, fun _ _ => rfl, fun _ _ hlt _ _ => hlt⟩
  unfold simultaneousSort
  split_ifs with hsize
  · exact ⟨_, hinit, fun k _ hk => absurd hk (by omega)⟩
  · have hfuel : 0 + (size - 1) + 1 = size := by omega
    obtain ⟨⟨σ, hσ⟩, hsorted⟩ := passes_spec hcmp hfuel hinit
      fun k hk hlt => absurd hlt (by omega)
    exact ⟨σ, hσ, hsorted⟩

end MklDnn
