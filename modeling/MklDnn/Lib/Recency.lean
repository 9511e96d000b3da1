import Mathlib.Data.List.Induction
import Mathlib.Data.List.Nodup

/-!
# Recently used keys

The keys of a history of uses in the order of their last use, the latest first. What a cache of `n`
entries with the LRU policy should hold are the first `n` of them.
-/

namespace Recency

variable {K : Type*} [DecidableEq K]

/-- Using a key moves it to the front. -/
def use (l : List K) (k : K) : List K := k :: l.erase k

/-- The keys of a history, the oldest use first, in the order of their last use. -/
def recent (uses : List K) : List K := uses.foldl use []

@[simp] theorem recent_nil : recent ([] : List K) = [] := rfl

@[simp] theorem recent_append_singleton (uses : List K) (k : K) :
    recent (uses ++ [k]) = use (recent uses) k := by
  simp [recent]

theorem nodup_use {l : List K} (h : l.Nodup) (k : K) : (use l k).Nodup := by
  rw [use, List.nodup_cons]
  exact ⟨h.not_mem_erase, h.erase k⟩

theorem nodup_recent (uses : List K) : (recent uses).Nodup := by
  induction uses using List.reverseRecOn with
  | nil => simp
  | append_singleton uses k ih =>
    rw [recent_append_singleton]
    exact nodup_use ih k

/-- Using one of the first `n` keys moves it to their front. -/
theorem take_use_of_mem {l : List K} {n : ℕ} {k : K} (h : k ∈ l.take n) :
    (use l k).take n = use (l.take n) k := by
  induction l generalizing n with
  | nil => simp at h
  | cons x l ih =>
    cases n with
    | zero => simp at h
    | succ n =>
      by_cases hx : x = k
      · subst hx
        simp [use]
      · have hmem : k ∈ l.take n := by
          rw [List.take_succ_cons, List.mem_cons] at h
          exact h.resolve_left (Ne.symm hx)
        have hrec := ih hmem
        cases n with
        | zero => simp at hmem
        | succ n =>
          rw [use, List.take_succ_cons, use] at hrec
          rw [use, List.take_succ_cons, List.take_succ_cons, use, List.erase_cons_tail (by simpa using hx),
            List.erase_cons_tail (by simpa using hx), List.take_succ_cons, (List.cons.inj hrec).2]

/-- Using another key drops the last one of `n` keys. -/
theorem take_use_of_notMem {l : List K} {n : ℕ} {k : K} (h : k ∉ l.take n) (hn : 0 < n) :
    (use l k).take n = k :: (l.take n).take (n - 1) := by
  obtain ⟨n, rfl⟩ : ∃ m, n = m + 1 := ⟨n - 1, by omega⟩
  rw [use, List.take_succ_cons, Nat.add_sub_cancel]
  refine congrArg _ ?_
  induction l generalizing n with
  | nil => rfl
  | cons x l ih =>
    rw [List.take_succ_cons, List.mem_cons, not_or] at h
    rw [List.erase_cons_tail (by simpa using Ne.symm h.1), List.take_succ_cons]
    cases n with
    | zero => rfl
    | succ n =>
      rw [List.take_succ_cons, List.take_succ_cons]
      exact congrArg _ (ih n h.2 (Nat.succ_pos n))

end Recency
