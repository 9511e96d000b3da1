import Mathlib.Logic.Basic
import Mathlib.Data.Nat.Init

/-!
# Checks that can fail

Programs that return a value or stop with an error, and loops over checks, whose state is whether all of the checks have
passed so far.
-/

namespace Checks

section Bind

variable {ε : Type*} {α β : Type}

theorem bind_eq_ok {x : Except ε α} {f : α → Except ε β} {b : β} : (x >>= f) = .ok b ↔ ∃ a, x = .ok a ∧ f a = .ok b := by
  cases x with
  | error e =>
    simp [bind, Except.bind]
  | ok a =>
    simp [bind, Except.bind]

theorem bind_eq_error {x : Except ε α} {f : α → Except ε β} {e : ε} :
    (x >>= f) = .error e ↔ x = .error e ∨ ∃ a, x = .ok a ∧ f a = .error e := by
  cases x with
  | error e' =>
    simp [bind, Except.bind]
  | ok a =>
    simp [bind, Except.bind]

/-- A computation that succeeds with a result that passes a test. -/
theorem exists_ok_of_any {x : Except ε α} {test : α → Bool} (h : x.toOption.any test = true) :
    ∃ a, x = .ok a ∧ test a = true := by
  cases x with
  | error e => cases h
  | ok a => exact ⟨a, rfl, h⟩

end Bind

section Partial

variable {α β : Type*} {f : α → Option β}

/-- A loop whose steps have results. -/
theorem mapM_eq_some {g : α → β} {l : List α} (h : ∀ x ∈ l, f x = some (g x)) : l.mapM f = some (l.map g) := by
  induction l with
  | nil => rfl
  | cons x l ih =>
    rw [List.mapM_cons, h x List.mem_cons_self, ih fun y hy => h y (List.mem_cons_of_mem _ hy)]
    rfl

/-- A loop with a result has one at every step. -/
theorem isSome_of_mapM {l : List α} (h : (l.mapM f).isSome) : ∀ x ∈ l, (f x).isSome := by
  induction l with
  | nil => exact fun x hx => absurd hx List.not_mem_nil
  | cons a l ih =>
    rw [List.mapM_cons] at h
    cases ha : f a with
    | none =>
      rw [ha] at h
      cases h
    | some b =>
      cases hl : l.mapM f with
      | none =>
        rw [ha, hl] at h
        cases h
      | some bs =>
        intro x hx
        rcases List.mem_cons.mp hx with rfl | hx
        · rw [ha]
          rfl
        · exact ih (by rw [hl]; rfl) x hx

end Partial

section Loops

variable {ε α : Type*} {f : Bool → α → Except ε Bool}

/-- A loop over checks passes if all of them do. -/
theorem foldlM_eq_ok_true {l : List α} (hfalse : ∀ i ∈ l, f false i ≠ .ok true) (c : Bool) :
    l.foldlM f c = .ok true ↔ c = true ∧ ∀ i ∈ l, f true i = .ok true := by
  induction l generalizing c with
  | nil =>
    simp [pure, Except.pure]
  | cons i l ih =>
    have hrest := ih fun j hj => hfalse j (List.mem_cons_of_mem i hj)
    have hi : f c i = .ok true ↔ c = true ∧ f true i = .ok true := by
      cases c with
      | false =>
        simp [hfalse i List.mem_cons_self]
      | true =>
        simp
    rw [List.foldlM_cons, List.forall_mem_cons, ← and_assoc, ← hi]
    cases hf : f c i with
    | error e =>
      simp [bind, Except.bind]
    | ok c' =>
      show l.foldlM f c' = .ok true ↔ _
      rw [hrest, Except.ok.injEq]

/-- A loop over checks stops at the first one that stops it, if all before it pass. -/
theorem foldlM_eq_error {f : Bool → ℕ → Except ε Bool} {e : ε} {l : List ℕ} (hsorted : l.Pairwise (· < ·))
    (hfalse : ∀ i ∈ l, f false i = .ok false) (c : Bool) :
    l.foldlM f c = .error e ↔ c = true ∧ ∃ i ∈ l, f true i = .error e ∧ ∀ j ∈ l, j < i → f true j = .ok true := by
  induction l generalizing c with
  | nil =>
    simp [pure, Except.pure]
  | cons a l ih =>
    obtain ⟨hhead, htail⟩ := List.pairwise_cons.mp hsorted
    have hrest := ih htail fun i hi => hfalse i (List.mem_cons_of_mem a hi)
    rw [List.foldlM_cons]
    cases c with
    | false =>
      rw [hfalse a List.mem_cons_self]
      show l.foldlM f false = .error e ↔ _
      rw [hrest]
      simp
    | true =>
      -- the check at the head passes, fails or stops the loop
      constructor
      · intro hloop
        refine ⟨rfl, ?_⟩
        cases hf : f true a with
        | error e' =>
          rw [hf] at hloop
          have he : e' = e := by simpa [bind, Except.bind] using hloop
          refine ⟨a, List.mem_cons_self, by rw [hf, he], fun j hj hlt => ?_⟩
          rcases List.mem_cons.mp hj with rfl | hj
          · exact absurd hlt (Nat.lt_irrefl _)
          · exact absurd (hhead j hj) (by omega)
        | ok c' =>
          rw [hf] at hloop
          have hloop : l.foldlM f c' = .error e := hloop
          obtain ⟨rfl, i, hi, hz, hbefore⟩ := (hrest c').mp hloop
          refine ⟨i, List.mem_cons_of_mem a hi, hz, fun j hj hlt => ?_⟩
          rcases List.mem_cons.mp hj with rfl | hj
          · exact hf
          · exact hbefore j hj hlt
      · rintro ⟨-, i, hi, hz, hbefore⟩
        rcases List.mem_cons.mp hi with rfl | hi
        · rw [hz]
          rfl
        · rw [hbefore a List.mem_cons_self (hhead i hi)]
          show l.foldlM f true = .error e
          exact (hrest true).mpr ⟨rfl, i, hi, hz, fun j hj => hbefore j (List.mem_cons_of_mem a hj)⟩

/-- A loop whose steps do not stop with an error does not either. -/
theorem foldlM_ne_error {e : ε} {l : List α} (h : ∀ c, ∀ i ∈ l, f c i ≠ .error e) (c : Bool) : l.foldlM f c ≠ .error e := by
  induction l generalizing c with
  | nil =>
    intro hloop
    cases hloop
  | cons i l ih =>
    rw [List.foldlM_cons]
    cases hf : f c i with
    | error e' =>
      intro hloop
      have he : e' = e := by simpa [bind, Except.bind] using hloop
      exact h c i List.mem_cons_self (by rw [hf, he])
    | ok c' =>
      exact ih (fun c j hj => h c j (List.mem_cons_of_mem i hj)) c'

end Loops

end Checks
