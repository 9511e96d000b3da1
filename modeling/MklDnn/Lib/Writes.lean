import Mathlib.Data.List.Nodup
import Mathlib.Data.List.Perm.Basic
import Mathlib.Logic.Function.Basic

/-!
# Lists of writes

A memory is a function from addresses to values. The writes of a parallel section reach the memory in
an order that is not known; when two writes to one address write the same value the order is irrelevant,
and the memory is determined by which writes there are.
-/

namespace LoopNest

variable {A V : Type*}

section Apply

variable [DecidableEq A]

/-- The memory after the writes of a list, in the order of the list. -/
def applyWrites (ws : List (A × V)) (m : A → V) : A → V :=
  ws.foldl (fun m w => Function.update m w.1 w.2) m

@[simp] theorem applyWrites_nil (m : A → V) : applyWrites [] m = m := rfl

@[simp] theorem applyWrites_cons (w : A × V) (ws : List (A × V)) (m : A → V) :
    applyWrites (w :: ws) m = applyWrites ws (Function.update m w.1 w.2) := rfl

/-- An address without a write keeps its value. -/
theorem applyWrites_of_notMem {ws : List (A × V)} {a : A} (h : ∀ w ∈ ws, w.1 ≠ a) (m : A → V) :
    applyWrites ws m a = m a := by
  induction ws generalizing m with
  | nil => rfl
  | cons w ws ih =>
    have hw : w.1 ≠ a := h w List.mem_cons_self
    rw [applyWrites_cons, ih (fun x hx => h x (List.mem_cons_of_mem _ hx))]
    exact Function.update_of_ne hw.symm _ _

end Apply

/-- Writes to the same address write the same value. -/
def Consistent (ws : List (A × V)) : Prop := ∀ w ∈ ws, ∀ w' ∈ ws, w.1 = w'.1 → w.2 = w'.2

/-- Writes that are the image of positions under an address function only depend on the address when
the address determines the position. -/
theorem Consistent.of_map {ι : Type*} {l : List ι} {addr : ι → A} {val : ι → V}
    (h : ∀ i ∈ l, ∀ j ∈ l, addr i = addr j → val i = val j) :
    Consistent (l.map fun i => (addr i, val i)) := by
  intro w hw w' hw' he
  obtain ⟨i, hi, rfl⟩ := List.mem_map.mp hw
  obtain ⟨j, hj, rfl⟩ := List.mem_map.mp hw'
  exact h i hi j hj he

/-- A written address holds the value that was written. -/
theorem applyWrites_of_mem [DecidableEq A] {ws : List (A × V)} (hc : Consistent ws) {a : A} {v : V}
    (h : (a, v) ∈ ws) (m : A → V) : applyWrites ws m a = v := by
  induction ws generalizing m with
  | nil => exact absurd h List.not_mem_nil
  | cons w ws ih =>
    have hc' : Consistent ws := fun x hx y hy =>
      hc x (List.mem_cons_of_mem _ hx) y (List.mem_cons_of_mem _ hy)
    rw [applyWrites_cons]
    by_cases hmem : (a, v) ∈ ws
    · exact ih hc' hmem _
    · -- the last write to `a` is the head
      have hw : w = (a, v) := by
        rcases List.mem_cons.mp h with hw | hw
        · exact hw.symm
        · exact absurd hw hmem
      have hnone : ∀ x ∈ ws, x.1 ≠ a := by
        intro x hx hxa
        have hv : x.2 = v := hc x (List.mem_cons_of_mem _ hx) (a, v) h hxa
        exact hmem (by rw [← hxa, ← hv]; exact hx)
      rw [applyWrites_of_notMem hnone, hw]
      exact Function.update_self ..

/-- Consistent lists with the same writes have the same effect. -/
theorem applyWrites_eq_of_mem_iff [DecidableEq A] {ws ws' : List (A × V)} (hc : Consistent ws)
    (h : ∀ w, w ∈ ws ↔ w ∈ ws') (m : A → V) : applyWrites ws m = applyWrites ws' m := by
  have hc' : Consistent ws' := fun w hw w' hw' => hc w ((h w).mpr hw) w' ((h w').mpr hw')
  funext a
  by_cases hex : ∃ v, (a, v) ∈ ws
  · obtain ⟨v, hv⟩ := hex
    rw [applyWrites_of_mem hc hv, applyWrites_of_mem hc' ((h _).mp hv)]
  · have hnone : ∀ w ∈ ws, w.1 ≠ a := by
      rintro ⟨b, v⟩ hw rfl
      exact hex ⟨v, hw⟩
    rw [applyWrites_of_notMem hnone, applyWrites_of_notMem fun w hw => hnone w ((h w).mpr hw)]

end LoopNest
