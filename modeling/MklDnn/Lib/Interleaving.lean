import Mathlib.Data.List.Induction
import Mathlib.Logic.Function.Basic

/-!
# Interleavings of threads

Threads that execute straight-line programs over a shared state. In every step one thread executes its
next event, if the state enables the event. A run is any sequence of steps; it is labelled with the
events in the order in which they happen.
-/

namespace Interleaving

variable {E S : Type*}

/-- What an event of a thread needs and what it does. -/
structure System (E S : Type*) where
  enabled : ℕ → E → S → Prop
  exec : ℕ → E → S → S

/-- What is left of the program of every thread, and the shared state. -/
structure Config (E S : Type*) where
  progs : ℕ → List E
  state : S

/-- Nothing is left to be executed. -/
def Config.Complete (c : Config E S) : Prop := ∀ p, c.progs p = []

/-- The configuration after thread `p` has executed `e` in front of `rest`. -/
def Config.next (sys : System E S) (c : Config E S) (p : ℕ) (e : E) (rest : List E) : Config E S where
  progs := Function.update c.progs p rest
  state := sys.exec p e c.state

variable (sys : System E S)

@[simp] theorem Config.next_progs_self (c : Config E S) (p : ℕ) (e : E) (rest : List E) :
    (c.next sys p e rest).progs p = rest := by
  simp [Config.next]

theorem Config.next_progs_of_ne {c : Config E S} {p q : ℕ} {e : E} {rest : List E} (hq : q ≠ p) :
    (c.next sys p e rest).progs q = c.progs q := by
  simp [Config.next, hq]

/-- One step: thread `p` executes its next event `e`. -/
inductive Step (c : Config E S) : ℕ × E → Config E S → Prop
  | mk {p : ℕ} {e : E} {rest : List E} (hprog : c.progs p = e :: rest)
      (henabled : sys.enabled p e c.state) : Step c (p, e) (c.next sys p e rest)

/-- A run and the events that happen in it. -/
inductive Run (c : Config E S) : List (ℕ × E) → Config E S → Prop
  | nil : Run c [] c
  | snoc {h : List (ℕ × E)} {c' c'' : Config E S} {x : ℕ × E} (hrun : Run c h c')
      (hstep : Step sys c' x c'') : Run c (h ++ [x]) c''

variable {sys} {c c' : Config E S} {h : List (ℕ × E)}

/-- The events of thread `p`. -/
def eventsOf (p : ℕ) (h : List (ℕ × E)) : List E := (h.filter fun x => x.1 = p).map Prod.snd

@[simp] theorem eventsOf_nil (p : ℕ) : eventsOf p ([] : List (ℕ × E)) = [] := rfl

@[simp] theorem eventsOf_append (p : ℕ) (h h' : List (ℕ × E)) :
    eventsOf p (h ++ h') = eventsOf p h ++ eventsOf p h' := by
  simp [eventsOf]

theorem eventsOf_singleton (p : ℕ) (x : ℕ × E) :
    eventsOf p [x] = if x.1 = p then [x.2] else [] := by
  by_cases hp : x.1 = p <;> simp [eventsOf, hp]

theorem mem_eventsOf {p : ℕ} {e : E} : e ∈ eventsOf p h ↔ (p, e) ∈ h := by
  simp only [eventsOf, List.mem_map, List.mem_filter, decide_eq_true_eq]
  constructor
  · rintro ⟨⟨q, e'⟩, ⟨hmem, rfl⟩, rfl⟩
    exact hmem
  · intro hmem
    exact ⟨(p, e), ⟨hmem, rfl⟩, rfl⟩

/-- What a thread has executed and what is left of its program make up the program. -/
theorem Run.progs_eq (hrun : Run sys c h c') (p : ℕ) : c.progs p = eventsOf p h ++ c'.progs p := by
  induction hrun with
  | nil => rfl
  | snoc _ hstep ih =>
    cases hstep with
    | @mk q e rest hprog henabled =>
      rw [ih, eventsOf_append, eventsOf_singleton, List.append_assoc]
      refine congrArg _ ?_
      by_cases hp : q = p
      · subst hp
        simp [hprog]
      · simp [hp, Config.next_progs_of_ne _ (Ne.symm hp)]

/-- In a complete run every thread executes its program. -/
theorem Run.eventsOf_eq (hrun : Run sys c h c') (hcomplete : c'.Complete) (p : ℕ) :
    eventsOf p h = c.progs p := by
  rw [hrun.progs_eq p, hcomplete p, List.append_nil]

/-- What is left of a program is a suffix of it. -/
theorem Run.suffix (hrun : Run sys c h c') (p : ℕ) : c'.progs p <:+ c.progs p :=
  ⟨eventsOf p h, (hrun.progs_eq p).symm⟩

theorem Run.mem_of_mem (hrun : Run sys c h c') {p : ℕ} {e : E} (he : e ∈ c'.progs p) :
    e ∈ c.progs p :=
  (hrun.suffix p).subset he

/-- A property of the initial configuration that every step preserves holds throughout a run. -/
theorem Run.invariant {I : Config E S → Prop} (hrun : Run sys c h c') (hinit : I c)
    (hstep : ∀ {c1 c2 : Config E S} {x : ℕ × E} {h1 : List (ℕ × E)}, Run sys c h1 c1 → I c1 →
      Step sys c1 x c2 → I c2) : I c' := by
  induction hrun with
  | nil => exact hinit
  | snoc hrun' hs ih => exact hstep hrun' ih hs

/-- The last step of a run. -/
theorem Run.last {x : ℕ × E} (hrun : Run sys c (h ++ [x]) c') :
    ∃ c1, Run sys c h c1 ∧ Step sys c1 x c' := by
  generalize hh : h ++ [x] = hist at hrun
  cases hrun with
  | nil => simp at hh
  | snoc hrun' hstep =>
    obtain ⟨rfl, hx⟩ := List.append_inj' hh rfl
    obtain ⟨rfl, -⟩ := List.cons.inj hx
    exact ⟨_, hrun', hstep⟩

/-- The configuration in the middle of a run. -/
theorem Run.split {h1 h2 : List (ℕ × E)} (hrun : Run sys c (h1 ++ h2) c') :
    ∃ c1, Run sys c h1 c1 ∧ Run sys c1 h2 c' := by
  induction h2 using List.reverseRecOn generalizing c' with
  | nil =>
    rw [List.append_nil] at hrun
    exact ⟨c', hrun, Run.nil⟩
  | append_singleton h2 x ih =>
    rw [← List.append_assoc] at hrun
    obtain ⟨c2, hrun', hstep⟩ := hrun.last
    obtain ⟨c1, hrun1, hrun2⟩ := ih hrun'
    exact ⟨c1, hrun1, hrun2.snoc hstep⟩

/-- The first event of a run is the next one of its thread. -/
theorem Run.first {p : ℕ} {e : E} (hrun : Run sys c ((p, e) :: h) c') :
    ∃ rest, c.progs p = e :: rest := by
  have hprogs := hrun.progs_eq p
  have hev : eventsOf p ((p, e) :: h) = e :: eventsOf p h := by simp [eventsOf]
  rw [hev] at hprogs
  exact ⟨_, hprogs⟩

/-- The events of a run come from the programs. -/
theorem Run.mem_progs (hrun : Run sys c h c') {x : ℕ × E} (hx : x ∈ h) : x.2 ∈ c.progs x.1 := by
  rw [hrun.progs_eq x.1]
  exact List.mem_append_left _ (mem_eventsOf.mpr hx)

/-- A complete run contains all events of the programs. -/
theorem Run.mem_of_complete (hrun : Run sys c h c') (hcomplete : c'.Complete) {p : ℕ} {e : E}
    (he : e ∈ c.progs p) : (p, e) ∈ h := by
  rw [← hrun.eventsOf_eq hcomplete p] at he
  exact mem_eventsOf.mp he

/-! ## Events that need others before them -/

/-- Every event of the program has, with what was executed before it, the property `ok`. -/
def Justified (ok : List E → E → Prop) : List E → List E → Prop
  | _, [] => True
  | seen, e :: l => ok seen e ∧ Justified ok (seen ++ [e]) l

variable {ok : List E → E → Prop}

theorem justified_append {seen l l' : List E} :
    Justified ok seen (l ++ l') ↔ Justified ok seen l ∧ Justified ok (seen ++ l) l' := by
  induction l generalizing seen with
  | nil => simp [Justified]
  | cons e l ih => simp only [List.cons_append, Justified, ih, and_assoc, List.append_assoc,
      List.nil_append]

/-- The parts of a program are justified after anything that contains `base`. -/
theorem justified_flatMap {α : Type*} {base : List E} {l : List α} {f : α → List E}
    (h : ∀ x ∈ l, ∀ seen, base ⊆ seen → Justified ok seen (f x)) {seen : List E}
    (hseen : base ⊆ seen) : Justified ok seen (l.flatMap f) := by
  induction l generalizing seen with
  | nil => trivial
  | cons x l ih =>
    rw [List.flatMap_cons, justified_append]
    refine ⟨h x List.mem_cons_self seen hseen, ?_⟩
    refine ih (fun y hy => h y (List.mem_cons_of_mem x hy)) ?_
    exact fun e he => List.mem_append_left _ (hseen he)

theorem justified_flatMap_of_forall {α : Type*} {l : List α} {f : α → List E}
    (h : ∀ x ∈ l, ∀ seen, Justified ok seen (f x)) (seen : List E) :
    Justified ok seen (l.flatMap f) :=
  justified_flatMap (fun x hx seen' (_ : [] ⊆ seen') => h x hx seen') (List.nil_subset seen)

/-- Programs whose events are all fine after anything that contains `base` are justified. -/
theorem justified_of_subset {base l : List E} (h : ∀ e ∈ l, ∀ seen, base ⊆ seen → ok seen e)
    {seen : List E} (hseen : base ⊆ seen) : Justified ok seen l := by
  induction l generalizing seen with
  | nil => trivial
  | cons e l ih =>
    refine ⟨h e List.mem_cons_self seen hseen, ih (fun x hx => h x (List.mem_cons_of_mem e hx)) ?_⟩
    exact fun x hx => List.mem_append_left _ (hseen hx)

theorem justified_of_forall {l : List E} (h : ∀ e ∈ l, ∀ seen, ok seen e) (seen : List E) :
    Justified ok seen l :=
  justified_of_subset (fun e he seen' (_ : [] ⊆ seen') => h e he seen') (List.nil_subset seen)

/-- The next event of a thread is justified by the events it has executed. -/
theorem Run.ok_head (hrun : Run sys c h c') {p : ℕ} (hj : Justified ok [] (c.progs p)) {e : E}
    {rest : List E} (hhead : c'.progs p = e :: rest) : ok (eventsOf p h) e := by
  rw [hrun.progs_eq p, hhead, justified_append, List.nil_append] at hj
  exact hj.2.1

end Interleaving
