import Mathlib.Algebra.BigOperators.Group.List.Basic
import MklDnn.Gemm.KSum

/-!
# Proofs: what the additions of the threads add up to

If only one thread adds to an element of `C`, and everything an addition reads has been stored before,
then no update is lost: in every reachable configuration an element holds its first contribution and the
buffers whose addition has happened.
-/

open Interleaving

namespace MklDnn

variable {V : Type*}

namespace KEvent

/-- The event is part of an addition to element `a`. -/
def Adds (e : KEvent V) (a : ℕ) : Prop := e = .load a ∨ ∃ src, e = .addStore a src

/-- The event stores a result of a multiplication. -/
def IsStore : KEvent V → Prop
  | .storeC _ _ => True
  | .storeLocal _ _ => True
  | _ => False

@[simp] theorem not_isStore_setDone (p : ℕ) : ¬ (KEvent.setDone p : KEvent V).IsStore := id

@[simp] theorem not_isStore_waitDone (p : ℕ) : ¬ (KEvent.waitDone p : KEvent V).IsStore := id

/-- `x` stores a value that the addition `e` reads. -/
def Feeds (x e : KEvent V) : Prop :=
  (∃ a v, x = .storeC a v ∧ e.Adds a) ∨ ∃ a src v, e = .addStore a src ∧ x = .storeLocal src v

theorem Feeds.isStore {x e : KEvent V} (h : x.Feeds e) : x.IsStore := by
  rcases h with ⟨a, v, rfl, -⟩ | ⟨a, src, v, -, rfl⟩
  · trivial
  · trivial

end KEvent

/-- The buffer elements that are added to element `a`. -/
def addsTo (a : ℕ) (l : List (KEvent V)) : List ℕ :=
  l.filterMap fun e =>
    match e with
    | .addStore dst src => if dst = a then some src else none
    | _ => none

@[simp] theorem addsTo_nil (a : ℕ) : addsTo a ([] : List (KEvent V)) = [] := rfl

@[simp] theorem addsTo_append (a : ℕ) (l l' : List (KEvent V)) :
    addsTo a (l ++ l') = addsTo a l ++ addsTo a l' := by
  simp [addsTo]

theorem addsTo_cons_addStore (a src : ℕ) (l : List (KEvent V)) :
    addsTo a (.addStore a src :: l) = src :: addsTo a l := by
  simp [addsTo]

theorem addsTo_cons_of_ne {a : ℕ} {e : KEvent V} (he : ∀ src, e ≠ .addStore a src)
    (l : List (KEvent V)) : addsTo a (e :: l) = addsTo a l := by
  cases e with
  | addStore dst src =>
    have hne : dst ≠ a := by
      rintro rfl
      exact he src rfl
    simp [addsTo, hne]
  | _ => simp [addsTo]

theorem mem_addsTo {a src : ℕ} {l : List (KEvent V)} : src ∈ addsTo a l ↔ .addStore a src ∈ l := by
  induction l with
  | nil => simp
  | cons e l ih =>
    by_cases he : ∃ s, e = .addStore a s
    · obtain ⟨s, rfl⟩ := he
      rw [addsTo_cons_addStore, List.mem_cons, List.mem_cons, ih, KEvent.addStore.injEq]
      simp
    · rw [addsTo_cons_of_ne (fun s hs => he ⟨s, hs⟩), ih, List.mem_cons]
      refine ⟨Or.inr, fun h => h.resolve_left fun heq => he ⟨src, heq.symm⟩⟩

/-- If one thread makes all additions to the element, then they are those of its program. -/
theorem addsTo_map_snd {h : List (ℕ × KEvent V)} {a p : ℕ}
    (hadd : ∀ x ∈ h, x.2.Adds a → x.1 = p) :
    addsTo a (h.map Prod.snd) = addsTo a (eventsOf p h) := by
  induction h with
  | nil => rfl
  | cons x h ih =>
    have hrest := ih fun y hy => hadd y (List.mem_cons_of_mem x hy)
    have hev : eventsOf p (x :: h) = eventsOf p [x] ++ eventsOf p h := eventsOf_append p [x] h
    rw [List.map_cons, hev, eventsOf_singleton]
    by_cases hx : x.1 = p
    · rw [if_pos hx, ← List.singleton_append, addsTo_append, addsTo_append, hrest]
    · have hne : ∀ src, x.2 ≠ .addStore a src := by
        intro src heq
        exact hx (hadd x List.mem_cons_self (Or.inr ⟨src, heq⟩))
      rw [if_neg hx, addsTo_cons_of_ne hne, hrest, List.nil_append]

/-- An element is stored directly after its load. -/
def Paired (seen : List (KEvent V)) : KEvent V → Prop
  | .addStore a _ => ∃ pre, seen = pre ++ [.load a]
  | _ => True

variable [AddCommMonoid V]

/-- Additions do not race: thread `o a` is the only one that adds to element `a`, and when it does so,
nothing that it reads, namely `own a` and `val src`, is left to be stored. -/
structure RaceFree (c0 : Config (KEvent V) (KState V)) (o : ℕ → ℕ) (own val : ℕ → V) : Prop where
  adder : ∀ p a, ∀ e ∈ c0.progs p, e.Adds a → p = o a
  paired : ∀ p, Justified Paired [] (c0.progs p)
  storeC : ∀ p a v, .storeC a v ∈ c0.progs p → v = own a
  storeLocal : ∀ p src v, .storeLocal src v ∈ c0.progs p → v = val src
  initC : ∀ a, (∀ p v, .storeC a v ∉ c0.progs p) → c0.state.c a = own a
  initLocal : ∀ src, (∀ p v, .storeLocal src v ∉ c0.progs p) → c0.state.cLocal src = val src
  guarded : ∀ h c, Run (kSystem V) c0 h c → ∀ p e rest, c.progs p = e :: rest →
    ∀ q, ∀ x ∈ c.progs q, ¬ x.Feeds e

/-- The roles are determined where the programs leave no choice. -/
theorem RaceFree.of_unique {c0 : Config (KEvent V) (KState V)}
    (hadder : ∀ p q a, ∀ e ∈ c0.progs p, ∀ e' ∈ c0.progs q, e.Adds a → e'.Adds a → p = q)
    (hpaired : ∀ p, Justified Paired [] (c0.progs p))
    (hstoreC : ∀ p q a v v', .storeC a v ∈ c0.progs p → .storeC a v' ∈ c0.progs q → v = v')
    (hstoreLocal : ∀ p q src v v', .storeLocal src v ∈ c0.progs p → .storeLocal src v' ∈ c0.progs q →
      v = v')
    (hguarded : ∀ h c, Run (kSystem V) c0 h c → ∀ p e rest, c.progs p = e :: rest →
      ∀ q, ∀ x ∈ c.progs q, ¬ x.Feeds e) :
    ∃ o own val, RaceFree c0 o own val := by
  have ho : ∀ a, ∃ p, ∀ q, ∀ e ∈ c0.progs q, e.Adds a → q = p := by
    intro a
    by_cases h : ∃ p, ∃ e ∈ c0.progs p, e.Adds a
    · obtain ⟨p, e, he, ha⟩ := h
      exact ⟨p, fun q e' he' ha' => hadder q p a e' he' e he ha' ha⟩
    · push Not at h
      exact ⟨0, fun q e he ha => absurd ha (h q e he)⟩
  have hown : ∀ a, ∃ w, (∀ p v, .storeC a v ∈ c0.progs p → v = w) ∧
      ((∀ p v, .storeC a v ∉ c0.progs p) → c0.state.c a = w) := by
    intro a
    by_cases h : ∃ p v, .storeC a v ∈ c0.progs p
    · obtain ⟨p, v, hv⟩ := h
      exact ⟨v, fun q v' hv' => hstoreC q p a v' v hv' hv, fun hnone => absurd hv (hnone p v)⟩
    · push Not at h
      exact ⟨c0.state.c a, fun p v hv => absurd hv (h p v), fun _ => rfl⟩
  have hval : ∀ src, ∃ w, (∀ p v, .storeLocal src v ∈ c0.progs p → v = w) ∧
      ((∀ p v, .storeLocal src v ∉ c0.progs p) → c0.state.cLocal src = w) := by
    intro src
    by_cases h : ∃ p v, .storeLocal src v ∈ c0.progs p
    · obtain ⟨p, v, hv⟩ := h
      exact ⟨v, fun q v' hv' => hstoreLocal q p src v' v hv' hv, fun hnone => absurd hv (hnone p v)⟩
    · push Not at h
      exact ⟨c0.state.cLocal src, fun p v hv => absurd hv (h p v), fun _ => rfl⟩
  choose o ho using ho
  choose own hown using hown
  choose val hval using hval
  exact ⟨o, own, val,
    { adder := fun p a e he ha => ho a p e he ha
      paired := hpaired
      storeC := fun p a v hv => (hown a).1 p v hv
      storeLocal := fun p src v hv => (hval src).1 p v hv
      initC := fun a hnone => (hown a).2 hnone
      initLocal := fun src hnone => (hval src).2 hnone
      guarded := hguarded }⟩

/-- The values in a reachable configuration. An element of `C` has not got its own contribution yet, and
no addition to it has happened, or it lacks the buffers whose additions are left. -/
structure ValuesInv (c0 : Config (KEvent V) (KState V)) (o : ℕ → ℕ) (own val : ℕ → V)
    (c : Config (KEvent V) (KState V)) : Prop where
  local_eq : ∀ src, (∃ p v, .storeLocal src v ∈ c.progs p) ∨ c.state.cLocal src = val src
  c_eq : ∀ a,
    ((∃ p v, .storeC a v ∈ c.progs p) ∧ addsTo a (c.progs (o a)) = addsTo a (c0.progs (o a))) ∨
      ((∀ p v, .storeC a v ∉ c.progs p) ∧
        c.state.c a + ((addsTo a (c.progs (o a))).map val).sum =
          own a + ((addsTo a (c0.progs (o a))).map val).sum)
  reg_eq : ∀ p a src rest, c.progs p = .addStore a src :: rest → c.state.reg p = c.state.c a

/-! ## One step -/

section Step

variable {c : Config (KEvent V) (KState V)} {p : ℕ} {e : KEvent V} {rest : List (KEvent V)}

theorem mem_next_imp (hprog : c.progs p = e :: rest) {q : ℕ} {x : KEvent V}
    (hx : x ∈ (c.next (kSystem V) p e rest).progs q) : x ∈ c.progs q := by
  by_cases hq : q = p
  · subst hq
    rw [Config.next_progs_self] at hx
    rw [hprog]
    exact List.mem_cons_of_mem _ hx
  · rwa [Config.next_progs_of_ne _ hq] at hx

theorem mem_next_of_ne (hprog : c.progs p = e :: rest) {q : ℕ} {x : KEvent V} (hx : x ∈ c.progs q)
    (hne : x ≠ e) : x ∈ (c.next (kSystem V) p e rest).progs q := by
  by_cases hq : q = p
  · subst hq
    rw [hprog] at hx
    rw [Config.next_progs_self]
    exact (List.mem_cons.mp hx).resolve_left hne
  · rwa [Config.next_progs_of_ne _ hq]

theorem addsTo_next (hprog : c.progs p = e :: rest) {a : ℕ} (he : ∀ src, e ≠ .addStore a src)
    (q : ℕ) : addsTo a ((c.next (kSystem V) p e rest).progs q) = addsTo a (c.progs q) := by
  by_cases hq : q = p
  · subst hq
    rw [Config.next_progs_self, hprog, addsTo_cons_of_ne he]
  · rw [Config.next_progs_of_ne _ hq]

theorem exec_c_of_ne {a : ℕ} (he : ∀ v, e ≠ .storeC a v) (he' : ∀ src, e ≠ .addStore a src)
    (s : KState V) : ((kSystem V).exec p e s).c a = s.c a := by
  cases e with
  | storeC dst v =>
    have hne : a ≠ dst := by
      rintro rfl
      exact he v rfl
    simp [kSystem, Function.update_of_ne hne]
  | addStore dst src =>
    have hne : a ≠ dst := by
      rintro rfl
      exact he' src rfl
    simp [kSystem, Function.update_of_ne hne]
  | _ => rfl

theorem exec_local_of_ne {src : ℕ} (he : ∀ v, e ≠ .storeLocal src v) (s : KState V) :
    ((kSystem V).exec p e s).cLocal src = s.cLocal src := by
  cases e with
  | storeLocal dst v =>
    have hne : src ≠ dst := by
      rintro rfl
      exact he v rfl
    simp [kSystem, Function.update_of_ne hne]
  | _ => rfl

theorem exec_reg_of_ne {q : ℕ} (hq : q ≠ p) (s : KState V) :
    ((kSystem V).exec p e s).reg q = s.reg q := by
  cases e with
  | load dst => simp [kSystem, Function.update_of_ne hq]
  | _ => rfl

end Step

/-! ## A whole run -/

section Values

variable {c0 c : Config (KEvent V) (KState V)} {o : ℕ → ℕ} {own val : ℕ → V}
  {h : List (ℕ × KEvent V)} {p : ℕ} {e : KEvent V} {rest : List (KEvent V)}

theorem ValuesInv.init (hr : RaceFree c0 o own val) : ValuesInv c0 o own val c0 where
  local_eq src := by
    by_cases hleft : ∃ p v, .storeLocal src v ∈ c0.progs p
    · exact Or.inl hleft
    · push Not at hleft
      exact Or.inr (hr.initLocal src hleft)
  c_eq a := by
    by_cases hleft : ∃ p v, .storeC a v ∈ c0.progs p
    · exact Or.inl ⟨hleft, rfl⟩
    · push Not at hleft
      exact Or.inr ⟨hleft, by rw [hr.initC a hleft]⟩
  reg_eq p a src rest hp := by
    have hj := hr.paired p
    rw [hp] at hj
    obtain ⟨pre, hpre⟩ := hj.1
    simp at hpre

section StepOf

variable (hr : RaceFree c0 o own val) (hrun : Run (kSystem V) c0 h c)
  (hi : ValuesInv c0 o own val c) (hprog : c.progs p = e :: rest)

include hr hrun hi hprog

theorem ValuesInv.local_next (src : ℕ) :
    (∃ q v, .storeLocal src v ∈ (c.next (kSystem V) p e rest).progs q) ∨
      (c.next (kSystem V) p e rest).state.cLocal src = val src := by
  by_cases hleft : ∃ q v, .storeLocal src v ∈ (c.next (kSystem V) p e rest).progs q
  · exact Or.inl hleft
  refine Or.inr ?_
  push Not at hleft
  by_cases he : ∃ v, e = .storeLocal src v
  · obtain ⟨v, rfl⟩ := he
    have hmem : .storeLocal src v ∈ c.progs p := by simp [hprog]
    have hv := hr.storeLocal p src v (hrun.mem_of_mem hmem)
    simp [Config.next, kSystem, hv]
  · push Not at he
    have hnone : ¬ ∃ q v, .storeLocal src v ∈ c.progs q := by
      rintro ⟨q, v, hmem⟩
      exact hleft q v (mem_next_of_ne hprog hmem (he v).symm)
    show ((kSystem V).exec p e c.state).cLocal src = val src
    rw [exec_local_of_ne he]
    exact (hi.local_eq src).resolve_left hnone

/-- The event is the own contribution to the element. -/
theorem ValuesInv.c_next_storeC {a : ℕ} {v : V} (he : e = .storeC a v) :
    ((∃ q v, .storeC a v ∈ (c.next (kSystem V) p e rest).progs q) ∧
        addsTo a ((c.next (kSystem V) p e rest).progs (o a)) = addsTo a (c0.progs (o a))) ∨
      ((∀ q v, .storeC a v ∉ (c.next (kSystem V) p e rest).progs q) ∧
        (c.next (kSystem V) p e rest).state.c a +
            ((addsTo a ((c.next (kSystem V) p e rest).progs (o a))).map val).sum =
          own a + ((addsTo a (c0.progs (o a))).map val).sum) := by
  subst he
  have hmem : .storeC a v ∈ c.progs p := by simp [hprog]
  have hadds : addsTo a ((c.next (kSystem V) p (.storeC a v) rest).progs (o a)) =
      addsTo a (c0.progs (o a)) := by
    rw [addsTo_next hprog (by simp)]
    rcases hi.c_eq a with ⟨-, h⟩ | ⟨hnone, -⟩
    · exact h
    · exact absurd hmem (hnone p v)
  by_cases hleft : ∃ q v', .storeC a v' ∈ (c.next (kSystem V) p (.storeC a v) rest).progs q
  · exact Or.inl ⟨hleft, hadds⟩
  · push Not at hleft
    refine Or.inr ⟨hleft, ?_⟩
    have hv := hr.storeC p a v (hrun.mem_of_mem hmem)
    rw [hadds]
    simp [Config.next, kSystem, hv]

/-- The event is an addition to the element. -/
theorem ValuesInv.c_next_addStore {a src : ℕ} (he : e = .addStore a src) :
    (∀ q v, .storeC a v ∉ (c.next (kSystem V) p e rest).progs q) ∧
      (c.next (kSystem V) p e rest).state.c a +
          ((addsTo a ((c.next (kSystem V) p e rest).progs (o a))).map val).sum =
        own a + ((addsTo a (c0.progs (o a))).map val).sum := by
  subst he
  have hadds : (KEvent.addStore a src : KEvent V).Adds a := Or.inr ⟨src, rfl⟩
  have hmem : .addStore a src ∈ c.progs p := by simp [hprog]
  have hguard : ∀ q v, .storeC a v ∉ c.progs q := fun q v hq =>
    hr.guarded h c hrun p _ rest hprog q _ hq (Or.inl ⟨a, v, rfl, hadds⟩)
  have hp : p = o a := hr.adder p a _ (hrun.mem_of_mem hmem) hadds
  refine ⟨fun q v hq => hguard q v (mem_next_imp hprog hq), ?_⟩
  have hlocal : c.state.cLocal src = val src := by
    refine (hi.local_eq src).resolve_left ?_
    rintro ⟨q, v, hq⟩
    exact hr.guarded h c hrun p _ rest hprog q _ hq (Or.inr ⟨a, src, v, rfl, rfl⟩)
  subst hp
  have hval : c.state.c a + ((addsTo a (c.progs (o a))).map val).sum =
      own a + ((addsTo a (c0.progs (o a))).map val).sum := by
    rcases hi.c_eq a with ⟨⟨q, v, hq⟩, -⟩ | ⟨-, h⟩
    · exact absurd hq (hguard q v)
    · exact h
  rw [hprog, addsTo_cons_addStore, List.map_cons, List.sum_cons] at hval
  have hstate : (c.next (kSystem V) (o a) (.addStore a src) rest).state.c a =
      c.state.c a + val src := by
    simp [Config.next, kSystem, hi.reg_eq _ _ _ _ hprog, hlocal]
  rw [hstate, Config.next_progs_self, add_assoc]
  exact hval

theorem ValuesInv.c_next (a : ℕ) :
    ((∃ q v, .storeC a v ∈ (c.next (kSystem V) p e rest).progs q) ∧
        addsTo a ((c.next (kSystem V) p e rest).progs (o a)) = addsTo a (c0.progs (o a))) ∨
      ((∀ q v, .storeC a v ∉ (c.next (kSystem V) p e rest).progs q) ∧
        (c.next (kSystem V) p e rest).state.c a +
            ((addsTo a ((c.next (kSystem V) p e rest).progs (o a))).map val).sum =
          own a + ((addsTo a (c0.progs (o a))).map val).sum) := by
  by_cases hstore : ∃ v, e = .storeC a v
  · obtain ⟨v, he⟩ := hstore
    exact ValuesInv.c_next_storeC hr hrun hi hprog he
  by_cases hadd : ∃ src, e = .addStore a src
  · obtain ⟨src, he⟩ := hadd
    exact Or.inr (ValuesInv.c_next_addStore hr hrun hi hprog he)
  push Not at hstore hadd
  have hc : (c.next (kSystem V) p e rest).state.c a = c.state.c a := exec_c_of_ne hstore hadd _
  rw [addsTo_next hprog hadd, hc]
  rcases hi.c_eq a with ⟨⟨q, v, hq⟩, h⟩ | ⟨hnone, h⟩
  · exact Or.inl ⟨⟨q, v, mem_next_of_ne hprog hq (hstore v).symm⟩, h⟩
  · exact Or.inr ⟨fun q v hq => hnone q v (mem_next_imp hprog hq), h⟩

theorem ValuesInv.reg_next (henabled : (kSystem V).enabled p e c.state) {q a src : ℕ}
    {rest' : List (KEvent V)}
    (hq : (c.next (kSystem V) p e rest).progs q = .addStore a src :: rest') :
    (c.next (kSystem V) p e rest).state.reg q = (c.next (kSystem V) p e rest).state.c a := by
  by_cases hqp : q = p
  · -- the event in front of the addition is its load
    subst hqp
    have hrun' : Run (kSystem V) c0 (h ++ [(q, e)]) (c.next (kSystem V) q e rest) :=
      hrun.snoc (Step.mk hprog henabled)
    obtain ⟨pre, hpre⟩ := hrun'.ok_head (hr.paired q) hq
    rw [eventsOf_append, eventsOf_singleton, if_pos rfl] at hpre
    obtain ⟨-, he⟩ := List.append_inj' hpre rfl
    obtain ⟨rfl, -⟩ := List.cons.inj he
    simp [Config.next, kSystem]
  · rw [Config.next_progs_of_ne _ hqp] at hq
    have hadds : (KEvent.addStore a src : KEvent V).Adds a := Or.inr ⟨src, rfl⟩
    have hmem : .addStore a src ∈ c.progs q := by simp [hq]
    have ho := hr.adder q a _ (hrun.mem_of_mem hmem) hadds
    have hreg : ((kSystem V).exec p e c.state).reg q = c.state.reg q := exec_reg_of_ne hqp _
    have hc : ((kSystem V).exec p e c.state).c a = c.state.c a := by
      refine exec_c_of_ne ?_ ?_ _
      · rintro v rfl
        have hmem' : .storeC a v ∈ c.progs p := by simp [hprog]
        exact hr.guarded h c hrun q _ rest' hq p _ hmem' (Or.inl ⟨a, v, rfl, hadds⟩)
      · rintro src' rfl
        have hmem' : .addStore a src' ∈ c.progs p := by simp [hprog]
        have hp := hr.adder p a _ (hrun.mem_of_mem hmem') (Or.inr ⟨src', rfl⟩)
        exact hqp (ho.trans hp.symm)
    show ((kSystem V).exec p e c.state).reg q = ((kSystem V).exec p e c.state).c a
    rw [hreg, hc]
    exact hi.reg_eq q a src rest' hq

end StepOf

/-- The values in every reachable configuration. -/
theorem ValuesInv.of_run (hr : RaceFree c0 o own val) (hrun : Run (kSystem V) c0 h c) :
    ValuesInv c0 o own val c := by
  refine hrun.invariant (ValuesInv.init hr) ?_
  intro c1 c2 x h1 hrun1 hi hstep
  cases hstep with
  | @mk p e rest hprog henabled =>
    exact
      { local_eq := ValuesInv.local_next hr hrun1 hi hprog
        c_eq := ValuesInv.c_next hr hrun1 hi hprog
        reg_eq := fun q a src rest' hq => ValuesInv.reg_next hr hrun1 hi hprog henabled hq }

/-- At the end of a run every element holds its contribution and all buffers that are added to it. -/
theorem RaceFree.final (hr : RaceFree c0 o own val) (hrun : Run (kSystem V) c0 h c)
    (hcomplete : c.Complete) (a : ℕ) :
    c.state.c a = own a + ((addsTo a (c0.progs (o a))).map val).sum := by
  rcases (ValuesInv.of_run hr hrun).c_eq a with ⟨⟨p, v, hmem⟩, -⟩ | ⟨-, hval⟩
  · rw [hcomplete p] at hmem
    simp at hmem
  · rw [hcomplete (o a)] at hval
    simpa using hval

/-- At the end of a run the buffers hold their results. -/
theorem RaceFree.final_local (hr : RaceFree c0 o own val) (hrun : Run (kSystem V) c0 h c)
    (hcomplete : c.Complete) (src : ℕ) : c.state.cLocal src = val src := by
  refine ((ValuesInv.of_run hr hrun).local_eq src).resolve_left ?_
  rintro ⟨p, v, hmem⟩
  rw [hcomplete p] at hmem
  simp at hmem

/-- An addition comes after everything that it reads. -/
theorem RaceFree.stored_before (hr : RaceFree c0 o own val) {h1 h2 : List (ℕ × KEvent V)}
    (hrun : Run (kSystem V) c0 (h1 ++ (p, e) :: h2) c) {q : ℕ} {x : KEvent V} (hx : x ∈ c0.progs q)
    (hfeeds : x.Feeds e) : (q, x) ∈ h1 := by
  obtain ⟨c1, hrun1, hrun2⟩ := hrun.split
  obtain ⟨rest, hprog⟩ := hrun2.first
  rw [hrun1.progs_eq q] at hx
  rcases List.mem_append.mp hx with hmem | hmem
  · exact mem_eventsOf.mp hmem
  · exact absurd hfeeds (hr.guarded h1 c1 hrun1 p e rest hprog q x hmem)

/-- Nothing that an addition reads is stored after it. -/
theorem RaceFree.not_stored_after (hr : RaceFree c0 o own val) {h1 h2 : List (ℕ × KEvent V)}
    (hrun : Run (kSystem V) c0 (h1 ++ (p, e) :: h2) c) {q : ℕ} {x : KEvent V} (hx : (q, x) ∈ h2) :
    ¬ x.Feeds e := by
  obtain ⟨c1, hrun1, hrun2⟩ := hrun.split
  obtain ⟨rest, hprog⟩ := hrun2.first
  refine hr.guarded h1 c1 hrun1 p e rest hprog q x ?_
  rw [hrun2.progs_eq q]
  refine List.mem_append_left _ (mem_eventsOf.mpr ?_)
  exact List.mem_cons_of_mem _ hx

end Values

/-! ## Sums that lose nothing -/

/-- Element `a` gets its own contribution and then each of the buffers once, by one thread. The buffers
are given by the addresses in them and the values that they contribute. -/
structure SummedOnce (h : List (ℕ × KEvent V)) (s : KState V) (a : ℕ) (own : V)
    (bufs : List (ℕ × V)) : Prop where
  value : s.c a = own + (bufs.map Prod.snd).sum
  once : (addsTo a (h.map Prod.snd)).Perm (bufs.map Prod.fst)
  afterOwn : ∀ h1 p e h2, h = h1 ++ (p, e) :: h2 → e.Adds a →
    (∃ q, (q, .storeC a own) ∈ h1) ∧ ∀ q v, (q, .storeC a v) ∉ h2
  afterLocal : ∀ h1 p src h2, h = h1 ++ (p, .addStore a src) :: h2 →
    ∃ q v, (src, v) ∈ bufs ∧ (q, .storeLocal src v) ∈ h1
  oneThread : ∃ p, ∀ x ∈ h, x.2.Adds a → x.1 = p

section Summed

variable {c0 c : Config (KEvent V) (KState V)} {o : ℕ → ℕ} {own val : ℕ → V}
  {h : List (ℕ × KEvent V)} {a : ℕ} {v0 : V} {bufs : List (ℕ × V)}

theorem sum_map_val (hr : RaceFree c0 o own val)
    (hbufs : ∀ b ∈ bufs, ∃ q, .storeLocal b.1 b.2 ∈ c0.progs q) {l : List ℕ}
    (hperm : l.Perm (bufs.map Prod.fst)) : (l.map val).sum = (bufs.map Prod.snd).sum := by
  have hval : (bufs.map Prod.fst).map val = bufs.map Prod.snd := by
    rw [List.map_map]
    refine List.map_congr_left ?_
    intro b hb
    obtain ⟨q, hq⟩ := hbufs b hb
    exact (hr.storeLocal q b.1 b.2 hq).symm
  rw [(hperm.map val).sum_eq, hval]

theorem RaceFree.summedOnce (hr : RaceFree c0 o own val) (hrun : Run (kSystem V) c0 h c)
    (hcomplete : c.Complete) (hown : ∃ q, .storeC a v0 ∈ c0.progs q)
    (hbufs : ∀ b ∈ bufs, ∃ q, .storeLocal b.1 b.2 ∈ c0.progs q)
    (hperm : (addsTo a (c0.progs (o a))).Perm (bufs.map Prod.fst)) :
    SummedOnce h c.state a v0 bufs := by
  obtain ⟨q0, hq0⟩ := hown
  have hthread : ∀ x ∈ h, x.2.Adds a → x.1 = o a := fun x hx ha =>
    hr.adder x.1 a x.2 (hrun.mem_progs hx) ha
  have honce : (addsTo a (h.map Prod.snd)).Perm (bufs.map Prod.fst) := by
    rw [addsTo_map_snd hthread, hrun.eventsOf_eq hcomplete]
    exact hperm
  refine
    { value := ?_
      once := honce
      afterOwn := ?_
      afterLocal := ?_
      oneThread := ⟨o a, hthread⟩ }
  · rw [hr.final hrun hcomplete a, sum_map_val hr hbufs hperm, hr.storeC q0 a v0 hq0]
  · rintro h1 p e h2 rfl ha
    refine ⟨⟨q0, hr.stored_before hrun hq0 (Or.inl ⟨a, v0, rfl, ha⟩)⟩, ?_⟩
    intro q v hmem
    exact hr.not_stored_after hrun hmem (Or.inl ⟨a, v, rfl, ha⟩)
  · rintro h1 p src h2 rfl
    have hsrc : src ∈ bufs.map Prod.fst := by
      rw [← honce.mem_iff, mem_addsTo, List.mem_map]
      exact ⟨(p, .addStore a src), by simp, rfl⟩
    obtain ⟨b, hb, rfl⟩ := List.mem_map.mp hsrc
    obtain ⟨q, hq⟩ := hbufs b hb
    exact ⟨q, b.2, hb, hr.stored_before hrun hq (Or.inr ⟨a, b.1, b.2, rfl, rfl⟩)⟩

/-- The additions may also come in a run of their own. -/
theorem RaceFree.summedOnce_later (hr : RaceFree c0 o own val) (hrun : Run (kSystem V) c0 h c)
    (hcomplete : c.Complete) (hstores : ∀ p, ∀ e ∈ c0.progs p, e.IsStore)
    {progs' : ℕ → List (KEvent V)} {o' : ℕ → ℕ} {own' val' : ℕ → V}
    (hr' : RaceFree ⟨progs', c.state⟩ o' own' val') {h' : List (ℕ × KEvent V)}
    {c' : Config (KEvent V) (KState V)} (hrun' : Run (kSystem V) ⟨progs', c.state⟩ h' c')
    (hcomplete' : c'.Complete) (hnone : ∀ p, ∀ e ∈ progs' p, ¬ e.IsStore)
    (hown : ∃ q, .storeC a v0 ∈ c0.progs q)
    (hbufs : ∀ b ∈ bufs, ∃ q, .storeLocal b.1 b.2 ∈ c0.progs q)
    (hperm : (addsTo a (progs' (o' a))).Perm (bufs.map Prod.fst)) :
    SummedOnce (h ++ h') c'.state a v0 bufs := by
  obtain ⟨q0, hq0⟩ := hown
  have hfirst : ∀ x ∈ h, ¬ x.2.Adds a := by
    intro x hx ha
    have hs := hstores x.1 x.2 (hrun.mem_progs hx)
    rcases ha with heq | ⟨s, heq⟩
    · rw [heq] at hs
      exact hs
    · rw [heq] at hs
      exact hs
  have hthread : ∀ x ∈ h', x.2.Adds a → x.1 = o' a := fun x hx ha =>
    hr'.adder x.1 a x.2 (hrun'.mem_progs hx) ha
  have hnil : addsTo a (h.map Prod.snd) = [] := by
    rw [List.eq_nil_iff_forall_not_mem]
    intro s hs
    obtain ⟨x, hx, heq⟩ := List.mem_map.mp (mem_addsTo.mp hs)
    exact hfirst x hx (Or.inr ⟨s, heq⟩)
  have honce : (addsTo a ((h ++ h').map Prod.snd)).Perm (bufs.map Prod.fst) := by
    rw [List.map_append, addsTo_append, hnil, List.nil_append, addsTo_map_snd hthread,
      hrun'.eventsOf_eq hcomplete']
    exact hperm
  -- an addition lies in the second run
  have hsplit : ∀ h1 p e h2, h ++ h' = h1 ++ (p, e) :: h2 → e.Adds a → h ⊆ h1 ∧ h2 ⊆ h' := by
    intro h1 p e h2 heq ha
    rcases List.append_eq_append_iff.mp heq with ⟨as, rfl, hh'⟩ | ⟨cs, hh, hh'⟩
    · refine ⟨List.subset_append_left h as, ?_⟩
      rw [hh']
      intro y hy
      exact List.mem_append_right as (List.mem_cons_of_mem _ hy)
    · cases cs with
      | nil =>
        rw [List.append_nil] at hh
        rw [List.nil_append] at hh'
        rw [hh, ← hh']
        exact ⟨List.Subset.refl h1, List.subset_cons_self _ _⟩
      | cons y cs =>
        obtain ⟨rfl, -⟩ := List.cons.inj hh'
        exact absurd ha (hfirst (p, e) (by simp [hh]))
  have hval : ∀ src, val' src = val src := by
    intro src
    rw [← hr'.initLocal src fun p v hv => hnone p _ hv trivial]
    exact hr.final_local hrun hcomplete src
  have hv0 : own' a = v0 := by
    rw [← hr'.initC a fun p v hv => hnone p _ hv trivial, hr.storeC q0 a v0 hq0]
    have hadds : addsTo a (c0.progs (o a)) = [] := by
      rw [List.eq_nil_iff_forall_not_mem]
      intro s hs
      exact hstores _ _ (mem_addsTo.mp hs)
    rw [hr.final hrun hcomplete a, hadds]
    simp
  refine
    { value := ?_
      once := honce
      afterOwn := ?_
      afterLocal := ?_
      oneThread := ⟨o' a, ?_⟩ }
  · have hmap : (addsTo a (progs' (o' a))).map val' = (addsTo a (progs' (o' a))).map val :=
      List.map_congr_left fun src _ => hval src
    rw [hr'.final hrun' hcomplete' a, hv0, hmap, sum_map_val hr hbufs hperm]
  · intro h1 p e h2 heq ha
    obtain ⟨hsub, hsub'⟩ := hsplit h1 p e h2 heq ha
    refine ⟨⟨q0, hsub (hrun.mem_of_complete hcomplete hq0)⟩, ?_⟩
    intro q v hmem
    exact hnone q _ (hrun'.mem_progs (hsub' hmem)) trivial
  · intro h1 p src h2 heq
    obtain ⟨hsub, -⟩ := hsplit h1 p _ h2 heq (Or.inr ⟨src, rfl⟩)
    have hsrc : src ∈ bufs.map Prod.fst := by
      rw [← honce.mem_iff, heq, mem_addsTo, List.mem_map]
      exact ⟨(p, .addStore a src), by simp, rfl⟩
    obtain ⟨b, hb, rfl⟩ := List.mem_map.mp hsrc
    obtain ⟨q, hq⟩ := hbufs b hb
    exact ⟨q, b.2, hb, hsub (hrun.mem_of_complete hcomplete hq)⟩
  · intro x hx ha
    rcases List.mem_append.mp hx with hx | hx
    · exact absurd ha (hfirst x hx)
    · exact hthread x hx ha

end Summed

end MklDnn
