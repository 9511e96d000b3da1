import Mathlib.Algebra.BigOperators.Group.List.Basic
import MklDnn.Lib.Interleaving
import MklDnn.Lib.SteppedLoops
import MklDnn.Lib.Writes

/-!
# Programs of assignments

Threads that run programs of assignments to a shared memory, in any order. If no thread assigns to what
another thread assigns to or reads, then every thread leaves what it would leave on its own.
-/

open LoopNest

namespace Interleaving

variable {A V E : Type*}

/-- An assignment: the address, and the value that it gets from the memory. -/
structure Assign (A V : Type*) where
  dst : A
  value : (A → V) → V

/-- An assignment of a constant. -/
def Assign.set (a : A) (v : V) : Assign A V := ⟨a, fun _ => v⟩

/-- An addition of a constant. -/
def Assign.add [Add V] (a : A) (v : V) : Assign A V := ⟨a, fun m => m a + v⟩

section Exec

variable [DecidableEq A]

def Assign.exec (m : A → V) (e : Assign A V) : A → V := Function.update m e.dst (e.value m)

/-- The memory after a program. -/
def execAll (l : List (Assign A V)) (m : A → V) : A → V := l.foldl Assign.exec m

@[simp] theorem execAll_nil (m : A → V) : execAll [] m = m := rfl

@[simp] theorem execAll_cons (e : Assign A V) (l : List (Assign A V)) (m : A → V) :
    execAll (e :: l) m = execAll l (e.exec m) := rfl

theorem execAll_append (l l' : List (Assign A V)) (m : A → V) :
    execAll (l ++ l') m = execAll l' (execAll l m) :=
  List.foldl_append

theorem Assign.exec_self (m : A → V) (e : Assign A V) : e.exec m e.dst = e.value m :=
  Function.update_self ..

theorem Assign.exec_of_ne {m : A → V} {e : Assign A V} {a : A} (h : e.dst ≠ a) : e.exec m a = m a :=
  Function.update_of_ne h.symm ..

/-- An address that a program does not assign to. -/
theorem execAll_of_ne {l : List (Assign A V)} {a : A} (h : ∀ e ∈ l, e.dst ≠ a) (m : A → V) :
    execAll l m a = m a := by
  induction l generalizing m with
  | nil => rfl
  | cons e l ih =>
    rw [execAll_cons, ih (fun x hx => h x (List.mem_cons_of_mem _ hx)), Assign.exec_of_ne (h e List.mem_cons_self)]

/-- An address that all assignments give the same value. -/
theorem execAll_of_const {l : List (Assign A V)} {a : A} {v : V} (hval : ∀ e ∈ l, e.dst = a → ∀ m, e.value m = v)
    (hex : ∃ e ∈ l, e.dst = a) (m : A → V) : execAll l m a = v := by
  induction l generalizing m with
  | nil =>
    obtain ⟨e, he, -⟩ := hex
    exact absurd he List.not_mem_nil
  | cons e l ih =>
    rw [execAll_cons]
    by_cases hrest : ∃ x ∈ l, x.dst = a
    · exact ih (fun x hx => hval x (List.mem_cons_of_mem e hx)) hrest _
    · obtain ⟨x, hx, hdst⟩ := hex
      rcases List.mem_cons.mp hx with rfl | hx
      · rw [execAll_of_ne fun y hy heq => hrest ⟨y, hy, heq⟩]
        subst hdst
        rw [Assign.exec_self, hval x List.mem_cons_self rfl]
      · exact absurd ⟨x, hx, hdst⟩ hrest

/-- An assignment to an address of its own that does not read what the program assigns to. -/
theorem execAll_of_mem {l : List (Assign A V)} {e : Assign A V} (he : e ∈ l) (hdst : ∀ x ∈ l, x.dst = e.dst → x = e)
    (hvalue : ∀ x ∈ l, ∀ m : A → V, e.value (x.exec m) = e.value m) (m : A → V) :
    execAll l m e.dst = e.value m := by
  induction l generalizing m with
  | nil => cases he
  | cons x l ih =>
    rw [execAll_cons]
    by_cases hmem : e ∈ l
    · rw [ih hmem (fun y hy => hdst y (List.mem_cons_of_mem x hy)) fun y hy => hvalue y (List.mem_cons_of_mem x hy)]
      exact hvalue x List.mem_cons_self m
    · obtain rfl : e = x := (List.mem_cons.mp he).resolve_right hmem
      rw [execAll_of_ne, Assign.exec_self]
      intro y hy heq
      exact hmem (hdst y (List.mem_cons_of_mem e hy) heq ▸ hy)

/-- A program of constants. -/
theorem execAll_set (ws : List (A × V)) (m : A → V) :
    execAll (ws.map fun w => Assign.set w.1 w.2) m = applyWrites ws m := by
  induction ws generalizing m with
  | nil => rfl
  | cons w ws ih =>
    rw [List.map_cons, execAll_cons, ih]
    rfl

/-- A program of additions. -/
theorem execAll_add [AddCommMonoid V] (ws : List (A × V)) (m : A → V) (a : A) :
    execAll (ws.map fun w => Assign.add w.1 w.2) m a =
      m a + (ws.map fun w => if w.1 = a then w.2 else 0).sum := by
  induction ws generalizing m with
  | nil => exact (add_zero _).symm
  | cons w ws ih =>
    rw [List.map_cons, execAll_cons, ih, List.map_cons, List.sum_cons, ← add_assoc]
    by_cases h : w.1 = a
    · subst h
      rw [if_pos rfl]
      congr 1
      exact Assign.exec_self m (Assign.add w.1 w.2)
    · rw [if_neg h, add_zero]
      congr 1
      exact Assign.exec_of_ne h

/-- A program that sets addresses to zero and adds to them. -/
theorem execAll_zero_add [AddCommMonoid V] {zeros : List A} (ws : List (A × V)) (m : A → V) {a : A} (ha : a ∈ zeros) :
    execAll ((zeros.map fun b => Assign.set b 0) ++ ws.map fun w => Assign.add w.1 w.2) m a =
      (ws.map fun w => if w.1 = a then w.2 else 0).sum := by
  have hzero : execAll (zeros.map fun b => Assign.set b (0 : V)) m a = 0 := by
    have hmap : zeros.map (fun b => Assign.set b (0 : V)) =
        (zeros.map fun b => (b, (0 : V))).map fun w => Assign.set w.1 w.2 := by
      rw [List.map_map]
      rfl
    rw [hmap, execAll_set]
    apply applyWrites_of_mem
    · exact Consistent.of_map fun _ _ _ _ _ => rfl
    · exact List.mem_map_of_mem ha
  rw [execAll_append, execAll_add, hzero, zero_add]

/-- Assignments to different addresses, none of which reads what another one assigns to. -/
theorem execAll_map_range {n : ℕ} {dst : ℕ → A} {value : ℕ → (A → V) → V} (hinj : ∀ s s', dst s = dst s' → s = s')
    (hvalue : ∀ s, ∀ m m' : A → V, (∀ a, (∀ s', s' ≠ s → dst s' ≠ a) → m a = m' a) → value s m = value s m')
    (m : A → V) {s : ℕ} (hs : s < n) :
    execAll ((List.range n).map fun s => ⟨dst s, value s⟩) m (dst s) = value s m := by
  induction n with
  | zero => omega
  | succ n ih =>
    have hother : ∀ a, (∀ s < n, dst s ≠ a) →
        execAll ((List.range n).map fun s => (⟨dst s, value s⟩ : Assign A V)) m a = m a := by
      intro a ha
      apply execAll_of_ne
      intro e he
      obtain ⟨s, hs, rfl⟩ := List.mem_map.mp he
      exact ha s (List.mem_range.mp hs)
    rw [List.range_succ, List.map_append, execAll_append]
    show Assign.exec _ _ _ = _
    by_cases hsn : s = n
    · subst hsn
      rw [Assign.exec_self]
      exact hvalue s _ _ fun a ha => hother a fun s' hs' => ha s' (Nat.ne_of_lt hs')
    · rw [Assign.exec_of_ne fun he => hsn (hinj _ _ he).symm]
      exact ih (by omega)

/-- Copies from addresses that are not copied to. -/
theorem execAll_copy {n : ℕ} {dst src : ℕ → A} (hinj : ∀ s s', dst s = dst s' → s = s') (hne : ∀ s s', src s ≠ dst s')
    (m : A → V) {s : ℕ} (hs : s < n) :
    execAll ((List.range n).map fun s => ⟨dst s, fun m => m (src s)⟩) m (dst s) = m (src s) := by
  have hvalue : ∀ s, ∀ m m' : A → V, (∀ a, (∀ s', s' ≠ s → dst s' ≠ a) → m a = m' a) → m (src s) = m' (src s) :=
    fun s m m' hm => hm _ fun s' _ => (hne s s').symm
  exact execAll_map_range hinj hvalue m hs

/-- A block of assignments that adds to what is there, or replaces it. -/
def accumulate [AddCommMonoid V] (replace : Bool) (n : ℕ) (dst : ℕ → A) (f : ℕ → (A → V) → V) : List (Assign A V) :=
  (List.range n).map fun s => ⟨dst s, fun m => (if replace then 0 else m (dst s)) + f s m⟩

variable [AddCommMonoid V] {n : ℕ} {dst : ℕ → A} {f : ℕ → (A → V) → V}

omit [DecidableEq A] in
theorem mem_accumulate {replace : Bool} {e : Assign A V} (he : e ∈ accumulate replace n dst f) :
    ∃ s < n, e.dst = dst s ∧ ∀ m m' : A → V, m (dst s) = m' (dst s) → f s m = f s m' → e.value m = e.value m' := by
  obtain ⟨s, hs, rfl⟩ := List.mem_map.mp he
  refine ⟨s, List.mem_range.mp hs, rfl, fun m m' hm hf => ?_⟩
  dsimp only
  rw [hm, hf]

/-- The element `s` after a block of assignments whose values do not depend on the block. -/
theorem execAll_accumulate (hinj : ∀ s s', dst s = dst s' → s = s')
    (hf : ∀ s, ∀ m m' : A → V, (∀ a, (∀ s, dst s ≠ a) → m a = m' a) → f s m = f s m') (replace : Bool) (m : A → V)
    {s : ℕ} (hs : s < n) :
    execAll (accumulate replace n dst f) m (dst s) = (if replace then 0 else m (dst s)) + f s m := by
  apply execAll_map_range hinj _ _ hs
  intro s m m' hm
  have hself : m (dst s) = m' (dst s) := hm (dst s) fun s' hne heq => hne (hinj _ _ heq)
  have hvalue : f s m = f s m' := hf s m m' fun a ha => hm a fun s' _ => ha s'
  rw [hself, hvalue]

/-- Blocks of assignments, the first of which replaces what is there. -/
theorem execAll_accumulate_list {ι : Type*} (hinj : ∀ s s', dst s = dst s' → s = s') {g : ι → ℕ → (A → V) → V}
    (hg : ∀ i s, ∀ m m' : A → V, (∀ a, (∀ s, dst s ≠ a) → m a = m' a) → g i s m = g i s m')
    {replace : ι → Bool} {l : List ι} (hl : ∀ i ∈ l, replace i = false) (m : A → V) {s : ℕ} (hs : s < n) :
    execAll (l.flatMap fun i => accumulate (replace i) n dst (g i)) m (dst s) =
      m (dst s) + (l.map fun i => g i s m).sum := by
  induction l generalizing m with
  | nil => exact (add_zero _).symm
  | cons i l ih =>
    have hframe : ∀ a, (∀ s, dst s ≠ a) → execAll (accumulate (replace i) n dst (g i)) m a = m a := by
      intro a ha
      apply execAll_of_ne
      intro e he
      obtain ⟨s, -, hdst, -⟩ := mem_accumulate he
      rw [hdst]
      exact ha s
    have hrest : (l.map fun j => g j s (execAll (accumulate (replace i) n dst (g i)) m)) =
        l.map fun j => g j s m :=
      List.map_congr_left fun j _ => hg j s _ _ hframe
    rw [List.flatMap_cons, execAll_append, ih (fun j hj => hl j (List.mem_cons_of_mem _ hj)), hrest,
      execAll_accumulate hinj (hg i) _ _ hs, hl i List.mem_cons_self, List.map_cons, List.sum_cons, ← add_assoc]
    rfl

/-- Blocks of assignments, the first of which replaces what is there and the others add to it. -/
theorem execAll_accumulate_cons {ι : Type*} (hinj : ∀ s s', dst s = dst s' → s = s') {g : ι → ℕ → (A → V) → V}
    (hg : ∀ i s, ∀ m m' : A → V, (∀ a, (∀ s, dst s ≠ a) → m a = m' a) → g i s m = g i s m')
    {replace : ι → Bool} {i : ι} {l : List ι} (hi : replace i = true) (hl : ∀ j ∈ l, replace j = false) (m : A → V)
    {s : ℕ} (hs : s < n) :
    execAll ((i :: l).flatMap fun j => accumulate (replace j) n dst (g j)) m (dst s) =
      ((i :: l).map fun j => g j s m).sum := by
  have hframe : ∀ a, (∀ s, dst s ≠ a) → execAll (accumulate (replace i) n dst (g i)) m a = m a := by
    intro a ha
    apply execAll_of_ne
    intro e he
    obtain ⟨s, -, hdst, -⟩ := mem_accumulate he
    rw [hdst]
    exact ha s
  have hrest : (l.map fun j => g j s (execAll (accumulate (replace i) n dst (g i)) m)) =
      l.map fun j => g j s m :=
    List.map_congr_left fun j _ => hg j s _ _ hframe
  rw [List.flatMap_cons, execAll_append, execAll_accumulate_list hinj hg hl _ hs, hrest,
    execAll_accumulate hinj (hg i) _ _ hs, hi, if_pos rfl, zero_add, List.map_cons, List.sum_cons]

end Exec

/-- The value of an assignment depends on nothing but what it replaces. -/
def Assign.Local (e : Assign A V) : Prop := ∀ m m' : A → V, m e.dst = m' e.dst → e.value m = e.value m'

theorem Assign.local_set (a : A) (v : V) : (Assign.set a v).Local := fun _ _ _ => rfl

theorem Assign.local_add [Add V] (a : A) (v : V) : (Assign.add a v).Local :=
  fun _ _ h => congrArg (fun x => x + v) h

/-! ## One address -/

section Trace

variable [DecidableEq A]

/-- What a program of local assignments does to the value at an address. -/
def trace (a : A) (l : List (Assign A V)) (v : V) : V :=
  (l.filter fun e => e.dst = a).foldl (fun v e => e.value fun _ => v) v

@[simp] theorem trace_nil (a : A) (v : V) : trace a [] v = v := rfl

theorem trace_cons_self (e : Assign A V) (l : List (Assign A V)) (v : V) :
    trace e.dst (e :: l) v = trace e.dst l (e.value fun _ => v) := by
  have hself : decide (e.dst = e.dst) = true := decide_eq_true rfl
  unfold trace
  rw [List.filter_cons, hself]
  rfl

theorem trace_cons_of_ne {e : Assign A V} {a : A} (h : e.dst ≠ a) (l : List (Assign A V)) (v : V) :
    trace a (e :: l) v = trace a l v := by
  unfold trace
  rw [List.filter_cons_of_neg (by simpa using h)]

theorem trace_append (a : A) (l l' : List (Assign A V)) (v : V) :
    trace a (l ++ l') v = trace a l' (trace a l v) := by
  unfold trace
  rw [List.filter_append, List.foldl_append]

theorem trace_of_ne {a : A} {l : List (Assign A V)} (h : ∀ e ∈ l, e.dst ≠ a) (v : V) : trace a l v = v := by
  induction l with
  | nil => rfl
  | cons e l ih =>
    rw [trace_cons_of_ne (h e List.mem_cons_self)]
    exact ih fun x hx => h x (List.mem_cons_of_mem _ hx)

/-- Iterations one after the other. -/
theorem trace_flatMap {ι : Type*} (a : A) (l : List ι) (f : ι → List (Assign A V)) (v : V) :
    trace a (l.flatMap f) v = l.foldl (fun v x => trace a (f x) v) v := by
  induction l generalizing v with
  | nil => rfl
  | cons x l ih => rw [List.flatMap_cons, trace_append, ih, List.foldl_cons]

/-- The address depends on nothing but what it held. -/
theorem execAll_eq_trace {l : List (Assign A V)} (h : ∀ e ∈ l, e.Local) (m : A → V) (a : A) :
    execAll l m a = trace a l (m a) := by
  induction l generalizing m with
  | nil => rfl
  | cons e l ih =>
    rw [execAll_cons, ih fun x hx => h x (List.mem_cons_of_mem _ hx)]
    by_cases ha : e.dst = a
    · subst ha
      rw [trace_cons_self, Assign.exec_self]
      congr 1
      exact h e List.mem_cons_self _ _ rfl
    · rw [trace_cons_of_ne ha, Assign.exec_of_ne ha]

/-- Only one iteration assigns to the address. -/
theorem trace_flatMap_of_unique {ι : Type*} {l : List ι} {f : ι → List (Assign A V)} {x : ι} {a : A} (hnd : l.Nodup)
    (hx : x ∈ l) (h : ∀ y ∈ l, y ≠ x → ∀ e ∈ f y, e.dst ≠ a) (v : V) :
    trace a (l.flatMap f) v = trace a (f x) v := by
  unfold trace
  rw [List.filter_flatMap, flatMap_eq_of_unique hnd hx]
  intro y hy hne
  rw [List.filter_eq_nil_iff]
  intro e he
  simpa using h y hy hne e he

/-- Only one of the assignments is to the address. -/
theorem trace_map_of_unique {ι : Type*} {l : List ι} {f : ι → Assign A V} {x : ι} {a : A} (hnd : l.Nodup)
    (hx : x ∈ l) (hxa : (f x).dst = a) (h : ∀ y ∈ l, y ≠ x → (f y).dst ≠ a) (v : V) :
    trace a (l.map f) v = (f x).value fun _ => v := by
  rw [List.map_eq_flatMap, trace_flatMap_of_unique hnd hx]
  · rw [← hxa, trace_cons_self, trace_nil]
  · intro y hy hne e he
    rw [List.mem_singleton.mp he]
    exact h y hy hne

/-- Local assignments to different addresses. -/
theorem execAll_of_nodup {l : List (Assign A V)} (hnd : (l.map Assign.dst).Nodup) (hlocal : ∀ e ∈ l, e.Local)
    {e : Assign A V} (he : e ∈ l) (m : A → V) : execAll l m e.dst = e.value m := by
  induction l generalizing m with
  | nil => cases he
  | cons x l ih =>
    rw [List.map_cons, List.nodup_cons] at hnd
    rw [execAll_cons]
    rcases List.mem_cons.mp he with rfl | he
    · have hother : ∀ y ∈ l, y.dst ≠ e.dst := fun y hy hdst => hnd.1 (List.mem_map.mpr ⟨y, hy, hdst⟩)
      rw [execAll_of_ne hother, Assign.exec_self]
    · rw [ih hnd.2 (fun y hy => hlocal y (List.mem_cons_of_mem x hy)) he]
      refine hlocal e (List.mem_cons_of_mem x he) _ _ (Assign.exec_of_ne fun hdst => ?_)
      exact hnd.1 (List.mem_map.mpr ⟨e, he, hdst.symm⟩)

/-- Assignments to different addresses. They read what they replace, and what none of them assigns to. -/
theorem execAll_of_nodup_of_reads {l : List (Assign A V)} (hnd : (l.map Assign.dst).Nodup)
    (hreads : ∀ e ∈ l, ∀ m m' : A → V, (∀ a, (a = e.dst ∨ ∀ x ∈ l, x.dst ≠ a) → m a = m' a) → e.value m = e.value m')
    {e : Assign A V} (he : e ∈ l) (m : A → V) : execAll l m e.dst = e.value m := by
  induction l generalizing m with
  | nil => cases he
  | cons x l ih =>
    rw [List.map_cons, List.nodup_cons] at hnd
    rw [execAll_cons]
    have hother : ∀ y ∈ l, y.dst ≠ x.dst := fun y hy hdst => hnd.1 (List.mem_map.mpr ⟨y, hy, hdst⟩)
    rcases List.mem_cons.mp he with rfl | he
    · rw [execAll_of_ne hother, Assign.exec_self]
    · have htail : ∀ y ∈ l, ∀ m m' : A → V, (∀ a, (a = y.dst ∨ ∀ z ∈ l, z.dst ≠ a) → m a = m' a) → y.value m = y.value m' := by
        intro y hy m m' hm
        refine hreads y (List.mem_cons_of_mem x hy) m m' fun a ha => hm a ?_
        exact ha.imp_right fun h z hz => h z (List.mem_cons_of_mem x hz)
      rw [ih hnd.2 htail he]
      refine hreads e (List.mem_cons_of_mem x he) _ _ fun a ha => Assign.exec_of_ne ?_
      rcases ha with rfl | ha
      · exact (hother e he).symm
      · exact ha x List.mem_cons_self

/-- Copies between different addresses change some memory. -/
theorem exists_execAll_ne {ι : Type*} [Nontrivial V] {l : List ι} {dst src : ι → A} (hnd : (l.map dst).Nodup) {i : ι}
    (hi : i ∈ l) (hne : src i ≠ dst i) :
    ∃ m : A → V, ∃ i ∈ l, execAll (l.map fun i => ⟨dst i, fun m => m (src i)⟩) m (dst i) ≠ m (dst i) := by
  obtain ⟨v, w, hvw⟩ := exists_pair_ne V
  induction l with
  | nil => cases hi
  | cons x l ih =>
    rw [List.map_cons, List.nodup_cons] at hnd
    by_cases hx : src x = dst x
    · -- the first copy changes nothing
      have hil : i ∈ l := (List.mem_cons.mp hi).resolve_left fun h => hne (h ▸ hx)
      obtain ⟨m, y, hy, hchange⟩ := ih hnd.2 hil
      refine ⟨m, y, List.mem_cons_of_mem x hy, ?_⟩
      have hid : Assign.exec m ⟨dst x, fun m => m (src x)⟩ = m := by
        show Function.update m (dst x) (m (src x)) = m
        rw [hx, Function.update_eq_self]
      rwa [List.map_cons, execAll_cons, hid]
    · refine ⟨Function.update (fun _ => v) (dst x) w, x, List.mem_cons_self, ?_⟩
      have hother : ∀ e ∈ l.map fun i => (⟨dst i, fun m => m (src i)⟩ : Assign A V), e.dst ≠ dst x := by
        intro e he hdst
        obtain ⟨y, hy, rfl⟩ := List.mem_map.mp he
        exact hnd.1 (List.mem_map.mpr ⟨y, hy, hdst⟩)
      rw [List.map_cons, execAll_cons, execAll_of_ne hother]
      show Assign.exec _ (⟨dst x, fun m => m (src x)⟩ : Assign A V) (dst x) ≠ _
      have hself := Assign.exec_self (Function.update (fun _ => v) (dst x) w) ⟨dst x, fun m => m (src x)⟩
      rw [hself, Function.update_self]
      show Function.update (fun _ => v) (dst x) w (src x) ≠ w
      rw [Function.update_of_ne hx]
      exact hvw

end Trace

/-! ## Orders -/

/-- An order in which threads execute their programs. -/
def IsOrder (progs : ℕ → List E) (o : List (ℕ × E)) : Prop := ∀ p, eventsOf p o = progs p

/-- No other thread assigns to an address. -/
def Private (progs : ℕ → List (Assign A V)) (p : ℕ) (a : A) : Prop := ∀ q, q ≠ p → ∀ e ∈ progs q, e.dst ≠ a

/-- What a thread assigns to and what it reads, no other thread assigns to. -/
structure RaceFree (progs : ℕ → List (Assign A V)) : Prop where
  dst : ∀ p, ∀ e ∈ progs p, Private progs p e.dst
  value : ∀ p, ∀ e ∈ progs p, ∀ m m' : A → V, (∀ a, Private progs p a → m a = m' a) → e.value m = e.value m'

/-- Local assignments are free of races if no address is assigned to by two threads. -/
theorem RaceFree.of_local {progs : ℕ → List (Assign A V)}
    (hdst : ∀ p, ∀ e ∈ progs p, ∀ q, q ≠ p → ∀ e' ∈ progs q, e'.dst ≠ e.dst)
    (hlocal : ∀ p, ∀ e ∈ progs p, e.Local) : RaceFree progs where
  dst := hdst
  value := fun p e he m m' hm => hlocal p e he m m' (hm e.dst (hdst p e he))

/-- The programs one after the other. -/
theorem isOrder_flatMap (progs : ℕ → List E) {l : List ℕ} (hnd : l.Nodup) :
    IsOrder (fun i => if i ∈ l then progs i else []) (l.flatMap fun i => (progs i).map fun e => (i, e)) := by
  intro p
  induction l with
  | nil => rfl
  | cons i l ih =>
    obtain ⟨hi, hnd⟩ := List.nodup_cons.mp hnd
    have hhead : eventsOf p ((progs i).map fun e => (i, e)) = if i = p then progs i else [] := by
      unfold eventsOf
      by_cases h : i = p
      · subst h
        rw [if_pos rfl, List.filter_eq_self.mpr, List.map_map]
        · exact List.map_id _
        · simp
      · simp [h]
    rw [List.flatMap_cons, eventsOf_append, hhead, ih hnd]
    by_cases h : i = p
    · subst h
      simp [hi]
    · rw [if_neg h, List.nil_append]
      have hmem : p ∈ i :: l ↔ p ∈ l := by
        rw [List.mem_cons, or_iff_right (Ne.symm h)]
      show _ = if p ∈ i :: l then progs p else []
      rw [if_congr hmem rfl rfl]

/-- One order is thread by thread. -/
theorem exists_isOrder {progs : ℕ → List E} {n : ℕ} (hn : ∀ p, n ≤ p → progs p = []) :
    ∃ o, IsOrder progs o ∧ o.map Prod.snd = (List.range n).flatMap progs := by
  refine ⟨(List.range n).flatMap fun i => (progs i).map fun e => (i, e), ?_, ?_⟩
  · intro p
    rw [isOrder_flatMap progs List.nodup_range p]
    by_cases hp : p < n
    · exact if_pos (List.mem_range.mpr hp)
    · show (if p ∈ List.range n then progs p else []) = progs p
      rw [if_neg fun h => hp (List.mem_range.mp h), hn p (Nat.not_lt.mp hp)]
  · rw [List.map_flatMap]
    refine List.flatMap_congr fun i _ => ?_
    rw [List.map_map]
    exact List.map_id _

/-- An order executes the events of all programs. -/
theorem IsOrder.perm {progs : ℕ → List E} {o : List (ℕ × E)} (ho : IsOrder progs o) {n : ℕ}
    (hn : ∀ p, n ≤ p → progs p = []) : (o.map Prod.snd).Perm ((List.range n).flatMap progs) := by
  have hlt : ∀ x ∈ o, x.1 < n := by
    intro x hx
    by_contra hle
    have hmem : x.2 ∈ progs x.1 := by rw [← ho x.1, mem_eventsOf]; exact hx
    rw [hn x.1 (Nat.not_lt.mp hle)] at hmem
    cases hmem
  have hall : ∀ o : List (ℕ × E), (∀ x ∈ o, x.1 < n) →
      (o.map Prod.snd).Perm ((List.range n).flatMap fun p => eventsOf p o) := by
    intro o
    induction o with
    | nil =>
      intro _
      rw [List.flatMap_eq_nil_iff.mpr fun p _ => eventsOf_nil p]
      exact List.Perm.refl _
    | cons x o ih =>
      intro hlt
      have hrest := ih fun y hy => hlt y (List.mem_cons_of_mem x hy)
      have hx : x.1 ∈ List.range n := List.mem_range.mpr (hlt x List.mem_cons_self)
      obtain ⟨front, back, hsplit⟩ := List.append_of_mem hx
      have hnd : (front ++ x.1 :: back).Nodup := hsplit ▸ List.nodup_range
      have hfront : ∀ p ∈ front, eventsOf p (x :: o) = eventsOf p o := by
        intro p hp
        have hne : x.1 ≠ p := fun h => (List.nodup_append.mp hnd).2.2 p hp x.1 List.mem_cons_self h.symm
        simp [eventsOf, hne]
      have hback : ∀ p ∈ back, eventsOf p (x :: o) = eventsOf p o := by
        intro p hp
        have hne : x.1 ≠ p := fun h => (List.nodup_cons.mp (List.nodup_append.mp hnd).2.1).1 (h ▸ hp)
        simp [eventsOf, hne]
      have hself : eventsOf x.1 (x :: o) = x.2 :: eventsOf x.1 o := by simp [eventsOf]
      rw [hsplit, List.flatMap_append, List.flatMap_cons] at hrest ⊢
      rw [List.flatMap_congr hfront, List.flatMap_congr hback, hself, List.map_cons, List.cons_append]
      exact (hrest.cons x.2).trans List.perm_middle.symm
  rw [show progs = fun p => eventsOf p o from funext fun p => (ho p).symm]
  exact hall o hlt

/-- A team of one thread. -/
theorem isOrder_single {progs : ℕ → List E} (h : ∀ p ≠ 0, progs p = []) :
    IsOrder progs ((progs 0).map fun e => (0, e)) := by
  have horder := isOrder_flatMap progs (List.nodup_singleton 0)
  rw [List.flatMap_cons, List.flatMap_nil, List.append_nil] at horder
  intro p
  rw [horder p]
  show (if p ∈ [0] then progs p else []) = progs p
  by_cases hp : p = 0
  · rw [hp, if_pos (List.mem_singleton.mpr rfl)]
  · rw [if_neg fun hmem => hp (List.mem_singleton.mp hmem), h p hp]

section Race

variable [DecidableEq A] {progs : ℕ → List (Assign A V)} {o : List (ℕ × Assign A V)} {p : ℕ} {a : A}

/-- If no other thread assigns to what a thread reads, then the thread leaves what it leaves on its own. -/
theorem execAll_order_of_private
    (hvalue : ∀ e ∈ progs p, ∀ m m' : A → V, (∀ a, Private progs p a → m a = m' a) → e.value m = e.value m')
    (ho : IsOrder progs o) (ha : Private progs p a) (m : A → V) :
    execAll (o.map Prod.snd) m a = execAll (progs p) m a := by
  -- in the middle of the order, the thread has executed a part of its program
  have hpart : ∀ o' : List (ℕ × Assign A V), o' <+: o → ∀ a, Private progs p a →
      execAll (o'.map Prod.snd) m a = execAll (eventsOf p o') m a := by
    intro o'
    induction o' using List.reverseRecOn with
    | nil =>
      intro _ a _
      rfl
    | append_singleton o' x ih =>
      intro hprefix a ha
      have hprev := ih ((List.prefix_append _ _).trans hprefix)
      have hx : x.2 ∈ progs x.1 := by
        rw [← ho x.1, mem_eventsOf]
        exact hprefix.subset (List.mem_append_right _ List.mem_cons_self)
      rw [List.map_append, execAll_append, eventsOf_append, execAll_append, eventsOf_singleton]
      show x.2.exec _ a = _
      by_cases hp : x.1 = p
      · rw [if_pos hp]
        rw [hp] at hx
        show _ = x.2.exec _ a
        by_cases hxa : x.2.dst = a
        · subst hxa
          rw [Assign.exec_self, Assign.exec_self]
          exact hvalue x.2 hx _ _ hprev
        · rw [Assign.exec_of_ne hxa, Assign.exec_of_ne hxa]
          exact hprev a ha
      · rw [if_neg hp, execAll_nil, Assign.exec_of_ne (ha x.1 hp x.2 hx)]
        exact hprev a ha
  rw [hpart o List.prefix_rfl a ha, ho p]

/-- What no other thread assigns to is what the thread leaves on its own. -/
theorem RaceFree.execAll_order (h : RaceFree progs) (ho : IsOrder progs o) (ha : Private progs p a) (m : A → V) :
    execAll (o.map Prod.snd) m a = execAll (progs p) m a :=
  execAll_order_of_private (h.value p) ho ha m

/-- An address that no thread assigns to. -/
theorem execAll_order_of_ne (ho : IsOrder progs o) (ha : ∀ p, ∀ e ∈ progs p, e.dst ≠ a) (m : A → V) :
    execAll (o.map Prod.snd) m a = m a := by
  apply execAll_of_ne
  intro e he
  obtain ⟨x, hx, rfl⟩ := List.mem_map.mp he
  exact ha x.1 x.2 (by rw [← ho x.1, mem_eventsOf]; exact hx)

end Race

/-! ## Loops with independent iterations -/

section Loops

variable [DecidableEq A] {body : ℕ → List (Assign A V)} {i : ℕ} {a : A}

/-- Iterations one after the other. -/
theorem RaceFree.execAll_flatMap (h : RaceFree body) {l : List ℕ} (hnd : l.Nodup) (hi : i ∈ l)
    (ha : Private body i a) (m : A → V) : execAll (l.flatMap body) m a = execAll (body i) m a := by
  have hsub : ∀ j, ∀ e ∈ (if j ∈ l then body j else []), e ∈ body j := by
    intro j e he
    split_ifs at he
    · exact he
    · cases he
  have hpriv : ∀ j b, Private body j b → Private (fun i => if i ∈ l then body i else []) j b :=
    fun j b hb q hq e he => hb q hq e (hsub q e he)
  have hrace : RaceFree fun i => if i ∈ l then body i else [] := {
    dst := fun j e he => hpriv j _ (h.dst j e (hsub j e he))
    value := fun j e he m m' hm => h.value j e (hsub j e he) m m' fun b hb => hm b (hpriv j b hb) }
  have hmap : (l.flatMap fun i => (body i).map fun e => (i, e)).map Prod.snd = l.flatMap body := by
    rw [List.map_flatMap]
    congr 1
    funext j
    rw [List.map_map]
    exact List.map_id _
  rw [← hmap, hrace.execAll_order (isOrder_flatMap body hnd) (hpriv i a ha), if_pos hi]

/-- Iterations divided among threads. -/
theorem RaceFree.execAll_threads (h : RaceFree body) {iters : ℕ → List ℕ} (hnd : ∀ p, (iters p).Nodup)
    (hdisj : ∀ p q, p ≠ q → ∀ i ∈ iters p, i ∉ iters q) {o : List (ℕ × Assign A V)}
    (ho : IsOrder (fun p => (iters p).flatMap body) o) {p : ℕ} (hi : i ∈ iters p) (ha : Private body i a)
    (m : A → V) : execAll (o.map Prod.snd) m a = execAll (body i) m a := by
  have hpriv : ∀ p j b, j ∈ iters p → Private body j b → Private (fun p => (iters p).flatMap body) p b := by
    intro p j b hj hb q hq e he
    obtain ⟨k, hk, he⟩ := List.mem_flatMap.mp he
    have hne : k ≠ j := fun hkj => hdisj q p hq k hk (hkj ▸ hj)
    exact hb k hne e he
  have hrace : RaceFree fun p => (iters p).flatMap body := {
    dst := fun p e he => by
      obtain ⟨j, hj, he⟩ := List.mem_flatMap.mp he
      exact hpriv p j _ hj (h.dst j e he)
    value := fun p e he m m' hm => by
      obtain ⟨j, hj, he⟩ := List.mem_flatMap.mp he
      exact h.value j e he m m' fun b hb => hm b (hpriv p j b hj hb) }
  rw [hrace.execAll_order ho (hpriv p i a hi ha)]
  exact h.execAll_flatMap (hnd p) hi ha m

end Loops

/-! ## Phases -/

section Phases

variable [DecidableEq A]

/-- The memories that threads can leave which wait for each other after every phase. -/
def RunPhases : List (ℕ → List (Assign A V)) → (A → V) → (A → V) → Prop
  | [], m, m' => m' = m
  | progs :: phases, m, m' => ∃ o, IsOrder progs o ∧ RunPhases phases (execAll (o.map Prod.snd) m) m'

/-- The parts of the programs between two barriers. -/
def phasesOf (n : ℕ) (segments : ℕ → List (List (Assign A V))) : List (ℕ → List (Assign A V)) :=
  (List.range n).map fun k p => (segments p).getD k []

end Phases

end Interleaving
