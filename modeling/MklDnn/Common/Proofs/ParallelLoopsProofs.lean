import Mathlib.Data.List.ProdSigma
import MklDnn.Common.Threading
import MklDnn.Common.Proofs.NdIteratorProofs
import MklDnn.Lib.Fills
import MklDnn.Lib.MixedRadix
import MklDnn.Lib.SteppedLoops

/-!
# Proofs: parallel loops over independent iterations

What a `parallel_nd` leaves in memory, for every team and every order in which the threads execute their iterations.
-/

open Interleaving LoopNest MixedRadix

namespace MklDnn

variable {A V : Type*} [DecidableEq A] {nthr : ℕ} {dims : List ℕ} {own : List ℕ → Set A}
  {body : List ℕ → List (Assign A V)} {o : List (ℕ × Assign A V)}

omit [DecidableEq A] in
/-- An assignment of a thread belongs to an iteration. -/
theorem exists_iteration {p : ℕ} {e : Assign A V} (he : e ∈ parallelNdProgs nthr dims body p) :
    ∃ idx ∈ digits dims, e ∈ body idx := by
  obtain ⟨idx, hidx, he⟩ := List.mem_flatMap.mp he
  exact ⟨idx, forall₂_of_mem_parallelNdIters hidx, he⟩

/-- An iteration leaves its elements as it does on its own. -/
theorem execAll_parallelNd (h : Independent (digits dims) own body) (hnthr : 0 < nthr)
    (ho : IsOrder (parallelNdProgs nthr dims body) o) {idx : List ℕ} (hidx : idx ∈ digits dims) {a : A}
    (ha : a ∈ own idx) (m : A → V) : execAll (o.map Prod.snd) m a = execAll (body idx) m a := by
  have hmem : ∀ i < dims.prod, ndIndex dims i ∈ digits dims :=
    fun i hi => mem_map_ndIndex.mp (List.mem_map_of_mem (List.mem_range.mpr hi))
  have hflat : Independent {i | i < dims.prod} (fun i => own (ndIndex dims i)) fun i => body (ndIndex dims i) := by
    constructor
    · intro i hi j hj hne
      exact h.disjoint _ (hmem i hi) _ (hmem j hj) fun heq => hne (ndIndex_inj hi hj heq)
    · intro i hi
      exact h.dst _ (hmem i hi)
    · intro i hi e he m m' hm
      apply h.value _ (hmem i hi) e he
      intro a ha
      exact hm a fun j hj hne => ha _ (hmem j hj) fun heq => hne (ndIndex_inj hj hi heq)
  have hprogs : parallelNdProgs nthr dims body =
      fun p => (flatIters nthr dims.prod p).flatMap fun i => body (ndIndex dims i) := by
    funext p
    unfold parallelNdProgs
    rw [parallelNdIters_eq, List.flatMap_map]
  rw [hprogs] at ho
  obtain ⟨i, hi, rfl⟩ := List.mem_map.mp (mem_map_ndIndex.mpr hidx)
  rw [List.mem_range] at hi
  obtain ⟨p, hp⟩ := exists_mem_flatIters hnthr hi
  exact hflat.execAll_threads (nodup_flatIters nthr _) (fun _ _ => flatIters_disjoint)
    (fun _ _ => lt_of_mem_flatIters) ho hp ha m

/-- What no iteration assigns to is left as it is. -/
theorem execAll_parallelNd_of_ne (ho : IsOrder (parallelNdProgs nthr dims body) o) {a : A}
    (ha : ∀ idx ∈ digits dims, ∀ e ∈ body idx, e.dst ≠ a) (m : A → V) : execAll (o.map Prod.snd) m a = m a := by
  apply execAll_order_of_ne ho
  intro p e he
  obtain ⟨idx, hidx, he⟩ := exists_iteration he
  exact ha idx hidx e he

omit [DecidableEq A] in
/-- Every iteration is executed by a thread. -/
theorem mem_parallelNdProgs (hnthr : 0 < nthr) {idx : List ℕ} (hidx : idx ∈ digits dims) {e : Assign A V}
    (he : e ∈ body idx) : ∃ p, e ∈ parallelNdProgs nthr dims body p := by
  obtain ⟨i, hi, rfl⟩ := List.mem_map.mp (mem_map_ndIndex.mpr hidx)
  obtain ⟨p, hp⟩ := exists_mem_flatIters hnthr (List.mem_range.mp hi)
  refine ⟨p, List.mem_flatMap.mpr ⟨ndIndex dims i, ?_, he⟩⟩
  rw [parallelNdIters_eq]
  exact List.mem_map_of_mem hp

section Runs

variable {ph : Phase A V} {phs phs' : List (Phase A V)} {m m' : A → V}

theorem Phase.Step.of_independent (h : ph.Step m m') (hind : Independent (digits ph.dims) own ph.body) {idx : List ℕ}
    (hidx : idx ∈ digits ph.dims) {a : A} (ha : a ∈ own idx) : m' a = execAll (ph.body idx) m a := by
  obtain ⟨nthr, o, hnthr, ho, rfl⟩ := h
  exact execAll_parallelNd hind hnthr ho hidx ha m

theorem Phase.Step.of_ne (h : ph.Step m m') {a : A} (ha : ∀ idx ∈ digits ph.dims, ∀ e ∈ ph.body idx, e.dst ≠ a) :
    m' a = m a := by
  obtain ⟨nthr, o, hnthr, ho, rfl⟩ := h
  exact execAll_parallelNd_of_ne ho ha m

/-- Every element is updated by the iteration that it belongs to. -/
theorem Phase.Step.of_updates {κ : Type*} (own : List ℕ → Set κ) {T : Set κ} {dst : κ → A} {f : κ → V → V}
    (h : ph.Step m m') (hdst : Set.InjOn dst T) (hown : ∀ idx ∈ digits ph.dims, own idx ⊆ T)
    (hdisj : ∀ idx ∈ digits ph.dims, ∀ idx' ∈ digits ph.dims, idx ≠ idx' → ∀ k ∈ own idx, k ∉ own idx')
    (hbody : ∀ idx ∈ digits ph.dims, Updates (own idx) dst f (ph.body idx)) {idx : List ℕ} (hidx : idx ∈ digits ph.dims)
    {k : κ} (hk : k ∈ own idx) : m' (dst k) = f k (m (dst k)) := by
  have hind : Independent (digits ph.dims) (fun idx a => ∃ k ∈ own idx, a = dst k) ph.body := by
    apply Independent.of_disjoint
    · rintro idx hidx idx' hidx' hne a ⟨k, hk, ha⟩ ⟨k', hk', ha'⟩
      have hsame : k = k' := hdst (hown idx hidx hk) (hown idx' hidx' hk') (ha.symm.trans ha')
      exact hdisj idx hidx idx' hidx' hne k hk (hsame ▸ hk')
    · intro idx hidx e he
      exact (hbody idx hidx).frame e he
    · intro idx hidx e he m m' hm
      exact (hbody idx hidx).isLocal e he m m' (hm _ (Or.inl ((hbody idx hidx).frame e he)))
  rw [h.of_independent hind hidx ⟨k, hk, rfl⟩, (hbody idx hidx).execAll_eq m hk]

/-- A loop whose iterations read elements that no iteration assigns to: these hold what they held before the loop. -/
theorem Phase.Step.reading (h : ph.Step m m') (fixed : A → Bool)
    (hfixed : ∀ idx ∈ digits ph.dims, ∀ e ∈ ph.body idx, fixed e.dst = false) :
    (⟨ph.dims, fun idx => (ph.body idx).map (Assign.reading fixed m)⟩ : Phase A V).Step m m' := by
  obtain ⟨nthr, o, hnthr, ho, rfl⟩ := h
  refine ⟨nthr, o.map fun x => (x.1, x.2.reading fixed m), hnthr, ?_, ?_⟩
  · intro p
    have hevents : eventsOf p (o.map fun x => (x.1, x.2.reading fixed m)) = (eventsOf p o).map (Assign.reading fixed m) := by
      simp only [eventsOf, List.filter_map, List.map_map, Function.comp_def]
    rw [hevents, ho p]
    exact List.map_flatMap
  · have hmap : (o.map fun x => (x.1, x.2.reading fixed m)).map Prod.snd = (o.map Prod.snd).map (Assign.reading fixed m) := by
      simp only [List.map_map, Function.comp_def]
    rw [hmap, execAll_reading fun _ _ => rfl]
    intro e he
    obtain ⟨x, hx, rfl⟩ := List.mem_map.mp he
    have hprog : x.2 ∈ parallelNdProgs nthr ph.dims ph.body x.1 := by
      rw [← ho x.1, mem_eventsOf]
      exact hx
    obtain ⟨idx, hidx, hbody⟩ := exists_iteration hprog
    exact hfixed idx hidx x.2 hbody

/-- Serial code. -/
theorem Phase.Step.of_serial {prog : List (Assign A V)} (h : (⟨[1], fun _ => prog⟩ : Phase A V).Step m m') :
    m' = execAll prog m := by
  have hzero : ∀ idx ∈ digits [1], idx = [0] := by
    intro idx hidx
    obtain ⟨x, hx, rfl⟩ := digits_singleton.mp hidx
    rw [Nat.lt_one_iff.mp hx]
  have hind : Independent (digits [1]) (fun _ => Set.univ) fun _ : List ℕ => prog := by
    constructor
    · intro idx hidx idx' hidx' hne
      exact absurd ((hzero idx hidx).trans (hzero idx' hidx').symm) hne
    · exact fun _ _ _ _ => Set.mem_univ _
    · intro idx hidx e _ m m' hm
      have hsame : m = m' := funext fun a => hm a fun j hj hne => absurd ((hzero j hj).trans (hzero idx hidx).symm) hne
      rw [hsame]
  funext a
  exact h.of_independent hind (digits_singleton.mpr ⟨0, Nat.one_pos, rfl⟩) (Set.mem_univ a)

/-- A loop in every iteration. Its iterations are independent, too. -/
theorem Phase.Step.of_nested {own : List ℕ × ℕ → Set A} {n : ℕ} {block : List ℕ × ℕ → List (Assign A V)}
    (h : (⟨dims, fun idx => (List.range n).flatMap fun j => block (idx, j)⟩ : Phase A V).Step m m')
    (hind : Independent {x | x.1 ∈ digits dims ∧ x.2 < n} own block) {x : List ℕ × ℕ} (hx : x.1 ∈ digits dims ∧ x.2 < n)
    {a : A} (ha : a ∈ own x) : m' a = execAll (block x) m a := by
  have houter : Independent (digits dims) (fun idx => {a | ∃ j < n, a ∈ own (idx, j)})
      fun idx => (List.range n).flatMap fun j => block (idx, j) := by
    constructor
    · rintro idx hidx idx' hidx' hne a ⟨j, hj, ha⟩ ⟨j', hj', ha'⟩
      exact hind.disjoint (idx, j) ⟨hidx, hj⟩ (idx', j') ⟨hidx', hj'⟩ (fun heq => hne (congrArg Prod.fst heq)) a ha ha'
    · intro idx hidx e he
      obtain ⟨j, hj, he⟩ := List.mem_flatMap.mp he
      exact ⟨j, List.mem_range.mp hj, hind.dst (idx, j) ⟨hidx, List.mem_range.mp hj⟩ e he⟩
    · intro idx hidx e he m m' hm
      obtain ⟨j, hj, he⟩ := List.mem_flatMap.mp he
      refine hind.value (idx, j) ⟨hidx, List.mem_range.mp hj⟩ e he m m' fun a ha => hm a ?_
      rintro idx' hidx' hne ⟨j', hj', ha'⟩
      exact ha (idx', j') ⟨hidx', hj'⟩ (fun heq => hne (congrArg Prod.fst heq)) ha'
  have hinner : Independent {j | j < n} (fun j => own (x.1, j)) fun j => block (x.1, j) := by
    constructor
    · intro j hj j' hj' hne
      exact hind.disjoint (x.1, j) ⟨hx.1, hj⟩ (x.1, j') ⟨hx.1, hj'⟩ fun heq => hne (congrArg Prod.snd heq)
    · exact fun j hj => hind.dst (x.1, j) ⟨hx.1, hj⟩
    · intro j hj e he m m' hm
      refine hind.value (x.1, j) ⟨hx.1, hj⟩ e he m m' fun a ha => hm a fun j' hj' hne => ?_
      exact ha (x.1, j') ⟨hx.1, hj'⟩ fun heq => hne (congrArg Prod.snd heq)
  rw [h.of_independent houter hx.1 ⟨x.2, hx.2, ha⟩]
  exact hinner.execAll_range hx.2 ha m

/-- What every iteration that assigns to an element assigns to it. -/
theorem Phase.Step.of_const (h : ph.Step m m') {a : A} {v : V}
    (hval : ∀ idx ∈ digits ph.dims, ∀ e ∈ ph.body idx, e.dst = a → ∀ m, e.value m = v)
    (hex : ∃ idx ∈ digits ph.dims, ∃ e ∈ ph.body idx, e.dst = a) : m' a = v := by
  obtain ⟨nthr, o, hnthr, ho, rfl⟩ := h
  apply execAll_of_const
  · intro e he
    obtain ⟨x, hx, rfl⟩ := List.mem_map.mp he
    have hprog : x.2 ∈ parallelNdProgs nthr ph.dims ph.body x.1 := by
      rw [← ho x.1, mem_eventsOf]
      exact hx
    obtain ⟨idx, hidx, hbody⟩ := exists_iteration hprog
    exact hval idx hidx x.2 hbody
  · obtain ⟨idx, hidx, e, he, hdst⟩ := hex
    obtain ⟨p, hp⟩ := mem_parallelNdProgs hnthr hidx he
    rw [← ho p, mem_eventsOf] at hp
    exact ⟨e, List.mem_map.mpr ⟨(p, e), hp, rfl⟩, hdst⟩

/-- What every iteration that assigns to an element assigns to it, from elements that no iteration assigns to. -/
theorem Phase.Step.of_fixed (h : ph.Step m m') (fixed : A → Bool)
    (hfixed : ∀ idx ∈ digits ph.dims, ∀ e ∈ ph.body idx, fixed e.dst = false) {a : A} {v : V}
    (hval : ∀ idx ∈ digits ph.dims, ∀ e ∈ ph.body idx, e.dst = a → ∀ m₁ : A → V, (∀ b, fixed b = true → m₁ b = m b) → e.value m₁ = v)
    (hex : ∃ idx ∈ digits ph.dims, ∃ e ∈ ph.body idx, e.dst = a) : m' a = v := by
  refine (h.reading fixed hfixed).of_const (fun idx hidx x hx hdst m₁ => ?_) ?_
  · obtain ⟨e, he, rfl⟩ := List.mem_map.mp hx
    exact hval idx hidx e he hdst _ fun b hb => if_pos hb
  · obtain ⟨idx, hidx, e, he, hdst⟩ := hex
    exact ⟨idx, hidx, e.reading fixed m, List.mem_map_of_mem he, hdst⟩

theorem runs_append : Runs (phs ++ phs') m m' ↔ ∃ m₁, Runs phs m m₁ ∧ Runs phs' m₁ m' := by
  induction phs generalizing m with
  | nil =>
    constructor
    · intro h
      exact ⟨m, rfl, h⟩
    · rintro ⟨m₁, rfl, h⟩
      exact h
  | cons ph phs ih =>
    simp only [List.cons_append, Runs, ih]
    constructor
    · rintro ⟨m₁, hstep, m₂, hrun, hrun'⟩
      exact ⟨m₂, ⟨m₁, hstep, hrun⟩, hrun'⟩
    · rintro ⟨m₂, ⟨m₁, hstep, hrun⟩, hrun'⟩
      exact ⟨m₁, hstep, m₂, hrun, hrun'⟩

theorem runs_singleton : Runs [ph] m m' ↔ ph.Step m m' := by
  constructor
  · rintro ⟨m₁, hstep, rfl⟩
    exact hstep
  · intro h
    exact ⟨m', h, rfl⟩

/-- Loops inside a serial loop with a counter. -/
theorem runs_range (Inv : ℕ → (A → V) → Prop) {n : ℕ} {body : ℕ → List (Phase A V)}
    (hbody : ∀ i < n, ∀ m m', Inv i m → Runs (body i) m m' → Inv (i + 1) m') (h : Inv 0 m)
    (hrun : Runs ((List.range n).flatMap body) m m') : Inv n m' := by
  induction n generalizing m' with
  | zero =>
    cases hrun
    exact h
  | succ n ih =>
    rw [List.range_succ, List.flatMap_append, runs_append] at hrun
    obtain ⟨m₁, hrest, hlast⟩ := hrun
    rw [List.flatMap_singleton] at hlast
    exact hbody n n.lt_succ_self m₁ m' (ih (fun i hi => hbody i (Nat.lt_succ_of_lt hi)) hrest) hlast

/-- The loops can be executed. -/
theorem exists_runs (phs : List (Phase A V)) (m : A → V) : ∃ m', Runs phs m m' := by
  induction phs generalizing m with
  | nil => exact ⟨m, rfl⟩
  | cons ph phs ih =>
    have hnil : ∀ p, 1 ≤ p → parallelNdProgs 1 ph.dims ph.body p = [] := by
      intro p hp
      simp only [parallelNdProgs, parallelNdIters, ite_self]
      rw [if_neg (Nat.not_lt.mpr hp), List.flatMap_nil]
    obtain ⟨o, ho, _⟩ := exists_isOrder hnil
    obtain ⟨m', hrun⟩ := ih (execAll (o.map Prod.snd) m)
    exact ⟨m', _, ⟨1, o, Nat.one_pos, ho, rfl⟩, hrun⟩

theorem Phase.exists_step (ph : Phase A V) (m : A → V) : ∃ m', ph.Step m m' := by
  obtain ⟨m', hrun⟩ := exists_runs [ph] m
  exact ⟨m', runs_singleton.mp hrun⟩

/-- A serial loop over parallel loops. The invariant tells which iterations are done. -/
theorem Runs.invariant {ι : Type*} {l : List ι} {body : ι → List (Phase A V)} (Inv : List ι → (A → V) → Prop)
    (hnil : Inv [] m) (hrun : Runs (l.flatMap body) m m')
    (hbody : ∀ done i rest, l = done ++ i :: rest → ∀ m m', Inv done m → Runs (body i) m m' → Inv (done ++ [i]) m') :
    Inv l m' := by
  have hgen : ∀ rest done m, l = done ++ rest → Inv done m → Runs (rest.flatMap body) m m' → Inv l m' := by
    intro rest
    induction rest with
    | nil =>
      rintro done m hl hinv rfl
      rw [hl, List.append_nil]
      exact hinv
    | cons i rest ih =>
      intro done m hl hinv hrun
      rw [List.flatMap_cons, runs_append] at hrun
      obtain ⟨m₁, hone, hrest⟩ := hrun
      apply ih (done ++ [i]) m₁ _ (hbody done i rest hl m m₁ hinv hone) hrest
      rw [hl, List.append_assoc, List.singleton_append]
  exact hgen l [] m rfl hnil hrun

/-- Two serial loops, one inside the other, over parallel loops. -/
theorem Runs.invariant₂ {ι κ : Type*} {l : List ι} {l' : List κ} {body : ι → κ → List (Phase A V)}
    (Inv : List (ι × κ) → (A → V) → Prop) (hnil : Inv [] m) (hrun : Runs (l.flatMap fun i => l'.flatMap (body i)) m m')
    (hbody : ∀ done i k rest, l ×ˢ l' = done ++ (i, k) :: rest → ∀ m m', Inv done m → Runs (body i k) m m' →
      Inv (done ++ [(i, k)]) m') : Inv (l ×ˢ l') m' := by
  have hflat : (l.flatMap fun i => l'.flatMap (body i)) = (l ×ˢ l').flatMap fun x => body x.1 x.2 := by
    clear hrun hbody
    induction l with
    | nil => rfl
    | cons i l ih => rw [List.product_cons, List.flatMap_cons, List.flatMap_append, List.flatMap_map, ih]
  rw [hflat] at hrun
  exact hrun.invariant Inv hnil fun done x rest => hbody done x.1 x.2 rest

end Runs

/-- The loop accesses elements of `P` only: it assigns to them, and its values depend on them alone. -/
def Phase.Within (P : A → Prop) (ph : Phase A V) : Prop := ∀ idx ∈ digits ph.dims, ∀ e ∈ ph.body idx,
  P e.dst ∧ ∀ m m' : A → V, (∀ a, P a → m a = m' a) → e.value m = e.value m'

end MklDnn
