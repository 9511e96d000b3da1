import Mathlib.Data.List.ProdSigma
import Mathlib.Data.Set.Basic
import Mathlib.Data.Set.Lattice
import MklDnn.Lib.Assignments

/-!
# Programs that fill outputs

Programs of assignments that compute outputs from inputs which they do not change, with scratch addresses of their
own. Programs that fill different outputs can run one after the other, and threads can run them in any order.
-/

namespace Interleaving

variable {A V κ ι : Type*} [DecidableEq A] {scratch inputs : Set A} {out : κ → A} {val : κ → (A → V) → V}

/-- The program computes the outputs `S`, and changes nothing else but scratch addresses. -/
structure Fills (scratch inputs : Set A) (out : κ → A) (val : κ → (A → V) → V) (S : Set κ)
    (prog : List (Assign A V)) : Prop where
  value : ∀ m, ∀ k ∈ S, execAll prog m (out k) = val k m
  frame : ∀ e ∈ prog, e.dst ∈ scratch ∨ ∃ k ∈ S, e.dst = out k
  reads : ∀ e ∈ prog, ∀ m m' : A → V, (∀ a ∈ scratch, m a = m' a) → (∀ k ∈ S, m (out k) = m' (out k)) →
    (∀ a ∈ inputs, m a = m' a) → e.value m = e.value m'

/-- The outputs `T` are at different addresses, which are neither scratch nor inputs, and depend on the inputs only. -/
structure Outputs (scratch inputs : Set A) (out : κ → A) (val : κ → (A → V) → V) (T : Set κ) : Prop where
  inj : Set.InjOn out T
  not_scratch : ∀ k ∈ T, out k ∉ scratch
  not_input : ∀ k ∈ T, out k ∉ inputs
  scratch_not_input : ∀ a ∈ scratch, a ∉ inputs
  congr : ∀ k ∈ T, ∀ m m' : A → V, (∀ a ∈ inputs, m a = m' a) → val k m = val k m'

theorem fills_nil : Fills scratch inputs out val ∅ [] where
  value := by
    intro m k hk
    exact absurd hk (Set.notMem_empty k)
  frame := by
    intro e he
    cases he
  reads := by
    intro e he
    cases he

/-- A program may have more scratch addresses than it uses. -/
theorem Fills.mono {S : Set κ} {prog : List (Assign A V)} {scratch' : Set A}
    (h : Fills scratch inputs out val S prog) (hsub : scratch ⊆ scratch') : Fills scratch' inputs out val S prog where
  value := h.value
  frame := fun e he => (h.frame e he).imp_left fun hmem => hsub hmem
  reads := fun e he m m' hscratch => h.reads e he m m' fun a ha => hscratch a (hsub ha)

/-- If every element belongs to one member of a list, no two members have an element in common. -/
theorem pairwise_disjoint_of_countP {P : ι → κ → Prop} [∀ i k, Decidable (P i k)] {l : List ι}
    (h : ∀ k, l.countP (fun i => P i k) ≤ 1) : l.Pairwise fun i j => ∀ k, P i k → ¬ P j k := by
  induction l with
  | nil => exact List.Pairwise.nil
  | cons i l ih =>
    have htail : ∀ k, l.countP (fun j => P j k) ≤ 1 := fun k => (List.Sublist.countP_le (List.sublist_cons_self i l)).trans (h k)
    refine List.Pairwise.cons ?_ (ih htail)
    intro j hj k hi hjk
    have hone := h k
    rw [List.countP_cons, if_pos (decide_eq_true hi)] at hone
    have hpos : 0 < l.countP fun j => P j k := List.countP_pos_iff.mpr ⟨j, hj, decide_eq_true hjk⟩
    omega

section Outputs

variable {T S S' : Set κ} {prog prog' : List (Assign A V)}

/-- A program that fills outputs leaves the inputs as they are. -/
theorem Fills.input_eq (h : Outputs scratch inputs out val T) (hS : S ⊆ T) (hprog : Fills scratch inputs out val S prog)
    (m : A → V) {a : A} (ha : a ∈ inputs) : execAll prog m a = m a := by
  apply execAll_of_ne
  intro e he heq
  rcases hprog.frame e he with hscratch | ⟨k, hk, hdst⟩
  · exact h.scratch_not_input _ (heq ▸ hscratch) ha
  · exact h.not_input k (hS hk) (hdst ▸ heq ▸ ha)

/-- A program that fills outputs leaves the other outputs as they are. -/
theorem Fills.output_eq (h : Outputs scratch inputs out val T) (hS : S ⊆ T) (hprog : Fills scratch inputs out val S prog)
    (m : A → V) {k : κ} (hk : k ∈ T) (hnot : k ∉ S) : execAll prog m (out k) = m (out k) := by
  apply execAll_of_ne
  intro e he heq
  rcases hprog.frame e he with hscratch | ⟨k', hk', hdst⟩
  · exact h.not_scratch k hk (heq ▸ hscratch)
  · have hsame : k' = k := h.inj (hS hk') hk (hdst.symm.trans heq)
    exact hnot (hsame ▸ hk')

/-- Programs for different outputs, one after the other. -/
theorem Fills.append (h : Outputs scratch inputs out val T) (hS : S ⊆ T) (hS' : S' ⊆ T) (hdisj : ∀ k ∈ S, k ∉ S')
    (hprog : Fills scratch inputs out val S prog) (hprog' : Fills scratch inputs out val S' prog') :
    Fills scratch inputs out val (S ∪ S') (prog ++ prog') where
  value := by
    intro m k hk
    rw [execAll_append]
    rcases hk with hk | hk
    · rw [hprog'.output_eq h hS' _ (hS hk) (hdisj k hk), hprog.value m k hk]
    · rw [hprog'.value _ k hk]
      apply h.congr k (hS' hk)
      intro a ha
      exact hprog.input_eq h hS m ha
  frame := by
    intro e he
    rcases List.mem_append.mp he with he | he
    · rcases hprog.frame e he with hscratch | ⟨k, hk, hdst⟩
      · exact Or.inl hscratch
      · exact Or.inr ⟨k, Or.inl hk, hdst⟩
    · rcases hprog'.frame e he with hscratch | ⟨k, hk, hdst⟩
      · exact Or.inl hscratch
      · exact Or.inr ⟨k, Or.inr hk, hdst⟩
  reads := by
    intro e he m m' hscratch hout hin
    rcases List.mem_append.mp he with he | he
    · exact hprog.reads e he m m' hscratch (fun k hk => hout k (Or.inl hk)) hin
    · exact hprog'.reads e he m m' hscratch (fun k hk => hout k (Or.inr hk)) hin

/-- The iterations of a loop fill different outputs. -/
theorem Fills.flatMap {l : List ι} {body : ι → List (Assign A V)} {S : ι → Set κ}
    (h : Outputs scratch inputs out val T) (hS : ∀ i ∈ l, S i ⊆ T)
    (hdisj : l.Pairwise fun i j => ∀ k ∈ S i, k ∉ S j)
    (hbody : ∀ i ∈ l, Fills scratch inputs out val (S i) (body i)) :
    Fills scratch inputs out val (⋃ i ∈ l, S i) (l.flatMap body) := by
  induction l with
  | nil =>
    simp only [List.not_mem_nil, Set.iUnion_of_empty, Set.iUnion_empty]
    exact fills_nil
  | cons i l ih =>
    rw [List.pairwise_cons] at hdisj
    have hrest := ih (fun j hj => hS j (List.mem_cons_of_mem i hj)) hdisj.2
      fun j hj => hbody j (List.mem_cons_of_mem i hj)
    have hunion : (⋃ j ∈ i :: l, S j) = S i ∪ ⋃ j ∈ l, S j := by
      simp only [List.mem_cons, Set.iUnion_iUnion_eq_or_left]
    rw [hunion, List.flatMap_cons]
    apply (hbody i List.mem_cons_self).append h (hS i List.mem_cons_self) _ _ hrest
    · exact Set.iUnion₂_subset fun j hj => hS j (List.mem_cons_of_mem i hj)
    · intro k hk hmem
      obtain ⟨j, hj, hkj⟩ := Set.mem_iUnion₂.mp hmem
      exact hdisj.1 j hj k hk hkj

/-- In any order of the threads, the outputs of a thread are what the thread computes, if no other thread changes
them, its inputs or its scratch addresses. -/
theorem Fills.execAll_order {progs : ℕ → List (Assign A V)} {o : List (ℕ × Assign A V)} {p : ℕ}
    (hprog : Fills scratch inputs out val S (progs p)) (ho : IsOrder progs o)
    (hout : ∀ k ∈ S, Private progs p (out k)) (hscratch : ∀ a ∈ scratch, Private progs p a)
    (hin : ∀ a ∈ inputs, Private progs p a) {k : κ} (hk : k ∈ S) (m : A → V) :
    execAll (o.map Prod.snd) m (out k) = val k m := by
  rw [execAll_order_of_private _ ho (hout k hk), hprog.value m k hk]
  intro e he m m' hm
  apply hprog.reads e he
  · intro a ha
    exact hm a (hscratch a ha)
  · intro k hk
    exact hm _ (hout k hk)
  · intro a ha
    exact hm a (hin a ha)

end Outputs

end Interleaving

/-!
## Independent iterations

The iterations of a loop that assign to elements of their own. Whatever iterations a thread executes, and in whatever
order the threads do, an iteration leaves its elements as it does on its own.
-/

namespace Interleaving

variable {A V ι : Type*}

/-- Iterations that assign to elements of their own, and read no element that belongs to another iteration. -/
structure Independent (I : Set ι) (own : ι → Set A) (body : ι → List (Assign A V)) : Prop where
  disjoint : ∀ i ∈ I, ∀ j ∈ I, i ≠ j → ∀ a ∈ own i, a ∉ own j
  dst : ∀ i ∈ I, ∀ e ∈ body i, e.dst ∈ own i
  value : ∀ i ∈ I, ∀ e ∈ body i, ∀ m m' : A → V, (∀ a, (∀ j ∈ I, j ≠ i → a ∉ own j) → m a = m' a) →
    e.value m = e.value m'

/-- Iterations that assign to elements of their own and read elements that belong to no iteration. -/
theorem Independent.of_disjoint {I : Set ι} {own : ι → Set A} {body : ι → List (Assign A V)}
    (hdisj : ∀ i ∈ I, ∀ j ∈ I, i ≠ j → ∀ a ∈ own i, a ∉ own j) (hdst : ∀ i ∈ I, ∀ e ∈ body i, e.dst ∈ own i)
    (hvalue : ∀ i ∈ I, ∀ e ∈ body i, ∀ m m' : A → V, (∀ a, a ∈ own i ∨ (∀ j ∈ I, a ∉ own j) → m a = m' a) →
      e.value m = e.value m') : Independent I own body where
  disjoint := hdisj
  dst := hdst
  value := by
    intro i hi e he m m' hm
    apply hvalue i hi e he m m'
    rintro a (ha | ha)
    · exact hm a fun j hj hne => hdisj i hi j hj hne.symm a ha
    · exact hm a fun j hj _ => ha j hj

section Numbered

variable {n : ℕ} {own : ℕ → Set A} {body : ℕ → List (Assign A V)}

/-- The iterations below a number. -/
theorem Independent.raceFree (h : Independent {i | i < n} own body) :
    RaceFree fun i => if i < n then body i else [] := by
  have hmem : ∀ i, ∀ e ∈ (if i < n then body i else []), i < n ∧ e ∈ body i := by
    intro i e he
    split_ifs at he with hi
    · exact ⟨hi, he⟩
    · cases he
  constructor
  · intro i e he j hne e' he' heq
    obtain ⟨hi, he⟩ := hmem i e he
    obtain ⟨hj, he'⟩ := hmem j e' he'
    exact h.disjoint i hi j hj hne.symm _ (h.dst i hi e he) (heq ▸ h.dst j hj e' he')
  · intro i e he m m' hm
    obtain ⟨hi, he⟩ := hmem i e he
    apply h.value i hi e he
    intro a ha
    apply hm
    intro j hne e' he' heq
    obtain ⟨hj, he'⟩ := hmem j e' he'
    exact ha j hj hne (heq ▸ h.dst j hj e' he')

/-- No other iteration assigns to the elements of an iteration. -/
theorem Independent.isPrivate (h : Independent {i | i < n} own body) {i : ℕ} (hi : i < n) {a : A} (ha : a ∈ own i) :
    Private (fun i => if i < n then body i else []) i a := by
  intro j hne e he heq
  dsimp only at he
  split_ifs at he with hj
  · exact h.disjoint i hi j hj hne.symm a ha (heq ▸ h.dst j hj e he)
  · cases he

/-- An iteration leaves its elements as it does on its own. -/
theorem Independent.execAll_threads [DecidableEq A] (h : Independent {i | i < n} own body) {iters : ℕ → List ℕ}
    (hnd : ∀ p, (iters p).Nodup) (hdisj : ∀ p q, p ≠ q → ∀ i ∈ iters p, i ∉ iters q) (hlt : ∀ p, ∀ i ∈ iters p, i < n)
    {o : List (ℕ × Assign A V)} (ho : IsOrder (fun p => (iters p).flatMap body) o) {p i : ℕ} (hi : i ∈ iters p) {a : A}
    (ha : a ∈ own i) (m : A → V) : execAll (o.map Prod.snd) m a = execAll (body i) m a := by
  have hprogs : (fun p => (iters p).flatMap body) = fun p => (iters p).flatMap fun i => if i < n then body i else [] := by
    funext p
    exact List.flatMap_congr fun i hi => (if_pos (hlt p i hi)).symm
  rw [hprogs] at ho
  rw [h.raceFree.execAll_threads hnd hdisj ho hi (h.isPrivate (hlt p i hi) ha), if_pos (hlt p i hi)]

/-- The iterations one after the other. -/
theorem Independent.execAll_range [DecidableEq A] (h : Independent {i | i < n} own body) {i : ℕ} (hi : i < n) {a : A}
    (ha : a ∈ own i) (m : A → V) : execAll ((List.range n).flatMap body) m a = execAll (body i) m a := by
  have hprog : (List.range n).flatMap body = (List.range n).flatMap fun i => if i < n then body i else [] :=
    List.flatMap_congr fun i hi => (if_pos (List.mem_range.mp hi)).symm
  rw [hprog, h.raceFree.execAll_flatMap List.nodup_range (List.mem_range.mpr hi) (h.isPrivate hi ha), if_pos hi]

end Numbered

end Interleaving

/-!
## Programs that update elements

Programs of local assignments: what they do to an element depends on nothing but the element.
-/

open LoopNest

namespace Interleaving

variable {A V κ ι : Type*} [DecidableEq A] {S S' T : Set κ} {dst : κ → A} {f g : κ → V → V} {prog prog' : List (Assign A V)}

/-- The program makes `f k` of the element `dst k` for every `k` of a set, and changes nothing else. -/
structure Updates (S : Set κ) (dst : κ → A) (f : κ → V → V) (prog : List (Assign A V)) : Prop where
  isLocal : ∀ e ∈ prog, e.Local
  frame : ∀ e ∈ prog, ∃ k ∈ S, e.dst = dst k
  value : ∀ k ∈ S, ∀ v, trace (dst k) prog v = f k v

theorem updates_nil : Updates S dst (fun _ (v : V) => v) [] where
  isLocal := by
    intro e he
    cases he
  frame := by
    intro e he
    cases he
  value := fun _ _ _ => rfl

theorem Updates.congr (h : Updates S dst f prog) (hfg : ∀ k ∈ S, ∀ v, f k v = g k v) : Updates S dst g prog where
  isLocal := h.isLocal
  frame := h.frame
  value := by
    intro k hk v
    rw [h.value k hk, hfg k hk]

theorem Updates.congr_dst {dst' : κ → A} (h : Updates S dst f prog) (hdst : ∀ k ∈ S, dst k = dst' k) :
    Updates S dst' f prog where
  isLocal := h.isLocal
  frame := by
    intro e he
    obtain ⟨k, hk, heq⟩ := h.frame e he
    exact ⟨k, hk, heq.trans (hdst k hk)⟩
  value := by
    intro k hk v
    rw [← hdst k hk, h.value k hk]

/-- Elements that are numbered in another way. -/
theorem Updates.image {num : κ → ι} {dst : ι → A} {f : ι → V → V}
    (h : Updates S (fun k => dst (num k)) (fun k => f (num k)) prog) : Updates (Set.image num S) dst f prog where
  isLocal := h.isLocal
  frame := by
    intro e he
    obtain ⟨k, hk, heq⟩ := h.frame e he
    exact ⟨num k, Set.mem_image_of_mem num hk, heq⟩
  value := by
    rintro _ ⟨k, hk, rfl⟩ v
    exact h.value k hk v

/-- A loop over the elements. -/
theorem updates_map {l : List κ} (hnd : l.Nodup) (hdst : Set.InjOn dst {k | k ∈ l}) {e : κ → Assign A V}
    (he : ∀ k ∈ l, (e k).dst = dst k) (hlocal : ∀ k ∈ l, (e k).Local)
    (hval : ∀ k ∈ l, ∀ v, ((e k).value fun _ => v) = f k v) : Updates {k | k ∈ l} dst f (l.map e) where
  isLocal := by
    intro x hx
    obtain ⟨k, hk, rfl⟩ := List.mem_map.mp hx
    exact hlocal k hk
  frame := by
    intro x hx
    obtain ⟨k, hk, rfl⟩ := List.mem_map.mp hx
    exact ⟨k, hk, he k hk⟩
  value := by
    intro k hk v
    rw [trace_map_of_unique hnd hk (he k hk), hval k hk]
    intro j hj hne heq
    rw [he j hj] at heq
    exact hne (hdst hj hk heq)

/-- A loop over the first elements. -/
theorem updates_range {n : ℕ} {dst : ℕ → A} {f : ℕ → V → V} (hdst : Function.Injective dst) {e : ℕ → Assign A V}
    (he : ∀ i, (e i).dst = dst i) (hlocal : ∀ i, (e i).Local) (hval : ∀ i v, ((e i).value fun _ => v) = f i v) :
    Updates {i | i < n} dst f ((List.range n).map e) := by
  have hset : {i | i < n} = {i | i ∈ List.range n} := by
    ext i
    exact List.mem_range.symm
  rw [hset]
  exact updates_map List.nodup_range hdst.injOn (fun i _ => he i) (fun i _ => hlocal i) fun i _ => hval i

/-- A nest of two loops over the elements. -/
theorem updates_loops {α β : Type*} {l : List α} {l' : List β} (hnd : l.Nodup) (hnd' : l'.Nodup) {num : α → β → κ}
    (hnum : ∀ x y x' y', num x y = num x' y' → x = x' ∧ y = y') (hdst : Set.InjOn dst T)
    (hT : ∀ x ∈ l, ∀ y ∈ l', num x y ∈ T) {e : α → β → Assign A V} (he : ∀ x ∈ l, ∀ y ∈ l', (e x y).dst = dst (num x y))
    (hlocal : ∀ x ∈ l, ∀ y ∈ l', (e x y).Local)
    (hval : ∀ x ∈ l, ∀ y ∈ l', ∀ v, ((e x y).value fun _ => v) = f (num x y) v) :
    Updates {k | ∃ x ∈ l, ∃ y ∈ l', k = num x y} dst f (l.flatMap fun x => l'.map (e x)) := by
  have hpairs : l.flatMap (fun x => l'.map (e x)) = (l ×ˢ l').map fun p => e p.1 p.2 := by
    simp only [SProd.sprod, List.product, List.map_flatMap, List.map_map, Function.comp_def]
  have hmem : ∀ p : α × β, p ∈ l ×ˢ l' ↔ p.1 ∈ l ∧ p.2 ∈ l' := fun p => List.pair_mem_product
  have hset : {k | ∃ x ∈ l, ∃ y ∈ l', k = num x y} = Set.image (fun p => num p.1 p.2) {p | p ∈ l ×ˢ l'} := by
    ext k
    constructor
    · rintro ⟨x, hx, y, hy, rfl⟩
      exact ⟨(x, y), (hmem _).mpr ⟨hx, hy⟩, rfl⟩
    · rintro ⟨p, hp, rfl⟩
      exact ⟨p.1, ((hmem p).mp hp).1, p.2, ((hmem p).mp hp).2, rfl⟩
  rw [hpairs, hset]
  apply Updates.image
  refine updates_map (hnd.product hnd') ?_ (fun p hp => he _ ((hmem p).mp hp).1 _ ((hmem p).mp hp).2)
    (fun p hp => hlocal _ ((hmem p).mp hp).1 _ ((hmem p).mp hp).2)
    fun p hp => hval _ ((hmem p).mp hp).1 _ ((hmem p).mp hp).2
  intro p hp q hq heq
  have hnums := hdst (hT _ ((hmem p).mp hp).1 _ ((hmem p).mp hp).2) (hT _ ((hmem q).mp hq).1 _ ((hmem q).mp hq).2) heq
  exact Prod.ext (hnum _ _ _ _ hnums).1 (hnum _ _ _ _ hnums).2

/-- Programs one after the other. -/
theorem Updates.append (h : Updates S dst f prog) (h' : Updates S dst g prog') :
    Updates S dst (fun k v => g k (f k v)) (prog ++ prog') where
  isLocal := by
    intro e he
    rcases List.mem_append.mp he with he | he
    · exact h.isLocal e he
    · exact h'.isLocal e he
  frame := by
    intro e he
    rcases List.mem_append.mp he with he | he
    · exact h.frame e he
    · exact h'.frame e he
  value := by
    intro k hk v
    rw [trace_append, h.value k hk, h'.value k hk]

/-- A loop that adds a term to every element in each iteration. -/
theorem updates_flatMap [AddCommMonoid V] {l : List ι} {body : ι → List (Assign A V)} {term : ι → κ → V}
    (h : ∀ x ∈ l, Updates S dst (fun k v => v + term x k) (body x)) :
    Updates S dst (fun k v => v + (l.map fun x => term x k).sum) (l.flatMap body) := by
  induction l with
  | nil =>
    refine updates_nil.congr fun k _ v => ?_
    rw [List.map_nil, List.sum_nil, add_zero]
  | cons x l ih =>
    have hrest := ih fun y hy => h y (List.mem_cons_of_mem x hy)
    rw [List.flatMap_cons]
    refine ((h x List.mem_cons_self).append hrest).congr fun k _ v => ?_
    rw [List.map_cons, List.sum_cons, add_assoc]

/-- The program leaves the other elements as they are. -/
theorem Updates.trace_of_notMem (h : Updates S dst f prog) (hdst : Set.InjOn dst T) (hS : S ⊆ T) {k : κ} (hk : k ∈ T)
    (hnot : k ∉ S) (v : V) : trace (dst k) prog v = v := by
  apply trace_of_ne
  intro e he heq
  obtain ⟨k', hk', hdst'⟩ := h.frame e he
  exact hnot (hdst (hS hk') hk (hdst'.symm.trans heq) ▸ hk')

/-- Programs for different elements, one after the other. -/
theorem Updates.union (h : Updates S dst f prog) (h' : Updates S' dst f prog') (hdst : Set.InjOn dst T) (hS : S ⊆ T)
    (hS' : S' ⊆ T) (hdisj : ∀ k ∈ S, k ∉ S') : Updates (S ∪ S') dst f (prog ++ prog') where
  isLocal := by
    intro e he
    rcases List.mem_append.mp he with he | he
    · exact h.isLocal e he
    · exact h'.isLocal e he
  frame := by
    intro e he
    rcases List.mem_append.mp he with he | he
    · obtain ⟨k, hk, heq⟩ := h.frame e he
      exact ⟨k, Or.inl hk, heq⟩
    · obtain ⟨k, hk, heq⟩ := h'.frame e he
      exact ⟨k, Or.inr hk, heq⟩
  value := by
    intro k hk v
    rw [trace_append]
    rcases hk with hk | hk
    · rw [h.value k hk, h'.trace_of_notMem hdst hS' (hS hk) (hdisj k hk)]
    · rw [h.trace_of_notMem hdst hS (hS' hk) fun hmem => hdisj k hmem hk, h'.value k hk]

/-- A loop whose iterations update different elements. -/
theorem updates_iUnion {l : List ι} {body : ι → List (Assign A V)} {S : ι → Set κ} (hdst : Set.InjOn dst T)
    (hS : ∀ x ∈ l, S x ⊆ T) (hdisj : l.Pairwise fun x y => ∀ k ∈ S x, k ∉ S y)
    (h : ∀ x ∈ l, Updates (S x) dst f (body x)) : Updates {k | ∃ x ∈ l, k ∈ S x} dst f (l.flatMap body) := by
  induction l with
  | nil =>
    refine updates_nil.congr fun k hk => ?_
    obtain ⟨x, hx, -⟩ := hk
    cases hx
  | cons x l ih =>
    rw [List.pairwise_cons] at hdisj
    have hrest := ih (fun y hy => hS y (List.mem_cons_of_mem x hy)) hdisj.2 fun y hy => h y (List.mem_cons_of_mem x hy)
    have hset : {k | ∃ y ∈ x :: l, k ∈ S y} = S x ∪ {k | ∃ y ∈ l, k ∈ S y} := by
      ext k
      simp
    rw [hset, List.flatMap_cons]
    refine (h x List.mem_cons_self).union hrest hdst (hS x List.mem_cons_self) ?_ ?_
    · rintro k ⟨y, hy, hk⟩
      exact hS y (List.mem_cons_of_mem x hy) hk
    · rintro k hk ⟨y, hy, hky⟩
      exact hdisj.1 y hy k hk hky

/-- A loop over the blocks of a range, for the elements whose coordinate `x` is in the range. -/
theorem updates_starts {len : ℕ → ℕ} {stop : ℕ} (hlen : ∀ c < stop, 0 < len c) {x : κ → ℕ} {body : ℕ → List (Assign A V)}
    (hdst : Set.InjOn dst T)
    (h : ∀ c ∈ starts len stop stop 0, Updates {k | k ∈ T ∧ c ≤ x k ∧ x k < min stop (c + len c)} dst f (body c)) :
    Updates {k | k ∈ T ∧ x k < stop} dst f ((starts len stop stop 0).flatMap body) := by
  have hset : {k | k ∈ T ∧ x k < stop} =
      {k | ∃ c ∈ starts len stop stop 0, k ∈ T ∧ c ≤ x k ∧ x k < min stop (c + len c)} := by
    ext k
    constructor
    · rintro ⟨hk, hx⟩
      obtain ⟨c, hc, hmem⟩ := exists_start hlen (show stop ≤ 0 + stop by omega) (Nat.zero_le _) hx
      exact ⟨c, hc, hk, by omega⟩
    · rintro ⟨c, -, hk, hx⟩
      exact ⟨hk, by omega⟩
  rw [hset]
  refine updates_iUnion hdst (fun c _ k hk => hk.1) ?_ h
  refine (nodup_starts hlen).pairwise_of_forall_ne fun c hc c' hc' hne k hk hk' => ?_
  have hx : c ≤ x k ∧ x k < c + len c := ⟨hk.2.1, by have := hk.2.2; omega⟩
  have hx' : c' ≤ x k ∧ x k < c' + len c' := ⟨hk'.2.1, by have := hk'.2.2; omega⟩
  exact hne (start_unique hc hc' hx hx')

/-- An assignment that reads the elements `fixed` from another memory. -/
def Assign.reading (fixed : A → Bool) (m₀ : A → V) (e : Assign A V) : Assign A V :=
  ⟨e.dst, fun m => e.value fun a => if fixed a then m₀ a else m a⟩

/-- A program that reads elements which it does not assign to. -/
theorem execAll_reading {fixed : A → Bool} {m₀ m : A → V} (hm : ∀ a, fixed a = true → m₀ a = m a)
    (h : ∀ e ∈ prog, fixed e.dst = false) : execAll (prog.map (Assign.reading fixed m₀)) m = execAll prog m := by
  induction prog generalizing m with
  | nil => rfl
  | cons e prog ih =>
    have hread : (fun a => if fixed a then m₀ a else m a) = m := by
      funext a
      split_ifs with ha
      · exact hm a ha
      · rfl
    have hexec : (e.reading fixed m₀).exec m = e.exec m := by
      change Function.update m e.dst (e.value fun a => if fixed a then m₀ a else m a) = _
      rw [hread]
      rfl
    rw [List.map_cons, execAll_cons, execAll_cons, hexec]
    refine ih (fun a ha => ?_) fun x hx => h x (List.mem_cons_of_mem e hx)
    rw [Assign.exec_of_ne, hm a ha]
    rintro rfl
    exact absurd ha (by rw [h e List.mem_cons_self]; decide)

/-- What a program leaves in memory. -/
theorem Updates.execAll_eq (h : Updates S dst f prog) (m : A → V) {k : κ} (hk : k ∈ S) :
    execAll prog m (dst k) = f k (m (dst k)) := by
  rw [execAll_eq_trace h.isLocal, h.value k hk]

end Interleaving
