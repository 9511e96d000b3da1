import MklDnn.Common.Proofs.ThreadingProofs
import MklDnn.Common.Threading
import MklDnn.Lib.SteppedLoops

/-!
# Proofs: `for_nd` over a team

Thread after thread, `for_nd` visits the box of the extents in row-major order, and the loads of the
threads differ by one iteration at most.
-/

namespace MklDnn

/-- The tuples of counters in row-major order: the last counter runs fastest. -/
def tuples : List ℕ → List (List ℕ)
  | [] => [[]]
  | X :: Xs => (List.range X).flatMap fun x => (tuples Xs).map (x :: ·)

theorem mem_tuples {dims p : List ℕ} : p ∈ tuples dims ↔ List.Forall₂ (· < ·) p dims := by
  induction dims generalizing p with
  | nil => simp [tuples]
  | cons X Xs ih =>
    simp only [tuples, List.mem_flatMap, List.mem_range, List.mem_map]
    constructor
    · rintro ⟨x, hx, q, hq, rfl⟩
      exact List.Forall₂.cons hx (ih.mp hq)
    · intro hp
      cases hp with
      | cons hx hxs => exact ⟨_, hx, _, ih.mpr hxs, rfl⟩

theorem nodup_tuples (dims : List ℕ) : (tuples dims).Nodup := by
  induction dims with
  | nil => simp [tuples]
  | cons X Xs ih =>
    rw [tuples, List.nodup_flatMap]
    constructor
    · intro x _
      exact ih.map fun p q h => (List.cons.inj h).2
    · refine List.nodup_range.imp fun {x y} hne => ?_
      show ((tuples Xs).map (x :: ·)).Disjoint ((tuples Xs).map (y :: ·))
      intro p hx hy
      obtain ⟨q, -, rfl⟩ := List.mem_map.mp hx
      obtain ⟨q', -, heq⟩ := List.mem_map.mp hy
      exact hne (List.cons.inj heq).1.symm

theorem range_mul_eq (X P : ℕ) :
    List.range (X * P) = (List.range X).flatMap fun q => (List.range P).map (q * P + ·) := by
  induction X with
  | zero => simp
  | succ X ih =>
    rw [Nat.succ_mul, List.range_add, ih, List.range_succ, List.flatMap_append, List.flatMap_singleton]

/-- The iterations of the sequential loop are the tuples in row-major order. -/
theorem map_ndIndex_eq_tuples (dims : List ℕ) :
    (List.range dims.prod).map (ndIndex dims) = tuples dims := by
  induction dims with
  | nil => rfl
  | cons X Xs ih =>
    rw [List.prod_cons, range_mul_eq, List.map_flatMap, tuples]
    refine List.flatMap_congr fun q hq => ?_
    rw [← ih, List.map_map, List.map_map]
    refine List.map_congr_left fun r hr => ?_
    exact ndIndex_mul_add (List.mem_range.mp hq) (List.mem_range.mp hr)

theorem nodup_parallelNd {nthr : ℕ} (hnthr : 0 < nthr) (dims : List ℕ) : (parallelNd nthr dims).Nodup := by
  rw [parallelNd_eq hnthr, map_ndIndex_eq_tuples]
  exact nodup_tuples dims

/-! ## Loads -/

/-- The range of a thread has one of two sizes, the larger one for the first threads. -/
theorem balance211_size (n team : ℕ) :
    ∃ load, ∀ tid < team, (balance211 n team tid).2 - (balance211 n team tid).1 = load ∨
      (balance211 n team tid).2 - (balance211 n team tid).1 = load + 1 := by
  by_cases h : team ≤ 1 ∨ n = 0
  · refine ⟨n, fun tid _ => Or.inl ?_⟩
    unfold balance211
    rw [if_pos h]
    exact Nat.sub_zero n
  · have hn1 : 0 < divUp n team := divUp_pos (by omega) (by omega)
    refine ⟨divUp n team - 1, fun tid _ => ?_⟩
    unfold balance211
    rw [if_neg h]
    dsimp only
    rw [Nat.add_sub_cancel]
    split_ifs
    · exact Or.inr (by omega)
    · exact Or.inl rfl

theorem length_forNd {ithr nthr : ℕ} (hithr : ithr < nthr) (dims : List ℕ) :
    (forNd ithr nthr dims).length =
      (balance211 dims.prod nthr ithr).2 - (balance211 dims.prod nthr ithr).1 := by
  rw [forNd_eq (balance211_snd_le hithr), List.length_map, List.length_range']

theorem length_forNd_le {ithr ithr' nthr : ℕ} (hithr : ithr < nthr) (hithr' : ithr' < nthr)
    (dims : List ℕ) : (forNd ithr nthr dims).length ≤ (forNd ithr' nthr dims).length + 1 := by
  obtain ⟨load, hload⟩ := balance211_size dims.prod nthr
  rw [length_forNd hithr, length_forNd hithr']
  rcases hload ithr hithr with h | h
  · rcases hload ithr' hithr' with h' | h'
    · omega
    · omega
  · rcases hload ithr' hithr' with h' | h'
    · omega
    · omega

/-- One thread after the other, a team visits the box of the extents in row-major order, so every tuple of
counters once; and the loads of the threads differ by one at most. -/
theorem forNd_enumerates {nthr : ℕ} (hnthr : 0 < nthr) (dims : List ℕ) :
    ((List.range nthr).flatMap fun ithr => forNd ithr nthr dims) = tuples dims ∧
      (tuples dims).Nodup ∧ (∀ p, p ∈ tuples dims ↔ List.Forall₂ (· < ·) p dims) ∧
      ∀ ithr < nthr, ∀ ithr' < nthr,
        (forNd ithr nthr dims).length ≤ (forNd ithr' nthr dims).length + 1 := by
  refine ⟨?_, nodup_tuples dims, fun p => mem_tuples, fun ithr hithr ithr' hithr' =>
    length_forNd_le hithr hithr' dims⟩
  have hthread : ∀ ithr ∈ List.range nthr, forNd ithr nthr dims =
      (List.range' (balance211 dims.prod nthr ithr).1
        ((balance211 dims.prod nthr ithr).2 - (balance211 dims.prod nthr ithr).1)).map
          (ndIndex dims) :=
    fun ithr hithr => forNd_eq (balance211_snd_le (List.mem_range.mp hithr))
  rw [List.flatMap_congr hthread, ← List.map_flatMap, flatMap_balance211 _ hnthr,
    map_ndIndex_eq_tuples]

/-- Five threads and a box of `3 x 0 x 2` and one of `2 x 3`. -/
theorem forNd_enumerates_5 :
    ((List.range 5).flatMap fun ithr => forNd ithr 5 [3, 0, 2]) = [] ∧
      ((List.range 5).flatMap fun ithr => forNd ithr 5 [2, 3]) =
        [[0, 0], [0, 1], [0, 2], [1, 0], [1, 1], [1, 2]] := by
  rw [(forNd_enumerates (by decide) [3, 0, 2]).1, (forNd_enumerates (by decide) [2, 3]).1]
  exact ⟨rfl, rfl⟩

end MklDnn

/-!
## Proofs: loops that jump along the last counter

A jump goes to the end of the innermost loop or to the end of the range. The passes are the rows of the range, cut off at
its ends.
-/

open LoopNest

namespace MklDnn

/-- What is left of the innermost loop at iteration `i`. -/
def rowRest (L i : ℕ) : ℕ := L - i % L

theorem rowRest_pos {L : ℕ} (hL : 0 < L) (i : ℕ) : 0 < rowRest L i := Nat.sub_pos_of_lt (Nat.mod_lt i hL)

/-- The first end of a row behind an iteration. -/
theorem le_of_row_end {L i m : ℕ} (hL : 0 < L) (hdvd : L ∣ m) (hlt : i < m) : i + rowRest L i ≤ m := by
  obtain ⟨q, rfl⟩ := hdvd
  have hq : i / L < q := Nat.div_lt_of_lt_mul hlt
  have hmod := Nat.mod_lt i hL
  have hi := Nat.div_add_mod i L
  calc i + rowRest L i = L * (i / L) + L := by rw [rowRest]; omega
    _ = L * (i / L + 1) := (Nat.mul_succ _ _).symm
    _ ≤ L * q := Nat.mul_le_mul_left L hq

theorem ndIteratorJump_ndIndex {front : List ℕ} {L : ℕ} (hpos : ∀ X ∈ front ++ [L], 0 < X) {cur stop : ℕ}
    (hcur : cur < stop) :
    ndIteratorJump cur stop (ndIndex (front ++ [L]) cur) (front ++ [L]) =
      (decide (min stop (cur + rowRest L cur) % (front ++ [L]).prod = 0), min stop (cur + rowRest L cur),
        ndIndex (front ++ [L]) (min stop (cur + rowRest L cur))) := by
  have hL : 0 < L := hpos L (List.mem_append_right _ List.mem_cons_self)
  have hrest := rowRest_pos hL cur
  generalize hnext : min stop (cur + rowRest L cur) = next
  have hlt : cur < next := by omega
  have hle : next ≤ cur + rowRest L cur := by omega
  induction front with
  | nil =>
    have hmod := Nat.mod_lt cur hL
    have hcurdiv := Nat.div_add_mod cur L
    simp only [List.nil_append, ndIndex_cons, ndIndex_nil, List.prod_nil, Nat.div_one, List.prod_singleton]
    rw [ndIteratorJump]
    by_cases hjump : L - cur % L ≤ stop - cur
    · rw [if_pos hjump]
      have heq : next = cur + (L - cur % L) := by rw [← hnext, rowRest]; omega
      have hzero : next % L = 0 := by
        have hmul : next = L * (cur / L + 1) := by rw [Nat.mul_succ]; omega
        rw [hmul, Nat.mul_mod_right]
      rw [hzero, heq]
      rfl
    · rw [if_neg hjump]
      have heq : next = stop := by rw [← hnext, rowRest]; omega
      have hmod' : next % L = cur % L + (stop - cur) := by
        have hsum : next = cur % L + (stop - cur) + L * (cur / L) := by omega
        rw [hsum, Nat.add_mul_mod_self_left, Nat.mod_eq_of_lt (by omega)]
      have hne : ¬ next % L = 0 := by omega
      have hcurstop : cur + (stop - cur) = next := by omega
      rw [decide_eq_false hne, hmod', hcurstop]
  | cons X Xs ih =>
    have hXs : ∀ Y ∈ Xs ++ [L], 0 < Y := fun Y hY => hpos Y (List.mem_cons_of_mem _ hY)
    have hX : 0 < X := hpos X List.mem_cons_self
    have hP : 0 < (Xs ++ [L]).prod := List.prod_pos hXs
    have hdvd : L ∣ (Xs ++ [L]).prod := List.dvd_prod (List.mem_append_right _ List.mem_cons_self)
    have hstep : ndIteratorJump cur stop (ndIndex (X :: (Xs ++ [L])) cur) (X :: (Xs ++ [L])) =
        let jump := ndIteratorJump cur stop (ndIndex (Xs ++ [L]) cur) (Xs ++ [L])
        let x := cur / (Xs ++ [L]).prod % X
        if jump.1 then (decide ((x + 1) % X = 0), jump.2.1, (x + 1) % X :: jump.2.2)
        else (false, jump.2.1, x :: jump.2.2) := by
      rw [ndIndex_cons]
      cases Xs with
      | nil => rfl
      | cons Y Ys => rfl
    rw [List.cons_append, hstep, ih hXs, ndIndex_cons, List.prod_cons]
    generalize hPdef : (Xs ++ [L]).prod = P at *
    dsimp only
    by_cases hwrap : next % P = 0
    · -- the inner counters wrap around, the outer counter advances
      obtain ⟨q, hq⟩ := Nat.dvd_of_mod_eq_zero hwrap
      obtain ⟨k, rfl⟩ : ∃ k, q = k + 1 := ⟨q - 1, by rcases q with _ | q <;> omega⟩
      have hLP : rowRest L cur ≤ P := (Nat.sub_le _ _).trans (Nat.le_of_dvd hP hdvd)
      have hdiv : next / P = k + 1 := by rw [hq, Nat.mul_div_cancel_left _ hP]
      have hdivcur : cur / P = k := by
        rw [Nat.mul_succ] at hq
        have hcurk : cur = P * k + (cur - P * k) := by omega
        rw [hcurk, Nat.mul_add_div hP, Nat.div_eq_of_lt (by omega), Nat.add_zero]
      have hall : next % (X * P) = 0 ↔ (k + 1) % X = 0 := by
        rw [hq, Nat.mul_comm X, Nat.mul_mod_mul_left]
        simp [hP.ne']
      simp only [hwrap, decide_true, if_true, hdiv, hdivcur, Nat.mod_add_mod, hall]
    · have hdiv : next / P = cur / P := by
        refine Nat.le_antisymm ?_ (Nat.div_le_div_right hlt.le)
        rw [Nat.le_div_iff_mul_le hP]
        by_contra hgt
        have hle' := le_of_row_end hL (hdvd.mul_left (next / P)) (by omega : cur < next / P * P)
        have hfloor := Nat.div_mul_le_self next P
        have hend : next = P * (next / P) := by rw [Nat.mul_comm]; omega
        exact hwrap (by rw [hend, Nat.mul_mod_right])
      have hall : next % (X * P) ≠ 0 := fun h0 =>
        hwrap (Nat.mod_eq_zero_of_dvd ((Dvd.intro_left X rfl).trans (Nat.dvd_of_mod_eq_zero h0)))
      simp only [hwrap, decide_false, hdiv, hall, Bool.false_eq_true, if_false]

/-- The passes of a loop over the iterations from `cur` to `stop`. -/
theorem jumpLoop_eq {front : List ℕ} {L : ℕ} (hpos : ∀ X ∈ front ++ [L], 0 < X) {stop fuel cur : ℕ} :
    jumpLoop (front ++ [L]) stop fuel cur (ndIndex (front ++ [L]) cur) =
      (starts (rowRest L) stop fuel cur).map fun c => (c, ndIndex (front ++ [L]) c) := by
  induction fuel generalizing cur with
  | zero => rfl
  | succ fuel ih =>
    unfold jumpLoop starts
    by_cases hcur : cur < stop
    · rw [if_pos hcur, if_pos hcur, ndIteratorJump_ndIndex hpos hcur]
      dsimp only
      rw [ih, List.map_cons]
      rcases Nat.le_total stop (cur + rowRest L cur) with hstop | hstop
      · rw [Nat.min_eq_left hstop, starts_of_le hstop, starts_of_le (Nat.le_refl stop)]
      · rw [Nat.min_eq_right hstop]
    · rw [if_neg hcur, if_neg hcur]
      rfl

/-- The passes on a thread. -/
theorem jumpPasses_eq {front : List ℕ} {L : ℕ} (hpos : ∀ X ∈ front ++ [L], 0 < X) (nthr ithr : ℕ) :
    let range := balance211 (front ++ [L]).prod nthr ithr
    jumpPasses (front ++ [L]) nthr ithr =
      (starts (rowRest L) range.2 (range.2 - range.1) range.1).map fun c => (c, ndIndex (front ++ [L]) c) :=
  jumpLoop_eq hpos

/-- The innermost counter and the others. -/
theorem ndIndex_append (front : List ℕ) (L i : ℕ) : ndIndex (front ++ [L]) i = ndIndex front (i / L) ++ [i % L] := by
  induction front with
  | nil => simp
  | cons X Xs ih =>
    have hprod : (Xs ++ [L]).prod = L * Xs.prod := by
      rw [List.prod_append, List.prod_singleton, Nat.mul_comm]
    rw [List.cons_append, ndIndex_cons, ih, ndIndex_cons, hprod, Nat.div_div_eq_div_mul, List.cons_append]

/-- The iterations of a row have the same outer counters. -/
theorem row_div_mod {L c w : ℕ} (hL : 0 < L) (hcw : c ≤ w) (hw : w < c + rowRest L c) :
    w / L = c / L ∧ w % L = c % L + (w - c) := by
  have hmod := Nat.mod_lt c hL
  have hc := Nat.div_add_mod c L
  have hsum : w = c % L + (w - c) + L * (c / L) := by omega
  have hlt : c % L + (w - c) < L := by
    unfold rowRest at hw
    omega
  constructor
  · calc w / L = (c % L + (w - c) + L * (c / L)) / L := congrArg (· / L) hsum
      _ = c / L := by rw [Nat.add_mul_div_left _ _ hL, Nat.div_eq_of_lt hlt, Nat.zero_add]
  · calc w % L = (c % L + (w - c) + L * (c / L)) % L := congrArg (· % L) hsum
      _ = c % L + (w - c) := by rw [Nat.add_mul_mod_self_left, Nat.mod_eq_of_lt hlt]

/-- The loop over the innermost counter of a pass, as a loop over the iterations. -/
theorem map_row {β : Type*} {L : ℕ} (hL : 0 < L) (stop c : ℕ) (f : ℕ → β) :
    (List.range' (c % L) (min L (c % L + (stop - c)) - c % L)).map f =
      (List.range' c (min stop (c + rowRest L c) - c)).map fun w => f (w % L) := by
  have hmod := Nat.mod_lt c hL
  have hlen : min L (c % L + (stop - c)) - c % L = min stop (c + rowRest L c) - c := by
    unfold rowRest
    omega
  rw [hlen, List.range'_eq_map_range, List.range'_eq_map_range, List.map_map, List.map_map]
  refine List.map_congr_left fun t ht => ?_
  have ht : t < min stop (c + rowRest L c) - c := List.mem_range.mp ht
  have hrow := (row_div_mod hL (Nat.le_add_right c t) (by omega : c + t < c + rowRest L c)).2
  rw [Nat.add_sub_cancel_left] at hrow
  show f (c % L + t) = f ((c + t) % L)
  rw [hrow]

/-- Different iterations have different counters. -/
theorem ndIndex_inj {dims : List ℕ} {i j : ℕ} (hi : i < dims.prod) (hj : j < dims.prod)
    (h : ndIndex dims i = ndIndex dims j) : i = j := by
  induction dims generalizing i j with
  | nil =>
    rw [List.prod_nil] at hi hj
    omega
  | cons X Xs ih =>
    rw [List.prod_cons] at hi hj
    have hP : 0 < Xs.prod := Nat.pos_of_ne_zero fun h0 => by simp [h0] at hi
    have split : ∀ {i : ℕ}, i < X * Xs.prod → ndIndex (X :: Xs) i = i / Xs.prod :: ndIndex Xs (i % Xs.prod) := by
      intro i hi
      have hq : i / Xs.prod < X := Nat.div_lt_of_lt_mul (by rwa [Nat.mul_comm])
      have hdecomp := ndIndex_mul_add hq (Nat.mod_lt i hP)
      rwa [Nat.mul_comm, Nat.div_add_mod] at hdecomp
    rw [split hi, split hj] at h
    obtain ⟨hdiv, htail⟩ := List.cons.inj h
    have hmod := ih (Nat.mod_lt i hP) (Nat.mod_lt j hP) htail
    rw [← Nat.div_add_mod i Xs.prod, hdiv, hmod, Nat.div_add_mod]

end MklDnn
