import Mathlib.Order.CompletePartialOrder
import MklDnn.Common.Threading
import MklDnn.Memory.Proofs.DenseProofs

/-!
# Proofs: parallel loops

The ranges of `balance211` follow one another, so the iterations of the threads of a team, one thread
after the other, are the iterations of the sequential loop.
-/

open LoopNest

namespace MklDnn

/-! ## The ranges of the threads -/

/-- The start of the range of thread `tid`, for a team of at least two threads. -/
theorem balance211_fst_eq {n team : ℕ} (hteam : 1 < team) (hn : n ≠ 0) (tid : ℕ) :
    (balance211 n team tid).1 =
      min tid (n - (divUp n team - 1) * team) + tid * (divUp n team - 1) := by
  have hn1 : 0 < divUp n team := divUp_pos (Nat.pos_of_ne_zero hn) (by omega)
  obtain ⟨n2, hn2⟩ : ∃ n2, divUp n team = n2 + 1 := ⟨divUp n team - 1, by omega⟩
  unfold balance211
  rw [if_neg (by omega)]
  simp only [hn2, Nat.add_sub_cancel]
  set T1 := n - n2 * team with hT1
  by_cases h : tid ≤ T1
  · rw [if_pos h, min_eq_left h]
    ring
  · rw [if_neg h, min_eq_right (by omega)]
    obtain ⟨k, hk⟩ : ∃ k, tid = T1 + k := ⟨tid - T1, by omega⟩
    rw [hk, Nat.add_sub_cancel_left]
    ring

/-- The range of a thread ends where the range of the next one starts. -/
theorem balance211_snd_eq {n team : ℕ} (hteam : 1 < team) (hn : n ≠ 0) (tid : ℕ) :
    (balance211 n team tid).2 = (balance211 n team (tid + 1)).1 := by
  have hn1 : 0 < divUp n team := divUp_pos (Nat.pos_of_ne_zero hn) (by omega)
  obtain ⟨n2, hn2⟩ : ∃ n2, divUp n team = n2 + 1 := ⟨divUp n team - 1, by omega⟩
  have hsnd : (balance211 n team tid).2 =
      (if tid < n - (divUp n team - 1) * team then divUp n team else divUp n team - 1) +
        (balance211 n team tid).1 := by
    unfold balance211
    rw [if_neg (by omega)]
  rw [hsnd, balance211_fst_eq hteam hn, balance211_fst_eq hteam hn, hn2]
  simp only [Nat.add_sub_cancel]
  set T1 := n - n2 * team with hT1
  by_cases h : tid < T1
  · rw [if_pos h, min_eq_left h.le, min_eq_left (by omega)]
    ring
  · rw [if_neg h, min_eq_right (by omega), min_eq_right (by omega)]
    ring

theorem balance211_fst_le_snd (n team tid : ℕ) : (balance211 n team tid).1 ≤ (balance211 n team tid).2 := by
  unfold balance211
  split_ifs
  · exact Nat.zero_le n
  · exact Nat.le_add_left _ _

theorem balance211_zero (n team : ℕ) : (balance211 n team 0).1 = 0 := by
  unfold balance211
  split_ifs <;> simp

/-- The last range ends at `n`. -/
theorem balance211_last {n team : ℕ} (hteam : 1 < team) (hn : n ≠ 0) :
    (balance211 n team team).1 = n := by
  have hn1 : 0 < divUp n team := divUp_pos (Nat.pos_of_ne_zero hn) (by omega)
  have hup : n ≤ divUp n team * team := le_rndUp (by omega)
  have hlow : divUp n team * team < n + team := rndUp_lt (by omega)
  rw [balance211_fst_eq hteam hn]
  obtain ⟨n2, hn2⟩ : ∃ n2, divUp n team = n2 + 1 := ⟨divUp n team - 1, by omega⟩
  have hmul : (n2 + 1) * team = n2 * team + team := by ring
  have hcomm : team * n2 = n2 * team := Nat.mul_comm _ _
  rw [hn2] at hup hlow ⊢
  rw [hmul] at hup hlow
  rw [Nat.add_sub_cancel, hcomm]
  omega

/-- Consecutive ranges, one after the other, are one range. -/
theorem flatMap_range' {g : ℕ → ℕ} (hg : ∀ i, g i ≤ g (i + 1)) (h0 : g 0 = 0) (k : ℕ) :
    ((List.range k).flatMap fun i => List.range' (g i) (g (i + 1) - g i)) = List.range (g k) := by
  induction k with
  | zero => simp [h0]
  | succ k ih =>
    have hsum : g k + (g (k + 1) - g k) = g (k + 1) := by
      have := hg k
      omega
    have happ : List.range' 0 (g k) ++ List.range' (g k) (g (k + 1) - g k) =
        List.range' 0 (g k + (g (k + 1) - g k)) := by
      have := @List.range'_append 0 (g k) (g (k + 1) - g k) 1
      simpa using this
    rw [List.range_succ, List.flatMap_append, ih, List.range_eq_range', List.range_eq_range']
    simp only [List.flatMap_cons, List.flatMap_nil, List.append_nil]
    rw [happ, hsum]

/-- The ranges of a team, thread by thread, are the whole range. -/
theorem flatMap_balance211 (n : ℕ) {team : ℕ} (hteam : 0 < team) :
    ((List.range team).flatMap fun tid =>
      List.range' (balance211 n team tid).1 ((balance211 n team tid).2 - (balance211 n team tid).1)) =
      List.range n := by
  by_cases hn : n = 0
  · subst hn
    simp [balance211]
  · rcases Nat.lt_or_ge 1 team with h1 | h1
    · simp only [balance211_snd_eq h1 hn]
      rw [flatMap_range' (g := fun tid => (balance211 n team tid).1) ?_ (balance211_zero _ _),
        balance211_last h1 hn]
      intro tid
      show (balance211 n team tid).1 ≤ (balance211 n team (tid + 1)).1
      rw [balance211_fst_eq h1 hn, balance211_fst_eq h1 hn]
      exact Nat.add_le_add (min_le_min_right _ (Nat.le_succ _))
        (Nat.mul_le_mul_right _ (Nat.le_succ _))
    · obtain rfl : team = 1 := by omega
      simp [balance211, List.range_eq_range']

/-! ## Signed `balance211` -/

theorem balance211Int_natCast (n team tid : ℕ) :
    balance211Int n team tid = (((balance211 n team tid).1 : ℤ), ((balance211 n team tid).2 : ℤ)) := by
  unfold balance211Int balance211
  by_cases h : team ≤ 1 ∨ n = 0
  · rw [if_pos (by omega), if_pos h]
    rfl
  · have hteam : 1 < team := by omega
    have hn : n ≠ 0 := fun h0 => h (Or.inr h0)
    rw [if_neg (by omega), if_neg h]
    have hn1 : ((n : ℤ) + team - 1).tdiv team = (divUp n team : ℕ) := by
      rw [divUp, Int.tdiv_eq_ediv_of_nonneg (by omega)]
      push_cast [Nat.cast_sub (by omega : 1 ≤ n + team)]
      rfl
    have hpos : 0 < divUp n team := divUp_pos (by omega) (by omega)
    obtain ⟨n2, hn2⟩ : ∃ n2, divUp n team = n2 + 1 := ⟨divUp n team - 1, by omega⟩
    have hlow : divUp n team * team < n + team := rndUp_lt (by omega)
    obtain ⟨T1, hT1⟩ : ∃ T1, n = T1 + n2 * team := by
      refine ⟨n - n2 * team, ?_⟩
      rw [hn2, Nat.succ_mul] at hlow
      omega
    have hsub : n - n2 * team = T1 := by omega
    simp only [hn1, hn2, Nat.add_sub_cancel, hsub]
    have hcast : (n : ℤ) - ((n2 + 1 : ℕ) - 1) * team = T1 := by
      rw [hT1]
      push_cast
      ring
    rw [hcast]
    by_cases hle : tid ≤ T1
    · by_cases hlt : tid < T1
      · simp [hle, hlt]
      · simp [hle, hlt]
    · have hlt : ¬ tid < T1 := by omega
      simp [hle, hlt, Nat.cast_sub (by omega : T1 ≤ tid)]

/-- A negative number of iterations leaves every thread without work. -/
theorem balance211Int_of_neg {n : ℤ} (hn : n < 0) (team tid : ℕ) :
    (balance211Int n team tid).2 ≤ (balance211Int n team tid).1 := by
  unfold balance211Int
  by_cases h : team ≤ 1 ∨ n = 0
  · rw [if_pos h]
    exact hn.le
  · rw [if_neg h]
    have hn1 : (n + team - 1).tdiv team ≤ 0 := by
      refine le_trans (Int.tdiv_le_tdiv (by omega) (by omega : n + team - 1 ≤ (team : ℤ) - 1)) ?_
      rw [Int.tdiv_eq_ediv_of_nonneg (by omega)]
      exact (Int.ediv_eq_zero_of_lt (by omega) (by omega)).le
    dsimp only
    split_ifs <;> omega

/-! ## The counters -/

/-- The counters of iteration `i`. -/
def ndIndex (dims : List ℕ) (i : ℕ) : List ℕ := (ndIteratorInit i dims).2

@[simp] theorem ndIndex_nil (i : ℕ) : ndIndex [] i = [] := rfl

theorem ndIteratorInit_fst (i : ℕ) (dims : List ℕ) : (ndIteratorInit i dims).1 = i / dims.prod := by
  induction dims with
  | nil => simp [ndIteratorInit]
  | cons X Xs ih =>
    simp only [ndIteratorInit, ih, List.prod_cons]
    rw [Nat.div_div_eq_div_mul, Nat.mul_comm]

@[simp] theorem ndIndex_cons (X : ℕ) (Xs : List ℕ) (i : ℕ) :
    ndIndex (X :: Xs) i = i / Xs.prod % X :: ndIndex Xs i := by
  simp only [ndIndex, ndIteratorInit, ndIteratorInit_fst]

/-- A step advances the counters by one iteration, and reports when they wrap around. -/
theorem ndIteratorStep_ndIndex {dims : List ℕ} (h : ∀ X ∈ dims, 0 < X) (i : ℕ) :
    ndIteratorStep (ndIndex dims i) dims =
      (decide ((i + 1) % dims.prod = 0), ndIndex dims (i + 1)) := by
  induction dims with
  | nil => simp [ndIteratorStep, Nat.mod_one]
  | cons X Xs ih =>
    have hX : 0 < X := h X List.mem_cons_self
    have hXs : ∀ Y ∈ Xs, 0 < Y := fun Y hY => h Y (List.mem_cons_of_mem _ hY)
    have hP : 0 < Xs.prod := List.prod_pos hXs
    rw [ndIndex_cons, ndIndex_cons, ndIteratorStep, ih hXs, List.prod_cons]
    by_cases hwrap : (i + 1) % Xs.prod = 0
    · -- the inner counters wrap around, the outer counter advances
      obtain ⟨q, hq⟩ := Nat.dvd_of_mod_eq_zero hwrap
      have hq0 : 0 < q := by
        rcases Nat.eq_zero_or_pos q with rfl | hq0
        · omega
        · exact hq0
      have hdiv : (i + 1) / Xs.prod = q := by rw [hq, Nat.mul_div_cancel_left _ hP]
      have hdivi : i / Xs.prod = q - 1 := by
        have hi : i = Xs.prod * (q - 1) + (Xs.prod - 1) := by
          obtain ⟨k, rfl⟩ : ∃ k, q = k + 1 := ⟨q - 1, by omega⟩
          rw [Nat.mul_succ] at hq
          rw [Nat.add_sub_cancel]
          omega
        rw [hi, Nat.mul_add_div hP, Nat.div_eq_of_lt (by omega), Nat.add_zero]
      have hmod : ((q - 1) % X + 1) % X = q % X := by
        rw [Nat.mod_add_mod, Nat.sub_add_cancel hq0]
      have hall : (i + 1) % (X * Xs.prod) = 0 ↔ q % X = 0 := by
        rw [hq, Nat.mul_comm X, Nat.mul_mod_mul_left]
        simp [hP.ne']
      simp only [hwrap, decide_true, if_true, hdiv, hdivi, hmod, hall]
    · have hdiv : (i + 1) / Xs.prod = i / Xs.prod := by
        rw [Nat.succ_div, if_neg (mt Nat.mod_eq_zero_of_dvd hwrap), Nat.add_zero]
      have hall : (i + 1) % (X * Xs.prod) ≠ 0 := fun h0 =>
        hwrap (Nat.mod_eq_zero_of_dvd ((Dvd.intro_left X rfl).trans (Nat.dvd_of_mod_eq_zero h0)))
      simp only [hwrap, decide_false, hdiv, hall, Bool.false_eq_true, if_false]

/-- The loop of `for_nd` runs through consecutive iterations. -/
theorem forNdLoop_eq {dims : List ℕ} (h : ∀ X ∈ dims, 0 < X) (k start : ℕ) :
    forNdLoop dims k (ndIndex dims start) = (List.range' start k).map (ndIndex dims) := by
  induction k generalizing start with
  | zero => rfl
  | succ k ih =>
    rw [forNdLoop, ndIteratorStep_ndIndex h, ih, List.range'_succ, List.map_cons]

theorem ndIndex_singleton {D0 i : ℕ} (hi : i < D0) : ndIndex [D0] i = [i] := by
  simp [Nat.mod_eq_of_lt hi]

/-- `for_nd` executes the iterations of the range that `balance211` gives the thread. -/
theorem forNd_eq {ithr nthr : ℕ} {dims : List ℕ}
    (hend : (balance211 dims.prod nthr ithr).2 ≤ dims.prod) :
    forNd ithr nthr dims =
      (List.range' (balance211 dims.prod nthr ithr).1
        ((balance211 dims.prod nthr ithr).2 - (balance211 dims.prod nthr ithr).1)).map
          (ndIndex dims) := by
  unfold forNd
  split
  · rename_i D0
    rw [List.prod_singleton] at hend ⊢
    refine List.map_congr_left fun i hi => ?_
    rw [List.mem_range'_1] at hi
    exact (ndIndex_singleton (by omega)).symm
  · rename_i hdims
    by_cases h0 : dims.prod = 0
    · rw [if_pos h0]
      simp [h0, balance211]
    · rw [if_neg h0]
      have hpos : ∀ X ∈ dims, 0 < X := fun X hX =>
        Nat.pos_of_ne_zero fun hX0 => h0 (List.prod_eq_zero (hX0 ▸ hX))
      exact forNdLoop_eq hpos _ _

/-- The ranges of the threads stay inside the loop. -/
theorem balance211_snd_le {n team tid : ℕ} (htid : tid < team) : (balance211 n team tid).2 ≤ n := by
  by_cases hn : n = 0
  · subst hn
    simp [balance211]
  · rcases Nat.lt_or_ge 1 team with h1 | h1
    · rw [balance211_snd_eq h1 hn]
      have hlast := balance211_last h1 hn
      rw [balance211_fst_eq h1 hn] at hlast ⊢
      have hmin : min (tid + 1) (n - (divUp n team - 1) * team) ≤
          min team (n - (divUp n team - 1) * team) := min_le_min_right _ htid
      have hmul : (tid + 1) * (divUp n team - 1) ≤ team * (divUp n team - 1) :=
        Nat.mul_le_mul_right _ htid
      omega
    · unfold balance211
      rw [if_pos (Or.inl h1)]

/-- Every iteration belongs to a thread. -/
theorem exists_balance211 {n team x : ℕ} (hteam : 0 < team) (hx : x < n) :
    ∃ tid < team, (balance211 n team tid).1 ≤ x ∧ x < (balance211 n team tid).2 := by
  have hmem : x ∈ List.range n := List.mem_range.mpr hx
  rw [← flatMap_balance211 n hteam, List.mem_flatMap] at hmem
  obtain ⟨tid, htid, hmem⟩ := hmem
  rw [List.mem_range'_1] at hmem
  exact ⟨tid, List.mem_range.mp htid, hmem.1, by omega⟩

/-- The range of a thread ends before the ranges of the later threads. -/
theorem balance211_snd_le_fst {n team tid tid' : ℕ} (htid' : tid' < team) (hlt : tid < tid') (hn : n ≠ 0) :
    (balance211 n team tid).2 ≤ (balance211 n team tid').1 := by
  have h1 : 1 < team := by omega
  rw [balance211_snd_eq h1 hn, balance211_fst_eq h1 hn, balance211_fst_eq h1 hn]
  exact Nat.add_le_add (min_le_min_right _ hlt) (Nat.mul_le_mul_right _ hlt)

/-- An iteration belongs to one thread only. -/
theorem balance211_unique {n team tid tid' x : ℕ} (htid : tid < team) (htid' : tid' < team)
    (h : (balance211 n team tid).1 ≤ x ∧ x < (balance211 n team tid).2)
    (h' : (balance211 n team tid').1 ≤ x ∧ x < (balance211 n team tid').2) : tid = tid' := by
  have hn : n ≠ 0 := by
    have := @balance211_snd_le n team tid htid
    omega
  rcases Nat.lt_trichotomy tid tid' with hlt | heq | hgt
  · have := balance211_snd_le_fst htid' hlt hn
    omega
  · exact heq
  · have := balance211_snd_le_fst htid hgt hn
    omega

/-- The iterations of a thread, by their place in the sequential loop. -/
def flatIters (nthr n ithr : ℕ) : List ℕ :=
  let team := if n > 1 then nthr else 1
  if ithr < team then
    List.range' (balance211 n team ithr).1 ((balance211 n team ithr).2 - (balance211 n team ithr).1)
  else []

theorem mem_flatIters {nthr n ithr i : ℕ} : i ∈ flatIters nthr n ithr ↔
    ithr < (if n > 1 then nthr else 1) ∧ (balance211 n (if n > 1 then nthr else 1) ithr).1 ≤ i ∧
      i < (balance211 n (if n > 1 then nthr else 1) ithr).2 := by
  unfold flatIters
  dsimp only
  generalize (if n > 1 then nthr else 1) = team
  split_ifs with h
  · rw [List.mem_range'_1]
    omega
  · simp [h]

theorem nodup_flatIters (nthr n ithr : ℕ) : (flatIters nthr n ithr).Nodup := by
  unfold flatIters
  dsimp only
  split_ifs
  · exact List.nodup_range'
  · exact List.nodup_nil
  · exact List.nodup_range'
  · exact List.nodup_nil

theorem flatIters_disjoint {nthr n p q : ℕ} (hpq : p ≠ q) : ∀ i ∈ flatIters nthr n p, i ∉ flatIters nthr n q := by
  intro i hp hq
  rw [mem_flatIters] at hp hq
  exact hpq (balance211_unique hp.1 hq.1 hp.2 hq.2)

theorem exists_mem_flatIters {nthr n i : ℕ} (hnthr : 0 < nthr) (hi : i < n) : ∃ p, i ∈ flatIters nthr n p := by
  have hteam : 0 < if n > 1 then nthr else 1 := by split_ifs <;> omega
  obtain ⟨p, hp, hrange⟩ := exists_balance211 hteam hi
  exact ⟨p, mem_flatIters.mpr ⟨hp, hrange⟩⟩

theorem lt_of_mem_flatIters {nthr n p i : ℕ} (h : i ∈ flatIters nthr n p) : i < n := by
  rw [mem_flatIters] at h
  exact h.2.2.trans_le (balance211_snd_le h.1)

/-- The iterations of a thread in a `parallel_nd`. -/
theorem parallelNdIters_eq (nthr : ℕ) (dims : List ℕ) (ithr : ℕ) :
    parallelNdIters nthr dims ithr = (flatIters nthr dims.prod ithr).map (ndIndex dims) := by
  unfold parallelNdIters flatIters
  dsimp only
  generalize (if dims.prod > 1 then nthr else 1) = team
  split_ifs with h
  · exact forNd_eq (balance211_snd_le h)
  · rfl

/-- For every team the iterations of `parallel_nd` are those of the sequential loop, each once. -/
theorem parallelNd_eq {nthr : ℕ} (hnthr : 0 < nthr) (dims : List ℕ) :
    parallelNd nthr dims = (List.range dims.prod).map (ndIndex dims) := by
  unfold parallelNd
  set team := if dims.prod > 1 then nthr else 1 with hteam
  have hpos : 0 < team := by
    rw [hteam]
    split_ifs <;> omega
  have hthread : ∀ ithr ∈ List.range team, forNd ithr team dims =
      (List.range' (balance211 dims.prod team ithr).1
        ((balance211 dims.prod team ithr).2 - (balance211 dims.prod team ithr).1)).map
          (ndIndex dims) :=
    fun ithr hithr => forNd_eq (balance211_snd_le (List.mem_range.mp hithr))
  show (List.range team).flatMap (fun ithr => forNd ithr team dims) = _
  rw [List.flatMap_congr hthread, ← List.map_flatMap, flatMap_balance211 _ hpos]

theorem parallelNdIters_of_le {nthr ithr : ℕ} (hnthr : 0 < nthr) (dims : List ℕ) (h : nthr ≤ ithr) :
    parallelNdIters nthr dims ithr = [] := by
  unfold parallelNdIters
  refine if_neg ?_
  split_ifs <;> omega

/-- The iterations of the threads one after the other. -/
theorem flatMap_parallelNdIters {nthr : ℕ} (hnthr : 0 < nthr) (dims : List ℕ) :
    (List.range nthr).flatMap (parallelNdIters nthr dims) = parallelNd nthr dims := by
  unfold parallelNd
  dsimp only
  have hiters : ∀ ithr, parallelNdIters nthr dims ithr =
      if ithr < (if dims.prod > 1 then nthr else 1) then forNd ithr (if dims.prod > 1 then nthr else 1) dims else [] :=
    fun ithr => rfl
  obtain ⟨rest, hrest⟩ : ∃ rest, nthr = (if dims.prod > 1 then nthr else 1) + rest :=
    Nat.exists_eq_add_of_le (by split_ifs <;> omega)
  generalize (if dims.prod > 1 then nthr else 1) = team at hiters hrest
  rw [hrest, List.range_add, List.flatMap_append, List.flatMap_map]
  have hidle : (List.range rest).flatMap (fun ithr => parallelNdIters nthr dims (team + ithr)) = [] := by
    refine List.flatMap_eq_nil_iff.mpr fun ithr _ => ?_
    rw [hiters, if_neg (by omega)]
  rw [← hrest, hidle, List.append_nil]
  refine List.flatMap_congr fun ithr hithr => ?_
  rw [hiters, if_pos (List.mem_range.mp hithr)]

theorem parallelNd_singleton {nthr : ℕ} (hnthr : 0 < nthr) (n : ℕ) :
    parallelNd nthr [n] = (List.range n).map fun i => [i] := by
  rw [parallelNd_eq hnthr, List.prod_singleton]
  exact List.map_congr_left fun i hi => ndIndex_singleton (List.mem_range.mp hi)

/-- The counters of an iteration: the outer counter and the counters of the inner loops. -/
theorem ndIndex_mul_add {X : ℕ} {Xs : List ℕ} {q r : ℕ} (hq : q < X) (hr : r < Xs.prod) :
    ndIndex (X :: Xs) (q * Xs.prod + r) = q :: ndIndex Xs r := by
  have hadd : ∀ (dims : List ℕ) (k : ℕ), ndIndex dims (k * dims.prod + r) = ndIndex dims r := by
    intro dims
    induction dims with
    | nil => intro k; rfl
    | cons Y Ys ih =>
      intro k
      have hk : k * (Y * Ys.prod) + r = (k * Y) * Ys.prod + r := by ring
      rw [List.prod_cons, hk, ndIndex_cons, ndIndex_cons, ih]
      rcases Nat.eq_zero_or_pos Ys.prod with h0 | h0
      · simp [h0]
      · rw [Nat.add_comm, Nat.add_mul_div_right _ _ h0, Nat.add_mul_mod_self_right]
  have hdiv : (q * Xs.prod + r) / Xs.prod = q := by
    rw [Nat.mul_comm, Nat.mul_add_div (by omega), Nat.div_eq_of_lt hr, Nat.add_zero]
  rw [ndIndex_cons, hadd, hdiv, Nat.mod_eq_of_lt hq]

/-- The iterations of the sequential loop are the lists of counters below the extents. -/
theorem mem_map_ndIndex {dims p : List ℕ} :
    p ∈ (List.range dims.prod).map (ndIndex dims) ↔ List.Forall₂ (· < ·) p dims := by
  induction dims generalizing p with
  | nil => simp
  | cons X Xs ih =>
    simp only [List.mem_map, List.mem_range] at ih ⊢
    constructor
    · rintro ⟨i, hi, rfl⟩
      rw [List.prod_cons] at hi
      have hP : 0 < Xs.prod := Nat.pos_of_ne_zero fun h0 => by simp [h0] at hi
      have hq : i / Xs.prod < X := Nat.div_lt_of_lt_mul (by rwa [Nat.mul_comm])
      have hr : i % Xs.prod < Xs.prod := Nat.mod_lt _ hP
      have hi' : i = i / Xs.prod * Xs.prod + i % Xs.prod := by
        rw [Nat.mul_comm]
        exact (Nat.div_add_mod _ _).symm
      rw [hi', ndIndex_mul_add hq hr]
      exact List.Forall₂.cons hq (ih.mp ⟨_, hr, rfl⟩)
    · intro hp
      cases hp with
      | cons hx hxs =>
        obtain ⟨r, hr, rfl⟩ := ih.mpr hxs
        refine ⟨_ * Xs.prod + r, ?_, ndIndex_mul_add hx hr⟩
        calc _ * Xs.prod + r < _ * Xs.prod + Xs.prod := by omega
          _ = (_ + 1) * Xs.prod := (Nat.succ_mul _ _).symm
          _ ≤ X * Xs.prod := Nat.mul_le_mul_right _ hx

theorem mem_parallelNd {nthr : ℕ} (hnthr : 0 < nthr) {dims p : List ℕ} :
    p ∈ parallelNd nthr dims ↔ List.Forall₂ (· < ·) p dims := by
  rw [parallelNd_eq hnthr, mem_map_ndIndex]

theorem forall₂_of_mem_parallelNdIters {nthr ithr : ℕ} {dims p : List ℕ} (h : p ∈ parallelNdIters nthr dims ithr) :
    List.Forall₂ (· < ·) p dims := by
  rw [parallelNdIters_eq] at h
  obtain ⟨i, hi, rfl⟩ := List.mem_map.mp h
  exact mem_map_ndIndex.mp (List.mem_map_of_mem (List.mem_range.mpr (lt_of_mem_flatIters hi)))

/-! ## `balance2D` -/

section Balance2D

variable {nthr grpCount : ℕ}

/-- The number of threads in group `grp`. -/
def grpSize (nthr grpCount grp : ℕ) : ℕ := nthr / grpCount + if grp < nthr % grpCount then 1 else 0

/-- The first thread of group `grp`. -/
def grpStart (nthr grpCount grp : ℕ) : ℕ := grp * (nthr / grpCount) + min grp (nthr % grpCount)

theorem grpSize_pos (hcount : 0 < grpCount) (hle : grpCount ≤ nthr) (grp : ℕ) : 0 < grpSize nthr grpCount grp :=
  (Nat.div_pos hle hcount).trans_le (Nat.le_add_right _ _)

theorem grpStart_succ (grp : ℕ) :
    grpStart nthr grpCount (grp + 1) = grpStart nthr grpCount grp + grpSize nthr grpCount grp := by
  unfold grpStart grpSize
  rw [Nat.succ_mul]
  split_ifs with h
  · omega
  · omega

theorem grpStart_le {grp : ℕ} (hgrp : grp ≤ grpCount) : grpStart nthr grpCount grp ≤ nthr := by
  have hmul : grp * (nthr / grpCount) ≤ grpCount * (nthr / grpCount) := Nat.mul_le_mul_right _ hgrp
  have hdiv := Nat.div_add_mod nthr grpCount
  have hmin : min grp (nthr % grpCount) ≤ nthr % grpCount := min_le_right _ _
  unfold grpStart
  omega

/-- The place of a thread by the groups in front of it. -/
theorem place2D_eq (hcount : 0 < grpCount) (hle : grpCount ≤ nthr) {grp i : ℕ} (hi : i < grpSize nthr grpCount grp) :
    place2D nthr (grpStart nthr grpCount grp + i) grpCount = ⟨grp, i, grpSize nthr grpCount grp⟩ := by
  have hsmall : 0 < nthr / grpCount := Nat.div_pos hle hcount
  unfold grpSize at hi ⊢
  unfold place2D grpStart
  dsimp only
  rcases Nat.lt_or_ge grp (nthr % grpCount) with hbig | hlast
  · rw [if_pos hbig] at hi ⊢
    have hstart : grp * (nthr / grpCount) + min grp (nthr % grpCount) + i =
        (nthr / grpCount + 1) * grp + i := by
      rw [min_eq_left hbig.le, Nat.succ_mul, Nat.mul_comm grp]
    have hlt : (nthr / grpCount + 1) * grp + i < nthr % grpCount * (nthr / grpCount + 1) := by
      have hrow : (grp + 1) * (nthr / grpCount + 1) ≤ nthr % grpCount * (nthr / grpCount + 1) :=
        Nat.mul_le_mul_right _ hbig
      rw [Nat.succ_mul, Nat.mul_comm grp] at hrow
      omega
    rw [hstart, if_pos hlt, Nat.mul_add_div (Nat.succ_pos _), Nat.div_eq_of_lt hi, Nat.mul_add_mod,
      Nat.mod_eq_of_lt hi, Nat.add_zero]
  · rw [if_neg (Nat.not_lt.mpr hlast), Nat.add_zero] at hi ⊢
    obtain ⟨k, rfl⟩ : ∃ k, grp = nthr % grpCount + k := ⟨grp - nthr % grpCount, by omega⟩
    have hstart : (nthr % grpCount + k) * (nthr / grpCount) + min (nthr % grpCount + k) (nthr % grpCount) + i =
        nthr % grpCount * (nthr / grpCount + 1) + (nthr / grpCount * k + i) := by
      rw [min_eq_right (Nat.le_add_right _ _)]
      ring
    rw [hstart, if_neg (by omega), Nat.add_sub_cancel_left, Nat.mul_add_div hsmall, Nat.div_eq_of_lt hi,
      Nat.mul_add_mod, Nat.mod_eq_of_lt hi, Nat.add_zero, Nat.add_zero]

/-- Every thread has a place. -/
theorem exists_place2D {ithr : ℕ} (hithr : ithr < nthr) (hcount : 0 < grpCount) :
    ∃ grp < grpCount, ∃ i < grpSize nthr grpCount grp, ithr = grpStart nthr grpCount grp + i := by
  have hend : grpStart nthr grpCount grpCount = nthr := by
    have hdiv := Nat.div_add_mod nthr grpCount
    have hmod := Nat.mod_lt nthr hcount
    unfold grpStart
    omega
  have hup : ∀ n, ithr < grpStart nthr grpCount n →
      ∃ grp < n, ∃ i < grpSize nthr grpCount grp, ithr = grpStart nthr grpCount grp + i := by
    intro n
    induction n with
    | zero =>
      intro hlt
      unfold grpStart at hlt
      omega
    | succ n ih =>
      intro hlt
      rcases Nat.lt_or_ge ithr (grpStart nthr grpCount n) with hbelow | habove
      · obtain ⟨grp, hgrp, hi⟩ := ih hbelow
        exact ⟨grp, by omega, hi⟩
      · rw [grpStart_succ] at hlt
        exact ⟨n, by omega, ithr - grpStart nthr grpCount n, by omega, by omega⟩
  exact hup grpCount (by omega)

/-- The ranges of the threads stay inside the loops. -/
theorem balance2D_le {ny nx nxDivider ithr : ℕ} (hdivider : 0 < nxDivider) (hithr : ithr < nthr) :
    (balance2D nthr ithr ny nx nxDivider).1.2 ≤ ny ∧ (balance2D nthr ithr ny nx nxDivider).2.2 ≤ nx := by
  have hcount : 0 < min nxDivider nthr := Nat.lt_min.mpr ⟨hdivider, by omega⟩
  have hle : min nxDivider nthr ≤ nthr := Nat.min_le_right _ _
  unfold balance2D
  dsimp only
  obtain ⟨grp, hgrp, i, hi, rfl⟩ := exists_place2D hithr hcount
  rw [place2D_eq hcount hle hi]
  exact ⟨balance211_snd_le hi, balance211_snd_le hgrp⟩

/-- Every pair belongs to one thread. -/
theorem existsUnique_balance2D {ny nx nxDivider y x : ℕ} (hnthr : 0 < nthr) (hdivider : 0 < nxDivider) (hy : y < ny)
    (hx : x < nx) : ∃! ithr, ithr < nthr ∧
      ((balance2D nthr ithr ny nx nxDivider).1.1 ≤ y ∧ y < (balance2D nthr ithr ny nx nxDivider).1.2) ∧
      (balance2D nthr ithr ny nx nxDivider).2.1 ≤ x ∧ x < (balance2D nthr ithr ny nx nxDivider).2.2 := by
  have hcount : 0 < min nxDivider nthr := Nat.lt_min.mpr ⟨hdivider, hnthr⟩
  have hle : min nxDivider nthr ≤ nthr := Nat.min_le_right _ _
  unfold balance2D
  dsimp only
  generalize min nxDivider nthr = grpCount at hcount hle
  obtain ⟨grp, hgrp, hgx⟩ := exists_balance211 hcount hx
  obtain ⟨i, hi, hiy⟩ := exists_balance211 (grpSize_pos hcount hle grp) hy
  refine ⟨grpStart nthr grpCount grp + i, ⟨?_, ?_⟩, ?_⟩
  · have hnext := @grpStart_le nthr grpCount (grp + 1) hgrp
    rw [grpStart_succ] at hnext
    omega
  · rw [place2D_eq hcount hle hi]
    exact ⟨hiy, hgx⟩
  · rintro ithr ⟨hithr, hy', hx'⟩
    obtain ⟨grp', hgrp', i', hi', rfl⟩ := exists_place2D hithr hcount
    rw [place2D_eq hcount hle hi'] at hy' hx'
    obtain rfl := balance211_unique hgrp' hgrp hx' hgx
    rw [balance211_unique hi' hi hy' hiy]

/-- The rectangle `[ny_start, ny_end) x [nx_start, nx_end)` of thread `ithr`. -/
def balance2DRect (nthr ny nx nxDivider ithr : ℕ) : Set (ℕ × ℕ) :=
  let r := balance2D nthr ithr ny nx nxDivider
  Set.Ico r.1.1 r.1.2 ×ˢ Set.Ico r.2.1 r.2.2

/-- The rectangles of the threads tile the plane of `ny` by `nx` elements. -/
theorem balance2D_tiles (ny nx : ℕ) {nxDivider : ℕ} (hnthr : 1 ≤ nthr) (hdivider : 1 ≤ nxDivider) :
    (∀ i < nthr, ∀ j < nthr, i ≠ j →
      Disjoint (balance2DRect nthr ny nx nxDivider i) (balance2DRect nthr ny nx nxDivider j)) ∧
    (⋃ i ∈ Set.Iio nthr, balance2DRect nthr ny nx nxDivider i) = Set.Ico 0 ny ×ˢ Set.Ico 0 nx := by
  have hinside : ∀ i < nthr, ∀ p ∈ balance2DRect nthr ny nx nxDivider i, p.1 < ny ∧ p.2 < nx := by
    intro i hi p hp
    have hle : (balance2D nthr i ny nx nxDivider).1.2 ≤ ny ∧ (balance2D nthr i ny nx nxDivider).2.2 ≤ nx :=
      balance2D_le hdivider hi
    obtain ⟨hy, hx⟩ := hle
    exact ⟨hp.1.2.trans_le hy, hp.2.2.trans_le hx⟩
  constructor
  · intro i hi j hj hne
    rw [Set.disjoint_left]
    intro p hpi hpj
    obtain ⟨hy, hx⟩ := hinside i hi p hpi
    exact hne ((existsUnique_balance2D hnthr hdivider hy hx).unique ⟨hi, hpi⟩ ⟨hj, hpj⟩)
  · ext p
    simp only [Set.mem_iUnion, Set.mem_prod, Set.mem_Ico, Set.mem_Iio, Nat.zero_le, true_and, exists_prop]
    constructor
    · rintro ⟨i, hi, hp⟩
      exact hinside i hi p hp
    · rintro ⟨hy, hx⟩
      obtain ⟨i, ⟨hi, hp⟩, -⟩ := existsUnique_balance2D hnthr hdivider hy hx
      exact ⟨i, hi, hp⟩

/-- Five threads for a divider of three form two groups of two threads and one of a single thread. -/
theorem balance2D_tiles_5 :
    (∀ i < 5, ∀ j < 5, i ≠ j → Disjoint (balance2DRect 5 4 7 3 i) (balance2DRect 5 4 7 3 j)) ∧
    (⋃ i ∈ Set.Iio 5, balance2DRect 5 4 7 3 i) = Set.Ico 0 4 ×ˢ Set.Ico 0 7 :=
  balance2D_tiles 4 7 (by decide) (by decide)

end Balance2D

end MklDnn
