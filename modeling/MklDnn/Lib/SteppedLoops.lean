import Mathlib.Data.List.Basic
import Mathlib.Data.List.Nodup
import Mathlib.Order.Basic

/-!
# Loops with variable steps

A loop `for (; curr < stop; curr += step)` whose body chooses the step. If the steps depend on the counter
only, the loop runs through a list of blocks that follow one another.
-/

namespace LoopNest

variable {σ : Type*}

/-- A loop that may need more than `fuel` iterations. The state tells the step after an iteration. -/
def forSteps (stop : ℕ) (body : ℕ → σ → Option σ) (step : σ → ℕ) : ℕ → ℕ → σ → Option σ
  | 0, curr, s => if curr < stop then none else some s
  | fuel + 1, curr, s =>
    if curr < stop then (body curr s).bind fun s => forSteps stop body step fuel (curr + step s) s else some s

/-- The starts of the blocks. -/
def starts (len : ℕ → ℕ) (stop : ℕ) : ℕ → ℕ → List ℕ
  | 0, _ => []
  | fuel + 1, curr => if curr < stop then curr :: starts len stop fuel (curr + len curr) else []

/-- A loop whose body keeps an invariant under which the step depends on the counter only. -/
theorem forSteps_eq (f : ℕ → σ → σ) (Inv : σ → Prop) {stop : ℕ} {body : ℕ → σ → Option σ} {step : σ → ℕ} {len : ℕ → ℕ}
    (hlen : ∀ curr < stop, 0 < len curr)
    (hbody : ∀ curr s, curr < stop → Inv s → body curr s = some (f curr s) ∧ Inv (f curr s) ∧ step (f curr s) = len curr)
    {fuel curr : ℕ} (hfuel : stop ≤ curr + fuel) {s : σ} (hs : Inv s) :
    forSteps stop body step fuel curr s = some ((starts len stop fuel curr).foldl (fun s c => f c s) s) ∧
      Inv ((starts len stop fuel curr).foldl (fun s c => f c s) s) := by
  induction fuel generalizing curr s with
  | zero =>
    unfold forSteps starts
    rw [if_neg (by omega)]
    exact ⟨rfl, hs⟩
  | succ fuel ih =>
    unfold forSteps starts
    by_cases hcurr : curr < stop
    · obtain ⟨hsome, hinv, hstep⟩ := hbody curr s hcurr hs
      have hpos := hlen curr hcurr
      rw [if_pos hcurr, if_pos hcurr, hsome, Option.bind_some, hstep, List.foldl_cons]
      exact ih (by omega) hinv
    · rw [if_neg hcurr, if_neg hcurr]
      exact ⟨rfl, hs⟩

theorem forSteps_of_le {stop : ℕ} {body : ℕ → σ → Option σ} {step : σ → ℕ} {fuel curr : ℕ} {s : σ} (h : stop ≤ curr) :
    forSteps stop body step fuel curr s = some s := by
  cases fuel with
  | zero => rw [forSteps, if_neg (by omega)]
  | succ fuel => rw [forSteps, if_neg (by omega)]

/-- A loop whose body does nothing. -/
theorem forSteps_id {stop : ℕ} {body : ℕ → σ → Option σ} {step : σ → ℕ} {s : σ} (hstep : 0 < step s)
    (hbody : ∀ curr < stop, body curr s = some s) {fuel curr : ℕ} (hfuel : stop ≤ curr + fuel) :
    forSteps stop body step fuel curr s = some s := by
  have hkeep : ∀ curr s', curr < stop → s' = s → body curr s' = some s' ∧ s' = s ∧ step s' = step s := by
    rintro curr s' hcurr rfl
    exact ⟨hbody curr hcurr, rfl, rfl⟩
  obtain ⟨hloop, hsame⟩ := forSteps_eq (fun _ s => s) _ (fun _ _ => hstep) hkeep hfuel rfl
  rw [hloop, hsame]

variable {len : ℕ → ℕ} {stop fuel curr : ℕ}

theorem starts_of_le (h : stop ≤ curr) : starts len stop fuel curr = [] := by
  cases fuel with
  | zero => rfl
  | succ fuel =>
    unfold starts
    rw [if_neg (by omega)]

theorem mem_starts {c : ℕ} (hc : c ∈ starts len stop fuel curr) : curr ≤ c ∧ c < stop := by
  induction fuel generalizing curr with
  | zero => cases hc
  | succ fuel ih =>
    unfold starts at hc
    split_ifs at hc with hcurr
    · rcases List.mem_cons.mp hc with rfl | hc
      · exact ⟨Nat.le_refl _, hcurr⟩
      · have := ih hc
        omega
    · cases hc

/-- A property that goes from a block to the next one. -/
theorem starts_invariant {P : ℕ → Prop} (hcurr : P curr) (hnext : ∀ c < stop, P c → P (c + len c)) {c : ℕ}
    (hc : c ∈ starts len stop fuel curr) : P c := by
  induction fuel generalizing curr with
  | zero => cases hc
  | succ fuel ih =>
    unfold starts at hc
    split_ifs at hc with hlt
    · rcases List.mem_cons.mp hc with rfl | hc
      · exact hcurr
      · exact ih (hnext curr hlt hcurr) hc
    · cases hc

/-- The first block starts at the start. -/
theorem starts_eq_cons (len : ℕ → ℕ) (hcurr : curr < stop) (hfuel : stop ≤ curr + fuel) :
    ∃ rest, starts len stop fuel curr = curr :: rest ∧ ∀ c ∈ rest, curr + len curr ≤ c := by
  obtain ⟨k, rfl⟩ : ∃ k, fuel = k + 1 := ⟨fuel - 1, by omega⟩
  refine ⟨starts len stop k (curr + len curr), ?_, fun c hc => (mem_starts hc).1⟩
  conv_lhs => unfold starts
  rw [if_pos hcurr]

theorem nodup_starts (hlen : ∀ curr < stop, 0 < len curr) : (starts len stop fuel curr).Nodup := by
  induction fuel generalizing curr with
  | zero => exact List.nodup_nil
  | succ fuel ih =>
    unfold starts
    split_ifs with hcurr
    · refine List.nodup_cons.mpr ⟨fun hmem => ?_, ih⟩
      have hle := (mem_starts hmem).1
      have hpos := hlen curr hcurr
      omega
    · exact List.nodup_nil

/-- Every number in the range is in a block. -/
theorem exists_start (hlen : ∀ curr < stop, 0 < len curr) (hfuel : stop ≤ curr + fuel) {x : ℕ} (hx : curr ≤ x)
    (hx' : x < stop) : ∃ c ∈ starts len stop fuel curr, c ≤ x ∧ x < c + len c := by
  induction fuel generalizing curr with
  | zero => omega
  | succ fuel ih =>
    have hcurr : curr < stop := by omega
    have hpos := hlen curr hcurr
    unfold starts
    rw [if_pos hcurr]
    rcases Nat.lt_or_ge x (curr + len curr) with hlt | hge
    · exact ⟨curr, List.mem_cons_self, hx, hlt⟩
    · obtain ⟨c, hc, hmem⟩ := ih (by omega) hge
      exact ⟨c, List.mem_cons_of_mem _ hc, hmem⟩

/-- No number is in two blocks. -/
theorem start_unique {c c' x : ℕ} (hc : c ∈ starts len stop fuel curr)
    (hc' : c' ∈ starts len stop fuel curr) (hx : c ≤ x ∧ x < c + len c) (hx' : c' ≤ x ∧ x < c' + len c') : c = c' := by
  induction fuel generalizing curr with
  | zero => cases hc
  | succ fuel ih =>
    unfold starts at hc hc'
    split_ifs at hc hc' with hcurr
    · rcases List.mem_cons.mp hc with rfl | hc
      · rcases List.mem_cons.mp hc' with rfl | hc'
        · rfl
        · have := (mem_starts hc').1
          omega
      · rcases List.mem_cons.mp hc' with rfl | hc'
        · have := (mem_starts hc).1
          omega
        · exact ih hc hc'
    · cases hc

/-- A loop in which one iteration does something. -/
theorem flatMap_eq_of_unique {α β : Type*} {l : List α} {f : α → List β} {x : α} (hnd : l.Nodup)
    (hmem : x ∈ l) (h : ∀ y ∈ l, y ≠ x → f y = []) : l.flatMap f = f x := by
  induction l with
  | nil => cases hmem
  | cons y l ih =>
    rw [List.flatMap_cons]
    rw [List.nodup_cons] at hnd
    by_cases hy : y = x
    · subst hy
      have hrest : l.flatMap f = [] := by
        rw [List.flatMap_eq_nil_iff]
        intro z hz
        refine h z (List.mem_cons_of_mem y hz) ?_
        rintro rfl
        exact hnd.1 hz
      rw [hrest, List.append_nil]
    · have hx : x ∈ l := (List.mem_cons.mp hmem).resolve_left (Ne.symm hy)
      rw [h y List.mem_cons_self hy, List.nil_append]
      exact ih hnd.2 hx fun z hz => h z (List.mem_cons_of_mem y hz)

/-- Bands that begin at `off 0`, `off 1` and so on: every number in front of the last end is in one. -/
theorem exists_band {off : ℕ → ℕ} {n x : ℕ} (hfirst : off 0 ≤ x) (hlast : x < off n) :
    ∃ t < n, off t ≤ x ∧ x < off (t + 1) := by
  induction n with
  | zero => omega
  | succ n ih =>
    by_cases hprev : x < off n
    · obtain ⟨t, ht, hband⟩ := ih hprev
      exact ⟨t, by omega, hband⟩
    · exact ⟨n, by omega, Nat.le_of_not_lt hprev, hlast⟩

/-- No number is in two bands. -/
theorem band_unique {off : ℕ → ℕ} (hmono : ∀ t t', t ≤ t' → off t ≤ off t') {t t' x : ℕ}
    (h : off t ≤ x ∧ x < off (t + 1)) (h' : off t' ≤ x ∧ x < off (t' + 1)) : t = t' := by
  rcases Nat.lt_trichotomy t t' with hlt | heq | hlt
  · have hle := hmono (t + 1) t' hlt
    omega
  · exact heq
  · have hle := hmono (t' + 1) t hlt
    omega

/-- The start of a band if the bands have `width` numbers, and the first `extra` ones have one more. -/
def bandStart (width extra t : ℕ) : ℕ := width * t + min t extra

theorem bandStart_mono (width extra : ℕ) (t t' : ℕ) (h : t ≤ t') : bandStart width extra t ≤ bandStart width extra t' :=
  Nat.add_le_add (Nat.mul_le_mul_left width h) (by omega)

theorem bandStart_succ (width extra t : ℕ) :
    bandStart width extra (t + 1) = bandStart width extra t + (width + if t < extra then 1 else 0) := by
  unfold bandStart
  rw [Nat.mul_succ]
  split_ifs <;> omega

theorem bandStart_zero (width extra : ℕ) : bandStart width extra 0 = 0 := by
  unfold bandStart
  rw [Nat.mul_zero, Nat.zero_min]

/-- The blocks put together are the range. -/
theorem flatMap_starts (hlen : ∀ curr < stop, 0 < len curr) (hfuel : stop ≤ curr + fuel) :
    (starts len stop fuel curr).flatMap (fun c => List.range' c (min stop (c + len c) - c)) =
      List.range' curr (stop - curr) := by
  induction fuel generalizing curr with
  | zero =>
    have hzero : stop - curr = 0 := by omega
    rw [hzero]
    rfl
  | succ fuel ih =>
    unfold starts
    by_cases hcurr : curr < stop
    · have hpos := hlen curr hcurr
      rw [if_pos hcurr, List.flatMap_cons, ih (by omega)]
      rcases Nat.le_total stop (curr + len curr) with hle | hle
      · have hrest : stop - (curr + len curr) = 0 := by omega
        rw [Nat.min_eq_left hle, hrest, List.range'_zero, List.append_nil]
      · rw [Nat.min_eq_right hle, Nat.add_sub_cancel_left, List.range'_append_1]
        congr 1
        omega
    · have hzero : stop - curr = 0 := by omega
      rw [if_neg hcurr, hzero]
      rfl

section Filter

variable {β : Type*} {P : β → Bool} {x : ℕ}

/-- What the blocks do to one number: only the block that it is in matters. -/
theorem filter_flatMap_starts {g : ℕ → List β} {l : List β} (hlen : ∀ curr < stop, 0 < len curr)
    (hfuel : stop ≤ curr + fuel)
    (hblock : ∀ c ∈ starts len stop fuel curr,
      (g c).filter P = if c ≤ x ∧ x < min stop (c + len c) then l else []) :
    ((starts len stop fuel curr).flatMap g).filter P = if curr ≤ x ∧ x < stop then l else [] := by
  rw [List.filter_flatMap]
  by_cases hx : curr ≤ x ∧ x < stop
  · obtain ⟨c, hc, hcx⟩ := exists_start hlen hfuel hx.1 hx.2
    rw [if_pos hx, flatMap_eq_of_unique (nodup_starts hlen) hc, hblock c hc, if_pos (by omega)]
    intro c' hc' hne
    rw [hblock c' hc', if_neg fun hmem => hne (start_unique hc' hc (by omega) hcx)]
  · rw [if_neg hx, List.flatMap_eq_nil_iff]
    intro c hc
    have := mem_starts hc
    rw [hblock c hc, if_neg (by omega)]

/-- What the iterations of two nested loops do to one number of the inner loop. -/
theorem filter_flatMap_range' {α : Type*} {ks : List α} {f : ℕ → α → β} {c n : ℕ}
    (hP : ∀ y, c ≤ y → y < c + n → ∀ k ∈ ks, P (f y k) = decide (y = x)) :
    (ks.flatMap fun k => (List.range' c n).map fun y => f y k).filter P =
      if c ≤ x ∧ x < c + n then ks.map (f x) else [] := by
  have hrow : ∀ k ∈ ks, ((List.range' c n).map fun y => f y k).filter P =
      if c ≤ x ∧ x < c + n then [f x k] else [] := by
    intro k hk
    have hfilter : (List.range' c n).filter (P ∘ fun y => f y k) = (List.range' c n).filter fun y => decide (y = x) := by
      refine List.filter_congr fun y hy => ?_
      rw [List.mem_range'_1] at hy
      exact hP y hy.1 hy.2 k hk
    rw [List.filter_map, hfilter]
    by_cases hx : c ≤ x ∧ x < c + n
    · have hmem : x ∈ List.range' c n := List.mem_range'_1.mpr hx
      rw [if_pos hx, List.filter_eq, List.count_eq_one_of_mem List.nodup_range' hmem]
      rfl
    · have hnone : (List.range' c n).filter (fun y => decide (y = x)) = [] := by
        rw [List.filter_eq_nil_iff]
        rintro y hy hyx
        rw [List.mem_range'_1] at hy
        have hyx : y = x := of_decide_eq_true hyx
        omega
      rw [if_neg hx, hnone]
      rfl
  rw [List.filter_flatMap]
  by_cases hx : c ≤ x ∧ x < c + n
  · rw [if_pos hx, ← List.flatMap_singleton' (ks.map (f x)), List.flatMap_map]
    exact List.flatMap_congr fun k hk => by rw [hrow k hk, if_pos hx]
  · rw [if_neg hx, List.flatMap_eq_nil_iff]
    intro k hk
    rw [hrow k hk, if_neg hx]

end Filter

end LoopNest

/-!
## While loops

A loop with a condition and a body that may fail. The loop is run with a bound on the number of its iterations; a
measure that every iteration lowers says which bound is enough.
-/

namespace WhileLoops

variable {σ : Type*}

/-- A loop that may need more than `fuel` tests of its condition. -/
def loop (cond : σ → Bool) (body : σ → Option σ) : ℕ → σ → Option σ
  | 0, _ => none
  | fuel + 1, s => if cond s then (body s).bind (loop cond body fuel) else some s

variable {cond : σ → Bool} {body : σ → Option σ}

/-- A loop whose body keeps an invariant and lowers a measure ends, with the invariant and without the condition. -/
theorem loop_spec (Inv : σ → Prop) (measure : σ → ℕ)
    (hbody : ∀ s, Inv s → cond s = true → ∃ s', body s = some s' ∧ Inv s' ∧ measure s' < measure s)
    {fuel : ℕ} {s : σ} (hs : Inv s) (hfuel : measure s < fuel) :
    ∃ s', loop cond body fuel s = some s' ∧ Inv s' ∧ cond s' = false := by
  induction fuel generalizing s with
  | zero => exact absurd hfuel (Nat.not_lt_zero _)
  | succ fuel ih =>
    unfold loop
    by_cases hcond : cond s = true
    · obtain ⟨s', hs', hinv, hless⟩ := hbody s hs hcond
      obtain ⟨r, hr, hend⟩ := ih hinv (by omega)
      exact ⟨r, by rw [if_pos hcond, hs', Option.bind_some, hr], hend⟩
    · exact ⟨s, if_neg hcond, hs, eq_false_of_ne_true hcond⟩

/-- What the invariant gives when the loop has ended. -/
theorem loop_ends (Inv : σ → Prop) (measure : σ → ℕ) {P : σ → Prop} {fuel : ℕ} {s : σ}
    (hbody : ∀ s, Inv s → cond s = true → ∃ s', body s = some s' ∧ Inv s' ∧ measure s' < measure s)
    (hs : Inv s) (hfuel : measure s < fuel) (hend : ∀ s, Inv s → cond s = false → P s) :
    ∃ s', loop cond body fuel s = some s' ∧ P s' := by
  obtain ⟨s', hs', hinv, hcond⟩ := loop_spec Inv measure hbody hs hfuel
  exact ⟨s', hs', hend s' hinv hcond⟩

end WhileLoops
