import Mathlib.Algebra.Group.UniqueProds.Basic
import Mathlib.Algebra.MonoidAlgebra.NoZeroDivisors
import Mathlib.Algebra.Order.Group.Int
import MklDnn.Lib.Offsets

/-!
# Nests of loops that visit an interval

Offsets can be cancelled: a nest of loops is a product of polynomials, one for each loop. Loops that
visit an interval from zero on, each offset once, are therefore nested: the stride of each loop is the
number of iterations of the loops with smaller strides.
-/

open AddMonoidAlgebra

namespace LoopNest

namespace Offsets

variable {M : Type*} [AddCommMonoid M]

/-! ## Cancellation -/

/-- The offsets of a nest as a polynomial. -/
noncomputable def polynomial (A : Offsets M) : AddMonoidAlgebra ℕ M :=
  (A.visits.map fun a => single a 1).sum

theorem polynomial_mul (A B : Offsets M) : (A * B).polynomial = A.polynomial * B.polynomial := by
  simp only [polynomial, visits_mul, Multiset.map_bind, Multiset.sum_bind, Multiset.map_map]
  rw [← Multiset.sum_map_mul_right]
  refine congrArg _ (Multiset.map_congr rfl fun a _ => ?_)
  rw [← Multiset.sum_map_mul_left]
  refine congrArg _ (Multiset.map_congr rfl fun b _ => ?_)
  simp [single_mul_single]

omit [AddCommMonoid M] in
theorem coeff_polynomial [DecidableEq M] (A : Offsets M) (x : M) :
    A.polynomial.coeff x = A.visits.count x := by
  obtain ⟨s⟩ := A
  show (s.map fun a => single a 1).sum.coeff x = s.count x
  induction s using Multiset.induction with
  | empty => simp
  | cons a s ih =>
    rw [Multiset.map_cons, Multiset.sum_cons, coeff_add, Finsupp.add_apply, ih, Multiset.count_cons,
      coeff_single, Finsupp.single_apply]
    rw [add_comm]
    simp [eq_comm]

omit [AddCommMonoid M] in
theorem polynomial_injective {A B : Offsets M} (h : A.polynomial = B.polynomial) : A = B := by
  classical
  ext1
  ext x
  rw [← coeff_polynomial, ← coeff_polynomial, h]

/-- A loop that visits something can be cancelled from a nest. -/
theorem mul_left_cancel_of_ne [UniqueSums M] {A B C : Offsets M} (hA : A.visits ≠ 0)
    (h : A * B = A * C) : B = C := by
  classical
  have hne : A.polynomial ≠ 0 := by
    intro h0
    obtain ⟨x, hx⟩ := Multiset.exists_mem_of_ne_zero hA
    have hcount := A.coeff_polynomial x
    rw [h0] at hcount
    exact absurd hcount.symm (by simpa using hx)
  have hmul := congrArg polynomial h
  rw [polynomial_mul, polynomial_mul] at hmul
  exact polynomial_injective (mul_left_cancel₀ hne hmul)

/-! ## Which offsets a nest visits -/

/-- A loop of zero iterations visits nothing, whatever the loops around it do. -/
theorem nest_eq_of_zero {l : List (ℕ × M)} {s : M} {x : ℕ × M} (hx : x ∈ l) (h0 : x.1 = 0) :
    nest l = strided 0 s := by
  ext1
  apply Multiset.card_eq_zero.mp
  rw [card_nest]
  exact List.prod_eq_zero (List.mem_map.mpr ⟨x, hx, h0⟩)

/-- Loops of one iteration do not contribute. -/
theorem nest_filter_ne_one (l : List (ℕ × M)) : nest (l.filter fun x => x.1 ≠ 1) = nest l := by
  induction l with
  | nil => rfl
  | cons x l ih =>
    obtain ⟨n, s⟩ := x
    by_cases h : n = 1
    · subst h
      rw [List.filter_cons_of_neg (by simp), ih, nest_cons, strided_one, one_mul]
    · rw [List.filter_cons_of_pos (by simpa using h), nest_cons, nest_cons, ih]

theorem zero_mem_strided {n : ℕ} (h : 0 < n) (s : M) : 0 ∈ (strided n s).visits := by
  rw [strided, visits_ofList, Multiset.mem_coe, List.mem_map]
  exact ⟨0, List.mem_range.mpr h, zero_nsmul s⟩

theorem zero_mem_nest {l : List (ℕ × M)} (h : ∀ x ∈ l, 0 < x.1) : 0 ∈ (nest l).visits := by
  induction l with
  | nil => simp
  | cons x l ih =>
    rw [nest_cons, visits_mul, Multiset.mem_bind]
    refine ⟨0, zero_mem_strided (h x List.mem_cons_self) x.2, ?_⟩
    rw [Multiset.mem_map]
    exact ⟨0, ih fun y hy => h y (List.mem_cons_of_mem _ hy), add_zero 0⟩

/-- Each stride is itself visited. -/
theorem stride_mem_nest {l : List (ℕ × M)} (h : ∀ x ∈ l, 2 ≤ x.1) {x : ℕ × M} (hx : x ∈ l) :
    x.2 ∈ (nest l).visits := by
  induction l with
  | nil => cases hx
  | cons y l ih =>
    have hl : ∀ z ∈ l, 2 ≤ z.1 := fun z hz => h z (List.mem_cons_of_mem _ hz)
    rw [nest_cons, visits_mul, Multiset.mem_bind]
    rcases List.mem_cons.mp hx with rfl | hx
    · refine ⟨x.2, ?_, ?_⟩
      · rw [strided, visits_ofList, Multiset.mem_coe, List.mem_map]
        exact ⟨1, List.mem_range.mpr (h x List.mem_cons_self), one_nsmul x.2⟩
      · rw [Multiset.mem_map]
        exact ⟨0, zero_mem_nest fun z hz => by have := hl z hz; omega, add_zero _⟩
    · refine ⟨0, zero_mem_strided (by have := h y List.mem_cons_self; omega) y.2, ?_⟩
      rw [Multiset.mem_map]
      exact ⟨x.2, ih hl hx, zero_add _⟩

/-- A loop with stride zero visits each offset several times. -/
theorem stride_ne_zero {l : List (ℕ × ℤ)} (h : ∀ x ∈ l, 2 ≤ x.1) (hnd : (nest l).visits.Nodup)
    {x : ℕ × ℤ} (hx : x ∈ l) : x.2 ≠ 0 := by
  intro h0
  have hperm := List.perm_cons_erase hx
  have hrest : ∀ y ∈ l.erase x, 0 < y.1 := fun y hy => by
    have := h y (List.mem_of_mem_erase hy)
    omega
  have hrep : (strided x.1 x.2).visits = Multiset.replicate x.1 0 := by
    rw [h0, strided, visits_ofList, Multiset.eq_replicate]
    simp
  have hcount := Multiset.nodup_iff_count_le_one.mp hnd 0
  rw [nest_perm hperm, nest_cons, visits_mul, hrep, Multiset.count_bind, Multiset.map_replicate,
    Multiset.sum_replicate] at hcount
  have hmem : 0 < ((nest (l.erase x)).visits.map (0 + ·)).count (0 : ℤ) := by
    rw [Multiset.count_pos, Multiset.mem_map]
    exact ⟨0, zero_mem_nest hrest, add_zero 0⟩
  have h2 := h x hx
  have hle := Nat.mul_le_mul h2 hmem
  rw [smul_eq_mul] at hcount
  omega

/-- With positive strides every offset but zero is at least as large as some stride. -/
theorem exists_stride_le {l : List (ℕ × ℤ)} (h : ∀ x ∈ l, 0 < x.2) {v : ℤ}
    (hv : v ∈ (nest l).visits) : 0 ≤ v ∧ (v = 0 ∨ ∃ x ∈ l, x.2 ≤ v) := by
  induction l generalizing v with
  | nil =>
    rw [nest_nil, visits_one, Multiset.mem_singleton] at hv
    exact ⟨hv.ge, Or.inl hv⟩
  | cons x l ih =>
    rw [nest_cons, visits_mul, Multiset.mem_bind] at hv
    obtain ⟨a, ha, hv⟩ := hv
    obtain ⟨b, hb, rfl⟩ := Multiset.mem_map.mp hv
    rw [strided, visits_ofList, Multiset.mem_coe, List.mem_map] at ha
    obtain ⟨i, _, rfl⟩ := ha
    obtain ⟨hb0, hb⟩ := ih (fun y hy => h y (List.mem_cons_of_mem _ hy)) hb
    have hx : 0 < x.2 := h x List.mem_cons_self
    have hmul : 0 ≤ i • x.2 := nsmul_nonneg hx.le i
    refine ⟨by omega, ?_⟩
    rcases Nat.eq_zero_or_pos i with rfl | hi
    · rw [zero_nsmul, zero_add]
      rcases hb with hb | ⟨y, hy, hle⟩
      · exact Or.inl hb
      · exact Or.inr ⟨y, List.mem_cons_of_mem _ hy, hle⟩
    · refine Or.inr ⟨x, List.mem_cons_self, ?_⟩
      have hle : 1 • x.2 ≤ i • x.2 := nsmul_le_nsmul_left hx.le hi
      rw [one_nsmul] at hle
      omega

/-! ## Nested loops -/

/-- The loops are nested: the stride of each is the number of iterations of the loops after it. -/
def IsNested : List (ℕ × ℤ) → Prop
  | [] => True
  | x :: l => x.2 = ((l.map Prod.fst).prod : ℕ) ∧ IsNested l

theorem IsNested.nest_eq {l : List (ℕ × ℤ)} (h : IsNested l) :
    nest l = strided (l.map Prod.fst).prod 1 := by
  induction l with
  | nil => simp
  | cons x l ih =>
    obtain ⟨hx, hl⟩ := h
    rw [nest_cons, ih hl, List.map_cons, List.prod_cons, strided_mul, hx]
    simp

/-- Nested loops around a loop of `k` iterations with stride one. -/
theorem IsNested.append_unit {l : List (ℕ × ℤ)} (h : IsNested l) (k : ℕ) :
    IsNested ((l.map fun x : ℕ × ℤ => (x.1, (k : ℤ) * x.2)) ++ [(k, 1)]) := by
  induction l with
  | nil => exact ⟨rfl, trivial⟩
  | cons x l ih =>
    obtain ⟨hx, hl⟩ := h
    refine ⟨?_, ih hl⟩
    have hfst : (((l.map fun x : ℕ × ℤ => (x.1, (k : ℤ) * x.2)) ++ [(k, 1)]).map Prod.fst).prod =
        k * (l.map Prod.fst).prod := by
      rw [List.map_append, List.map_map, List.prod_append, mul_comm]
      simp [Function.comp_def]
    show (k : ℤ) * x.2 = _
    rw [hx, ← Nat.cast_mul]
    exact congrArg Nat.cast hfst.symm

/-- Multiplying all strides by `k`. -/
theorem map_mulLeft_injective {k : ℕ} (hk : 0 < k) :
    Function.Injective (map (AddMonoidHom.mulLeft (k : ℤ))) := by
  intro A B hAB
  ext1
  have hinj : Function.Injective (AddMonoidHom.mulLeft (k : ℤ)) := fun a b hab =>
    Int.eq_of_mul_eq_mul_left (by omega) hab
  exact Multiset.map_injective hinj (congrArg visits hAB)

theorem mem_strided_unit {n : ℕ} {v : ℤ} : v ∈ (strided n (1 : ℤ)).visits ↔ 0 ≤ v ∧ v < n := by
  rw [strided_unit, visits_ofList, Multiset.mem_coe, List.mem_map]
  constructor
  · rintro ⟨i, hi, rfl⟩
    have := List.mem_range.mp hi
    omega
  · intro hv
    exact ⟨v.toNat, List.mem_range.mpr (by omega), by omega⟩

theorem nodup_strided_unit (n : ℕ) : (strided n (1 : ℤ)).visits.Nodup := by
  rw [strided_unit, visits_ofList, Multiset.coe_nodup]
  exact List.nodup_range.map Nat.cast_injective

/-- Some loop has stride one: another loop that visits the offset one would have to go further. -/
theorem exists_stride_one {l : List (ℕ × ℤ)} (h : ∀ x ∈ l, 2 ≤ x.1) (hne : l ≠ [])
    (hl : nest l = strided (l.map Prod.fst).prod 1) : ∃ k, (k, 1) ∈ l := by
  have hpos : ∀ x ∈ l, 0 < x.2 := by
    intro x hx
    have h0 := stride_ne_zero h (hl ▸ nodup_strided_unit _) hx
    have hmem := stride_mem_nest h hx
    rw [hl, mem_strided_unit] at hmem
    omega
  obtain ⟨y, hy⟩ := List.exists_mem_of_ne_nil l hne
  have hP : 2 ≤ (l.map Prod.fst).prod := by
    refine le_trans (h y hy) (Nat.le_of_dvd ?_ (List.dvd_prod (List.mem_map_of_mem hy)))
    refine List.prod_pos fun a ha => ?_
    obtain ⟨z, hz, rfl⟩ := List.mem_map.mp ha
    have := h z hz
    omega
  have h1 : (1 : ℤ) ∈ (nest l).visits := by
    rw [hl, mem_strided_unit]
    omega
  obtain ⟨_, h1 | ⟨x, hx, hle⟩⟩ := exists_stride_le hpos h1
  · omega
  · obtain ⟨k, s⟩ := x
    have hs : s = 1 := by
      have hs0 : 0 < s := hpos _ hx
      omega
    exact ⟨k, hs ▸ hx⟩

/-- Around a loop of `k` iterations with stride one, the other loops visit the multiples of `k`. -/
theorem nest_eq_strided_of_cons {k : ℕ} (hk : 0 < k) {l : List (ℕ × ℤ)} {q : ℕ}
    (h : nest ((k, 1) :: l) = strided (q * k) 1) : nest l = strided q (k : ℤ) := by
  have hmul : strided k 1 * nest l = strided k 1 * strided q (k : ℤ) := by
    rw [← nest_cons (k, (1 : ℤ)), h, strided_mul, mul_comm]
    simp
  refine mul_left_cancel_of_ne (fun h0 => ?_) hmul
  have hcard := card_strided k (1 : ℤ)
  rw [h0, Multiset.card_zero] at hcard
  omega

/-- Loops that visit the multiples of `k` are, with all strides divided by `k`, loops that visit an
interval. -/
theorem exists_scaled {k q : ℕ} (hk : 0 < k) {l : List (ℕ × ℤ)} (h2 : ∀ x ∈ l, 2 ≤ x.1)
    (h : nest l = strided q (k : ℤ)) :
    ∃ small : List (ℕ × ℤ), (small.map fun x : ℕ × ℤ => (x.1, (k : ℤ) * x.2)) = l ∧
      nest small = strided q 1 := by
  have hdvd : ∀ x ∈ l, (k : ℤ) ∣ x.2 := by
    intro x hx
    have hmem := stride_mem_nest h2 hx
    rw [h, strided, visits_ofList, Multiset.mem_coe, List.mem_map] at hmem
    obtain ⟨i, _, hi⟩ := hmem
    exact ⟨i, by rw [← hi, nsmul_eq_mul, mul_comm]⟩
  have hscale : ((l.map fun x : ℕ × ℤ => (x.1, x.2 / (k : ℤ))).map
      fun x : ℕ × ℤ => (x.1, (k : ℤ) * x.2)) = l := by
    rw [List.map_map]
    refine (List.map_congr_left fun x hx => ?_).trans (List.map_id _)
    exact Prod.ext rfl (Int.mul_ediv_cancel' (hdvd x hx))
  refine ⟨_, hscale, ?_⟩
  have hinj := map_mulLeft_injective hk
  apply hinj
  rw [map_nest, map_strided]
  simp only [AddMonoidHom.coe_mulLeft, mul_one]
  rw [hscale, h]

/-- Loops of at least two iterations that visit an interval, each offset once, are nested in some
order. -/
theorem exists_perm_isNested {l : List (ℕ × ℤ)} (h : ∀ x ∈ l, 2 ≤ x.1)
    (hl : nest l = strided (l.map Prod.fst).prod 1) : ∃ l', l'.Perm l ∧ IsNested l' := by
  -- induction on the number of loops: the loop with stride one is the innermost one
  obtain ⟨n, hn⟩ : ∃ n, l.length = n := ⟨_, rfl⟩
  induction n generalizing l with
  | zero => exact ⟨[], by rw [List.length_eq_zero_iff.mp hn], trivial⟩
  | succ n ih =>
    obtain ⟨k, hx⟩ := exists_stride_one h (List.ne_nil_of_length_eq_add_one hn) hl
    have hk : 2 ≤ k := h _ hx
    have hperm : l.Perm ((k, 1) :: l.erase (k, 1)) := List.perm_cons_erase hx
    have hrest : ∀ x ∈ l.erase (k, 1), 2 ≤ x.1 := fun x hx => h x (List.mem_of_mem_erase hx)
    have hprod : (l.map Prod.fst).prod = ((l.erase (k, 1)).map Prod.fst).prod * k := by
      rw [(hperm.map Prod.fst).prod_eq, List.map_cons, List.prod_cons, mul_comm]
    rw [hprod, nest_perm hperm] at hl
    obtain ⟨small, hscale, hsmall⟩ :=
      exists_scaled (by omega) hrest (nest_eq_strided_of_cons (by omega) hl)
    have hfst : small.map Prod.fst = (l.erase (k, 1)).map Prod.fst := by
      rw [← hscale, List.map_map]
      rfl
    have hlen : small.length = n := by
      have h1 := congrArg List.length hfst
      have h2 := hperm.length_eq
      rw [List.length_map, List.length_map] at h1
      rw [List.length_cons] at h2
      omega
    have hsmall2 : ∀ x ∈ small, 2 ≤ x.1 := by
      intro x hx
      have hmem : x.1 ∈ (l.erase (k, 1)).map Prod.fst := hfst ▸ List.mem_map_of_mem hx
      obtain ⟨z, hz, hzx⟩ := List.mem_map.mp hmem
      rw [← hzx]
      exact hrest z hz
    rw [← hfst] at hsmall
    obtain ⟨l', hl', hnested⟩ := ih hsmall2 hsmall hlen
    refine ⟨_, ?_, hnested.append_unit k⟩
    have hmap := hl'.map fun x : ℕ × ℤ => (x.1, (k : ℤ) * x.2)
    rw [hscale] at hmap
    exact (List.perm_append_singleton (k, (1 : ℤ)) _).trans ((hmap.cons _).trans hperm.symm)

/-- Some loop runs zero times, or the loops of more than one iteration are nested in some order. -/
def Nestable (l : List (ℕ × ℤ)) : Prop :=
  (∃ x ∈ l, x.1 = 0) ∨ ∃ l', l'.Perm (l.filter fun x => x.1 ≠ 1) ∧ IsNested l'

/-- A nest of loops visits an interval from zero on, each offset once, exactly if the loops can be
nested. -/
theorem nest_eq_strided_iff (l : List (ℕ × ℤ)) :
    nest l = strided (l.map Prod.fst).prod 1 ↔ Nestable l := by
  have hfilter : ((l.filter fun x => x.1 ≠ 1).map Prod.fst).prod = (l.map Prod.fst).prod := by
    have := congrArg (Multiset.card ∘ visits) (nest_filter_ne_one l)
    simpa only [Function.comp, card_nest] using this
  by_cases h0 : ∃ x ∈ l, x.1 = 0
  · obtain ⟨x, hx, hx0⟩ := h0
    refine ⟨fun _ => Or.inl ⟨x, hx, hx0⟩, fun _ => ?_⟩
    rw [nest_eq_of_zero hx hx0, List.prod_eq_zero (List.mem_map.mpr ⟨x, hx, hx0⟩)]
  · constructor
    · intro hl
      refine Or.inr (exists_perm_isNested (fun x hx => ?_) ?_)
      · obtain ⟨hx, h1⟩ := List.mem_filter.mp hx
        have hx0 : x.1 ≠ 0 := fun h => h0 ⟨x, hx, h⟩
        have hx1 : x.1 ≠ 1 := by simpa using h1
        omega
      · rw [nest_filter_ne_one, hl, hfilter]
    · rintro (h | ⟨l', hperm, hnested⟩)
      · exact absurd h h0
      · rw [← nest_filter_ne_one, ← nest_perm hperm, hnested.nest_eq, (hperm.map Prod.fst).prod_eq,
          hfilter]

end Offsets

end LoopNest
