import Mathlib.Algebra.BigOperators.Intervals
import Mathlib.Data.Int.Notation
import Mathlib.Data.List.Nodup
import Mathlib.Order.Interval.Finset.Nat
import Mathlib.Tactic.Linarith
import Mathlib.Tactic.Ring
import MklDnn.Lib.Offsets

/-!
# Boxes of positions

A position of an `n`-dimensional array is a function `ℕ → ℕ` that is zero from `n` on. `box dims n`
lists the positions below the extents `dims` in row-major order, the last dimension running fastest,
and `rowMajor dims n l` is its `l`-th element.
-/

namespace LoopNest

/-- The positions below the extents `dims` of the first `n` dimensions, in row-major order. -/
def box (dims : ℕ → ℕ) : ℕ → List (ℕ → ℕ)
  | 0 => [fun _ => 0]
  | n + 1 => (box dims n).flatMap fun p => (List.range (dims n)).map (Function.update p n)

/-- The number of positions below the extents `dims`. -/
def volume (dims : ℕ → ℕ) (n : ℕ) : ℕ := ∏ d ∈ Finset.range n, dims d

@[simp] theorem volume_zero (dims : ℕ → ℕ) : volume dims 0 = 1 := rfl

theorem volume_succ (dims : ℕ → ℕ) (n : ℕ) : volume dims (n + 1) = volume dims n * dims n :=
  Finset.prod_range_succ ..

theorem volume_pos {dims : ℕ → ℕ} {n : ℕ} (h : ∀ d < n, 0 < dims d) : 0 < volume dims n :=
  Finset.prod_pos fun d hd => h d (Finset.mem_range.mp hd)

theorem volume_eq_zero {dims : ℕ → ℕ} {n : ℕ} : volume dims n = 0 ↔ ∃ d < n, dims d = 0 := by
  simp [volume, Finset.prod_eq_zero_iff]

theorem mem_box {dims : ℕ → ℕ} {n : ℕ} {p : ℕ → ℕ} :
    p ∈ box dims n ↔ (∀ d < n, p d < dims d) ∧ ∀ d, n ≤ d → p d = 0 := by
  induction n generalizing p with
  | zero =>
    simp only [box, List.mem_singleton, Nat.not_lt_zero, false_imp_iff, implies_true, true_and,
      Nat.zero_le, true_imp_iff]
    exact funext_iff
  | succ n ih =>
    simp only [box, List.mem_flatMap, List.mem_map, List.mem_range, ih]
    constructor
    · rintro ⟨q, ⟨hq, hz⟩, x, hx, rfl⟩
      refine ⟨fun d hd => ?_, fun d hd => ?_⟩
      · by_cases h : d = n
        · subst h; simpa using hx
        · rw [Function.update_of_ne h]; exact hq d (by omega)
      · rw [Function.update_of_ne (by omega)]; exact hz d (by omega)
    · rintro ⟨hp, hz⟩
      refine ⟨Function.update p n 0, ⟨fun d hd => ?_, fun d hd => ?_⟩, p n, hp n (by omega), ?_⟩
      · rw [Function.update_of_ne (by omega)]; exact hp d (by omega)
      · by_cases h : d = n
        · subst h; simp
        · rw [Function.update_of_ne h]; exact hz d (by omega)
      · simp

@[simp] theorem length_box (dims : ℕ → ℕ) (n : ℕ) : (box dims n).length = volume dims n := by
  induction n with
  | zero => rfl
  | succ n ih => simp [box, volume_succ, ih]

theorem nodup_box (dims : ℕ → ℕ) (n : ℕ) : (box dims n).Nodup := by
  induction n with
  | zero => simp [box]
  | succ n ih =>
    rw [box, List.nodup_flatMap]
    refine ⟨fun p _ => ?_, ?_⟩
    · refine List.nodup_range.map fun x y h => ?_
      simpa using congrFun h n
    · refine List.Pairwise.imp_of_mem ?_ ih
      intro p q hp hq hpq r hr hr'
      obtain ⟨x, _, rfl⟩ := List.mem_map.mp hr
      obtain ⟨y, _, h⟩ := List.mem_map.mp hr'
      refine hpq (funext fun d => ?_)
      by_cases hd : d = n
      · rw [hd, (mem_box.mp hp).2 n le_rfl, (mem_box.mp hq).2 n le_rfl]
      · have hd' := congrFun h d
        rwa [Function.update_of_ne hd, Function.update_of_ne hd, eq_comm] at hd'

/-- A list of coordinates. -/
theorem getD_mem_box {dims : ℕ → ℕ} {n : ℕ} {l : List ℕ} (h : List.Forall₂ (· < ·) l ((List.range n).map dims)) :
    (fun d => l.getD d 0) ∈ box dims n := by
  have hlen : l.length = n := by rw [h.length_eq, List.length_map, List.length_range]
  rw [mem_box]
  constructor
  · intro d hd
    have hl : d < l.length := by omega
    have hr : d < ((List.range n).map dims).length := by rw [List.length_map, List.length_range]; exact hd
    have hlt : l.get ⟨d, hl⟩ < ((List.range n).map dims).get ⟨d, hr⟩ := h.get hl hr
    simpa [List.getD_eq_getElem?_getD, hl] using hlt
  · intro d hd
    rw [List.getD_eq_getElem?_getD, List.getElem?_eq_none (by omega), Option.getD_none]

/-- A position is the list of its coordinates. -/
theorem getD_map_range {n : ℕ} {p : ℕ → ℕ} (h : ∀ d, n ≤ d → p d = 0) : (fun d => ((List.range n).map p).getD d 0) = p := by
  funext d
  by_cases hd : d < n
  · simp [List.getD_eq_getElem?_getD, hd]
  · simp [List.getD_eq_getElem?_getD, hd, h d (by omega)]

theorem box_congr {dims dims' : ℕ → ℕ} {n : ℕ} (h : ∀ d < n, dims d = dims' d) :
    box dims n = box dims' n := by
  induction n with
  | zero => rfl
  | succ n ih => rw [box, box, ih fun d hd => h d (by omega), h n (by omega)]

theorem volume_congr {dims dims' : ℕ → ℕ} {n : ℕ} (h : ∀ d < n, dims d = dims' d) :
    volume dims n = volume dims' n :=
  Finset.prod_congr rfl fun d hd => h d (Finset.mem_range.mp hd)

/-! ## The row-major decomposition of an index -/

/-- The position of index `l` in the row-major order of the extents `dims`. -/
def rowMajor (dims : ℕ → ℕ) : ℕ → ℕ → ℕ → ℕ
  | 0, _ => fun _ => 0
  | n + 1, l => Function.update (rowMajor dims n (l / dims n)) n (l % dims n)

/-- The last coordinate of a place is its remainder. -/
theorem rowMajor_succ_mul_add (dims : ℕ → ℕ) (n q : ℕ) {r : ℕ} (hr : r < dims n) :
    rowMajor dims (n + 1) (q * dims n + r) = Function.update (rowMajor dims n q) n r := by
  have hpos : 0 < dims n := lt_of_le_of_lt (Nat.zero_le r) hr
  have hquot : (q * dims n + r) / dims n = q := by
    rw [Nat.add_comm, Nat.add_mul_div_right _ _ hpos, Nat.div_eq_of_lt hr, Nat.zero_add]
  rw [rowMajor, hquot, Nat.mul_add_mod_of_lt hr]

theorem rowMajor_of_le {dims : ℕ → ℕ} {n l d : ℕ} (h : n ≤ d) : rowMajor dims n l d = 0 := by
  induction n generalizing l with
  | zero => rfl
  | succ n ih => rw [rowMajor, Function.update_of_ne (by omega)]; exact ih (by omega)

theorem rowMajor_congr {dims dims' : ℕ → ℕ} {n : ℕ} (h : ∀ d < n, dims d = dims' d) (l : ℕ) :
    rowMajor dims n l = rowMajor dims' n l := by
  induction n generalizing l with
  | zero => rfl
  | succ n ih => rw [rowMajor, rowMajor, ih fun d hd => h d (by omega), h n (by omega)]

theorem rowMajor_lt {dims : ℕ → ℕ} {n d : ℕ} (l : ℕ) (hd : d < n) (h : 0 < dims d) :
    rowMajor dims n l d < dims d := by
  induction n generalizing l with
  | zero => omega
  | succ n ih =>
    by_cases hdn : d = n
    · subst hdn; simpa [rowMajor] using Nat.mod_lt _ h
    · rw [rowMajor, Function.update_of_ne hdn]; exact ih _ (by omega)

theorem rowMajor_mem_box {dims : ℕ → ℕ} {n : ℕ} (h : ∀ d < n, 0 < dims d) (l : ℕ) :
    rowMajor dims n l ∈ box dims n :=
  mem_box.mpr ⟨fun d hd => rowMajor_lt l hd (h d hd), fun _ hd => rowMajor_of_le hd⟩

/-- The row-major enumeration of the box, as one loop over the indices. -/
theorem box_eq_map_rowMajor (dims : ℕ → ℕ) (n : ℕ) :
    box dims n = (List.range (volume dims n)).map (rowMajor dims n) := by
  induction n with
  | zero => rfl
  | succ n ih =>
    rw [box, ih, List.flatMap_map, volume_succ]
    exact flatMap_range_map (dims n) (fun q x => Function.update (rowMajor dims n q) n x) _

theorem rowMajor_eq_iff {dims : ℕ → ℕ} {n l l' : ℕ} (hl : l < volume dims n)
    (hl' : l' < volume dims n) : rowMajor dims n l = rowMajor dims n l' ↔ l = l' := by
  have hnd : ((List.range (volume dims n)).map (rowMajor dims n)).Nodup :=
    box_eq_map_rowMajor dims n ▸ nodup_box dims n
  exact ⟨fun h => List.inj_on_of_nodup_map hnd (by simpa) (by simpa) h, fun h => h ▸ rfl⟩

/-- Every position of the box is the decomposition of an index below its volume. -/
theorem exists_rowMajor {dims : ℕ → ℕ} {n : ℕ} {p : ℕ → ℕ} (hp : p ∈ box dims n) :
    ∃ l < volume dims n, rowMajor dims n l = p := by
  rw [box_eq_map_rowMajor] at hp
  simpa using hp

/-- The leading coordinates of an index are those of its quotient by the trailing extents. -/
theorem rowMajor_mul_add {dims : ℕ → ℕ} {k n d : ℕ} (hk : k ≤ n) (hd : d < k) (q : ℕ) {r : ℕ}
    (hr : r < ∏ i ∈ Finset.Ico k n, dims i) :
    rowMajor dims n (q * (∏ i ∈ Finset.Ico k n, dims i) + r) d = rowMajor dims k q d := by
  induction n, hk using Nat.le_induction generalizing r with
  | base =>
    simp only [Finset.Ico_self, Finset.prod_empty, Nat.lt_one_iff] at hr ⊢
    rw [hr, Nat.mul_one, Nat.add_zero]
  | succ n hk ih =>
    rw [Finset.prod_Ico_succ_top hk] at hr ⊢
    have hn : 0 < dims n := Nat.pos_of_ne_zero fun h0 => by simp [h0] at hr
    have hquot : (q * ((∏ i ∈ Finset.Ico k n, dims i) * dims n) + r) / dims n =
        q * (∏ i ∈ Finset.Ico k n, dims i) + r / dims n := by
      rw [← Nat.mul_assoc, Nat.mul_comm _ (dims n), Nat.mul_add_div hn]
    have hr' : r / dims n < ∏ i ∈ Finset.Ico k n, dims i :=
      Nat.div_lt_of_lt_mul (by rwa [Nat.mul_comm])
    rw [rowMajor, Function.update_of_ne (by omega), hquot]
    exact ih hr'

theorem volume_eq_mul {dims : ℕ → ℕ} {k n : ℕ} (hk : k ≤ n) :
    volume dims n = volume dims k * ∏ i ∈ Finset.Ico k n, dims i :=
  (Finset.prod_range_mul_prod_Ico dims hk).symm

/-! ## Sums of per-dimension terms -/

/-- A nest of one loop per dimension visits the positions in row-major order, each at a sum of one term
per dimension. -/
theorem foldr_nestVisits_box {M : Type*} [AddCommMonoid M] (dims : ℕ → ℕ) (n : ℕ) (g : ℕ → ℕ → M) :
    (List.range n).foldr (fun d => nestVisits (dims d) (g d)) [0] =
      (box dims n).map fun p => ∑ d ∈ Finset.range n, g d (p d) := by
  induction n with
  | zero => rfl
  | succ n ih =>
    rw [List.range_succ, List.foldr_append, foldr_nestVisits, ih, box, List.flatMap_map, List.map_flatMap]
    refine List.flatMap_congr fun p _ => ?_
    rw [List.foldr_cons, List.foldr_nil, nestVisits_singleton, List.map_map, List.map_map]
    refine List.map_congr_left fun x _ => ?_
    rw [Function.comp, Function.comp, Finset.sum_range_succ, Function.update_self]
    refine congrArg (· + g n x) (Finset.sum_congr rfl fun d hd => ?_)
    rw [Function.update_of_ne (Finset.mem_range.mp hd).ne]

open Offsets in
/-- Offsets that are a sum of one term per dimension are those of a nest of one loop per dimension. -/
theorem ofList_box {M : Type*} [AddCommMonoid M] (dims : ℕ → ℕ) (n : ℕ) (g : ℕ → ℕ → M) :
    ofList (box dims n) (fun p => ∑ d ∈ Finset.range n, g d (p d)) =
      ∏ d ∈ Finset.range n, ofList (List.range (dims d)) (g d) := by
  induction n with
  | zero => rfl
  | succ n ih =>
    rw [Finset.prod_range_succ, ← ih, box]
    refine ofList_flatMap _ _ (fun p x => Function.update p n x) _ _ _ fun p _ x _ => ?_
    rw [Finset.sum_range_succ, Function.update_self]
    refine congrArg (· + g n x) (Finset.sum_congr rfl fun d hd => ?_)
    rw [Function.update_of_ne (Finset.mem_range.mp hd).ne]

end LoopNest

/-!
## The iterations of a nest of loops

A nest of loops is a list of pairs: the number of iterations of a loop and its stride, from the outermost loop to the
innermost one. An iteration of the whole nest has a number, the digits of which are the counters of the loops.
-/

namespace LoopNest

/-- The number of iterations of a nest. -/
def iterations (l : List (ℕ × ℤ)) : ℕ := (l.map Prod.fst).prod

@[simp] theorem iterations_nil : iterations [] = 1 := rfl

@[simp] theorem iterations_cons (x : ℕ × ℤ) (l : List (ℕ × ℤ)) : iterations (x :: l) = x.1 * iterations l := by
  unfold iterations
  rw [List.map_cons, List.prod_cons]

theorem iterations_pos {l : List (ℕ × ℤ)} (h : ∀ x ∈ l, 0 < x.1) : 0 < iterations l := by
  induction l with
  | nil => exact Nat.one_pos
  | cons x l ih =>
    rw [iterations_cons]
    exact Nat.mul_pos (h x List.mem_cons_self) (ih fun y hy => h y (List.mem_cons_of_mem x hy))

/-- The offset of an iteration. The counter of the outermost loop is what the other digits leave. -/
def iterationOff : List (ℕ × ℤ) → ℕ → ℤ
  | [], _ => 0
  | x :: l, i => (i / iterations l : ℕ) * x.2 + iterationOff l (i % iterations l)

@[simp] theorem iterationOff_zero (l : List (ℕ × ℤ)) : iterationOff l 0 = 0 := by
  induction l with
  | nil => rfl
  | cons x l ih => simp [iterationOff, ih]

/-- Every loop of more than one iteration goes on by `s` times the number of iterations inside of it. -/
def Uniform (s : ℤ) : List (ℕ × ℤ) → Prop
  | [] => True
  | x :: l => (x.1 ≤ 1 ∨ x.2 = iterations l * s) ∧ Uniform s l

instance decidableUniform (s : ℤ) : (l : List (ℕ × ℤ)) → Decidable (Uniform s l)
  | [] => inferInstanceAs (Decidable True)
  | _ :: l => haveI := decidableUniform s l; inferInstanceAs (Decidable ((_ ∨ _) ∧ _))

/-- The iterations of a nest follow one another at a distance of `s` exactly if every loop keeps that distance. -/
theorem forall_iterationOff_iff {s : ℤ} {l : List (ℕ × ℤ)} (h : ∀ x ∈ l, 0 < x.1) :
    (∀ i < iterations l, iterationOff l i = i * s) ↔ Uniform s l := by
  induction l with
  | nil =>
    refine ⟨fun _ => trivial, fun _ i hi => ?_⟩
    obtain rfl : i = 0 := Nat.lt_one_iff.mp hi
    simp
  | cons x l ih =>
    have hl : ∀ y ∈ l, 0 < y.1 := fun y hy => h y (List.mem_cons_of_mem x hy)
    have hP : 0 < iterations l := iterations_pos hl
    have hx : 0 < x.1 := h x List.mem_cons_self
    rw [iterations_cons]
    show _ ↔ (x.1 ≤ 1 ∨ x.2 = iterations l * s) ∧ Uniform s l
    rw [← ih hl]
    constructor
    · intro hall
      have hinner : ∀ i < iterations l, iterationOff l i = i * s := by
        intro i hi
        have hlt : i < x.1 * iterations l := hi.trans_le (Nat.le_mul_of_pos_left _ hx)
        have heq := hall i hlt
        unfold iterationOff at heq
        rwa [Nat.div_eq_of_lt hi, Nat.mod_eq_of_lt hi, Nat.cast_zero, zero_mul, zero_add] at heq
      refine ⟨?_, hinner⟩
      -- the first iteration of the second round of the outermost loop
      rcases Nat.lt_or_ge 1 x.1 with hone | hone
      · have hlt : iterations l < x.1 * iterations l := by nlinarith
        have heq := hall _ hlt
        unfold iterationOff at heq
        rw [Nat.div_self hP, Nat.mod_self, iterationOff_zero, Nat.cast_one, one_mul, add_zero] at heq
        exact Or.inr heq
      · exact Or.inl hone
    · rintro ⟨hout, hinner⟩ i hi
      have hmod := hinner _ (Nat.mod_lt i hP)
      have hdigits : ((i / iterations l : ℕ) : ℤ) * iterations l + (i % iterations l : ℕ) = i := by
        exact_mod_cast Nat.div_add_mod' i (iterations l)
      unfold iterationOff
      rw [hmod]
      rcases hout with hone | hout
      · have hi1 : i < iterations l := by nlinarith
        rw [Nat.div_eq_of_lt hi1, Nat.mod_eq_of_lt hi1, Nat.cast_zero, zero_mul, zero_add]
      · calc ((i / iterations l : ℕ) : ℤ) * x.2 + (i % iterations l : ℕ) * s
            = (((i / iterations l : ℕ) : ℤ) * iterations l + (i % iterations l : ℕ)) * s := by rw [hout]; ring
          _ = i * s := by rw [hdigits]

end LoopNest
