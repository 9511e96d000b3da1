import Mathlib.Data.List.ProdSigma
import Mathlib.Data.List.Sort
import Mathlib.Tactic.Linarith
import Mathlib.Tactic.LinearCombination
import MklDnn.Conv.Avx512

/-!
# Proofs: the window of an input row

The filter rows and output rows that meet an input row, and where the formulas of the driver find them. The formula for
strides goes wrong on rows behind the last filter position when the filter is shorter than the stride.
-/

namespace MklDnn.Avx512BwdData

open Avx512

/-! ## Machine arithmetic -/

theorem max_zero_tdiv {s : ℤ} (hs : 0 < s) (n : ℤ) : max 0 (n.tdiv s) = max 0 (n / s) := by
  rcases le_or_gt 0 n with hn | hn
  · rw [Int.tdiv_eq_ediv_of_nonneg hn]
  · have hneg : n / s < 0 := Int.ediv_neg_of_neg_of_pos hn hs
    have htdiv : n.tdiv s ≤ 0 := by
      have hnonneg := Int.tdiv_nonneg (by omega : 0 ≤ -n) hs.le
      rw [Int.neg_tdiv] at hnonneg
      omega
    rw [max_eq_left htdiv, max_eq_left hneg.le]

/-- A rounded-up quotient is the least number of steps that covers the length. -/
theorem divUpZ_le {d : ℤ} (hd : 0 < d) {m : ℤ} {k : ℤ} (hk : 0 ≤ k) : divUpZ (max 0 m) d ≤ k ↔ m ≤ k * d := by
  have hkd : 0 ≤ k * d := Int.mul_nonneg hk hd.le
  rw [divUpZ, Int.tdiv_eq_ediv_of_nonneg (by omega), ← Int.lt_add_one_iff, Int.ediv_lt_iff_lt_mul hd, Int.add_mul]
  omega

theorem divUpZ_nonneg {d : ℤ} (hd : 0 < d) (m : ℤ) : 0 ≤ divUpZ (max 0 m) d := by
  rw [divUpZ, Int.tdiv_eq_ediv_of_nonneg (by omega)]
  exact Int.ediv_nonneg (by omega) hd.le

/-! ## The rows that meet -/

namespace Axis

variable (a : Axis)

/-- The extents and the parameters that a convolution descriptor may have. -/
structure Valid : Prop where
  input : 0 < a.input
  output : 0 < a.output
  kernel : 0 < a.kernel
  stride : 0 < a.stride
  /-- No implementation takes strides and dilation together. -/
  unit : a.dilate = 0 ∨ a.stride = 1

/-- The pairs of a filter row and an output row that meet the input row `i`. -/
def taps (i : ℕ) : List (ℕ × ℕ) :=
  ((List.range a.kernel).product (List.range a.output)).filter fun x =>
    x.2 * a.stride + x.1 * (a.dilate + 1) = i + a.pad

/-- The pairs, as the loop of the generated code counts them. -/
def intTaps (i : ℕ) : List (ℤ × ℤ) := (a.taps i).map fun x => ((x.1 : ℤ), (x.2 : ℤ))

/-- The input row `i` lies behind the last filter position, within half a stride. -/
def Beyond (i : ℕ) : Prop :=
  a.kernel < a.stride ∧ (a.output - 1) * a.stride + a.kernel ≤ i + a.pad ∧ i + a.pad < a.output * a.stride ∧
    2 * (i + a.pad + 1) < 2 * ((a.output - 1) * a.stride + a.kernel) + a.stride

/-- Two filter rows meet the input row `i`. -/
def MeetsTwo (i : ℕ) : Prop :=
  ∃ k o, k + a.stride < a.kernel ∧ o + 1 < a.output ∧ (o + 1) * a.stride + k = i + a.pad

variable {a}

theorem mem_intTaps {i : ℕ} {k o : ℤ} : (k, o) ∈ a.intTaps i ↔
    0 ≤ k ∧ k < a.kernel ∧ 0 ≤ o ∧ o < a.output ∧ o * a.stride + k * (a.dilate + 1) = i + a.pad := by
  simp only [intTaps, taps, List.mem_map, List.mem_filter, List.pair_mem_product, List.mem_range, decide_eq_true_eq,
    Prod.exists, Prod.mk.injEq]
  constructor
  · rintro ⟨k, o, ⟨⟨hk, ho⟩, hsum⟩, rfl, rfl⟩
    exact ⟨by omega, by omega, by omega, by omega, by exact_mod_cast hsum⟩
  · rintro ⟨hk0, hk, ho0, ho, hsum⟩
    lift k to ℕ using hk0
    lift o to ℕ using ho0
    exact ⟨k, o, ⟨⟨by exact_mod_cast hk, by exact_mod_cast ho⟩, by exact_mod_cast hsum⟩, rfl, rfl⟩

/-- The filter rows increase. -/
theorem pairwise_intTaps (hs : 0 < a.stride) (i : ℕ) : (a.intTaps i).Pairwise fun x y => x.1 < y.1 := by
  have hlex : ((List.range a.kernel).product (List.range a.output)).Pairwise fun x y =>
      x.1 < y.1 ∨ x.1 = y.1 ∧ x.2 < y.2 := by
    rw [List.product, List.pairwise_flatMap]
    refine ⟨fun k _ => ?_, List.pairwise_lt_range.imp fun {k k'} hk x hx y hy => ?_⟩
    · rw [List.pairwise_map]
      exact List.pairwise_lt_range.imp fun ho => Or.inr ⟨rfl, ho⟩
    · obtain ⟨o, -, rfl⟩ := List.mem_map.mp hx
      obtain ⟨o', -, rfl⟩ := List.mem_map.mp hy
      exact Or.inl hk
  rw [intTaps, List.pairwise_map, taps, List.pairwise_filter]
  refine hlex.imp fun {x y} hxy hx hy => ?_
  have hx : x.2 * a.stride + x.1 * (a.dilate + 1) = i + a.pad := of_decide_eq_true hx
  have hy : y.2 * a.stride + y.1 * (a.dilate + 1) = i + a.pad := of_decide_eq_true hy
  rcases hxy with hlt | ⟨heq, hlt⟩
  · show (x.1 : ℤ) < y.1
    exact_mod_cast hlt
  · -- one filter row meets the input row through one output row
    have hmul := Nat.mul_lt_mul_of_pos_right hlt hs
    rw [heq] at hx
    omega

end Axis

/-! ## The walk -/

theorem mem_walk {len filt dst fs ds k o : ℤ} :
    (k, o) ∈ walk len filt dst fs ds ↔ ∃ t : ℤ, 0 ≤ t ∧ t < len ∧ k = filt + t * fs ∧ o = dst - t * ds := by
  simp only [walk, List.mem_map, List.mem_range, Prod.mk.injEq]
  constructor
  · rintro ⟨t, ht, rfl, rfl⟩
    exact ⟨t, by omega, by omega, rfl, rfl⟩
  · rintro ⟨t, ht0, ht, rfl, rfl⟩
    lift t to ℕ using ht0
    exact ⟨t, by omega, rfl, rfl⟩

theorem pairwise_walk {fs : ℤ} (hfs : 0 < fs) (len filt dst ds : ℤ) :
    (walk len filt dst fs ds).Pairwise fun x y => x.1 < y.1 := by
  rw [walk, List.pairwise_map]
  refine List.pairwise_lt_range.imp fun {t t'} ht => ?_
  have hmul : (t : ℤ) * fs < t' * fs := Int.mul_lt_mul_of_pos_right (by exact_mod_cast ht) hfs
  show filt + t * fs < filt + t' * fs
  omega

theorem walk_eq_nil_iff {len filt dst fs ds : ℤ} : walk len filt dst fs ds = [] ↔ len ≤ 0 := by
  rw [walk, List.map_eq_nil_iff, List.range_eq_nil]
  omega

/-- Lists whose filter rows increase are equal if they have the same pairs. -/
theorem eq_of_mem_iff {l l' : List (ℤ × ℤ)} (hl : l.Pairwise fun x y => x.1 < y.1)
    (hl' : l'.Pairwise fun x y => x.1 < y.1) (h : ∀ k o, (k, o) ∈ l ↔ (k, o) ∈ l') : l = l' := by
  have : Std.Antisymm fun x y : ℤ × ℤ => x.1 < y.1 := ⟨fun x y hxy hyx => absurd hxy hyx.not_gt⟩
  have : Std.Irrefl fun x y : ℤ × ℤ => x.1 < y.1 := ⟨fun x => lt_irrefl x.1⟩
  exact hl.eq_of_mem_iff hl' fun x => h x.1 x.2

/-! ## The formulas -/

namespace Axis

variable {a : Axis} {i : ℕ}

/-- The walk from a window, in rows. -/
def walked (a : Axis) (i : ℕ) (steps : ℕ × ℕ) : List (ℤ × ℤ) :=
  walk (a.window i).len (a.window i).lo (a.window i).oj steps.1 steps.2

/-- What the two formulas without strides have in common: the filter rows ahead of the first one and behind the last one
that meet the input row are cut off. -/
theorem walk_eq_of_unit (hv : a.Valid) (hs : a.stride = 1) {lo hi : ℤ} (hlo0 : 0 ≤ lo) (hhi0 : 0 ≤ hi)
    (hlo : ∀ k : ℤ, 0 ≤ k → (lo ≤ k ↔ (i + a.pad - (a.output - 1) : ℤ) ≤ k * (a.dilate + 1)))
    (hhi : ∀ k : ℤ, 0 ≤ k → (hi ≤ k ↔ ((a.kernel - 1) * (a.dilate + 1) - (i + a.pad) : ℤ) ≤ k * (a.dilate + 1))) :
    walk (a.kernel - hi - lo) lo (i + a.pad - lo * (a.dilate + 1)) 1 (a.dilate + 1) = a.intTaps i := by
  refine eq_of_mem_iff (pairwise_walk one_pos _ _ _ _) (pairwise_intTaps hv.stride i) fun k o => ?_
  rw [mem_walk, mem_intTaps, hs]
  push_cast
  constructor
  · rintro ⟨t, ht0, ht, rfl, rfl⟩
    have hlast := (hhi (a.kernel - 1 - (lo + t * 1)) (by omega)).mp (by omega)
    have hfirst := (hlo (lo + t * 1) (by omega)).mp (by omega)
    refine ⟨by omega, by omega, ?_, ?_, by ring⟩
    · have hsub : (a.kernel - 1 - (lo + t * 1)) * (a.dilate + 1 : ℤ) =
          (a.kernel - 1) * (a.dilate + 1) - (lo * (a.dilate + 1) + t * (a.dilate + 1)) := by ring
      omega
    · have hadd : (lo + t * 1) * (a.dilate + 1 : ℤ) = lo * (a.dilate + 1) + t * (a.dilate + 1) := by ring
      omega
  · rintro ⟨hk0, hk, ho0, ho, hsum⟩
    have hfirst := (hlo k hk0).mpr (by omega)
    have hlast := (hhi (a.kernel - 1 - k) (by omega)).mpr (by
      have hsub : (a.kernel - 1 - k) * (a.dilate + 1 : ℤ) = (a.kernel - 1) * (a.dilate + 1) - k * (a.dilate + 1) := by
        ring
      omega)
    refine ⟨k - lo, by omega, by omega, by ring, ?_⟩
    have hsub : (k - lo) * (a.dilate + 1 : ℤ) = k * (a.dilate + 1) - lo * (a.dilate + 1) := by ring
    omega

theorem denseWindow_walk (hv : a.Valid) (hd : a.dilate = 0) (hs : a.stride = 1) :
    let w := a.denseWindow i
    walk w.len w.lo w.oj 1 (a.dilate + 1) = a.intTaps i := by
  have hend : (a.kernel - a.input + i - a.endPad : ℤ) = i + a.pad - (a.output - 1) := by
    rw [endPad, hs, hd]
    push_cast
    ring
  have hwalk := walk_eq_of_unit (i := i) hv hs (le_max_left 0 (a.kernel - a.input + i - a.endPad : ℤ))
    (le_max_left 0 (a.kernel - 1 - i - a.pad : ℤ)) (fun k hk => by rw [hend, hd]; push_cast; omega)
    (fun k hk => by rw [hd]; push_cast; omega)
  rw [hd] at hwalk ⊢
  push_cast at hwalk ⊢
  rw [mul_one] at hwalk
  exact hwalk

theorem dilatedWindow_walk (hv : a.Valid) (hs : a.stride = 1) :
    let w := a.dilatedWindow i
    walk w.len w.lo w.oj 1 (a.dilate + 1) = a.intTaps i := by
  have hd : (0 : ℤ) < a.dilate + 1 := by omega
  have hend : ((a.kernel - 1) * (a.dilate + 1) + 1 - a.input + i - a.endPad : ℤ) = i + a.pad - (a.output - 1) := by
    rw [endPad, hs]
    push_cast
    ring
  refine walk_eq_of_unit hv hs (divUpZ_nonneg hd _) (divUpZ_nonneg hd _) (fun k hk => ?_) fun k hk => ?_
  · rw [divUpZ_le hd hk, hend]
  · rw [divUpZ_le hd hk, sub_sub]

/-! ### Strides -/

section Strided

variable (a i)

/-- The first filter row of the residue class of the input row. -/
def firstRow : ℤ := (i + a.pad : ℤ) % a.stride

/-- The output row that the first filter row of the residue class would meet. -/
def firstOut : ℤ := (i + a.pad : ℤ) / a.stride

/-- The last number in the residue class: filter row `firstRow + lastNum * stride` is the last one. -/
def lastNum : ℤ := (a.kernel - 1 - a.firstRow i) / a.stride

/-- The number of filter rows of the class ahead of those that meet an output row. -/
def skipped : ℤ := max 0 (a.firstOut i - (a.output - 1))

/-- The number of filter rows of the class behind the input row. -/
def cut : ℤ := max 0 (a.lastNum i - a.firstOut i)

/-- How far the input row is from the last filter row at its last position. -/
def rest : ℤ := (a.output - 1) * a.stride + (a.kernel - 1) - (i + a.pad)

variable {a i}

theorem firstRow_add : (a.firstRow i + a.firstOut i * a.stride : ℤ) = i + a.pad := by
  rw [firstRow, firstOut, mul_comm]
  exact Int.emod_add_mul_ediv _ _

theorem firstRow_bounds (hv : a.Valid) : 0 ≤ a.firstRow i ∧ a.firstRow i < a.stride := by
  have hs : (0 : ℤ) < a.stride := by exact_mod_cast hv.stride
  exact ⟨Int.emod_nonneg _ hs.ne', Int.emod_lt_of_pos _ hs⟩

theorem firstOut_nonneg : 0 ≤ a.firstOut i := Int.ediv_nonneg (by omega) (by omega)

/-- The fields of the window, apart from the count. -/
theorem stridedWindow_eq (hv : a.Valid) (hd : a.dilate = 0) :
    a.stridedWindow i = ⟨(a.kernel - 1 - |(a.rest i).tmod a.stride| - a.firstRow i).tdiv a.stride + 1 - a.cut i - a.skipped i,
      a.firstRow i + a.skipped i * a.stride, a.firstOut i - a.skipped i⟩ := by
  have hs : (0 : ℤ) < a.stride := by exact_mod_cast hv.stride
  have hsum : (a.firstRow i + a.firstOut i * a.stride : ℤ) = i + a.pad := firstRow_add
  have htop : max 0 ((a.kernel - 1 - i - a.pad : ℤ).tdiv a.stride) = a.cut i := by
    have hsub : (a.kernel - 1 - i - a.pad : ℤ) = a.kernel - 1 - a.firstRow i + -a.firstOut i * a.stride := by
      linear_combination hsum
    rw [max_zero_tdiv hs, hsub, Int.add_mul_ediv_right _ _ hs.ne']
    rfl
  have hbottom : max 0 ((a.kernel - a.input + i - a.endPad : ℤ).tdiv a.stride) = a.skipped i := by
    have hsub : (a.kernel - a.input + i - a.endPad : ℤ) = i + a.pad + -(a.output - 1) * a.stride := by
      rw [endPad, hd]
      push_cast
      ring
    rw [max_zero_tdiv hs, hsub, Int.add_mul_ediv_right _ _ hs.ne']
    rfl
  have hlo : (i + a.pad : ℤ).tmod a.stride = a.firstRow i := Int.tmod_eq_emod_of_nonneg (by omega)
  have hrest : (a.input - 1 + a.endPad - i : ℤ) = a.rest i := by
    rw [endPad, hd, rest]
    push_cast
    ring
  have hout : (i + a.pad - (a.firstRow i + a.skipped i * a.stride) : ℤ).tdiv a.stride = a.firstOut i - a.skipped i := by
    have hmul : (i + a.pad - (a.firstRow i + a.skipped i * a.stride) : ℤ) = (a.firstOut i - a.skipped i) * a.stride := by
      linear_combination -hsum
    rw [hmul, Int.mul_tdiv_cancel _ hs.ne']
  rw [stridedWindow, htop, hbottom, hlo, hrest, hout]

/-- The walk is right where the count is that of the residue class. -/
theorem walk_eq_of_strided (hv : a.Valid) (hd : a.dilate = 0) :
    walk (a.lastNum i + 1 - a.cut i - a.skipped i) (a.firstRow i + a.skipped i * a.stride) (a.firstOut i - a.skipped i)
      a.stride (a.dilate + 1) = a.intTaps i := by
  have hs : (0 : ℤ) < a.stride := by exact_mod_cast hv.stride
  have hsum : (a.firstRow i + a.firstOut i * a.stride : ℤ) = i + a.pad := firstRow_add
  have hfirst := firstRow_bounds (i := i) hv
  have hlast : ∀ j : ℤ, j ≤ a.lastNum i ↔ a.firstRow i + j * a.stride ≤ a.kernel - 1 := by
    intro j
    rw [lastNum, Int.le_ediv_iff_mul_le hs]
    omega
  refine eq_of_mem_iff (pairwise_walk hs _ _ _ _) (pairwise_intTaps hv.stride i) fun k o => ?_
  rw [mem_walk, mem_intTaps, hd]
  push_cast
  have hskip : 0 ≤ a.skipped i ∧ a.firstOut i - (a.output - 1) ≤ a.skipped i :=
    ⟨le_max_left _ _, le_max_right _ _⟩
  have hcut : 0 ≤ a.cut i ∧ a.lastNum i - a.firstOut i ≤ a.cut i := ⟨le_max_left _ _, le_max_right _ _⟩
  constructor
  · rintro ⟨t, ht0, ht, rfl, rfl⟩
    have hrow : a.firstRow i + a.skipped i * a.stride + t * a.stride = a.firstRow i + (a.skipped i + t) * a.stride := by
      ring
    have hnonneg : 0 ≤ (a.skipped i + t) * (a.stride : ℤ) := Int.mul_nonneg (by omega) hs.le
    have hle := (hlast (a.skipped i + t)).mp (by omega)
    rw [hrow]
    exact ⟨by omega, by omega, by omega, by omega, by linear_combination hsum⟩
  · rintro ⟨hk0, hk, ho0, ho, hmeet⟩
    have hrow : k = a.firstRow i + (a.firstOut i - o) * a.stride := by linear_combination hmeet - hsum
    have hle := (hlast (a.firstOut i - o)).mpr (by omega)
    have hge : 0 ≤ a.firstOut i - o := by
      by_contra hneg
      have hmul : (a.firstOut i - o) * (a.stride : ℤ) ≤ -1 * a.stride := Int.mul_le_mul_of_nonneg_right (by omega) hs.le
      omega
    have hskip' : a.skipped i ≤ a.firstOut i - o := max_le hge (by omega)
    have hcut' : a.firstOut i - o ≤ a.lastNum i - a.cut i := by
      have hcutle : a.cut i ≤ a.lastNum i - (a.firstOut i - o) := max_le (by omega) (by omega)
      omega
    exact ⟨a.firstOut i - o - a.skipped i, by omega, by omega, by linear_combination hrow, by ring⟩

/-- Ahead of the end of the last filter position, the count is that of the residue class. -/
theorem strided_len_of_rest_nonneg (hv : a.Valid) (hrest : 0 ≤ a.rest i) :
    (a.kernel - 1 - |(a.rest i).tmod a.stride| - a.firstRow i).tdiv a.stride = a.lastNum i := by
  have hs : (0 : ℤ) < a.stride := by exact_mod_cast hv.stride
  have hsum : (a.firstRow i + a.firstOut i * a.stride : ℤ) = i + a.pad := firstRow_add
  have hmod : (a.rest i).tmod a.stride = (a.kernel - 1 - a.firstRow i) % a.stride := by
    have hclass : a.rest i = a.kernel - 1 - a.firstRow i + (a.output - 1 - a.firstOut i) * a.stride := by
      rw [rest]
      linear_combination hsum
    rw [Int.tmod_eq_emod_of_nonneg hrest, hclass, Int.add_mul_emod_self_right]
  have hnonneg : 0 ≤ (a.kernel - 1 - a.firstRow i : ℤ) % a.stride := Int.emod_nonneg _ hs.ne'
  have hmul : (a.kernel - 1 - |(a.rest i).tmod a.stride| - a.firstRow i : ℤ) = a.lastNum i * a.stride := by
    have hdiv := Int.emod_add_mul_ediv (a.kernel - 1 - a.firstRow i : ℤ) a.stride
    rw [hmod, abs_of_nonneg hnonneg, lastNum]
    linear_combination -hdiv
  rw [hmul, Int.mul_tdiv_cancel _ hs.ne']

/-- Behind the end of the last filter position there is nothing to meet. -/
theorem intTaps_of_rest_neg (hd : a.dilate = 0) (hrest : a.rest i < 0) : a.intTaps i = [] := by
  rw [List.eq_nil_iff_forall_not_mem]
  rintro ⟨k, o⟩ hmem
  obtain ⟨hk0, hk, ho0, ho, hmeet⟩ := mem_intTaps.mp hmem
  have hmul : o * (a.stride : ℤ) ≤ (a.output - 1) * a.stride := Int.mul_le_mul_of_nonneg_right (by omega) (by omega)
  rw [hd] at hmeet
  rw [rest] at hrest
  push_cast at hmeet
  omega

/-- There the count is positive on the rows `Beyond`, and nowhere else. -/
theorem strided_len_of_rest_neg (hv : a.Valid) (hrest : a.rest i < 0) :
    (a.kernel - 1 - |(a.rest i).tmod a.stride| - a.firstRow i).tdiv a.stride + 1 - a.cut i - a.skipped i ≤ 0 ↔
      ¬ a.Beyond i := by
  have hs : (0 : ℤ) < a.stride := by exact_mod_cast hv.stride
  have hkernel := hv.kernel
  have houtput := hv.output
  have hsum : (a.firstRow i + a.firstOut i * a.stride : ℤ) = i + a.pad := firstRow_add
  obtain ⟨hfirst0, hfirst⟩ := firstRow_bounds (i := i) hv
  have hcut0 : 0 ≤ a.cut i := le_max_left _ _
  have hclass : -a.rest i = (a.firstOut i - (a.output - 1)) * a.stride + (a.firstRow i - (a.kernel - 1)) := by
    rw [rest]
    linear_combination -hsum
  have habs : |(a.rest i).tmod a.stride| = -a.rest i % a.stride := by
    have hneg : (a.rest i).tmod a.stride = -(-a.rest i % a.stride) := by
      rw [← Int.tmod_eq_emod_of_nonneg (by omega : 0 ≤ -a.rest i), Int.neg_tmod, neg_neg]
    rw [hneg, abs_neg, abs_of_nonneg (Int.emod_nonneg _ hs.ne')]
  set m : ℤ := -a.rest i % a.stride with hm
  have hm0 : 0 ≤ m := Int.emod_nonneg _ hs.ne'
  rw [habs]
  rcases lt_or_ge (a.firstOut i) a.output with hout | hout
  · -- the row is less than a stride behind the last filter position
    have hlast : a.firstOut i = a.output - 1 := by
      by_contra hne
      have hmul : (a.firstOut i - (a.output - 1)) * (a.stride : ℤ) ≤ -1 * a.stride :=
        Int.mul_le_mul_of_nonneg_right (by omega) hs.le
      omega
    have hskip : a.skipped i = 0 := by
      rw [skipped, hlast, sub_self, max_self]
    have hclass' : -a.rest i = a.firstRow i - (a.kernel - 1) := by
      rw [hclass, hlast, sub_self, zero_mul, zero_add]
    have hrow : m = a.firstRow i - (a.kernel - 1) := by
      rw [hm, hclass']
      exact Int.emod_eq_of_lt (by omega) (by omega)
    have hcut : a.cut i = 0 := by
      have hneg : a.lastNum i < 0 := Int.ediv_neg_of_neg_of_pos (by omega) hs
      have hnonneg := firstOut_nonneg (a := a) (i := i)
      exact max_eq_left (by omega)
    have hcount : (a.kernel - 1 - m - a.firstRow i : ℤ).tdiv a.stride = -(2 * m / a.stride) := by
      have hdouble : (a.kernel - 1 - m - a.firstRow i : ℤ) = -(2 * m) := by omega
      rw [hdouble, Int.neg_tdiv, Int.tdiv_eq_ediv_of_nonneg (by omega)]
    have hhalf : 2 * m / a.stride ≤ 0 ↔ 2 * m < a.stride := by
      rw [← Int.lt_add_one_iff, Int.ediv_lt_iff_lt_mul hs]
      omega
    have hx : (i + a.pad : ℤ) = a.firstRow i + (a.output - 1) * a.stride := by rw [← hsum, hlast]
    have hcastmul : ((a.output - 1 : ℕ) * a.stride : ℤ) = (a.output - 1) * a.stride := by
      rw [Nat.cast_sub (by omega : 1 ≤ a.output)]
      rfl
    have hmulout : (a.output * a.stride : ℤ) = (a.output - 1) * a.stride + a.stride := by ring
    have hbeyond : a.Beyond i ↔ 2 * m < a.stride := by
      unfold Beyond
      zify
      rw [hcastmul]
      constructor
      · rintro ⟨-, -, -, hlt⟩
        omega
      · intro hlt
        exact ⟨by omega, by omega, by omega, by omega⟩
    rw [hcount, hcut, hskip, hbeyond, ← hhalf]
    omega
  · -- the row is further behind, and what is skipped ahead is more than the class has
    have hbeyond : ¬ a.Beyond i := by
      rintro ⟨-, -, hlt, -⟩
      have hmul : (a.output * a.stride : ℤ) ≤ a.firstOut i * a.stride := Int.mul_le_mul_of_nonneg_right hout hs.le
      zify at hlt
      omega
    refine iff_of_true ?_ hbeyond
    have hskip : a.skipped i = a.firstOut i - (a.output - 1) := max_eq_right (by omega)
    rcases lt_or_ge (a.kernel - 1 - m - a.firstRow i : ℤ) 0 with hneg | hnonneg
    · have hcount : (a.kernel - 1 - m - a.firstRow i : ℤ).tdiv a.stride ≤ 0 := by
        have hle := Int.tdiv_nonneg (by omega : 0 ≤ -(a.kernel - 1 - m - a.firstRow i : ℤ)) hs.le
        rw [Int.neg_tdiv] at hle
        omega
      omega
    · have hcount : (a.kernel - 1 - m - a.firstRow i : ℤ).tdiv a.stride < a.skipped i := by
        rw [Int.tdiv_eq_ediv_of_nonneg hnonneg, Int.ediv_lt_iff_lt_mul hs, hskip]
        omega
      omega

end Strided

/-! ### All formulas -/

theorem not_beyond_of_unit (hv : a.Valid) (hs : a.stride = 1) : ¬ a.Beyond i := by
  rintro ⟨hlt, -⟩
  have hkernel := hv.kernel
  omega

/-- The walk with the steps of the axis meets the right rows, except behind the last filter position. -/
theorem walked_iff (hv : a.Valid) : a.walked i (a.stride, a.dilate + 1) = a.intTaps i ↔ ¬ a.Beyond i := by
  unfold walked window
  push_cast
  by_cases hdense : a.dilate = 0 ∧ a.stride = 1
  · rw [if_pos hdense, hdense.2]
    exact iff_of_true (denseWindow_walk hv hdense.1 hdense.2) (not_beyond_of_unit hv hdense.2)
  · by_cases hd : a.dilate = 0
    · rw [if_neg hdense, if_neg (not_not.mpr hd), stridedWindow_eq hv hd]
      dsimp only
      rcases le_or_gt 0 (a.rest i) with hrest | hrest
      · rw [strided_len_of_rest_nonneg hv hrest]
        refine iff_of_true (walk_eq_of_strided hv hd) ?_
        rintro ⟨-, hge, -, -⟩
        have houtput := hv.output
        zify [houtput] at hge
        rw [rest] at hrest
        omega
      · rw [← strided_len_of_rest_neg hv hrest, intTaps_of_rest_neg hd hrest, walk_eq_nil_iff]
    · have hs : a.stride = 1 := hv.unit.resolve_left hd
      rw [if_neg hdense, if_pos hd, hs]
      exact iff_of_true (dilatedWindow_walk hv hs) (not_beyond_of_unit hv hs)

/-- Behind the last filter position the walk takes a filter row that meets no output row. -/
theorem Beyond.walked_ne (hv : a.Valid) (h : a.Beyond i) (steps : ℕ × ℕ) : a.walked i steps ≠ a.intTaps i := by
  intro heq
  have hnil : a.intTaps i = [] := by
    rw [List.eq_nil_iff_forall_not_mem]
    rintro ⟨k, o⟩ hmem
    obtain ⟨hk0, hk, ho0, ho, hmeet⟩ := mem_intTaps.mp hmem
    obtain ⟨hlt, hge, -, -⟩ := h
    have hd : a.dilate = 0 := by
      rcases hv.unit with hd | hs
      · exact hd
      · have hkernel := hv.kernel
        omega
    have houtput := hv.output
    have hmul : o * (a.stride : ℤ) ≤ (a.output - 1) * a.stride := Int.mul_le_mul_of_nonneg_right (by omega) (by omega)
    zify [houtput] at hge
    rw [hd] at hmeet
    push_cast at hmeet
    omega
  have hlen : (a.window i).len ≤ 0 := by
    rw [hnil, walked, walk_eq_nil_iff] at heq
    exact heq
  refine (walked_iff hv).not.mpr (not_not.mpr h) ?_
  rw [hnil, walked, walk_eq_nil_iff]
  exact hlen

/-- Two filter rows meet an input row if and only if the list of the pairs has two elements. -/
theorem one_lt_length_iff (hv : a.Valid) (hd : a.dilate = 0) (h : a.walked i (a.stride, a.dilate + 1) = a.intTaps i) :
    1 < (a.window i).len ↔ a.MeetsTwo i := by
  have hs : (0 : ℤ) < a.stride := by exact_mod_cast hv.stride
  have hmem : ∀ {k o : ℤ}, (k, o) ∈ a.intTaps i ↔
      ∃ t : ℤ, 0 ≤ t ∧ t < (a.window i).len ∧ k = (a.window i).lo + t * a.stride ∧ o = (a.window i).oj - t := by
    intro k o
    rw [← h, walked, mem_walk, hd]
    push_cast
    simp only [mul_one]
  constructor
  · intro hlen
    have hfirst := mem_intTaps.mp (hmem.mpr ⟨0, by omega, by omega, rfl, rfl⟩)
    have hsecond := mem_intTaps.mp (hmem.mpr ⟨1, by omega, by omega, rfl, rfl⟩)
    rw [hd] at hfirst hsecond
    push_cast at hfirst hsecond
    refine ⟨(a.window i).lo.toNat, ((a.window i).oj - 1).toNat, by omega, by omega, ?_⟩
    zify
    rw [Int.toNat_of_nonneg (by omega), Int.toNat_of_nonneg (by omega)]
    linear_combination hfirst.2.2.2.2
  · rintro ⟨k, o, hk, ho, hmeet⟩
    zify at hmeet
    have hfirst : ((k : ℤ), (o + 1 : ℤ)) ∈ a.intTaps i :=
      mem_intTaps.mpr ⟨by omega, by omega, by omega, by omega, by rw [hd]; push_cast; linear_combination hmeet⟩
    have hsecond : ((k + a.stride : ℤ), (o : ℤ)) ∈ a.intTaps i :=
      mem_intTaps.mpr ⟨by omega, by omega, by omega, by omega, by rw [hd]; push_cast; linear_combination hmeet⟩
    obtain ⟨t, ht0, ht, -, hto⟩ := hmem.mp hfirst
    obtain ⟨t', ht0', ht', -, hto'⟩ := hmem.mp hsecond
    omega

/-- A walk that takes neighbouring filter rows meets the right ones if there is no stride, or only one row to meet. -/
theorem walked_unit_iff (hv : a.Valid) :
    a.walked i (1, a.dilate + 1) = a.intTaps i ↔ ¬ a.Beyond i ∧ (a.stride = 1 ∨ ¬ a.MeetsTwo i) := by
  by_cases hbeyond : a.Beyond i
  · exact iff_of_false (hbeyond.walked_ne hv _) fun h => h.1 hbeyond
  · have hwalked := (walked_iff hv).mpr hbeyond
    by_cases hs : a.stride = 1
    · rw [hs] at hwalked
      exact iff_of_true hwalked ⟨hbeyond, Or.inl hs⟩
    · have hd : a.dilate = 0 := hv.unit.resolve_right hs
      have hmeets := one_lt_length_iff hv hd hwalked
      have hstride := hv.stride
      rw [and_iff_right hbeyond, or_iff_right hs, ← hmeets, ← hwalked]
      unfold walked
      constructor
      · intro heq hlen
        -- the second row of the walk
        have hmem : ((a.window i).lo + 1 * (1 : ℕ), (a.window i).oj - 1 * (a.dilate + 1 : ℕ)) ∈
            walk (a.window i).len (a.window i).lo (a.window i).oj a.stride (a.dilate + 1 : ℕ) :=
          heq ▸ mem_walk.mpr ⟨1, by omega, by omega, rfl, rfl⟩
        obtain ⟨t, ht0, -, hk, ho⟩ := mem_walk.mp hmem
        rw [hd] at ho
        push_cast at ho hk
        have ht : t = 1 := by omega
        rw [ht] at hk
        omega
      · intro hlen
        unfold walk
        refine List.map_congr_left fun t ht => ?_
        have ht : t = 0 := by
          have ht := List.mem_range.mp ht
          omega
        rw [ht]
        simp

end Axis

end MklDnn.Avx512BwdData
