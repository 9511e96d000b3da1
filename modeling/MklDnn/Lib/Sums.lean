import Mathlib.Algebra.BigOperators.Intervals
import Mathlib.Tactic.Tauto
import MklDnn.Lib.SteppedLoops

/-!
# Sums over nested loops

The sum over what a nest of loops visits, as a nest of sums.
-/

namespace LoopNest

variable {β M : Type*} [AddCommMonoid M]

/-- A loop that adds up terms. -/
theorem foldl_add {α : Type*} (f : α → M) (l : List α) (a : M) : l.foldl (fun sum x => sum + f x) a = a + (l.map f).sum := by
  induction l generalizing a with
  | nil => exact (add_zero a).symm
  | cons x l ih => rw [List.foldl_cons, ih, List.map_cons, List.sum_cons, add_assoc]

theorem sum_map_sum_comm {α ι : Type*} (s : Finset ι) (l : List α) (f : ι → α → M) :
    ∑ i ∈ s, (l.map (f i)).sum = (l.map fun x => ∑ i ∈ s, f i x).sum := by
  induction l with
  | nil => simp
  | cons x l ih => simp only [List.map_cons, List.sum_cons, Finset.sum_add_distrib, ih]

/-- A loop whose body is a loop. -/
theorem sum_map_flatMap_list {α : Type*} (l : List α) (g : α → List β) (φ : β → M) :
    ((l.flatMap g).map φ).sum = (l.map fun x => ((g x).map φ).sum).sum := by
  rw [List.map_flatMap, List.flatMap_def, List.sum_flatten, List.map_map]
  rfl

theorem sum_map_flatMap (n : ℕ) (f : ℕ → List β) (φ : β → M) :
    (((List.range n).flatMap f).map φ).sum = ∑ i ∈ Finset.range n, ((f i).map φ).sum := by
  induction n with
  | zero => rfl
  | succ n ih =>
    rw [List.range_succ, List.flatMap_append, List.map_append, List.sum_append, ih, Finset.sum_range_succ]
    simp only [List.flatMap_cons, List.flatMap_nil, List.append_nil]

theorem sum_map_range (n : ℕ) (f : ℕ → β) (φ : β → M) :
    (((List.range n).map f).map φ).sum = ∑ i ∈ Finset.range n, φ (f i) := by
  induction n with
  | zero => rfl
  | succ n ih =>
    rw [List.range_succ, List.map_append, List.map_append, List.sum_append, ih, Finset.sum_range_succ,
      List.map_singleton, List.map_singleton, List.sum_singleton]

theorem foldl_add_range (n : ℕ) (f : ℕ → M) (a : M) :
    (List.range n).foldl (fun sum i => sum + f i) a = a + ∑ i ∈ Finset.range n, f i := by
  have hsum := sum_map_range n (fun i => i) f
  rw [List.map_id'] at hsum
  rw [foldl_add, hsum]

/-- A loop over the blocks of a range, and over the elements of a block. -/
theorem sum_starts {len : ℕ → ℕ} {stop : ℕ} (hlen : ∀ c < stop, 0 < len c) (f : ℕ → M) :
    ((starts len stop stop 0).map fun c => ∑ j ∈ Finset.range (min stop (c + len c) - c), f (c + j)).sum =
      ∑ j ∈ Finset.range stop, f j := by
  have hflat := congrArg (fun l => (l.map f).sum) (flatMap_starts hlen (show stop ≤ 0 + stop by omega))
  have hblock : ∀ c k, ((List.range' c k).map f).sum = ∑ j ∈ Finset.range k, f (c + j) := by
    intro c k
    rw [List.range'_eq_map_range, sum_map_range]
  simp only [sum_map_flatMap_list, hblock, Nat.zero_add, Nat.sub_zero] at hflat
  exact hflat

/-- A sum over a part of a range. -/
theorem sum_range_window {n a b : ℕ} (h : a + b ≤ n) (f : ℕ → M) :
    ∑ i ∈ Finset.range n, (if a ≤ i ∧ i < a + b then f (i - a) else 0) = ∑ i ∈ Finset.range b, f i := by
  have hsplit : n = a + (b + (n - a - b)) := by omega
  rw [hsplit, Finset.sum_range_add, Finset.sum_range_add]
  have hlow : ∑ i ∈ Finset.range a, (if a ≤ i ∧ i < a + b then f (i - a) else 0) = 0 := by
    apply Finset.sum_eq_zero
    intro i hi
    rw [Finset.mem_range] at hi
    exact if_neg (by omega)
  have hhigh : ∑ i ∈ Finset.range (n - a - b),
      (if a ≤ a + (b + i) ∧ a + (b + i) < a + b then f (a + (b + i) - a) else 0) = 0 := by
    apply Finset.sum_eq_zero
    intro i _
    exact if_neg (by omega)
  rw [hlow, hhigh, zero_add, add_zero]
  apply Finset.sum_congr rfl
  intro i hi
  rw [Finset.mem_range] at hi
  rw [if_pos (by omega), Nat.add_sub_cancel_left]

/-- Two nested loops as one loop over the flat index. -/
theorem sum_range_mul {n m : ℕ} (f : ℕ → ℕ → M) :
    ∑ i ∈ Finset.range n, ∑ j ∈ Finset.range m, f i j =
      ∑ s ∈ Finset.range (n * m), f (s / m) (s % m) := by
  rcases Nat.eq_zero_or_pos m with rfl | hm
  · simp
  · induction n with
    | zero => simp
    | succ n ih =>
      rw [Finset.sum_range_succ, ih, Nat.succ_mul, Finset.sum_range_add]
      congr 1
      apply Finset.sum_congr rfl
      intro j hj
      rw [Finset.mem_range] at hj
      rw [Nat.mul_comm n, Nat.mul_add_div hm, Nat.div_eq_of_lt hj, Nat.mul_add_mod, Nat.mod_eq_of_lt hj, Nat.add_zero]

/-- Two nests of three loops, one inside the other or interleaved. -/
theorem sum_interleave (a b c a' b' c' : ℕ) (f : ℕ → ℕ → ℕ → ℕ → ℕ → ℕ → M) :
    ∑ i ∈ Finset.range a, ∑ i' ∈ Finset.range a', ∑ j ∈ Finset.range b, ∑ j' ∈ Finset.range b',
        ∑ k ∈ Finset.range c, ∑ k' ∈ Finset.range c', f i j k i' j' k' =
      ∑ i' ∈ Finset.range a', ∑ j' ∈ Finset.range b', ∑ k' ∈ Finset.range c', ∑ i ∈ Finset.range a,
        ∑ j ∈ Finset.range b, ∑ k ∈ Finset.range c, f i j k i' j' k' := by
  have hinner : ∀ i i', ∑ j ∈ Finset.range b, ∑ j' ∈ Finset.range b', ∑ k ∈ Finset.range c, ∑ k' ∈ Finset.range c',
      f i j k i' j' k' = ∑ j' ∈ Finset.range b', ∑ k' ∈ Finset.range c', ∑ j ∈ Finset.range b, ∑ k ∈ Finset.range c,
        f i j k i' j' k' := by
    intro i i'
    rw [Finset.sum_comm]
    apply Finset.sum_congr rfl
    intro j' _
    have hlast : ∀ j, ∑ k ∈ Finset.range c, ∑ k' ∈ Finset.range c', f i j k i' j' k' =
        ∑ k' ∈ Finset.range c', ∑ k ∈ Finset.range c, f i j k i' j' k' := fun j => Finset.sum_comm
    simp only [hlast]
    exact Finset.sum_comm
  rw [Finset.sum_comm]
  apply Finset.sum_congr rfl
  intro i' _
  simp only [hinner]
  rw [Finset.sum_comm]
  apply Finset.sum_congr rfl
  intro j' _
  exact Finset.sum_comm

/-- The sum over the numbers with a given multiple has at most one term. -/
theorem sum_range_multiple {n s : ℕ} (hs : 0 < s) (z : ℤ) (f : ℕ → M) :
    ∑ o ∈ Finset.range n, (if (o : ℤ) * s = z then f o else 0) =
      if 0 ≤ z ∧ z.tmod s = 0 ∧ z.tdiv s < n then f (z.tdiv s).toNat else 0 := by
  have hne : (s : ℤ) ≠ 0 := Int.natCast_ne_zero.mpr hs.ne'
  split_ifs with h
  · obtain ⟨hz, hmod, hlt⟩ := h
    have hquot : 0 ≤ z.tdiv s := Int.tdiv_nonneg hz (Int.natCast_nonneg s)
    have hmul : z.tdiv s * s = z := Int.tdiv_mul_cancel_of_tmod_eq_zero hmod
    rw [Finset.sum_eq_single (z.tdiv s).toNat]
    · rw [Int.toNat_of_nonneg hquot, if_pos hmul]
    · intro o _ hne'
      apply if_neg
      intro ho
      apply hne'
      rw [← ho, Int.mul_tdiv_cancel _ hne, Int.toNat_natCast]
    · intro hnot
      rw [Finset.mem_range] at hnot
      omega
  · apply Finset.sum_eq_zero
    intro o ho
    apply if_neg
    rintro rfl
    apply h
    rw [Int.mul_tdiv_cancel _ hne, Int.mul_tmod_left]
    exact ⟨Int.mul_nonneg (Int.natCast_nonneg _) (Int.natCast_nonneg _), rfl,
      Int.ofNat_lt.mpr (Finset.mem_range.mp ho)⟩

/-- One position in each of three dimensions. -/
theorem ite_positions {Pd Ph Pw Md Mh Mw Ld Lh Lw : Prop} [Decidable Pd] [Decidable Ph] [Decidable Pw] [Decidable Md]
    [Decidable Mh] [Decidable Mw] [Decidable Ld] [Decidable Lh] [Decidable Lw] (v : M) :
    (if ¬ Pd ∧ Md ∧ Ld then if ¬ Ph ∧ Mh ∧ Lh then if ¬ Pw ∧ Mw ∧ Lw then v else 0 else 0 else 0) =
      if Pw ∨ Ph ∨ Pd then 0
      else if ¬ Mw ∨ ¬ Mh ∨ ¬ Md then 0
      else if Ld ∧ Lh ∧ Lw then v
      else 0 := by
  rw [← ite_and, ← ite_and]
  by_cases hP : Pw ∨ Ph ∨ Pd
  · rw [if_pos hP, if_neg (by tauto)]
  · rw [if_neg hP]
    by_cases hM : ¬ Mw ∨ ¬ Mh ∨ ¬ Md
    · rw [if_pos hM, if_neg (by tauto)]
    · rw [if_neg hM]
      by_cases hL : Ld ∧ Lh ∧ Lw
      · rw [if_pos hL, if_pos (by tauto)]
      · rw [if_neg hL, if_neg (by tauto)]

/-- The sum over the positions with given multiples in three dimensions has at most one term, found by division. -/
theorem sum_range_multiples {nd nh nw sd sh sw : ℕ} (hsd : 0 < sd) (hsh : 0 < sh) (hsw : 0 < sw) (zd zh zw : ℤ)
    (f : ℕ → ℕ → ℕ → M) :
    ∑ d ∈ Finset.range nd, ∑ h ∈ Finset.range nh, ∑ w ∈ Finset.range nw,
        (if (d : ℤ) * sd = zd ∧ (h : ℤ) * sh = zh ∧ (w : ℤ) * sw = zw then f d h w else 0) =
      if zw < 0 ∨ zh < 0 ∨ zd < 0 then 0
      else if zw.tmod sw ≠ 0 ∨ zh.tmod sh ≠ 0 ∨ zd.tmod sd ≠ 0 then 0
      else if zd.tdiv sd < nd ∧ zh.tdiv sh < nh ∧ zw.tdiv sw < nw then
        f (zd.tdiv sd).toNat (zh.tdiv sh).toNat (zw.tdiv sw).toNat
      else 0 := by
  have hnest : ∀ d h w : ℕ, (if (d : ℤ) * sd = zd ∧ (h : ℤ) * sh = zh ∧ (w : ℤ) * sw = zw then f d h w else 0) =
      if (d : ℤ) * sd = zd then if (h : ℤ) * sh = zh then if (w : ℤ) * sw = zw then f d h w else 0 else 0 else 0 := by
    intro d h w
    rw [← ite_and, ← ite_and]
    exact if_congr and_assoc.symm rfl rfl
  have hrow : ∀ d : ℕ, ∑ h ∈ Finset.range nh, ∑ w ∈ Finset.range nw,
      (if (d : ℤ) * sd = zd then if (h : ℤ) * sh = zh then if (w : ℤ) * sw = zw then f d h w else 0 else 0 else 0) =
        if (d : ℤ) * sd = zd then
          ∑ h ∈ Finset.range nh, (if (h : ℤ) * sh = zh then
            ∑ w ∈ Finset.range nw, (if (w : ℤ) * sw = zw then f d h w else 0) else 0) else 0 := by
    intro d
    split_ifs with hd
    · apply Finset.sum_congr rfl
      intro h _
      split_ifs
      · rfl
      · exact Finset.sum_const_zero
    · simp
  simp only [hnest, hrow]
  rw [sum_range_multiple hsd, sum_range_multiple hsh, sum_range_multiple hsw]
  simp only [← not_lt]
  exact ite_positions _

/-! ## Tensors -/

/-- The indices of three nested loops. -/
def box3 (a b c : ℕ) : Finset (ℕ × ℕ × ℕ) := Finset.range a ×ˢ Finset.range b ×ˢ Finset.range c

theorem mem_box3 {a b c : ℕ} {p : ℕ × ℕ × ℕ} : p ∈ box3 a b c ↔ p.1 < a ∧ p.2.1 < b ∧ p.2.2 < c := by
  simp [box3]

theorem sum_box3 (a b c : ℕ) (f : ℕ → ℕ → ℕ → M) :
    ∑ i ∈ Finset.range a, ∑ j ∈ Finset.range b, ∑ k ∈ Finset.range c, f i j k = ∑ p ∈ box3 a b c, f p.1 p.2.1 p.2.2 := by
  simp only [box3, Finset.sum_product]

/-- Three nested loops, each over the indices with a property. -/
theorem sum_box3_ite {P Q S : ℕ → Prop} [DecidablePred P] [DecidablePred Q] [DecidablePred S] (a b c : ℕ)
    (f : ℕ → ℕ → ℕ → M) :
    (∑ i ∈ Finset.range a, if P i then ∑ j ∈ Finset.range b, if Q j then ∑ k ∈ Finset.range c, if S k then f i j k else 0
      else 0 else 0) = ∑ p ∈ box3 a b c, if P p.1 ∧ Q p.2.1 ∧ S p.2.2 then f p.1 p.2.1 p.2.2 else 0 := by
  rw [← sum_box3 a b c fun i j k => if P i ∧ Q j ∧ S k then f i j k else 0]
  refine Finset.sum_congr rfl fun i _ => ?_
  by_cases hP : P i
  · rw [if_pos hP]
    refine Finset.sum_congr rfl fun j _ => ?_
    by_cases hQ : Q j
    · rw [if_pos hQ]
      simp only [hP, hQ, true_and]
    · rw [if_neg hQ]
      simp [hQ]
  · rw [if_neg hP]
    simp [hP]

/-- The sum over the positions of a tensor with the given extents. -/
def sumPositions : List ℕ → (List ℕ → M) → M
  | [], f => f []
  | d :: ds, f => ∑ i ∈ Finset.range d, sumPositions ds fun p => f (i :: p)

@[simp] theorem sumPositions_nil (f : List ℕ → M) : sumPositions [] f = f [] := rfl

@[simp] theorem sumPositions_cons (d : ℕ) (ds : List ℕ) (f : List ℕ → M) :
    sumPositions (d :: ds) f = ∑ i ∈ Finset.range d, sumPositions ds fun p => f (i :: p) := rfl

theorem sumPositions_zero (ds : List ℕ) : sumPositions ds (fun _ => (0 : M)) = 0 := by
  induction ds with
  | nil => rfl
  | cons d ds ih =>
    rw [sumPositions_cons]
    exact Finset.sum_eq_zero fun i _ => ih

/-- The sum over one position. -/
theorem sumPositions_single {ds p : List ℕ} (hp : List.Forall₂ (· < ·) p ds) (f : List ℕ → M)
    (hf : ∀ q, q ≠ p → f q = 0) : sumPositions ds f = f p := by
  induction hp generalizing f with
  | nil => rfl
  | @cons i d p ds hi _ ih =>
    rw [sumPositions_cons, Finset.sum_eq_single i]
    · apply ih fun q => f (i :: q)
      intro q hq
      apply hf
      intro heq
      exact hq (List.cons.inj heq).2
    · intro j _ hj
      have hzero : ∀ q, f (j :: q) = 0 := fun q => hf _ fun heq => hj (List.cons.inj heq).1
      simp only [hzero]
      exact sumPositions_zero ds
    · intro hnot
      exact absurd (Finset.mem_range.mpr hi) hnot

/-- A loop over blocks of a dimension and over the elements of a block. -/
theorem sum_range_blocks (n m : ℕ) (f : ℕ → M) :
    ∑ c ∈ Finset.range (n * m), f c = ∑ i ∈ Finset.range n, ∑ j ∈ Finset.range m, f (i * m + j) := by
  rw [sum_range_mul]
  apply Finset.sum_congr rfl
  intro s _
  rw [Nat.div_add_mod']

end LoopNest
