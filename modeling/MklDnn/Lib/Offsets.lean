import Mathlib.Algebra.BigOperators.Group.Finset.Basic
import Mathlib.Algebra.Module.BigOperators
import Mathlib.Data.Multiset.Bind
import Mathlib.Tactic.Ring

/-!
# Multisets of offsets

The offsets visited by a nest of loops `for i1 < n1, .., for ik < nk` at `i1 • s1 + .. + ik • sk`,
counted with multiplicity. The nest of two loops is the Minkowski sum of the offsets of the loops, so
offsets form a commutative monoid: reordering the loops of a nest is commutativity, and splitting or
fusing neighbouring loops is the single equation `strided_mul`.
-/

namespace LoopNest

/-- Two nested loops are one loop over the products of their extents. -/
theorem flatMap_range_map {β : Type*} (m : ℕ) (g : ℕ → ℕ → β) (k : ℕ) :
    ((List.range k).flatMap fun q => (List.range m).map (g q)) =
      (List.range (k * m)).map fun l => g (l / m) (l % m) := by
  induction k with
  | zero => simp
  | succ k ih =>
    rw [List.range_succ, List.flatMap_append, ih, Nat.succ_mul, List.range_add, List.map_append,
      List.map_map]
    congr 1
    simp only [List.flatMap_cons, List.flatMap_nil, List.append_nil]
    refine List.map_congr_left fun i hi => ?_
    have hi : i < m := List.mem_range.mp hi
    have hdiv : (k * m + i) / m = k := by
      rw [Nat.mul_comm, Nat.mul_add_div (by omega), Nat.div_eq_of_lt hi, Nat.add_zero]
    have hmod : (k * m + i) % m = i := by
      rw [Nat.mul_comm, Nat.mul_add_mod, Nat.mod_eq_of_lt hi]
    simp only [Function.comp, hdiv, hmod]

/-- A loop in blocks, the last of which may be shorter. -/
theorem range_eq_blocks {n m k : ℕ} (hk : n ≤ k * m) :
    List.range n = (List.range k).flatMap fun b => (List.range (min m (n - b * m))).map (b * m + ·) := by
  have hpart : ∀ k, ((List.range k).flatMap fun b => (List.range (min m (n - b * m))).map (b * m + ·)) =
      List.range (min n (k * m)) := by
    intro k
    induction k with
    | zero => simp
    | succ k ih =>
      rw [List.range_succ, List.flatMap_append, ih, List.flatMap_cons, List.flatMap_nil, List.append_nil]
      rcases Nat.le_total n (k * m) with hle | hle
      · have hzero : n - k * m = 0 := by omega
        have hnext : n ≤ (k + 1) * m := hle.trans (Nat.mul_le_mul_right m (Nat.le_succ k))
        rw [hzero, Nat.min_zero, List.range_zero, List.map_nil, List.append_nil, Nat.min_eq_left hle, Nat.min_eq_left hnext]
      · have hsum : min n ((k + 1) * m) = k * m + min m (n - k * m) := by
          rw [Nat.succ_mul]
          omega
        rw [Nat.min_eq_right hle, hsum, List.range_add]
  rw [hpart k, Nat.min_eq_left hk]

/-- Two nested loops in the opposite order visit the same. -/
theorem flatMap_comm_perm {α β γ : Type*} (l : List α) (l' : List β) (f : α → β → List γ) :
    (l.flatMap fun a => l'.flatMap fun b => f a b).Perm (l'.flatMap fun b => l.flatMap fun a => f a b) := by
  rw [← Multiset.coe_eq_coe]
  simp only [← Multiset.coe_bind]
  exact Multiset.bind_bind _ _

/-- A loop over the elements of pieces, with a loop between pieces and elements, is the loop over all elements. -/
theorem flatMap_pieces_perm {α β γ ι : Type*} {l : List ι} {piece : ι → List β} {whole : List β}
    (h : l.flatMap piece = whole) (m : List α) (f : α → β → List γ) :
    (l.flatMap fun i => m.flatMap fun a => (piece i).flatMap fun b => f a b).Perm
      (m.flatMap fun a => whole.flatMap fun b => f a b) := by
  refine (flatMap_comm_perm l m _).trans (List.Perm.of_eq ?_)
  refine List.flatMap_congr fun a _ => ?_
  rw [← h, List.flatMap_assoc]

/-- A loop over a product is two nested loops. -/
theorem flatMap_range_mul {β : Type*} (k m : ℕ) (f : ℕ → List β) :
    (List.range (k * m)).flatMap f = (List.range k).flatMap fun q => (List.range m).flatMap fun r => f (q * m + r) := by
  have hloops : List.range (k * m) = (List.range k).flatMap fun q => (List.range m).map (q * m + ·) := by
    rw [flatMap_range_map m (fun q r => q * m + r) k]
    conv_lhs => rw [← List.map_id (List.range (k * m))]
    exact List.map_congr_left fun l _ => (Nat.div_add_mod' l m).symm
  rw [hloops, List.flatMap_assoc]
  simp only [List.flatMap_map]

section Visits

variable {M : Type*} [AddCommMonoid M]

/-- The offsets that a loop of `n` iterations visits in order, where iteration `x` starts at `v x` and
visits the offsets `R` from there. -/
def nestVisits (n : ℕ) (v : ℕ → M) (R : List M) : List M :=
  (List.range n).flatMap fun x => R.map (v x + ·)

theorem nestVisits_one {v : ℕ → M} (h : v 0 = 0) (R : List M) : nestVisits 1 v R = R := by
  simp [nestVisits, h]

theorem nestVisits_singleton (n : ℕ) (v : ℕ → M) : nestVisits n v [0] = (List.range n).map v := by
  rw [nestVisits, List.map_eq_flatMap]
  exact List.flatMap_congr fun x _ => by rw [List.map_cons, List.map_nil, add_zero]

/-- A loop over quotient and remainder is two nested loops. -/
theorem nestVisits_mul {n m : ℕ} {v w : ℕ → M} {s : M} {R : List M}
    (h : ∀ q < n, ∀ r < m, v (q * m + r) = q • s + w r) :
    nestVisits (n * m) v R = nestVisits n (fun q => q • s) (nestVisits m w R) := by
  have hloops : List.range (n * m) = (List.range n).flatMap fun q => (List.range m).map (q * m + ·) := by
    rw [flatMap_range_map m (fun q r => q * m + r) n]
    exact ((List.map_congr_left fun l _ => by rw [Nat.mul_comm]; exact Nat.div_add_mod l m).trans
      (List.map_id' _)).symm
  rw [nestVisits, hloops, List.flatMap_assoc, nestVisits]
  refine List.flatMap_congr fun q hq => ?_
  rw [List.flatMap_map, nestVisits, List.map_flatMap]
  refine List.flatMap_congr fun r hr => ?_
  rw [List.map_map]
  refine List.map_congr_left fun x _ => ?_
  rw [h q (List.mem_range.mp hq) r (List.mem_range.mp hr), Function.comp, add_assoc]

/-- Loops around a nest visit the offsets of the nest from each of their own. -/
theorem foldr_nestVisits (l : List ℕ) (n : ℕ → ℕ) (v : ℕ → ℕ → M) (R : List M) :
    l.foldr (fun d => nestVisits (n d) (v d)) R =
      (l.foldr (fun d => nestVisits (n d) (v d)) [0]).flatMap fun a => R.map (a + ·) := by
  induction l with
  | nil => simp
  | cons d l ih =>
    rw [List.foldr_cons, List.foldr_cons, ih, nestVisits, nestVisits, List.flatMap_assoc]
    refine List.flatMap_congr fun x _ => ?_
    rw [List.map_flatMap, List.flatMap_map]
    refine List.flatMap_congr fun a _ => ?_
    rw [List.map_map]
    exact List.map_congr_left fun r _ => (add_assoc _ _ _).symm

end Visits

/-- The offsets visited by a loop nest, with multiplicity. -/
@[ext]
structure Offsets (M : Type*) where
  /-- The visited offsets. -/
  visits : Multiset M

namespace Offsets

variable {M N α : Type*}

/-- The offsets `f x` of a loop over the elements `x` of a list. -/
def ofList (l : List α) (f : α → M) : Offsets M := ⟨((l.map f : List M) : Multiset M)⟩

@[simp] theorem visits_ofList (l : List α) (f : α → M) :
    (ofList l f).visits = ((l.map f : List M) : Multiset M) := rfl

theorem ofList_congr {l : List α} {f g : α → M} (h : ∀ x ∈ l, f x = g x) :
    ofList l f = ofList l g := by
  rw [ofList, List.map_congr_left h, ofList]

theorem ofList_map {β : Type*} (l : List β) (g : β → α) (f : α → M) :
    ofList (l.map g) f = ofList l fun x => f (g x) := by
  simp [ofList, Function.comp_def]

/-- Two loops with the same offsets visit them in a different order only. -/
theorem ofList_eq_iff {β : Type*} {l : List α} {l' : List β} {f : α → M} {g : β → M} :
    ofList l f = ofList l' g ↔ (l.map f).Perm (l'.map g) := by
  rw [Offsets.ext_iff, visits_ofList, visits_ofList, Multiset.coe_eq_coe]

section Monoid

variable [AddCommMonoid M]

/-- The nest that only visits the offset `0`. -/
instance : One (Offsets M) := ⟨⟨{0}⟩⟩

/-- The offsets of a loop nest whose outer loops visit `A` and whose inner loops visit `B`. -/
instance : Mul (Offsets M) := ⟨fun A B => ⟨A.visits.bind fun a => B.visits.map (a + ·)⟩⟩

@[simp] theorem visits_one : (1 : Offsets M).visits = {0} := rfl

@[simp] theorem visits_mul (A B : Offsets M) :
    (A * B).visits = A.visits.bind fun a => B.visits.map (a + ·) := rfl

instance : CommMonoid (Offsets M) where
  mul_assoc A B C := by
    ext1
    simp only [visits_mul, Multiset.bind_assoc]
    refine Multiset.bind_congr fun a _ => ?_
    rw [Multiset.bind_map, Multiset.map_bind]
    refine Multiset.bind_congr fun b _ => ?_
    rw [Multiset.map_map]
    exact Multiset.map_congr rfl fun c _ => add_assoc a b c
  one_mul A := by
    ext1
    simp
  mul_one A := by
    ext1
    simp only [visits_mul, visits_one, Multiset.map_singleton, add_zero]
    exact (Multiset.bind_singleton A.visits id).trans (Multiset.map_id _)
  mul_comm A B := by
    ext1
    simp only [visits_mul]
    rw [Multiset.bind_map_comm]
    refine Multiset.bind_congr fun b _ => Multiset.map_congr rfl fun a _ => add_comm a b

/-- Two nested loops: the outer one over `l`, the inner one over `l'`. -/
theorem ofList_flatMap {β γ : Type*} (l : List α) (l' : List β) (c : α → β → γ) (h : γ → M)
    (f : α → M) (g : β → M) (hc : ∀ a ∈ l, ∀ b ∈ l', h (c a b) = f a + g b) :
    ofList (l.flatMap fun a => l'.map (c a)) h = ofList l f * ofList l' g := by
  ext1
  rw [visits_mul, visits_ofList, visits_ofList, visits_ofList, ← Multiset.map_coe f,
    Multiset.bind_map, List.map_flatMap, ← Multiset.coe_bind]
  refine Multiset.bind_congr fun a ha => ?_
  rw [Multiset.map_coe, List.map_map, List.map_map]
  exact congrArg _ (List.map_congr_left fun b hb => hc a ha b hb)

/-- A loop over quotient and remainder, whose offset is a sum of a term of each. -/
theorem ofList_range_mul (n m : ℕ) {f g h : ℕ → M}
    (hf : ∀ q < n, ∀ r < m, f (q * m + r) = g q + h r) :
    ofList (List.range (n * m)) f = ofList (List.range n) g * ofList (List.range m) h := by
  have hloops : ((List.range n).flatMap fun q => (List.range m).map (q * m + ·)) =
      List.range (n * m) := by
    rw [flatMap_range_map m (fun q r => q * m + r) n]
    exact (List.map_congr_left fun l _ => by rw [Nat.mul_comm]; exact Nat.div_add_mod l m).trans
      (List.map_id' _)
  rw [← hloops]
  exact ofList_flatMap _ _ (fun q r => q * m + r) _ _ _ fun q hq r hr =>
    hf q (List.mem_range.mp hq) r (List.mem_range.mp hr)

/-- The offsets of one loop of `n` iterations whose iterations lie `s` apart. -/
def strided (n : ℕ) (s : M) : Offsets M := ofList (List.range n) fun i => i • s

@[simp] theorem strided_one (s : M) : strided 1 s = 1 := by
  ext1
  simp [strided]

/-- A loop of `n * m` iterations is a loop of `n` iterations over blocks of `m`. -/
theorem strided_mul (n m : ℕ) (s : M) : strided (n * m) s = strided n (m • s) * strided m s :=
  ofList_range_mul n m fun q _ r _ => by rw [add_smul, mul_smul]

/-- The offsets of a nest of loops, each given by its number of iterations and its stride. -/
def nest (l : List (ℕ × M)) : Offsets M := (l.map fun x => strided x.1 x.2).prod

@[simp] theorem nest_nil : nest ([] : List (ℕ × M)) = 1 := rfl

@[simp] theorem nest_cons (x : ℕ × M) (l : List (ℕ × M)) :
    nest (x :: l) = strided x.1 x.2 * nest l := by
  simp [nest]

@[simp] theorem nest_append (l l' : List (ℕ × M)) : nest (l ++ l') = nest l * nest l' := by
  simp [nest]

theorem card_strided (n : ℕ) (s : M) : (strided n s).visits.card = n := by
  simp [strided]

/-- The number of iterations of a nest of loops. -/
theorem card_nest (l : List (ℕ × M)) : (nest l).visits.card = (l.map Prod.fst).prod := by
  induction l with
  | nil => rfl
  | cons x l ih =>
    rw [nest_cons, visits_mul, Multiset.card_bind]
    simp [card_strided, ih]

theorem nest_perm {l l' : List (ℕ × M)} (h : l.Perm l') : nest l = nest l' :=
  (h.map _).prod_eq

end Monoid

section Map

variable [AddCommMonoid M] [AddCommMonoid N] (φ : M →+ N)

/-- The image of the offsets under a homomorphism. -/
def map (A : Offsets M) : Offsets N := ⟨A.visits.map φ⟩

@[simp] theorem map_one : map φ 1 = 1 := by
  ext1
  simp [map]

@[simp] theorem map_mul (A B : Offsets M) : map φ (A * B) = map φ A * map φ B := by
  ext1
  simp only [map, visits_mul, Multiset.map_bind, Multiset.bind_map, Multiset.map_map]
  refine Multiset.bind_congr fun a _ => Multiset.map_congr rfl fun b _ => map_add φ a b

theorem map_prod_range (n : ℕ) (A : ℕ → Offsets M) :
    map φ (∏ i ∈ Finset.range n, A i) = ∏ i ∈ Finset.range n, map φ (A i) := by
  induction n with
  | zero => simp
  | succ n ih => rw [Finset.prod_range_succ, Finset.prod_range_succ, map_mul, ih]

theorem map_ofList (l : List α) (f : α → M) : map φ (ofList l f) = ofList l fun x => φ (f x) := by
  ext1
  simp [map, Function.comp_def]

theorem map_strided (n : ℕ) (s : M) : map φ (strided n s) = strided n (φ s) := by
  rw [strided, map_ofList, strided]
  exact ofList_congr fun i _ => map_nsmul φ i s

theorem map_nest (l : List (ℕ × M)) : map φ (nest l) = nest (l.map fun x => (x.1, φ x.2)) := by
  induction l with
  | nil => simp
  | cons x l ih => rw [nest_cons, map_mul, map_strided, ih, List.map_cons, nest_cons]

end Map

/-- A loop with unit stride visits the first `n` integers. -/
theorem strided_unit (n : ℕ) : strided n (1 : ℤ) = ofList (List.range n) fun i => (i : ℤ) := by
  ext1
  simp [strided]

end Offsets

end LoopNest
