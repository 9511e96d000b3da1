import Mathlib.Algebra.Group.Hom.Defs
import Mathlib.Algebra.Group.Hom.Instances
import Mathlib.Tactic.Abel
import MklDnn.Lib.Offsets

/-!
# Loops that move a register

A piece of code visits addresses relative to a register and moves the register. A loop around it adds its step after every
pass and takes the total off at the end. Whatever the code leaves in the register adds to the step of the next loop.
-/

namespace RegisterLoops

open LoopNest

variable {A B : Type*} [AddCommGroup A] [AddCommGroup B]

/-- The passes of a loop, after each of which the register goes on by `step`. -/
def passes (step : A) (code : A → List A × A) : ℕ → A → List A × A
  | 0, r => ([], r)
  | n + 1, r =>
    let (visits, r) := code r
    let (rest, r) := passes step code n (r + step)
    (visits ++ rest, r)

/-- Code that visits the addresses `offs` from its register on, which it moves by `move`. -/
def Walks (code : A → List A × A) (offs : List A) (move : A) : Prop :=
  ∀ r, code r = (offs.map (r + ·), r + move)

/-- The addresses of `k` passes at a distance of `a`. -/
def rounds (offs : List A) (a : A) (k : ℕ) : List A := (List.range k).flatMap fun i => offs.map (i • a + ·)

/-- The addresses of a nest of loops, given by the number of passes and the distance, the innermost loop first. -/
def nest (offs : List A) (loops : List (ℕ × A)) : List A := loops.foldl (fun offs l => rounds offs l.2 l.1) offs

/-- The address of an iteration of a nest, the digits of which are the counters of the loops. -/
def nestOff : List (ℕ × A) → ℕ → A
  | [], _ => 0
  | l :: loops, i => (i % l.1) • l.2 + nestOff loops (i / l.1)

/-! ## Rounds -/

variable {offs offs' : List A} {a a' : A} {k m : ℕ}

@[simp] theorem length_rounds : (rounds offs a k).length = k * offs.length := by
  simp [rounds, List.length_flatMap, List.map_const', List.sum_replicate]

@[simp] theorem rounds_one : rounds offs a 1 = offs := by simp [rounds, List.range_succ]

theorem rounds_succ : rounds offs a (k + 1) = offs ++ (rounds offs a k).map (a + ·) := by
  unfold rounds
  rw [List.range_succ_eq_map, List.flatMap_cons, List.flatMap_map, List.map_flatMap]
  congr 1
  · simp
  · refine List.flatMap_congr fun i _ => ?_
    rw [List.map_map]
    refine List.map_congr_left fun x _ => ?_
    show (i + 1) • a + x = a + (i • a + x)
    rw [succ_nsmul]
    abel

/-- A loop that is split in two. -/
theorem rounds_rounds : rounds (rounds offs a k) (k • a) m = rounds offs a (m * k) := by
  unfold rounds
  rw [flatMap_range_mul]
  refine List.flatMap_congr fun q _ => ?_
  rw [List.map_flatMap]
  refine List.flatMap_congr fun r _ => ?_
  rw [List.map_map]
  refine List.map_congr_left fun x _ => ?_
  show q • k • a + (r • a + x) = (q * k + r) • a + x
  rw [add_nsmul, mul_nsmul', add_assoc]

theorem map_rounds (f : A →+ B) : (rounds offs a k).map f = rounds (offs.map f) (f a) k := by
  unfold rounds
  rw [List.map_flatMap]
  refine List.flatMap_congr fun i _ => ?_
  rw [List.map_map, List.map_map]
  refine List.map_congr_left fun x _ => ?_
  show f (i • a + x) = i • f a + f x
  rw [map_add, map_nsmul]

theorem head?_rounds (h : offs.head? = some 0) (hk : 0 < k) : (rounds offs a k).head? = some 0 := by
  obtain ⟨k, rfl⟩ := Nat.exists_eq_add_of_lt hk
  rw [Nat.zero_add, rounds_succ, List.head?_append, h]
  rfl

/-- The first addresses of the first two passes tell the distance. -/
theorem rounds_eq_iff (hlen : offs.length = offs'.length) (h : offs.head? = some 0) (h' : offs'.head? = some 0) (hk : 0 < k) :
    rounds offs a k = rounds offs' a' k ↔ offs = offs' ∧ (2 ≤ k → a = a') := by
  obtain ⟨k, rfl⟩ : ∃ j, k = j + 1 := ⟨k - 1, by omega⟩
  constructor
  · intro heq
    rw [rounds_succ, rounds_succ] at heq
    obtain ⟨hoffs, hrest⟩ := List.append_inj heq hlen
    refine ⟨hoffs, fun hk2 => ?_⟩
    have hhead := congrArg List.head? hrest
    rw [List.head?_map, List.head?_map, head?_rounds h (by omega), head?_rounds h' (by omega)] at hhead
    simpa using hhead
  · rintro ⟨rfl, ha⟩
    rcases Nat.eq_zero_or_pos k with rfl | hpos
    · rw [rounds_one, rounds_one]
    · rw [ha (by omega)]

/-! ## Nests -/

@[simp] theorem nest_nil : nest offs [] = offs := rfl

@[simp] theorem nest_cons (l : ℕ × A) (loops : List (ℕ × A)) : nest offs (l :: loops) = nest (rounds offs l.2 l.1) loops := rfl

theorem nest_append (loops loops' : List (ℕ × A)) : nest offs (loops ++ loops') = nest (nest offs loops) loops' :=
  List.foldl_append

theorem length_nest (loops : List (ℕ × A)) : (nest offs loops).length = (loops.map Prod.fst).prod * offs.length := by
  induction loops generalizing offs with
  | nil => simp
  | cons l loops ih =>
    rw [nest_cons, ih, length_rounds, List.map_cons, List.prod_cons]
    ring

theorem map_nest (f : A →+ B) (loops : List (ℕ × A)) :
    (nest offs loops).map f = nest (offs.map f) (loops.map fun l => (l.1, f l.2)) := by
  induction loops generalizing offs with
  | nil => rfl
  | cons l loops ih => rw [nest_cons, ih, map_rounds, List.map_cons, nest_cons]

/-- The iterations in their order. -/
theorem nest_map_range (loops : List (ℕ × A)) (f : ℕ → A) : nest ((List.range m).map f) loops =
    (List.range ((loops.map Prod.fst).prod * m)).map fun i => f (i % m) + nestOff loops (i / m) := by
  induction loops generalizing m f with
  | nil =>
    simp only [nest_nil, List.map_nil, List.prod_nil, one_mul, nestOff, add_zero]
    exact List.map_congr_left fun i hi => by rw [Nat.mod_eq_of_lt (List.mem_range.mp hi)]
  | cons l loops ih =>
    have hrounds : rounds ((List.range m).map f) l.2 l.1 =
        (List.range (l.1 * m)).map fun i => (i / m) • l.2 + f (i % m) := by
      unfold rounds
      rw [← flatMap_range_map m fun q r => q • l.2 + f r]
      simp only [List.map_map]
      rfl
    rw [nest_cons, hrounds, ih, List.map_cons, List.prod_cons, Nat.mul_left_comm, Nat.mul_assoc]
    refine List.map_congr_left fun i _ => ?_
    rw [Nat.mod_mul_left_div_self, Nat.mod_mul_left_mod, Nat.mul_comm l.1, ← Nat.div_div_eq_div_mul]
    show _ = f (i % m) + ((i / m % l.1) • l.2 + nestOff loops (i / m / l.1))
    abel

theorem nest_zero (loops : List (ℕ × A)) :
    nest [0] loops = (List.range (loops.map Prod.fst).prod).map (nestOff loops) := by
  have h := nest_map_range (m := 1) loops fun _ => 0
  simpa [List.range_succ] using h

@[simp] theorem nestOff_zero (loops : List (ℕ × A)) : nestOff loops 0 = 0 := by
  induction loops with
  | nil => rfl
  | cons l loops ih => simp [nestOff, ih]

/-- The iterations of a part of a loop are the first ones of the loop. -/
theorem nestOff_part {pre post : List (ℕ × A)} {l n i : ℕ} (hl : l ≤ n) (hpos : ∀ x ∈ pre, 0 < x.1)
    (hi : i < (pre.map Prod.fst).prod * l) : nestOff (pre ++ (n, a) :: post) i = nestOff (pre ++ [(l, a)]) i := by
  induction pre generalizing i with
  | nil =>
    have hil : i < l := by simpa using hi
    simp [nestOff, Nat.mod_eq_of_lt hil, Nat.mod_eq_of_lt (hil.trans_le hl), Nat.div_eq_of_lt (hil.trans_le hl)]
  | cons x pre ih =>
    have hx : 0 < x.1 := hpos x List.mem_cons_self
    have hlt : i / x.1 < (pre.map Prod.fst).prod * l := by
      rw [Nat.div_lt_iff_lt_mul hx, Nat.mul_right_comm]
      rwa [List.map_cons, List.prod_cons, Nat.mul_comm x.1] at hi
    show (i % x.1) • x.2 + nestOff (pre ++ (n, a) :: post) (i / x.1) = (i % x.1) • x.2 + nestOff (pre ++ [(l, a)]) (i / x.1)
    rw [ih (fun y hy => hpos y (List.mem_cons_of_mem x hy)) hlt]

/-- Nests of loops with the same numbers of passes visit the same addresses exactly if the loops that repeat keep the same
distances. -/
theorem nest_eq_iff {loops : List (ℕ × A × A)} (hlen : offs.length = offs'.length) (h : offs.head? = some 0)
    (h' : offs'.head? = some 0) (hpos : ∀ l ∈ loops, 0 < l.1) :
    nest offs (loops.map fun l => (l.1, l.2.1)) = nest offs' (loops.map fun l => (l.1, l.2.2)) ↔
      offs = offs' ∧ ∀ l ∈ loops, 2 ≤ l.1 → l.2.1 = l.2.2 := by
  induction loops generalizing offs offs' with
  | nil => simp
  | cons l loops ih =>
    have hl : 0 < l.1 := hpos l List.mem_cons_self
    have hrest := ih (by rw [length_rounds, length_rounds, hlen]) (head?_rounds (a := l.2.1) h hl)
      (head?_rounds (a := l.2.2) h' hl) fun x hx => hpos x (List.mem_cons_of_mem l hx)
    rw [List.map_cons, List.map_cons, nest_cons, nest_cons, hrest, rounds_eq_iff hlen h h' hl, List.forall_mem_cons, and_assoc]

/-! ## Code -/

variable {code : A → List A × A} {move step : A}

/-- What the body leaves in the register adds to the step. -/
theorem Walks.passes (h : Walks code offs move) (n : ℕ) :
    Walks (passes step code n) (rounds offs (move + step) n) (n • (move + step)) := by
  intro r
  induction n generalizing r with
  | zero => simp [RegisterLoops.passes, rounds]
  | succ n ih =>
    unfold RegisterLoops.passes
    dsimp only
    rw [h r, ih, rounds_succ, List.map_append, List.map_map]
    have hvisits : (rounds offs (move + step) n).map (r + move + step + ·) =
        (rounds offs (move + step) n).map ((r + ·) ∘ (move + step + ·)) := by
      refine List.map_congr_left fun x _ => ?_
      show r + move + step + x = r + (move + step + x)
      abel
    have hreg : r + move + step + n • (move + step) = r + (n + 1) • (move + step) := by
      rw [succ_nsmul]
      abel
    rw [hvisits, hreg]

/-- The total is taken off after the last pass. -/
theorem Walks.sub (h : Walks code offs move) (total : A) :
    Walks (fun r => ((code r).1, (code r).2 - total)) offs (move - total) := by
  intro r
  show ((code r).1, (code r).2 - total) = _
  rw [h r, add_sub_assoc]

end RegisterLoops
