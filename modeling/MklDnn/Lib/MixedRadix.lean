import Mathlib.Algebra.BigOperators.Group.List.Basic
import Mathlib.Data.List.Forall2
import Mathlib.Data.Nat.Notation
import Mathlib.Data.Set.Function
import Mathlib.Tactic.Linarith

/-!
# Mixed radix

The number with given digits, where every digit has a radix of its own. The first digit is the most significant one.
-/

namespace MixedRadix

/-- The quotient of the number with two given digits. -/
theorem mul_add_div {q r b : ℕ} (hr : r < b) : (q * b + r) / b = q := by
  rw [Nat.mul_comm, Nat.mul_add_div (by omega), Nat.div_eq_of_lt hr, Nat.add_zero]

/-- The remainder of the number with two given digits. -/
theorem mul_add_mod {q r b : ℕ} (hr : r < b) : (q * b + r) % b = r := by
  rw [Nat.mul_comm, Nat.mul_add_mod, Nat.mod_eq_of_lt hr]

/-- A number has only one pair of digits. -/
theorem mul_add_inj {q r q' r' b : ℕ} (hr : r < b) (hr' : r' < b) (h : q * b + r = q' * b + r') : q = q' ∧ r = r' := by
  have hdiv : (q * b + r) / b = (q' * b + r') / b := by rw [h]
  have hmod : (q * b + r) % b = (q' * b + r') % b := by rw [h]
  rw [mul_add_div hr, mul_add_div hr'] at hdiv
  rw [mul_add_mod hr, mul_add_mod hr'] at hmod
  exact ⟨hdiv, hmod⟩

/-- The number with the digits `xs` for the radices `ds`. -/
def value : List ℕ → List ℕ → ℕ
  | x :: xs, _ :: ds => x * ds.prod + value xs ds
  | _, _ => 0

/-- Every digit is below its radix. -/
def digits (ds : List ℕ) : Set (List ℕ) := {xs | List.Forall₂ (· < ·) xs ds}

@[simp] theorem value_nil : value [] [] = 0 := rfl

@[simp] theorem value_cons (x d : ℕ) (xs ds : List ℕ) : value (x :: xs) (d :: ds) = x * ds.prod + value xs ds := rfl

/-- The numbers with one digit. -/
theorem digits_singleton {n : ℕ} {idx : List ℕ} : idx ∈ digits [n] ↔ ∃ e < n, idx = [e] := by
  constructor
  · rintro (_ | ⟨he, hnil⟩)
    rw [List.forall₂_nil_right_iff] at hnil
    exact ⟨_, he, by rw [hnil]⟩
  · rintro ⟨e, he, rfl⟩
    exact List.Forall₂.cons he List.Forall₂.nil

/-- The numbers with two digits. -/
theorem digits_pair {n m : ℕ} {idx : List ℕ} : idx ∈ digits [n, m] ↔ ∃ x < n, ∃ y < m, idx = [x, y] := by
  constructor
  · rintro (_ | ⟨hx, hrest⟩)
    obtain ⟨y, hy, rfl⟩ := digits_singleton.mp hrest
    exact ⟨_, hx, y, hy, rfl⟩
  · rintro ⟨x, hx, y, hy, rfl⟩
    exact List.Forall₂.cons hx (digits_singleton.mpr ⟨y, hy, rfl⟩)

/-- The numbers with three digits. -/
theorem digits_triple {n m k : ℕ} {idx : List ℕ} : idx ∈ digits [n, m, k] ↔ ∃ x < n, ∃ y < m, ∃ z < k, idx = [x, y, z] := by
  constructor
  · rintro (_ | ⟨hx, hrest⟩)
    obtain ⟨y, hy, z, hz, rfl⟩ := digits_pair.mp hrest
    exact ⟨_, hx, y, hy, z, hz, rfl⟩
  · rintro ⟨x, hx, y, hy, z, hz, rfl⟩
    exact List.Forall₂.cons hx (digits_pair.mpr ⟨y, hy, z, hz, rfl⟩)

theorem value_lt {xs ds : List ℕ} (h : xs ∈ digits ds) : value xs ds < ds.prod := by
  induction h with
  | nil => exact Nat.one_pos
  | @cons x d xs ds hx hxs ih =>
    rw [value_cons, List.prod_cons]
    calc x * ds.prod + value xs ds < x * ds.prod + ds.prod := Nat.add_lt_add_left ih _
      _ = (x + 1) * ds.prod := (Nat.succ_mul x _).symm
      _ ≤ d * ds.prod := Nat.mul_le_mul_right _ hx

theorem injOn_value (ds : List ℕ) : Set.InjOn (fun xs => value xs ds) (digits ds) := by
  intro xs hxs ys hys heq
  induction hxs generalizing ys with
  | nil =>
    cases hys
    rfl
  | @cons x d xs ds hx hxs ih =>
    cases hys with
    | @cons y _ ys _ hy hys =>
      simp only [value_cons] at heq
      have hlt : value xs ds < ds.prod := value_lt hxs
      have hlt' : value ys ds < ds.prod := value_lt hys
      have hhead : x = y := by
        have hdiv := congrArg (· / ds.prod) heq
        rwa [mul_add_div hlt, mul_add_div hlt'] at hdiv
      subst hhead
      rw [ih hys (Nat.add_left_cancel heq)]

/-- Two digits: the quotient and the remainder. -/
theorem div_lt_of_dvd {x n b : ℕ} (hdvd : b ∣ n) (hx : x < n) : x / b < n / b := by
  have hb : 0 < b := Nat.pos_of_ne_zero fun h0 => by
    subst h0
    rw [zero_dvd_iff] at hdvd
    omega
  rw [Nat.div_lt_iff_lt_mul hb, Nat.div_mul_cancel hdvd]
  exact hx

theorem mod_lt_of_dvd {x n b : ℕ} (hdvd : b ∣ n) (hx : x < n) : x % b < b := by
  apply Nat.mod_lt
  apply Nat.pos_of_ne_zero
  rintro rfl
  rw [zero_dvd_iff] at hdvd
  omega

/-- The number with two given digits is below the product. -/
theorem mul_add_lt {q r n b : ℕ} (hdvd : b ∣ n) (hq : q < n / b) (hr : r < b) : q * b + r < n := by
  calc q * b + r < q * b + b := Nat.add_lt_add_left hr _
    _ = (q + 1) * b := (Nat.succ_mul q b).symm
    _ ≤ n / b * b := Nat.mul_le_mul_right b hq
    _ = n := Nat.div_mul_cancel hdvd

end MixedRadix
