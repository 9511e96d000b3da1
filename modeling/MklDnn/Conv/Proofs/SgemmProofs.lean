import Mathlib.Algebra.BigOperators.Group.Finset.Basic
import MklDnn.Common.Proofs.UtilsProofs
import MklDnn.Conv.Forward
import MklDnn.Lib.Sums

/-!
# Proofs: `extended_sgemm`

The assignments of a product to a matrix whose elements have different addresses.
-/

open LoopNest Interleaving

namespace MklDnn

variable {A R : Type*} [CommSemiring R] {transa transb : Bool} {m n k : ℕ} {a : ℕ → R} {lda : ℕ} {b : ℕ → R} {ldb : ℕ}
  {beta : R} {c : ℕ → A} {ldc : ℕ}

/-- An element of `op(A) * op(B)`. -/
def gemmElem (transa transb : Bool) (k : ℕ) (a : ℕ → R) (lda : ℕ) (b : ℕ → R) (ldb i j : ℕ) : R :=
  ∑ p ∈ Finset.range k, a (if transa then p + i * lda else i + p * lda) *
    b (if transb then j + p * ldb else p + j * ldb)

theorem mem_extendedSgemm {e : Assign A R} (he : e ∈ extendedSgemm transa transb m n k a lda b ldb beta c ldc) :
    (∃ i < m, ∃ j < n, e.dst = c (i + j * ldc)) ∧ e.Local := by
  obtain ⟨j, hj, he⟩ := List.mem_flatMap.mp he
  obtain ⟨i, hi, rfl⟩ := List.mem_map.mp he
  rw [List.mem_range] at hi hj
  refine ⟨⟨i, hi, j, hj, rfl⟩, fun mem mem' h => ?_⟩
  dsimp only at h ⊢
  rw [h]

/-- The product as one loop over a matrix without gaps between its columns. -/
theorem extendedSgemm_eq_map : extendedSgemm transa transb m n k a lda b ldb beta c m =
    (List.range (n * m)).map fun s => ⟨c s, fun mem =>
      gemmElem transa transb k a lda b ldb (s % m) (s / m) + beta * mem (c s)⟩ := by
  rcases Nat.eq_zero_or_pos m with rfl | hm
  · simp [extendedSgemm]
  unfold extendedSgemm
  induction n with
  | zero =>
    rw [Nat.zero_mul]
    rfl
  | succ n ih =>
    rw [List.range_succ, List.flatMap_append, ih, Nat.succ_mul, List.range_add, List.map_append, List.map_map]
    congr 1
    rw [List.flatMap_cons, List.flatMap_nil, List.append_nil]
    apply List.map_congr_left
    intro i hi
    rw [List.mem_range] at hi
    have hdiv : (n * m + i) / m = n := by rw [Nat.mul_comm, Nat.mul_add_div hm, Nat.div_eq_of_lt hi, Nat.add_zero]
    have hmod : (n * m + i) % m = i := by rw [Nat.mul_comm, Nat.mul_add_mod, Nat.mod_eq_of_lt hi]
    rw [Function.comp_apply, hdiv, hmod, Nat.add_comm i]
    rfl

variable [DecidableEq A]

/-- What a product leaves in an element of the matrix. -/
theorem execAll_extendedSgemm
    (hc : ∀ i < m, ∀ i' < m, ∀ j j' : ℕ, c (i + j * ldc) = c (i' + j' * ldc) → i = i' ∧ j = j') (mem : A → R) {i j : ℕ}
    (hi : i < m) (hj : j < n) :
    execAll (extendedSgemm transa transb m n k a lda b ldb beta c ldc) mem (c (i + j * ldc)) =
      gemmElem transa transb k a lda b ldb i j + beta * mem (c (i + j * ldc)) := by
  have hlocal : ∀ e ∈ extendedSgemm transa transb m n k a lda b ldb beta c ldc, e.Local :=
    fun e he => (mem_extendedSgemm he).2
  rw [execAll_eq_trace hlocal]
  unfold extendedSgemm
  rw [trace_flatMap_of_unique List.nodup_range (List.mem_range.mpr hj)]
  · have hunique := trace_map_of_unique (f := fun i => (⟨c (i + j * ldc), fun mem =>
      gemmElem transa transb k a lda b ldb i j + beta * mem (c (i + j * ldc))⟩ : Assign A R)) List.nodup_range
      (List.mem_range.mpr hi) rfl
    refine hunique ?_ _
    intro i' hi' hne heq
    exact hne (hc i' (List.mem_range.mp hi') i hi j j heq).1
  · intro j' _ hne e he heq
    obtain ⟨i', hi', rfl⟩ := List.mem_map.mp he
    exact hne (hc i' (List.mem_range.mp hi') i hi j' j heq).2

end MklDnn
