import Mathlib.Algebra.Order.Group.Nat
import Mathlib.Data.Nat.Notation

/-!
# Regions of addresses

Half-open intervals of addresses, and areas that are cut into cells of one size. A region that lies in
one of two disjoint areas is disjoint from every region in the other.
-/

namespace Regions

/-- The addresses from `start` up to `stop`, without `stop`. -/
structure Region where
  start : ℕ
  stop : ℕ

namespace Region

/-- No address belongs to both regions. -/
def Apart (r s : Region) : Prop := r.stop ≤ s.start ∨ s.stop ≤ r.start

/-- The region lies inside of `s`. -/
structure Within (r s : Region) : Prop where
  start_le : s.start ≤ r.start
  le_stop : r.stop ≤ s.stop

theorem Apart.mono {r r' s s' : Region} (h : r.Apart s) (hr : r'.Within r) (hs : s'.Within s) :
    r'.Apart s' := by
  rcases h with h | h
  · exact Or.inl (hr.le_stop.trans (h.trans hs.start_le))
  · exact Or.inr (hs.le_stop.trans (h.trans hr.start_le))

theorem Within.trans {r s t : Region} (h : r.Within s) (h' : s.Within t) : r.Within t where
  start_le := h'.start_le.trans h.start_le
  le_stop := h.le_stop.trans h'.le_stop

/-- The cell `i` of an area at `base` that consists of cells of `size` addresses. -/
def cell (base size i : ℕ) : Region := ⟨base + size * i, base + size * i + size⟩

theorem cell_apart (base size : ℕ) {i j : ℕ} (h : i ≠ j) :
    (cell base size i).Apart (cell base size j) := by
  rcases Nat.lt_or_gt_of_ne h with hlt | hlt
  · have hle : size * (i + 1) ≤ size * j := Nat.mul_le_mul_left size hlt
    rw [Nat.mul_succ] at hle
    exact Or.inl (by simp only [cell]; omega)
  · have hle : size * (j + 1) ≤ size * i := Nat.mul_le_mul_left size hlt
    rw [Nat.mul_succ] at hle
    exact Or.inr (by simp only [cell]; omega)

theorem cell_within (base size : ℕ) {i n : ℕ} (h : i < n) :
    (cell base size i).Within ⟨base, base + size * n⟩ := by
  have hle : size * (i + 1) ≤ size * n := Nat.mul_le_mul_left size h
  rw [Nat.mul_succ] at hle
  exact { start_le := Nat.le_add_right _ _, le_stop := by simp only [cell]; omega }

end Region

/-! ## Areas laid out one behind the other -/

/-- The areas with the numbers from `id` on, `len` of them, lie in `[lo, hi]` in ascending order. -/
structure Ascending (area : ℕ → Region) (id len lo hi : ℕ) : Prop where
  lo_le_hi : lo ≤ hi
  within : ∀ i, id ≤ i → i < id + len → (area i).Within ⟨lo, hi⟩
  ordered : ∀ i j, id ≤ i → i < j → j < id + len → (area i).stop ≤ (area j).start

namespace Ascending

variable {area : ℕ → Region} {id len lo hi : ℕ}

theorem nil (h : lo ≤ hi) : Ascending area id 0 lo hi where
  lo_le_hi := h
  within := by omega
  ordered := by omega

/-- One more area in front of the others. -/
theorem cons (h : Ascending area (id + 1) len (area id).stop hi) (hlo : lo ≤ (area id).start)
    (hle : (area id).start ≤ (area id).stop) : Ascending area id (len + 1) lo hi := by
  have hstop := h.lo_le_hi
  refine { lo_le_hi := by omega, within := fun i hi1 hi2 => ?_, ordered := fun i j hi1 hij hj => ?_ }
  · rcases Nat.eq_or_lt_of_le hi1 with rfl | hlt
    · exact { start_le := hlo, le_stop := hstop }
    · have hw := h.within i hlt (by omega)
      exact { start_le := hlo.trans (hle.trans hw.start_le), le_stop := hw.le_stop }
  · rcases Nat.eq_or_lt_of_le hi1 with rfl | hlt
    · exact (h.within j hij (by omega)).start_le
    · exact h.ordered i j hlt hij (by omega)

theorem apart (h : Ascending area id len lo hi) {i j : ℕ} (hi1 : id ≤ i) (hi2 : i < id + len)
    (hj1 : id ≤ j) (hj2 : j < id + len) (hij : i ≠ j) : (area i).Apart (area j) := by
  rcases Nat.lt_or_gt_of_ne hij with hlt | hlt
  · exact Or.inl (h.ordered i j hi1 hlt hj2)
  · exact Or.inr (h.ordered j i hj1 hlt hi2)

end Ascending

end Regions
