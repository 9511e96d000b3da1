import MklDnn.Common.Proofs.UtilsProofs
import MklDnn.Reducer.CpuReducer2d

/-!
# Proofs: the blocks of a reduction in two dimensions

The search for the width of the blocks ends with a divisor of the width of a job. The blocks of a range of the
elements of a job, row by row, cover every element of the range once and no other element.
-/

namespace MklDnn.CpuReducer2d

variable {c : CpuReducer2d}

/-! ## The width of the blocks -/

/-- An iteration of the loop leaves a smaller divisor. -/
theorem narrow_spec {minXBlocking x : ℕ} (hx : 0 < x) (h : narrows minXBlocking x = true) :
    narrow minXBlocking x ∣ x ∧ 0 < narrow minXBlocking x ∧ narrow minXBlocking x < x := by
  have hhalf : ∀ d, 1 < d → x % d = 0 → x / d ∣ x ∧ 0 < x / d ∧ x / d < x := by
    intro d hd hmod
    have hdvd : d ∣ x := Nat.dvd_of_mod_eq_zero hmod
    exact ⟨Nat.div_dvd_of_dvd hdvd, Nat.div_pos (Nat.le_of_dvd hx hdvd) (by omega), Nat.div_lt_self hx hd⟩
  unfold narrows at h
  rw [decide_eq_true_iff] at h
  unfold narrow
  split_ifs with htwo
  · exact hhalf 2 (by omega) htwo.1
  · rcases h with h | h
    · exact absurd h htwo
    · exact hhalf 3 (by omega) h.1

/-- The search ends, and where the width is a multiple of `x_block_` the blocks fill the rows. -/
theorem chooseXBlocking_spec {fuel nx ny : ℕ} (hblock : 0 < c.xBlock) (hnx : c.xBlock ≤ nx) (hny : 0 < ny)
    (hfuel : nx < fuel) (nthrPerGrp : ℕ) : ∃ v, c.chooseXBlocking fuel nx ny nthrPerGrp = some v ∧
      0 < v ∧ (c.xBlock ∣ nx → v ∣ nx) := by
  have hpos : 0 < nx / c.xBlock := Nat.div_pos hnx hblock
  have hle : nx / c.xBlock ≤ nx := Nat.div_le_self _ _
  set minXBlocking := divUp (nx / c.xBlock) (max 1 (nthrPerGrp / ny)) with hmin
  have hbody : ∀ x, (0 < x ∧ x ∣ nx / c.xBlock) → narrows minXBlocking x = true →
      ∃ x', some (narrow minXBlocking x) = some x' ∧ (0 < x' ∧ x' ∣ nx / c.xBlock) ∧ x' < x := by
    rintro x ⟨hxpos, hdvd⟩ hcond
    obtain ⟨hdvd', hpos', hless⟩ := narrow_spec hxpos hcond
    exact ⟨_, rfl, ⟨hpos', hdvd'.trans hdvd⟩, hless⟩
  obtain ⟨x, hx, ⟨hxpos, hdvd⟩, -⟩ := WhileLoops.loop_spec (fun x => 0 < x ∧ x ∣ nx / c.xBlock) id hbody
    ⟨hpos, Nat.dvd_refl _⟩ (hle.trans_lt hfuel)
  unfold chooseXBlocking
  rw [if_neg (by omega)]
  dsimp only
  rw [← hmin, hx]
  refine ⟨_, rfl, ?_, ?_⟩
  · apply Nat.mul_pos _ hblock
    split_ifs
    · exact Nat.one_pos
    · exact hxpos
  · intro hmul
    obtain ⟨q, hq⟩ := hmul
    have hquot : nx / c.xBlock = q := by rw [hq, Nat.mul_div_cancel_left q hblock]
    rw [hquot] at hdvd
    dsimp only
    split_ifs
    · rw [Nat.one_mul]
      exact ⟨q, hq⟩
    · rw [hq, Nat.mul_comm c.xBlock]
      exact Nat.mul_dvd_mul_right hdvd c.xBlock

/-! ## The elements of a block -/

/-- The block has an element. -/
def Block.Covers (k : Block) (y x : ℕ) : Prop :=
  (k.nyStart ≤ y ∧ y < k.nyStart + k.nyStep) ∧ k.nxStart ≤ x ∧ x < k.nxStart + k.nxStep

instance (k : Block) (y x : ℕ) : Decidable (k.Covers y x) := inferInstanceAs (Decidable (_ ∧ _))

section Rows

variable {job startY startX nx y x : ℕ}

/-- A part of a row. -/
theorem covers_row (hx : x < nx) {nxy n : ℕ} (hn : nxy % nx + n ≤ nx) :
    (Block.mk job startY startX (nxy / nx) (nxy % nx) 1 n).Covers y x ↔ nxy ≤ y * nx + x ∧ y * nx + x < nxy + n := by
  have hsplit := Nat.div_add_mod' nxy nx
  have hrow : ∀ q, q < y → q * nx + nx ≤ y * nx := by
    intro q hq
    have := Nat.mul_le_mul_right nx hq
    rwa [Nat.succ_mul] at this
  have hrow' : y < nxy / nx → y * nx + nx ≤ nxy / nx * nx := by
    intro hy
    have := Nat.mul_le_mul_right nx hy
    rwa [Nat.succ_mul] at this
  show (nxy / nx ≤ y ∧ y < nxy / nx + 1) ∧ nxy % nx ≤ x ∧ x < nxy % nx + n ↔ _
  rcases Nat.lt_trichotomy y (nxy / nx) with hlt | heq | hgt
  · have := hrow' hlt
    omega
  · rw [heq]
    omega
  · have := hrow _ hgt
    omega

/-- Whole rows. -/
theorem covers_rows (hx : x < nx) {nxy n : ℕ} (hnxy : nxy % nx = 0) :
    (Block.mk job startY startX (nxy / nx) (nxy % nx) n nx).Covers y x ↔
      nxy ≤ y * nx + x ∧ y * nx + x < nxy + nx * n := by
  have hsplit := Nat.div_add_mod' nxy nx
  have hrow : ∀ q, q < y → q * nx + nx ≤ y * nx := by
    intro q hq
    have := Nat.mul_le_mul_right nx hq
    rwa [Nat.succ_mul] at this
  have hrow' : ∀ q, y < q → y * nx + nx ≤ q * nx := by
    intro q hq
    have := Nat.mul_le_mul_right nx hq
    rwa [Nat.succ_mul] at this
  have hend : (nxy / nx + n) * nx = nxy + nx * n := by
    rw [Nat.add_mul, Nat.mul_comm n]
    omega
  show (nxy / nx ≤ y ∧ y < nxy / nx + n) ∧ nxy % nx ≤ x ∧ x < nxy % nx + nx ↔ _
  constructor
  · rintro ⟨⟨hlow, hhigh⟩, -, -⟩
    have hlast := hrow' _ hhigh
    rcases Nat.lt_or_ge (nxy / nx) y with hlt | hge
    · have := hrow _ hlt
      omega
    · have heq : nxy / nx = y := by omega
      rw [heq] at hsplit
      omega
  · rintro ⟨hlow, hhigh⟩
    refine ⟨⟨?_, ?_⟩, by omega, by omega⟩
    · by_contra hlt
      have := hrow' (nxy / nx) (by omega)
      omega
    · by_contra hge
      rcases Nat.lt_or_ge (nxy / nx + n) y with hlt | hle
      · have := hrow _ hlt
        omega
      · have heq : nxy / nx + n = y := by omega
        rw [heq] at hend
        omega

/-- A block for a part of the range, unless the part is empty. -/
theorem countP_block (nx : ℕ) {P : Prop} [Decidable P] {k : Block} (start stop : ℕ)
    (hcovers : P → (k.Covers y x ↔ start ≤ y * nx + x ∧ y * nx + x < stop)) (hnone : ¬ P → start = stop) :
    (if P then [k] else []).countP (fun k => k.Covers y x) =
      if start ≤ y * nx + x ∧ y * nx + x < stop then 1 else 0 := by
  by_cases hP : P
  · rw [if_pos hP, List.countP_singleton]
    simp only [decide_eq_true_iff, hcovers hP]
  · rw [if_neg hP, List.countP_nil, if_neg]
    have := hnone hP
    omega

/-- The rest of a row ends with the row or with the range. -/
theorem restOfRow_spec (hnx : 0 < nx) {nxy nxyEnd : ℕ} (hle : nxy ≤ nxyEnd) :
    nxy + restOfRow nx nxy nxyEnd ≤ nxyEnd ∧ nxy % nx + restOfRow nx nxy nxyEnd ≤ nx ∧
      (nxy + restOfRow nx nxy nxyEnd = nxyEnd ∨ (nxy + restOfRow nx nxy nxyEnd) % nx = 0) := by
  have hmod := Nat.mod_lt nxy hnx
  unfold restOfRow
  split_ifs with hzero
  · rcases Nat.le_total (nx - nxy % nx) (nxyEnd - nxy) with hmin | hmin
    · rw [min_eq_left hmin]
      have hnext : nxy + (nx - nxy % nx) = (nxy / nx + 1) * nx := by
        have := Nat.div_add_mod' nxy nx
        rw [Nat.succ_mul]
        omega
      refine ⟨by omega, by omega, Or.inr ?_⟩
      rw [hnext, Nat.mul_mod_left]
    · rw [min_eq_right hmin]
      exact ⟨by omega, by omega, Or.inl (by omega)⟩
  · refine ⟨hle, by omega, Or.inr ?_⟩
    rw [Nat.add_zero]
    omega

/-- Not more than a row is left. -/
theorem wholeRows_spec (hnx : 0 < nx) {nxy nxyEnd : ℕ} (hle : nxy ≤ nxyEnd) :
    nxy + nx * wholeRows nx nxy nxyEnd ≤ nxyEnd ∧ nxyEnd ≤ nxy + nx * wholeRows nx nxy nxyEnd + nx := by
  unfold wholeRows
  split_ifs with hmany
  · have := Nat.div_add_mod (nxyEnd - nxy) nx
    have := Nat.mod_lt (nxyEnd - nxy) hnx
    omega
  · omega

/-- What is left begins with a row. -/
theorem left_mod {nxyStart nxyEnd : ℕ} (hle : nxyStart ≤ nxyEnd) (hnx : 0 < nx) {n : ℕ}
    (hleft : nxyStart + restOfRow nx nxyStart nxyEnd + nx * n < nxyEnd) :
    (nxyStart + restOfRow nx nxyStart nxyEnd + nx * n) % nx = 0 := by
  rw [Nat.add_mul_mod_self_left]
  rcases (restOfRow_spec hnx hle).2.2 with hend | hzero
  · omega
  · exact hzero

/-- The blocks of a range are inside of the rows of the job. -/
theorem mem_blocks (hnx : 0 < nx) {nxyStart nxyEnd : ℕ} (hle : nxyStart ≤ nxyEnd) {k : Block}
    (hk : k ∈ blocks job startY startX nx nxyStart nxyEnd) :
    k.job = job ∧ k.startY = startY ∧ k.startX = startX ∧ k.nxStart + k.nxStep ≤ nx := by
  obtain ⟨hrest, hrow, -⟩ := restOfRow_spec hnx hle
  obtain ⟨hrows, hleft⟩ := wholeRows_spec hnx hrest
  unfold blocks at hk
  dsimp only at hk
  rw [List.mem_append, List.mem_append, List.mem_ite_nil_right, List.mem_ite_nil_right, List.mem_ite_nil_right,
    List.mem_singleton, List.mem_singleton, List.mem_singleton] at hk
  rcases hk with (⟨-, rfl⟩ | ⟨hmany, rfl⟩) | ⟨hmore, rfl⟩
  · exact ⟨rfl, rfl, rfl, hrow⟩
  · have hzero := @left_mod nx nxyStart nxyEnd hle hnx 0 (by omega)
    rw [Nat.mul_zero, Nat.add_zero] at hzero
    refine ⟨rfl, rfl, rfl, ?_⟩
    show _ % nx + nx ≤ nx
    omega
  · have hzero := left_mod hle hnx (Nat.lt_of_sub_pos hmore)
    refine ⟨rfl, rfl, rfl, ?_⟩
    dsimp only
    omega

/-- The blocks of a range cover every element of the range once. -/
theorem countP_blocks (hx : x < nx) {nxyStart nxyEnd : ℕ} (hle : nxyStart ≤ nxyEnd) :
    (blocks job startY startX nx nxyStart nxyEnd).countP (fun k => k.Covers y x) =
      if nxyStart ≤ y * nx + x ∧ y * nx + x < nxyEnd then 1 else 0 := by
  have hnx : 0 < nx := by omega
  obtain ⟨hrest, hrow, -⟩ := restOfRow_spec hnx hle
  obtain ⟨hrows, hleft⟩ := wholeRows_spec hnx hrest
  unfold blocks
  dsimp only
  set nxy := nxyStart + restOfRow nx nxyStart nxyEnd with hnxy
  set nxy' := nxy + nx * wholeRows nx nxy nxyEnd with hnxy'
  rw [List.countP_append, List.countP_append, countP_block nx nxyStart nxy, countP_block nx nxy nxy',
    countP_block nx nxy' nxyEnd]
  · split_ifs <;> omega
  · intro hmore
    have hzero : nxy' % nx = 0 := left_mod hle hnx (Nat.lt_of_sub_pos hmore)
    rw [covers_row hx (by omega), Nat.add_sub_cancel' hrows]
  · omega
  · intro hmany
    have hzero := @left_mod nx nxyStart nxyEnd hle hnx 0 (by omega)
    rw [Nat.mul_zero, Nat.add_zero] at hzero
    exact covers_rows hx hzero
  · intro hfew
    rw [hnxy', wholeRows, if_neg hfew, Nat.mul_zero, Nat.add_zero]
  · intro _
    exact covers_row hx hrow
  · intro hzero
    rw [hnxy, restOfRow, if_neg hzero, Nat.add_zero]

end Rows

end MklDnn.CpuReducer2d
