import MklDnn.Conv.Rtus
import MklDnn.Lib.Offsets
import Mathlib.Tactic.Linarith

/-!
# Proofs: the generated code of the reduction to unit strides

The registers of the loop at an output position are a function of the position. A step from there moves one vector and
leaves the registers at the next position; where it scatters it also clears the columns and rows up to there, except
that the loop over skipped rows runs once too often when there are none.
-/

open LoopNest

namespace MklDnn.Rtus

/-! ## Positions -/

theorem next_in_row {pos ow : ℕ} (h : pos % ow + 1 < ow) : (pos + 1) / ow = pos / ow ∧ (pos + 1) % ow = pos % ow + 1 := by
  have hpos := Nat.div_add_mod pos ow
  have heq : pos + 1 = ow * (pos / ow) + (pos % ow + 1) := by omega
  rw [heq, Nat.mul_add_div (by omega), Nat.mul_add_mod, Nat.div_eq_of_lt h, Nat.mod_eq_of_lt h]
  exact ⟨rfl, rfl⟩

theorem next_row {pos ow : ℕ} (h : pos % ow + 1 = ow) : (pos + 1) / ow = pos / ow + 1 ∧ (pos + 1) % ow = 0 := by
  have hpos := Nat.div_add_mod pos ow
  have heq : pos + 1 = ow * (pos / ow + 1) := by
    rw [Nat.mul_add, Nat.mul_one]
    omega
  rw [heq, Nat.mul_div_cancel_left _ (by omega), Nat.mul_mod_right]
  exact ⟨rfl, rfl⟩

/-- The driver is set up for a reduced image of `oh` x `ow` positions. -/
structure Driver.Fits (d : Driver) (sh oh ow : ℕ) : Prop where
  iw : d.iw = ow * d.strideW
  srcStepH : d.srcStepH = sh * d.iw
  srcStepIcb : d.srcStepIcb = oh * sh * d.iw
  strideW_pos : 0 < d.strideW
  sh_pos : 0 < sh
  oh_pos : 0 < oh
  ow_pos : 0 < ow

namespace Driver

variable {V : Type} [Zero V] {d : Driver} {sh oh ow : ℕ}

theorem Fits.iw_pos (h : d.Fits sh oh ow) : 0 < d.iw := by
  rw [h.iw]
  exact Nat.mul_pos h.ow_pos h.strideW_pos

/-- The offset in the image of an output position of a block of channels that starts at `base`. -/
def srcOff (d : Driver) (sh ow base pos : ℕ) : ℕ := base + pos / ow * sh * d.iw + pos % ow * d.strideW

/-- The registers at an output position. -/
def regsAt (d : Driver) (sh ow ws base pos : ℕ) : Regs := ⟨ws, d.srcOff sh ow base pos, pos % ow * d.strideW⟩

theorem Fits.curIw_lt_iff (h : d.Fits sh oh ow) (pos : ℕ) :
    pos % ow * d.strideW + d.strideW < d.iw ↔ pos % ow + 1 < ow := by
  rw [h.iw, ← Nat.succ_mul]
  exact Nat.mul_lt_mul_right h.strideW_pos

theorem Fits.row_end (h : d.Fits sh oh ow) {pos : ℕ} (hnot : ¬ pos % ow + 1 < ow) : pos % ow + 1 = ow := by
  have hlt := Nat.mod_lt pos h.ow_pos
  omega

/-- There is one row only. -/
theorem Fits.srcStepIcb_eq_iff (h : d.Fits sh oh ow) : d.srcStepIcb = d.iw ↔ oh = 1 ∧ sh = 1 := by
  rw [h.srcStepIcb]
  constructor
  · intro heq
    have hone := Nat.eq_of_mul_eq_mul_right h.iw_pos (heq.trans (Nat.one_mul _).symm)
    exact ⟨Nat.eq_one_of_mul_eq_one_right hone, Nat.eq_one_of_mul_eq_one_left hone⟩
  · rintro ⟨rfl, rfl⟩
    rw [Nat.mul_one, Nat.one_mul]

/-- After the last position of the only row there is none. -/
theorem not_next {pos oh ow : ℕ} (hend : pos % ow + 1 = ow) (hone : oh = 1) :
    ¬ pos + 1 < oh * ow := by
  rw [hone, Nat.one_mul]
  have hle := Nat.mod_le pos ow
  omega

theorem srcOff_next (d : Driver) (sh : ℕ) {pos ow : ℕ} (hlt : pos % ow + 1 < ow) (base : ℕ) :
    d.srcOff sh ow base (pos + 1) = d.srcOff sh ow base pos + d.strideW := by
  obtain ⟨hdiv, hmod⟩ := next_in_row hlt
  rw [srcOff, srcOff, hdiv, hmod, Nat.succ_mul, Nat.add_assoc _ (_ * _) d.strideW]

theorem Fits.srcOff_row (h : d.Fits sh oh ow) {pos : ℕ} (hend : pos % ow + 1 = ow) (base : ℕ) :
    d.srcOff sh ow base (pos + 1) = d.srcOff sh ow base pos + d.strideW + (sh - 1) * d.iw := by
  obtain ⟨hdiv, hmod⟩ := next_row hend
  have hrow : pos % ow * d.strideW + d.strideW = d.iw := by rw [← Nat.succ_mul, Nat.succ_eq_add_one, hend, h.iw]
  have hsh : sh * d.iw = (sh - 1) * d.iw + d.iw := by
    rw [← Nat.succ_mul, Nat.succ_eq_add_one, Nat.sub_add_cancel h.sh_pos]
  rw [srcOff, srcOff, hdiv, hmod, Nat.zero_mul, Nat.add_mul, Nat.one_mul, Nat.add_mul, hsh]
  omega

theorem Fits.stepH_sub (h : d.Fits sh oh ow) : d.srcStepH - d.iw = (sh - 1) * d.iw := by
  rw [h.srcStepH, Nat.sub_mul, Nat.one_mul]

/-! ## Copying -/

theorem isStep_copy (h : d.Fits sh oh ow) (hto : d.srcToWs = true) (read : ℕ → V) (ws base pos : ℕ) :
    (d.isStep read (d.regsAt sh ow ws base pos)).1 = [(ws, read (d.srcOff sh ow base pos))] ∧
      (pos + 1 < oh * ow → (d.isStep read (d.regsAt sh ow ws base pos)).2 = d.regsAt sh ow (ws + 1) base (pos + 1)) := by
  unfold isStep regsAt
  simp only [hto, if_true]
  by_cases hlt : pos % ow + 1 < ow
  · rw [if_pos ((h.curIw_lt_iff pos).mpr hlt)]
    refine ⟨rfl, fun _ => ?_⟩
    rw [d.srcOff_next sh hlt, (next_in_row hlt).2, Nat.succ_mul]
  · have hend := h.row_end hlt
    rw [if_neg (mt (h.curIw_lt_iff pos).mp hlt)]
    by_cases hone : d.srcStepIcb = d.iw
    · rw [if_pos hone]
      exact ⟨rfl, fun hnext => absurd hnext (not_next hend (h.srcStepIcb_eq_iff.mp hone).1)⟩
    · rw [if_neg hone]
      refine ⟨rfl, fun _ => ?_⟩
      rw [h.srcOff_row hend, (next_row hend).2, h.stepH_sub, Nat.zero_mul]

/-- The positions from `pos` on are copied one after the other. -/
theorem loopIs_copy (h : d.Fits sh oh ow) (hto : d.srcToWs = true) (read : ℕ → V) (base : ℕ) {n ws pos : ℕ}
    (hpos : pos + n ≤ oh * ow) : d.loopIs read n (d.regsAt sh ow ws base pos) =
      (List.range n).map fun k => (ws + k, read (d.srcOff sh ow base (pos + k))) := by
  induction n generalizing ws pos with
  | zero => rfl
  | succ n ih =>
    obtain ⟨hstores, hnext⟩ := isStep_copy h hto read ws base pos
    rw [loopIs, hstores, List.range_succ_eq_map, List.map_cons, List.map_map]
    cases n with
    | zero => rfl
    | succ n =>
      rw [hnext (by omega), ih (by omega)]
      refine congrArg (_ :: ·) (List.map_congr_left fun k _ => ?_)
      rw [Function.comp_apply, Nat.succ_eq_add_one, Nat.add_assoc, Nat.add_assoc, Nat.add_comm 1 k]

/-! ## Scattering -/

/-- The loop over the skipped rows, if there are `m ≥ 1` steps of it. -/
theorem ihLoop_eq (hpos : 0 < d.strideW) {m fuel : ℕ} (hm : m + 1 ≤ fuel) (cur : ℕ) :
    d.ihLoop (cur + (m + 1) * d.strideW) fuel cur =
      ((List.range ((m + 1) * d.strideW)).map fun i => (cur + i, (0 : V)), cur + (m + 1) * d.strideW) := by
  induction m generalizing fuel cur with
  | zero =>
    obtain ⟨fuel, rfl⟩ : ∃ f, fuel = f + 1 := ⟨fuel - 1, by omega⟩
    rw [ihLoop, Nat.zero_add, Nat.one_mul]
    exact if_neg (Nat.lt_irrefl _)
  | succ m ih =>
    obtain ⟨fuel, rfl⟩ : ∃ f, fuel = f + 1 := ⟨fuel - 1, by omega⟩
    have hsum : (m + 1 + 1) * d.strideW = d.strideW + (m + 1) * d.strideW := by
      rw [Nat.succ_mul, Nat.add_comm]
    have hmul : 0 < (m + 1) * d.strideW := Nat.mul_pos (Nat.succ_pos m) hpos
    rw [ihLoop, hsum, ← Nat.add_assoc]
    dsimp only
    rw [if_pos (by omega), ih (by omega), List.range_add, List.map_append, List.map_map]
    refine congrArg (·, _) (congrArg (_ ++ ·) (List.map_congr_left fun i _ => ?_))
    rw [Function.comp_apply, Nat.add_assoc]

/-- The stores for an output position: its own vector, and zeros up to the next position. -/
def posStores (d : Driver) (sh ow base pos : ℕ) (v : V) : List (ℕ × V) :=
  ((List.range d.strideW).map fun w => (d.srcOff sh ow base pos + w, if w = 0 then v else 0)) ++
    if pos % ow + 1 = ow then
      (List.range ((sh - 1) * d.iw)).map fun i => (d.srcOff sh ow base pos + d.strideW + i, 0)
    else []

theorem own_stores (hpos : 0 < d.strideW) (off : ℕ) (v : V) :
    (off, v) :: ((List.range' 1 (d.strideW - 1)).map fun w => (off + w, (0 : V))) =
      (List.range d.strideW).map fun w => (off + w, if w = 0 then v else 0) := by
  obtain ⟨k, hk⟩ : ∃ k, d.strideW = k + 1 := ⟨d.strideW - 1, by omega⟩
  rw [hk, Nat.add_sub_cancel, List.range_succ_eq_map, List.map_cons, List.map_map, if_pos rfl, Nat.add_zero,
    List.range'_eq_map_range, List.map_map]
  refine congrArg (_ :: ·) (List.map_congr_left fun w _ => ?_)
  rw [Function.comp_apply, Function.comp_apply, if_neg (Nat.succ_ne_zero w), Nat.succ_eq_add_one, Nat.add_comm 1 w]

/-- With rows to skip, or with a single row, a step stores what belongs to its position. -/
theorem isStep_scatter (h : d.Fits sh oh ow) (hto : d.srcToWs = false) (hgood : sh = 1 → oh = 1) (read : ℕ → V)
    (ws base pos : ℕ) :
    (d.isStep read (d.regsAt sh ow ws base pos)).1 = d.posStores sh ow base pos (read ws) ∧
      (pos + 1 < oh * ow → (d.isStep read (d.regsAt sh ow ws base pos)).2 = d.regsAt sh ow (ws + 1) base (pos + 1)) := by
  unfold isStep regsAt posStores
  simp only [hto, Bool.false_eq_true, if_false]
  rw [own_stores h.strideW_pos]
  by_cases hlt : pos % ow + 1 < ow
  · rw [if_pos ((h.curIw_lt_iff pos).mpr hlt), if_neg (by omega), List.append_nil]
    refine ⟨rfl, fun _ => ?_⟩
    rw [d.srcOff_next sh hlt, (next_in_row hlt).2, Nat.succ_mul]
  · have hend := h.row_end hlt
    rw [if_neg (mt (h.curIw_lt_iff pos).mp hlt), if_pos hend]
    by_cases hone : d.srcStepIcb = d.iw
    · obtain ⟨hoh, rfl⟩ := h.srcStepIcb_eq_iff.mp hone
      rw [if_pos hone]
      refine ⟨?_, fun hnext => absurd hnext (not_next hend hoh)⟩
      rw [Nat.sub_self, Nat.zero_mul, List.range_zero, List.map_nil, List.append_nil]
    · -- at least one row is skipped
      have hsh : sh ≠ 1 := fun hsh => hone (h.srcStepIcb_eq_iff.mpr ⟨hgood hsh, hsh⟩)
      have hpos := h.sh_pos
      have hsteps : ∃ m, (sh - 1) * d.iw = (m + 1) * d.strideW ∧ m + 1 ≤ d.srcStepH + 1 := by
        have hmul : 0 < (sh - 1) * ow := Nat.mul_pos (by omega) h.ow_pos
        refine ⟨(sh - 1) * ow - 1, ?_, ?_⟩
        · rw [Nat.sub_add_cancel hmul, h.iw, Nat.mul_assoc]
        · have hle : (sh - 1) * ow ≤ d.srcStepH := by
            rw [h.srcStepH, h.iw]
            exact Nat.mul_le_mul (Nat.sub_le sh 1) (Nat.le_mul_of_pos_right ow h.strideW_pos)
          omega
      obtain ⟨m, hm, hfuel⟩ := hsteps
      rw [if_neg hone, h.stepH_sub, hm, ihLoop_eq h.strideW_pos hfuel]
      refine ⟨rfl, fun _ => ?_⟩
      rw [h.srcOff_row hend, (next_row hend).2, hm, Nat.zero_mul]

/-- A range of positions is scattered position by position. -/
theorem loopIs_scatter (h : d.Fits sh oh ow) (hto : d.srcToWs = false) (hgood : sh = 1 → oh = 1) (read : ℕ → V)
    (base : ℕ) {n ws pos : ℕ} (hpos : pos + n ≤ oh * ow) : d.loopIs read n (d.regsAt sh ow ws base pos) =
      (List.range n).flatMap fun k => d.posStores sh ow base (pos + k) (read (ws + k)) := by
  induction n generalizing ws pos with
  | zero => rfl
  | succ n ih =>
    obtain ⟨hstores, hnext⟩ := isStep_scatter h hto hgood read ws base pos
    rw [loopIs, hstores, List.range_succ_eq_map, List.flatMap_cons, List.flatMap_map]
    cases n with
    | zero => rfl
    | succ n =>
      rw [hnext (by omega), ih (by omega)]
      refine congrArg (_ ++ ·) (List.flatMap_congr fun k _ => ?_)
      rw [Nat.succ_eq_add_one, Nat.add_assoc, Nat.add_assoc, Nat.add_comm 1 k]

/-! ## The rows of a block of channels -/

/-- What the scatter leaves in the block: the workspace at the positions of the reduced image, else zero. -/
def scattered (sh sw ow : ℕ) (v : ℕ → V) (y x : ℕ) : V :=
  if y % sh = 0 ∧ x % sw = 0 then v (y / sh * ow + x / sw) else 0

theorem flatMap_last {β : Type} {n : ℕ} (hn : 0 < n) (f : ℕ → List β) (l : List β) :
    ((List.range n).flatMap fun x => f x ++ if x + 1 = n then l else []) = (List.range n).flatMap f ++ l := by
  obtain ⟨m, rfl⟩ : ∃ m, n = m + 1 := ⟨n - 1, by omega⟩
  have hinit : ((List.range m).flatMap fun x => f x ++ if x + 1 = m + 1 then l else []) = (List.range m).flatMap f := by
    refine List.flatMap_congr fun x hx => ?_
    have hx := List.mem_range.mp hx
    rw [if_neg (by omega), List.append_nil]
  rw [List.range_succ, List.flatMap_append, List.flatMap_append, hinit, List.append_assoc]
  simp

/-- The stores of one row of the reduced image are those of `sh` rows of the image. -/
theorem row_stores (h : d.Fits sh oh ow) (base r : ℕ) (v : ℕ → V) :
    ((List.range ow).flatMap fun x => d.posStores sh ow base (r * ow + x) (v (r * ow + x))) =
      (List.range sh).flatMap fun y => (List.range d.iw).map fun x =>
        (base + (r * sh + y) * d.iw + x, scattered sh d.strideW ow v (r * sh + y) x) := by
  have hdiv : ∀ x < ow, (r * ow + x) / ow = r := fun x hx => by
    rw [Nat.mul_comm, Nat.mul_add_div h.ow_pos, Nat.div_eq_of_lt hx, Nat.add_zero]
  have hmod : ∀ x < ow, (r * ow + x) % ow = x := fun x hx => by rw [Nat.mul_comm, Nat.mul_add_mod, Nat.mod_eq_of_lt hx]
  have hsrc : ∀ x < ow, d.srcOff sh ow base (r * ow + x) = base + r * sh * d.iw + x * d.strideW := fun x hx => by
    rw [srcOff, hdiv x hx, hmod x hx]
  -- the first row
  have hfirst : ((List.range ow).flatMap fun x => (List.range d.strideW).map fun w =>
      (base + r * sh * d.iw + x * d.strideW + w, if w = 0 then v (r * ow + x) else 0)) =
      (List.range d.iw).map fun x => (base + (r * sh + 0) * d.iw + x, scattered sh d.strideW ow v (r * sh + 0) x) := by
    rw [flatMap_range_map, ← h.iw]
    refine List.map_congr_left fun i _ => ?_
    have hi := Nat.div_add_mod' i d.strideW
    rw [scattered, Nat.add_zero, Nat.mul_mod_left, Nat.mul_div_cancel _ h.sh_pos, Nat.add_assoc _ _ (i % _), hi]
    simp only [true_and]
  -- the rows that are skipped
  have hrest : ((List.range ((sh - 1) * d.iw)).map fun i => (base + r * sh * d.iw + d.iw + i, (0 : V))) =
      (List.range (sh - 1)).flatMap fun y => (List.range d.iw).map fun x =>
        (base + (r * sh + (y + 1)) * d.iw + x, scattered sh d.strideW ow v (r * sh + (y + 1)) x) := by
    have hzero : ∀ y < sh - 1, ∀ x, scattered sh d.strideW ow v (r * sh + (y + 1)) x = 0 := by
      intro y hy x
      refine if_neg fun hzero => ?_
      rw [Nat.mul_comm, Nat.mul_add_mod, Nat.mod_eq_of_lt (by omega)] at hzero
      exact Nat.succ_ne_zero y hzero.1
    have hrows : ((List.range (sh - 1)).flatMap fun y => (List.range d.iw).map fun x =>
        (base + (r * sh + (y + 1)) * d.iw + x, scattered sh d.strideW ow v (r * sh + (y + 1)) x)) =
        (List.range (sh - 1)).flatMap fun y => (List.range d.iw).map fun x =>
          (base + r * sh * d.iw + d.iw + (y * d.iw + x), 0) := by
      refine List.flatMap_congr fun y hy => List.map_congr_left fun x _ => ?_
      rw [hzero y (List.mem_range.mp hy)]
      refine congrArg (·, _) ?_
      ring
    rw [hrows, flatMap_range_map]
    refine List.map_congr_left fun i _ => ?_
    rw [Nat.div_add_mod']
  have hpos : ((List.range ow).flatMap fun x => d.posStores sh ow base (r * ow + x) (v (r * ow + x))) =
      (List.range ow).flatMap fun x => ((List.range d.strideW).map fun w =>
        (base + r * sh * d.iw + x * d.strideW + w, if w = 0 then v (r * ow + x) else 0)) ++
          if x + 1 = ow then (List.range ((sh - 1) * d.iw)).map fun i => (base + r * sh * d.iw + d.iw + i, 0) else [] := by
    refine List.flatMap_congr fun x hx => ?_
    have hx := List.mem_range.mp hx
    rw [posStores, hsrc x hx, hmod x hx]
    refine congrArg (_ ++ ·) ?_
    split_ifs with hend
    · have hrow : x * d.strideW + d.strideW = d.iw := by rw [← Nat.succ_mul, Nat.succ_eq_add_one, hend, h.iw]
      rw [Nat.add_assoc (base + r * sh * d.iw), hrow]
    · rfl
  obtain ⟨k, hk⟩ : ∃ k, sh = k + 1 := ⟨sh - 1, by have := h.sh_pos; omega⟩
  have hrange : List.range sh = 0 :: (List.range (sh - 1)).map Nat.succ := by rw [hk, List.range_succ_eq_map, Nat.add_sub_cancel]
  rw [hpos, flatMap_last h.ow_pos, hfirst, hrest, hrange, List.flatMap_cons, List.flatMap_map]

/-- All positions of a block: each of its elements is stored once. -/
theorem block_stores (h : d.Fits sh oh ow) (base : ℕ) (v : ℕ → V) :
    ((List.range (oh * ow)).flatMap fun pos => d.posStores sh ow base pos (v pos)) =
      (List.range (oh * sh)).flatMap fun y => (List.range d.iw).map fun x =>
        (base + y * d.iw + x, scattered sh d.strideW ow v y x) := by
  rw [flatMap_range_mul, flatMap_range_mul]
  exact List.flatMap_congr fun r _ => row_stores h base r v

/-! ## A single row too many -/

/-- Without rows to skip, but with more than one row, the end of a row stores too much. -/
def stepCount (d : Driver) (ow pos : ℕ) : ℕ := d.strideW + if pos % ow + 1 = ow then d.strideW else 0

theorem loopIs_length (h : d.Fits sh oh ow) (hto : d.srcToWs = false) (hsh : sh = 1) (hoh : oh ≠ 1) (read : ℕ → V)
    {n pos : ℕ} (r : Regs) (hr : r.curIw = pos % ow * d.strideW) :
    (d.loopIs read n r).length = ((List.range n).map fun k => d.stepCount ow (pos + k)).sum := by
  induction n generalizing pos r with
  | zero => rfl
  | succ n ih =>
    have hstep : (d.isStep read r).1.length = d.stepCount ow pos ∧
        (d.isStep read r).2.curIw = (pos + 1) % ow * d.strideW := by
      have hsw := h.strideW_pos
      unfold isStep stepCount
      simp only [hto, Bool.false_eq_true, if_false, hr]
      by_cases hlt : pos % ow + 1 < ow
      · rw [if_pos ((h.curIw_lt_iff pos).mpr hlt), if_neg (by omega), (next_in_row hlt).2]
        refine ⟨?_, (Nat.succ_mul _ _).symm⟩
        simp only [List.length_cons, List.length_map, List.length_range']
        omega
      · have hend := h.row_end hlt
        have hone : ¬ d.srcStepIcb = d.iw := fun hone => hoh (h.srcStepIcb_eq_iff.mp hone).1
        rw [if_neg (mt (h.curIw_lt_iff pos).mp hlt), if_neg hone, if_pos hend, (next_row hend).2]
        -- the loop over the rows runs once
        refine ⟨?_, (Nat.zero_mul _).symm⟩
        rw [h.stepH_sub, hsh, Nat.sub_self, Nat.zero_mul, ihLoop, if_neg (by omega)]
        simp only [List.length_append, List.length_cons, List.length_map, List.length_range', List.length_range]
        omega
    rw [loopIs, List.length_append, hstep.1, ih (d.isStep read r).2 hstep.2, List.range_succ_eq_map, List.map_cons,
      List.sum_cons, List.map_map, Nat.add_zero]
    refine congrArg (_ + ·) (congrArg List.sum (List.map_congr_left fun k _ => ?_))
    rw [Function.comp_apply, Nat.succ_eq_add_one, Nat.add_assoc, Nat.add_comm 1 k]

end Driver

end MklDnn.Rtus
