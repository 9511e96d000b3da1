import Mathlib.Algebra.BigOperators.Ring.Finset
import Mathlib.Algebra.Order.BigOperators.Group.Finset
import Mathlib.Data.Int.ConditionallyCompleteOrder
import Mathlib.Data.Int.Interval
import Mathlib.Tactic.Linarith
import MklDnn.Lib.Sums
import MklDnn.Pooling.RefPooling

/-!
# Proofs: the windows of pooling

Which elements of the image a window covers, from the side of the window and from the side of the element.
-/

open LoopNest Interleaving

namespace MklDnn

namespace Pooling

/-! ## Loops over integers -/

theorem mem_intLoop {start stop x : ℤ} : x ∈ intLoop start stop ↔ start ≤ x ∧ x < stop := by
  unfold intLoop
  rw [List.mem_map]
  constructor
  · rintro ⟨i, hi, rfl⟩
    rw [List.mem_range] at hi
    omega
  · rintro ⟨hlow, hhigh⟩
    refine ⟨(x - start).toNat, ?_, by omega⟩
    rw [List.mem_range]
    omega

theorem sum_map_intLoop {M : Type*} [AddCommMonoid M] (start stop : ℤ) (f : ℤ → M) :
    ((intLoop start stop).map f).sum = ∑ x ∈ Finset.Ico start stop, f x := by
  have hnodup : (intLoop start stop).Nodup := by
    unfold intLoop
    refine List.Nodup.map ?_ List.nodup_range
    intro i j hij
    have hij' : start + (i : ℤ) = start + (j : ℤ) := hij
    omega
  have hset : (intLoop start stop).toFinset = Finset.Ico start stop := by
    ext x
    rw [List.mem_toFinset, mem_intLoop, Finset.mem_Ico]
  rw [← hset, List.sum_toFinset _ hnodup]

/-- A loop within the natural numbers. -/
theorem sum_Ico_toNat {M : Type*} [AddCommMonoid M] {start stop : ℤ} {n : ℕ} (hstart : 0 ≤ start) (hstop : stop ≤ n)
    (f : ℕ → M) : ∑ x ∈ Finset.Ico start stop, f x.toNat =
      ∑ i ∈ Finset.range n, if start ≤ i ∧ (i : ℤ) < stop then f i else 0 := by
  rw [← Finset.sum_filter]
  symm
  refine Finset.sum_bij (fun i _ => (i : ℤ)) ?_ ?_ ?_ ?_
  · intro i hi
    rw [Finset.mem_filter] at hi
    rw [Finset.mem_Ico]
    exact hi.2
  · intro i _ j _ hij
    exact Int.ofNat_inj.mp hij
  · intro x hx
    rw [Finset.mem_Ico] at hx
    refine ⟨x.toNat, ?_, by omega⟩
    rw [Finset.mem_filter, Finset.mem_range]
    omega
  · intro i _
    rw [Int.toNat_natCast]

/-- Three nested loops. -/
def nested (ds hs ws : List ℤ) : List (ℤ × ℤ × ℤ) := ds.flatMap fun d => hs.flatMap fun h => ws.map fun w => (d, h, w)

theorem mem_nested {ds hs ws : List ℤ} {x : ℤ × ℤ × ℤ} :
    x ∈ nested ds hs ws ↔ x.1 ∈ ds ∧ x.2.1 ∈ hs ∧ x.2.2 ∈ ws := by
  simp only [nested, List.mem_flatMap, List.mem_map]
  constructor
  · rintro ⟨d, hd, h, hh, w, hw, rfl⟩
    exact ⟨hd, hh, hw⟩
  · rintro ⟨hd, hh, hw⟩
    exact ⟨x.1, hd, x.2.1, hh, x.2.2, hw, rfl⟩

theorem sum_map_nested {M : Type*} [AddCommMonoid M] (ds hs ws : List ℤ) (f : ℤ → ℤ → ℤ → M) :
    ((nested ds hs ws).map fun x => f x.1 x.2.1 x.2.2).sum =
      (ds.map fun d => (hs.map fun h => (ws.map fun w => f d h w).sum).sum).sum := by
  simp only [nested, sum_map_flatMap_list, List.map_map]
  rfl

/-! ## One dimension -/

namespace Axis

variable {a : Axis}

/-- The window `o` covers the element `i` of the image. -/
def Covers (a : Axis) (o i : ℤ) : Prop := o * a.s - a.pad ≤ i ∧ i < o * a.s - a.pad + a.k

instance (o i : ℤ) : Decidable (a.Covers o i) := inferInstanceAs (Decidable (_ ∧ _))

theorem startOffset_eq (o : ℤ) : a.startOffset o = a.start o := by
  unfold startOffset applyOffset start
  split_ifs <;> omega

theorem start_nonneg (o : ℤ) : 0 ≤ a.start o := le_max_right _ _

theorem stop_le (o : ℤ) : a.stop o ≤ a.i := min_le_right _ _

theorem mem_window {o : ℤ} {i : ℕ} (hi : i < a.i) : (a.start o ≤ i ∧ (i : ℤ) < a.stop o) ↔ a.Covers o i := by
  unfold start stop Covers
  omega

/-- The elements of the image in a window. -/
theorem sum_window {M : Type*} [AddCommMonoid M] (o : ℤ) (f : ℕ → M) :
    ∑ x ∈ Finset.Ico (a.start o) (a.stop o), f x.toNat = ∑ i ∈ Finset.range a.i, if a.Covers o i then f i else 0 := by
  rw [sum_Ico_toNat (start_nonneg o) (stop_le o)]
  refine Finset.sum_congr rfl fun i hi => ?_
  rw [Finset.mem_range] at hi
  rw [if_congr (mem_window hi) rfl rfl]

/-- The loops over the outputs leave out windows that do not meet the image. -/
theorem outputs_of_tap {o kern : ℤ} (hs : 0 < a.s) (ho : 0 ≤ o) (hlast : o < a.o) (hkern : 0 ≤ kern) (hk : kern < a.k)
    (hinside : ¬ a.Outside (a.tap o kern)) : a.oStart ≤ o ∧ o < a.oEnd := by
  unfold Outside tap at hinside
  have hlow : 0 ≤ o * a.s - a.pad + kern := by omega
  have hhigh : o * a.s - a.pad + kern < a.i := by omega
  have hpos : (0 : ℤ) < a.s := by omega
  constructor
  · unfold oStart intDivUp
    refine max_le ho ?_
    have hnum : (a.pad : ℤ) - a.k + 1 + a.s - 1 < (o + 1) * a.s := by
      rw [add_mul, one_mul]
      omega
    by_cases hneg : 0 ≤ (a.pad : ℤ) - a.k + 1 + a.s - 1
    · rw [Int.tdiv_eq_ediv_of_nonneg hneg]
      have hlt := Int.ediv_lt_of_lt_mul hpos hnum
      omega
    · have htrunc : ((a.pad : ℤ) - a.k + 1 + a.s - 1).tdiv a.s ≤ 0 := by
        rw [← neg_neg ((a.pad : ℤ) - a.k + 1 + a.s - 1), Int.neg_tdiv]
        have hquot := Int.tdiv_nonneg (show 0 ≤ -((a.pad : ℤ) - a.k + 1 + a.s - 1) by omega) hpos.le
        omega
      omega
  · unfold oEnd
    refine lt_min hlast ?_
    rw [Int.tdiv_eq_ediv_of_nonneg (by nlinarith)]
    have hle : o ≤ ((a.pad : ℤ) + a.i - 1) / a.s := by
      rw [Int.le_ediv_iff_mul_le hpos]
      omega
    omega

theorem Covers.outside {o : ℤ} {i : ℕ} (h : a.Covers o i) (hi : i < a.i) :
    ∃ kern, 0 ≤ kern ∧ kern < (a.k : ℤ) ∧ a.tap o kern = i ∧ ¬ a.Outside (a.tap o kern) := by
  obtain ⟨hlow, hhigh⟩ := h
  refine ⟨i - (o * a.s - a.pad), by omega, by omega, ?_, ?_⟩
  · unfold tap
    omega
  · unfold Outside tap
    omega

/-- Bounds of a loop over outputs that leave out no window that covers an element of the image. -/
structure Encloses (a : Axis) (i : ℕ) (start stop : ℤ) : Prop where
  nonneg : 0 ≤ start
  le : stop ≤ a.o
  covers : ∀ o : ℕ, o < a.o → a.Covers o i → start ≤ o ∧ o < stop

theorem oStart_nonneg : 0 ≤ a.oStart := le_max_left _ _

theorem oEnd_le : a.oEnd ≤ a.o := min_le_left _ _

/-- The loops that scatter. -/
theorem encloses_oStart (hs : 0 < a.s) {i : ℕ} (hi : i < a.i) : a.Encloses i a.oStart a.oEnd where
  nonneg := oStart_nonneg
  le := oEnd_le
  covers o ho hcov := by
    obtain ⟨kern, hlow, hhigh, -, hinside⟩ := hcov.outside hi
    exact outputs_of_tap hs (Int.natCast_nonneg o) (by omega) hlow hhigh hinside

/-- The loops that gather. -/
theorem encloses_oLeft (hs : 0 < a.s) (i : ℕ) : a.Encloses i (a.oLeft i) (a.oRight i) where
  nonneg := le_max_right _ _
  le := min_le_right _ _
  covers o ho hcov := by
    obtain ⟨hlow, hhigh⟩ := hcov
    have hpos : (0 : ℤ) < a.s := by omega
    constructor
    · unfold oLeft
      refine max_le ?_ (Int.natCast_nonneg o)
      have hnum : (i : ℤ) + a.pad - a.k + 1 ≤ o * a.s := by omega
      by_cases hneg : 0 ≤ (i : ℤ) + a.pad - a.k + 1
      · rw [Int.tdiv_eq_ediv_of_nonneg hneg]
        exact Int.ediv_le_of_le_mul hpos hnum
      · rw [← neg_neg ((i : ℤ) + a.pad - a.k + 1), Int.neg_tdiv]
        have hquot := Int.tdiv_nonneg (show 0 ≤ -((i : ℤ) + a.pad - a.k + 1) by omega) hpos.le
        omega
    · unfold oRight
      refine lt_min ?_ (by omega)
      rw [Int.tdiv_eq_ediv_of_nonneg (by omega)]
      have hle : (o : ℤ) ≤ ((i : ℤ) + a.pad) / a.s := by
        rw [Int.le_ediv_iff_mul_le hpos]
        omega
      omega

/-- Every output with a window that covers the element is in the loop. -/
theorem Encloses.sum {M : Type*} [AddCommMonoid M] {start stop : ℤ} {i : ℕ} (h : a.Encloses i start stop) (f : ℕ → M) :
    (∑ o ∈ Finset.Ico start stop, if a.Covers o i then f o.toNat else 0) =
      ∑ o ∈ Finset.range a.o, if a.Covers o i then f o else 0 := by
  have hcast : (∑ o ∈ Finset.Ico start stop, if a.Covers o i then f o.toNat else 0) =
      ∑ o ∈ Finset.Ico start stop, (fun o : ℕ => if a.Covers o i then f o else 0) o.toNat := by
    refine Finset.sum_congr rfl fun o ho => ?_
    rw [Finset.mem_Ico] at ho
    have hnonneg : 0 ≤ o := le_trans h.nonneg ho.1
    dsimp only
    rw [Int.toNat_of_nonneg hnonneg]
  rw [hcast]
  refine (sum_Ico_toNat h.nonneg h.le fun o : ℕ => if a.Covers o i then f o else 0).trans ?_
  refine Finset.sum_congr rfl fun o ho => ?_
  rw [Finset.mem_range] at ho
  by_cases hcov : a.Covers o i
  · rw [if_pos (h.covers o ho hcov)]
  · rw [if_neg hcov, ite_self]

end Axis

end Pooling

namespace PoolingPd

open Pooling

variable {pd : PoolingPd}

/-! ## Three dimensions -/

/-- The window of an output covers the element `i` of the image. -/
def Covers (pd : PoolingPd) (od oh ow : ℤ) (i : ℕ × ℕ × ℕ) : Prop :=
  pd.d.Covers od i.1 ∧ pd.h.Covers oh i.2.1 ∧ pd.w.Covers ow i.2.2

instance (od oh ow : ℤ) (i : ℕ × ℕ × ℕ) : Decidable (pd.Covers od oh ow i) := inferInstanceAs (Decidable (_ ∧ _ ∧ _))

/-- The elements of an image. -/
def image (pd : PoolingPd) : Finset (ℕ × ℕ × ℕ) := box3 pd.d.i pd.h.i pd.w.i

/-- The outputs of an image. -/
def windows (pd : PoolingPd) : Finset (ℕ × ℕ × ℕ) := box3 pd.d.o pd.h.o pd.w.o

theorem mem_image {i : ℕ × ℕ × ℕ} : i ∈ pd.image ↔ i.1 < pd.d.i ∧ i.2.1 < pd.h.i ∧ i.2.2 < pd.w.i := mem_box3

theorem mem_windows {o : ℕ × ℕ × ℕ} : o ∈ pd.windows ↔ o.1 < pd.d.o ∧ o.2.1 < pd.h.o ∧ o.2.2 < pd.w.o := mem_box3

/-- The strides and the kernel are positive. -/
structure Regular (pd : PoolingPd) : Prop where
  d : 0 < pd.d.s ∧ 0 < pd.d.k
  h : 0 < pd.h.s ∧ 0 < pd.h.k
  w : 0 < pd.w.s ∧ 0 < pd.w.k

theorem Accepted.regular (h : pd.Accepted) : pd.Regular := by
  have hndims := h.ndims
  refine ⟨?_, ?_, ?_⟩
  · unfold PoolingPd.d
    split_ifs
    · exact ⟨h.stride _ (by omega), h.kernel _ (by omega)⟩
    · exact ⟨Nat.one_pos, Nat.one_pos⟩
  · unfold PoolingPd.h
    split_ifs
    · exact ⟨h.stride _ (by omega), h.kernel _ (by omega)⟩
    · exact ⟨Nat.one_pos, Nat.one_pos⟩
  · exact ⟨h.stride _ (by omega), h.kernel _ (by omega)⟩

section Sums

variable {M : Type*} [AddCommMonoid M]

/-- The elements of the image in a window. -/
theorem sum_window (pd : PoolingPd) (od oh ow : ℤ) (f : ℕ → ℕ → ℕ → M) :
    ∑ id ∈ Finset.Ico (pd.d.start od) (pd.d.stop od), ∑ ih ∈ Finset.Ico (pd.h.start oh) (pd.h.stop oh),
      ∑ iw ∈ Finset.Ico (pd.w.start ow) (pd.w.stop ow), f id.toNat ih.toNat iw.toNat =
        ∑ i ∈ pd.image, if pd.Covers od oh ow i then f i.1 i.2.1 i.2.2 else 0 := by
  have hw : ∀ id ih : ℤ, ∑ iw ∈ Finset.Ico (pd.w.start ow) (pd.w.stop ow), f id.toNat ih.toNat iw.toNat =
      ∑ iw ∈ Finset.range pd.w.i, if pd.w.Covers ow iw then f id.toNat ih.toNat iw else 0 :=
    fun id ih => Axis.sum_window ow fun iw => f id.toNat ih.toNat iw
  have hh : ∀ id : ℤ, ∑ ih ∈ Finset.Ico (pd.h.start oh) (pd.h.stop oh), ∑ iw ∈ Finset.range pd.w.i,
      (if pd.w.Covers ow iw then f id.toNat ih.toNat iw else 0) = ∑ ih ∈ Finset.range pd.h.i,
        if pd.h.Covers oh ih then ∑ iw ∈ Finset.range pd.w.i, if pd.w.Covers ow iw then f id.toNat ih iw else 0 else 0 :=
    fun id => Axis.sum_window oh fun ih => ∑ iw ∈ Finset.range pd.w.i, if pd.w.Covers ow iw then f id.toNat ih iw else 0
  simp only [hw, hh]
  refine (Axis.sum_window od fun id => ∑ ih ∈ Finset.range pd.h.i, if pd.h.Covers oh ih then
    ∑ iw ∈ Finset.range pd.w.i, if pd.w.Covers ow iw then f id ih iw else 0 else 0).trans ?_
  exact sum_box3_ite _ _ _ f

/-- The windows that cover an element of the image. -/
theorem sum_nested_covers {i : ℕ × ℕ × ℕ} {dStart dStop hStart hStop wStart wStop : ℤ}
    (hd : pd.d.Encloses i.1 dStart dStop) (hh : pd.h.Encloses i.2.1 hStart hStop) (hw : pd.w.Encloses i.2.2 wStart wStop)
    (f : ℕ → ℕ → ℕ → M) :
    ((nested (intLoop dStart dStop) (intLoop hStart hStop) (intLoop wStart wStop)).map fun o =>
      if pd.Covers o.1 o.2.1 o.2.2 i then f o.1.toNat o.2.1.toNat o.2.2.toNat else 0).sum =
        ∑ o ∈ pd.windows, if pd.Covers o.1 o.2.1 o.2.2 i then f o.1 o.2.1 o.2.2 else 0 := by
  rw [sum_map_nested _ _ _ fun od oh ow => if pd.Covers od oh ow i then f od.toNat oh.toNat ow.toNat else 0]
  simp only [sum_map_intLoop]
  have hrow : ∀ od oh : ℤ, (∑ ow ∈ Finset.Ico wStart wStop,
      if pd.Covers od oh ow i then f od.toNat oh.toNat ow.toNat else 0) =
        if pd.d.Covers od i.1 then if pd.h.Covers oh i.2.1 then ∑ ow ∈ Finset.range pd.w.o,
          if pd.w.Covers ow i.2.2 then f od.toNat oh.toNat ow else 0 else 0 else 0 := by
    intro od oh
    rw [← hw.sum]
    unfold Covers
    by_cases hd : pd.d.Covers od i.1
    · by_cases hh : pd.h.Covers oh i.2.1
      · simp only [hd, hh, true_and, if_true]
      · simp [hh]
    · simp [hd]
  have hplane : ∀ od : ℤ, (∑ oh ∈ Finset.Ico hStart hStop, if pd.d.Covers od i.1 then if pd.h.Covers oh i.2.1 then
      ∑ ow ∈ Finset.range pd.w.o, if pd.w.Covers ow i.2.2 then f od.toNat oh.toNat ow else 0 else 0 else 0) =
        if pd.d.Covers od i.1 then ∑ oh ∈ Finset.range pd.h.o, if pd.h.Covers oh i.2.1 then
          ∑ ow ∈ Finset.range pd.w.o, if pd.w.Covers ow i.2.2 then f od.toNat oh ow else 0 else 0 else 0 := by
    intro od
    by_cases hd : pd.d.Covers od i.1
    · simp only [hd, if_true]
      exact hh.sum fun oh => ∑ ow ∈ Finset.range pd.w.o, if pd.w.Covers ow i.2.2 then f od.toNat oh ow else 0
    · simp [hd]
  simp only [hrow, hplane]
  refine (hd.sum fun od => ∑ oh ∈ Finset.range pd.h.o, if pd.h.Covers oh i.2.1 then
    ∑ ow ∈ Finset.range pd.w.o, if pd.w.Covers ow i.2.2 then f od oh ow else 0 else 0).trans ?_
  exact sum_box3_ite _ _ _ f

/-- The loops that scatter reach every window that covers an element of the image. -/
theorem Regular.sum_outputs (hpd : pd.Regular) {i : ℕ × ℕ × ℕ} (hi : i ∈ pd.image) (f : ℕ → ℕ → ℕ → M) :
    (pd.outputs.map fun o => if pd.Covers o.1 o.2.1 o.2.2 i then f o.1.toNat o.2.1.toNat o.2.2.toNat else 0).sum =
      ∑ o ∈ pd.windows, if pd.Covers o.1 o.2.1 o.2.2 i then f o.1 o.2.1 o.2.2 else 0 := by
  obtain ⟨hid, hih, hiw⟩ := mem_image.mp hi
  exact sum_nested_covers (Axis.encloses_oStart hpd.d.1 hid) (Axis.encloses_oStart hpd.h.1 hih)
    (Axis.encloses_oStart hpd.w.1 hiw) f

end Sums

end PoolingPd

end MklDnn
