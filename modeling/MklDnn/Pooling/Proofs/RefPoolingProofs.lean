import Mathlib.Algebra.BigOperators.Field
import Mathlib.Data.Rat.Defs
import Mathlib.Tactic.Ring
import MklDnn.Common.Proofs.UtilsProofs
import MklDnn.Pooling.Proofs.ScatterProofs

/-!
# Proofs: average pooling and its gradient are adjoint

The forward pass sums over the elements that a window covers, the backward pass over the windows that cover an element. The
reference addresses a tensor of three dimensions with four indices, so that it does not tell the columns apart.
-/

open LoopNest Interleaving

namespace MklDnn

open Pooling

namespace PoolingPd

variable {pd : PoolingPd}

/-! ## An image -/

section Image

variable {R : Type*} [Field R]

theorem numSummands_startOffset (pd : PoolingPd) (od oh ow : ℤ) :
    pd.numSummands Axis.startOffset od oh ow = pd.numSummands Axis.start od oh ow := by
  unfold numSummands
  rw [Axis.startOffset_eq, Axis.startOffset_eq, Axis.startOffset_eq]

/-- The average of the elements that a window covers. -/
theorem kerAvgFwd_eq {start : Axis → ℤ → ℤ} (hstart : ∀ a o, start a o = a.start o) (x : ℕ → ℕ → ℕ → R) (od oh ow : ℕ) :
    pd.kerAvgFwd start x od oh ow = (∑ i ∈ pd.image, if pd.Covers od oh ow i then x i.1 i.2.1 i.2.2 else 0) /
      (pd.numSummands Axis.start od oh ow : R) := by
  have hsame : start = Axis.start := by
    funext a o
    exact hstart a o
  subst hsame
  unfold kerAvgFwd
  simp only [sum_map_intLoop]
  rw [sum_window pd od oh ow x]

/-- The two sides of a pair of a window and an element that it covers. -/
theorem sum_kerAvgFwd_mul (pd : PoolingPd) {start : Axis → ℤ → ℤ} (hstart : ∀ a o, start a o = a.start o) (x y : ℕ → ℕ → ℕ → R) :
    ∑ o ∈ pd.windows, pd.kerAvgFwd start x o.1 o.2.1 o.2.2 * y o.1 o.2.1 o.2.2 =
      ∑ i ∈ pd.image, x i.1 i.2.1 i.2.2 * pd.avgGradient y i := by
  simp only [kerAvgFwd_eq hstart]
  unfold avgGradient
  simp only [Finset.mul_sum, Finset.sum_div, Finset.sum_mul]
  rw [Finset.sum_comm]
  refine Finset.sum_congr rfl fun i _ => Finset.sum_congr rfl fun o _ => ?_
  split_ifs
  · ring
  · rw [zero_div, zero_mul, mul_zero]

end Image

/-! ## Positions -/

/-- The extents of the source. -/
def srcShape (pd : PoolingPd) : List ℕ := (List.range pd.ndims).map pd.srcDims

def dstShape (pd : PoolingPd) : List ℕ := (List.range pd.dstNdims).map pd.dstDims

/-- The position of an element, with the dimensions that the problem has. -/
def dataPos (pd : PoolingPd) (mb c d h w : ℕ) : List ℕ :=
  if pd.ndims = 5 then [mb, c, d, h, w] else if pd.ndims = 4 then [mb, c, h, w] else [mb, c, w]

/-- The reference has an address for every element: the ranks are the same, and a problem of one dimension has not more than
one column. -/
def Addressable (pd : PoolingPd) : Prop :=
  pd.dstNdims = pd.ndims ∧ (pd.ndims = 3 → pd.MB = 0 ∨ pd.C = 0 ∨ (pd.w.i ≤ 1 ∧ pd.w.o ≤ 1))

section Positions

variable (h : pd.Accepted)

include h

/-- The depth and the height of a problem that does not have them. -/
theorem Accepted.lower_rank : (pd.ndims ≠ 5 → pd.d = ⟨1, 1, 1, 1, 0⟩) ∧ (pd.ndims = 3 → pd.h = ⟨1, 1, 1, 1, 0⟩) := by
  have hndims := h.ndims
  unfold PoolingPd.d PoolingPd.h
  constructor
  · intro hn
    rw [if_neg (by omega)]
  · intro hn
    rw [if_neg (by omega)]

theorem Accepted.sum_srcShape {M : Type*} [AddCommMonoid M] (f : List ℕ → M) : sumPositions pd.srcShape f =
    ∑ mb ∈ Finset.range pd.MB, ∑ c ∈ Finset.range pd.C, ∑ i ∈ pd.image, f (pd.dataPos mb c i.1 i.2.1 i.2.2) := by
  unfold image
  have hbox : ∀ mb c, ∑ i ∈ box3 pd.d.i pd.h.i pd.w.i, f (pd.dataPos mb c i.1 i.2.1 i.2.2) = ∑ id ∈ Finset.range pd.d.i,
      ∑ ih ∈ Finset.range pd.h.i, ∑ iw ∈ Finset.range pd.w.i, f (pd.dataPos mb c id ih iw) :=
    fun mb c => (sum_box3 _ _ _ fun id ih iw => f (pd.dataPos mb c id ih iw)).symm
  simp only [hbox]
  unfold srcShape MB C PoolingPd.d PoolingPd.h PoolingPd.w dataPos
  rcases h.ndims with hn | hn | hn <;> simp [hn, List.range_succ, one_nsmul]

theorem Accepted.sum_dstShape (hrank : pd.dstNdims = pd.ndims) {M : Type*} [AddCommMonoid M] (f : List ℕ → M) :
    sumPositions pd.dstShape f =
      ∑ mb ∈ Finset.range pd.MB, ∑ c ∈ Finset.range pd.C, ∑ o ∈ pd.windows, f (pd.dataPos mb c o.1 o.2.1 o.2.2) := by
  unfold windows
  have hbox : ∀ mb c, ∑ o ∈ box3 pd.d.o pd.h.o pd.w.o, f (pd.dataPos mb c o.1 o.2.1 o.2.2) = ∑ od ∈ Finset.range pd.d.o,
      ∑ oh ∈ Finset.range pd.h.o, ∑ ow ∈ Finset.range pd.w.o, f (pd.dataPos mb c od oh ow) :=
    fun mb c => (sum_box3 _ _ _ fun od oh ow => f (pd.dataPos mb c od oh ow)).symm
  simp only [hbox]
  unfold dstShape MB C PoolingPd.d PoolingPd.h PoolingPd.w dataPos
  rw [hrank, h.mb, h.c]
  rcases h.ndims with hn | hn | hn <;> simp [hn, List.range_succ, one_nsmul]

/-- The address of the reference, in a problem that it can address. -/
theorem Accepted.off_eq (haddr : pd.Addressable) {mb c D H W : ℕ} (hD : pd.ndims ≠ 5 → D = 0) (hH : pd.ndims = 3 → H = 0)
    (hW : pd.ndims = 3 → W = 0) :
    RefPooling.srcOff pd mb c D H W = pd.dataPos mb c D H W ∧ RefPooling.dstOff pd mb c D H W = pd.dataPos mb c D H W := by
  unfold RefPooling.srcOff RefPooling.dstOff RefPooling.off is3d dataPos
  rw [haddr.1]
  rcases h.ndims with hn | hn | hn
  · have hd := hD (by omega)
    have hh := hH hn
    have hw := hW hn
    simp [hn, hh, hw, List.range_succ]
  · simp [hn, List.range_succ]
  · simp [hn, List.range_succ]

/-- Different elements have different positions. -/
theorem Accepted.dataPos_inj {mb c D H W mb' c' D' H' W' : ℕ} (hD : pd.ndims ≠ 5 → D = 0 ∧ D' = 0)
    (hH : pd.ndims = 3 → H = 0 ∧ H' = 0) (heq : pd.dataPos mb c D H W = pd.dataPos mb' c' D' H' W') :
    mb = mb' ∧ c = c' ∧ D = D' ∧ H = H' ∧ W = W' := by
  unfold dataPos at heq
  rcases h.ndims with hn | hn | hn
  · have hd := hD (by omega)
    have hh := hH hn
    simp [hn] at heq
    omega
  · have hd := hD (by omega)
    simp [hn] at heq
    omega
  · simp [hn] at heq
    omega

theorem Accepted.srcOff_eq (haddr : pd.Addressable) {mb c : ℕ} {i : ℕ × ℕ × ℕ} (hi : pd.InTensor pd.image mb c i) :
    RefPooling.srcOff pd mb c i.1 i.2.1 i.2.2 = pd.dataPos mb c i.1 i.2.1 i.2.2 := by
  obtain ⟨hmb, hc, hi⟩ := hi
  rw [mem_image] at hi
  obtain ⟨hid, hih, hiw⟩ := hi
  refine (h.off_eq haddr (fun hn => ?_) (fun hn => ?_) fun hn => ?_).1
  · rw [h.lower_rank.1 hn] at hid
    exact Nat.lt_one_iff.mp hid
  · rw [h.lower_rank.2 hn] at hih
    exact Nat.lt_one_iff.mp hih
  · rcases haddr.2 hn with hzero | hzero | ⟨hone, -⟩
    · omega
    · omega
    · omega

theorem Accepted.dstOff_eq (haddr : pd.Addressable) {mb c : ℕ} {o : ℕ × ℕ × ℕ} (ho : pd.InTensor pd.windows mb c o) :
    RefPooling.dstOff pd mb c o.1 o.2.1 o.2.2 = pd.dataPos mb c o.1 o.2.1 o.2.2 := by
  obtain ⟨hmb, hc, ho⟩ := ho
  rw [mem_windows] at ho
  obtain ⟨hod, hoh, how⟩ := ho
  refine (h.off_eq haddr (fun hn => ?_) (fun hn => ?_) fun hn => ?_).2
  · rw [h.lower_rank.1 hn] at hod
    exact Nat.lt_one_iff.mp hod
  · rw [h.lower_rank.2 hn] at hoh
    exact Nat.lt_one_iff.mp hoh
  · rcases haddr.2 hn with hzero | hzero | ⟨-, hone⟩
    · omega
    · omega
    · omega

theorem Accepted.separates_src (haddr : pd.Addressable) : pd.Separates pd.image (RefPooling.srcOff pd) := by
  intro mb c i mb' c' i' hi hi' heq
  rw [h.srcOff_eq haddr hi, h.srcOff_eq haddr hi'] at heq
  have hb := mem_image.mp hi.pos
  have hb' := mem_image.mp hi'.pos
  have hD : pd.ndims ≠ 5 → i.1 = 0 ∧ i'.1 = 0 := by
    intro hn
    rw [h.lower_rank.1 hn] at hb hb'
    exact ⟨Nat.lt_one_iff.mp hb.1, Nat.lt_one_iff.mp hb'.1⟩
  have hH : pd.ndims = 3 → i.2.1 = 0 ∧ i'.2.1 = 0 := by
    intro hn
    rw [h.lower_rank.2 hn] at hb hb'
    exact ⟨Nat.lt_one_iff.mp hb.2.1, Nat.lt_one_iff.mp hb'.2.1⟩
  obtain ⟨hmb, hc, h1, h2, h3⟩ := h.dataPos_inj hD hH heq
  exact ⟨hmb, hc, Prod.ext h1 (Prod.ext h2 h3)⟩

theorem Accepted.separates_dst (haddr : pd.Addressable) : pd.Separates pd.windows (RefPooling.dstOff pd) := by
  intro mb c o mb' c' o' ho ho' heq
  rw [h.dstOff_eq haddr ho, h.dstOff_eq haddr ho'] at heq
  have hb := mem_windows.mp ho.pos
  have hb' := mem_windows.mp ho'.pos
  have hD : pd.ndims ≠ 5 → o.1 = 0 ∧ o'.1 = 0 := by
    intro hn
    rw [h.lower_rank.1 hn] at hb hb'
    exact ⟨Nat.lt_one_iff.mp hb.1, Nat.lt_one_iff.mp hb'.1⟩
  have hH : pd.ndims = 3 → o.2.1 = 0 ∧ o'.2.1 = 0 := by
    intro hn
    rw [h.lower_rank.2 hn] at hb hb'
    exact ⟨Nat.lt_one_iff.mp hb.2.1, Nat.lt_one_iff.mp hb'.2.1⟩
  obtain ⟨hmb, hc, h1, h2, h3⟩ := h.dataPos_inj hD hH heq
  exact ⟨hmb, hc, Prod.ext h1 (Prod.ext h2 h3)⟩

end Positions

/-! ## The forward pass -/

/-- What loops over all outputs write, in any order, for every output. -/
theorem applyWrites_tensor {A V : Type*} [DecidableEq A] {off : ℕ → ℕ → ℕ → ℕ → ℕ → A} (hoff : pd.Separates pd.windows off)
    {value : ℕ → ℕ → ℕ → ℕ → ℕ → V} {l : List (A × V)} (hl : ∀ e, e ∈ l ↔ ∃ mb c o, pd.InTensor pd.windows mb c o ∧
      e = (off mb c o.1 o.2.1 o.2.2, value mb c o.1 o.2.1 o.2.2)) (m : A → V) {mb c : ℕ} {o : ℕ × ℕ × ℕ}
    (ho : pd.InTensor pd.windows mb c o) :
    applyWrites l m (off mb c o.1 o.2.1 o.2.2) = value mb c o.1 o.2.1 o.2.2 := by
  apply applyWrites_of_mem
  · intro e he e' he' heq
    obtain ⟨mb, c, o, hin, rfl⟩ := (hl e).mp he
    obtain ⟨mb', c', o', hin', rfl⟩ := (hl e').mp he'
    obtain ⟨rfl, rfl, rfl⟩ := hoff hin hin' heq
    rfl
  · exact (hl _).mpr ⟨mb, c, o, ho, rfl⟩

/-- The loops in the order `mb, c, d, h, w`. -/
theorem applyWrites_outputs {A V : Type*} [DecidableEq A] {off : ℕ → ℕ → ℕ → ℕ → ℕ → A} (hoff : pd.Separates pd.windows off)
    (value : ℕ → ℕ → ℕ → ℕ → ℕ → V) (m : A → V) {mb c : ℕ} {o : ℕ × ℕ × ℕ} (ho : pd.InTensor pd.windows mb c o) :
    applyWrites ((List.range pd.MB).flatMap fun mb => (List.range pd.C).flatMap fun c => (List.range pd.d.o).flatMap fun od =>
      (List.range pd.h.o).flatMap fun oh => (List.range pd.w.o).map fun ow => (off mb c od oh ow, value mb c od oh ow)) m
        (off mb c o.1 o.2.1 o.2.2) = value mb c o.1 o.2.1 o.2.2 := by
  refine applyWrites_tensor hoff (fun e => ?_) m ho
  simp only [List.mem_flatMap, List.mem_map, List.mem_range]
  constructor
  · rintro ⟨mb, hmb, c, hc, od, hod, oh, hoh, ow, how, rfl⟩
    exact ⟨mb, c, (od, oh, ow), ⟨hmb, hc, mem_windows.mpr ⟨hod, hoh, how⟩⟩, rfl⟩
  · rintro ⟨mb, c, o, hin, rfl⟩
    obtain ⟨hod, hoh, how⟩ := mem_windows.mp hin.pos
    exact ⟨mb, hin.mb, c, hin.c, o.1, hod, o.2.1, hoh, o.2.2, how, rfl⟩

/-- The loops in the order `mb, d, h, w, c`. -/
theorem applyWrites_channelsLast {A V : Type*} [DecidableEq A] {off : ℕ → ℕ → ℕ → ℕ → ℕ → A}
    (hoff : pd.Separates pd.windows off) (value : ℕ → ℕ → ℕ → ℕ → ℕ → V) (m : A → V) {mb c : ℕ} {o : ℕ × ℕ × ℕ}
    (ho : pd.InTensor pd.windows mb c o) :
    applyWrites ((List.range pd.MB).flatMap fun mb => (List.range pd.d.o).flatMap fun od =>
      (List.range pd.h.o).flatMap fun oh => (List.range pd.w.o).flatMap fun ow => (List.range pd.C).map fun c =>
        (off mb c od oh ow, value mb c od oh ow)) m (off mb c o.1 o.2.1 o.2.2) = value mb c o.1 o.2.1 o.2.2 := by
  refine applyWrites_tensor hoff (fun e => ?_) m ho
  simp only [List.mem_flatMap, List.mem_map, List.mem_range]
  constructor
  · rintro ⟨mb, hmb, od, hod, oh, hoh, ow, how, c, hc, rfl⟩
    exact ⟨mb, c, (od, oh, ow), ⟨hmb, hc, mem_windows.mpr ⟨hod, hoh, how⟩⟩, rfl⟩
  · rintro ⟨mb, c, o, hin, rfl⟩
    obtain ⟨hod, hoh, how⟩ := mem_windows.mp hin.pos
    exact ⟨mb, hin.mb, o.1, hod, o.2.1, hoh, o.2.2, how, c, hin.c, rfl⟩

end PoolingPd

end MklDnn
