import Mathlib.Data.Set.Function
import Mathlib.Tactic.Ring
import MklDnn.Common.Proofs.NdIteratorProofs
import MklDnn.InnerProduct.Proofs.ConsistencyCheckProofs
import MklDnn.Lib.Box
import MklDnn.Memory.Proofs.BufferSizeProofs
import MklDnn.Memory.Proofs.TagsProofs

/-!
# Proofs: the layouts of an inner product

The loops over one dimension of a blocked tensor, and the offsets of the elements of one image.
-/

open LoopNest Offsets

namespace MklDnn

/-! ## Positions -/

/-- The positions of a tensor with the given extents. -/
def positions (ds : List ℕ) : List (List ℕ) := (List.range ds.prod).map (ndIndex ds)

theorem mem_positions {ds p : List ℕ} : p ∈ positions ds ↔ List.Forall₂ (· < ·) p ds := mem_map_ndIndex

theorem nodup_positions (ds : List ℕ) : (positions ds).Nodup :=
  List.Nodup.map_on (fun _ hi _ hj h => ndIndex_inj (List.mem_range.mp hi) (List.mem_range.mp hj) h) List.nodup_range

@[simp] theorem positions_nil : positions [] = [[]] := rfl

theorem positions_cons (d : ℕ) (ds : List ℕ) :
    positions (d :: ds) = (List.range d).flatMap fun i => (positions ds).map (i :: ·) := by
  unfold positions
  have hrow : ∀ i ∈ List.range d, ((List.range ds.prod).map (ndIndex ds)).map (i :: ·) =
      (List.range ds.prod).map fun r => ndIndex (d :: ds) (i * ds.prod + r) := by
    intro i hi
    rw [List.map_map]
    exact List.map_congr_left fun r hr => (ndIndex_mul_add (List.mem_range.mp hi) (List.mem_range.mp hr)).symm
  rw [List.flatMap_congr hrow, flatMap_range_map ds.prod (fun q r => ndIndex (d :: ds) (q * ds.prod + r)) d, List.prod_cons]
  refine List.map_congr_left fun l _ => ?_
  rw [Nat.div_add_mod']

/-- The sum of one term for each index, the first of which belongs to dimension `a`. -/
def termSum (g : ℕ → ℕ → ℤ) : ℕ → List ℕ → ℤ
  | _, [] => 0
  | a, x :: t => g a x + termSum g (a + 1) t

theorem termSum_eq_sum (g : ℕ → ℕ → ℤ) (a : ℕ) (t : List ℕ) :
    termSum g a t = ∑ i ∈ Finset.range t.length, g (a + i) (t.getD i 0) := by
  induction t generalizing a with
  | nil => rfl
  | cons x t ih =>
    rw [termSum, ih, List.length_cons, Finset.sum_range_succ', add_comm]
    congr 1
    refine Finset.sum_congr rfl fun i _ => ?_
    rw [List.getD_cons_succ, Nat.add_assoc, Nat.add_comm 1]

theorem termSum_smul {g h : ℕ → ℕ → ℤ} {c : ℤ} {f : ℕ → ℕ} {a m : ℕ} {t : List ℕ}
    (ht : List.Forall₂ (· < ·) t ((List.range' a m).map f))
    (hgh : ∀ d, a ≤ d → d < a + m → ∀ x < f d, g d x = c * h d x) : termSum g a t = c * termSum h a t := by
  induction m generalizing a t with
  | zero =>
    cases ht
    exact (mul_zero c).symm
  | succ m ih =>
    rw [List.range'_succ, List.map_cons] at ht
    cases ht with
    | @cons x _ t _ hx ht =>
      rw [termSum, termSum, hgh a le_rfl (by omega) x hx, ih ht fun d hd hdm => hgh d (by omega) (by omega), mul_add]

theorem termSum_replace {g : ℕ → ℕ → ℤ} (hg : ∀ d, g d 0 = 0) {a m e : ℕ} (v : ℕ) (ha : a ≤ e) (he : e < a + m) :
    termSum g a ((List.range' a m).map fun d => if d = e then v else 0) = g e v := by
  rw [termSum_eq_sum, List.length_map, List.length_range', Finset.sum_eq_single (e - a)]
  · rw [List.getD_eq_getElem?_getD, List.getElem?_map, List.getElem?_range' (by omega), Option.map_some, Option.getD_some,
      Nat.one_mul, Nat.add_sub_cancel' ha, if_pos rfl]
  · intro i hi hne
    rw [Finset.mem_range] at hi
    rw [List.getD_eq_getElem?_getD, List.getElem?_map, List.getElem?_range' hi, Option.map_some, Option.getD_some,
      Nat.one_mul, if_neg (by omega), hg]
  · intro hni
    exact absurd (Finset.mem_range.mpr (by omega)) hni

/-! ## A further innermost block -/

theorem innerBlocks_concat (L : List InnerBlk) (c : InnerBlk) (d : ℕ) :
    innerBlocks (L ++ [c]) d = innerBlocks L d * if c.idx = d then c.blk else 1 := by
  induction L with
  | nil => rw [List.nil_append, innerBlocks_cons, innerBlocks_nil, Nat.mul_one, Nat.one_mul]
  | cons b L ih => rw [List.cons_append, innerBlocks_cons, innerBlocks_cons, ih, Nat.mul_assoc]

theorem blockSize_concat (L : List InnerBlk) (c : InnerBlk) : blockSize (L ++ [c]) = blockSize L * c.blk := by
  rw [blockSize, List.map_append, List.prod_append]
  exact congrArg (blockSize L * ·) List.prod_singleton

/-- A block of another dimension moves the elements apart. -/
theorem innerOff_concat_of_ne {L : List InnerBlk} {c : InnerBlk} {d : ℕ} (h : c.idx ≠ d) (x : ℕ) :
    innerOff (L ++ [c]) d x = c.blk * innerOff L d x := by
  induction L with
  | nil => simp [innerOff, h]
  | cons b L ih =>
    rw [List.cons_append, innerOff, innerOff, ih, innerBlocks_concat, if_neg h, Nat.mul_one, blockSize_concat, Nat.mul_add]
    congr 1
    split_ifs <;> ring

theorem innerOff_concat_self (L : List InnerBlk) (c : InnerBlk) (x : ℕ) :
    innerOff (L ++ [c]) c.idx x = x % c.blk + c.blk * innerOff L c.idx (x / c.blk) := by
  induction L with
  | nil => simp [innerOff]
  | cons b L ih =>
    rw [List.cons_append, innerOff, innerOff, ih, innerBlocks_concat, if_pos rfl, blockSize_concat,
      Nat.mul_comm (innerBlocks L c.idx), ← Nat.div_div_eq_div_mul, Nat.mul_add, Nat.add_assoc]
    congr 2
    split_ifs <;> ring

namespace MemoryDesc

variable {md : MemoryDesc}

/-! ## The loops of one dimension -/

/-- The loops over dimension `d`: over its outer blocks, then over its inner blocks from the outermost one. -/
def dimLoops (md : MemoryDesc) (d : ℕ) : List (ℕ × ℤ) :=
  (md.outerBlocks d, md.blocking.strides d) :: (dimNodes md.blocking.inner d).map fun x => (x.1, (x.2 : ℤ))

theorem iterations_dimNodes (L : List InnerBlk) (d : ℕ) :
    iterations ((dimNodes L d).map fun x => (x.1, (x.2 : ℤ))) = innerBlocks L d := by
  unfold iterations
  rw [List.map_map, ← prod_dimNodes]
  rfl

theorem iterationOff_dimNodes (L : List InnerBlk) (d x : ℕ) :
    iterationOff ((dimNodes L d).map fun x => (x.1, (x.2 : ℤ))) (x % innerBlocks L d) = innerOff L d x := by
  induction L with
  | nil => rfl
  | cons b L ih =>
    rw [dimNodes, innerBlocks_cons, innerOff]
    by_cases h : b.idx = d
    · rw [if_pos h, if_pos h, if_pos h, List.map_cons, iterationOff, iterations_dimNodes, Nat.mod_mul_left_div_self,
        Nat.mod_mul_left_mod, ih]
      push_cast
      ring
    · rw [if_neg h, if_neg h, if_neg h, Nat.one_mul, ih, Nat.add_zero]

theorem iterationOff_dimLoops (md : MemoryDesc) (d x : ℕ) : iterationOff (md.dimLoops d) x = md.dimOff d x := by
  rw [dimLoops, iterationOff, iterations_dimNodes, iterationOff_dimNodes, dimOff, add_comm]

theorem dimNodes_pos {L : List InnerBlk} {n : ℕ} (hL : ValidInner n L) (d : ℕ) : ∀ x ∈ dimNodes L d, 0 < x.1 := by
  induction L with
  | nil =>
    intro x hx
    cases hx
  | cons b L ih =>
    intro x hx
    rw [dimNodes] at hx
    split_ifs at hx
    · rcases List.mem_cons.mp hx with rfl | hx
      · exact hL.head.2
      · exact ih hL.tail x hx
    · exact ih hL.tail x hx

theorem dimOff_zero (md : MemoryDesc) (d : ℕ) : md.dimOff d 0 = 0 := by
  rw [dimOff, innerOff_zero, Nat.zero_div, Nat.cast_zero, zero_mul, add_zero]

namespace Operand

variable (h : md.Operand) {d : ℕ}

include h

theorem innerBlocks_pos (d : ℕ) : 0 < innerBlocks md.blocking.inner d := h.wellFormed.valid.innerBlocks_pos d

theorem outerBlocks_mul (hd : d < md.ndims) : md.outerBlocks d * innerBlocks md.blocking.inner d = md.paddedDims d :=
  Nat.div_mul_cancel (h.blocks d hd)

theorem iterations_dimLoops (hd : d < md.ndims) : iterations (md.dimLoops d) = md.paddedDims d := by
  rw [dimLoops, iterations_cons, iterations_dimNodes, h.outerBlocks_mul hd]

theorem dimLoops_pos (hd : d < md.ndims) (hpos : 0 < md.paddedDims d) : ∀ x ∈ md.dimLoops d, 0 < x.1 := by
  intro x hx
  rcases List.mem_cons.mp hx with rfl | hx
  · exact Nat.div_pos (Nat.le_of_dvd hpos (h.blocks d hd)) (h.innerBlocks_pos d)
  · obtain ⟨y, hy, rfl⟩ := List.mem_map.mp hx
    exact dimNodes_pos h.wellFormed.valid d y hy

/-- The indices of a dimension lie `s` apart exactly if its loops do. -/
theorem dimOff_iff_uniform (hd : d < md.ndims) (hpos : 0 < md.paddedDims d) (s : ℤ) :
    (∀ x < md.paddedDims d, md.dimOff d x = x * s) ↔ Uniform s (md.dimLoops d) := by
  rw [← forall_iterationOff_iff (h.dimLoops_pos hd hpos), h.iterations_dimLoops hd]
  simp only [iterationOff_dimLoops]

theorem ofList_dimOff (hd : d < md.ndims) :
    ofList (List.range (md.paddedDims d)) (md.dimOff d) = nest (md.dimLoops d) := by
  rw [← h.outerBlocks_mul hd, MemoryDesc.ofList_dimOff h.wellFormed.valid, map_nest, dimLoops, nest_cons]
  rfl

/-- The first element of the second outer block. -/
theorem dimOff_innerBlocks (d : ℕ) : md.dimOff d (innerBlocks md.blocking.inner d) = md.blocking.strides d := by
  have hoff := innerOff_mul_add md.blocking.inner d 1 0
  rw [Nat.one_mul, Nat.add_zero, innerOff_zero] at hoff
  rw [dimOff, hoff, Nat.div_self (h.innerBlocks_pos d), Nat.cast_zero, Nat.cast_one, one_mul, zero_add]

/-- An offset is the sum of the terms of the indices. -/
theorem off_cons (n : ℕ) {t : List ℕ} (ht : t.length = md.ndims - 1) (hnd : 0 < md.ndims) :
    md.off (n :: t) = md.dimOff 0 n + termSum md.dimOff 1 t := by
  have hsum := termSum_eq_sum md.dimOff 0 (n :: t)
  rw [termSum, List.length_cons, ht, Nat.sub_add_cancel hnd] at hsum
  rw [off, h.wellFormed.offV_eq, offV_padded h.wellFormed.valid, h.offset0, zero_add, hsum]
  exact Finset.sum_congr rfl fun i _ => by rw [Nat.zero_add]

end Operand

/-! ## One image -/

/-- The extents of an image, that is of all dimensions but the first one. -/
def imageDims (md : MemoryDesc) (extents : ℕ → ℕ) : List ℕ := (List.range' 1 (md.ndims - 1)).map extents

/-- The loops over the elements of an image, padding included. -/
def imageLoops (md : MemoryDesc) : List (ℕ × ℤ) := (List.range' 1 (md.ndims - 1)).flatMap md.dimLoops

theorem length_of_mem_image {extents : ℕ → ℕ} {t : List ℕ} (ht : t ∈ positions (md.imageDims extents)) :
    t.length = md.ndims - 1 := by
  rw [(mem_positions.mp ht).length_eq, imageDims, List.length_map, List.length_range']

theorem Operand.ofList_termSum (h : md.Operand) {a m : ℕ} (ham : a + m ≤ md.ndims) :
    ofList (positions ((List.range' a m).map md.paddedDims)) (termSum md.dimOff a) =
      nest ((List.range' a m).flatMap md.dimLoops) := by
  induction m generalizing a with
  | zero => rfl
  | succ m ih =>
    rw [List.range'_succ, List.map_cons, positions_cons, List.flatMap_cons, nest_append, ← ih (by omega),
      ← h.ofList_dimOff (by omega : a < md.ndims)]
    exact ofList_flatMap _ _ (fun x t => x :: t) _ _ _ fun x _ t _ => rfl

theorem Operand.iterations_imageLoops (h : md.Operand) :
    (md.imageLoops.map Prod.fst).prod = (md.imageDims md.paddedDims).prod := by
  have hgen : ∀ a m, a + m ≤ md.ndims → (((List.range' a m).flatMap md.dimLoops).map Prod.fst).prod =
      ((List.range' a m).map md.paddedDims).prod := by
    intro a m
    induction m generalizing a with
    | zero =>
      intro _
      rfl
    | succ m ih =>
      intro ham
      rw [List.range'_succ, List.flatMap_cons, List.map_append, List.prod_append, ih (a + 1) (by omega), List.map_cons,
        List.prod_cons]
      congr 1
      exact h.iterations_dimLoops (by omega)
  rcases Nat.eq_zero_or_pos md.ndims with h0 | hpos
  · unfold imageLoops imageDims
    rw [h0]
    rfl
  · exact hgen 1 (md.ndims - 1) (by omega)

/-- An image fills an interval of offsets exactly if its loops can be nested. -/
theorem Operand.bijOn_image_iff (h : md.Operand) (hnd : 0 < md.ndims) :
    Set.BijOn (fun t => md.off (0 :: t)) {t | t ∈ positions (md.imageDims md.paddedDims)}
      {y | 0 ≤ y ∧ y < (((md.imageDims md.paddedDims).prod : ℕ) : ℤ)} ↔ Nestable md.imageLoops := by
  rw [bijOn_iff_ofList_eq (nodup_positions _), ← nest_eq_strided_iff, h.iterations_imageLoops]
  have hoff : ofList (positions (md.imageDims md.paddedDims)) (fun t => md.off (0 :: t)) = nest md.imageLoops := by
    rw [imageLoops, ← h.ofList_termSum (a := 1) (m := md.ndims - 1) (by omega)]
    refine ofList_congr fun t ht => ?_
    rw [h.off_cons 0 (length_of_mem_image ht) hnd, dimOff_zero, zero_add]
  rw [hoff]

end MemoryDesc

end MklDnn
