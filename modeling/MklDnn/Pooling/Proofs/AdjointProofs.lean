import Mathlib.Algebra.Order.Ring.Rat
import MklDnn.Pooling.Proofs.PlainPoolingProofs

/-!
# Proofs: average pooling backward is the adjoint of forward

The forward pass sums over the elements that a window covers, the backward pass over the windows that cover an element.
-/

open LoopNest Interleaving

namespace MklDnn.PoolingPd

open Pooling

variable {pd : PoolingPd}

/-! ## The reference -/

/-- Backward is the adjoint of forward, whatever the destinations held. -/
def Adjoint (pd : PoolingPd) : Prop :=
  ∀ (lowest : ℚ) (ws : List ℕ → ℕ) (x y dst diffSrc : List ℕ → ℚ),
    sumPositions pd.dstShape (fun p => applyWrites (RefPooling.executeForward pd lowest x) dst p * y p) =
      sumPositions pd.srcShape (fun p => x p * execAll (RefPooling.executeBackward pd y ws) diffSrc p)

theorem Accepted.forward_avg (h : pd.Accepted) (halg : pd.alg ≠ .max) (haddr : pd.Addressable) (lowest : ℚ)
    (x dst : List ℕ → ℚ) {mb c : ℕ} {o : ℕ × ℕ × ℕ} (ho : pd.InTensor pd.windows mb c o) :
    applyWrites (RefPooling.executeForward pd lowest x) dst (pd.dataPos mb c o.1 o.2.1 o.2.2) =
      pd.kerAvgFwd Axis.start (fun id ih iw => x (RefPooling.srcOff pd mb c id ih iw)) o.1 o.2.1 o.2.2 := by
  rw [← h.dstOff_eq haddr ho]
  refine (applyWrites_outputs (h.separates_dst haddr) _ dst ho).trans ?_
  rw [if_neg halg]
  rfl

theorem Accepted.backward_avg (h : pd.Accepted) (halg : pd.alg ≠ .max) (haddr : pd.Addressable) (ws : List ℕ → ℕ)
    (y diffSrc : List ℕ → ℚ) {mb c : ℕ} {i : ℕ × ℕ × ℕ} (hi : pd.InTensor pd.image mb c i) :
    execAll (RefPooling.executeBackward pd y ws) diffSrc (pd.dataPos mb c i.1 i.2.1 i.2.2) =
      pd.avgGradient (fun od oh ow => y (RefPooling.dstOff pd mb c od oh ow)) i := by
  rw [← h.srcOff_eq haddr hi]
  exact h.regular.execAll_scatterImages_avg halg (fun _ _ => rfl) (h.separates_src haddr) diffSrc hi

theorem Accepted.adjoint (h : pd.Accepted) (halg : pd.alg ≠ .max) (haddr : pd.Addressable) : pd.Adjoint := by
  intro lowest ws x y dst diffSrc
  rw [h.sum_dstShape haddr.1, h.sum_srcShape]
  refine Finset.sum_congr rfl fun mb hmb => Finset.sum_congr rfl fun c hc => ?_
  rw [Finset.mem_range] at hmb hc
  calc ∑ o ∈ pd.windows, applyWrites (RefPooling.executeForward pd lowest x) dst (pd.dataPos mb c o.1 o.2.1 o.2.2) *
          y (pd.dataPos mb c o.1 o.2.1 o.2.2)
      = ∑ o ∈ pd.windows, pd.kerAvgFwd Axis.start (fun id ih iw => x (RefPooling.srcOff pd mb c id ih iw)) o.1 o.2.1 o.2.2 *
          y (RefPooling.dstOff pd mb c o.1 o.2.1 o.2.2) := by
        refine Finset.sum_congr rfl fun o ho => ?_
        rw [h.forward_avg halg haddr lowest x dst ⟨hmb, hc, ho⟩, h.dstOff_eq haddr ⟨hmb, hc, ho⟩]
    _ = ∑ i ∈ pd.image, x (RefPooling.srcOff pd mb c i.1 i.2.1 i.2.2) *
          pd.avgGradient (fun od oh ow => y (RefPooling.dstOff pd mb c od oh ow)) i :=
        pd.sum_kerAvgFwd_mul (fun _ _ => rfl) (fun id ih iw => x (RefPooling.srcOff pd mb c id ih iw))
          fun od oh ow => y (RefPooling.dstOff pd mb c od oh ow)
    _ = _ := by
        refine Finset.sum_congr rfl fun i hi => ?_
        rw [h.backward_avg halg haddr ws y diffSrc ⟨hmb, hc, hi⟩, h.srcOff_eq haddr ⟨hmb, hc, hi⟩]

/-! ## Problems of one dimension -/

section Line

variable (h : pd.Accepted) (hn : pd.ndims = 3) (hrank : pd.dstNdims = pd.ndims)

include h hn

/-- The reference addresses the first column only. -/
theorem Accepted.srcOff_line {mb c : ℕ} {i : ℕ × ℕ × ℕ} (hi : i ∈ pd.image) :
    RefPooling.srcOff pd mb c i.1 i.2.1 i.2.2 = [mb, c, 0] := by
  rw [mem_image, h.lower_rank.2 hn] at hi
  have hih : i.2.1 = 0 := Nat.lt_one_iff.mp hi.2.1
  unfold RefPooling.srcOff RefPooling.off is3d
  simp [hn, hih, List.range_succ]

include hrank in
theorem Accepted.dstOff_line {mb c : ℕ} {o : ℕ × ℕ × ℕ} (ho : o ∈ pd.windows) :
    RefPooling.dstOff pd mb c o.1 o.2.1 o.2.2 = [mb, c, 0] := by
  rw [mem_windows, h.lower_rank.2 hn] at ho
  have hoh : o.2.1 = 0 := Nat.lt_one_iff.mp ho.2.1
  unfold RefPooling.dstOff RefPooling.off is3d
  rw [hrank]
  simp [hn, hoh, List.range_succ]

include hrank in
/-- The forward pass leaves out the second column. -/
theorem Accepted.forward_line (lowest : ℚ) (x dst : List ℕ → ℚ) :
    applyWrites (RefPooling.executeForward pd lowest x) dst [0, 0, 1] = dst [0, 0, 1] := by
  apply applyWrites_of_notMem
  intro e he
  unfold RefPooling.executeForward at he
  simp only [List.mem_flatMap, List.mem_map, List.mem_range] at he
  obtain ⟨mb, -, c, -, od, hod, oh, hoh, ow, how, rfl⟩ := he
  dsimp only
  have hoff : RefPooling.dstOff pd mb c od oh ow = [mb, c, 0] :=
    h.dstOff_line hn hrank (o := (od, oh, ow)) (mem_windows.mpr ⟨hod, hoh, how⟩)
  rw [hoff]
  simp

theorem Accepted.backward_line (ws : List ℕ → ℕ) (y diffSrc : List ℕ → ℚ) :
    execAll (RefPooling.executeBackward pd y ws) diffSrc [0, 0, 1] = diffSrc [0, 0, 1] := by
  apply execAll_of_ne
  intro e he
  unfold RefPooling.executeBackward scatterImages at he
  obtain ⟨mb, -, he⟩ := List.mem_flatMap.mp he
  obtain ⟨c, -, he⟩ := List.mem_flatMap.mp he
  obtain ⟨i, hi, hdst⟩ := dst_of_mem_scatter (fun _ _ => rfl) he
  rw [← hdst, h.srcOff_line hn hi]
  simp

include hrank in
/-- With a second column, one of the sides depends on what the destination held. -/
theorem Accepted.not_adjoint_line (hmb : 0 < pd.MB) (hc : 0 < pd.C) (hw : 1 < pd.w.i ∨ 1 < pd.w.o) : ¬ pd.Adjoint := by
  intro hadj
  have hwi : pd.w.i = pd.srcDims 2 := by
    unfold PoolingPd.w
    rw [hn]
  have hwo : pd.w.o = pd.dstDims 2 := by
    unfold PoolingPd.w
    rw [hn]
  -- the tensor that is one in the second column of the first row
  have hpos : ∀ {ds : List ℕ}, List.Forall₂ (· < ·) [0, 0, 1] ds → ∀ f g : List ℕ → ℚ,
      (∀ q, q ≠ [0, 0, 1] → f q * g q = 0) → sumPositions ds (fun q => f q * g q) = f [0, 0, 1] * g [0, 0, 1] :=
    fun hp f g hfg => sumPositions_single hp (fun q => f q * g q) hfg
  have hzero : ∀ q : List ℕ, q ≠ [0, 0, 1] → (if q = [0, 0, 1] then (1 : ℚ) else 0) = 0 := fun q hq => if_neg hq
  rcases hw with hw | hw
  · have hshape : List.Forall₂ (· < ·) [0, 0, 1] pd.srcShape := by
      unfold srcShape
      rw [hn]
      refine List.Forall₂.cons hmb (List.Forall₂.cons hc (List.Forall₂.cons ?_ List.Forall₂.nil))
      rw [← hwi]
      exact hw
    have heq := hadj 0 (fun _ => 0) (fun q => if q = [0, 0, 1] then 1 else 0) (fun _ => 0) (fun _ => 0) fun _ => 1
    rw [hpos hshape _ _ fun q hq => by rw [hzero q hq, zero_mul], h.backward_line hn] at heq
    simp only [mul_zero, sumPositions_zero] at heq
    norm_num at heq
  · have hshape : List.Forall₂ (· < ·) [0, 0, 1] pd.dstShape := by
      unfold dstShape
      rw [hrank, hn]
      refine List.Forall₂.cons ?_ (List.Forall₂.cons ?_ (List.Forall₂.cons ?_ List.Forall₂.nil))
      · rw [← h.mb]
        exact hmb
      · rw [← h.c]
        exact hc
      · rw [← hwo]
        exact hw
    have heq := hadj 0 (fun _ => 0) (fun _ => 0) (fun q => if q = [0, 0, 1] then 1 else 0) (fun _ => 1) fun _ => 0
    rw [hpos hshape _ _ fun q hq => by rw [hzero q hq, mul_zero], h.forward_line hn hrank] at heq
    simp only [zero_mul, sumPositions_zero] at heq
    norm_num at heq

end Line

/-! ## Plain layouts -/

/-- Backward is the adjoint of forward, in the implementation for `nchw` and `ncdhw`. -/
def NchwAdjoint (pd : PoolingPd) : Prop :=
  ∀ (lowest : ℚ) (ws : ℕ → ℕ) (x y dst diffSrc : ℕ → ℚ),
    (∑ mb ∈ Finset.range pd.MB, ∑ c ∈ Finset.range pd.C, ∑ o ∈ pd.windows,
      applyWrites (NchwPooling.executeForward pd lowest x) dst (NchwPooling.dstOff pd mb c o.1 o.2.1 o.2.2) *
        y (NchwPooling.dstOff pd mb c o.1 o.2.1 o.2.2)) =
    ∑ mb ∈ Finset.range pd.MB, ∑ c ∈ Finset.range pd.C, ∑ i ∈ pd.image, x (NchwPooling.srcOff pd mb c i.1 i.2.1 i.2.2) *
      execAll (NchwPooling.executeBackward pd y ws) diffSrc (NchwPooling.srcOff pd mb c i.1 i.2.1 i.2.2)

theorem Accepted.nchwAdjoint (h : pd.Accepted) (halg : pd.alg ≠ .max) : pd.NchwAdjoint := by
  intro lowest ws x y dst diffSrc
  refine Finset.sum_congr rfl fun mb hmb => Finset.sum_congr rfl fun c hc => ?_
  rw [Finset.mem_range] at hmb hc
  have hsides := pd.sum_kerAvgFwd_mul (fun _ o => Axis.startOffset_eq o) (fun id ih iw => x (NchwPooling.srcOff pd mb c id ih iw))
    fun od oh ow => y (NchwPooling.dstOff pd mb c od oh ow)
  refine Eq.trans ?_ (hsides.trans ?_)
  · refine Finset.sum_congr rfl fun o ho => ?_
    rw [nchw_forward lowest x dst ⟨hmb, hc, ho⟩, if_neg halg]
    rfl
  · refine Finset.sum_congr rfl fun i hi => ?_
    congr 1
    exact (h.nchw_backward_avg halg y ws diffSrc ⟨hmb, hc, hi⟩).symm

/-! ## The exact condition -/

/-- A window of two taps with a stride of two. -/
def pairs (ndims : ℕ) : PoolingPd where
  alg := .avgIncludePadding
  ndims := ndims
  dstNdims := ndims
  srcDims i := if i < 2 then 1 else 4
  dstDims i := if i < 2 then 1 else 2
  kernel _ := 2
  strides _ := 2
  paddingL _ := 0
  paddingR _ := 0

theorem pairs_accepted {ndims : ℕ} (hn : ndims = 3 ∨ ndims = 4 ∨ ndims = 5) : (pairs ndims).Accepted where
  ndims := hn
  dstNdims := hn
  mb := rfl
  c := rfl
  spatial i hi _ := by
    have hnot : ¬ i < 2 := by omega
    show ((if i < 2 then (1 : ℕ) else 4 : ℕ) - (2 : ℤ) + 0 + 0).tdiv 2 + 1 = (if i < 2 then (1 : ℕ) else 2 : ℕ)
    rw [if_neg hnot, if_neg hnot]
    rfl
  excludePadding halg := by cases halg
  stride _ _ := Nat.two_pos
  kernel _ _ := Nat.two_pos

end MklDnn.PoolingPd
