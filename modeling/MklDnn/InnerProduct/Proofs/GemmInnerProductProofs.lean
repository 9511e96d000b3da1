import MklDnn.Common.Proofs.ThreadingProofs
import MklDnn.Conv.Proofs.SgemmProofs
import MklDnn.InnerProduct.Proofs.AddressesProofs

/-!
# Proofs: inner product by GEMM against the reference

Where the GEMM addresses the elements of the descriptors, its passes leave what the reference passes compute. The padding of
the source is zero, so that the products of the padding add nothing.
-/

open LoopNest Offsets Interleaving

namespace MklDnn

/-- What a GEMM leaves in an element, if the columns of the matrix follow one another. -/
theorem GemmArgs.execAll_sgemm {R : Type*} [CommSemiring R] {g : GemmArgs} (hldc : g.ldc = g.m) (a b : ℤ → R) (beta : R)
    (mem : ℤ → R) {i j : ℕ} (hi : i < g.m) (hj : j < g.n) : execAll (g.sgemm a b beta) mem (g.cOff i j) =
      ∑ p ∈ Finset.range g.k, a (g.aOff i p) * b (g.bOff p j) + beta * mem (g.cOff i j) := by
  refine execAll_extendedSgemm (fun i hi i' hi' j j' heq => ?_) mem hi hj
  rw [hldc] at heq
  exact add_mul_inj hi hi' (Int.ofNat_inj.mp heq)

namespace InnerProductPd

variable {pd : InnerProductPd}

/-! ## The loops of the reference -/

/-- The loops of the reference run through the indices of an image without its padding. -/
theorem Shapes.taps_eq (h : pd.Shapes) : RefInnerProduct.taps pd = positions (pd.srcMd.imageDims pd.srcMd.dims) := by
  have hnd := h.ndims
  have hdims := h.dims
  simp only [List.mem_cons, List.not_mem_nil, or_false] at hnd
  unfold RefInnerProduct.taps MemoryDesc.imageDims KD KH KW IC
  obtain hnd | hnd | hnd | hnd := hnd <;>
  · have hsrc : pd.srcMd.ndims = _ := hnd
    simp only [hnd] at hdims ⊢
    simp [hsrc, hdims, positions_cons, List.map_eq_flatMap, List.range'_succ, List.flatMap_assoc]

theorem lt_of_extents_le {f g : ℕ → ℕ} {a m : ℕ} {t : List ℕ} (ht : List.Forall₂ (· < ·) t ((List.range' a m).map f))
    (hle : ∀ d, a ≤ d → d < a + m → f d ≤ g d) : List.Forall₂ (· < ·) t ((List.range' a m).map g) := by
  induction m generalizing a t with
  | zero => exact ht
  | succ m ih =>
    rw [List.range'_succ, List.map_cons] at ht ⊢
    cases ht with
    | cons hx ht =>
      exact .cons (hx.trans_le (hle a le_rfl (by omega))) (ih ht fun d hd hlt => hle d (by omega) (by omega))

theorem Described.mem_paddedTaps (h : pd.Described) {t : List ℕ} (ht : t ∈ RefInnerProduct.taps pd) : t ∈ pd.paddedTaps := by
  have hnd := h.two_le_ndims
  rw [h.shapes.taps_eq, mem_positions] at ht
  refine mem_positions.mpr (lt_of_extents_le ht fun d _ hlt => h.src.wellFormed.dims_le d ?_)
  unfold ndims at hnd
  omega

section Sums

variable {R : Type*} [CommSemiring R]

/-- A sum over a row of the source is a sum over the loops of the reference, if the padding adds nothing. -/
theorem Described.sum_row (h : pd.Described) {tap : ℕ → List ℕ}
    (hbij : Set.BijOn tap {k | k < pd.icTotalPadded} {t | t ∈ pd.paddedTaps}) {f : List ℕ → R}
    (hpad : ∀ t ∈ pd.paddedTaps, t ∉ RefInnerProduct.taps pd → f t = 0) :
    ∑ k ∈ Finset.range pd.icTotalPadded, f (tap k) = ((RefInnerProduct.taps pd).map f).sum := by
  have hnd : (RefInnerProduct.taps pd).Nodup := h.shapes.taps_eq ▸ nodup_positions _
  calc ∑ k ∈ Finset.range pd.icTotalPadded, f (tap k) = ∑ t ∈ pd.paddedTaps.toFinset, f t := by
        refine Finset.sum_nbij tap ?_ ?_ ?_ fun _ _ => rfl
        · exact fun k hk => List.mem_toFinset.mpr (hbij.mapsTo (Finset.mem_range.mp hk))
        · rw [Finset.coe_range]
          exact hbij.injOn
        · rw [Finset.coe_range, List.coe_toFinset]
          exact hbij.surjOn
    _ = ∑ t ∈ (RefInnerProduct.taps pd).toFinset, f t := by
        refine (Finset.sum_subset (fun t ht => ?_) fun t ht hnot => ?_).symm
        · exact List.mem_toFinset.mpr (h.mem_paddedTaps (List.mem_toFinset.mp ht))
        · exact hpad t (List.mem_toFinset.mp ht) (mt List.mem_toFinset.mpr hnot)
    _ = ((RefInnerProduct.taps pd).map f).sum := List.sum_toFinset f hnd

end Sums

/-! ## The product -/

section Product

variable {R : Type*} [CommSemiring R]

/-- The padding of the source is zero. -/
def ZeroPadded (pd : InnerProductPd) (src : ℤ → R) : Prop :=
  ∀ n < pd.MB, ∀ t ∈ pd.paddedTaps, t ∉ RefInnerProduct.taps pd → src (pd.srcMd.off (n :: t)) = 0

variable {tap : ℕ → List ℕ} {n oc : ℕ}

/-- A row of the source times a row or a column of the weights. -/
theorem Described.sum_products (h : pd.Described) (ha : Addresses pd tap pd.srcOff pd.weightsOff pd.dstOff) {src weights : ℤ → R}
    (hpad : pd.ZeroPadded src) (hn : n < pd.MB) (hoc : oc < pd.OC) :
    ∑ k ∈ Finset.range pd.icTotalPadded, weights (pd.weightsOff oc k) * src (pd.srcOff n k) =
      RefInnerProduct.ker pd src weights n oc := by
  obtain ⟨hbij, hsrc, hwei, -⟩ := ha
  unfold RefInnerProduct.ker
  rw [← h.sum_row hbij fun t ht hnot => by rw [hpad n hn t ht hnot, zero_mul]]
  refine Finset.sum_congr rfl fun k hk => ?_
  rw [hsrc n hn k (Finset.mem_range.mp hk), hwei oc hoc k (Finset.mem_range.mp hk), mul_comm]

end Product

/-! ## The threads of the post-processing -/

section PostProcessing

theorem ppIters_eq {OC : ℕ} (hOC : 0 < OC) (n i : ℕ) :
    ppIters OC n i (i % OC) = (List.range' i n).map fun i => (i, i % OC) := by
  induction n generalizing i with
  | zero => rfl
  | succ n ih =>
    have hnext : (if i % OC = OC - 1 then 0 else i % OC + 1) = (i + 1) % OC := by
      rw [← Nat.mod_add_mod]
      split_ifs with hlast
      · rw [hlast, Nat.sub_add_cancel hOC, Nat.mod_self]
      · have hlt := Nat.mod_lt i hOC
        exact (Nat.mod_eq_of_lt (by omega)).symm
    rw [ppIters, hnext, ih, List.range'_succ, List.map_cons]

/-- The iterations of thread `p`. -/
def ppRange (OC MB nthr p : ℕ) : List ℕ :=
  if p < nthr then List.range' (balance211 (OC * MB) nthr p).1 ((balance211 (OC * MB) nthr p).2 - (balance211 (OC * MB) nthr p).1)
  else []

theorem mem_ppRange {OC MB nthr p x : ℕ} : x ∈ ppRange OC MB nthr p ↔
    p < nthr ∧ (balance211 (OC * MB) nthr p).1 ≤ x ∧ x < (balance211 (OC * MB) nthr p).2 := by
  unfold ppRange
  split_ifs with hp
  · rw [List.mem_range'_1]
    omega
  · simp [hp]

theorem ppThread_eq {OC : ℕ} (hOC : 0 < OC) (MB nthr p : ℕ) :
    ppThread OC MB nthr p = (ppRange OC MB nthr p).map fun i => (i, i % OC) := by
  unfold ppThread ppRange
  split_ifs
  · exact ppIters_eq hOC _ _
  · rfl

/-- The post-processing of an element, whatever thread does it and whenever the others run. -/
theorem execAll_ppThreads {A V : Type*} [DecidableEq A] {OC MB nthr : ℕ} (hOC : 0 < OC) (hnthr : 0 < nthr)
    {assign : ℕ × ℕ → Assign A V} (hrace : Interleaving.RaceFree fun i => [assign (i, i % OC)])
    {o : List (ℕ × Assign A V)}
    (ho : IsOrder (fun p => (ppThread OC MB nthr p).map assign) o) {x : ℕ} (hx : x < OC * MB) (m : A → V) :
    execAll (o.map Prod.snd) m (assign (x, x % OC)).dst = (assign (x, x % OC)).value m := by
  obtain ⟨p, hp, hmem⟩ := exists_balance211 hnthr hx
  have hprogs : (fun p => (ppThread OC MB nthr p).map assign) =
      fun p => (ppRange OC MB nthr p).flatMap fun i => [assign (i, i % OC)] := by
    funext p
    rw [ppThread_eq hOC, List.map_map, List.map_eq_flatMap]
    rfl
  rw [hprogs] at ho
  have hnd : ∀ p, (ppRange OC MB nthr p).Nodup := by
    intro p
    unfold ppRange
    split_ifs
    · exact List.nodup_range'
    · exact List.nodup_nil
  rw [hrace.execAll_threads hnd (fun p q hne i hi hi' => hne ?_) ho (mem_ppRange.mpr ⟨hp, hmem⟩)
    (hrace.dst x _ (List.mem_singleton_self _))]
  · exact Assign.exec_self m _
  · obtain ⟨hp, hmem⟩ := mem_ppRange.mp hi
    obtain ⟨hq, hmem'⟩ := mem_ppRange.mp hi'
    exact balance211_unique hp hq hmem hmem'

end PostProcessing

/-! ## The bias -/

/-- The bias has no gaps. -/
def BiasDense (pd : InnerProductPd) : Prop := pd.withBias = true → pd.OC ≤ 1 ∨ pd.biasMd.blocking.strides 0 = 1

/-- The loops over the bias address its elements. -/
def BiasAddressed (pd : InnerProductPd) : Prop := pd.withBias = true → ∀ oc < pd.OC, (oc : ℤ) = pd.biasMd.off [oc]

theorem Described.bias_off (h : pd.Described) (hwith : pd.withBias = true) (oc : ℕ) :
    pd.biasMd.off [oc] = oc * pd.biasMd.blocking.strides 0 := by
  obtain ⟨hbias, hinner⟩ := h.bias hwith
  have hnd := h.shapes.biasNdims hwith
  rw [hbias.off_cons oc (by rw [hnd]; rfl) (by omega), termSum, MemoryDesc.dimOff, hinner]
  simp [innerOff]

theorem Described.biasAddressed_iff (h : pd.Described) : pd.BiasAddressed ↔ pd.BiasDense := by
  unfold BiasAddressed BiasDense
  refine forall_congr' fun hwith => ?_
  simp only [h.bias_off hwith]
  constructor
  · intro hall
    rcases Nat.lt_or_ge 1 pd.OC with hmore | hone
    · right
      have heq := hall 1 hmore
      rw [Nat.cast_one, one_mul] at heq
      exact heq.symm
    · exact Or.inl hone
  · rintro (hone | hstride) oc hoc
    · obtain rfl : oc = 0 := by omega
      simp
    · rw [hstride, mul_one]

/-! ## Forward -/

section Forward

variable {R : Type*} [CommSemiring R] {tap : ℕ → List ℕ} {n oc : ℕ}

theorem dstOff_lt (hn : n < pd.MB) (hoc : oc < pd.OC) : pd.dstOff n oc < pd.OC * pd.MB := by
  unfold dstOff
  nlinarith

theorem dstOff_mod (hoc : oc < pd.OC) : pd.dstOff n oc % pd.OC = oc := by
  rw [dstOff, Nat.add_mul_mod_self_right, Nat.mod_eq_of_lt hoc]

/-- What the reference computes for an element, with the post-operations that only the GEMM has. -/
def forwardValue (pd : InnerProductPd) (po : PostOps R) (src weights bias dst : ℤ → R) (n oc : ℕ) : R :=
  po.eltwise.getD id (RefInnerProduct.forward pd src weights bias n oc + beta po * dst (pd.dstMd.off [n, oc]))

/-- Forward, `f32`: every element of the destination, for every order of the threads. -/
def ForwardMeets (R : Type*) [CommSemiring R] (pd : InnerProductPd) : Prop :=
  ∀ (po : PostOps R) (src weights bias dst : ℤ → R), pd.ZeroPadded src → ∀ nthr, 0 < nthr → ∀ o,
    IsOrder (fun p => pd.executeForwardPp po bias nthr p) o → ∀ n < pd.MB, ∀ oc < pd.OC,
      execAll (o.map Prod.snd) (execAll (pd.executeForwardGemm po src weights) dst) (pd.dstMd.off [n, oc]) =
        pd.forwardValue po src weights bias dst n oc

/-- The element after the GEMM. -/
theorem Described.execAll_forwardGemm (h : pd.Described) (ha : Addresses pd tap pd.srcOff pd.weightsOff pd.dstOff)
    (po : PostOps R) {src : ℤ → R} (weights dst : ℤ → R) (hpad : pd.ZeroPadded src) (hn : n < pd.MB) (hoc : oc < pd.OC) :
    execAll (pd.executeForwardGemm po src weights) dst (pd.dstOff n oc) =
      RefInnerProduct.ker pd src weights n oc + beta po * dst (pd.dstOff n oc) := by
  have hoffs := fwdGemm_offs pd
  refine (GemmArgs.execAll_sgemm rfl weights src (beta po) dst hoc hn).trans ?_
  rw [← h.sum_products ha hpad hn hoc, hoffs.2.1]
  rfl

/-- The assignment of the post-processing to element `it.1`, which belongs to channel `it.2`. -/
def ppAssign (pd : InnerProductPd) (po : PostOps R) (bias : ℤ → R) (it : ℕ × ℕ) : Assign ℤ R :=
  ⟨it.1, fun mem => (pd.ppKernel po bias).element it.2 (mem it.1) (mem it.1)⟩

theorem raceFree_ppAssign (po : PostOps R) (bias : ℤ → R) :
    Interleaving.RaceFree fun i => [pd.ppAssign po bias (i, i % pd.OC)] := by
  refine Interleaving.RaceFree.of_local (fun i e he j hne e' he' heq => ?_) fun i e he m m' hm => ?_
  · obtain rfl := List.mem_singleton.mp he
    obtain rfl := List.mem_singleton.mp he'
    exact hne (Int.ofNat_inj.mp heq)
  · obtain rfl := List.mem_singleton.mp he
    exact congrArg (fun v => (pd.ppKernel po bias).element (i % pd.OC) v v) hm

theorem Described.forwardMeets (h : pd.Described) (ha : Addresses pd tap pd.srcOff pd.weightsOff pd.dstOff)
    (hbias : pd.BiasAddressed) : ForwardMeets R pd := by
  intro po src weights bias dst hpad nthr hnthr o ho n hn oc hoc
  have hgemm := h.execAll_forwardGemm ha po weights dst hpad hn hoc
  rw [← ha.2.2.2 n hn oc hoc]
  unfold forwardValue RefInnerProduct.forward
  rw [← ha.2.2.2 n hn oc hoc]
  unfold executeForwardPp at ho
  by_cases hpost : pd.postopsInIp po = true
  · simp only [if_pos hpost] at ho
    have hvalue := execAll_ppThreads h.oc_pos hnthr (raceFree_ppAssign po bias) ho (dstOff_lt hn hoc)
      (execAll (pd.executeForwardGemm po src weights) dst)
    rw [dstOff_mod hoc] at hvalue
    refine hvalue.trans ?_
    show (pd.ppKernel po bias).element oc (execAll (pd.executeForwardGemm po src weights) dst (pd.dstOff n oc))
      (execAll (pd.executeForwardGemm po src weights) dst (pd.dstOff n oc)) = _
    rw [hgemm]
    unfold ppKernel PpKernel.element
    cases hwith : pd.withBias with
    | true =>
      rw [← hbias hwith oc hoc]
      have hsum : RefInnerProduct.ker pd src weights n oc + beta po * dst (pd.dstOff n oc) + bias oc =
          bias oc + RefInnerProduct.ker pd src weights n oc + beta po * dst (pd.dstOff n oc) := by ring
      cases po.eltwise with
      | none => exact hsum
      | some eltwise => exact congrArg eltwise hsum
    | false =>
      have hsum : RefInnerProduct.ker pd src weights n oc + beta po * dst (pd.dstOff n oc) =
          0 + RefInnerProduct.ker pd src weights n oc + beta po * dst (pd.dstOff n oc) := by rw [zero_add]
      cases po.eltwise with
      | none => exact hsum
      | some eltwise => exact congrArg eltwise hsum
  · simp only [if_neg hpost] at ho
    have hpost : pd.withBias = false ∧ po.eltwise = none := by
      simpa [postopsInIp] using hpost
    rw [execAll_order_of_ne ho (fun p e he => absurd he List.not_mem_nil), hgemm, hpost.1, hpost.2]
    simp

end Forward

/-! ## Backward -/

section Backward

variable {R : Type*} [CommSemiring R] {tap : ℕ → List ℕ} {n oc : ℕ}

/-- Backward by data: every element of the gradient but its padding. -/
def BackwardDataMeets (R : Type*) [CommSemiring R] (pd : InnerProductPd) : Prop :=
  ∀ weights diffDst diffSrc : ℤ → R, ∀ n < pd.MB, ∀ t ∈ RefInnerProduct.taps pd,
    execAll (pd.executeBackwardData weights diffDst) diffSrc (pd.srcMd.off (n :: t)) =
      RefInnerProduct.backwardData pd diffDst weights n t

/-- Backward by weights: every element of the gradient but its padding. -/
def BackwardWeightsMeets (R : Type*) [CommSemiring R] (pd : InnerProductPd) : Prop :=
  ∀ src diffDst diffWeights : ℤ → R, ∀ oc < pd.OC, ∀ t ∈ RefInnerProduct.taps pd,
    execAll (pd.executeBackwardWeights src diffDst) diffWeights (pd.weightsMd.off (oc :: t)) =
      RefInnerProduct.backwardWeights pd diffDst src oc t

/-- Every element of an image is in the row. -/
theorem Described.exists_row (h : pd.Described) (hbij : Set.BijOn tap {k | k < pd.icTotalPadded} {t | t ∈ pd.paddedTaps})
    {t : List ℕ} (ht : t ∈ RefInnerProduct.taps pd) : ∃ k < pd.icTotalPadded, tap k = t :=
  hbij.surjOn (h.mem_paddedTaps ht)

theorem Described.backwardDataMeets (h : pd.Described) (ha : Addresses pd tap pd.srcOff pd.weightsOff pd.dstOff) :
    BackwardDataMeets R pd := by
  intro weights diffDst diffSrc n hn t ht
  obtain ⟨hbij, hsrc, hwei, hdst⟩ := ha
  obtain ⟨k, hk, rfl⟩ := h.exists_row hbij ht
  obtain ⟨hsrcOff, hweiOff, hdstOff⟩ := bwdDataGemm_offs pd
  rw [← hsrc n hn k hk, ← hsrcOff]
  refine (GemmArgs.execAll_sgemm rfl weights diffDst 0 diffSrc hk hn).trans ?_
  rw [zero_mul, add_zero]
  refine Finset.sum_congr rfl fun oc hoc => ?_
  have hoc := Finset.mem_range.mp hoc
  rw [← hdst n hn oc hoc, ← hwei oc hoc k hk, ← hweiOff, ← hdstOff, mul_comm]

theorem Described.backwardWeightsMeets (h : pd.Described) (ha : Addresses pd tap pd.srcOff pd.weightsOff pd.dstOff) :
    BackwardWeightsMeets R pd := by
  intro src diffDst diffWeights oc hoc t ht
  obtain ⟨hbij, hsrc, hwei, hdst⟩ := ha
  obtain ⟨k, hk, rfl⟩ := h.exists_row hbij ht
  have hshift : pd.shiftedDiffDst diffDst = diffDst := by
    funext i
    rw [shiftedDiffDst, h.dst.offset0, zero_add]
  unfold executeBackwardWeights
  rw [hshift, ← hwei oc hoc k hk]
  cases htr : pd.weiTr with
  | true =>
    obtain ⟨hsrcOff, hweiOff, hdstOff⟩ := (bwdWeightsGemm_offs pd).2 htr
    have hargs : pd.bwdWeightsGemm =
        ⟨false, true, pd.icTotalPadded, pd.OC, pd.MB, pd.icTotalPadded, pd.OC, pd.icTotalPadded⟩ := by
      rw [bwdWeightsGemm, htr]
      rfl
    rw [if_neg (by decide), ← hweiOff]
    refine (GemmArgs.execAll_sgemm (by rw [hargs]) src diffDst 0 diffWeights (by rwa [hargs]) (by rwa [hargs])).trans ?_
    rw [zero_mul, add_zero, hargs]
    refine Finset.sum_congr rfl fun n hn => ?_
    have hn := Finset.mem_range.mp hn
    rw [← hdst n hn oc hoc, ← hsrc n hn k hk, ← hsrcOff, ← hdstOff, mul_comm, hargs]
  | false =>
    obtain ⟨hsrcOff, hweiOff, hdstOff⟩ := (bwdWeightsGemm_offs pd).1 htr
    have hargs : pd.bwdWeightsGemm = ⟨false, true, pd.OC, pd.icTotalPadded, pd.MB, pd.OC, pd.icTotalPadded, pd.OC⟩ := by
      rw [bwdWeightsGemm, htr]
      rfl
    rw [if_pos (by decide), ← hweiOff]
    refine (GemmArgs.execAll_sgemm (by rw [hargs]) diffDst src 0 diffWeights (by rwa [hargs]) (by rwa [hargs])).trans ?_
    rw [zero_mul, add_zero, hargs]
    refine Finset.sum_congr rfl fun n hn => ?_
    have hn := Finset.mem_range.mp hn
    rw [← hdst n hn oc hoc, ← hsrc n hn k hk, ← hsrcOff, ← hdstOff, hargs]

end Backward

/-! ## The gradient of the bias -/

section DiffBias

variable {R : Type*} [CommSemiring R] {diffDst : ℤ → R} {tap : ℕ → List ℕ} {ocSt ocE oc nthr p : ℕ}

/-- Backward by weights: every element of the gradient of the bias, for every order of the threads. -/
def BackwardBiasMeets (R : Type*) [CommSemiring R] (pd : InnerProductPd) : Prop :=
  pd.withBias = true → ∀ diffDst diffBias : ℤ → R, ∀ nthr, 0 < nthr → ∀ o,
    IsOrder (fun p => pd.executeBackwardBias diffDst nthr p) o → ∀ oc < pd.OC,
      execAll (o.map Prod.snd) diffBias (pd.biasMd.off [oc]) = RefInnerProduct.backwardBias pd diffDst oc

/-- The address of an element in the loops. -/
def diffBiasAt (pd : InnerProductPd) (oc : ℕ) : ℤ := pd.biasMd.offset0 + oc

theorem diffBiasAt_inj {oc' : ℕ} (h : pd.diffBiasAt oc = pd.diffBiasAt oc') : oc = oc' :=
  Int.ofNat_inj.mp (add_left_cancel h)

theorem mem_diffBiasLoops {e : Assign ℤ R} (he : e ∈ pd.diffBiasLoops diffDst ocSt ocE) :
    e.Local ∧ ∃ oc, ocSt ≤ oc ∧ oc < ocE ∧ e.dst = pd.diffBiasAt oc := by
  unfold diffBiasLoops at he
  rcases List.mem_append.mp he with he | he
  · obtain ⟨oc, hoc, rfl⟩ := List.mem_map.mp he
    rw [List.mem_range'_1] at hoc
    exact ⟨Assign.local_set _ _, oc, hoc.1, by omega, rfl⟩
  · obtain ⟨mb, -, he⟩ := List.mem_flatMap.mp he
    obtain ⟨oc, hoc, rfl⟩ := List.mem_map.mp he
    rw [List.mem_range'_1] at hoc
    exact ⟨Assign.local_add _ _, oc, hoc.1, by omega, rfl⟩

/-- The loops of a range of channels leave the sum over the images. -/
theorem trace_diffBiasLoops (hmb : 0 < pd.MB) (hst : ocSt ≤ oc) (he : oc < ocE) (v : R) :
    trace (pd.diffBiasAt oc) (pd.diffBiasLoops diffDst ocSt ocE) v =
      ∑ mb ∈ Finset.range pd.MB, pd.shiftedDiffDst diffDst (mb * pd.OC + oc : ℕ) := by
  have hmem : oc ∈ List.range' ocSt (ocE - ocSt) := List.mem_range'_1.mpr (by omega)
  have hother : ∀ f : ℕ → Assign ℤ R, (∀ y, (f y).dst = pd.diffBiasAt y) → ∀ v,
      trace (pd.diffBiasAt oc) ((List.range' ocSt (ocE - ocSt)).map f) v = (f oc).value fun _ => v :=
    fun f hf => trace_map_of_unique List.nodup_range' hmem (hf oc) fun y _ hne heq =>
      hne (diffBiasAt_inj ((hf y).symm.trans heq))
  have hadd : ∀ (l : List ℕ) (v : R), l.foldl (fun v mb => trace (pd.diffBiasAt oc)
      ((List.range' ocSt (ocE - ocSt)).map fun oc => Assign.add (pd.diffBiasAt oc)
        (pd.shiftedDiffDst diffDst (mb * pd.OC + oc : ℕ))) v) v =
      v + (l.map fun mb => pd.shiftedDiffDst diffDst (mb * pd.OC + oc : ℕ)).sum := by
    intro l
    induction l with
    | nil => exact fun v => (add_zero v).symm
    | cons mb l ih =>
      intro v
      rw [List.foldl_cons, ih, hother _ fun _ => rfl, List.map_cons, List.sum_cons, ← add_assoc]
      rfl
  have hsum : ∑ mb ∈ Finset.range pd.MB, pd.shiftedDiffDst diffDst (mb * pd.OC + oc : ℕ) =
      ((List.range pd.MB).map fun mb => pd.shiftedDiffDst diffDst (mb * pd.OC + oc : ℕ)).sum := rfl
  obtain ⟨MB, hMB⟩ := Nat.exists_eq_add_one.mpr hmb
  unfold diffBiasLoops
  rw [trace_append, trace_flatMap, hsum, hMB, List.range_eq_range', List.range'_succ, List.map_cons, List.sum_cons]
  refine (hadd _ _).trans ?_
  have hset := hother (fun oc => Assign.set (pd.diffBiasAt oc) (pd.shiftedDiffDst diffDst oc)) (fun _ => rfl) v
  refine (congrArg (· + _) hset).trans ?_
  rw [Nat.zero_mul, Nat.zero_add, Nat.add_sub_cancel]
  rfl

/-- The channels of thread `p`: its blocks of eight, and on the last thread the rest. -/
def OwnsChannel (pd : InnerProductPd) (nthr p oc : ℕ) : Prop :=
  p < nthr ∧ ((balance211 (pd.OC / 8) nthr p).1 * 8 ≤ oc ∧ oc < (balance211 (pd.OC / 8) nthr p).2 * 8 ∨
    pd.OC % 8 ≠ 0 ∧ p = nthr - 1 ∧ pd.OC / 8 * 8 ≤ oc ∧ oc < pd.OC)

theorem ownsChannel_unique {q : ℕ} (hp : pd.OwnsChannel nthr p oc) (hq : pd.OwnsChannel nthr q oc) : p = q := by
  obtain ⟨hp, hblocks | ⟨-, hlast, hrest, -⟩⟩ := hp <;> obtain ⟨hq, hblocks' | ⟨-, hlast', hrest', -⟩⟩ := hq
  · exact balance211_unique (n := pd.OC / 8) hp hq (x := oc / 8) (by omega) (by omega)
  · have hle := balance211_snd_le (n := pd.OC / 8) hp
    omega
  · have hle := balance211_snd_le (n := pd.OC / 8) hq
    omega
  · exact hlast.trans hlast'.symm

theorem exists_ownsChannel (hnthr : 0 < nthr) (hoc : oc < pd.OC) : ∃ p, pd.OwnsChannel nthr p oc := by
  rcases Nat.lt_or_ge oc (pd.OC / 8 * 8) with hblock | hrest
  · obtain ⟨p, hp, hmem⟩ := exists_balance211 hnthr (show oc / 8 < pd.OC / 8 by omega)
    exact ⟨p, hp, Or.inl (by omega)⟩
  · exact ⟨nthr - 1, by omega, Or.inr ⟨by omega, rfl, hrest, hoc⟩⟩

theorem mem_executeBackwardBias {e : Assign ℤ R} (he : e ∈ pd.executeBackwardBias diffDst nthr p) :
    e.Local ∧ ∃ oc, pd.OwnsChannel nthr p oc ∧ e.dst = pd.diffBiasAt oc := by
  unfold executeBackwardBias at he
  split_ifs at he with hthread
  · rcases List.mem_append.mp he with he | he
    · obtain ⟨hlocal, oc, hst, hlt, hdst⟩ := mem_diffBiasLoops he
      exact ⟨hlocal, oc, ⟨hthread.2, Or.inl ⟨hst, hlt⟩⟩, hdst⟩
    · split_ifs at he with hlast
      · obtain ⟨hlocal, oc, hst, hlt, hdst⟩ := mem_diffBiasLoops he
        exact ⟨hlocal, oc, ⟨hthread.2, Or.inr ⟨hlast.1, hlast.2, hst, hlt⟩⟩, hdst⟩
      · cases he
  · cases he

/-- A thread sums the images for each of its channels. -/
theorem trace_executeBackwardBias (hmb : 0 < pd.MB) (hwith : pd.withBias = true) (howns : pd.OwnsChannel nthr p oc) (v : R) :
    trace (pd.diffBiasAt oc) (pd.executeBackwardBias diffDst nthr p) v =
      ∑ mb ∈ Finset.range pd.MB, pd.shiftedDiffDst diffDst (mb * pd.OC + oc : ℕ) := by
  obtain ⟨hp, howns⟩ := howns
  have hother : ∀ ocSt ocE, ¬ (ocSt ≤ oc ∧ oc < ocE) → ∀ v,
      trace (pd.diffBiasAt oc) (pd.diffBiasLoops diffDst ocSt ocE) v = v := by
    intro ocSt ocE hnot v
    refine trace_of_ne (fun e he heq => ?_) v
    obtain ⟨-, oc', hst, hlt, hdst⟩ := mem_diffBiasLoops he
    obtain rfl := diffBiasAt_inj (hdst.symm.trans heq)
    exact hnot ⟨hst, hlt⟩
  have hle := balance211_snd_le (n := pd.OC / 8) hp
  unfold executeBackwardBias
  rw [if_pos ⟨hwith, hp⟩]
  dsimp only
  rw [trace_append]
  rcases howns with hblocks | ⟨hrest, hlast, hst, hlt⟩
  · rw [trace_diffBiasLoops hmb hblocks.1 hblocks.2]
    split_ifs
    · exact hother _ _ (by omega) _
    · rfl
  · rw [if_pos ⟨hrest, hlast⟩]
    exact trace_diffBiasLoops hmb hst hlt _

theorem Described.backwardBiasMeets (h : pd.Described) (ha : Addresses pd tap pd.srcOff pd.weightsOff pd.dstOff)
    (hbias : pd.BiasAddressed) : BackwardBiasMeets R pd := by
  intro hwith diffDst diffBias nthr hnthr o ho oc hoc
  obtain ⟨p, howns⟩ := exists_ownsChannel hnthr hoc
  have hrace : Interleaving.RaceFree fun p => pd.executeBackwardBias diffDst nthr p := by
    refine Interleaving.RaceFree.of_local (fun p e he q hne e' he' heq => ?_)
      fun p e he => (mem_executeBackwardBias he).1
    obtain ⟨-, oc, howns, hdst⟩ := mem_executeBackwardBias he
    obtain ⟨-, oc', howns', hdst'⟩ := mem_executeBackwardBias he'
    obtain rfl := diffBiasAt_inj (hdst'.symm.trans (heq.trans hdst))
    exact hne (ownsChannel_unique howns' howns)
  have hprivate : Private (fun p => pd.executeBackwardBias diffDst nthr p) p (pd.diffBiasAt oc) := by
    intro q hne e he heq
    obtain ⟨-, oc', howns', hdst⟩ := mem_executeBackwardBias he
    obtain rfl := diffBiasAt_inj (hdst.symm.trans heq)
    exact hne (ownsChannel_unique howns' howns)
  have hat : pd.biasMd.off [oc] = pd.diffBiasAt oc := by
    rw [← hbias hwith oc hoc, diffBiasAt, (h.bias hwith).1.offset0, zero_add]
  rw [hat, hrace.execAll_order ho hprivate, execAll_eq_trace fun e he => (mem_executeBackwardBias he).1,
    trace_executeBackwardBias h.mb_pos hwith howns]
  refine Finset.sum_congr rfl fun mb hmb => ?_
  rw [← ha.2.2.2 mb (Finset.mem_range.mp hmb) oc hoc, shiftedDiffDst, h.dst.offset0, zero_add, dstOff, Nat.add_comm]

end DiffBias

/-! ## Forward, `int8` -/

section Int8

variable {D F : Type*} (attr : Int8Attr D F) {src weights : ℤ → ℤ} {tap : ℕ → List ℕ} {n oc nthr : ℕ}

/-- What the reference accumulates for an element, with the operations of the post-processing. -/
def int8Value (pd : InnerProductPd) (attr : Int8Attr D F) (src weights : ℤ → ℤ) (bias : ℤ → F) (old : Int8Cell D)
    (n oc : ℕ) : Int8Cell D :=
  let acc : ZMod (2 ^ 32) := (RefInnerProduct.ker pd src weights n oc : ℤ)
  let pp := { pd.int8PpKernel attr bias with
    bias := if pd.withBias then some fun oc => bias (pd.biasMd.off [oc]) else none }
  if !attr.hasDefaultValues || !pd.dstIsAcc attr || pd.withBias then .val (pp.element oc acc old) else .acc acc

/-- Forward, `int8`: every element of the destination, for every order of the threads. -/
def Int8Meets (pd : InnerProductPd) : Prop :=
  ∀ (D F : Type) (attr : Int8Attr D F) (src weights : ℤ → ℤ) (bias : ℤ → F) (m : Int8Buf → Int8Cell D), pd.ZeroPadded src →
    ∀ nthr, 0 < nthr → ∀ o, IsOrder (fun p => pd.int8Pp attr bias nthr p) o → ∀ n < pd.MB, ∀ oc < pd.OC,
      execAll (o.map Prod.snd) (execAll (pd.int8Gemm attr src weights) m) (.dst (pd.dstMd.off [n, oc])) =
        pd.int8Value attr src weights bias (m (.dst (pd.dstMd.off [n, oc]))) n oc

theorem accBuf_inj {attr : Int8Attr D F} {i j : ℕ} (h : pd.accBuf attr i = pd.accBuf attr j) : i = j := by
  unfold accBuf at h
  split_ifs at h
  · exact Int.ofNat_inj.mp (Int8Buf.dst.inj h)
  · exact Int.ofNat_inj.mp (Int8Buf.acc.inj h)

/-- The accumulator after the GEMM. -/
theorem Described.execAll_int8Gemm (h : pd.Described) (ha : Addresses pd tap pd.srcOff pd.weightsOff pd.dstOff)
    (weights : ℤ → ℤ) (hpad : pd.ZeroPadded src) (hn : n < pd.MB) (hoc : oc < pd.OC) (m : Int8Buf → Int8Cell D) :
    execAll (pd.int8Gemm attr src weights) m (pd.accBuf attr (pd.dstOff n oc)) =
      .acc (RefInnerProduct.ker pd src weights n oc : ℤ) := by
  have hoffs := fwdGemm_offs pd
  rw [← h.sum_products ha hpad hn hoc, ← hoffs.2.1]
  refine execAll_of_const (fun e he hdst m => ?_) ?_ m
  · obtain ⟨n', hn', he⟩ := List.mem_flatMap.mp he
    obtain ⟨oc', hoc', rfl⟩ := List.mem_map.mp he
    obtain ⟨rfl, rfl⟩ := add_mul_inj (List.mem_range.mp hoc') hoc (accBuf_inj hdst)
    rfl
  · exact ⟨_, List.mem_flatMap.mpr ⟨n, List.mem_range.mpr hn, List.mem_map.mpr ⟨oc, List.mem_range.mpr hoc, rfl⟩⟩, rfl⟩

/-- The GEMM leaves a destination that is not the accumulator. -/
theorem execAll_int8Gemm_dst {attr : Int8Attr D F} (hacc : pd.dstIsAcc attr = false) (m : Int8Buf → Int8Cell D) (x : ℤ) :
    execAll (pd.int8Gemm attr src weights) m (.dst x) = m (.dst x) := by
  refine execAll_of_ne (fun e he => ?_) m
  obtain ⟨n', -, he⟩ := List.mem_flatMap.mp he
  obtain ⟨oc', -, rfl⟩ := List.mem_map.mp he
  show pd.accBuf attr _ ≠ _
  unfold accBuf
  rw [hacc]
  exact Int8Buf.noConfusion

/-- The assignment of the post-processing to element `it.1`, which belongs to channel `it.2`. -/
def int8Assign (pd : InnerProductPd) (attr : Int8Attr D F) (bias : ℤ → F) (it : ℕ × ℕ) : Assign Int8Buf (Int8Cell D) :=
  ⟨.dst it.1, fun mem =>
    .val ((pd.int8PpKernel attr bias).element it.2 (mem (pd.accBuf attr it.1)).toAcc (mem (.dst it.1)))⟩

/-- An accumulator is read by the thread that assigns to its element. -/
theorem raceFree_int8Assign (bias : ℤ → F) :
    Interleaving.RaceFree fun i => [pd.int8Assign attr bias (i, i % pd.OC)] := by
  have hdst : ∀ i : ℕ, Private (fun i => [pd.int8Assign attr bias (i, i % pd.OC)]) i (Int8Buf.dst (i : ℤ)) := by
    intro i j hne e he heq
    obtain rfl := List.mem_singleton.mp he
    exact hne (Int.ofNat_inj.mp (Int8Buf.dst.inj heq))
  have hacc : ∀ i : ℕ, Private (fun i => [pd.int8Assign attr bias (i, i % pd.OC)]) i (pd.accBuf attr i) := by
    intro i
    unfold accBuf
    split_ifs
    · exact hdst i
    · intro j _ e he heq
      obtain rfl := List.mem_singleton.mp he
      cases heq
  constructor
  · intro i e he
    obtain rfl := List.mem_singleton.mp he
    exact hdst i
  · intro i e he m m' hm
    obtain rfl := List.mem_singleton.mp he
    show Int8Cell.val _ = Int8Cell.val _
    rw [hm _ (hacc i), hm _ (hdst i)]

/-- Without a sum the previous value of the destination does not matter. -/
theorem element_of_sum_none {Acc Old F Dst : Type*} {pp : PpKernel Acc Old F Dst} (h : pp.sum = none) (oc : ℕ) (acc : Acc)
    (old old' : Old) : pp.element oc acc old = pp.element oc acc old' := by
  unfold PpKernel.element
  rw [h]

/-- The bias of the other channels does not matter. -/
theorem element_of_bias_eq {Acc Old F Dst : Type*} (pp : PpKernel Acc Old F Dst) {bias bias' : Option (ℕ → F)} {oc : ℕ}
    (h : bias.map (fun b => b oc) = bias'.map fun b => b oc) :
    { pp with bias := bias }.element oc = { pp with bias := bias' }.element oc := by
  unfold PpKernel.element
  obtain _ | b := bias <;> obtain _ | b' := bias'
  · rfl
  · cases h
  · cases h
  · have heq : b oc = b' oc := Option.some.inj h
    dsimp only
    rw [heq]

theorem Described.int8Meets (h : pd.Described) (ha : Addresses pd tap pd.srcOff pd.weightsOff pd.dstOff)
    (hbias : pd.BiasAddressed) : Int8Meets pd := by
  intro D F attr src weights bias m hpad nthr hnthr o ho n hn oc hoc
  have hgemm := h.execAll_int8Gemm attr ha weights hpad hn hoc m
  rw [← ha.2.2.2 n hn oc hoc]
  unfold int8Value
  dsimp only
  unfold int8Pp at ho
  by_cases hpost : (!attr.hasDefaultValues || !pd.dstIsAcc attr || pd.withBias) = true
  · simp only [if_pos hpost] at ho
    have hteam : 0 < if pd.MB * pd.OC < 2000 then 1 else nthr := by
      split_ifs
      · exact Nat.one_pos
      · exact hnthr
    have hvalue := execAll_ppThreads h.oc_pos hteam (raceFree_int8Assign attr bias) ho (dstOff_lt hn hoc)
      (execAll (pd.int8Gemm attr src weights) m)
    rw [dstOff_mod hoc] at hvalue
    rw [if_pos hpost]
    refine hvalue.trans (congrArg Int8Cell.val ?_)
    rw [hgemm]
    have helement : (pd.int8PpKernel attr bias).element oc (RefInnerProduct.ker pd src weights n oc : ℤ)
        (execAll (pd.int8Gemm attr src weights) m (.dst (pd.dstOff n oc))) =
          (pd.int8PpKernel attr bias).element oc (RefInnerProduct.ker pd src weights n oc : ℤ) (m (.dst (pd.dstOff n oc))) := by
      cases hacc : pd.dstIsAcc attr with
      | true =>
        have hsum := of_decide_eq_true hacc
        exact element_of_sum_none (Option.isNone_iff_eq_none.mp hsum.2) _ _ _ _
      | false => rw [execAll_int8Gemm_dst hacc]
    refine helement.trans ?_
    refine congrFun (congrFun (element_of_bias_eq (pd.int8PpKernel attr bias) ?_) _) _
    cases hwith : pd.withBias with
    | true => exact congrArg some (congrArg bias (hbias hwith oc hoc))
    | false => rfl
  · simp only [if_neg hpost] at ho
    have hacc : pd.dstIsAcc attr = true := by
      simp only [Bool.or_eq_true, Bool.not_eq_true', not_or, Bool.not_eq_false] at hpost
      exact hpost.1.2
    rw [if_neg hpost, execAll_order_of_ne ho fun p e he => absurd he List.not_mem_nil, ← hgemm, accBuf, if_pos hacc]

end Int8

/-! ## Accepted layouts -/

section Accepted

/-- The GEMMs of all passes address the elements of the descriptors, and the loops over the bias do. -/
def PassesAddress (pd : InnerProductPd) : Prop :=
  (∃ tap, Addresses pd tap (fun n k => pd.fwdGemm.bOff k n) pd.fwdGemm.aOff (fun n oc => pd.fwdGemm.cOff oc n) ∧
    Addresses pd tap (fun n k => pd.bwdDataGemm.cOff k n) (fun oc k => pd.bwdDataGemm.aOff k oc)
      (fun n oc => pd.bwdDataGemm.bOff oc n) ∧
    if pd.weiTr then
      Addresses pd tap (fun n k => pd.bwdWeightsGemm.aOff k n) (fun oc k => pd.bwdWeightsGemm.cOff k oc)
        (fun n oc => pd.bwdWeightsGemm.bOff n oc)
    else
      Addresses pd tap (fun n k => pd.bwdWeightsGemm.bOff n k) (fun oc k => pd.bwdWeightsGemm.cOff oc k)
        (fun n oc => pd.bwdWeightsGemm.aOff oc n)) ∧ pd.BiasAddressed

/-- All passes compute what the reference computes. -/
structure ComputesReference (R : Type*) [CommSemiring R] (pd : InnerProductPd) : Prop where
  forward : ForwardMeets R pd
  backwardData : BackwardDataMeets R pd
  backwardWeights : BackwardWeightsMeets R pd
  backwardBias : BackwardBiasMeets R pd
  int8 : Int8Meets pd

/-- The check does not divide by zero, and what it accepts has the addresses and the results of the reference. -/
def AgreesWithReference (R : Type*) [CommSemiring R] (pd : InnerProductPd) : Prop :=
  denseGemmConsitencyCheck pd.srcMd pd.weightsMd pd.dstMd ≠ none ∧
    (denseGemmConsitencyCheck pd.srcMd pd.weightsMd pd.dstMd = some true → PassesAddress pd ∧ ComputesReference R pd)

/-- When that is so: no stride of the source that the check divides by is zero, and the layouts that it accepts are those of
rows of images, in which the bias has no gaps. -/
def SuitsReference (pd : InnerProductPd) : Prop :=
  (ReachesStrides pd.srcMd pd.weightsMd → DenseGemmConsitencyCheck.StridesNonzero pd.srcMd pd.weightsMd) ∧
    (denseGemmConsitencyCheck pd.srcMd pd.weightsMd pd.dstMd = some true → pd.Suits ∧ pd.BiasDense)

theorem passesAddress_iff : PassesAddress pd ↔
    (∃ tap, Addresses pd tap pd.srcOff pd.weightsOff pd.dstOff) ∧ pd.BiasAddressed := by
  obtain ⟨hsrc, hwei, hdst⟩ := fwdGemm_offs pd
  obtain ⟨hsrc', hwei', hdst'⟩ := bwdDataGemm_offs pd
  unfold PassesAddress
  rw [hsrc, hwei, hdst, hsrc', hwei', hdst']
  refine and_congr_left' (exists_congr fun tap => ?_)
  cases htr : pd.weiTr with
  | true =>
    obtain ⟨hsrc, hwei, hdst⟩ := (bwdWeightsGemm_offs pd).2 htr
    rw [hsrc, hwei, hdst, if_pos rfl, and_self, and_self]
  | false =>
    obtain ⟨hsrc, hwei, hdst⟩ := (bwdWeightsGemm_offs pd).1 htr
    rw [hsrc, hwei, hdst, if_neg Bool.false_ne_true, and_self, and_self]

/-- An inner product of tensors that format tags describe. -/
theorem described_of_tags {nd : ℕ} {dims weiDims dstDims biasDims : ℕ → ℤ} {dt : DataType} {tag : FormatTag}
    (hsrc : memoryDescInitByTag nd dims dt tag = .ok pd.srcMd) (hwei : memoryDescInitByTag nd weiDims dt tag = .ok pd.weightsMd)
    (hdst : memoryDescInitByTag 2 dstDims dt .ab = .ok pd.dstMd) (hbias : memoryDescInitByTag 1 biasDims dt .a = .ok pd.biasMd)
    (hkinds : pd.srcMd.formatKind = .blocked ∧ pd.weightsMd.formatKind = .blocked ∧ pd.dstMd.formatKind = .blocked ∧
      pd.biasMd.formatKind = .blocked) (hinner : pd.biasMd.blocking.inner = [])
    (hinit : ipDescInit pd.srcMd pd.weightsMd (some pd.biasMd) pd.dstMd = .ok pd) (hempty : pd.hasZeroDimMemory = false) :
    pd.Described where
  init := ⟨_, hinit⟩
  src := MemoryDesc.Created.operand (Or.inr ⟨_, _, _, _, hsrc⟩) hkinds.1
  weights := MemoryDesc.Created.operand (Or.inr ⟨_, _, _, _, hwei⟩) hkinds.2.1
  dst := MemoryDesc.Created.operand (Or.inr ⟨_, _, _, _, hdst⟩) hkinds.2.2.1
  bias := fun _ => ⟨MemoryDesc.Created.operand (Or.inr ⟨_, _, _, _, hbias⟩) hkinds.2.2.2, hinner⟩
  nonempty := hempty

end Accepted

/-! ## The passes together -/

section Adjoint

variable {R : Type*} [CommSemiring R]

/-- The bilinear form of a source, weights and a gradient, summed up in any of three orders. -/
theorem forward_adjoint {β : Type*} (l : List β) (MB OC : ℕ) (a w : ℕ → β → R) (y : ℕ → ℕ → R) :
    ∑ n ∈ Finset.range MB, ∑ oc ∈ Finset.range OC, (l.map fun t => a n t * w oc t).sum * y n oc =
      ∑ n ∈ Finset.range MB, (l.map fun t => a n t * ∑ oc ∈ Finset.range OC, y n oc * w oc t).sum := by
  refine Finset.sum_congr rfl fun n _ => ?_
  simp only [← List.sum_map_mul_right]
  rw [sum_map_sum_comm]
  refine congrArg List.sum (List.map_congr_left fun t _ => ?_)
  rw [Finset.mul_sum]
  exact Finset.sum_congr rfl fun oc _ => by ring

theorem backward_adjoint {β : Type*} (l : List β) (MB OC : ℕ) (a w : ℕ → β → R) (y : ℕ → ℕ → R) :
    ∑ n ∈ Finset.range MB, (l.map fun t => a n t * ∑ oc ∈ Finset.range OC, y n oc * w oc t).sum =
      ∑ oc ∈ Finset.range OC, (l.map fun t => w oc t * ∑ n ∈ Finset.range MB, y n oc * a n t).sum := by
  rw [sum_map_sum_comm, sum_map_sum_comm]
  refine congrArg List.sum (List.map_congr_left fun t _ => ?_)
  simp only [Finset.mul_sum]
  rw [Finset.sum_comm]
  exact Finset.sum_congr rfl fun oc _ => Finset.sum_congr rfl fun n _ => by ring

/-- The gradients of the source and of the bias make up what the forward pass adds up. -/
theorem sum_forward_mul (src weights bias diffDst : ℤ → R) :
    ∑ n ∈ Finset.range pd.MB, ∑ oc ∈ Finset.range pd.OC,
        RefInnerProduct.forward pd src weights bias n oc * diffDst (pd.dstMd.off [n, oc]) =
      ∑ n ∈ Finset.range pd.MB, ((RefInnerProduct.taps pd).map fun t => src (pd.srcMd.off (n :: t)) *
          RefInnerProduct.backwardData pd diffDst weights n t).sum +
        (if pd.withBias then ∑ oc ∈ Finset.range pd.OC,
          bias (pd.biasMd.off [oc]) * RefInnerProduct.backwardBias pd diffDst oc else 0) := by
  have hproducts := forward_adjoint (RefInnerProduct.taps pd) pd.MB pd.OC (fun n t => src (pd.srcMd.off (n :: t)))
    (fun oc t => weights (pd.weightsMd.off (oc :: t))) fun n oc => diffDst (pd.dstMd.off [n, oc])
  have hsplit : ∑ n ∈ Finset.range pd.MB, ∑ oc ∈ Finset.range pd.OC,
      RefInnerProduct.forward pd src weights bias n oc * diffDst (pd.dstMd.off [n, oc]) =
      ∑ n ∈ Finset.range pd.MB, ∑ oc ∈ Finset.range pd.OC, RefInnerProduct.ker pd src weights n oc * diffDst (pd.dstMd.off [n, oc]) +
        ∑ n ∈ Finset.range pd.MB, ∑ oc ∈ Finset.range pd.OC,
          (if pd.withBias then bias (pd.biasMd.off [oc]) else 0) * diffDst (pd.dstMd.off [n, oc]) := by
    simp only [← Finset.sum_add_distrib]
    refine Finset.sum_congr rfl fun n _ => Finset.sum_congr rfl fun oc _ => ?_
    rw [RefInnerProduct.forward, add_mul, add_comm]
  rw [hsplit]
  refine congrArg₂ (· + ·) hproducts ?_
  split_ifs with hwith
  · rw [Finset.sum_comm]
    refine Finset.sum_congr rfl fun oc _ => ?_
    rw [RefInnerProduct.backwardBias, Finset.mul_sum]
  · simp

/-- The gradients of the source and of the weights belong to the same products. -/
theorem sum_mul_backwardData (src weights diffDst : ℤ → R) :
    ∑ n ∈ Finset.range pd.MB, ((RefInnerProduct.taps pd).map fun t => src (pd.srcMd.off (n :: t)) *
        RefInnerProduct.backwardData pd diffDst weights n t).sum =
      ∑ oc ∈ Finset.range pd.OC, ((RefInnerProduct.taps pd).map fun t => weights (pd.weightsMd.off (oc :: t)) *
        RefInnerProduct.backwardWeights pd diffDst src oc t).sum :=
  backward_adjoint (RefInnerProduct.taps pd) pd.MB pd.OC (fun n t => src (pd.srcMd.off (n :: t)))
    (fun oc t => weights (pd.weightsMd.off (oc :: t))) fun n oc => diffDst (pd.dstMd.off [n, oc])

/-- The passes of an accepted inner product are adjoint to one another: the gradients that the backward passes compute by GEMM are
those of the forward pass without post-operations, for every order of the threads and whatever the destinations held. -/
theorem Described.gemm_passes_adjoint (h : pd.Described) (hcheck : denseGemmConsitencyCheck pd.srcMd pd.weightsMd pd.dstMd = some true)
    (hsuits : pd.Suits) (hdense : pd.BiasDense) {src : ℤ → R} (weights bias diffDst : ℤ → R) (hpad : pd.ZeroPadded src)
    (dst diffSrc diffWeights diffBias : ℤ → R) {nthr nthr' : ℕ} (hnthr : 0 < nthr) (hnthr' : 0 < nthr')
    {o o' : List (ℕ × Assign ℤ R)} (ho : IsOrder (fun p => pd.executeForwardPp ⟨none, none⟩ bias nthr p) o)
    (ho' : IsOrder (fun p => pd.executeBackwardBias diffDst nthr' p) o') :
    ∑ n ∈ Finset.range pd.MB, ∑ oc ∈ Finset.range pd.OC,
        execAll (o.map Prod.snd) (execAll (pd.executeForwardGemm ⟨none, none⟩ src weights) dst) (pd.dstMd.off [n, oc]) *
          diffDst (pd.dstMd.off [n, oc]) =
      ∑ n ∈ Finset.range pd.MB, ((RefInnerProduct.taps pd).map fun t => src (pd.srcMd.off (n :: t)) *
          execAll (pd.executeBackwardData weights diffDst) diffSrc (pd.srcMd.off (n :: t))).sum +
        (if pd.withBias then ∑ oc ∈ Finset.range pd.OC,
          bias (pd.biasMd.off [oc]) * execAll (o'.map Prod.snd) diffBias (pd.biasMd.off [oc]) else 0) ∧
    ∑ n ∈ Finset.range pd.MB, ((RefInnerProduct.taps pd).map fun t => src (pd.srcMd.off (n :: t)) *
        execAll (pd.executeBackwardData weights diffDst) diffSrc (pd.srcMd.off (n :: t))).sum =
      ∑ oc ∈ Finset.range pd.OC, ((RefInnerProduct.taps pd).map fun t => weights (pd.weightsMd.off (oc :: t)) *
        execAll (pd.executeBackwardWeights src diffDst) diffWeights (pd.weightsMd.off (oc :: t))).sum := by
  obtain ⟨tap, ha⟩ := h.addresses_of_suits (gemmConsistent_of_eq_true hcheck) hsuits
  have haddressed := h.biasAddressed_iff.mpr hdense
  have hdata : ∑ n ∈ Finset.range pd.MB, ((RefInnerProduct.taps pd).map fun t => src (pd.srcMd.off (n :: t)) *
        execAll (pd.executeBackwardData weights diffDst) diffSrc (pd.srcMd.off (n :: t))).sum =
      ∑ n ∈ Finset.range pd.MB, ((RefInnerProduct.taps pd).map fun t => src (pd.srcMd.off (n :: t)) *
        RefInnerProduct.backwardData pd diffDst weights n t).sum := by
    refine Finset.sum_congr rfl fun n hn => congrArg List.sum (List.map_congr_left fun t ht => ?_)
    rw [h.backwardDataMeets ha weights diffDst diffSrc n (Finset.mem_range.mp hn) t ht]
  have hweights : ∑ oc ∈ Finset.range pd.OC, ((RefInnerProduct.taps pd).map fun t => weights (pd.weightsMd.off (oc :: t)) *
        execAll (pd.executeBackwardWeights src diffDst) diffWeights (pd.weightsMd.off (oc :: t))).sum =
      ∑ oc ∈ Finset.range pd.OC, ((RefInnerProduct.taps pd).map fun t => weights (pd.weightsMd.off (oc :: t)) *
        RefInnerProduct.backwardWeights pd diffDst src oc t).sum := by
    refine Finset.sum_congr rfl fun oc hoc => congrArg List.sum (List.map_congr_left fun t ht => ?_)
    rw [h.backwardWeightsMeets ha src diffDst diffWeights oc (Finset.mem_range.mp hoc) t ht]
  have hforward : ∑ n ∈ Finset.range pd.MB, ∑ oc ∈ Finset.range pd.OC,
      execAll (o.map Prod.snd) (execAll (pd.executeForwardGemm ⟨none, none⟩ src weights) dst) (pd.dstMd.off [n, oc]) *
        diffDst (pd.dstMd.off [n, oc]) =
      ∑ n ∈ Finset.range pd.MB, ∑ oc ∈ Finset.range pd.OC,
        RefInnerProduct.forward pd src weights bias n oc * diffDst (pd.dstMd.off [n, oc]) := by
    refine Finset.sum_congr rfl fun n hn => Finset.sum_congr rfl fun oc hoc => ?_
    rw [h.forwardMeets ha haddressed ⟨none, none⟩ src weights bias dst hpad nthr hnthr o ho n (Finset.mem_range.mp hn) oc
      (Finset.mem_range.mp hoc)]
    simp [forwardValue, beta]
  have hbias : pd.withBias = true → ∑ oc ∈ Finset.range pd.OC,
      bias (pd.biasMd.off [oc]) * execAll (o'.map Prod.snd) diffBias (pd.biasMd.off [oc]) =
        ∑ oc ∈ Finset.range pd.OC, bias (pd.biasMd.off [oc]) * RefInnerProduct.backwardBias pd diffDst oc := by
    intro hwith
    refine Finset.sum_congr rfl fun oc hoc => ?_
    rw [h.backwardBiasMeets ha haddressed hwith diffDst diffBias nthr' hnthr' o' ho' oc (Finset.mem_range.mp hoc)]
  constructor
  · rw [hdata, hforward, sum_forward_mul]
    split_ifs with hwith
    · rw [hbias hwith]
    · rfl
  · rw [hdata, hweights]
    exact sum_mul_backwardData src weights diffDst

/-- Sixteen channels in blocks of eight, two threads forward and three for the gradient of the bias. -/
theorem gemm_passes_adjoint_aBcd8b : ∃ pd : InnerProductPd, pd.Described ∧ ∃ o o' : List (ℕ × Assign ℤ ℤ),
    IsOrder (fun p => pd.executeForwardPp ⟨none, none⟩ (fun i => i) 2 p) o ∧
    IsOrder (fun p => pd.executeBackwardBias (fun i => 2 * i + 3) 3 p) o' ∧
    ∑ n ∈ Finset.range pd.MB, ∑ oc ∈ Finset.range pd.OC,
        execAll (o.map Prod.snd) (execAll (pd.executeForwardGemm ⟨none, none⟩ (fun i => i) fun i => i + 1) fun _ => 7)
          (pd.dstMd.off [n, oc]) * (2 * pd.dstMd.off [n, oc] + 3) =
      ∑ n ∈ Finset.range pd.MB, ((RefInnerProduct.taps pd).map fun t => pd.srcMd.off (n :: t) *
          execAll (pd.executeBackwardData (fun i => i + 1) fun i => 2 * i + 3) (fun _ => 7) (pd.srcMd.off (n :: t))).sum +
        if pd.withBias then ∑ oc ∈ Finset.range pd.OC,
          pd.biasMd.off [oc] * execAll (o'.map Prod.snd) (fun _ => 7) (pd.biasMd.off [oc]) else 0 := by
  obtain ⟨pd, hsrc, hwei, hdst, hbias, hkinds, hinner, hinit, hempty, hcheck, himages, himage, hchannels, hstrides, hnd, hone, htaps⟩ :
      ∃ pd : InnerProductPd,
      memoryDescInitByTag 4 (fun d => if d = 1 then 16 else if d = 3 then 1 else 2) .f32 .aBcd8b = .ok pd.srcMd ∧
      memoryDescInitByTag 4 (fun d => if d = 0 then 3 else if d = 1 then 16 else if d = 3 then 1 else 2) .f32 .aBcd8b =
        .ok pd.weightsMd ∧
      memoryDescInitByTag 2 (fun d => if d = 0 then 2 else 3) .f32 .ab = .ok pd.dstMd ∧
      memoryDescInitByTag 1 (fun _ => 3) .f32 .a = .ok pd.biasMd ∧
      (pd.srcMd.formatKind = .blocked ∧ pd.weightsMd.formatKind = .blocked ∧ pd.dstMd.formatKind = .blocked ∧
        pd.biasMd.formatKind = .blocked) ∧ pd.biasMd.blocking.inner = [] ∧
      ipDescInit pd.srcMd pd.weightsMd (some pd.biasMd) pd.dstMd = .ok pd ∧ pd.hasZeroDimMemory = false ∧
      denseGemmConsitencyCheck pd.srcMd pd.weightsMd pd.dstMd = some true ∧
      Uniform pd.icTotalPadded (pd.srcMd.dimLoops 0) ∧ pd.srcMd.imageLoops = [(2, 16), (8, 1), (2, 8), (1, 8)] ∧
      Uniform pd.icTotalPadded (pd.weightsMd.dimLoops 0) ∧
      (∀ d < 4, 1 ≤ d → pd.weightsMd.blocking.strides d = pd.channelStep * pd.srcMd.blocking.strides d) ∧
      pd.ndims = 4 ∧ pd.biasMd.blocking.strides 0 = 1 ∧ ∀ t ∈ pd.paddedTaps, t ∈ RefInnerProduct.taps pd :=
    ⟨⟨_, _, _, _⟩, rfl, rfl, rfl, rfl, by decide, rfl, rfl, by decide, by decide, by decide, by decide, by decide, by decide,
      rfl, rfl, by decide⟩
  have hdescribed := described_of_tags hsrc hwei hdst hbias hkinds hinner hinit hempty
  have hnested : Nestable pd.srcMd.imageLoops := by
    rw [himage]
    exact Or.inr ⟨[(2, 16), (2, 8), (8, 1)], by decide, rfl, rfl, rfl, trivial⟩
  have hsuits : pd.Suits :=
    ⟨himages, hnested, fun _ => hchannels, fun d hd hlt => Or.inr (hstrides d (hnd ▸ hlt) hd)⟩
  have hidle : ∀ p, 2 ≤ p → pd.executeForwardPp ⟨none, none⟩ (fun i : ℤ => i) 2 p = [] := by
    intro p hp
    unfold executeForwardPp ppThread
    rw [if_neg (Nat.not_lt.mpr hp), List.map_nil, ite_self]
  have hidle' : ∀ p, 3 ≤ p → pd.executeBackwardBias (fun i : ℤ => 2 * i + 3) 3 p = [] := by
    intro p hp
    unfold executeBackwardBias
    rw [if_neg fun hlt => absurd hlt.2 (Nat.not_lt.mpr hp)]
  obtain ⟨o, ho, -⟩ := exists_isOrder hidle
  obtain ⟨o', ho', -⟩ := exists_isOrder hidle'
  refine ⟨pd, hdescribed, o, o', ho, ho', ?_⟩
  exact (hdescribed.gemm_passes_adjoint hcheck hsuits (fun _ => Or.inr hone) (fun i => i + 1) (fun i => i) (fun i => 2 * i + 3)
    (fun n _ t ht hnot => absurd (htaps t ht) hnot) (fun _ => 7) (fun _ => 7) (fun _ => 7) (fun _ => 7) Nat.two_pos (Nat.succ_pos 2)
    ho ho').1

end Adjoint

end InnerProductPd

end MklDnn
