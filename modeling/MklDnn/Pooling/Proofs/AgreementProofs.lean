import Mathlib.Algebra.Order.Ring.Rat
import MklDnn.Pooling.Proofs.GatherProofs

/-!
# Proofs: the implementations of pooling agree

The reference and the implementations for plain layouts leave the same tensors, each in its own layout.
-/

open LoopNest Interleaving

namespace MklDnn.PoolingPd

open Pooling

variable {R : Type*} {pd : PoolingPd}

/-! ## Tensors in three layouts -/

/-- The memories of the three implementations hold the same source. -/
structure SrcAgree {V : Type*} (pd : PoolingPd) (ref : List ℕ → V) (nchw nhwc : ℕ → V) : Prop where
  nchw : ∀ {mb c i}, pd.InTensor pd.image mb c i →
    nchw (NchwPooling.srcOff pd mb c i.1 i.2.1 i.2.2) = ref (RefPooling.srcOff pd mb c i.1 i.2.1 i.2.2)
  nhwc : ∀ {mb c i}, pd.InTensor pd.image mb c i →
    nhwc (NhwcPooling.srcOff pd mb c i.1 i.2.1 i.2.2) = ref (RefPooling.srcOff pd mb c i.1 i.2.1 i.2.2)

/-- The memories of the three implementations hold the same destination, or the same workspace. -/
structure DstAgree {V : Type*} (pd : PoolingPd) (ref : List ℕ → V) (nchw nhwc : ℕ → V) : Prop where
  nchw : ∀ {mb c o}, pd.InTensor pd.windows mb c o →
    nchw (NchwPooling.dstOff pd mb c o.1 o.2.1 o.2.2) = ref (RefPooling.dstOff pd mb c o.1 o.2.1 o.2.2)
  nhwc : ∀ {mb c o}, pd.InTensor pd.windows mb c o →
    nhwc (NhwcPooling.dstOff pd mb c o.1 o.2.1 o.2.2) = ref (RefPooling.dstOff pd mb c o.1 o.2.1 o.2.2)

/-- Every entry of a workspace is the index of a tap. -/
def TapIndices (pd : PoolingPd) (ws : List ℕ → ℕ) : Prop :=
  ∀ {mb c o}, pd.InTensor pd.windows mb c o →
    ws (RefPooling.dstOff pd mb c o.1 o.2.1 o.2.2) < pd.d.k * pd.h.k * pd.w.k

theorem Accepted.addressable (hsup : NchwPooling.Supported pd) : pd.Addressable := by
  refine ⟨hsup.dstNdims, fun hn => ?_⟩
  have hndims := hsup.ndims
  omega

/-! ## Forward -/

section Forward

variable [LinearOrder R]

/-- The image that an implementation reads. -/
theorem kerMax_congr {x y : ℕ → ℕ → ℕ → R} (hxy : ∀ i ∈ pd.image, x i.1 i.2.1 i.2.2 = y i.1 i.2.1 i.2.2) (st : R × ℕ)
    (od oh ow : ℕ) : NchwPooling.kerMax pd x st od oh ow = NchwPooling.kerMax pd y st od oh ow := by
  unfold NchwPooling.kerMax
  congr 1
  funext st kd
  congr 1
  funext st kh
  congr 1
  funext st kw
  dsimp only
  by_cases hd : pd.d.Outside (pd.d.tap od kd)
  · rw [if_pos hd, if_pos hd]
  by_cases hh : pd.h.Outside (pd.h.tap oh kh)
  · rw [if_neg hd, if_neg hd, if_pos hh, if_pos hh]
  by_cases hw : pd.w.Outside (pd.w.tap ow kw)
  · rw [if_neg hd, if_neg hd, if_neg hh, if_neg hh, if_pos hw, if_pos hw]
  have hin : ((pd.d.tap od kd).toNat, (pd.h.tap oh kh).toNat, (pd.w.tap ow kw).toNat) ∈ pd.image := by
    rw [mem_image]
    unfold Axis.Outside at hd hh hw
    dsimp only
    omega
  have heq := hxy _ hin
  dsimp only at heq
  rw [heq]

variable [Field R]

omit [LinearOrder R] in
theorem kerAvgFwd_congr {start : Axis → ℤ → ℤ} (hstart : ∀ a o, start a o = a.start o) {x y : ℕ → ℕ → ℕ → R}
    (hxy : ∀ i ∈ pd.image, x i.1 i.2.1 i.2.2 = y i.1 i.2.1 i.2.2) (od oh ow : ℕ) :
    pd.kerAvgFwd start x od oh ow = pd.kerAvgFwd Axis.start y od oh ow := by
  rw [kerAvgFwd_eq hstart, kerAvgFwd_eq fun _ _ => rfl]
  congr 1
  refine Finset.sum_congr rfl fun i hi => ?_
  rw [hxy i hi]

/-- From the same source, the three implementations compute the same destination and the same workspace, and the workspace
holds indices of taps. -/
def ForwardAgrees (pd : PoolingPd) (R : Type*) [Field R] [LinearOrder R] : Prop :=
  ∀ (lowest : R) {srcRef : List ℕ → R} {srcNchw srcNhwc : ℕ → R}, pd.SrcAgree srcRef srcNchw srcNhwc →
    (∀ (dstRef : List ℕ → R) (dstNchw dstNhwc : ℕ → R),
      pd.DstAgree (applyWrites (RefPooling.executeForward pd lowest srcRef) dstRef)
        (applyWrites (NchwPooling.executeForward pd lowest srcNchw) dstNchw)
        (applyWrites (NhwcPooling.executeForward pd lowest srcNhwc) dstNhwc)) ∧
    (pd.alg = .max → ∀ (wsRef : List ℕ → ℕ) (wsNchw wsNhwc : ℕ → ℕ),
      pd.DstAgree (applyWrites (RefPooling.executeForwardWs pd lowest srcRef) wsRef)
        (applyWrites (NchwPooling.executeForwardWs pd lowest srcNchw) wsNchw)
        (applyWrites (NhwcPooling.executeForwardWs pd lowest srcNhwc) wsNhwc) ∧
      pd.TapIndices (applyWrites (RefPooling.executeForwardWs pd lowest srcRef) wsRef))

theorem Accepted.forward_agrees (h : pd.Accepted) (hsup : NchwPooling.Supported pd) : pd.ForwardAgrees R := by
  intro lowest srcRef srcNchw srcNhwc hsrc
  have haddr := Accepted.addressable hsup
  refine ⟨fun dstRef dstNchw dstNhwc => ⟨?_, ?_⟩, fun _ wsRef wsNchw wsNhwc => ⟨⟨?_, ?_⟩, ?_⟩⟩
  · intro mb c o ho
    have himage : ∀ i ∈ pd.image, srcNchw (NchwPooling.srcOff pd mb c i.1 i.2.1 i.2.2) =
        srcRef (RefPooling.srcOff pd mb c i.1 i.2.1 i.2.2) := fun i hi => hsrc.nchw ⟨ho.mb, ho.c, hi⟩
    rw [nchw_forward lowest srcNchw dstNchw ho]
    refine Eq.trans ?_ (applyWrites_outputs (h.separates_dst haddr) _ dstRef ho).symm
    split_ifs
    · rw [RefPooling.kerMax_eq, kerMax_congr (y := fun id ih iw => srcRef (RefPooling.srcOff pd mb c id ih iw)) himage]
    · exact kerAvgFwd_congr (fun _ o => Axis.startOffset_eq o) himage _ _ _
  · intro mb c o ho
    have himage : ∀ i ∈ pd.image, srcNhwc (NhwcPooling.srcOff pd mb c i.1 i.2.1 i.2.2) =
        srcRef (RefPooling.srcOff pd mb c i.1 i.2.1 i.2.2) := fun i hi => hsrc.nhwc ⟨ho.mb, ho.c, hi⟩
    refine (applyWrites_channelsLast h.separates_nhwc_dst _ dstNhwc ho).trans ?_
    refine Eq.trans ?_ (applyWrites_outputs (h.separates_dst haddr) _ dstRef ho).symm
    split_ifs
    · rw [RefPooling.kerMax_eq, NhwcPooling.kerMax_eq,
        kerMax_congr (y := fun id ih iw => srcRef (RefPooling.srcOff pd mb c id ih iw)) himage]
    · rw [NhwcPooling.kerAvg_eq]
      exact kerAvgFwd_congr (fun _ o => Axis.startOffset_eq o) himage _ _ _
  · intro mb c o ho
    rw [nchw_forwardWs lowest srcNchw wsNchw ho]
    refine Eq.trans ?_ (applyWrites_outputs (h.separates_dst haddr) _ wsRef ho).symm
    rw [RefPooling.kerMax_eq,
      kerMax_congr (y := fun id ih iw => srcRef (RefPooling.srcOff pd mb c id ih iw)) fun i hi => hsrc.nchw ⟨ho.mb, ho.c, hi⟩]
  · intro mb c o ho
    refine (applyWrites_channelsLast h.separates_nhwc_dst _ wsNhwc ho).trans ?_
    refine Eq.trans ?_ (applyWrites_outputs (h.separates_dst haddr) _ wsRef ho).symm
    rw [RefPooling.kerMax_eq, NhwcPooling.kerMax_eq,
      kerMax_congr (y := fun id ih iw => srcRef (RefPooling.srcOff pd mb c id ih iw)) fun i hi => hsrc.nhwc ⟨ho.mb, ho.c, hi⟩]
  · intro mb c o ho
    have hreg := h.regular
    refine lt_of_eq_of_lt (applyWrites_outputs (h.separates_dst haddr) _ wsRef ho) ?_
    rw [RefPooling.kerMax_eq]
    exact kerMax_lt _ (Nat.mul_pos (Nat.mul_pos hreg.d.2 hreg.h.2) hreg.w.2) _ _ _

end Forward

/-! ## Backward -/

section Backward

variable [Field R]

theorem avgGradient_congr {d d' : ℕ → ℕ → ℕ → R} (hd : ∀ o ∈ pd.windows, d o.1 o.2.1 o.2.2 = d' o.1 o.2.1 o.2.2)
    (i : ℕ × ℕ × ℕ) : pd.avgGradient d i = pd.avgGradient d' i := by
  unfold avgGradient
  refine Finset.sum_congr rfl fun o ho => ?_
  rw [hd o ho]

theorem maxGradient_congr {d d' : ℕ → ℕ → ℕ → R} {ws ws' : ℕ → ℕ → ℕ → ℕ}
    (hd : ∀ o ∈ pd.windows, d o.1 o.2.1 o.2.2 = d' o.1 o.2.1 o.2.2)
    (hws : ∀ o ∈ pd.windows, ws o.1 o.2.1 o.2.2 = ws' o.1 o.2.1 o.2.2) (i : ℕ × ℕ × ℕ) :
    pd.maxGradient d ws i = pd.maxGradient d' ws' i := by
  unfold maxGradient
  refine Finset.sum_congr rfl fun o ho => ?_
  rw [hd o ho, hws o ho]

/-- From the same gradient of the destination and, for the maximum, the same workspace of indices of taps, the three
implementations compute the same gradient of the source. -/
def BackwardAgrees (pd : PoolingPd) (R : Type*) [Field R] : Prop :=
  ∀ {dRef : List ℕ → R} {dNchw dNhwc : ℕ → R} {wsRef : List ℕ → ℕ} {wsNchw wsNhwc : ℕ → ℕ}, pd.DstAgree dRef dNchw dNhwc →
    (pd.alg = .max → pd.DstAgree wsRef wsNchw wsNhwc ∧ pd.TapIndices wsRef) →
      ∀ (srcRef : List ℕ → R) (srcNchw srcNhwc : ℕ → R),
        pd.SrcAgree (execAll (RefPooling.executeBackward pd dRef wsRef) srcRef)
          (execAll (NchwPooling.executeBackward pd dNchw wsNchw) srcNchw)
          (execAll (NhwcPooling.executeBackward pd dNhwc wsNhwc) srcNhwc)

theorem Accepted.ref_backward_max (h : pd.Accepted) (halg : pd.alg = .max) (haddr : pd.Addressable) (d : List ℕ → R)
    {ws : List ℕ → ℕ} (hws : pd.TapIndices ws) (m : List ℕ → R) {mb c : ℕ} {i : ℕ × ℕ × ℕ}
    (hi : pd.InTensor pd.image mb c i) :
    execAll (RefPooling.executeBackward pd d ws) m (RefPooling.srcOff pd mb c i.1 i.2.1 i.2.2) =
      pd.maxGradient (fun od oh ow => d (RefPooling.dstOff pd mb c od oh ow))
        (fun od oh ow => ws (RefPooling.dstOff pd mb c od oh ow)) i :=
  h.regular.execAll_scatterImages_max halg (fun _ _ => rfl) (h.separates_src haddr)
    (fun _ ho => hws ⟨hi.mb, hi.c, ho⟩) m hi

theorem Accepted.ref_backward_avg (h : pd.Accepted) (halg : pd.alg ≠ .max) (haddr : pd.Addressable) (d : List ℕ → R)
    (ws : List ℕ → ℕ) (m : List ℕ → R) {mb c : ℕ} {i : ℕ × ℕ × ℕ} (hi : pd.InTensor pd.image mb c i) :
    execAll (RefPooling.executeBackward pd d ws) m (RefPooling.srcOff pd mb c i.1 i.2.1 i.2.2) =
      pd.avgGradient (fun od oh ow => d (RefPooling.dstOff pd mb c od oh ow)) i :=
  h.regular.execAll_scatterImages_avg halg (fun _ _ => rfl) (h.separates_src haddr) m hi

theorem Accepted.backward_agrees (h : pd.Accepted) (hsup : NchwPooling.Supported pd) : pd.BackwardAgrees R := by
  intro dRef dNchw dNhwc wsRef wsNchw wsNhwc hd hws srcRef srcNchw srcNhwc
  have haddr := Accepted.addressable hsup
  by_cases halg : pd.alg = .max
  · obtain ⟨hws, hindex⟩ := hws halg
    constructor
    · intro mb c i hi
      have hlt : ∀ o ∈ pd.windows, wsNchw (NchwPooling.dstOff pd mb c o.1 o.2.1 o.2.2) < pd.d.k * pd.h.k * pd.w.k := by
        intro o ho
        rw [hws.nchw ⟨hi.mb, hi.c, ho⟩]
        exact hindex ⟨hi.mb, hi.c, ho⟩
      rw [h.nchw_backward_max halg dNchw hlt srcNchw hi, h.ref_backward_max halg haddr dRef hindex srcRef hi]
      exact maxGradient_congr (fun o ho => hd.nchw ⟨hi.mb, hi.c, ho⟩) (fun o ho => hws.nchw ⟨hi.mb, hi.c, ho⟩) i
    · intro mb c i hi
      have hlt : ∀ o ∈ pd.windows, wsNhwc (NhwcPooling.dstOff pd mb c o.1 o.2.1 o.2.2) < pd.d.k * pd.h.k * pd.w.k := by
        intro o ho
        rw [hws.nhwc ⟨hi.mb, hi.c, ho⟩]
        exact hindex ⟨hi.mb, hi.c, ho⟩
      rw [h.nhwc_backward_max halg srcNhwc hlt hi, h.ref_backward_max halg haddr dRef hindex srcRef hi]
      exact maxGradient_congr (fun o ho => hd.nhwc ⟨hi.mb, hi.c, ho⟩) (fun o ho => hws.nhwc ⟨hi.mb, hi.c, ho⟩) i
  · constructor
    · intro mb c i hi
      rw [h.nchw_backward_avg halg dNchw wsNchw srcNchw hi, h.ref_backward_avg halg haddr dRef wsRef srcRef hi]
      exact avgGradient_congr (fun o ho => hd.nchw ⟨hi.mb, hi.c, ho⟩) i
    · intro mb c i hi
      rw [h.nhwc_backward_avg halg srcNhwc hi, h.ref_backward_avg halg haddr dRef wsRef srcRef hi]
      exact avgGradient_congr (fun o ho => hd.nhwc ⟨hi.mb, hi.c, ho⟩) i

end Backward

/-! ## The implementations -/

/-- The implementations for plain layouts accept the same problems. -/
theorem supported_iff : NhwcPooling.Supported pd ↔ NchwPooling.Supported pd :=
  ⟨fun h => ⟨h.ndims, h.dstNdims⟩, fun h => ⟨h.ndims, h.dstNdims⟩⟩

/-- Windows that overlap, with padding on all sides. -/
def overlapping : PoolingPd where
  alg := .max
  ndims := 4
  dstNdims := 4
  srcDims i := if i < 2 then 2 else 5
  dstDims i := if i < 2 then 2 else 3
  kernel _ := 3
  strides _ := 2
  paddingL _ := 1
  paddingR _ := 1

theorem overlapping_accepted : overlapping.Accepted where
  ndims := Or.inr (Or.inl rfl)
  dstNdims := Or.inr (Or.inl rfl)
  mb := rfl
  c := rfl
  spatial i hi _ := by
    have hnot : ¬ i < 2 := by omega
    show ((if i < 2 then (2 : ℕ) else 5 : ℕ) - (3 : ℤ) + 1 + 1).tdiv 2 + 1 = (if i < 2 then (2 : ℕ) else 3 : ℕ)
    rw [if_neg hnot, if_neg hnot]
    rfl
  excludePadding halg := by cases halg
  stride _ _ := Nat.two_pos
  kernel _ _ := Nat.succ_pos 2

end MklDnn.PoolingPd
