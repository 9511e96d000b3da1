import Mathlib.Algebra.BigOperators.Group.Finset.Basic
import MklDnn.Conv.Im2col

/-!
# Reference convolution

`ref_convolution_fwd_t`, `ref_convolution_bwd_data_t` and `ref_convolution_bwd_weights_t` on plain layouts of
five dimensions. The arithmetic is exact.
-/

namespace MklDnn

namespace RefConvolution

variable {R : Type*} [NonUnitalNonAssocSemiring R] (jcp : JitGemmConvConf)

/-- `src_d.off` -/
def srcOff (mb c id ih iw : ℕ) : ℕ := (((mb * (jcp.ngroups * jcp.ic) + c) * jcp.id + id) * jcp.ih + ih) * jcp.iw + iw

/-- `dst_d.off` -/
def dstOff (mb c od oh ow : ℕ) : ℕ := (((mb * (jcp.ngroups * jcp.oc) + c) * jcp.od + od) * jcp.oh + oh) * jcp.ow + ow

/-- `weights_d.off` -/
def weightsOff (g oc ic kd kh kw : ℕ) : ℕ :=
  ((((g * jcp.oc + oc) * jcp.ic + ic) * jcp.kd + kd) * jcp.kh + kh) * jcp.kw + kw

/-- The sum `ker` of `execute_forward`. -/
def fwdKer (src weights : ℕ → R) (g mb oc od oh ow : ℕ) : R :=
  ∑ ic ∈ Finset.range jcp.ic, ∑ kd ∈ Finset.range jcp.kd, ∑ kh ∈ Finset.range jcp.kh, ∑ kw ∈ Finset.range jcp.kw,
    let id := od * jcp.strideD - jcp.fPad + kd * jcp.dd
    let ih := oh * jcp.strideH - jcp.tPad + kh * jcp.dh
    let iw := ow * jcp.strideW - jcp.lPad + kw * jcp.dw
    if id < 0 ∨ jcp.id ≤ id then 0
    else if ih < 0 ∨ jcp.ih ≤ ih then 0
    else if iw < 0 ∨ jcp.iw ≤ iw then 0
    else
      src (srcOff jcp mb (g * jcp.ic + ic) id.toNat ih.toNat iw.toNat) * weights (weightsOff jcp g oc ic kd kh kw)

/-- `execute_forward`: an element of `dst`. -/
def executeForward (src weights bias : ℕ → R) (g mb oc od oh ow : ℕ) : R :=
  (if jcp.withBias then bias (g * jcp.oc + oc) else 0) + fwdKer jcp src weights g mb oc od oh ow

/-- `execute_backward_data`: an element of `diff_src`. -/
def executeBackwardData (diffDst weights : ℕ → R) (g mb ic id ih iw : ℕ) : R :=
  ∑ oc ∈ Finset.range jcp.oc, ∑ kd ∈ Finset.range jcp.kd, ∑ kh ∈ Finset.range jcp.kh, ∑ kw ∈ Finset.range jcp.kw,
    if iw + jcp.lPad < kw * jcp.dw ∨ ih + jcp.tPad < kh * jcp.dh ∨ id + jcp.fPad < kd * jcp.dd then 0
    else
      let ow := iw - kw * jcp.dw + jcp.lPad
      let oh := ih - kh * jcp.dh + jcp.tPad
      let od := id - kd * jcp.dd + jcp.fPad
      if ow.tmod jcp.strideW ≠ 0 ∨ oh.tmod jcp.strideH ≠ 0 ∨ od.tmod jcp.strideD ≠ 0 then 0
      else
        let ow := ow.tdiv jcp.strideW
        let oh := oh.tdiv jcp.strideH
        let od := od.tdiv jcp.strideD
        if od < jcp.od ∧ oh < jcp.oh ∧ ow < jcp.ow then
          diffDst (dstOff jcp mb (g * jcp.oc + oc) od.toNat oh.toNat ow.toNat) *
            weights (weightsOff jcp g oc ic kd kh kw)
        else 0

/-- `execute_backward_weights`: an element of `diff_weights`. -/
def executeBackwardWeights (src diffDst : ℕ → R) (g oc ic kd kh kw : ℕ) : R :=
  ∑ mb ∈ Finset.range jcp.mb, ∑ od ∈ Finset.range jcp.od, ∑ oh ∈ Finset.range jcp.oh, ∑ ow ∈ Finset.range jcp.ow,
    if ow * jcp.strideW + kw * jcp.dw < jcp.lPad ∨ oh * jcp.strideH + kh * jcp.dh < jcp.tPad ∨
        od * jcp.strideD + kd * jcp.dd < jcp.fPad ∨ jcp.iw + jcp.lPad ≤ ow * jcp.strideW + kw * jcp.dw ∨
        jcp.ih + jcp.tPad ≤ oh * jcp.strideH + kh * jcp.dh ∨ jcp.id + jcp.fPad ≤ od * jcp.strideD + kd * jcp.dd then 0
    else
      let id := od * jcp.strideD - jcp.fPad + kd * jcp.dd
      let ih := oh * jcp.strideH - jcp.tPad + kh * jcp.dh
      let iw := ow * jcp.strideW - jcp.lPad + kw * jcp.dw
      diffDst (dstOff jcp mb (g * jcp.oc + oc) od oh ow) *
        src (srcOff jcp mb (g * jcp.ic + ic) id.toNat ih.toNat iw.toNat)

/-- `execute_backward_weights`: an element of `diff_bias`. -/
def executeBackwardBias (diffDst : ℕ → R) (g oc : ℕ) : R :=
  ∑ mb ∈ Finset.range jcp.mb, ∑ od ∈ Finset.range jcp.od, ∑ oh ∈ Finset.range jcp.oh, ∑ ow ∈ Finset.range jcp.ow,
    diffDst (dstOff jcp mb (g * jcp.oc + oc) od oh ow)

end RefConvolution

end MklDnn
