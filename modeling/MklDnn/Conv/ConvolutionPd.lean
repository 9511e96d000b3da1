import Mathlib.Algebra.BigOperators.Group.Finset.Basic
import MklDnn.Conv.Im2col

/-!
# Accepted convolutions

What `conv_desc_init` checks, and what `init_conf` derives from an accepted descriptor.
-/

namespace MklDnn

/-- The checks of `conv_desc_init` for a spatial dimension. -/
def convDescInitDim (src ker dil : ℕ) (padL padR : ℤ) (str dst : ℕ) : Prop :=
  let kerRange := 1 + ((ker : ℤ) - 1) * (dil + 1)
  1 ≤ str ∧ 0 ≤ padL ∧ 0 < padR + str ∧ (src - kerRange + padL + padR).tdiv str + 1 = dst

namespace JitGemmConvConf

variable (jcp : JitGemmConvConf)

/-- The sizes of an accepted convolution without empty memories, and `im2col_sz`. -/
structure Accepted : Prop where
  mb : 0 < jcp.mb
  ngroups : 0 < jcp.ngroups
  ic : 0 < jcp.ic
  oc : 0 < jcp.oc
  id : 0 < jcp.id
  ih : 0 < jcp.ih
  iw : 0 < jcp.iw
  od : 0 < jcp.od
  oh : 0 < jcp.oh
  ow : 0 < jcp.ow
  kd : 0 < jcp.kd
  kh : 0 < jcp.kh
  kw : 0 < jcp.kw
  descD : ∃ padR, convDescInitDim jcp.id jcp.kd jcp.dilateD jcp.fPad padR jcp.strideD jcp.od
  descH : ∃ padR, convDescInitDim jcp.ih jcp.kh jcp.dilateH jcp.tPad padR jcp.strideH jcp.oh
  descW : ∃ padR, convDescInitDim jcp.iw jcp.kw jcp.dilateW jcp.lPad padR jcp.strideW jcp.ow
  im2colSz : jcp.im2colSz = 0 ↔ jcp.ow = jcp.iw ∧ jcp.oh = jcp.ih ∧ jcp.od = jcp.id ∧ jcp.strideW = 1 ∧
    jcp.strideH = 1 ∧ jcp.strideD = 1 ∧ jcp.ks = 1 ∧ jcp.signedInput = false

/-- The blocks that `init_conf` selects for the forward pass. -/
structure FwdBlocks : Prop where
  icBlock : 0 < jcp.icBlock
  ocBlock : 0 < jcp.ocBlock
  osBlock : 0 < jcp.osBlock
  nthrOc : 0 < jcp.nthrOc
  whole : jcp.id ≠ 1 → jcp.osBlock = jcp.os ∧ jcp.icBlock = jcp.ic
  im2colSz : jcp.im2colSz ≠ 0 → jcp.im2colSz = jcp.icBlock * jcp.ks * jcp.osBlock

/-- A problem of one or two dimensions. -/
structure Planar : Prop where
  id : jcp.id = 1
  od : jcp.od = 1
  kd : jcp.kd = 1
  fPad : jcp.fPad = 0
  strideD : jcp.strideD = 1
  dilateD : jcp.dilateD = 0

end JitGemmConvConf

theorem conv3x3_accepted : conv3x3.Accepted where
  mb := Nat.succ_pos _
  ngroups := Nat.succ_pos _
  ic := Nat.succ_pos _
  oc := Nat.succ_pos _
  id := Nat.succ_pos _
  ih := Nat.succ_pos _
  iw := Nat.succ_pos _
  od := Nat.succ_pos _
  oh := Nat.succ_pos _
  ow := Nat.succ_pos _
  kd := Nat.succ_pos _
  kh := Nat.succ_pos _
  kw := Nat.succ_pos _
  descD := ⟨0, by unfold convDescInitDim; decide⟩
  descH := ⟨1, by unfold convDescInitDim; decide⟩
  descW := ⟨1, by unfold convDescInitDim; decide⟩
  im2colSz := by decide

theorem conv3x3_planar : conv3x3.Planar := ⟨rfl, rfl, rfl, rfl, rfl, rfl⟩

theorem conv3x3_fwdBlocks : conv3x3.FwdBlocks where
  icBlock := Nat.succ_pos _
  ocBlock := Nat.succ_pos _
  osBlock := Nat.succ_pos _
  nthrOc := Nat.succ_pos _
  whole := fun h => absurd rfl h
  im2colSz := fun _ => rfl

end MklDnn

/-!
## Reference convolution of any rank

`convolution_pd_t` and the passes of the reference convolution, for problems of one to three dimensions with and
without groups. A tensor is a function of the position, so that its layout does not matter. The arithmetic is exact.
-/

open LoopNest

namespace MklDnn

/-- `convolution_pd_t`: what the reference reads of the descriptor. -/
structure ConvolutionPd where
  ndims : ℕ
  withGroups : Bool
  srcDims : ℕ → ℕ
  weiDims : ℕ → ℕ
  dstDims : ℕ → ℕ
  strides : ℕ → ℕ
  dilates : ℕ → ℕ
  paddingL : ℕ → ℤ
  paddingR : ℕ → ℤ

namespace ConvolutionPd

variable (pd : ConvolutionPd)

/-- `with_groups` as a number of dimensions. -/
def groupDims : ℕ := if pd.withGroups then 1 else 0

/-- What `conv_desc_init` checks. -/
structure Accepted : Prop where
  ndims : pd.ndims = 3 ∨ pd.ndims = 4 ∨ pd.ndims = 5
  weights : ∀ i < pd.ndims + pd.groupDims, 0 < pd.weiDims i
  mb : pd.srcDims 0 = pd.dstDims 0
  src : pd.srcDims 1 = (if pd.withGroups then pd.weiDims 0 else 1) * pd.weiDims (pd.groupDims + 1)
  dst : pd.dstDims 1 = (if pd.withGroups then pd.weiDims 0 else 1) * pd.weiDims (pd.groupDims + 0)
  spatial : ∀ i, 2 ≤ i → i < pd.ndims → convDescInitDim (pd.srcDims i) (pd.weiDims (pd.groupDims + i)) (pd.dilates (i - 2))
    (pd.paddingL (i - 2)) (pd.paddingR (i - 2)) (pd.strides (i - 2)) (pd.dstDims i)

def MB : ℕ := pd.srcDims 0

def G : ℕ := if pd.withGroups then pd.weiDims 0 else 1

/-- `IC` of a group -/
def IC : ℕ := pd.srcDims 1 / pd.G

/-- `OC` of a group -/
def OC : ℕ := pd.dstDims 1 / pd.G

def ID : ℕ := if 5 ≤ pd.ndims then pd.srcDims (pd.ndims - 3) else 1

def IH : ℕ := if 4 ≤ pd.ndims then pd.srcDims (pd.ndims - 2) else 1

def IW : ℕ := pd.srcDims (pd.ndims - 1)

def OD : ℕ := if 5 ≤ pd.ndims then pd.dstDims (pd.ndims - 3) else 1

def OH : ℕ := if 4 ≤ pd.ndims then pd.dstDims (pd.ndims - 2) else 1

def OW : ℕ := pd.dstDims (pd.ndims - 1)

def KD : ℕ := if 5 ≤ pd.ndims then pd.weiDims (pd.ndims + pd.groupDims - 3) else 1

def KH : ℕ := if 4 ≤ pd.ndims then pd.weiDims (pd.ndims + pd.groupDims - 2) else 1

def KW : ℕ := pd.weiDims (pd.ndims + pd.groupDims - 1)

def KSD : ℕ := if 5 ≤ pd.ndims then pd.strides (pd.ndims - 5) else 1

def KSH : ℕ := if 4 ≤ pd.ndims then pd.strides (pd.ndims - 4) else 1

def KSW : ℕ := pd.strides (pd.ndims - 3)

def KDD : ℕ := if 5 ≤ pd.ndims then pd.dilates (pd.ndims - 5) else 0

def KDH : ℕ := if 4 ≤ pd.ndims then pd.dilates (pd.ndims - 4) else 1

def KDW : ℕ := pd.dilates (pd.ndims - 3)

def padFront : ℤ := if 5 ≤ pd.ndims then pd.paddingL (pd.ndims - 5) else 0

def padT : ℤ := if 4 ≤ pd.ndims then pd.paddingL (pd.ndims - 4) else 0

def padL : ℤ := pd.paddingL (pd.ndims - 3)

/-- A position in `src` or `dst`, with the dimensions that the problem has. -/
def dataPos (mb c d h w : ℕ) : List ℕ :=
  if pd.ndims = 5 then [mb, c, d, h, w] else if pd.ndims = 4 then [mb, c, h, w] else [mb, c, w]

/-- A position in the weights. -/
def weiPos (g oc ic kd kh kw : ℕ) : List ℕ :=
  (if pd.withGroups then [g] else []) ++
    if pd.ndims = 5 then [oc, ic, kd, kh, kw] else if pd.ndims = 4 then [oc, ic, kh, kw] else [oc, ic, kw]

section Passes

variable {R : Type*} [CommSemiring R]

/-- `ker` of `execute_forward` -/
def fwdKer (src weights : List ℕ → R) (g mb oc od oh ow : ℕ) : R :=
  ∑ ic ∈ Finset.range pd.IC, ∑ kd ∈ Finset.range pd.KD, ∑ kh ∈ Finset.range pd.KH, ∑ kw ∈ Finset.range pd.KW,
    let id := od * pd.KSD - pd.padFront + kd * (1 + pd.KDD)
    let ih := oh * pd.KSH - pd.padT + kh * (1 + pd.KDH)
    let iw := ow * pd.KSW - pd.padL + kw * (1 + pd.KDW)
    if id < 0 ∨ pd.ID ≤ id then 0
    else if ih < 0 ∨ pd.IH ≤ ih then 0
    else if iw < 0 ∨ pd.IW ≤ iw then 0
    else src (pd.dataPos mb (g * pd.IC + ic) id.toNat ih.toNat iw.toNat) * weights (pd.weiPos g oc ic kd kh kw)

/-- `ref_convolution_fwd_t::execute_forward` without bias: the writes to `dst`. -/
def executeForward (src weights : List ℕ → R) : List (List ℕ × R) :=
  (List.range pd.G).flatMap fun g => (List.range pd.MB).flatMap fun mb => (List.range pd.OC).flatMap fun oc =>
    (List.range pd.OD).flatMap fun od => (List.range pd.OH).flatMap fun oh => (List.range pd.OW).map fun ow =>
      (pd.dataPos mb (g * pd.OC + oc) od oh ow, pd.fwdKer src weights g mb oc od oh ow)

/-- `ker` of `execute_backward_data` -/
def bwdDataKer (diffDst weights : List ℕ → R) (g mb ic id ih iw : ℕ) : R :=
  ∑ oc ∈ Finset.range pd.OC, ∑ kd ∈ Finset.range pd.KD, ∑ kh ∈ Finset.range pd.KH, ∑ kw ∈ Finset.range pd.KW,
    if iw + pd.padL < kw * (1 + pd.KDW) ∨ ih + pd.padT < kh * (1 + pd.KDH) ∨ id + pd.padFront < kd * (1 + pd.KDD) then 0
    else
      let ow := iw - kw * (1 + pd.KDW) + pd.padL
      let oh := ih - kh * (1 + pd.KDH) + pd.padT
      let od := id - kd * (1 + pd.KDD) + pd.padFront
      if ow.tmod pd.KSW ≠ 0 ∨ oh.tmod pd.KSH ≠ 0 ∨ od.tmod pd.KSD ≠ 0 then 0
      else
        let ow := ow.tdiv pd.KSW
        let oh := oh.tdiv pd.KSH
        let od := od.tdiv pd.KSD
        if od < pd.OD ∧ oh < pd.OH ∧ ow < pd.OW then
          diffDst (pd.dataPos mb (g * pd.OC + oc) od.toNat oh.toNat ow.toNat) * weights (pd.weiPos g oc ic kd kh kw)
        else 0

/-- `ref_convolution_bwd_data_t::execute_backward_data` without bias: the writes to `diff_src`. -/
def executeBackwardData (diffDst weights : List ℕ → R) : List (List ℕ × R) :=
  (List.range pd.G).flatMap fun g => (List.range pd.MB).flatMap fun mb => (List.range pd.IC).flatMap fun ic =>
    (List.range pd.ID).flatMap fun id => (List.range pd.IH).flatMap fun ih => (List.range pd.IW).map fun iw =>
      (pd.dataPos mb (g * pd.IC + ic) id ih iw, pd.bwdDataKer diffDst weights g mb ic id ih iw)

/-- `ker` of `execute_backward_weights` -/
def bwdWeightsKer (src diffDst : List ℕ → R) (g oc ic kd kh kw : ℕ) : R :=
  ∑ mb ∈ Finset.range pd.MB, ∑ od ∈ Finset.range pd.OD, ∑ oh ∈ Finset.range pd.OH, ∑ ow ∈ Finset.range pd.OW,
    if ow * pd.KSW + kw * (1 + pd.KDW) < pd.padL ∨ oh * pd.KSH + kh * (1 + pd.KDH) < pd.padT ∨
        od * pd.KSD + kd * (1 + pd.KDD) < pd.padFront ∨ pd.IW + pd.padL ≤ ow * pd.KSW + kw * (1 + pd.KDW) ∨
        pd.IH + pd.padT ≤ oh * pd.KSH + kh * (1 + pd.KDH) ∨ pd.ID + pd.padFront ≤ od * pd.KSD + kd * (1 + pd.KDD) then 0
    else
      let id := od * pd.KSD - pd.padFront + kd * (1 + pd.KDD)
      let ih := oh * pd.KSH - pd.padT + kh * (1 + pd.KDH)
      let iw := ow * pd.KSW - pd.padL + kw * (1 + pd.KDW)
      diffDst (pd.dataPos mb (g * pd.OC + oc) od oh ow) *
        src (pd.dataPos mb (g * pd.IC + ic) id.toNat ih.toNat iw.toNat)

/-- `ref_convolution_bwd_weights_t::execute_backward_weights`: the writes to `diff_weights`. -/
def executeBackwardWeights (src diffDst : List ℕ → R) : List (List ℕ × R) :=
  (List.range pd.G).flatMap fun g => (List.range pd.OC).flatMap fun oc => (List.range pd.IC).flatMap fun ic =>
    (List.range pd.KD).flatMap fun kd => (List.range pd.KH).flatMap fun kh => (List.range pd.KW).map fun kw =>
      (pd.weiPos g oc ic kd kh kw, pd.bwdWeightsKer src diffDst g oc ic kd kh kw)

end Passes

end ConvolutionPd

end MklDnn
