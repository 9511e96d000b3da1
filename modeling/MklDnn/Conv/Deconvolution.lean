import MklDnn.Common.TypeHelpers
import MklDnn.Memory.Desc

/-!
# Deconvolution by convolution

A deconvolution runs as a convolution in the other direction. Its weights have the output channels ahead of the input
channels, those of the convolution the input channels ahead of the output channels, and the descriptor that the convolution
gets is made from the one of the deconvolution.
-/

namespace MklDnn.RefDeconvolution

open PrimitiveHashing (PropKind AlgKind)

/-! ## The weights -/

/-- `ID_OC` -/
def idOc (withGroups : Bool) : ℕ := 0 + withGroups.toNat

/-- `ID_IC` -/
def idIc (withGroups : Bool) : ℕ := 1 + withGroups.toNat

/-- An array after the `swap` of its entries for the output and the input channels. -/
def swapChannels {α : Type} (withGroups : Bool) (a : ℕ → α) : ℕ → α :=
  a ∘ Equiv.swap (idOc withGroups) (idIc withGroups)

/-- The loop over the inner blocks. -/
def swapInnerIdxs (withGroups : Bool) (inner : List InnerBlk) : List InnerBlk :=
  inner.map fun b =>
    if b.idx = idOc withGroups ∨ b.idx = idIc withGroups then
      { b with idx := if b.idx = idOc withGroups then idIc withGroups else idOc withGroups }
    else b

/-- `compute_blocked_format` -/
def computeBlockedFormat (withGroups : Bool) (oiMd ioMd : MemoryDesc) : Except Status MemoryDesc :=
  if oiMd.ndims = ioMd.ndims ∧ oiMd.formatKind = .blocked then
    let ioBlk : BlockingDesc :=
      { strides := swapChannels withGroups oiMd.blocking.strides
        inner := swapInnerIdxs withGroups oiMd.blocking.inner }
    .ok (memoryDescInitByBlockingDesc { ioMd with formatKind := .blocked } ioBlk)
  else .error .invalidArguments

/-! ## The descriptor -/

/-- `deconvolution_desc_t`, the fields that `conv_descr_create` reads. -/
structure DeconvolutionDesc where
  propKind : PropKind
  algKind : AlgKind
  srcDesc : MemoryDesc
  diffSrcDesc : MemoryDesc
  weightsDesc : MemoryDesc
  diffWeightsDesc : MemoryDesc
  biasDesc : MemoryDesc
  dstDesc : MemoryDesc
  diffDstDesc : MemoryDesc
  strides : ℕ → ℤ
  dilates : ℕ → ℤ
  /-- `padding[0]` -/
  paddingL : ℕ → ℤ
  /-- `padding[1]` -/
  paddingR : ℕ → ℤ

/-- The arguments of the call of `conv_desc_init`. A null pointer is `none`. -/
structure ConvDescArgs where
  propKind : PropKind
  algKind : AlgKind
  srcDesc : MemoryDesc
  weightsDesc : MemoryDesc
  biasDesc : Option MemoryDesc
  dstDesc : MemoryDesc
  strides : ℕ → ℤ
  dilates : ℕ → ℤ
  paddingL : ℕ → ℤ
  paddingR : ℕ → ℤ

namespace DeconvolutionDesc

variable (dd : DeconvolutionDesc)

/-- The propagation is forward. -/
def isFwd : Bool := dd.propKind = .forwardTraining ∨ dd.propKind = .forwardInference

/-- `prop_kind` of the convolution. -/
def convPropKind : PropKind :=
  if dd.isFwd then .backwardData else if dd.propKind = .backwardData then .forwardTraining else dd.propKind

/-- `src_md` -/
def srcMd : MemoryDesc := if dd.isFwd then dd.dstDesc else dd.diffDstDesc

/-- `dst_md` -/
def dstMd : MemoryDesc :=
  if dd.isFwd then dd.srcDesc else if dd.propKind = .backwardData then dd.diffSrcDesc else dd.srcDesc

/-- `d_weights_d` -/
def dWeightsD : MemoryDesc :=
  if dd.isFwd ∨ dd.propKind = .backwardData then dd.weightsDesc else dd.diffWeightsDesc

/-- `with_groups` -/
def withGroups : Bool := dd.dWeightsD.ndims = dd.srcMd.ndims + 1

/-- `c_weights_d` ahead of its format. -/
def cWeightsD : MemoryDesc :=
  { dd.dWeightsD with
    dims := swapChannels dd.withGroups dd.dWeightsD.dims
    paddedDims := swapChannels dd.withGroups dd.dWeightsD.paddedDims
    paddedOffsets := swapChannels dd.withGroups dd.dWeightsD.paddedOffsets }

/-- `conv_descr_create`, up to the call of `conv_desc_init`. -/
def convDescrCreate : Except Status ConvDescArgs := do
  let cWeightsD ← if dd.cWeightsD.formatKind ≠ .any then computeBlockedFormat dd.withGroups dd.dWeightsD dd.cWeightsD
    else .ok dd.cWeightsD
  return {
    propKind := dd.convPropKind
    algKind := if dd.algKind = .deconvolutionDirect then .convolutionDirect else .convolutionWinograd
    srcDesc := dd.srcMd
    weightsDesc := cWeightsD
    biasDesc := if dd.convPropKind ≠ .backwardWeights then some dd.biasDesc else none
    dstDesc := dd.dstMd
    strides := dd.strides
    dilates := dd.dilates
    paddingL := dd.paddingL
    paddingR := dd.paddingR }

/-- What `deconv_desc_init` has checked of the numbers of dimensions. -/
structure Accepted : Prop where
  src : dd.srcMd.ndims ∈ [3, 4, 5]
  weights : dd.dWeightsD.ndims = dd.srcMd.ndims ∨ dd.dWeightsD.ndims = dd.srcMd.ndims + 1

end DeconvolutionDesc

end MklDnn.RefDeconvolution
