import MklDnn.Common.PrimitiveCache
import MklDnn.Memory.Desc

/-!
# Descriptors and their comparison

The descriptors of memory and of operations and the attributes, with all the fields of the source, and
their `operator==`. Arrays are functions of the index, and a union has one field for each member.
-/

namespace MklDnn.PrimitiveHashing

/-! ## Values -/

/-- A `float`, by its bits. -/
structure F32 where
  bits : UInt32

namespace F32

def isNaN (x : F32) : Bool := 0x7f800000 < x.bits &&& 0x7fffffff

def isZero (x : F32) : Bool := x.bits &&& 0x7fffffff = 0

/-- Comparison of floats: the zeros are equal, a NaN is not equal to itself. -/
protected def eq (x y : F32) : Bool :=
  !x.isNaN && !y.isNaN && (x.bits = y.bits || x.isZero && y.isZero)

instance : BEq F32 := ⟨F32.eq⟩

end F32

/-- `prop_kind_t` -/
inductive PropKind where
  | undef | forwardTraining | forwardInference | backward | backwardData | backwardWeights | backwardBias
  deriving DecidableEq

def PropKind.val : PropKind → UInt64
  | .undef => 0
  | .forwardTraining => 64
  | .forwardInference => 96
  | .backward => 128
  | .backwardData => 160
  | .backwardWeights => 192
  | .backwardBias => 193

/-- `alg_kind_t` -/
inductive AlgKind where
  | undef | convolutionDirect | convolutionWinograd | convolutionAuto | deconvolutionDirect
  | deconvolutionWinograd | eltwiseRelu | eltwiseTanh | eltwiseElu | eltwiseSquare | eltwiseAbs
  | eltwiseSqrt | eltwiseLinear | eltwiseBoundedRelu | eltwiseSoftRelu | eltwiseLogistic | eltwiseExp
  | eltwiseGelu | eltwiseSwish | poolingMax | poolingAvgIncludePadding | poolingAvgExcludePadding
  | lrnAcrossChannels | lrnWithinChannel | vanillaRnn | vanillaLstm | vanillaGru | lbrGru
  deriving DecidableEq

def AlgKind.val : AlgKind → UInt64
  | .undef => 0
  | .convolutionDirect => 0x1
  | .convolutionWinograd => 0x2
  | .convolutionAuto => 0x3
  | .deconvolutionDirect => 0xa
  | .deconvolutionWinograd => 0xb
  | .eltwiseRelu => 0x1f
  | .eltwiseTanh => 0x2f
  | .eltwiseElu => 0x3f
  | .eltwiseSquare => 0x4f
  | .eltwiseAbs => 0x5f
  | .eltwiseSqrt => 0x6f
  | .eltwiseLinear => 0x7f
  | .eltwiseBoundedRelu => 0x8f
  | .eltwiseSoftRelu => 0x9f
  | .eltwiseLogistic => 0xaf
  | .eltwiseExp => 0xbf
  | .eltwiseGelu => 0xcf
  | .eltwiseSwish => 0xdf
  | .poolingMax => 0x1ff
  | .poolingAvgIncludePadding => 0x2ff
  | .poolingAvgExcludePadding => 0x3ff
  | .lrnAcrossChannels => 0xaff
  | .lrnWithinChannel => 0xbff
  | .vanillaRnn => 0x1fff
  | .vanillaLstm => 0x2fff
  | .vanillaGru => 0x3fff
  | .lbrGru => 0x4fff

inductive RnnDirection where
  | unidirectionalLeft2right | unidirectionalRight2left | bidirectionalConcat | bidirectionalSum
  deriving DecidableEq

inductive EngineKind where
  | any | cpu | gpu
  deriving DecidableEq

inductive ScratchpadMode where
  | library | user
  deriving DecidableEq

inductive Transpose where
  | notrans | trans
  deriving DecidableEq

inductive WinoMemoryFormat where
  | undef | weiAaOIoi | weiAaOio | weiAaOBiOo | weiOBaaIBOIio
  deriving DecidableEq

inductive RnnPackedMemoryFormat where
  | undef | ldigoP | ldgoiP
  deriving DecidableEq

/-! ## Memory descriptors -/

/-- `array_cmp` -/
def arrayCmp {α : Type*} [BEq α] (a b : ℕ → α) (size : ℤ) : Bool :=
  (List.range size.toNat).all fun i => a i == b i

/-- `blocking_desc_t` -/
structure BlockingDesc where
  strides : ℕ → ℤ
  innerNblks : ℤ
  innerBlks : ℕ → ℤ
  innerIdxs : ℕ → ℤ

/-- `wino_desc_t` -/
structure WinoDesc where
  winoFormat : WinoMemoryFormat
  r : ℤ
  alpha : ℤ
  ic : ℤ
  oc : ℤ
  icBlock : ℤ
  ocBlock : ℤ
  ic2Block : ℤ
  oc2Block : ℤ
  adjScale : F32
  size : UInt64

/-- `rnn_packed_desc_t` -/
structure RnnPackedDesc where
  format : RnnPackedMemoryFormat
  nParts : ℤ
  n : ℤ
  ldb : ℤ
  parts : ℕ → ℤ
  partPackSize : ℕ → UInt64
  packPart : ℕ → UInt32
  offsetCompensation : UInt64
  size : UInt64

/-- `memory_extra_desc_t` -/
structure MemoryExtraDesc where
  flags : UInt64
  compensationMask : ℤ
  scaleAdjust : F32

/-- `memory_desc_t` -/
structure MemoryDesc where
  ndims : ℤ
  dims : ℕ → ℤ
  dataType : DataType
  paddedDims : ℕ → ℤ
  paddedOffsets : ℕ → ℤ
  offset0 : ℤ
  formatKind : FormatKind
  blocking : BlockingDesc
  winoDesc : WinoDesc
  rnnPackedDesc : RnnPackedDesc
  extra : MemoryExtraDesc

/-- `DNNL_RNN_MAX_N_PARTS` -/
def rnnMaxNParts : ℕ := 4

/-- `zero_md` -/
def zeroMd : MemoryDesc where
  ndims := 0
  dims := fun _ => 0
  dataType := .undef
  paddedDims := fun _ => 0
  paddedOffsets := fun _ => 0
  offset0 := 0
  formatKind := .undef
  blocking := ⟨fun _ => 0, 0, fun _ => 0, fun _ => 0⟩
  winoDesc := ⟨.undef, 0, 0, 0, 0, 0, 0, 0, 0, ⟨0⟩, 0⟩
  rnnPackedDesc := ⟨.undef, 0, 0, 0, fun _ => 0, fun _ => 0, fun _ => 0, 0, 0⟩
  extra := ⟨0, 0, ⟨0⟩⟩

/-- The flag `dnnl_memory_extra_flag_compensation_conv_s8s8`. -/
def MemoryExtraDesc.compensationConvS8s8 (extra : MemoryExtraDesc) : Bool := extra.flags &&& 1 != 0

/-- The flag `dnnl_memory_extra_flag_scale_adjust`. -/
def MemoryExtraDesc.hasScaleAdjust (extra : MemoryExtraDesc) : Bool := extra.flags &&& 2 != 0

/-- `memory_extra_desc_is_equal` -/
def MemoryExtraDesc.isEqual (lhs rhs : MemoryExtraDesc) : Bool :=
  lhs.flags == rhs.flags
    && (!lhs.compensationConvS8s8 || lhs.compensationMask == rhs.compensationMask)
    && (!lhs.hasScaleAdjust || lhs.scaleAdjust == rhs.scaleAdjust)

/-- `blocking_desc_is_equal` -/
def BlockingDesc.isEqual (lhs rhs : BlockingDesc) (ndims : ℤ) : Bool :=
  lhs.innerNblks == rhs.innerNblks
    && arrayCmp lhs.strides rhs.strides ndims
    && arrayCmp lhs.innerBlks rhs.innerBlks lhs.innerNblks
    && arrayCmp lhs.innerIdxs rhs.innerIdxs lhs.innerNblks

/-- `wino_desc_is_equal` -/
def WinoDesc.isEqual (lhs rhs : WinoDesc) : Bool :=
  lhs.winoFormat == rhs.winoFormat && lhs.alpha == rhs.alpha
    && lhs.ic == rhs.ic && lhs.oc == rhs.oc
    && lhs.icBlock == rhs.icBlock && lhs.ocBlock == rhs.ocBlock
    && lhs.ic2Block == rhs.ic2Block && lhs.oc2Block == rhs.oc2Block
    && lhs.r == rhs.r

/-- `rnn_packed_desc_is_equal` -/
def RnnPackedDesc.isEqual (lhs rhs : RnnPackedDesc) : Bool :=
  lhs.format == rhs.format && lhs.ldb == rhs.ldb
    && lhs.nParts == rhs.nParts
    && lhs.offsetCompensation == rhs.offsetCompensation
    && lhs.size == rhs.size && lhs.n == rhs.n
    && arrayCmp lhs.parts rhs.parts rhs.nParts
    && arrayCmp lhs.partPackSize rhs.partPackSize rhs.nParts

/-- The comparison of memory descriptors behind its quick path. -/
def MemoryDesc.eqFields (lhs rhs : MemoryDesc) : Bool :=
  lhs.ndims == rhs.ndims
    && arrayCmp lhs.dims rhs.dims lhs.ndims
    && lhs.dataType == rhs.dataType
    && arrayCmp lhs.paddedDims rhs.paddedDims lhs.ndims
    && arrayCmp lhs.paddedOffsets rhs.paddedOffsets lhs.ndims
    && lhs.offset0 == rhs.offset0 && lhs.formatKind == rhs.formatKind
    && lhs.extra.isEqual rhs.extra
    && match lhs.formatKind with
      | .blocked => lhs.blocking.isEqual rhs.blocking lhs.ndims
      | .wino => lhs.winoDesc.isEqual rhs.winoDesc
      | .rnnPacked => lhs.rnnPackedDesc.isEqual rhs.rnnPackedDesc
      | .undef => true
      | .any => true

/-- `operator==` of memory descriptors. -/
protected def MemoryDesc.eq (lhs rhs : MemoryDesc) : Bool :=
  -- quick path for zero_mds
  if lhs.ndims = 0 ∧ rhs.ndims = 0 then true else lhs.eqFields rhs

instance : BEq MemoryDesc := ⟨MemoryDesc.eq⟩

/-! ## Attributes -/

/-- `scales_t` -/
structure Scales where
  count : ℤ
  mask : ℤ
  scales : Option (ℕ → F32)

/-- An entry of the post-operations. -/
structure PostOpsEntry where
  kind : PrimitiveKind
  eltwiseAlg : AlgKind
  eltwiseScale : F32
  eltwiseAlpha : F32
  eltwiseBeta : F32
  sumScale : F32

/-- `post_ops_t` -/
structure PostOps where
  len : ℤ
  entry : ℕ → PostOpsEntry

/-- `rnn_tparams_t` -/
structure RnnTparams where
  testMode : Bool
  scales : Option (ℕ → F32)
  ngates : ℤ
  cscale : F32

/-- `primitive_attr_t` -/
structure PrimitiveAttr where
  scratchpadMode : ScratchpadMode
  outputScales : Scales
  postOps : PostOps
  rnnDataQparamsScale : F32
  rnnDataQparamsShift : F32
  rnnWeightsQparams : Scales
  rnnTparams : RnnTparams

/-- `operator==` of `scales_t`. -/
protected def Scales.eq (lhs rhs : Scales) : Bool :=
  lhs.count == rhs.count && lhs.mask == rhs.mask
    && match lhs.scales, rhs.scales with
      | some a, some b => arrayCmp a b lhs.count
      | _, _ => false

/-- `operator==` of an entry of the post-operations. -/
protected def PostOpsEntry.eq (lhs rhs : PostOpsEntry) : Bool :=
  lhs.kind == rhs.kind
    && match lhs.kind with
      | .eltwise =>
        lhs.eltwiseAlg == rhs.eltwiseAlg && lhs.eltwiseScale == rhs.eltwiseScale
          && lhs.eltwiseAlpha == rhs.eltwiseAlpha && lhs.eltwiseBeta == rhs.eltwiseBeta
      | .sum => lhs.sumScale == rhs.sumScale
      | _ => true

instance : BEq PostOpsEntry := ⟨PostOpsEntry.eq⟩

/-- `operator==` of `rnn_tparams_t`. The scales of `rhs` are read if `lhs` has some. -/
protected def RnnTparams.eq (lhs rhs : RnnTparams) : Bool :=
  lhs.testMode == rhs.testMode && lhs.ngates == rhs.ngates && lhs.cscale == rhs.cscale
    && match lhs.scales, rhs.scales with
      | some a, some b => arrayCmp a b lhs.ngates
      | _, _ => true

/-- `operator==` of `primitive_attr_t`. -/
protected def PrimitiveAttr.eq (lhs rhs : PrimitiveAttr) : Bool :=
  lhs.scratchpadMode == rhs.scratchpadMode
    && lhs.outputScales.eq rhs.outputScales
    && (lhs.postOps.len == rhs.postOps.len
      && arrayCmp lhs.postOps.entry rhs.postOps.entry lhs.postOps.len)
    && (lhs.rnnDataQparamsScale == rhs.rnnDataQparamsScale
      && lhs.rnnDataQparamsShift == rhs.rnnDataQparamsShift)
    && lhs.rnnWeightsQparams.eq rhs.rnnWeightsQparams
    && lhs.rnnTparams.eq rhs.rnnTparams

/-! ## Descriptors of operations -/

/-- `convolution_desc_t`, which is also `deconvolution_desc_t`. -/
structure ConvolutionDesc where
  primitiveKind : PrimitiveKind
  propKind : PropKind
  algKind : AlgKind
  srcDesc : MemoryDesc
  diffSrcDesc : MemoryDesc
  weightsDesc : MemoryDesc
  diffWeightsDesc : MemoryDesc
  biasDesc : MemoryDesc
  diffBiasDesc : MemoryDesc
  dstDesc : MemoryDesc
  diffDstDesc : MemoryDesc
  strides : ℕ → ℤ
  dilates : ℕ → ℤ
  paddingL : ℕ → ℤ
  paddingR : ℕ → ℤ
  accumDataType : DataType

/-- `eltwise_desc_t` -/
structure EltwiseDesc where
  primitiveKind : PrimitiveKind
  propKind : PropKind
  algKind : AlgKind
  dataDesc : MemoryDesc
  diffDataDesc : MemoryDesc
  alpha : F32
  beta : F32

/-- `gemm_desc_t` -/
structure GemmDesc where
  primitiveKind : PrimitiveKind
  transa : Transpose
  transb : Transpose
  m : ℤ
  n : ℤ
  k : ℤ
  lda : ℤ
  ldb : ℤ
  ldc : ℤ
  alpha : F32
  beta : F32
  aType : DataType
  bType : DataType
  cType : DataType

/-- `inner_product_desc_t` -/
structure InnerProductDesc where
  primitiveKind : PrimitiveKind
  propKind : PropKind
  srcDesc : MemoryDesc
  diffSrcDesc : MemoryDesc
  weightsDesc : MemoryDesc
  diffWeightsDesc : MemoryDesc
  biasDesc : MemoryDesc
  diffBiasDesc : MemoryDesc
  dstDesc : MemoryDesc
  diffDstDesc : MemoryDesc
  accumDataType : DataType

/-- `batch_normalization_desc_t`, and `layer_normalization_desc_t` with its epsilon. -/
structure NormalizationDesc where
  primitiveKind : PrimitiveKind
  propKind : PropKind
  dataDesc : MemoryDesc
  diffDataDesc : MemoryDesc
  dataScaleshiftDesc : MemoryDesc
  diffDataScaleshiftDesc : MemoryDesc
  statDesc : MemoryDesc
  epsilon : F32
  flags : UInt32

/-- `lrn_desc_t` -/
structure LrnDesc where
  primitiveKind : PrimitiveKind
  propKind : PropKind
  algKind : AlgKind
  dataDesc : MemoryDesc
  diffDataDesc : MemoryDesc
  localSize : ℤ
  lrnAlpha : F32
  lrnBeta : F32
  lrnK : F32

/-- `pooling_desc_t` -/
structure PoolingDesc where
  primitiveKind : PrimitiveKind
  propKind : PropKind
  algKind : AlgKind
  srcDesc : MemoryDesc
  diffSrcDesc : MemoryDesc
  dstDesc : MemoryDesc
  diffDstDesc : MemoryDesc
  strides : ℕ → ℤ
  kernel : ℕ → ℤ
  paddingL : ℕ → ℤ
  paddingR : ℕ → ℤ
  accumDataType : DataType

/-- `reorder_desc_t` -/
structure ReorderDesc where
  primitiveKind : PrimitiveKind
  srcMd : MemoryDesc
  dstMd : MemoryDesc
  srcEngineKind : EngineKind
  dstEngineKind : EngineKind

/-- `rnn_desc_t` -/
structure RnnDesc where
  primitiveKind : PrimitiveKind
  propKind : PropKind
  cellKind : AlgKind
  direction : RnnDirection
  srcLayerDesc : MemoryDesc
  srcIterDesc : MemoryDesc
  srcIterCDesc : MemoryDesc
  weightsLayerDesc : MemoryDesc
  weightsIterDesc : MemoryDesc
  biasDesc : MemoryDesc
  dstLayerDesc : MemoryDesc
  dstIterDesc : MemoryDesc
  dstIterCDesc : MemoryDesc
  placeholderDesc : MemoryDesc
  placeholder2Desc : MemoryDesc
  diffSrcLayerDesc : MemoryDesc
  diffSrcIterDesc : MemoryDesc
  diffSrcIterCDesc : MemoryDesc
  diffWeightsLayerDesc : MemoryDesc
  diffWeightsIterDesc : MemoryDesc
  diffBiasDesc : MemoryDesc
  diffDstLayerDesc : MemoryDesc
  diffDstIterDesc : MemoryDesc
  diffDstIterCDesc : MemoryDesc
  diffPlaceholderDesc : MemoryDesc
  diffPlaceholder2Desc : MemoryDesc
  flags : UInt32
  activationKind : AlgKind
  alpha : F32
  beta : F32

/-- `shuffle_desc_t` -/
structure ShuffleDesc where
  primitiveKind : PrimitiveKind
  propKind : PropKind
  dataDesc : MemoryDesc
  axis : ℤ
  groupSize : ℤ

/-- `softmax_desc_t` -/
structure SoftmaxDesc where
  primitiveKind : PrimitiveKind
  propKind : PropKind
  dataDesc : MemoryDesc
  diffDesc : MemoryDesc
  softmaxAxis : ℤ

/-- `concat_desc_t` -/
structure ConcatDesc where
  primitiveKind : PrimitiveKind
  dstMd : MemoryDesc
  n : ℤ
  concatDimension : ℤ
  srcMds : ℕ → MemoryDesc

/-- `sum_desc_t` -/
structure SumDesc where
  primitiveKind : PrimitiveKind
  dstMd : MemoryDesc
  n : ℤ
  scales : List F32
  srcMds : ℕ → MemoryDesc

/-! ### Comparison -/

protected def ConvolutionDesc.eq (lhs rhs : ConvolutionDesc) : Bool :=
  lhs.primitiveKind == rhs.primitiveKind
    && lhs.propKind == rhs.propKind
    && lhs.algKind == rhs.algKind
    && lhs.srcDesc == rhs.srcDesc
    && lhs.diffSrcDesc == rhs.diffSrcDesc
    && lhs.weightsDesc == rhs.weightsDesc
    && lhs.diffWeightsDesc == rhs.diffWeightsDesc
    && lhs.biasDesc == rhs.biasDesc
    && lhs.diffBiasDesc == rhs.diffBiasDesc
    && lhs.dstDesc == rhs.dstDesc
    && lhs.diffDstDesc == rhs.diffDstDesc
    && arrayCmp lhs.strides rhs.strides maxNdims
    && arrayCmp lhs.dilates rhs.dilates maxNdims
    && arrayCmp lhs.paddingL rhs.paddingL maxNdims
    && arrayCmp lhs.paddingR rhs.paddingR maxNdims
    && lhs.accumDataType == rhs.accumDataType

protected def EltwiseDesc.eq (lhs rhs : EltwiseDesc) : Bool :=
  lhs.primitiveKind == rhs.primitiveKind
    && lhs.propKind == rhs.propKind
    && lhs.algKind == rhs.algKind
    && lhs.dataDesc == rhs.dataDesc
    && lhs.diffDataDesc == rhs.diffDataDesc
    && lhs.alpha == rhs.alpha
    && lhs.beta == rhs.beta

protected def GemmDesc.eq (lhs rhs : GemmDesc) : Bool :=
  lhs.primitiveKind == rhs.primitiveKind
    && lhs.transa == rhs.transa
    && lhs.transb == rhs.transb
    && lhs.m == rhs.m
    && lhs.n == rhs.n
    && lhs.k == rhs.k
    && lhs.lda == rhs.lda
    && lhs.ldb == rhs.ldb
    && lhs.ldc == rhs.ldc
    && lhs.alpha == rhs.alpha
    && lhs.beta == rhs.beta
    && lhs.aType == rhs.aType
    && lhs.bType == rhs.bType
    && lhs.cType == rhs.cType

protected def InnerProductDesc.eq (lhs rhs : InnerProductDesc) : Bool :=
  lhs.primitiveKind == rhs.primitiveKind
    && lhs.propKind == rhs.propKind
    && lhs.srcDesc == rhs.srcDesc
    && lhs.diffSrcDesc == rhs.diffSrcDesc
    && lhs.weightsDesc == rhs.weightsDesc
    && lhs.diffWeightsDesc == rhs.diffWeightsDesc
    && lhs.biasDesc == rhs.biasDesc
    && lhs.diffBiasDesc == rhs.diffBiasDesc
    && lhs.dstDesc == rhs.dstDesc
    && lhs.diffDstDesc == rhs.diffDstDesc
    && lhs.accumDataType == rhs.accumDataType

protected def NormalizationDesc.eq (lhs rhs : NormalizationDesc) : Bool :=
  lhs.primitiveKind == rhs.primitiveKind
    && lhs.propKind == rhs.propKind
    && lhs.dataDesc == rhs.dataDesc
    && lhs.diffDataDesc == rhs.diffDataDesc
    && lhs.dataScaleshiftDesc == rhs.dataScaleshiftDesc
    && lhs.diffDataScaleshiftDesc == rhs.diffDataScaleshiftDesc
    && lhs.statDesc == rhs.statDesc
    && lhs.epsilon == rhs.epsilon
    && lhs.flags == rhs.flags

protected def LrnDesc.eq (lhs rhs : LrnDesc) : Bool :=
  lhs.primitiveKind == rhs.primitiveKind
    && lhs.propKind == rhs.propKind
    && lhs.algKind == rhs.algKind
    && lhs.dataDesc == rhs.dataDesc
    && lhs.diffDataDesc == rhs.diffDataDesc
    && lhs.localSize == rhs.localSize
    && lhs.lrnAlpha == rhs.lrnAlpha
    && lhs.lrnBeta == rhs.lrnBeta
    && lhs.lrnK == rhs.lrnK

protected def PoolingDesc.eq (lhs rhs : PoolingDesc) : Bool :=
  lhs.primitiveKind == rhs.primitiveKind
    && lhs.propKind == rhs.propKind
    && lhs.algKind == rhs.algKind
    && lhs.srcDesc == rhs.srcDesc
    && lhs.diffSrcDesc == rhs.diffSrcDesc
    && lhs.dstDesc == rhs.dstDesc
    && lhs.diffDstDesc == rhs.diffDstDesc
    && arrayCmp lhs.strides rhs.strides maxNdims
    && arrayCmp lhs.kernel rhs.kernel maxNdims
    && arrayCmp lhs.paddingL rhs.paddingL maxNdims
    && arrayCmp lhs.paddingR rhs.paddingR maxNdims
    && lhs.accumDataType == rhs.accumDataType

protected def ReorderDesc.eq (lhs rhs : ReorderDesc) : Bool :=
  lhs.primitiveKind == rhs.primitiveKind
    && lhs.srcMd == rhs.srcMd
    && lhs.dstMd == rhs.dstMd
    && lhs.srcEngineKind == rhs.srcEngineKind
    && lhs.dstEngineKind == rhs.dstEngineKind

protected def RnnDesc.eq (lhs rhs : RnnDesc) : Bool :=
  lhs.primitiveKind == rhs.primitiveKind
    && lhs.propKind == rhs.propKind
    && lhs.cellKind == rhs.cellKind
    && lhs.direction == rhs.direction
    && lhs.srcLayerDesc == rhs.srcLayerDesc
    && lhs.srcIterDesc == rhs.srcIterDesc
    && lhs.srcIterCDesc == rhs.srcIterCDesc
    && lhs.weightsLayerDesc == rhs.weightsLayerDesc
    && lhs.weightsIterDesc == rhs.weightsIterDesc
    && lhs.biasDesc == rhs.biasDesc
    && lhs.dstLayerDesc == rhs.dstLayerDesc
    && lhs.dstIterDesc == rhs.dstIterDesc
    && lhs.dstIterCDesc == rhs.dstIterCDesc
    && lhs.placeholderDesc == rhs.placeholderDesc
    && lhs.placeholder2Desc == rhs.placeholder2Desc
    && lhs.diffSrcLayerDesc == rhs.diffSrcLayerDesc
    && lhs.diffSrcIterDesc == rhs.diffSrcIterDesc
    && lhs.diffSrcIterCDesc == rhs.diffSrcIterCDesc
    && lhs.diffWeightsLayerDesc == rhs.diffWeightsLayerDesc
    && lhs.diffWeightsIterDesc == rhs.diffWeightsIterDesc
    && lhs.diffBiasDesc == rhs.diffBiasDesc
    && lhs.diffDstLayerDesc == rhs.diffDstLayerDesc
    && lhs.diffDstIterDesc == rhs.diffDstIterDesc
    && lhs.diffDstIterCDesc == rhs.diffDstIterCDesc
    && lhs.diffPlaceholderDesc == rhs.diffPlaceholderDesc
    && lhs.diffPlaceholder2Desc == rhs.diffPlaceholder2Desc
    && lhs.flags == rhs.flags
    && lhs.activationKind == rhs.activationKind
    && lhs.alpha == rhs.alpha
    && lhs.beta == rhs.beta

protected def ShuffleDesc.eq (lhs rhs : ShuffleDesc) : Bool :=
  lhs.primitiveKind == rhs.primitiveKind
    && lhs.propKind == rhs.propKind
    && lhs.dataDesc == rhs.dataDesc
    && lhs.axis == rhs.axis
    && lhs.groupSize == rhs.groupSize

protected def SoftmaxDesc.eq (lhs rhs : SoftmaxDesc) : Bool :=
  lhs.primitiveKind == rhs.primitiveKind
    && lhs.propKind == rhs.propKind
    && lhs.dataDesc == rhs.dataDesc
    && lhs.diffDesc == rhs.diffDesc
    && lhs.softmaxAxis == rhs.softmaxAxis

protected def ConcatDesc.eq (lhs rhs : ConcatDesc) : Bool :=
  lhs.primitiveKind == rhs.primitiveKind
    && lhs.dstMd == rhs.dstMd
    && lhs.n == rhs.n
    && lhs.concatDimension == rhs.concatDimension
    && arrayCmp lhs.srcMds rhs.srcMds lhs.n

protected def SumDesc.eq (lhs rhs : SumDesc) : Bool :=
  lhs.primitiveKind == rhs.primitiveKind
    && lhs.dstMd == rhs.dstMd
    && lhs.n == rhs.n
    && lhs.scales == rhs.scales
    && arrayCmp lhs.srcMds rhs.srcMds lhs.n

/-- `op_desc_t`, which is read as the descriptor of the kind of the primitive. -/
inductive OpDesc where
  | batchNormalization (desc : NormalizationDesc)
  | concat (desc : ConcatDesc)
  | convolution (desc : ConvolutionDesc)
  | deconvolution (desc : ConvolutionDesc)
  | eltwise (desc : EltwiseDesc)
  | gemm (desc : GemmDesc)
  | innerProduct (desc : InnerProductDesc)
  | layerNormalization (desc : NormalizationDesc)
  | lrn (desc : LrnDesc)
  | pooling (desc : PoolingDesc)
  | reorder (desc : ReorderDesc)
  | rnn (desc : RnnDesc)
  | shuffle (desc : ShuffleDesc)
  | softmax (desc : SoftmaxDesc)
  | sum (desc : SumDesc)

namespace OpDesc

/-- The kind under which the descriptor is read. -/
def kind : OpDesc → PrimitiveKind
  | .batchNormalization _ => .batchNormalization
  | .concat _ => .concat
  | .convolution _ => .convolution
  | .deconvolution _ => .deconvolution
  | .eltwise _ => .eltwise
  | .gemm _ => .gemm
  | .innerProduct _ => .innerProduct
  | .layerNormalization _ => .layerNormalization
  | .lrn _ => .lrn
  | .pooling _ => .pooling
  | .reorder _ => .reorder
  | .rnn _ => .rnn
  | .shuffle _ => .shuffle
  | .softmax _ => .softmax
  | .sum _ => .sum

/-- `cast_and_compare`, for the kind that both keys have. -/
protected def eq : OpDesc → OpDesc → Bool
  | .batchNormalization lhs, .batchNormalization rhs => lhs.eq rhs
  | .concat lhs, .concat rhs => lhs.eq rhs
  | .convolution lhs, .convolution rhs => lhs.eq rhs
  | .deconvolution lhs, .deconvolution rhs => lhs.eq rhs
  | .eltwise lhs, .eltwise rhs => lhs.eq rhs
  | .gemm lhs, .gemm rhs => lhs.eq rhs
  | .innerProduct lhs, .innerProduct rhs => lhs.eq rhs
  | .layerNormalization lhs, .layerNormalization rhs => lhs.eq rhs
  | .lrn lhs, .lrn rhs => lhs.eq rhs
  | .pooling lhs, .pooling rhs => lhs.eq rhs
  | .reorder lhs, .reorder rhs => lhs.eq rhs
  | .rnn lhs, .rnn rhs => lhs.eq rhs
  | .shuffle lhs, .shuffle rhs => lhs.eq rhs
  | .softmax lhs, .softmax rhs => lhs.eq rhs
  | .sum lhs, .sum rhs => lhs.eq rhs
  | _, _ => false

end OpDesc

end MklDnn.PrimitiveHashing
