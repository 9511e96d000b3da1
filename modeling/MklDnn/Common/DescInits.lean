import MklDnn.Common.TypeHelpers

/-!
# Initialisation of descriptors with gradients

The functions that initialise the descriptors of batch normalization, LRN, eltwise and softmax. The backward ones get the
descriptor of the data and the one of the gradient. A pointer that may be null is an `Option`.
-/

namespace MklDnn

/-- A descriptor with all the fields of `memory_desc_t`. -/
def MemoryDesc.raw (md : MemoryDesc) : PrimitiveHashing.MemoryDesc where
  ndims := md.ndims
  dims := fun d => md.dims d
  dataType := md.dataType
  paddedDims := fun d => md.paddedDims d
  paddedOffsets := fun d => md.paddedOffsets d
  offset0 := md.offset0
  formatKind := md.formatKind
  blocking := {
    strides := md.blocking.strides
    innerNblks := md.blocking.inner.length
    innerBlks := fun i => (md.blocking.inner.map InnerBlk.blk).getD i 0
    innerIdxs := fun i => (md.blocking.inner.map InnerBlk.idx).getD i 0 }
  winoDesc := { PrimitiveHashing.zeroMd.winoDesc with size := UInt64.ofNat md.winoSize }
  rnnPackedDesc := { PrimitiveHashing.zeroMd.rnnPackedDesc with size := UInt64.ofNat md.rnnPackedSize }
  extra := {
    flags := (if md.extra.compensationConvS8s8 then 1 else 0) ||| if md.extra.scaleAdjust then 2 else 0
    compensationMask := md.extra.compensationMask
    scaleAdjust := ⟨0⟩ }

namespace OpDescInit

open PrimitiveHashing (AlgKind EltwiseDesc F32 LrnDesc NormalizationDesc PropKind SoftmaxDesc arrayCmp)

/-- What stops a function: a status that it returns, or a null pointer that it reads. -/
inductive Stop where
  | status (s : Status)
  | nullPointer
  deriving DecidableEq

/-- `if (!args_ok) return invalid_arguments;` -/
def check (argsOk : Bool) : Except Stop Unit := if argsOk then .ok () else .error (.status .invalidArguments)

/-- The descriptor that a pointer points to. -/
def deref (md : Option PrimitiveHashing.MemoryDesc) : Except Stop PrimitiveHashing.MemoryDesc := md.elim (.error .nullPointer) .ok

/-- The descriptor of the gradient, for the kinds that have one. -/
def derefIf (present : Bool) (md : Option PrimitiveHashing.MemoryDesc) : Except Stop PrimitiveHashing.MemoryDesc :=
  if present then deref md else .ok PrimitiveHashing.zeroMd

/-- The kinds of the forward passes. -/
def fwdKinds : List PropKind := [.forwardTraining, .forwardInference]

/-! ## Batch normalization -/

/-- The arguments of `bnrm_desc_init`. -/
structure BnrmArgs where
  /-- The pointer to the descriptor is not null. -/
  hasDesc : Bool
  dataDesc : Option PrimitiveHashing.MemoryDesc
  diffDataDesc : Option PrimitiveHashing.MemoryDesc
  epsilon : F32
  flags : UInt32

namespace BnrmArgs

variable (propKind : PropKind) (args : BnrmArgs)

/-- `args_ok` -/
def argsOk : Bool :=
  args.hasDesc && args.dataDesc.isSome &&
    [PropKind.forwardTraining, .forwardInference, .backwardData, .backward].contains propKind &&
    (propKind.val &&& PropKind.backward.val == 0 || args.diffDataDesc.isSome)

/-- The flags are known. -/
def flagsOk : Bool := ~~~(1 ||| 2 ||| 4 : UInt32) &&& args.flags == 0

end BnrmArgs

/-- The descriptor of `f32` numbers that is left in a field that was zero. -/
def initByTag (dims : List ℤ) (tag : FormatTag) : PrimitiveHashing.MemoryDesc :=
  match memoryDescInitByTag dims.length (fun d => dims.getD d 0) .f32 tag with
  | .ok md => md.raw
  | .error _ => PrimitiveHashing.zeroMd

/-- The number of dimensions of a tensor that can be normalised. -/
def bnrmNdims (md : PrimitiveHashing.MemoryDesc) : Bool := [2, 3, 4, 5].contains md.ndims

/-- `bnrm_desc_init` -/
def bnrmDescInit (propKind : PropKind) (args : BnrmArgs) : Except Stop NormalizationDesc := do
  check (args.argsOk propKind)
  let dataDesc ← deref args.dataDesc
  let diffDataDesc ← derefIf ([PropKind.backwardData, .backward].contains propKind) args.diffDataDesc
  let dataScaleshiftDesc := initByTag [2, dataDesc.dims 1] .ab
  check args.flagsOk
  let consistency := bnrmNdims dataDesc
  -- the descriptor of the gradient is looked at for one of the two backward kinds
  check (if propKind = .backwardData then
    consistency && bnrmNdims diffDataDesc && arrayCmp diffDataDesc.dims dataDesc.dims diffDataDesc.ndims
  else consistency)
  return {
    primitiveKind := .batchNormalization
    propKind := propKind
    dataDesc := dataDesc
    diffDataDesc := diffDataDesc
    dataScaleshiftDesc := dataScaleshiftDesc
    diffDataScaleshiftDesc := if propKind = .backward then dataScaleshiftDesc else PrimitiveHashing.zeroMd
    statDesc := initByTag [dataDesc.dims 1] .a
    epsilon := args.epsilon
    flags := args.flags }

/-- `dnnl_batch_normalization_forward_desc_init` -/
def batchNormalizationForwardDescInit (propKind : PropKind) (args : BnrmArgs) : Except Stop NormalizationDesc := do
  check (fwdKinds.contains propKind)
  bnrmDescInit propKind { args with diffDataDesc := none }

/-- `dnnl_batch_normalization_backward_desc_init` -/
def batchNormalizationBackwardDescInit (propKind : PropKind) (args : BnrmArgs) : Except Stop NormalizationDesc := do
  check ([PropKind.backward, .backwardData].contains propKind)
  bnrmDescInit propKind args

/-! ## LRN -/

/-- The arguments of `lrn_desc_init`. -/
structure LrnArgs where
  hasDesc : Bool
  algKind : AlgKind
  dataDesc : Option PrimitiveHashing.MemoryDesc
  diffDataDesc : Option PrimitiveHashing.MemoryDesc
  localSize : ℤ
  alpha : F32
  beta : F32
  k : F32

/-- `args_ok` -/
def LrnArgs.argsOk (propKind : PropKind) (args : LrnArgs) : Bool :=
  args.hasDesc && args.dataDesc.isSome && [AlgKind.lrnWithinChannel, .lrnAcrossChannels].contains args.algKind &&
    [PropKind.forwardTraining, .forwardInference, .backwardData].contains propKind &&
    (!(propKind = .backwardData) || args.diffDataDesc.isSome)

/-- `lrn_desc_init` -/
def lrnDescInit (propKind : PropKind) (args : LrnArgs) : Except Stop LrnDesc := do
  check (args.argsOk propKind)
  let dataDesc ← deref args.dataDesc
  let diffDataDesc ← derefIf (!(fwdKinds.contains propKind)) args.diffDataDesc
  let consistency : Bool := dataDesc.ndims = 4
  check (if propKind = .backwardData then
    consistency && diffDataDesc.ndims = 4 && arrayCmp diffDataDesc.dims dataDesc.dims 4
  else consistency)
  return {
    primitiveKind := .lrn
    propKind := propKind
    algKind := args.algKind
    dataDesc := dataDesc
    diffDataDesc := diffDataDesc
    localSize := args.localSize
    lrnAlpha := args.alpha
    lrnBeta := args.beta
    lrnK := args.k }

/-- `dnnl_lrn_forward_desc_init` -/
def lrnForwardDescInit (propKind : PropKind) (args : LrnArgs) : Except Stop LrnDesc := do
  check (fwdKinds.contains propKind)
  lrnDescInit propKind { args with diffDataDesc := none }

/-- `dnnl_lrn_backward_desc_init` -/
def lrnBackwardDescInit (args : LrnArgs) : Except Stop LrnDesc := lrnDescInit .backwardData args

/-! ## Eltwise -/

/-- The arguments of `eltwise_desc_init`. -/
structure EltwiseArgs where
  hasDesc : Bool
  algKind : AlgKind
  dataDesc : Option PrimitiveHashing.MemoryDesc
  diffDataDesc : Option PrimitiveHashing.MemoryDesc
  alpha : F32
  beta : F32

def eltwiseKinds : List AlgKind :=
  [.eltwiseRelu, .eltwiseTanh, .eltwiseElu, .eltwiseSquare, .eltwiseAbs, .eltwiseSqrt, .eltwiseLinear,
    .eltwiseBoundedRelu, .eltwiseSoftRelu, .eltwiseLogistic, .eltwiseExp, .eltwiseGelu, .eltwiseSwish]

/-- `args_ok` -/
def EltwiseArgs.argsOk (propKind : PropKind) (args : EltwiseArgs) : Bool :=
  args.hasDesc && args.dataDesc.isSome &&
    [PropKind.forwardTraining, .forwardInference, .backwardData].contains propKind &&
    eltwiseKinds.contains args.algKind && (!(propKind = .backwardData) || args.diffDataDesc.isSome) &&
    args.dataDesc.all fun md => !([DataType.s32, .s8, .u8].contains md.dataType) ||
      args.algKind = .eltwiseRelu && args.alpha.isZero

/-- `eltwise_desc_init` -/
def eltwiseDescInit (propKind : PropKind) (args : EltwiseArgs) : Except Stop EltwiseDesc := do
  check (args.argsOk propKind)
  let dataDesc ← deref args.dataDesc
  let diffDataDesc ← derefIf (propKind = .backwardData) args.diffDataDesc
  check (!(propKind = .backwardData) || arrayCmp diffDataDesc.dims dataDesc.dims diffDataDesc.ndims)
  return {
    primitiveKind := .eltwise
    propKind := propKind
    algKind := args.algKind
    dataDesc := dataDesc
    diffDataDesc := diffDataDesc
    alpha := args.alpha
    beta := args.beta }

/-- `dnnl_eltwise_forward_desc_init` -/
def eltwiseForwardDescInit (propKind : PropKind) (args : EltwiseArgs) : Except Stop EltwiseDesc := do
  check (fwdKinds.contains propKind)
  eltwiseDescInit propKind { args with diffDataDesc := none }

/-- `dnnl_eltwise_backward_desc_init` -/
def eltwiseBackwardDescInit (args : EltwiseArgs) : Except Stop EltwiseDesc := eltwiseDescInit .backwardData args

/-! ## Softmax -/

/-- The arguments of `softmax_desc_init`. -/
structure SoftmaxArgs where
  hasDesc : Bool
  dataDesc : Option PrimitiveHashing.MemoryDesc
  diffDesc : Option PrimitiveHashing.MemoryDesc
  softmaxAxis : ℤ

/-- `args_ok`. The descriptor of the gradient is not tested. -/
def SoftmaxArgs.argsOk (args : SoftmaxArgs) : Bool :=
  args.hasDesc && args.dataDesc.isSome && 0 ≤ args.softmaxAxis &&
    args.dataDesc.all fun md => args.softmaxAxis < md.ndims

/-- `softmax_desc_init` -/
def softmaxDescInit (propKind : PropKind) (args : SoftmaxArgs) : Except Stop SoftmaxDesc := do
  check args.argsOk
  let dataDesc ← deref args.dataDesc
  let diffDesc ← derefIf (propKind = .backwardData) args.diffDesc
  return {
    primitiveKind := .softmax
    propKind := propKind
    dataDesc := dataDesc
    diffDesc := diffDesc
    softmaxAxis := args.softmaxAxis }

/-- `dnnl_softmax_forward_desc_init` -/
def softmaxForwardDescInit (propKind : PropKind) (args : SoftmaxArgs) : Except Stop SoftmaxDesc := do
  check (fwdKinds.contains propKind)
  softmaxDescInit propKind { args with diffDesc := none }

/-- `dnnl_softmax_backward_desc_init` -/
def softmaxBackwardDescInit (args : SoftmaxArgs) : Except Stop SoftmaxDesc := softmaxDescInit .backwardData args

end OpDescInit

end MklDnn
