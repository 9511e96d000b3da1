import MklDnn.Common.Convolution

/-!
# RNN descriptors

`rnn_common_fwd_desc_init` and `rnn_common_bwd_desc_init`: the checks of the descriptors that the caller passes, and the
descriptor that records them. A pointer that may be null is an `Option`.
-/

namespace MklDnn.Rnn

open DescInit (toInt)
open PrimitiveHashing (AlgKind F32 PropKind RnnDesc RnnDirection)

/-- `get_gates_count` -/
def getGatesCount : AlgKind → ℤ
  | .vanillaRnn => 1
  | .vanillaGru => 3
  | .lbrGru => 3
  | .vanillaLstm => 4
  | _ => 0

/-- The descriptors of the tensors of a pass, or of their gradients. -/
structure Tensors (α : Type) where
  srcLayer : α
  srcIter : α
  srcIterC : α
  weightsLayer : α
  weightsIter : α
  bias : α
  dstLayer : α
  dstIter : α
  dstIterC : α

def Tensors.map {α β : Type} (f : α → β) (t : Tensors α) : Tensors β where
  srcLayer := f t.srcLayer
  srcIter := f t.srcIter
  srcIterC := f t.srcIterC
  weightsLayer := f t.weightsLayer
  weightsIter := f t.weightsIter
  bias := f t.bias
  dstLayer := f t.dstLayer
  dstIter := f t.dstIter
  dstIterC := f t.dstIterC

/-- The descriptors that the caller passes. -/
abbrev Pointers := Tensors (Option PrimitiveHashing.MemoryDesc)

/-- `types::is_zero_md` -/
def isZeroMd (md : Option PrimitiveHashing.MemoryDesc) : Bool := md.all fun md => md == PrimitiveHashing.zeroMd

/-- `copy_maybe_null`. The checks read a descriptor that is not null. -/
def copyMaybeNull (md : Option PrimitiveHashing.MemoryDesc) : PrimitiveHashing.MemoryDesc := md.getD PrimitiveHashing.zeroMd

/-- `any_null`, of the descriptors that are not optional. -/
def anyNull (t : Pointers) : Bool :=
  t.srcLayer.isNone || t.weightsLayer.isNone || t.weightsIter.isNone || t.dstLayer.isNone

/-- The numbers that `check_dim_consistency` gets. -/
structure Sizes where
  L : ℤ
  D : ℤ
  T : ℤ
  N : ℤ
  G : ℤ
  SLC : ℤ
  SIC : ℤ
  DLC : ℤ
  DIC : ℤ

/-- `one_of(direction, ...) ? 1 : 2` -/
def numDirections : RnnDirection → ℤ
  | .unidirectionalLeft2right => 1
  | .unidirectionalRight2left => 1
  | .bidirectionalConcat => 2
  | .bidirectionalSum => 2

/-- `dlc_multiplier` -/
def dlcMultiplier (direction : RnnDirection) : ℤ := if direction = .bidirectionalConcat then 2 else 1

/-- `extra_bias` -/
def extraBias (cellKind : AlgKind) : ℤ := if cellKind = .lbrGru then 1 else 0

/-- The numbers that `rnn_common_fwd_desc_init` and `rnn_common_bwd_desc_init` read. -/
def sizes (cellKind : AlgKind) (direction : RnnDirection) (t : Pointers) : Sizes where
  L := toInt ((copyMaybeNull t.weightsLayer).dims 0)
  D := numDirections direction
  T := toInt ((copyMaybeNull t.srcLayer).dims 0)
  N := toInt ((copyMaybeNull t.srcLayer).dims 1)
  G := getGatesCount cellKind
  SLC := toInt ((copyMaybeNull t.srcLayer).dims 2)
  SIC := toInt ((copyMaybeNull t.weightsIter).dims 2)
  DLC := toInt ((copyMaybeNull t.dstLayer).dims 2)
  DIC := toInt ((copyMaybeNull t.weightsLayer).dims 4)

/-- A number is a dimension of a descriptor. -/
def isDim (x : ℤ) (md : Option PrimitiveHashing.MemoryDesc) (d : ℕ) : Bool := x = (copyMaybeNull md).dims d

/-- A number is a dimension of a descriptor that is present. -/
def isDimIfPresent (x : ℤ) (md : Option PrimitiveHashing.MemoryDesc) (d : ℕ) : Bool := isZeroMd md || isDim x md d

/-- `if (!args_ok) return invalid_arguments;` -/
def check (argsOk : Bool) : Except Status Unit := if argsOk then .ok () else .error .invalidArguments

/-- `check_dim_consistency` -/
def checkDimConsistency (cellKind : AlgKind) (direction : RnnDirection) (s : Sizes) (t : Pointers) : Except Status Unit := do
  -- algorithm specific
  check (!(cellKind = .vanillaGru || cellKind = .lbrGru) || s.DIC = s.SIC)
  -- on num layers
  check (isDim s.L t.weightsLayer 0 && isDim s.L t.weightsIter 0 && isDimIfPresent s.L t.bias 0 &&
    isDimIfPresent s.L t.srcIter 0 && isDimIfPresent s.L t.srcIterC 0 && isDimIfPresent s.L t.dstIter 0 &&
    isDimIfPresent s.L t.dstIterC 0)
  -- on num directions
  check (isDim s.D t.weightsLayer 1 && isDim s.D t.weightsIter 1 && isDimIfPresent s.D t.bias 1 &&
    isDimIfPresent s.D t.srcIter 1 && isDimIfPresent s.D t.srcIterC 1 && isDimIfPresent s.D t.dstIter 1 &&
    isDimIfPresent s.D t.dstIterC 1)
  -- on num iterations
  check (isDim s.T t.srcLayer 0 && isDim s.T t.dstLayer 0)
  -- on mb
  check (isDim s.N t.srcLayer 1 && isDim s.N t.dstLayer 1 && isDimIfPresent s.N t.srcIter 2 &&
    isDimIfPresent s.N t.srcIterC 2 && isDimIfPresent s.N t.dstIter 2 && isDimIfPresent s.N t.dstIterC 2)
  -- on num gates
  check (s.G = getGatesCount cellKind && isDim s.G t.weightsLayer 3 && isDim s.G t.weightsIter 3 &&
    isDimIfPresent (toInt (s.G + extraBias cellKind)) t.bias 2)
  -- on slc
  check (isDim s.SLC t.weightsLayer 2 && isDim s.SLC t.srcLayer 2)
  -- on sic
  check (isDim s.SIC t.weightsIter 2 && isDimIfPresent s.SIC t.srcIter 3)
  -- on dlc
  check (s.DLC = toInt (dlcMultiplier direction * s.DIC) && isDim s.DLC t.dstLayer 2)
  -- on dic
  check (isDim s.DIC t.weightsLayer 4 && isDim s.DIC t.weightsIter 4 && isDimIfPresent s.DIC t.bias 3 &&
    isDimIfPresent s.DIC t.srcIterC 3 && isDimIfPresent s.DIC t.dstIter 3 && isDimIfPresent s.DIC t.dstIterC 3)
  -- unrolling/fusion conditions
  check ((!(s.L > 1) || toInt (dlcMultiplier direction * s.SLC) = s.DLC) && (!(s.T > 1) || s.SIC = s.DIC))

/-- A descriptor that is present has one of the data types. -/
def hasType (dts : List DataType) (md : Option PrimitiveHashing.MemoryDesc) : Bool :=
  isZeroMd md || dts.contains (copyMaybeNull md).dataType

/-- `is_f32` and `is_f16` -/
def isFloat (dt : DataType) (t : Pointers) : Bool :=
  (copyMaybeNull t.srcLayer).dataType = dt && (copyMaybeNull t.dstLayer).dataType = dt &&
    (copyMaybeNull t.weightsIter).dataType = dt && (copyMaybeNull t.weightsLayer).dataType = dt &&
    hasType [dt] t.srcIter && hasType [dt] t.dstIter && hasType [dt] t.bias

/-- `is_u8u8u8` -/
def isU8u8u8 (t : Pointers) : Bool :=
  (copyMaybeNull t.srcLayer).dataType = .u8 && hasType [.u8] t.srcIter && hasType [.f32] t.srcIterC &&
    hasType [.u8] t.dstIter && hasType [.f32] t.dstIterC &&
    [DataType.u8, .f32].contains (copyMaybeNull t.dstLayer).dataType &&
    (copyMaybeNull t.weightsIter).dataType = .s8 && (copyMaybeNull t.weightsLayer).dataType = .s8 &&
    hasType [.f32] t.bias

/-- `is_f32u8f32` -/
def isF32u8f32 (t : Pointers) : Bool :=
  (copyMaybeNull t.srcLayer).dataType = .u8 && hasType [.f32] t.srcIter && hasType [.f32] t.dstIter &&
    [DataType.u8, .f32].contains (copyMaybeNull t.dstLayer).dataType &&
    (copyMaybeNull t.weightsIter).dataType = .s8 && (copyMaybeNull t.weightsLayer).dataType = .s8 &&
    hasType [.f32] t.bias

/-- `check_data_type_consistency_fwd` -/
def checkDataTypeConsistencyFwd (cellKind : AlgKind) (propKind : PropKind) (t : Pointers) : Except Status Unit :=
  let cellStateCheck := hasType [.f32, .f16] t.srcIterC && hasType [.f32, .f16] t.dstIterC
  if cellStateCheck && (isFloat .f32 t || isFloat .f16 t ||
      ((isU8u8u8 t || isF32u8f32 t) && cellKind = .vanillaLstm && propKind = .forwardInference)) then .ok ()
  else .error .unimplemented

/-- The arguments that are not descriptors. -/
structure Params where
  propKind : PropKind
  cellKind : AlgKind
  direction : RnnDirection
  flags : UInt32
  activation : AlgKind
  alpha : F32
  beta : F32

/-- `one_of(cell_kind, ...)` -/
def supportedCell (cellKind : AlgKind) : Bool :=
  [AlgKind.vanillaRnn, .vanillaLstm, .vanillaGru, .lbrGru].contains cellKind

/-- `xnor_md` -/
def xnorMd (a b : Option PrimitiveHashing.MemoryDesc) : Bool := isZeroMd a == isZeroMd b

/-- The states of an LSTM cell are present together. -/
def lstmStates (cellKind : AlgKind) (t : Pointers) : Bool :=
  !(cellKind = .vanillaLstm) || (xnorMd t.srcIter t.srcIterC && xnorMd t.dstIter t.dstIterC)

/-- The descriptor without tensors, `zero_rnn_desc`, with the arguments that are not descriptors. -/
def zeroRnnDesc (p : Params) : RnnDesc where
  primitiveKind := .rnn
  propKind := p.propKind
  cellKind := p.cellKind
  direction := p.direction
  srcLayerDesc := PrimitiveHashing.zeroMd
  srcIterDesc := PrimitiveHashing.zeroMd
  srcIterCDesc := PrimitiveHashing.zeroMd
  weightsLayerDesc := PrimitiveHashing.zeroMd
  weightsIterDesc := PrimitiveHashing.zeroMd
  biasDesc := PrimitiveHashing.zeroMd
  dstLayerDesc := PrimitiveHashing.zeroMd
  dstIterDesc := PrimitiveHashing.zeroMd
  dstIterCDesc := PrimitiveHashing.zeroMd
  placeholderDesc := PrimitiveHashing.zeroMd
  placeholder2Desc := PrimitiveHashing.zeroMd
  diffSrcLayerDesc := PrimitiveHashing.zeroMd
  diffSrcIterDesc := PrimitiveHashing.zeroMd
  diffSrcIterCDesc := PrimitiveHashing.zeroMd
  diffWeightsLayerDesc := PrimitiveHashing.zeroMd
  diffWeightsIterDesc := PrimitiveHashing.zeroMd
  diffBiasDesc := PrimitiveHashing.zeroMd
  diffDstLayerDesc := PrimitiveHashing.zeroMd
  diffDstIterDesc := PrimitiveHashing.zeroMd
  diffDstIterCDesc := PrimitiveHashing.zeroMd
  diffPlaceholderDesc := PrimitiveHashing.zeroMd
  diffPlaceholder2Desc := PrimitiveHashing.zeroMd
  flags := p.flags
  activationKind := p.activation
  alpha := p.alpha
  beta := p.beta

/-- The assignments of the descriptors of the tensors. -/
def setTensors (rd : RnnDesc) (t : Pointers) : RnnDesc :=
  { rd with
    srcLayerDesc := copyMaybeNull t.srcLayer
    srcIterDesc := copyMaybeNull t.srcIter
    srcIterCDesc := copyMaybeNull t.srcIterC
    weightsLayerDesc := copyMaybeNull t.weightsLayer
    weightsIterDesc := copyMaybeNull t.weightsIter
    biasDesc := copyMaybeNull t.bias
    dstLayerDesc := copyMaybeNull t.dstLayer
    dstIterDesc := copyMaybeNull t.dstIter
    dstIterCDesc := copyMaybeNull t.dstIterC }

/-- The assignments of the descriptors of the gradients. -/
def setDiffTensors (rd : RnnDesc) (t : Pointers) : RnnDesc :=
  { rd with
    diffSrcLayerDesc := copyMaybeNull t.srcLayer
    diffSrcIterDesc := copyMaybeNull t.srcIter
    diffSrcIterCDesc := copyMaybeNull t.srcIterC
    diffWeightsLayerDesc := copyMaybeNull t.weightsLayer
    diffWeightsIterDesc := copyMaybeNull t.weightsIter
    diffBiasDesc := copyMaybeNull t.bias
    diffDstLayerDesc := copyMaybeNull t.dstLayer
    diffDstIterDesc := copyMaybeNull t.dstIter
    diffDstIterCDesc := copyMaybeNull t.dstIterC }

/-- `rnn_common_fwd_desc_init`. The flag `args_ok` is not tested after the optional descriptors have been compared. -/
def rnnCommonFwdDescInit (p : Params) (t : Pointers) : Except Status RnnDesc := do
  let argsOk := supportedCell p.cellKind
  check argsOk
  let argsOk := argsOk && !anyNull t
  check argsOk
  let _argsOk := argsOk && lstmStates p.cellKind t
  checkDimConsistency p.cellKind p.direction (sizes p.cellKind p.direction t) t
  checkDataTypeConsistencyFwd p.cellKind p.propKind t
  return setTensors (zeroRnnDesc p) t

/-- What `rnn_common_bwd_desc_init` compares of the gradients. The descriptor of the incoming cell state is compared
with itself. -/
def diffsPresent (t diff : Pointers) : Bool :=
  xnorMd t.bias diff.bias && xnorMd t.srcIter diff.srcIter && xnorMd t.srcIterC t.srcIterC &&
    xnorMd t.dstIter diff.dstIter && xnorMd t.dstIterC diff.dstIterC

/-- `rnn_common_bwd_desc_init` -/
def rnnCommonBwdDescInit (p : Params) (t diff : Pointers) : Except Status RnnDesc := do
  let argsOk := supportedCell p.cellKind
  check argsOk
  let argsOk := argsOk && !(anyNull t || anyNull diff)
  check argsOk
  let argsOk := argsOk && lstmStates p.cellKind t
  let argsOk := argsOk && diffsPresent t diff
  check argsOk
  checkDimConsistency p.cellKind p.direction (sizes p.cellKind p.direction t) t
  checkDimConsistency p.cellKind p.direction (sizes p.cellKind p.direction t) diff
  return setDiffTensors (setTensors (zeroRnnDesc p) t) diff

/-! ## The tensors of a primitive -/

section Pd

variable (desc : RnnDesc)

/-- `memory_desc_wrapper::is_zero` -/
def isZero (md : PrimitiveHashing.MemoryDesc) : Bool := md.ndims = 0

/-- `is_lstm` -/
def isLstm : Bool := desc.cellKind = .vanillaLstm

/-- `with_bias` -/
def withBias : Bool := !isZero desc.biasDesc

/-- `with_src_iter` -/
def withSrcIter : Bool := !isZero desc.srcIterDesc

/-- `with_src_iter_c` -/
def withSrcIterC : Bool := isLstm desc && !isZero desc.srcIterDesc

/-- `with_dst_iter` -/
def withDstIter : Bool := !isZero desc.dstIterDesc

/-- `with_dst_iter_c` -/
def withDstIterC : Bool := isLstm desc && !isZero desc.dstIterDesc

/-- The descriptors of the tensors. -/
def tensors : Tensors PrimitiveHashing.MemoryDesc where
  srcLayer := desc.srcLayerDesc
  srcIter := desc.srcIterDesc
  srcIterC := desc.srcIterCDesc
  weightsLayer := desc.weightsLayerDesc
  weightsIter := desc.weightsIterDesc
  bias := desc.biasDesc
  dstLayer := desc.dstLayerDesc
  dstIter := desc.dstIterDesc
  dstIterC := desc.dstIterCDesc

/-- The descriptors of the gradients. -/
def diffTensors : Tensors PrimitiveHashing.MemoryDesc where
  srcLayer := desc.diffSrcLayerDesc
  srcIter := desc.diffSrcIterDesc
  srcIterC := desc.diffSrcIterCDesc
  weightsLayer := desc.diffWeightsLayerDesc
  weightsIter := desc.diffWeightsIterDesc
  bias := desc.diffBiasDesc
  dstLayer := desc.diffDstLayerDesc
  dstIter := desc.diffDstIterDesc
  dstIterC := desc.diffDstIterCDesc

/-- `src_md`, and `diff_src_md` for the gradients. -/
def srcMd (t : Tensors PrimitiveHashing.MemoryDesc) (index : ℕ) : PrimitiveHashing.MemoryDesc :=
  if index = 0 then t.srcLayer
  else if index = 1 && withSrcIter desc then t.srcIter
  else if index = 2 && withSrcIterC desc then t.srcIterC
  else PrimitiveHashing.zeroMd

/-- `weights_md`, and `diff_weights_md` for the gradients. -/
def weightsMd (t : Tensors PrimitiveHashing.MemoryDesc) (index : ℕ) : PrimitiveHashing.MemoryDesc :=
  if index = 0 then t.weightsLayer
  else if index = 1 then t.weightsIter
  else if index = 2 && withBias desc then t.bias
  else PrimitiveHashing.zeroMd

/-- `dst_md`, and `diff_dst_md` for the gradients. -/
def dstMd (t : Tensors PrimitiveHashing.MemoryDesc) (index : ℕ) : PrimitiveHashing.MemoryDesc :=
  if index = 0 then t.dstLayer
  else if index = 1 && withDstIter desc then t.dstIter
  else if index = 2 && withDstIterC desc then t.dstIterC
  else PrimitiveHashing.zeroMd

end Pd

end MklDnn.Rnn
