import MklDnn.Common.DescInits
import MklDnn.Memory.Desc
import MklDnn.Memory.Offset
import MklDnn.Rnn.RnnDesc

/-!
# The copies of the states of an RNN

`execute_` copies the initial states of the cells into the workspace and, after the grid, the results to the tensors of the
user. The type of the elements that a copy sees is not taken from the descriptor of the tensor but from `dt_conf`.
-/

namespace MklDnn.Rnn

open PrimitiveHashing (AlgKind RnnDirection)

/-! ## Primitive descriptors -/

/-- The arguments of `set_default_params` for one descriptor. -/
def setDefault (md : MemoryDesc) (tag : FormatTag) : Except Status MemoryDesc :=
  if md.formatKind = .any then memoryDescInitByTag md.ndims (fun d => md.dims d) md.dataType tag else .ok md

/-- `set_default_params`, for descriptors that may be absent. -/
def setDefaultIf (present : Bool) (md : MemoryDesc) (tag : FormatTag) : Except Status MemoryDesc :=
  if present then setDefault md tag else .ok md

/-- `set_default_params`, where `desc` are the descriptors of the operation. -/
def setDefaultParams (cellKind : AlgKind) (desc : Tensors MemoryDesc) : Except Status (Tensors MemoryDesc) := do
  let srcLayer ← setDefault desc.srcLayer .abc
  let dstLayer ← setDefault desc.dstLayer .abc
  -- optional parameters
  let srcIter ← setDefaultIf (!desc.srcIter.isZero) desc.srcIter .abcd
  let srcIterC ← setDefaultIf (cellKind = .vanillaLstm && !desc.srcIter.isZero) desc.srcIterC .abcd
  let bias ← setDefaultIf (!desc.bias.isZero) desc.bias .abcd
  let dstIter ← setDefaultIf (!desc.dstIter.isZero) desc.dstIter .abcd
  let dstIterC ← setDefaultIf (cellKind = .vanillaLstm && !desc.dstIter.isZero) desc.dstIterC .abcd
  return { desc with srcLayer, dstLayer, srcIter, srcIterC, bias, dstIter, dstIterC }

/-- `is_blocked`, which the callers require with a contiguous last dimension. -/
def isBlocked (md : MemoryDesc) (ndims : ℕ) : Bool :=
  md.formatKind = .blocked && md.ndims = ndims && md.blocking.strides (md.ndims - 1) = 1

/-- `check_layout_consistency`, of the layers, the states and the bias. -/
def layoutsOk (md : Tensors MemoryDesc) : Bool :=
  isBlocked md.srcLayer 3 && isBlocked md.dstLayer 3 && (md.srcIter.isZero || isBlocked md.srcIter 4) &&
    (md.srcIterC.isZero || isBlocked md.srcIterC 4) && (md.dstIter.isZero || isBlocked md.dstIter 4) &&
    (md.dstIterC.isZero || isBlocked md.dstIterC 4) && (md.bias.isZero || md.bias.matchesTag .abcd)

/-- `rnn_fwd_pd_t`: the cell, the direction, and the descriptors of the operation and of the primitive. -/
structure Pd where
  cellKind : AlgKind
  direction : RnnDirection
  desc : Tensors MemoryDesc
  md : Tensors MemoryDesc

/-- The descriptor of the operation, and the parts of `init` that concern the layers and the states. -/
def createPd (p : Params) (t : Tensors (Option MemoryDesc)) : Except Status Pd := do
  let _ ← rnnCommonFwdDescInit p (t.map (Option.map MemoryDesc.raw))
  let desc := t.map (·.getD zeroMd)
  let md ← setDefaultParams p.cellKind desc
  if layoutsOk md then .ok ⟨p.cellKind, p.direction, desc, md⟩ else .error .unimplemented

/-! ## Configurations -/

/-- `data_type_conf_t` -/
inductive DataTypeConf where
  | allF32 | u8u8u8f32 | f32u8f32f32 | u8u8u8u8 | f32u8f32u8
  deriving DecidableEq

/-- `dt_conf` of `init_conf`. A null pointer to the descriptor of the initial states is `none`. -/
def dtConfOf (srcLayer : MemoryDesc) (srcIter : Option MemoryDesc) (weightsLayer dstLayer : MemoryDesc) : DataTypeConf :=
  if srcLayer.dataType = .f32 ∧ dstLayer.dataType = .f32 ∧ weightsLayer.dataType = .f32 then .allF32
  else if dstLayer.dataType = .u8 then
    if srcIter.all fun md => md.dataType = .u8 then .u8u8u8u8 else .f32u8f32u8
  else
    if srcIter.all fun md => md.dataType = .u8 then .u8u8u8f32 else .f32u8f32f32

namespace Pd

variable (pd : Pd)

def isLstm : Bool := pd.cellKind = .vanillaLstm

def withSrcIter : Bool := !pd.desc.srcIter.isZero

def withSrcIterC : Bool := pd.isLstm && !pd.desc.srcIter.isZero

def withDstIter : Bool := !pd.desc.dstIter.isZero

def withDstIterC : Bool := pd.isLstm && !pd.desc.dstIter.isZero

/-- `src_md`. What is absent has the address of `glob_zero_md`. -/
def srcMd (index : ℕ) : MemoryDesc :=
  if index = 0 then pd.md.srcLayer
  else if index = 1 && pd.withSrcIter then pd.md.srcIter
  else if index = 2 && pd.withSrcIterC then pd.md.srcIterC
  else zeroMd

/-- `dst_md` -/
def dstMd (index : ℕ) : MemoryDesc :=
  if index = 0 then pd.md.dstLayer
  else if index = 1 && pd.withDstIter then pd.md.dstIter
  else if index = 2 && pd.withDstIterC then pd.md.dstIterC
  else zeroMd

/-- `rnn.dt_conf` -/
def dtConf : DataTypeConf := dtConfOf (pd.srcMd 0) (some (pd.srcMd 1)) pd.md.weightsLayer (pd.dstMd 0)

def nLayer : ℕ := pd.md.weightsLayer.dims 0

def nIter : ℕ := (pd.srcMd 0).dims 0

def nDir : ℕ := pd.md.weightsLayer.dims 1

def mb : ℕ := (pd.srcMd 0).dims 1

def sic : ℕ := pd.md.weightsIter.dims 2

def dic : ℕ := pd.md.weightsLayer.dims 4

end Pd

/-! ## Copies -/

/-- The tensors of the user that the copies access. -/
inductive UserTensor where
  | srcIter | srcIterC | dstLayer | dstIter | dstIterC
  deriving DecidableEq

/-- An element of a tensor of the user, at an offset that counts elements of the type of the pointer; or an element of the
workspace, by its indices. -/
inductive Cell where
  | user (tensor : UserTensor) (dataType : DataType) (off : ℤ)
  | wsStates (lay dir iter b s : ℕ)
  | wsCStates (lay dir iter b s : ℕ)

/-- What `maybe_q` and `maybe_deq` do to a value. -/
inductive Conversion where
  | cast | quantize | dequantize

/-- The right-hand side of an assignment. -/
inductive Value where
  | zero
  | copy (conv : Conversion) (source : Cell)
  /-- The value of the target and the copy. -/
  | sum (conv : Conversion) (source : Cell)

def Value.source : Value → Option Cell
  | .zero => none
  | .copy _ source => some source
  | .sum _ source => some source

/-- An assignment of a copy. -/
structure Assign where
  target : Cell
  value : Value

namespace Pd

variable (pd : Pd)

/-- `parallel_nd(rnn.n_layer, rnn.n_dir, rnn.mb, ...)` -/
def forStates (body : ℕ → ℕ → ℕ → List Assign) : List Assign :=
  (List.range pd.nLayer).flatMap fun lay => (List.range pd.nDir).flatMap fun dir => (List.range pd.mb).flatMap fun b =>
    body lay dir b

/-- `copy_init_iter`. The pointer to the states is null if there are none. -/
def copyInitIter (inputDataT : DataType) : List Assign :=
  let quantize := pd.withSrcIter && (pd.srcMd 1).dataType = .f32 && pd.dtConf ≠ .allF32
  let conv : Conversion := if quantize then .quantize else .cast
  if pd.withSrcIter then
    pd.forStates fun lay dir b =>
      let ss := (pd.srcMd 1).blkOff [(lay : ℤ), dir, b, 0]
      let ssC := (pd.srcMd 2).blkOff [(lay : ℤ), dir, b, 0]
      ((List.range pd.sic).map fun s =>
        ⟨.wsStates (lay + 1) dir 0 b s, .copy conv (.user .srcIter inputDataT (ss + (s : ℕ)))⟩) ++
      if pd.isLstm then
        (List.range pd.dic).map fun s =>
          ⟨.wsCStates (lay + 1) dir 0 b s, .copy .cast (.user .srcIterC .f32 (ssC + (s : ℕ)))⟩
      else []
  else
    pd.forStates fun lay dir b =>
      ((List.range pd.sic).map fun j => ⟨.wsStates (lay + 1) dir 0 b j, .zero⟩) ++
      (List.range pd.dic).map fun j => ⟨.wsCStates (lay + 1) dir 1 b j, .zero⟩

/-- `copy_res_layer` -/
def copyResLayer (dstDataT : DataType) : List Assign :=
  let dequantize := (pd.dstMd 0).dataType = .f32 && pd.dtConf ≠ .allF32
  let conv : Conversion := if dequantize then .dequantize else .cast
  let right := pd.direction = .unidirectionalRight2left
  let left := pd.direction = .unidirectionalLeft2right
  (List.range pd.nIter).flatMap fun (it : ℕ) => (List.range pd.mb).flatMap fun (b : ℕ) =>
    let fwd : List Assign :=
      if right then []
      else
        let dd := (pd.dstMd 0).blkOff [(it : ℤ), b, 0]
        (List.range pd.dic).map fun s =>
          ⟨.user .dstLayer dstDataT (dd + (s : ℕ)), .copy conv (.wsStates pd.nLayer 0 (it + 1) b s)⟩
    let dir := if right then 0 else 1
    let bwd : List Assign :=
      if left then []
      else if pd.direction = .bidirectionalSum then
        let dd := (pd.dstMd 0).blkOff [(it : ℤ), b, 0]
        (List.range pd.dic).map fun s =>
          ⟨.user .dstLayer dstDataT (dd + (s : ℕ)), .sum conv (.wsStates pd.nLayer dir (pd.nIter - it) b s)⟩
      else
        let dd := (pd.dstMd 0).blkOff [(it : ℤ), b, (dir * pd.dic : ℕ)]
        (List.range pd.dic).map fun s =>
          ⟨.user .dstLayer dstDataT (dd + (s : ℕ)), .copy conv (.wsStates pd.nLayer dir (pd.nIter - it) b s)⟩
    fwd ++ bwd

/-- `copy_res_iter`. The pointer to the states is null if there are none. -/
def copyResIter (outputDataT : DataType) : List Assign :=
  let dequantize := pd.withDstIter && (pd.dstMd 1).dataType = .f32 && pd.dtConf ≠ .allF32
  let conv : Conversion := if dequantize then .dequantize else .cast
  if pd.withDstIter then
    pd.forStates fun lay dir b =>
      let dd := (pd.dstMd 1).blkOff [(lay : ℤ), dir, b, 0]
      let ddC := (pd.dstMd 2).blkOff [(lay : ℤ), dir, b, 0]
      ((List.range pd.dic).map fun s =>
        ⟨.user .dstIter outputDataT (dd + (s : ℕ)), .copy conv (.wsStates (lay + 1) dir pd.nIter b s)⟩) ++
      if pd.isLstm then
        (List.range pd.dic).map fun s =>
          ⟨.user .dstIterC .f32 (ddC + (s : ℕ)), .copy .cast (.wsCStates (lay + 1) dir pd.nIter b s)⟩
      else []
  else []

/-- The copies of `execute_` ahead of the grid. -/
def copyIn : List Assign :=
  if pd.dtConf ∈ [DataTypeConf.f32u8f32u8, .f32u8f32f32, .allF32] then pd.copyInitIter .f32 else pd.copyInitIter .u8

/-- The copies of `execute_` after the grid. -/
def copyOut : List Assign :=
  (if pd.dtConf ∈ [DataTypeConf.u8u8u8f32, .f32u8f32f32, .allF32] then pd.copyResLayer .f32 else pd.copyResLayer .u8) ++
    if pd.dtConf ∈ [DataTypeConf.f32u8f32u8, .f32u8f32f32, .allF32] then pd.copyResIter .f32 else pd.copyResIter .u8

end Pd

end MklDnn.Rnn
