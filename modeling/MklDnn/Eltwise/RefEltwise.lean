import MklDnn.Common.Threading
import MklDnn.Memory.Desc
import MklDnn.Memory.Offset

/-!
# Reference element-wise functions

`ref_eltwise_fwd_t` and `ref_eltwise_bwd_t`: which of their paths is taken, and what each path executes. The scalar functions
are parameters. Input and output are different buffers. Where an `int` does not hold its value, there is no result.
-/

open Interleaving

namespace MklDnn.RefEltwise

/-! ## Descriptors -/

/-- The element-wise functions of `alg_kind_t`. -/
inductive AlgKind where
  | relu | tanh | elu | square | abs | sqrt | linear | boundedRelu | softRelu | logistic | exp | gelu | swish
  deriving DecidableEq

/-- `eltwise_fwd_preserves_zero` -/
def eltwiseFwdPreservesZero (alg : AlgKind) (jitImpl : Bool) : Bool :=
  alg ∉ [AlgKind.linear, .softRelu, .logistic, .exp] ∧ (jitImpl → alg ∉ [AlgKind.elu, .tanh])

/-- `eltwise_desc_t` -/
structure EltwiseDesc where
  isFwd : Bool
  algKind : AlgKind
  dataDesc : MemoryDesc
  diffDataDesc : MemoryDesc

namespace EltwiseDesc

variable (desc : EltwiseDesc)

def ndims : ℕ := desc.dataDesc.ndims

def MB : ℕ := desc.dataDesc.dims 0

def C : ℕ := desc.dataDesc.dims 1

def D : ℕ := if 5 ≤ desc.ndims then desc.dataDesc.dims (desc.ndims - 3) else 1

def H : ℕ := if 4 ≤ desc.ndims then desc.dataDesc.dims (desc.ndims - 2) else 1

def W : ℕ := if 3 ≤ desc.ndims then desc.dataDesc.dims (desc.ndims - 1) else 1

def hasZeroDimMemory : Bool := desc.dataDesc.hasZeroDim

end EltwiseDesc

/-! ## The choice of a path -/

/-- The paths of `execute`. -/
inductive Path where
  | dense | nCspBcPadded | generic
  deriving DecidableEq

/-- What a primitive is created for: the data type of the implementation, the features of the machine, and whether the attributes
have their default values. -/
structure Target where
  dataType : DataType
  avx512Core : Bool
  hasDefaultValues : Bool

/-- `ref_eltwise_fwd_t::pd_t::init` -/
def fwdInit (t : Target) (desc : EltwiseDesc) : Except Status Path :=
  let srcD := desc.dataDesc
  let useDense := srcD.isDense false || srcD.isDense true && eltwiseFwdPreservesZero desc.algKind false
  let useNCspBcPadded := !useDense &&
    match srcD.blocking.inner with
    | [b] => (b.blk = 8 ∨ b.blk = 16) && b.idx = 1 && srcD.onlyPaddedDim 1 && srcD.isDense true
    | _ => false
  let useDense := useDense && !desc.hasZeroDimMemory
  let useNCspBcPadded := useNCspBcPadded && !desc.hasZeroDimMemory
  let useGeneric := !useDense && !useNCspBcPadded
  if desc.isFwd && t.dataType = desc.dataDesc.dataType && (desc.dataDesc.dataType ≠ .bf16 || t.avx512Core) &&
      (!useGeneric || srcD.ndims = 4 || srcD.ndims = 5) && t.hasDefaultValues then
    .ok (if useDense then .dense else if useNCspBcPadded then .nCspBcPadded else .generic)
  else .error .unimplemented

/-- `ref_eltwise_bwd_t::pd_t::init` -/
def bwdInit (t : Target) (desc : EltwiseDesc) : Except Status Path :=
  if !desc.isFwd && t.dataType = desc.dataDesc.dataType && t.dataType = desc.diffDataDesc.dataType &&
      (desc.dataDesc.dataType ≠ .bf16 || t.avx512Core) && t.hasDefaultValues then
    let diffDstD := desc.diffDataDesc
    let sameFmt := diffDstD.isEqual desc.dataDesc
    if sameFmt && diffDstD.isDense true && !desc.hasZeroDimMemory then .ok .dense
    else if diffDstD.ndims = 4 ∨ diffDstD.ndims = 5 then .ok .generic
    else .error .unimplemented
  else .error .unimplemented

/-! ## The paths -/

/-- The value as an `int`. -/
def asInt (x : ℕ) : Option ℕ := if x < 2 ^ 31 then some x else none

variable {V : Type} (desc : EltwiseDesc)

/-- A loop without iterations: the fast return. -/
def nothing : Phase ℤ V := ⟨[0], fun _ => []⟩

/-- The offset of an element in the loops over `n`, `c`, `d`, `h` and `w`. -/
def genericOff (md : MemoryDesc) (is3d : Bool) : List ℕ → ℤ
  | [n, c, d, h, w] => if is3d then md.off [n, c, d, h, w] else md.off [n, c, h, w]
  | _ => 0

section Forward

variable (scalar : AlgKind → V → V) (src : ℤ → V)

/-- `execute_forward_dense` -/
def executeForwardDense : Phase ℤ V where
  dims := [desc.dataDesc.nelems true]
  body := fun idx =>
    let e := desc.dataDesc.offset0 + idx.getD 0 0
    [Assign.set e (scalar desc.algKind (src e))]

/-- The switch of `execute_forward_nCspBc_padded`. -/
def ker (d : ℤ) : List (Assign ℤ V) :=
  match desc.algKind with
  | .linear | .boundedRelu | .softRelu | .logistic | .exp => [Assign.set d (scalar desc.algKind (src d))]
  | _ => []

/-- `execute_forward_nCspBc_padded` -/
def executeForwardNCspBcPadded : Option (Phase ℤ V) := do
  let dataD := desc.dataDesc
  let block := (dataD.blocking.inner.map InnerBlk.blk).headD 0
  let MB ← asInt desc.MB
  let C ← asInt (desc.C / block)
  let cPadded ← asInt (dataD.paddedDims 1 / block)
  let tail ← asInt (desc.C % block)
  let SP ← asInt (desc.D * desc.H * desc.W)
  let dOff := fun n c sp => (n * cPadded * SP + c * SP + sp) * block
  let len := fun c => if c < C then block else tail
  if ∀ n < MB, ∀ c < cPadded, ∀ sp < SP, dOff n c sp < 2 ^ 31 ∧ dOff n c sp + len c ≤ 2 ^ 31 then
    some {
      dims := [MB, cPadded, SP]
      body := fun idx =>
        let (n, c, sp) := (idx.getD 0 0, idx.getD 1 0, idx.getD 2 0)
        (List.range (len c)).flatMap fun v => ker desc scalar src (dOff n c sp + v : ℕ) }
  else none

/-- `execute_forward_generic` -/
def executeForwardGeneric : Option (Phase ℤ V) :=
  if desc.hasZeroDimMemory then some nothing
  else do
    let MB ← asInt desc.MB
    let C ← asInt desc.C
    let D ← asInt desc.D
    let H ← asInt desc.H
    let W ← asInt desc.W
    let is3d : Bool := desc.dataDesc.ndims = 5
    some {
      dims := [MB, C, D, H, W]
      body := fun idx =>
        let dOff := genericOff desc.dataDesc is3d idx
        [Assign.set dOff (scalar desc.algKind (src dOff))] }

/-- `ref_eltwise_fwd_t::execute` -/
def executeForward : Path → Option (Phase ℤ V)
  | .dense => some (executeForwardDense desc scalar src)
  | .nCspBcPadded => executeForwardNCspBcPadded desc scalar src
  | .generic => executeForwardGeneric desc scalar src

end Forward

section Backward

variable (scalar : AlgKind → V → V → V) (src diffDst : ℤ → V)

/-- `execute_backward_dense` -/
def executeBackwardDense : Phase ℤ V where
  dims := [desc.dataDesc.nelems true]
  body := fun idx =>
    let e := idx.getD 0 0
    let dd := diffDst (desc.diffDataDesc.offset0 + e)
    let s := src (desc.dataDesc.offset0 + e)
    [Assign.set (desc.diffDataDesc.offset0 + e) (scalar desc.algKind dd s)]

/-- `execute_backward_generic` -/
def executeBackwardGeneric : Option (Phase ℤ V) :=
  if desc.hasZeroDimMemory then some nothing
  else do
    let MB ← asInt desc.MB
    let C ← asInt desc.C
    let D ← asInt desc.D
    let H ← asInt desc.H
    let W ← asInt desc.W
    let is3d : Bool := desc.dataDesc.ndims = 5
    some {
      dims := [MB, C, D, H, W]
      body := fun idx =>
        let dataOff := genericOff desc.dataDesc is3d idx
        let diffDataOff := genericOff desc.diffDataDesc is3d idx
        [Assign.set diffDataOff (scalar desc.algKind (diffDst diffDataOff) (src dataOff))] }

/-- `ref_eltwise_bwd_t::execute` -/
def executeBackward : Path → Option (Phase ℤ V)
  | .dense => some (executeBackwardDense desc scalar src diffDst)
  | _ => executeBackwardGeneric desc scalar src diffDst

end Backward

end MklDnn.RefEltwise
