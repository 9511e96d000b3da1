import Mathlib.Algebra.Field.Basic
import Mathlib.Order.Defs.LinearOrder
import MklDnn.Memory.Desc
import MklDnn.Memory.Offset

/-!
# Reference softmax

`ref_softmax_fwd_t` and `ref_softmax_bwd_t`: the path for dense rows and the path that asks the descriptor for every
offset. Arithmetic is exact, and the exponential is a parameter. A buffer has the elements of its tensor only: an access
to another address fails.
-/

open LoopNest

namespace MklDnn.RefSoftmax

/-! ## Buffers -/

/-- The elements of a tensor by their addresses. -/
abbrev Buffer (R : Type*) := ℤ → Option R

variable {R : Type*}

def Buffer.store (b : Buffer R) (a : ℤ) (v : R) : Option (Buffer R) :=
  if (b a).isSome then some (Function.update b a (some v)) else none

/-- A loop over `idxs` that assigns to the elements from `base` on. -/
def assignRow (idxs : List ℕ) (base : ℤ) (g : ℕ → Buffer R → Option R) (b : Buffer R) : Option (Buffer R) :=
  idxs.foldlM (fun b i => do b.store (base + i) (← g i b)) b

/-! ## The primitive descriptor -/

/-- `softmax_pd_t` -/
structure Pd where
  dataDesc : MemoryDesc
  diffDesc : MemoryDesc
  axis : ℕ

namespace Pd

variable (pd : Pd)

def outerSize : ℕ := ((List.range pd.axis).map pd.dataDesc.dims).prod

def axisSize : ℕ := pd.dataDesc.dims pd.axis

def innerSize : ℕ :=
  ((List.range (pd.dataDesc.ndims - 1 - pd.axis)).map fun i => pd.dataDesc.dims (pd.axis + 1 + i)).prod

def outerStride : ℤ := if 0 < pd.axis then pd.dataDesc.blocking.strides (pd.axis - 1) else 1

/-- `axis_blk_size` -/
def axisBlkSize (bd : BlockingDesc) : ℕ :=
  bd.inner.foldl (fun axisBlkSize b => if b.idx = pd.axis then axisBlkSize * b.blk else axisBlkSize) 1

/-- `use_dense_` of the forward pass. -/
def useDenseFwd : Bool :=
  let dataD := pd.dataDesc
  pd.innerSize = 1 ∧ dataD.isDense true = true ∧ dataD.onlyPaddedDim pd.axis = true ∧
    dataD.blocking.strides pd.axis = pd.axisBlkSize dataD.blocking

/-- `use_dense_` of the backward pass. -/
def useDenseBwd : Bool :=
  let dataD := pd.dataDesc
  let diffD := pd.diffDesc
  pd.innerSize = 1 ∧ diffD.isEqual dataD = true ∧ diffD.isDense false = true ∧
    diffD.blocking.strides pd.axis = pd.axisBlkSize diffD.blocking

end Pd

/-! ## Forward -/

section Forward

variable [Field R] [LinearOrder R] (exp : R → R)

def unrollFactor : ℕ := 32

/-- `_max` -/
def maxRow (n : ℕ) (x : ℕ → Option R) : Option R :=
  if n < unrollFactor then do
    (List.range' 1 (n - 1)).foldlM (fun maxVal i => do pure (max maxVal (← x i))) (← x 0)
  else do
    let maxValues ← (List.range unrollFactor).mapM x
    -- `i` runs through the multiples of `unroll_factor` below `n`, from the first one on
    let maxValues ← (List.range' 1 ((n - 1) / unrollFactor)).foldlM
      (fun maxValues b =>
        let offset := min (b * unrollFactor) (n - unrollFactor)
        maxValues.zipIdx.mapM fun vj => do pure (max vj.1 (← x (offset + vj.2)))) maxValues
    match maxValues with
    | [] => none
    | maxVal :: rest => some (rest.foldl max maxVal)

/-- The elements in the order of the two loops of `_sub`. -/
def subIdxs (n : ℕ) : List ℕ :=
  let tail := n % unrollFactor
  ((List.range (n / unrollFactor)).flatMap fun b => (List.range unrollFactor).map fun j => b * unrollFactor + j) ++
    List.range' (n - tail) tail

/-- An iteration of `execute_forward_dense`, where the row starts at `base`. -/
def forwardDenseRow (channels : ℕ) (base : ℤ) (src dst : Buffer R) : Option (Buffer R) := do
  let scalar ← maxRow channels fun i => src (base + i)
  let dst ← assignRow (subIdxs channels) base (fun i _ => do pure ((← src (base + i)) - scalar)) dst
  let dst ← assignRow (List.range channels) base (fun c dst => do pure (exp (← dst (base + c)))) dst
  let scalar ← (List.range channels).foldlM (fun tsum (c : ℕ) => do pure (tsum + (← dst (base + c)))) 0
  assignRow (List.range channels) base (fun c dst => do pure ((← dst (base + c)) * (1 / scalar))) dst

/-- `execute_forward_dense`, with the rows in the given order. -/
def forwardDense (pd : Pd) (order : List ℕ) (src dst : Buffer R) : Option (Buffer R) :=
  order.foldlM (fun dst (ou : ℕ) => forwardDenseRow exp pd.axisSize (ou * pd.outerStride) src dst) dst

/-- The loops over `c` and `in`. -/
def channelsAndInner (pd : Pd) : List (ℕ × ℕ) :=
  (List.range pd.axisSize).flatMap fun c => (List.range pd.innerSize).map fun i => (c, i)

/-- The offset of an element in the loops over `c` and `in`. -/
def genericOff (pd : Pd) (md : MemoryDesc) (ou : ℕ) (x : ℕ × ℕ) : ℤ :=
  let dim := pd.axisSize * pd.innerSize
  md.offL (ou * dim + x.1 * pd.innerSize + x.2) false

/-- An iteration of `execute_forward_generic`. The arrays of the iteration start with `lowest`, which is `-FLT_MAX`, and
with zero. -/
def forwardGenericRow (pd : Pd) (lowest : R) (ou : ℕ) (src dst : Buffer R) : Option (Buffer R) := do
  let off := genericOff pd pd.dataDesc ou
  let spaceMax ← (channelsAndInner pd).foldlM
    (fun (spaceMax : ℕ → R) x => do pure (Function.update spaceMax x.2 (max (spaceMax x.2) (← src (off x))))) fun _ => lowest
  let st ← (channelsAndInner pd).foldlM
    (fun (st : (ℕ → R) × Buffer R) x => do
      let v := exp ((← src (off x)) - spaceMax x.2)
      pure (Function.update st.1 x.2 (st.1 x.2 + v), ← st.2.store (off x) v)) (fun _ => 0, dst)
  (channelsAndInner pd).foldlM (fun (dst : Buffer R) x => do dst.store (off x) ((← dst (off x)) / st.1 x.2)) st.2

/-- `execute_forward_generic`, with the rows in the given order. -/
def forwardGeneric (pd : Pd) (lowest : R) (order : List ℕ) (src dst : Buffer R) : Option (Buffer R) :=
  order.foldlM (fun dst ou => forwardGenericRow exp pd lowest ou src dst) dst

end Forward

/-! ## Backward -/

section Backward

variable [Field R]

/-- An iteration of `execute_backward_dense`, where the row starts at `off`. -/
def backwardDenseRow (channels : ℕ) (off : ℤ) (dst diffDst diffSrc : Buffer R) : Option (Buffer R) := do
  let st ← (List.range channels).foldlM
    (fun (st : R × Buffer R) (c : ℕ) => do
      let ldata ← dst (off + c)
      pure (st.1 + (← diffDst (off + c)) * ldata, ← st.2.store (off + c) ldata)) (0, diffSrc)
  assignRow (List.range channels) off
    (fun c diffSrc => do pure ((← diffSrc (off + c)) * ((← diffDst (off + c)) - st.1))) st.2

/-- `execute_backward_dense`, with the rows in the given order. -/
def backwardDense (pd : Pd) (order : List ℕ) (dst diffDst diffSrc : Buffer R) : Option (Buffer R) :=
  order.foldlM (fun diffSrc (ou : ℕ) => backwardDenseRow pd.axisSize (ou * pd.outerStride) dst diffDst diffSrc) diffSrc

/-- An iteration of `execute_backward_generic`. -/
def backwardGenericRow (pd : Pd) (ouIn : ℕ × ℕ) (dst diffDst diffSrc : Buffer R) : Option (Buffer R) := do
  let offDiff := fun c => genericOff pd pd.diffDesc ouIn.1 (c, ouIn.2)
  let offData := fun c => genericOff pd pd.dataDesc ouIn.1 (c, ouIn.2)
  let sbr ← (List.range pd.axisSize).foldlM
    (fun sbr c => do pure (sbr + (← diffDst (offDiff c)) * (← dst (offData c)))) 0
  (List.range pd.axisSize).foldlM
    (fun (diffSrc : Buffer R) c => do
      diffSrc.store (offDiff c) ((← dst (offData c)) * ((← diffDst (offDiff c)) - sbr))) diffSrc

/-- `execute_backward_generic`, with the iterations in the given order. -/
def backwardGeneric (pd : Pd) (order : List (ℕ × ℕ)) (dst diffDst diffSrc : Buffer R) : Option (Buffer R) :=
  order.foldlM (fun diffSrc ouIn => backwardGenericRow pd ouIn dst diffDst diffSrc) diffSrc

end Backward

end MklDnn.RefSoftmax
