import Mathlib.Algebra.BigOperators.Group.Finset.Basic
import Mathlib.Algebra.Order.Ring.Defs
import MklDnn.Memory.Desc
import MklDnn.Reorder.Simple

/-!
# Inner product descriptors

`ip_desc_init`, the sizes that `inner_product_pd_t` derives, and `dense_gemm_consitency_check`, by which the implementations
that call a GEMM accept layouts. The descriptors are those of the source, the weights, the bias and the destination; in the
backward passes some of them describe gradients. The sizes are exact.
-/

namespace MklDnn

/-- `inner_product_pd_t` -/
structure InnerProductPd where
  srcMd : MemoryDesc
  weightsMd : MemoryDesc
  biasMd : MemoryDesc
  dstMd : MemoryDesc

/-- `ip_desc_init` -/
def ipDescInit (srcDesc weightsDesc : MemoryDesc) (biasDesc : Option MemoryDesc) (dstDesc : MemoryDesc) :
    Except Status InnerProductPd :=
  let biasMd := (biasDesc.filter fun md => md.formatKind ≠ .undef).getD zeroMd
  let withBias := biasDesc.any fun md => md.formatKind ≠ .undef
  if weightsDesc.nelems false ≠ 0 ∧ srcDesc.ndims ∈ [2, 3, 4, 5] ∧ dstDesc.ndims = 2 ∧ weightsDesc.ndims = srcDesc.ndims ∧
      (withBias = true → biasMd.ndims = 1) ∧ (withBias = true → biasMd.dims 0 = dstDesc.dims 1) ∧
      srcDesc.dims 0 = dstDesc.dims 0 ∧ (∀ d < srcDesc.ndims - 1, srcDesc.dims (d + 1) = weightsDesc.dims (d + 1)) ∧
      dstDesc.dims 1 = weightsDesc.dims 0 then
    .ok ⟨srcDesc, weightsDesc, biasMd, dstDesc⟩
  else .error .invalidArguments

namespace InnerProductPd

variable (pd : InnerProductPd)

def ndims : ℕ := pd.srcMd.ndims

def MB : ℕ := pd.srcMd.dims 0

def IC : ℕ := pd.srcMd.dims 1

def OC : ℕ := pd.dstMd.dims 1

def KD : ℕ := if 5 ≤ pd.ndims then pd.weightsMd.dims (pd.ndims - 3) else 1

def KH : ℕ := if 4 ≤ pd.ndims then pd.weightsMd.dims (pd.ndims - 2) else 1

def KW : ℕ := if 3 ≤ pd.ndims then pd.weightsMd.dims (pd.ndims - 1) else 1

/-- `IC_total_padded` -/
def icTotalPadded : ℕ := ((List.range' 1 (pd.ndims - 1)).map pd.srcMd.paddedDims).prod

def withBias : Bool := !pd.biasMd.isZero

def hasZeroDimMemory : Bool := pd.srcMd.hasZeroDim || pd.dstMd.hasZeroDim

end InnerProductPd

/-! ## The check of the layouts -/

/-- A division of the source, which is undefined for a divisor of zero. -/
def quotient (a b : ℤ) : Option ℤ := if b = 0 then none else some (a.tdiv b)

namespace DenseGemmConsitencyCheck

variable (srcD weiD dstD : MemoryDesc)

/-- The lambda `strides_compatible`. A condition that is false ends the comparisons. -/
def stridesCompatible : Option Bool := do
  let wStr := weiD.blocking.strides
  let dStr := srcD.blocking.strides
  let ok ← (List.range' 1 (srcD.ndims - 2)).foldlM (fun ok i =>
    if ok then do
      let q ← quotient (wStr i) (dStr i)
      let q' ← quotient (wStr (i + 1)) (dStr (i + 1))
      return decide (q = q')
    else return false) true
  if ok then do
    let q ← quotient (wStr 1) (dStr 1)
    return decide (q = 1 ∨ q = weiD.paddedDims 0)
  else return false

/-- The lambda `inner_blk_compatible`. -/
def innerBlkCompatible : Option Bool :=
  let d := srcD.blocking.inner
  let w := weiD.blocking.inner
  match w.getLast? with
  | some last =>
    if weiD.blocking.strides 0 = 1 then do
      let q ← quotient (weiD.dims 0) last.blk
      return decide (q = 1 ∧ last.idx = 0 ∧ d = w.dropLast)
    else return decide (d = w)
  | none => return decide (d = w)

end DenseGemmConsitencyCheck

open DenseGemmConsitencyCheck in
/-- `dense_gemm_consitency_check`; none stands for a division by zero. -/
def denseGemmConsitencyCheck (srcD weiD dstD : MemoryDesc) : Option Bool := do
  if !(srcD.isBlockingDesc && weiD.isBlockingDesc && decide (srcD.ndims = weiD.ndims)) then return false
  if !(← innerBlkCompatible srcD weiD) then return false
  if !(← stridesCompatible srcD weiD) then return false
  return dstD.matchesTag .ab && srcD.onlyPaddedDim 1 && weiD.onlyPaddedDim 1 &&
    decide (srcD.paddedDims 1 = weiD.paddedDims 1) && srcD.isDense true && dstD.isDense false && weiD.isDense true

end MklDnn

/-!
## Reference inner product

`ref_inner_product_fwd_t`, `ref_inner_product_bwd_data_t` and `ref_inner_product_bwd_weights_t`: the value of every element
that they store, in exact arithmetic. Every element is addressed through the descriptor of its tensor.
-/

namespace MklDnn

namespace RefInnerProduct

variable (pd : InnerProductPd) {R : Type*} [CommSemiring R]

/-- The loops over `ic`, `kd`, `kh` and `kw`: the indices of an element of an image, and of an element of the weights of one
output channel. -/
def taps : List (List ℕ) :=
  if pd.ndims ∈ [3, 4, 5] then
    (List.range pd.IC).flatMap fun ic => (List.range pd.KD).flatMap fun kd => (List.range pd.KH).flatMap fun kh =>
      (List.range pd.KW).map fun kw =>
        if pd.ndims = 5 then [ic, kd, kh, kw] else if pd.ndims = 4 then [ic, kh, kw] else [ic, kw]
  else (List.range pd.IC).map fun ic => [ic]

/-- `ker_has_spatial` and `ker_no_spatial` -/
def ker (src weights : ℤ → R) (mb oc : ℕ) : R :=
  ((taps pd).map fun tap => src (pd.srcMd.off (mb :: tap)) * weights (pd.weightsMd.off (oc :: tap))).sum

/-- `execute_forward`: the value ahead of the post-operations. -/
def forward (src weights bias : ℤ → R) (mb oc : ℕ) : R :=
  (if pd.withBias then bias (pd.biasMd.off [oc]) else 0) + ker pd src weights mb oc

/-- `execute_backward_data`: the value of the element `tap` of the image `mb`. -/
def backwardData (diffDst weights : ℤ → R) (mb : ℕ) (tap : List ℕ) : R :=
  ∑ oc ∈ Finset.range pd.OC, diffDst (pd.dstMd.off [mb, oc]) * weights (pd.weightsMd.off (oc :: tap))

/-- `execute_backward_weights`: the value of the element `tap` of the output channel `oc`. -/
def backwardWeights (diffDst src : ℤ → R) (oc : ℕ) (tap : List ℕ) : R :=
  ∑ mb ∈ Finset.range pd.MB, diffDst (pd.dstMd.off [mb, oc]) * src (pd.srcMd.off (mb :: tap))

/-- `execute_backward_weights`: the value of `diff_bias[oc]`. -/
def backwardBias (diffDst : ℤ → R) (oc : ℕ) : R :=
  ∑ mb ∈ Finset.range pd.MB, diffDst (pd.dstMd.off [mb, oc])

end RefInnerProduct

end MklDnn
