import Mathlib.Data.ZMod.Defs
import MklDnn.Common.Threading
import MklDnn.Conv.Forward
import MklDnn.InnerProduct.InnerProductPd

/-!
# Inner product by GEMM

`gemm_inner_product_fwd_t`, `gemm_inner_product_bwd_data_t` and `gemm_inner_product_bwd_weights_t` for `f32`, and
`gemm_x8s8s32x_inner_product_fwd_t`. The GEMM computes its specification: over a commutative semiring for `f32`, modulo
`2 ^ 32` for `int8`. The pointers that a pass hands to the GEMM are those of the tensors, without the initial offset of their
descriptors unless the source adds it.
-/

open Interleaving

namespace MklDnn

/-- The transpositions, sizes and leading dimensions of a call of a GEMM on matrices stored column by column. -/
structure GemmArgs where
  transa : Bool
  transb : Bool
  m : ℕ
  n : ℕ
  k : ℕ
  lda : ℕ
  ldb : ℕ
  ldc : ℕ

namespace GemmArgs

variable (g : GemmArgs)

/-- Where the element `i, p` of `op(A)` is read. -/
def aOff (i p : ℕ) : ℕ := if g.transa then p + i * g.lda else i + p * g.lda

/-- Where the element `p, j` of `op(B)` is read. -/
def bOff (p j : ℕ) : ℕ := if g.transb then j + p * g.ldb else p + j * g.ldb

/-- Where the element `i, j` of `C` is written. -/
def cOff (i j : ℕ) : ℕ := i + j * g.ldc

/-- `extended_sgemm` on the buffers `a` and `b`. -/
def sgemm {R : Type*} [CommSemiring R] (a b : ℤ → R) (beta : R) : List (Assign ℤ R) :=
  extendedSgemm g.transa g.transb g.m g.n g.k (fun i => a i) g.lda (fun i => b i) g.ldb beta (fun i => (i : ℤ)) g.ldc

end GemmArgs

/-! ## The post-processing -/

/-- `inner_product_utils::pp_kernel_t`: the operations that the primitive needs, on accumulators of type `Acc` and a
destination of type `Dst`. -/
structure PpKernel (Acc Old F Dst : Type*) where
  /-- The conversion of an accumulator to `float`. -/
  cvt : Acc → F
  add : F → F → F
  mul : F → F → F
  /-- `bias[oc]` -/
  bias : Option (ℕ → F)
  /-- `scales[oc * scale_idx_mult_]` -/
  scale : Option (ℕ → F)
  /-- The previous value of the destination times `sum_scale_`. -/
  sum : Option (Old → F)
  eltwise : Option (F → F)
  /-- `qz_a1b0` -/
  qz : F → Dst

namespace PpKernel

variable {Acc Old F Dst : Type*} (pp : PpKernel Acc Old F Dst)

/-- The body of the loop. -/
def element (oc : ℕ) (acc : Acc) (old : Old) : Dst :=
  let d := pp.cvt acc
  let d := match pp.bias with
    | some bias => pp.add d (bias oc)
    | none => d
  let d := match pp.scale with
    | some scale => pp.mul d (scale oc)
    | none => d
  let d := match pp.sum with
    | some sum => pp.add d (sum old)
    | none => d
  pp.qz (match pp.eltwise with
    | some eltwise => eltwise d
    | none => d)

end PpKernel

/-- The values of `i` and `oc` in the loop of `pp_kernel_t`, for `n` iterations. -/
def ppIters (OC : ℕ) : ℕ → ℕ → ℕ → List (ℕ × ℕ)
  | 0, _, _ => []
  | n + 1, i, oc => (i, oc) :: ppIters OC n (i + 1) (if oc = OC - 1 then 0 else oc + 1)

/-- The iterations of thread `ithr`. -/
def ppThread (OC MB nthr ithr : ℕ) : List (ℕ × ℕ) :=
  if ithr < nthr then
    let r := balance211 (OC * MB) nthr ithr
    ppIters OC (r.2 - r.1) r.1 (r.1 % OC)
  else []

namespace InnerProductPd

variable (pd : InnerProductPd)

/-- `wei_tr` of the forward passes. -/
def weiTr : Bool := pd.weightsMd.blocking.strides 0 ≠ 1

section F32

variable {R : Type*} [CommSemiring R]

/-! ## Forward, `f32` -/

/-- The post-operations that `post_ops_ok` lets through. -/
structure PostOps (R : Type*) where
  sumScale : Option R
  eltwise : Option (R → R)

/-- The call of `extended_sgemm` in `execute_forward`. Its bias is a null pointer: with a bias, the post-processing adds it. -/
def fwdGemm : GemmArgs where
  transa := pd.weiTr
  transb := false
  m := pd.OC
  n := pd.MB
  k := pd.icTotalPadded
  lda := if pd.weiTr then pd.icTotalPadded else pd.OC
  ldb := pd.icTotalPadded
  ldc := pd.OC

/-- `beta_` -/
def beta (po : PostOps R) : R := po.sumScale.getD 0

/-- `postops_in_ip_` -/
def postopsInIp (po : PostOps R) : Bool := pd.withBias || po.eltwise.isSome

/-- `pp_kernel_`, with `skip_sum`. -/
def ppKernel (po : PostOps R) (bias : ℤ → R) : PpKernel R R R R where
  cvt := id
  add := (· + ·)
  mul := (· * ·)
  bias := if pd.withBias then some fun oc => bias oc else none
  scale := none
  sum := none
  eltwise := po.eltwise
  qz := id

/-- `execute_forward`: the call of the GEMM. -/
def executeForwardGemm (po : PostOps R) (src weights : ℤ → R) : List (Assign ℤ R) := pd.fwdGemm.sgemm weights src (beta po)

/-- `execute_forward`: the post-processing of thread `ithr`. -/
def executeForwardPp (po : PostOps R) (bias : ℤ → R) (nthr ithr : ℕ) : List (Assign ℤ R) :=
  if pd.postopsInIp po then
    (ppThread pd.OC pd.MB nthr ithr).map fun it =>
      ⟨it.1, fun mem => (pd.ppKernel po bias).element it.2 (mem it.1) (mem it.1)⟩
  else []

/-! ## Backward by data -/

/-- The call of `extended_sgemm` in `execute_backward_data`. -/
def bwdDataGemm : GemmArgs where
  transa := !pd.weiTr
  transb := false
  m := pd.icTotalPadded
  n := pd.MB
  k := pd.OC
  lda := if !pd.weiTr then pd.OC else pd.icTotalPadded
  ldb := pd.OC
  ldc := pd.icTotalPadded

/-- `execute_backward_data` -/
def executeBackwardData (weights diffDst : ℤ → R) : List (Assign ℤ R) := pd.bwdDataGemm.sgemm weights diffDst 0

/-! ## Backward by weights -/

/-- The call of `extended_sgemm` in `execute_backward_weights`. -/
def bwdWeightsGemm : GemmArgs :=
  if !pd.weiTr then ⟨false, true, pd.OC, pd.icTotalPadded, pd.MB, pd.OC, pd.icTotalPadded, pd.OC⟩
  else ⟨false, true, pd.icTotalPadded, pd.OC, pd.MB, pd.icTotalPadded, pd.OC, pd.icTotalPadded⟩

/-- `diff_dst`, once the source has added the initial offset of its descriptor. -/
def shiftedDiffDst (diffDst : ℤ → R) (i : ℤ) : R := diffDst (pd.dstMd.offset0 + i)

/-- `execute_backward_weights`: the call of the GEMM. -/
def executeBackwardWeights (src diffDst : ℤ → R) : List (Assign ℤ R) :=
  if !pd.weiTr then pd.bwdWeightsGemm.sgemm (pd.shiftedDiffDst diffDst) src 0
  else pd.bwdWeightsGemm.sgemm src (pd.shiftedDiffDst diffDst) 0

/-- The loops over `mb` and `oc` that sum `diff_bias` from `ocSt` on. -/
def diffBiasLoops (diffDst : ℤ → R) (ocSt ocE : ℕ) : List (Assign ℤ R) :=
  let at' := fun oc : ℕ => pd.biasMd.offset0 + oc
  let diffDst := pd.shiftedDiffDst diffDst
  ((List.range' ocSt (ocE - ocSt)).map fun oc => Assign.set (at' oc) (diffDst oc)) ++
    (List.range' 1 (pd.MB - 1)).flatMap fun mb =>
      (List.range' ocSt (ocE - ocSt)).map fun oc => Assign.add (at' oc) (diffDst (mb * pd.OC + oc : ℕ))

/-- `execute_backward_weights`: the part of `diff_bias` that thread `ithr` computes. -/
def executeBackwardBias (diffDst : ℤ → R) (nthr ithr : ℕ) : List (Assign ℤ R) :=
  if pd.withBias ∧ ithr < nthr then
    let blksize := 8
    let ocBlocks := pd.OC / blksize
    let r := balance211 ocBlocks nthr ithr
    pd.diffBiasLoops diffDst (r.1 * blksize) (r.2 * blksize) ++
      if pd.OC % blksize ≠ 0 ∧ ithr = nthr - 1 then pd.diffBiasLoops diffDst (ocBlocks * blksize) pd.OC else []
  else []

end F32

/-! ## Forward, `int8` -/

/-- The buffers of the `int8` pass: the destination, and the accumulators in the scratchpad. -/
inductive Int8Buf where
  | dst (i : ℤ)
  | acc (i : ℤ)
  deriving DecidableEq

/-- What the `int8` pass stores: an accumulator, or a value of the type of the destination. -/
inductive Int8Cell (D : Type*) where
  | acc (a : ZMod (2 ^ 32))
  | val (d : D)

/-- The accumulator that a cell holds. -/
def Int8Cell.toAcc {D : Type*} : Int8Cell D → ZMod (2 ^ 32)
  | .acc a => a
  | .val _ => 0

section Int8

variable {D F : Type*}

/-- The attributes: the operations of `pp_kernel_` except for the bias. -/
structure Int8Attr (D F : Type*) where
  cvt : ZMod (2 ^ 32) → F
  add : F → F → F
  mul : F → F → F
  scale : Option (ℕ → F)
  sum : Option (Int8Cell D → F)
  eltwise : Option (F → F)
  qz : F → D

/-- `attr()->has_default_values()` -/
def Int8Attr.hasDefaultValues (attr : Int8Attr D F) : Bool :=
  attr.scale.isNone && attr.sum.isNone && attr.eltwise.isNone

/-- `dst_is_acc_` -/
def dstIsAcc (attr : Int8Attr D F) : Bool := (pd.dstMd.dataType = .s32 ∨ pd.dstMd.dataType = .f32) ∧ attr.sum.isNone

/-- `acc` -/
def accBuf (attr : Int8Attr D F) (i : ℤ) : Int8Buf := if pd.dstIsAcc attr then .dst i else .acc i

/-- `execute_forward`: the call of `gemm_s8x8s32`, which has the arguments of the `f32` pass. -/
def int8Gemm (attr : Int8Attr D F) (src weights : ℤ → ℤ) : List (Assign Int8Buf (Int8Cell D)) :=
  let g := pd.fwdGemm
  (List.range g.n).flatMap fun j => (List.range g.m).map fun i =>
    Assign.set (pd.accBuf attr (g.cOff i j))
      (.acc ((∑ p ∈ Finset.range g.k, weights (g.aOff i p) * src (g.bOff p j) : ℤ) : ZMod (2 ^ 32)))

/-- `pp_kernel_` -/
def int8PpKernel (attr : Int8Attr D F) (bias : ℤ → F) : PpKernel (ZMod (2 ^ 32)) (Int8Cell D) F D where
  cvt := attr.cvt
  add := attr.add
  mul := attr.mul
  bias := if pd.withBias then some fun oc => bias oc else none
  scale := attr.scale
  sum := attr.sum
  eltwise := attr.eltwise
  qz := attr.qz

/-- `execute_forward`: the post-processing of thread `ithr`. -/
def int8Pp (attr : Int8Attr D F) (bias : ℤ → F) (nthr ithr : ℕ) : List (Assign Int8Buf (Int8Cell D)) :=
  if !attr.hasDefaultValues || !pd.dstIsAcc attr || pd.withBias then
    let nthr := if pd.MB * pd.OC < 2000 then 1 else nthr
    (ppThread pd.OC pd.MB nthr ithr).map fun it =>
      ⟨.dst it.1, fun mem =>
        .val ((pd.int8PpKernel attr bias).element it.2 (mem (pd.accBuf attr it.1)).toAcc (mem (.dst it.1)))⟩
  else []

end Int8

end InnerProductPd

end MklDnn
