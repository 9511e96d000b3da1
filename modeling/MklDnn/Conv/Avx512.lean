import Mathlib.Data.Int.Notation
import Mathlib.Order.Defs.LinearOrder
import MklDnn.Common.Threading
import MklDnn.Lib.SteppedLoops
import MklDnn.Memory.Desc
import MklDnn.Memory.Offset

/-!
# The AVX-512 convolutions: what the drivers share

The calls of the generated code and the pipelines that delay them, so that a call knows the pointers of the next one.
-/

namespace MklDnn.Avx512

/-- The processors with AVX-512, as `mayiuse` tells them apart. -/
inductive CpuIsa where
  | avx512Common | avx512Core | avx512Mic | avx512Mic4ops
  deriving DecidableEq

/-- `mayiuse(avx512_core)` -/
def CpuIsa.isCore (isa : CpuIsa) : Bool := isa = .avx512Core

/-- `mayiuse(avx512_mic_4ops)` -/
def CpuIsa.isMic4ops (isa : CpuIsa) : Bool := isa = .avx512Mic4ops

/-- `mayiuse(avx512_mic)` -/
def CpuIsa.isMic (isa : CpuIsa) : Bool := isa = .avx512Mic || isa.isMic4ops

/-- `conv_version_t` -/
inductive ConvVersion where
  | verFma | ver4fma
  deriving DecidableEq

/-- `conv_loop_order_t` -/
inductive LoopOrder where
  | cgn | gnc | gncw | cwgn
  deriving DecidableEq

/-- `conv_kernel_kind_t` -/
inductive KernelKind where
  | embdBcast | explBcast
  deriving DecidableEq

/-- `utils::div_up` on `int` -/
def divUpZ (a b : ℤ) : ℤ := (a + b - 1).tdiv b

/-- `small_spatial` -/
def smallSpatial : ℕ := 14

/-- `KNx_L2_EFFECTIVE_CAPACITY` -/
def knxL2EffectiveCapacity : ℕ := (512 - 64) * 1024

/-- The fields of `jit_conv_call_s` that a call of the generated code reads. The pointers are offsets into the tensors; a
null pointer is `none`. -/
structure KernelCall where
  src : Option ℤ
  dst : ℤ
  filt : ℤ
  bias : Option ℤ
  channel : ℤ
  khPadding : ℤ
  kdPadding : ℤ
  owb : ℤ
  deriving DecidableEq

/-- A call of which all fields are zero. -/
def KernelCall.zero : KernelCall := ⟨none, 0, 0, none, 0, 0, 0, 0⟩

/-- `jit_conv_call_s`: each field has a copy for the next call, whose name ends in `_prf`. -/
structure CallS where
  cur : KernelCall
  prf : KernelCall

/-- `jit_conv_call_s()` -/
def CallS.init : CallS := ⟨KernelCall.zero, KernelCall.zero⟩

/-- The pipelines: the state afterwards, and the call of the generated code if there is one. `kd` and `owb` tell whether
the fields `kd_padding` and `owb` take part. -/
def pipeline (kd owb : Bool) (p : CallS) (args : KernelCall) : CallS × List KernelCall :=
  let p : CallS :=
    ⟨{ p.prf with
        kdPadding := if kd then p.prf.kdPadding else p.cur.kdPadding
        owb := if owb then p.prf.owb else p.cur.owb },
      { args with
        kdPadding := if kd then args.kdPadding else p.prf.kdPadding
        owb := if owb then args.owb else p.prf.owb }⟩
  (p, if p.cur.src.isSome then [p.cur] else [])

/-- `jit_conv_ker_pipeline` -/
def jitConvKerPipeline : CallS → KernelCall → CallS × List KernelCall := pipeline false false

/-- `jit_conv_ker_pipeline_ow_thr` -/
def jitConvKerPipelineOwThr : CallS → KernelCall → CallS × List KernelCall := pipeline false true

/-- `jit_conv_3d_ker_pipeline` -/
def jitConv3dKerPipeline : CallS → KernelCall → CallS × List KernelCall := pipeline true false

/-- `jit_conv_3d_ker_pipeline_ow_thr` -/
def jitConv3dKerPipelineOwThr : CallS → KernelCall → CallS × List KernelCall := pipeline true true

/-- A run of a pipeline. -/
def runPipeline (f : CallS → KernelCall → CallS × List KernelCall) : CallS → List KernelCall → CallS × List KernelCall
  | p, [] => (p, [])
  | p, args :: rest =>
    let step := f p args
    let run := runPipeline f step.1 rest
    (run.1, step.2 ++ run.2)

/-- The calls of the generated code on a thread: the pipeline `f` runs over the arguments, then `flush` is called once. -/
def pipelinedCalls (f flush : CallS → KernelCall → CallS × List KernelCall) (args : List KernelCall) (last : KernelCall) :
    List KernelCall :=
  let run := runPipeline f CallS.init args
  run.2 ++ (flush run.1 last).2

end MklDnn.Avx512

/-!
## The AVX-512 convolution, backward by data

`jit_avx512_common_convolution_bwd_data_t` for `f32`: its configuration, the drivers for four and five dimensions, and the
rows of the filter and of `diff_dst` that the generated code walks through.
-/

open LoopNest

namespace MklDnn.Avx512BwdData

open Avx512

/-! ## One spatial dimension -/

/-- A spatial dimension: the extents of `diff_src`, `diff_dst` and the filter, and the parameters of the convolution. -/
structure Axis where
  input : ℕ
  output : ℕ
  kernel : ℕ
  pad : ℕ
  stride : ℕ
  dilate : ℕ

/-- `k_len`, `k_lo` and `oj`, in the depth `d_len`, `d_lo` and `d_oj`. -/
structure Window where
  len : ℤ
  lo : ℤ
  oj : ℤ

namespace Axis

variable (a : Axis)

/-- `b_pad`, in the depth `back_pad`. -/
def endPad : ℤ := (a.output - 1 : ℤ) * a.stride + (a.kernel - 1 : ℤ) * (a.dilate + 1) - (a.input + a.pad - 1)

/-- The branch `is_fast_path`: `dilate == 0 && stride == 1`. -/
def denseWindow (ij : ℤ) : Window :=
  let iTOverflow := max 0 (a.kernel - 1 - ij - a.pad)
  let iBOverflow := max 0 (a.kernel - a.input + ij - a.endPad)
  ⟨a.kernel - iTOverflow - iBOverflow, iBOverflow, ij + a.pad - iBOverflow⟩

/-- The branch for dilated filters: `stride == 1`. -/
def dilatedWindow (ij : ℤ) : Window :=
  let dilate : ℤ := a.dilate + 1
  let iTOverflow := divUpZ (max 0 ((a.kernel - 1) * dilate - ij - a.pad)) dilate
  let iBOverflow := divUpZ (max 0 ((a.kernel - 1) * dilate + 1 - a.input + ij - a.endPad)) dilate
  ⟨a.kernel - iTOverflow - iBOverflow, iBOverflow, ij + a.pad - iBOverflow * dilate⟩

/-- The branch for strides: `dilate == 0`. -/
def stridedWindow (ij : ℤ) : Window :=
  let iTOverflow := max 0 ((a.kernel - 1 - ij - a.pad).tdiv a.stride)
  let iBOverflow := max 0 ((a.kernel - a.input + ij - a.endPad).tdiv a.stride)
  let overflowHi : ℤ := a.kernel - 1 - |(a.input - 1 + a.endPad - ij).tmod a.stride|
  let overflowLo := (ij + a.pad).tmod a.stride
  let kLo := overflowLo + iBOverflow * a.stride
  ⟨(overflowHi - overflowLo).tdiv a.stride + 1 - iTOverflow - iBOverflow, kLo, (ij + a.pad - kLo).tdiv a.stride⟩

/-- The window of the input row or depth `ij`. -/
def window (ij : ℤ) : Window :=
  if a.dilate = 0 ∧ a.stride = 1 then a.denseWindow ij
  else if a.dilate ≠ 0 then a.dilatedWindow ij
  else a.stridedWindow ij

end Axis

/-! ## The configuration -/

/-- What `init_conf` reads: the fields of the convolution descriptor, and the memory descriptors. -/
structure Problem where
  strides : ℕ → ℤ
  dilates : ℕ → ℤ
  /-- `padding[0]` -/
  paddingL : ℕ → ℤ
  diffSrcD : MemoryDesc
  weightsD : MemoryDesc
  diffDstD : MemoryDesc

/-- The fields of `jit_conv_conf_t` that are chosen. -/
structure Jcp where
  ver : ConvVersion
  kernelKind : KernelKind
  loopOrder : LoopOrder
  nbIcBlocking : ℕ
  nbOcL2 : ℕ

namespace Problem

variable (p : Problem)

def ndims : ℕ := p.diffSrcD.ndims

def withGroups : Bool := p.weightsD.ndims = p.ndims + 1

/-- `with_groups` as a number of dimensions. -/
def groupDims : ℕ := if p.withGroups then 1 else 0

def ngroups : ℕ := if p.withGroups then p.weightsD.dims 0 else 1

def mb : ℕ := p.diffSrcD.dims 0

def okToPadChannels : Bool := p.ngroups = 1 && p.diffSrcD.dataType = .f32

def oc : ℕ :=
  let oc := p.diffDstD.dims 1 / p.ngroups
  if p.okToPadChannels then rndUp oc 16 else oc

def ic : ℕ :=
  let ic := p.diffSrcD.dims 1 / p.ngroups
  if p.okToPadChannels then rndUp ic 16 else ic

def nbIc : ℕ := p.ic / 16

def nbOc : ℕ := p.oc / 16

def depth : Axis :=
  if p.ndims = 5 then
    ⟨p.diffSrcD.dims 2, p.diffDstD.dims 2, p.weightsD.dims (p.groupDims + 2), (p.paddingL 0).toNat, (p.strides 0).toNat,
      (p.dilates 0).toNat⟩
  else ⟨1, 1, 1, 0, 1, 0⟩

def height : Axis :=
  if p.ndims = 3 then ⟨1, 1, 1, 0, 1, 0⟩
  else
    ⟨p.diffSrcD.dims (p.ndims - 2), p.diffDstD.dims (p.ndims - 2), p.weightsD.dims (p.groupDims + p.ndims - 2),
      (p.paddingL (p.ndims - 4)).toNat, (p.strides (p.ndims - 4)).toNat, (p.dilates (p.ndims - 4)).toNat⟩

def width : Axis :=
  ⟨p.diffSrcD.dims (p.ndims - 1), p.diffDstD.dims (p.ndims - 1), p.weightsD.dims (p.groupDims + p.ndims - 1),
    (p.paddingL (p.ndims - 3)).toNat, (p.strides (p.ndims - 3)).toNat, (p.dilates (p.ndims - 3)).toNat⟩

/-- `dat_tag` -/
def datTag : FormatTag := if p.ndims = 3 then .aBc16b else if p.ndims = 4 then .aBcd16b else .aBcde16b

/-- `wei_tag` -/
def weiTag : FormatTag :=
  if p.withGroups then if p.ndims = 3 then .aBCd16b16c else if p.ndims = 4 then .aBCde16b16c else .aBCdef16b16c
  else if p.ndims = 3 then .ABc16a16b else if p.ndims = 4 then .ABcd16a16b else .ABcde16a16b

/-- `ver` -/
def ver (isa : CpuIsa) : ConvVersion :=
  if isa.isMic4ops ∧ p.width.stride = 1 ∧ p.height.stride = 1 ∧ p.depth.stride = 1 then .ver4fma else .verFma

/-- `regs` -/
def regs : ℕ := 28

/-- `ur_w` ahead of the heuristics: a multiple of the stride. -/
def urW : ℕ :=
  if p.width.input ≤ regs then p.width.input
  else (((List.range regs).map (regs - ·)).find? fun urW => urW % p.width.stride = 0).getD p.width.stride

/-- `(kw - 1) * (dilate_w + 1)` -/
def extW : ℤ := (p.width.kernel - 1 : ℤ) * (p.width.dilate + 1)

def lOverflow : ℤ := max 0 ((p.extW - p.width.pad).tdiv p.width.stride)

/-- `r_overflow1`, and `r_overflow_no_tail`, for the tail `tail`. -/
def rOverflow (tail : ℕ) : ℤ := max 0 ((p.extW - max 0 p.width.endPad - tail).tdiv p.width.stride)

/-- `n_oi` -/
def nOi : ℤ := (p.width.input / p.urW : ℕ) - if 0 < p.rOverflow (p.width.input % p.urW) then 1 else 0

/-- `large_code_size`, and `ur_w` after that heuristic. The limit is `24 * 1024` for a factor `9.2`. -/
def urWForCodeSize : ℕ :=
  let lOverflow := p.lOverflow
  let rOverflow1 := p.rOverflow (p.width.input % p.urW)
  let largeCodeSize := p.urW ≠ p.width.output ∧ (lOverflow ≤ 0 ∧ 0 < p.nOi ∨ 0 < lOverflow ∧ 1 < p.nOi) ∧
    0 < rOverflow1 ∧ 0 < lOverflow
  if largeCodeSize then
    let numOpsPerReg := 6 + 16 * p.width.kernel
    let mult := 1 + (if 0 < lOverflow then 1 else 0) + if 0 < rOverflow1 then 1 else 0
    let fits := fun urW => urW / p.width.stride * mult * numOpsPerReg * 92 < 24 * 1024 * 10
    (((List.range (p.urW - regs / 2)).map (p.urW - ·)).find? fun urW => fits urW ∧ urW % p.width.stride = 0).getD p.urW
  else p.urW

/-- `nb_ic_blocking` of the kernel with the instructions `4fma`. -/
def nbIcBlocking4fma : ℕ :=
  if p.width.kernel = 3 ∧ p.height.kernel = 3 ∧ p.width.input = 7 ∧ p.height.input = 7 then 2
  else (((List.range p.nbIc).map (p.nbIc - ·)).find? fun i => i * p.urW ≤ regs ∧ p.nbIc % i = 0).getD 1

/-- `ker_total_size` -/
def kerTotalSize : ℕ :=
  4 * p.width.input * 16 * 2 * p.height.kernel + 4 * p.width.output * 16 +
    4 * p.height.kernel * p.width.kernel * 16 * 16 * 2

/-- Whether the kernel for `avx512_core` broadcasts from memory. -/
def wantsEmbdBcast (l1CacheSize : ℕ) : Bool :=
  let kw := p.width.kernel
  let iw := p.width.input
  !(kw = 1 || (kw = 5 && iw < 8) || (kw < 5 && ((iw ≤ 5 || (iw > 8 && iw ≤ 13)) || p.kerTotalSize > l1CacheSize)))
    || p.height.stride > 1 || p.depth.stride > 1

/-- Whether the kernel that broadcasts from memory leaves registers for two blocks of input channels. -/
def prefersOneBlock (l1CacheSize : ℕ) : Bool :=
  p.width.kernel > 3 || (p.width.kernel = 3 && p.kerTotalSize < l1CacheSize && p.width.output > 8)

/-- `nb_ic_blocking`, `kernel_kind` and `ur_w` -/
structure Blocking where
  nbIcBlocking : ℕ
  kernelKind : KernelKind
  urW : ℕ

/-- The branch `ver == ver_fma && mayiuse(avx512_core)`. -/
def coreBlocking (l1CacheSize : ℕ) : Blocking :=
  if p.wantsEmbdBcast l1CacheSize then
    if !p.prefersOneBlock l1CacheSize ∧ p.height.stride = 1 ∧ p.nbIc % 2 = 0 then
      ⟨2, .embdBcast, min p.width.input (31 / (2 + 1))⟩
    else ⟨1, .embdBcast, min p.width.input regs⟩
  else
    let nb := if p.nbIc < 4 then p.nbIc else 4
    let nb := if p.nbIc % nb ≠ 0 then (((List.range nb).map (nb - ·)).find? fun i => p.nbIc % i = 0).getD nb else nb
    ⟨nb, .explBcast, min p.width.input (31 / (nb + 1))⟩

def blocking (isa : CpuIsa) (l1CacheSize : ℕ) : Blocking :=
  if p.ver isa = .verFma ∧ isa.isCore then p.coreBlocking l1CacheSize
  else ⟨if p.ver isa = .ver4fma then p.nbIcBlocking4fma else 1, .embdBcast, p.urWForCodeSize⟩

/-- `pick_loop_order` -/
def pickLoopOrder : LoopOrder :=
  if p.width.input ≤ smallSpatial ∧ p.height.input ≤ smallSpatial then .cgn else .gnc

/-- `4 * (l2_src + l2_dst + l2_filt)` -/
def l2Size (nbIcBlocking tempNb : ℕ) : ℕ :=
  let l2Src := p.width.input * 16 * nbIcBlocking * p.height.input * p.depth.input
  let l2Dst := p.width.output * 16 * tempNb * p.height.output * p.depth.output
  let l2Filt := p.width.kernel * 16 * 16 * p.height.kernel * p.depth.kernel * nbIcBlocking * tempNb
  4 * (l2Src + l2Dst + l2Filt)

/-- The loop that chooses `nb_oc_L2`: the loop counter is `divf`. -/
def nbOcL2Loop (nbIcBlocking : ℕ) : ℕ → ℕ → ℕ → ℕ
  | 0, _, _ => p.nbOc
  | fuel + 1, divf, tempNb =>
    if p.l2Size nbIcBlocking tempNb > knxL2EffectiveCapacity then
      if p.height.kernel = 3 ∧ p.height.input = 7 then 1
      else nbOcL2Loop nbIcBlocking fuel (divf + 1) (if p.nbOc % divf = 0 then p.nbOc / divf else p.nbOc)
    else tempNb

def nbOcL2 (isa : CpuIsa) (nbIcBlocking : ℕ) : ℕ :=
  if p.ver isa = .ver4fma ∧ p.height.kernel < 5 ∧ p.width.kernel < 5 then
    p.nbOcL2Loop nbIcBlocking (p.nbOc - 1) 2 p.nbOc
  else p.nbOc

/-- `jit_avx512_common_conv_bwd_data_kernel_f32::init_conf`. A problem that is not implemented has no configuration. -/
def initConf (isa : CpuIsa) (l1CacheSize : ℕ) : Option Jcp :=
  let b := p.blocking isa l1CacheSize
  if (p.width.dilate ≠ 0 ∧ p.width.stride ≠ 1) ∨ (p.depth.dilate ≠ 0 ∧ p.depth.stride ≠ 1) ∨
      (p.height.dilate ≠ 0 ∧ p.height.stride ≠ 1) then none
  else if ¬ (p.oc % 16 = 0 ∧ p.ic % 16 = 0 ∧ p.diffSrcD.matchesOneOfTag [p.datTag] = p.datTag ∧
      p.diffDstD.matchesOneOfTag [p.datTag] = p.datTag) then none
  else if ¬ (p.diffDstD.dataType = .f32 ∧ p.weightsD.dataType = .f32 ∧ p.diffSrcD.dataType = .f32) then none
  else if p.weightsD.matchesOneOfTag [p.weiTag] ≠ p.weiTag then none
  else if ¬ (p.depth.dilate = 0 ∧ p.height.dilate = 0 ∧ p.width.dilate = 0) ∧ p.ver isa ≠ .verFma then none
  else if p.lOverflow * p.width.stride > b.urW then none
  else if p.rOverflow (p.width.input % b.urW) * p.width.stride > b.urW then none
  else if p.width.input > b.urW ∧ b.urW % p.width.stride ≠ 0 then none
  else if ¬ (p.ic ≤ p.diffSrcD.paddedDims 1 ∧ p.oc ≤ p.diffDstD.paddedDims 1 ∧
      p.ic ≤ p.weightsD.paddedDims (p.groupDims + 1) ∧ p.oc ≤ p.weightsD.paddedDims (p.groupDims + 0)) then none
  else if (1 + (if 0 < p.lOverflow then 1 else 0) + if 0 < p.rOverflow (p.width.input % p.urW) then 1 else 0) *
      (p.width.kernel * 16 * b.nbIcBlocking * b.urW) * 15 > 256 * 1024 then none
  else some ⟨p.ver isa, b.kernelKind, p.pickLoopOrder, b.nbIcBlocking, p.nbOcL2 isa b.nbIcBlocking⟩

end Problem

/-! ## The generated code -/

/-- The loops that `compute_loop` chooses from. -/
inductive ComputeLoop where
  | computeLoop4fma | computeLoopFma | computeLoopFmaCore
  deriving DecidableEq

/-- `compute_loop` -/
def Jcp.computeLoop (jcp : Jcp) (isa : CpuIsa) : ComputeLoop :=
  if jcp.ver = .ver4fma then .computeLoop4fma
  else if isa.isMic then .computeLoopFma
  else if jcp.kernelKind = .embdBcast ∧ jcp.nbIcBlocking = 1 then .computeLoopFma
  else .computeLoopFmaCore

/-- The steps of the filter and of `diff_dst` from a row to the next one, in rows. -/
def ComputeLoop.steps (loop : ComputeLoop) (a : Axis) : ℕ × ℕ :=
  match loop with
  | .computeLoop4fma => (1, 1)
  | .computeLoopFma => (a.stride, a.dilate + 1)
  | .computeLoopFmaCore => (1, a.dilate + 1)

/-- The loop over the rows or over the depths: the filter goes forward, `diff_dst` backward. -/
def walk (len filt dst filtStep dstStep : ℤ) : List (ℤ × ℤ) :=
  (List.range len.toNat).map fun t : ℕ => (filt + t * filtStep, dst - t * dstStep)

namespace Problem

variable (p : Problem) (jcp : Jcp) (isa : CpuIsa)

/-- The start of the row of `diff_src` that a call stores for the block `k` of input channels. -/
def storedRow (c : KernelCall) (k : ℕ) : Option ℤ :=
  c.src.map fun src => src + (k * p.height.input * p.width.input * p.depth.input : ℕ) * 16

/-- The rows of the filter and of `diff_dst` that a call multiplies for the block `k` of input channels. -/
def walkedRows (c : KernelCall) (k : ℕ) : List (ℤ × ℤ) :=
  let loop := jcp.computeLoop isa
  let rows := fun x : ℤ × ℤ =>
    let steps := loop.steps p.height
    walk c.khPadding (x.1 + (k * p.height.kernel * p.width.kernel * p.depth.kernel : ℕ) * (16 * 16)) x.2
      ((steps.1 * p.width.kernel : ℕ) * (16 * 16)) ((steps.2 * p.width.output : ℕ) * 16)
  -- `compute_loop` leaves the accumulators zero when there is no depth or no row
  if (p.ndims = 5 ∧ c.kdPadding ≤ 0) ∨ c.khPadding ≤ 0 then []
  -- this loop has accumulators for one block only
  else if loop = .computeLoopFma ∧ k ≠ 0 then []
  else if p.ndims = 5 then
    let steps := loop.steps p.depth
    (walk c.kdPadding c.filt c.dst ((steps.1 * p.width.kernel * p.height.kernel : ℕ) * (16 * 16))
      ((steps.2 * (p.height.output * p.width.output) : ℕ) * 16)).flatMap rows
  else rows (c.filt, c.dst)

/-! ## The drivers -/

/-- `wht_blk_off` -/
def whtBlkOff (g : ℤ) (idxs : List ℤ) : ℤ :=
  if p.withGroups then p.weightsD.blkOff (g :: idxs) else p.weightsD.blkOff idxs

def icChunks : ℕ := p.nbIc / jcp.nbIcBlocking

/-- The values of `ocb` in a pass of the loop over `ocb_l2`. -/
def ocbs (ocbL2 : ℕ) : List ℕ := List.range' ocbL2 (min p.nbOc (ocbL2 + jcp.nbOcL2) - ocbL2)

/-- The values of `ocb_l2`. -/
def ocbL2s : List ℕ := starts (fun _ => jcp.nbOcL2) p.nbOc p.nbOc 0

/-- The counters of the loops that share the work. -/
structure Counters where
  n : ℕ
  g : ℕ
  icc : ℕ
  id : ℕ
  ih : ℕ

/-- The extents of the counters, from the outer ones to the row, in the order that `loop_order` gives. -/
def extents (spatial : List ℕ) : List ℕ :=
  (match jcp.loopOrder with
    | .cgn => [p.icChunks jcp, p.ngroups, p.mb]
    | _ => [p.ngroups, p.mb, p.icChunks jcp]) ++ spatial

/-- The counters of a pass; `rest` takes the spatial ones. -/
def counters (rest : List ℕ → ℕ × ℕ) : List ℕ → Counters
  | x :: y :: z :: spatial =>
    let sp := rest spatial
    match jcp.loopOrder with
    | .cgn => ⟨z, y, x, sp.1, sp.2⟩
    | _ => ⟨y, x, z, sp.1, sp.2⟩
  | _ => ⟨0, 0, 0, 0, 0⟩

/-- The row counter in `execute_backward_data_2d`. -/
def spatial2d : List ℕ → ℕ × ℕ
  | [ih] => (0, ih)
  | _ => (0, 0)

/-- The depth and the row counter in `execute_backward_data_3d`. -/
def spatial3d : List ℕ → ℕ × ℕ
  | [id, ih] => (id, ih)
  | _ => (0, 0)

/-- The arguments of the pipeline in `execute_backward_data_2d`. -/
def args2d (ocbL2 : ℕ) (c : Counters) (ocb : ℕ) : KernelCall :=
  let diffSrcHStride := p.diffSrcD.blkOff [0, 0, 1]
  let diffDstHStride := p.diffDstD.blkOff [0, 0, 1]
  let diffDstCStride := p.diffDstD.blkOff [0, 1]
  let whtHStride := p.whtBlkOff 0 [0, 0, 1]
  let whtOcStride := p.whtBlkOff 0 [1]
  let icb := c.icc * jcp.nbIcBlocking
  let gIcb := c.g * p.nbIc + icb
  let gOcb := c.g * p.nbOc
  let diffSrcW := p.diffSrcD.blkOff [c.n, gIcb]
  let diffDstW := p.diffDstD.blkOff [c.n, (gOcb + ocbL2 : ℕ)] + (ocb - ocbL2 : ℤ) * diffDstCStride
  let whtW := p.whtBlkOff c.g [ocbL2, icb] + (ocb - ocbL2 : ℤ) * whtOcStride
  let w := p.height.window c.ih
  { src := some (diffSrcW + c.ih * diffSrcHStride)
    dst := diffDstW + w.oj * diffDstHStride
    filt := whtW + w.lo * whtHStride
    bias := none
    channel := ocb
    khPadding := w.len
    kdPadding := 0
    owb := 0 }

/-- The arguments of the pipeline in `execute_backward_data_3d`. -/
def args3d (ocbL2 : ℕ) (c : Counters) (ocb : ℕ) : KernelCall :=
  let diffSrcHStride := p.diffSrcD.blkOff [0, 0, 0, 1]
  let diffSrcDStride := p.diffSrcD.blkOff [0, 0, 1]
  let diffDstHStride := p.diffDstD.blkOff [0, 0, 0, 1]
  let diffDstDStride := p.diffDstD.blkOff [0, 0, 1]
  let diffDstCStride := p.diffDstD.blkOff [0, 1]
  let whtHStride := p.whtBlkOff 0 [0, 0, 0, 1]
  let whtDStride := p.whtBlkOff 0 [0, 0, 1]
  let whtOcStride := p.whtBlkOff 0 [1]
  let icb := c.icc * jcp.nbIcBlocking
  let gIcb := c.g * p.nbIc + icb
  let gOcb := c.g * p.nbOc
  let wd := p.depth.window c.id
  let diffSrcW := p.diffSrcD.blkOff [c.n, gIcb] + c.id * diffSrcDStride
  let diffDstW := p.diffDstD.blkOff [c.n, (gOcb + ocbL2 : ℕ)] + wd.oj * diffDstDStride +
    (ocb - ocbL2 : ℤ) * diffDstCStride
  let whtW := p.whtBlkOff c.g [ocbL2, icb] + wd.lo * whtDStride + (ocb - ocbL2 : ℤ) * whtOcStride
  let w := p.height.window c.ih
  { src := some (diffSrcW + c.ih * diffSrcHStride)
    dst := diffDstW + w.oj * diffDstHStride
    filt := whtW + w.lo * whtHStride
    bias := none
    channel := ocb
    khPadding := w.len
    kdPadding := wd.len
    owb := 0 }

/-- The loops of a driver on thread `ithr`: the arguments that the pipeline is called with. -/
def threadArgs (extents : List ℕ) (counters : List ℕ → Counters) (args : ℕ → Counters → ℕ → KernelCall) (nthr ithr : ℕ) :
    List KernelCall :=
  let stop := (balance211 extents.prod nthr ithr).2
  (p.ocbL2s jcp).flatMap fun ocbL2 => (jumpPasses extents nthr ithr).flatMap fun pass =>
    let c := counters pass.2
    -- from `ih_s` to `ih_e`
    (p.ocbs jcp ocbL2).flatMap fun ocb =>
      (List.range' c.ih (min p.height.input (c.ih + (stop - pass.1)) - c.ih)).map fun ij =>
        args ocbL2 { c with ih := ij } ocb

/-- `execute_backward_data_2d`: the calls of the generated code on thread `ithr`. -/
def executeBackwardData2d (nthr ithr : ℕ) : List KernelCall :=
  pipelinedCalls jitConvKerPipeline jitConvKerPipeline
    (p.threadArgs jcp (p.extents jcp [p.height.input]) (counters jcp spatial2d) (p.args2d jcp) nthr ithr)
    ⟨some 0, 0, 0, none, 0, 0, 0, 0⟩

/-- `execute_backward_data_3d` -/
def executeBackwardData3d (nthr ithr : ℕ) : List KernelCall :=
  pipelinedCalls jitConv3dKerPipeline jitConv3dKerPipeline
    (p.threadArgs jcp (p.extents jcp [p.depth.input, p.height.input]) (counters jcp spatial3d) (p.args3d jcp) nthr ithr)
    ⟨some 0, 0, 0, none, 0, 1, 1, 0⟩

/-- `execute`, for tensors of four or five dimensions. -/
def calls (nthr ithr : ℕ) : List KernelCall :=
  if p.ndims = 4 then p.executeBackwardData2d jcp nthr ithr else p.executeBackwardData3d jcp nthr ithr

end Problem

end MklDnn.Avx512BwdData
