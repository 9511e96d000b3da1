import MklDnn.Common.Threading
import MklDnn.Memory.Desc
import MklDnn.Memory.Offset

/-!
# Reducing a 1x1 convolution to unit strides

A 1x1 convolution with strides works on a reduced image: the forward and the backward weights pass copy the source
positions that are needed into a workspace, the backward data pass scatters the workspace into `diff_src`. Offsets
into the workspace and into the image count vectors: a vector holds one block of channels of one position.
-/

namespace MklDnn.Rtus

/-! ## When the strides are reduced -/

/-- What `rtus_prepare` reads. -/
structure Problem where
  strides : ℕ → ℤ
  /-- `padding[0]` -/
  paddingL : ℕ → ℤ
  srcDataType : DataType
  /-- The image with the strides: the source, and `diff_src` in the backward data pass. -/
  srcD : MemoryDesc
  dstD : MemoryDesc

namespace Problem

variable (p : Problem)

def ndims : ℕ := p.srcD.ndims

/-- `dat_tag` -/
def datTag : FormatTag :=
  if p.ndims = 3 then p.dstD.matchesOneOfTag [.aBc8b, .aBc16b] else p.dstD.matchesOneOfTag [.aBcd8b, .aBcd16b]

/-- `rtus_applicable`, for tensors of three or four dimensions. -/
def rtusApplicable : Bool :=
  (if p.ndims = 3 then p.strides 0 ≠ 1 ∧ p.srcDataType ≠ .s32 else p.strides 0 ≠ 1 ∨ p.strides 1 ≠ 1) ∧
    p.datTag ≠ .undef ∧
    ∀ d < p.ndims, 2 ≤ d → p.paddingL (d - 2) = 0 ∧ p.dstD.dims d * p.strides (d - 2) = p.srcD.dims d

def strideH : ℕ := if p.ndims = 3 then 1 else (p.strides 0).toNat

def strideW : ℕ := (p.strides (p.ndims - 3)).toNat

def padT : ℤ := if p.ndims = 3 then 0 else p.paddingL 0

def padL : ℤ := p.paddingL (p.ndims - 3)

def ih : ℕ := if p.ndims = 3 then 1 else p.srcD.dims 2

def iw : ℕ := p.srcD.dims (p.ndims - 1)

/-- The extents of the reduced image -/
def oh : ℕ := if p.ndims = 3 then 1 else p.dstD.dims 2

def ow : ℕ := p.dstD.dims (p.ndims - 1)

/-- The number of blocks of channels of the image -/
def nbC : ℕ := p.srcD.paddedDims 1 / innerBlocks p.srcD.blocking.inner 1

/-- `data_blk_off` of the image, whose channels lie in blocks: `n` is the image, `c` the block. -/
def dataBlkOff (n c h w : ℕ) : ℕ := ((n * p.nbC + c) * p.ih + h) * p.iw + w

end Problem

/-! ## The generated code -/

/-- The fields of `rtus_driver_t`. -/
structure Driver where
  iw : ℕ
  strideW : ℕ
  srcStepH : ℕ
  srcStepIcb : ℕ
  wsStepIcb : ℕ
  srcToWs : Bool

/-- `init_rtus_driver`, with `jcp_.is`. -/
def Problem.driver (p : Problem) (is : ℕ) (srcToWs : Bool) : Driver where
  iw := p.iw
  strideW := p.strideW
  srcStepH := p.strideH * p.iw
  srcStepIcb := p.ih * p.iw
  wsStepIcb := is
  srcToWs := srcToWs

/-- `call_params_t` -/
structure CallParams where
  ws : ℕ
  src : ℕ
  icb : ℕ
  os : ℕ
  iwStart : ℕ

/-- `reg_ws`, `reg_cur_src` and `reg_cur_iw` -/
structure Regs where
  ws : ℕ
  curSrc : ℕ
  curIw : ℕ

namespace Driver

variable {V : Type} [Zero V] (d : Driver) (read : ℕ → V)

/-- `ih_loop`: the stores, and `reg_cur_src` after it. The loop runs its body before it compares. -/
def ihLoop (fin : ℕ) : ℕ → ℕ → List (ℕ × V) × ℕ
  | 0, curSrc => ([], curSrc)
  | fuel + 1, curSrc =>
    let zeros := (List.range d.strideW).map fun w => (curSrc + w, 0)
    let curSrc := curSrc + d.strideW
    if curSrc < fin then
      let rest := ihLoop fin fuel curSrc
      (zeros ++ rest.1, rest.2)
    else (zeros, curSrc)

/-- One pass of `is_loop`: the stores, and the registers after it. The vectors are read from the image when the code
copies to the workspace, else from the workspace. -/
def isStep (r : Regs) : List (ℕ × V) × Regs :=
  let stores :=
    if d.srcToWs then [(r.ws, read r.curSrc)]
    else (r.curSrc, read r.ws) :: (List.range' 1 (d.strideW - 1)).map fun w => (r.curSrc + w, 0)
  let r : Regs := ⟨r.ws + 1, r.curSrc + d.strideW, r.curIw + d.strideW⟩
  if r.curIw < d.iw then (stores, r)
  -- a one-dimensional convolution has no rows to step over
  else if d.srcStepIcb = d.iw then (stores, r)
  else if d.srcToWs then (stores, ⟨r.ws, r.curSrc + (d.srcStepH - d.iw), 0⟩)
  else
    let zeros := d.ihLoop (r.curSrc + (d.srcStepH - d.iw)) (d.srcStepH + 1) r.curSrc
    (stores ++ zeros.1, ⟨r.ws, zeros.2, 0⟩)

/-- `loop_is`, for a positive number of positions. -/
def loopIs : ℕ → Regs → List (ℕ × V)
  | 0, _ => []
  | os + 1, r => (d.isStep read r).1 ++ loopIs os (d.isStep read r).2

/-- The code of `generate`: `loop_is` for each block of channels. -/
def ker (params : CallParams) : List (ℕ × V) :=
  (List.range params.icb).flatMap fun icb =>
    d.loopIs read params.os ⟨params.ws + icb * d.wsStepIcb, params.src + icb * d.srcStepIcb, params.iwStart⟩

end Driver

/-! ## The configuration -/

/-- The fields of `jit_1x1_conv_conf_t` that the loops of the drivers read. -/
structure Jcp where
  mb : ℕ
  ngroups : ℕ
  ic : ℕ
  icBlock : ℕ
  is : ℕ
  os : ℕ
  nbBcast : ℕ
  bcastBlock : ℕ
  nbBcastBlocking : ℕ
  nbBcastBlockingMax : ℕ
  nbLoad : ℕ
  nbLoadBlocking : ℕ
  nbLoadBlockingMax : ℕ
  nbReduce : ℕ
  reduceBlock : ℕ
  nbReduceBlocking : ℕ

/-- The loop that divides the number of blocks by two and three while it is above `limit`. -/
def divideBlocking (limit : ℕ) : ℕ → ℕ → ℕ
  | 0, blocking => blocking
  | fuel + 1, blocking =>
    if blocking ≤ limit then blocking
    else if blocking % 2 = 0 then divideBlocking limit fuel (blocking / 2)
    else if blocking % 3 = 0 then divideBlocking limit fuel (blocking / 3)
    else blocking

namespace Problem

variable (p : Problem)

/-- `init_conf` of the AVX2 kernel, forward; `ur` is 4 with AVX2, else 3. -/
def fwdJcp (ur : ℕ) : Jcp where
  mb := p.srcD.dims 0
  ngroups := 1
  ic := rndUp (p.srcD.dims 1) 8
  icBlock := 8
  is := p.oh * p.ow
  os := p.oh * p.ow
  nbBcast := divUp (p.oh * p.ow) ur
  bcastBlock := ur
  nbBcastBlocking := 128 / ur
  nbBcastBlockingMax := 192 / ur
  nbLoad := divUp (rndUp (p.dstD.dims 1) 8) 8
  nbLoadBlocking := 120 / 8
  nbLoadBlockingMax := 144 / 8
  nbReduce := divUp (rndUp (p.srcD.dims 1) 8) 8
  reduceBlock := 8
  nbReduceBlocking := 128 / 8

/-- `init_conf`, backward by data -/
def bwdDataJcp (ur : ℕ) : Jcp where
  mb := p.srcD.dims 0
  ngroups := 1
  ic := rndUp (p.srcD.dims 1) 8
  icBlock := 8
  is := p.oh * p.ow
  os := p.oh * p.ow
  nbBcast := divUp (p.oh * p.ow) ur
  bcastBlock := ur
  nbBcastBlocking := 128 / ur
  nbBcastBlockingMax := 196 / ur
  nbLoad := divUp (rndUp (p.srcD.dims 1) 8) 8
  nbLoadBlocking := 96 / 8
  nbLoadBlockingMax := 144 / 8
  nbReduce := divUp (rndUp (p.dstD.dims 1) 8) 8
  reduceBlock := 8
  nbReduceBlocking := 64 / 8

/-- `init_conf`, backward by weights -/
def bwdWeightsJcp : Jcp where
  mb := p.srcD.dims 0
  ngroups := 1
  ic := rndUp (p.srcD.dims 1) 8
  icBlock := 8
  is := p.oh * p.ow
  os := p.oh * p.ow
  nbBcast := divUp (rndUp (p.srcD.dims 1) 8) 8
  bcastBlock := 8
  nbBcastBlocking := divideBlocking 9 (divUp (rndUp (p.srcD.dims 1) 8) 8) (divUp (rndUp (p.srcD.dims 1) 8) 8)
  nbBcastBlockingMax := divideBlocking 9 (divUp (rndUp (p.srcD.dims 1) 8) 8) (divUp (rndUp (p.srcD.dims 1) 8) 8)
  nbLoad := divUp (rndUp (p.dstD.dims 1) 8) 8
  nbLoadBlocking := divideBlocking 32 (divUp (rndUp (p.dstD.dims 1) 8) 8) (divUp (rndUp (p.dstD.dims 1) 8) 8)
  nbLoadBlockingMax := divideBlocking 32 (divUp (rndUp (p.dstD.dims 1) 8) 8) (divUp (rndUp (p.dstD.dims 1) 8) 8)
  nbReduce := p.oh * p.ow
  reduceBlock := 1
  nbReduceBlocking := 128

end Problem

/-! ## The drivers -/

/-- The lambda `step` of the drivers. -/
def step (defaultStep remaining tailStep : ℕ) : ℕ := if remaining < tailStep then remaining else defaultStep

/-- `this_block_size` -/
def thisBlockSize (offset max blockSize : ℕ) : ℕ := if offset + blockSize > max then max - offset else blockSize

/-- A loop from `start` to `fin` whose steps the lambda `step` chooses: the counter and the step. -/
def stepLoop (defaultStep tailStep fin : ℕ) : ℕ → ℕ → List (ℕ × ℕ)
  | 0, _ => []
  | fuel + 1, start =>
    if start < fin then
      let s := step defaultStep (fin - start) tailStep
      (start, s) :: stepLoop defaultStep tailStep fin fuel (start + s)
    else []

/-- A call of the generated code: the image, the first block of channels and the first output position that it is
made for, and its parameters. -/
structure Call where
  n : ℕ
  cb : ℕ
  os : ℕ
  params : CallParams

/-- A pass of the loop over `iwork`: the counters and `bcast_step`. -/
structure Bcast where
  n : ℕ
  g : ℕ
  osb : ℕ
  bcastStep : ℕ

/-- The loop over `iwork` up to `fin`. -/
def bcastLoop (jcp : Jcp) (fin : ℕ) : ℕ → ℕ → List Bcast
  | 0, _ => []
  | fuel + 1, iwork =>
    if iwork < fin then
      let it := (ndIteratorInit iwork [jcp.mb, jcp.ngroups, jcp.nbBcast]).2
      let osb := it.getD 2 0
      let bcastStep := min (step jcp.nbBcastBlocking (jcp.nbBcast - osb) jcp.nbBcastBlockingMax) (fin - iwork)
      ⟨it.getD 0 0, it.getD 1 0, osb, bcastStep⟩ :: bcastLoop jcp fin fuel (iwork + bcastStep)
    else []

/-- The passes of the loop over `iwork` on thread `ithr`. -/
def threadBcasts (jcp : Jcp) (nthr ithr : ℕ) : List Bcast :=
  let workAmount := jcp.mb * jcp.ngroups * jcp.nbBcast
  let range := balance211 workAmount nthr ithr
  bcastLoop jcp range.2 (range.2 - range.1) range.1

/-- `bcast_dim`, the number of output positions of a pass. -/
def Bcast.bcastDim (b : Bcast) (jcp : Jcp) : ℕ :=
  thisBlockSize (b.osb * jcp.bcastBlock) jcp.os (b.bcastStep * jcp.bcastBlock)

namespace Problem

variable (p : Problem)

/-- `ih` of the output position `os` -/
def startH (os : ℕ) : ℕ := (max ((os / p.ow : ℕ) * (p.strideH : ℤ) - p.padT) 0).toNat

/-- `iw` of the output position `os` -/
def startW (os : ℕ) : ℕ := (max ((os % p.ow : ℕ) * (p.strideW : ℤ) - p.padL) 0).toNat

/-- The calls of thread `ithr` in `execute_forward`; the source is copied in the first pass over the output channels. -/
def fwdCalls (jcp : Jcp) (nthr ithr : ℕ) : List Call :=
  (threadBcasts jcp nthr ithr).flatMap fun b =>
    (List.range (divUp jcp.nbReduce jcp.nbReduceBlocking)).map fun i =>
      let icb := i * jcp.nbReduceBlocking
      let os := b.osb * jcp.bcastBlock
      let reduceDim := thisBlockSize (icb * jcp.icBlock) jcp.ic (jcp.nbReduceBlocking * jcp.icBlock)
      let cb := b.g * jcp.nbReduce + icb
      ⟨b.n, cb, os,
        { ws := ithr * (jcp.nbReduce * jcp.is) + cb * jcp.is
          src := p.dataBlkOff b.n cb (p.startH os) (p.startW os)
          icb := reduceDim / jcp.reduceBlock
          os := b.bcastDim jcp
          iwStart := p.startW os }⟩

/-- The calls of thread `ithr` in `execute_backward_data`. -/
def bwdDataCalls (jcp : Jcp) (nthr ithr : ℕ) : List Call :=
  -- the loop over the blocks of input channels
  (stepLoop jcp.nbLoadBlocking jcp.nbLoadBlockingMax jcp.nbLoad jcp.nbLoad 0).flatMap fun l =>
    (threadBcasts jcp nthr ithr).map fun b =>
      let loadDim := thisBlockSize (l.1 * jcp.icBlock) jcp.ic (l.2 * jcp.icBlock)
      let os := b.osb * jcp.bcastBlock
      let cb := b.g * jcp.nbLoad + l.1
      ⟨b.n, cb, os,
        { ws := ithr * (jcp.nbLoadBlockingMax * jcp.is)
          src := p.dataBlkOff b.n cb (p.startH os) (p.startW os)
          icb := loadDim / jcp.icBlock
          os := b.bcastDim jcp
          iwStart := p.startW os }⟩

/-- The calls of `oc_ic_sp_loop` on thread `ithr` for the image `img` and the blocks of channels from `cb` on; the
source is copied in the first pass over the output channels. -/
def bwdWeightsCalls (jcp : Jcp) (ithr img cb spStart spEnd : ℕ) : List Call :=
  (stepLoop 12 18 jcp.nbBcastBlocking jcp.nbBcastBlocking 0).flatMap fun icB =>
    (stepLoop (jcp.nbReduceBlocking * jcp.reduceBlock) 192 spEnd (spEnd - spStart) spStart).map fun sp =>
      ⟨img, cb + icB.1, sp.1,
        { ws := ithr * (jcp.nbBcastBlocking * jcp.is) + (icB.1 * jcp.is + sp.1)
          -- `src` is `blk_off(img, cb)`; only the row and the column are added to it
          src := p.dataBlkOff img cb 0 0 + p.startH sp.1 * p.iw + p.startW sp.1
          icb := icB.2 * jcp.icBlock / jcp.icBlock
          os := sp.2
          iwStart := p.startW sp.1 }⟩

end Problem

end MklDnn.Rtus
