import MklDnn.Common.Convolution

/-!
# Initialisation of pooling descriptors

`pooling_desc_init`, for arguments of any value, and the divisor of an average as the implementations compute it from the
descriptor. The sizes are 64-bit numbers.
-/

namespace MklDnn.PoolingInit

open DescInit (Stop arrayCopy toDim toSize)
open PrimitiveHashing (AlgKind PoolingDesc PropKind)

/-- The operator `/` on `dim_t`. -/
def dimDiv (a b : ℤ) : Except Stop ℤ := if b = 0 then .error .divisionByZero else .ok (toDim (a.tdiv b))

/-- `default_accum_data_type`, for a source and a destination. -/
def defaultAccumDataType (srcDt dstDt : DataType) : DataType :=
  if srcDt = .f16 ∨ dstDt = .f16 then .f16
  else if srcDt = .bf16 ∨ dstDt = .bf16 then .f32
  else if srcDt = .f32 ∨ dstDt = .f32 then .f32
  else if srcDt = .s32 ∨ dstDt = .s32 then .s32
  else if (srcDt = .s8 ∨ dstDt = .s8) ∨ srcDt = .u8 ∨ dstDt = .u8 then .s32
  else dstDt

/-- The arguments of `pooling_desc_init`. A null pointer is `none`. -/
structure Args where
  /-- The pointer to the descriptor is not null. -/
  hasDesc : Bool
  propKind : PropKind
  algKind : AlgKind
  srcDesc : Option PrimitiveHashing.MemoryDesc
  dstDesc : Option PrimitiveHashing.MemoryDesc
  strides : Option (ℕ → ℤ)
  kernel : Option (ℕ → ℤ)
  paddingL : Option (ℕ → ℤ)
  paddingR : Option (ℕ → ℤ)

/-- The arguments behind the check `args_ok`. -/
structure Checked where
  propKind : PropKind
  algKind : AlgKind
  srcDesc : PrimitiveHashing.MemoryDesc
  dstDesc : PrimitiveHashing.MemoryDesc
  strides : ℕ → ℤ
  kernel : ℕ → ℤ
  paddingL : ℕ → ℤ
  paddingR : ℕ → ℤ

def algKinds : List AlgKind := [.poolingMax, .poolingAvgIncludePadding, .poolingAvgExcludePadding]

/-- `args_ok`, and the padding on the right taken from the left one where there is none. -/
def Args.check (args : Args) : Except Stop Checked :=
  match args.srcDesc, args.dstDesc, args.strides, args.kernel, args.paddingL with
  | some srcDesc, some dstDesc, some strides, some kernel, some paddingL =>
    if args.hasDesc ∧ args.algKind ∈ algKinds then
      .ok ⟨args.propKind, args.algKind, srcDesc, dstDesc, strides, kernel, paddingL, args.paddingR.getD paddingL⟩
    else .error (.status .invalidArguments)
  | _, _, _, _, _ => .error (.status .invalidArguments)

/-- `is_fwd` -/
def isFwd (propKind : PropKind) : Bool := propKind = .forwardTraining ∨ propKind = .forwardInference

namespace Checked

variable (args : Checked)

/-- The descriptor that is filled in. -/
def desc : PoolingDesc :=
  let spDims := toSize (args.srcDesc.ndims - 2)
  let zero : ℕ → ℤ := fun _ => 0
  { primitiveKind := .pooling
    propKind := args.propKind
    algKind := args.algKind
    srcDesc := if isFwd args.propKind then args.srcDesc else PrimitiveHashing.zeroMd
    diffSrcDesc := if isFwd args.propKind then PrimitiveHashing.zeroMd else args.srcDesc
    dstDesc := if isFwd args.propKind then args.dstDesc else PrimitiveHashing.zeroMd
    diffDstDesc := if isFwd args.propKind then PrimitiveHashing.zeroMd else args.dstDesc
    strides := arrayCopy zero args.strides spDims
    kernel := arrayCopy zero args.kernel spDims
    paddingL := arrayCopy zero args.paddingL spDims
    paddingR := arrayCopy zero args.paddingR spDims
    accumDataType := defaultAccumDataType args.srcDesc.dataType args.dstDesc.dataType }

/-- The initial value of `consistency`. -/
def consistency : Bool :=
  args.srcDesc.ndims ∈ [3, 4, 5] && args.dstDesc.ndims ∈ [3, 4, 5] && args.srcDesc.dims 0 = args.dstDesc.dims 0
    && args.srcDesc.dims 1 = args.dstDesc.dims 1

/-- The spatial dimensions that the loop runs through. -/
def spatialDims : List ℕ := (List.range (args.srcDesc.ndims.toNat - 2)).map (· + 2)

/-- A pass of the loop: the next `consistency`. -/
def dim (consistency : Bool) (i : ℕ) : Except Stop Bool :=
  if consistency then do
    let q ← dimDiv (toDim (toDim (toDim (args.srcDesc.dims i - args.kernel (i - 2)) + args.paddingL (i - 2)) +
      args.paddingR (i - 2))) (args.strides (i - 2))
    let consistency : Bool := toDim (q + 1) = args.dstDesc.dims i
    return if args.algKind = .poolingAvgExcludePadding then
      consistency && args.paddingL (i - 2) < args.kernel (i - 2) && args.paddingR (i - 2) < args.kernel (i - 2)
    else consistency
  else return false

end Checked

/-- `pooling_desc_init`, with the descriptor that it leaves. -/
def poolingDescInit (args : Args) : Except Stop PoolingDesc := do
  let args ← args.check
  let consistency ← args.spatialDims.foldlM args.dim args.consistency
  if consistency then .ok args.desc else .error (.status .invalidArguments)

/-! ## The divisor of an average -/

/-- The numbers of a spatial dimension. -/
structure Axis where
  i : ℤ
  o : ℤ
  k : ℤ
  s : ℤ
  pad : ℤ

namespace Axis

variable (a : Axis)

/-- `id_start` of the reference implementation. -/
def start (o : ℤ) : ℤ := max (o * a.s - a.pad) 0

/-- `id_start` of the implementations for plain layouts, by `apply_offset`. -/
def startOffset (o : ℤ) : ℤ := if o * a.s > a.pad then o * a.s - a.pad else 0

/-- `id_end` -/
def stop (o : ℤ) : ℤ := min (o * a.s - a.pad + a.k) a.i

end Axis

section Pd

variable (pd : PoolingDesc)

/-- `src_desc()` -/
def srcDesc : PrimitiveHashing.MemoryDesc := if isFwd pd.propKind then pd.srcDesc else pd.diffSrcDesc

/-- `dst_desc()` -/
def dstDesc : PrimitiveHashing.MemoryDesc := if isFwd pd.propKind then pd.dstDesc else pd.diffDstDesc

/-- `ndims()` -/
def ndims : ℕ := (srcDesc pd).ndims.toNat

/-- The numbers of the spatial dimension that is the `back`-th one from the end, or of one element if there is none. -/
def axisFromEnd (back : ℕ) : Axis :=
  if back + 2 ≤ ndims pd then
    ⟨(srcDesc pd).dims (ndims pd - back), (dstDesc pd).dims (ndims pd - back), pd.kernel (ndims pd - back - 2),
      pd.strides (ndims pd - back - 2), pd.paddingL (ndims pd - back - 2)⟩
  else ⟨1, 1, 1, 1, 0⟩

/-- `ID(), OD(), KD(), KSD(), padFront()` -/
def axisD : Axis := axisFromEnd pd 3

/-- `IH(), OH(), KH(), KSH(), padT()` -/
def axisH : Axis := axisFromEnd pd 2

/-- `IW(), OW(), KW(), KSW(), padL()` -/
def axisW : Axis := axisFromEnd pd 1

/-- `num_summands`, for windows that begin at `start`. -/
def numSummands (start : Axis → ℤ → ℤ) (od oh ow : ℤ) : ℤ :=
  if pd.algKind = .poolingAvgIncludePadding then (axisD pd).k * (axisW pd).k * (axisH pd).k
  else ((axisD pd).stop od - start (axisD pd) od) * ((axisH pd).stop oh - start (axisH pd) oh) *
    ((axisW pd).stop ow - start (axisW pd) ow)

/-- The iterations of a loop from `start` to `stop`. -/
def iterations (start stop : ℤ) : ℕ := (stop - start).toNat

/-- `num_summands`, as it is counted in the loops. -/
def countSummands (od oh ow : ℤ) : ℤ :=
  if pd.algKind = .poolingAvgIncludePadding then (axisD pd).k * (axisW pd).k * (axisH pd).k
  else iterations ((axisD pd).startOffset od) ((axisD pd).stop od) *
    iterations ((axisH pd).startOffset oh) ((axisH pd).stop oh) *
    iterations ((axisW pd).startOffset ow) ((axisW pd).stop ow)

end Pd

end MklDnn.PoolingInit
