import MklDnn.Common.TypeHelpers

/-!
# Descriptors of convolutions and deconvolutions

`conv_desc_init` and `deconv_desc_init`. The sizes are 64-bit numbers; an `int` variable takes the number modulo `2 ^ 32`,
and so does every operation on `int`.
-/

namespace MklDnn.DescInit

open PrimitiveHashing (AlgKind ConvolutionDesc PropKind)

/-! ## Machine numbers -/

/-- The conversion to `int`, and what an operation on `int` leaves. -/
def toInt (x : ℤ) : ℤ := x.bmod (2 ^ 32)

/-- What an operation on `dim_t` leaves. -/
def toDim (x : ℤ) : ℤ := x.bmod (2 ^ 64)

/-- The conversion of an `int` to `size_t`. -/
def toSize (x : ℤ) : ℕ := (x % 2 ^ 64).toNat

/-- What ends an initialisation without a descriptor: a status that is returned, or a division by zero. -/
inductive Stop where
  | status (s : Status)
  | divisionByZero
  deriving DecidableEq

/-- The operator `/` on `int`. -/
def intDiv (a b : ℤ) : Except Stop ℤ := if b = 0 then .error .divisionByZero else .ok (toInt (a.tdiv b))

/-! ## Helpers -/

/-- `array_copy` -/
def arrayCopy (dst src : ℕ → ℤ) (size : ℕ) : ℕ → ℤ := fun i => if i < size then src i else dst i

/-- `memory_desc_wrapper::nelems` -/
def nelems (md : PrimitiveHashing.MemoryDesc) : ℤ :=
  if md.ndims = 0 then 0 else (List.range (toSize md.ndims)).foldl (fun prod i => toDim (prod * md.dims i)) 1

/-- `default_accum_data_type` -/
def defaultAccumDataType (srcDt weiDt dstDt : DataType) (propKind : PropKind) : DataType :=
  if srcDt = .f16 ∧ weiDt = .f16 ∧ dstDt = .f16 then .f16
  else if srcDt = .bf16 ∨ weiDt = .bf16 ∨ dstDt = .bf16 then .f32
  else if srcDt = .f32 ∧ weiDt = .f32 ∧ dstDt = .f32 then .f32
  else if propKind = .forwardTraining ∨ propKind = .forwardInference then
    if (srcDt = .u8 ∨ srcDt = .s8) ∧ weiDt = .s8 ∧ dstDt ∈ [.f32, .s32, .s8, .u8] then .s32 else dstDt
  else if propKind = .backwardData then
    if srcDt ∈ [.f32, .s32, .s8, .u8] ∧ weiDt = .s8 ∧ dstDt ∈ [.s8, .u8] then .s32 else dstDt
  else dstDt

/-! ## Arguments -/

/-- The arguments of `conv_desc_init` and of `deconv_desc_init`. A null pointer is `none`. -/
structure Args where
  /-- The pointer to the descriptor is not null. -/
  hasDesc : Bool
  propKind : PropKind
  algKind : AlgKind
  srcDesc : Option PrimitiveHashing.MemoryDesc
  weightsDesc : Option PrimitiveHashing.MemoryDesc
  biasDesc : Option PrimitiveHashing.MemoryDesc
  dstDesc : Option PrimitiveHashing.MemoryDesc
  strides : Option (ℕ → ℤ)
  dilates : Option (ℕ → ℤ)
  paddingL : Option (ℕ → ℤ)
  paddingR : Option (ℕ → ℤ)

/-- The arguments behind the check `args_ok`. -/
structure Checked where
  propKind : PropKind
  algKind : AlgKind
  srcDesc : PrimitiveHashing.MemoryDesc
  weightsDesc : PrimitiveHashing.MemoryDesc
  biasDesc : Option PrimitiveHashing.MemoryDesc
  dstDesc : PrimitiveHashing.MemoryDesc
  strides : ℕ → ℤ
  dilates : Option (ℕ → ℤ)
  paddingL : ℕ → ℤ
  paddingR : ℕ → ℤ

/-- `args_ok`, and the padding on the right taken from the left one where there is none. -/
def Args.check (args : Args) (algKinds : List AlgKind) : Except Stop Checked :=
  match args.srcDesc, args.weightsDesc, args.dstDesc, args.strides, args.paddingL with
  | some srcDesc, some weightsDesc, some dstDesc, some strides, some paddingL =>
    if args.hasDesc ∧ args.algKind ∈ algKinds then
      .ok ⟨args.propKind, args.algKind, srcDesc, weightsDesc, args.biasDesc, dstDesc, strides, args.dilates, paddingL,
        args.paddingR.getD paddingL⟩
    else .error (.status .invalidArguments)
  | _, _, _, _, _ => .error (.status .invalidArguments)

namespace Checked

variable (args : Checked)

def isFwd : Bool := args.propKind = .forwardTraining ∨ args.propKind = .forwardInference

/-- The memory descriptor of the bias, if there is a bias. -/
def bias : Option PrimitiveHashing.MemoryDesc := args.biasDesc.filter (·.formatKind ≠ .undef)

def withGroups : Bool := args.weightsDesc.ndims = args.srcDesc.ndims + 1

/-- `with_groups` as a number of dimensions. -/
def groupDims : ℕ := if args.withGroups then 1 else 0

/-- The descriptor that is filled in, for `conv_desc_init` and for `deconv_desc_init`. -/
def desc (kind : PrimitiveKind) : ConvolutionDesc :=
  let spDims := toSize (args.srcDesc.ndims - 2)
  let zero : ℕ → ℤ := fun _ => 0
  { primitiveKind := kind
    propKind := args.propKind
    algKind := args.algKind
    srcDesc := if args.propKind = .backwardData then PrimitiveHashing.zeroMd else args.srcDesc
    diffSrcDesc := if args.propKind = .backwardData then args.srcDesc else PrimitiveHashing.zeroMd
    weightsDesc := if args.propKind = .backwardWeights then PrimitiveHashing.zeroMd else args.weightsDesc
    diffWeightsDesc := if args.propKind = .backwardWeights then args.weightsDesc else PrimitiveHashing.zeroMd
    biasDesc := if args.propKind = .backwardWeights then PrimitiveHashing.zeroMd else args.bias.getD PrimitiveHashing.zeroMd
    diffBiasDesc := if args.propKind = .backwardWeights then args.bias.getD PrimitiveHashing.zeroMd else PrimitiveHashing.zeroMd
    dstDesc := if args.isFwd then args.dstDesc else PrimitiveHashing.zeroMd
    diffDstDesc := if args.isFwd then PrimitiveHashing.zeroMd else args.dstDesc
    strides := arrayCopy zero args.strides spDims
    dilates := arrayCopy zero (args.dilates.getD zero) spDims
    paddingL := arrayCopy zero args.paddingL spDims
    paddingR := arrayCopy zero args.paddingR spDims
    accumDataType := defaultAccumDataType args.srcDesc.dataType args.weightsDesc.dataType args.dstDesc.dataType
      args.propKind }

/-- `g` -/
def g : ℤ := if args.withGroups then toInt (args.weightsDesc.dims 0) else 1

/-- The checks that both functions make ahead of the spatial dimensions. `biasDim` is what the size of the bias is compared
with. -/
def ranksOk (biasDim : ℤ) : Bool :=
  args.srcDesc.ndims = args.dstDesc.ndims && args.srcDesc.ndims ∈ [3, 4, 5]
    && (args.weightsDesc.ndims = args.srcDesc.ndims || args.weightsDesc.ndims = args.srcDesc.ndims + 1)
    && args.bias.all (fun bias => bias.ndims = 1) && args.bias.all (fun bias => bias.dims 0 = biasDim)
    && args.srcDesc.dims 0 = args.dstDesc.dims 0
    && args.srcDesc.dims 1 = toDim (args.g * args.weightsDesc.dims (args.groupDims + 1))
    && args.dstDesc.dims 1 = toDim (args.g * args.weightsDesc.dims (args.groupDims + 0))

/-- `cd.dilates`, read at a spatial dimension. -/
def dilate (i : ℕ) : ℤ := (args.desc .undefined).dilates i

/-- The spatial dimensions that the loop runs through. -/
def spatialDims : List ℕ := (List.range (args.srcDesc.ndims.toNat - 2)).map (· + 2)

/-! ### Convolutions -/

/-- The initial value of `consistency` in `conv_desc_init`. -/
def convConsistency : Bool :=
  let biasDim := toInt (if args.propKind = .backwardData then args.srcDesc.dims 1 else args.dstDesc.dims 1)
  nelems args.weightsDesc ≠ 0 && args.ranksOk biasDim

/-- A pass of the loop of `conv_desc_init`: the next `consistency`. -/
def convDim (consistency : Bool) (i : ℕ) : Except Stop Bool :=
  let src := toInt (args.srcDesc.dims i)
  let ker := toInt (args.weightsDesc.dims (args.groupDims + i))
  let dil := toInt (args.dilate (i - 2))
  let padL := toInt (args.paddingL (i - 2))
  let padR := toInt (args.paddingR (i - 2))
  let str := toInt (args.strides (i - 2))
  let dst := toInt (args.dstDesc.dims i)
  let kerRange := toInt (1 + toInt (toInt (ker - 1) * toInt (dil + 1)))
  if str < 1 then .error (.status .invalidArguments)
  else if consistency && 0 ≤ dil && 0 ≤ padL && 0 < toInt (padR + str) then do
    let q ← intDiv (toInt (toInt (toInt (src - kerRange) + padL) + padR)) str
    return toInt (q + 1) = dst
  else return false

/-! ### Deconvolutions -/

/-- The initial value of `consistency` in `deconv_desc_init`. -/
def deconvConsistency : Bool := args.ranksOk (args.dstDesc.dims 1)

/-- A pass of the loop of `deconv_desc_init`: the next `consistency`. -/
def deconvDim (consistency : Bool) (i : ℕ) : Except Stop Bool :=
  let src := toInt (args.srcDesc.dims i)
  let ker := toInt (args.weightsDesc.dims (args.groupDims + i))
  let dil := toInt (args.dilate (i - 2))
  let pad := toInt (toDim (args.paddingL (i - 2) + args.paddingR (i - 2)))
  let str := toInt (args.strides (i - 2))
  let dst := toInt (args.dstDesc.dims i)
  let kerRange := toInt (1 + toInt (toInt (ker - 1) * toInt (dil + 1)))
  if consistency then do
    let q ← intDiv (toInt (toInt (dst - kerRange) + pad)) str
    return toInt (q + 1) = src
  else return false

end Checked

/-! ## The functions -/

def convAlgKinds : List AlgKind := [.convolutionAuto, .convolutionDirect, .convolutionWinograd]

def deconvAlgKinds : List AlgKind := [.deconvolutionDirect, .deconvolutionWinograd]

/-- `conv_desc_init`, with the descriptor that it leaves. -/
def convDescInit (args : Args) : Except Stop ConvolutionDesc := do
  let args ← args.check convAlgKinds
  let consistency ← args.spatialDims.foldlM args.convDim args.convConsistency
  if consistency then .ok (args.desc .convolution) else .error (.status .invalidArguments)

/-- `deconv_desc_init`, with the descriptor that it leaves. -/
def deconvDescInit (args : Args) : Except Stop ConvolutionDesc := do
  let args ← args.check deconvAlgKinds
  let consistency ← args.spatialDims.foldlM args.deconvDim args.deconvConsistency
  if consistency then .ok (args.desc .deconvolution) else .error (.status .invalidArguments)

end MklDnn.DescInit
