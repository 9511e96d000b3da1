import MklDnn.Common.TypeHelpers

/-!
# Keys of the primitive cache

`key_t`, its comparison and its hash, which goes through the descriptor of the operation, the memory
descriptors in it and the attributes apart from the comparison.
-/

namespace MklDnn.PrimitiveHashing

/-! ## `std::hash` -/

/-- The instances of `std::hash` used for keys. Floats that compare equal have the same hash; on the other
types equality is identity. `size` is the one for `size_t` and `uint64_t`. -/
structure StdHash where
  int : ℤ → UInt64
  dim : ℤ → UInt64
  unsigned : UInt32 → UInt64
  size : UInt64 → UInt64
  float : F32 → UInt64
  typeIndex : ℕ → UInt64
  float_eq : ∀ x y : F32, (x == y) = true → float x = float y

/-- An enumerator cast to `size_t`, for the enumerations whose values are consecutive. -/
def StdHash.enum (H : StdHash) (index : ℕ) : UInt64 := H.size (UInt64.ofNat index)

/-- `hash_combine`, of the hash `h` of a value. -/
def hashCombine (seed h : UInt64) : UInt64 :=
  seed ^^^ (h + 0x9e3779b9 + (seed <<< (6 : UInt64)) + (seed >>> (2 : UInt64)))

/-- `get_array_hash` -/
def arrayHash {α : Type*} (h : α → UInt64) (seed : UInt64) (v : ℕ → α) (size : ℕ) : UInt64 :=
  (List.range size).foldl (fun seed i => hashCombine seed (h (v i))) seed

section Hash

variable (H : StdHash)

/-! ## Memory descriptors -/

def BlockingDesc.hash (seed : UInt64) (blk : BlockingDesc) : UInt64 :=
  let seed := arrayHash H.dim seed blk.strides maxNdims
  let seed := hashCombine seed (H.int blk.innerNblks)
  let seed := arrayHash H.dim seed blk.innerBlks maxNdims
  arrayHash H.dim seed blk.innerIdxs maxNdims

def WinoDesc.hash (seed : UInt64) (wino : WinoDesc) : UInt64 :=
  let seed := hashCombine seed (H.enum wino.winoFormat.ctorIdx)
  let seed := hashCombine seed (H.int wino.r)
  let seed := hashCombine seed (H.int wino.alpha)
  let seed := hashCombine seed (H.int wino.ic)
  let seed := hashCombine seed (H.int wino.oc)
  let seed := hashCombine seed (H.int wino.icBlock)
  let seed := hashCombine seed (H.int wino.ocBlock)
  let seed := hashCombine seed (H.int wino.ic2Block)
  let seed := hashCombine seed (H.int wino.oc2Block)
  let seed := hashCombine seed (H.float wino.adjScale)
  hashCombine seed (H.size wino.size)

def RnnPackedDesc.hash (seed : UInt64) (packed : RnnPackedDesc) : UInt64 :=
  let seed := hashCombine seed (H.enum packed.format.ctorIdx)
  let seed := hashCombine seed (H.int packed.nParts)
  let seed := hashCombine seed (H.int packed.n)
  let seed := hashCombine seed (H.int packed.ldb)
  let seed := arrayHash H.int seed packed.parts rnnMaxNParts
  let seed := arrayHash H.size seed packed.partPackSize rnnMaxNParts
  let seed := arrayHash H.unsigned seed packed.packPart rnnMaxNParts
  let seed := hashCombine seed (H.size packed.offsetCompensation)
  hashCombine seed (H.size packed.size)

def MemoryExtraDesc.hash (seed : UInt64) (extra : MemoryExtraDesc) : UInt64 :=
  if extra.flags ≠ 0 then
    let seed := hashCombine seed (H.size extra.flags)
    let seed :=
      if extra.compensationConvS8s8 then hashCombine seed (H.int extra.compensationMask) else seed
    if extra.hasScaleAdjust then hashCombine seed (H.float extra.scaleAdjust) else seed
  else seed

/-- `get_md_hash` -/
def mdHash (md : MemoryDesc) : UInt64 :=
  let seed := 0
  let seed := arrayHash H.dim seed md.dims maxNdims
  let seed := hashCombine seed (H.enum md.dataType.ctorIdx)
  let seed := arrayHash H.dim seed md.paddedDims maxNdims
  let seed := arrayHash H.dim seed md.paddedOffsets maxNdims
  let seed := hashCombine seed (H.dim md.offset0)
  let seed := hashCombine seed (H.enum md.formatKind.ctorIdx)
  -- format desc
  let seed :=
    match md.formatKind with
    | .undef => seed
    | .any => seed
    | .blocked => md.blocking.hash H seed
    | .wino => md.winoDesc.hash H seed
    | .rnnPacked => md.rnnPackedDesc.hash H seed
  md.extra.hash H seed

/-- The hash of the hash of a memory descriptor, which is a `size_t`. -/
def hashMd (md : MemoryDesc) : UInt64 := H.size (mdHash H md)

/-! ## Attributes -/

def Scales.hash (seed : UInt64) (s : Scales) : UInt64 :=
  let seed := hashCombine seed (H.int s.mask)
  match s.scales with
  | some scales => arrayHash H.float seed scales s.count.toNat
  | none => seed

def PostOpsEntry.hash (seed : UInt64) (entry : PostOpsEntry) : UInt64 :=
  match entry.kind with
  | .eltwise =>
    let seed := hashCombine seed (H.size entry.eltwiseAlg.val)
    let seed := hashCombine seed (H.float entry.eltwiseScale)
    let seed := hashCombine seed (H.float entry.eltwiseAlpha)
    hashCombine seed (H.float entry.eltwiseBeta)
  | .sum => hashCombine seed (H.float entry.sumScale)
  | _ => seed

/-- `get_attr_hash` -/
def attrHash (attr : PrimitiveAttr) : UInt64 :=
  let seed := 0
  let seed := hashCombine seed (H.enum attr.scratchpadMode.ctorIdx)
  let seed := attr.outputScales.hash H seed
  let seed :=
    (List.range attr.postOps.len.toNat).foldl (fun seed i => (attr.postOps.entry i).hash H seed) seed
  let seed := hashCombine seed (H.float attr.rnnDataQparamsScale)
  let seed := hashCombine seed (H.float attr.rnnDataQparamsShift)
  attr.rnnWeightsQparams.hash H seed

/-! ## Descriptors of operations -/

def ConvolutionDesc.hash (desc : ConvolutionDesc) : UInt64 :=
  let seed := 0
  let seed := hashCombine seed (H.enum desc.primitiveKind.ctorIdx)
  let seed := hashCombine seed (H.size desc.propKind.val)
  let seed := hashCombine seed (H.size desc.algKind.val)
  let seed := hashCombine seed (hashMd H desc.srcDesc)
  let seed := hashCombine seed (hashMd H desc.diffSrcDesc)
  let seed := hashCombine seed (hashMd H desc.weightsDesc)
  let seed := hashCombine seed (hashMd H desc.diffWeightsDesc)
  let seed := hashCombine seed (hashMd H desc.biasDesc)
  let seed := hashCombine seed (hashMd H desc.diffBiasDesc)
  let seed := hashCombine seed (hashMd H desc.dstDesc)
  let seed := hashCombine seed (hashMd H desc.diffDstDesc)
  let seed := arrayHash H.dim seed desc.strides maxNdims
  let seed := arrayHash H.dim seed desc.dilates maxNdims
  let seed := arrayHash H.dim seed desc.paddingL maxNdims
  let seed := arrayHash H.dim seed desc.paddingR maxNdims
  hashCombine seed (H.enum desc.accumDataType.ctorIdx)

def EltwiseDesc.hash (desc : EltwiseDesc) : UInt64 :=
  let seed := 0
  let seed := hashCombine seed (H.enum desc.primitiveKind.ctorIdx)
  let seed := hashCombine seed (H.size desc.propKind.val)
  let seed := hashCombine seed (H.size desc.algKind.val)
  let seed := hashCombine seed (hashMd H desc.dataDesc)
  let seed := hashCombine seed (hashMd H desc.diffDataDesc)
  let seed := hashCombine seed (H.float desc.alpha)
  hashCombine seed (H.float desc.beta)

def GemmDesc.hash (desc : GemmDesc) : UInt64 :=
  let seed := 0
  let seed := hashCombine seed (H.enum desc.primitiveKind.ctorIdx)
  let seed := hashCombine seed (H.enum desc.transa.ctorIdx)
  let seed := hashCombine seed (H.enum desc.transb.ctorIdx)
  let seed := hashCombine seed (H.dim desc.m)
  let seed := hashCombine seed (H.dim desc.n)
  let seed := hashCombine seed (H.dim desc.k)
  let seed := hashCombine seed (H.dim desc.lda)
  let seed := hashCombine seed (H.dim desc.ldb)
  let seed := hashCombine seed (H.dim desc.ldc)
  let seed := hashCombine seed (H.float desc.alpha)
  let seed := hashCombine seed (H.float desc.beta)
  let seed := hashCombine seed (H.enum desc.aType.ctorIdx)
  let seed := hashCombine seed (H.enum desc.bType.ctorIdx)
  hashCombine seed (H.enum desc.cType.ctorIdx)

def InnerProductDesc.hash (desc : InnerProductDesc) : UInt64 :=
  let seed := 0
  let seed := hashCombine seed (H.enum desc.primitiveKind.ctorIdx)
  let seed := hashCombine seed (H.size desc.propKind.val)
  let seed := hashCombine seed (hashMd H desc.srcDesc)
  let seed := hashCombine seed (hashMd H desc.diffSrcDesc)
  let seed := hashCombine seed (hashMd H desc.weightsDesc)
  let seed := hashCombine seed (hashMd H desc.diffWeightsDesc)
  let seed := hashCombine seed (hashMd H desc.biasDesc)
  let seed := hashCombine seed (hashMd H desc.diffBiasDesc)
  let seed := hashCombine seed (hashMd H desc.dstDesc)
  let seed := hashCombine seed (hashMd H desc.diffDstDesc)
  hashCombine seed (H.enum desc.accumDataType.ctorIdx)

def NormalizationDesc.hash (desc : NormalizationDesc) : UInt64 :=
  let seed := 0
  let seed := hashCombine seed (H.enum desc.primitiveKind.ctorIdx)
  let seed := hashCombine seed (H.size desc.propKind.val)
  let seed := hashCombine seed (hashMd H desc.dataDesc)
  let seed := hashCombine seed (hashMd H desc.diffDataDesc)
  let seed := hashCombine seed (hashMd H desc.dataScaleshiftDesc)
  let seed := hashCombine seed (hashMd H desc.diffDataScaleshiftDesc)
  let seed := hashCombine seed (hashMd H desc.statDesc)
  let seed := hashCombine seed (H.float desc.epsilon)
  hashCombine seed (H.unsigned desc.flags)

def LrnDesc.hash (desc : LrnDesc) : UInt64 :=
  let seed := 0
  let seed := hashCombine seed (H.enum desc.primitiveKind.ctorIdx)
  let seed := hashCombine seed (H.size desc.propKind.val)
  let seed := hashCombine seed (H.size desc.algKind.val)
  let seed := hashCombine seed (hashMd H desc.dataDesc)
  let seed := hashCombine seed (hashMd H desc.diffDataDesc)
  let seed := hashCombine seed (H.dim desc.localSize)
  let seed := hashCombine seed (H.float desc.lrnAlpha)
  let seed := hashCombine seed (H.float desc.lrnBeta)
  hashCombine seed (H.float desc.lrnK)

def PoolingDesc.hash (desc : PoolingDesc) : UInt64 :=
  let seed := 0
  let seed := hashCombine seed (H.enum desc.primitiveKind.ctorIdx)
  let seed := hashCombine seed (H.size desc.propKind.val)
  let seed := hashCombine seed (H.size desc.algKind.val)
  let seed := hashCombine seed (hashMd H desc.srcDesc)
  let seed := hashCombine seed (hashMd H desc.diffSrcDesc)
  let seed := hashCombine seed (hashMd H desc.dstDesc)
  let seed := hashCombine seed (hashMd H desc.diffDstDesc)
  let seed := arrayHash H.dim seed desc.strides maxNdims
  let seed := arrayHash H.dim seed desc.kernel maxNdims
  let seed := arrayHash H.dim seed desc.paddingL maxNdims
  let seed := arrayHash H.dim seed desc.paddingR maxNdims
  hashCombine seed (H.enum desc.accumDataType.ctorIdx)

def ReorderDesc.hash (desc : ReorderDesc) : UInt64 :=
  let seed := 0
  let seed := hashCombine seed (H.enum desc.primitiveKind.ctorIdx)
  let seed := hashCombine seed (hashMd H desc.srcMd)
  let seed := hashCombine seed (hashMd H desc.dstMd)
  let seed := hashCombine seed (H.enum desc.srcEngineKind.ctorIdx)
  hashCombine seed (H.enum desc.dstEngineKind.ctorIdx)

def RnnDesc.hash (desc : RnnDesc) : UInt64 :=
  let seed := 0
  let seed := hashCombine seed (H.enum desc.primitiveKind.ctorIdx)
  let seed := hashCombine seed (H.size desc.propKind.val)
  let seed := hashCombine seed (H.size desc.cellKind.val)
  let seed := hashCombine seed (H.enum desc.direction.ctorIdx)
  let seed := hashCombine seed (hashMd H desc.srcLayerDesc)
  let seed := hashCombine seed (hashMd H desc.srcIterDesc)
  let seed := hashCombine seed (hashMd H desc.srcIterCDesc)
  let seed := hashCombine seed (hashMd H desc.weightsLayerDesc)
  let seed := hashCombine seed (hashMd H desc.weightsIterDesc)
  let seed := hashCombine seed (hashMd H desc.biasDesc)
  let seed := hashCombine seed (hashMd H desc.dstLayerDesc)
  let seed := hashCombine seed (hashMd H desc.dstIterDesc)
  let seed := hashCombine seed (hashMd H desc.dstIterCDesc)
  let seed := hashCombine seed (hashMd H desc.placeholderDesc)
  let seed := hashCombine seed (hashMd H desc.placeholder2Desc)
  let seed := hashCombine seed (hashMd H desc.diffSrcLayerDesc)
  let seed := hashCombine seed (hashMd H desc.diffSrcIterDesc)
  let seed := hashCombine seed (hashMd H desc.diffSrcIterCDesc)
  let seed := hashCombine seed (hashMd H desc.diffWeightsLayerDesc)
  let seed := hashCombine seed (hashMd H desc.diffWeightsIterDesc)
  let seed := hashCombine seed (hashMd H desc.diffBiasDesc)
  let seed := hashCombine seed (hashMd H desc.diffDstLayerDesc)
  let seed := hashCombine seed (hashMd H desc.diffDstIterDesc)
  let seed := hashCombine seed (hashMd H desc.diffDstIterCDesc)
  let seed := hashCombine seed (hashMd H desc.diffPlaceholderDesc)
  let seed := hashCombine seed (hashMd H desc.diffPlaceholder2Desc)
  let seed := hashCombine seed (H.unsigned desc.flags)
  let seed := hashCombine seed (H.size desc.activationKind.val)
  let seed := hashCombine seed (H.float desc.alpha)
  hashCombine seed (H.float desc.beta)

def ShuffleDesc.hash (desc : ShuffleDesc) : UInt64 :=
  let seed := 0
  let seed := hashCombine seed (H.enum desc.primitiveKind.ctorIdx)
  let seed := hashCombine seed (H.size desc.propKind.val)
  let seed := hashCombine seed (hashMd H desc.dataDesc)
  let seed := hashCombine seed (H.int desc.axis)
  hashCombine seed (H.dim desc.groupSize)

def SoftmaxDesc.hash (desc : SoftmaxDesc) : UInt64 :=
  let seed := 0
  let seed := hashCombine seed (H.enum desc.primitiveKind.ctorIdx)
  let seed := hashCombine seed (H.size desc.propKind.val)
  let seed := hashCombine seed (hashMd H desc.dataDesc)
  let seed := hashCombine seed (hashMd H desc.diffDesc)
  hashCombine seed (H.int desc.softmaxAxis)

def ConcatDesc.hash (desc : ConcatDesc) : UInt64 :=
  let seed := 0
  let seed := hashCombine seed (H.enum desc.primitiveKind.ctorIdx)
  let seed := hashCombine seed (hashMd H desc.dstMd)
  let seed := hashCombine seed (H.dim desc.n)
  let seed := hashCombine seed (H.dim desc.concatDimension)
  arrayHash (hashMd H) seed desc.srcMds desc.n.toNat

def SumDesc.hash (desc : SumDesc) : UInt64 :=
  let seed := 0
  let seed := hashCombine seed (H.enum desc.primitiveKind.ctorIdx)
  let seed := hashCombine seed (hashMd H desc.dstMd)
  let seed := hashCombine seed (H.dim desc.n)
  -- scales
  let seed := (desc.scales.take desc.n.toNat).foldl (fun seed s => hashCombine seed (H.float s)) seed
  arrayHash (hashMd H) seed desc.srcMds desc.n.toNat

/-- `get_desc_hash` -/
def OpDesc.hash : OpDesc → UInt64
  | .batchNormalization desc => desc.hash H
  | .concat desc => desc.hash H
  | .convolution desc => desc.hash H
  | .deconvolution desc => desc.hash H
  | .eltwise desc => desc.hash H
  | .gemm desc => desc.hash H
  | .innerProduct desc => desc.hash H
  | .layerNormalization desc => desc.hash H
  | .lrn desc => desc.hash H
  | .pooling desc => desc.hash H
  | .reorder desc => desc.hash H
  | .rnn desc => desc.hash H
  | .shuffle desc => desc.hash H
  | .softmax desc => desc.hash H
  | .sum desc => desc.hash H

end Hash

/-! ## Keys -/

/-- `key_t` -/
structure KeyT where
  primitiveKind : PrimitiveKind
  opDesc : OpDesc
  attr : PrimitiveAttr
  implId : ℕ
  implNthr : ℤ
  kind_eq : opDesc.kind = primitiveKind

/-- `operator==` of two keys that are different objects. -/
protected def KeyT.eq (lhs rhs : KeyT) : Bool :=
  lhs.primitiveKind == rhs.primitiveKind
    && lhs.implId == rhs.implId && lhs.implNthr == rhs.implNthr
    && lhs.attr.eq rhs.attr
    && lhs.opDesc.eq rhs.opDesc

/-- `std::hash` of a key. -/
def KeyT.hash (H : StdHash) (key : KeyT) : UInt64 :=
  let seed := 0
  let seed := hashCombine seed (H.size (hashCombine 0 (H.enum key.primitiveKind.ctorIdx)))
  let seed := hashCombine seed (H.size (attrHash H key.attr))
  let seed := hashCombine seed (H.size (hashCombine 0 (H.typeIndex key.implId)))
  let seed := hashCombine seed (H.size (hashCombine 0 (H.int key.implNthr)))
  hashCombine seed (H.size (key.opDesc.hash H))

end MklDnn.PrimitiveHashing
