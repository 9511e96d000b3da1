import MklDnn.Lib.Assignments
import MklDnn.Memory.Desc
import MklDnn.Reorder.Simple

/-!
# Reorders between plain and blocked tensors

The bodies of `simple_reorder_impl` for formats with one and with two blocked dimensions, in both directions. A thread is the
list of its stores, and a store is an assignment to the output once the conversion of its elements is given.
-/

open LoopNest Interleaving

namespace MklDnn

/-- `block_dim_t` -/
inductive BlockDim where
  | A | B | AB | BC
  deriving DecidableEq

/-- `inner_blk_t` -/
inductive InnerBlkT where
  | _4a | _4b | _8a | _8b | _16a | _16b
  | _4b4a | _4b4c | _4c4b | _8a8b | _8b8a | _8b8c | _8c8b | _16a16b | _16a4b | _16b16a | _16b4c | _16b16c | _16c16b
  | _2c8b4c | _8a16b2a | _4b16a4b | _8b16a2b | _8b16c2b | _4c16b4c | _8c16b2c
  deriving DecidableEq

/-- `tag_traits` -/
structure TagTraits where
  blockDims : BlockDim
  innerBlks : InnerBlkT
  ndims : ℕ

/-- The traits of the tags with a reorder from and to plain formats in the list of the engine. -/
def tagTraits : FormatTag → Option TagTraits
  | .aBc4b => some ⟨.B, ._4b, 3⟩
  | .aBc8b => some ⟨.B, ._8b, 3⟩
  | .aBc16b => some ⟨.B, ._16b, 3⟩
  | .aBcd4b => some ⟨.B, ._4b, 4⟩
  | .aBcd8b => some ⟨.B, ._8b, 4⟩
  | .Acdb8a => some ⟨.A, ._8a, 4⟩
  | .aBdec8b => some ⟨.B, ._8b, 5⟩
  | .aBcd16b => some ⟨.B, ._16b, 4⟩
  | .Abcd4a => some ⟨.A, ._4a, 4⟩
  | .Abcd16a => some ⟨.A, ._16a, 4⟩
  | .Acdb4a => some ⟨.A, ._4a, 4⟩
  | .Acdb16a => some ⟨.A, ._16a, 4⟩
  | .aBcde4b => some ⟨.B, ._4b, 5⟩
  | .aBcde16b => some ⟨.B, ._16b, 5⟩
  | .aBdec4b => some ⟨.B, ._4b, 5⟩
  | .aBdec16b => some ⟨.B, ._16b, 5⟩
  | .aBcde8b => some ⟨.B, ._8b, 5⟩
  | .Acdeb8a => some ⟨.A, ._8a, 5⟩
  | .aBdefc8b => some ⟨.B, ._8b, 6⟩
  | .Abcde4a => some ⟨.A, ._4a, 5⟩
  | .Abcde16a => some ⟨.A, ._16a, 5⟩
  | .Acdeb16a => some ⟨.A, ._16a, 5⟩
  | .aBcdef4b => some ⟨.B, ._4b, 6⟩
  | .aBcdef16b => some ⟨.B, ._16b, 6⟩
  | .aBdefc16b => some ⟨.B, ._16b, 6⟩
  | .ABc4b4a => some ⟨.AB, ._4b4a, 3⟩
  | .ABc8b8a => some ⟨.AB, ._8b8a, 3⟩
  | .ABc8a8b => some ⟨.AB, ._8a8b, 3⟩
  | .aBCd4c4b => some ⟨.BC, ._4c4b, 4⟩
  | .aBCd8c8b => some ⟨.BC, ._8c8b, 4⟩
  | .aBCd8b8c => some ⟨.BC, ._8b8c, 4⟩
  | .ABc16a16b => some ⟨.AB, ._16a16b, 3⟩
  | .ABc16b16a => some ⟨.AB, ._16b16a, 3⟩
  | .BAc16a16b => some ⟨.AB, ._16a16b, 3⟩
  | .aBCd16b16c => some ⟨.BC, ._16b16c, 4⟩
  | .aBCd16c16b => some ⟨.BC, ._16c16b, 4⟩
  | .aCBd16b16c => some ⟨.BC, ._16b16c, 4⟩
  | .ABcd4b4a => some ⟨.AB, ._4b4a, 4⟩
  | .ABcd8b8a => some ⟨.AB, ._8b8a, 4⟩
  | .ABcd8a8b => some ⟨.AB, ._8a8b, 4⟩
  | .aBCde4c4b => some ⟨.BC, ._4c4b, 5⟩
  | .aBCde4b4c => some ⟨.BC, ._4b4c, 5⟩
  | .aBCde8c8b => some ⟨.BC, ._8c8b, 5⟩
  | .aBCde8b8c => some ⟨.BC, ._8b8c, 5⟩
  | .ABcd16a16b => some ⟨.AB, ._16a16b, 4⟩
  | .ABcd16b16a => some ⟨.AB, ._16b16a, 4⟩
  | .BAcd16a16b => some ⟨.AB, ._16a16b, 4⟩
  | .aBCde16b16c => some ⟨.BC, ._16b16c, 5⟩
  | .aBCde16c16b => some ⟨.BC, ._16c16b, 5⟩
  | .aCBde16b16c => some ⟨.BC, ._16b16c, 5⟩
  | .ABcde4b4a => some ⟨.AB, ._4b4a, 5⟩
  | .ABcde8b8a => some ⟨.AB, ._8b8a, 5⟩
  | .ABcde8a8b => some ⟨.AB, ._8a8b, 5⟩
  | .aBCdef4c4b => some ⟨.BC, ._4c4b, 6⟩
  | .aBCdef8c8b => some ⟨.BC, ._8c8b, 6⟩
  | .aBCdef8b8c => some ⟨.BC, ._8b8c, 6⟩
  | .ABcde16a16b => some ⟨.AB, ._16a16b, 5⟩
  | .ABcde16b16a => some ⟨.AB, ._16b16a, 5⟩
  | .aBCdef16b16c => some ⟨.BC, ._16b16c, 6⟩
  | .aBCdef16c16b => some ⟨.BC, ._16c16b, 6⟩
  | .ABcd4b16a4b => some ⟨.AB, ._4b16a4b, 4⟩
  | .aBCde4c16b4c => some ⟨.BC, ._4c16b4c, 5⟩
  | _ => none

/-- The registered formats with one blocked dimension. -/
def oneDimTags : List FormatTag :=
  [.aBc4b, .aBc8b, .aBc16b, .aBcd4b, .aBcd8b, .Acdb8a, .aBdec8b, .aBcd16b, .Abcd4a, .Abcd16a, .Acdb4a, .Acdb16a,
   .aBcde4b, .aBcde16b, .aBdec4b, .aBdec16b, .aBcde8b, .Acdeb8a, .aBdefc8b, .Abcde4a, .Abcde16a, .Acdeb16a,
   .aBcdef4b, .aBcdef16b, .aBdefc16b]

/-- The registered formats with two blocked dimensions. -/
def twoDimTags : List FormatTag :=
  [.ABc4b4a, .ABc8b8a, .ABc8a8b, .aBCd4c4b, .aBCd8c8b, .aBCd8b8c, .ABc16a16b, .ABc16b16a, .BAc16a16b, .aBCd16b16c,
   .aBCd16c16b, .aCBd16b16c, .ABcd4b4a, .ABcd8b8a, .ABcd8a8b, .aBCde4c4b, .aBCde4b4c, .aBCde8c8b, .aBCde8b8c,
   .ABcd16a16b, .ABcd16b16a, .BAcd16a16b, .aBCde16b16c, .aBCde16c16b, .aCBde16b16c, .ABcde4b4a, .ABcde8b8a,
   .ABcde8a8b, .aBCdef4c4b, .aBCdef8c8b, .aBCdef8b8c, .ABcde16a16b, .ABcde16b16a, .aBCdef16b16c, .aBCdef16c16b,
   .ABcd4b16a4b, .aBCde4c16b4c]

/-- `PLAIN_TO_BLOCKED_IS_APPLICABLE` -/
def plainToBlockedIsApplicable (orderKeep : Bool) (tagO : FormatTag) (inputD outputD : MemoryDesc)
    (attr : Option OutputScales) : Bool :=
  simpleAttrCheck attr &&
    if orderKeep then outputD.matchesTag tagO && inputD.isPlain else inputD.matchesTag tagO && outputD.isPlain

/-- A store: the offset it goes to, the offset of the element it converts, and the offset of the old value that takes part;
`_qz_a1b0` reads none. -/
structure BlockStore where
  dst : ℤ
  src : ℤ
  old : Option ℤ
  deriving DecidableEq

/-- The conversions between two types of elements: `_qz_a1b0`, and `_qz` for a fixed `alpha` and `beta`, which takes no part of
the old value if `beta` is zero. -/
structure Conversion (α β : Type*) (betaIsZero : Bool) where
  qzA1B0 : α → β
  qz : α → β → β
  qz_of_beta : betaIsZero = true → ∀ x y y', qz x y = qz x y'

/-- What an element of the output becomes. -/
def Conversion.value {α β : Type*} {betaIsZero : Bool} (c : Conversion α β betaIsZero) (alphaIsOne : Bool) (x : α) (y : β) :
    β :=
  if alphaIsOne && betaIsZero then c.qzA1B0 x else c.qz x y

/-- The assignment of a store. -/
def BlockStore.assign {α β : Type*} {betaIsZero : Bool} (c : Conversion α β betaIsZero) (input : ℤ → α) (s : BlockStore) :
    Assign ℤ β :=
  ⟨s.dst, fun output => s.old.elim (c.qzA1B0 (input s.src)) fun a => c.qz (input s.src) (output a)⟩

/-- `nstl::min<int>(blksize, H - b * blksize)` -/
def blockLen (blksize H b : ℕ) : ℤ := min (blksize : ℤ) (DirectCopyExceptDim0.toInt (H - b * blksize))

/-! ## One blocked dimension -/

namespace OneDim

/-- `blksize` -/
def blksize (t : TagTraits) : ℕ :=
  if t.innerBlks = ._4a ∨ t.innerBlks = ._4b then 4
  else if t.innerBlks = ._8a ∨ t.innerBlks = ._8b then 8
  else 16

/-- `blk_idx` -/
def blkIdx (t : TagTraits) : ℕ := if t.blockDims = .A then 0 else 1

/-- The arguments of `blk_off` in the macro `off`. -/
def offArgs (ndims : ℕ) (h0 h1 m0 m1 m2 : ℤ) : List ℤ :=
  if ndims ≥ 6 then [h0, h1, m0, m1, m2]
  else if ndims ≥ 5 then [h0, h1, m1, m2]
  else if ndims ≥ 4 then [h0, h1, m2]
  else [h0, h1]

/-- `ker` on the block of the input at `i` and the block of the output at `o`. A counter of type `int` does not reach an
extent beyond `INT_MAX`. -/
def ker (orderKeep : Bool) (t : TagTraits) (inputD outputD : MemoryDesc) (alphaIsOne betaIsZero : Bool) (i o block : ℤ) :
    Option (List BlockStore) :=
  let flatD := if orderKeep then inputD else outputD
  let blockD := if orderKeep then outputD else inputD
  let L := inputD.dims (t.ndims - 1)
  let lBlkStride := blockD.blocking.strides (t.ndims - 1)
  if L < 2 ^ 31 then
    some ((List.range L).flatMap fun l : ℕ => (List.range block.toNat).map fun blk : ℕ =>
      let flatOff := blk * flatD.blocking.strides (blkIdx t) + l * flatD.blocking.strides (t.ndims - 1)
      if alphaIsOne && betaIsZero then
        if orderKeep then ⟨o + (l * lBlkStride + blk), i + flatOff, none⟩
        else ⟨o + flatOff, i + (l * lBlkStride + blk), none⟩
      else
        if orderKeep then ⟨o + (l * lBlkStride + blk), i + flatOff, some (o + (l * blksize t + blk))⟩
        else ⟨o + flatOff, i + (l * lBlkStride + blk), some (o + flatOff)⟩)
  else none

/-- The extents of the parallel loops. -/
def loopDims (orderKeep : Bool) (t : TagTraits) (inputD outputD : MemoryDesc) : List ℕ :=
  let dims := inputD.dims
  let pdims := (if orderKeep then outputD else inputD).paddedDims
  let M0 := if t.ndims ≥ 6 then dims (t.ndims - 4) else 1
  let M1 := if t.ndims ≥ 5 then dims (t.ndims - 3) else 1
  let M2 := if t.ndims ≥ 4 then dims (t.ndims - 2) else 1
  if blkIdx t = 0 then [pdims 0 / blksize t, dims 1, M0, M1, M2] else [dims 0, pdims 1 / blksize t, M0, M1, M2]

/-- The body of the parallel loops. -/
def body (orderKeep : Bool) (t : TagTraits) (inputD outputD : MemoryDesc) (alphaIsOne betaIsZero : Bool) (idx : List ℕ) :
    Option (List BlockStore) :=
  let iMult := if orderKeep then blksize t else 1
  let oMult := if orderKeep then 1 else blksize t
  let x0 := idx.getD 0 0
  let x1 := idx.getD 1 0
  let m0 := idx.getD 2 0
  let m1 := idx.getD 3 0
  let m2 := idx.getD 4 0
  if blkIdx t = 0 then
    let i := inputD.blkOff (offArgs t.ndims (x0 * iMult : ℕ) x1 m0 m1 m2)
    let o := outputD.blkOff (offArgs t.ndims (x0 * oMult : ℕ) x1 m0 m1 m2)
    ker orderKeep t inputD outputD alphaIsOne betaIsZero i o (blockLen (blksize t) (inputD.dims 0) x0)
  else
    let i := inputD.blkOff (offArgs t.ndims x0 (x1 * iMult : ℕ) m0 m1 m2)
    let o := outputD.blkOff (offArgs t.ndims x0 (x1 * oMult : ℕ) m0 m1 m2)
    ker orderKeep t inputD outputD alphaIsOne betaIsZero i o (blockLen (blksize t) (inputD.dims 1) x1)

/-- `execute`: the stores of thread `ithr` of a team of `nthr` threads. -/
def thread (orderKeep : Bool) (t : TagTraits) (inputD outputD : MemoryDesc) (alphaIsOne betaIsZero : Bool)
    (nthr ithr : ℕ) : Option (List BlockStore) := do
  let stores ← (parallelNdIters nthr (loopDims orderKeep t inputD outputD) ithr).mapM
    (body orderKeep t inputD outputD alphaIsOne betaIsZero)
  return stores.flatten

end OneDim

/-! ## Two blocked dimensions -/

/-- `AB_or_BC_blk_off` -/
def abOrBcBlkOff : InnerBlkT → ℕ → ℕ → ℕ
  | ._4b4c, x0, x1 => 4 * x0 + x1
  | ._4b4a, x0, x1 | ._4c4b, x0, x1 => 4 * x1 + x0
  | ._8a8b, x0, x1 | ._8b8c, x0, x1 => 8 * x0 + x1
  | ._8b8a, x0, x1 | ._8c8b, x0, x1 => 8 * x1 + x0
  | ._16a16b, x0, x1 | ._16b16c, x0, x1 => 16 * x0 + x1
  | ._16b16a, x0, x1 | ._16c16b, x0, x1 => 16 * x1 + x0
  | ._16a4b, x0, x1 | ._16b4c, x0, x1 => 4 * x0 + x1
  | ._8a16b2a, x0, x1 | ._8b16c2b, x0, x1 => x0 / 2 * 32 + x1 * 2 + x0 % 2
  | ._4b16a4b, x0, x1 | ._4c16b4c, x0, x1 => x1 / 4 * 64 + x0 * 4 + x1 % 4
  | ._8b16a2b, x0, x1 | ._8c16b2c, x0, x1 => x1 / 2 * 32 + x0 * 2 + x1 % 2
  | ._2c8b4c, x0, x1 => x1 / 4 * 32 + x0 * 4 + x1 % 4
  -- the blocks of one dimension are not passed
  | _, _, _ => 0

namespace TwoDim

/-- `blksize_0` -/
def blksize0 (t : TagTraits) : ℕ :=
  if t.innerBlks ∈ [InnerBlkT._4b4a, ._4b4c, ._4c4b] then 4
  else if t.innerBlks ∈ [InnerBlkT._8a8b, ._8b8a, ._8b8c, ._8c8b, ._2c8b4c] then 8
  else 16

/-- `blksize_1` -/
def blksize1 (t : TagTraits) : ℕ :=
  if t.innerBlks ∈ [InnerBlkT._8a8b, ._8b8a, ._8b8c, ._8c8b, ._2c8b4c] then 8
  else if t.innerBlks ∈ [InnerBlkT._16a16b, ._16b16a, ._16b16c, ._16c16b, ._8a16b2a, ._4b16a4b, ._8b16a2b, ._8b16c2b,
    ._4c16b4c, ._8c16b2c] then 16
  else 4

/-- `with_g` -/
def withG (t : TagTraits) : Bool := t.blockDims = .BC

/-- The arguments of `blk_off` in the macro `off`. -/
def offArgs (t : TagTraits) (g h0 h1 m0 m1 m2 : ℤ) : List ℤ :=
  (if withG t then [g] else []) ++
    if t.ndims ≥ 5 + (withG t).toNat then [h0, h1, m0, m1, m2]
    else if t.ndims ≥ 4 + (withG t).toNat then [h0, h1, m1, m2]
    else [h0, h1, m2]

/-- `ker` on the block of the input at `i` and the block of the output at `o`. -/
def ker (orderKeep : Bool) (t : TagTraits) (inputD outputD : MemoryDesc) (alphaIsOne betaIsZero : Bool)
    (i o blockH0 blockH1 : ℤ) : List BlockStore :=
  let flatD := if orderKeep then inputD else outputD
  (List.range blockH0.toNat).flatMap fun h0 : ℕ => (List.range blockH1.toNat).map fun h1 : ℕ =>
    let flatOff := h0 * flatD.blocking.strides ((withG t).toNat + 0) + h1 * flatD.blocking.strides ((withG t).toNat + 1)
    let dst := if orderKeep then o + abOrBcBlkOff t.innerBlks h0 h1 else o + flatOff
    let src := if orderKeep then i + flatOff else i + abOrBcBlkOff t.innerBlks h0 h1
    if alphaIsOne && betaIsZero then ⟨dst, src, none⟩ else ⟨dst, src, some dst⟩

/-- The extents of the parallel loops. -/
def loopDims (orderKeep : Bool) (t : TagTraits) (inputD outputD : MemoryDesc) : List ℕ :=
  let dims := inputD.dims
  let pdims := (if orderKeep then outputD else inputD).paddedDims
  let G := if withG t then dims 0 else 1
  let M0 := if t.ndims ≥ 5 + (withG t).toNat then dims (t.ndims - 3) else 1
  let M1 := if t.ndims ≥ 4 + (withG t).toNat then dims (t.ndims - 2) else 1
  let M2 := if t.ndims ≥ 3 + (withG t).toNat then dims (t.ndims - 1) else 1
  [G, pdims (0 + (withG t).toNat) / blksize0 t, pdims (1 + (withG t).toNat) / blksize1 t, M0, M1, M2]

/-- The body of the parallel loops. -/
def body (orderKeep : Bool) (t : TagTraits) (inputD outputD : MemoryDesc) (alphaIsOne betaIsZero : Bool) (idx : List ℕ) :
    List BlockStore :=
  let iMult0 := if orderKeep then blksize0 t else 1
  let oMult0 := if orderKeep then 1 else blksize0 t
  let iMult1 := if orderKeep then blksize1 t else 1
  let oMult1 := if orderKeep then 1 else blksize1 t
  let g := idx.getD 0 0
  let nbH0 := idx.getD 1 0
  let nbH1 := idx.getD 2 0
  let m0 := idx.getD 3 0
  let m1 := idx.getD 4 0
  let m2 := idx.getD 5 0
  let i := inputD.blkOff (offArgs t g (iMult0 * nbH0 : ℕ) (iMult1 * nbH1 : ℕ) m0 m1 m2)
  let o := outputD.blkOff (offArgs t g (oMult0 * nbH0 : ℕ) (oMult1 * nbH1 : ℕ) m0 m1 m2)
  ker orderKeep t inputD outputD alphaIsOne betaIsZero i o
    (blockLen (blksize0 t) (inputD.dims (0 + (withG t).toNat)) nbH0)
    (blockLen (blksize1 t) (inputD.dims (1 + (withG t).toNat)) nbH1)

/-- `execute`: the stores of thread `ithr` of a team of `nthr` threads. -/
def thread (orderKeep : Bool) (t : TagTraits) (inputD outputD : MemoryDesc) (alphaIsOne betaIsZero : Bool)
    (nthr ithr : ℕ) : List BlockStore :=
  (parallelNdIters nthr (loopDims orderKeep t inputD outputD) ithr).flatMap
    (body orderKeep t inputD outputD alphaIsOne betaIsZero)

end TwoDim

end MklDnn
