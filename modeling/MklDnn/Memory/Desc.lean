import Mathlib.Data.Int.Notation
import Mathlib.Logic.Function.Basic
import MklDnn.Common.Utils
import MklDnn.Lib.Box

/-!
# Memory descriptors

The descriptor of a blocked tensor, the format tags and the descriptor each of them stands for.
Arrays of extents, positions and strides are functions of the dimension, meaningful below `ndims`.
-/

namespace MklDnn

/-- The error statuses an initialisation can return. -/
inductive Status where
  | outOfMemory | invalidArguments | unimplemented | runtimeError
  deriving DecidableEq

inductive DataType where
  | undef | f16 | bf16 | f32 | s32 | s8 | u8
  deriving DecidableEq

/-- `types::data_type_size`, in bytes. -/
def DataType.size : DataType → ℕ
  | .undef => 0
  | .f16 => 2
  | .bf16 => 2
  | .f32 => 4
  | .s32 => 4
  | .s8 => 1
  | .u8 => 1

inductive FormatKind where
  | undef | any | blocked | wino | rnnPacked
  deriving DecidableEq

/-- One entry of `inner_idxs` / `inner_blks`: the dimension that is blocked and the size of the
block. -/
structure InnerBlk where
  idx : ℕ
  blk : ℕ
  deriving DecidableEq

/-- `blocking_desc_t`. The innermost blocks are dense; `inner` lists them from the outermost one. -/
structure BlockingDesc where
  /-- The strides between the outermost blocks. -/
  strides : ℕ → ℤ
  inner : List InnerBlk

/-- The number of innermost blocks. -/
def BlockingDesc.innerNblks (bd : BlockingDesc) : ℕ := bd.inner.length

/-- `memory_extra_desc_t`. -/
structure MemoryExtraDesc where
  /-- The flag `compensation_conv_s8s8`. -/
  compensationConvS8s8 : Bool
  /-- The flag `scale_adjust`. -/
  scaleAdjust : Bool
  compensationMask : ℕ

/-- `memory_desc_t`. The union of the format descriptions is kept as one field for each member. -/
structure MemoryDesc where
  ndims : ℕ
  dims : ℕ → ℕ
  dataType : DataType
  paddedDims : ℕ → ℕ
  paddedOffsets : ℕ → ℕ
  /-- Offset from the memory origin to the current block, non-zero only for a sub-block. -/
  offset0 : ℤ
  formatKind : FormatKind
  blocking : BlockingDesc
  /-- The field `size` of the Winograd description. -/
  winoSize : ℕ
  /-- The field `size` of the packed RNN description. -/
  rnnPackedSize : ℕ
  extra : MemoryExtraDesc

/-- `DNNL_MAX_NDIMS` -/
def maxNdims : ℕ := 12

/-- `types::zero_md` -/
def zeroMd : MemoryDesc where
  ndims := 0
  dims := fun _ => 0
  dataType := .undef
  paddedDims := fun _ => 0
  paddedOffsets := fun _ => 0
  offset0 := 0
  formatKind := .undef
  blocking := ⟨fun _ => 0, []⟩
  winoSize := 0
  rnnPackedSize := 0
  extra := ⟨false, false, 0⟩

/-- The overall block size of every dimension: the loop of `compute_blocks` and `fill_blocked`. -/
def innerBlocks (inner : List InnerBlk) : ℕ → ℕ :=
  inner.foldl (fun blocks b => Function.update blocks b.idx (blocks b.idx * b.blk)) fun _ => 1

/-- The product of all inner blocks. -/
def blockSize (inner : List InnerBlk) : ℕ := (inner.map InnerBlk.blk).prod

/-- The loop of `fill_blocked` that assigns the strides in the order of the permutation, the
outermost dimension first. -/
def assignStrides (paddedDims blocks : ℕ → ℕ) (st : ℕ × (ℕ → ℤ)) : List ℕ → ℕ × (ℕ → ℤ)
  | [] => st
  | d :: perm =>
    if paddedDims d = 0 then
      assignStrides paddedDims blocks (st.1, Function.update st.2 d 1) perm
    else
      let stride := st.1 / (paddedDims d / blocks d)
      assignStrides paddedDims blocks (stride, Function.update st.2 d (stride : ℤ)) perm

/-- `fill_blocked`: the blocked descriptor with the outer dimensions in the order `perm`. -/
def fillBlocked (md : MemoryDesc) (perm innerBlks innerIdxs : List ℕ) : Except Status MemoryDesc :=
  if perm.length = md.ndims ∧ innerBlks.length = innerIdxs.length then
    let inner := List.zipWith InnerBlk.mk innerIdxs innerBlks
    let blocks := innerBlocks inner
    let paddedDims := fun d => if d < md.ndims then rndUp (md.dims d) (blocks d) else md.paddedDims d
    let stride := (List.range md.ndims).foldl
      (fun stride d => stride * if paddedDims d = 0 then 1 else paddedDims d / blocks d)
      (blockSize inner)
    .ok { md with
      offset0 := 0
      paddedDims := paddedDims
      paddedOffsets := fun d => if d < md.ndims then 0 else md.paddedOffsets d
      blocking := {
        strides := (assignStrides paddedDims blocks (stride, md.blocking.strides) perm).2
        inner := inner } }
  else .error .invalidArguments

/-! ## Format tags -/

/-- `format_tag_t`. The order of the letters is the order of the outer dimensions; a capital letter
is a blocked dimension, the trailing part lists the inner blocks. -/
inductive FormatTag where
  | undef | any
  | a | ab | abc | abcd | abcde | abcdef | abdec | acb | acbde | acdb | acdeb | ba | bac | bacd
  | bca | bcda | bcdea | cba | cdba | cdeba | decab | Abc16a | ABc16a16b | aBc16b | ABc16b16a
  | Abc4a | aBc4b | ABc4b16a4b | ABc4b4a | ABc8a16b2a | ABc8a8b | aBc8b | ABc8b16a2b | BAc8a16b2a
  | ABc8b8a | Abcd16a | ABcd16a16b | ABcd32a32b | aBcd16b | ABcd16b16a | aBCd16b16c | aBCd16c16b
  | Abcd4a | aBcd4b | ABcd4b16a4b | ABcd4b4a | aBCd4c16b4c | aBCd4c4b | ABcd8a16b2a | ABcd8a8b
  | aBcd8b | ABcd8b16a2b | aBCd8b16c2b | BAcd8a16b2a | ABcd8b8a | aBCd8b8c | aBCd8c16b2c
  | ABcde8a16b2a | aCBd8b16c2b | aBCd8c8b | Abcde16a | ABcde16a16b | BAcde8a16b2a | aBcde16b
  | ABcde16b16a | aBCde16b16c | aBCde16c16b | aBCde2c8b4c | Abcde4a | aBcde4b | ABcde4b4a
  | aBCde4b4c | aBCde4c16b4c | aBCde4c4b | Abcde8a | ABcde8a8b | BAcde16b16a | aBcde8b
  | ABcde8b16a2b | aBCde8b16c2b | aCBde8b16c2b | ABcde8b8a | aBCde8b8c | ABcd4a8b8a4b
  | ABcd2a8b8a2b | aBCde4b8c8b4c | aBCde2b8c8b2c | aBCde8c16b2c | aBCde8c8b | aBcdef16b
  | aBCdef16b16c | aBCdef16c16b | aBcdef4b | aBCdef4c4b | aBCdef8b8c | aBCdef8c16b2c
  | aBCdef8b16c2b | aCBdef8b16c2b | aBCdef8c8b | aBdc16b | aBdc4b | aBdc8b | aBdec16b | aBdec32b
  | aBdec4b | aBdec8b | aBdefc16b | aCBdef16c16b | aBdefc4b | aBdefc8b | Abcdef16a | Acb16a
  | Acb4a | Acb8a | aCBd16b16c | aCBd16c16b | aCBde16b16c | aCBde16c16b | Acdb16a | Acdb32a
  | Acdb4a | Acdb8a | Acdeb16a | Acdeb4a | Acdeb8a | BAc16a16b | BAc16b16a | BAcd16a16b
  | BAcd16b16a
  deriving DecidableEq

/-- `types::format_tag_to_kind` -/
def FormatTag.kind : FormatTag → FormatKind
  | .undef => .undef
  | .any => .any
  | _ => .blocked

/-- The arguments of one case of `compute_blocking`. -/
structure BlockingArgs where
  perm : List ℕ
  innerBlks : List ℕ
  innerIdxs : List ℕ

/-- The cases of the switch in `compute_blocking`. -/
def blockingArgs : FormatTag → Option BlockingArgs
  | .undef => none
  | .any => none
  | .a => some ⟨[0], [], []⟩
  | .ab => some ⟨[0, 1], [], []⟩
  | .abc => some ⟨[0, 1, 2], [], []⟩
  | .abcd => some ⟨[0, 1, 2, 3], [], []⟩
  | .abcde => some ⟨[0, 1, 2, 3, 4], [], []⟩
  | .abcdef => some ⟨[0, 1, 2, 3, 4, 5], [], []⟩
  | .abdec => some ⟨[0, 1, 3, 4, 2], [], []⟩
  | .acb => some ⟨[0, 2, 1], [], []⟩
  | .acbde => some ⟨[0, 2, 1, 3, 4], [], []⟩
  | .acdb => some ⟨[0, 2, 3, 1], [], []⟩
  | .acdeb => some ⟨[0, 2, 3, 4, 1], [], []⟩
  | .ba => some ⟨[1, 0], [], []⟩
  | .bac => some ⟨[1, 0, 2], [], []⟩
  | .bacd => some ⟨[1, 0, 2, 3], [], []⟩
  | .bca => some ⟨[1, 2, 0], [], []⟩
  | .bcda => some ⟨[1, 2, 3, 0], [], []⟩
  | .bcdea => some ⟨[1, 2, 3, 4, 0], [], []⟩
  | .cba => some ⟨[2, 1, 0], [], []⟩
  | .cdba => some ⟨[2, 3, 1, 0], [], []⟩
  | .cdeba => some ⟨[2, 3, 4, 1, 0], [], []⟩
  | .decab => some ⟨[3, 4, 2, 0, 1], [], []⟩
  | .Abc4a => some ⟨[0, 1, 2], [4], [0]⟩
  | .aBc4b => some ⟨[0, 1, 2], [4], [1]⟩
  | .ABc4b16a4b => some ⟨[0, 1, 2], [4, 16, 4], [1, 0, 1]⟩
  | .ABc4b4a => some ⟨[0, 1, 2], [4, 4], [1, 0]⟩
  | .Abcd4a => some ⟨[0, 1, 2, 3], [4], [0]⟩
  | .aBcd4b => some ⟨[0, 1, 2, 3], [4], [1]⟩
  | .ABcd4b4a => some ⟨[0, 1, 2, 3], [4, 4], [1, 0]⟩
  | .aBCd4c16b4c => some ⟨[0, 1, 2, 3], [4, 16, 4], [2, 1, 2]⟩
  | .aBCd4c4b => some ⟨[0, 1, 2, 3], [4, 4], [2, 1]⟩
  | .Abcde4a => some ⟨[0, 1, 2, 3, 4], [4], [0]⟩
  | .aBcde4b => some ⟨[0, 1, 2, 3, 4], [4], [1]⟩
  | .ABcde4b4a => some ⟨[0, 1, 2, 3, 4], [4, 4], [1, 0]⟩
  | .aBCde4c4b => some ⟨[0, 1, 2, 3, 4], [4, 4], [2, 1]⟩
  | .aBcdef4b => some ⟨[0, 1, 2, 3, 4, 5], [4], [1]⟩
  | .aBCdef4c4b => some ⟨[0, 1, 2, 3, 4, 5], [4, 4], [2, 1]⟩
  | .aBdc4b => some ⟨[0, 1, 3, 2], [4], [1]⟩
  | .aBdec4b => some ⟨[0, 1, 3, 4, 2], [4], [1]⟩
  | .aBdefc4b => some ⟨[0, 1, 3, 4, 5, 2], [4], [1]⟩
  | .Acb4a => some ⟨[0, 2, 1], [4], [0]⟩
  | .Acdb4a => some ⟨[0, 2, 3, 1], [4], [0]⟩
  | .Acdeb4a => some ⟨[0, 2, 3, 4, 1], [4], [0]⟩
  | .Abc16a => some ⟨[0, 1, 2], [16], [0]⟩
  | .ABc16a16b => some ⟨[0, 1, 2], [16, 16], [0, 1]⟩
  | .aBc16b => some ⟨[0, 1, 2], [16], [1]⟩
  | .ABc16b16a => some ⟨[0, 1, 2], [16, 16], [1, 0]⟩
  | .ABc8a16b2a => some ⟨[0, 1, 2], [8, 16, 2], [0, 1, 0]⟩
  | .BAc8a16b2a => some ⟨[1, 0, 2], [8, 16, 2], [0, 1, 0]⟩
  | .ABc8a8b => some ⟨[0, 1, 2], [8, 8], [0, 1]⟩
  | .aBc8b => some ⟨[0, 1, 2], [8], [1]⟩
  | .ABc8b16a2b => some ⟨[0, 1, 2], [8, 16, 2], [1, 0, 1]⟩
  | .ABc8b8a => some ⟨[0, 1, 2], [8, 8], [1, 0]⟩
  | .Abcd16a => some ⟨[0, 1, 2, 3], [16], [0]⟩
  | .ABcd16a16b => some ⟨[0, 1, 2, 3], [16, 16], [0, 1]⟩
  | .aBcd16b => some ⟨[0, 1, 2, 3], [16], [1]⟩
  | .ABcd16b16a => some ⟨[0, 1, 2, 3], [16, 16], [1, 0]⟩
  | .aBCd16b16c => some ⟨[0, 1, 2, 3], [16, 16], [1, 2]⟩
  | .aBCd16c16b => some ⟨[0, 1, 2, 3], [16, 16], [2, 1]⟩
  | .ABcd4b16a4b => some ⟨[0, 1, 2, 3], [4, 16, 4], [1, 0, 1]⟩
  | .ABcd8a16b2a => some ⟨[0, 1, 2, 3], [8, 16, 2], [0, 1, 0]⟩
  | .BAcd8a16b2a => some ⟨[1, 0, 2, 3], [8, 16, 2], [0, 1, 0]⟩
  | .ABcd8a8b => some ⟨[0, 1, 2, 3], [8, 8], [0, 1]⟩
  | .aBcd8b => some ⟨[0, 1, 2, 3], [8], [1]⟩
  | .ABcd8b16a2b => some ⟨[0, 1, 2, 3], [8, 16, 2], [1, 0, 1]⟩
  | .aBCd8b16c2b => some ⟨[0, 1, 2, 3], [8, 16, 2], [1, 2, 1]⟩
  | .aCBd8b16c2b => some ⟨[0, 2, 1, 3], [8, 16, 2], [1, 2, 1]⟩
  | .ABcd8b8a => some ⟨[0, 1, 2, 3], [8, 8], [1, 0]⟩
  | .aBCd8b8c => some ⟨[0, 1, 2, 3], [8, 8], [1, 2]⟩
  | .aBCd8c16b2c => some ⟨[0, 1, 2, 3], [8, 16, 2], [2, 1, 2]⟩
  | .aBCd8c8b => some ⟨[0, 1, 2, 3], [8, 8], [2, 1]⟩
  | .Abcde16a => some ⟨[0, 1, 2, 3, 4], [16], [0]⟩
  | .ABcde16a16b => some ⟨[0, 1, 2, 3, 4], [16, 16], [0, 1]⟩
  | .aBcde16b => some ⟨[0, 1, 2, 3, 4], [16], [1]⟩
  | .ABcde16b16a => some ⟨[0, 1, 2, 3, 4], [16, 16], [1, 0]⟩
  | .aBCde16b16c => some ⟨[0, 1, 2, 3, 4], [16, 16], [1, 2]⟩
  | .aBCde16c16b => some ⟨[0, 1, 2, 3, 4], [16, 16], [2, 1]⟩
  | .aBCde2c8b4c => some ⟨[0, 1, 2, 3, 4], [2, 8, 4], [2, 1, 2]⟩
  | .aBCde4b4c => some ⟨[0, 1, 2, 3, 4], [4, 4], [1, 2]⟩
  | .aBCde4c16b4c => some ⟨[0, 1, 2, 3, 4], [4, 16, 4], [2, 1, 2]⟩
  | .Abcde8a => some ⟨[0, 1, 2, 3, 4], [8], [0]⟩
  | .ABcde8a8b => some ⟨[0, 1, 2, 3, 4], [8, 8], [0, 1]⟩
  | .aBcde8b => some ⟨[0, 1, 2, 3, 4], [8], [1]⟩
  | .ABcde8a16b2a => some ⟨[0, 1, 2, 3, 4], [8, 16, 2], [0, 1, 0]⟩
  | .ABcde8b16a2b => some ⟨[0, 1, 2, 3, 4], [8, 16, 2], [1, 0, 1]⟩
  | .BAcde8a16b2a => some ⟨[1, 0, 2, 3, 4], [8, 16, 2], [0, 1, 0]⟩
  | .aBCde8b16c2b => some ⟨[0, 1, 2, 3, 4], [8, 16, 2], [1, 2, 1]⟩
  | .aCBde8b16c2b => some ⟨[0, 2, 1, 3, 4], [8, 16, 2], [1, 2, 1]⟩
  | .ABcde8b8a => some ⟨[0, 1, 2, 3, 4], [8, 8], [1, 0]⟩
  | .aBCde8b8c => some ⟨[0, 1, 2, 3, 4], [8, 8], [1, 2]⟩
  | .aBCde8c16b2c => some ⟨[0, 1, 2, 3, 4], [8, 16, 2], [2, 1, 2]⟩
  | .aBCde8c8b => some ⟨[0, 1, 2, 3, 4], [8, 8], [2, 1]⟩
  | .aBcdef16b => some ⟨[0, 1, 2, 3, 4, 5], [16], [1]⟩
  | .aBCdef16b16c => some ⟨[0, 1, 2, 3, 4, 5], [16, 16], [1, 2]⟩
  | .aBCdef16c16b => some ⟨[0, 1, 2, 3, 4, 5], [16, 16], [2, 1]⟩
  | .aBCdef8b8c => some ⟨[0, 1, 2, 3, 4, 5], [8, 8], [1, 2]⟩
  | .aBCdef8b16c2b => some ⟨[0, 1, 2, 3, 4, 5], [8, 16, 2], [1, 2, 1]⟩
  | .aBCdef8c16b2c => some ⟨[0, 1, 2, 3, 4, 5], [8, 16, 2], [2, 1, 2]⟩
  | .aCBdef8b16c2b => some ⟨[0, 2, 1, 3, 4, 5], [8, 16, 2], [1, 2, 1]⟩
  | .aBCdef8c8b => some ⟨[0, 1, 2, 3, 4, 5], [8, 8], [2, 1]⟩
  | .aBdc16b => some ⟨[0, 1, 3, 2], [16], [1]⟩
  | .aBdc8b => some ⟨[0, 1, 3, 2], [8], [1]⟩
  | .aBdec16b => some ⟨[0, 1, 3, 4, 2], [16], [1]⟩
  | .aBdec8b => some ⟨[0, 1, 3, 4, 2], [8], [1]⟩
  | .aBdefc16b => some ⟨[0, 1, 3, 4, 5, 2], [16], [1]⟩
  | .aBdefc8b => some ⟨[0, 1, 3, 4, 5, 2], [8], [1]⟩
  | .Acb16a => some ⟨[0, 2, 1], [16], [0]⟩
  | .Acb8a => some ⟨[0, 2, 1], [8], [0]⟩
  | .aCBd16b16c => some ⟨[0, 2, 1, 3], [16, 16], [1, 2]⟩
  | .aCBde16b16c => some ⟨[0, 2, 1, 3, 4], [16, 16], [1, 2]⟩
  | .Acdb16a => some ⟨[0, 2, 3, 1], [16], [0]⟩
  | .Acdb8a => some ⟨[0, 2, 3, 1], [8], [0]⟩
  | .Acdeb16a => some ⟨[0, 2, 3, 4, 1], [16], [0]⟩
  | .Acdeb8a => some ⟨[0, 2, 3, 4, 1], [8], [0]⟩
  | .BAc16a16b => some ⟨[1, 0, 2], [16, 16], [0, 1]⟩
  | .BAcd16a16b => some ⟨[1, 0, 2, 3], [16, 16], [0, 1]⟩
  | .ABcd32a32b => some ⟨[0, 1, 2, 3], [32, 32], [0, 1]⟩
  | .BAcde16b16a => some ⟨[1, 0, 2, 3, 4], [16, 16], [1, 0]⟩
  | .ABcd4a8b8a4b => some ⟨[0, 1, 2, 3], [4, 8, 8, 4], [0, 1, 0, 1]⟩
  | .ABcd2a8b8a2b => some ⟨[0, 1, 2, 3], [2, 8, 8, 2], [0, 1, 0, 1]⟩
  | .aBCde4b8c8b4c => some ⟨[0, 1, 2, 3, 4], [4, 8, 8, 4], [1, 2, 1, 2]⟩
  | .aBCde2b8c8b2c => some ⟨[0, 1, 2, 3, 4], [2, 8, 8, 2], [1, 2, 1, 2]⟩
  | .aBdec32b => some ⟨[0, 1, 3, 4, 2], [32], [1]⟩
  | .aCBdef16c16b => some ⟨[0, 2, 1, 3, 4, 5], [16, 16], [2, 1]⟩
  | .Abcdef16a => some ⟨[0, 1, 2, 3, 4, 5], [16], [0]⟩
  | .aCBd16c16b => some ⟨[0, 2, 1, 3], [16, 16], [2, 1]⟩
  | .aCBde16c16b => some ⟨[0, 2, 1, 3, 4], [16, 16], [2, 1]⟩
  | .Acdb32a => some ⟨[0, 2, 3, 1], [32], [0]⟩
  | .BAcd16b16a => some ⟨[1, 0, 2, 3], [16, 16], [1, 0]⟩
  | .BAc16b16a => some ⟨[1, 0, 2], [16, 16], [1, 0]⟩

/-- `memory_desc_wrapper::compute_blocking` -/
def computeBlocking (md : MemoryDesc) (tag : FormatTag) : Except Status MemoryDesc :=
  if md.ndims = 0 then .error .invalidArguments
  else
    match blockingArgs tag with
    | some args => fillBlocked md args.perm args.innerBlks args.innerIdxs
    | none => .error .invalidArguments

/-! ## Creation -/

/-- `memory_desc_sanity_check` -/
def memoryDescSanityCheck (ndims : ℕ) (dims : ℕ → ℤ) (dataType : DataType) (formatKind : FormatKind) :
    Bool :=
  ndims = 0 ∨
    0 < ndims ∧ ndims ≤ maxNdims ∧ dataType ≠ .undef ∧ formatKind ≠ .undef ∧ ∀ d < ndims, 0 ≤ dims d

/-- The descriptor with the given extents, before its format is filled in. -/
def newMd (ndims : ℕ) (dims : ℕ → ℤ) (dataType : DataType) (formatKind : FormatKind) : MemoryDesc :=
  { zeroMd with
    ndims := ndims
    dims := fun d => if d < ndims then (dims d).toNat else 0
    dataType := dataType
    paddedDims := fun d => if d < ndims then (dims d).toNat else 0
    formatKind := formatKind }

/-- `dnnl_memory_desc_init_by_tag` -/
def memoryDescInitByTag (ndims : ℕ) (dims : ℕ → ℤ) (dataType : DataType) (tag : FormatTag) :
    Except Status MemoryDesc :=
  if ndims = 0 ∨ tag = .undef then .ok zeroMd
  else if memoryDescSanityCheck ndims dims dataType tag.kind then
    let md := newMd ndims dims dataType tag.kind
    if tag = .any then .ok md
    else if tag.kind = .blocked then computeBlocking md tag
    else .error .invalidArguments
  else .error .invalidArguments

/-- The strides `dnnl_memory_desc_init_by_strides` uses when none are passed: the loop from the last
dimension down to the first. -/
def defaultStrides (paddedDims : ℕ → ℕ) (ndims : ℕ) : ℕ → ℤ :=
  (List.range (ndims - 1)).foldr
    (fun d strides => Function.update strides d (strides (d + 1) * paddedDims (d + 1)))
    (Function.update (fun _ => 0) (ndims - 1) 1)

/-- `dnnl_memory_desc_init_by_strides` -/
def memoryDescInitByStrides (ndims : ℕ) (dims : ℕ → ℤ) (dataType : DataType)
    (strides : Option (ℕ → ℤ)) : Except Status MemoryDesc :=
  if ndims = 0 then .ok zeroMd
  else if memoryDescSanityCheck ndims dims dataType .any then
    let md := newMd ndims dims dataType .blocked
    let strides := strides.getD (defaultStrides md.paddedDims ndims)
    .ok { md with
      blocking := { strides := fun d => if d < ndims then strides d else 0, inner := [] } }
  else .error .invalidArguments

end MklDnn

/-!
## Format tags of a descriptor

A descriptor is compared with the one that its extents have for a format tag. Neither the offset of the first element nor the
padding takes part in the comparison.
-/

namespace MklDnn

/-- `memory_desc_matches_tag`, without strides. -/
def MemoryDesc.matchesTag (md : MemoryDesc) (tag : FormatTag) : Bool :=
  if md.formatKind ≠ tag.kind then false
  else
    match memoryDescInitByTag md.ndims (fun d => md.dims d) md.dataType tag with
    | .error _ => false
    | .ok gold =>
      md.formatKind = .blocked ∧ md.blocking.inner = gold.blocking.inner ∧
        ∀ d < md.ndims, md.blocking.strides d = gold.blocking.strides d

/-- `operator==`. Of the Winograd and of the packed description the size is compared, which is all that is kept of them. -/
def MemoryDesc.isEqual (lhs rhs : MemoryDesc) : Bool :=
  if lhs.ndims = 0 ∧ rhs.ndims = 0 then true
  else if ¬ (lhs.ndims = rhs.ndims ∧ (∀ d < lhs.ndims, lhs.dims d = rhs.dims d) ∧ lhs.dataType = rhs.dataType ∧
      (∀ d < lhs.ndims, lhs.paddedDims d = rhs.paddedDims d) ∧
      (∀ d < lhs.ndims, lhs.paddedOffsets d = rhs.paddedOffsets d) ∧ lhs.offset0 = rhs.offset0 ∧
      lhs.formatKind = rhs.formatKind) then false
  else if ¬ (lhs.extra.compensationConvS8s8 = rhs.extra.compensationConvS8s8 ∧
      lhs.extra.scaleAdjust = rhs.extra.scaleAdjust ∧
      (lhs.extra.compensationConvS8s8 = true → lhs.extra.compensationMask = rhs.extra.compensationMask)) then false
  else
    match lhs.formatKind with
    | .blocked => (∀ d < lhs.ndims, lhs.blocking.strides d = rhs.blocking.strides d) ∧
        lhs.blocking.inner = rhs.blocking.inner
    | .wino => lhs.winoSize = rhs.winoSize
    | .rnnPacked => lhs.rnnPackedSize = rhs.rnnPackedSize
    | _ => true

/-- `memory_desc_matches_one_of_tag` -/
def MemoryDesc.matchesOneOfTag (md : MemoryDesc) (tags : List FormatTag) : FormatTag :=
  (tags.find? fun tag => md.matchesTag tag).getD .undef

end MklDnn

/-!
## Descriptors from blocking descriptors

`memory_desc_init_by_blocking_desc` lays a tensor out densely. The strides that it is given only say in which order
the outer dimensions lie.
-/

namespace MklDnn

/-- `memory_desc_init_by_blocking_desc`, which always succeeds. -/
def memoryDescInitByBlockingDesc (md : MemoryDesc) (blk : BlockingDesc) : MemoryDesc :=
  let blocks := innerBlocks blk.inner
  let paddedDims := fun d => if d < md.ndims then rndUp (md.dims d) (blocks d) else md.paddedDims d
  let ndims := min maxNdims md.ndims
  let sorted := simultaneousSort blk.strides id ndims fun a b => b - a
  -- the innermost dimension first
  let assigned := (List.range ndims).foldr
    (fun i (st : ℕ × (ℕ → ℤ)) =>
      let d := sorted.keys i
      (st.1 * (paddedDims d / blocks d), Function.update st.2 d st.1))
    (blockSize blk.inner, sorted.vals)
  { md with
    paddedDims := paddedDims
    paddedOffsets := fun d => if d < md.ndims then 0 else md.paddedOffsets d
    offset0 := 0
    formatKind := .blocked
    blocking := { strides := assigned.2, inner := blk.inner }
    extra := ⟨false, false, 0⟩ }

end MklDnn
