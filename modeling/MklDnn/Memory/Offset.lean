import MklDnn.Memory.Desc

/-!
# The offset and size functions of `memory_desc_wrapper`

All arithmetic is exact: the 32-bit divisions the source switches to for small operands compute the
same quotients.
-/

open LoopNest

namespace MklDnn

/-- The conversion of a `dim_t` to `size_t`: a negative number becomes a large one. -/
def toSizeT (x : ℤ) : ℕ := if x < 0 then (x + 2 ^ 64).toNat else x.toNat

namespace MemoryDesc

/-- `is_blocking_desc` -/
def isBlockingDesc (md : MemoryDesc) : Bool := md.formatKind = .blocked

/-- `is_plain` -/
def isPlain (md : MemoryDesc) : Bool := md.isBlockingDesc && md.blocking.innerNblks = 0

/-- `is_zero` -/
def isZero (md : MemoryDesc) : Bool := md.ndims = 0

/-- `nelems`: the number of elements, including the padding if `withPadding`. -/
def nelems (md : MemoryDesc) (withPadding : Bool) : ℕ :=
  if md.isZero then 0 else volume (if withPadding then md.paddedDims else md.dims) md.ndims

/-- `has_zero_dim` -/
def hasZeroDim (md : MemoryDesc) : Bool := md.nelems false = 0

/-- `compute_blocks` -/
def computeBlocks (md : MemoryDesc) : ℕ → ℕ :=
  if md.isBlockingDesc then innerBlocks md.blocking.inner else fun _ => 0

/-- `additional_buffer_size`: four bytes for each compensated channel. -/
def additionalBufferSize (md : MemoryDesc) : ℕ :=
  if md.extra.compensationConvS8s8 then
    (∏ d ∈ Finset.range md.ndims,
      if md.extra.compensationMask.testBit d then md.paddedDims d else 1) * 4
  else 0

/-- `size`, in bytes. -/
def size (md : MemoryDesc) : ℕ :=
  if md.isZero ∨ md.hasZeroDim ∨ md.formatKind = .any then 0
  else if md.formatKind = .wino then md.winoSize
  else if md.formatKind = .rnnPacked then md.rnnPackedSize
  else if md.offset0 ≠ 0 then 0
  else
    let blocks := md.computeBlocks
    let maxSize := (List.range md.ndims).foldl
      (fun maxSize d =>
        max maxSize (toSizeT ((md.paddedDims d / blocks d : ℕ) * md.blocking.strides d))) 0
    let maxSize :=
      if maxSize = 1 ∧ md.blocking.innerNblks ≠ 0 then blockSize md.blocking.inner else maxSize
    maxSize * md.dataType.size + md.additionalBufferSize

/-- `is_dense` -/
def isDense (md : MemoryDesc) (withPadding : Bool) : Bool :=
  if md.formatKind = .undef ∨ md.formatKind = .any then false
  else md.nelems withPadding * md.dataType.size = md.size

end MemoryDesc

/-- The state of the loop of `off_v` over the inner blocks. -/
structure OffState where
  pos : ℕ → ℕ
  physOffset : ℤ
  blkStride : ℕ

/-- One iteration of the loop of `off_v` over the inner blocks. -/
def peelBlk (b : InnerBlk) (st : OffState) : OffState where
  pos := Function.update st.pos b.idx (st.pos b.idx / b.blk)
  physOffset := st.physOffset + (st.pos b.idx % b.blk * st.blkStride : ℕ)
  blkStride := st.blkStride * b.blk

namespace MemoryDesc

/-- `off_v`: the physical offset of a position. The inner blocks are peeled off from the innermost
one, what remains of the position are the coordinates of the outer block. -/
def offV (md : MemoryDesc) (pos : ℕ → ℕ) (isPosPadded : Bool) : ℤ :=
  let posCopy := fun d => pos d + if isPosPadded then 0 else md.paddedOffsets d
  let st := md.blocking.inner.foldr peelBlk ⟨posCopy, md.offset0, 1⟩
  st.physOffset + ∑ d ∈ Finset.range md.ndims, st.pos d * md.blocking.strides d

end MemoryDesc

/-- The loop of `off_l`, from the last dimension to the first. -/
def offLPos (dims : ℕ → ℕ) (ndims l : ℕ) : ℕ → ℕ :=
  ((List.range ndims).foldl
    (fun (st : ℕ × (ℕ → ℕ)) rd =>
      let d := ndims - 1 - rd
      (st.1 / dims d, Function.update st.2 d (st.1 % dims d)))
    (l, fun _ => 0)).2

namespace MemoryDesc

/-- `off_l`: the physical offset of the logical offset `l`. -/
def offL (md : MemoryDesc) (l : ℕ) (isPosPadded : Bool) : ℤ :=
  md.offV (offLPos (if isPosPadded then md.paddedDims else md.dims) md.ndims l) isPosPadded

/-- `off`: the physical offset of the element with the given indices. -/
def off (md : MemoryDesc) (args : List ℕ) : ℤ := md.offV (fun d => args.getD d 0) false

/-- `only_padded_dim`: no dimension but `dim` is padded. -/
def onlyPaddedDim (md : MemoryDesc) (dim : ℕ) : Bool := ∀ d < md.ndims, d ≠ dim → md.dims d = md.paddedDims d

/-- `blk_off`: the physical offset of the outer block with the given indices. -/
def blkOff (md : MemoryDesc) (idxs : List ℤ) : ℤ :=
  (idxs.zipIdx.map fun x => x.1 * md.blocking.strides x.2).sum + md.offset0

end MemoryDesc

end MklDnn
