import MklDnn.Memory.ZeroPad

/-!
# Submemory descriptors

`dnnl_memory_desc_init_submemory` describes a part of a parent tensor inside the buffer of the parent.
Creating a memory object on the descriptor runs `zero_pad` on this buffer.
-/

open LoopNest

namespace MklDnn

/-- `dnnl_memory_desc_init_submemory` -/
def memoryDescInitSubmemory (parentMd : MemoryDesc) (dims offsets : ℕ → ℤ) :
    Except Status MemoryDesc :=
  let srcD := parentMd
  if !memoryDescSanityCheck srcD.ndims (fun d => srcD.dims d) srcD.dataType .any then
    .error .invalidArguments
  else if ∃ d < srcD.ndims, dims d < 0 ∨ offsets d < 0 ∨ offsets d + dims d > srcD.dims d then
    .error .invalidArguments
  else if srcD.formatKind ≠ .blocked then .error .unimplemented
  else
    let blocks := srcD.computeBlocks
    let ok := fun d => offsets d % blocks d = 0 ∧ srcD.paddedOffsets d = 0 ∧
      (dims d % blocks d = 0 ∨ dims d < blocks d)
    if ∃ d < srcD.ndims, ¬ ok d then .error .unimplemented
    else
      let isRightBorder := fun d => offsets d + dims d = srcD.dims d
      .ok { srcD with
        dims := fun d => if d < srcD.ndims then (dims d).toNat else srcD.dims d
        paddedDims := fun d =>
          if d < srcD.ndims then
            (if isRightBorder d then srcD.paddedDims d - offsets d else dims d).toNat
          else srcD.paddedDims d
        offset0 := srcD.offset0 +
          ∑ d ∈ Finset.range srcD.ndims, offsets d / blocks d * srcD.blocking.strides d }

/-- A descriptor of a whole tensor: one built by `dnnl_memory_desc_init_by_tag` or by
`dnnl_memory_desc_init_by_strides`. -/
def IsWholeTensor (md : MemoryDesc) : Prop :=
  (∃ ndims dims dt tag, memoryDescInitByTag ndims dims dt tag = .ok md ∧ md.formatKind = .blocked) ∨
    ∃ ndims dims dt strides, memoryDescInitByStrides ndims dims dt strides = .ok md

end MklDnn
