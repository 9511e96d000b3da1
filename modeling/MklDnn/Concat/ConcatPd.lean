import MklDnn.Memory.Desc
import MklDnn.Memory.Submemory
import MklDnn.Reorder.Simple

/-!
# The descriptor of a concatenation

`concat_pd_t::init` chooses a format for a destination that has none and describes the image of every source in the
destination.
-/

open MklDnn.DirectCopyExceptDim0 (toInt)

namespace MklDnn.ConcatPd

/-- `dnnl_concat_primitive_desc_create`: the checks of the arguments, and the destination that the implementations get. The
extent of the destination is an `int`. -/
def createDstMd (dstMd : Option MemoryDesc) (concatDim : ℕ) : List MemoryDesc → Except Status MemoryDesc
  | [] => .error .invalidArguments
  | src0 :: srcMds => do
    let concatDimSz ← srcMds.foldlM (fun (sz : ℤ) src =>
      if src.ndims ≠ src0.ndims then .error .invalidArguments
      else if ∃ d < src0.ndims, d ≠ concatDim ∧ src.dims d ≠ src0.dims d then .error .invalidArguments
      else if src.dataType ≠ src0.dataType then .error .invalidArguments
      else .ok (toInt (sz + src.dims concatDim))) (toInt (src0.dims concatDim))
    match dstMd with
    | some dst =>
      if dst.ndims ≠ src0.ndims then .error .invalidArguments
      else if ∃ d < src0.ndims, (dst.dims d : ℤ) ≠ if d = concatDim then concatDimSz else src0.dims d then
        .error .invalidArguments
      else .ok dst
    | none =>
      -- with a negative extent every implementation fails in the sanity check of the first image
      if concatDimSz < 0 then .error .unimplemented
      else .ok { src0 with
        dims := Function.update src0.dims concatDim concatDimSz.toNat
        formatKind := .any }

/-- The loops of `init` and `set_default_params` over the images. An offset is at most the extent of the destination, so
the sum does not overflow. -/
def srcImageMds (dstMd : MemoryDesc) (concatDim : ℕ) : ℤ → List MemoryDesc → Except Status (List MemoryDesc)
  | _, [] => .ok []
  | offset, src :: srcMds => do
    let dim := toInt (src.dims concatDim)
    let srcImgD ← memoryDescInitSubmemory dstMd (Function.update (fun d => dstMd.dims d) concatDim dim)
      (Function.update (fun _ => 0) concatDim offset)
    let images ← srcImageMds dstMd concatDim (offset + dim) srcMds
    return srcImgD :: images

/-- `set_default_params`: the destination with a format. -/
def setDefaultParams (dstMd : MemoryDesc) (concatDim : ℕ) (srcMds : List MemoryDesc) : Except Status MemoryDesc :=
  -- with the format of the first plain input, or with the plain layout
  let withoutBlocks := fun dstMd : MemoryDesc =>
    if srcMds.any fun src => src.isBlockingDesc && src.isPlain then
      .ok (memoryDescInitByBlockingDesc dstMd (srcMds.headD zeroMd).blocking)
    else memoryDescInitByStrides dstMd.ndims (fun d => dstMd.dims d) dstMd.dataType none
  if dstMd.formatKind ≠ .any then .ok dstMd
  else
    match srcMds.find? fun src => src.isBlockingDesc && !src.isPlain with
    | some src =>
      let blockedMd := memoryDescInitByBlockingDesc dstMd src.blocking
      match srcImageMds blockedMd concatDim 0 srcMds with
      | .ok _ => .ok blockedMd
      | .error _ => withoutBlocks blockedMd
    | none => withoutBlocks dstMd

/-- `init`: the destination and the images of the sources. -/
def init (attrHasDefaultValues : Bool) (dstMd : MemoryDesc) (concatDim : ℕ) (srcMds : List MemoryDesc) :
    Except Status (MemoryDesc × List MemoryDesc) :=
  match setDefaultParams dstMd concatDim srcMds with
  | .error _ => .error .unimplemented
  | .ok dstMd =>
    if !attrHasDefaultValues then .error .unimplemented
    else if ∃ src ∈ srcMds, ¬ src.isBlockingDesc ∨ src.isAdditionalBuffer then .error .unimplemented
    else do
      let images ← srcImageMds dstMd concatDim 0 srcMds
      return (dstMd, images)

end MklDnn.ConcatPd
