import Mathlib.Algebra.Field.Basic
import MklDnn.Common.DescInits
import MklDnn.Common.Threading
import MklDnn.Memory.Desc
import MklDnn.Memory.Offset

/-!
# Reference LRN

`ref_lrn_fwd_t` and `ref_lrn_bwd_t`, with the offsets that they compute for four layouts. The arithmetic on elements is exact,
and the negative power is a parameter. Inputs and output are different buffers. Where an `int` does not hold its value, there
is no result.
-/

open Interleaving

namespace MklDnn.RefLrn

open PrimitiveHashing (AlgKind F32 PropKind)

/-! ## Descriptors -/

/-- `lrn_desc_t`, but for the numbers of the formula. -/
structure LrnDesc where
  propKind : PropKind
  algKind : AlgKind
  dataDesc : MemoryDesc
  diffDataDesc : MemoryDesc
  localSize : ℕ

namespace LrnDesc

variable (desc : LrnDesc)

def isFwd : Bool := OpDescInit.fwdKinds.contains desc.propKind

/-- The arguments of `lrn_desc_init`, with the numbers of the formula. -/
def args (alpha beta k : F32) : OpDescInit.LrnArgs where
  hasDesc := true
  algKind := desc.algKind
  dataDesc := some desc.dataDesc.raw
  diffDataDesc := if desc.isFwd then none else some desc.diffDataDesc.raw
  localSize := desc.localSize
  alpha := alpha
  beta := beta
  k := k

def MB : ℕ := desc.dataDesc.dims 0

def C : ℕ := desc.dataDesc.dims 1

def H : ℕ := desc.dataDesc.dims 2

def W : ℕ := desc.dataDesc.dims 3

def acrossChannels : Bool := desc.algKind = .lrnAcrossChannels

def halfSize : ℕ := (desc.localSize - 1) / 2

def summands : ℕ := if desc.acrossChannels then desc.localSize else desc.localSize * desc.localSize

/-- `dat_tag_` -/
def datTag : FormatTag := desc.dataDesc.matchesOneOfTag [.aBcd16b, .aBcd8b, .abcd, .acdb]

end LrnDesc

/-- What a primitive is created for: the data type of the implementation, the features of the machine, and whether the attributes
have their default values. -/
structure Target where
  dataType : DataType
  avx512Core : Bool
  hasDefaultValues : Bool

/-- `ref_lrn_fwd_t::pd_t::init` -/
def fwdInit (t : Target) (desc : LrnDesc) : Except Status FormatTag :=
  if desc.isFwd && desc.dataDesc.dataType = t.dataType && (t.dataType ≠ .bf16 || t.avx512Core) && t.hasDefaultValues then
    .ok desc.datTag
  else .error .unimplemented

/-- `ref_lrn_bwd_t::pd_t::init` -/
def bwdInit (t : Target) (desc : LrnDesc) : Except Status FormatTag :=
  if !desc.isFwd && desc.dataDesc.dataType = t.dataType && desc.diffDataDesc.dataType = t.dataType &&
      (t.dataType ≠ .bf16 || t.avx512Core) && t.hasDefaultValues then
    .ok desc.datTag
  else .error .unimplemented

/-! ## Offsets -/

/-- `blksize` -/
def blksize (tag : FormatTag) : ℕ := if tag = .aBcd16b then 16 else 8

/-- The tag is one of those for blocks of channels. -/
def isBlocked (tag : FormatTag) : Bool := tag = .aBcd16b || tag = .aBcd8b

section Offsets

variable (desc : LrnDesc) (tag : FormatTag)

/-- `mb * stride_mb` -/
def strideMb (mb : ℕ) : ℤ := mb * desc.dataDesc.blocking.strides 0

/-- `data_off` -/
def dataOff (mb c h w : ℕ) : ℤ :=
  let B := blksize tag
  if isBlocked tag then
    strideMb desc mb + (c / B * desc.H * desc.W * B + h * desc.W * B + w * B + c % B : ℕ)
  else if tag = .abcd then strideMb desc mb + (c * desc.H * desc.W + h * desc.W + w : ℕ)
  else if tag = .acdb then strideMb desc mb + (h * desc.W * desc.C + w * desc.C + c : ℕ)
  else desc.dataDesc.off [mb, c, h, w]

/-- The greatest numbers of type `int`: the sizes, the end of a window, and the parts of an offset. -/
def ints : List ℕ :=
  let B := blksize tag
  [desc.MB, desc.C, desc.H, desc.W, desc.localSize, desc.summands] ++
  (if desc.acrossChannels then [desc.C + desc.halfSize] else [desc.H + desc.halfSize, desc.W + desc.halfSize]) ++
  if isBlocked tag then [desc.C + B - 1, (desc.C - 1) / B * desc.H * desc.W * B, (desc.H * desc.W - 1) * B]
  else if tag = .abcd then [(desc.C - 1) * desc.H * desc.W, (desc.H - 1) * desc.W]
  else if tag = .acdb then [(desc.H - 1) * desc.W * desc.C, (desc.W - 1) * desc.C]
  else []

/-- Every `int` holds its value. -/
def IntsFit : Prop := ∀ x ∈ ints desc tag, x < 2 ^ 31

instance : Decidable (IntsFit desc tag) := inferInstanceAs (Decidable (∀ _ ∈ _, _))

end Offsets

/-! ## Windows -/

/-- The loop from `max(o - half_size, 0)` to `min(o + half_size + 1, n)`. -/
def window (halfSize o n : ℕ) : List ℕ := List.range' (o - halfSize) (min (o + halfSize + 1) n - (o - halfSize))

/-- The iterations of the loops over a window: the channel, the row and the column. -/
def taps (desc : LrnDesc) (oc oh ow : ℕ) : List (ℕ × ℕ × ℕ) :=
  if desc.acrossChannels then (window desc.halfSize oc desc.C).map fun c => (c, oh, ow)
  else (window desc.halfSize oh desc.H).flatMap fun h => (window desc.halfSize ow desc.W).map fun w => (oc, h, w)

/-! ## The kernels -/

/-- The numbers of the formula. -/
structure Coeffs (R : Type*) where
  alpha : R
  beta : R
  k : R
  /-- `fast_negative_powf` -/
  negPow : R → R → R

section Kernels

variable {R : Type*} [Field R] (desc : LrnDesc) (tag : FormatTag) (cs : Coeffs R) (src diffDst : ℤ → R)

/-- `get_omega`, and the same sum of the forward pass. -/
def getOmega (mb oc oh ow : ℕ) : R :=
  let sum := (taps desc oc oh ow).foldl
    (fun sum x =>
      let s := src (dataOff desc tag mb x.1 x.2.1 x.2.2)
      sum + s * s) 0
  cs.k + cs.alpha * sum / desc.summands

/-- `ker` of the forward pass. -/
def fwdKer (mb oc oh ow : ℕ) : R :=
  src (dataOff desc tag mb oc oh ow) * cs.negPow (getOmega desc tag cs src mb oc oh ow) cs.beta

/-- `ker` of the backward pass. The loops compute `A` and `B`. -/
def bwdKer (mb oc oh ow : ℕ) : R :=
  let ab := (taps desc oc oh ow).foldl
    (fun ab x =>
      let off := dataOff desc tag mb x.1 x.2.1 x.2.2
      let omega := getOmega desc tag cs src mb x.1 x.2.1 x.2.2
      let tmp := cs.negPow omega cs.beta * diffDst off
      (if x = (oc, oh, ow) then tmp else ab.1, ab.2 + src off * tmp / omega)) ((0, 0) : R × R)
  ab.1 - ab.2 * (2 * cs.alpha * cs.beta * src (dataOff desc tag mb oc oh ow) / desc.summands)

/-- The loops of both passes, which assign the values of the kernel. -/
def loops (ker : ℕ → ℕ → ℕ → ℕ → R) : Phase ℤ R :=
  let B := blksize tag
  if isBlocked tag then {
    dims := [desc.MB, divUp desc.C B, desc.H, desc.W]
    body := fun idx =>
      let (mb, cBlk, h, w) := (idx.getD 0 0, idx.getD 1 0, idx.getD 2 0, idx.getD 3 0)
      let c := cBlk * B
      let off := strideMb desc mb + (c * desc.H * desc.W + (h * desc.W + w) * B : ℕ)
      (List.range (min B (desc.C - c))).map fun cc => Assign.set (off + (cc : ℕ)) (ker mb (c + cc) h w) }
  else if tag = .acdb then {
    dims := [desc.MB, desc.H, desc.W, desc.C]
    body := fun idx =>
      let (mb, h, w, c) := (idx.getD 0 0, idx.getD 1 0, idx.getD 2 0, idx.getD 3 0)
      let off := strideMb desc mb + (h * desc.W * desc.C + w * desc.C + c : ℕ)
      [Assign.set off (ker mb c h w)] }
  else {
    dims := [desc.MB, desc.C, desc.H, desc.W]
    body := fun idx =>
      let (mb, c, h, w) := (idx.getD 0 0, idx.getD 1 0, idx.getD 2 0, idx.getD 3 0)
      [Assign.set (dataOff desc tag mb c h w) (ker mb c h w)] }

/-- The loops, if every `int` holds its value. Without elements there are no iterations. -/
def guarded (ker : ℕ → ℕ → ℕ → ℕ → R) : Option (Phase ℤ R) :=
  if desc.dataDesc.hasZeroDim ∨ IntsFit desc tag then some (loops desc tag ker) else none

/-- `execute_forward` -/
def executeForward : Option (Phase ℤ R) := guarded desc tag (fwdKer desc tag cs src)

/-- `execute_backward` -/
def executeBackward : Option (Phase ℤ R) := guarded desc tag (bwdKer desc tag cs src diffDst)

end Kernels

end MklDnn.RefLrn
