import MklDnn.Common.Threading
import MklDnn.Lib.Writes
import MklDnn.Memory.Offset

/-!
# Zero padding

`memory_t::zero_pad` sets the padding of a blocked tensor to zero: by a routine specialised to the usual
block structures, or element by element. Each function returns the offsets of the elements it sets to
zero, in elements of the data type.
-/

open LoopNest

namespace MklDnn

/-- `blk_kind_t` -/
inductive BlkKind where
  | a | b | c | ab | ba | bc | cb
  deriving DecidableEq

/-- The dimensions that a kind names, the outer one first. -/
def BlkKind.dims : BlkKind → List ℕ
  | .a => [0]
  | .b => [1]
  | .c => [2]
  | .ab => [0, 1]
  | .ba => [1, 0]
  | .bc => [1, 2]
  | .cb => [2, 1]

/-- `dim_is_blocked` -/
def dimIsBlocked (inner : List InnerBlk) (dim : ℕ) : Bool := inner.any fun b => b.idx = dim

/-- `zeroize_tail` -/
def zeroizeTail (blksize : ℕ) (d : ℤ) (tailS : ℕ) : List ℤ :=
  (List.range' tailS (blksize - tailS)).map fun b : ℕ => d + b

/-- The offset inside a block of two dimensions, as `zeroize_tail_inner` and `zeroize_tail_outer`
compute it. -/
def tailOff (blksize innerBlk b1 b2 : ℕ) : ℕ :=
  b1 / innerBlk * blksize * innerBlk + innerBlk * b2 + b1 % innerBlk

/-- `zeroize_tail_inner` -/
def zeroizeTailInner (blksize innerBlk : ℕ) (d : ℤ) (tailS : ℕ) : List ℤ :=
  (List.range blksize).flatMap fun b1 =>
    (List.range' tailS (blksize - tailS)).map fun b2 => d + tailOff blksize innerBlk b1 b2

/-- `zeroize_tail_outer` -/
def zeroizeTailOuter (blksize innerBlk : ℕ) (d : ℤ) (tailS : ℕ) : List ℤ :=
  (List.range' tailS (blksize - tailS)).flatMap fun b1 =>
    (List.range blksize).map fun b2 => d + tailOff blksize innerBlk b1 b2

/-- What is set to zero in a last block `x` along the third dimension. -/
def zeroizeC (blkKind : BlkKind) (blksize innerBlk : ℕ) (x : ℤ) (cTailS : ℕ) : List ℤ :=
  match blkKind with
  | .c => zeroizeTail blksize x cTailS
  | .bc => zeroizeTailInner blksize innerBlk x cTailS
  | .cb => zeroizeTailOuter blksize innerBlk x cTailS
  | _ => []

/-- What is set to zero in a last block `x` along the second dimension. -/
def zeroizeB (blkKind : BlkKind) (blksize innerBlk : ℕ) (x : ℤ) (bTailS : ℕ) : List ℤ :=
  match blkKind with
  | .b => zeroizeTail blksize x bTailS
  | .ab | .cb => zeroizeTailInner blksize innerBlk x bTailS
  | .ba | .bc => zeroizeTailOuter blksize innerBlk x bTailS
  | _ => []

/-- What is set to zero in a last block `x` along the first dimension. -/
def zeroizeA (blkKind : BlkKind) (blksize innerBlk : ℕ) (x : ℤ) (aTailS : ℕ) : List ℤ :=
  match blkKind with
  | .a => zeroizeTail blksize x aTailS
  | .ba => zeroizeTailInner blksize innerBlk x aTailS
  | .ab => zeroizeTailOuter blksize innerBlk x aTailS
  | _ => []

/-- The body of a loop over five counters. -/
def body5 {α : Type*} (f : ℕ → ℕ → ℕ → ℕ → ℕ → List α) : List ℕ → List α
  | [i0, i1, i2, i3, i4] => f i0 i1 i2 i3 i4
  | _ => []

/-- The value `inner_blk`: the size of the last of three inner blocks. -/
def innerBlkOf : List InnerBlk → ℕ
  | [_, _, b2] => b2.blk
  | _ => 1

/-- `typed_zero_pad_blk` -/
def typedZeroPadBlk (nthr : ℕ) (md : MemoryDesc) (blkKind : BlkKind) (blksize : ℕ) : List ℤ :=
  let dims := md.dims
  let pdims := md.paddedDims
  let blk := md.blocking
  let aBlocked := dimIsBlocked blk.inner 0
  let bBlocked := dimIsBlocked blk.inner 1
  let cBlocked := dimIsBlocked blk.inner 2
  let aTailS := if aBlocked then dims 0 % blksize else 0
  let bTailS := if bBlocked then dims 1 % blksize else 0
  let cTailS := if cBlocked then dims 2 % blksize else 0
  let A := if aBlocked then pdims 0 / blksize else dims 0
  let B := if bBlocked then pdims 1 / blksize else dims 1
  let C := if cBlocked then pdims 2 / blksize else dims 2
  let D := if md.ndims > 3 then dims 3 else 1
  let E := if md.ndims > 4 then dims 4 else 1
  let F := if md.ndims > 5 then dims 5 else 1
  let innerBlk := innerBlkOf blk.inner
  -- the index of the last block is `-1` if there is no block
  let zeroC := if cTailS ≠ 0 then
      (parallelNd nthr [A, B, D, E, F]).flatMap (body5 fun a b d e f =>
        zeroizeC blkKind blksize innerBlk (md.blkOff [a, b, C - 1, d, e, f]) cTailS)
    else []
  let zeroB := if bTailS ≠ 0 then
      (parallelNd nthr [A, C, D, E, F]).flatMap (body5 fun a c d e f =>
        zeroizeB blkKind blksize innerBlk (md.blkOff [a, B - 1, c, d, e, f]) bTailS)
    else []
  let zeroA := if aTailS ≠ 0 then
      (parallelNd nthr [B, C, D, E, F]).flatMap (body5 fun b c d e f =>
        zeroizeA blkKind blksize innerBlk (md.blkOff [A - 1, b, c, d, e, f]) aTailS)
    else []
  zeroC ++ zeroB ++ zeroA

/-! ## The generic routine -/

/-- The loop of `typed_zero_pad_generic_blocked` that collects the innermost dimensions without
padding: `step`, and `step_dim + 1`. -/
def stepLoop (dims pdims : ℕ → ℕ) : ℕ → ℕ → ℕ × ℕ
  | 0, step => (step, 0)
  | stepDim + 1, step =>
    if dims stepDim ≠ pdims stepDim then (step, stepDim + 1)
    else stepLoop dims pdims stepDim (step * dims stepDim)

/-- The loop that computes `need_zero`, from the given dimension down. -/
def needZero (dims pdims : ℕ → ℕ) : ℕ → ℕ → Bool
  | 0, _ => false
  | d + 1, idx => if idx % pdims d ≥ dims d then true else needZero dims pdims d (idx / pdims d)

/-- `typed_zero_pad_generic_blocked` -/
def typedZeroPadGenericBlocked (nthr : ℕ) (md : MemoryDesc) : List ℤ :=
  let nelems := md.nelems true
  let step := (stepLoop md.dims md.paddedDims md.ndims 1).1
  let stepDims := (stepLoop md.dims md.paddedDims md.ndims 1).2
  if stepDims = 0 then []
  else (parallelNd nthr [nelems / step]).flatMap fun xs =>
    let e1 := xs.headD 0
    if needZero md.dims md.paddedDims stepDims e1 then
      (List.range step).map fun e0 => md.offL (e1 * step + e0) true
    else []

/-! ## The dispatch -/

/-- `get_blksize` -/
def getBlksize (inner : List InnerBlk) (ind : ℕ) : ℕ :=
  inner.foldl (fun blksize b => if b.idx = ind then blksize * b.blk else blksize) 1

/-- The three lines `CASE(4, kind)`, `CASE(8, kind)`, `CASE(16, kind)`. -/
def caseBlksize (blksize : ℕ) (blkKind : BlkKind) : Option (BlkKind × ℕ) :=
  if blksize = 4 ∨ blksize = 8 ∨ blksize = 16 then some (blkKind, blksize) else none

/-- The switch of `typed_zero_pad`: the instance of `typed_zero_pad_blk` that is called, if any. -/
def zeroPadCase (inner : List InnerBlk) : Option (BlkKind × ℕ) :=
  let blksize := getBlksize inner (inner.headD ⟨0, 0⟩).idx
  let case2 (i0 i1 : ℕ) : Option (BlkKind × ℕ) :=
    if i0 = 0 ∧ i1 = 1 then caseBlksize blksize .ab
    else if i0 = 1 ∧ i1 = 0 then caseBlksize blksize .ba
    else if i0 = 1 ∧ i1 = 2 then caseBlksize blksize .bc
    else if i0 = 2 ∧ i1 = 1 then caseBlksize blksize .cb
    else none
  match inner with
  | [b0] =>
    if b0.idx = 0 then caseBlksize blksize .a
    else if b0.idx = 1 then caseBlksize blksize .b
    else none
  | [b0, b1] => case2 b0.idx b1.idx
  | [b0, b1, b2] => if b0.idx = b2.idx then case2 b0.idx b1.idx else none
  | _ => none

/-- `typed_zero_pad` -/
def typedZeroPad (nthr : ℕ) (md : MemoryDesc) : Except Status (List ℤ) :=
  if md.formatKind ≠ .blocked then .error .unimplemented
  else if md.nelems false = md.nelems true then .ok []
  else
    match zeroPadCase md.blocking.inner with
    | some (blkKind, blksize) => .ok (typedZeroPadBlk nthr md blkKind blksize)
    | none => .ok (typedZeroPadGenericBlocked nthr md)

/-- `memory_t::zero_pad` -/
def zeroPad (nthr : ℕ) (md : MemoryDesc) (storageIsNull : Bool) : Except Status (List ℤ) :=
  let skipZeroing := storageIsNull || md.isZero || !md.isBlockingDesc
  if skipZeroing then .ok []
  else if md.dataType = .undef then .error .unimplemented
  else typedZeroPad nthr md

end MklDnn
