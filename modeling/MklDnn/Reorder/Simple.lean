import MklDnn.Common.Threading
import MklDnn.Memory.Offset
import MklDnn.Reorder.Prb

/-!
# The simple reorders

The direct copies and the reference of `simple_reorder_impl`. An execution is the list of its stores, each
with the offset it goes to and the offset of the element it converts. A division by zero, which the
source does not guard against, is `none`.
-/

open LoopNest

namespace MklDnn

/-! ## Predicates of `memory_desc_wrapper` -/

namespace MemoryDesc

/-- `is_additional_buffer` -/
def isAdditionalBuffer (md : MemoryDesc) : Bool := md.extra.compensationConvS8s8

/-- `similar_to`: the same physical structure of the dimensions from `dimStart` on. -/
def similarTo (lhs rhs : MemoryDesc) (withPadding withDataType : Bool) (dimStart : ℕ) : Bool :=
  if lhs.formatKind = .undef ∨ lhs.formatKind = .any then false
  else if lhs.formatKind = .wino ∨ lhs.formatKind = .rnnPacked then false
  else
    lhs.ndims = rhs.ndims ∧ dimStart ≤ lhs.ndims ∧ lhs.formatKind = rhs.formatKind ∧
      (withDataType → lhs.dataType = rhs.dataType) ∧
      (∀ d < lhs.ndims, dimStart ≤ d → lhs.dims d = rhs.dims d) ∧
      (∀ d < lhs.ndims, dimStart ≤ d → lhs.blocking.strides d = rhs.blocking.strides d) ∧
      lhs.blocking.inner = rhs.blocking.inner ∧
      (withPadding →
        (∀ d < lhs.ndims, dimStart ≤ d → lhs.paddedDims d = rhs.paddedDims d) ∧
        ∀ d < lhs.ndims, dimStart ≤ d → lhs.paddedOffsets d = rhs.paddedOffsets d)

/-- `consistent_with`: what `dnnl_reorder_primitive_desc_create` checks of the two descriptors. -/
def consistentWith (lhs rhs : MemoryDesc) : Bool :=
  lhs.ndims = rhs.ndims ∧ ∀ d < lhs.ndims, lhs.dims d = rhs.dims d

end MemoryDesc

/-- `simple_attr_check` without support for many scales. -/
def simpleAttrCheck (attr : Option OutputScales) : Bool :=
  match attr with
  | none => true
  | some scales => scales.mask = 0

/-! ## Stores -/

/-- The quantisation a store applies: `qz_a1b0`, `qz_a1`, `qz_b0` or `qz`. -/
inductive Quantization where
  | a1b0 | a1 | b0 | full
  deriving DecidableEq

/-- A store: the offset it goes to, the offset of the converted element, and the conversion. -/
structure ElemStore where
  dst : ℤ
  src : ℤ
  qz : Quantization
  deriving DecidableEq

/-- Which element goes where. -/
def ElemStore.move (s : ElemStore) : ℤ × ℤ := (s.dst, s.src)

/-- The remainder of the source, undefined for a zero divisor. -/
def remainder (a b : ℤ) : Option ℤ := if b = 0 then none else some (a.tmod b)

/-! ## `spec::direct_copy` -/

namespace DirectCopy

/-- `is_applicable` -/
def isApplicable (inputD outputD : MemoryDesc) (attr : Option OutputScales) : Bool :=
  inputD.similarTo outputD true false 0 && inputD.isDense false && outputD.isDense false &&
    simpleAttrCheck attr

/-- The four variants of the copying loops. -/
def quantization (alphaIsOne betaIsZero : Bool) : Quantization :=
  if alphaIsOne ∧ betaIsZero then .a1b0
  else if alphaIsOne then .a1
  else if betaIsZero then .b0
  else .full

/-- The stores of thread `ithr`. -/
def thread (inputD outputD : MemoryDesc) (qz : Quantization) (nthr ithr : ℕ) : List ElemStore :=
  let store := fun e : ℕ => ElemStore.mk (outputD.blkOff [0] + e) (inputD.blkOff [0] + e) qz
  let nelems := inputD.nelems false
  let blockSize := 16
  let numBlocks := nelems / blockSize
  let remElems := nelems % blockSize
  let range := balance211 numBlocks nthr ithr
  let start := range.1 * blockSize
  let stop := range.2 * blockSize
  (List.range' start (stop - start)).map store ++
    if remElems ≠ 0 ∧ ithr = nthr - 1 then (List.range' (nelems - remElems) remElems).map store else []

/-- `execute` with a team of `nthr` threads: the stores of all threads. -/
def execute (inputD outputD : MemoryDesc) (alphaIsOne betaIsZero : Bool) (nthr : ℕ) : List ElemStore :=
  (List.range nthr).flatMap (thread inputD outputD (quantization alphaIsOne betaIsZero) nthr)

end DirectCopy

/-! ## `spec::direct_copy_except_dim_0` -/

namespace DirectCopyExceptDim0

/-- `nelems_no_dim_0` -/
def nelemsNoDim0 (md : MemoryDesc) : ℕ :=
  if md.ndims ≤ 1 then 1 else volume (fun d => md.dims (d + 1)) (md.ndims - 1)

/-- `_size_no_dim_0` -/
def sizeNoDim0 (md : MemoryDesc) : ℤ :=
  let blocks := md.computeBlocks
  (List.range' 1 (md.ndims - 1)).foldl
    (fun maxSize d => max maxSize ((md.paddedDims d / blocks d : ℕ) * md.blocking.strides d))
    (blockSize md.blocking.inner)

def isDenseNo0 (md : MemoryDesc) : Bool := nelemsNoDim0 md = sizeNoDim0 md

/-- `is_applicable` -/
def isApplicable (inputD outputD : MemoryDesc) (attr : Option OutputScales) : Bool :=
  inputD.similarTo outputD true false 1 && isDenseNo0 inputD && isDenseNo0 outputD &&
    simpleAttrCheck attr

/-- The counters of a thread: `start`, `n` and `dim1_s`. -/
structure Counters where
  start : ℤ
  n : ℤ
  dim1S : ℤ

/-- `nd_iterator_init` with the two counters `n < N` and `dim1_s < nelems_no_d0`. -/
def ndIteratorInit (start N nelemsNoD0 : ℤ) : Option Counters := do
  let dim1S ← remainder start nelemsNoD0
  let n ← remainder (start.tdiv nelemsNoD0) N
  return ⟨start, n, dim1S⟩

/-- `nd_iterator_jump` with the same counters. -/
def ndIteratorJump (stop N nelemsNoD0 : ℤ) (c : Counters) : Option Counters :=
  let maxJump := stop - c.start
  let dimJump := nelemsNoD0 - c.dim1S
  if dimJump ≤ maxJump then do
    let n ← remainder (c.n + 1) N
    return ⟨c.start + dimJump, n, 0⟩
  else return ⟨c.start + maxJump, c.n, c.dim1S + maxJump⟩

/-- The loop over the rows, with at most `fuel` iterations. -/
def rows (store : ℤ → ℤ → ElemStore) (stop N nelemsNoD0 : ℤ) : ℕ → Counters → Option (List ElemStore)
  | 0, c => if c.start < stop then none else some []
  | fuel + 1, c =>
    if c.start < stop then do
      let workRem := stop - c.start
      let dim1E := if c.dim1S + workRem > nelemsNoD0 then nelemsNoD0 else c.dim1S + workRem
      let row := (List.range (dim1E - c.dim1S).toNat).map fun i : ℕ => store c.n (c.dim1S + i)
      let c' ← ndIteratorJump stop N nelemsNoD0 c
      let rest ← rows store stop N nelemsNoD0 fuel c'
      return row ++ rest
    else some []

/-- The conversion of a `dim_t` to `int`. -/
def toInt (x : ℤ) : ℤ := (x + 2 ^ 31) % 2 ^ 32 - 2 ^ 31

/-- The stores of thread `ithr`. -/
def thread (inputD outputD : MemoryDesc) (qz : Quantization) (nthr fuel ithr : ℕ) :
    Option (List ElemStore) := do
  let input := inputD.blkOff [0]
  let output := outputD.blkOff [0]
  let N := toInt (inputD.dims 0)
  let is := inputD.blocking.strides 0
  let os := outputD.blocking.strides 0
  let nelemsNoD0 : ℤ := nelemsNoDim0 inputD
  let workAmount := N * nelemsNoD0
  let range := balance211Int workAmount nthr ithr
  let c ← ndIteratorInit range.1 N nelemsNoD0
  rows (fun n e => ⟨output + (os * n + e), input + (is * n + e), qz⟩) range.2 N nelemsNoD0 fuel c

/-- `execute` with a team of `nthr` threads whose loops run for at most `fuel` iterations: the stores of
all threads. -/
def execute (inputD outputD : MemoryDesc) (alphaIsOne betaIsZero : Bool) (nthr fuel : ℕ) :
    Option (List ElemStore) := do
  let qz := if alphaIsOne ∧ betaIsZero then Quantization.a1b0 else .full
  let stores ← (List.range nthr).mapM (thread inputD outputD qz nthr fuel)
  return stores.flatten

end DirectCopyExceptDim0

/-! ## `spec::reference` -/

namespace Reference

/-- How many bits equal to `bit` a mask starts with, and the bits after them. -/
def skipBits (bit : Bool) (smask : ℕ) : ℕ × ℕ :=
  if h : smask > 0 ∧ smask.testBit 0 = bit then
    let skipped := skipBits bit (smask >>> 1)
    (skipped.1 + 1, skipped.2)
  else (0, smask)
termination_by smask
decreasing_by
  rw [Nat.shiftRight_one]
  omega

/-- `is_applicable` -/
def isApplicable (inputD outputD : MemoryDesc) (attr : Option OutputScales) : Bool :=
  let smask := (attr.map OutputScales.mask).getD 0
  let smask := (skipBits false smask).2
  let smask := (skipBits true smask).2
  inputD.isBlockingDesc && outputD.isBlockingDesc && !outputD.isAdditionalBuffer &&
    !inputD.isAdditionalBuffer && smask = 0

/-- A store of the reference reorder: its offsets, and the index of the scale it applies. -/
structure ScaledStore where
  dst : ℤ
  src : ℤ
  scale : ℕ
  deriving DecidableEq

/-- Which element goes where. -/
def ScaledStore.move (s : ScaledStore) : ℤ × ℤ := (s.dst, s.src)

/-- `execute` with a team of `nthr` threads, for output scales with the mask `smask`. -/
def execute (inputD outputD : MemoryDesc) (smask nthr : ℕ) : Option (List ScaledStore) :=
  let nelems := inputD.nelems false
  let start := skipBits false smask
  let ndimsStart := start.1
  let ndimsMask := (skipBits true start.2).1
  let dStart := volume inputD.dims ndimsStart
  let dMask := volume (fun d => inputD.dims (d + ndimsStart)) ndimsMask
  if dStart = 0 ∨ dMask = 0 then none
  else
    let dRest := nelems / dStart / dMask
    some ((parallelNd nthr [dStart, dMask, dRest]).map fun idx =>
      let ds := idx.getD 0 0
      let dm := idx.getD 1 0
      let dr := idx.getD 2 0
      let e := (ds * dMask + dm) * dRest + dr
      ⟨outputD.offL e false, inputD.offL e false, dm⟩)

end Reference

end MklDnn
