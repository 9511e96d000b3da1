import Mathlib.Data.BitVec
import MklDnn.Lib.RegisterLoops
import MklDnn.Reorder.Prb

/-!
# The addresses of the reorder kernel

`jit_uni_reorder_kernel_f32` unrolls the first nodes of a problem and a part of the next one, and puts up to three loops
around the unrolled code. The offsets of the unrolled elements are `int`s computed while the code is generated, and the
displacements and the immediates of the code have 32 bits, which the processor extends to the 64 bits of its registers.
-/

open RegisterLoops

namespace MklDnn

/-- The arrays that the kernel steps through. -/
inductive KernelOperand where
  | input | output | scale
  deriving DecidableEq

/-- The strides of a node. -/
def Node.stride (nd : Node) : KernelOperand → ℤ
  | .input => nd.is
  | .output => nd.os
  | .scale => nd.ss

/-- `itype_sz`, `otype_sz` and `stype_sz` -/
def Prb.elemSize (p : Prb) : KernelOperand → ℕ
  | .input => p.itype.size
  | .output => p.otype.size
  | .scale => DataType.f32.size

/-- Many scales have offsets of their own. -/
def Prb.uses (p : Prb) (s : KernelOperand) : Bool := decide (s = .scale → p.scaleType = .many)

/-- The element offsets of the iterations of the nodes, the first node being the innermost loop. -/
def Prb.enumeration (p : Prb) : List (KernelOperand → ℤ) := nest [0] (p.nodes.map fun nd => (nd.n, nd.stride))

namespace JitUniReorder

/-- Element offsets, as `int`. -/
abbrev Offsets := KernelOperand → BitVec 32

/-- Byte offsets, as in `reg_off_in`, `reg_off_out` and `reg_off_scale`. -/
abbrev Regs := KernelOperand → BitVec 64

/-- `n(d)` -/
def intN (nd : Node) : BitVec 32 := BitVec.ofNat 32 nd.n

/-- `is(d)`, `os(d)` and `ss(d)` -/
def intStride (nd : Node) : Offsets := fun s => BitVec.ofInt 32 (nd.stride s)

/-! ## `simple_impl_desc_init` -/

/-- `simple_impl_desc_t` -/
structure SimpleImplDesc where
  ndimsFullUnroll : ℕ
  lenLastDimUnroll : ℕ
  lenUnroll : ℕ

/-- `len_unroll_max` -/
def lenUnrollMax : ℕ := 256

/-- `ndims_jit_loop_max` -/
def ndimsJitLoopMax : ℕ := 3

/-- `while (node.n % len_last_dim_unroll) --len_last_dim_unroll` -/
def lastDimUnroll (n : ℕ) : ℕ → ℕ
  | 0 => 0
  | k + 1 => if n % (k + 1) = 0 then k + 1 else lastDimUnroll n k

/-- The loop over the nodes. -/
def descLoop : List Node → ℕ → ℕ → SimpleImplDesc
  | [], ndimsFullUnroll, lenUnroll => ⟨ndimsFullUnroll, 1, lenUnroll⟩
  | nd :: nds, ndimsFullUnroll, lenUnroll =>
    -- a product of type `size_t`
    let product := lenUnroll * nd.n % 2 ^ 64
    if product ≤ lenUnrollMax then descLoop nds (ndimsFullUnroll + 1) product
    else
      let lenLastDimUnroll := lastDimUnroll nd.n (lenUnrollMax / lenUnroll)
      ⟨ndimsFullUnroll, lenLastDimUnroll, lenUnroll * lenLastDimUnroll⟩

/-- `simple_impl_desc_init` -/
def simpleImplDescInit (p : Prb) : Option SimpleImplDesc :=
  let desc := descLoop p.nodes 0 1
  if p.ndims - desc.ndimsFullUnroll > ndimsJitLoopMax then none else some desc

/-- The check of the strides in `applicable`. -/
def stridesOk (p : Prb) : Bool :=
  p.nodes.all fun nd =>
    let cms := (2 ^ 31 - 1) / nd.n
    decide (nd.is < ((cms / p.elemSize .input : ℕ) : ℤ)) && decide (nd.os < ((cms / p.elemSize .output : ℕ) : ℤ))

/-! ## The unrolled code -/

/-- The nodes from `start_dim` on. -/
def startNodes (stepSize : BitVec 32) : BitVec 32 → List Node → List Node
  | _, [] => []
  | dimsProd, nd :: nds => if dimsProd = stepSize then nd :: nds else startNodes stepSize (dimsProd * intN nd) nds

/-- The loop of `step`. There is no offset where the code divides by zero. -/
def stepNodes : List Node → ℤ → Offsets → Option Offsets
  | [], _, offs => some offs
  | nd :: nds, off, offs =>
    let offs := offs + intStride nd
    let n := (intN nd).toInt
    if n = 0 then none
    else if off.tmod n ≠ 0 then some offs
    else
      let offs := offs + fun s => -intN nd * intStride nd s
      let off := off.tdiv n
      if off = 0 then some offs else stepNodes nds off offs

/-- `step` -/
def step (nodes : List Node) (off : ℤ) (prev : Offsets) (stepSize : BitVec 32) : Option Offsets :=
  if off = 0 then some prev
  else if stepSize.toInt = 0 then none
  else stepNodes (startNodes stepSize 1 nodes) (off.tdiv stepSize.toInt) prev

/-- `blk` -/
def blk : ℕ := 8

/-- The arrays `i_off`, `o_off` and `s_off` after the offsets of a group are computed into their half `curr`. -/
def computeOffsets (nodes : List Node) (off curr regUnroll : ℕ) (ring : ℕ → Offsets) : Option (ℕ → Offsets) :=
  let first := if off ≠ 0 then 0 else 1
  (List.range' first (regUnroll - first)).foldlM (fun ring ur =>
    let urC := curr * blk + ur
    let urP := (urC + 2 * blk - 1) % (2 * blk)
    (step nodes ((off + ur : ℕ) : ℤ) (ring urP) 1).map (Function.update ring urC)) ring

/-- The iterations of the loop of `process_unroll_generic` that are left. -/
def unrollGroups (nodes : List Node) (len : ℕ) : ℕ → ℕ → ℕ → (ℕ → Offsets) → Option (List (List Offsets))
  | 0, _, _, _ => some []
  | left + 1, off, curr, ring => do
    let regUnroll := min (off + blk) len - off
    let ring ← computeOffsets nodes off curr regUnroll ring
    let groups ← unrollGroups nodes len left (off + blk) (1 - curr) ring
    return ((List.range regUnroll).map fun ur => ring (curr * blk + ur)) :: groups

/-- `process_unroll_generic`: the offsets of every group of elements. -/
def processUnrollGeneric (nodes : List Node) (len : ℕ) : Option (List (List Offsets)) :=
  unrollGroups nodes len (divUp len blk) 0 0 fun _ => 0

/-! ## The accesses of a group -/

/-- The offsets go up by one. -/
def consecutive (offs : List (BitVec 32)) : Bool :=
  (List.range (offs.length - 1)).all fun ur => offs.getD (ur + 1) 0 == offs.getD ur 0 + 1

/-- `can_load_xmm` -/
def canLoadXmm (avx : Bool) (group : List Offsets) : Bool :=
  avx && group.length % 4 == 0 && consecutive (group.map (· .input))

/-- `can_store_xmm` -/
def canStoreXmm (group : List Offsets) : Bool :=
  group.length % 4 == 0 && consecutive (group.map (· .output))

/-- `scale_load_type` is `load` for the four elements from `ur` on. -/
def loadsScales (group : List Offsets) (ur : ℕ) : Bool :=
  canStoreXmm group && consecutive (((group.drop ur).take 4).map (· .scale))

/-- The element at whose address the access to the element `ur` starts. Four scales that are the same one are read at the
address that each of them has. -/
def accessStart (avx : Bool) (group : List Offsets) (ur : ℕ) : KernelOperand → ℕ
  | .input => if canLoadXmm avx group then ur - ur % 4 else ur
  | .output => if canStoreXmm group then ur - ur % 4 else ur
  | .scale => if loadsScales group (ur - ur % 4) then ur - ur % 4 else ur

/-- The displacement of `i_addr`, `o_addr` and `s_addr`. -/
def displacement (size : ℕ) (off : BitVec 32) : BitVec 64 := (off * BitVec.ofNat 32 size).signExtend 64

/-- The addresses of the element `ur` of a group in `process_unroll_generic_step`. -/
def elementAddr (avx : Bool) (p : Prb) (group : List Offsets) (ur : ℕ) : Regs := fun s =>
  let start := accessStart avx group ur s
  displacement (p.elemSize s) (group.getD start 0 s) + BitVec.ofNat 64 ((ur - start) * p.elemSize s)

/-! ## The loops -/

/-- The passes of a loop from `mov(reg_cnt, len)` to `dec(reg_cnt)` and `jnz`. -/
def loopPasses (len : BitVec 32) : ℕ := if len = 0 then 2 ^ 64 else (len.signExtend 64).toNat

/-- The immediates of the additions and subtractions of `loop_end`. -/
def immediate (p : Prb) (offs : Offsets) : Regs := fun s =>
  if p.uses s then (offs s * BitVec.ofNat 32 (p.elemSize s)).signExtend 64 else 0

/-- The code between `loop_begin` and `loop_end`. -/
def loop (p : Prb) (len : BitVec 32) (steps : Offsets) (code : Regs → List Regs × Regs) (r : Regs) : List Regs × Regs :=
  let (visits, r) := passes (immediate p steps) code (loopPasses len) r
  (visits, r - immediate p fun s => len * steps s)

/-- The loops of `simple_impl`, the innermost first. -/
def jitLoops (p : Prb) (d : SimpleImplDesc) : List (BitVec 32 × Offsets) :=
  let ldu := BitVec.ofNat 32 d.lenLastDimUnroll
  match p.nodes.drop d.ndimsFullUnroll with
  | [] => []
  | nd :: nds => ((intN nd).sdiv ldu, fun s => intStride nd s * ldu) :: nds.map fun nd => (intN nd, intStride nd)

/-- What the code accesses of the addresses of an element. -/
def accessed (p : Prb) (addr : Regs) : KernelOperand → Option (BitVec 64) := fun s => if p.uses s then some (addr s) else none

/-- `simple_impl` with the code of `process_unroll_generic`: the addresses that the kernel accesses, relative to the pointers
that it gets. -/
def simpleImpl (avx : Bool) (p : Prb) : Option (List (KernelOperand → Option (BitVec 64))) := do
  let d ← simpleImplDescInit p
  let groups ← processUnrollGeneric p.nodes d.lenUnroll
  let addrs := groups.flatMap fun group => (List.range group.length).map (elementAddr avx p group)
  let code := (jitLoops p d).foldl (fun code l => loop p l.1 l.2 code) fun r => (addrs.map (r + ·), r)
  return (code 0).1.map (accessed p)

/-- The addresses that the elements of an iteration have. -/
def addrOf (p : Prb) (off : KernelOperand → ℤ) : KernelOperand → Option (BitVec 64) :=
  accessed p fun s => BitVec.ofInt 64 (p.elemSize s * off s)

end JitUniReorder

end MklDnn
