import MklDnn.Reorder.Prb

/-!
# Reorder problems in memory

`prb_t` with its array of `max_ndims` nodes. Splitting and moving a node shift the nodes behind it one by one; an access
outside of the array has no result.
-/

namespace MklDnn

/-- `prb_t`. Of `nodes` only the first `max_ndims` entries exist, the first `ndims` of them are in use. -/
structure PrbT where
  itype : DataType
  otype : DataType
  ndims : ℕ
  nodes : ℕ → Node
  ioff : ℤ
  ooff : ℤ
  scaleType : ScaleType
  /-- The bits of a `float`. -/
  beta : UInt32

namespace PrbT

/-- The nodes in use. -/
def prb (p : PrbT) : Prb where
  itype := p.itype
  otype := p.otype
  nodes := (List.range p.ndims).map p.nodes
  ioff := p.ioff
  ooff := p.ooff
  scaleType := p.scaleType

/-- A read of `p.nodes[d]`. -/
def load (p : PrbT) (d : ℕ) : Option Node := if d < maxNdims then some (p.nodes d) else none

/-- A write to `p.nodes[d]`. -/
def store (p : PrbT) (d : ℕ) (nd : Node) : Option PrbT :=
  if d < maxNdims then some { p with nodes := Function.update p.nodes d nd } else none

/-- `p.nodes[d] = p.nodes[e]` -/
def copyNode (p : PrbT) (d e : ℕ) : Option PrbT := do
  let nd ← p.load e
  p.store d nd

/-- The loop `for (int d = lo + len; d > lo; --d) p.nodes[d] = p.nodes[d - 1];` -/
def shiftUp (p : PrbT) (lo : ℕ) : ℕ → Option PrbT
  | 0 => some p
  | len + 1 => do
    let p ← p.copyNode (lo + len + 1) (lo + len)
    shiftUp p lo len

/-- The loop `for (int d = lo; d < lo + len; ++d) p.nodes[d] = p.nodes[d + 1];` -/
def shiftDown (p : PrbT) : ℕ → ℕ → Option PrbT
  | _, 0 => some p
  | lo, len + 1 => do
    let p ← p.copyNode lo (lo + 1)
    shiftDown p (lo + 1) len

/-- `prb_node_split` -/
def nodeSplit (p : PrbT) (dim n1 : ℕ) : Option PrbT := do
  let p := { p with ndims := p.ndims + 1 }
  let p ← p.shiftUp (dim + 1) (p.ndims - (dim + 1))
  let nd ← p.load dim
  let p ← p.store (dim + 1) { n := nd.n / n1, is := nd.is * n1, os := nd.os * n1, ss := nd.ss * n1 }
  p.store dim { nd with n := n1 }

/-- `prb_node_move` -/
def nodeMove (p : PrbT) (d0 d1 : ℕ) : Option PrbT :=
  if d0 = d1 then some p
  else do
    let node ← p.load d0
    let p ← if d0 < d1 then p.shiftDown d0 (d1 - d0) else p.shiftUp d1 (d0 - d1)
    p.store d1 node

/-- The first part of `prb_block_for_cache`. -/
def moveUnitInputStride (p : PrbT) : Option PrbT :=
  match unitInputStrideIdx p.prb with
  | none => some p
  | some idx => do
    let moveLocation := if (p.prb.node idx).os % 4 ≠ 0 then 0 else 1
    let p ← if unitSplitNeeded (p.prb.node idx) then p.nodeSplit idx 16 else some p
    p.nodeMove idx moveLocation

/-- The second part of `prb_block_for_cache`. -/
def splitForReuse (p : PrbT) : Option PrbT :=
  if reuseSplitNeeded p.prb then do
    let p ← p.nodeSplit 0 16
    p.nodeMove 1 2
  else some p

/-- `prb_block_for_cache` -/
def blockForCache (p : PrbT) : Option PrbT :=
  if cacheBlockingNeeded p.prb then do
    let p ← p.moveUnitInputStride
    p.splitForReuse
  else some p

/-- `prb_thread_kernel_balance`: the kernel borrows from the driver. -/
def borrowKerFromDrv (b : Balance) (p : PrbT) : Option (PrbT × ℕ) :=
  if b.wantBorrowKerFromDrv p.prb then do
    let n := (p.prb.node b.kdims).n
    let szWantBorrow ← findDivisor n (divUp kerPrbSizeMin b.szKerCur)
    let p ← if szWantBorrow ≠ n then p.nodeSplit b.kdims szWantBorrow else some p
    return (p, b.kdims + 1)
  else some (p, b.kdims)

/-- `prb_thread_kernel_balance`: the driver borrows from the kernel. -/
def borrowDrvFromKer (b : Balance) (p : PrbT) (kdims : ℕ) : Option PrbT :=
  if b.wantBorrowDrvFromKer then do
    let n := (p.prb.node (kdims - 1)).n
    let szWantBorrow ← findDivisor n (divUp b.szDrvMin b.szDrvCur)
    if szWantBorrow ≠ n then p.nodeSplit (kdims - 1) (n / szWantBorrow) else some p
  else some p

/-- `prb_thread_kernel_balance` for a team of `nthr` threads. -/
def threadKernelBalance (nthr : ℕ) (p : PrbT) : Option (PrbT × ℕ) := do
  let b := balance nthr p.prb
  let (p, kdims) ← p.borrowKerFromDrv b
  let p ← p.borrowDrvFromKer b kdims
  return (p, kdims)

/-- The two passes that split nodes. -/
def splitPasses (nthr : ℕ) (p : PrbT) : Option (PrbT × ℕ) := do
  let p ← p.blockForCache
  p.threadKernelBalance nthr

end PrbT

end MklDnn

/-!
## The balance of driver and kernel in machine arithmetic

`prb_thread_kernel_balance` on the sizes of the nodes, whose sums and products wrap around at `2 ^ 64`. The searches for a
divisor run with fuel: none stands for a search that does not end, or for a division by zero.
-/

namespace MklDnn

namespace ThreadKernelBalance

/-- What `size_t` keeps of a sum or of a product. -/
def wrap (x : ℕ) : ℕ := x % 2 ^ 64

/-- `utils::div_up` -/
def divUpWrap (a b : ℕ) : Option ℕ := if b = 0 then none else some (wrap (a + (b - 1)) / b)

/-- `16 * dnnl_get_max_threads()`, a product of `int` that is converted to `size_t`. -/
def szDrvWanted (nthr : ℕ) : ℕ := toSizeT (Int.bmod (16 * nthr) (2 ^ 32))

/-- The product of the sizes of nodes. -/
def szProduct (ns : List ℕ) : ℕ := ns.foldl (fun sz n => wrap (sz * n)) 1

/-- The loop that leaves the outer nodes to the driver: `kdims` and `sz_drv_cur`. -/
def kernelDims (ns : List ℕ) (szDrvMin : ℕ) : ℕ → ℕ → ℕ × ℕ
  | kdims + 2, szDrvCur =>
    if szDrvCur < szDrvMin then kernelDims ns szDrvMin (kdims + 1) (wrap (szDrvCur * ns.getD (kdims + 1) 0))
    else (kdims + 2, szDrvCur)
  | kdims, szDrvCur => (kdims, szDrvCur)

/-- The sizes that the function decides on. -/
def balance (nthr : ℕ) (ns : List ℕ) : Balance :=
  let szDrvMin := min (szDrvWanted nthr) (wrap (szProduct ns + 1023) / 1024)
  let drv := kernelDims ns szDrvMin ns.length 1
  { szDrvMin := szDrvMin
    kdims := drv.1
    szDrvCur := drv.2
    szKerCur := szProduct (ns.take drv.1) }

/-- The loop that searches for `sz_want_borrow`. -/
def searchDivisor (n : ℕ) : ℕ → ℕ → Option ℕ
  | 0, _ => none
  | fuel + 1, szWantBorrow =>
    if szWantBorrow = 0 then none
    else if n % szWantBorrow = 0 then some szWantBorrow
    else searchDivisor n fuel (wrap (szWantBorrow + 1))

/-- A search: the size of the node, where the search starts and what it finds. -/
structure Search where
  n : ℕ
  start : ℕ
  szWantBorrow : ℕ

/-- The search in a node of size `n` of what makes `cur` as large as `wanted`. -/
def search (fuel n wanted cur : ℕ) : Option Search := do
  let start ← divUpWrap wanted cur
  let szWantBorrow ← searchDivisor n fuel start
  return ⟨n, start, szWantBorrow⟩

/-- `prb_node_split` -/
def nodeSplit (ns : List ℕ) (dim n1 : ℕ) : Option (List ℕ) :=
  if n1 = 0 then none else some (ns.take dim ++ n1 :: ns.getD dim 0 / n1 :: ns.drop (dim + 1))

/-- What the function ends with: the sizes of the nodes, `ndims_ker_max` and its two searches. -/
structure Result where
  sizes : List ℕ
  ndimsKerMax : ℕ
  ker : Option Search
  drv : Option Search

/-- The kernel borrows from the innermost driver node. -/
def borrowKerFromDrv (fuel : ℕ) (b : Balance) (ns : List ℕ) : Option Result :=
  if b.kdims < ns.length ∧ b.szKerCur < kerPrbSizeMin ∧ b.szDrvCur > b.szDrvMin then do
    let s ← search fuel (ns.getD b.kdims 0) kerPrbSizeMin b.szKerCur
    let sizes ← if s.szWantBorrow ≠ s.n then nodeSplit ns b.kdims s.szWantBorrow else some ns
    return ⟨sizes, b.kdims + 1, some s, none⟩
  else some ⟨ns, b.kdims, none, none⟩

/-- The driver borrows from the outermost kernel node. -/
def borrowDrvFromKer (fuel : ℕ) (b : Balance) (r : Result) : Option Result :=
  if b.szKerCur > kerPrbSizeMin ∧ b.szDrvCur < b.szDrvMin then do
    let s ← search fuel (r.sizes.getD (r.ndimsKerMax - 1) 0) b.szDrvMin b.szDrvCur
    let sizes ← if s.szWantBorrow ≠ s.n then nodeSplit r.sizes (r.ndimsKerMax - 1) (s.n / s.szWantBorrow)
      else some r.sizes
    return { r with sizes := sizes, drv := some s }
  else some r

end ThreadKernelBalance

open ThreadKernelBalance in
/-- `prb_thread_kernel_balance` on nodes of the given sizes, for a team of `nthr` threads. -/
def threadKernelBalance (fuel nthr : ℕ) (ns : List ℕ) : Option Result := do
  let b := ThreadKernelBalance.balance nthr ns
  let r ← ThreadKernelBalance.borrowKerFromDrv fuel b ns
  ThreadKernelBalance.borrowDrvFromKer fuel b r

end MklDnn
