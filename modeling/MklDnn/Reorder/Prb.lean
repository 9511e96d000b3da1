import MklDnn.Memory.Offset

/-!
# Reorder problems

A reorder between two blocked tensors as a nest of loops: `prb_init` merges the layouts of the two
tensors, `prb_normalize` and `prb_simplify` bring the loops into a normal form, `prb_block_for_cache` and
`prb_thread_kernel_balance` split and move them. A problem keeps its live nodes as a list, whose length
is the field `ndims` of the source.
-/

namespace MklDnn

/-- `node_t`: a loop of `n` iterations with its input, output and scale strides. -/
structure Node where
  n : ℕ
  is : ℤ
  os : ℤ
  ss : ℤ
  deriving DecidableEq

inductive ScaleType where
  | none | common | many
  deriving DecidableEq

/-- `prb_t` -/
structure Prb where
  itype : DataType
  otype : DataType
  nodes : List Node
  ioff : ℤ
  ooff : ℤ
  scaleType : ScaleType

/-- The number of live nodes. -/
def Prb.ndims (p : Prb) : ℕ := p.nodes.length

/-- The node `d`. -/
def Prb.node (p : Prb) (d : ℕ) : Node := p.nodes.getD d ⟨0, 0, 0, 0⟩

/-- The offsets of the iterations of the loops, the first node being the innermost loop. -/
def loopOffsets : List Node → List (ℤ × ℤ)
  | [] => [(0, 0)]
  | nd :: nds =>
    (loopOffsets nds).flatMap fun off =>
      (List.range nd.n).map fun i : ℕ => (off.1 + i * nd.is, off.2 + i * nd.os)

/-- The pairs of an input and an output offset that the loops of the problem run through. -/
def Prb.offsets (p : Prb) : List (ℤ × ℤ) :=
  (loopOffsets p.nodes).map fun off => (off.1 + p.ioff, off.2 + p.ooff)

/-- The input, output and scale offsets of the iterations of the loops, the first node being the outermost
loop. -/
def loopVisits : List Node → List (ℤ × ℤ × ℤ)
  | [] => [(0, 0, 0)]
  | nd :: nds =>
    (List.range nd.n).flatMap fun i : ℕ =>
      (loopVisits nds).map fun v => (i * nd.is + v.1, i * nd.os + v.2.1, i * nd.ss + v.2.2)

/-! ## Layouts -/

/-- One entry of `layout_desc_t`. -/
structure Chunk where
  id : ℕ
  n : ℕ
  stride : ℤ
  deriving DecidableEq

/-- The entries of `layout_desc_t` for dimension `d`: pushed from the innermost block outwards, then
reversed. -/
def dimChunks (md : MemoryDesc) (d : ℕ) : List Chunk :=
  let blocks := md.computeBlocks
  let inner : List Chunk := if blocks d ≠ 1 then
      (md.blocking.inner.foldr
        (fun b (st : List Chunk × ℕ) =>
          (if b.idx = d then st.1 ++ [⟨d, b.blk, st.2⟩] else st.1, st.2 * b.blk)) ([], 1)).1
    else []
  let chunks : List Chunk := inner ++ [⟨d, md.paddedDims d / blocks d, md.blocking.strides d⟩]
  chunks.reverse

/-- Why no reorder problem is built: a status that is returned, or a store outside of an array. -/
inductive PrbError where
  | status (s : Status)
  | outOfBounds
  deriving DecidableEq

/-- `cvt_mem_desc_to_layout_desc` -/
def cvtMemDescToLayoutDesc (md : MemoryDesc) : Except PrbError (List Chunk) :=
  if md.isBlockingDesc && !md.extra.compensationConvS8s8 && !md.extra.scaleAdjust then
    let ld := (List.range md.ndims).flatMap (dimChunks md)
    if ld.length ≤ maxNdims then .ok ld else .error .outOfBounds
  else .error (.status .invalidArguments)

/-! ## `prb_init` -/

/-- The output scales of the primitive attributes. -/
structure OutputScales where
  hasDefaultValues : Bool
  mask : ℕ

/-- The scale strides of the entries of the output layout, from the last one to the first. -/
def scaleStrides (scaleType : ScaleType) (mask : ℕ) (old : List Chunk) : List (Chunk × ℤ) :=
  (old.foldr
    (fun c (st : List (Chunk × ℤ) × ℕ) =>
      if scaleType = .many ∧ mask.testBit c.id then ((c, (st.2 : ℤ)) :: st.1, st.2 * c.n)
      else ((c, 0) :: st.1, st.2))
    ([], 1)).1

/-- The loop of `prb_init` that merges the two layouts. Every iteration uses up an entry of one of the
layouts, so `steps` iterations suffice for layouts of `steps` entries together. -/
def mergeLayouts : ℕ → ℕ → List Chunk → List (Chunk × ℤ) → Except PrbError (List Node)
  | 0, _, _, _ => .ok []
  | steps + 1, ndims, il, ol =>
    match il, ol with
    | i :: il, (o, ss) :: ol =>
      if i.id ≠ o.id then .error (.status .runtimeError)
      else if ndims = maxNdims then .error (.status .runtimeError)
      else if i.n = o.n then do
        let nodes ← mergeLayouts steps (ndims + 1) il ol
        return ⟨i.n, i.stride, o.stride, ss⟩ :: nodes
      else if i.n < o.n then do
        let factor := o.n / i.n
        let nodes ← mergeLayouts steps (ndims + 1) il (({ o with n := factor }, ss) :: ol)
        return ⟨i.n, i.stride, o.stride * factor, ss * factor⟩ :: nodes
      else do
        let factor := i.n / o.n
        let nodes ← mergeLayouts steps (ndims + 1) ({ i with n := factor } :: il) ol
        return ⟨o.n, i.stride * factor, o.stride, ss⟩ :: nodes
    | _, _ => .ok []

/-- `prb_init` -/
def prbInit (imd omd : MemoryDesc) (outputScales : OutputScales) : Except PrbError Prb :=
  if imd.isBlockingDesc && omd.isBlockingDesc && !imd.hasZeroDim && !omd.hasZeroDim then
    let iblocks := imd.computeBlocks
    let oblocks := omd.computeBlocks
    -- padding consistency
    if ∀ d < imd.ndims, imd.paddedDims d = omd.paddedDims d ∧
        imd.paddedDims d % iblocks d = 0 ∧ imd.paddedDims d % oblocks d = 0 then do
      let ild ← cvtMemDescToLayoutDesc imd
      let old ← cvtMemDescToLayoutDesc omd
      let scaleType := if outputScales.hasDefaultValues then ScaleType.none
        else if outputScales.mask = 0 then .common else .many
      let nodes ← mergeLayouts (ild.length + old.length) 0 ild
        (scaleStrides scaleType outputScales.mask old)
      return {
        itype := imd.dataType
        otype := omd.dataType
        nodes := nodes
        ioff := imd.offV (fun _ => 0) false
        ooff := omd.offV (fun _ => 0) false
        scaleType := scaleType }
    else .error (.status .unimplemented)
  else .error (.status .unimplemented)

/-! ## `prb_normalize` and `prb_simplify` -/

/-- The condition `new_min`. -/
def newMin (nd min : Node) : Bool := nd.os < min.os ∨ nd.os = min.os ∧ nd.n < min.n

/-- The inner loop of `prb_normalize`: the position of the minimum of `nd :: nds`, `0` for `nd`. -/
def minPos (nd : Node) (nds : List Node) : ℕ :=
  (nds.zipIdx.foldl (fun (st : Node × ℕ) x => if newMin x.1 st.1 then (x.1, x.2 + 1) else st)
    (nd, 0)).2

/-- The loop of `prb_normalize` on the nodes from position `d` on, of which there are `len`. -/
def normalizeNodes : ℕ → List Node → List Node
  | len + 1, nd :: nds =>
    match minPos nd nds with
    | 0 => nd :: normalizeNodes len nds
    | k + 1 => nds.getD k nd :: normalizeNodes len (nds.set k nd)
  | _, nds => nds

/-- `prb_normalize` -/
def prbNormalize (p : Prb) : Prb := { p with nodes := normalizeNodes p.ndims p.nodes }

/-- The condition `fold`. -/
def canFold (thisNode nextNode : Node) : Bool :=
  nextNode.n = 1 ∨
    nextNode.is = thisNode.n * thisNode.is ∧ nextNode.os = thisNode.n * thisNode.os ∧
      nextNode.ss = thisNode.n * thisNode.ss

/-- The loop of `prb_simplify`, at a node and the nodes that follow it. -/
def simplifyNodes (thisNode : Node) : List Node → List Node
  | [] => [thisNode]
  | nextNode :: nodes =>
    if canFold thisNode nextNode then
      simplifyNodes { thisNode with n := thisNode.n * nextNode.n } nodes
    else thisNode :: simplifyNodes nextNode nodes

/-- `prb_simplify` -/
def prbSimplify (p : Prb) : Prb :=
  match p.nodes with
  | [] => p
  | nd :: nodes => { p with nodes := simplifyNodes nd nodes }

/-! ## Splitting and moving nodes -/

/-- `prb_node_split`. The loop that makes room for the new node starts with a store to
`p.nodes[p.ndims]`, behind the last node; with `max_ndims` nodes this is outside of the array. -/
def prbNodeSplit (p : Prb) (dim n1 : ℕ) : Option Prb :=
  if p.ndims + 1 < maxNdims then
    let nd := p.node dim
    some { p with
      nodes := p.nodes.take dim ++
        { nd with n := n1 } ::
        { n := nd.n / n1, is := nd.is * n1, os := nd.os * n1, ss := nd.ss * n1 } ::
        p.nodes.drop (dim + 1) }
  else none

/-- `prb_node_move` -/
def prbNodeMove (p : Prb) (d0 d1 : ℕ) : Prb :=
  if d0 = d1 then p
  else { p with nodes := (p.nodes.eraseIdx d0).insertIdx d1 (p.node d0) }

/-! ## `prb_block_for_cache` -/

/-- The condition `cache_blocking_needed`. -/
def cacheBlockingNeeded (p : Prb) : Bool :=
  ((p.node 0).is % 64 = 0 ∧ (p.node 0).n > 16) ∨
    (p.ndims > 1 ∧ (p.node 1).is % 64 = 0 ∧ (p.node 1).n > 16)

/-- `unit_input_stride_idx`, the last node with input stride one. -/
def unitInputStrideIdx (p : Prb) : Option ℕ :=
  (List.range p.ndims).foldl (fun i idx => if (p.node idx).is = 1 then some idx else i) none

/-- Whether the node is split before it is moved. -/
def unitSplitNeeded (nd : Node) : Bool := nd.n > 16 ∧ nd.n % 16 = 0

/-- The first part of `prb_block_for_cache`: the node with input stride one moves to the front. -/
def moveUnitInputStride (p : Prb) : Option Prb :=
  match unitInputStrideIdx p with
  | none => some p
  | some idx => do
    let moveLocation := if (p.node idx).os % 4 ≠ 0 then 0 else 1
    let p ← if unitSplitNeeded (p.node idx) then prbNodeSplit p idx 16 else some p
    return prbNodeMove p idx moveLocation

/-- Whether the first node is split in two around the second one. -/
def reuseSplitNeeded (p : Prb) : Bool :=
  p.ndims ≥ 2 ∧ (p.node 0).os = 1 ∧ (p.node 1).is = 1 ∧
    (p.node 0).n > 16 ∧ (p.node 0).n % 16 = 0 ∧ (p.node 0).is ≥ 256 ∧ (p.node 0).is % 64 = 0

/-- The second part of `prb_block_for_cache`. -/
def splitForReuse (p : Prb) : Option Prb :=
  if reuseSplitNeeded p then do
    let p ← prbNodeSplit p 0 16
    return prbNodeMove p 1 2
  else some p

/-- `prb_block_for_cache` -/
def prbBlockForCache (p : Prb) : Option Prb :=
  if cacheBlockingNeeded p then do
    let p ← moveUnitInputStride p
    splitForReuse p
  else some p

/-! ## `prb_thread_kernel_balance` -/

/-- `ker_prb_size_min` -/
def kerPrbSizeMin : ℕ := 64

/-- The loop that leaves the outer nodes to the driver: `kdims` and `sz_drv_cur`. -/
def kernelDims (p : Prb) (szDrvMin : ℕ) : ℕ → ℕ → ℕ × ℕ
  | kdims + 2, szDrvCur =>
    if szDrvCur < szDrvMin then kernelDims p szDrvMin (kdims + 1) (szDrvCur * (p.node (kdims + 1)).n)
    else (kdims + 2, szDrvCur)
  | kdims, szDrvCur => (kdims, szDrvCur)

/-- The search for `sz_want_borrow`: the first divisor of `n` from `start` on. Beyond `n` there is
none, and the loop of the source would not end. -/
def findDivisor (n start : ℕ) : Option ℕ :=
  (List.range' start (n + 1 - start)).find? fun w => n % w = 0

/-- The sizes that `prb_thread_kernel_balance` decides on. -/
structure Balance where
  szDrvMin : ℕ
  kdims : ℕ
  szDrvCur : ℕ
  szKerCur : ℕ

def balance (nthr : ℕ) (p : Prb) : Balance :=
  let szTotal := (p.nodes.map Node.n).prod
  let szDrvMin := min (16 * nthr) (divUp szTotal 1024)
  let drv := kernelDims p szDrvMin p.ndims 1
  { szDrvMin := szDrvMin
    kdims := drv.1
    szDrvCur := drv.2
    szKerCur := ((p.nodes.take drv.1).map Node.n).prod }

/-- `want_borrow_ker_from_drv` -/
def Balance.wantBorrowKerFromDrv (b : Balance) (p : Prb) : Bool :=
  b.kdims < p.ndims ∧ b.szKerCur < kerPrbSizeMin ∧ b.szDrvCur > b.szDrvMin

/-- `want_borrow_drv_from_ker` -/
def Balance.wantBorrowDrvFromKer (b : Balance) : Bool :=
  b.szKerCur > kerPrbSizeMin ∧ b.szDrvCur < b.szDrvMin

/-- The kernel borrows from the innermost driver node: the new problem and `kdims`. -/
def borrowKerFromDrv (b : Balance) (p : Prb) : Option (Prb × ℕ) :=
  if b.wantBorrowKerFromDrv p then do
    let szWantBorrow ← findDivisor (p.node b.kdims).n (divUp kerPrbSizeMin b.szKerCur)
    let p ← if szWantBorrow ≠ (p.node b.kdims).n then prbNodeSplit p b.kdims szWantBorrow else some p
    return (p, b.kdims + 1)
  else some (p, b.kdims)

/-- The driver borrows from the outermost kernel node. -/
def borrowDrvFromKer (b : Balance) (p : Prb) (kdims : ℕ) : Option Prb :=
  if b.wantBorrowDrvFromKer then do
    let n := (p.node (kdims - 1)).n
    let szWantBorrow ← findDivisor n (divUp b.szDrvMin b.szDrvCur)
    if szWantBorrow ≠ n then prbNodeSplit p (kdims - 1) (n / szWantBorrow) else some p
  else some p

/-- `prb_thread_kernel_balance` for a team of `nthr` threads: the problem and `ndims_ker_max`. -/
def prbThreadKernelBalance (nthr : ℕ) (p : Prb) : Option (Prb × ℕ) := do
  let b := balance nthr p
  let (p, kdims) ← borrowKerFromDrv b p
  let p ← borrowDrvFromKer b p kdims
  return (p, kdims)

/-- The passes of `jit_uni_reorder_t::pd_t::create` after `prb_init`; `none` if a pass stores outside of
the array of nodes. -/
def prbPasses (nthr : ℕ) (p : Prb) : Option (Prb × ℕ) := do
  let p := prbSimplify (prbNormalize p)
  let p ← prbBlockForCache p
  prbThreadKernelBalance nthr p

end MklDnn
