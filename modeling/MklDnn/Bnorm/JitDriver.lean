import MklDnn.Common.Threading

/-!
# Batch normalization: work distribution

`bnorm_utils`: how many channel blocks an iteration takes so that its working set stays in the cache, and
how the threads form a grid over channel blocks, minibatch and spatial points.
-/

namespace MklDnn.BnormUtils

/-- `cache_balance`: `C_blks_per_iter` and `iters`. The first argument is `get_cache_size(3, true)`. -/
def cacheBalance (cacheSize nthrs workingSetSize C_blks : ℕ) : ℕ × ℕ :=
  let l3Size := cacheSize * nthrs / 2
  let C_blksPerIter := l3Size / workingSetSize
  let C_blksPerIter := if C_blksPerIter = 0 then 1 else C_blksPerIter
  let C_blksPerIter := if C_blksPerIter > C_blks then C_blks else C_blksPerIter
  (C_blksPerIter, (C_blks + C_blksPerIter - 1) / C_blksPerIter)

/-- The place of a thread in the grid and its ranges, as `thread_balance` sets them. -/
structure Grid where
  C_ithr : ℤ
  C_nthr : ℤ
  C_blk_s : ℤ
  C_blk_e : ℤ
  N_ithr : ℤ
  N_nthr : ℤ
  N_s : ℤ
  N_e : ℤ
  S_ithr : ℤ
  S_nthr : ℤ
  S_s : ℤ
  S_e : ℤ
  deriving DecidableEq, Repr

/-- `C_nthr`, `N_nthr` and `S_nthr` of a team of more threads than channel blocks. -/
def gridOf (doBlocking : Bool) (nthr N C_blks SP : ℕ) : ℕ × ℕ × ℕ :=
  if doBlocking then
    let N_nthr := min N nthr
    let C_nthr := min C_blks (nthr / N_nthr)
    (C_nthr, N_nthr, min SP (nthr / (C_nthr * N_nthr)))
  else
    let C_nthr := Nat.gcd nthr C_blks
    let N_nthr := min N (nthr / C_nthr)
    (C_nthr, N_nthr, min SP (nthr / (C_nthr * N_nthr)))

/-- `thread_balance`: whether spatial threading stays allowed, and the place of thread `ithr`. -/
def threadBalance (syncable doBlocking spatialThrAllowed : Bool) (ithr nthr N C_blks SP : ℕ) : Bool × Grid :=
  let grid : Grid :=
    if nthr ≤ C_blks ∨ ¬ syncable then
      let blks := balance211 C_blks nthr ithr
      { C_ithr := ithr, C_nthr := nthr, C_blk_s := blks.1, C_blk_e := blks.2
        N_ithr := 0, N_nthr := 1, N_s := 0, N_e := N
        S_ithr := 0, S_nthr := 1, S_s := 0, S_e := SP }
    else
      let (C_nthr, N_nthr, S_nthr) := gridOf doBlocking nthr N C_blks SP
      let S_nthr := if ¬ spatialThrAllowed then 1 else S_nthr
      let S_nthr := if S_nthr < 1 then 1 else S_nthr
      if ithr < C_nthr * N_nthr * S_nthr then
        let N_ithr := ithr / S_nthr % N_nthr
        let C_ithr := ithr / (N_nthr * S_nthr)
        let S_ithr := ithr % S_nthr
        let blks := balance211 C_blks C_nthr C_ithr
        let images := balance211 N N_nthr N_ithr
        let points := balance211 SP S_nthr S_ithr
        { C_ithr := C_ithr, C_nthr := C_nthr, C_blk_s := blks.1, C_blk_e := blks.2
          N_ithr := N_ithr, N_nthr := N_nthr, N_s := images.1, N_e := images.2
          S_ithr := S_ithr, S_nthr := S_nthr, S_s := points.1, S_e := points.2 }
      else
        { C_ithr := -ithr, C_nthr := C_nthr, C_blk_s := -1, C_blk_e := -1
          N_ithr := -ithr, N_nthr := N_nthr, N_s := -1, N_e := -1
          S_ithr := -ithr, S_nthr := S_nthr, S_s := -1, S_e := -1 }
  (if grid.S_nthr = 1 then false else spatialThrAllowed, grid)

/-- `do_blocking`: whether the data does not fit into half of the cache. -/
def doBlocking (cacheSize nthrs dataSize : ℕ) : Bool :=
  let l3Size := cacheSize * nthrs / 2
  dataSize ≥ l3Size / 2 ∧ l3Size > 0

/-- `is_spatial_thr` -/
def isSpatialThr (syncable isFwd : Bool) (cacheSize nthr MB C_PADDED SP simdW dataSize : ℕ) : Bool :=
  if ¬ syncable then false
  else
    let data := MB * C_PADDED * SP * dataSize
    let doBlocking := doBlocking cacheSize nthr data
    let C_blks := C_PADDED / simdW
    let C_blksPerIter :=
      if doBlocking then
        let numTensors := if isFwd then 1 else 2
        (cacheBalance cacheSize nthr (MB * SP * simdW * dataSize * numTensors) C_blks).1
      else 1
    let C_blks := if doBlocking then C_blksPerIter else C_blks
    if nthr ≤ C_blks then false
    else (gridOf doBlocking nthr MB C_blks SP).2.2 > 1

end MklDnn.BnormUtils

/-!
## JIT batch normalization: the driver

`bnorm_impl::driver_t`: the scratchpad that it books and the calls of the kernel that a thread makes in
`exec`, and the walk of the kernel over the data of a call. Pointers into the data are byte offsets, pointers
into the scratchpad are numbers of elements, and the pointer to a barrier is its index.
-/

namespace MklDnn.BnormJit

open BnormUtils

/-- What the driver reads of the batch normalization, of the machine and of the threading runtime. -/
structure Driver where
  isFwd : Bool
  MB : ℕ
  C : ℕ
  C_PADDED : ℕ
  D : ℕ
  H : ℕ
  W : ℕ
  /-- The number of channels in a vector. -/
  simdW : ℕ
  dtSize : ℕ
  /-- `dnnl_get_max_threads` -/
  nthrs : ℕ
  /-- `dnnl_thr_syncable` -/
  syncable : Bool
  /-- `get_cache_size(3, true)` -/
  cacheSize : ℕ
  MB_pos : 0 < MB
  C_PADDED_pos : 0 < C_PADDED
  spatial_pos : 0 < D * H * W
  simdW_pos : 0 < simdW
  dtSize_pos : 0 < dtSize
  nthrs_pos : 0 < nthrs
  simdW_dvd : simdW ∣ C_PADDED

/-- `call_params_t`, as far as it directs the kernel. -/
structure Call where
  N_ithr : ℤ
  N_nthr : ℤ
  coffMax : ℤ
  soffMax : ℤ
  mbStrideBc : ℤ
  spatSize : ℤ
  spatSizeLoc : ℤ
  S_s : ℤ
  S_tail : ℤ
  isCblkTail : Bool
  /-- The offset of `mean`, `var`, `scale_shift` and `diff_scale_shift`. -/
  coffBase : ℤ
  /-- The offset of `src`, `dst`, `diff_src` and `diff_dst`. -/
  src : ℤ
  /-- The offset of `ws`, which has a bit for each element. -/
  ws : ℤ
  rbuf1 : ℤ
  rbuf2 : ℤ
  barrier : ℤ
  deriving DecidableEq, Repr

namespace Driver

variable (d : Driver)

def SP : ℕ := d.D * d.H * d.W

def C_blks : ℕ := d.C_PADDED / d.simdW

/-- `do_blocking_` -/
def doBlocking_ : Bool := doBlocking d.cacheSize d.nthrs (d.dtSize * d.MB * d.C_PADDED * d.D * d.H * d.W)

/-- The size of `key_bnorm_reduction` -/
def rbufSz : ℕ := (if d.isFwd then 1 else 2) * d.C_PADDED * d.nthrs

/-- The number of contexts in `key_barrier` -/
def nBarriers : ℕ := if d.syncable then d.C_PADDED / d.simdW else 0

/-- `ker_.is_spatial_thr_` -/
def isSpatialThr_ : Bool :=
  isSpatialThr d.syncable d.isFwd d.cacheSize d.nthrs d.MB d.C_PADDED (d.W * d.D * d.H) d.simdW d.dtSize

/-- `vlen_spat_data_`: the bytes of a vector of the data. -/
def vlenSpatData : ℕ := d.simdW * d.dtSize

/-- `C_blks_per_iter` and `iters` of `exec` -/
def blocking : ℕ × ℕ :=
  if d.doBlocking_ then
    let numTensors := if d.isFwd then 1 else 2
    cacheBalance d.cacheSize d.nthrs (d.dtSize * (d.MB * d.D * d.H * d.W * d.simdW) * numTensors) d.C_blks
  else (1, 1)

/-- The variables that the loop of `exec` changes; `calls` holds the calls with their iterations. -/
structure ExecState where
  grid : Grid
  spatialThrAllowed : Bool
  N_ithr : ℤ
  N_nthr : ℤ
  calls : List (ℕ × Call)

/-- The arguments of the kernel in iteration `it`. -/
def params (nthr : ℕ) (SP_N_nthr globalBarriersPerIter : ℤ) (g : Grid) (N_ithr N_nthr : ℤ) (it : ℕ) : Call :=
  let C_blksPerIter := d.blocking.1
  let imgSize : ℤ := d.C_PADDED * d.D * d.H * d.W
  let spatSize : ℤ := d.D * d.H * d.W
  let globalC_blk_s : ℤ :=
    if d.doBlocking_ then if g.C_blk_s = -1 then -1 else it * C_blksPerIter + g.C_blk_s else g.C_blk_s
  let C_blksThr := g.C_blk_e - g.C_blk_s
  let N_thr := g.N_e - g.N_s
  let coffBase := globalC_blk_s * d.simdW
  let soffBase := globalC_blk_s * spatSize * d.simdW + g.N_s * imgSize
  let coffMax := C_blksThr * d.simdW
  let rbuf1 := (it * C_blksPerIter * SP_N_nthr + g.C_blk_s * N_nthr + N_ithr * C_blksThr) * d.simdW
  let iterBarriers := if d.doBlocking_ then it * globalBarriersPerIter else 0
  { N_ithr := N_ithr, N_nthr := N_nthr
    coffMax := coffMax
    soffMax := d.dtSize * N_thr * imgSize
    mbStrideBc := d.dtSize * (imgSize - coffMax * spatSize)
    spatSize := spatSize
    spatSizeLoc := g.S_e - g.S_s
    S_s := g.S_s * d.vlenSpatData
    S_tail := (spatSize - g.S_e) * d.vlenSpatData
    isCblkTail := (it * C_blksPerIter + g.C_blk_e) * d.simdW > d.C
    coffBase := coffBase
    src := soffBase * d.dtSize
    ws := soffBase / 8
    rbuf1 := rbuf1
    rbuf2 := rbuf1 + d.C_PADDED * nthr
    barrier := g.C_ithr + iterBarriers }

/-- One iteration of the loop of `exec`. -/
def iteration (ithr nthr : ℕ) (SP_N_nthr globalBarriersPerIter : ℤ) (s : ExecState) (it : ℕ) : ExecState :=
  let (C_blksPerIter, iters) := d.blocking
  let lastIterBlks := d.C_blks - (iters - 1) * C_blksPerIter
  let s :=
    if it = iters - 1 ∧ iters > 1 then
      let (allowed, g) := threadBalance d.syncable d.doBlocking_ s.spatialThrAllowed ithr nthr d.MB lastIterBlks d.SP
      { s with grid := g, spatialThrAllowed := allowed,
               N_ithr := g.N_ithr * g.S_nthr + g.S_ithr, N_nthr := g.N_nthr * g.S_nthr }
    else s
  let p := d.params nthr SP_N_nthr globalBarriersPerIter s.grid s.N_ithr s.N_nthr it
  if p.soffMax ≠ 0 ∧ p.coffMax ≠ 0 then { s with calls := s.calls ++ [(it, p)] } else s

/-- `exec`: the variables of thread `ithr` after `k` iterations of the loop. -/
def execState (ithr nthr k : ℕ) : ExecState :=
  let (allowed, g) := threadBalance d.syncable d.doBlocking_ true ithr nthr d.MB
    (if d.doBlocking_ then d.blocking.1 else d.C_blks) d.SP
  let SP_N_ithr := g.N_ithr * g.S_nthr + g.S_ithr
  let SP_N_nthr := g.N_nthr * g.S_nthr
  (List.range k).foldl (d.iteration ithr nthr SP_N_nthr g.C_nthr)
    { grid := g, spatialThrAllowed := allowed, N_ithr := SP_N_ithr, N_nthr := SP_N_nthr, calls := [] }

/-- `exec`: the calls of the kernel by thread `ithr`. -/
def exec (ithr nthr : ℕ) : List (ℕ × Call) := (d.execState ithr nthr d.blocking.2).calls

end Driver

/-! ## The walk of the kernel -/

namespace Call

variable (k : Call)

/-- `spat_loop`: the offsets of the vectors that the loop visits, and `reg_soff` after it. -/
def spatLoop (isSpatialThr : Bool) (vlenSpatData : ℕ) (soff : ℤ) : List ℤ × ℤ :=
  if isSpatialThr then
    let first := soff + k.S_s
    ((List.range k.spatSizeLoc.toNat).map fun i : ℕ => first + i * vlenSpatData,
      first + k.spatSizeLoc * vlenSpatData + k.S_tail)
  else
    ((List.range k.spatSize.toNat).map fun i : ℕ => soff + i * vlenSpatData, soff + k.spatSize * vlenSpatData)

/-- The loop over `reg_coff` of `mean_channels` and its siblings. -/
def channels (isSpatialThr : Bool) (simdW vlenSpatData : ℕ) (soff : ℤ) : List ℤ × ℤ :=
  (List.range (k.coffMax.toNat / simdW)).foldl
    (fun acc _ =>
      let loop := k.spatLoop isSpatialThr vlenSpatData acc.2
      (acc.1 ++ loop.1, loop.2))
    ([], soff)

/-- The loop over `reg_soff`, which ends when `reg_soff` is `soff_max`: the visited offsets from the start of
the data, or nothing if the loop needs more than `fuel` passes. -/
def walk (isSpatialThr : Bool) (simdW vlenSpatData : ℕ) : ℕ → ℤ → Option (List ℤ)
  | 0, _ => none
  | fuel + 1, soff =>
    let pass := k.channels isSpatialThr simdW vlenSpatData soff
    let soff' := pass.2 + k.mbStrideBc
    let visited := pass.1.map (k.src + ·)
    if soff' = k.soffMax then some visited
    else (walk isSpatialThr simdW vlenSpatData fuel soff').map (visited ++ ·)

/-- The parts of `rbuf1` and `rbuf2` of the calling thread; forward uses `rbuf1` only. -/
def parts (isFwd : Bool) : List (ℤ × ℤ) :=
  (k.rbuf1, k.rbuf1 + k.coffMax) :: if isFwd then [] else [(k.rbuf2, k.rbuf2 + k.coffMax)]

end Call

end MklDnn.BnormJit
