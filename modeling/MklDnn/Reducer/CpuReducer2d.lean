import MklDnn.Lib.SteppedLoops
import MklDnn.Reducer.CpuReducer

/-!
# Reduction in two dimensions

`cpu_reducer_2d_t`, with which the threads of a group reduce the partial results of their jobs to parts of a
matrix. The partial results of all threads are in the scratchpad. Every job begins inside of the matrix.
-/

open Interleaving

namespace MklDnn

/-- `cpu_reducer_2d_t::conf_t` -/
structure CpuReducer2d where
  balancer : ReduceBalancer
  jobSizeX : ℕ
  jobSizeY : ℕ
  xBlock : ℕ
  dstX : ℕ
  dstY : ℕ

namespace CpuReducer2d

open CpuReducer (Elem spacePerThread redundantReduction)

variable (c : CpuReducer2d)

/-- The number of elements that `init_scratchpad` books. -/
def spaceSize : ℕ :=
  if c.balancer.nthrPerGroup = 1 then 0 else c.balancer.ngroups * c.balancer.nthrPerGroup * spacePerThread c.balancer

/-- The driver of a reducer. -/
def drv (isa : IsaTraits) : Reducer2dDriver where
  isa := isa
  nSrc := c.balancer.nthrPerGroup
  srcLd := spacePerThread c.balancer
  srcStep := c.jobSizeX
  dstStep := c.dstX
  nullifyDst := true

/-- `get_local_ptr`: where the partial results of a thread begin in the scratchpad. -/
def getLocalPtr (ithr : ℕ) : ℕ :=
  let idInGrp := c.balancer.idInGroup ithr
  let grpId := c.balancer.groupId ithr
  let offsetFactor := grpId * c.balancer.nthrPerGroup + idInGrp
  offsetFactor * spacePerThread c.balancer

/-! ## The width of the blocks -/

/-- The loop of `choose_x_blocking` has an iteration. -/
def narrows (minXBlocking xBlocking : ℕ) : Bool :=
  (xBlocking % 2 = 0 ∧ xBlocking ≥ minXBlocking * 2) ∨ (xBlocking % 3 = 0 ∧ xBlocking ≥ minXBlocking * 3)

/-- An iteration of the loop of `choose_x_blocking`. -/
def narrow (minXBlocking xBlocking : ℕ) : ℕ :=
  if xBlocking % 2 = 0 ∧ xBlocking ≥ minXBlocking * 2 then xBlocking / 2 else xBlocking / 3

/-- `choose_x_blocking`. There is no result if it divides by zero, or if `fuel` tests do not end its loop. -/
def chooseXBlocking (fuel nx ny nthrPerGrp : ℕ) : Option ℕ :=
  if c.xBlock = 0 ∨ ny = 0 then none
  else
    let minXBlocking := divUp (nx / c.xBlock) (max 1 (nthrPerGrp / ny))
    let chosen := WhileLoops.loop (narrows minXBlocking) (fun x => some (narrow minXBlocking x)) fuel (nx / c.xBlock)
    chosen.map fun xBlocking => (if xBlocking ≥ minXBlocking * 4 then 1 else xBlocking) * c.xBlock

/-! ## The places of the jobs -/

/-- `njobs_x` -/
def njobsX : ℕ := divUp c.dstX c.jobSizeX

/-- `start_y` -/
def startY (globalJob : ℕ) : ℕ := globalJob / c.njobsX * c.jobSizeY

/-- `start_x` -/
def startX (globalJob : ℕ) : ℕ := globalJob % c.njobsX * c.jobSizeX

/-- `ny` -/
def ny (globalJob : ℕ) : ℕ := min (c.dstY - c.startY globalJob) c.jobSizeY

/-- `nx` -/
def nx (globalJob : ℕ) : ℕ := min (c.dstX - c.startX globalJob) c.jobSizeX

/-! ## The reduction -/

/-- The arguments of a call of `reduce_block`. -/
structure Block where
  job : ℕ
  startY : ℕ
  startX : ℕ
  nyStart : ℕ
  nxStart : ℕ
  nyStep : ℕ
  nxStep : ℕ
  deriving DecidableEq

/-- `reduce_block` -/
def reduceBlock {V : Type*} [Add V] [Zero V] (isa : IsaTraits) (ithr spaceBase : ℕ) (k : Block) : List (Assign Elem V) :=
  let d := fun i => Elem.dst ((k.startY + k.nyStart) * c.dstX + k.startX + k.nxStart + i)
  let space := fun i =>
    Elem.space (spaceBase + k.job * c.balancer.jobSize + k.nyStart * c.jobSizeX + k.nxStart + i)
  (c.drv isa).ker (.reg ithr) d space k.nyStep k.nxStep

/-- `nx_step`: the elements up to the end of a row. -/
def restOfRow (nx nxy nxyEnd : ℕ) : ℕ := if nxy % nx ≠ 0 then min (nx - nxy % nx) (nxyEnd - nxy) else 0

/-- `ny_step`: the rows that are handled at once. -/
def wholeRows (nx nxy nxyEnd : ℕ) : ℕ := if nxyEnd - nxy > nx then (nxyEnd - nxy) / nx else 0

/-- The calls of `reduce_block` for a range of the elements of a job: the rest of a row, whole rows, and what is left. -/
def blocks (job startY startX nx nxyStart nxyEnd : ℕ) : List Block :=
  let block := fun nxy nyStep nxStep => (⟨job, startY, startX, nxy / nx, nxy % nx, nyStep, nxStep⟩ : Block)
  let nxStep := restOfRow nx nxyStart nxyEnd
  let nxy := nxyStart + nxStep
  let nyStep := wholeRows nx nxy nxyEnd
  let nxy' := nxy + nx * nyStep
  (if nxyStart % nx ≠ 0 then [block nxyStart 1 nxStep] else []) ++
    (if nxyEnd - nxy > nx then [block nxy nyStep nx] else []) ++
    if nxyEnd - nxy' > 0 then [block nxy' 1 (nxyEnd - nxy')] else []

/-- An iteration of the loop of `reduce_nolock`: the calls for job `j` of the group. -/
def jobBlocks (fuel globalJobStart prNthrPerGrp prMyId j : ℕ) : Option (List Block) :=
  let globalJob := globalJobStart + j
  let nx := c.nx globalJob
  let ny := c.ny globalJob
  (c.chooseXBlocking fuel nx ny prNthrPerGrp).map fun xBlocking =>
    let nxy := balance211 (ny * nx / xBlocking) prNthrPerGrp prMyId
    if nxy.1 = nxy.2 then []
    else blocks j (c.startY globalJob) (c.startX globalJob) nx (nxy.1 * xBlocking) (nxy.2 * xBlocking)

/-- `pr_grps` -/
def prGrps (njobsInGrp : ℕ) : ℕ := min njobsInGrp c.balancer.nthrPerGroup

/-- `pr_nthr_per_grp` -/
def prNthrPerGrp (njobsInGrp : ℕ) : ℕ := c.balancer.nthrPerGroup / c.prGrps njobsInGrp

/-- The calls of `reduce_block` in `reduce_nolock`. -/
def threadBlocks (fuel ithr : ℕ) : Option (List Block) :=
  if redundantReduction c.balancer ithr then some []
  else
    let idInGrp := c.balancer.idInGroup ithr
    let njobsInGrp := c.balancer.ithrNjobs ithr
    let globalJobStart := c.balancer.ithrJobOff ithr
    let prGrps := c.prGrps njobsInGrp
    let prNthrPerGrp := c.prNthrPerGrp njobsInGrp
    if idInGrp ≥ prGrps * prNthrPerGrp then some []
    else
      let prMyGrp := idInGrp / prNthrPerGrp
      let prMyId := idInGrp % prNthrPerGrp
      let prJob := balance211 njobsInGrp prGrps prMyGrp
      ((List.range' prJob.1 (prJob.2 - prJob.1)).mapM
        (c.jobBlocks fuel globalJobStart prNthrPerGrp prMyId)).map List.flatten

/-- `reduce_nolock` -/
def reduceNolock {V : Type*} [Add V] [Zero V] (isa : IsaTraits) (fuel ithr : ℕ) : Option (List (Assign Elem V)) :=
  let spaceBase := c.getLocalPtr (ithr - c.balancer.idInGroup ithr)
  (c.threadBlocks fuel ithr).map (List.flatMap (c.reduceBlock isa ithr spaceBase))

/-- The jobs are a grid of parts of the destination. -/
structure JobGrid : Prop where
  xBlock_pos : 0 < c.xBlock
  jobSizeX_pos : 0 < c.jobSizeX
  jobSizeY_pos : 0 < c.jobSizeY
  dstX_dvd : c.xBlock ∣ c.dstX
  dstX_le : c.xBlock ≤ c.dstX
  dstY_pos : 0 < c.dstY
  jobSize_eq : c.balancer.jobSize = c.jobSizeX * c.jobSizeY
  njobs_eq : c.balancer.njobs = divUp c.dstX c.jobSizeX * divUp c.dstY c.jobSizeY

end CpuReducer2d

end MklDnn
