import Mathlib.Algebra.Group.Nat.Even
import Mathlib.Data.Int.DivMod
import MklDnn.Common.Threading
import MklDnn.Common.Utils
import MklDnn.Lib.Assignments

/-!
# Balance of a reduction

`reduce_balancer_t`: the threads are divided into groups, the groups share the jobs, and the threads of a
group share the reduction. The products of sizes are exact.
-/

namespace MklDnn

/-- `reduce_balancer_t` -/
structure ReduceBalancer where
  allowNthrInGroup : Bool
  nthr : ℕ
  jobSize : ℕ
  njobs : ℕ
  reductionSize : ℕ
  maxBufferSize : ℕ
  ngroups : ℕ
  nthrPerGroup : ℕ
  njobsPerGroupUb : ℕ

namespace ReduceBalancer

/-- The choice that `balance` makes. -/
structure Choice where
  ngroups : ℕ
  nthrPerGroup : ℕ
  njobsPerGroupUb : ℕ

section Balance

variable (allowNthrInGroup : Bool) (nthr jobSize njobs reductionSize maxBufferSize : ℕ)

/-- The choice for a number of jobs for each group. -/
def candidate (njobsPerGroup : ℕ) : Choice where
  ngroups := min (njobs / njobsPerGroup) nthr
  nthrPerGroup := if allowNthrInGroup then min (nthr / min (njobs / njobsPerGroup) nthr) reductionSize else 1
  njobsPerGroupUb := divUp njobs (min (njobs / njobsPerGroup) nthr)

def minNjobsPerGroup : ℕ := max 1 (njobs / nthr)

/-- `max_njobs_per_group`, with the conversion of the quotient to an `int`. -/
def maxNjobsPerGroup : ℕ := max 1 (Int.bmod (maxBufferSize / (nthr * jobSize) : ℕ) (2 ^ 32)).toNat

/-- `c_thread_complexity_ub` -/
def threadComplexityUb (c : Choice) : ℕ :=
  let threadReductionUb := divUp reductionSize c.nthrPerGroup
  let groupSizeUb := jobSize * c.njobsPerGroupUb
  groupSizeUb * (threadReductionUb + if c.nthrPerGroup ≠ 1 then 1 else 0)

/-- An iteration of the search: the best choice so far, and `thread_complexity_ub`. -/
def balanceStep (best : Choice × ℕ) (njobsPerGroup : ℕ) : Choice × ℕ :=
  let c := candidate allowNthrInGroup nthr njobs reductionSize njobsPerGroup
  if c.nthrPerGroup > 1 ∧ c.njobsPerGroupUb > maxNjobsPerGroup nthr jobSize maxBufferSize then best
  else if threadComplexityUb jobSize reductionSize c < best.2 then (c, threadComplexityUb jobSize reductionSize c)
  else best

/-- `reduce_balancer_t::balance` -/
def balance : Choice :=
  let first := minNjobsPerGroup nthr njobs
  ((List.range' first (njobs - first)).foldl
    (balanceStep allowNthrInGroup nthr jobSize njobs reductionSize maxBufferSize)
    (candidate allowNthrInGroup nthr njobs reductionSize first, njobs * jobSize * reductionSize)).1

/-- `reduce_balancer_t::init` -/
def init : ReduceBalancer :=
  let c := balance allowNthrInGroup nthr jobSize njobs reductionSize maxBufferSize
  { allowNthrInGroup, nthr, jobSize, njobs, reductionSize, maxBufferSize, ngroups := c.ngroups,
    nthrPerGroup := c.nthrPerGroup, njobsPerGroupUb := c.njobsPerGroupUb }

end Balance

variable (b : ReduceBalancer)

/-- `idle` -/
def idle (ithr : ℕ) : Bool := ithr ≥ b.nthrPerGroup * b.ngroups

/-- `group_id` -/
def groupId (ithr : ℕ) : ℕ := ithr / b.nthrPerGroup

/-- `id_in_group` -/
def idInGroup (ithr : ℕ) : ℕ := ithr % b.nthrPerGroup

/-- `grp_njobs` -/
def grpNjobs (grp : ℕ) : ℕ :=
  if grp ≥ b.ngroups then 0 else b.njobs / b.ngroups + if grp < b.njobs % b.ngroups then 1 else 0

/-- `grp_job_off` -/
def grpJobOff (grp : ℕ) : ℕ :=
  if grp ≥ b.ngroups then b.njobs else b.njobs / b.ngroups * grp + min grp (b.njobs % b.ngroups)

/-- `ithr_njobs` -/
def ithrNjobs (ithr : ℕ) : ℕ := b.grpNjobs (b.groupId ithr)

/-- `ithr_job_off` -/
def ithrJobOff (ithr : ℕ) : ℕ := b.grpJobOff (b.groupId ithr)

/-- The assertions at the end of `balance`. -/
structure Closes : Prop where
  fits : b.njobsPerGroupUb ≤ maxNjobsPerGroup b.nthr b.jobSize b.maxBufferSize ∨ b.nthrPerGroup = 1
  team : b.ngroups * b.nthrPerGroup ≤ b.nthr
  buffer : b.njobsPerGroupUb * b.jobSize * b.nthr ≤ b.maxBufferSize ∨ b.nthrPerGroup = 1
  lockFree : b.allowNthrInGroup = false → b.nthrPerGroup = 1

/-- The groups partition the jobs, and no group has more than `njobs_per_group_ub_` of them. -/
structure Partitions : Prop where
  cover : b.njobs ≤ b.ngroups * b.njobsPerGroupUb
  unique : ∀ job < b.njobs, ∃! grp, grp < b.ngroups ∧ b.grpJobOff grp ≤ job ∧ job < b.grpJobOff grp + b.grpNjobs grp
  inside : ∀ grp < b.ngroups, b.grpJobOff grp + b.grpNjobs grp ≤ b.njobs
  bounded : ∀ grp, b.grpNjobs grp ≤ b.njobsPerGroupUb

end ReduceBalancer

end MklDnn

/-!
## Reduction of partial results

`reducer_2d_driver_t`, the generated code that adds up rows of a matrix, and `cpu_reducer_t`, with which the
threads of a group reduce their partial results to a contiguous destination. A program assigns to single
elements, also to those of the vector registers. The elements of `f32` and of `s32` have four bytes.
-/

open Interleaving

namespace MklDnn

/-- The sizes in `cpu_isa_traits`: the bytes of a vector register, and the number of registers. -/
structure IsaTraits where
  vlen : ℕ
  nVregs : ℕ

namespace IsaTraits

def avx2 : IsaTraits := ⟨32, 16⟩

def avx512Common : IsaTraits := ⟨64, 32⟩

end IsaTraits

/-- `reducer_2d_driver_t` -/
structure Reducer2dDriver where
  isa : IsaTraits
  nSrc : ℕ
  srcLd : ℕ
  srcStep : ℕ
  dstStep : ℕ
  nullifyDst : Bool

namespace Reducer2dDriver

variable {A V : Type*} [Add V] [Zero V] (drv : Reducer2dDriver) (reg dst srcs : ℕ → A)

/-- An iteration of a loop of `loop_x` that loads, accumulates and stores `n` elements from `off`. -/
def block (off n : ℕ) : List (Assign A V) :=
  ((List.range n).map fun r => ⟨reg r, fun m => if drv.nullifyDst then 0 else m (dst (off + r))⟩) ++
    (List.range drv.nSrc).flatMap (fun srcId =>
      (List.range n).map fun r => ⟨reg r, fun m => m (reg r) + m (srcs (srcId * drv.srcLd + (off + r)))⟩) ++
    (List.range n).map fun r => ⟨dst (off + r), fun m => m (reg r)⟩

/-- The elements that an iteration handles, in every loop of `loop_x`. -/
def nloads : List ℕ := [drv.isa.nVregs * (drv.isa.vlen / 4), drv.isa.vlen / 4, 1]

/-- The loops of `loop_x` over `nx` elements from `off`: one loop after the other while there is enough left. -/
def loopsX : List ℕ → ℕ → ℕ → List (Assign A V)
  | [], _, _ => []
  | n :: ns, off, nx =>
    (List.range (nx / n)).flatMap (fun i => drv.block reg dst srcs (off + i * n) n) ++
      loopsX ns (off + nx / n * n) (nx % n)

/-- `loop_x` -/
def loopX (nx : ℕ) : List (Assign A V) := drv.loopsX reg dst srcs drv.nloads 0 nx

/-- The generated code: `ny` rows of `nx` elements. -/
def ker (ny nx : ℕ) : List (Assign A V) :=
  (List.range ny).flatMap fun y =>
    drv.loopX reg (fun x => dst (y * drv.dstStep + x)) (fun x => srcs (y * drv.srcStep + x)) nx

end Reducer2dDriver

namespace CpuReducer

/-- An element of the destination, of the scratchpad or of the registers of a thread. -/
inductive Elem where
  | dst (i : ℕ)
  | space (i : ℕ)
  | reg (ithr r : ℕ)
  deriving DecidableEq

variable (b : ReduceBalancer)

/-- `space_per_thread` -/
def spacePerThread : ℕ := b.njobsPerGroupUb * b.jobSize

/-- The number of elements that `init_scratchpad` books. -/
def spaceSize : ℕ := if b.nthrPerGroup = 1 then 0 else b.ngroups * (b.nthrPerGroup - 1) * spacePerThread b

/-- `get_local_ptr`: what lies at an offset from the pointer. -/
def getLocalPtr (ithr : ℕ) (i : ℕ) : Elem :=
  let idInGrp := b.idInGroup ithr
  if idInGrp = 0 then .dst (b.ithrJobOff ithr * b.jobSize + i)
  else
    let grpId := b.groupId ithr
    let offsetFactor := grpId * (b.nthrPerGroup - 1) + (idInGrp - 1)
    .space (offsetFactor * spacePerThread b + i)

/-- The driver of a reducer. -/
def drv (isa : IsaTraits) : Reducer2dDriver where
  isa := isa
  nSrc := b.nthrPerGroup - 1
  srcLd := spacePerThread b
  srcStep := 0
  dstStep := 0
  nullifyDst := false

/-- There is nothing to reduce for the thread. -/
def redundantReduction (ithr : ℕ) : Bool := b.nthrPerGroup = 1 ∨ b.idle ithr

/-- The elements in a cache line. -/
def cl : ℕ := 64 / 4

/-- `reduction_size` -/
def reductionSize (ithr : ℕ) : ℕ := b.ithrNjobs ithr * b.jobSize

/-- `start, end` -/
def lines (ithr : ℕ) : ℕ × ℕ := balance211 (divUp (reductionSize b ithr) cl) b.nthrPerGroup (b.idInGroup ithr)

/-- `len` -/
def len (ithr : ℕ) : ℕ := min ((lines b ithr).2 * cl) (reductionSize b ithr) - (lines b ithr).1 * cl

/-- `reduce_nolock` -/
def reduceNolock {V : Type*} [Add V] [Zero V] (isa : IsaTraits) (ithr : ℕ) : List (Assign Elem V) :=
  if redundantReduction b ithr then []
  else
    let idInGrp := b.idInGroup ithr
    let start := (lines b ithr).1
    let end' := (lines b ithr).2
    if start = end' then []
    else
      let d := fun i => getLocalPtr b (ithr - idInGrp) (start * cl + i)
      let space := fun i => getLocalPtr b (ithr - idInGrp + 1) (start * cl + i)
      (drv b isa).ker (.reg ithr) d space 1 (len b ithr)

end CpuReducer

end MklDnn
