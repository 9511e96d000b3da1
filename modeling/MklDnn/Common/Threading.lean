import Mathlib.Data.Finset.Card
import Mathlib.Data.List.Basic
import Mathlib.Logic.Function.Basic
import MklDnn.Common.Utils
import MklDnn.Lib.Assignments
import MklDnn.Lib.Box

/-!
# Parallel loops

`balance211`, `for_nd` and `parallel_nd`: how the iterations of a multidimensional loop are divided among
the threads of a team. The arguments of the loop body are the list of the loop counters.
-/

namespace MklDnn

/-- `balance211`: the range `n_start, n_end` of thread `tid`. -/
def balance211 (n team tid : ℕ) : ℕ × ℕ :=
  if team ≤ 1 ∨ n = 0 then (0, n)
  else
    -- `T1` threads get `n1` iterations, the others `n1 - 1`
    let n1 := divUp n team
    let n2 := n1 - 1
    let T1 := n - n2 * team
    let nMy := if tid < T1 then n1 else n2
    let nStart := if tid ≤ T1 then tid * n1 else T1 * n1 + (tid - T1) * n2
    (nStart, nMy + nStart)

/-- `balance211` for a signed number of iterations, with the division of the source. -/
def balance211Int (n : ℤ) (team tid : ℕ) : ℤ × ℤ :=
  if team ≤ 1 ∨ n = 0 then (0, n)
  else
    let n1 := (n + team - 1).tdiv team
    let n2 := n1 - 1
    let T1 := n - n2 * team
    let nMy := if (tid : ℤ) < T1 then n1 else n2
    let nStart := if (tid : ℤ) ≤ T1 then tid * n1 else T1 * n1 + (tid - T1) * n2
    (nStart, nMy + nStart)

/-- `utils::nd_iterator_init`: what is left of `start`, and the counters. -/
def ndIteratorInit (start : ℕ) : List ℕ → ℕ × List ℕ
  | [] => (start, [])
  | X :: Xs =>
    let init := ndIteratorInit start Xs
    (init.1 / X, init.1 % X :: init.2)

/-- `utils::nd_iterator_step`: whether the counters wrapped around, and the next counters. -/
def ndIteratorStep : List ℕ → List ℕ → Bool × List ℕ
  | x :: xs, X :: Xs =>
    let step := ndIteratorStep xs Xs
    if step.1 then ((x + 1) % X = 0, (x + 1) % X :: step.2) else (false, x :: step.2)
  | _, _ => (true, [])

/-- The loop of `for_nd` over `iwork`. -/
def forNdLoop (dims : List ℕ) : ℕ → List ℕ → List (List ℕ)
  | 0, _ => []
  | iwork + 1, xs => xs :: forNdLoop dims iwork (ndIteratorStep xs dims).2

/-- `for_nd`: the iterations of thread `ithr`, in the order in which the thread executes them. -/
def forNd (ithr nthr : ℕ) (dims : List ℕ) : List (List ℕ) :=
  match dims with
  | [D0] =>
    let range := balance211 D0 nthr ithr
    (List.range' range.1 (range.2 - range.1)).map fun d0 => [d0]
  | dims =>
    let workAmount := dims.prod
    if workAmount = 0 then []
    else
      let range := balance211 workAmount nthr ithr
      forNdLoop dims (range.2 - range.1) (ndIteratorInit range.1 dims).2

/-- The iterations of thread `ithr` in a `parallel_nd` for which `nthr` threads are available. -/
def parallelNdIters (nthr : ℕ) (dims : List ℕ) (ithr : ℕ) : List (List ℕ) :=
  let nthr := if dims.prod > 1 then nthr else 1
  if ithr < nthr then forNd ithr nthr dims else []

/-- `parallel_nd` with a team of `nthr` threads: the iterations of all threads, thread by thread. -/
def parallelNd (nthr : ℕ) (dims : List ℕ) : List (List ℕ) :=
  let doParallel := dims.prod > 1
  let nthr := if doParallel then nthr else 1
  (List.range nthr).flatMap fun ithr => forNd ithr nthr dims

/-- The place of a thread in `balance2D`: its group, its number in the group and the size of the group. -/
structure Place2D where
  grp : ℕ
  grpIthr : ℕ
  grpNthr : ℕ

/-- The place of thread `ithr` if `nthr` threads form `grpCount` groups. -/
def place2D (nthr ithr grpCount : ℕ) : Place2D :=
  let grpSizeBig := nthr / grpCount + 1
  let grpSizeSmall := nthr / grpCount
  let nGrpBig := nthr % grpCount
  let threadsInBigGroups := nGrpBig * grpSizeBig
  if ithr < threadsInBigGroups then ⟨ithr / grpSizeBig, ithr % grpSizeBig, grpSizeBig⟩
  else
    let ithrBoundDistance := ithr - threadsInBigGroups
    ⟨nGrpBig + ithrBoundDistance / grpSizeSmall, ithrBoundDistance % grpSizeSmall, grpSizeSmall⟩

/-- `balance2D`: the ranges `ny_start, ny_end` and `nx_start, nx_end` of thread `ithr`. -/
def balance2D (nthr ithr ny nx nxDivider : ℕ) : (ℕ × ℕ) × ℕ × ℕ :=
  let grpCount := min nxDivider nthr
  let place := place2D nthr ithr grpCount
  (balance211 ny place.grpNthr place.grpIthr, balance211 nx grpCount place.grp)

end MklDnn

/-!
## Loops that jump along the last counter

`utils::nd_iterator_jump`, and the loops that the drivers make of it: a pass handles what is left of the innermost loop.
-/

namespace MklDnn

/-- `utils::nd_iterator_jump`: whether the counters wrapped around, `cur` and the counters. The inner counters come first
to their end. -/
def ndIteratorJump (cur stop : ℕ) : List ℕ → List ℕ → Bool × ℕ × List ℕ
  | [x], [X] =>
    let maxJump := stop - cur
    let dimJump := X - x
    if dimJump ≤ maxJump then (true, cur + dimJump, [0]) else (false, cur + maxJump, [x + maxJump])
  | x :: xs, X :: Xs =>
    let jump := ndIteratorJump cur stop xs Xs
    if jump.1 then ((x + 1) % X = 0, jump.2.1, (x + 1) % X :: jump.2.2) else (false, jump.2.1, x :: jump.2.2)
  | _, _ => (true, cur, [])

/-- A loop `while (start < end)` that `nd_iterator_jump` advances: `start` and the counters of each pass. -/
def jumpLoop (dims : List ℕ) (stop : ℕ) : ℕ → ℕ → List ℕ → List (ℕ × List ℕ)
  | 0, _, _ => []
  | fuel + 1, cur, xs =>
    if cur < stop then
      let jump := ndIteratorJump cur stop xs dims
      (cur, xs) :: jumpLoop dims stop fuel jump.2.1 jump.2.2
    else []

/-- The passes of the loop on thread `ithr`. -/
def jumpPasses (dims : List ℕ) (nthr ithr : ℕ) : List (ℕ × List ℕ) :=
  let range := balance211 dims.prod nthr ithr
  jumpLoop dims range.2 (range.2 - range.1) range.1 (ndIteratorInit range.1 dims).2

end MklDnn

/-!
## Parallel loops, one after the other

A program that consists of `parallel_nd` loops. A loop begins when all threads are done with the one before it.
-/

open Interleaving

namespace MklDnn

variable {A V : Type*}

/-- The programs of the threads in a `parallel_nd`. -/
def parallelNdProgs (nthr : ℕ) (dims : List ℕ) (body : List ℕ → List (Assign A V)) (p : ℕ) : List (Assign A V) :=
  (parallelNdIters nthr dims p).flatMap body

/-- A `parallel_nd`: its extents, and the assignments of an iteration. Serial code is a loop of one iteration. -/
structure Phase (A V : Type*) where
  dims : List ℕ
  body : List ℕ → List (Assign A V)

/-- A team of any size executes the iterations in any order. -/
def Phase.Step [DecidableEq A] (ph : Phase A V) (m m' : A → V) : Prop :=
  ∃ nthr o, 0 < nthr ∧ IsOrder (parallelNdProgs nthr ph.dims ph.body) o ∧ m' = execAll (o.map Prod.snd) m

/-- The memory before and after the loops. -/
def Runs [DecidableEq A] : List (Phase A V) → (A → V) → (A → V) → Prop
  | [], m, m' => m' = m
  | ph :: phs, m, m' => ∃ m₁, ph.Step m m₁ ∧ Runs phs m₁ m'

end MklDnn

/-!
## The barrier

The code that `simple_barrier::generate` emits, as threads over the context of the barrier. A step of a thread is one access
to the context, with the work on the registers of the thread that follows it. A thread enters the barrier any number of
times; the state counts the rounds that it has left.
-/

namespace MklDnn.SimpleBarrier

/-- `ctx_t` -/
structure Ctx where
  ctr : UInt64
  sense : UInt64

/-- `ctx_init` -/
def ctxInit : Ctx := ⟨0, 0⟩

/-- The next access of a thread. The sense that the thread has read is on its stack or in `reg_tmp`. -/
inductive Pc where
  /-- The thread is not in the barrier. -/
  | outside
  /-- `mov(reg_tmp, ptr[reg_ctx + BAR_SENSE_OFF])` -/
  | readSense
  /-- `lock xadd(ptr[reg_ctx + BAR_CTR_OFF], reg_tmp)` -/
  | addCtr (saved : UInt64)
  /-- `mov(qword[reg_ctx + BAR_CTR_OFF], 0)` -/
  | resetCtr (saved : UInt64)
  /-- `mov(ptr[reg_ctx + BAR_SENSE_OFF], reg_tmp)` -/
  | flipSense (saved : UInt64)
  /-- `cmp(reg_tmp, ptr[reg_ctx + BAR_SENSE_OFF])` at `spin_label` -/
  | spin (saved : UInt64)
  deriving DecidableEq

structure Thread where
  pc : Pc
  /-- How many rounds the thread has left. -/
  left : ℕ

namespace Thread

/-- How many rounds the thread has entered. -/
def entered (t : Thread) : ℕ := if t.pc = .outside then t.left else t.left + 1

def goto (t : Thread) (pc : Pc) : Thread := { t with pc := pc }

/-- The jump to `barrier_exit_label`. -/
def exit (t : Thread) : Thread := ⟨.outside, t.left + 1⟩

end Thread

structure State where
  ctx : Ctx
  threads : ℕ → Thread

/-- The state after thread `p` has gone on as `t` and left `ctx`. -/
def State.set (s : State) (p : ℕ) (t : Thread) (ctx : Ctx) : State := ⟨ctx, Function.update s.threads p t⟩

/-- No thread has entered the barrier. -/
def init : State := ⟨ctxInit, fun _ => ⟨.outside, 0⟩⟩

/-- One step of thread `p`, of a barrier for `nthr` threads. -/
def step (nthr : UInt64) (s : State) (p : ℕ) : State :=
  let t := s.threads p
  match t.pc with
  | .outside => s.set p (if nthr ≤ 1 then t.exit else t.goto .readSense) s.ctx
  | .readSense => s.set p (t.goto (.addCtr s.ctx.sense)) s.ctx
  | .addCtr saved =>
    let tmp := s.ctx.ctr + 1
    s.set p (t.goto (if tmp ≠ nthr then .spin saved else .resetCtr saved)) { s.ctx with ctr := tmp }
  | .resetCtr saved => s.set p (t.goto (.flipSense saved)) { s.ctx with ctr := 0 }
  | .flipSense saved => s.set p t.exit { s.ctx with sense := ~~~saved }
  | .spin saved => s.set p (if saved = s.ctx.sense then t else t.exit) s.ctx

/-- The state after the threads have made steps in the order of `order`. -/
def run (nthr : UInt64) (order : List ℕ) : State := order.foldl (step nthr) init

end MklDnn.SimpleBarrier
