import Mathlib.Algebra.Group.Defs
import MklDnn.Gemm.Threading
import MklDnn.Lib.Interleaving

/-!
# Summation of the k slices

With a grid of several threads along `k`, `gemm_threading_driver` has the threads of the first k slice
write into `C` and the others into buffers of their own. Afterwards the threads of one slice of `C` add
the buffers, each thread in a band of the columns. The threads either do so inside of the parallel
section, where they wait for each other on the flags `compute_done`, or in a second parallel section.

A thread is a list of events. An addition is two events, the load of the element and the store of the
sum, so that two threads which add to the same element could lose an update.
-/

open Interleaving

namespace MklDnn

/-- The events of the threads, with matrix elements in `V`. -/
inductive KEvent (V : Type*) where
  | storeC (dst : ℕ) (v : V)
  | storeLocal (dst : ℕ) (v : V)
  | setDone (ithr : ℕ)
  | waitDone (ithr : ℕ)
  | load (dst : ℕ)
  | addStore (dst src : ℕ)

/-- The memory that the threads share, and the register of every thread. -/
structure KState (V : Type*) where
  c : ℕ → V
  cLocal : ℕ → V
  computeDone : ℕ → Bool
  reg : ℕ → V

/-- What the events do. Only waiting for a thread can block. -/
def kSystem (V : Type*) [Add V] : System (KEvent V) (KState V) where
  enabled _ e s :=
    match e with
    | .waitDone ithr => s.computeDone ithr = true
    | _ => True
  exec p e s :=
    match e with
    | .storeC dst v => { s with c := Function.update s.c dst v }
    | .storeLocal dst v => { s with cLocal := Function.update s.cLocal dst v }
    | .setDone ithr => { s with computeDone := Function.update s.computeDone ithr true }
    | .waitDone _ => s
    | .load dst => { s with reg := Function.update s.reg p (s.c dst) }
    | .addStore dst src => { s with c := Function.update s.c dst (s.reg p + s.cLocal src) }

/-! ## The setup of the driver -/

/-- `get_ld_padd` for elements of `sz` bytes. -/
def getLdPadd (sz x : ℕ) : ℕ := rndUp x (2048 / sz) + 64 / sz

/-- The fields of `gemm_per_thread_t` that do not change. -/
structure PerThread where
  thrKStride : ℕ
  nthrK : ℕ
  ldcLocal : ℕ
  ldcGlobal : ℕ
  cLocal : ℕ
  cGlobal : ℕ
  slice : GemmSlice

/-- The arguments of the driver that the summation depends on. The elements of `C`, of type `float` or
`int32_t`, have four bytes. -/
structure KSumArgs where
  threading : GemmThreading
  m : ℕ
  n : ℕ
  k : ℕ
  ldc : ℕ

namespace KSumArgs

variable (args : KSumArgs)

/-- `k_summing` -/
def kSumming : Bool := 1 < args.threading.nthrsK

def slice (ithr : ℕ) : GemmSlice := args.threading.getThreadSlice ithr args.m args.n args.k

def maxMt : ℕ := (List.range args.threading.nthrs).foldl (fun x ithr => max x (args.slice ithr).m) 0

def maxNt : ℕ := (List.range args.threading.nthrs).foldl (fun x ithr => max x (args.slice ithr).n) 0

def ldcLocal : ℕ := getLdPadd 4 args.maxMt

def cLocalStride : ℕ := args.ldcLocal * args.maxNt

/-- The entry of `thread_arg`. The buffers are addressed from the start of `c_local_storage`. -/
def threadArg (ithr : ℕ) : PerThread where
  thrKStride := args.threading.thrKStride
  nthrK := args.threading.nthrsK
  ldcLocal := args.ldcLocal
  ldcGlobal := args.ldc
  cLocal := ithr * args.cLocalStride
  cGlobal := (args.slice ithr).offM + (args.slice ithr).offN * args.ldc
  slice := args.slice ithr

variable {V : Type*}

/-- The multiplication of a thread leaves `result i j` in element `(i, j)` of its slice, in `C` for the
first k slice and in the buffer of the thread for the others. -/
def computeEvents (result : ℕ → ℕ → ℕ → V) (ithr : ℕ) : List (KEvent V) :=
  let arg := args.threadArg ithr
  (List.range arg.slice.n).flatMap fun j => (List.range arg.slice.m).map fun i =>
    if args.kSumming && arg.slice.ithrK > 0 then
      .storeLocal (arg.cLocal + (i + j * arg.ldcLocal)) (result ithr i j)
    else .storeC (arg.cGlobal + (i + j * arg.ldcGlobal)) (result ithr i j)

/-! ## `sum_k_blocks` -/

/-- `sum_matrices` -/
def sumMatrices (m n dst ldDst src ldSrc : ℕ) : List (KEvent V) :=
  (List.range n).flatMap fun j => (List.range m).flatMap fun i =>
    [.load (dst + (i + j * ldDst)), .addStore (dst + (i + j * ldDst)) (src + (i + j * ldSrc))]

/-- `get_thread_arg` in the sum of thread `ithr`: the index of the thread for k slice `thrK`. -/
def kThread (ithr thrK : ℕ) : ℕ :=
  let arg := args.threadArg ithr
  ithr + thrK * arg.thrKStride - arg.slice.ithrK * arg.thrKStride

/-- `add_thread_results` -/
def addThreadResults (ithr thrK : ℕ) : List (KEvent V) :=
  let arg := args.threadArg ithr
  let band := partition1d arg.slice.ithrK arg.nthrK arg.slice.n
  let tkArg := args.threadArg (args.kThread ithr thrK)
  sumMatrices arg.slice.m band.2 (tkArg.cGlobal + band.1 * tkArg.ldcGlobal) tkArg.ldcGlobal
    (tkArg.cLocal + band.1 * tkArg.ldcLocal) tkArg.ldcLocal

/-- `wait_thread` -/
def waitThread (wait : Bool) (ithr thrK : ℕ) : List (KEvent V) :=
  if wait then [.waitDone (args.kThread ithr thrK)] else []

/-- `sum_k_blocks` -/
def sumKBlocks (wait : Bool) (ithr : ℕ) : List (KEvent V) :=
  let arg := args.threadArg ithr
  let ithrK := arg.slice.ithrK
  -- first this thread's own results, then the others
  (if ithrK > 0 then args.waitThread wait ithr 0 ++ args.addThreadResults ithr ithrK else []) ++
    (List.range' 1 (arg.nthrK - 1)).flatMap fun thrK =>
      if thrK ≠ ithrK then args.waitThread wait ithr thrK ++ args.addThreadResults ithr thrK else []

end KSumArgs

/-! ## The parallel sections -/

/-- The logical threads `ithr, ithr + nthr, ..` below `n` of thread `ithr` in a team of `nthr`. -/
def logicalThreads (ithr nthr n : ℕ) : List ℕ := List.range' ithr (divUp (n - ithr) nthr) nthr

/-- The programs of a team of `nthr` threads that share the logical threads below `n`. -/
def teamProgs {E : Type*} (nthr n : ℕ) (body : ℕ → List E) (p : ℕ) : List E :=
  if p < nthr then (logicalThreads p nthr n).flatMap body else []

namespace KSumArgs

variable (args : KSumArgs) {V : Type*}

/-- Whether the results are summed inside of the parallel section. -/
def sumInside (thrSync : Bool) (nthr : ℕ) : Bool :=
  thrSync && args.kSumming && nthr ≥ args.threading.nthrs

/-- What a logical thread does in the parallel section. -/
def computeBody (thrSync : Bool) (nthr : ℕ) (result : ℕ → ℕ → ℕ → V) (ithr : ℕ) :
    List (KEvent V) :=
  args.computeEvents result ithr ++
    if args.sumInside thrSync nthr then .setDone ithr :: args.sumKBlocks true ithr else []

/-- The parallel section with a team of `nthr` threads. -/
def computeProgs (thrSync : Bool) (nthr : ℕ) (result : ℕ → ℕ → ℕ → V) : ℕ → List (KEvent V) :=
  teamProgs nthr args.threading.nthrs (args.computeBody thrSync nthr result)

/-- The second parallel section. -/
def sumProgs (nthr : ℕ) : ℕ → List (KEvent V) :=
  teamProgs nthr args.threading.nthrs (args.sumKBlocks false)

/-- An execution of the driver from the memory contents `c` and `cLocal`, with teams of `nthr` and
`nthr'` threads for the two sections: the events that happen and the state at the end. -/
inductive Exec [Add V] (thrSync : Bool) (nthr nthr' : ℕ) (result : ℕ → ℕ → ℕ → V)
    (c cLocal reg : ℕ → V) : List (ℕ × KEvent V) → KState V → Prop
  | inside {h : List (ℕ × KEvent V)} {c1 : Config (KEvent V) (KState V)}
      (hrun : Run (kSystem V) ⟨args.computeProgs thrSync nthr result, c, cLocal, fun _ => false, reg⟩
        h c1)
      (hcomplete : c1.Complete)
      (hdone : (args.kSumming && !c1.state.computeDone 0) = false) :
      Exec thrSync nthr nthr' result c cLocal reg h c1.state
  | later {h h' : List (ℕ × KEvent V)} {c1 c2 : Config (KEvent V) (KState V)}
      (hrun : Run (kSystem V) ⟨args.computeProgs thrSync nthr result, c, cLocal, fun _ => false, reg⟩
        h c1)
      (hcomplete : c1.Complete)
      (hdone : (args.kSumming && !c1.state.computeDone 0) = true)
      (hrun' : Run (kSystem V) ⟨args.sumProgs nthr', c1.state⟩ h' c2)
      (hcomplete' : c2.Complete) :
      Exec thrSync nthr nthr' result c cLocal reg (h ++ h') c2.state

end KSumArgs

end MklDnn
