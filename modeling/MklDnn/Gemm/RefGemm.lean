import Mathlib.Algebra.Ring.Defs
import MklDnn.Common.Threading
import MklDnn.Gemm.EntryPoints
import MklDnn.Gemm.ThreadOpts
import MklDnn.Lib.SteppedLoops

/-!
# Reference GEMM

`ref_gemm` for elements of type `float`, whose arithmetic is exact here. The threads divide `M`, `N` and `K`. The first part of
`K` is added to `C`, the others go to buffers, whose columns are added to `C` afterwards. The grid of the threads is computed
with `int`s that wrap around; where the size of an allocation is no `int`, there is no result.
-/

open Interleaving LoopNest

namespace MklDnn.RefGemm

open GemmUtils (NocopyThreads calcNthrNocopyAvx)

/-- An element of `C` or of `c_buffers`. -/
inductive Elem where
  | c (z : ℤ)
  | buffer (z : ℤ)
  deriving DecidableEq

/-- `unroll_factor<float>::m` -/
def unrollM : ℕ := 16

/-- `unroll_factor<float>::n` -/
def unrollN : ℕ := 6

/-- `gemm_traits<float, isTransA, isTransB>::BM` -/
def BM : ℕ := 4032

/-- `gemm_traits<float, isTransA, isTransB>::BN` -/
def BN (isTransA : Bool) : ℕ := if isTransA then 96 else 48

/-- `gemm_traits<float, isTransA, isTransB>::BK` -/
def BK (isTransB : Bool) : ℕ := if isTransB then 96 else 256

/-- The offset of the element in row `i` and column `j` of a matrix, which may be stored transposed. -/
def matOff (isTrans : Bool) (ld i j : ℤ) : ℤ := if isTrans then j + i * ld else i + j * ld

/-- `rnd_dn` -/
def rndDn (a b : ℕ) : ℕ := a / b * b

/-! ## The product of one thread -/

section Kernels

variable {R : Type*} [CommSemiring R] [DecidableEq R]

/-- `copy_A`: the panel `ws`. -/
def copyA (isTransA : Bool) (a : ℤ → R) (lda : ℤ) (z : ℤ) : R := a (matOff isTransA lda (z % unrollM) (z / unrollM))

/-- `kernel_mxn` -/
def kernelMxn (isTransA isTransB : Bool) (K : ℕ) (a : ℤ → R) (lda : ℤ) (b : ℤ → R) (ldb : ℤ) (c : ℤ → Elem) (ldc : ℤ)
    (alpha beta : R) : List (Assign Elem R) :=
  (List.range unrollN).flatMap fun (j : ℕ) => (List.range unrollM).map fun (i : ℕ) =>
    let sum := (List.range K).foldl
      (fun sum (k : ℕ) => sum + a (matOff isTransA lda i k) * b (matOff isTransB ldb k j)) 0
    if beta = 0 then Assign.set (c (i + j * ldc)) (alpha * sum)
    else ⟨c (i + j * ldc), fun mem => alpha * sum + beta * mem (c (i + j * ldc))⟩

/-- An element of the tails of `block_ker`. -/
def tailElem (isTransA isTransB : Bool) (K : ℕ) (a : ℤ → R) (lda : ℤ) (b : ℤ → R) (ldb : ℤ) (c : ℤ → Elem) (ldc : ℤ)
    (alpha beta : R) (i j : ℕ) : Assign Elem R :=
  ⟨c (i + j * ldc), fun mem => (List.range K).foldl
    (fun sum (p : ℕ) => sum + alpha * a (matOff isTransA lda i p) * b (matOff isTransB ldb p j))
    (if beta = 0 then 0 else beta * mem (c (i + j * ldc)))⟩

/-- `block_ker`. The panel that is copied for the first columns is used for the others, too. -/
def blockKer (isTransA isTransB : Bool) (M N K : ℕ) (a : ℤ → R) (lda : ℤ) (b : ℤ → R) (ldb : ℤ) (c : ℤ → Elem)
    (ldc : ℤ) (alpha beta : R) (doCopy : Bool) : List (Assign Elem R) :=
  let Nu := rndDn N unrollN
  let Mu := rndDn M unrollM
  ((starts (fun _ => unrollM) Mu Mu 0).flatMap fun (i : ℕ) => (starts (fun _ => unrollN) Nu Nu 0).flatMap fun (j : ℕ) =>
    let b := fun z => b ((if isTransB then (j : ℤ) else j * ldb) + z)
    let a := fun z => a ((if isTransA then i * lda else (i : ℤ)) + z)
    let c := fun z => c (i + j * ldc + z)
    if doCopy then kernelMxn false isTransB K (copyA isTransA a lda) unrollM b ldb c ldc alpha beta
    else kernelMxn isTransA isTransB K a lda b ldb c ldc alpha beta) ++
  ((List.range M).flatMap fun i => (List.range' Nu (N - Nu)).map fun j =>
    tailElem isTransA isTransB K a lda b ldb c ldc alpha beta i j) ++
  ((List.range' Mu (M - Mu)).flatMap fun i => (List.range Nu).map fun j =>
    tailElem isTransA isTransB K a lda b ldb c ldc alpha beta i j)

/-- `gemm_ithr` -/
def gemmIthr (isTransA isTransB : Bool) (M N K : ℕ) (alpha : R) (a : ℤ → R) (lda : ℤ) (b : ℤ → R) (ldb : ℤ) (beta : R)
    (c : ℤ → Elem) (ldc : ℤ) (doCopy : Bool) : List (Assign Elem R) :=
  if M = 0 ∨ N = 0 then []
  else if K = 0 ∨ alpha = 0 then
    let MN := N * M
    if beta = 0 then (List.range MN).map fun (j : ℕ) => Assign.set (c j) 0
    else if beta ≠ 1 then (List.range MN).map fun (j : ℕ) => ⟨c j, fun mem => mem (c j) * beta⟩
    else []
  else
    (starts (fun _ => BK isTransB) K K 0).flatMap fun (Bk : ℕ) => (starts (fun _ => BM) M M 0).flatMap fun (Bm : ℕ) =>
      (starts (fun _ => BN isTransA) N N 0).flatMap fun (Bn : ℕ) =>
        blockKer isTransA isTransB (min (M - Bm) BM) (min (N - Bn) (BN isTransA)) (min (K - Bk) (BK isTransB))
          (fun z => a ((if isTransA then Bk + Bm * lda else Bm + Bk * lda) + z)) lda
          (fun z => b ((if isTransB then Bn + Bk * ldb else Bk + Bn * ldb) + z)) ldb
          (fun z => c (Bm + Bn * ldc + z)) ldc alpha (if Bk = 0 then beta else 1) doCopy

end Kernels

/-! ## The grid of the threads -/

/-- The counts of the threads, and their blocks. -/
structure Grid where
  nthrM : ℕ
  nthrN : ℕ
  nthrK : ℕ
  MB : ℕ
  NB : ℕ
  KB : ℕ

namespace Grid

variable (t : Grid)

def nthrMn : ℕ := t.nthrM * t.nthrN

def ithrM (ithr : ℕ) : ℕ := ithr % t.nthrMn % t.nthrM

def ithrN (ithr : ℕ) : ℕ := ithr % t.nthrMn / t.nthrM

def ithrK (ithr : ℕ) : ℕ := ithr / t.nthrMn

def cbase (ithr : ℕ) : ℕ := (t.ithrM ithr + t.nthrM * t.ithrN ithr) * (t.nthrK - 1)

end Grid

/-- `get_thr_block`: the start of a block, and its size. -/
def getThrBlock (NB N ithr : ℕ) : ℕ × ℕ := (NB * ithr, min (NB * (ithr + 1)) N - NB * ithr)

/-- `partition_unit_diff`: the offset and the size of the part of a thread. -/
def partitionUnitDiff (ithr nthr n : ℕ) : ℕ × ℕ :=
  let band := if n / nthr = 0 then 1 else n / nthr
  let tail := n - band * nthr
  let part := if ithr < tail then ((band + 1) * ithr, band + 1) else (band * ithr + tail, band)
  let part := if part.1 ≥ n then (0, 0) else part
  if part.1 + part.2 > n then (part.1, n - part.1) else part

/-! ## The parallel loops -/

/-- The arguments. -/
structure Args (R : Type*) where
  isTransA : Bool
  isTransB : Bool
  M : ℕ
  N : ℕ
  K : ℕ
  alpha : R
  a : ℤ → R
  lda : ℤ
  b : ℤ → R
  ldb : ℤ
  beta : R
  ldc : ℤ
  bias : Option (ℕ → R)

section Phases

variable {R : Type*} [CommSemiring R] [DecidableEq R] (g : Args R) (t : Grid)

/-- What a thread does in the first loop. -/
def compute (doCopy : Bool) (ithr : ℕ) : List (Assign Elem R) :=
  let m := getThrBlock t.MB g.M (t.ithrM ithr)
  let n := getThrBlock t.NB g.N (t.ithrN ithr)
  let k := getThrBlock t.KB g.K (t.ithrK ithr)
  if 0 < m.2 ∧ 0 < n.2 then
    gemmIthr g.isTransA g.isTransB m.2 n.2 k.2 g.alpha
      (fun z => g.a ((if g.isTransA then k.1 + m.1 * g.lda else m.1 + k.1 * g.lda) + z)) g.lda
      (fun z => g.b ((if g.isTransB then n.1 + k.1 * g.ldb else k.1 + n.1 * g.ldb) + z)) g.ldb
      (if t.ithrK ithr = 0 then g.beta else 0)
      (fun z => if t.ithrK ithr = 0 then .c (m.1 + n.1 * g.ldc + z)
        else .buffer ((t.MB * t.NB * (t.cbase ithr + t.ithrK ithr - 1) : ℕ) + z))
      (if t.ithrK ithr = 0 then g.ldc else t.MB) doCopy
  else []

/-- What a thread does in the second loop: it adds a part of the columns of the buffers to `C`. -/
def sumBuffers (ithr : ℕ) : List (Assign Elem R) :=
  let m := getThrBlock t.MB g.M (t.ithrM ithr)
  let n := getThrBlock t.NB g.N (t.ithrN ithr)
  let part := partitionUnitDiff (t.ithrK ithr) t.nthrK n.2
  (List.range' 1 (t.nthrK - 1)).flatMap fun ik => (List.range part.2).flatMap fun (j : ℕ) =>
    (List.range m.2).map fun (i : ℕ) =>
    let dst := Elem.c (m.1 + (n.1 + part.1 : ℕ) * g.ldc + (i + j * g.ldc))
    let src := Elem.buffer ((t.MB * (t.NB * (t.cbase ithr + ik - 1) + part.1) : ℕ) + (i + j * t.MB : ℤ))
    ⟨dst, fun mem => mem dst + mem src⟩

/-- The loops behind the choice of the grid. -/
def phases (doCopy : Bool) : List (Phase Elem R) :=
  ⟨[t.nthrMn * t.nthrK], fun idx => compute g t doCopy (idx.getD 0 0)⟩ ::
    (if t.nthrK > 1 then [⟨[t.nthrMn * t.nthrK], fun idx => sumBuffers g t (idx.getD 0 0)⟩] else []) ++
    match g.bias with
    | none => []
    | some bias => [⟨[g.N, g.M], fun idx => [Assign.add (.c (idx.getD 0 0 * g.ldc + idx.getD 1 0)) (bias (idx.getD 1 0))]⟩]

end Phases

/-! ## `ref_gemm` -/

/-- What the product does not get from its arguments: `max_nthr`, and whether the allocations fail. The loops that choose the
grid get fuel. -/
structure Env where
  syncable : Bool
  maxNthr : ℤ
  cBuffersFail : Bool
  wsFail : Bool
  fuel : ℕ

/-- A status, an `int` that does not hold its value, or the loops that compute the product. -/
inductive Outcome (R : Type*) where
  | error (status : Status)
  | undefined
  | loops (phs : List (Phase Elem R))

/-- `c_buffers` has so many elements. -/
def cBuffersSize (t : NocopyThreads) : ℤ := t.nthrM * t.nthrN * (t.nthrK - 1) * t.MB * t.NB

/-- `do_copy` -/
def doCopy (t : NocopyThreads) : Bool := t.NB.tdiv unrollN > 3

/-- The sizes of the allocations are `int`s. -/
def SizesFit (K : ℤ) (t : NocopyThreads) : Prop :=
  (t.nthrK > 1 → wrapInt (cBuffersSize t) = cBuffersSize t) ∧ (doCopy t → wrapInt (K * unrollM) = K * unrollM)

instance (K : ℤ) (t : NocopyThreads) : Decidable (SizesFit K t) := inferInstanceAs (Decidable (_ ∧ _))

/-- The grid with which the loops run. Without `c_buffers` the threads do not divide `K`. -/
def gridOf (K : ℤ) (t : NocopyThreads) (cBuffersFail : Bool) : Grid where
  nthrM := t.nthrM.toNat
  nthrN := t.nthrN.toNat
  nthrK := if t.nthrK > 1 ∧ cBuffersFail then 1 else t.nthrK.toNat
  MB := t.MB.toNat
  NB := t.NB.toNat
  KB := if t.nthrK > 1 ∧ cBuffersFail then K.toNat else t.KB.toNat

/-- The sizes as `dim_t`s, and whether the operands are transposed. -/
def Args.init {R : Type*} (args : GemmApi.Args 32) (alpha : R) (a b : ℤ → R) (beta : R) (bias : Option (ℕ → R)) : Args R where
  isTransA := args.transa ∈ ['T', 't']
  isTransB := args.transb ∈ ['T', 't']
  M := args.sizes.M.toInt.toNat
  N := args.sizes.N.toInt.toNat
  K := args.sizes.K.toInt.toNat
  alpha := alpha
  a := a
  lda := args.sizes.lda.toInt
  b := b
  ldb := args.sizes.ldb.toInt
  beta := beta
  ldc := args.sizes.ldc.toInt
  bias := bias

/-- `ref_gemm` -/
def refGemm {R : Type*} [CommSemiring R] [DecidableEq R] (env : Env) (args : GemmApi.Args 32) (alpha : R) (a b : ℤ → R)
    (beta : R) (bias : Option (ℕ → R)) : Outcome R :=
  if ¬ (args.transa ∈ ['n', 'N', 't', 'T'] ∧ args.transb ∈ ['n', 'N', 't', 'T']) then .error .unimplemented
  else
    let s := args.sizes
    match calcNthrNocopyAvx env.syncable s.M.toInt s.N.toInt s.K.toInt env.maxNthr env.fuel with
    | none => .undefined
    | some t =>
      if SizesFit s.K.toInt t then
        .loops (phases (Args.init args alpha a b beta bias) (gridOf s.K.toInt t env.cBuffersFail) (doCopy t && !env.wsFail))
      else .undefined

end MklDnn.RefGemm
