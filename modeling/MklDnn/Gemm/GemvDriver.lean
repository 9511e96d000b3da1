import Mathlib.Algebra.Ring.Defs
import MklDnn.Common.Threading
import MklDnn.Gemm.EntryPoints
import MklDnn.Lib.SteppedLoops

/-!
# Products of a matrix and a vector

`gemv_driver.cpp` for elements of type `float`, whose arithmetic is exact here. `jump_to_gemv` makes a product of a transposed
matrix and a vector of the products with one row or one column, so that the branches of `gemv_kernel_driver` for a matrix
that is not transposed are never taken, and they are left out. `C` shares no elements with the operands. The kernel for SSE4.1
is generated code.
-/

open Interleaving LoopNest

namespace MklDnn.GemvDriver

/-! ## Arguments -/

/-- `no_trans`, `do_trans` and `packed` -/
inductive Trans where
  | noTrans | doTrans | packed
  deriving DecidableEq

/-- `decode_trans` -/
def decodeTrans (trans : Char) : Trans :=
  if trans ∈ ['T', 't'] then .doTrans else if trans ∈ ['P', 'p'] then .packed else .noTrans

/-- What `gemm_info_t` has of the arguments of a product, with the operands by offset and the address of `C`. -/
structure GemmInfo (R : Type*) where
  transa : Trans
  transb : Trans
  m : ℤ
  n : ℤ
  k : ℤ
  a : ℤ → R
  lda : ℤ
  b : ℤ → R
  ldb : ℤ
  alpha : R
  beta : R
  c : ℤ
  ldc : ℤ

/-- `gemm_info_t::gemm_info_t`, for operands that are not packed. -/
def GemmInfo.init {R : Type*} (args : GemmApi.Args 32) (alpha : R) (a b : ℤ → R) (beta : R) (c : ℤ) : GemmInfo R where
  transa := decodeTrans args.transa
  transb := decodeTrans args.transb
  m := args.sizes.M.toInt
  n := args.sizes.N.toInt
  k := args.sizes.K.toInt
  a := a
  lda := args.sizes.lda.toInt
  b := b
  ldb := args.sizes.ldb.toInt
  alpha := alpha
  beta := beta
  c := c
  ldc := args.sizes.ldc.toInt

/-- The generated code: the program for `m`, `n`, `alpha`, `a`, `lda`, `x`, `incy` and the address of `y`. -/
abbrev Kernel (R : Type*) := ℕ → ℕ → R → (ℤ → R) → ℤ → (ℤ → R) → ℤ → ℤ → List (Assign ℤ R)

/-- What the product does not get from its arguments. A call fails to allocate its vector, or it does not. -/
structure Env (R : Type*) where
  -- none without SSE4.1
  gemvKernel : Option (Kernel R)
  avx2 : Bool
  inParallel : Bool
  maxThreads : ℕ
  mallocFails : ℕ → Bool

/-! ## The product of one thread -/

section Driver

variable {R : Type*} [CommSemiring R] [DecidableEq R]

/-- The index of the first element of a vector that is traversed with increment `inc`. -/
def firstIndex (dim : ℕ) (inc : ℤ) : ℤ := if inc < 0 then (1 - dim) * inc else 0

/-- The sum `temp` over `m` elements of a vector and of a column. -/
def dot (m : ℕ) (x a : ℤ → R) : R := (List.range m).foldl (fun temp (j : ℕ) => temp + x j * a j) 0

/-- `gemv_t_kernel` -/
def gemvTKernel (kernel : Option (Kernel R)) (m n : ℕ) (alpha : R) (a : ℤ → R) (lda : ℤ) (x : ℤ → R) (incy y : ℤ) :
    List (Assign ℤ R) :=
  match kernel with
  | some kernel => kernel m n alpha a lda x incy y
  | none =>
    if incy = 1 then (List.range n).map fun (i : ℕ) => Assign.add (y + i) (dot m x (fun j => a (j + i * lda)) * alpha)
    else
      let idy := firstIndex n incy
      (List.range n).map fun (i : ℕ) => Assign.add (y + (idy + i * incy)) (dot m x (fun j => a (j + i * lda)) * alpha)

/-- The loops of `gemv_kernel_driver` that scale `y`. -/
def scaleY (n : ℕ) (beta : R) (y incy : ℤ) : List (Assign ℤ R) :=
  if beta ≠ 1 then
    if incy = 1 then
      if beta = 0 then (List.range n).map fun (i : ℕ) => Assign.set (y + i) 0
      else (List.range n).map fun (i : ℕ) => ⟨y + i, fun mem => mem (y + i) * beta⟩
    else
      let idxY := firstIndex n incy
      if beta = 0 then (List.range n).map fun (i : ℕ) => Assign.set (y + (idxY + i * incy)) 0
      else (List.range n).map fun (i : ℕ) => ⟨y + (idxY + i * incy), fun mem => mem (y + (idxY + i * incy)) * beta⟩
  else []

/-- `M_BLK` -/
def mBlk : ℕ := 512

/-- `gemv_kernel_driver` for a transposed matrix. -/
def gemvKernelDriver (kernel : Option (Kernel R)) (mallocFails : Bool) (m n : ℕ) (alpha : R) (a : ℤ → R) (lda : ℤ)
    (x : ℤ → R) (incx : ℤ) (beta : R) (y incy : ℤ) : List (Assign ℤ R) :=
  if m = 0 ∨ n = 0 ∨ (alpha = 0 ∧ beta = 1) then []
  else
    let idxX := firstIndex m incx
    let idxY := firstIndex n incy
    scaleY n beta y incy ++
      if alpha = 0 then []
      else if incx = 1 then gemvTKernel kernel m n alpha a lda x incy y
      else if mallocFails then
        (List.range n).map fun (j : ℕ) =>
          Assign.add (y + (idxY + j * incy))
            (dot m (fun i => x (idxX + i * incx)) (fun i => a (i + j * lda)) * alpha)
      else
        (starts (fun i => min (m - i) mBlk) m m 0).flatMap fun (i : ℕ) =>
          let xtmp := fun j => x (i * incx + (idxX + j * incx))
          gemvTKernel kernel (min (m - i) mBlk) n alpha (fun j => a (i + j)) lda xtmp incy y

end Driver

/-! ## Threads -/

/-- `thread_checker` -/
def threadChecker {R : Type*} (env : Env R) (m n : ℕ) : ℕ :=
  let nthr := if env.inParallel then 1 else env.maxThreads
  let bandt := n / nthr
  if env.avx2 ∧ m * n + 288 * n < 41700 then 1
  else if ¬ env.avx2 ∧ m < 128 ∧ n < 128 then 1
  else if m ≥ 20000 ∧ n ≤ 200 then nthr
  else if nthr ≤ 12 ∧ bandt < 32 then if m * bandt < 2048 then 1 else nthr
  else if nthr ≤ 12 ∧ m * bandt < 2 * 2048 then 1
  else if nthr > 12 ∧ bandt * m < 2 * 2048 then
    if bandt = 0 then 1 else min (max (n * m / (2 * 1536)) 1) nthr
  else nthr

/-- `decompose_vector`: the offset and the size of the band of a thread. -/
def decomposeVector (m nthr ithr : ℕ) : ℕ × ℕ :=
  let xthr := m % nthr
  let width := m / nthr
  if ithr < xthr then (ithr * (width + 1), width + 1) else (m - (nthr - ithr) * width, width)

section Threading

variable {R : Type*} [CommSemiring R] [DecidableEq R] (env : Env R)

/-- `gemv_threading_driver`: the parallel loop, or nothing where it returns at once. -/
def gemvThreadingDriver (m n : ℤ) (alpha : R) (a : ℤ → R) (lda : ℤ) (x : ℤ → R) (incx : ℤ) (beta : R) (y incy : ℤ) :
    List (Phase ℤ R) :=
  if m ≤ 0 ∨ n ≤ 0 then []
  else
    let m := m.toNat
    let n := n.toNat
    let nthr := threadChecker env m n
    if nthr = 1 then
      [⟨[1], fun _ => gemvKernelDriver env.gemvKernel (env.mallocFails 0) m n alpha a lda x incx beta y incy⟩]
    else
      [⟨[nthr], fun idx =>
        let ithr := idx.getD 0 0
        let disp := (decomposeVector n nthr ithr).1
        let band := (decomposeVector n nthr ithr).2
        let ydisp := disp * incy + if incy < 0 then (-n + band) * incy else 0
        gemvKernelDriver env.gemvKernel (env.mallocFails ithr) m band alpha (fun j => a (disp * lda + j)) lda x incx
          beta (y + ydisp) incy⟩]

/-- `jump_to_gemv`: the parallel loops, if it computes the product. -/
def jumpToGemv (arg : GemmInfo R) : Option (List (Phase ℤ R)) :=
  if arg.k = 0 then some []
  else if arg.n = 1 ∧ arg.transa = .doTrans then
    some (gemvThreadingDriver env arg.k arg.m arg.alpha arg.a arg.lda arg.b (if arg.transb = .noTrans then 1 else arg.ldb)
      arg.beta arg.c 1)
  else if arg.m = 1 ∧ arg.transb = .noTrans then
    some (gemvThreadingDriver env arg.k arg.n arg.alpha arg.b arg.ldb arg.a (if arg.transa = .noTrans then arg.lda else 1)
      arg.beta arg.c arg.ldc)
  else none

end Threading

end MklDnn.GemvDriver
