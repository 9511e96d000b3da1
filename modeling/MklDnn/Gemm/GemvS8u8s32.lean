import Mathlib.Data.BitVec
import MklDnn.Lib.Assignments
import MklDnn.Lib.SteppedLoops

/-!
# Products of a matrix of bytes and a vector

The `gemv_threading_driver` of `jit_avx512_core_gemv_s8u8s32.cpp`: the matrix is divided into bands of rows and of
columns. The threads of the first band of columns write to `C`, or to a copy of it if its elements are not adjacent, and
the other threads to temporary vectors, which are added to `C` afterwards. The kernel is generated code.
-/

open Interleaving

namespace MklDnn.GemvS8u8s32

/-! ## The grid of the threads -/

/-- The multiple of `u` that a block is enlarged to. -/
def roundUp (u x : ℕ) : ℕ := if x / u * u = x then x else x / u * u + u

/-- The number of blocks of `b` elements. -/
def parts (n b : ℕ) : ℕ := if n / b * b = n then n / b else n / b + 1

/-- The numbers of threads, and the sizes of their blocks. -/
structure Grid where
  nthrM : ℕ
  nthrN : ℕ
  MB : ℕ
  NB : ℕ

def um : ℕ := 16

def un : ℕ := 64

def blockM : ℕ := 192

def blockN : ℕ := 3072

/-- The number of threads that the rows are divided by for the size of a block. -/
def firstNthrM (m nthr : ℕ) : ℕ := min (max (m / blockM) 1) nthr

/-- The loop that raises `nthr_n` has an iteration. -/
def raises (n nthr nthrM nthrN : ℕ) : Bool := nthrM * (nthrN + 1) ≤ nthr ∧ n / (nthrN + 1) ≥ blockN

/-- The grid for an `m x n` matrix and a number of threads, which `nthr_n` stays below. -/
def grid (m n nthr : ℕ) : Option Grid := do
  let MB := roundUp um (m / firstNthrM m nthr)
  let nthrM := min (max (parts m MB) 1) nthr
  let nthrN ← WhileLoops.loop (raises n nthr nthrM) (fun nthrN => some (nthrN + 1)) (nthr + 1) 1
  let NB := roundUp un (n / nthrN)
  some ⟨nthrM, min (max (parts n NB) 1) (nthr / nthrM), MB, NB⟩

/-- `m_from, m_to` and `n_from, n_to`: the part of a thread, where the last thread gets what is left. -/
def band (b nthr n id : ℕ) : ℕ × ℕ := (b * id, if b * (id + 1) > n ∨ id = nthr - 1 then n else b * (id + 1))

/-- `PADD_BYTESIZE_ONPAGE` for elements of four bytes. -/
def paddBytesizeOnpage (x : ℕ) : ℕ := (x * 4 + 4096 - 1) / 4096 * 4096

/-- `NEXT_THR_STRIDE` for elements of four bytes. -/
def nextThrStride (x : ℕ) : ℕ := paddBytesizeOnpage x / 4

/-! ## The programs of the threads -/

/-- An element of `C`, of its copy, or of the temporary vectors. -/
inductive Elem where
  | c (i : ℕ)
  | newY (i : ℕ)
  | tmpY (i : ℕ)
  deriving DecidableEq

/-- The arguments of `gemv_threading_driver`. Whether `beta` is 1 or 0. -/
structure Args where
  m : ℕ
  n : ℕ
  a : ℕ → BitVec 8
  lda : ℕ
  b : ℕ → BitVec 8
  ldb : ℕ
  beta : Bool
  ldc : ℕ
  swap : Bool

/-- The product of two bytes: the one of the matrix is signed unless the operands are exchanged. -/
def mulBytes (swap : Bool) (a x : BitVec 8) : BitVec 32 :=
  if swap then BitVec.ofInt 32 (a.toNat * x.toInt) else BitVec.ofInt 32 (a.toInt * x.toNat)

/-- The generated code: the program for `m`, `n`, the matrix, the vector, `beta` and the places of the result. -/
abbrev Kernel := Bool → ℕ → ℕ → (ℕ → ℕ → BitVec 8) → (ℕ → BitVec 8) → Bool → (ℕ → Elem) →
  List (Assign Elem (BitVec 32))

section Threads

variable (g : Args) (G : Grid) (kern : Kernel)

/-- `new_x` -/
def newX (j : ℕ) : BitVec 8 := g.b (j * g.ldb)

/-- `m_id` -/
def mId (ithr : ℕ) : ℕ := ithr / G.nthrN

/-- `n_id` -/
def nId (ithr : ℕ) : ℕ := ithr % G.nthrN

def rows (ithr : ℕ) : ℕ × ℕ := band G.MB G.nthrM g.m (mId G ithr)

def cols (ithr : ℕ) : ℕ × ℕ := band G.NB G.nthrN g.n (nId G ithr)

/-- `myM` -/
def myM (ithr : ℕ) : ℕ := (rows g G ithr).2 - (rows g G ithr).1

/-- `myN` -/
def myN (ithr : ℕ) : ℕ := (cols g G ithr).2 - (cols g G ithr).1

/-- `loc_y` -/
def locY (ithr i : ℕ) : Elem :=
  if nId G ithr ≠ 0 then .tmpY (nextThrStride g.m * (nId G ithr - 1) + (rows g G ithr).1 + i)
  else if g.ldc = 1 then .c ((rows g G ithr).1 + i)
  else .newY (mId G ithr * paddBytesizeOnpage G.MB / 4 + i)

/-- The place in `C` of a row of a thread. -/
def place (ithr i : ℕ) : Elem := .c (((rows g G ithr).1 + i) * g.ldc)

/-- The block of `C` is copied. -/
def copyIn (ithr : ℕ) : List (Assign Elem (BitVec 32)) :=
  if nId G ithr = 0 ∧ g.ldc ≠ 1 ∧ g.beta then
    (List.range (myM g G ithr)).map fun j => ⟨locY g G ithr j, fun mem => mem (place g G ithr j)⟩
  else []

/-- The block of `C` is copied back. -/
def copyOut (ithr : ℕ) : List (Assign Elem (BitVec 32)) :=
  if nId G ithr = 0 ∧ g.ldc ≠ 1 then
    (List.range (myM g G ithr)).map fun j => ⟨place g G ithr j, fun mem => mem (locY g G ithr j)⟩
  else []

/-- The call of `gemv_kernel_driver`. -/
def callKernel (ithr : ℕ) : List (Assign Elem (BitVec 32)) :=
  kern g.swap (myM g G ithr) (myN g G ithr)
    (fun i j => g.a ((rows g G ithr).1 * g.lda + (cols g G ithr).1 + i * g.lda + j))
    (fun j => newX g ((cols g G ithr).1 + j)) (if nId G ithr ≠ 0 then false else g.beta) (locY g G ithr)

/-- What a thread does in the first parallel section. -/
def compute (ithr : ℕ) : List (Assign Elem (BitVec 32)) :=
  copyIn g G ithr ++ callKernel g G kern ithr ++ copyOut g G ithr

/-- What a thread does in the second parallel section: the temporary vectors are added to its rows. -/
def sum (ithr : ℕ) : List (Assign Elem (BitVec 32)) :=
  let jFrom := G.MB * ithr
  let jTo := if G.MB * (ithr + 1) > g.m ∨ ithr = G.nthrM * G.nthrN - 1 then g.m else G.MB * (ithr + 1)
  (List.range (jTo - jFrom)).map fun j =>
    ⟨.c ((jFrom + j) * g.ldc), fun mem => mem (.c ((jFrom + j) * g.ldc)) +
      ((List.range (G.nthrN - 1)).map fun ii => mem (.tmpY (ii * paddBytesizeOnpage g.m / 4 + (jFrom + j)))).sum⟩

/-- The programs of the threads of a parallel section. -/
def team (n : ℕ) (prog : ℕ → List (Assign Elem (BitVec 32))) (ithr : ℕ) : List (Assign Elem (BitVec 32)) :=
  if ithr < n then prog ithr else []

/-- The parallel sections. A team of one thread has one band, and there is nothing to add then. -/
def phases : List (ℕ → List (Assign Elem (BitVec 32))) :=
  if G.nthrN > 1 then [team (G.nthrM * G.nthrN) (compute g G kern), team G.nthrM (sum g G)]
  else [team (G.nthrM * G.nthrN) (compute g G kern)]

end Threads

/-- Which of the three allocations fail. -/
structure Failures where
  newX : Bool
  newY : Bool
  tmpY : Bool

/-- `gemv_threading_driver`: the parallel sections, or nothing where it returns 0. -/
def gemvThreadingDriver (g : Args) (kern : Kernel) (failures : Failures) (nthr : ℕ) :
    Option (List (ℕ → List (Assign Elem (BitVec 32)))) := do
  let G ← grid g.m g.n nthr
  if g.ldb ≠ 1 ∧ failures.newX then none
  else if g.ldc ≠ 1 ∧ failures.newY then none
  else if G.nthrM * G.nthrN ≠ 1 ∧ G.nthrN > 1 ∧ failures.tmpY then none
  else some (phases g G kern)

end MklDnn.GemvS8u8s32
