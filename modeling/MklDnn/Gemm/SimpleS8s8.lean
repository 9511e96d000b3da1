import Mathlib.Data.BitVec
import MklDnn.Common.PrimitiveAttr
import MklDnn.Lib.Assignments

/-!
# The product of signed bytes

`simple_gemm_s8s8s32`: `B` is shifted to unsigned bytes, which are multiplied by the GEMM for them, and the offsets of
that product compensate for the shift. What the arithmetic of an `int32_t` yields is taken modulo `2 ^ 32`. There is no
result if an index is outside of a matrix or if a divisor is zero.
-/

open LoopNest Interleaving

namespace MklDnn.SimpleGemm

open PrimitiveHashing (F32)

/-- The arguments of a product. The sizes are those of an `int`. -/
structure Args where
  transA : Char
  transB : Char
  offsetC : Char
  m : ℕ
  n : ℕ
  k : ℕ
  alpha : F32
  a : ℕ → BitVec 8
  lda : ℕ
  oa : BitVec 8
  b : ℕ → BitVec 8
  ldb : ℕ
  ob : BitVec 8
  beta : F32
  c : ℕ → BitVec 32
  ldc : ℕ
  oc : ℕ → BitVec 32

namespace Args

def transa (g : Args) : Bool := g.transA ∈ ['T', 't']

def transb (g : Args) : Bool := g.transB ∈ ['T', 't']

def rowOffset (g : Args) : Bool := g.offsetC ∈ ['R', 'r']

def colOffset (g : Args) : Bool := g.offsetC ∈ ['C', 'c']

def fixOffset (g : Args) : Bool := g.offsetC ∈ ['F', 'f']

/-- `b_rows` -/
def bRows (g : Args) : ℕ := if g.transb then g.n else g.k

/-- `b_cols` -/
def bCols (g : Args) : ℕ := if g.transb then g.k else g.n

end Args

/-- What the function finds: the size of the cache, the order of the atomic additions of a parallel section, which
allocations fail, what allocated memory holds, the scaling in double precision, and the GEMM for unsigned bytes, with
the status and the matrix that it leaves if it fails. -/
structure Env where
  l2CacheSize : ℕ
  order : List (ℕ × BitVec 32) → List (ℕ × BitVec 32)
  order_perm : ∀ l, (order l).Perm l
  bU8Null : Bool
  compensationNull : Bool
  freshBytes : ℕ → BitVec 8
  freshInts : ℕ → BitVec 32
  scale : F32 → BitVec 32 → BitVec 32
  gemm : Args → ℕ → BitVec 32
  gemmFailure : Option (Status × (ℕ → BitVec 32))

/-- `gemm_s8x8s32` for unsigned bytes. -/
def Env.gemmS8x8s32 (env : Env) (g : Args) : Except Status Unit × (ℕ → BitVec 32) :=
  match env.gemmFailure with
  | some (status, c) => (.error status, c)
  | none => (.ok (), env.gemm g)

/-! ## The compensation -/

/-- `compensation_init` -/
def compensationInit (g : Args) (compensation : ℕ → BitVec 32) (i : ℕ) : BitVec 32 :=
  if i < g.m then
    if g.fixOffset ∧ g.oc 0 ≠ 0 then g.oc 0
    else if g.colOffset then g.oc i
    else 0
  else compensation i

/-- What a sum of elements of `A` adds to the compensation. -/
def compensationTerm (env : Env) (g : Args) (val : BitVec 32) : BitVec 32 :=
  if g.alpha != F32.one then env.scale g.alpha val else val * -128

/-- The sum of the elements of `A` at some addresses. -/
def sumA (g : Args) (addresses : List ℕ) : BitVec 32 :=
  addresses.foldl (fun val x => val + (g.a x).signExtend 32) 0

/-- The additions of `compensation_compute`. -/
def compensationCompute (env : Env) (g : Args) : Option (List (ℕ × BitVec 32)) :=
  if ¬ g.transa then
    let blockingFactor := min g.k (env.l2CacheSize / g.lda + 1)
    if g.lda = 0 ∨ blockingFactor = 0 then none
    else
      let npanels := g.k / blockingFactor
      let hasTile : Bool := g.k % blockingFactor > 0
      let panels := (List.range npanels).flatMap fun j => (List.range g.m).map fun i =>
        (i, compensationTerm env g (sumA g ((List.range blockingFactor).map fun jb =>
          i + j * blockingFactor * g.lda + jb * g.lda)))
      let tile := (List.range g.m).map fun i => (i, compensationTerm env g (sumA g
        ((List.range' (npanels * blockingFactor) (g.k - npanels * blockingFactor)).map fun j => i + j * g.lda)))
      some (if hasTile then panels ++ tile else panels)
  else
    some ((List.range g.m).map fun i =>
      (i, compensationTerm env g (sumA g ((List.range g.k).map fun j => j + i * g.lda))))

/-- The compensation after the additions. -/
def compensation (env : Env) (g : Args) (adds : List (ℕ × BitVec 32)) : ℕ → BitVec 32 :=
  execAll ((env.order adds).map fun w => Assign.add w.1 w.2) (compensationInit g env.freshInts)

/-! ## The shift -/

/-- The product of two `int`s, as an offset to a pointer. -/
def intProduct (j ld : ℕ) : ℤ := Int.bmod (j * ld) (2 ^ 32)

/-- The indices of the bytes that `copy_and_shift_b` copies, in `b_u8` and in `b_s8`. -/
def copies (g : Args) : List (ℤ × ℤ) :=
  (List.range g.bCols).flatMap fun j => (List.range g.bRows).map fun (i : ℕ) =>
    (intProduct j g.bRows + i, intProduct j g.ldb + i)

/-- The bytes are inside of the buffer, and inside of the matrix. -/
def InsideB (g : Args) (s : ℤ × ℤ) : Prop :=
  (0 ≤ s.1 ∧ s.1 < (g.k * g.n : ℕ)) ∧ 0 ≤ s.2 ∧ s.2 < ((g.bCols - 1) * g.ldb + g.bRows : ℕ)

instance (g : Args) (s : ℤ × ℤ) : Decidable (InsideB g s) := inferInstanceAs (Decidable (_ ∧ _))

/-- `copy_and_shift_b` -/
def copyAndShiftB (g : Args) (bU8 : ℕ → BitVec 8) : Option (ℕ → BitVec 8) :=
  if ∀ s ∈ copies g, InsideB g s then
    some (applyWrites ((copies g).map fun s => (s.1.toNat, BitVec.ofInt 8 ((g.b s.2.toNat).toInt + 128))) bU8)
  else none

/-! ## The product -/

/-- The arguments of the product with the unsigned bytes. -/
def shifted (g : Args) (bU8 : ℕ → BitVec 8) (compensation : ℕ → BitVec 32) : Args :=
  { g with offsetC := 'C', b := bU8, ldb := g.bRows, ob := 0, oc := compensation }

/-- The additions of a row of offsets. -/
def rowAdds (g : Args) : List (ℕ × BitVec 32) :=
  (List.range g.m).flatMap fun i => (List.range g.n).map fun j => (i + j * g.ldc, g.oc j)

/-- `simple_gemm_s8s8s32` -/
def simpleGemmS8s8s32 (env : Env) (g : Args) : Option (Except Status Unit × (ℕ → BitVec 32)) :=
  if g.oa ≠ 0 ∨ g.ob ≠ 0 then some (.error .unimplemented, g.c)
  else if env.bU8Null ∨ env.compensationNull then some (.error .outOfMemory, g.c)
  else do
    let adds ← compensationCompute env g
    let bU8 ← copyAndShiftB g env.freshBytes
    -- the status of the call is not looked at
    let c := (env.gemmS8x8s32 (shifted g bU8 (compensation env g adds))).2
    some (.ok (), if g.rowOffset then execAll ((rowAdds g).map fun w => Assign.add w.1 w.2) c else c)

/-! ## The purpose -/

/-- An element of `op(A)` -/
def Args.opA (g : Args) (i l : ℕ) : BitVec 8 := if g.transa then g.a (l + i * g.lda) else g.a (i + l * g.lda)

/-- An element of `op(B)` -/
def Args.opB (g : Args) (l j : ℕ) : BitVec 8 := if g.transb then g.b (j + l * g.ldb) else g.b (l + j * g.ldb)

/-- An element of the matrix of offsets. -/
def Args.offset (g : Args) (i j : ℕ) : BitVec 32 :=
  if g.rowOffset then g.oc j else if g.colOffset then g.oc i else g.oc 0

/-- The bytes of `B` as numbers. -/
abbrev Bytes := BitVec 8 → ℤ

def s8 : Bytes := BitVec.toInt

def u8 : Bytes := fun x => x.toNat

/-- An element of the result, for `alpha = 1`, and `beta` that is 0 or 1. -/
def Args.result (g : Args) (bytes : Bytes) (i j : ℕ) : BitVec 32 :=
  (∑ l ∈ Finset.range g.k, BitVec.ofInt 32 ((g.opA i l).toInt * bytes (g.opB l j))) +
    (if g.beta == F32.zero then 0 else g.c (i + j * g.ldc)) + g.offset i j

/-- The matrix is the result, and what is not in the matrix is unchanged. -/
structure Args.IsResult (g : Args) (bytes : Bytes) (c : ℕ → BitVec 32) : Prop where
  value : ∀ i < g.m, ∀ j < g.n, c (i + j * g.ldc) = g.result bytes i j
  frame : ∀ x, (∀ i < g.m, ∀ j < g.n, x ≠ i + j * g.ldc) → c x = g.c x

/-- The arguments that the checks let through, of a product that is not empty, with `alpha = 1`, and `beta` that is 0
or 1. -/
structure Args.Accepted (g : Args) : Prop where
  transA : g.transA ∈ ['N', 'n', 'T', 't']
  transB : g.transB ∈ ['N', 'n', 'T', 't']
  offsetC : g.offsetC ∈ ['F', 'f', 'C', 'c', 'R', 'r']
  m_pos : 0 < g.m
  n_pos : 0 < g.n
  k_pos : 0 < g.k
  lda : (if g.transa then g.k else g.m) ≤ g.lda
  ldb : g.bRows ≤ g.ldb
  ldb_lt : g.ldb < 2 ^ 31
  ldc : g.m ≤ g.ldc
  alpha : (g.alpha == F32.one) = true
  beta : (g.beta == F32.zero) = true ∨ (g.beta == F32.one) = true

/-- What the GEMM for unsigned bytes does where it succeeds. -/
def Env.Multiplies (env : Env) : Prop := ∀ g : Args, g.Accepted → g.IsResult u8 (env.gemm g)

/-- The function returns, with success only if the matrix is the result and nothing has failed. -/
def Meets (env : Env) (g : Args) : Prop :=
  ∃ status c, simpleGemmS8s8s32 env g = some (status, c) ∧ (status = .ok () → g.IsResult s8 c) ∧
    (env.bU8Null ∨ env.compensationNull ∨ env.gemmFailure.isSome → status ≠ .ok ())

end MklDnn.SimpleGemm
