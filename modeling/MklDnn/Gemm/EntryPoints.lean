import MklDnn.Common.TypeHelpers

/-!
# Entry points of GEMM

`gemm.cpp`: the functions of the interface narrow the sizes to `int`, exchange the operands of the row-major product,
check the arguments and hand them to a driver. The pointers to the arguments are not null, since the entry points
take the addresses of their own variables.
-/

namespace MklDnn.GemmApi

open PrimitiveHashing (F32)

/-- What the library is built with, and what the processor has. -/
structure Config where
  useCblas : Bool
  useMklIgemm : Bool
  sse41 : Bool
  avx512Core : Bool

structure Sizes (w : ℕ) where
  M : BitVec w
  N : BitVec w
  K : BitVec w
  lda : BitVec w
  ldb : BitVec w
  ldc : BitVec w

/-- The arguments of a product, with the matrices by their addresses. Not every function uses all of them. -/
structure Args (w : ℕ) where
  transa : Char
  transb : Char
  offsetc : Option Char
  sizes : Sizes w
  alpha : F32
  A : ℕ
  ao : Option (BitVec 8)
  B : ℕ
  bo : Option (BitVec 8)
  beta : F32
  co : Option ℕ

/-! ## Checks -/

/-- `check_gemm_input` -/
def checkGemmInput (a : Args 32) (withBias : Bool) : Except Status Unit :=
  let s := a.sizes
  if withBias && !a.beta.isZero then .error .unimplemented
  else if ¬ (a.transa ∈ ['T', 't', 'N', 'n', 'P', 'p'] ∧ a.transb ∈ ['T', 't', 'N', 'n', 'P', 'p'] ∧
      s.M.toInt ≥ 0 ∧ s.N.toInt ≥ 0 ∧ s.K.toInt ≥ 0) then .error .invalidArguments
  else
    let isPackedA := a.transa ∈ ['P', 'p']
    let isPackedB := a.transb ∈ ['P', 'p']
    let nrowA := if a.transa ∈ ['T', 't'] then s.K.toInt else s.M.toInt
    let nrowB := if a.transb ∈ ['T', 't'] then s.N.toInt else s.K.toInt
    if ¬ ((isPackedA ∨ s.lda.toInt ≥ max 1 nrowA) ∧ (isPackedB ∨ s.ldb.toInt ≥ max 1 nrowB) ∧
        s.ldc.toInt ≥ max 1 s.M.toInt) then .error .invalidArguments
    else .ok ()

/-- `check_gemm_x8x8x32_input` -/
def checkGemmX8x8x32Input (a : Args 32) (withBias : Bool) : Except Status Unit :=
  match a.offsetc with
  | none => .error .invalidArguments
  | some offsetc =>
    if offsetc ∉ ['F', 'f', 'C', 'c', 'R', 'r'] then .error .invalidArguments
    else checkGemmInput a withBias

/-! ## Column-major functions -/

/-- The functions that compute products: those of CBLAS, `gemm_driver`, `simple_gemm_s8s8s32`, and the references. -/
inductive Inner where
  | cblas | driver | simple | ref
  deriving DecidableEq

/-- What a function does: it returns by itself, or it returns what a driver does. -/
inductive Outcome where
  | error (status : Status)
  | success
  | call (inner : Inner) (args : Args 32)

/-- `extended_sgemm` -/
def extendedSgemm (cfg : Config) (a : Args 32) (bias : Option ℕ) (forceJitNocopyGemm : Bool) : Outcome :=
  match checkGemmInput a bias.isSome with
  | .error status => .error status
  | .ok _ =>
    let a := { a with offsetc := bias.map fun _ => 'C', ao := none, bo := none, co := bias }
    if cfg.useCblas && !forceJitNocopyGemm && a.transa ∈ ['n', 'N', 't', 'T'] && a.transb ∈ ['n', 'N', 't', 'T'] then
      .call .cblas a
    else if cfg.sse41 then .call .driver a
    else .call .ref a

/-- Whether `try_cblas_gemm_s8u8s32` computes the product. -/
def tryCblasGemmS8u8s32 (cfg : Config) (a : Args 32) : Bool :=
  cfg.useMklIgemm && !(a.ao = some (-128 : BitVec 8) || a.bo.any fun bo => bo.toNat > 128)

/-- One of the sizes is zero. -/
def isEmpty (s : Sizes 32) : Bool := s.M = 0 || s.N = 0 || s.K = 0

/-- `gemm_s8x8s32` with unsigned `B` -/
def gemmS8u8s32 (cfg : Config) (a : Args 32) : Outcome :=
  match checkGemmX8x8x32Input a false with
  | .error status => .error status
  | .ok _ =>
    if isEmpty a.sizes then .success
    else if tryCblasGemmS8u8s32 cfg a then .call .cblas a
    else if cfg.avx512Core then .call .driver a
    else .call .ref a

/-- `gemm_s8x8s32` with signed `B` -/
def gemmS8s8s32 (cfg : Config) (a : Args 32) : Outcome :=
  match checkGemmX8x8x32Input a false with
  | .error status => .error status
  | .ok _ =>
    if isEmpty a.sizes then .success
    else
      let useJit := cfg.avx512Core && (a.sizes.M * a.sizes.N).toInt > 1
      let useS8u8 := a.ao = some 0 && a.bo = some 0 && (cfg.useMklIgemm || cfg.avx512Core)
      if useJit then .call .driver a
      else if useS8u8 then .call .simple a
      else .call .ref a

/-- `gemm_bf16bf16f32`, behind the narrowing of the sizes. -/
def gemmBf16bf16f32 (cfg : Config) (a : Args 32) : Outcome :=
  match checkGemmInput a false with
  | .error status => .error status
  | .ok _ =>
    if cfg.avx512Core then .call .driver { a with offsetc := none, ao := none, bo := none, co := none }
    else .error .unimplemented

/-! ## The interface -/

/-- `c2f_offsetC` -/
def c2fOffsetC : Option Char → Option Char
  | none => none
  | some c => if c ∈ ['R', 'r'] then some 'C' else if c ∈ ['C', 'c'] then some 'R' else some c

/-- The arguments with which the entry points call: the sizes as `int`s, and the operands exchanged. -/
def Args.colMajor (a : Args 64) : Args 32 where
  transa := a.transb
  transb := a.transa
  offsetc := c2fOffsetC a.offsetc
  sizes :=
    { M := a.sizes.N.setWidth 32, N := a.sizes.M.setWidth 32, K := a.sizes.K.setWidth 32,
      lda := a.sizes.ldb.setWidth 32, ldb := a.sizes.lda.setWidth 32, ldc := a.sizes.ldc.setWidth 32 }
  alpha := a.alpha
  A := a.B
  ao := a.bo
  B := a.A
  bo := a.ao
  beta := a.beta
  co := a.co

/-- The functions of the interface. -/
inductive Entry where
  | sgemm | gemmU8s8s32 | gemmS8s8s32 | gemmBf16bf16f32

/-- `dnnl_sgemm`, `dnnl_gemm_u8s8s32`, `dnnl_gemm_s8s8s32` and `dnnl_gemm_bf16bf16f32` -/
def Entry.outcome (cfg : Config) (a : Args 64) : Entry → Outcome
  | .sgemm => extendedSgemm cfg a.colMajor none false
  | .gemmU8s8s32 => gemmS8u8s32 cfg a.colMajor
  | .gemmS8s8s32 => GemmApi.gemmS8s8s32 cfg a.colMajor
  | .gemmBf16bf16f32 => GemmApi.gemmBf16bf16f32 cfg a.colMajor

/-- The matrix `C`, by its words of 32 bits. -/
abbrev Matrix := ℕ → BitVec 32

/-- What the drivers return, and what they leave in `C`. -/
abbrev Drivers := Inner → Args 32 → Matrix → Except Status Unit × Matrix

def Outcome.run (drivers : Drivers) (C : Matrix) : Outcome → Except Status Unit × Matrix
  | .error status => (.error status, C)
  | .success => (.ok (), C)
  | .call inner args => drivers inner args C

/-- The sizes of the column-major product are those of the row-major one. -/
structure Sizes.Matches (d : Sizes 32) (s : Sizes 64) : Prop where
  M : d.M.toInt = s.N.toInt
  N : d.N.toInt = s.M.toInt
  K : d.K.toInt = s.K.toInt
  lda : d.lda.toInt = s.ldb.toInt
  ldb : d.ldb.toInt = s.lda.toInt
  ldc : d.ldc.toInt = s.ldc.toInt

/-- The product has no element, or no term. -/
def Sizes.Empty (s : Sizes 64) : Prop := s.M = 0 ∨ s.N = 0 ∨ s.K = 0

/-- On success the product is the one of the sizes of the caller: a driver has got these, or there is nothing to compute.
On an error `C` is what it was, unless a driver has failed on these sizes. -/
def Outcome.Meets (drivers : Drivers) (C : Matrix) (s : Sizes 64) (o : Outcome) : Prop :=
  match o.run drivers C with
  | (.ok _, C') => (∃ inner args, o = .call inner args ∧ args.sizes.Matches s) ∨ s.Empty ∧ C' = C
  | (.error _, C') => C' = C ∨ ∃ inner args, o = .call inner args ∧ args.sizes.Matches s

end MklDnn.GemmApi
