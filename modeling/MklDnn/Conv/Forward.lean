import Mathlib.Algebra.BigOperators.Group.Finset.Basic
import Mathlib.Algebra.Order.Ring.Defs
import MklDnn.Conv.Im2col
import MklDnn.Lib.SteppedLoops

/-!
# Convolution by GEMM, forward

`gemm_convolution_fwd_t::execute_forward`. Every thread runs through the blocks of its part of the output, unfolds
the image into its columns and multiplies them with the weights. `extended_sgemm` computes its specification, in
exact arithmetic.
-/

open LoopNest Interleaving

namespace MklDnn

/-- `extended_sgemm` with a factor of one: `C := op(A) * op(B) + beta * C`, for matrices stored column by column. -/
def extendedSgemm {A R : Type*} [CommSemiring R] (transa transb : Bool) (m n k : ℕ) (a : ℕ → R) (lda : ℕ) (b : ℕ → R)
    (ldb : ℕ) (beta : R) (c : ℕ → A) (ldc : ℕ) : List (Assign A R) :=
  (List.range n).flatMap fun j =>
    (List.range m).map fun i => ⟨c (i + j * ldc), fun mem =>
      (∑ p ∈ Finset.range k, a (if transa then p + i * lda else i + p * lda) *
        b (if transb then j + p * ldb else p + j * ldb)) + beta * mem (c (i + j * ldc))⟩

namespace GemmConvolutionFwd

open JitGemmConvolutionUtils

/-- `im_pos_t` -/
structure ImPos where
  n : ℕ
  g : ℕ
  od : ℕ
  sp : ℕ
  ic : ℕ
  oc : ℕ

/-- `im_pos_t::do_im2col`; the fields of a position are -1 before the first one, here `none`. -/
def ImPos.doIm2col (curr : ImPos) : Option ImPos → Bool
  | none => true
  | some prev =>
    curr.n ≠ prev.n ∨ curr.g ≠ prev.g ∨ curr.od ≠ prev.od ∨ curr.sp ≠ prev.sp ∨ curr.ic ≠ prev.ic

/-- `step`: the sizes of a block. -/
structure Step where
  oc : ℕ
  sp : ℕ
  ic : ℕ

/-- `ref_eltwise_scalar_fwd_t`: ReLU, or another function. -/
inductive Eltwise (R : Type*) where
  | relu (alpha : R)
  | other (computeScalar : R → R)

section

variable {R : Type*} [CommRing R] [LinearOrder R]

/-- `compute_scalar` -/
def Eltwise.computeScalar : Eltwise R → R → R
  | .relu alpha, s => if 0 < s then s else s * alpha
  | .other f, s => f s

/-- What `execute_forward` does to an element, with the fast branch for ReLU. -/
def Eltwise.apply : Eltwise R → R → R
  | .relu alpha, d => if d < 0 then d * alpha else d
  | .other f, d => f d

/-- The arguments and the attributes of the primitive. -/
structure Args (R : Type*) where
  src : ℕ → R
  weights : ℕ → R
  bias : ℕ → R
  beta : R
  eltwise : Option (Eltwise R)

/-- The element-wise operation, if there is one. -/
def Args.activation (args : Args R) (d : R) : R :=
  match args.eltwise with
  | some eltwise => eltwise.computeScalar d
  | none => d

/-- What a thread knows between two blocks, and its program so far. -/
structure State (R : Type*) where
  prev : Option ImPos
  step : Step
  col : ℤ → R
  prog : List (Assign ℕ R)

/-- The part of a thread. -/
structure Part where
  startSp : ℕ
  endSp : ℕ
  startOc : ℕ
  endOc : ℕ

variable (jcp : JitGemmConvConf) (args : Args R) (nthrIn : ℕ)

def srcStep : ℕ := jcp.ic * jcp.ih * jcp.iw * jcp.id

def weightsOcSize : ℕ := jcp.ic * jcp.ks

def weightsGSize : ℕ := weightsOcSize jcp * jcp.oc

def M : ℕ := jcp.os * jcp.od

def dstStep : ℕ := jcp.oc * M jcp

/-- `step` in `inner_ker` -/
def stepOf (part : Part) (spatial : ℕ) (curr : ImPos) : Step where
  oc := min jcp.ocBlock (min jcp.oc part.endOc - curr.oc)
  sp := min jcp.osBlock (min (jcp.os - curr.sp) (part.endSp - spatial))
  ic := min jcp.icBlock (min jcp.ic jcp.ic - curr.ic)

/-- `_src` -/
def srcOf (curr : ImPos) (i : ℕ) : R := args.src ((curr.n * jcp.ngroups + curr.g) * srcStep jcp + i)

/-- The columns after `im2col` or `im2col_3d`. -/
def im2colOf (curr : ImPos) (step : Step) (col : ℤ → R) : ℤ → R :=
  let im := fun i : ℤ => srcOf jcp args curr i.toNat
  if jcp.id = 1 then applyWrites (im2col jcp im curr.sp step.sp curr.ic step.ic nthrIn) col
  else applyWrites (im2col3d jcp im curr.od nthrIn) col

/-- `_source` -/
def source (curr : ImPos) (col : ℤ → R) (i : ℕ) : R :=
  if jcp.im2colSz ≠ 0 then col i else srcOf jcp args curr (curr.ic * M jcp + curr.od * jcp.os + curr.sp + i)

/-- `_dst` -/
def dstOf (curr : ImPos) (i : ℕ) : ℕ :=
  (curr.n * jcp.ngroups + curr.g) * dstStep jcp + curr.oc * M jcp + curr.od * jcp.os + curr.sp + i

/-- The product of a block. -/
def product (curr : ImPos) (step : Step) (col : ℤ → R) : List (Assign ℕ R) :=
  let m := step.sp
  let lda := if jcp.im2colSz ≠ 0 then m else M jcp
  let weights := fun i =>
    args.weights (curr.g * weightsGSize jcp + curr.oc * weightsOcSize jcp + curr.ic * jcp.ks + i)
  let beta := if curr.ic = 0 then args.beta else 1
  extendedSgemm false false m step.oc (step.ic * jcp.ks) (source jcp args curr col) lda weights (jcp.ic * jcp.ks) beta
    (dstOf jcp curr) (M jcp)

/-- The bias and the element-wise operation for a block. -/
def postOps (curr : ImPos) (step : Step) : List (Assign ℕ R) :=
  let ocStart := curr.g * jcp.oc + curr.oc
  match args.eltwise with
  | some eltwise =>
    (parallelNd nthrIn [step.oc]).flatMap fun
      | [oc] =>
        let b := if jcp.withBias then args.bias (ocStart + oc) else 0
        (List.range step.sp).flatMap fun oS =>
          let d := dstOf jcp curr (oc * M jcp + oS)
          [Assign.add d b, ⟨d, fun mem => eltwise.apply (mem d)⟩]
      | _ => []
  | none =>
    if jcp.withBias then
      (parallelNd nthrIn [step.oc]).flatMap fun
        | [oc] => (List.range step.sp).map fun oS =>
          Assign.add (dstOf jcp curr (oc * M jcp + oS)) (args.bias (ocStart + oc))
        | _ => []
    else []

/-- `inner_ker` -/
def innerKer (part : Part) (spatial : ℕ) (curr : ImPos) (s : State R) : State R :=
  let step := stepOf jcp part spatial curr
  let col := if jcp.im2colSz ≠ 0 ∧ curr.doIm2col s.prev then im2colOf jcp args nthrIn curr step s.col else s.col
  let post := if (curr.ic : ℤ) = jcp.ic - step.ic then postOps jcp args nthrIn curr step else []
  { prev := some curr, step, col, prog := s.prog ++ (product jcp args curr step col ++ post) }

/-- The part of thread `ithr`. -/
def partOf (nthr ithr : ℕ) : Part :=
  if jcp.id = 1 then
    let spWork := jcp.mb * jcp.ngroups * jcp.od * jcp.os
    let ranges := balance2D nthr ithr spWork jcp.oc jcp.nthrOc
    ⟨ranges.1.1, ranges.1.2, ranges.2.1, ranges.2.2⟩
  else
    let spWork := jcp.mb * jcp.ngroups * jcp.od
    let ranges := balance2D nthr ithr spWork jcp.oc jcp.nthrOc
    ⟨ranges.1.1 * jcp.os, ranges.1.2 * jcp.os, ranges.2.1, ranges.2.2⟩

/-- The position of a spatial index, by `nd_iterator_init`. -/
def posOf (spatial ic oc : ℕ) : ImPos :=
  match (ndIteratorInit spatial [jcp.mb, jcp.ngroups, jcp.od, jcp.os]).2 with
  | [n, g, od, sp] => ⟨n, g, od, sp, ic, oc⟩
  | _ => ⟨0, 0, 0, 0, ic, oc⟩

/-- The loop over `curr.oc`. -/
def ocLoop (fuel : ℕ) (part : Part) (spatial ic : ℕ) : State R → Option (State R) :=
  forSteps part.endOc (fun oc s => some (innerKer jcp args nthrIn part spatial (posOf jcp spatial ic oc) s))
    (fun s => s.step.oc) fuel part.startOc

/-- The loops of a thread. -/
def loops (fuel : ℕ) (part : Part) (s : State R) : Option (State R) :=
  match jcp.loopOrder with
  | .rlb =>
    forSteps jcp.ic (fun ic =>
        forSteps part.endSp (fun spatial => ocLoop jcp args nthrIn fuel part spatial ic) (fun s => s.step.sp) fuel
          part.startSp)
      (fun s => s.step.ic) fuel 0 s
  | .lrb =>
    forSteps part.endSp (fun spatial =>
        forSteps jcp.ic (fun ic => ocLoop jcp args nthrIn fuel part spatial ic) (fun s => s.step.ic) fuel 0)
      (fun s => s.step.sp) fuel part.startSp s

/-- What a thread starts from; for several planes the columns are set to zero. -/
def initState (col : ℤ → R) : State R where
  prev := none
  step := ⟨jcp.ocBlock, jcp.osBlock, jcp.icBlock⟩
  col := if jcp.im2colSz ≠ 0 ∧ jcp.id ≠ 1 then fun _ => 0 else col
  prog := []

/-- Enough iterations for every loop. -/
def fuel : ℕ := jcp.mb * jcp.ngroups * jcp.od * jcp.os + jcp.ic + jcp.oc

/-- The program of thread `ithr`, if its loops end; `scratch` is what its columns hold before. -/
def program (scratch : ℕ → ℤ → R) (nthr ithr : ℕ) : Option (List (Assign ℕ R)) :=
  if ithr < nthr then
    (loops jcp args nthrIn (fuel jcp) (partOf jcp nthr ithr) (initState jcp (scratch ithr))).map State.prog
  else some []

end

end GemmConvolutionFwd

end MklDnn
