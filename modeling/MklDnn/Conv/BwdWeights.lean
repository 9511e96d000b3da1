import MklDnn.Conv.Forward
import MklDnn.Conv.Im2col

/-!
# Weights of a convolution by GEMM, backward

`gemm_convolution_bwd_weights_t::execute_backward_weights`: how the groups and the images are divided among
the threads, and how the partial results of the threads are reduced. The product of the columns of an image
with `diff_dst` is a parameter.
-/

open Interleaving

namespace MklDnn

namespace JitGemmConvolutionUtils

/-- The place of a thread in the team. -/
structure BwdWeightsBalance where
  ithrG : ℤ
  nthrG : ℕ
  ithrMb : ℤ
  nthrMb : ℕ

/-- `bwd_weights_balance` -/
def bwdWeightsBalance (ithr nthr ngroups mb : ℕ) : BwdWeightsBalance :=
  let nthrG := min ngroups nthr
  let nthrMb := min mb (nthr / nthrG)
  if ngroups ≤ ithr / nthrMb then ⟨-1, nthrG, -1, nthrMb⟩
  else ⟨(ithr / nthrMb : ℕ), nthrG, (ithr % nthrMb : ℕ), nthrMb⟩

end JitGemmConvolutionUtils

namespace GemmConvolutionBwdWeights

open JitGemmConvolutionUtils

/-- An element of `diff_weights` or of `wei_reduction`. -/
inductive Elem where
  | diffWeights (i : ℕ)
  | weiReduction (i : ℕ)
  deriving DecidableEq

variable {R : Type*} [AddCommMonoid R] (jcp : JitGemmConvConf)

/-- `weights_g_size` -/
def weightsGSize : ℕ := jcp.ic * jcp.oc * jcp.ks

/-- The place of thread `ithr`. -/
def balance (nthr ithr : ℕ) : BwdWeightsBalance :=
  let mbForBalance := if jcp.needWeiReduction then jcp.mb else 1
  bwdWeightsBalance ithr nthr jcp.ngroups mbForBalance

/-- The thread has work. -/
def hasWork (nthr ithr : ℕ) : Bool := (balance jcp nthr ithr).ithrG ≠ -1 ∧ (balance jcp nthr ithr).ithrMb ≠ -1

def needReduction (nthr ithr : ℕ) : Bool := (balance jcp nthr ithr).nthrMb ≠ 1

/-- `g_start, g_end` -/
def gRange (nthr ithr : ℕ) : ℕ × ℕ :=
  balance211 jcp.ngroups (balance jcp nthr ithr).nthrG (balance jcp nthr ithr).ithrG.toNat

/-- `mb_start, mb_end` -/
def mbRange (nthr ithr : ℕ) : ℕ × ℕ :=
  balance211 jcp.mb (balance jcp nthr ithr).nthrMb (balance jcp nthr ithr).ithrMb.toNat

/-- The offset of the partial results of thread `ithrMb` in those of the threads of its group. -/
def reduceBase (nthr ithr : ℕ) : ℕ :=
  (balance jcp nthr ithr).ithrG.toNat * (balance jcp nthr ithr).nthrMb * weightsGSize jcp

/-- Where a thread writes the weights of group `g`. -/
def weightsDst (nthr ithr g s : ℕ) : Elem :=
  if needReduction jcp nthr ithr then
    .weiReduction (reduceBase jcp nthr ithr + (balance jcp nthr ithr).ithrMb.toNat * weightsGSize jcp + s)
  else .diffWeights (g * weightsGSize jcp + s)

/-- The products of a thread for group `g`. -/
def gemms (product : ℕ → ℕ → ℕ → ℕ → R) (nthr ithr g : ℕ) : List (Assign Elem R) :=
  let mbStart := (mbRange jcp nthr ithr).1
  let mbEnd := (mbRange jcp nthr ithr).2
  (List.range' mbStart (mbEnd - mbStart)).flatMap fun mb =>
    (List.range jcp.od).flatMap fun od =>
      accumulate (mb = mbStart ∧ od = 0) (weightsGSize jcp) (weightsDst jcp nthr ithr g) fun s _ =>
        product g mb od s

/-- What a thread does before the reduction. -/
def products (product : ℕ → ℕ → ℕ → ℕ → R) (nthr ithr : ℕ) : List (Assign Elem R) :=
  if hasWork jcp nthr ithr then
    let gStart := (gRange jcp nthr ithr).1
    let gEnd := (gRange jcp nthr ithr).2
    (List.range' gStart (gEnd - gStart)).flatMap (gemms jcp product nthr ithr)
  else []

/-- `bwd_weights_reduction_par` -/
def bwdWeightsReductionPar (ithr nthr reduceBase weightsBase : ℕ) : List (Assign Elem R) :=
  let weights := balance211 (weightsGSize jcp) nthr ithr
  (List.range nthr).flatMap fun i =>
    accumulate (i = 0) (weights.2 - weights.1) (fun s => .diffWeights (weightsBase + (weights.1 + s))) fun s m =>
      m (.weiReduction (reduceBase + i * weightsGSize jcp + (weights.1 + s)))

/-- The reduction of a thread. -/
def reduction (nthr ithr : ℕ) : List (Assign Elem R) :=
  bwdWeightsReductionPar jcp (balance jcp nthr ithr).ithrMb.toNat (balance jcp nthr ithr).nthrMb
    (reduceBase jcp nthr ithr) ((gRange jcp nthr ithr).1 * weightsGSize jcp)

/-- The program of thread `ithr` in the first parallel section, cut at the barriers that it passes. -/
def section1 (product : ℕ → ℕ → ℕ → ℕ → R) (syncable : Bool) (nthr ithr : ℕ) : List (List (Assign Elem R)) :=
  if hasWork jcp nthr ithr then
    products jcp product nthr ithr :: if needReduction jcp nthr ithr && syncable then [reduction jcp nthr ithr] else []
  else [] :: if needReduction jcp nthr ithr && syncable then [[]] else []

/-- The program of thread `ithr` in the second parallel section. -/
def section2 (nthr ithr : ℕ) : List (Assign Elem R) :=
  if needReduction jcp nthr ithr && hasWork jcp nthr ithr then reduction jcp nthr ithr else []

/-- The number of barriers that thread `ithr` passes. -/
def barriers (product : ℕ → ℕ → ℕ → ℕ → R) (syncable : Bool) (nthr ithr : ℕ) : ℕ :=
  (section1 jcp product syncable nthr ithr).length - 1

/-- The programs of a team of `nthr` threads, with an implicit barrier after a parallel section. -/
def phases (product : ℕ → ℕ → ℕ → ℕ → R) (syncable : Bool) (nthr : ℕ) : List (ℕ → List (Assign Elem R)) :=
  phasesOf (barriers jcp product syncable nthr 0 + 1)
      (fun ithr => if ithr < nthr then section1 jcp product syncable nthr ithr else []) ++
    if jcp.needWeiReduction && !syncable then [fun ithr => if ithr < nthr then section2 jcp nthr ithr else []] else []

end GemmConvolutionBwdWeights

end MklDnn

/-!
## Columns and bias of a convolution by GEMM, backward by weights

`gemm_convolution_bwd_weights_t::execute_backward_weights` with the columns of the images: every thread unfolds the
image for every plane of the output and multiplies the columns with `diff_dst`.
-/

open LoopNest Interleaving

namespace MklDnn

namespace GemmConvolutionBwdWeights

open JitGemmConvolutionUtils

variable {R : Type*} [CommSemiring R] (jcp : JitGemmConvConf) (src diffDst : ℕ → R) (nthrIn : ℕ)

/-- What a thread knows between two products, and its program so far. -/
structure State (R : Type*) where
  col : ℤ → R
  prog : List (Assign Elem R)

def K : ℕ := jcp.os * jcp.od

def srcStep : ℕ := jcp.ic * jcp.ih * jcp.iw * jcp.id

def dstStep : ℕ := jcp.oc * K jcp

/-- `_src` -/
def srcOf (mb g i : ℕ) : R := src ((mb * jcp.ngroups + g) * srcStep jcp + i)

/-- The columns after `im2col` or `im2col_3d`. -/
def im2colOf (mb g od : ℕ) (col : ℤ → R) : ℤ → R :=
  let im := fun i : ℤ => srcOf jcp src mb g i.toNat
  if jcp.id = 1 then applyWrites (im2col jcp im 0 jcp.os 0 jcp.ic nthrIn) col
  else applyWrites (im2col3d jcp im od nthrIn) col

/-- The loop over the planes of the output. -/
def odStep (nthr ithr g mb : ℕ) (s : State R) (od : ℕ) : State R :=
  let k := jcp.os
  let N := jcp.oc
  let M := jcp.ic * jcp.ks
  let LDA := if jcp.im2colSz ≠ 0 then k else K jcp
  let col := if jcp.im2colSz ≠ 0 then im2colOf jcp src nthrIn mb g od s.col else s.col
  let a := fun i : ℕ => if jcp.im2colSz ≠ 0 then col i else srcOf jcp src mb g (od * k + i)
  let b := fun i => diffDst ((mb * jcp.ngroups + g) * dstStep jcp + od * k + i)
  let beta := if mb = (mbRange jcp nthr ithr).1 ∧ od = 0 then 0 else 1
  { col, prog := s.prog ++ extendedSgemm true false M N k a LDA b (K jcp) beta (weightsDst jcp nthr ithr g) M }

/-- The loops of a thread over its groups and images. -/
def columnsLoops (nthr ithr : ℕ) (s : State R) : State R :=
  let g := gRange jcp nthr ithr
  let mb := mbRange jcp nthr ithr
  (List.range' g.1 (g.2 - g.1)).foldl (fun s g =>
    (List.range' mb.1 (mb.2 - mb.1)).foldl (fun s mb =>
      (List.range jcp.od).foldl (odStep jcp src diffDst nthrIn nthr ithr g mb) s) s) s

/-- What a thread does before the reduction. The columns of all threads have been set to zero. -/
def columnsProducts (nthr ithr : ℕ) : List (Assign Elem R) :=
  if hasWork jcp nthr ithr then (columnsLoops jcp src diffDst nthrIn nthr ithr ⟨fun _ => 0, []⟩).prog else []

/-- The program of thread `ithr` in the first parallel section, cut at the barriers that it passes. -/
def columnsSection1 (syncable : Bool) (nthr ithr : ℕ) : List (List (Assign Elem R)) :=
  if hasWork jcp nthr ithr then
    columnsProducts jcp src diffDst nthrIn nthr ithr ::
      if needReduction jcp nthr ithr && syncable then [reduction jcp nthr ithr] else []
  else [] :: if needReduction jcp nthr ithr && syncable then [[]] else []

/-- The programs of a team of `nthr` threads. -/
def columnsPhases (syncable : Bool) (nthr : ℕ) : List (ℕ → List (Assign Elem R)) :=
  phasesOf (columnsSection1 jcp src diffDst nthrIn syncable nthr 0).length
      (fun ithr => if ithr < nthr then columnsSection1 jcp src diffDst nthrIn syncable nthr ithr else []) ++
    if jcp.needWeiReduction && !syncable then [fun ithr => if ithr < nthr then section2 jcp nthr ithr else []] else []

/-- `db`: the sum over the images; `offset` is counted up in the inner loops. -/
def diffBiasSum (g oc : ℕ) : R :=
  let offset := g * dstStep jcp + oc * K jcp
  ∑ mb ∈ Finset.range jcp.mb, ∑ od ∈ Finset.range jcp.od, ∑ oh ∈ Finset.range jcp.oh, ∑ ow ∈ Finset.range jcp.ow,
    diffDst (offset + mb * jcp.ngroups * dstStep jcp + ((od * jcp.oh + oh) * jcp.ow + ow))

/-- The loop over `diff_bias`, with `nthr` threads. -/
def diffBias (nthr ithr : ℕ) : List (Assign ℕ R) :=
  (parallelNdIters nthr [jcp.ngroups, jcp.oc] ithr).flatMap fun
    | [g, oc] => [Assign.set (g * jcp.oc + oc) (diffBiasSum jcp diffDst g oc)]
    | _ => []

end GemmConvolutionBwdWeights

end MklDnn

/-!
## Data of a convolution by GEMM, backward

`gemm_convolution_bwd_data_t::execute_backward_data`. Every thread runs through the planes of the output of its
images, multiplies `diff_dst` with the weights and folds the columns back into the image.
-/

open LoopNest Interleaving

namespace MklDnn

namespace GemmConvolutionBwdData

open JitGemmConvolutionUtils

variable {R : Type*} [CommSemiring R] (jcp : JitGemmConvConf) (diffDst weights : ℕ → R) (nthrIn : ℕ)

/-- What a thread knows between two planes, and its program so far. -/
structure State (R : Type*) where
  col : ℤ → R
  prog : List (Assign ℤ R)

def M : ℕ := jcp.os * jcp.od

def srcStep : ℕ := jcp.ic * jcp.ih * jcp.iw * jcp.id

def dstStep : ℕ := jcp.oc * M jcp

def weightsGSize : ℕ := jcp.ic * jcp.oc * jcp.ks

/-- `_diff_src` -/
def diffSrc (n g : ℕ) : ℕ := (n * jcp.ngroups + g) * srcStep jcp

/-- The product for plane `od` of the output. -/
def product {A : Type*} (n g od : ℕ) (c : ℕ → A) (ldc : ℕ) : List (Assign A R) :=
  let m := jcp.os
  let K := jcp.oc
  let N := jcp.ic * jcp.ks
  extendedSgemm false true m N K (fun i => diffDst ((n * jcp.ngroups + g) * dstStep jcp + od * m + i)) (M jcp)
    (fun i => weights (g * weightsGSize jcp + i)) N 0 c ldc

/-- An assignment to the image at an offset. -/
def shift (offset : ℤ) (e : Assign ℤ R) : Assign ℤ R where
  dst := offset + e.dst
  value := fun mem => e.value fun a => mem (offset + a)

/-- `col2im` or `col2im_3d` -/
def fold (n g od : ℕ) (col : ℤ → R) : List (Assign ℤ R) :=
  let prog := if jcp.id = 1 then (List.range nthrIn).flatMap (col2im jcp col nthrIn) else col2im3d jcp col od nthrIn
  prog.map (shift (diffSrc jcp n g))

/-- The loop over the planes of the output. -/
def odStep (n g : ℕ) (s : State R) (od : ℕ) : State R :=
  if jcp.im2colSz ≠ 0 then
    let col := execAll (product jcp diffDst weights n g od (fun i => (i : ℤ)) jcp.os) s.col
    { col, prog := s.prog ++ fold jcp nthrIn n g od col }
  else
    let c := fun i => ((diffSrc jcp n g + od * jcp.os + i : ℕ) : ℤ)
    { s with prog := s.prog ++ product jcp diffDst weights n g od c (M jcp) }

/-- The program of thread `ithr`; `scratch` is what its columns hold before. -/
def program (scratch : ℕ → ℤ → R) (nthr ithr : ℕ) : List (Assign ℤ R) :=
  if ithr < nthr then
    ((forNd ithr nthr [jcp.ngroups, jcp.mb]).foldl (fun s iwork =>
      match iwork with
      | [g, n] => (List.range jcp.od).foldl (odStep jcp diffDst weights nthrIn n g) s
      | _ => s) ⟨scratch ithr, []⟩).prog
  else []

/-- The loop that sets `diff_src` to zero, with `nthr` threads. -/
def zeros (nthr ithr : ℕ) : List (Assign ℤ R) :=
  let workAmount := jcp.ngroups * jcp.mb
  (parallelNdIters nthr [workAmount * srcStep jcp] ithr).flatMap fun
    | [i] => [Assign.set (i : ℤ) 0]
    | _ => []

/-- The parallel sections: with `nthrZero` threads that set `diff_src` to zero, and a team of `nthr` threads for the
convolution. -/
def phases (scratch : ℕ → ℤ → R) (nthrZero nthr : ℕ) : List (ℕ → List (Assign ℤ R)) :=
  (if 1 < jcp.id then [zeros jcp nthrZero] else []) ++ [program jcp diffDst weights nthrIn scratch nthr]

end GemmConvolutionBwdData

end MklDnn
