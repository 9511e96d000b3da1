import Mathlib.Algebra.BigOperators.Group.Finset.Basic
import Mathlib.Algebra.Field.Defs
import Mathlib.Data.Int.Notation
import MklDnn.Common.Utils
import MklDnn.Lib.Assignments

/-!
# Pooling descriptors

What `pooling_desc_init` checks, and the sizes that `pooling_pd_t` derives. The source writes the same expressions for the
depth, the height and the width; here the numbers of one of these dimensions are an `Axis`.
-/

namespace MklDnn

/-- The algorithms that `pooling_desc_init` accepts. -/
inductive PoolingAlg where
  | max | avgIncludePadding | avgExcludePadding
  deriving DecidableEq

namespace Pooling

/-- `utils::div_up` on `int` -/
def intDivUp (a b : ℤ) : ℤ := (a + b - 1).tdiv b

/-- The values of a loop variable of type `int`. -/
def intLoop (start stop : ℤ) : List ℤ := (List.range (stop - start).toNat).map fun i : ℕ => start + i

/-- A spatial dimension: `ID, OD, KD, SD, padF`, `IH, OH, KH, SH, padT` or `IW, OW, KW, SW, padL`. -/
structure Axis where
  i : ℕ
  o : ℕ
  k : ℕ
  s : ℕ
  pad : ℕ

namespace Axis

variable (a : Axis)

/-- `id`, of the tap `kd` of the window `od`. -/
def tap (o kern : ℤ) : ℤ := o * a.s - a.pad + kern

/-- The tap lies outside of the image. -/
def Outside (x : ℤ) : Prop := x < 0 ∨ a.i ≤ x

instance (x : ℤ) : Decidable (a.Outside x) := inferInstanceAs (Decidable (_ ∨ _))

/-- `id_start` -/
def start (o : ℤ) : ℤ := max (o * a.s - a.pad) 0

/-- The lambda `apply_offset`. -/
def applyOffset (index offset : ℤ) : ℤ := if offset < index then index - offset else 0

/-- `id_start` of the implementations for plain layouts. -/
def startOffset (o : ℤ) : ℤ := applyOffset (o * a.s) a.pad

/-- `id_end` -/
def stop (o : ℤ) : ℤ := min (o * a.s - a.pad + a.k) a.i

/-- `od_start`, ahead of the scattering loops. -/
def oStart : ℤ := max 0 (intDivUp (a.pad - a.k + 1) a.s)

/-- `od_end`, ahead of the scattering loops. -/
def oEnd : ℤ := min a.o (1 + ((a.pad : ℤ) + a.i - 1).tdiv a.s)

/-- `od_left`, of the gathering loops. -/
def oLeft (i : ℤ) : ℤ := max ((i + a.pad - a.k + 1).tdiv a.s) 0

/-- `od_right`, of the gathering loops. -/
def oRight (i : ℤ) : ℤ := min ((i + a.pad).tdiv a.s + 1) a.o

end Axis

end Pooling

/-- `pooling_pd_t`: the descriptor. The source and the destination have their own number of dimensions. -/
structure PoolingPd where
  alg : PoolingAlg
  ndims : ℕ
  dstNdims : ℕ
  srcDims : ℕ → ℕ
  dstDims : ℕ → ℕ
  kernel : ℕ → ℕ
  strides : ℕ → ℕ
  paddingL : ℕ → ℕ
  paddingR : ℕ → ℕ

namespace PoolingPd

open Pooling

variable (pd : PoolingPd)

/-- What `pooling_desc_init` checks, of a descriptor with strides and kernels that are positive. -/
structure Accepted : Prop where
  ndims : pd.ndims = 3 ∨ pd.ndims = 4 ∨ pd.ndims = 5
  dstNdims : pd.dstNdims = 3 ∨ pd.dstNdims = 4 ∨ pd.dstNdims = 5
  mb : pd.srcDims 0 = pd.dstDims 0
  c : pd.srcDims 1 = pd.dstDims 1
  spatial : ∀ i, 2 ≤ i → i < pd.ndims → ((pd.srcDims i : ℤ) - pd.kernel (i - 2) + pd.paddingL (i - 2) +
    pd.paddingR (i - 2)).tdiv (pd.strides (i - 2)) + 1 = pd.dstDims i
  excludePadding : pd.alg = .avgExcludePadding → ∀ i, 2 ≤ i → i < pd.ndims →
    pd.paddingL (i - 2) < pd.kernel (i - 2) ∧ pd.paddingR (i - 2) < pd.kernel (i - 2)
  stride : ∀ i, i + 2 < pd.ndims → 0 < pd.strides i
  kernel : ∀ i, i + 2 < pd.ndims → 0 < pd.kernel i

def MB : ℕ := pd.srcDims 0

def C : ℕ := pd.srcDims 1

/-- `is_3d` -/
def is3d : Bool := pd.ndims = 5

/-- `ID(), OD(), KD(), KSD(), padFront()` -/
def d : Axis :=
  if 5 ≤ pd.ndims then
    ⟨pd.srcDims (pd.ndims - 3), pd.dstDims (pd.ndims - 3), pd.kernel (pd.ndims - 5), pd.strides (pd.ndims - 5),
      pd.paddingL (pd.ndims - 5)⟩
  else ⟨1, 1, 1, 1, 0⟩

/-- `IH(), OH(), KH(), KSH(), padT()` -/
def h : Axis :=
  if 4 ≤ pd.ndims then
    ⟨pd.srcDims (pd.ndims - 2), pd.dstDims (pd.ndims - 2), pd.kernel (pd.ndims - 4), pd.strides (pd.ndims - 4),
      pd.paddingL (pd.ndims - 4)⟩
  else ⟨1, 1, 1, 1, 0⟩

/-- `IW(), OW(), KW(), KSW(), padL()` -/
def w : Axis :=
  ⟨pd.srcDims (pd.ndims - 1), pd.dstDims (pd.ndims - 1), pd.kernel (pd.ndims - 3), pd.strides (pd.ndims - 3),
    pd.paddingL (pd.ndims - 3)⟩

/-- `num_summands`, for a window that begins at `start`. -/
def numSummands (start : Axis → ℤ → ℤ) (od oh ow : ℤ) : ℤ :=
  if pd.alg = .avgIncludePadding then pd.w.k * pd.h.k * pd.d.k
  else (pd.d.stop od - start pd.d od) * (pd.h.stop oh - start pd.h oh) * (pd.w.stop ow - start pd.w ow)

/-- The index of a tap in the workspace. -/
def tapIndex (kd kh kw : ℕ) : ℕ := (kd * pd.h.k + kh) * pd.w.k + kw

/-- `indices_data_type`: whether an index is stored in a byte. -/
def indicesU8 : Bool := (List.range (pd.ndims - 2)).foldl (fun prod i => prod * pd.kernel i) 1 ≤ 255

/-- What the workspace holds after an index has been stored. -/
def storeIndex (index : ℕ) : ℕ := if pd.indicesU8 then index % 256 else index

end PoolingPd

end MklDnn

/-!
## Reference pooling

`ref_pooling_fwd_t` and `ref_pooling_bwd_t`, and the loops that scatter the gradients of the outputs, which the
implementation for `nchw` shares. The arithmetic is exact. A tensor of the reference is a function of the position.
-/

open LoopNest Interleaving

namespace MklDnn

namespace PoolingPd

open Pooling

variable {R : Type*} (pd : PoolingPd)

/-! ## Loops over a window -/

section Window

/-- The windows that meet the image: the loops over `od`, `oh` and `ow`. -/
def outputs : List (ℤ × ℤ × ℤ) :=
  (intLoop pd.d.oStart pd.d.oEnd).flatMap fun od => (intLoop pd.h.oStart pd.h.oEnd).flatMap fun oh =>
    (intLoop pd.w.oStart pd.w.oEnd).map fun ow => (od, oh, ow)

/-- `ker_zero`, with the address of every element of the image. -/
def kerZero {A : Type*} [Zero R] (at' : ℕ → ℕ → ℕ → A) : List (Assign A R) :=
  ((List.range pd.d.i).flatMap fun id => (List.range pd.h.i).flatMap fun ih => (List.range pd.w.i).map fun iw =>
    at' id ih iw).map fun a => Assign.set a 0

/-- `ker_avg`, forward, over an image `x`. -/
def kerAvgFwd [Field R] (start : Axis → ℤ → ℤ) (x : ℕ → ℕ → ℕ → R) (od oh ow : ℕ) : R :=
  ((intLoop (start pd.d od) (pd.d.stop od)).map fun id => ((intLoop (start pd.h oh) (pd.h.stop oh)).map fun ih =>
    ((intLoop (start pd.w ow) (pd.w.stop ow)).map fun iw => x id.toNat ih.toNat iw.toNat).sum).sum).sum /
      (pd.numSummands start od oh ow : R)

/-- `ker_avg`, backward: what is added where. -/
def kerAvgBwd {A : Type*} [Field R] (start : Axis → ℤ → ℤ) (at' : ℕ → ℕ → ℕ → A) (d : R) (od oh ow : ℤ) :
    List (A × R) :=
  (intLoop (start pd.d od) (pd.d.stop od)).flatMap fun id => (intLoop (start pd.h oh) (pd.h.stop oh)).flatMap fun ih =>
    (intLoop (start pd.w ow) (pd.w.stop ow)).map fun iw =>
      (at' id.toNat ih.toNat iw.toNat, d / (pd.numSummands start od oh ow : R))

/-- `ker_max`, backward: what is added where, for the index of the workspace. -/
def kerMaxBwd {A : Type*} (at' : ℕ → ℕ → ℕ → A) (d : R) (index : ℕ) (od oh ow : ℤ) : List (A × R) :=
  let kd := (index / pd.w.k) / pd.h.k
  let kh := (index / pd.w.k) % pd.h.k
  let kw := index % pd.w.k
  let id := pd.d.tap od kd
  let ih := pd.h.tap oh kh
  let iw := pd.w.tap ow kw
  if pd.d.Outside id then [] else if pd.h.Outside ih then [] else if pd.w.Outside iw then []
  else [(at' id.toNat ih.toNat iw.toNat, d)]

/-- The backward pass over one image, with the addresses of its elements, the gradients of the outputs and the workspace. -/
def scatter {A : Type*} [Field R] (start : Axis → ℤ → ℤ) (at' : ℕ → ℕ → ℕ → A) (d : ℕ → ℕ → ℕ → R)
    (ws : ℕ → ℕ → ℕ → ℕ) : List (Assign A R) :=
  pd.kerZero at' ++ (pd.outputs.flatMap fun o =>
    let dst := d o.1.toNat o.2.1.toNat o.2.2.toNat
    if pd.alg = .max then pd.kerMaxBwd at' dst (ws o.1.toNat o.2.1.toNat o.2.2.toNat) o.1 o.2.1 o.2.2
    else pd.kerAvgBwd start at' dst o.1 o.2.1 o.2.2).map fun w => Assign.add w.1 w.2

/-- The backward pass: the loop over the images. -/
def scatterImages {A : Type*} [Field R] (start : Axis → ℤ → ℤ) (srcOff : ℕ → ℕ → ℕ → ℕ → ℕ → A)
    (d : ℕ → ℕ → ℕ → ℕ → ℕ → R) (ws : ℕ → ℕ → ℕ → ℕ → ℕ → ℕ) : List (Assign A R) :=
  (List.range pd.MB).flatMap fun mb => (List.range pd.C).flatMap fun c =>
    pd.scatter start (srcOff mb c) (d mb c) (ws mb c)

end Window

end PoolingPd

namespace RefPooling

open Pooling

variable {R : Type*} (pd : PoolingPd)

/-! ## Positions -/

/-- The position that `memory_desc_wrapper::off` makes of its arguments, for a descriptor of `ndims` dimensions. -/
def off (ndims : ℕ) (args : List ℕ) : List ℕ := (List.range ndims).map fun d => args.getD d 0

def srcOff (mb c id ih iw : ℕ) : List ℕ := off pd.ndims (if pd.is3d then [mb, c, id, ih, iw] else [mb, c, ih, iw])

/-- The position in the destination and in the workspace. -/
def dstOff (mb c od oh ow : ℕ) : List ℕ := off pd.dstNdims (if pd.is3d then [mb, c, od, oh, ow] else [mb, c, oh, ow])

/-! ## Forward -/

/-- `ker_max`: the maximum and the workspace. `x` is the image. -/
def kerMax [LinearOrder R] (x : ℕ → ℕ → ℕ → R) (st : R × ℕ) (od oh ow : ℕ) : R × ℕ :=
  (List.range pd.d.k).foldl (fun st (kd : ℕ) =>
    let id := pd.d.tap od kd
    if pd.d.Outside id then st
    else (List.range pd.h.k).foldl (fun st (kh : ℕ) =>
      let ih := pd.h.tap oh kh
      if pd.h.Outside ih then st
      else (List.range pd.w.k).foldl (fun st (kw : ℕ) =>
        let iw := pd.w.tap ow kw
        if pd.w.Outside iw then st
        else
          let s := x id.toNat ih.toNat iw.toNat
          if st.1 < s then (s, pd.storeIndex (pd.tapIndex kd kh kw)) else st) st) st) st

/-- `ker_avg` -/
def kerAvg [Field R] (x : ℕ → ℕ → ℕ → R) (od oh ow : ℕ) : R := pd.kerAvgFwd Axis.start x od oh ow

section Execute

variable [Field R] [LinearOrder R]

/-- `execute_forward`: the writes to `dst`. -/
def executeForward (lowest : R) (src : List ℕ → R) : List (List ℕ × R) :=
  (List.range pd.MB).flatMap fun mb => (List.range pd.C).flatMap fun oc => (List.range pd.d.o).flatMap fun od =>
    (List.range pd.h.o).flatMap fun oh => (List.range pd.w.o).map fun ow =>
      let x := fun id ih iw => src (srcOff pd mb oc id ih iw)
      (dstOff pd mb oc od oh ow, if pd.alg = .max then (kerMax pd x (lowest, 0) od oh ow).1 else kerAvg pd x od oh ow)

/-- `execute_forward`, for the maximum: the writes to the workspace. -/
def executeForwardWs (lowest : R) (src : List ℕ → R) : List (List ℕ × ℕ) :=
  (List.range pd.MB).flatMap fun mb => (List.range pd.C).flatMap fun oc => (List.range pd.d.o).flatMap fun od =>
    (List.range pd.h.o).flatMap fun oh => (List.range pd.w.o).map fun ow =>
      let x := fun id ih iw => src (srcOff pd mb oc id ih iw)
      (dstOff pd mb oc od oh ow, (kerMax pd x (lowest, 0) od oh ow).2)

omit [LinearOrder R] in
/-- `execute_backward`, on `diff_src`. -/
def executeBackward (diffDst : List ℕ → R) (ws : List ℕ → ℕ) : List (Assign (List ℕ) R) :=
  pd.scatterImages Axis.start (srcOff pd) (fun mb oc od oh ow => diffDst (dstOff pd mb oc od oh ow))
    fun mb oc od oh ow => ws (dstOff pd mb oc od oh ow)

end Execute

end RefPooling

end MklDnn
