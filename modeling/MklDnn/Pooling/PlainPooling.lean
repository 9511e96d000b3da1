import MklDnn.Pooling.RefPooling

/-!
# Pooling for `nchw` and `ncdhw`

`nchw_pooling_fwd_t` and `nchw_pooling_bwd_t`. A tensor is a function of the offset; the workspace has the layout of the
destination.
-/

open LoopNest Interleaving

namespace MklDnn.NchwPooling

open Pooling

variable {R : Type*} (pd : PoolingPd)

/-- The number of dimensions for which `init` accepts the tags. -/
structure Supported : Prop where
  ndims : pd.ndims = 4 ∨ pd.ndims = 5
  dstNdims : pd.dstNdims = pd.ndims

/-- `src_offset` -/
def srcOff (mb c id ih iw : ℕ) : ℕ :=
  pd.w.i * pd.h.i * pd.d.i * pd.C * mb + pd.w.i * pd.h.i * pd.d.i * c + pd.w.i * pd.h.i * id + pd.w.i * ih + iw

/-- `dst_offset` and `ws_offset` -/
def dstOff (mb c od oh ow : ℕ) : ℕ :=
  pd.w.o * pd.h.o * pd.d.o * pd.C * mb + pd.w.o * pd.h.o * pd.d.o * c + pd.w.o * pd.h.o * od + pd.w.o * oh + ow

/-- `ker_max`, over an image `x`: the maximum and the workspace. -/
def kerMax [LinearOrder R] (x : ℕ → ℕ → ℕ → R) (st : R × ℕ) (od oh ow : ℕ) : R × ℕ :=
  (List.range pd.d.k).foldl (fun st (kd : ℕ) => (List.range pd.h.k).foldl (fun st (kh : ℕ) =>
    (List.range pd.w.k).foldl (fun st (kw : ℕ) =>
      let id := pd.d.tap od kd
      let ih := pd.h.tap oh kh
      let iw := pd.w.tap ow kw
      if pd.d.Outside id then st else if pd.h.Outside ih then st else if pd.w.Outside iw then st
      else
        let s := x id.toNat ih.toNat iw.toNat
        if st.1 < s then (s, pd.storeIndex (kd * pd.h.k * pd.w.k + kh * pd.w.k + kw)) else st) st) st) st

/-- `ker_avg` -/
def kerAvg [Field R] (x : ℕ → ℕ → ℕ → R) (od oh ow : ℕ) : R := pd.kerAvgFwd Axis.startOffset x od oh ow

section Execute

variable [Field R] [LinearOrder R]

/-- `execute_forward`: the writes to `dst`. -/
def executeForward (lowest : R) (src : ℕ → R) : List (ℕ × R) :=
  (List.range pd.MB).flatMap fun mb => (List.range pd.C).flatMap fun c => (List.range pd.d.o).flatMap fun od =>
    (List.range pd.h.o).flatMap fun oh => (List.range pd.w.o).map fun ow =>
      let x := fun id ih iw => src (srcOff pd mb c id ih iw)
      (dstOff pd mb c od oh ow, if pd.alg = .max then (kerMax pd x (lowest, 0) od oh ow).1 else kerAvg pd x od oh ow)

/-- `execute_forward`, for the maximum: the writes to the workspace. -/
def executeForwardWs (lowest : R) (src : ℕ → R) : List (ℕ × ℕ) :=
  (List.range pd.MB).flatMap fun mb => (List.range pd.C).flatMap fun c => (List.range pd.d.o).flatMap fun od =>
    (List.range pd.h.o).flatMap fun oh => (List.range pd.w.o).map fun ow =>
      let x := fun id ih iw => src (srcOff pd mb c id ih iw)
      (dstOff pd mb c od oh ow, (kerMax pd x (lowest, 0) od oh ow).2)

omit [LinearOrder R] in
/-- `execute_backward`, on `diff_src`. -/
def executeBackward (diffDst : ℕ → R) (ws : ℕ → ℕ) : List (Assign ℕ R) :=
  pd.scatterImages Axis.startOffset (srcOff pd) (fun mb c od oh ow => diffDst (dstOff pd mb c od oh ow))
    fun mb c od oh ow => ws (dstOff pd mb c od oh ow)

end Execute

end MklDnn.NchwPooling

/-!
## Pooling for `nhwc` and `ndhwc`

`nhwc_pooling_fwd_t` and `nhwc_pooling_bwd_t`. The backward pass gathers: it runs over the elements of the image, and for each
of them over the outputs whose windows may cover it.
-/

open LoopNest Interleaving

namespace MklDnn.NhwcPooling

open Pooling

variable {R : Type*} (pd : PoolingPd)

/-- The number of dimensions for which `init` accepts the tags. -/
structure Supported : Prop where
  ndims : pd.ndims = 4 ∨ pd.ndims = 5
  dstNdims : pd.dstNdims = pd.ndims

/-! ## Offsets -/

/-- The strides that `DECLARE_READ_STRIDES` reads. -/
structure Strides where
  n : ℕ
  d : ℕ
  h : ℕ
  w : ℕ

/-- `DECLARE_READ_STRIDES`, of a tensor with the tag `nhwc` or `ndhwc`. -/
def readStrides (C D H W : ℕ) : Strides where
  n := D * H * W * C
  d := if pd.is3d then H * W * C else 0
  h := W * C
  w := C

/-- `strided_offset` -/
def stridedOffset (s : Strides) (n d h w : ℕ) : ℕ := n * s.n + d * s.d + h * s.h + w * s.w

/-- An element of `src`. -/
def srcOff (mb c id ih iw : ℕ) : ℕ := stridedOffset (readStrides pd pd.C pd.d.i pd.h.i pd.w.i) mb id ih iw + c

/-- An element of `dst`, and of the workspace. -/
def dstOff (mb c od oh ow : ℕ) : ℕ := stridedOffset (readStrides pd pd.C pd.d.o pd.h.o pd.w.o) mb od oh ow + c

/-! ## Forward -/

/-- `array_nhwc_max`, for one channel. -/
def arrayNhwcMax [LinearOrder R] (st : R × ℕ) (s : R) (index : ℕ) : R × ℕ :=
  (max s st.1, if st.1 < s then pd.storeIndex index else st.2)

/-- The loops of the maximum, for one channel `x` of an image. -/
def kerMax [LinearOrder R] (x : ℕ → ℕ → ℕ → R) (st : R × ℕ) (od oh ow : ℕ) : R × ℕ :=
  (List.range pd.d.k).foldl (fun st (kd : ℕ) => (List.range pd.h.k).foldl (fun st (kh : ℕ) =>
    (List.range pd.w.k).foldl (fun st (kw : ℕ) =>
      let id := pd.d.tap od kd
      let ih := pd.h.tap oh kh
      let iw := pd.w.tap ow kw
      if pd.d.Outside id then st else if pd.h.Outside ih then st else if pd.w.Outside iw then st
      else arrayNhwcMax pd st (x id.toNat ih.toNat iw.toNat) (kd * pd.h.k * pd.w.k + kh * pd.w.k + kw)) st) st) st

/-- The elements that the loops of the average visit. -/
def visits (od oh ow : ℤ) : List (ℤ × ℤ × ℤ) :=
  (intLoop (pd.d.startOffset od) (pd.d.stop od)).flatMap fun id =>
    (intLoop (pd.h.startOffset oh) (pd.h.stop oh)).flatMap fun ih =>
      (intLoop (pd.w.startOffset ow) (pd.w.stop ow)).map fun iw => (id, ih, iw)

/-- The loops of the average, for one channel of an image: the summands are counted on the way. -/
def kerAvg [Field R] (x : ℕ → ℕ → ℕ → R) (od oh ow : ℕ) : R :=
  let sum := (visits pd od oh ow).foldl (fun st i => (st.1 + x i.1.toNat i.2.1.toNat i.2.2.toNat, st.2 + 1)) ((0 : R), 0)
  let numSummands := if pd.alg = .avgIncludePadding then pd.w.k * pd.h.k * pd.d.k else sum.2
  sum.1 / numSummands

section Execute

variable [Field R] [LinearOrder R]

/-- `execute_forward`: the writes to `dst`. -/
def executeForward (lowest : R) (src : ℕ → R) : List (ℕ × R) :=
  (List.range pd.MB).flatMap fun mb => (List.range pd.d.o).flatMap fun od => (List.range pd.h.o).flatMap fun oh =>
    (List.range pd.w.o).flatMap fun ow => (List.range pd.C).map fun oc =>
      let x := fun id ih iw => src (srcOff pd mb oc id ih iw)
      (dstOff pd mb oc od oh ow, if pd.alg = .max then (kerMax pd x (lowest, 0) od oh ow).1 else kerAvg pd x od oh ow)

/-- `execute_forward`, for the maximum: the writes to the workspace. -/
def executeForwardWs (lowest : R) (src : ℕ → R) : List (ℕ × ℕ) :=
  (List.range pd.MB).flatMap fun mb => (List.range pd.d.o).flatMap fun od => (List.range pd.h.o).flatMap fun oh =>
    (List.range pd.w.o).flatMap fun ow => (List.range pd.C).map fun oc =>
      let x := fun id ih iw => src (srcOff pd mb oc id ih iw)
      (dstOff pd mb oc od oh ow, (kerMax pd x (lowest, 0) od oh ow).2)

end Execute

/-! ## Backward -/

section Backward

variable [Field R]

/-- The windows of the kernel are disjoint. -/
def disjointWindows : Bool := pd.d.k = pd.d.s && pd.h.k = pd.h.s && pd.w.k = pd.w.s

/-- The outputs that may correspond to an element of the image. -/
def candidates (id ih iw : ℕ) : List (ℤ × ℤ × ℤ) :=
  (intLoop (pd.d.oLeft id) (pd.d.oRight id)).flatMap fun od => (intLoop (pd.h.oLeft ih) (pd.h.oRight ih)).flatMap fun oh =>
    (intLoop (pd.w.oLeft iw) (pd.w.oRight iw)).map fun ow => (od, oh, ow)

/-- What an output contributes to an element, if its window covers the element. -/
def contribution (diffDst : ℕ → R) (ws : ℕ → ℕ) (mb id ih iw : ℕ) (od oh ow : ℤ) (oc : ℕ) : R :=
  let d := diffDst (dstOff pd mb oc od.toNat oh.toNat ow.toNat)
  if pd.alg = .max then
    let index := (id - od * pd.d.s + pd.d.pad) * pd.h.k * pd.w.k + (ih - oh * pd.h.s + pd.h.pad) * pd.w.k +
      (iw - ow * pd.w.s + pd.w.pad)
    if (ws (dstOff pd mb oc od.toNat oh.toNat ow.toNat) : ℤ) = index then d else 0
  else d / (pd.numSummands Axis.startOffset od oh ow : R)

/-- The iteration for an element of the image, over all channels. -/
def gather (diffDst : ℕ → R) (ws : ℕ → ℕ) (mb id ih iw : ℕ) : List (Assign ℕ R) :=
  ((List.range pd.C).map fun oc => Assign.set (srcOff pd mb oc id ih iw) 0) ++
    (candidates pd id ih iw).flatMap fun o =>
      let kd := (id : ℤ) - o.1 * pd.d.s + pd.d.pad
      let kh := (ih : ℤ) - o.2.1 * pd.h.s + pd.h.pad
      let kw := (iw : ℤ) - o.2.2 * pd.w.s + pd.w.pad
      if kd < 0 ∨ pd.d.k ≤ kd then [] else if kh < 0 ∨ pd.h.k ≤ kh then [] else if kw < 0 ∨ pd.w.k ≤ kw then []
      else (List.range pd.C).map fun oc =>
        let value := contribution pd diffDst ws mb id ih iw o.1 o.2.1 o.2.2 oc
        if !disjointWindows pd then Assign.add (srcOff pd mb oc id ih iw) value
        else Assign.set (srcOff pd mb oc id ih iw) value

/-- `execute_backward`, on `diff_src`. -/
def executeBackward (diffDst : ℕ → R) (ws : ℕ → ℕ) : List (Assign ℕ R) :=
  (List.range pd.MB).flatMap fun mb => (List.range pd.d.i).flatMap fun id => (List.range pd.h.i).flatMap fun ih =>
    (List.range pd.w.i).flatMap fun iw => gather pd diffDst ws mb id ih iw

end Backward

end MklDnn.NhwcPooling
