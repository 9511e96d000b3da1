import Mathlib.Data.Int.Range
import MklDnn.Common.Threading
import MklDnn.Lib.Assignments

/-!
# Columns of a convolution by GEMM

The helpers of `jit_gemm_convolution_utils` that unfold an image into a matrix of columns, and fold
columns back into an image. An array is a function of its offset. The offsets are exact integers.
-/

open Interleaving

namespace MklDnn

/-- The order of the loops of `gemm_convolution_fwd_t`: `conv_gemm_loop_order_t`. -/
inductive ConvGemmLoopOrder where
  | rlb | lrb
  deriving DecidableEq

/-- `jit_gemm_conv_conf_t` -/
structure JitGemmConvConf where
  mb : ℕ
  ngroups : ℕ
  ic : ℕ
  oc : ℕ
  iw : ℕ
  ih : ℕ
  id : ℕ
  ow : ℕ
  oh : ℕ
  od : ℕ
  lPad : ℤ
  tPad : ℤ
  fPad : ℤ
  kh : ℕ
  kw : ℕ
  kd : ℕ
  strideH : ℕ
  strideW : ℕ
  strideD : ℕ
  dilateH : ℕ
  dilateW : ℕ
  dilateD : ℕ
  withBias : Bool
  icBlock : ℕ
  ocBlock : ℕ
  osBlock : ℕ
  nthr : ℕ
  im2colSz : ℕ
  needWeiReduction : Bool
  signedInput : Bool
  outerThreading : Bool
  loopOrder : ConvGemmLoopOrder
  nthrOc : ℕ

namespace JitGemmConvConf

variable (jcp : JitGemmConvConf)

/-- The size of a plane of the image. -/
def is : ℕ := jcp.ih * jcp.iw

/-- The size of a plane of the output. -/
def os : ℕ := jcp.oh * jcp.ow

/-- The size of the kernel. -/
def ks : ℕ := jcp.kh * jcp.kw * jcp.kd

def dh : ℤ := 1 + jcp.dilateH

def dw : ℤ := 1 + jcp.dilateW

def dd : ℤ := 1 + jcp.dilateD

end JitGemmConvConf

/-- A convolution of two images of two groups with two channels and a padded 3x3 kernel. -/
def conv3x3 : JitGemmConvConf where
  mb := 2
  ngroups := 2
  ic := 2
  oc := 3
  iw := 5
  ih := 4
  id := 1
  ow := 5
  oh := 4
  od := 1
  lPad := 1
  tPad := 1
  fPad := 0
  kh := 3
  kw := 3
  kd := 1
  strideH := 1
  strideW := 1
  strideD := 1
  dilateH := 0
  dilateW := 0
  dilateD := 0
  withBias := true
  icBlock := 1
  ocBlock := 2
  osBlock := 8
  nthr := 4
  im2colSz := 72
  needWeiReduction := true
  signedInput := true
  outerThreading := true
  loopOrder := .rlb
  nthrOc := 2

namespace JitGemmConvolutionUtils

variable (jcp : JitGemmConvConf)

/-! ## `im2col` -/

section Im2col

variable {R : Type*} [Zero R] (im : ℤ → R) (ss sb cs cb : ℕ)

/-- The first row of the output that a tile touches. -/
def firstOh : ℤ := (ss / jcp.ow : ℕ)

def lastOh : ℤ := ((ss + sb : ℕ) - 1 : ℤ).tdiv jcp.ow

def firstOw : ℤ := (ss % jcp.ow : ℕ)

def lastOw : ℤ := ((ss + sb : ℕ) - 1 : ℤ).tmod jcp.ow

/-- The columns of row `oh` that lie in the tile. -/
def tileRow (oh : ℤ) : List ℤ :=
  let owBegin := if oh = firstOh jcp ss then firstOw jcp ss else 0
  let owEnd := if oh = lastOh jcp ss sb then lastOw jcp ss sb + 1 else jcp.ow
  Int.range owBegin owEnd

/-- The writes to row `oh` of the tile, with the elements of the image by their column in the output. -/
def im2colRow (elem : ℤ → ℤ → R) (ic kh kw : ℕ) (oh : ℤ) : List (ℤ × R) :=
  let ih := oh * jcp.strideH - jcp.tPad + kh * jcp.dh
  let col : ℤ := ic * (jcp.ks * sb) + (kh * jcp.kw + kw) * sb + oh * jcp.ow - ss
  if ih < 0 ∨ jcp.ih ≤ ih then (tileRow jcp ss sb oh).map fun ow => (col + ow, 0)
  else (tileRow jcp ss sb oh).map fun ow => (col + ow, elem ih ow)

/-- The elements for outer threading and stride one. -/
def outerUnitElem (ic kw : ℕ) (ih ow : ℤ) : R :=
  let imIc : ℤ := (ic + cs) * jcp.is
  let im_ := imIc + ih * jcp.iw - jcp.lPad + kw * jcp.dw
  let iw := ow
  if iw < jcp.lPad - kw * jcp.dw ∨ jcp.iw + jcp.lPad - kw * jcp.dw ≤ iw then 0 else im (im_ + iw)

/-- The elements for other strides. -/
def stridedElem (ic kw : ℕ) (ih ow : ℤ) : R :=
  let imIc : ℤ := (ic + cs) * jcp.is
  let iw := ow * jcp.strideW - jcp.lPad + kw * jcp.dw
  if iw < 0 ∨ jcp.iw ≤ iw then 0 else im (imIc + (ih * jcp.iw + iw))

/-- The elements for inner threading and stride one. -/
def innerUnitElem (ic kw : ℕ) (ih ow : ℤ) : R :=
  let im_ : ℤ := (ic + cs) * jcp.is + ih * jcp.iw
  let iwShift := kw * jcp.dw - jcp.lPad
  let iw := ow + iwShift
  if iw < 0 ∨ jcp.iw ≤ iw then 0 else im (im_ + iw)

/-- The loops for outer threading. -/
def im2colOuter (elem : ℕ → ℕ → ℤ → ℤ → R) : List (ℤ × R) :=
  (List.range cb).flatMap fun ic =>
    (List.range jcp.kh).flatMap fun kh =>
      (List.range jcp.kw).flatMap fun kw =>
        (Int.range (firstOh jcp ss) (lastOh jcp ss sb + 1)).flatMap fun oh =>
          im2colRow jcp ss sb (elem ic kw) ic kh kw oh

/-- The loops for inner threading, with `nthr` threads. -/
def im2colInner (nthr : ℕ) (elem : ℕ → ℕ → ℤ → ℤ → R) : List (ℤ × R) :=
  let ohRange := lastOh jcp ss sb + 1 - firstOh jcp ss
  (parallelNd nthr [cb, jcp.kh, jcp.kw, ohRange.toNat]).flatMap fun
    | [ic, kh, kw, ohr] => im2colRow jcp ss sb (elem ic kw) ic kh kw (ohr + firstOh jcp ss)
    | _ => []

/-- `im2col` with `nthr` threads: the writes to the columns. -/
def im2col (nthr : ℕ) : List (ℤ × R) :=
  if jcp.outerThreading then
    if jcp.strideW = 1 then im2colOuter jcp ss sb cb (outerUnitElem jcp im cs)
    else im2colOuter jcp ss sb cb (stridedElem jcp im cs)
  else if jcp.strideW = 1 then im2colInner jcp ss sb cb nthr (innerUnitElem jcp im cs)
  else im2colInner jcp ss sb cb nthr (stridedElem jcp im cs)

end Im2col

/-! ## `im2col_3d` -/

section Im2col3d

variable {R : Type*} [Zero R] (im : ℤ → R)

/-- The loops of `im2col_3d` over the rows and the columns of the kernel and of the output. -/
def im2col3dPlane (elem : ℤ → ℤ → R) (col : ℕ) : List (ℤ × R) :=
  let OHW := jcp.oh * jcp.ow
  (List.range jcp.kh).flatMap fun kh : ℕ =>
    (List.range jcp.oh).flatMap fun oh : ℕ =>
      let ih := -jcp.tPad + kh * jcp.dh + oh * jcp.strideH
      if ih < 0 ∨ jcp.ih ≤ ih then []
      else
        (List.range jcp.kw).flatMap fun kw : ℕ =>
          (List.range jcp.ow).flatMap fun ow : ℕ =>
            let iw := -jcp.lPad + kw * jcp.dw + ow * jcp.strideW
            if iw < 0 ∨ jcp.iw ≤ iw then []
            else
              let colIdx := kw * OHW + oh * jcp.ow + ow
              [((col + kh * (jcp.kw * OHW) + colIdx : ℕ), elem ih iw)]

/-- `im2col_3d` with `nthr` threads: the writes to the columns. -/
def im2col3d (od nthr : ℕ) : List (ℤ × R) :=
  let OHW := jcp.oh * jcp.ow
  let imStep := jcp.ih * jcp.iw * jcp.id
  let colStep := jcp.ks * OHW
  (parallelNd nthr [jcp.ic]).flatMap fun
    | [ic] =>
      (List.range jcp.kd).flatMap fun kd : ℕ =>
        let id := od * jcp.strideD - jcp.fPad + kd * jcp.dd
        let col := ic * colStep + kd * jcp.kh * jcp.kw * OHW
        if id < 0 ∨ jcp.id ≤ id then im2col3dPlane jcp (fun _ _ => 0) col
        else im2col3dPlane jcp (fun ih iw => im (ic * imStep + id * jcp.ih * jcp.iw + (ih * jcp.iw + iw))) col
    | _ => []

end Im2col3d

/-! ## `col2im` -/

section Col2im

variable {R : Type*} [AddCommMonoid R] (col : ℤ → R)

/-- The additions of `col2im` to the image of one channel. -/
def col2imAdds (ic : ℕ) : List (ℤ × R) :=
  let imStep := jcp.ih * jcp.iw
  let colStep := jcp.ks * jcp.os
  (List.range jcp.kh).flatMap fun kh : ℕ =>
    (List.range jcp.oh).flatMap fun oh : ℕ =>
      let ih := oh * jcp.strideH - jcp.tPad + kh * jcp.dh
      if ih < 0 ∨ jcp.ih ≤ ih then []
      else
        (List.range jcp.kw).flatMap fun kw : ℕ =>
          (List.range jcp.ow).flatMap fun ow : ℕ =>
            let iw := ow * jcp.strideW - jcp.lPad + kw * jcp.dw
            if iw < 0 ∨ jcp.iw ≤ iw then []
            else
              let colIdx : ℕ := ((kh * jcp.kw + kw) * jcp.oh + oh) * jcp.ow + ow
              [(ic * imStep + (ih * jcp.iw + iw), col (ic * colStep + colIdx : ℕ))]

/-- `col2im` for one channel. -/
def col2imChannel (ic : ℕ) : List (Assign ℤ R) :=
  ((List.range (jcp.ih * jcp.iw)).map fun is => Assign.set ((ic * (jcp.ih * jcp.iw) + is : ℕ) : ℤ) 0) ++
    (col2imAdds jcp col ic).map fun w => Assign.add w.1 w.2

/-- `col2im` with `nthr` threads: the program of thread `ithr`. -/
def col2im (nthr ithr : ℕ) : List (Assign ℤ R) :=
  (parallelNdIters nthr [jcp.ic] ithr).flatMap fun
    | [ic] => col2imChannel jcp col ic
    | _ => []

/-- The part of the image of a thread of `col2im_s32`. -/
structure Part where
  hs : ℤ
  he : ℤ
  ws : ℤ
  we : ℤ

/-- The part of the image of thread `ithr`. -/
def col2imPart (nthr ithr : ℕ) : Part :=
  let hNthr := min jcp.ih nthr
  let wNthr := min jcp.iw (nthr / hNthr)
  if ithr < hNthr * wNthr then
    let hIthr := ithr / wNthr
    let wIthr := ithr % wNthr
    let h := balance211 jcp.ih hNthr hIthr
    let w := balance211 jcp.iw wNthr wIthr
    ⟨h.1, h.2, w.1, w.2⟩
  else ⟨-1, -1, -1, -1⟩

/-- The elements of the image that a thread sets to zero. -/
def col2imS32Zeros (part : Part) : List ℤ :=
  (Int.range part.hs part.he).flatMap fun ih =>
    (Int.range part.ws part.we).flatMap fun iw =>
      (List.range jcp.ic).map fun ic : ℕ => (ih * jcp.iw + iw) * jcp.ic + ic

/-- The additions of a thread to its part of the image. -/
def col2imS32Adds (part : Part) : List (ℤ × R) :=
  (List.range jcp.oh).flatMap fun oh : ℕ =>
    (List.range jcp.ow).flatMap fun ow : ℕ =>
      (List.range jcp.kh).flatMap fun kh : ℕ =>
        let ih := oh * jcp.strideH - jcp.tPad + kh * jcp.dh
        if ih < part.hs ∨ part.he ≤ ih then []
        else
          (List.range jcp.kw).flatMap fun kw : ℕ =>
            let iw := ow * jcp.strideW - jcp.lPad + kw * jcp.dw
            if iw < part.ws ∨ part.we ≤ iw then []
            else
              let colIdx : ℕ := (((oh * jcp.ow + ow) * jcp.kh + kh) * jcp.kw + kw) * jcp.ic
              (List.range jcp.ic).map fun ic : ℕ => ((ih * jcp.iw + iw) * jcp.ic + ic, col (colIdx + ic : ℕ))

/-- `col2im_s32` with `nthr` threads: the program of thread `ithr`. -/
def col2imS32 (nthr ithr : ℕ) : List (Assign ℤ R) :=
  if ithr < nthr then
    (col2imS32Zeros jcp (col2imPart jcp nthr ithr)).map (fun a => Assign.set a 0) ++
      (col2imS32Adds jcp col (col2imPart jcp nthr ithr)).map fun w => Assign.add w.1 w.2
  else []

/-- The additions of `col2im_3d` to the image of one channel. -/
def col2im3dAdds (od ic : ℕ) : List (ℤ × R) :=
  (List.range jcp.kd).flatMap fun kd : ℕ =>
    let id := od * jcp.strideD - jcp.fPad + kd * jcp.dd
    if id < 0 ∨ jcp.id ≤ id then []
    else
      (List.range jcp.oh).flatMap fun oh : ℕ =>
        (List.range jcp.kh).flatMap fun kh : ℕ =>
          let ih := oh * jcp.strideH - jcp.tPad + kh * jcp.dh
          if ih < 0 ∨ jcp.ih ≤ ih then []
          else
            (List.range jcp.ow).flatMap fun ow : ℕ =>
              (List.range jcp.kw).flatMap fun kw : ℕ =>
                let iw := ow * jcp.strideW - jcp.lPad + kw * jcp.dw
                if iw < 0 ∨ jcp.iw ≤ iw then []
                else
                  let colIdx : ℕ := ((kh * jcp.kw + kw) * jcp.oh + oh) * jcp.ow + ow
                  [(ic * (jcp.ih * jcp.iw * jcp.id) + id * jcp.ih * jcp.iw + (ih * jcp.iw + iw),
                    col (ic * (jcp.ks * jcp.os) + kd * (jcp.kh * jcp.kw * jcp.os) + colIdx : ℕ))]

/-- `col2im_3d` with `nthr` threads. -/
def col2im3d (od nthr : ℕ) : List (Assign ℤ R) :=
  (parallelNd nthr [jcp.ic]).flatMap fun
    | [ic] => (col2im3dAdds jcp col od ic).map fun w => Assign.add w.1 w.2
    | _ => []

end Col2im

def saturate (low upper value : ℤ) : ℤ := max low (min upper value)

/-! ## `im2col_u8` -/

section Im2colU8

variable {α : Type*} (toInt : α → ℤ) (im : ℤ → α) (hs hb ws wb : ℕ)

/-- The zero point. -/
def shift : ℤ := if jcp.signedInput then 128 else 0

/-- A value of the image moved by the zero point. -/
def shifted (x : α) : UInt8 := UInt8.ofInt (toInt x + shift jcp)

/-- The stride of a column of the image. -/
def imIwStride : ℤ := jcp.ic * jcp.ngroups

/-- The stride of a row of the image. -/
def imIhStride : ℤ := jcp.iw * imIwStride jcp

/-- The first row of the image that is transposed. -/
def ihStart : ℤ := saturate 0 jcp.ih (hs - jcp.tPad)

def ihEnd : ℤ := saturate 0 jcp.ih (hs - jcp.tPad + hb + jcp.kh)

/-- The first column of the image that is transposed. -/
def iwStart : ℤ := saturate 0 jcp.iw (ws - jcp.lPad)

def iwEnd : ℤ := saturate 0 jcp.iw (ws - jcp.lPad + wb + jcp.kw)

/-- The number of rows that are transposed. -/
def ihb : ℤ := ihEnd jcp hs hb - ihStart jcp hs

/-- The number of columns that are transposed. -/
def iwb : ℤ := iwEnd jcp ws wb - iwStart jcp ws

/-- `im[ih][iw][ic] --> imtr[ic][ih][iw]` -/
def transpose : List (ℤ × α) :=
  let iwb := iwb jcp ws wb
  let imtrIcStride := ihb jcp hs hb * iwb
  let imtrIdxShift := ihStart jcp hs * iwb + iwStart jcp ws
  (List.range jcp.ic).flatMap fun ic : ℕ =>
    let imtrIdxIc := ic * imtrIcStride - imtrIdxShift
    (Int.range (ihStart jcp hs) (ihEnd jcp hs hb)).flatMap fun ih =>
      let imIdxIh := ic + ih * imIhStride jcp
      let imtrIdxIh := imtrIdxIc + ih * iwb
      (Int.range (iwStart jcp ws) (iwEnd jcp ws wb)).map fun iw =>
        (imtrIdxIh + iw, im (imIdxIh + iw * imIwStride jcp))

/-- The writes for one channel under one tap of the kernel. -/
def fromTransposedChannel (imtr : ℤ → α) (kh kw ic : ℕ) : List (ℤ × UInt8) :=
  let shift := UInt8.ofInt (shift jcp)
  let iwb := iwb jcp ws wb
  let imtrIcStride := ihb jcp hs hb * iwb
  let colIcStr : ℤ := hb * wb
  let colKwStride := jcp.ic * colIcStr
  let colKhStride := jcp.kw * colKwStride
  let ohInit := ihStart jcp hs - (hs - jcp.tPad)
  let owInit := iwStart jcp ws - (ws - jcp.lPad)
  let ohKh := ohInit - kh
  let ohStart := saturate 0 hb ohKh
  let ohEnd := saturate 0 hb (ohKh + ihb jcp hs hb)
  let owKw := owInit - kw
  let imtrShift := ohKh * iwb + owKw
  let owStart := saturate 0 wb owKw
  let owEnd := saturate 0 wb (owKw + iwb)
  let colIdxIc := kh * colKhStride + kw * jcp.ic * colIcStr + ic * colIcStr
  let imtrIdxIc := ic * imtrIcStride - imtrShift
  let shiftRow := fun oh : ℤ => (Int.range 0 wb).map fun ow => (colIdxIc + oh * wb + ow, shift)
  (Int.range 0 ohStart).flatMap shiftRow ++
    ((Int.range ohStart ohEnd).flatMap fun oh =>
      ((Int.range 0 owStart).map fun ow => (colIdxIc + oh * wb + ow, shift)) ++
        ((Int.range owStart owEnd).map fun ow =>
          (colIdxIc + oh * wb + ow, shifted jcp toInt (imtr (imtrIdxIc + oh * iwb + ow)))) ++
        (Int.range owEnd wb).map fun ow => (colIdxIc + oh * wb + ow, shift)) ++
    (Int.range ohEnd hb).flatMap shiftRow

/-- `imtr[ic][ih][iw] --> col[kh][kw][ic][oh][ow]` -/
def fromTransposed (imtr : ℤ → α) : List (ℤ × UInt8) :=
  (List.range jcp.kh).flatMap fun kh =>
    (List.range jcp.kw).flatMap fun kw =>
      (List.range jcp.ic).flatMap fun ic => fromTransposedChannel jcp toInt hs hb ws wb imtr kh kw ic

/-- The writes to one row of the columns by the general path. -/
def im2colU8Row (kh kw ic oh : ℕ) : List (ℤ × UInt8) :=
  let shift := UInt8.ofInt (shift jcp)
  let hp := jcp.tPad - kh * jcp.dh
  let ih := (oh + hs) * jcp.strideH - hp
  let colIdxBase : ℤ := ((((kh * jcp.kw + kw) * jcp.ic + ic) * hb + oh) * wb : ℕ)
  if ih < 0 ∨ jcp.ih ≤ ih then (Int.range 0 wb).map fun ow => (colIdxBase + ow, shift)
  else
    let wp := jcp.lPad - kw * jcp.dw
    -- `div_up` of a value that may be negative
    let owStart := saturate 0 wb ((wp + jcp.strideW - 1).tdiv jcp.strideW - ws)
    let owEnd := saturate 0 wb ((jcp.iw + wp + jcp.strideW - 1).tdiv jcp.strideW - ws)
    let iwBase := ws * jcp.strideW - wp
    let imIdxBase := ih * imIhStride jcp + ic
    ((Int.range 0 owStart).map fun ow => (colIdxBase + ow, shift)) ++
      ((Int.range owStart owEnd).map fun ow =>
        let iw := iwBase + ow * jcp.strideW
        (colIdxBase + ow, shifted jcp toInt (im (imIdxBase + iw * imIwStride jcp)))) ++
      (Int.range owEnd wb).map fun ow => (colIdxBase + ow, shift)

/-- The writes of the general path. -/
def im2colU8General (nthr : ℕ) : List (ℤ × UInt8) :=
  (parallelNd nthr [jcp.kh, jcp.kw, jcp.ic, hb]).flatMap fun
    | [kh, kw, ic, oh] => im2colU8Row jcp toInt im hs hb ws wb kh kw ic oh
    | _ => []

/-- The condition for the path that transposes the image. -/
def isTransposing : Bool :=
  jcp.outerThreading ∧ jcp.strideH = 1 ∧ jcp.strideW = 1 ∧ jcp.dh = 1 ∧ jcp.dw = 1

/-- The columns after the path that transposes the image. -/
def im2colU8Transposing (imtr : ℤ → α) (col : ℤ → UInt8) : ℤ → UInt8 :=
  LoopNest.applyWrites
    (fromTransposed jcp toInt hs hb ws wb (LoopNest.applyWrites (transpose jcp im hs hb ws wb) imtr)) col

/-- `im2col_u8` with `nthr` threads: the columns. -/
def im2colU8 (nthr : ℕ) (imtr : ℤ → α) (col : ℤ → UInt8) : ℤ → UInt8 :=
  if isTransposing jcp then im2colU8Transposing jcp toInt im hs hb ws wb imtr col
  else LoopNest.applyWrites (im2colU8General jcp toInt im hs hb ws wb nthr) col

end Im2colU8

end JitGemmConvolutionUtils

end MklDnn
