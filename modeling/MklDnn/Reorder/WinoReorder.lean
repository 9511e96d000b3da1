import Mathlib.Algebra.BigOperators.Group.Finset.Basic
import MklDnn.Common.Threading
import MklDnn.Common.TypeHelpers
import MklDnn.Lib.Rounding

/-!
# Reorder of weights to the Winograd domain

`wino_reorder_t`: the weights are transformed to a plain buffer, and copied from there to one of four blocked layouts.
Every channel is padded to a multiple of its block. Numbers are exact.
-/

open Interleaving

namespace MklDnn.WinoReorder

open PrimitiveHashing

/-- What the constructor reads from the descriptors and the attributes. -/
structure Conf where
  r : ℕ
  wAlpha : ℕ
  winoFormat : WinoMemoryFormat
  orOc : ℕ
  orIc : ℕ
  kh : ℕ
  kw : ℕ
  oc : ℕ
  ic : ℕ
  ocBlock : ℕ
  icBlock : ℕ
  /-- `ic2_block` of the descriptor. -/
  descIc2Block : ℕ
  oc2Block : ℕ
  adjScale : ℚ
  hasOihwFormat : Bool
  /-- The destination is `s8`, and not `f32`. -/
  toS8 : Bool
  dMask : ℕ
  scales : ℕ → ℚ

namespace Conf

variable (c : Conf)

def nbOc : ℕ := c.oc / c.ocBlock

def nbIc : ℕ := c.ic / c.icBlock

def ic2Block : ℕ := if c.winoFormat = .weiOBaaIBOIio then c.descIc2Block else 1

def ocChunks : ℕ := c.nbOc / c.oc2Block

def icChunks : ℕ := c.nbIc / c.ic2Block

/-- The assertions on the sizes. -/
structure Asserted : Prop where
  oc : c.oc % c.ocBlock = 0
  ic : c.ic % c.icBlock = 0
  ic2 : c.nbIc % c.ic2Block = 0
  oc2 : c.nbOc % c.oc2Block = 0
  kh : c.r = c.kh
  kw : c.r = c.kw

end Conf

/-! ## The transformation -/

/-- `G_2x2_3x3` -/
def g2x23x3 : List ℚ := [1.0, 0.0, 0.0, 0.5, 0.5, 0.5, 0.5, -0.5, 0.5, 0.0, 0.0, 1.0]

/-- `G_4x4_3x3` -/
def g4x43x3 : List ℚ :=
  [1.13777777777778, 0, 0,
    -0.688403361344538, -0.430252100840336, -0.26890756302521,
    -0.688403361344538, 0.430252100840336, -0.26890756302521,
    0.119514472455649, 0.179271708683473, 0.26890756302521,
    0.119514472455649, -0.179271708683473, 0.26890756302521,
    0, 0, 1]

/-- An element of the scratchpad or of the destination. The bias lies behind the weights in the same buffer. -/
inductive Cell where
  | wspace (i : ℕ)
  | tmpWei (i : ℕ)
  | output (i : ℕ)
  | dstBias (i : ℕ)
  deriving DecidableEq

/-- `round_and_saturate` to `s8`. -/
def roundAndSaturate (x : ℚ) : ℚ := max (-128) (min 127 (Rounding.nearestEven x))

/-- `qz_b0` -/
def qzB0 (x alpha : ℚ) : ℚ := roundAndSaturate (alpha * x)

section Transform

variable (c : Conf) (input : ℕ → ℚ)

/-- The matrix `g` of the format, as the code indexes it. Its sizes are `alpha` and `r` of the descriptors with the format. -/
def Conf.g (i : ℕ) : ℚ :=
  (match c.winoFormat with
    | .weiAaOIoi | .weiAaOio | .weiAaOBiOo => g2x23x3
    | .weiOBaaIBOIio => g4x43x3
    | .undef => []).getD i 0

/-- `inp_v` -/
def inpV (iic ob ih iw ioc : ℕ) : ℚ :=
  let inp := if c.hasOihwFormat then (ob * c.ocBlock * c.orIc + iic) * c.kh * c.kw else iic * c.orOc + ob * c.ocBlock
  let inpOc := ob * c.ocBlock + ioc
  let inpIc := iic
  if inpIc < c.orIc ∧ inpOc < c.orOc then
    if c.hasOihwFormat then input (inp + (ioc * c.orIc * c.kh * c.kw + ih * c.kw + iw))
    else input (inp + c.orIc * c.orOc * (iw + ih * c.kw) + ioc)
  else 0

/-- The loop that clears `wspace`. -/
def zeroWspace : Phase Cell ℚ where
  dims := [c.r * c.wAlpha * c.ocBlock]
  body
    | [i] => [Assign.set (.wspace i) 0]
    | _ => []

/-- The loop that transforms the rows of the kernels of a block of output channels, for `oihw`. -/
def transformRowsOihw (iic ob : ℕ) : Phase Cell ℚ where
  dims := [c.r, c.wAlpha, c.ocBlock]
  body
    | [ih, j, ioc] => (List.range c.r).map fun iw =>
        Assign.add (.wspace ((ih * c.wAlpha + j) * c.ocBlock + ioc)) (inpV c input iic ob ih iw ioc * c.g (j * c.r + iw))
    | _ => []

/-- The loop that transforms the rows of the kernels of a block of output channels, for `hwio`. -/
def transformRowsHwio (iic ob : ℕ) : Phase Cell ℚ where
  dims := [c.r, c.wAlpha]
  body
    | [ih, j] => (List.range c.kw).flatMap fun iw =>
        let gMultiplier := c.g (j * c.r + iw)
        (List.range c.ocBlock).map fun ioc =>
          Assign.add (.wspace ((ih * c.wAlpha + j) * c.ocBlock + ioc)) (inpV c input iic ob ih iw ioc * gMultiplier)
    | _ => []

/-- What is stored for output channel `oc`. -/
def store (oc : ℕ) (t : ℚ) : ℚ :=
  if c.toS8 then
    let scale := if c.dMask = 1 then c.scales 0 else c.scales oc
    qzB0 t (scale * c.adjScale)
  else t

/-- The loop that transforms the columns. -/
def transformColumns (iic ob : ℕ) : Phase Cell ℚ where
  dims := [c.wAlpha, c.wAlpha, c.ocBlock]
  body
    | [i, j, ioc] =>
      let Z := c.oc * c.ic
      let out := (iic * c.nbOc + ob) * c.ocBlock
      [⟨.tmpWei (out + ((i * c.wAlpha + j) * Z + ioc)), fun m => store c (ob * c.ocBlock + ioc)
        (∑ k ∈ Finset.range c.r, c.g (i * c.r + k) * m (.wspace ((k * c.wAlpha + j) * c.ocBlock + ioc)))⟩]
    | _ => []

/-- The loops for an input channel and a block of output channels. -/
def transformBlock (iic ob : ℕ) : List (Phase Cell ℚ) :=
  [zeroWspace c, if c.hasOihwFormat then transformRowsOihw c input iic ob else transformRowsHwio c input iic ob,
    transformColumns c iic ob]

/-- `transform` -/
def transform : List (Phase Cell ℚ) :=
  if c.winoFormat = .undef then []
  else
    (List.range c.ic).flatMap fun iic => (List.range c.nbOc).flatMap fun ob => transformBlock c input iic ob

end Transform

/-! ## The copies -/

section Copies

variable (c : Conf)

def unsignValInWinoDomain : ℕ := 5

/-- `output[dst] = tmp_wei[src]` -/
def copy (dst src : ℕ) : Assign Cell ℚ := ⟨.output dst, fun m => m (.tmpWei src)⟩

/-- `dst_bias[bias] -= 128 * output[dst]` -/
def subBias (bias dst : ℕ) : Assign Cell ℚ := ⟨.dstBias bias, fun m => m (.dstBias bias) - 128 * m (.output dst)⟩

/-- The `array_set` of `reorder_to_aaOIoi`. -/
def clearBias : Phase Cell ℚ where
  dims := []
  body _ :=
    let biasSize := c.wAlpha * c.wAlpha * c.oc
    (List.range biasSize).map fun i => Assign.set (.dstBias i) 0

/-- The parallel loop of `reorder_to_aaOIoi`; `index` counts the passes of the two outer loops. -/
def reorderToAaOIoiLoop (uH uW : ℕ) : Phase Cell ℚ where
  dims := [c.nbOc, c.ocBlock]
  body
    | [ob, o] =>
      let index := uH * c.wAlpha + uW
      let uHShift := uH * c.wAlpha * c.ic * c.oc
      let uWShift := uW * c.ic * c.oc
      let uHShiftB := uH * c.wAlpha * c.oc
      let uWShiftB := uW * c.oc
      let ocBlockShift := ob * c.ocBlock * c.ic + o * c.icBlock
      (List.range c.nbIc).flatMap fun ib => (List.range c.icBlock).flatMap fun i =>
        let icShift := (ib * c.icBlock + i) * c.oc
        let ocShift := ob * c.ocBlock + o
        let icBlockShift := ib * c.ocBlock * c.icBlock + i
        let srcOffset := uHShift + uWShift + icShift + ocShift
        let dstOffset := uHShift + uWShift + ocBlockShift + icBlockShift
        let biasOffset := uHShiftB + uWShiftB + ocShift
        copy dstOffset srcOffset ::
          if c.toS8 then
            [if index ≠ unsignValInWinoDomain then subBias biasOffset dstOffset else Assign.set (.dstBias biasOffset) 0]
          else []
    | _ => []

/-- `reorder_to_aaOIoi` -/
def reorderToAaOIoi : List (Phase Cell ℚ) :=
  (if c.toS8 then [clearBias c] else []) ++
    (List.range c.wAlpha).flatMap fun uH => (List.range c.wAlpha).flatMap fun uW => [reorderToAaOIoiLoop c uH uW]

/-- `reorder_to_aaOio` -/
def reorderToAaOio : Phase Cell ℚ where
  dims := [c.wAlpha, c.wAlpha, c.nbOc]
  body
    | [uH, uW, ob] =>
      (List.range c.nbIc).flatMap fun ib => (List.range c.icBlock).flatMap fun i => (List.range c.ocBlock).map fun o =>
        let srcOffset := uH * c.wAlpha * c.ic * c.oc + uW * c.ic * c.oc + (ib * c.icBlock + i) * c.oc +
          (ob * c.ocBlock + o)
        let dstOffset := uH * c.wAlpha * c.nbOc * c.nbIc * c.icBlock * c.ocBlock +
          uW * c.nbOc * c.nbIc * c.icBlock * c.ocBlock + ob * c.nbIc * c.icBlock * c.ocBlock +
          ib * c.icBlock * c.ocBlock + i * c.ocBlock + o
        copy dstOffset srcOffset
    | _ => []

/-- `reorder_to_aaOBiOo`; every pass of the loop over `ob2` adds `oc_block` to `wei_offset`. -/
def reorderToAaOBiOo : Phase Cell ℚ where
  dims := [c.wAlpha, c.wAlpha, c.ocChunks]
  body
    | [uH, uW, occ] =>
      (List.range c.nbIc).flatMap fun ib =>
        let weiPtr := (((uH * c.wAlpha + uW) * c.ocChunks + occ) * c.nbIc + ib) * c.oc2Block * c.icBlock * c.ocBlock
        (List.range c.icBlock).flatMap fun i => (List.range c.oc2Block).flatMap fun ob2 =>
          let weiOffset := (i * c.oc2Block + ob2) * c.ocBlock
          (List.range c.ocBlock).map fun o =>
            let icp := ib * c.icBlock + i
            let ocp := occ * c.oc2Block * c.ocBlock + ob2 * c.ocBlock + o
            let srcOffset := uH * c.wAlpha * c.ic * c.oc + uW * c.ic * c.oc + icp * c.oc + ocp
            copy (weiPtr + (weiOffset + o)) srcOffset
    | _ => []

/-- `reorder_to_OBaaIBOIio` -/
def reorderToOBaaIBOIio : Phase Cell ℚ where
  dims := [c.ocChunks, c.wAlpha, c.wAlpha]
  body
    | [occ, uH, uW] =>
      (List.range c.icChunks).flatMap fun icc => (List.range c.oc2Block).flatMap fun ob =>
        let ocp := (occ * c.oc2Block + ob) * c.ocBlock
        (List.range c.ic2Block).flatMap fun ib => (List.range c.icBlock).flatMap fun i =>
          let icp := (icc * c.ic2Block + ib) * c.icBlock + i
          let srcOffset := uH * c.wAlpha * c.ic * c.oc + uW * c.ic * c.oc + icp * c.oc + ocp
          let weiOffset := ((((((occ * c.wAlpha + uH) * c.wAlpha + uW) * c.icChunks + icc) * c.oc2Block + ob) * c.ic2Block +
            ib) * c.icBlock + i) * c.ocBlock
          (List.range c.ocBlock).map fun o => copy (weiOffset + o) (srcOffset + o)
    | _ => []

/-- The copy to the layout of the destination. -/
def reorder : List (Phase Cell ℚ) :=
  match c.winoFormat with
  | .weiAaOIoi => reorderToAaOIoi c
  | .weiAaOio => [reorderToAaOio c]
  | .weiAaOBiOo => [reorderToAaOBiOo c]
  | .weiOBaaIBOIio => [reorderToOBaaIBOIio c]
  | .undef => []

/-- `execute` -/
def execute (input : ℕ → ℚ) : List (Phase Cell ℚ) := transform c input ++ reorder c

end Copies

end MklDnn.WinoReorder
