import MklDnn.Memory.Desc
import MklDnn.Memory.Offset

/-!
# Reorders of weights with compensation

The implementations `spec::conv_s8s8` of `simple_reorder_impl`: weights are quantised to `s8`, and behind
them lies the compensation of every output channel, which the reorder accumulates in `int32_t`. The floats
enter through their product and through `qz_b0`. A read behind the array of scales is `none`.
-/

open LoopNest

namespace MklDnn

/-- `math::ilog2q` -/
def ilog2q (v : ℕ) : ℤ :=
  if v = 0 then -1
  else
    (([32, 16, 8, 4, 2, 1].foldl
      (fun (st : ℕ × ℕ) pw => if 2 ^ pw ≤ st.1 then (st.1 >>> pw, st.2 + pw) else st) (v, 0)).2 : ℕ)

namespace ConvS8s8

/-! ## Stores -/

/-- What of the arithmetic of floats a reorder uses: `1.f`, the product and `qz_b0` to `s8`. -/
structure Quantizer (α F : Type*) where
  one : F
  mul : F → F → F
  qzB0 : α → F → Int8

/-- What the loops of an execution read: `scales_` of the attributes, `adj_scale` and the input. -/
structure Args (α F : Type*) where
  q : Quantizer α F
  scales : List F
  adjScale : F
  input : ℤ → α

/-- The weights by their offset, and the compensation. -/
structure Output where
  weights : ℤ → Int8
  cp : ℕ → ℤ

/-- One weight: where it is stored and read, and the indices of its scale and of its compensation. -/
structure Store where
  dst : ℤ
  src : ℤ
  scale : ℕ
  comp : ℕ

/-- The value of an `int32_t`. -/
@[irreducible] def toS32 (x : ℤ) : ℤ := Int.bmod x (2 ^ 32)

/-- `scales_t::set`: a common scale fills `scales_buf_`. -/
def scalesOf {F : Type*} : List F → List F
  | [s] => List.replicate 16 s
  | scales => scales

section Execute

variable {α F : Type*} (args : Args α F)

/-- The quantised weight. -/
def Args.value (s : Store) : Option Int8 :=
  args.scales[s.scale]?.map fun scale => args.q.qzB0 (args.input s.src) (args.q.mul scale args.adjScale)

/-- The weight is stored, and subtracted `factor` times from the compensation. -/
def Args.store (factor : ℤ) (st : Output) (s : Store) : Option Output := do
  let o ← args.value s
  return {
    weights := Function.update st.weights s.dst o
    cp := Function.update st.cp s.comp (toS32 (st.cp s.comp - factor * o.toInt)) }

/-- A part of the compensation set to zero. -/
def Output.zero (st : Output) (n : ℕ) : Output := { st with cp := fun c => if c < n then 0 else st.cp c }

end Execute

/-! ## Sizes and offsets -/

/-- The number of scales for a mask: `D_mask`. -/
def dMask (inputD : MemoryDesc) (mask : ℕ) : ℕ := volume inputD.dims (ilog2q (mask + 1)).toNat

/-- The sizes of weights, with one group and a height of one where the tensor has no such dimension. -/
structure Sizes where
  G : ℕ
  OC : ℕ
  IC : ℕ
  H : ℕ
  W : ℕ

def sizes (md : MemoryDesc) (wGroups is1d : Bool) : Sizes where
  G := if wGroups then md.dims 0 else 1
  OC := md.dims (wGroups.toNat + 0)
  IC := md.dims (wGroups.toNat + 1)
  H := if is1d then 1 else md.dims (wGroups.toNat + 2)
  W := md.dims (wGroups.toNat + 3 - is1d.toNat)

/-- The indices of a weight, or of a block of weights, in the dimensions that the tensor has. -/
def idxs (wGroups is1d : Bool) (g o i h w : ℕ) : List ℕ :=
  (if wGroups then [g] else []) ++ [o, i] ++ (if is1d then [] else [h]) ++ [w]

/-- `wei_blk_off` -/
def weiBlkOff (md : MemoryDesc) (wGroups is1d : Bool) (g o i h w : ℕ) : ℤ :=
  md.blkOff ((idxs wGroups is1d g o i h w).map fun x : ℕ => (x : ℤ))

/-- What all implementations check of the descriptors. -/
def isApplicableCommon (inputD outputD : MemoryDesc) (wGroups : Bool) (mask : ℕ) : Bool :=
  let oc := inputD.dims (if wGroups then 1 else 0)
  let g := if wGroups then inputD.dims 0 else 1
  outputD.extra.compensationConvS8s8 && (inputD.dataType = .f32 || inputD.dataType = .s8) &&
    outputD.dataType = .s8 && (dMask inputD mask = 1 || dMask inputD mask = g * oc)

/-! ## To `hwio` and `hwigo` -/

namespace Plain

def wGroups (tagO : FormatTag) : Bool := tagO = .decab

def isApplicable (tagO : FormatTag) (inputD outputD : MemoryDesc) (mask : ℕ) : Bool :=
  outputD.matchesTag tagO && isApplicableCommon inputD outputD (wGroups tagO) mask

variable {α F : Type*} (args : Args α F) (tagO : FormatTag) (inputD outputD : MemoryDesc) (mask : ℕ)

/-- The weights of one channel. -/
def stores (g oc : ℕ) : List Store :=
  let wg := wGroups tagO
  let n := sizes inputD wg false
  (List.range n.IC).flatMap fun ic =>
    (List.range n.H).flatMap fun h =>
      (List.range n.W).map fun w =>
        { dst := weiBlkOff outputD wg false g oc ic h w
          src := weiBlkOff inputD wg false g oc ic h w
          scale := if dMask inputD mask = 1 then 0 else g * n.OC + oc
          comp := g * n.OC + oc }

/-- The iteration of `parallel_nd` for one channel. -/
def channel (st : Output) (ch : ℕ × ℕ) : Option Output := do
  let c := ch.1 * (sizes inputD (wGroups tagO) false).OC + ch.2
  let st := { st with cp := Function.update st.cp c 0 }
  let st ← (stores tagO inputD outputD mask ch.1 ch.2).foldlM (args.store 1) st
  return { st with cp := Function.update st.cp c (toS32 (st.cp c * 128)) }

def execute (st : Output) : Option Output :=
  let n := sizes inputD (wGroups tagO) false
  ((List.range n.G).flatMap fun g => (List.range n.OC).map fun oc => (g, oc)).foldlM
    (channel args tagO inputD outputD mask) st

end Plain

/-! ## To blocks of input and output channels -/

namespace Blocked

def wGroups (tagO : FormatTag) : Bool := tagO ≠ .ABc4b16a4b ∧ tagO ≠ .ABcd4b16a4b

def is1d (tagO : FormatTag) : Bool := tagO = .aBCd4c16b4c ∨ tagO = .ABc4b16a4b

def blksize (tagO : FormatTag) : ℕ :=
  if tagO = .aBCde4b4c then 4 else if tagO = .aBCde2c8b4c then 8 else 16

/-- `AB_or_BC_blk_off` for the inner blocks `_4b4c`, `_2c8b4c`, and `_4b16a4b` or `_4c16b4c`. -/
def index (tagO : FormatTag) (x0 x1 : ℕ) : ℕ :=
  if tagO = .aBCde4b4c then 4 * x0 + x1
  else if tagO = .aBCde2c8b4c then x1 / 4 * 32 + x0 * 4 + x1 % 4
  else x1 / 4 * 64 + x0 * 4 + x1 % 4

def isApplicable (tagI tagO : FormatTag) (inputD outputD : MemoryDesc) (mask : ℕ) : Bool :=
  inputD.matchesTag tagI && outputD.matchesTag tagO && isApplicableCommon inputD outputD (wGroups tagO) mask

variable {α F : Type*} (args : Args α F) (tagO : FormatTag) (inputD outputD : MemoryDesc) (mask : ℕ)

/-- `NB_OC` -/
def nbOC : ℕ := outputD.paddedDims ((wGroups tagO).toNat + 0) / blksize tagO

/-- `NB_IC` -/
def nbIC : ℕ := outputD.paddedDims ((wGroups tagO).toNat + 1) / blksize tagO

/-- `ker` for the block with the given indices. -/
def ker (g O I h w : ℕ) : List Store :=
  let wg := wGroups tagO
  let n := sizes inputD wg (is1d tagO)
  let blk := blksize tagO
  let i := weiBlkOff inputD wg (is1d tagO) g (blk * O) (blk * I) h w
  let o := weiBlkOff outputD wg (is1d tagO) g O I h w
  let ocBlock := min blk (n.OC - O * blk)
  let icBlock := min blk (n.IC - I * blk)
  let offset := (g * nbOC tagO outputD + O) * blk
  (List.range icBlock).flatMap fun ic =>
    (List.range ocBlock).map fun oc : ℕ =>
      { dst := o + index tagO oc ic
        src := i + (oc * inputD.blocking.strides (wg.toNat + 0)
          + ic * inputD.blocking.strides (wg.toNat + 1))
        scale := (if dMask inputD mask = 1 then 0 else offset) + oc
        comp := offset + oc }

def stores : List Store :=
  let n := sizes inputD (wGroups tagO) (is1d tagO)
  (List.range n.G).flatMap fun g =>
    (List.range (nbOC tagO outputD)).flatMap fun O =>
      (List.range (nbIC tagO outputD)).flatMap fun I =>
        (List.range n.H).flatMap fun h =>
          (List.range n.W).flatMap fun w => ker tagO inputD outputD mask g O I h w

def execute (st : Output) : Option Output :=
  let n := sizes inputD (wGroups tagO) (is1d tagO)
  (stores tagO inputD outputD mask).foldlM (args.store 128)
    (st.zero (n.G * nbOC tagO outputD * blksize tagO))

end Blocked

/-! ## To blocks of groups -/

namespace Depthwise

def is1d (tagI : FormatTag) : Bool := tagI = .abcd

def isApplicable (tagI tagO : FormatTag) (inputD outputD : MemoryDesc) (mask : ℕ) : Bool :=
  inputD.matchesTag tagI && outputD.matchesTag tagO && isApplicableCommon inputD outputD true mask

variable {α F : Type*} (args : Args α F) (tagI : FormatTag) (inputD outputD : MemoryDesc) (mask : ℕ)

/-- `ker` for the block of groups with the given indices. -/
def ker (gb O I h w : ℕ) : List Store :=
  let n := sizes inputD true (is1d tagI)
  let inp := weiBlkOff inputD true (is1d tagI) (gb * 16) O I h w
  let out := weiBlkOff outputD true (is1d tagI) gb O I h w
  let gBlock := min (n.G - gb * 16) 16
  let offset := gb * 16 + O
  (List.range gBlock).map fun g : ℕ =>
    { dst := out + g
      src := inp + g * inputD.blocking.strides 0
      scale := (if dMask inputD mask = 1 then 0 else offset) + g * n.OC
      comp := offset + g * n.OC }

def stores : List Store :=
  let n := sizes inputD true (is1d tagI)
  (List.range (outputD.paddedDims 0 / 16)).flatMap fun gb =>
    (List.range n.OC).flatMap fun O =>
      (List.range n.IC).flatMap fun I =>
        (List.range n.H).flatMap fun h =>
          (List.range n.W).flatMap fun w => ker tagI inputD outputD mask gb O I h w

def execute (st : Output) : Option Output :=
  let n := sizes inputD true (is1d tagI)
  (stores tagI inputD outputD mask).foldlM (args.store 128)
    (st.zero (outputD.paddedDims 0 / 16 * n.OC * 16))

end Depthwise

/-! ## The implementations -/

/-- An implementation with its formats. -/
inductive Impl where
  | plain (tagO : FormatTag)
  | blocked (tagI tagO : FormatTag)
  | depthwise (tagI tagO : FormatTag)

/-- The implementations in `cpu_reorder_impl_list`, each of them for `f32` and `s8` inputs. -/
def implList : List Impl :=
  [.plain .cdba, .plain .decab,
   .blocked .abc .ABc4b16a4b, .blocked .abcd .aBCd4c16b4c,
   .blocked .cdba .ABcd4b16a4b, .blocked .abcd .ABcd4b16a4b,
   .blocked .abcde .aBCde4c16b4c, .blocked .decab .aBCde4c16b4c,
   .blocked .abcde .aBCde2c8b4c, .blocked .decab .aBCde2c8b4c,
   .blocked .abcde .aBCde4b4c, .blocked .decab .aBCde4b4c,
   .depthwise .abcd .Abcd16a, .depthwise .abcde .Abcde16a, .depthwise .decab .Abcde16a]

namespace Impl

def tagO : Impl → FormatTag
  | .plain tagO => tagO
  | .blocked _ tagO => tagO
  | .depthwise _ tagO => tagO

def wGroups : Impl → Bool
  | .plain tagO => Plain.wGroups tagO
  | .blocked _ tagO => Blocked.wGroups tagO
  | .depthwise _ _ => true

def is1d : Impl → Bool
  | .plain _ => false
  | .blocked _ tagO => Blocked.is1d tagO
  | .depthwise tagI _ => Depthwise.is1d tagI

def isApplicable : Impl → MemoryDesc → MemoryDesc → ℕ → Bool
  | .plain tagO => Plain.isApplicable tagO
  | .blocked tagI tagO => Blocked.isApplicable tagI tagO
  | .depthwise tagI tagO => Depthwise.isApplicable tagI tagO

/-- `execute`, with the scales as they are passed to the attributes and the adjustment of `extra`. -/
def execute {α F : Type*} (impl : Impl) (q : Quantizer α F) (inputD outputD : MemoryDesc) (mask : ℕ)
    (scales : List F) (scaleAdjust : F) (input : ℤ → α) (st : Output) : Option Output :=
  let args : Args α F := {
    q := q
    scales := scalesOf scales
    adjScale := if outputD.extra.scaleAdjust then scaleAdjust else q.one
    input := input }
  match impl with
  | .plain tagO => Plain.execute args tagO inputD outputD mask st
  | .blocked _ tagO => Blocked.execute args tagO inputD outputD mask st
  | .depthwise tagI _ => Depthwise.execute args tagI inputD outputD mask st

end Impl

end ConvS8s8

end MklDnn
