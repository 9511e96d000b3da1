import MklDnn.Common.TypeHelpers
import MklDnn.Lib.Writes
import MklDnn.Memory.Desc
import MklDnn.Memory.Offset

/-!
# Shuffle

`shuffle_desc_init` and `ref_shuffle_t`: one table of indices, the transposition of a matrix, serves both directions. An
execution is the list of its moves: the offset in the output and the offset in the input.
-/

open LoopNest

namespace MklDnn

open PrimitiveHashing

/-- `shuffle_desc_t` -/
structure ShuffleDesc where
  propKind : PropKind
  dataDesc : MemoryDesc
  axis : ℕ
  groupSize : ℕ

/-- `shuffle_desc_init` -/
def shuffleDescInit (propKind : PropKind) (dataDesc : MemoryDesc) (axis groupSize : ℤ) : Except Status ShuffleDesc :=
  if ¬ (propKind ∈ [.forwardTraining, .forwardInference, .backward, .backwardData] ∧ 0 ≤ axis ∧ axis < dataDesc.ndims ∧
      0 < groupSize ∧ groupSize ≤ dataDesc.dims axis.toNat) then .error .invalidArguments
  else if (dataDesc.dims axis.toNat : ℤ) % groupSize ≠ 0 then .error .invalidArguments
  else .ok ⟨propKind, dataDesc, axis.toNat, groupSize.toNat⟩

namespace ShuffleDesc

variable (sd : ShuffleDesc)

/-! ## `shuffle_pd_t` -/

def MB : ℕ := sd.dataDesc.dims 0

def C : ℕ := if 2 ≤ sd.dataDesc.ndims then sd.dataDesc.dims 1 else 1

def D : ℕ := if 5 ≤ sd.dataDesc.ndims then sd.dataDesc.dims (sd.dataDesc.ndims - 3) else 1

def H : ℕ := if 4 ≤ sd.dataDesc.ndims then sd.dataDesc.dims (sd.dataDesc.ndims - 2) else 1

def W : ℕ := if 3 ≤ sd.dataDesc.ndims then sd.dataDesc.dims (sd.dataDesc.ndims - 1) else 1

def axisSize : ℕ := sd.dataDesc.dims sd.axis

def isFwd : Bool := sd.propKind ∈ [.forwardTraining, .forwardInference]

/-! ## `ref_shuffle_t` -/

/-- `dat_tag_` -/
def datTag : FormatTag :=
  if sd.dataDesc.ndims = 5 then sd.dataDesc.matchesOneOfTag [.aBcde16b, .aBcde8b, .abcde, .acdeb]
  else if sd.dataDesc.ndims = 4 then sd.dataDesc.matchesOneOfTag [.aBcd16b, .aBcd8b, .abcd, .acdb]
  else .any

def transposeRow : ℕ := if sd.isFwd then sd.groupSize else sd.axisSize / sd.groupSize

def transposeCol : ℕ := if sd.isFwd then sd.axisSize / sd.groupSize else sd.groupSize

/-- `rev_transposed_`, which the constructor fills. -/
def revTransposed : ℕ → ℕ :=
  applyWrites ((List.range sd.transposeCol).flatMap fun i => (List.range sd.transposeRow).map fun j =>
    (j * sd.transposeCol + i, i * sd.transposeRow + j)) fun _ => 0

/-- `SP` -/
def SP : ℕ := if sd.dataDesc.ndims ∈ [3, 4, 5] then sd.D * (sd.H * sd.W) else 1

/-- `blksize` -/
def blksize (tag : FormatTag) : ℕ :=
  if tag ∈ [.aBcd16b, .aBcde16b] then 16 else if tag ∈ [.aBcd8b, .aBcde8b] then 8 else 4

/-- The branch of `execute_` for any layout. -/
def executeAny : List (ℤ × ℤ) :=
  let dims := sd.dataDesc.dims
  let outerSize := ∏ d ∈ Finset.range sd.axis, dims d
  let innerSize := ∏ d ∈ Finset.Ico (sd.axis + 1) sd.dataDesc.ndims, dims d
  let dim := sd.axisSize * innerSize
  (List.range outerSize).flatMap fun ou => (List.range sd.axisSize).flatMap fun a => (List.range innerSize).map fun i =>
    let off := ou * dim + i
    (sd.dataDesc.offL (off + a * innerSize) false, sd.dataDesc.offL (off + sd.revTransposed a * innerSize) false)

/-- The branch for blocked channels. -/
def executeBlocked (blksize : ℕ) : List (ℤ × ℤ) :=
  (List.range sd.MB).flatMap fun mb : ℕ => (List.range (divUp sd.C blksize)).flatMap fun c => (List.range sd.SP).flatMap fun sp =>
    let off : ℤ := mb * sd.dataDesc.blocking.strides 0 + (sp * blksize : ℕ)
    let cb := c * blksize
    let outputOff := off + (cb * sd.SP : ℕ)
    (List.range (min blksize (sd.C - cb))).map fun cc : ℕ =>
      let inputC := sd.revTransposed (cb + cc)
      let inputOff := off + (inputC / blksize * sd.SP * blksize : ℕ) + (inputC % blksize : ℕ)
      (outputOff + cc, inputOff)

/-- The branch for channels last. -/
def executeLast : List (ℤ × ℤ) :=
  (List.range sd.MB).flatMap fun mb : ℕ => (List.range sd.SP).flatMap fun sp =>
    let off : ℤ := mb * sd.dataDesc.blocking.strides 0 + (sp * sd.C : ℕ)
    (List.range sd.C).map fun c : ℕ => (off + c, off + sd.revTransposed c)

/-- The branch for plain channels. -/
def executePlain : List (ℤ × ℤ) :=
  (List.range sd.MB).flatMap fun mb : ℕ => (List.range sd.C).flatMap fun c =>
    let outputOff : ℤ := mb * sd.dataDesc.blocking.strides 0 + (c * sd.SP : ℕ)
    let inputOff : ℤ := mb * sd.dataDesc.blocking.strides 0 + (sd.revTransposed c * sd.SP : ℕ)
    (List.range sd.SP).map fun sp : ℕ => (outputOff + sp, inputOff + sp)

/-- `execute_` -/
def execute : List (ℤ × ℤ) :=
  let tag := sd.datTag
  if sd.axis = 1 ∧ tag ∈ [.aBcd16b, .aBcd8b, .aBcd4b, .aBcde16b, .aBcde8b, .aBcde4b] then sd.executeBlocked (blksize tag)
  else if sd.axis = 1 ∧ tag ∈ [.acdb, .acdeb] then sd.executeLast
  else if sd.axis = 1 ∧ tag ∈ [.abcd, .abcde] then sd.executePlain
  else sd.executeAny

/-- What an execution leaves in the output. -/
def run {V : Type*} (input output : ℤ → V) : ℤ → V :=
  applyWrites (sd.execute.map fun move => (move.1, input move.2)) output

end ShuffleDesc

end MklDnn
