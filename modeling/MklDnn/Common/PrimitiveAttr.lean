import Mathlib.Logic.Function.Basic
import MklDnn.Common.TypeHelpers

/-!
# Setters of attributes

`primitive_attr.cpp`: the functions that write attributes and lists of post-operations, as steps of a state that
holds any number of both. Whether `malloc` gives memory is an input of the functions that call it.
-/

namespace MklDnn.PrimitiveHashing

/-- `1.0f` -/
def F32.one : F32 := ⟨0x3f800000⟩

/-- `0.0f` -/
def F32.zero : F32 := ⟨0⟩

/-- The result of a function that returns a `status_t`. -/
abbrev Result := Except Status Unit

/-! ## Scales -/

/-- `scales_t()`, whose scales are in the buffer of the object. -/
def Scales.default : Scales := ⟨1, 0, some fun _ => F32.one⟩

/-- `scales_t::set`. A single scale fills the buffer of the object. -/
def Scales.set (count mask : ℤ) (scales : ℕ → F32) (allocated : Bool) : Scales × Result :=
  if count = 1 then (⟨count, mask, some fun _ => scales 0⟩, .ok ())
  else if allocated then (⟨count, mask, some scales⟩, .ok ())
  else (⟨count, mask, none⟩, .error .outOfMemory)

/-! ## Post-operations -/

namespace PostOps

def capacity : ℤ := 4

/-- `append_sum` -/
def appendSum (p : PostOps) (scale : F32) : PostOps × Result :=
  if p.len = capacity then (p, .error .outOfMemory)
  else
    let entry := { p.entry p.len.toNat with kind := .sum, sumScale := scale }
    (⟨p.len + 1, Function.update p.entry p.len.toNat entry⟩, .ok ())

/-- The algorithms that `append_eltwise` knows. -/
def knownAlg (alg : AlgKind) : Bool :=
  alg ∈ [.eltwiseRelu, .eltwiseTanh, .eltwiseElu, .eltwiseSquare, .eltwiseAbs, .eltwiseSqrt, .eltwiseLinear,
    .eltwiseBoundedRelu, .eltwiseSoftRelu, .eltwiseLogistic, .eltwiseExp, .eltwiseGelu, .eltwiseSwish]

/-- `append_eltwise` -/
def appendEltwise (p : PostOps) (scale : F32) (alg : AlgKind) (alpha beta : F32) : PostOps × Result :=
  if !knownAlg alg then (p, .error .invalidArguments)
  else if p.len = capacity then (p, .error .outOfMemory)
  else
    let entry := { p.entry p.len.toNat with
      kind := .eltwise, eltwiseScale := scale, eltwiseAlg := alg, eltwiseAlpha := alpha, eltwiseBeta := beta }
    (⟨p.len + 1, Function.update p.entry p.len.toNat entry⟩, .ok ())

end PostOps

/-! ## Parameters of recurrent networks -/

/-- `rnn_tparams_t()` -/
def RnnTparams.default : RnnTparams := ⟨false, none, 0, F32.zero⟩

/-- `rnn_tparams_t::set`. The mode and the number of gates are written before memory is asked for. -/
def RnnTparams.set (t : RnnTparams) (mode : Bool) (ngates : ℤ) (scales : Option (ℕ → F32)) (cscale : F32)
    (allocated : Bool) : RnnTparams × Result :=
  match scales with
  | none => (⟨mode, none, ngates, cscale⟩, .ok ())
  | some scales =>
    if allocated then (⟨mode, some scales, ngates, cscale⟩, .ok ())
    else (⟨mode, none, ngates, t.cscale⟩, .error .outOfMemory)

/-! ## Attributes -/

namespace PrimitiveAttr

/-- `dnnl_primitive_attr()`, with a list of post-operations that has no entry yet. -/
def default (entry : ℕ → PostOpsEntry) : PrimitiveAttr where
  scratchpadMode := .library
  outputScales := Scales.default
  postOps := ⟨0, entry⟩
  rnnDataQparamsScale := F32.one
  rnnDataQparamsShift := F32.zero
  rnnWeightsQparams := Scales.default
  rnnTparams := RnnTparams.default

variable (attr : PrimitiveAttr)

/-- `set_scratchpad_mode`, without a mode for a value that is not one. -/
def setScratchpadMode : Option ScratchpadMode → PrimitiveAttr × Result
  | none => (attr, .error .invalidArguments)
  | some mode => ({ attr with scratchpadMode := mode }, .ok ())

/-- `set_post_ops` -/
def setPostOps (postOps : PostOps) : PrimitiveAttr × Result := ({ attr with postOps }, .ok ())

/-- What the two setters of scales share: `put` writes the member that they set. -/
def setScales (put : Scales → PrimitiveAttr) (count mask : ℤ) (scales : Option (ℕ → F32)) (allocated : Bool) :
    PrimitiveAttr × Result :=
  match scales with
  | none => (attr, .error .invalidArguments)
  | some scales =>
    if count > 0 ∧ mask ≥ 0 then
      let r := Scales.set count mask scales allocated
      (put r.1, r.2)
    else (attr, .error .invalidArguments)

/-- `dnnl_primitive_attr_set_output_scales` -/
def setOutputScales (count mask : ℤ) (scales : Option (ℕ → F32)) (allocated : Bool) : PrimitiveAttr × Result :=
  attr.setScales (fun s => { attr with outputScales := s }) count mask scales allocated

/-- `dnnl_primitive_attr_set_rnn_data_qparams` -/
def setRnnDataQparams (scale shift : F32) : PrimitiveAttr × Result :=
  ({ attr with rnnDataQparamsScale := scale, rnnDataQparamsShift := shift }, .ok ())

/-- `dnnl_primitive_attr_set_rnn_weights_qparams` -/
def setRnnWeightsQparams (count mask : ℤ) (scales : Option (ℕ → F32)) (allocated : Bool) : PrimitiveAttr × Result :=
  attr.setScales (fun s => { attr with rnnWeightsQparams := s }) count mask scales allocated

/-- `dnnl_primitive_attr_set_rnn_tparams` -/
def setRnnTparams (mode : Bool) (ngates : ℤ) (scales : Option (ℕ → F32)) (cscale : F32) (allocated : Bool) :
    PrimitiveAttr × Result :=
  let r := attr.rnnTparams.set mode ngates scales cscale allocated
  ({ attr with rnnTparams := r.1 }, r.2)

end PrimitiveAttr

/-! ## Comparison -/

/-- The members that `operator==` of `rnn_tparams_t` compares before the scales. -/
def RnnTparams.agree (lhs rhs : RnnTparams) : Bool :=
  lhs.testMode == rhs.testMode && lhs.ngates == rhs.ngates && lhs.cscale == rhs.cscale

/-- `operator==` of `rnn_tparams_t`, without a result where it reads the scales of `rhs` through a null pointer. -/
def RnnTparams.eq? (lhs rhs : RnnTparams) : Option Bool :=
  if lhs.agree rhs then
    match lhs.scales, rhs.scales with
    | none, _ => some true
    | some a, some b => some (arrayCmp a b lhs.ngates)
    | some _, none => if lhs.ngates > 0 then none else some true
  else some false

/-- The members that `operator==` of `primitive_attr_t` compares before the last one. -/
def PrimitiveAttr.agree (lhs rhs : PrimitiveAttr) : Bool :=
  lhs.scratchpadMode == rhs.scratchpadMode
    && lhs.outputScales.eq rhs.outputScales
    && (lhs.postOps.len == rhs.postOps.len
      && arrayCmp lhs.postOps.entry rhs.postOps.entry lhs.postOps.len)
    && (lhs.rnnDataQparamsScale == rhs.rnnDataQparamsScale
      && lhs.rnnDataQparamsShift == rhs.rnnDataQparamsShift)
    && lhs.rnnWeightsQparams.eq rhs.rnnWeightsQparams

/-- `operator==` of `primitive_attr_t`, where it has a result. -/
def PrimitiveAttr.eq? (lhs rhs : PrimitiveAttr) : Option Bool :=
  if lhs.agree rhs then lhs.rnnTparams.eq? rhs.rnnTparams else some false

/-! ## Calls -/

/-- The attributes and the lists of post-operations of a program, by their handles. -/
structure AttrState where
  attr : ℕ → PrimitiveAttr
  postOps : ℕ → PostOps

/-- A call of a setter. A null pointer is a missing argument. -/
inductive AttrCall where
  | setScratchpadMode (attr : Option ℕ) (mode : Option ScratchpadMode)
  | setOutputScales (attr : Option ℕ) (count mask : ℤ) (scales : Option (ℕ → F32)) (allocated : Bool)
  | setPostOps (attr postOps : Option ℕ)
  | setRnnDataQparams (attr : Option ℕ) (scale shift : F32)
  | setRnnWeightsQparams (attr : Option ℕ) (count mask : ℤ) (scales : Option (ℕ → F32)) (allocated : Bool)
  | setRnnTparams (attr : Option ℕ) (mode : Bool) (ngates : ℤ) (scales : Option (ℕ → F32)) (cscale : F32)
      (allocated : Bool)
  | appendSum (postOps : Option ℕ) (scale : F32)
  | appendEltwise (postOps : Option ℕ) (scale : F32) (alg : AlgKind) (alpha beta : F32)

namespace AttrState

variable (st : AttrState)

/-- A function of the interface on an attribute, which refuses a null pointer. -/
def onAttr (attr : Option ℕ) (f : PrimitiveAttr → PrimitiveAttr × Result) : AttrState × Result :=
  match attr with
  | none => (st, .error .invalidArguments)
  | some i => ({ st with attr := Function.update st.attr i (f (st.attr i)).1 }, (f (st.attr i)).2)

/-- A function of the interface on a list of post-operations, which refuses a null pointer. -/
def onPostOps (postOps : Option ℕ) (f : PostOps → PostOps × Result) : AttrState × Result :=
  match postOps with
  | none => (st, .error .invalidArguments)
  | some i => ({ st with postOps := Function.update st.postOps i (f (st.postOps i)).1 }, (f (st.postOps i)).2)

def step : AttrCall → AttrState × Result
  | .setScratchpadMode attr mode => st.onAttr attr (·.setScratchpadMode mode)
  | .setOutputScales attr count mask scales allocated => st.onAttr attr (·.setOutputScales count mask scales allocated)
  | .setPostOps _ none => (st, .error .invalidArguments)
  | .setPostOps attr (some i) => st.onAttr attr (·.setPostOps (st.postOps i))
  | .setRnnDataQparams attr scale shift => st.onAttr attr (·.setRnnDataQparams scale shift)
  | .setRnnWeightsQparams attr count mask scales allocated =>
    st.onAttr attr (·.setRnnWeightsQparams count mask scales allocated)
  | .setRnnTparams attr mode ngates scales cscale allocated =>
    st.onAttr attr (·.setRnnTparams mode ngates scales cscale allocated)
  | .appendSum postOps scale => st.onPostOps postOps (·.appendSum scale)
  | .appendEltwise postOps scale alg alpha beta => st.onPostOps postOps (·.appendEltwise scale alg alpha beta)

def run : AttrState → List AttrCall → AttrState
  | st, [] => st
  | st, call :: calls => run (st.step call).1 calls

/-- The objects after their creation, with entries that nobody has written. -/
def created (entry : ℕ → PostOpsEntry) : AttrState := ⟨fun _ => .default entry, fun _ => ⟨0, entry⟩⟩

/-- The attributes that the setters make. -/
def Reachable (attr : PrimitiveAttr) : Prop := ∃ entry calls i, ((created entry).run calls).attr i = attr

/-- Every call of a sequence has the property, in the state in which it is made. -/
def Along (P : AttrState → AttrCall → Prop) : AttrState → List AttrCall → Prop
  | _, [] => True
  | st, call :: calls => P st call ∧ Along P (st.step call).1 calls

/-- A call that does not return `success` leaves every object as it was. -/
def Atomic (call : AttrCall) : Prop := (st.step call).2 ≠ .ok () → (st.step call).1 = st

end AttrState

end MklDnn.PrimitiveHashing
