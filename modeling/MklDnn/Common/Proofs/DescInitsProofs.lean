import MklDnn.Common.DescInits
import MklDnn.Common.Proofs.PrimitiveHashingProofs
import MklDnn.Lib.Checks

/-!
# Proofs: initialisation of descriptors with gradients

What the four backward functions compare of the descriptors of the data and of the gradient. Only LRN compares all of it:
the others leave out the numbers of dimensions, or compare nothing.
-/

open Checks

namespace MklDnn.OpDescInit

open PrimitiveHashing (PropKind arrayCmp arrayCmp_iff)

variable {propKind : PropKind} {data diff : PrimitiveHashing.MemoryDesc}

/-! ## Shapes -/

/-- The descriptors have the same dimensions. -/
structure SameShape (data diff : PrimitiveHashing.MemoryDesc) : Prop where
  ndims : diff.ndims = data.ndims
  dims : ∀ d : ℕ, (d : ℤ) < data.ndims → diff.dims d = data.dims d

/-- The gradient has another number of dimensions, and those that it has are dimensions of the data. -/
structure OtherRank (data diff : PrimitiveHashing.MemoryDesc) : Prop where
  ndims : diff.ndims ≠ data.ndims
  dims : ∀ d : ℕ, (d : ℤ) < diff.ndims → diff.dims d = data.dims d

/-- The descriptors that were passed are there, were recorded, and have the same dimensions. -/
structure Valid (dataArg diffArg : Option PrimitiveHashing.MemoryDesc) (data diff : PrimitiveHashing.MemoryDesc) : Prop where
  dataArg : dataArg = some data
  diffArg : diffArg = some diff
  shape : SameShape data diff

theorem arrayCmp_dims {n : ℤ} :
    arrayCmp diff.dims data.dims n = true ↔ ∀ d : ℕ, (d : ℤ) < n → diff.dims d = data.dims d := by
  rw [arrayCmp_iff]
  simp only [beq_iff_eq]

/-- A comparison of the dimensions of the gradient leaves the number of dimensions open. -/
theorem sameShape_iff_not_otherRank (hcmp : arrayCmp diff.dims data.dims diff.ndims = true) :
    SameShape data diff ↔ ¬ OtherRank data diff := by
  have hdims := arrayCmp_dims.mp hcmp
  constructor
  · exact fun h hother => hother.ndims h.ndims
  · intro h
    have hndims : diff.ndims = data.ndims := by_contra fun hne => h ⟨hne, hdims⟩
    exact ⟨hndims, hndims ▸ hdims⟩

/-! ## Checks -/

theorem check_eq_ok {b : Bool} {u : Unit} : check b = .ok u ↔ b = true := by
  cases b with
  | false => simp [check]
  | true => simp [check]

theorem deref_eq_ok {md : Option PrimitiveHashing.MemoryDesc} : deref md = .ok data ↔ md = some data := by
  cases md with
  | none => simp [deref]
  | some md => simp [deref]

/-- A function that accepts some pairs of descriptors gives valid ones if those that it accepts have the same dimensions. -/
theorem valid_iff {α : Type} {init : Except Stop α} {dataArg diffArg : Option PrimitiveHashing.MemoryDesc}
    {dataOf diffOf : α → PrimitiveHashing.MemoryDesc} {Accepted : PrimitiveHashing.MemoryDesc → PrimitiveHashing.MemoryDesc → Prop}
    (h : ∀ data diff, (∃ desc, init = .ok desc ∧ dataOf desc = data ∧ diffOf desc = diff) ↔
      dataArg = some data ∧ diffArg = some diff ∧ Accepted data diff) :
    (∀ desc, init = .ok desc → Valid dataArg diffArg (dataOf desc) (diffOf desc)) ↔
      ∀ data diff, dataArg = some data → diffArg = some diff → Accepted data diff → SameShape data diff := by
  constructor
  · intro hvalid data diff hdata hdiff haccepted
    obtain ⟨desc, hinit, rfl, rfl⟩ := (h data diff).mpr ⟨hdata, hdiff, haccepted⟩
    exact (hvalid desc hinit).shape
  · intro hshape desc hinit
    obtain ⟨hdata, hdiff, haccepted⟩ := (h _ _).mp ⟨desc, hinit, rfl, rfl⟩
    exact ⟨hdata, hdiff, hshape _ _ hdata hdiff haccepted⟩

/-! ## What is accepted -/

/-- The pairs that `dnnl_batch_normalization_backward_desc_init` accepts. -/
structure BnrmArgs.Accepts (propKind : PropKind) (args : BnrmArgs) (data diff : PrimitiveHashing.MemoryDesc) : Prop where
  argsOk : args.argsOk propKind = true
  flagsOk : args.flagsOk = true
  dataNdims : bnrmNdims data = true
  kind : propKind = .backward ∨
    propKind = .backwardData ∧ bnrmNdims diff = true ∧ arrayCmp diff.dims data.dims diff.ndims = true

theorem bnrmBackward_accepts (args : BnrmArgs) (data diff : PrimitiveHashing.MemoryDesc) :
    (∃ bd, batchNormalizationBackwardDescInit propKind args = .ok bd ∧ bd.dataDesc = data ∧ bd.diffDataDesc = diff) ↔
      args.dataDesc = some data ∧ args.diffDataDesc = some diff ∧ args.Accepts propKind data diff := by
  simp only [batchNormalizationBackwardDescInit, bnrmDescInit, bind_eq_ok, check_eq_ok, deref_eq_ok, exists_const]
  constructor
  · rintro ⟨bd, ⟨hkind, hargs, data', hdata, diff', hdiff, hflags, hcons, hbd⟩, rfl, rfl⟩
    obtain rfl := Except.ok.inj hbd
    have hkinds : propKind = .backward ∨ propKind = .backwardData := by simpa using hkind
    rcases hkinds with rfl | rfl
    · exact ⟨hdata, deref_eq_ok.mp hdiff, hargs, hflags, hcons, Or.inl rfl⟩
    · simp only [if_pos, Bool.and_eq_true] at hcons
      exact ⟨hdata, deref_eq_ok.mp hdiff, hargs, hflags, hcons.1.1, Or.inr ⟨rfl, hcons.1.2, hcons.2⟩⟩
  · rintro ⟨hdata, hdiff, haccepts⟩
    obtain ⟨hargs, hflags, hndims, hkind⟩ := haccepts
    refine ⟨_, ⟨?_, hargs, data, hdata, diff, ?_, hflags, ?_, rfl⟩, rfl, rfl⟩
    · rcases hkind with rfl | ⟨rfl, -⟩ <;> rfl
    · rcases hkind with rfl | ⟨rfl, -⟩ <;> exact deref_eq_ok.mpr hdiff
    · rcases hkind with rfl | ⟨rfl, hdiffNdims, hcmp⟩
      · exact hndims
      · simp [hndims, hdiffNdims, hcmp]

/-- LRN is for four dimensions. -/
theorem lrnDescInit_ndims {args : LrnArgs} {ld : PrimitiveHashing.LrnDesc} (h : lrnDescInit propKind args = .ok ld) :
    ∃ data, args.dataDesc = some data ∧ data.ndims = 4 := by
  simp only [lrnDescInit, bind_eq_ok, check_eq_ok, deref_eq_ok, exists_const] at h
  obtain ⟨-, data, hdata, diff, -, hcons, -⟩ := h
  refine ⟨data, hdata, ?_⟩
  split_ifs at hcons
  · simp only [Bool.and_eq_true, decide_eq_true_eq] at hcons
    exact hcons.1.1
  · exact of_decide_eq_true hcons

theorem lrnBackward_accepts (args : LrnArgs) (data diff : PrimitiveHashing.MemoryDesc) :
    (∃ ld, lrnBackwardDescInit args = .ok ld ∧ ld.dataDesc = data ∧ ld.diffDataDesc = diff) ↔
      args.dataDesc = some data ∧ args.diffDataDesc = some diff ∧ args.argsOk .backwardData = true ∧ data.ndims = 4 ∧
        diff.ndims = 4 ∧ arrayCmp diff.dims data.dims 4 = true := by
  simp only [lrnBackwardDescInit, lrnDescInit, bind_eq_ok, check_eq_ok, deref_eq_ok, exists_const, if_pos, Bool.and_eq_true,
    decide_eq_true_eq]
  constructor
  · rintro ⟨ld, ⟨hargs, data', hdata, diff', hdiff, ⟨⟨hndims, hdiffNdims⟩, hcmp⟩, hld⟩, rfl, rfl⟩
    obtain rfl := Except.ok.inj hld
    exact ⟨hdata, deref_eq_ok.mp hdiff, hargs, hndims, hdiffNdims, hcmp⟩
  · rintro ⟨hdata, hdiff, hargs, hndims, hdiffNdims, hcmp⟩
    exact ⟨_, ⟨hargs, data, hdata, diff, deref_eq_ok.mpr hdiff, ⟨⟨hndims, hdiffNdims⟩, hcmp⟩, rfl⟩, rfl, rfl⟩

theorem eltwiseBackward_accepts (args : EltwiseArgs) (data diff : PrimitiveHashing.MemoryDesc) :
    (∃ ed, eltwiseBackwardDescInit args = .ok ed ∧ ed.dataDesc = data ∧ ed.diffDataDesc = diff) ↔
      args.dataDesc = some data ∧ args.diffDataDesc = some diff ∧ args.argsOk .backwardData = true ∧
        arrayCmp diff.dims data.dims diff.ndims = true := by
  simp only [eltwiseBackwardDescInit, eltwiseDescInit, bind_eq_ok, check_eq_ok, deref_eq_ok, exists_const, decide_true,
    Bool.not_true, Bool.false_or]
  constructor
  · rintro ⟨ed, ⟨hargs, data', hdata, diff', hdiff, hcmp, hed⟩, rfl, rfl⟩
    obtain rfl := Except.ok.inj hed
    exact ⟨hdata, deref_eq_ok.mp hdiff, hargs, hcmp⟩
  · rintro ⟨hdata, hdiff, hargs, hcmp⟩
    exact ⟨_, ⟨hargs, data, hdata, diff, deref_eq_ok.mpr hdiff, hcmp, rfl⟩, rfl, rfl⟩

theorem softmaxBackward_accepts (args : SoftmaxArgs) (data diff : PrimitiveHashing.MemoryDesc) :
    (∃ sd, softmaxBackwardDescInit args = .ok sd ∧ sd.dataDesc = data ∧ sd.diffDesc = diff) ↔
      args.dataDesc = some data ∧ args.diffDesc = some diff ∧ args.argsOk = true := by
  simp only [softmaxBackwardDescInit, softmaxDescInit, bind_eq_ok, check_eq_ok, deref_eq_ok, exists_const]
  constructor
  · rintro ⟨sd, ⟨hargs, data', hdata, diff', hdiff, hsd⟩, rfl, rfl⟩
    obtain rfl := Except.ok.inj hsd
    exact ⟨hdata, deref_eq_ok.mp hdiff, hargs⟩
  · rintro ⟨hdata, hdiff, hargs⟩
    exact ⟨_, ⟨hargs, data, hdata, diff, deref_eq_ok.mpr hdiff, rfl⟩, rfl, rfl⟩

/-! ## Arguments that differ in what is not compared -/

/-- The kind `backward` compares nothing, the kind `backward_data` no numbers of dimensions. -/
def BnrmArgs.Unchecked (propKind : PropKind) (args : BnrmArgs) : Prop :=
  args.argsOk propKind = true ∧ args.flagsOk = true ∧ ∃ data diff, args.dataDesc = some data ∧
    args.diffDataDesc = some diff ∧ bnrmNdims data = true ∧
    (propKind = .backward ∧ ¬ SameShape data diff ∨
      propKind = .backwardData ∧ bnrmNdims diff = true ∧ OtherRank data diff)

/-- No numbers of dimensions are compared. -/
def EltwiseArgs.Unchecked (args : EltwiseArgs) : Prop :=
  args.argsOk .backwardData = true ∧ ∃ data diff, args.dataDesc = some data ∧ args.diffDataDesc = some diff ∧
    OtherRank data diff

/-- Nothing is compared. -/
def SoftmaxArgs.Unchecked (args : SoftmaxArgs) : Prop :=
  args.argsOk = true ∧ ∃ data diff, args.dataDesc = some data ∧ args.diffDesc = some diff ∧ ¬ SameShape data diff

theorem bnrmBackward_valid_iff (args : BnrmArgs) :
    (∀ bd, batchNormalizationBackwardDescInit propKind args = .ok bd →
      Valid args.dataDesc args.diffDataDesc bd.dataDesc bd.diffDataDesc) ↔ ¬ args.Unchecked propKind := by
  rw [valid_iff (bnrmBackward_accepts args)]
  constructor
  · rintro hshape ⟨hargs, hflags, data, diff, hdata, hdiff, hndims, hkind⟩
    rcases hkind with ⟨hbwd, hne⟩ | ⟨hbwd, hdiffNdims, hother⟩
    · exact hne (hshape data diff hdata hdiff ⟨hargs, hflags, hndims, Or.inl hbwd⟩)
    · have hcmp := arrayCmp_dims.mpr hother.dims
      have hsame := hshape data diff hdata hdiff ⟨hargs, hflags, hndims, Or.inr ⟨hbwd, hdiffNdims, hcmp⟩⟩
      exact hother.ndims hsame.ndims
  · intro h data diff hdata hdiff haccepts
    obtain ⟨hargs, hflags, hndims, hkind⟩ := haccepts
    rcases hkind with hbwd | ⟨hbwd, hdiffNdims, hcmp⟩
    · exact by_contra fun hne => h ⟨hargs, hflags, data, diff, hdata, hdiff, hndims, Or.inl ⟨hbwd, hne⟩⟩
    · refine (sameShape_iff_not_otherRank hcmp).mpr fun hother => ?_
      exact h ⟨hargs, hflags, data, diff, hdata, hdiff, hndims, Or.inr ⟨hbwd, hdiffNdims, hother⟩⟩

/-- LRN requires four dimensions of both descriptors and compares them. -/
theorem lrnBackward_valid (args : LrnArgs) : ∀ ld, lrnBackwardDescInit args = .ok ld →
    Valid args.dataDesc args.diffDataDesc ld.dataDesc ld.diffDataDesc := by
  rw [valid_iff (lrnBackward_accepts args)]
  rintro data diff - - ⟨-, hndims, hdiffNdims, hcmp⟩
  exact ⟨hdiffNdims.trans hndims.symm, fun d hd => arrayCmp_dims.mp hcmp d (hndims ▸ hd)⟩

theorem eltwiseBackward_valid_iff (args : EltwiseArgs) : (∀ ed, eltwiseBackwardDescInit args = .ok ed →
    Valid args.dataDesc args.diffDataDesc ed.dataDesc ed.diffDataDesc) ↔ ¬ args.Unchecked := by
  rw [valid_iff (eltwiseBackward_accepts args)]
  constructor
  · rintro hshape ⟨hargs, data, diff, hdata, hdiff, hother⟩
    exact hother.ndims (hshape data diff hdata hdiff ⟨hargs, arrayCmp_dims.mpr hother.dims⟩).ndims
  · rintro h data diff hdata hdiff ⟨hargs, hcmp⟩
    exact (sameShape_iff_not_otherRank hcmp).mpr fun hother => h ⟨hargs, data, diff, hdata, hdiff, hother⟩

theorem softmaxBackward_valid_iff (args : SoftmaxArgs) : (∀ sd, softmaxBackwardDescInit args = .ok sd →
    Valid args.dataDesc args.diffDesc sd.dataDesc sd.diffDesc) ↔ ¬ args.Unchecked := by
  rw [valid_iff (softmaxBackward_accepts args)]
  constructor
  · rintro hshape ⟨hargs, data, diff, hdata, hdiff, hne⟩
    exact hne (hshape data diff hdata hdiff hargs)
  · exact fun h data diff hdata hdiff hargs => by_contra fun hne => h ⟨hargs, data, diff, hdata, hdiff, hne⟩

/-- A descriptor with two dimensions in any format. -/
def matrixDesc (rows cols : ℤ) : PrimitiveHashing.MemoryDesc :=
  { PrimitiveHashing.zeroMd with
    ndims := 2
    dims := fun d => if d = 0 then rows else if d = 1 then cols else 0
    dataType := .f32
    formatKind := .any }

def bnrmArgs : BnrmArgs where
  hasDesc := true
  dataDesc := some (matrixDesc 4 8)
  diffDataDesc := some (matrixDesc 2 8)
  epsilon := ⟨0⟩
  flags := 0

end MklDnn.OpDescInit
