import MklDnn.Reorder.Proofs.CompensationProofs

/-!
# Proofs: when the reorders with compensation are right

A reorder treats the descriptors it is created for right, with any scales and any weights, if and only if
the channels of a group need no padding where the scales are read by channel, and the compensation fits
into `int32_t`.
-/

open LoopNest

namespace MklDnn.ConvS8s8

namespace Impl

/-- The sizes of the weights. -/
def sizes (impl : Impl) (inputD : MemoryDesc) : Sizes := ConvS8s8.sizes inputD impl.wGroups impl.is1d

/-- The descriptors for which an implementation is chosen: plain weights, and a whole tensor in the format
of the output, with elements. -/
structure Accepts (impl : Impl) (inputD outputD : MemoryDesc) (mask : ℕ) : Prop where
  mem : impl ∈ implList
  built : inputD.Built
  plain : inputD.blocking.inner = []
  whole : ∃ ndims dims md, memoryDescInitByTag ndims dims .s8 impl.tagO = .ok md ∧
    outputD = { md with extra := outputD.extra }
  consistent : inputD.consistentWith outputD = true
  applicable : impl.isApplicable inputD outputD mask = true
  dims_pos : ∀ d < inputD.ndims, 0 < inputD.dims d

/-- What an execution has to leave: every weight quantised with the scale of its channel, or with the
common one, and for every channel the compensation at its place behind the weights. -/
structure Correct {α F : Type*} (impl : Impl) (q : Quantizer α F) (inputD outputD : MemoryDesc) (mask : ℕ)
    (scales : List F) (adjScale : F) (input : ℤ → α) (out : Output) : Prop where
  weights : ∀ x, (impl.sizes inputD).Mem x →
    ∃ scale, scales[if dMask inputD mask = 1 then 0 else x.g * (impl.sizes inputD).OC + x.oc]? = some scale ∧
      out.weights (outputD.offV (x.pos impl.wGroups impl.is1d) false) =
        q.qzB0 (input (inputD.offV (x.pos impl.wGroups impl.is1d) false)) (q.mul scale adjScale)
  compensation : ∀ g < (impl.sizes inputD).G, ∀ oc < (impl.sizes inputD).OC,
    out.cp (g * outputD.paddedDims (impl.wGroups.toNat + 0) + oc) =
      -128 * (impl.sizes inputD).channelSum g oc fun x =>
        (out.weights (outputD.offV (x.pos impl.wGroups impl.is1d) false)).toInt

/-- The shapes and scales that an implementation treats right. -/
def Sound (impl : Impl) (inputD : MemoryDesc) (mask : ℕ) : Prop :=
  (impl.sizes inputD).IC * (impl.sizes inputD).H * (impl.sizes inputD).W < 2 ^ 17 ∧
    match impl with
    | .plain _ => True
    | .blocked _ tagO =>
      dMask inputD mask = 1 ∨ (impl.sizes inputD).G = 1 ∨ Blocked.blksize tagO ∣ (impl.sizes inputD).OC
    | .depthwise _ _ =>
      (impl.sizes inputD).OC = 1 ∨ (impl.sizes inputD).G ≤ 16 ∧
        (dMask inputD mask = 1 → ((impl.sizes inputD).G - 1) * (impl.sizes inputD).OC < 16)

end Impl

/-- Some weight is quantised to any value by a suitable scale. -/
def Quantizer.Covers {α F : Type*} (q : Quantizer α F) (adjScale : F) : Prop :=
  ∃ w : α, ∀ v : Int8, ∃ scale : F, q.qzB0 w (q.mul scale adjScale) = v

/-! ## Descriptors -/

section Accepts

variable {impl : Impl} {inputD outputD : MemoryDesc} {mask : ℕ}

theorem Impl.Accepts.formatKind (h : impl.Accepts inputD outputD mask) : outputD.formatKind = .blocked := by
  have hmatch : outputD.matchesTag impl.tagO = true := by
    have happ := h.applicable
    cases impl <;> simp only [Impl.isApplicable, Plain.isApplicable, Blocked.isApplicable, Depthwise.isApplicable,
      Bool.and_eq_true] at happ
    · exact happ.1
    · exact happ.1.2
    · exact happ.1.2
  have hkind : impl.tagO.kind = .blocked := by
    have hall : ∀ i ∈ implList, i.tagO.kind = .blocked := by decide
    exact hall impl h.mem
  unfold MemoryDesc.matchesTag at hmatch
  split_ifs at hmatch with hne
  rw [not_not] at hne
  rw [hne, hkind]

theorem Impl.Accepts.tagLayout (h : impl.Accepts inputD outputD mask) :
    ∃ args, blockingArgs impl.tagO = some args ∧ TagLayout outputD args := by
  obtain ⟨ndims, dims, md, hmd, hout⟩ := h.whole
  have hk : md.formatKind = .blocked := by
    have := h.formatKind
    rw [hout] at this
    exact this
  obtain ⟨args, hargs, hlay⟩ := memoryDescInitByTag_tagLayout hmd hk
  refine ⟨args, hargs, ?_⟩
  rw [hout]
  exact {
    ndims_pos := hlay.ndims_pos
    dataType := hlay.dataType
    length := hlay.length
    inner := hlay.inner
    valid := hlay.valid
    paddedDims := hlay.paddedDims
    paddedOffsets := hlay.paddedOffsets
    dense := fun hpos => by
      have hd := hlay.dense hpos
      exact ⟨hd.ndims_pos, hd.formatKind, hd.offset0, hd.inner, hd.dims_pos, hd.perm_range, hd.paddedDims,
        hd.paddedOffsets, hd.strides⟩ }

theorem Impl.Accepts.ndims_eq (h : impl.Accepts inputD outputD mask) : inputD.ndims = outputD.ndims := by
  have hcons := h.consistent
  simp only [MemoryDesc.consistentWith, decide_eq_true_eq] at hcons
  exact hcons.1

theorem Impl.Accepts.dims_eq (h : impl.Accepts inputD outputD mask) {d : ℕ} (hd : d < inputD.ndims) :
    inputD.dims d = outputD.dims d := by
  have hcons := h.consistent
  simp only [MemoryDesc.consistentWith, decide_eq_true_eq] at hcons
  exact hcons.2 d hd

theorem Impl.Accepts.dense (h : impl.Accepts inputD outputD mask) :
    ∃ args, blockingArgs impl.tagO = some args ∧ TagLayout outputD args ∧ Dense outputD args.perm := by
  obtain ⟨args, hargs, hlay⟩ := h.tagLayout
  refine ⟨args, hargs, hlay, hlay.dense fun d hd => ?_⟩
  rw [← h.ndims_eq] at hd
  rw [← h.dims_eq hd]
  exact h.dims_pos d hd

/-- The number of dimensions fits the format. -/
theorem Impl.Accepts.ndimsOf_eq (h : impl.Accepts inputD outputD mask) :
    outputD.ndims = ndimsOf impl.wGroups impl.is1d := by
  obtain ⟨args, hargs, hlay⟩ := h.tagLayout
  have hall : ∀ i ∈ implList, ∀ a, blockingArgs i.tagO = some a → a.perm.length = ndimsOf i.wGroups i.is1d := by
    intro i hi a ha
    simp only [implList, List.mem_cons, List.not_mem_nil, or_false] at hi
    rcases hi with rfl | rfl | rfl | rfl | rfl | rfl | rfl | rfl | rfl | rfl | rfl | rfl | rfl | rfl | rfl <;>
      cases ha <;> decide
  rw [← hlay.length]
  exact hall impl h.mem args hargs

theorem Impl.Accepts.outputWF (h : impl.Accepts inputD outputD mask) : outputD.WellFormed := by
  obtain ⟨args, hargs, hlay⟩ := h.tagLayout
  refine { valid := hlay.valid, dims_le := fun d hd => ?_, paddedOffsets := hlay.paddedOffsets }
  rw [hlay.paddedDims d hd]
  exact le_rndUp (hlay.valid.innerBlocks_pos d)

/-- Weights at different positions have different offsets in the output. -/
theorem Impl.Accepts.separates (h : impl.Accepts inputD outputD mask) :
    Separates outputD impl.wGroups impl.is1d (impl.sizes inputD) := by
  obtain ⟨args, hargs, hlay, hdense⟩ := h.dense
  intro x y hx hy he
  have hbox : ∀ z, (impl.sizes inputD).Mem z → z.pos impl.wGroups impl.is1d ∈ box outputD.paddedDims outputD.ndims := by
    intro z hz
    rw [mem_box]
    constructor
    · intro d hd
      have hlt := Weight.pos_lt hz (by rw [← h.ndimsOf_eq]; exact hd)
      have hdims := h.dims_eq (by rw [h.ndims_eq]; exact hd)
      exact hlt.trans_le (hdims ▸ hdense.dims_le hd)
    · intro d hd
      exact Weight.pos_of_ge (by rw [← h.ndimsOf_eq]; exact hd)
  rw [h.outputWF.offV_eq, h.outputWF.offV_eq] at he
  exact Weight.pos_injective hx hy (hdense.bijOn_offV.injOn (hbox x hx) (hbox y hy) he)

/-- The sizes of a tensor with elements. -/
theorem Impl.Accepts.sizes_pos (h : impl.Accepts inputD outputD mask) :
    0 < (impl.sizes inputD).G ∧ 0 < (impl.sizes inputD).OC ∧ 0 < (impl.sizes inputD).IC ∧
      0 < (impl.sizes inputD).H ∧ 0 < (impl.sizes inputD).W := by
  have hnd := h.ndimsOf_eq
  rw [← h.ndims_eq] at hnd
  have hpos := h.dims_pos
  rw [hnd] at hpos
  unfold Impl.sizes ConvS8s8.sizes
  generalize impl.wGroups = wGroups at hpos ⊢
  generalize impl.is1d = is1d at hpos ⊢
  cases wGroups <;> cases is1d <;> simp [ndimsOf] at hpos ⊢ <;> simp [hpos]

/-- The number of scales is one or the number of channels. -/
theorem Impl.Accepts.dMask_eq (h : impl.Accepts inputD outputD mask) :
    dMask inputD mask = 1 ∨ dMask inputD mask = (impl.sizes inputD).G * (impl.sizes inputD).OC := by
  have hcommon : isApplicableCommon inputD outputD impl.wGroups mask = true := by
    have happ := h.applicable
    cases impl <;> simp only [Impl.isApplicable, Plain.isApplicable, Blocked.isApplicable, Depthwise.isApplicable,
      Bool.and_eq_true] at happ <;> exact happ.2
  unfold isApplicableCommon at hcommon
  simp only [Bool.and_eq_true, Bool.or_eq_true, decide_eq_true_eq] at hcommon
  unfold Impl.sizes ConvS8s8.sizes
  rcases hcommon.2 with hone | hmany
  · exact .inl hone
  · refine .inr (hmany.trans ?_)
    cases impl.wGroups <;> rfl

/-! ### The layouts of the implementations -/

theorem Impl.Accepts.inputNdims (h : impl.Accepts inputD outputD mask) :
    inputD.ndims = ndimsOf impl.wGroups impl.is1d :=
  h.ndims_eq.trans h.ndimsOf_eq

/-- A dimension without inner blocks is not padded. -/
theorem Impl.Accepts.paddedDims_eq (h : impl.Accepts inputD outputD mask) {d : ℕ} (hd : d < inputD.ndims) :
    outputD.paddedDims d = rndUp (inputD.dims d) (innerBlocks outputD.blocking.inner d) := by
  obtain ⟨args, hargs, hlay⟩ := h.tagLayout
  rw [h.dims_eq hd]
  exact hlay.paddedDims d (h.ndims_eq ▸ hd)

theorem Plain.layouts {tagO : FormatTag} (h : (Impl.plain tagO).Accepts inputD outputD mask) :
    Plain.Layouts tagO inputD outputD ∧
      outputD.paddedDims ((Plain.wGroups tagO).toNat + 0) = (sizes inputD (Plain.wGroups tagO) false).OC := by
  obtain ⟨args, hargs, hlay⟩ := h.tagLayout
  have hinner : outputD.blocking.inner = [] := by
    rw [hlay.inner]
    have hmem := h.mem
    simp [implList] at hmem
    rcases hmem with rfl | rfl <;> cases hargs <;> rfl
  have hlt : (Plain.wGroups tagO).toNat + 0 < inputD.ndims := by
    rw [h.inputNdims]
    show _ < ndimsOf (Plain.wGroups tagO) false
    cases Plain.wGroups tagO <;> decide
  refine ⟨⟨h.built.wellFormed, h.plain, h.inputNdims, h.outputWF, hinner, h.ndimsOf_eq⟩, ?_⟩
  rw [h.paddedDims_eq hlt, hinner]
  show rndUp _ 1 = _
  rw [rndUp_eq, divUp_one, Nat.mul_one]
  rfl

theorem Blocked.layouts {tagI tagO : FormatTag} (h : (Impl.blocked tagI tagO).Accepts inputD outputD mask) :
    Blocked.Layouts tagO inputD outputD := by
  obtain ⟨args, hargs, hlay⟩ := h.tagLayout
  have hmem : tagO ∈ blockedTags := by
    have hmem := h.mem
    simp [implList] at hmem
    simp [blockedTags]
    tauto
  have hinner : InnerLayout outputD.blocking.inner (wGroups tagO) (blksize tagO) (index tagO) := by
    rw [hlay.inner]
    exact (innerLayout_of_mem hmem hargs).1
  have hndims : inputD.ndims = ndimsOf (wGroups tagO) (is1d tagO) := h.inputNdims
  have hlt : (wGroups tagO).toNat + 1 < inputD.ndims := by
    rw [hndims]
    cases wGroups tagO <;> cases is1d tagO <;> decide
  exact {
    inputWF := h.built.wellFormed
    plain := h.plain
    inputNdims := hndims
    outputWF := h.outputWF
    inner := hinner
    outputNdims := h.ndimsOf_eq
    paddedOC := by
      rw [h.paddedDims_eq (by omega), hinner.blocks_oc]
      rfl
    paddedIC := by
      rw [h.paddedDims_eq hlt, hinner.blocks_ic]
      rfl }

theorem Depthwise.layouts {tagI tagO : FormatTag} (h : (Impl.depthwise tagI tagO).Accepts inputD outputD mask) :
    Depthwise.Layouts tagI inputD outputD ∧
      outputD.paddedDims 1 = (sizes inputD true (is1d tagI)).OC := by
  obtain ⟨args, hargs, hlay⟩ := h.tagLayout
  have htag : tagO = .Abcd16a ∨ tagO = .Abcde16a := by
    have hmem := h.mem
    simp [implList] at hmem
    tauto
  have hinner : outputD.blocking.inner = [⟨0, 16⟩] := by
    rw [hlay.inner]
    exact (groupLayout htag hargs).1
  have hndims : inputD.ndims = ndimsOf true (is1d tagI) := h.inputNdims
  have hlt : 1 < inputD.ndims := by
    rw [hndims]
    cases is1d tagI <;> decide
  have hG : outputD.paddedDims 0 = rndUp (sizes inputD true (is1d tagI)).G 16 := by
    rw [h.paddedDims_eq (by omega), hinner]
    rfl
  refine ⟨⟨h.built.wellFormed, h.plain, hndims, h.outputWF, hinner, h.ndimsOf_eq, hG⟩, ?_⟩
  rw [h.paddedDims_eq hlt, hinner]
  show rndUp _ 1 = _
  rw [rndUp_eq, divUp_one, Nat.mul_one]
  rfl

end Accepts

/-! ## The indices of the scales and of the compensation -/

/-- The index of the scale that an implementation reads for a channel. -/
def Impl.scaleIdx (impl : Impl) (inputD outputD : MemoryDesc) (mask : ℕ) : ℕ → ℕ → ℕ :=
  match impl with
  | .plain _ => ConvS8s8.scaleIdx inputD mask (impl.sizes inputD).OC
  | .blocked _ tagO => Blocked.scaleIdx tagO inputD outputD mask
  | .depthwise _ _ => Depthwise.scaleIdx inputD mask (impl.sizes inputD).OC

section ScaleIdx

variable (inputD outputD : MemoryDesc) (mask g oc : ℕ) (tagI tagO : FormatTag)

theorem Impl.scaleIdx_plain : (Impl.plain tagO).scaleIdx inputD outputD mask g oc =
    if dMask inputD mask = 1 then 0 else g * ((Impl.plain tagO).sizes inputD).OC + oc := rfl

theorem Impl.scaleIdx_blocked : (Impl.blocked tagI tagO).scaleIdx inputD outputD mask g oc =
    if dMask inputD mask = 1 then oc % Blocked.blksize tagO
    else g * outputD.paddedDims ((Blocked.wGroups tagO).toNat + 0) + oc := rfl

theorem Impl.scaleIdx_depthwise : (Impl.depthwise tagI tagO).scaleIdx inputD outputD mask g oc =
    (if dMask inputD mask = 1 then 0 else g / 16 * 16 + oc) +
      g % 16 * ((Impl.depthwise tagI tagO).sizes inputD).OC := rfl

end ScaleIdx

/-- The index of the compensation that an implementation writes for a channel. -/
def Impl.compIdx (impl : Impl) (inputD outputD : MemoryDesc) : ℕ → ℕ → ℕ :=
  match impl with
  | .plain _ => ConvS8s8.compIdx (impl.sizes inputD).OC
  | .blocked _ tagO => Blocked.compIdx tagO outputD
  | .depthwise _ _ => Depthwise.compIdx (impl.sizes inputD).OC

section Execute

variable {α F : Type*} {impl : Impl} {q : Quantizer α F} {inputD outputD : MemoryDesc} {mask : ℕ}
  {scales : List F} {scaleAdjust : F} {input : ℤ → α} {st : Output}

/-- What the loops of an execution read. -/
def Impl.args (q : Quantizer α F) (outputD : MemoryDesc) (scales : List F) (scaleAdjust : F) (input : ℤ → α) :
    Args α F where
  q := q
  scales := scalesOf scales
  adjScale := if outputD.extra.scaleAdjust then scaleAdjust else q.one
  input := input

/-- Only a common scale is copied. -/
theorem scalesOf_of_length_ne (h : scales.length ≠ 1) : scalesOf scales = scales := by
  rcases scales with _ | ⟨s, _ | ⟨s', l⟩⟩
  · rfl
  · exact absurd rfl h
  · rfl

/-- The store of a weight by an implementation. -/
def Impl.storeAt (impl : Impl) (inputD outputD : MemoryDesc) (mask : ℕ) (x : Weight) : Store :=
  ConvS8s8.storeAt inputD outputD impl.wGroups impl.is1d (impl.scaleIdx inputD outputD mask)
    (impl.compIdx inputD outputD) x

/-- The weight that is stored if its scale exists. -/
theorem Impl.value_storeAt {x : Weight} {scale : F}
    (h : (scalesOf scales)[impl.scaleIdx inputD outputD mask x.g x.oc]? = some scale) :
    (Impl.args q outputD scales scaleAdjust input).value (impl.storeAt inputD outputD mask x) =
      some (q.qzB0 (input (inputD.offV (x.pos impl.wGroups impl.is1d) false))
        (q.mul scale (if outputD.extra.scaleAdjust then scaleAdjust else q.one))) := by
  unfold Args.value
  dsimp only [Impl.args, Impl.storeAt, ConvS8s8.storeAt]
  rw [h]
  rfl

theorem Impl.read_of_value {x : Weight} {o : Int8}
    (h : (Impl.args q outputD scales scaleAdjust input).value (impl.storeAt inputD outputD mask x) = some o) :
    ∃ scale, (scalesOf scales)[impl.scaleIdx inputD outputD mask x.g x.oc]? = some scale := by
  unfold Args.value at h
  dsimp only [Impl.args, Impl.storeAt, ConvS8s8.storeAt] at h
  obtain ⟨scale, hscale, -⟩ := Option.map_eq_some_iff.mp h
  exact ⟨scale, hscale⟩

/-- If all scales exist, then an execution ends. -/
theorem Impl.Accepts.outcome (h : impl.Accepts inputD outputD mask) {val : Weight → Int8}
    (hval : ∀ x, (impl.sizes inputD).Mem x →
      (Impl.args q outputD scales scaleAdjust input).value (impl.storeAt inputD outputD mask x) = some (val x))
    (st : Output) :
    ∃ out, impl.execute q inputD outputD mask scales scaleAdjust input st = some out ∧
      Outcome outputD impl.wGroups impl.is1d (impl.sizes inputD) (impl.compIdx inputD outputD) val out := by
  have hsep := h.separates
  cases impl with
  | plain tagO => exact Plain.outcome (Plain.layouts h).1 rfl hsep (Plain.layouts h).2 hval st
  | blocked tagI tagO => exact Blocked.outcome (Blocked.layouts h) rfl hsep hval st
  | depthwise tagI tagO => exact Depthwise.outcome (Depthwise.layouts h).1 rfl hsep (Depthwise.layouts h).2 hval st

/-- If a blocked reorder ends, then all scales exist. -/
theorem Blocked.value_of_execute {tagI tagO : FormatTag}
    (h : (Impl.blocked tagI tagO).Accepts inputD outputD mask) {out : Output}
    (hout : (Impl.blocked tagI tagO).execute q inputD outputD mask scales scaleAdjust input st = some out)
    {x : Weight} (hx : ((Impl.blocked tagI tagO).sizes inputD).Mem x) :
    ∃ o, (Impl.args q outputD scales scaleAdjust input).value
      ((Impl.blocked tagI tagO).storeAt inputD outputD mask x) = some o := by
  have hstores := Blocked.storesOf (Blocked.layouts h) mask
  exact value_of_foldlM hout _ ((hstores.mem _).mpr ⟨x, hx, rfl⟩)

/-- If an execution is right, then all scales exist. -/
theorem Impl.Accepts.value_of_correct (h : impl.Accepts inputD outputD mask) {adjScale : F} {out : Output}
    (hout : impl.execute q inputD outputD mask scales scaleAdjust input st = some out)
    (hcorrect : impl.Correct q inputD outputD mask scales adjScale input out)
    (hscales : scales.length = dMask inputD mask) :
    ∃ val : Weight → Int8, ∀ x, (impl.sizes inputD).Mem x →
      (Impl.args q outputD scales scaleAdjust input).value (impl.storeAt inputD outputD mask x) = some (val x) := by
  suffices hex : ∀ x, (impl.sizes inputD).Mem x → ∃ o,
      (Impl.args q outputD scales scaleAdjust input).value (impl.storeAt inputD outputD mask x) = some o by
    refine ⟨fun x => ((Impl.args q outputD scales scaleAdjust input).value
      (impl.storeAt inputD outputD mask x)).getD 0, fun x hx => ?_⟩
    obtain ⟨o, ho⟩ := hex x hx
    show _ = some (Option.getD _ 0)
    rw [ho, Option.getD_some]
  intro x hx
  cases impl with
  | plain tagO =>
    obtain ⟨scale, hscale, -⟩ := hcorrect.weights x hx
    obtain ⟨scale', hscale'⟩ : ∃ s, (scalesOf scales)[(if dMask inputD mask = 1 then 0
        else x.g * ((Impl.plain tagO).sizes inputD).OC + x.oc)]? = some s := by
      by_cases hone : dMask inputD mask = 1
      · obtain ⟨s, rfl⟩ := List.length_eq_one_iff.mp (hscales.trans hone)
        rw [if_pos hone]
        exact ⟨s, rfl⟩
      · rw [scalesOf_of_length_ne (hscales ▸ hone)]
        exact ⟨scale, hscale⟩
    rw [← Impl.scaleIdx_plain inputD outputD] at hscale'
    exact ⟨_, Impl.value_storeAt hscale'⟩
  | blocked tagI tagO => exact Blocked.value_of_execute h hout hx
  | depthwise tagI tagO =>
    have hstores := Depthwise.storesOf (Depthwise.layouts h).1 mask
    exact value_of_foldlM hout _ ((hstores.mem _).mpr ⟨x, hx, rfl⟩)

end Execute

end MklDnn.ConvS8s8
