import MklDnn.Lib.Checks
import MklDnn.Rnn.RnnDesc

/-!
# Proofs: RNN descriptors

The numbers that the checks read are 32-bit, the dimensions they are compared with are not. A check that passes relates
the dimensions themselves, unless a product of two numbers does not fit.
-/

open Checks

namespace MklDnn.Rnn

open DescInit (toInt)
open PrimitiveHashing (AlgKind RnnDesc RnnDirection)

variable {p : Params} {t diff : Pointers} {rd : RnnDesc} {cellKind : AlgKind} {direction : RnnDirection}

/-! ## What is expected -/

/-- A descriptor has the dimensions. -/
def HasDims (md : Option PrimitiveHashing.MemoryDesc) (l : List ℤ) : Prop :=
  (List.range l.length).map (copyMaybeNull md).dims = l

/-- A descriptor that is present has the dimensions. -/
def HasDimsIfPresent (md : Option PrimitiveHashing.MemoryDesc) (l : List ℤ) : Prop :=
  isZeroMd md = false → HasDims md l

/-- The tensors of a cell have the dimensions. -/
structure HaveDims (t : Pointers) (cellKind : AlgKind) (s : Sizes) : Prop where
  srcLayer : HasDims t.srcLayer [s.T, s.N, s.SLC]
  srcIter : HasDimsIfPresent t.srcIter [s.L, s.D, s.N, s.SIC]
  srcIterC : HasDimsIfPresent t.srcIterC [s.L, s.D, s.N, s.DIC]
  weightsLayer : HasDims t.weightsLayer [s.L, s.D, s.SLC, s.G, s.DIC]
  weightsIter : HasDims t.weightsIter [s.L, s.D, s.SIC, s.G, s.DIC]
  bias : HasDimsIfPresent t.bias [s.L, s.D, s.G + extraBias cellKind, s.DIC]
  dstLayer : HasDims t.dstLayer [s.T, s.N, s.DLC]
  dstIter : HasDimsIfPresent t.dstIter [s.L, s.D, s.N, s.DIC]
  dstIterC : HasDimsIfPresent t.dstIterC [s.L, s.D, s.N, s.DIC]

/-- The relations between the dimensions of a cell. -/
structure Related (s : Sizes) (cellKind : AlgKind) (direction : RnnDirection) : Prop where
  directions : s.D = numDirections direction
  gates : s.G = getGatesCount cellKind
  gru : cellKind = .vanillaGru ∨ cellKind = .lbrGru → s.DIC = s.SIC
  channels : dlcMultiplier direction * s.DIC = s.DLC
  layers : 1 < s.L → dlcMultiplier direction * s.SLC = s.DLC
  iterations : 1 < s.T → s.SIC = s.DIC

/-- The primitive uses the descriptors that the caller passed. -/
structure Addressed (rd : RnnDesc) (ts : Tensors PrimitiveHashing.MemoryDesc) (t : Pointers) : Prop where
  srcLayer : srcMd rd ts 0 = copyMaybeNull t.srcLayer
  srcIter : isZeroMd t.srcIter = false → srcMd rd ts 1 = copyMaybeNull t.srcIter
  srcIterC : rd.cellKind = .vanillaLstm → isZeroMd t.srcIterC = false → srcMd rd ts 2 = copyMaybeNull t.srcIterC
  weightsLayer : weightsMd rd ts 0 = copyMaybeNull t.weightsLayer
  weightsIter : weightsMd rd ts 1 = copyMaybeNull t.weightsIter
  bias : isZeroMd t.bias = false → weightsMd rd ts 2 = copyMaybeNull t.bias
  dstLayer : dstMd rd ts 0 = copyMaybeNull t.dstLayer
  dstIter : isZeroMd t.dstIter = false → dstMd rd ts 1 = copyMaybeNull t.dstIter
  dstIterC : rd.cellKind = .vanillaLstm → isZeroMd t.dstIterC = false → dstMd rd ts 2 = copyMaybeNull t.dstIterC

/-- What is expected of a forward descriptor. -/
structure FwdExpected (p : Params) (t : Pointers) (rd : RnnDesc) : Prop where
  states : lstmStates p.cellKind t = true
  dims : ∃ s : Sizes, Related s p.cellKind p.direction ∧ HaveDims t p.cellKind s
  recorded : tensors rd = t.map copyMaybeNull
  addressed : Addressed rd (tensors rd) t

/-- Every gradient is present if its tensor is. -/
structure DiffsPresent (t diff : Pointers) : Prop where
  bias : isZeroMd t.bias = isZeroMd diff.bias
  srcIter : isZeroMd t.srcIter = isZeroMd diff.srcIter
  srcIterC : isZeroMd t.srcIterC = isZeroMd diff.srcIterC
  dstIter : isZeroMd t.dstIter = isZeroMd diff.dstIter
  dstIterC : isZeroMd t.dstIterC = isZeroMd diff.dstIterC

/-- What is expected of a backward descriptor. -/
structure BwdExpected (p : Params) (t diff : Pointers) (rd : RnnDesc) : Prop where
  states : lstmStates p.cellKind t = true
  diffs : DiffsPresent t diff
  dims : ∃ s : Sizes, Related s p.cellKind p.direction ∧ HaveDims t p.cellKind s ∧ HaveDims diff p.cellKind s
  recorded : tensors rd = t.map copyMaybeNull
  diffRecorded : diffTensors rd = diff.map copyMaybeNull
  addressed : Addressed rd (tensors rd) t
  diffAddressed : Addressed rd (diffTensors rd) diff

/-! ## Checks -/

theorem check_eq_ok {b : Bool} {u : Unit} : check b = .ok u ↔ b = true := by
  cases b with
  | false => simp [check]
  | true => simp [check]

theorem isDim_iff {x : ℤ} {md : Option PrimitiveHashing.MemoryDesc} {d : ℕ} :
    isDim x md d = true ↔ x = (copyMaybeNull md).dims d := decide_eq_true_iff

theorem isDimIfPresent_iff {x : ℤ} {md : Option PrimitiveHashing.MemoryDesc} {d : ℕ} :
    isDimIfPresent x md d = true ↔ (isZeroMd md = false → x = (copyMaybeNull md).dims d) := by
  unfold isDimIfPresent
  rw [Bool.or_eq_true, isDim_iff]
  cases isZeroMd md with
  | false => simp
  | true => simp

theorem xnorMd_iff {a b : Option PrimitiveHashing.MemoryDesc} : xnorMd a b = true ↔ isZeroMd a = isZeroMd b :=
  beq_iff_eq

theorem hasDims_three {md : Option PrimitiveHashing.MemoryDesc} {a b c : ℤ} : HasDims md [a, b, c] ↔
    (copyMaybeNull md).dims 0 = a ∧ (copyMaybeNull md).dims 1 = b ∧ (copyMaybeNull md).dims 2 = c := by
  simp [HasDims, List.range_succ]

theorem hasDims_four {md : Option PrimitiveHashing.MemoryDesc} {a b c d : ℤ} : HasDims md [a, b, c, d] ↔
    (copyMaybeNull md).dims 0 = a ∧ (copyMaybeNull md).dims 1 = b ∧ (copyMaybeNull md).dims 2 = c ∧
      (copyMaybeNull md).dims 3 = d := by
  simp [HasDims, List.range_succ]

theorem hasDims_five {md : Option PrimitiveHashing.MemoryDesc} {a b c d e : ℤ} : HasDims md [a, b, c, d, e] ↔
    (copyMaybeNull md).dims 0 = a ∧ (copyMaybeNull md).dims 1 = b ∧ (copyMaybeNull md).dims 2 = c ∧
      (copyMaybeNull md).dims 3 = d ∧ (copyMaybeNull md).dims 4 = e := by
  simp [HasDims, List.range_succ]

/-- The number of gates of the bias fits. -/
theorem toInt_extraBias (cellKind : AlgKind) :
    toInt (getGatesCount cellKind + extraBias cellKind) = getGatesCount cellKind + extraBias cellKind := by
  cases cellKind <;> decide

/-- What the checks of the dimensions compare. -/
theorem checkDimConsistency_ok {s : Sizes} {u : Unit} (h : checkDimConsistency cellKind direction s t = .ok u) :
    HaveDims t cellKind s ∧ s.G = getGatesCount cellKind ∧
      (cellKind = .vanillaGru ∨ cellKind = .lbrGru → s.DIC = s.SIC) ∧ toInt (dlcMultiplier direction * s.DIC) = s.DLC ∧
      (1 < s.L → toInt (dlcMultiplier direction * s.SLC) = s.DLC) ∧ (1 < s.T → s.SIC = s.DIC) := by
  simp only [checkDimConsistency, bind_eq_ok, check_eq_ok, exists_const, Bool.and_eq_true, isDim_iff,
    isDimIfPresent_iff, Bool.or_eq_true, Bool.not_eq_true', decide_eq_true_iff, decide_eq_false_iff_not,
    Bool.or_eq_false_iff] at h
  obtain ⟨hgru, ⟨⟨⟨⟨⟨⟨hLwl, hLwi⟩, hLb⟩, hLsi⟩, hLsc⟩, hLdi⟩, hLdc⟩,
    ⟨⟨⟨⟨⟨⟨hDwl, hDwi⟩, hDb⟩, hDsi⟩, hDsc⟩, hDdi⟩, hDdc⟩, ⟨hTsl, hTdl⟩,
    ⟨⟨⟨⟨⟨hNsl, hNdl⟩, hNsi⟩, hNsc⟩, hNdi⟩, hNdc⟩, ⟨⟨⟨hG, hGwl⟩, hGwi⟩, hGb⟩, ⟨hSLCwl, hSLCsl⟩, ⟨hSICwi, hSICsi⟩,
    ⟨hDLC, hDLCdl⟩, ⟨⟨⟨⟨⟨hDICwl, hDICwi⟩, hDICb⟩, hDICsc⟩, hDICdi⟩, hDICdc⟩, hlayers, hiterations⟩ := h
  have hbias : toInt (s.G + extraBias cellKind) = s.G + extraBias cellKind := by
    rw [hG]
    exact toInt_extraBias cellKind
  rw [hbias] at hGb
  refine ⟨?_, hG, ?_, hDLC.symm, fun hL => hlayers.resolve_left (not_not.mpr hL),
    fun hT => hiterations.resolve_left (not_not.mpr hT)⟩
  · exact {
      srcLayer := hasDims_three.mpr ⟨hTsl.symm, hNsl.symm, hSLCsl.symm⟩
      srcIter := fun hp => hasDims_four.mpr ⟨(hLsi hp).symm, (hDsi hp).symm, (hNsi hp).symm, (hSICsi hp).symm⟩
      srcIterC := fun hp => hasDims_four.mpr ⟨(hLsc hp).symm, (hDsc hp).symm, (hNsc hp).symm, (hDICsc hp).symm⟩
      weightsLayer := hasDims_five.mpr ⟨hLwl.symm, hDwl.symm, hSLCwl.symm, hGwl.symm, hDICwl.symm⟩
      weightsIter := hasDims_five.mpr ⟨hLwi.symm, hDwi.symm, hSICwi.symm, hGwi.symm, hDICwi.symm⟩
      bias := fun hp => hasDims_four.mpr ⟨(hLb hp).symm, (hDb hp).symm, (hGb hp).symm, (hDICb hp).symm⟩
      dstLayer := hasDims_three.mpr ⟨hTdl.symm, hNdl.symm, hDLCdl.symm⟩
      dstIter := fun hp => hasDims_four.mpr ⟨(hLdi hp).symm, (hDdi hp).symm, (hNdi hp).symm, (hDICdi hp).symm⟩
      dstIterC := fun hp => hasDims_four.mpr ⟨(hLdc hp).symm, (hDdc hp).symm, (hNdc hp).symm, (hDICdc hp).symm⟩ }
  · intro hcell
    rcases hgru with ⟨hno, hno'⟩ | hgru
    · exact absurd hcell (not_or.mpr ⟨hno, hno'⟩)
    · exact hgru

/-- The products of the channels are of type `int`. -/
structure Fits (direction : RnnDirection) (t : Pointers) : Prop where
  dic : toInt (dlcMultiplier direction * (copyMaybeNull t.weightsLayer).dims 4) =
    dlcMultiplier direction * (copyMaybeNull t.weightsLayer).dims 4
  slc : 1 < (copyMaybeNull t.weightsLayer).dims 0 → toInt (dlcMultiplier direction * (copyMaybeNull t.srcLayer).dims 2) =
    dlcMultiplier direction * (copyMaybeNull t.srcLayer).dims 2

theorem related_sizes {u : Unit} (h : checkDimConsistency cellKind direction (sizes cellKind direction t) t = .ok u)
    (hfits : Fits direction t) : Related (sizes cellKind direction t) cellKind direction := by
  obtain ⟨hdims, hG, hgru, hDIC, hlayers, hiterations⟩ := checkDimConsistency_ok h
  have hwl := hasDims_five.mp hdims.weightsLayer
  have hsl := hasDims_three.mp hdims.srcLayer
  exact {
    directions := rfl
    gates := hG
    gru := hgru
    channels := by
      rw [← hDIC, ← hwl.2.2.2.2]
      exact hfits.dic.symm
    layers := fun hL => by
      rw [← hlayers hL, ← hsl.2.2]
      exact (hfits.slc (hwl.1 ▸ hL)).symm
    iterations := hiterations }

/-- If the checks relate the dimensions, the products fit. -/
theorem fits_of_related {u : Unit} (h : checkDimConsistency cellKind direction (sizes cellKind direction t) t = .ok u)
    {s : Sizes} (hrelated : Related s cellKind direction) (hs : HaveDims t cellKind s) : Fits direction t := by
  obtain ⟨hdims, -, -, hDIC, hlayers, -⟩ := checkDimConsistency_ok h
  have hwl := hasDims_five.mp hdims.weightsLayer
  have hsl := hasDims_three.mp hdims.srcLayer
  have hdl := hasDims_three.mp hdims.dstLayer
  have hwl' := hasDims_five.mp hs.weightsLayer
  have hsl' := hasDims_three.mp hs.srcLayer
  have hdl' := hasDims_three.mp hs.dstLayer
  constructor
  · rw [hwl.2.2.2.2, hDIC, ← hdl.2.2, hdl'.2.2, ← hrelated.channels, ← hwl'.2.2.2.2, ← hwl.2.2.2.2]
  · intro hL
    rw [hsl.2.2, hlayers (hwl.1 ▸ hL), ← hdl.2.2, hdl'.2.2, ← hrelated.layers (hwl'.1 ▸ hL), ← hsl'.2.2, ← hsl.2.2]

/-! ## The descriptors of the primitive -/

theorem isZeroMd_eq (md : Option PrimitiveHashing.MemoryDesc) : isZeroMd md = isZero (copyMaybeNull md) := by
  cases md with
  | none => rfl
  | some md =>
    show md.eq PrimitiveHashing.zeroMd = decide (md.ndims = 0)
    unfold PrimitiveHashing.MemoryDesc.eq
    by_cases hzero : md.ndims = 0
    · rw [if_pos ⟨hzero, rfl⟩, decide_eq_true hzero]
    · rw [if_neg fun h => hzero h.1, decide_eq_false hzero]
      unfold PrimitiveHashing.MemoryDesc.eqFields
      have hne : (md.ndims == PrimitiveHashing.zeroMd.ndims) = false := beq_eq_false_iff_ne.mpr hzero
      simp only [hne, Bool.false_and]

/-- Descriptors whose presence follows from the one of the tensors are found. -/
theorem addressed {u : Pointers} {ts : Tensors PrimitiveHashing.MemoryDesc} (ht : tensors rd = t.map copyMaybeNull)
    (hts : ts = u.map copyMaybeNull) (hsrc : isZeroMd u.srcIter = false → isZeroMd t.srcIter = false)
    (hsrcC : rd.cellKind = .vanillaLstm → isZeroMd u.srcIterC = false → isZeroMd t.srcIter = false)
    (hbias : isZeroMd u.bias = false → isZeroMd t.bias = false)
    (hdst : isZeroMd u.dstIter = false → isZeroMd t.dstIter = false)
    (hdstC : rd.cellKind = .vanillaLstm → isZeroMd u.dstIterC = false → isZeroMd t.dstIter = false) :
    Addressed rd ts u := by
  have hsrcIter : rd.srcIterDesc = copyMaybeNull t.srcIter := congrArg Tensors.srcIter ht
  have hbiasDesc : rd.biasDesc = copyMaybeNull t.bias := congrArg Tensors.bias ht
  have hdstIter : rd.dstIterDesc = copyMaybeNull t.dstIter := congrArg Tensors.dstIter ht
  subst hts
  constructor
  · rfl
  · intro hpresent
    have hwith : withSrcIter rd = true := by
      unfold withSrcIter
      rw [hsrcIter, ← isZeroMd_eq, hsrc hpresent]
      rfl
    simp [srcMd, hwith, Tensors.map]
  · intro hlstm hpresent
    have hwith : withSrcIterC rd = true := by
      unfold withSrcIterC isLstm
      rw [hsrcIter, ← isZeroMd_eq, hsrcC hlstm hpresent, decide_eq_true hlstm]
      rfl
    simp [srcMd, hwith, Tensors.map]
  · rfl
  · rfl
  · intro hpresent
    have hwith : withBias rd = true := by
      unfold withBias
      rw [hbiasDesc, ← isZeroMd_eq, hbias hpresent]
      rfl
    simp [weightsMd, hwith, Tensors.map]
  · rfl
  · intro hpresent
    have hwith : withDstIter rd = true := by
      unfold withDstIter
      rw [hdstIter, ← isZeroMd_eq, hdst hpresent]
      rfl
    simp [dstMd, hwith, Tensors.map]
  · intro hlstm hpresent
    have hwith : withDstIterC rd = true := by
      unfold withDstIterC isLstm
      rw [hdstIter, ← isZeroMd_eq, hdstC hlstm hpresent, decide_eq_true hlstm]
      rfl
    simp [dstMd, hwith, Tensors.map]

theorem lstmStates_iff : lstmStates cellKind t = true ↔ (cellKind = .vanillaLstm →
    isZeroMd t.srcIter = isZeroMd t.srcIterC ∧ isZeroMd t.dstIter = isZeroMd t.dstIterC) := by
  unfold lstmStates
  rw [Bool.or_eq_true, Bool.and_eq_true, xnorMd_iff, xnorMd_iff, Bool.not_eq_true', decide_eq_false_iff_not]
  exact Decidable.imp_iff_not_or.symm

/-! ## The initialisations -/

/-- The checks that `rnn_common_fwd_desc_init` makes. -/
structure FwdChecks (p : Params) (t : Pointers) : Prop where
  cell : supportedCell p.cellKind = true
  present : anyNull t = false
  dims : checkDimConsistency p.cellKind p.direction (sizes p.cellKind p.direction t) t = .ok ()
  types : checkDataTypeConsistencyFwd p.cellKind p.propKind t = .ok ()

theorem rnnCommonFwdDescInit_eq_ok :
    rnnCommonFwdDescInit p t = .ok rd ↔ FwdChecks p t ∧ setTensors (zeroRnnDesc p) t = rd := by
  simp only [rnnCommonFwdDescInit, bind_eq_ok, check_eq_ok, exists_const, Bool.and_eq_true, Bool.not_eq_true']
  constructor
  · rintro ⟨hcell, ⟨-, hpresent⟩, _, hdims, _, htypes, hrd⟩
    exact ⟨⟨hcell, hpresent, hdims, htypes⟩, Except.ok.inj hrd⟩
  · rintro ⟨⟨hcell, hpresent, hdims, htypes⟩, rfl⟩
    exact ⟨hcell, ⟨hcell, hpresent⟩, (), hdims, (), htypes, rfl⟩

/-- The checks that `rnn_common_bwd_desc_init` makes. -/
structure BwdChecks (p : Params) (t diff : Pointers) : Prop where
  cell : supportedCell p.cellKind = true
  present : (anyNull t || anyNull diff) = false
  states : lstmStates p.cellKind t = true
  diffs : diffsPresent t diff = true
  dims : checkDimConsistency p.cellKind p.direction (sizes p.cellKind p.direction t) t = .ok ()
  diffDims : checkDimConsistency p.cellKind p.direction (sizes p.cellKind p.direction t) diff = .ok ()

theorem rnnCommonBwdDescInit_eq_ok : rnnCommonBwdDescInit p t diff = .ok rd ↔
    BwdChecks p t diff ∧ setDiffTensors (setTensors (zeroRnnDesc p) t) diff = rd := by
  simp only [rnnCommonBwdDescInit, bind_eq_ok, check_eq_ok, exists_const, Bool.and_eq_true, Bool.not_eq_true']
  constructor
  · rintro ⟨hcell, ⟨-, hpresent⟩, ⟨⟨-, hstates⟩, hdiffs⟩, _, hdims, _, hdiffDims, hrd⟩
    exact ⟨⟨hcell, hpresent, hstates, hdiffs, hdims, hdiffDims⟩, Except.ok.inj hrd⟩
  · rintro ⟨⟨hcell, hpresent, hstates, hdiffs, hdims, hdiffDims⟩, rfl⟩
    exact ⟨hcell, ⟨hcell, hpresent⟩, ⟨⟨⟨hcell, hpresent⟩, hstates⟩, hdiffs⟩, (), hdims, (), hdiffDims, rfl⟩

/-- A forward descriptor is what is expected if and only if the states are present together and the products fit. -/
theorem fwdExpected_iff (hchecks : FwdChecks p t) :
    FwdExpected p t (setTensors (zeroRnnDesc p) t) ↔ lstmStates p.cellKind t = true ∧ Fits p.direction t := by
  constructor
  · intro h
    obtain ⟨s, hrelated, hdims⟩ := h.dims
    exact ⟨h.states, fits_of_related hchecks.dims hrelated hdims⟩
  · rintro ⟨hstates, hfits⟩
    have hcell := lstmStates_iff.mp hstates
    refine ⟨hstates, ⟨_, related_sizes hchecks.dims hfits, (checkDimConsistency_ok hchecks.dims).1⟩, rfl, ?_⟩
    apply addressed rfl rfl id _ id id
    · intro hlstm hpresent
      rw [(hcell hlstm).2, hpresent]
    · intro hlstm hpresent
      rw [(hcell hlstm).1, hpresent]

/-- A backward descriptor is what is expected if and only if the incoming cell state and its gradient are present together
and the products fit. -/
theorem bwdExpected_iff (hchecks : BwdChecks p t diff) :
    BwdExpected p t diff (setDiffTensors (setTensors (zeroRnnDesc p) t) diff) ↔
      isZeroMd t.srcIterC = isZeroMd diff.srcIterC ∧ Fits p.direction t := by
  have hcell := lstmStates_iff.mp hchecks.states
  have hdiffs := hchecks.diffs
  unfold diffsPresent at hdiffs
  simp only [Bool.and_eq_true, xnorMd_iff] at hdiffs
  obtain ⟨⟨⟨⟨hbias, hsrc⟩, -⟩, hdst⟩, hdstC⟩ := hdiffs
  constructor
  · intro h
    obtain ⟨s, hrelated, hdims, -⟩ := h.dims
    exact ⟨h.diffs.srcIterC, fits_of_related hchecks.dims hrelated hdims⟩
  · rintro ⟨hsrcC, hfits⟩
    refine ⟨hchecks.states, ⟨hbias, hsrc, hsrcC, hdst, hdstC⟩, ?_, rfl, rfl, ?_, ?_⟩
    · exact ⟨_, related_sizes hchecks.dims hfits, (checkDimConsistency_ok hchecks.dims).1,
        (checkDimConsistency_ok hchecks.diffDims).1⟩
    · apply addressed rfl rfl id _ id id
      · intro hlstm hpresent
        rw [(hcell hlstm).2, hpresent]
      · intro hlstm hpresent
        rw [(hcell hlstm).1, hpresent]
    · apply addressed rfl rfl
      · intro hpresent
        rw [hsrc, hpresent]
      · intro hlstm hpresent
        rw [(hcell hlstm).1, hsrcC, hpresent]
      · intro hpresent
        rw [hbias, hpresent]
      · intro hpresent
        rw [hdst, hpresent]
      · intro hlstm hpresent
        rw [(hcell hlstm).2, hdstC, hpresent]

/-- Forward and backward descriptors are what is expected, of whatever the functions accept, unless the states or the
gradients that the functions forget to compare are not present together, or a product does not fit. -/
theorem descInit_expected_iff (p : Params) (t diff : Pointers) :
    ((∀ rd, rnnCommonFwdDescInit p t = .ok rd → FwdExpected p t rd) ↔
      (FwdChecks p t → lstmStates p.cellKind t = true ∧ Fits p.direction t)) ∧
    ((∀ rd, rnnCommonBwdDescInit p t diff = .ok rd → BwdExpected p t diff rd) ↔
      (BwdChecks p t diff → isZeroMd t.srcIterC = isZeroMd diff.srcIterC ∧ Fits p.direction t)) := by
  constructor
  · constructor
    · intro h hchecks
      exact (fwdExpected_iff hchecks).mp (h _ (rnnCommonFwdDescInit_eq_ok.mpr ⟨hchecks, rfl⟩))
    · intro h rd hrd
      obtain ⟨hchecks, rfl⟩ := rnnCommonFwdDescInit_eq_ok.mp hrd
      exact (fwdExpected_iff hchecks).mpr (h hchecks)
  · constructor
    · intro h hchecks
      exact (bwdExpected_iff hchecks).mp (h _ (rnnCommonBwdDescInit_eq_ok.mpr ⟨hchecks, rfl⟩))
    · intro h rd hrd
      obtain ⟨hchecks, rfl⟩ := rnnCommonBwdDescInit_eq_ok.mp hrd
      exact (bwdExpected_iff hchecks).mpr (h hchecks)

/-! ## Cells with states that are not present together -/

/-- A descriptor of numbers of type `f32` in any format. -/
def anyDesc (dims : List ℤ) : PrimitiveHashing.MemoryDesc :=
  { PrimitiveHashing.zeroMd with
    ndims := dims.length
    dims := fun i => dims.getD i 0
    dataType := .f32
    formatKind := .any }

def lstmParams : Params where
  propKind := .forwardTraining
  cellKind := .vanillaLstm
  direction := .unidirectionalLeft2right
  flags := 0
  activation := .undef
  alpha := ⟨0⟩
  beta := ⟨0⟩

/-- The tensors of an LSTM cell with one layer, gate size and iteration, without the outgoing states. -/
def lstmTensors (srcIterC : Option PrimitiveHashing.MemoryDesc) : Pointers where
  srcLayer := some (anyDesc [1, 1, 1])
  srcIter := some (anyDesc [1, 1, 1, 1])
  srcIterC := srcIterC
  weightsLayer := some (anyDesc [1, 1, 1, 4, 1])
  weightsIter := some (anyDesc [1, 1, 1, 4, 1])
  bias := none
  dstLayer := some (anyDesc [1, 1, 1])
  dstIter := none
  dstIterC := none

/-- A cell that gets a state but no cell state, and one whose cell state has no gradient, are accepted. -/
theorem lstm_not_expected :
    ¬ (∀ rd, rnnCommonFwdDescInit lstmParams (lstmTensors none) = .ok rd →
      FwdExpected lstmParams (lstmTensors none) rd) ∧
    ¬ (∀ rd, rnnCommonBwdDescInit lstmParams (lstmTensors (some (anyDesc [1, 1, 1, 1]))) (lstmTensors none) = .ok rd →
      BwdExpected lstmParams (lstmTensors (some (anyDesc [1, 1, 1, 1]))) (lstmTensors none) rd) := by
  have hfwd : FwdChecks lstmParams (lstmTensors none) := by
    constructor
    · decide
    · decide
    · rfl
    · rfl
  have hbwd : BwdChecks lstmParams (lstmTensors (some (anyDesc [1, 1, 1, 1]))) (lstmTensors none) := by
    constructor
    · decide
    · decide
    · rfl
    · rfl
    · rfl
    · rfl
  constructor
  · intro h
    have hstates := (h _ (rnnCommonFwdDescInit_eq_ok.mpr ⟨hfwd, rfl⟩)).states
    exact absurd hstates (by decide)
  · intro h
    have hdiffs := (h _ (rnnCommonBwdDescInit_eq_ok.mpr ⟨hbwd, rfl⟩)).diffs.srcIterC
    exact absurd hdiffs (by decide)

end MklDnn.Rnn
