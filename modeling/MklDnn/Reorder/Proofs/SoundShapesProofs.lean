import MklDnn.Reorder.Proofs.QuantizedWeightsProofs
import MklDnn.Reorder.Proofs.ReorderProofs

/-!
# Proofs: the shapes that the reorders with compensation treat right

An execution is right for all scales and all weights if and only if every channel reads its own scale, no two
channels share an entry of the compensation, and the compensation fits into `int32_t`.
-/

open LoopNest

namespace MklDnn.ConvS8s8

/-! ## Shapes that are treated right -/

section Sound

variable {α F : Type*} {impl : Impl} {q : Quantizer α F} {inputD outputD : MemoryDesc} {mask : ℕ}
  {scales : List F} {scaleAdjust : F} {input : ℤ → α} {st : Output}

theorem channel_lt {G OC g oc : ℕ} (hg : g < G) (hoc : oc < OC) : g * OC + oc < G * OC := by
  calc g * OC + oc < (g + 1) * OC := by
        rw [Nat.succ_mul]
        omega
    _ ≤ G * OC := Nat.mul_le_mul_right _ hg

/-- A channel with a scale of its own reads it. -/
theorem Impl.Accepts.scaleIdx_of_sound (h : impl.Accepts inputD outputD mask) (hsound : impl.Sound inputD mask)
    {g oc : ℕ} (hg : g < (impl.sizes inputD).G) (hD : dMask inputD mask ≠ 1) :
    impl.scaleIdx inputD outputD mask g oc = g * (impl.sizes inputD).OC + oc := by
  cases impl with
  | plain tagO =>
    rw [Impl.scaleIdx_plain, if_neg hD]
  | blocked tagI tagO =>
    have hl := Blocked.layouts h
    have hidx : (Impl.blocked tagI tagO).scaleIdx inputD outputD mask g oc =
        g * outputD.paddedDims ((Blocked.wGroups tagO).toNat + 0) + oc := by
      rw [Impl.scaleIdx_blocked, if_neg hD]
    rw [hidx]
    rcases hsound.2 with hone | hG | hdvd
    · exact absurd hone hD
    · rw [hG, Nat.lt_one_iff] at hg
      rw [hg, Nat.zero_mul, Nat.zero_mul]
    · rw [hl.paddedOC, rndUp_eq]
      obtain ⟨k, hk⟩ := hdvd
      have hOC : (ConvS8s8.sizes inputD (Blocked.wGroups tagO) (Blocked.is1d tagO)).OC =
        Blocked.blksize tagO * k := hk
      have hOC' : ((Impl.blocked tagI tagO).sizes inputD).OC = Blocked.blksize tagO * k := hk
      rw [hOC, hOC', divUp_mul k hl.inner.blk_pos, Nat.mul_comm k]
  | depthwise tagI tagO =>
    have hidx : (Impl.depthwise tagI tagO).scaleIdx inputD outputD mask g oc =
        g / 16 * 16 + oc + g % 16 * ((Impl.depthwise tagI tagO).sizes inputD).OC := by
      rw [Impl.scaleIdx_depthwise, if_neg hD]
    rw [hidx]
    rcases hsound.2 with hone | ⟨hG, -⟩
    · rw [hone]
      omega
    · have hdiv : g / 16 = 0 := by omega
      have hmod : g % 16 = g := by omega
      rw [hdiv, hmod]
      omega

/-- A common scale is read where it was copied to. -/
theorem Impl.Accepts.scaleIdx_lt_of_sound (h : impl.Accepts inputD outputD mask) (hsound : impl.Sound inputD mask)
    {g oc : ℕ} (hg : g < (impl.sizes inputD).G) (hoc : oc < (impl.sizes inputD).OC) (hD : dMask inputD mask = 1) :
    impl.scaleIdx inputD outputD mask g oc < 16 := by
  cases impl with
  | plain tagO =>
    have hidx : (Impl.plain tagO).scaleIdx inputD outputD mask g oc = 0 := by
      rw [Impl.scaleIdx_plain, if_pos hD]
    omega
  | blocked tagI tagO =>
    have hidx : (Impl.blocked tagI tagO).scaleIdx inputD outputD mask g oc = oc % Blocked.blksize tagO := by
      rw [Impl.scaleIdx_blocked, if_pos hD]
    have hle : Blocked.blksize tagO ≤ 16 := by
      unfold Blocked.blksize
      split_ifs <;> omega
    have hlt := Nat.mod_lt oc (Blocked.layouts h).inner.blk_pos
    omega
  | depthwise tagI tagO =>
    have hidx : (Impl.depthwise tagI tagO).scaleIdx inputD outputD mask g oc =
        g % 16 * ((Impl.depthwise tagI tagO).sizes inputD).OC := by
      rw [Impl.scaleIdx_depthwise, if_pos hD, Nat.zero_add]
    rw [hidx]
    rcases hsound.2 with hone | ⟨hG, hlt⟩
    · rw [hone, Nat.mul_one]
      exact Nat.mod_lt _ (by omega)
    · have hmod : g % 16 = g := by omega
      rw [hmod]
      exact (Nat.mul_le_mul_right _ (by omega)).trans_lt (hlt hD)

/-- The compensation of a channel is added up at its place. -/
theorem Impl.Accepts.compIdx_of_sound (h : impl.Accepts inputD outputD mask) (hsound : impl.Sound inputD mask)
    {g oc : ℕ} (hg : g < (impl.sizes inputD).G) :
    impl.compIdx inputD outputD g oc = g * outputD.paddedDims (impl.wGroups.toNat + 0) + oc := by
  cases impl with
  | plain tagO =>
    have hpad := (Plain.layouts h).2
    show g * _ + oc = g * outputD.paddedDims ((Plain.wGroups tagO).toNat + 0) + oc
    rw [hpad]
    rfl
  | blocked tagI tagO => rfl
  | depthwise tagI tagO =>
    have hpad : outputD.paddedDims (Bool.toNat true + 0) = ((Impl.depthwise tagI tagO).sizes inputD).OC :=
      (Depthwise.layouts h).2
    show g / 16 * 16 + oc + g % 16 * ((Impl.depthwise tagI tagO).sizes inputD).OC =
      g * outputD.paddedDims (Bool.toNat true + 0) + oc
    rw [hpad]
    rcases hsound.2 with hone | ⟨hG, -⟩
    · rw [hone]
      omega
    · have hdiv : g / 16 = 0 := by omega
      have hmod : g % 16 = g := by omega
      rw [hdiv, hmod]
      omega

/-- The scale that is read for a channel is the one it has to be quantised with. -/
theorem Impl.Accepts.scale_of_sound (h : impl.Accepts inputD outputD mask) (hsound : impl.Sound inputD mask)
    (hlen : scales.length = dMask inputD mask) {g oc : ℕ} (hg : g < (impl.sizes inputD).G)
    (hoc : oc < (impl.sizes inputD).OC) :
    ∃ scale, scales[if dMask inputD mask = 1 then 0 else g * (impl.sizes inputD).OC + oc]? = some scale ∧
      (scalesOf scales)[impl.scaleIdx inputD outputD mask g oc]? = some scale := by
  by_cases hD : dMask inputD mask = 1
  · obtain ⟨s, rfl⟩ := List.length_eq_one_iff.mp (hlen.trans hD)
    refine ⟨s, ?_, ?_⟩
    · rw [if_pos hD]
      rfl
    · show (List.replicate 16 s)[_]? = some s
      rw [List.getElem?_replicate, if_pos (h.scaleIdx_lt_of_sound hsound hg hoc hD)]
  · have hlt : g * (impl.sizes inputD).OC + oc < scales.length := by
      rw [hlen, h.dMask_eq.resolve_left hD]
      exact channel_lt hg hoc
    rw [if_neg hD, scalesOf_of_length_ne (hlen ▸ hD), h.scaleIdx_of_sound hsound hg hD]
    exact ⟨_, List.getElem?_eq_getElem hlt, List.getElem?_eq_getElem hlt⟩

/-- The compensation fits into `int32_t`. -/
theorem toS32_channelSum {n : Sizes} (hN : n.IC * n.H * n.W < 2 ^ 17) (g oc : ℕ) (v : Weight → Int8) :
    toS32 (-128 * n.channelSum g oc fun x => (v x).toInt) = -128 * n.channelSum g oc fun x => (v x).toInt := by
  obtain ⟨hlow, hhigh⟩ := n.channelSum_bounds g oc v
  have hN' : ((n.IC * n.H * n.W : ℕ) : ℤ) < 2 ^ 17 := by exact_mod_cast hN
  apply toS32_eq <;> omega

theorem Impl.Accepts.correct_of_sound (h : impl.Accepts inputD outputD mask) (hsound : impl.Sound inputD mask)
    (hlen : scales.length = dMask inputD mask) (scaleAdjust : F) (input : ℤ → α) (st : Output) :
    ∃ out, impl.execute q inputD outputD mask scales scaleAdjust input st = some out ∧
      impl.Correct q inputD outputD mask scales
        (if outputD.extra.scaleAdjust then scaleAdjust else q.one) input out := by
  have hex : ∀ x, (impl.sizes inputD).Mem x → ∃ s, scales[if dMask inputD mask = 1 then 0
      else x.g * (impl.sizes inputD).OC + x.oc]? = some s ∧
      (scalesOf scales)[impl.scaleIdx inputD outputD mask x.g x.oc]? = some s :=
    fun x hx => h.scale_of_sound hsound hlen hx.g hx.oc
  have : Nonempty F := by
    obtain ⟨hG, hOC, hIC, hH, hW⟩ := h.sizes_pos
    obtain ⟨s, -⟩ := hex ⟨0, 0, 0, 0, 0⟩ ⟨hG, hOC, hIC, hH, hW⟩
    exact ⟨s⟩
  choose! scale hscale hread using hex
  obtain ⟨out, hout, hweights, hcp⟩ := h.outcome (fun x hx => Impl.value_storeAt (hread x hx)) st
  refine ⟨out, hout, ?_, ?_⟩
  · intro x hx
    exact ⟨scale x, hscale x hx, hweights x hx⟩
  · intro g hg oc hoc
    have hsingle := sum_single_channel (impl.compIdx inputD outputD)
      (fun x => (q.qzB0 (input (inputD.offV (x.pos impl.wGroups impl.is1d) false))
        (q.mul (scale x) (if outputD.extra.scaleAdjust then scaleAdjust else q.one))).toInt) hg hoc
      (fun g' hg' oc' hoc' he => by
        rw [h.compIdx_of_sound hsound hg', h.compIdx_of_sound hsound hg] at he
        have hle : (impl.sizes inputD).OC ≤ outputD.paddedDims (impl.wGroups.toNat + 0) := by
          have hlt : impl.wGroups.toNat + 0 < inputD.ndims := by
            rw [h.inputNdims]
            cases impl.wGroups <;> cases impl.is1d <;> decide
          have hdims := h.outputWF.dims_le _ (h.ndims_eq ▸ hlt)
          rw [← h.dims_eq hlt] at hdims
          exact hdims
        exact compIdx_inj (hoc.trans_le hle) (hoc'.trans_le hle) he)
    rw [h.compIdx_of_sound hsound hg] at hsingle
    rw [hcp g hg oc hoc, hsingle, toS32_channelSum hsound.1]
    congr 1
    apply Sizes.channelSum_congr hg hoc
    intro x hx _ _
    rw [hweights x hx]

end Sound

/-! ## Shapes that are not -/

section Unsound

variable {α F : Type*} {impl : Impl} {q : Quantizer α F} {inputD outputD : MemoryDesc} {mask : ℕ}
  {scaleAdjust : F}

/-- All executions of an implementation are right. -/
def Impl.AlwaysCorrect (impl : Impl) (q : Quantizer α F) (inputD outputD : MemoryDesc) (mask : ℕ)
    (scaleAdjust : F) : Prop :=
  ∀ scales : List F, scales.length = dMask inputD mask → ∀ (input : ℤ → α) (st : Output),
    ∃ out, impl.execute q inputD outputD mask scales scaleAdjust input st = some out ∧
      impl.Correct q inputD outputD mask scales
        (if outputD.extra.scaleAdjust then scaleAdjust else q.one) input out

/-- What follows for a run on equal weights whose scale `i` quantises them to `f i`. -/
structure Impl.RunOf (impl : Impl) (inputD outputD : MemoryDesc) (mask : ℕ) (f : ℕ → Int8) (out : Output)
    (val : Weight → Int8) : Prop where
  outcome : Outcome outputD impl.wGroups impl.is1d (impl.sizes inputD) (impl.compIdx inputD outputD) val out
  required : ∀ x, (impl.sizes inputD).Mem x →
    val x = f (if dMask inputD mask = 1 then 0 else x.g * (impl.sizes inputD).OC + x.oc)
  read : ∀ x, (impl.sizes inputD).Mem x → dMask inputD mask ≠ 1 →
    val x = f (impl.scaleIdx inputD outputD mask x.g x.oc)
  scale_lt : ∀ x, (impl.sizes inputD).Mem x → dMask inputD mask = 1 →
    impl.scaleIdx inputD outputD mask x.g x.oc < 16
  compensation : ∀ g < (impl.sizes inputD).G, ∀ oc < (impl.sizes inputD).OC,
    out.cp (g * outputD.paddedDims (impl.wGroups.toNat + 0) + oc) =
      -128 * (impl.sizes inputD).channelSum g oc fun x => (val x).toInt

theorem Impl.Accepts.runOf (h : impl.Accepts inputD outputD mask)
    (hq : q.Covers (if outputD.extra.scaleAdjust then scaleAdjust else q.one))
    (hall : impl.AlwaysCorrect q inputD outputD mask scaleAdjust) (f : ℕ → Int8) :
    ∃ out val, impl.RunOf inputD outputD mask f out val := by
  obtain ⟨w, hw⟩ := hq
  choose scale hscale using hw
  let scales : List F := (List.range (dMask inputD mask)).map fun i => scale (f i)
  have hlen : scales.length = dMask inputD mask := by
    rw [List.length_map, List.length_range]
  have hget : ∀ i s, scales[i]? = some s → s = scale (f i) := by
    intro i s hs
    obtain ⟨hlt, rfl⟩ := List.getElem?_eq_some_iff.mp hs
    rw [List.getElem_map, List.getElem_range]
  obtain ⟨out, hout, hcorrect⟩ := hall scales hlen (fun _ => w) ⟨fun _ => 0, fun _ => 0⟩
  obtain ⟨val, hval⟩ := h.value_of_correct hout hcorrect hlen
  obtain ⟨out', hout', houtcome⟩ := h.outcome hval ⟨fun _ => 0, fun _ => 0⟩
  rw [hout] at hout'
  obtain rfl := Option.some.inj hout'
  refine ⟨out, val, houtcome, ?_, ?_, ?_, ?_⟩
  · intro x hx
    obtain ⟨s, hs, hweight⟩ := hcorrect.weights x hx
    rw [houtcome.weights x hx, hget _ s hs, hscale] at hweight
    exact hweight
  · intro x hx hD
    obtain ⟨s, hs⟩ := Impl.read_of_value (hval x hx)
    have hx' := hval x hx
    rw [Impl.value_storeAt hs, Option.some_inj] at hx'
    rw [scalesOf_of_length_ne (hlen ▸ hD)] at hs
    rw [← hx', hget _ s hs, hscale]
  · intro x hx hD
    obtain ⟨s, hs⟩ := Impl.read_of_value (hval x hx)
    obtain ⟨c, hc⟩ := List.length_eq_one_iff.mp (hlen.trans hD)
    rw [hc] at hs
    obtain ⟨hlt, -⟩ := List.getElem?_eq_some_iff.mp hs
    have hbuf : (scalesOf [c]).length = 16 := List.length_replicate
    rw [hbuf] at hlt
    exact hlt
  · intro g hg oc hoc
    rw [hcorrect.compensation g hg oc hoc]
    have hsum : ((impl.sizes inputD).channelSum g oc fun x =>
        (out.weights (outputD.offV (x.pos impl.wGroups impl.is1d) false)).toInt) =
        (impl.sizes inputD).channelSum g oc fun x => (val x).toInt := by
      apply Sizes.channelSum_congr hg hoc
      intro x hx _ _
      rw [houtcome.weights x hx]
    rw [hsum]

/-- The compensation of the first channel shows the number of its weights. -/
theorem Impl.Accepts.size_lt (h : impl.Accepts inputD outputD mask)
    (hq : q.Covers (if outputD.extra.scaleAdjust then scaleAdjust else q.one))
    (hall : impl.AlwaysCorrect q inputD outputD mask scaleAdjust) :
    (impl.sizes inputD).IC * (impl.sizes inputD).H * (impl.sizes inputD).W < 2 ^ 17 := by
  obtain ⟨hG, hOC, -, -, -⟩ := h.sizes_pos
  obtain ⟨out, val, hrun⟩ := h.runOf hq hall fun _ => -128
  have hcp := hrun.compensation 0 hG 0 hOC
  have hsum : ((impl.sizes inputD).channelSum 0 0 fun x => (val x).toInt) =
      ((impl.sizes inputD).IC * (impl.sizes inputD).H * (impl.sizes inputD).W : ℕ) * (-128) := by
    rw [← Sizes.channelSum_const 0 0 (-128)]
    apply Sizes.channelSum_congr hG hOC
    intro x hx _ _
    rw [hrun.required x hx]
    rfl
  rw [hsum, hrun.outcome.cp 0 hG 0 hOC] at hcp
  have hlt := toS32_lt (-128 * ∑ g' ∈ Finset.range (impl.sizes inputD).G,
    ∑ oc' ∈ Finset.range (impl.sizes inputD).OC, (impl.sizes inputD).channelSum g' oc' fun x =>
      if impl.compIdx inputD outputD g' oc' = 0 * outputD.paddedDims (impl.wGroups.toNat + 0) + 0
      then (val x).toInt else 0)
  rw [hcp] at hlt
  omega

/-- With a scale for each channel, the second group reads its first scale at the padded place. -/
theorem Blocked.sound_of_correct {tagI tagO : FormatTag} (h : (Impl.blocked tagI tagO).Accepts inputD outputD mask)
    (hq : q.Covers (if outputD.extra.scaleAdjust then scaleAdjust else q.one))
    (hall : (Impl.blocked tagI tagO).AlwaysCorrect q inputD outputD mask scaleAdjust)
    (hD : dMask inputD mask ≠ 1) (hG : ((Impl.blocked tagI tagO).sizes inputD).G ≠ 1) :
    blksize tagO ∣ ((Impl.blocked tagI tagO).sizes inputD).OC := by
  obtain ⟨hGpos, hOC, hIC, hH, hW⟩ := h.sizes_pos
  obtain ⟨out, val, hrun⟩ := h.runOf hq hall fun i =>
    if i = ((Impl.blocked tagI tagO).sizes inputD).OC then 1 else 0
  have hx : ((Impl.blocked tagI tagO).sizes inputD).Mem ⟨1, 0, 0, 0, 0⟩ :=
    ⟨by dsimp only; omega, hOC, hIC, hH, hW⟩
  have hone := hrun.required _ hx
  have hread := hrun.read _ hx hD
  dsimp only at hone hread
  rw [if_neg hD, Nat.one_mul, Nat.add_zero, if_pos rfl] at hone
  rw [hone, Impl.scaleIdx_blocked, if_neg hD, Nat.one_mul, Nat.add_zero (outputD.paddedDims _)] at hread
  by_contra hdvd
  rw [if_neg] at hread
  · exact absurd hread (by decide)
  · intro he
    apply hdvd
    rw [← he, (Blocked.layouts h).paddedOC, rndUp_eq]
    exact Nat.dvd_mul_left _ _

/-- Beyond a block of groups, the compensation of the last channel stays zero. -/
theorem Depthwise.sound_of_correct {tagI tagO : FormatTag}
    (h : (Impl.depthwise tagI tagO).Accepts inputD outputD mask)
    (hq : q.Covers (if outputD.extra.scaleAdjust then scaleAdjust else q.one))
    (hall : (Impl.depthwise tagI tagO).AlwaysCorrect q inputD outputD mask scaleAdjust)
    (hOC : ((Impl.depthwise tagI tagO).sizes inputD).OC ≠ 1) :
    ((Impl.depthwise tagI tagO).sizes inputD).G ≤ 16 := by
  generalize hn : (Impl.depthwise tagI tagO).sizes inputD = n at hOC
  obtain ⟨hGpos, hOCpos, hIC, hH, hW⟩ := h.sizes_pos
  obtain ⟨out, val, hrun⟩ := h.runOf hq hall fun _ => 1
  have hpad : outputD.paddedDims ((Impl.depthwise tagI tagO).wGroups.toNat + 0) = n.OC := by
    rw [← hn]
    exact (Depthwise.layouts h).2
  have hcp := hrun.compensation (n.G - 1) (by rw [hn] at hGpos ⊢; omega) (n.OC - 1) (by rw [hn] at hOCpos ⊢; omega)
  rw [hrun.outcome.cp (n.G - 1) (by rw [hn] at hGpos ⊢; omega) (n.OC - 1) (by rw [hn] at hOCpos ⊢; omega),
    hpad] at hcp
  rw [hn] at hGpos hOCpos hIC hH hW hcp
  by_contra hG
  have hnone : ∀ g < n.G, ∀ oc < n.OC,
      (Impl.depthwise tagI tagO).compIdx inputD outputD g oc ≠ (n.G - 1) * n.OC + (n.OC - 1) := by
    intro g hg oc hoc
    have hidx : (Impl.depthwise tagI tagO).compIdx inputD outputD g oc = g / 16 * 16 + oc + g % 16 * n.OC := by
      rw [← hn]
      rfl
    rw [hidx]
    have hdiv := Nat.div_add_mod g 16
    have hlast : n.OC * (n.G - 1) = n.OC * n.G - n.OC := by
      rw [Nat.mul_sub, Nat.mul_one]
    have hge : n.OC * (g + 1) ≤ n.OC * n.G := Nat.mul_le_mul_left _ hg
    have hge' : n.OC * 17 ≤ n.OC * n.G := Nat.mul_le_mul_left _ (by omega)
    have hsplit : n.OC * g = n.OC * (g / 16) * 16 + n.OC * (g % 16) := by
      rw [Nat.mul_assoc, ← Nat.mul_add, Nat.mul_comm (g / 16), hdiv]
    rw [Nat.mul_comm (n.G - 1), hlast, Nat.mul_comm (g % 16)]
    rcases Nat.eq_zero_or_pos (g / 16) with hzero | hpos
    · have hle : n.OC * (g % 16) ≤ n.OC * 15 := Nat.mul_le_mul_left _ (by omega)
      omega
    · have hle : 2 * (g / 16) ≤ n.OC * (g / 16) := Nat.mul_le_mul_right _ (by omega)
      rw [Nat.mul_add, Nat.mul_one] at hge
      omega
  rw [sum_no_channel _ (fun x => (val x).toInt) hnone, mul_zero, toS32_zero] at hcp
  have hsum : (n.channelSum (n.G - 1) (n.OC - 1) fun x => (val x).toInt) = (n.IC * n.H * n.W : ℕ) * 1 := by
    rw [← Sizes.channelSum_const (n.G - 1) (n.OC - 1) 1]
    apply Sizes.channelSum_congr (by omega) (by omega)
    intro x hx _ _
    rw [hrun.required x (hn ▸ hx)]
    rfl
  have hN : 0 < n.IC * n.H * n.W := Nat.mul_pos (Nat.mul_pos hIC hH) hW
  rw [hsum] at hcp
  omega

end Unsound

/-! ## The condition -/

section Condition

variable {α F : Type*} {impl : Impl} {q : Quantizer α F} {inputD outputD : MemoryDesc} {mask : ℕ}
  {scaleAdjust : F}

theorem Impl.Accepts.sound_of_correct (h : impl.Accepts inputD outputD mask)
    (hq : q.Covers (if outputD.extra.scaleAdjust then scaleAdjust else q.one))
    (hall : impl.AlwaysCorrect q inputD outputD mask scaleAdjust) : impl.Sound inputD mask := by
  refine ⟨h.size_lt hq hall, ?_⟩
  cases impl with
  | plain tagO => trivial
  | blocked tagI tagO =>
    by_cases hD : dMask inputD mask = 1
    · exact .inl hD
    · by_cases hG : ((Impl.blocked tagI tagO).sizes inputD).G = 1
      · exact .inr (.inl hG)
      · exact .inr (.inr (Blocked.sound_of_correct h hq hall hD hG))
  | depthwise tagI tagO =>
    by_cases hOC : ((Impl.depthwise tagI tagO).sizes inputD).OC = 1
    · exact .inl hOC
    · have hG := Depthwise.sound_of_correct h hq hall hOC
      refine .inr ⟨hG, fun hD => ?_⟩
      obtain ⟨hGpos, hOCpos, hIC, hH, hW⟩ := h.sizes_pos
      obtain ⟨out, val, hrun⟩ := h.runOf hq hall fun _ => 1
      have hlt := hrun.scale_lt ⟨((Impl.depthwise tagI tagO).sizes inputD).G - 1, 0, 0, 0, 0⟩
        ⟨by dsimp only; omega, hOCpos, hIC, hH, hW⟩ hD
      rw [Impl.scaleIdx_depthwise, if_pos hD, Nat.zero_add, Nat.mod_eq_of_lt (by dsimp only; omega)] at hlt
      exact hlt

/-- A reorder with compensation treats all scales and weights right if and only if the compensation fits
into `int32_t`, the channels of a group need no padding where each has its scale, and a block of groups
holds all channels. -/
theorem Impl.execute_correct_iff (h : impl.Accepts inputD outputD mask)
    (hq : q.Covers (if outputD.extra.scaleAdjust then scaleAdjust else q.one)) :
    (∀ scales : List F, scales.length = dMask inputD mask → ∀ (input : ℤ → α) (st : Output),
      ∃ out, impl.execute q inputD outputD mask scales scaleAdjust input st = some out ∧
        impl.Correct q inputD outputD mask scales
          (if outputD.extra.scaleAdjust then scaleAdjust else q.one) input out) ↔
      impl.Sound inputD mask :=
  ⟨fun hall => h.sound_of_correct hq hall, fun hsound _ hlen input st => h.correct_of_sound hsound hlen scaleAdjust input st⟩

end Condition

/-! ## Examples -/

/-- Descriptors that are made by tags. -/
theorem Impl.accepts_of_tags {impl : Impl} (hmem : impl ∈ implList) {ndims ndims' mask : ℕ} {dims dims' : ℕ → ℤ}
    {dt : DataType} {tag : FormatTag} {imd omd : MemoryDesc} {extra : MemoryExtraDesc}
    (himd : memoryDescInitByTag ndims dims dt tag = .ok imd)
    (homd : memoryDescInitByTag ndims' dims' .s8 impl.tagO = .ok omd) (hkind : imd.formatKind = .blocked)
    (hplain : imd.blocking.inner = []) (hcons : imd.consistentWith { omd with extra := extra } = true)
    (happ : impl.isApplicable imd { omd with extra := extra } mask = true)
    (hpos : ∀ d < imd.ndims, 0 < imd.dims d) : impl.Accepts imd { omd with extra := extra } mask where
  mem := hmem
  built := .whole (Or.inl ⟨_, _, _, _, himd, hkind⟩)
  plain := hplain
  whole := ⟨_, _, _, homd, rfl⟩
  consistent := hcons
  applicable := happ
  dims_pos := hpos

/-- The quantisation of integers. -/
def saturate : Quantizer ℤ ℤ where
  one := 1
  mul := fun x y => x * y
  qzB0 := fun x scale => Int8.ofInt (max (-128) (min 127 (x * scale)))

theorem saturate_covers : saturate.Covers 1 := by
  refine ⟨1, fun v => ⟨v.toInt, ?_⟩⟩
  have hlow := v.le_toInt
  have hhigh := v.toInt_lt
  show Int8.ofInt (max (-128) (min 127 (1 * (v.toInt * 1)))) = v
  rw [one_mul, mul_one, min_eq_right (by omega), max_eq_right (by omega), Int8.ofInt_toInt]

theorem Impl.execute_correct_iff_ABcd4b16a4b :
    ∃ imd omd,
      memoryDescInitByTag 4 (fun d => [3, 2, 1, 1].getD d 0) .f32 .abcd = .ok imd ∧
      memoryDescInitByTag 4 (fun d => [3, 2, 1, 1].getD d 0) .s8 .ABcd4b16a4b = .ok omd ∧
      ((∀ scales : List ℤ, scales.length = dMask imd 1 → ∀ (input : ℤ → ℤ) (st : Output),
        ∃ out, (Impl.blocked .abcd .ABcd4b16a4b).execute saturate imd { omd with extra := ⟨true, false, 1⟩ } 1
            scales 1 input st = some out ∧
          (Impl.blocked .abcd .ABcd4b16a4b).Correct saturate imd { omd with extra := ⟨true, false, 1⟩ } 1
            scales 1 input out) ↔ (Impl.blocked .abcd .ABcd4b16a4b).Sound imd 1) := by
  have hall : (memoryDescInitByTag 4 (fun d => [3, 2, 1, 1].getD d 0) .f32 .abcd).toOption.any
      (fun imd => (memoryDescInitByTag 4 (fun d => [3, 2, 1, 1].getD d 0) .s8 .ABcd4b16a4b).toOption.any
        fun omd =>
          decide (imd.formatKind = .blocked ∧ imd.blocking.inner = [] ∧ ∀ d < imd.ndims, 0 < imd.dims d) &&
            imd.consistentWith { omd with extra := ⟨true, false, 1⟩ } &&
              (Impl.blocked .abcd .ABcd4b16a4b).isApplicable imd { omd with extra := ⟨true, false, 1⟩ } 1) =
      true := by
    decide +kernel
  obtain ⟨imd, himd, hrest⟩ := Checks.exists_ok_of_any hall
  obtain ⟨omd, homd, hrest⟩ := Checks.exists_ok_of_any hrest
  rw [Bool.and_eq_true, Bool.and_eq_true, decide_eq_true_eq] at hrest
  obtain ⟨⟨⟨hkind, hplain, hpos⟩, hcons⟩, happ⟩ := hrest
  have hmem : Impl.blocked .abcd .ABcd4b16a4b ∈ implList := by simp [implList]
  exact ⟨imd, omd, himd, homd, Impl.execute_correct_iff
    (Impl.accepts_of_tags hmem himd homd hkind hplain hcons happ hpos) saturate_covers⟩

/-- Two groups of three channels in blocks of sixteen, with one scale for each channel: the scales of the
second group are read behind the six. -/
theorem Impl.execute_reads_behind_scales :
    ∃ imd omd,
      memoryDescInitByTag 5 (fun d => [2, 3, 1, 1, 1].getD d 0) .f32 .abcde = .ok imd ∧
      memoryDescInitByTag 5 (fun d => [2, 3, 1, 1, 1].getD d 0) .s8 .aBCde4c16b4c = .ok omd ∧
      (Impl.blocked .abcde .aBCde4c16b4c).Accepts imd { omd with extra := ⟨true, false, 3⟩ } 3 ∧
      dMask imd 3 = 6 ∧
      ∀ (input : ℤ → ℤ) (st : Output),
        (Impl.blocked .abcde .aBCde4c16b4c).execute saturate imd { omd with extra := ⟨true, false, 3⟩ } 3
          [1, 1, 1, 1, 1, 1] 1 input st = none := by
  have hall : (memoryDescInitByTag 5 (fun d => [2, 3, 1, 1, 1].getD d 0) .f32 .abcde).toOption.any
      (fun imd => (memoryDescInitByTag 5 (fun d => [2, 3, 1, 1, 1].getD d 0) .s8 .aBCde4c16b4c).toOption.any
        fun omd =>
          decide (imd.formatKind = .blocked ∧ imd.blocking.inner = [] ∧ (∀ d < imd.ndims, 0 < imd.dims d) ∧
            dMask imd 3 = 6 ∧ imd.dims 0 = 2 ∧ omd.paddedDims 1 = 16) &&
            imd.consistentWith { omd with extra := ⟨true, false, 3⟩ } &&
              (Impl.blocked .abcde .aBCde4c16b4c).isApplicable imd { omd with extra := ⟨true, false, 3⟩ } 3) =
      true := by
    decide +kernel
  obtain ⟨imd, himd, hrest⟩ := Checks.exists_ok_of_any hall
  obtain ⟨omd, homd, hrest⟩ := Checks.exists_ok_of_any hrest
  rw [Bool.and_eq_true, Bool.and_eq_true, decide_eq_true_eq] at hrest
  obtain ⟨⟨⟨hkind, hplain, hpos, hD, hG, hpad⟩, hcons⟩, happ⟩ := hrest
  have hmem : Impl.blocked .abcde .aBCde4c16b4c ∈ implList := by simp [implList]
  have h := Impl.accepts_of_tags hmem himd homd hkind hplain hcons happ hpos
  refine ⟨imd, omd, himd, homd, h, hD, fun input st => ?_⟩
  obtain ⟨-, hOC, hIC, hH, hW⟩ := h.sizes_pos
  have hx : ((Impl.blocked .abcde .aBCde4c16b4c).sizes imd).Mem ⟨1, 0, 0, 0, 0⟩ := by
    refine ⟨?_, hOC, hIC, hH, hW⟩
    show 1 < imd.dims 0
    omega
  rw [Option.eq_none_iff_forall_ne_some]
  intro out hout
  obtain ⟨o, ho⟩ := Blocked.value_of_execute h hout hx
  obtain ⟨scale, hscale⟩ := Impl.read_of_value ho
  rw [Impl.scaleIdx_blocked, if_neg (by omega)] at hscale
  obtain ⟨hlt, -⟩ := List.getElem?_eq_some_iff.mp hscale
  have hlen : (scalesOf [(1 : ℤ), 1, 1, 1, 1, 1]).length = 6 := rfl
  have hgroups : (Blocked.wGroups .aBCde4c16b4c).toNat + 0 = 1 := rfl
  rw [hlen, hgroups, hpad] at hlt
  dsimp only at hlt
  omega

end MklDnn.ConvS8s8
