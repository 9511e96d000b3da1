import MklDnn.InnerProduct.InnerProductPd
import MklDnn.Memory.Proofs.BuiltProofs
import MklDnn.Memory.Proofs.LoopsProofs

/-!
# Proofs: `dense_gemm_consitency_check`

When the check divides by zero, and what an accepted triple of descriptors has in common.
-/

open LoopNest

namespace MklDnn

/-- A descriptor that a format tag or strides describe: it starts at offset zero, and its padding fills up blocks. -/
structure MemoryDesc.Operand (md : MemoryDesc) : Prop where
  wellFormed : md.WellFormed
  offset0 : md.offset0 = 0
  blocks : ∀ d < md.ndims, innerBlocks md.blocking.inner d ∣ md.paddedDims d

theorem MemoryDesc.Created.operand {md : MemoryDesc} (h : md.Created) (hk : md.formatKind = .blocked) : md.Operand := by
  have hlayout := h.blockedLayout hk
  have hpos := hlayout.inner.innerBlocks_pos
  refine ⟨⟨hlayout.inner, fun d hd => ?_, fun d _ => hlayout.paddedOffsets d⟩, hlayout.offset0, fun d hd => ?_⟩
  · rw [hlayout.paddedDims d hd]
    exact le_rndUp (hpos d)
  · rw [hlayout.paddedDims d hd, rndUp]
    exact Nat.dvd_mul_left _ _

namespace DenseGemmConsitencyCheck

variable {srcD weiD dstD : MemoryDesc}

theorem quotient_eq_none_iff {a b : ℤ} : quotient a b = none ↔ b = 0 := by
  unfold quotient
  split_ifs with h
  · simp [h]
  · simp [h]

theorem quotient_of_ne {a b : ℤ} (h : b ≠ 0) : quotient a b = some (a.tdiv b) := if_neg h

/-! ## Division by zero -/

/-- The body of the loop of `strides_compatible`. -/
def compareStep (w d : ℕ → ℤ) (ok : Bool) (i : ℕ) : Option Bool :=
  if ok then do
    let q ← quotient (w i) (d i)
    let q' ← quotient (w (i + 1)) (d (i + 1))
    return decide (q = q')
  else return false

section Loop

variable {w d : ℕ → ℤ}

theorem compareStep_of_ne {i : ℕ} (h : d i ≠ 0) (h' : d (i + 1) ≠ 0) :
    compareStep w d true i = some (decide ((w i).tdiv (d i) = (w (i + 1)).tdiv (d (i + 1)))) := by
  simp [compareStep, quotient_of_ne h, quotient_of_ne h']

theorem compareStep_of_zero {i : ℕ} (h : d i = 0 ∨ d (i + 1) = 0) : compareStep w d true i = none := by
  unfold compareStep
  by_cases hi : d i = 0
  · simp [quotient_eq_none_iff.mpr hi]
  · simp [quotient_of_ne hi, quotient_eq_none_iff.mpr (h.resolve_left hi)]

/-- Once a comparison has failed, the loop divides no more. -/
theorem foldlM_compareStep_false (l : List ℕ) : l.foldlM (compareStep w d) false = some false := by
  induction l with
  | nil => rfl
  | cons i l ih => rw [List.foldlM_cons]; exact ih

/-- The loop divides by zero at the first zero stride, unless a comparison before it fails. -/
theorem foldlM_compareStep_eq_none_iff (a m : ℕ) :
    (List.range' a m).foldlM (compareStep w d) true = none ↔
      0 < m ∧ ∃ j, a ≤ j ∧ j ≤ a + m ∧ d j = 0 ∧
        ∀ i, a ≤ i → i + 1 < j → (w i).tdiv (d i) = (w (i + 1)).tdiv (d (i + 1)) := by
  induction m generalizing a with
  | zero => simp
  | succ m ih =>
    rw [List.range'_succ, List.foldlM_cons]
    by_cases hzero : d a = 0 ∨ d (a + 1) = 0
    · rw [compareStep_of_zero hzero]
      refine ⟨fun _ => ⟨Nat.succ_pos m, ?_⟩, fun _ => rfl⟩
      rcases hzero with h | h
      · exact ⟨a, le_rfl, Nat.le_add_right _ _, h, fun i hi hlt => by omega⟩
      · exact ⟨a + 1, Nat.le_succ a, by omega, h, fun i hi hlt => by omega⟩
    · have hne : d a ≠ 0 ∧ d (a + 1) ≠ 0 := not_or.mp hzero
      rw [compareStep_of_ne hne.1 hne.2, Option.bind_eq_bind, Option.bind_some]
      by_cases heq : (w a).tdiv (d a) = (w (a + 1)).tdiv (d (a + 1))
      · rw [decide_eq_true heq, ih]
        constructor
        · rintro ⟨-, j, hj, hjm, hdj, hall⟩
          refine ⟨Nat.succ_pos m, j, by omega, by omega, hdj, fun i hi hlt => ?_⟩
          rcases Nat.eq_or_lt_of_le hi with rfl | hlt'
          · exact heq
          · exact hall i hlt' hlt
        · rintro ⟨-, j, hj, hjm, hdj, hall⟩
          have hja : j ≠ a := fun h => hne.1 (h ▸ hdj)
          have hja' : j ≠ a + 1 := fun h => hne.2 (h ▸ hdj)
          exact ⟨by omega, j, by omega, by omega, hdj, fun i hi hlt => hall i (by omega) hlt⟩
      · rw [decide_eq_false heq, foldlM_compareStep_false]
        refine ⟨fun h => by simp at h, ?_⟩
        rintro ⟨-, j, hj, hjm, hdj, hall⟩
        have hja : j ≠ a := fun h => hne.1 (h ▸ hdj)
        have hja' : j ≠ a + 1 := fun h => hne.2 (h ▸ hdj)
        exact absurd (hall a le_rfl (by omega)) heq

end Loop

/-- `w_str[i] / d_str[i]` -/
def strideRatio (srcD weiD : MemoryDesc) (i : ℕ) : ℤ := (weiD.blocking.strides i).tdiv (srcD.blocking.strides i)

/-- No stride of the source is zero, or the ratios of the strides before the first one that is differ. -/
def StridesNonzero (srcD weiD : MemoryDesc) : Prop :=
  ∀ j, 1 ≤ j → j < srcD.ndims → srcD.blocking.strides j = 0 →
    ∃ i, 1 ≤ i ∧ i + 1 < j ∧ strideRatio srcD weiD i ≠ strideRatio srcD weiD (i + 1)

theorem stridesCompatible_eq_none_iff (hnd : 2 ≤ srcD.ndims) :
    stridesCompatible srcD weiD = none ↔ ¬ StridesNonzero srcD weiD := by
  have hstep := foldlM_compareStep_eq_none_iff (w := weiD.blocking.strides) (d := srcD.blocking.strides) 1 (srcD.ndims - 2)
  have hunfold : stridesCompatible srcD weiD =
      ((List.range' 1 (srcD.ndims - 2)).foldlM (compareStep weiD.blocking.strides srcD.blocking.strides) true).bind
        fun ok => if ok then
          (quotient (weiD.blocking.strides 1) (srcD.blocking.strides 1)).bind fun q =>
            some (decide (q = 1 ∨ q = weiD.paddedDims 0))
        else some false := rfl
  unfold StridesNonzero
  push Not
  rw [hunfold]
  cases hloop : (List.range' 1 (srcD.ndims - 2)).foldlM
    (compareStep weiD.blocking.strides srcD.blocking.strides) true with
  | none =>
    obtain ⟨-, j, hj, hjm, hdj, hall⟩ := hstep.mp hloop
    exact ⟨fun _ => ⟨j, hj, by omega, hdj, hall⟩, fun _ => rfl⟩
  | some ok =>
    have hnone : ¬ (0 < srcD.ndims - 2 ∧ ∃ j, 1 ≤ j ∧ j ≤ 1 + (srcD.ndims - 2) ∧ srcD.blocking.strides j = 0 ∧
        ∀ i, 1 ≤ i → i + 1 < j → strideRatio srcD weiD i = strideRatio srcD weiD (i + 1)) := by
      intro h
      have hbad := hstep.mpr h
      rw [hloop] at hbad
      cases hbad
    rcases Nat.eq_or_lt_of_le hnd with htwo | hmore
    · -- the loop has no iteration
      have hok : ok = true := by
        rw [← htwo] at hloop
        exact (Option.some.inj hloop).symm
      subst hok
      rw [Option.bind_some, if_pos rfl, Option.bind_eq_none_iff]
      constructor
      · intro h
        by_cases hzero : srcD.blocking.strides 1 = 0
        · exact ⟨1, le_rfl, by omega, hzero, fun i hi hlt => by omega⟩
        · exact absurd (h _ (quotient_of_ne hzero)) (by simp)
      · rintro ⟨j, hj, hlt, hdj, -⟩ q hq
        obtain rfl : j = 1 := by omega
        rw [quotient_eq_none_iff.mpr hdj] at hq
        cases hq
    · have hne : ∀ j, 1 ≤ j → j < srcD.ndims → srcD.blocking.strides j = 0 →
          ¬ ∀ i, 1 ≤ i → i + 1 < j → strideRatio srcD weiD i = strideRatio srcD weiD (i + 1) :=
        fun j hj hlt hdj hall => hnone ⟨by omega, j, hj, by omega, hdj, hall⟩
      have hone : srcD.blocking.strides 1 ≠ 0 := fun h => hne 1 le_rfl (by omega) h fun i hi hlt => by omega
      refine ⟨fun h => ?_, fun ⟨j, hj, hlt, hdj, hall⟩ => absurd hall (hne j hj hlt hdj)⟩
      rw [Option.bind_some, quotient_of_ne hone] at h
      cases ok <;> cases h

/-! ## The inner blocks -/

theorem innerBlkCompatible_ne_none (hwei : weiD.Operand) : innerBlkCompatible srcD weiD ≠ none := by
  unfold innerBlkCompatible
  cases hlast : weiD.blocking.inner.getLast? with
  | none => simp [hlast]
  | some last =>
    have hblk : (last.blk : ℤ) ≠ 0 := by
      have hpos := (hwei.wellFormed.valid last (List.mem_of_getLast? hlast)).2
      omega
    by_cases h : weiD.blocking.strides 0 = 1
    · simp [hlast, h, quotient_of_ne hblk]
    · simp [hlast, h]

/-- The weights have the inner blocks of the source, or a block of all output channels inside of them. -/
structure InnerCompatible (srcD weiD : MemoryDesc) : Prop where
  same : weiD.blocking.strides 0 ≠ 1 → weiD.blocking.inner = srcD.blocking.inner
  tail : weiD.blocking.strides 0 = 1 → weiD.blocking.inner = [] ∧ srcD.blocking.inner = [] ∨
    ∃ blk, weiD.blocking.inner = srcD.blocking.inner ++ [⟨0, blk⟩] ∧ weiD.dims 0 / blk = 1

theorem innerCompatible_of_eq_true (h : innerBlkCompatible srcD weiD = some true) : InnerCompatible srcD weiD := by
  unfold innerBlkCompatible at h
  dsimp only at h
  cases hlast : weiD.blocking.inner.getLast? with
  | none =>
    rw [hlast] at h
    have heq : srcD.blocking.inner = weiD.blocking.inner := of_decide_eq_true (Option.some.inj h)
    have hnil := List.getLast?_eq_none_iff.mp hlast
    exact ⟨fun _ => heq.symm, fun _ => Or.inl ⟨hnil, heq.trans hnil⟩⟩
  | some last =>
    rw [hlast] at h
    by_cases hone : weiD.blocking.strides 0 = 1
    · refine ⟨fun hne => absurd hone hne, fun _ => Or.inr ⟨last.blk, ?_⟩⟩
      dsimp only at h
      rw [if_pos hone] at h
      obtain ⟨q, hq, h⟩ := Option.bind_eq_some_iff.mp h
      obtain ⟨hq1, hidx, hinner⟩ := of_decide_eq_true (Option.some.inj h)
      have hblk : (last.blk : ℤ) ≠ 0 := fun h0 => by
        rw [quotient_eq_none_iff.mpr h0] at hq
        cases hq
      rw [quotient_of_ne hblk] at hq
      have hdiv : ((weiD.dims 0 : ℤ)).tdiv (last.blk : ℤ) = 1 := (Option.some.inj hq).trans hq1
      refine ⟨?_, ?_⟩
      · obtain ⟨ys, hys⟩ := List.getLast?_eq_some_iff.mp hlast
        rw [hinner, hys, List.dropLast_concat, ← hidx]
      · rw [Int.tdiv_eq_ediv_of_nonneg (Int.natCast_nonneg _)] at hdiv
        exact_mod_cast hdiv
    · dsimp only at h
      rw [if_neg hone] at h
      have heq : srcD.blocking.inner = weiD.blocking.inner := of_decide_eq_true (Option.some.inj h)
      exact ⟨fun _ => heq.symm, fun h1 => absurd h1 hone⟩

end DenseGemmConsitencyCheck

open DenseGemmConsitencyCheck

variable {srcD weiD dstD : MemoryDesc}

/-- The check reaches the comparison of the strides. -/
def ReachesStrides (srcD weiD : MemoryDesc) : Prop :=
  srcD.isBlockingDesc = true ∧ weiD.isBlockingDesc = true ∧ srcD.ndims = weiD.ndims ∧
    innerBlkCompatible srcD weiD = some true

theorem denseGemmConsitencyCheck_eq_none_iff (hnd : 2 ≤ srcD.ndims) (hwei : weiD.Operand) :
    denseGemmConsitencyCheck srcD weiD dstD = none ↔ ReachesStrides srcD weiD ∧ ¬ StridesNonzero srcD weiD := by
  unfold denseGemmConsitencyCheck ReachesStrides
  rw [← stridesCompatible_eq_none_iff hnd]
  by_cases hblocked : srcD.isBlockingDesc = true ∧ weiD.isBlockingDesc = true ∧ srcD.ndims = weiD.ndims
  · obtain ⟨hsrc, hw, hndims⟩ := hblocked
    cases hinner : innerBlkCompatible srcD weiD with
    | none => exact absurd hinner (innerBlkCompatible_ne_none hwei)
    | some ok =>
      cases hstrides : stridesCompatible srcD weiD with
      | none => cases ok <;> simp [hsrc, hw, hndims]
      | some ok' => cases ok <;> cases ok' <;> simp [hsrc, hw, hndims]
  · have hfalse : (!(srcD.isBlockingDesc && weiD.isBlockingDesc && decide (srcD.ndims = weiD.ndims))) = true := by
      rw [Bool.not_eq_true', ← Bool.not_eq_true, Bool.and_eq_true, Bool.and_eq_true, decide_eq_true_eq, and_assoc]
      exact hblocked
    rw [if_pos hfalse]
    constructor
    · intro h
      cases h
    · rintro ⟨⟨hsrc, hw, hndims, -⟩, -⟩
      exact absurd ⟨hsrc, hw, hndims⟩ hblocked

/-- What the check has found out about layouts that it accepts. -/
structure GemmConsistent (srcD weiD dstD : MemoryDesc) : Prop where
  ndims : srcD.ndims = weiD.ndims
  inner : InnerCompatible srcD weiD
  dst : dstD.matchesTag .ab = true
  srcPadded : ∀ d < srcD.ndims, d ≠ 1 → srcD.dims d = srcD.paddedDims d
  weiPadded : ∀ d < weiD.ndims, d ≠ 1 → weiD.dims d = weiD.paddedDims d
  padded : srcD.paddedDims 1 = weiD.paddedDims 1

theorem gemmConsistent_of_eq_true (h : denseGemmConsitencyCheck srcD weiD dstD = some true) :
    GemmConsistent srcD weiD dstD := by
  unfold denseGemmConsitencyCheck at h
  split_ifs at h with hblocked
  · cases h
  obtain ⟨ok, hinner, h⟩ := Option.bind_eq_some_iff.mp h
  split_ifs at h with hok
  · cases h
  obtain ⟨ok', hstrides, h⟩ := Option.bind_eq_some_iff.mp h
  split_ifs at h with hok'
  · cases h
  have hok : ok = true := by simpa using hok
  subst hok
  have hndims : srcD.ndims = weiD.ndims := by
    simp only [Bool.not_eq_true', Bool.not_eq_false, Bool.and_eq_true, decide_eq_true_eq] at hblocked
    exact hblocked.2
  have hrest := Option.some.inj h
  simp only [Bool.and_eq_true, decide_eq_true_eq, MemoryDesc.onlyPaddedDim] at hrest
  obtain ⟨⟨⟨⟨⟨⟨hdst, hsrc⟩, hwei⟩, hpadded⟩, -⟩, -⟩, -⟩ := hrest
  exact ⟨hndims, innerCompatible_of_eq_true hinner, hdst, hsrc, hwei, hpadded⟩

end MklDnn
