import Mathlib.Tactic.Linarith
import Mathlib.Tactic.Ring
import MklDnn.Common.Proofs.ThreadingProofs
import MklDnn.Conv.Im2col

/-!
# Proofs: `im2col_u8`

Both paths of `im2col_u8` write, for every tap of the kernel and every position of the tile, the element of
the image under the tap, moved by the zero point.
-/

open LoopNest

namespace MklDnn.JitGemmConvolutionUtils

/-! ## Ranges -/

/-- Digits of a mixed radix. -/
theorem mul_add_inj {n a a' b b' : ℤ} (hb : 0 ≤ b ∧ b < n) (hb' : 0 ≤ b' ∧ b' < n)
    (h : a * n + b = a' * n + b') : a = a' ∧ b = b' := by
  have hn : n ≠ 0 := by omega
  have hdiv : (b + a * n) / n = (b' + a' * n) / n := by
    rw [add_comm b, add_comm b', h]
  rw [Int.add_mul_ediv_right _ _ hn, Int.add_mul_ediv_right _ _ hn, Int.ediv_eq_zero_of_lt hb.1 hb.2,
    Int.ediv_eq_zero_of_lt hb'.1 hb'.2, zero_add, zero_add] at hdiv
  subst hdiv
  exact ⟨rfl, by omega⟩

theorem saturate_nonneg (n x : ℤ) : 0 ≤ saturate 0 n x := le_max_left _ _

theorem saturate_le {n : ℕ} (x : ℤ) : saturate 0 n x ≤ n := by
  unfold saturate
  omega

theorem saturate_mono {n : ℕ} {x y : ℤ} (h : x ≤ y) : saturate 0 n x ≤ saturate 0 n y := by
  unfold saturate
  omega

theorem lt_saturate {n : ℕ} {x i : ℤ} (hi : 0 ≤ i ∧ i < n) : i < saturate 0 n x ↔ i < x := by
  unfold saturate
  omega

/-- A range cut at two places. -/
theorem mem_cut {β : Type*} {s e n : ℤ} (hs : 0 ≤ s) (hse : s ≤ e) (hen : e ≤ n) (f g : ℤ → β) (x : β) :
    x ∈ (Int.range 0 s).map f ++ (Int.range s e).map g ++ (Int.range e n).map f ↔
      ∃ i, (0 ≤ i ∧ i < n) ∧ x = if s ≤ i ∧ i < e then g i else f i := by
  simp only [List.mem_append, List.mem_map, Int.mem_range_iff]
  constructor
  · rintro ((⟨i, hi, rfl⟩ | ⟨i, hi, rfl⟩) | ⟨i, hi, rfl⟩)
    · exact ⟨i, ⟨hi.1, by omega⟩, (if_neg (by omega)).symm⟩
    · exact ⟨i, ⟨by omega, by omega⟩, (if_pos hi).symm⟩
    · exact ⟨i, ⟨by omega, hi.2⟩, (if_neg (by omega)).symm⟩
  · rintro ⟨i, hi, rfl⟩
    by_cases hlow : i < s
    · rw [if_neg (by omega)]
      exact .inl (.inl ⟨i, ⟨hi.1, hlow⟩, rfl⟩)
    · by_cases hhigh : i < e
      · rw [if_pos ⟨by omega, hhigh⟩]
        exact .inl (.inr ⟨i, ⟨by omega, hhigh⟩, rfl⟩)
      · rw [if_neg (by omega)]
        exact .inr ⟨i, ⟨by omega, hi.2⟩, rfl⟩

/-- Rows cut at two places. -/
theorem mem_cut_flatMap {β : Type*} {s e n : ℤ} (hs : 0 ≤ s) (hse : s ≤ e) (hen : e ≤ n) (f g : ℤ → List β)
    (x : β) :
    x ∈ (Int.range 0 s).flatMap f ++ (Int.range s e).flatMap g ++ (Int.range e n).flatMap f ↔
      ∃ i, (0 ≤ i ∧ i < n) ∧ x ∈ if s ≤ i ∧ i < e then g i else f i := by
  simp only [List.mem_append, List.mem_flatMap, Int.mem_range_iff]
  constructor
  · rintro ((⟨i, hi, hx⟩ | ⟨i, hi, hx⟩) | ⟨i, hi, hx⟩)
    · refine ⟨i, ⟨hi.1, by omega⟩, ?_⟩
      rwa [if_neg (by omega)]
    · refine ⟨i, ⟨by omega, by omega⟩, ?_⟩
      rwa [if_pos hi]
    · refine ⟨i, ⟨by omega, hi.2⟩, ?_⟩
      rwa [if_neg (by omega)]
  · rintro ⟨i, hi, hx⟩
    by_cases hlow : i < s
    · rw [if_neg (by omega)] at hx
      exact .inl (.inl ⟨i, ⟨hi.1, hlow⟩, hx⟩)
    · by_cases hhigh : i < e
      · rw [if_pos ⟨by omega, hhigh⟩] at hx
        exact .inl (.inr ⟨i, ⟨by omega, hhigh⟩, hx⟩)
      · rw [if_neg (by omega)] at hx
        exact .inr ⟨i, ⟨by omega, hi.2⟩, hx⟩

/-- `div_up` of a value that may be negative, seen from a natural number. -/
theorem lt_tdiv_iff {x n : ℤ} {s : ℕ} (hs : 0 < s) (hn : 0 ≤ n) : n < (x + s - 1).tdiv s ↔ n * s < x := by
  have hs' : (0 : ℤ) < s := by exact_mod_cast hs
  rcases le_or_gt 0 (x + s - 1) with hx | hx
  · rw [Int.tdiv_eq_ediv_of_nonneg hx, ← Int.add_one_le_iff, Int.le_ediv_iff_mul_le hs', add_mul, one_mul]
    omega
  · have hdiv : (x + s - 1).tdiv s ≤ 0 := by
      rw [← neg_neg (x + s - 1), Int.neg_tdiv]
      have := @Int.tdiv_nonneg (-(x + s - 1)) s (by omega) (by omega)
      omega
    have hmul : 0 ≤ n * s := mul_nonneg hn (by omega)
    constructor
    · intro h
      omega
    · intro h
      omega

/-! ## Taps -/

variable {jcp : JitGemmConvConf} {hb wb : ℕ}

/-- A tap of the kernel, with a channel and a position in the tile. -/
structure Tap where
  kh : ℤ
  kw : ℤ
  ic : ℤ
  oh : ℤ
  ow : ℤ

/-- The taps of a tile. -/
structure Tap.Mem (jcp : JitGemmConvConf) (hb wb : ℕ) (t : Tap) : Prop where
  kh : 0 ≤ t.kh ∧ t.kh < jcp.kh
  kw : 0 ≤ t.kw ∧ t.kw < jcp.kw
  ic : 0 ≤ t.ic ∧ t.ic < jcp.ic
  oh : 0 ≤ t.oh ∧ t.oh < hb
  ow : 0 ≤ t.ow ∧ t.ow < wb

/-- The offset of a tap in `col[kh][kw][ic][oh][ow]`. -/
def Tap.colIdx (jcp : JitGemmConvConf) (hb wb : ℕ) (t : Tap) : ℤ :=
  (((t.kh * jcp.kw + t.kw) * jcp.ic + t.ic) * hb + t.oh) * wb + t.ow

theorem Tap.colIdx_injective {t t' : Tap} (h : t.Mem jcp hb wb) (h' : t'.Mem jcp hb wb)
    (he : t.colIdx jcp hb wb = t'.colIdx jcp hb wb) : t = t' := by
  obtain ⟨he, how⟩ := mul_add_inj h.ow h'.ow he
  obtain ⟨he, hoh⟩ := mul_add_inj h.oh h'.oh he
  obtain ⟨he, hic⟩ := mul_add_inj h.ic h'.ic he
  obtain ⟨hkh, hkw⟩ := mul_add_inj h.kw h'.kw he
  cases t
  cases t'
  rw [Tap.mk.injEq]
  exact ⟨hkh, hkw, hic, hoh, how⟩

section Value

variable {α : Type*} {toInt : α → ℤ} {im : ℤ → α} {hs ws : ℕ}

/-- The row of the image under a tap. -/
def Tap.ih (jcp : JitGemmConvConf) (hs : ℕ) (t : Tap) : ℤ := (t.oh + hs) * jcp.strideH - jcp.tPad + t.kh * jcp.dh

/-- The column of the image under a tap. -/
def Tap.iw (jcp : JitGemmConvConf) (ws : ℕ) (t : Tap) : ℤ := (t.ow + ws) * jcp.strideW - jcp.lPad + t.kw * jcp.dw

/-- The element of the image under a tap, moved by the zero point, or the zero point outside the image. -/
def Tap.valueU8 (jcp : JitGemmConvConf) (toInt : α → ℤ) (im : ℤ → α) (hs ws : ℕ) (t : Tap) : UInt8 :=
  if (0 ≤ t.ih jcp hs ∧ t.ih jcp hs < jcp.ih) ∧ 0 ≤ t.iw jcp ws ∧ t.iw jcp ws < jcp.iw then
    shifted jcp toInt (im (t.ih jcp hs * imIhStride jcp + t.ic + t.iw jcp ws * imIwStride jcp))
  else UInt8.ofInt (shift jcp)

/-- The writes that fill the columns. -/
def FillsCol (jcp : JitGemmConvConf) (toInt : α → ℤ) (im : ℤ → α) (hs hb ws wb : ℕ) (l : List (ℤ × UInt8)) : Prop :=
  ∀ w, w ∈ l ↔ ∃ t : Tap, t.Mem jcp hb wb ∧ w = (t.colIdx jcp hb wb, t.valueU8 jcp toInt im hs ws)

theorem FillsCol.consistent {l : List (ℤ × UInt8)} (h : FillsCol jcp toInt im hs hb ws wb l) : Consistent l := by
  intro w hw w' hw' he
  obtain ⟨t, ht, rfl⟩ := (h w).mp hw
  obtain ⟨t', ht', rfl⟩ := (h w').mp hw'
  rw [Tap.colIdx_injective ht ht' he]

theorem FillsCol.applyWrites {l : List (ℤ × UInt8)} (h : FillsCol jcp toInt im hs hb ws wb l) {t : Tap}
    (ht : t.Mem jcp hb wb) (col : ℤ → UInt8) :
    applyWrites l col (t.colIdx jcp hb wb) = t.valueU8 jcp toInt im hs ws :=
  applyWrites_of_mem h.consistent ((h _).mpr ⟨t, ht, rfl⟩) col

/-! ## The general path -/

/-- A row of the tile. -/
theorem mem_im2colU8Row (hsw : 0 < jcp.strideW) (kh kw ic oh : ℕ) (w : ℤ × UInt8) :
    w ∈ im2colU8Row jcp toInt im hs hb ws wb kh kw ic oh ↔ ∃ ow : ℤ, (0 ≤ ow ∧ ow < wb) ∧
      w = (Tap.colIdx jcp hb wb ⟨kh, kw, ic, oh, ow⟩, Tap.valueU8 jcp toInt im hs ws ⟨kh, kw, ic, oh, ow⟩) := by
  have hidx : ∀ ow : ℤ, ((((kh * jcp.kw + kw) * jcp.ic + ic) * hb + oh) * wb : ℕ) + ow =
      Tap.colIdx jcp hb wb ⟨kh, kw, ic, oh, ow⟩ := by
    intro ow
    unfold Tap.colIdx
    push_cast
    rfl
  have hih : ∀ ow : ℤ, Tap.ih jcp hs ⟨kh, kw, ic, oh, ow⟩ =
      ((oh : ℤ) + hs) * jcp.strideH - (jcp.tPad - kh * jcp.dh) := by
    intro ow
    unfold Tap.ih
    ring
  unfold im2colU8Row
  dsimp only
  split_ifs with hout
  · -- the row lies outside the image
    simp only [List.mem_map, Int.mem_range_iff, hidx]
    have hvalue : ∀ ow : ℤ, Tap.valueU8 jcp toInt im hs ws ⟨kh, kw, ic, oh, ow⟩ = UInt8.ofInt (shift jcp) := by
      intro ow
      apply if_neg
      rw [hih]
      omega
    constructor
    · rintro ⟨ow, how, rfl⟩
      exact ⟨ow, how, by rw [hvalue]⟩
    · rintro ⟨ow, how, rfl⟩
      exact ⟨ow, how, by rw [hvalue]⟩
  · have hmono : (jcp.lPad - kw * jcp.dw + jcp.strideW - 1).tdiv jcp.strideW - ws ≤
        (jcp.iw + (jcp.lPad - kw * jcp.dw) + jcp.strideW - 1).tdiv jcp.strideW - ws :=
      Int.sub_le_sub_right (Int.tdiv_le_tdiv (by omega) (by omega)) _
    rw [mem_cut (saturate_nonneg _ _) (saturate_mono hmono) (saturate_le _)]
    apply exists_congr
    intro ow
    apply and_congr_right
    intro how
    have hiw : Tap.iw jcp ws ⟨kh, kw, ic, oh, ow⟩ = (ow + ws) * jcp.strideW - (jcp.lPad - kw * jcp.dw) := by
      unfold Tap.iw
      ring
    have hcut : (saturate 0 wb ((jcp.lPad - kw * jcp.dw + jcp.strideW - 1).tdiv jcp.strideW - ws) ≤ ow ∧
        ow < saturate 0 wb ((jcp.iw + (jcp.lPad - kw * jcp.dw) + jcp.strideW - 1).tdiv jcp.strideW - ws)) ↔
        0 ≤ Tap.iw jcp ws ⟨kh, kw, ic, oh, ow⟩ ∧ Tap.iw jcp ws ⟨kh, kw, ic, oh, ow⟩ < jcp.iw := by
      rw [← not_lt, lt_saturate how, lt_saturate how, lt_sub_iff_add_lt, lt_sub_iff_add_lt,
        lt_tdiv_iff hsw (by omega), lt_tdiv_iff hsw (by omega), hiw]
      omega
    have hin : 0 ≤ Tap.ih jcp hs ⟨kh, kw, ic, oh, ow⟩ ∧ Tap.ih jcp hs ⟨kh, kw, ic, oh, ow⟩ < jcp.ih := by
      rw [hih]
      omega
    have hvalue : Tap.valueU8 jcp toInt im hs ws ⟨kh, kw, ic, oh, ow⟩ =
        if 0 ≤ Tap.iw jcp ws ⟨kh, kw, ic, oh, ow⟩ ∧ Tap.iw jcp ws ⟨kh, kw, ic, oh, ow⟩ < jcp.iw then
          shifted jcp toInt (im (Tap.ih jcp hs ⟨kh, kw, ic, oh, ow⟩ * imIhStride jcp + ic +
            Tap.iw jcp ws ⟨kh, kw, ic, oh, ow⟩ * imIwStride jcp))
        else UInt8.ofInt (shift jcp) := by
      unfold Tap.valueU8
      simp only [hin, and_self, true_and]
    have hbase : ws * jcp.strideW - (jcp.lPad - kw * jcp.dw) + ow * jcp.strideW =
        Tap.iw jcp ws ⟨kh, kw, ic, oh, ow⟩ := by
      rw [hiw]
      ring
    simp only [hcut, hvalue, hidx, hbase, ← hih ow]
    split_ifs <;> rfl

theorem fillsCol_im2colU8General (toInt : α → ℤ) (im : ℤ → α) (hs hb ws wb : ℕ) (hsw : 0 < jcp.strideW) {nthr : ℕ} (hnthr : 0 < nthr) :
    FillsCol jcp toInt im hs hb ws wb (im2colU8General jcp toInt im hs hb ws wb nthr) := by
  intro w
  unfold im2colU8General
  rw [List.mem_flatMap]
  constructor
  · rintro ⟨l, hl, hw⟩
    rw [mem_parallelNd hnthr] at hl
    obtain ⟨kh, kw, ic, oh, rfl, hkh, hkw, hic, hoh⟩ :
        ∃ kh kw ic oh, l = [kh, kw, ic, oh] ∧ kh < jcp.kh ∧ kw < jcp.kw ∧ ic < jcp.ic ∧ oh < hb := by
      cases hl with
      | cons h1 hl => cases hl with
        | cons h2 hl => cases hl with
          | cons h3 hl => cases hl with
            | cons h4 hl => cases hl with
              | nil => exact ⟨_, _, _, _, rfl, h1, h2, h3, h4⟩
    obtain ⟨ow, how, rfl⟩ := (mem_im2colU8Row hsw kh kw ic oh w).mp hw
    exact ⟨⟨kh, kw, ic, oh, ow⟩, ⟨by dsimp only; omega, by dsimp only; omega, by dsimp only; omega,
      by dsimp only; omega, how⟩, rfl⟩
  · rintro ⟨⟨kh, kw, ic, oh, ow⟩, ⟨hkh, hkw, hic, hoh, how⟩, rfl⟩
    dsimp only at hkh hkw hic hoh how
    lift kh to ℕ using hkh.1
    lift kw to ℕ using hkw.1
    lift ic to ℕ using hic.1
    lift oh to ℕ using hoh.1
    refine ⟨[kh, kw, ic, oh], ?_, (mem_im2colU8Row hsw kh kw ic oh _).mpr ⟨ow, how, rfl⟩⟩
    rw [mem_parallelNd hnthr]
    exact .cons (by omega) (.cons (by omega) (.cons (by omega) (.cons (by omega) .nil)))

/-! ## The path that transposes the image -/

/-- The transposed part of the image. -/
structure Window (jcp : JitGemmConvConf) (hs hb ws wb : ℕ) (ic ih iw : ℤ) : Prop where
  ic : 0 ≤ ic ∧ ic < jcp.ic
  ih : ihStart jcp hs ≤ ih ∧ ih < ihEnd jcp hs hb
  iw : iwStart jcp ws ≤ iw ∧ iw < iwEnd jcp ws wb

/-- The offset in `imtr[ic][ih][iw]`. -/
def imtrIdx (jcp : JitGemmConvConf) (hs hb ws wb : ℕ) (ic ih iw : ℤ) : ℤ :=
  (ic * ihb jcp hs hb + (ih - ihStart jcp hs)) * iwb jcp ws wb + (iw - iwStart jcp ws)

theorem imtrIdx_injective {ic ih iw ic' ih' iw' : ℤ} (h : Window jcp hs hb ws wb ic ih iw)
    (h' : Window jcp hs hb ws wb ic' ih' iw')
    (he : imtrIdx jcp hs hb ws wb ic ih iw = imtrIdx jcp hs hb ws wb ic' ih' iw') :
    ic = ic' ∧ ih = ih' ∧ iw = iw' := by
  have hih := h.ih
  have hiw := h.iw
  have hih' := h'.ih
  have hiw' := h'.iw
  unfold imtrIdx iwb ihb at he
  obtain ⟨he, hw⟩ := mul_add_inj (by omega) (by omega) he
  obtain ⟨hc, hh⟩ := mul_add_inj (by omega) (by omega) he
  exact ⟨hc, by omega, by omega⟩

theorem mem_transpose {w : ℤ × α} : w ∈ transpose jcp im hs hb ws wb ↔
    ∃ ic ih iw, Window jcp hs hb ws wb ic ih iw ∧
      w = (imtrIdx jcp hs hb ws wb ic ih iw, im (ih * imIhStride jcp + ic + iw * imIwStride jcp)) := by
  have hidx : ∀ ic ih iw : ℤ, ic * (ihb jcp hs hb * iwb jcp ws wb) -
      (ihStart jcp hs * iwb jcp ws wb + iwStart jcp ws) + ih * iwb jcp ws wb + iw =
        imtrIdx jcp hs hb ws wb ic ih iw := by
    intro ic ih iw
    unfold imtrIdx
    ring
  have hsrc : ∀ ic ih iw : ℤ, ic + ih * imIhStride jcp + iw * imIwStride jcp =
      ih * imIhStride jcp + ic + iw * imIwStride jcp := by
    intro ic ih iw
    ring
  simp only [transpose, List.mem_flatMap, List.mem_map, List.mem_range, Int.mem_range_iff, hidx, hsrc]
  constructor
  · rintro ⟨ic, hic, ih, hih, iw, hiw, rfl⟩
    exact ⟨ic, ih, iw, ⟨by omega, hih, hiw⟩, rfl⟩
  · rintro ⟨ic, ih, iw, ⟨hic, hih, hiw⟩, rfl⟩
    lift ic to ℕ using hic.1
    exact ⟨ic, by omega, ih, hih, iw, hiw, rfl⟩

/-- The transposed image. -/
theorem applyWrites_transpose {ic ih iw : ℤ} (h : Window jcp hs hb ws wb ic ih iw) (imtr : ℤ → α) :
    applyWrites (transpose jcp im hs hb ws wb) imtr (imtrIdx jcp hs hb ws wb ic ih iw) =
      im (ih * imIhStride jcp + ic + iw * imIwStride jcp) := by
  apply applyWrites_of_mem
  · intro w hw w' hw' he
    obtain ⟨ic, ih, iw, hwin, rfl⟩ := mem_transpose.mp hw
    obtain ⟨ic', ih', iw', hwin', rfl⟩ := mem_transpose.mp hw'
    obtain ⟨rfl, rfl, rfl⟩ := imtrIdx_injective hwin hwin' he
    rfl
  · exact mem_transpose.mpr ⟨ic, ih, iw, h, rfl⟩

theorem ihStart_le_ihEnd (jcp : JitGemmConvConf) (hs hb : ℕ) : ihStart jcp hs ≤ ihEnd jcp hs hb := saturate_mono (by omega)

theorem iwStart_le_iwEnd (jcp : JitGemmConvConf) (ws wb : ℕ) : iwStart jcp ws ≤ iwEnd jcp ws wb := saturate_mono (by omega)

/-- The transposed rows that a tap reads are the rows inside the image. -/
theorem window_ih {kh : ℕ} (hkh : kh < jcp.kh) {oh : ℤ} (hoh : 0 ≤ oh ∧ oh < hb) :
    ihStart jcp hs ≤ oh + (hs - jcp.tPad) + kh ∧ oh + (hs - jcp.tPad) + kh < ihEnd jcp hs hb ↔
      0 ≤ oh + (hs - jcp.tPad) + kh ∧ oh + (hs - jcp.tPad) + kh < jcp.ih := by
  unfold ihStart ihEnd saturate
  omega

theorem window_iw {kw : ℕ} (hkw : kw < jcp.kw) {ow : ℤ} (how : 0 ≤ ow ∧ ow < wb) :
    iwStart jcp ws ≤ ow + (ws - jcp.lPad) + kw ∧ ow + (ws - jcp.lPad) + kw < iwEnd jcp ws wb ↔
      0 ≤ ow + (ws - jcp.lPad) + kw ∧ ow + (ws - jcp.lPad) + kw < jcp.iw := by
  unfold iwStart iwEnd saturate
  omega

theorem mem_fromTransposedChannel (hfast : isTransposing jcp = true) {imtr : ℤ → α}
    (himtr : ∀ ic ih iw, Window jcp hs hb ws wb ic ih iw →
      imtr (imtrIdx jcp hs hb ws wb ic ih iw) = im (ih * imIhStride jcp + ic + iw * imIwStride jcp))
    {kh kw ic : ℕ} (hkh : kh < jcp.kh) (hkw : kw < jcp.kw) (hic : ic < jcp.ic) (w : ℤ × UInt8) :
    w ∈ fromTransposedChannel jcp toInt hs hb ws wb imtr kh kw ic ↔ ∃ oh : ℤ, (0 ≤ oh ∧ oh < hb) ∧
      ∃ ow : ℤ, (0 ≤ ow ∧ ow < wb) ∧
        w = (Tap.colIdx jcp hb wb ⟨kh, kw, ic, oh, ow⟩, Tap.valueU8 jcp toInt im hs ws ⟨kh, kw, ic, oh, ow⟩) := by
  obtain ⟨-, hsh, hsw, hdh, hdw⟩ :
      jcp.outerThreading ∧ jcp.strideH = 1 ∧ jcp.strideW = 1 ∧ jcp.dh = 1 ∧ jcp.dw = 1 := by
    simpa [isTransposing] using hfast
  have hcol : ∀ oh ow : ℤ, kh * (jcp.kw * (jcp.ic * ((hb : ℤ) * wb))) + kw * jcp.ic * ((hb : ℤ) * wb) +
      ic * ((hb : ℤ) * wb) + oh * wb + ow = Tap.colIdx jcp hb wb ⟨kh, kw, ic, oh, ow⟩ := by
    intro oh ow
    unfold Tap.colIdx
    ring
  have hih : ∀ oh ow : ℤ, Tap.ih jcp hs ⟨kh, kw, ic, oh, ow⟩ = oh + (hs - jcp.tPad) + kh := by
    intro oh ow
    unfold Tap.ih
    rw [hsh, hdh]
    push_cast
    ring
  have hiw : ∀ oh ow : ℤ, Tap.iw jcp ws ⟨kh, kw, ic, oh, ow⟩ = ow + (ws - jcp.lPad) + kw := by
    intro oh ow
    unfold Tap.iw
    rw [hsw, hdw]
    push_cast
    ring
  have hsrc : ∀ oh ow : ℤ, ic * (ihb jcp hs hb * iwb jcp ws wb) -
      ((ihStart jcp hs - (hs - jcp.tPad) - kh) * iwb jcp ws wb + (iwStart jcp ws - (ws - jcp.lPad) - kw)) +
        oh * iwb jcp ws wb + ow =
      imtrIdx jcp hs hb ws wb ic (oh + (hs - jcp.tPad) + kh) (ow + (ws - jcp.lPad) + kw) := by
    intro oh ow
    unfold imtrIdx
    ring
  have hrows : ∀ oh : ℤ, 0 ≤ oh ∧ oh < hb →
      ((saturate 0 hb (ihStart jcp hs - (hs - jcp.tPad) - kh) ≤ oh ∧
        oh < saturate 0 hb (ihStart jcp hs - (hs - jcp.tPad) - kh + ihb jcp hs hb)) ↔
        0 ≤ oh + (hs - jcp.tPad) + kh ∧ oh + (hs - jcp.tPad) + kh < jcp.ih) := by
    intro oh hoh
    rw [← window_ih hkh hoh, ← not_lt, lt_saturate hoh, lt_saturate hoh]
    unfold ihb
    omega
  have hcols : ∀ ow : ℤ, 0 ≤ ow ∧ ow < wb →
      ((saturate 0 wb (iwStart jcp ws - (ws - jcp.lPad) - kw) ≤ ow ∧
        ow < saturate 0 wb (iwStart jcp ws - (ws - jcp.lPad) - kw + iwb jcp ws wb)) ↔
        0 ≤ ow + (ws - jcp.lPad) + kw ∧ ow + (ws - jcp.lPad) + kw < jcp.iw) := by
    intro ow how
    rw [← window_iw hkw how, ← not_lt, lt_saturate how, lt_saturate how]
    unfold iwb
    omega
  have hrowsMono : ihStart jcp hs - (hs - jcp.tPad) - kh ≤
      ihStart jcp hs - (hs - jcp.tPad) - kh + ihb jcp hs hb := by
    have := ihStart_le_ihEnd jcp hs hb
    unfold ihb
    omega
  have hcolsMono : iwStart jcp ws - (ws - jcp.lPad) - kw ≤
      iwStart jcp ws - (ws - jcp.lPad) - kw + iwb jcp ws wb := by
    have := iwStart_le_iwEnd jcp ws wb
    unfold iwb
    omega
  unfold fromTransposedChannel
  dsimp only
  rw [mem_cut_flatMap (saturate_nonneg _ _) (saturate_mono hrowsMono) (saturate_le _)]
  apply exists_congr
  intro oh
  apply and_congr_right
  intro hoh
  rw [if_congr (hrows oh hoh) rfl rfl]
  split_ifs with hin
  · rw [mem_cut (saturate_nonneg _ _) (saturate_mono hcolsMono) (saturate_le _)]
    apply exists_congr
    intro ow
    apply and_congr_right
    intro how
    rw [if_congr (hcols ow how) rfl rfl]
    have hvalue : Tap.valueU8 jcp toInt im hs ws ⟨kh, kw, ic, oh, ow⟩ =
        if 0 ≤ ow + (ws - jcp.lPad) + kw ∧ ow + (ws - jcp.lPad) + kw < jcp.iw then
          shifted jcp toInt (imtr (imtrIdx jcp hs hb ws wb ic (oh + (hs - jcp.tPad) + kh)
            (ow + (ws - jcp.lPad) + kw)))
        else UInt8.ofInt (shift jcp) := by
      unfold Tap.valueU8
      rw [hih, hiw]
      simp only [hin, and_self, true_and]
      split_ifs with hin'
      · rw [himtr _ _ _ ⟨by omega, (window_ih hkh hoh).mpr hin, (window_iw hkw how).mpr hin'⟩]
      · rfl
    rw [hvalue, hsrc, hcol]
    split_ifs <;> rfl
  · simp only [List.mem_map, Int.mem_range_iff, hcol]
    have hvalue : ∀ ow : ℤ, Tap.valueU8 jcp toInt im hs ws ⟨kh, kw, ic, oh, ow⟩ = UInt8.ofInt (shift jcp) := by
      intro ow
      apply if_neg
      rw [hih]
      exact fun h => hin h.1
    simp only [hvalue]
    apply exists_congr
    intro ow
    rw [eq_comm]

theorem fillsCol_fromTransposed (toInt : α → ℤ) (im : ℤ → α) (hfast : isTransposing jcp = true) {imtr : ℤ → α}
    (himtr : ∀ ic ih iw, Window jcp hs hb ws wb ic ih iw →
      imtr (imtrIdx jcp hs hb ws wb ic ih iw) = im (ih * imIhStride jcp + ic + iw * imIwStride jcp)) :
    FillsCol jcp toInt im hs hb ws wb (fromTransposed jcp toInt hs hb ws wb imtr) := by
  intro w
  simp only [fromTransposed, List.mem_flatMap, List.mem_range]
  constructor
  · rintro ⟨kh, hkh, kw, hkw, ic, hic, hw⟩
    obtain ⟨oh, hoh, ow, how, rfl⟩ := (mem_fromTransposedChannel hfast himtr hkh hkw hic w).mp hw
    exact ⟨⟨kh, kw, ic, oh, ow⟩, ⟨by dsimp only; omega, by dsimp only; omega, by dsimp only; omega, hoh, how⟩, rfl⟩
  · rintro ⟨⟨kh, kw, ic, oh, ow⟩, ⟨hkh, hkw, hic, hoh, how⟩, rfl⟩
    dsimp only at hkh hkw hic hoh how
    lift kh to ℕ using hkh.1
    lift kw to ℕ using hkw.1
    lift ic to ℕ using hic.1
    exact ⟨kh, by omega, kw, by omega, ic, by omega,
      (mem_fromTransposedChannel hfast himtr (by omega) (by omega) (by omega) _).mpr ⟨oh, hoh, ow, how, rfl⟩⟩

/-! ## Both paths -/

/-- Where the strides and dilations are one, both paths leave the same columns, and all columns hold the
elements of the image under the taps. -/
theorem im2colU8_eq (toInt : α → ℤ) (im : ℤ → α) (hs hb ws wb : ℕ) (hsw : 0 < jcp.strideW) {nthr : ℕ} (hnthr : 0 < nthr) (imtr : ℤ → α) (col : ℤ → UInt8) :
    (isTransposing jcp = true →
      im2colU8Transposing jcp toInt im hs hb ws wb imtr col =
        applyWrites (im2colU8General jcp toInt im hs hb ws wb nthr) col) ∧
      ∀ t : Tap, t.Mem jcp hb wb →
        im2colU8 jcp toInt im hs hb ws wb nthr imtr col (t.colIdx jcp hb wb) =
          t.valueU8 jcp toInt im hs ws := by
  have hgeneral := fillsCol_im2colU8General toInt im hs hb ws wb hsw hnthr
  have hsame : isTransposing jcp = true →
      im2colU8Transposing jcp toInt im hs hb ws wb imtr col =
        applyWrites (im2colU8General jcp toInt im hs hb ws wb nthr) col := by
    intro hfast
    have htransposing := fillsCol_fromTransposed toInt im hfast fun ic ih iw hwin =>
      applyWrites_transpose (hwin : Window jcp hs hb ws wb ic ih iw) imtr
    exact applyWrites_eq_of_mem_iff htransposing.consistent
      (fun w => (htransposing w).trans (hgeneral w).symm) col
  refine ⟨hsame, fun t ht => ?_⟩
  unfold im2colU8
  split_ifs with hfast
  · rw [hsame hfast, hgeneral.applyWrites ht]
  · exact hgeneral.applyWrites ht col

theorem im2colU8_eq_conv3x3 :
    (isTransposing conv3x3 = true →
      im2colU8Transposing conv3x3 id (fun i => i % 100) 1 2 0 5 (fun _ => 0) (fun _ => 0) =
        applyWrites (im2colU8General conv3x3 id (fun i => i % 100) 1 2 0 5 4) fun _ => 0) ∧
      ∀ t : Tap, t.Mem conv3x3 2 5 →
        im2colU8 conv3x3 id (fun i => i % 100) 1 2 0 5 4 (fun _ => 0) (fun _ => 0) (t.colIdx conv3x3 2 5) =
          t.valueU8 conv3x3 id (fun i => i % 100) 1 0 :=
  im2colU8_eq id (fun i => i % 100) 1 2 0 5 (by decide) (by decide) (fun _ => 0) fun _ => 0

end Value

end MklDnn.JitGemmConvolutionUtils
