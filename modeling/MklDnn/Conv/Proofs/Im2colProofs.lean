import MklDnn.Conv.Proofs.Im2colU8Proofs

/-!
# Proofs: `im2col`

All branches of `im2col` fill the columns of a tile with the elements of the padded image.
-/

open LoopNest

namespace MklDnn.JitGemmConvolutionUtils

variable {R : Type*} {jcp : JitGemmConvConf} {ss sb cs cb : ℕ}

/-! ## Tiles -/

/-- The rows and columns that the loops run through are those of the tile. -/
theorem mem_tile (how : 0 < jcp.ow) (oh ow : ℤ) :
    (firstOh jcp ss ≤ oh ∧ oh < lastOh jcp ss sb + 1) ∧ ow ∈ tileRow jcp ss sb oh ↔
      (0 ≤ ow ∧ ow < jcp.ow) ∧ ss ≤ oh * jcp.ow + ow ∧ oh * jcp.ow + ow < ss + sb := by
  have hpos : (0 : ℤ) < jcp.ow := by exact_mod_cast how
  have hfirst : (ss : ℤ) = firstOh jcp ss * jcp.ow + firstOw jcp ss := by
    unfold firstOh firstOw
    exact_mod_cast (Nat.div_add_mod' ss jcp.ow).symm
  have hfirstOw : 0 ≤ firstOw jcp ss ∧ firstOw jcp ss < jcp.ow := by
    unfold firstOw
    have := Nat.mod_lt ss how
    omega
  -- a later row starts a row behind
  have hmul : ∀ x y : ℤ, x + 1 ≤ y → x * jcp.ow + jcp.ow ≤ y * jcp.ow := by
    intro x y hxy
    have := mul_le_mul_of_nonneg_right hxy hpos.le
    rw [add_mul, one_mul] at this
    exact this
  unfold tileRow
  rw [Int.mem_range_iff]
  rcases Nat.eq_zero_or_pos (ss + sb) with hempty | hne
  · -- a tile without positions at the start of the output
    have hzero : firstOh jcp ss = 0 ∧ firstOw jcp ss = 0 := by
      have hss : ss = 0 := by omega
      unfold firstOh firstOw
      rw [hss, Nat.zero_div, Nat.zero_mod]
      exact ⟨rfl, rfl⟩
    have hlast : lastOh jcp ss sb = -1 ∨ lastOh jcp ss sb = 0 ∧ lastOw jcp ss sb = -1 := by
      unfold lastOh lastOw
      rw [hempty]
      rcases Nat.eq_or_lt_of_le (Nat.succ_le_of_lt how) with hone | hmany
      · left
        rw [← hone]
        rfl
      · right
        have hlt : (1 : ℤ) < jcp.ow := by exact_mod_cast hmany
        have hdiv : ((0 : ℕ) - 1 : ℤ) = -1 := rfl
        rw [hdiv, Int.neg_tdiv, Int.neg_tmod, Int.tdiv_eq_zero_of_lt (by omega) hlt,
          Int.tmod_eq_of_lt (by omega) hlt]
        exact ⟨rfl, rfl⟩
    constructor
    · rintro ⟨⟨hlow, hhigh⟩, hrow⟩
      rcases hlast with hlast | ⟨hlast, hlastOw⟩
      · omega
      · have hoh : oh = 0 := by omega
        rw [hoh, hlast, hzero.1, if_pos rfl, if_pos rfl, hlastOw, hzero.2] at hrow
        omega
    · rintro ⟨-, hlow, hhigh⟩
      omega
  · have hlast : (ss : ℤ) + sb - 1 = lastOh jcp ss sb * jcp.ow + lastOw jcp ss sb := by
      unfold lastOh lastOw
      have := Int.tdiv_mul_add_tmod (((ss + sb : ℕ) : ℤ) - 1) jcp.ow
      push_cast at this ⊢
      omega
    have hlastOw : 0 ≤ lastOw jcp ss sb ∧ lastOw jcp ss sb < jcp.ow := by
      unfold lastOw
      constructor
      · exact Int.tmod_nonneg _ (by omega)
      · exact Int.tmod_lt_of_pos _ hpos
    constructor
    · rintro ⟨⟨hlow, hhigh⟩, hrow⟩
      have hfirstRow : oh ≠ firstOh jcp ss → firstOh jcp ss * jcp.ow + jcp.ow ≤ oh * jcp.ow :=
        fun hne => hmul _ _ (by omega)
      have hlastRow : oh ≠ lastOh jcp ss sb → oh * jcp.ow + jcp.ow ≤ lastOh jcp ss sb * jcp.ow :=
        fun hne => hmul _ _ (by omega)
      split_ifs at hrow with h1 h2 h2
      · subst h1
        rw [← h2] at hlast
        omega
      · subst h1
        have := hlastRow h2
        omega
      · have := hfirstRow h1
        rw [← h2] at hlast
        omega
      · have := hfirstRow h1
        have := hlastRow h2
        omega
    · rintro ⟨hcol, hlow, hhigh⟩
      have hge : firstOh jcp ss ≤ oh := by
        by_contra hlt
        have := hmul oh (firstOh jcp ss) (by omega)
        omega
      have hle : oh ≤ lastOh jcp ss sb := by
        by_contra hgt
        have := hmul (lastOh jcp ss sb) oh (by omega)
        omega
      refine ⟨⟨hge, by omega⟩, ?_, ?_⟩
      · split_ifs with h1
        · rw [h1] at hlow
          omega
        · exact hcol.1
      · split_ifs with h2
        · rw [h2] at hhigh
          omega
        · exact hcol.2

/-! ## The padded image -/

/-- The plane of the image under plane `od` of the output. -/
def idOf (jcp : JitGemmConvConf) (od kd : ℤ) : ℤ := od * jcp.strideD - jcp.fPad + kd * jcp.dd

/-- The row of the image under row `oh` of the output. -/
def ihOf (jcp : JitGemmConvConf) (oh kh : ℤ) : ℤ := oh * jcp.strideH - jcp.tPad + kh * jcp.dh

/-- The column of the image under column `ow` of the output. -/
def iwOf (jcp : JitGemmConvConf) (ow kw : ℤ) : ℤ := ow * jcp.strideW - jcp.lPad + kw * jcp.dw

/-- The tap lies inside the rows and the columns of the image. -/
def InPlane (jcp : JitGemmConvConf) (oh ow kh kw : ℤ) : Prop :=
  (0 ≤ ihOf jcp oh kh ∧ ihOf jcp oh kh < jcp.ih) ∧ 0 ≤ iwOf jcp ow kw ∧ iwOf jcp ow kw < jcp.iw

instance (oh ow kh kw : ℤ) : Decidable (InPlane jcp oh ow kh kw) := inferInstanceAs (Decidable (_ ∧ _))

/-- An element of the image of one channel, or zero in the padding. -/
def padded [Zero R] (jcp : JitGemmConvConf) (im : ℤ → R) (ic : ℕ) (ih iw : ℤ) : R :=
  if (0 ≤ ih ∧ ih < jcp.ih) ∧ 0 ≤ iw ∧ iw < jcp.iw then im (ic * jcp.is + (ih * jcp.iw + iw)) else 0

/-- The offset in the columns of a tile. -/
def colIdx (jcp : JitGemmConvConf) (sb ic kh kw s : ℕ) : ℕ := (ic * jcp.ks + (kh * jcp.kw + kw)) * sb + s

theorem tap_lt_ks (hkd : 0 < jcp.kd) {kh kw : ℕ} (hkh : kh < jcp.kh) (hkw : kw < jcp.kw) :
    kh * jcp.kw + kw < jcp.ks := by
  calc kh * jcp.kw + kw < (kh + 1) * jcp.kw := by
        rw [Nat.succ_mul]
        omega
    _ ≤ jcp.kh * jcp.kw := Nat.mul_le_mul_right _ hkh
    _ ≤ jcp.ks := Nat.le_mul_of_pos_right _ hkd

theorem colIdx_injective (hkd : 0 < jcp.kd) {ic kh kw s ic' kh' kw' s' : ℕ} (hkh : kh < jcp.kh) (hkw : kw < jcp.kw)
    (hs : s < sb) (hkh' : kh' < jcp.kh) (hkw' : kw' < jcp.kw) (hs' : s' < sb)
    (h : colIdx jcp sb ic kh kw s = colIdx jcp sb ic' kh' kw' s') : ic = ic' ∧ kh = kh' ∧ kw = kw' ∧ s = s' := by
  have htap := tap_lt_ks hkd hkh hkw
  have htap' := tap_lt_ks hkd hkh' hkw'
  unfold colIdx at h
  zify at h hs hs' htap htap' hkw hkw'
  obtain ⟨h, hss⟩ := mul_add_inj ⟨by omega, hs⟩ ⟨by omega, hs'⟩ h
  obtain ⟨hic, h⟩ := mul_add_inj ⟨by positivity, htap⟩ ⟨by positivity, htap'⟩ h
  obtain ⟨hkh, hkw⟩ := mul_add_inj ⟨by omega, hkw⟩ ⟨by omega, hkw'⟩ h
  exact ⟨by omega, by omega, by omega, by omega⟩

section Branches

variable [Zero R] {im : ℤ → R}

/-- The elements of a branch are those of the image. -/
def ElemRight (jcp : JitGemmConvConf) (im : ℤ → R) (cs : ℕ) (elem : ℕ → ℕ → ℤ → ℤ → R) : Prop :=
  ∀ (ic kw : ℕ) (ih ow : ℤ), elem ic kw ih ow =
    if 0 ≤ iwOf jcp ow kw ∧ iwOf jcp ow kw < jcp.iw then
      im ((cs + ic : ℕ) * jcp.is + (ih * jcp.iw + iwOf jcp ow kw))
    else 0

theorem outerUnitElem_right (hsw : jcp.strideW = 1) : ElemRight jcp im cs (outerUnitElem jcp im cs) := by
  intro ic kw ih ow
  unfold outerUnitElem iwOf
  dsimp only
  rw [hsw, Nat.cast_one, mul_one]
  have hidx : ((ic : ℤ) + cs) * jcp.is + ih * jcp.iw - jcp.lPad + kw * jcp.dw + ow =
      (cs + ic : ℕ) * jcp.is + (ih * jcp.iw + (ow - jcp.lPad + kw * jcp.dw)) := by
    push_cast
    ring
  rw [hidx]
  split_ifs with hout hin hin
  · omega
  · rfl
  · rfl
  · omega

theorem stridedElem_right : ElemRight jcp im cs (stridedElem jcp im cs) := by
  intro ic kw ih ow
  unfold stridedElem iwOf
  dsimp only
  rw [add_comm (ic : ℤ), ← Nat.cast_add]
  split_ifs with hout hin hin
  · omega
  · rfl
  · rfl
  · omega

theorem innerUnitElem_right (hsw : jcp.strideW = 1) : ElemRight jcp im cs (innerUnitElem jcp im cs) := by
  intro ic kw ih ow
  unfold innerUnitElem iwOf
  dsimp only
  rw [hsw, Nat.cast_one, mul_one]
  have hiw : ow + (kw * jcp.dw - jcp.lPad) = ow - jcp.lPad + kw * jcp.dw := by ring
  rw [hiw, add_comm (ic : ℤ), ← Nat.cast_add, add_assoc]
  split_ifs with hout hin hin
  · omega
  · rfl
  · rfl
  · omega

/-- The writes that fill the columns of a tile. -/
def FillsTile (jcp : JitGemmConvConf) (im : ℤ → R) (ss sb cs cb : ℕ) (l : List (ℤ × R)) : Prop :=
  ∀ w, w ∈ l ↔ ∃ ic < cb, ∃ kh < jcp.kh, ∃ kw < jcp.kw, ∃ s < sb,
    w = ((colIdx jcp sb ic kh kw s : ℤ),
      padded jcp im (cs + ic) (ihOf jcp ((ss + s) / jcp.ow : ℕ) kh) (iwOf jcp ((ss + s) % jcp.ow : ℕ) kw))

theorem FillsTile.applyWrites (hkd : 0 < jcp.kd) {l : List (ℤ × R)} (h : FillsTile jcp im ss sb cs cb l)
    {ic kh kw s : ℕ} (hic : ic < cb) (hkh : kh < jcp.kh) (hkw : kw < jcp.kw) (hs : s < sb) (col : ℤ → R) :
    applyWrites l col (colIdx jcp sb ic kh kw s) =
      padded jcp im (cs + ic) (ihOf jcp ((ss + s) / jcp.ow : ℕ) kh) (iwOf jcp ((ss + s) % jcp.ow : ℕ) kw) := by
  apply applyWrites_of_mem
  · intro w hw w' hw' he
    obtain ⟨ic, hic, kh, hkh, kw, hkw, s, hs, rfl⟩ := (h w).mp hw
    obtain ⟨ic', hic', kh', hkh', kw', hkw', s', hs', rfl⟩ := (h w').mp hw'
    have he' : colIdx jcp sb ic kh kw s = colIdx jcp sb ic' kh' kw' s' := Int.ofNat.inj he
    obtain ⟨rfl, rfl, rfl, rfl⟩ := colIdx_injective hkd hkh hkw hs hkh' hkw' hs' he'
    rfl
  · exact (h _).mpr ⟨ic, hic, kh, hkh, kw, hkw, s, hs, rfl⟩

/-- A row of a tile. -/
theorem mem_im2colRow {elem : ℕ → ℕ → ℤ → ℤ → R} (helem : ElemRight jcp im cs elem) (ic kh kw : ℕ) (oh : ℤ)
    (w : ℤ × R) :
    w ∈ im2colRow jcp ss sb (elem ic kw) ic kh kw oh ↔ ∃ ow ∈ tileRow jcp ss sb oh,
      w = (ic * (jcp.ks * sb) + (kh * jcp.kw + kw) * sb + oh * jcp.ow - ss + ow,
        padded jcp im (cs + ic) (ihOf jcp oh kh) (iwOf jcp ow kw)) := by
  unfold im2colRow
  dsimp only
  have hih : oh * jcp.strideH - jcp.tPad + kh * jcp.dh = ihOf jcp oh kh := rfl
  rw [hih]
  split_ifs with hout
  · have hzero : ∀ iw, padded jcp im (cs + ic) (ihOf jcp oh kh) iw = 0 := by
      intro iw
      apply if_neg
      omega
    simp only [List.mem_map, hzero, eq_comm]
  · have hvalue : ∀ ow, padded jcp im (cs + ic) (ihOf jcp oh kh) (iwOf jcp ow kw) = elem ic kw (ihOf jcp oh kh) ow := by
      intro ow
      rw [helem]
      apply if_congr _ rfl rfl
      constructor
      · exact fun h => h.2
      · exact fun h => ⟨by omega, h⟩
    simp only [List.mem_map, hvalue, eq_comm]

/-- The rows of a tile, as its positions. -/
theorem exists_row_iff (how : 0 < jcp.ow) (P : ℤ → ℤ → Prop) :
    (∃ oh, (firstOh jcp ss ≤ oh ∧ oh < lastOh jcp ss sb + 1) ∧ ∃ ow ∈ tileRow jcp ss sb oh, P oh ow) ↔
      ∃ s < sb, P ((ss + s) / jcp.ow : ℕ) ((ss + s) % jcp.ow : ℕ) := by
  constructor
  · rintro ⟨oh, hoh, ow, how', hP⟩
    obtain ⟨hcol, hlow, hhigh⟩ := (mem_tile how oh ow).mp ⟨hoh, how'⟩
    have hge : 0 ≤ oh := by
      by_contra hlt
      have : oh * jcp.ow + jcp.ow ≤ 0 := by
        have := mul_le_mul_of_nonneg_right (show oh + 1 ≤ 0 by omega) (show (0 : ℤ) ≤ jcp.ow by omega)
        rw [add_mul, one_mul, zero_mul] at this
        exact this
      omega
    lift oh to ℕ using hge
    lift ow to ℕ using hcol.1
    have hlt : ow < jcp.ow := by omega
    have hlow' : ss ≤ jcp.ow * oh + ow := by
      rw [Nat.mul_comm]
      exact_mod_cast hlow
    have hhigh' : jcp.ow * oh + ow < ss + sb := by
      rw [Nat.mul_comm]
      exact_mod_cast hhigh
    refine ⟨jcp.ow * oh + ow - ss, by omega, ?_⟩
    have hs : ss + (jcp.ow * oh + ow - ss) = jcp.ow * oh + ow := by omega
    rw [hs, Nat.mul_add_div how, Nat.div_eq_of_lt hlt, Nat.mul_add_mod, Nat.mod_eq_of_lt hlt]
    exact hP
  · rintro ⟨s, hs, hP⟩
    have hdiv := Nat.div_add_mod' (ss + s) jcp.ow
    have hmod := Nat.mod_lt (ss + s) how
    have htile : (0 ≤ (((ss + s) % jcp.ow : ℕ) : ℤ) ∧ (((ss + s) % jcp.ow : ℕ) : ℤ) < jcp.ow) ∧
        (ss : ℤ) ≤ ((ss + s) / jcp.ow : ℕ) * jcp.ow + ((ss + s) % jcp.ow : ℕ) ∧
          (((ss + s) / jcp.ow : ℕ) : ℤ) * jcp.ow + ((ss + s) % jcp.ow : ℕ) < ss + sb := by
      have hdiv' : (((ss + s) / jcp.ow : ℕ) : ℤ) * jcp.ow + ((ss + s) % jcp.ow : ℕ) = ss + s := by exact_mod_cast hdiv
      omega
    obtain ⟨hoh, how'⟩ := (mem_tile how _ _).mpr htile
    exact ⟨_, hoh, _, how', hP⟩

/-- A position of a tile and its place in the columns. -/
theorem tile_colIdx (jcp : JitGemmConvConf) (ss sb ic kh kw s : ℕ) :
    (ic : ℤ) * (jcp.ks * sb) + (kh * jcp.kw + kw) * sb + ((ss + s) / jcp.ow : ℕ) * jcp.ow - ss +
      ((ss + s) % jcp.ow : ℕ) = (colIdx jcp sb ic kh kw s : ℤ) := by
  have hdiv := Nat.div_add_mod' (ss + s) jcp.ow
  unfold colIdx
  zify at hdiv
  push_cast
  rw [add_mul, add_assoc (_ * _ : ℤ)]
  linarith

theorem fillsTile_im2colOuter (how : 0 < jcp.ow) {elem : ℕ → ℕ → ℤ → ℤ → R} (helem : ElemRight jcp im cs elem) :
    FillsTile jcp im ss sb cs cb (im2colOuter jcp ss sb cb elem) := by
  intro w
  simp only [im2colOuter, List.mem_flatMap, List.mem_range, Int.mem_range_iff, mem_im2colRow helem,
    exists_row_iff how, tile_colIdx]

theorem fillsTile_im2colInner (how : 0 < jcp.ow) {nthr : ℕ} (hnthr : 0 < nthr) {elem : ℕ → ℕ → ℤ → ℤ → R}
    (helem : ElemRight jcp im cs elem) : FillsTile jcp im ss sb cs cb (im2colInner jcp ss sb cb nthr elem) := by
  intro w
  have hrows : ∀ ic kh kw : ℕ, (∃ ohr < (lastOh jcp ss sb + 1 - firstOh jcp ss).toNat,
      w ∈ im2colRow jcp ss sb (elem ic kw) ic kh kw (ohr + firstOh jcp ss)) ↔
      ∃ s < sb, w = ((colIdx jcp sb ic kh kw s : ℤ),
        padded jcp im (cs + ic) (ihOf jcp ((ss + s) / jcp.ow : ℕ) kh) (iwOf jcp ((ss + s) % jcp.ow : ℕ) kw)) := by
    intro ic kh kw
    simp only [← tile_colIdx jcp ss sb]
    rw [← exists_row_iff how fun oh ow => w = ((ic : ℤ) * (jcp.ks * sb) + (kh * jcp.kw + kw) * sb + oh * jcp.ow - ss + ow,
      padded jcp im (cs + ic) (ihOf jcp oh kh) (iwOf jcp ow kw))]
    constructor
    · rintro ⟨ohr, hohr, hw⟩
      exact ⟨ohr + firstOh jcp ss, by omega, (mem_im2colRow helem ic kh kw _ w).mp hw⟩
    · rintro ⟨oh, hoh, hw⟩
      refine ⟨(oh - firstOh jcp ss).toNat, by omega, ?_⟩
      rw [Int.toNat_of_nonneg (by omega), sub_add_cancel]
      exact (mem_im2colRow helem ic kh kw oh w).mpr hw
  unfold im2colInner
  rw [List.mem_flatMap]
  constructor
  · rintro ⟨l, hl, hw⟩
    rw [mem_parallelNd hnthr] at hl
    cases hl with
    | cons hic hl => cases hl with
      | cons hkh hl => cases hl with
        | cons hkw hl => cases hl with
          | cons hohr hl => cases hl with
            | nil => exact ⟨_, hic, _, hkh, _, hkw, (hrows _ _ _).mp ⟨_, hohr, hw⟩⟩
  · rintro ⟨ic, hic, kh, hkh, kw, hkw, hex⟩
    obtain ⟨ohr, hohr, hw⟩ := (hrows ic kh kw).mpr hex
    refine ⟨[ic, kh, kw, ohr], ?_, hw⟩
    rw [mem_parallelNd hnthr]
    exact .cons hic (.cons hkh (.cons hkw (.cons hohr .nil)))

/-- The branch that is taken. -/
theorem fillsTile_im2col (how : 0 < jcp.ow) {nthr : ℕ} (hnthr : 0 < nthr) :
    FillsTile jcp im ss sb cs cb (im2col jcp im ss sb cs cb nthr) := by
  unfold im2col
  split_ifs with hout hsw hsw
  · exact fillsTile_im2colOuter how (outerUnitElem_right hsw)
  · exact fillsTile_im2colOuter how stridedElem_right
  · exact fillsTile_im2colInner how hnthr (innerUnitElem_right hsw)
  · exact fillsTile_im2colInner how hnthr stridedElem_right

end Branches

end MklDnn.JitGemmConvolutionUtils
