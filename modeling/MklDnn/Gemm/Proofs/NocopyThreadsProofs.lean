import MklDnn.Gemm.Proofs.ThreadOptsProofs
import MklDnn.Gemm.ThreadOpts

/-!
# Proofs: threads of the products without copies

The loops that change the grid keep its counts positive, and a step too far is corrected from the square root of the
number of threads. The results of all operations are in the range of an `int` if the sizes leave room for the sums that
round up, and the products of the first counts do.
-/

namespace MklDnn.GemmUtils

open WhileLoops

/-! ## Operations -/

theorem div?_eq {a b : ℤ} (ha : 0 ≤ a) (ha' : a < 2 ^ 31) (hb : 0 < b) : div? a b = some (a / b) := by
  have hquot : a / b ≤ a := Int.ediv_le_self b ha
  have hpos : 0 ≤ a / b := Int.ediv_nonneg ha hb.le
  unfold div?
  rw [if_neg hb.ne', Int.tdiv_eq_ediv_of_nonneg ha, wrapInt_eq (by omega) (by omega)]

theorem ceilDiv?_eq {a b : ℤ} (ha : 0 ≤ a) (hb : 0 < b) (hsum : a + b ≤ 2 ^ 31) :
    ceilDiv? a b = some ((a + b - 1) / b) := by
  have hwrap : wrapInt (wrapInt (a + b) - 1) = a + b - 1 := by
    unfold wrapInt
    omega
  unfold ceilDiv?
  rw [hwrap, div?_eq (by omega) (by omega) hb]

/-- What rounding up gives: enough, and not one too many. -/
theorem ceilDiv_spec {a b : ℤ} (hb : 0 < b) : a ≤ (a + b - 1) / b * b ∧ ((a + b - 1) / b - 1) * b < a := by
  have hdiv := Int.ediv_mul_add_emod (a + b - 1) b
  have hlt := Int.emod_lt_of_pos (a + b - 1) hb
  have hge := Int.emod_nonneg (a + b - 1) hb.ne'
  rw [Int.sub_mul, Int.one_mul]
  omega

theorem ceilDiv_pos {a b : ℤ} (ha : 0 < a) (hb : 0 < b) : 1 ≤ (a + b - 1) / b := by
  rw [Int.le_ediv_iff_mul_le hb]
  omega

theorem ceilDiv_le {a b : ℤ} (ha : 0 < a) (hb : 0 < b) : (a + b - 1) / b ≤ a := by
  have hab : a + b - 1 ≤ a * b := by nlinarith
  exact Int.ediv_le_of_le_mul hb hab

/-! ## Blocks -/

/-- A block of the threads of one dimension. -/
structure BlockingSpec (size nthr : ℤ) (r : ℤ × ℤ) : Prop where
  pos : 1 ≤ r.1
  le : r.1 ≤ nthr
  covers : r.2 * r.1 ≥ size
  starts : (r.1 - 1) * r.2 < size ∨ size = 0 ∧ r.2 = 0

/-- Rounding up to a divisor of the bound stays within the bound. -/
theorem rounded_spec {q small : ℤ} (hq : 0 ≤ q ∧ q ≤ 2 ^ 30) (hsmall : 1 ≤ small ∧ small ≤ 16) (hdvd : small ∣ 2 ^ 30) :
    ∃ b, wrapInt (wrapInt (wrapInt (q + small) - 1) - (wrapInt (wrapInt (q + small) - 1)).tmod small) = b ∧
      q ≤ b ∧ b < q + small ∧ b ≤ 2 ^ 30 ∧ (q = 0 → b = 0) := by
  have hsum : wrapInt (wrapInt (q + small) - 1) = q + small - 1 := by
    rw [wrapInt_eq (show -2 ^ 31 ≤ q + small by omega) (by omega), wrapInt_eq (by omega) (by omega)]
  have hmod := Int.emod_nonneg (q + small - 1) (show small ≠ 0 by omega)
  have hlt := Int.emod_lt_of_pos (q + small - 1) (show 0 < small by omega)
  have hdiv := Int.ediv_mul_add_emod (q + small - 1) small
  rw [hsum, Int.tmod_eq_emod_of_nonneg (by omega), wrapInt_eq (by omega) (by omega)]
  refine ⟨_, rfl, by omega, by omega, ?_, fun hzero => ?_⟩
  swap
  · rw [Int.emod_eq_of_lt (by omega) (by omega)]
    omega
  obtain ⟨c, hc⟩ := hdvd
  have hle : (q + small - 1) / small ≤ c := by
    have : q + small - 1 < (c + 1) * small := by
      rw [Int.add_mul, Int.one_mul, Int.mul_comm c, ← hc]
      omega
    exact Int.lt_add_one_iff.mp (Int.ediv_lt_of_lt_mul (by omega) this)
  calc q + small - 1 - (q + small - 1) % small = (q + small - 1) / small * small := by omega
    _ ≤ c * small := Int.mul_le_mul_of_nonneg_right hle (by omega)
    _ = 2 ^ 30 := by rw [hc, Int.mul_comm]

/-- Sizes up to `2 ^ 30` leave room to round up. -/
theorem blocking_spec {size nthr small : ℤ} (hsize : 0 ≤ size ∧ size ≤ 2 ^ 30) (hnthr : 1 ≤ nthr ∧ nthr < 2 ^ 25)
    (hsmall : 1 ≤ small ∧ small ≤ 16) (hdvd : small ∣ 2 ^ 30) :
    ∃ r, blocking size nthr small = some r ∧ BlockingSpec size nthr r := by
  obtain ⟨hcover, hlast⟩ := @ceilDiv_spec size nthr (by omega)
  have hq0 : 0 ≤ (size + nthr - 1) / nthr := Int.ediv_nonneg (by omega) (by omega)
  have hqle : (size + nthr - 1) / nthr ≤ size ∧ (0 < size → 1 ≤ (size + nthr - 1) / nthr) ∧
      (size = 0 → (size + nthr - 1) / nthr = 0) := by
    rcases hsize.1.lt_or_eq with hpos | hzero
    · exact ⟨ceilDiv_le hpos (by omega), fun h => ceilDiv_pos h (by omega), fun h => absurd h hpos.ne'⟩
    · rw [← hzero, Int.ediv_eq_zero_of_lt (by omega) (by omega)]
      exact ⟨Int.le_refl 0, fun h => absurd h (by omega), fun _ => rfl⟩
  have hquot : ceilDiv? size nthr = some ((size + nthr - 1) / nthr) := ceilDiv?_eq hsize.1 (by omega) (by omega)
  generalize hq : (size + nthr - 1) / nthr = q at *
  obtain ⟨b, hb, hqb, hbq, hb30, hb0⟩ := rounded_spec ⟨hq0, hqle.1.trans hsize.2⟩ hsmall hdvd
  have hfull : size ≤ b * nthr := hcover.trans (Int.mul_le_mul_of_nonneg_right hqb (by omega))
  have hint : b * nthr < 2 ^ 31 := by
    have hslack : b * nthr ≤ (q - 1) * nthr + 16 * nthr := by nlinarith
    omega
  have hwrap : wrapInt (b * nthr) = b * nthr := wrapInt_eq (by omega) hint
  unfold blocking
  simp only [hquot, Option.bind_eq_bind, Option.bind_some, hb, hwrap]
  split_ifs with hmore
  · have hbpos : 0 < b := by
      by_contra hzero
      have : b = 0 := by omega
      rw [this] at hmore
      omega
    have hspos : 0 < size := by
      by_contra hzero
      have : b = 0 := hb0 (hqle.2.2 (by omega))
      omega
    obtain ⟨hcover', hlast'⟩ := @ceilDiv_spec size b hbpos
    rw [ceilDiv?_eq hsize.1 hbpos (by omega)]
    refine ⟨_, rfl, ceilDiv_pos hspos hbpos, ?_, by rw [Int.mul_comm] at hcover'; exact hcover', Or.inl hlast'⟩
    dsimp only
    have hless : ((size + b - 1) / b - 1) * b < nthr * b := by
      rw [Int.mul_comm nthr]
      omega
    have := lt_of_mul_lt_mul_right hless hbpos.le
    omega
  · refine ⟨_, rfl, hnthr.1, Int.le_refl _, hfull, ?_⟩
    dsimp only
    rcases hsize.1.lt_or_eq with hpos | hzero
    · left
      have hbpos : 0 < b := by have := hqle.2.1 hpos; omega
      rw [Int.sub_mul, Int.one_mul, Int.mul_comm]
      omega
    · exact Or.inr ⟨hzero.symm, hb0 (hqle.2.2 hzero.symm)⟩

/-! ## The grid -/

/-- A grid of at most `nthr` threads. -/
structure GridOf (nthr : ℤ) (s : ℤ × ℤ) : Prop where
  fst_pos : 1 ≤ s.1
  snd_pos : 1 ≤ s.2
  le : s.1 * s.2 ≤ nthr

/-- The reduction ends with a grid, from positive counts whose product is an `int`. -/
theorem reduceGrid_spec {nthr : ℤ} (hnthr : 1 ≤ nthr) {s : ℤ × ℤ} (h1 : 1 ≤ s.1) (h2 : 1 ≤ s.2)
    (hmul : s.1 * s.2 < 2 ^ 31) {fuel : ℕ} (hfuel : (s.1 + s.2).toNat < fuel) :
    ∃ s', reduceGrid nthr fuel s = some s' ∧ GridOf nthr s' := by
  unfold reduceGrid
  refine loop_ends (fun s : ℤ × ℤ => 1 ≤ s.1 ∧ 1 ≤ s.2 ∧ s.1 * s.2 < 2 ^ 31) (fun s => (s.1 + s.2).toNat) ?_
    ⟨h1, h2, hmul⟩ hfuel ?_
  · rintro s ⟨ha, hb, hab⟩ hcond
    have hle : s.1 ≤ s.1 * s.2 ∧ s.2 ≤ s.1 * s.2 := by constructor <;> nlinarith
    rw [decide_eq_true_eq, wrapInt_eq (by omega) hab] at hcond
    refine ⟨_, rfl, ?_⟩
    split_ifs with hgt
    · have hmul : (s.1 - 1) * s.2 = s.1 * s.2 - s.2 := by ring
      rw [wrapInt_eq (by omega) (by omega)]
      refine ⟨⟨?_, hb, ?_⟩, ?_⟩ <;> dsimp only <;> omega
    · have hmul : s.1 * (s.2 - 1) = s.1 * s.2 - s.1 := by ring
      have htwo : 2 ≤ s.2 := by
        by_contra hone
        have h2 : s.2 = 1 := by omega
        rw [h2] at hcond
        omega
      rw [wrapInt_eq (by omega) (by omega)]
      refine ⟨⟨ha, ?_, ?_⟩, ?_⟩ <;> dsimp only <;> omega
  · rintro s ⟨ha, hb, hab⟩ hcond
    have hpos : 0 ≤ s.1 * s.2 := by positivity
    rw [decide_eq_false_iff_not, wrapInt_eq (by omega) hab] at hcond
    exact ⟨ha, hb, by omega⟩

/-- The loop behind the reduction makes up all threads; beyond that, both counts can be lowered. -/
theorem growGrid_spec {nthr : ℤ} (hnthr : nthr < 2 ^ 25) {s : ℤ × ℤ} (hs : GridOf nthr s) {fuel : ℕ}
    (hfuel : nthr.toNat < fuel) :
    ∃ s', growGrid nthr fuel s = some s' ∧ 1 ≤ s'.1 ∧ 1 ≤ s'.2 ∧ s'.1 * s'.2 < 2 ^ 26 ∧
      (s'.1 * s'.2 ≤ nthr ∨ 1 < s'.1 ∧ 1 < s'.2) := by
  have hs1 := hs.fst_pos
  have hs2 := hs.snd_pos
  have hle := hs.le
  have hpos : 0 < s.1 * s.2 := by positivity
  unfold growGrid
  refine loop_ends
    (fun s : ℤ × ℤ => 1 ≤ s.1 ∧ 1 ≤ s.2 ∧ s.1 * s.2 < 2 ^ 26 ∧ (s.1 * s.2 ≤ nthr ∨ 1 < s.1 ∧ 1 < s.2))
    (fun s => (nthr - s.1 * s.2).toNat) ?_ ⟨hs1, hs2, by omega, Or.inl hle⟩ (by omega) fun s hinv _ => hinv
  rintro s ⟨ha, hb, hab, -⟩ hcond
  have hle : s.1 ≤ s.1 * s.2 ∧ s.2 ≤ s.1 * s.2 := by constructor <;> nlinarith
  rw [decide_eq_true_eq, wrapInt_eq (by omega) (by omega)] at hcond
  refine ⟨_, rfl, ?_⟩
  split_ifs with hlt
  · have hmul : (s.1 + 1) * s.2 = s.1 * s.2 + s.2 := by ring
    rw [wrapInt_eq (by omega) (by omega)]
    refine ⟨⟨?_, hb, ?_, Or.inr ⟨?_, ?_⟩⟩, ?_⟩ <;> dsimp only <;> omega
  · have hmul : s.1 * (s.2 + 1) = s.1 * s.2 + s.1 := by ring
    rw [wrapInt_eq (by omega) (by omega)]
    refine ⟨⟨ha, ?_, ?_, ?_⟩, ?_⟩ <;> dsimp only
    · omega
    · omega
    · rcases lt_or_ge 1 s.1 with hone | hone
      · exact Or.inr ⟨hone, by omega⟩
      · have h1 : s.1 = 1 := by omega
        have h2 : s.2 = 1 := by omega
        rw [h1, h2] at hcond ⊢
        omega
    · omega

/-- From the square root a grid is found in any case: one row of threads is one. -/
theorem splitRoot_spec {nthr most : ℤ} (hnthr : 1 ≤ nthr ∧ nthr < 2 ^ 31) (hmost : 1 ≤ most) {fuel : ℕ}
    (hfuel : nthr.toNat < fuel) : ∃ s, splitRoot nthr most fuel = some s ∧ GridOf nthr s := by
  have hroot : 1 ≤ (nthr.toNat.sqrt : ℤ) ∧ (nthr.toNat.sqrt : ℤ) ≤ nthr := by
    have hpos : 0 < nthr.toNat.sqrt := Nat.sqrt_pos.mpr (by omega)
    have hle := Nat.sqrt_le_self nthr.toNat
    omega
  have hz : ∃ z : ℤ, (if (nthr.toNat.sqrt : ℤ) > most then most else (nthr.toNat.sqrt : ℤ)) = z ∧ 1 ≤ z ∧ z ≤ nthr := by
    split_ifs
    · exact ⟨_, rfl, hmost, by omega⟩
    · exact ⟨_, rfl, hroot⟩
  obtain ⟨z, hz, hz1, hzn⟩ := hz
  unfold splitRoot
  simp only [hz, div?_eq (show 0 ≤ nthr by omega) hnthr.2 (show 0 < z by omega), Option.bind_eq_bind, Option.bind_some]
  refine loop_ends (fun s : ℤ × ℤ => 1 ≤ s.1 ∧ s.1 ≤ nthr ∧ s.2 = nthr / s.1) (fun s => s.1.toNat) ?_
    ⟨hz1, hzn, rfl⟩ (by dsimp only; omega) ?_
  · rintro s ⟨h1, hn, -⟩ hcond
    rw [decide_eq_true_eq] at hcond
    have hwrap : wrapInt (s.1 - 1) = s.1 - 1 := wrapInt_eq (by omega) (by omega)
    simp only [hwrap, div?_eq (show 0 ≤ nthr by omega) hnthr.2 (show 0 < s.1 - 1 by omega), Option.bind_some]
    exact ⟨_, rfl, ⟨by dsimp only; omega, by dsimp only; omega, rfl⟩, by dsimp only; omega⟩
  · rintro ⟨z, o⟩ ⟨h1, hn, ho⟩ -
    dsimp only at h1 hn ho
    refine ⟨h1, ?_, ?_⟩
    · dsimp only
      rw [ho, Int.le_ediv_iff_mul_le (by omega)]
      omega
    · dsimp only
      rw [ho]
      exact Int.mul_ediv_self_le (by omega)

theorem GridOf.fst_le {nthr : ℤ} {s : ℤ × ℤ} (h : GridOf nthr s) : s.1 ≤ nthr := by
  have h1 := h.fst_pos
  have h2 := h.snd_pos
  have hle := h.le
  nlinarith

theorem GridOf.snd_le {nthr : ℤ} {s : ℤ × ℤ} (h : GridOf nthr s) : s.2 ≤ nthr := by
  have h1 := h.fst_pos
  have h2 := h.snd_pos
  have hle := h.le
  nlinarith

theorem GridOf.swap {nthr : ℤ} {s : ℤ × ℤ} (h : GridOf nthr s) : GridOf nthr (s.2, s.1) :=
  ⟨h.snd_pos, h.fst_pos, by have := h.le; rwa [Int.mul_comm] at this⟩

theorem double09_pos : 0 < double09 := Rounding.toPrec_pos (by norm_num) (by norm_num)

section Sizes

/-- Sizes and numbers of threads for which the sums of the calculation are in the range of an `int`. -/
structure InRange (m n k nthrs : ℤ) : Prop where
  m : 1 ≤ m ∧ m ≤ 2 ^ 30
  n : 1 ≤ n ∧ n ≤ 2 ^ 30
  k : 0 ≤ k ∧ k ≤ 2 ^ 30
  nthrs : 1 ≤ nthrs ∧ nthrs < 2 ^ 25

variable {m n k nthrs nthr : ℤ} (h : InRange m n k nthrs)

include h

theorem InRange.fallback_spec (hnthr : 1 ≤ nthr ∧ nthr ≤ nthrs) (grid : ℤ × ℤ) {fuel : ℕ} (hfuel : 2 ^ 32 ≤ fuel) :
    ∃ s, fallback m n nthr grid fuel = some s ∧ GridOf nthr s := by
  have hm := h.m
  have hn := h.n
  have hthr := h.nthrs
  unfold fallback
  split_ifs
  · rw [ceilDiv?_eq (by omega) (by omega) (by omega)]
    exact splitRoot_spec ⟨hnthr.1, by omega⟩ (ceilDiv_pos (by omega) (by omega)) (by omega)
  · rw [ceilDiv?_eq (by omega) (by omega) (by omega)]
    obtain ⟨s, hs, hgrid⟩ := @splitRoot_spec nthr ((n + 1 - 1) / 1) ⟨hnthr.1, by omega⟩
      (ceilDiv_pos (by omega) (by omega)) fuel (by omega)
    exact ⟨(s.2, s.1), by simp only [Option.bind_eq_bind, Option.bind_some, hs]; rfl, hgrid.swap⟩

theorem InRange.finish_spec {grid : ℤ × ℤ} (hgrid : GridOf nthr grid) {nthrK : ℤ} (hK : 1 ≤ nthrK)
    (hle : nthr * nthrK ≤ nthrs) : ∃ g, finish m n k grid nthrK = some g ∧ g.Sound m n k nthrs := by
  have hm := h.m
  have hn := h.n
  have hthr := h.nthrs
  have h1 := hgrid.fst_pos
  have h2 := hgrid.snd_pos
  have hnthr : 1 ≤ nthr := by have := hgrid.fst_le; omega
  have hnthrs : nthr ≤ nthrs ∧ nthrK ≤ nthrs := by constructor <;> nlinarith
  obtain ⟨bm, hbm, hM⟩ := blocking_spec ⟨by omega, hm.2⟩ ⟨h1, by have := hgrid.fst_le; omega⟩
    (by omega) (show (16 : ℤ) ∣ 2 ^ 30 by norm_num)
  obtain ⟨bn, hbn, hN⟩ := blocking_spec ⟨by omega, hn.2⟩ ⟨h2, by have := hgrid.snd_le; omega⟩
    (by omega) (show (1 : ℤ) ∣ 2 ^ 30 by norm_num)
  obtain ⟨bk, hbk, hKB⟩ := blocking_spec h.k ⟨hK, by omega⟩ (by omega) (show (4 : ℤ) ∣ 2 ^ 30 by norm_num)
  have hstart : ∀ {size : ℤ} {r : ℤ × ℤ} {c : ℤ}, 0 ≤ size → BlockingSpec size c r → ∀ i, 0 ≤ i → i < r.1 →
      i * r.2 < size ∨ size = 0 ∧ i * r.2 = 0 := by
    intro size r c hsize hr i hi hlt
    rcases hr.starts with hlast | ⟨hzero, hblock⟩
    · left
      by_contra hge
      have hpos : 0 ≤ r.2 := by
        by_contra hneg
        have := hr.covers
        have := hr.pos
        nlinarith
      nlinarith
    · exact Or.inr ⟨hzero, by rw [hblock, Int.mul_zero]⟩
  refine ⟨⟨bm.1, bn.1, bk.1, bm.2, bn.2, bk.2⟩, ?_, ?_⟩
  · unfold finish
    simp only [hbm, hbn, hbk, Option.bind_eq_bind, Option.bind_some]
    rfl
  · refine ⟨⟨hM.pos, hN.pos, hKB.pos⟩, ?_, hM.covers, hN.covers, hKB.covers, ?_, ?_, hstart h.k.1 hKB⟩
    · have hM1 := hM.pos
      have hN1 := hN.pos
      have hK1 := hKB.pos
      calc bm.1 * bn.1 * bk.1 ≤ grid.1 * grid.2 * nthrK := by
            apply Int.mul_le_mul
            · exact Int.mul_le_mul hM.le hN.le (by omega) (by omega)
            · exact hKB.le
            · omega
            · positivity
        _ ≤ nthr * nthrK := Int.mul_le_mul_of_nonneg_right hgrid.le (by omega)
        _ ≤ nthrs := hle
    · intro i hi hlt
      rcases hstart (by omega) hM i hi hlt with hless | ⟨hzero, -⟩
      · exact hless
      · omega
    · intro i hi hlt
      rcases hstart (by omega) hN i hi hlt with hless | ⟨hzero, -⟩
      · exact hless
      · omega

/-! ## `calc_nthr_nocopy_avx` -/

theorem InRange.chooseNthrK_spec {nthrM nthrN : ℤ} (hM : 1 ≤ nthrM) (hN : 1 ≤ nthrN) (hmul : nthrM * nthrN < 2 ^ 31)
    {fuel : ℕ} (hfuel : 2 ^ 32 ≤ fuel) :
    ∃ z, chooseNthrK nthrM nthrN k nthrs fuel = some z ∧ 1 ≤ z ∧ z ≤ nthrs := by
  have hk := h.k
  have hthr := h.nthrs
  have hpos : 0 < nthrM * nthrN := by positivity
  have hwrap : wrapInt (nthrM * nthrN) = nthrM * nthrN := wrapInt_eq (by omega) hmul
  obtain ⟨s, hs, hinv⟩ : ∃ s, loop (fun s : ℤ × ℤ => wrapInt (wrapInt (nthrM * nthrN) * s.1) < nthrs ∧
        k.tdiv (wrapInt (s.1 + 1)) > 384)
      (fun s => do
        let other := wrapInt (s.1 + 1)
        let used := wrapInt ((← div? nthrs other) * other)
        return (other, if (used : ℚ) > Rounding.toPrec 53 (double09 * nthrs) then other else s.2))
      fuel (1, 1) = some s ∧ 1 ≤ s.2 ∧ s.2 ≤ nthrs := by
    refine loop_ends (fun s : ℤ × ℤ => (1 ≤ s.1 ∧ s.1 ≤ k + 1 ∧ nthrM * nthrN * s.1 < 2 ^ 31) ∧ 1 ≤ s.2 ∧ s.2 ≤ nthrs)
      (fun s => (k + 1 - s.1).toNat) ?_ ⟨⟨by omega, by dsimp only; omega, by rw [Int.mul_one]; exact hmul⟩, by omega, hthr.1⟩
      (by dsimp only; omega) fun s hinv _ => hinv.2
    rintro ⟨o, z⟩ ⟨⟨h1, h2, h3⟩, hz⟩ hcond
    dsimp only at h1 h2 h3 hz hcond ⊢
    have hone : wrapInt (o + 1) = o + 1 := wrapInt_eq (by omega) (by omega)
    have hprod : 0 < nthrM * nthrN * o := by positivity
    rw [decide_eq_true_eq, hwrap, hone, wrapInt_eq (by omega) h3, Int.tdiv_eq_ediv_of_nonneg hk.1] at hcond
    obtain ⟨hless, hmany⟩ := hcond
    have hok : o + 1 ≤ k := by
      by_contra hgt
      rw [Int.ediv_eq_zero_of_lt hk.1 (by omega)] at hmany
      omega
    have hused : nthrs / (o + 1) * (o + 1) ≤ nthrs := Int.ediv_mul_le _ (by omega)
    have hused0 : 0 ≤ nthrs / (o + 1) := Int.ediv_nonneg (by omega) (by omega)
    have hused0' : 0 ≤ nthrs / (o + 1) * (o + 1) := Int.mul_nonneg hused0 (by omega)
    have hparts : nthrM * nthrN ≤ nthrM * nthrN * o := by nlinarith
    rw [hone, div?_eq (by omega) (by omega) (by omega)]
    refine ⟨_, rfl, ⟨⟨by dsimp only; omega, by dsimp only; omega, ?_⟩, ?_⟩, by dsimp only; omega⟩
    · dsimp only
      rw [Int.mul_add, Int.mul_one]
      omega
    · dsimp only
      rw [wrapInt_eq (by omega) (by omega)]
      split_ifs with hgood
      · have hdouble : (0 : ℚ) < Rounding.toPrec 53 (double09 * nthrs) :=
          Rounding.toPrec_pos (by norm_num) (mul_pos double09_pos (by exact_mod_cast hthr.1))
        have hsome : 0 < nthrs / (o + 1) * (o + 1) := by exact_mod_cast hdouble.trans hgood
        refine ⟨by omega, ?_⟩
        by_contra hgt
        rw [Int.ediv_eq_zero_of_lt (by omega) (by omega)] at hsome
        omega
      · exact hz
  exact ⟨s.2, by unfold chooseNthrK; rw [hs]; rfl, hinv⟩

/-- The function returns, and what it returns is sound. -/
theorem calcNthrNocopyAvx_sound (syncable : Bool) (hparts : (m + 64 - 1) / 64 * ((n + 48 - 1) / 48) < 2 ^ 31) {fuel : ℕ}
    (hfuel : 2 ^ 32 ≤ fuel) :
    ∃ g, calcNthrNocopyAvx syncable m n k nthrs fuel = some g ∧ g.Sound m n k nthrs := by
  have hm := h.m
  have hn := h.n
  have hthr := h.nthrs
  have hM := @ceilDiv_pos m 64 (by omega) (by omega)
  have hN := @ceilDiv_pos n 48 (by omega) (by omega)
  have hMle := @ceilDiv_le m 64 (by omega) (by omega)
  have hNle := @ceilDiv_le n 48 (by omega) (by omega)
  unfold calcNthrNocopyAvx
  simp only [ceilDiv?_eq (show 0 ≤ m by omega) (show (0 : ℤ) < 64 by omega) (by omega),
    ceilDiv?_eq (show 0 ≤ n by omega) (show (0 : ℤ) < 48 by omega) (by omega), Option.bind_eq_bind, Option.bind_some]
  generalize (m + 64 - 1) / 64 = nthrM at *
  generalize (n + 48 - 1) / 48 = nthrN at *
  obtain ⟨nthrK, hK, hK1, hKle⟩ : ∃ z, (if syncable = true then chooseNthrK nthrM nthrN k nthrs fuel else some 1) = some z ∧
      1 ≤ z ∧ z ≤ nthrs := by
    split_ifs
    · exact h.chooseNthrK_spec hM hN hparts hfuel
    · exact ⟨1, rfl, Int.le_refl 1, hthr.1⟩
  have hnthr : 1 ≤ nthrs / nthrK := by rwa [Int.le_ediv_iff_mul_le (by omega), Int.one_mul]
  have hnthrle : nthrs / nthrK * nthrK ≤ nthrs := Int.ediv_mul_le _ (by omega)
  have hless : nthrs / nthrK ≤ nthrs := Int.ediv_le_self _ (by omega)
  simp only [hK, div?_eq (show 0 ≤ nthrs by omega) (by omega) (show 0 < nthrK by omega), Option.bind_some]
  generalize nthrs / nthrK = nthr at *
  obtain ⟨grid, hreduce, hgrid⟩ : ∃ grid, reduceGrid nthr fuel
      (if (if nthrM = 1 then nthr else nthrN) = 1 then nthr else nthrM, if nthrM = 1 then nthr else nthrN) = some grid ∧
      GridOf nthr grid := by
    obtain ⟨b, hb, hb1, hb31, hMb⟩ : ∃ b, (if nthrM = 1 then nthr else nthrN) = b ∧ 1 ≤ b ∧ b < 2 ^ 31 ∧
        nthrM * b < 2 ^ 31 := by
      split_ifs with hone
      · exact ⟨nthr, rfl, hnthr, by omega, by rw [hone, Int.one_mul]; omega⟩
      · exact ⟨nthrN, rfl, hN, by omega, hparts⟩
    rw [hb]
    split_ifs with hone
    · exact reduceGrid_spec hnthr hnthr hb1 (by dsimp only; rw [hone, Int.mul_one]; omega) (by dsimp only; omega)
    · exact reduceGrid_spec hnthr hM hb1 hMb (by dsimp only; omega)
  obtain ⟨grid', hgrow, h1, h2, hint, hroom⟩ := growGrid_spec (by omega) hgrid (show nthr.toNat < fuel by omega)
  have hpos : 0 < grid'.1 * grid'.2 := by positivity
  simp only [hreduce, hgrow, wrapInt_eq (show -2 ^ 31 ≤ grid'.1 * grid'.2 by omega) (by omega), Option.bind_some]
  split_ifs with hover
  · obtain ⟨s, hs, hgridS⟩ := h.fallback_spec ⟨hnthr, hless⟩ grid' hfuel
    rw [hs, Option.bind_some]
    exact h.finish_spec hgridS hK1 hnthrle
  · rw [Option.bind_some]
    refine h.finish_spec ⟨h1, h2, ?_⟩ hK1 hnthrle
    rcases hroom with hle | ⟨hone, hone'⟩
    · exact hle
    · by_contra hgt
      exact hover ⟨by omega, hone, hone'⟩

end Sizes

end MklDnn.GemmUtils

/-!
## Proofs: threads of the products without copies, for AVX-512

The loops change the two counts in the proportion of the blocks. The reduction may end with a count of zero; the
increment then brings it back, and a grid that has become too large is replaced.
-/

namespace MklDnn.GemmUtils

open WhileLoops

variable {m n k nthrs nthr : ℤ}

/-! ## The number of threads along `k`, and the ratio -/

theorem divisorNthrK_spec (hk : 0 ≤ k) (hnthr : 1 ≤ nthr ∧ nthr < 2 ^ 25) {fuel : ℕ} (hfuel : 2 ^ 32 ≤ fuel) :
    ∃ z, divisorNthrK k nthr fuel = some z ∧ 1 ≤ z ∧ z ≤ nthr := by
  obtain ⟨z, hz, hz1, hzn⟩ : ∃ z : ℤ, (if (if k.tdiv 192 > nthr.tdiv 4 then nthr.tdiv 4 else k.tdiv 192) < 1 then 1
      else if k.tdiv 192 > nthr.tdiv 4 then nthr.tdiv 4 else k.tdiv 192) = z ∧ 1 ≤ z ∧ z ≤ nthr := by
    rw [Int.tdiv_eq_ediv_of_nonneg hk, Int.tdiv_eq_ediv_of_nonneg (by omega)]
    refine ⟨_, rfl, ?_, ?_⟩ <;> split_ifs <;> omega
  unfold divisorNthrK
  simp only [hz]
  refine loop_ends (fun z => 1 ≤ z ∧ z ≤ nthr) Int.toNat ?_ ⟨hz1, hzn⟩ (by omega) fun z hinv _ => hinv
  rintro z ⟨h1, hn⟩ hcond
  rw [decide_eq_true_eq] at hcond
  rw [wrapInt_eq (by omega) (by omega)]
  exact ⟨_, rfl, ⟨by omega, by omega⟩, by omega⟩

/-- A rough bound of `ratio`, so that the counter of the loops does not leave the range of an `int`. -/
theorem ratio_le {nthrM nthrN : ℤ} (hM : 1 ≤ nthrM) (hN : 1 ≤ nthrN) : ratio nthrM nthrN ≤ 16 * (nthrM + nthrN) := by
  have hMpos : (0 : ℚ) < nthrM := by exact_mod_cast hM
  have hNone : (1 : ℚ) ≤ nthrN := by exact_mod_cast hN
  have hMone : (1 : ℚ) ≤ nthrM := by exact_mod_cast hM
  have hNpos : (0 : ℚ) < nthrN := by exact_mod_cast hN
  have hp : 0 < 24 := by omega
  have hfM := Rounding.toPrec_pos hp hMpos
  have hfN := Rounding.toPrec_pos hp hNpos
  have hquot : 0 < Rounding.toPrec 24 (nthrM : ℚ) / Rounding.toPrec 24 (nthrN : ℚ) := div_pos hfM hfN
  have hratio := Rounding.toPrec_pos hp hquot
  have hMup := Rounding.toPrec_le hp hMpos
  have hNup := Rounding.toPrec_le hp hNpos
  have hMlo := Rounding.le_toPrec hp hMpos
  have hNlo := Rounding.le_toPrec hp hNpos
  have hup := Rounding.toPrec_le hp hquot
  have hlo := Rounding.le_toPrec hp hquot
  unfold ratio
  dsimp only
  generalize Rounding.toPrec 24 (nthrM : ℚ) = fM at *
  generalize Rounding.toPrec 24 (nthrN : ℚ) = fN at *
  generalize Rounding.toPrec 24 (fM / fN) = f at *
  split_ifs
  · have hle : f ≤ 16 * (nthrM + nthrN) := by
      have : fM / fN ≤ 4 * nthrM := by
        rw [div_le_iff₀ hfN]
        nlinarith
      linarith
    have hfloor := (Int.floor_le f).trans hle
    exact_mod_cast hfloor
  · have hle : Rounding.toPrec 53 (1 / f) ≤ 16 * (nthrM + nthrN) := by
      have hrec := Rounding.toPrec_le (p := 53) (by omega) (one_div_pos.mpr hratio)
      have : 1 / f ≤ 8 * nthrN := by
        rw [div_le_iff₀ hratio]
        have : 1 ≤ 8 * nthrN * (fM / fN / 2) := by
          rw [← mul_div_assoc, ← mul_div_assoc, le_div_iff₀ (by norm_num), le_div_iff₀ hfN]
          nlinarith
        nlinarith
      linarith
    have hfloor := (Int.floor_le _).trans hle
    exact_mod_cast hfloor

/-! ## The grid -/

/-- Halving keeps the counts from growing. -/
theorem halveGrid_spec {s : ℤ × ℤ} (h1 : 1 ≤ s.1) (h2 : 1 ≤ s.2) (hmul : s.1 * s.2 < 2 ^ 31)
    (hnthr : 1 ≤ nthr ∧ nthr < 2 ^ 25) {fuel : ℕ} (hfuel : s.1.toNat < fuel) :
    ∃ s', halveGrid nthr fuel s = some s' ∧ s'.1 ≤ s.1 ∧ s'.2 ≤ s.2 := by
  unfold halveGrid
  rw [wrapInt_eq (show -2 ^ 31 ≤ 4 * nthr by omega) (by omega)]
  refine loop_ends (fun r : ℤ × ℤ => 0 ≤ r.1 ∧ r.1 ≤ s.1 ∧ 0 ≤ r.2 ∧ r.2 ≤ s.2) (fun r => r.1.toNat) ?_
    ⟨by omega, Int.le_refl _, by omega, Int.le_refl _⟩ hfuel fun r hinv _ => ⟨hinv.2.1, hinv.2.2.2⟩
  rintro r ⟨ha, ha', hb, hb'⟩ hcond
  have hprod : r.1 * r.2 ≤ s.1 * s.2 := Int.mul_le_mul ha' hb' hb (by omega)
  have hnonneg : 0 ≤ r.1 * r.2 := Int.mul_nonneg ha hb
  rw [decide_eq_true_eq, wrapInt_eq (by omega) (by omega)] at hcond
  have hpos : 0 < r.1 := by
    by_contra hzero
    rw [show r.1 = 0 by omega, Int.zero_mul] at hcond
    omega
  refine ⟨_, rfl, ?_⟩
  dsimp only
  rw [Int.tdiv_eq_ediv_of_nonneg ha, Int.tdiv_eq_ediv_of_nonneg hb]
  refine ⟨⟨?_, ?_, ?_, ?_⟩, ?_⟩ <;> omega

/-- A step changes one count: the larger one until the counter has come to the ratio, then the other one. -/
theorem ratioStep_spec (ratio step : ℤ) (s : (ℤ × ℤ) × ℤ) :
    (ratioStep ratio step s).1 = (wrapInt (s.1.1 + step), s.1.2) ∧
        (s.1.2 < s.1.1 ∧ s.2 < ratio ∨ s.1.1 ≤ s.1.2 ∧ ratio ≤ s.2) ∨
      (ratioStep ratio step s).1 = (s.1.1, wrapInt (s.1.2 + step)) ∧
        (s.1.1 ≤ s.1.2 ∧ s.2 < ratio ∨ s.1.2 < s.1.1 ∧ ratio ≤ s.2) := by
  unfold ratioStep
  dsimp only
  by_cases hlarger : s.1.1 > s.1.2
  · by_cases hfirst : s.2 < ratio
    · left
      simp [hlarger, hfirst]
    · right
      simp [hlarger, hfirst]
      omega
  · by_cases hfirst : s.2 < ratio
    · right
      simp [hlarger, hfirst]
      omega
    · left
      simp [hlarger, hfirst]
      omega

theorem ratioStep_counter (ratio step : ℤ) {s : (ℤ × ℤ) × ℤ} (hc : 0 ≤ s.2 ∧ s.2 < 2 ^ 31 - 1) :
    (ratioStep ratio step s).2 = if s.2 < ratio then s.2 + 1 else 0 := by
  unfold ratioStep
  dsimp only
  split_ifs
  · exact wrapInt_eq (by omega) (by omega)
  · exact wrapInt_eq (by omega) (by omega)

/-- The reduction ends within the number of threads; at most one count has become zero. -/
theorem reduceRatio_spec {ratio : ℤ} (hratio : ratio ≤ 2 ^ 30) (hnthr : 1 ≤ nthr) {s : ℤ × ℤ} (h1 : 1 ≤ s.1)
    (h2 : 1 ≤ s.2) (hmul : s.1 * s.2 < 2 ^ 31) {fuel : ℕ} (hfuel : (s.1 + s.2).toNat < fuel) :
    ∃ s', reduceRatio nthr ratio fuel s = some s' ∧ (0 ≤ s'.1 ∧ s'.1 ≤ s.1) ∧ (0 ≤ s'.2 ∧ s'.2 ≤ s.2) ∧
      1 ≤ s'.1 + s'.2 := by
  obtain ⟨r, hr, hinv⟩ : ∃ r, loop (fun s : (ℤ × ℤ) × ℤ => wrapInt (s.1.1 * s.1.2) > nthr)
      (fun s => some (ratioStep ratio (-1) s)) fuel (s, 0) = some r ∧ (0 ≤ r.1.1 ∧ r.1.1 ≤ s.1) ∧
      (0 ≤ r.1.2 ∧ r.1.2 ≤ s.2) ∧ 1 ≤ r.1.1 + r.1.2 := by
    refine loop_ends (fun r : (ℤ × ℤ) × ℤ => ((0 ≤ r.1.1 ∧ r.1.1 ≤ s.1) ∧ (0 ≤ r.1.2 ∧ r.1.2 ≤ s.2) ∧
        1 ≤ r.1.1 + r.1.2) ∧ 0 ≤ r.2 ∧ r.2 ≤ max ratio 0) (fun r => (r.1.1 + r.1.2).toNat) ?_
      ⟨⟨⟨by dsimp only; omega, Int.le_refl _⟩, ⟨by dsimp only; omega, Int.le_refl _⟩, by dsimp only; omega⟩,
        Int.le_refl _, Int.le_max_right _ _⟩ hfuel fun r hinv _ => hinv.1
    rintro ⟨⟨a, b⟩, c⟩ ⟨⟨ha, hb, hab⟩, hc⟩ hcond
    dsimp only at ha hb hab hc hcond
    have hprod : a * b ≤ s.1 * s.2 := Int.mul_le_mul ha.2 hb.2 hb.1 (by omega)
    have hnonneg : 0 ≤ a * b := Int.mul_nonneg ha.1 hb.1
    rw [decide_eq_true_eq, wrapInt_eq (by omega) (by omega)] at hcond
    have ha1 : 1 ≤ a := by
      by_contra hzero
      rw [show a = 0 by omega, Int.zero_mul] at hcond
      omega
    have hb1 : 1 ≤ b := by
      by_contra hzero
      rw [show b = 0 by omega, Int.mul_zero] at hcond
      omega
    have hsizes : s.1 < 2 ^ 31 ∧ s.2 < 2 ^ 31 := by constructor <;> nlinarith
    have hcounter := ratioStep_counter ratio (-1) (s := ((a, b), c)) ⟨hc.1, by dsimp only; omega⟩
    refine ⟨_, rfl, ⟨?_, ?_⟩, ?_⟩
    · rcases ratioStep_spec ratio (-1) ((a, b), c) with ⟨hstep, -⟩ | ⟨hstep, -⟩
      · rw [hstep]
        dsimp only
        rw [wrapInt_eq (by omega) (by omega)]
        omega
      · rw [hstep]
        dsimp only
        rw [wrapInt_eq (by omega) (by omega)]
        omega
    · rw [hcounter]
      dsimp only
      split_ifs <;> omega
    · rcases ratioStep_spec ratio (-1) ((a, b), c) with ⟨hstep, -⟩ | ⟨hstep, -⟩
      · rw [hstep]
        dsimp only
        rw [wrapInt_eq (by omega) (by omega)]
        omega
      · rw [hstep]
        dsimp only
        rw [wrapInt_eq (by omega) (by omega)]
        omega
  exact ⟨r.1, by unfold reduceRatio; rw [hr]; rfl, hinv⟩

/-- What the increment keeps, from counts whose sum is at most `sum`: while a count is zero, the sum grows with the
counter only. -/
structure Growing (ratio sum : ℤ) (s : (ℤ × ℤ) × ℤ) : Prop where
  fst_nonneg : 0 ≤ s.1.1
  snd_nonneg : 0 ≤ s.1.2
  pos : 1 ≤ s.1.1 + s.1.2
  lt : s.1.1 * s.1.2 < 2 ^ 31
  zero : s.1.1 * s.1.2 = 0 → s.1.1 + s.1.2 ≤ sum + s.2
  counter : 0 ≤ s.2 ∧ s.2 ≤ max ratio 0

/-- The iterations that are left: until no count is zero, and then until the product is large enough. -/
def growMeasure (ratio nthr : ℤ) (s : (ℤ × ℤ) × ℤ) : ℕ :=
  (if s.1.1 * s.1.2 = 0 then 4 * nthr + max ratio 0 + 1 - s.2 else 4 * nthr - s.1.1 * s.1.2).toNat

theorem Growing.step {ratio sum : ℤ} {s : (ℤ × ℤ) × ℤ} (h : Growing ratio sum s) (hratio : ratio ≤ 2 ^ 30)
    (hsum : sum ≤ 2 ^ 28) (hnthr : 1 ≤ nthr ∧ nthr < 2 ^ 25) (hcond : s.1.1 * s.1.2 < 4 * nthr) :
    Growing ratio sum (ratioStep ratio 1 s) ∧ growMeasure ratio nthr (ratioStep ratio 1 s) < growMeasure ratio nthr s := by
  have hstep := ratioStep_spec ratio 1 s
  have hcounter := h.counter
  have hnext := ratioStep_counter ratio 1 ⟨hcounter.1, by omega⟩
  obtain ⟨⟨a, b⟩, c⟩ := s
  have ha : 0 ≤ a := h.fst_nonneg
  have hb : 0 ≤ b := h.snd_nonneg
  have hpos : 1 ≤ a + b := h.pos
  have hlt : a * b < 2 ^ 31 := h.lt
  have hzero : a * b = 0 → a + b ≤ sum + c := h.zero
  have hfactor : a * b = 0 → a = 0 ∨ b = 0 := Int.mul_eq_zero.mp
  have hprod : 0 ≤ a * b := Int.mul_nonneg ha hb
  have hle : a * b ≠ 0 → a ≤ a * b ∧ b ≤ a * b ∧ 1 ≤ a ∧ 1 ≤ b := by
    intro hne
    have ha1 : 1 ≤ a := by
      by_contra h0
      exact hne (by rw [show a = 0 by omega, Int.zero_mul])
    have hb1 : 1 ≤ b := by
      by_contra h0
      exact hne (by rw [show b = 0 by omega, Int.mul_zero])
    refine ⟨?_, ?_, ha1, hb1⟩ <;> nlinarith
  have hbound : a < 2 ^ 31 - 1 ∧ b < 2 ^ 31 - 1 := by
    by_cases hp : a * b = 0
    · have := hzero hp
      dsimp only at hcounter
      omega
    · have := hle hp
      dsimp only at hcond
      omega
  generalize hr : ratioStep ratio 1 ((a, b), c) = r at *
  obtain ⟨⟨a', b'⟩, c'⟩ := r
  dsimp only at hstep hcounter hnext hcond
  have hcounter' : 0 ≤ c' ∧ c' ≤ max ratio 0 := by
    rw [hnext]
    split_ifs <;> omega
  rw [wrapInt_eq (show -2 ^ 31 ≤ a + 1 by omega) (by omega), wrapInt_eq (show -2 ^ 31 ≤ b + 1 by omega) (by omega)] at hstep
  -- The product of the new counts, and what it is where it stays zero.
  have hnew : a' * b' = a * b + b ∧ a' = a + 1 ∧ b' = b ∨ a' * b' = a * b + a ∧ a' = a ∧ b' = b + 1 := by
    rcases hstep with ⟨heq, -⟩ | ⟨heq, -⟩
    · obtain ⟨rfl, rfl⟩ := Prod.mk.inj heq
      exact Or.inl ⟨by ring, rfl, rfl⟩
    · obtain ⟨rfl, rfl⟩ := Prod.mk.inj heq
      exact Or.inr ⟨by ring, rfl, rfl⟩
  have hstays : a' * b' = 0 → a * b = 0 ∧ c' = c + 1 ∧ a' + b' = a + b + 1 := by
    intro h0
    rcases hstep with ⟨heq, hwhy⟩ | ⟨heq, hwhy⟩
    · obtain ⟨rfl, rfl⟩ := Prod.mk.inj heq
      have hb0 : b' = 0 := by
        rcases Int.mul_eq_zero.mp h0 with h1 | h2
        · omega
        · exact h2
      have hfirst : c < ratio := by omega
      rw [if_pos hfirst] at hnext
      exact ⟨by rw [hb0, Int.mul_zero], hnext, by omega⟩
    · obtain ⟨rfl, rfl⟩ := Prod.mk.inj heq
      have ha0 : a' = 0 := by
        rcases Int.mul_eq_zero.mp h0 with h1 | h2
        · exact h1
        · omega
      have hfirst : c < ratio := by omega
      rw [if_pos hfirst] at hnext
      exact ⟨by rw [ha0, Int.zero_mul], hnext, by omega⟩
  constructor
  · refine ⟨?_, ?_, ?_, ?_, ?_, hcounter'⟩ <;> dsimp only
    · omega
    · omega
    · omega
    · by_cases hp : a * b = 0
      · have := hzero hp
        omega
      · have := hle hp
        omega
    · intro h0
      have := hstays h0
      have := hzero this.1
      omega
  · unfold growMeasure
    dsimp only
    by_cases h0 : a' * b' = 0
    · have := hstays h0
      rw [if_pos h0, if_pos this.1]
      omega
    · rw [if_neg h0]
      by_cases hp : a * b = 0
      · rw [if_pos hp]
        omega
      · have := hle hp
        rw [if_neg hp]
        omega

theorem growRatio_spec {ratio : ℤ} (hratio : ratio ≤ 2 ^ 30) (hnthr : 1 ≤ nthr ∧ nthr < 2 ^ 25) {s : ℤ × ℤ}
    (h1 : 0 ≤ s.1) (h2 : 0 ≤ s.2) (hpos : 1 ≤ s.1 + s.2) (hsum : s.1 + s.2 ≤ 2 ^ 28) (hmul : s.1 * s.2 < 2 ^ 31)
    {fuel : ℕ} (hfuel : 2 ^ 32 ≤ fuel) :
    ∃ s', growRatio nthr ratio fuel s = some s' ∧ 1 ≤ s'.1 ∧ 1 ≤ s'.2 ∧ s'.1 * s'.2 < 2 ^ 31 := by
  have hthr : (0 : ℚ) < nthr := by exact_mod_cast hnthr.1
  have hbound : Rounding.toPrec 53 (double095 * nthr) ≤ 4 * nthr := by
    have hup := Rounding.toPrec_le (p := 53) (by omega) (mul_pos double095_pos hthr)
    have h095 : double095 ≤ 2 * (95 / 100) := Rounding.toPrec_le (by omega) (by norm_num)
    nlinarith
  have hdouble : 0 < Rounding.toPrec 53 (double095 * nthr) := Rounding.toPrec_pos (by omega) (mul_pos double095_pos hthr)
  obtain ⟨r, hr, hinv⟩ : ∃ r, loop (fun s : (ℤ × ℤ) × ℤ => ((wrapInt (s.1.1 * s.1.2) : ℤ) : ℚ) <
        Rounding.toPrec 53 (double095 * nthr)) (fun s => some (ratioStep ratio 1 s)) fuel (s, 0) = some r ∧
      1 ≤ r.1.1 ∧ 1 ≤ r.1.2 ∧ r.1.1 * r.1.2 < 2 ^ 31 := by
    refine loop_ends (Growing ratio (s.1 + s.2)) (growMeasure ratio nthr) ?_ ?_ ?_ ?_
    · intro r hinv hcond
      have hnonneg : 0 ≤ r.1.1 * r.1.2 := Int.mul_nonneg hinv.fst_nonneg hinv.snd_nonneg
      rw [decide_eq_true_eq, wrapInt_eq (by omega) hinv.lt] at hcond
      have hless : r.1.1 * r.1.2 < 4 * nthr := by exact_mod_cast hcond.trans_le hbound
      exact ⟨_, rfl, hinv.step hratio hsum hnthr hless⟩
    · exact ⟨h1, h2, hpos, hmul, fun _ => by dsimp only; omega, Int.le_refl _, Int.le_max_right _ _⟩
    · unfold growMeasure
      dsimp only
      have hnonneg : 0 ≤ s.1 * s.2 := Int.mul_nonneg h1 h2
      split_ifs <;> omega
    · intro r hinv hcond
      have hnonneg : 0 ≤ r.1.1 * r.1.2 := Int.mul_nonneg hinv.fst_nonneg hinv.snd_nonneg
      have ha := hinv.fst_nonneg
      have hb := hinv.snd_nonneg
      rw [decide_eq_false_iff_not, wrapInt_eq (by omega) hinv.lt, not_lt] at hcond
      have hprod : 0 < r.1.1 * r.1.2 := by exact_mod_cast hdouble.trans_le hcond
      refine ⟨?_, ?_, hinv.lt⟩ <;> nlinarith
  exact ⟨r.1, by unfold growRatio; rw [hr]; rfl, hinv⟩

/-! ## `calc_nthr_nocopy_avx512_common` -/

/-- The function returns, and what it returns is sound. -/
theorem calcNthrNocopyAvx512Common_sound (h : InRange m n k nthrs) (syncable : Bool)
    (hparts : (m + 32 - 1) / 32 * ((n + 64 - 1) / 64) < 2 ^ 31) {fuel : ℕ} (hfuel : 2 ^ 32 ≤ fuel) :
    ∃ g, calcNthrNocopyAvx512Common syncable m n k nthrs fuel = some g ∧ g.Sound m n k nthrs := by
  have hm := h.m
  have hn := h.n
  have hthr := h.nthrs
  have hM := @ceilDiv_pos m 32 (by omega) (by omega)
  have hN := @ceilDiv_pos n 64 (by omega) (by omega)
  have hMle : (m + 32 - 1) / 32 ≤ 2 ^ 25 := by omega
  have hNle : (n + 64 - 1) / 64 ≤ 2 ^ 24 := by omega
  unfold calcNthrNocopyAvx512Common
  obtain ⟨nthrK, hK, hK1, hKle⟩ : ∃ z, (if syncable ∧ n ≤ 2 * 64 ∧ m ≤ wrapInt (2 * 32 * nthrs) ∧ k > m ∧ k > n then
      divisorNthrK k nthrs fuel else some 1) = some z ∧ 1 ≤ z ∧ z ≤ nthrs := by
    split_ifs
    · exact divisorNthrK_spec h.k.1 hthr hfuel
    · exact ⟨1, rfl, Int.le_refl 1, hthr.1⟩
  have hnthr : 1 ≤ nthrs / nthrK := by rwa [Int.le_ediv_iff_mul_le (by omega), Int.one_mul]
  have hnthrle : nthrs / nthrK * nthrK ≤ nthrs := Int.ediv_mul_le _ (by omega)
  have hless : nthrs / nthrK ≤ nthrs := Int.ediv_le_self _ (by omega)
  simp only [hK, div?_eq (show 0 ≤ nthrs by omega) (by omega) (show 0 < nthrK by omega),
    ceilDiv?_eq (show 0 ≤ m by omega) (show (0 : ℤ) < 32 by omega) (by omega),
    ceilDiv?_eq (show 0 ≤ n by omega) (show (0 : ℤ) < 64 by omega) (by omega), Option.bind_eq_bind, Option.bind_some,
    if_neg (show ¬ (m + 32 - 1) / 32 < 1 by omega), if_neg (show ¬ (n + 64 - 1) / 64 < 1 by omega)]
  generalize (m + 32 - 1) / 32 = nthrM at *
  generalize (n + 64 - 1) / 64 = nthrN at *
  generalize nthrs / nthrK = nthr at *
  have hratio : ratio nthrM nthrN ≤ 2 ^ 30 := by have := ratio_le hM hN; omega
  obtain ⟨grid, hhalve, hgridM, hgridN⟩ := @halveGrid_spec nthr (nthrM, nthrN) hM hN hparts ⟨hnthr, by omega⟩ fuel
    (by dsimp only; omega)
  obtain ⟨a, ha, ha1, haM⟩ : ∃ a, (if grid.1 < 1 then 1 else grid.1) = a ∧ 1 ≤ a ∧ a ≤ nthrM := by
    split_ifs
    · exact ⟨1, rfl, Int.le_refl 1, hM⟩
    · exact ⟨grid.1, rfl, by omega, hgridM⟩
  obtain ⟨b, hb, hb1, hbN⟩ : ∃ b, (if grid.2 < 1 then 1 else grid.2) = b ∧ 1 ≤ b ∧ b ≤ nthrN := by
    split_ifs
    · exact ⟨1, rfl, Int.le_refl 1, hN⟩
    · exact ⟨grid.2, rfl, by omega, hgridN⟩
  have hab : a * b < 2 ^ 31 := (Int.mul_le_mul haM hbN (by omega) (by omega)).trans_lt hparts
  obtain ⟨grid', hreduce, hfst, hsnd, hpos⟩ := @reduceRatio_spec nthr _ hratio hnthr (a, b) ha1 hb1 hab fuel
    (by dsimp only; omega)
  dsimp only at hfst hsnd
  have hmul' : grid'.1 * grid'.2 < 2 ^ 31 := (Int.mul_le_mul hfst.2 hsnd.2 hsnd.1 (by omega)).trans_lt hab
  obtain ⟨grid'', hgrow, h1, h2, hint⟩ := growRatio_spec hratio ⟨hnthr, by omega⟩ hfst.1 hsnd.1 hpos (by omega) hmul' hfuel
  have hprod : 0 < grid''.1 * grid''.2 := by positivity
  simp only [hhalve, ha, hb, hreduce, hgrow, wrapInt_eq (show -2 ^ 31 ≤ grid''.1 * grid''.2 by omega) hint, Option.bind_some]
  split_ifs with hover
  · obtain ⟨s, hs, hgridS⟩ := h.fallback_spec ⟨hnthr, hless⟩ grid'' hfuel
    rw [hs, Option.bind_some]
    exact h.finish_spec hgridS hK1 hnthrle
  · rw [Option.bind_some]
    exact h.finish_spec ⟨h1, h2, by omega⟩ hK1 hnthrle

/-! ## Both functions -/

end MklDnn.GemmUtils
