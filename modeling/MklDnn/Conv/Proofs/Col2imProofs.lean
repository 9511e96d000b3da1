import Mathlib.Algebra.BigOperators.Ring.Finset
import MklDnn.Conv.Proofs.Im2colProofs
import MklDnn.Lib.Sums

/-!
# Proofs: `col2im`

`col2im` and `col2im_s32` add up, for every element of the image, what the columns hold at the taps that
fall on it. They are the adjoint of `im2col`.
-/

open LoopNest Interleaving

namespace MklDnn.JitGemmConvolutionUtils

variable {R : Type*} {jcp : JitGemmConvConf}

/-! ## Sums over taps -/

/-- The taps `(kh, kw, oh, ow)`. -/
def taps (jcp : JitGemmConvConf) : Finset (ℕ × ℕ × ℕ × ℕ) :=
  Finset.range jcp.kh ×ˢ Finset.range jcp.kw ×ˢ Finset.range jcp.oh ×ˢ Finset.range jcp.ow

theorem sum_taps [AddCommMonoid R] (f : ℕ → ℕ → ℕ → ℕ → R) :
    ∑ t ∈ taps jcp, f t.1 t.2.1 t.2.2.1 t.2.2.2 =
      ∑ kh ∈ Finset.range jcp.kh, ∑ kw ∈ Finset.range jcp.kw, ∑ oh ∈ Finset.range jcp.oh,
        ∑ ow ∈ Finset.range jcp.ow, f kh kw oh ow := by
  simp only [taps, Finset.sum_product]

/-- The row and the column of the image under a tap. -/
def Hits (jcp : JitGemmConvConf) (t : ℕ × ℕ × ℕ × ℕ) (y x : ℕ) : Prop :=
  ihOf jcp t.2.2.1 t.1 = y ∧ iwOf jcp t.2.2.2 t.2.1 = x

instance (t : ℕ × ℕ × ℕ × ℕ) (y x : ℕ) : Decidable (Hits jcp t y x) := inferInstanceAs (Decidable (_ ∧ _))

theorem hits_iff {kh kw oh ow y x : ℕ} :
    Hits jcp (kh, kw, oh, ow) y x ↔ ihOf jcp oh kh = y ∧ iwOf jcp ow kw = x := Iff.rfl

/-- What the taps on an element of the image add up to. -/
def gathered [AddCommMonoid R] (jcp : JitGemmConvConf) (c : ℕ × ℕ × ℕ × ℕ → R) (y x : ℕ) : R :=
  ∑ t ∈ taps jcp, if Hits jcp t y x then c t else 0

section Adjoint

variable [CommSemiring R]

/-- The taps on the elements of an image, and the elements of the padded image under the taps. -/
theorem sum_mul_gathered (im : ℤ → R) (ic : ℕ) (c : ℕ × ℕ × ℕ × ℕ → R) :
    ∑ y ∈ Finset.range jcp.ih, ∑ x ∈ Finset.range jcp.iw,
        im (ic * jcp.is + (y * jcp.iw + x)) * gathered jcp c y x =
      ∑ t ∈ taps jcp, padded jcp im ic (ihOf jcp t.2.2.1 t.1) (iwOf jcp t.2.2.2 t.2.1) * c t := by
  have hpixel : ∀ t ∈ taps jcp, ∑ p ∈ Finset.range jcp.ih ×ˢ Finset.range jcp.iw,
      im (ic * jcp.is + ((p.1 : ℤ) * jcp.iw + p.2)) * (if Hits jcp t p.1 p.2 then c t else 0) =
        padded jcp im ic (ihOf jcp t.2.2.1 t.1) (iwOf jcp t.2.2.2 t.2.1) * c t := by
    intro t _
    unfold padded
    split_ifs with hin
    · obtain ⟨⟨hy, hyIh⟩, hx, hxIw⟩ := hin
      rw [Finset.sum_eq_single ((ihOf jcp t.2.2.1 t.1).toNat, (iwOf jcp t.2.2.2 t.2.1).toNat)]
      · rw [if_pos ⟨(Int.toNat_of_nonneg hy).symm, (Int.toNat_of_nonneg hx).symm⟩, Int.toNat_of_nonneg hy,
          Int.toNat_of_nonneg hx]
      · intro p _ hne
        rw [if_neg, mul_zero]
        rintro ⟨hpy, hpx⟩
        apply hne
        rw [hpy, hpx]
        rfl
      · intro hnot
        exfalso
        apply hnot
        rw [Finset.mem_product, Finset.mem_range, Finset.mem_range]
        constructor <;> dsimp only <;> omega
    · rw [zero_mul]
      apply Finset.sum_eq_zero
      intro p hp
      rw [Finset.mem_product, Finset.mem_range, Finset.mem_range] at hp
      rw [if_neg, mul_zero]
      rintro ⟨hpy, hpx⟩
      apply hin
      rw [hpy, hpx]
      omega
  calc _ = ∑ p ∈ Finset.range jcp.ih ×ˢ Finset.range jcp.iw, ∑ t ∈ taps jcp,
        im (ic * jcp.is + ((p.1 : ℤ) * jcp.iw + p.2)) * (if Hits jcp t p.1 p.2 then c t else 0) := by
        rw [Finset.sum_product]
        simp only [gathered, Finset.mul_sum]
    _ = ∑ t ∈ taps jcp, ∑ p ∈ Finset.range jcp.ih ×ˢ Finset.range jcp.iw,
        im (ic * jcp.is + ((p.1 : ℤ) * jcp.iw + p.2)) * (if Hits jcp t p.1 p.2 then c t else 0) :=
        Finset.sum_comm
    _ = _ := Finset.sum_congr rfl hpixel

end Adjoint

/-! ## `col2im` -/

section Col2im

variable [AddCommMonoid R] {col : ℤ → R}

/-- The offset in an image of one channel after the other. -/
def imIdx (jcp : JitGemmConvConf) (ic y x : ℕ) : ℤ := ic * jcp.is + ((y : ℤ) * jcp.iw + x)

theorem imIdx_eq_iff {ic y x : ℕ} (hy : y < jcp.ih) (hx : x < jcp.iw) {ic' : ℕ} {ih iw : ℤ} (hih : 0 ≤ ih ∧ ih < jcp.ih)
    (hiw : 0 ≤ iw ∧ iw < jcp.iw) :
    (ic' : ℤ) * jcp.is + (ih * jcp.iw + iw) = imIdx jcp ic y x ↔ ic' = ic ∧ ih = y ∧ iw = x := by
  unfold imIdx JitGemmConvConf.is
  push_cast
  constructor
  · intro h
    have hflat : ((ic' : ℤ) * jcp.ih + ih) * jcp.iw + iw = ((ic : ℤ) * jcp.ih + y) * jcp.iw + x := by
      rw [add_mul, add_mul, mul_assoc, mul_assoc, add_assoc, add_assoc]
      exact h
    obtain ⟨hrow, hcol⟩ := mul_add_inj hiw ⟨by omega, by omega⟩ hflat
    obtain ⟨hchan, hrow⟩ := mul_add_inj hih ⟨by omega, by omega⟩ hrow
    exact ⟨by omega, hrow, hcol⟩
  · rintro ⟨rfl, rfl, rfl⟩
    rfl

/-- What `col2im` adds to an element of the image. -/
theorem sum_col2imAdds {ic y x : ℕ} (hy : y < jcp.ih) (hx : x < jcp.iw) :
    ((col2imAdds jcp col ic).map fun w => if w.1 = imIdx jcp ic y x then w.2 else 0).sum =
      gathered jcp (fun t => col ((ic * (jcp.ks * jcp.os) +
        (((t.1 * jcp.kw + t.2.1) * jcp.oh + t.2.2.1) * jcp.ow + t.2.2.2) : ℕ) : ℤ)) y x := by
  refine Eq.trans ?_ (sum_taps fun kh kw oh ow => if Hits jcp (kh, kw, oh, ow) y x then
    col ((ic * (jcp.ks * jcp.os) + (((kh * jcp.kw + kw) * jcp.oh + oh) * jcp.ow + ow) : ℕ) : ℤ) else 0).symm
  simp only [col2imAdds, sum_map_flatMap, hits_iff]
  apply Finset.sum_congr rfl
  intro kh _
  rw [Finset.sum_comm]
  apply Finset.sum_congr rfl
  intro oh _
  have hih : (oh : ℤ) * jcp.strideH - jcp.tPad + kh * jcp.dh = ihOf jcp oh kh := rfl
  rw [hih]
  split_ifs with hrow
  · symm
    rw [List.map_nil, List.sum_nil]
    apply Finset.sum_eq_zero
    intro kw _
    apply Finset.sum_eq_zero
    intro ow _
    exact if_neg (by omega)
  · rw [sum_map_flatMap]
    apply Finset.sum_congr rfl
    intro kw _
    rw [sum_map_flatMap]
    apply Finset.sum_congr rfl
    intro ow _
    have hiw : (ow : ℤ) * jcp.strideW - jcp.lPad + kw * jcp.dw = iwOf jcp ow kw := rfl
    rw [hiw]
    split_ifs with hcol hhit hhit
    · omega
    · rfl
    · rw [List.map_singleton, List.sum_singleton, if_pos]
      exact (imIdx_eq_iff hy hx (by omega) (by omega)).mpr ⟨rfl, hhit⟩
    · rw [List.map_singleton, List.sum_singleton, if_neg]
      exact fun h => hhit ((imIdx_eq_iff hy hx (by omega) (by omega)).mp h).2

omit [AddCommMonoid R] in
theorem mem_col2imAdds {ic : ℕ} {w : ℤ × R} (hw : w ∈ col2imAdds jcp col ic) :
    ∃ y < jcp.ih, ∃ x < jcp.iw, w.1 = imIdx jcp ic y x := by
  simp only [col2imAdds, List.mem_flatMap] at hw
  obtain ⟨kh, -, oh, -, hw⟩ := hw
  split_ifs at hw with hrow
  · cases hw
  · obtain ⟨kw, -, hw⟩ := List.mem_flatMap.mp hw
    obtain ⟨ow, -, hw⟩ := List.mem_flatMap.mp hw
    split_ifs at hw with hcol
    · cases hw
    · rw [List.mem_singleton] at hw
      subst hw
      rw [not_or, not_lt, not_le] at hrow hcol
      obtain ⟨y, hy⟩ := Int.eq_ofNat_of_zero_le hrow.1
      obtain ⟨x, hx⟩ := Int.eq_ofNat_of_zero_le hcol.1
      refine ⟨y, by omega, x, by omega, ?_⟩
      dsimp only
      rw [hy, hx]
      rfl

/-- What `col2im` assigns to for one channel. -/
theorem dst_col2imChannel {ic : ℕ} {e : Assign ℤ R} (he : e ∈ col2imChannel jcp col ic) :
    (∃ y < jcp.ih, ∃ x < jcp.iw, e.dst = imIdx jcp ic y x) ∧ e.Local := by
  unfold col2imChannel at he
  rcases List.mem_append.mp he with he | he
  · obtain ⟨i, hi, rfl⟩ := List.mem_map.mp he
    rw [List.mem_range] at hi
    have hiw : 0 < jcp.iw := Nat.pos_of_mul_pos_left (by omega : 0 < jcp.ih * jcp.iw)
    refine ⟨⟨i / jcp.iw, Nat.div_lt_of_lt_mul (Nat.mul_comm jcp.ih _ ▸ hi), i % jcp.iw, Nat.mod_lt _ hiw, ?_⟩,
      Assign.local_set _ _⟩
    have hdiv := Nat.div_add_mod' i jcp.iw
    show ((ic * (jcp.ih * jcp.iw) + i : ℕ) : ℤ) = _
    unfold imIdx JitGemmConvConf.is
    exact_mod_cast congrArg _ hdiv.symm
  · obtain ⟨w, hw, rfl⟩ := List.mem_map.mp he
    exact ⟨mem_col2imAdds hw, Assign.local_add _ _⟩

theorem raceFree_col2imChannel : Interleaving.RaceFree (col2imChannel jcp col) := by
  apply Interleaving.RaceFree.of_local
  · intro ic e he ic' hne e' he' hdst
    obtain ⟨⟨y, hy, x, hx, hey⟩, -⟩ := dst_col2imChannel he
    obtain ⟨⟨y', hy', x', hx', hey'⟩, -⟩ := dst_col2imChannel he'
    rw [hey, hey'] at hdst
    exact hne ((imIdx_eq_iff hy hx ⟨by omega, by omega⟩ ⟨by omega, by omega⟩).mp hdst).1
  · intro ic e he
    exact (dst_col2imChannel he).2

/-- After `col2im`, every element of the image holds what the taps on it add up to, in whatever order the
threads run. -/
theorem execAll_col2im {nthr : ℕ} (hnthr : 0 < nthr) {o : List (ℕ × Assign ℤ R)}
    (ho : IsOrder (col2im jcp col nthr) o) (im : ℤ → R) {ic y x : ℕ} (hic : ic < jcp.ic) (hy : y < jcp.ih)
    (hx : x < jcp.iw) :
    execAll (o.map Prod.snd) im (imIdx jcp ic y x) =
      gathered jcp (fun t => col ((ic * (jcp.ks * jcp.os) +
        (((t.1 * jcp.kw + t.2.1) * jcp.oh + t.2.2.1) * jcp.ow + t.2.2.2) : ℕ) : ℤ)) y x := by
  have hprogs : col2im jcp col nthr = fun p => (flatIters nthr jcp.ic p).flatMap (col2imChannel jcp col) := by
    funext p
    unfold col2im
    rw [parallelNdIters_eq, List.prod_singleton, List.flatMap_map]
    apply List.flatMap_congr
    intro i hi
    rw [ndIndex_singleton (lt_of_mem_flatIters hi)]
  rw [hprogs] at ho
  obtain ⟨p, hp⟩ := exists_mem_flatIters hnthr hic
  have hprivate : Private (col2imChannel jcp col) ic (imIdx jcp ic y x) := by
    intro ic' hne e he hdst
    obtain ⟨⟨y', hy', x', hx', hey⟩, -⟩ := dst_col2imChannel he
    rw [hey] at hdst
    exact hne ((imIdx_eq_iff hy hx ⟨by omega, by omega⟩ ⟨by omega, by omega⟩).mp hdst).1
  rw [raceFree_col2imChannel.execAll_threads (nodup_flatIters nthr jcp.ic)
    (fun _ _ => flatIters_disjoint) ho hp hprivate im, ← sum_col2imAdds hy hx]
  have hzeros : imIdx jcp ic y x ∈ (List.range (jcp.ih * jcp.iw)).map fun i : ℕ => ((ic * (jcp.ih * jcp.iw) + i : ℕ) : ℤ) := by
    refine List.mem_map.mpr ⟨y * jcp.iw + x, ?_, ?_⟩
    · rw [List.mem_range]
      calc y * jcp.iw + x < (y + 1) * jcp.iw := by
            rw [Nat.succ_mul]
            omega
        _ ≤ jcp.ih * jcp.iw := Nat.mul_le_mul_right _ hy
    · unfold imIdx JitGemmConvConf.is
      push_cast
      rfl
  rw [← execAll_zero_add (col2imAdds jcp col ic) im hzeros]
  unfold col2imChannel
  rw [List.map_map]
  rfl

end Col2im

/-! ## `col2im_s32` -/

/-- An element of the image belongs to the part of a thread. -/
structure Part.Mem (part : Part) (y x : ℤ) : Prop where
  h : part.hs ≤ y ∧ y < part.he
  w : part.ws ≤ x ∧ x < part.we

/-- The ranges of a thread with a part. -/
theorem col2imPart_mem {nthr ithr : ℕ} {y x : ℤ} (h : (col2imPart jcp nthr ithr).Mem y x) :
    ithr < min jcp.ih nthr * min jcp.iw (nthr / min jcp.ih nthr) ∧
      (((balance211 jcp.ih (min jcp.ih nthr) (ithr / min jcp.iw (nthr / min jcp.ih nthr))).1 : ℤ) ≤ y ∧
        y < (balance211 jcp.ih (min jcp.ih nthr) (ithr / min jcp.iw (nthr / min jcp.ih nthr))).2) ∧
      ((balance211 jcp.iw (min jcp.iw (nthr / min jcp.ih nthr)) (ithr % min jcp.iw (nthr / min jcp.ih nthr))).1 : ℤ) ≤ x ∧
        x < (balance211 jcp.iw (min jcp.iw (nthr / min jcp.ih nthr)) (ithr % min jcp.iw (nthr / min jcp.ih nthr))).2 := by
  unfold col2imPart at h
  dsimp only at h
  split_ifs at h with hlt
  · exact ⟨hlt, h.h, h.w⟩
  · have hrow := h.h
    dsimp only at hrow
    omega

/-- A part lies inside the image. -/
theorem col2imPart_inside {nthr ithr : ℕ} {y x : ℤ} (h : (col2imPart jcp nthr ithr).Mem y x) :
    (0 ≤ y ∧ y < jcp.ih) ∧ 0 ≤ x ∧ x < jcp.iw := by
  obtain ⟨hlt, hrow, hcol⟩ := col2imPart_mem h
  have hw : 0 < min jcp.iw (nthr / min jcp.ih nthr) := by
    by_contra hzero
    rw [Nat.eq_zero_of_not_pos hzero, Nat.mul_zero] at hlt
    omega
  have hdiv := Nat.div_lt_of_lt_mul (Nat.mul_comm (min jcp.ih nthr) _ ▸ hlt)
  have hrowLe := @balance211_snd_le jcp.ih _ _ hdiv
  have hcolLe := @balance211_snd_le jcp.iw _ _ (Nat.mod_lt ithr hw)
  omega

/-- No element of the image belongs to two threads. -/
theorem col2imPart_unique {nthr p q : ℕ} {y x : ℕ} (hp : (col2imPart jcp nthr p).Mem y x)
    (hq : (col2imPart jcp nthr q).Mem y x) : p = q := by
  obtain ⟨hlt, hrow, hcol⟩ := col2imPart_mem hp
  obtain ⟨hlt', hrow', hcol'⟩ := col2imPart_mem hq
  have hw : 0 < min jcp.iw (nthr / min jcp.ih nthr) := by
    by_contra hzero
    rw [Nat.eq_zero_of_not_pos hzero, Nat.mul_zero] at hlt
    omega
  have hdiv := Nat.div_lt_of_lt_mul (Nat.mul_comm (min jcp.ih nthr) _ ▸ hlt)
  have hdiv' := Nat.div_lt_of_lt_mul (Nat.mul_comm (min jcp.ih nthr) _ ▸ hlt')
  have hh := @balance211_unique jcp.ih _ _ _ y hdiv hdiv' (by omega) (by omega)
  have hww := @balance211_unique jcp.iw _ _ _ x (Nat.mod_lt p hw) (Nat.mod_lt q hw) (by omega) (by omega)
  rw [← Nat.div_add_mod p (min jcp.iw (nthr / min jcp.ih nthr)), hh, hww, Nat.div_add_mod]

/-- Every element of the image belongs to a thread. -/
theorem exists_col2imPart {nthr : ℕ} (hnthr : 0 < nthr) {y x : ℕ} (hy : y < jcp.ih) (hx : x < jcp.iw) :
    ∃ p < nthr, (col2imPart jcp nthr p).Mem y x := by
  have hh : 0 < min jcp.ih nthr := by omega
  have hquot : 0 < nthr / min jcp.ih nthr := Nat.div_pos (min_le_right _ _) hh
  have hw : 0 < min jcp.iw (nthr / min jcp.ih nthr) := by omega
  obtain ⟨hIthr, hhlt, hrow⟩ := exists_balance211 hh hy
  obtain ⟨wIthr, hwlt, hcol⟩ := exists_balance211 hw hx
  have hlt : hIthr * min jcp.iw (nthr / min jcp.ih nthr) + wIthr <
      min jcp.ih nthr * min jcp.iw (nthr / min jcp.ih nthr) := by
    calc hIthr * min jcp.iw (nthr / min jcp.ih nthr) + wIthr
        < (hIthr + 1) * min jcp.iw (nthr / min jcp.ih nthr) := by
          rw [Nat.succ_mul]
          omega
      _ ≤ _ := Nat.mul_le_mul_right _ hhlt
  have hle : min jcp.ih nthr * min jcp.iw (nthr / min jcp.ih nthr) ≤ nthr :=
    (Nat.mul_le_mul_left _ (min_le_right _ _)).trans (Nat.mul_div_le _ _)
  refine ⟨hIthr * min jcp.iw (nthr / min jcp.ih nthr) + wIthr, by omega, ?_⟩
  unfold col2imPart
  dsimp only
  rw [if_pos hlt, Nat.mul_comm hIthr, Nat.mul_add_div hw, Nat.div_eq_of_lt hwlt, Nat.mul_add_mod,
    Nat.mod_eq_of_lt hwlt, Nat.add_zero]
  exact ⟨by dsimp only; omega, by dsimp only; omega⟩

section Col2imS32

variable [AddCommMonoid R] {col : ℤ → R}

/-- The offset in an image with the channels of an element next to each other. -/
def imIdxNhwc (jcp : JitGemmConvConf) (ic y x : ℕ) : ℤ := ((y : ℤ) * jcp.iw + x) * jcp.ic + ic

theorem imIdxNhwc_eq_iff {ic y x ic' : ℕ} (hic : ic < jcp.ic) (hx : x < jcp.iw) (hic' : ic' < jcp.ic) {ih iw : ℤ}
    (hiw : 0 ≤ iw ∧ iw < jcp.iw) :
    (ih * jcp.iw + iw) * jcp.ic + ic' = imIdxNhwc jcp ic y x ↔ (ih = y ∧ iw = x) ∧ ic' = ic := by
  unfold imIdxNhwc
  constructor
  · intro h
    obtain ⟨hpos, hchan⟩ := mul_add_inj ⟨by omega, by omega⟩ ⟨by omega, by omega⟩ h
    exact ⟨mul_add_inj hiw ⟨by omega, by omega⟩ hpos, by omega⟩
  · rintro ⟨⟨rfl, rfl⟩, rfl⟩
    rfl

/-- What a thread adds to an element of its part. -/
theorem sum_col2imS32Adds {part : Part} (hinside : ∀ {y x : ℤ}, part.Mem y x → (0 ≤ y ∧ y < jcp.ih) ∧ 0 ≤ x ∧ x < jcp.iw)
    {ic y x : ℕ} (hic : ic < jcp.ic) (hmem : part.Mem y x) :
    ((col2imS32Adds jcp col part).map fun w => if w.1 = imIdxNhwc jcp ic y x then w.2 else 0).sum =
      gathered jcp (fun t => col (((((t.2.2.1 * jcp.ow + t.2.2.2) * jcp.kh + t.1) * jcp.kw + t.2.1) * jcp.ic + ic : ℕ) : ℤ))
        y x := by
  have hx : x < jcp.iw := by
    have := (hinside hmem).2.2
    omega
  have horder : ∀ f : ℕ → ℕ → ℕ → ℕ → R,
      ∑ kh ∈ Finset.range jcp.kh, ∑ kw ∈ Finset.range jcp.kw, ∑ oh ∈ Finset.range jcp.oh, ∑ ow ∈ Finset.range jcp.ow,
        f kh kw oh ow =
      ∑ oh ∈ Finset.range jcp.oh, ∑ ow ∈ Finset.range jcp.ow, ∑ kh ∈ Finset.range jcp.kh, ∑ kw ∈ Finset.range jcp.kw,
        f kh kw oh ow := by
    intro f
    calc _ = ∑ kh ∈ Finset.range jcp.kh, ∑ oh ∈ Finset.range jcp.oh, ∑ kw ∈ Finset.range jcp.kw,
          ∑ ow ∈ Finset.range jcp.ow, f kh kw oh ow := Finset.sum_congr rfl fun _ _ => Finset.sum_comm
      _ = ∑ oh ∈ Finset.range jcp.oh, ∑ kh ∈ Finset.range jcp.kh, ∑ kw ∈ Finset.range jcp.kw,
          ∑ ow ∈ Finset.range jcp.ow, f kh kw oh ow := Finset.sum_comm
      _ = ∑ oh ∈ Finset.range jcp.oh, ∑ kh ∈ Finset.range jcp.kh, ∑ ow ∈ Finset.range jcp.ow,
          ∑ kw ∈ Finset.range jcp.kw, f kh kw oh ow :=
          Finset.sum_congr rfl fun _ _ => Finset.sum_congr rfl fun _ _ => Finset.sum_comm
      _ = _ := Finset.sum_congr rfl fun _ _ => Finset.sum_comm
  refine Eq.trans ?_ ((horder _).symm.trans (sum_taps fun kh kw oh ow => if Hits jcp (kh, kw, oh, ow) y x then
    col (((((oh * jcp.ow + ow) * jcp.kh + kh) * jcp.kw + kw) * jcp.ic + ic : ℕ) : ℤ) else 0).symm)
  simp only [col2imS32Adds, sum_map_flatMap, hits_iff]
  apply Finset.sum_congr rfl
  intro oh _
  apply Finset.sum_congr rfl
  intro ow _
  apply Finset.sum_congr rfl
  intro kh _
  have hih : (oh : ℤ) * jcp.strideH - jcp.tPad + kh * jcp.dh = ihOf jcp oh kh := rfl
  rw [hih]
  have hrowIn := hmem.h
  have hcolIn := hmem.w
  split_ifs with hrow
  · symm
    rw [List.map_nil, List.sum_nil]
    apply Finset.sum_eq_zero
    intro kw _
    exact if_neg (by omega)
  · rw [sum_map_flatMap]
    apply Finset.sum_congr rfl
    intro kw _
    have hiw : (ow : ℤ) * jcp.strideW - jcp.lPad + kw * jcp.dw = iwOf jcp ow kw := rfl
    rw [hiw]
    split_ifs with hcol hhit hhit
    · omega
    · rfl
    all_goals
      have hin := hinside (⟨by omega, by omega⟩ : part.Mem (ihOf jcp oh kh) (iwOf jcp ow kw))
      rw [sum_map_range]
    · rw [Finset.sum_eq_single_of_mem ic (Finset.mem_range.mpr hic), if_pos]
      · exact (imIdxNhwc_eq_iff hic hx hic hin.2).mpr ⟨hhit, rfl⟩
      · intro ic' hic' hne
        exact if_neg fun h => hne ((imIdxNhwc_eq_iff hic hx (Finset.mem_range.mp hic') hin.2).mp h).2
    · apply Finset.sum_eq_zero
      intro ic' hic'
      exact if_neg fun h => hhit ((imIdxNhwc_eq_iff hic hx (Finset.mem_range.mp hic') hin.2).mp h).1

/-- What a thread of `col2im_s32` assigns to. -/
theorem dst_col2imS32 {nthr p : ℕ} {e : Assign ℤ R} (he : e ∈ col2imS32 jcp col nthr p) :
    (∃ ic < jcp.ic, ∃ y x : ℕ, (col2imPart jcp nthr p).Mem y x ∧ e.dst = imIdxNhwc jcp ic y x) ∧ e.Local := by
  unfold col2imS32 at he
  split_ifs at he with hp
  · rcases List.mem_append.mp he with he | he
    · obtain ⟨a, ha, rfl⟩ := List.mem_map.mp he
      refine ⟨?_, Assign.local_set _ _⟩
      unfold col2imS32Zeros at ha
      simp only [List.mem_flatMap, List.mem_map, List.mem_range, Int.mem_range_iff] at ha
      obtain ⟨ih, hih, iw, hiw, ic, hic, rfl⟩ := ha
      have hmem : (col2imPart jcp nthr p).Mem ih iw := ⟨hih, hiw⟩
      have hin := col2imPart_inside hmem
      lift ih to ℕ using hin.1.1
      lift iw to ℕ using hin.2.1
      exact ⟨ic, hic, ih, iw, hmem, rfl⟩
    · obtain ⟨w, hw, rfl⟩ := List.mem_map.mp he
      refine ⟨?_, Assign.local_add _ _⟩
      simp only [col2imS32Adds, List.mem_flatMap] at hw
      obtain ⟨oh, -, ow, -, kh, -, hw⟩ := hw
      split_ifs at hw with hrow
      · cases hw
      · obtain ⟨kw, -, hw⟩ := List.mem_flatMap.mp hw
        split_ifs at hw with hcol
        · cases hw
        · obtain ⟨ic, hic, rfl⟩ := List.mem_map.mp hw
          rw [List.mem_range] at hic
          rw [not_or, not_lt, not_le] at hrow hcol
          have hmem : (col2imPart jcp nthr p).Mem (ihOf jcp oh kh) (iwOf jcp ow kw) := ⟨hrow, hcol⟩
          have hin := col2imPart_inside hmem
          obtain ⟨y, hy⟩ := Int.eq_ofNat_of_zero_le hin.1.1
          obtain ⟨x, hx⟩ := Int.eq_ofNat_of_zero_le hin.2.1
          rw [hy, hx] at hmem
          refine ⟨ic, hic, y, x, hmem, ?_⟩
          show (ihOf jcp oh kh * jcp.iw + iwOf jcp ow kw) * jcp.ic + ic = _
          rw [hy, hx]
          rfl
  · cases he

/-- After `col2im_s32`, every element of the image holds what the taps on it add up to, in whatever order the
threads run. -/
theorem execAll_col2imS32 {nthr : ℕ} (hnthr : 0 < nthr) {o : List (ℕ × Assign ℤ R)}
    (ho : IsOrder (col2imS32 jcp col nthr) o) (im : ℤ → R) {ic y x : ℕ} (hic : ic < jcp.ic) (hy : y < jcp.ih)
    (hx : x < jcp.iw) :
    execAll (o.map Prod.snd) im (imIdxNhwc jcp ic y x) =
      gathered jcp (fun t => col (((((t.2.2.1 * jcp.ow + t.2.2.2) * jcp.kh + t.1) * jcp.kw + t.2.1) * jcp.ic + ic : ℕ) : ℤ))
        y x := by
  have hother : ∀ p q, q ≠ p → ∀ (ic y x : ℕ), ic < jcp.ic → (col2imPart jcp nthr p).Mem y x →
      ∀ e ∈ col2imS32 jcp col nthr q, e.dst ≠ imIdxNhwc jcp ic y x := by
    intro p q hne ic y x hic hmem e he hdst
    obtain ⟨⟨ic', hic', y', x', hmem', hdst'⟩, -⟩ := dst_col2imS32 he
    have hin := col2imPart_inside hmem
    have hin' := col2imPart_inside hmem'
    rw [hdst'] at hdst
    obtain ⟨⟨hyy, hxx⟩, -⟩ := (imIdxNhwc_eq_iff hic (by omega) hic' hin'.2).mp hdst
    rw [hyy, hxx] at hmem'
    exact hne (col2imPart_unique hmem' hmem)
  have hrace : Interleaving.RaceFree (col2imS32 jcp col nthr) := by
    apply Interleaving.RaceFree.of_local
    · intro p e he q hne e' he'
      obtain ⟨⟨ic', hic', y', x', hmem', hdst'⟩, -⟩ := dst_col2imS32 he
      rw [hdst']
      exact hother p q hne ic' y' x' hic' hmem' e' he'
    · intro p e he
      exact (dst_col2imS32 he).2
  obtain ⟨p, hp, hmem⟩ := exists_col2imPart hnthr hy hx
  have hprivate : Private (col2imS32 jcp col nthr) p (imIdxNhwc jcp ic y x) :=
    fun q hq e he => hother p q hq ic y x hic hmem e he
  have hzeros : imIdxNhwc jcp ic y x ∈ col2imS32Zeros jcp (col2imPart jcp nthr p) := by
    unfold col2imS32Zeros
    simp only [List.mem_flatMap, List.mem_map, List.mem_range, Int.mem_range_iff]
    exact ⟨y, hmem.h, x, hmem.w, ic, hic, rfl⟩
  rw [hrace.execAll_order ho hprivate, ← sum_col2imS32Adds col2imPart_inside hic hmem,
    ← execAll_zero_add _ im hzeros]
  unfold col2imS32
  rw [if_pos hp]

end Col2imS32

/-! ## The adjoint -/

/-- The columns of a tile as columns of the whole output, zero outside the tile. -/
def embed [Zero R] (jcp : JitGemmConvConf) (ss sb cs cb : ℕ) (c : ℤ → R) (a : ℤ) : R :=
  let s := a.toNat % jcp.os
  let k := a.toNat / jcp.os % jcp.ks
  let ic := a.toNat / jcp.os / jcp.ks
  if (cs ≤ ic ∧ ic < cs + cb) ∧ ss ≤ s ∧ s < ss + sb then c (((ic - cs) * jcp.ks + k) * sb + (s - ss) : ℕ) else 0

/-- The columns of a tile in the layout of `col2im_s32`. -/
def embedNhwc [Zero R] (jcp : JitGemmConvConf) (ss sb cs cb : ℕ) (c : ℤ → R) (a : ℤ) : R :=
  let ic := a.toNat % jcp.ic
  let k := a.toNat / jcp.ic % (jcp.kh * jcp.kw)
  let s := a.toNat / jcp.ic / (jcp.kh * jcp.kw)
  if (cs ≤ ic ∧ ic < cs + cb) ∧ ss ≤ s ∧ s < ss + sb then c (((ic - cs) * jcp.ks + k) * sb + (s - ss) : ℕ) else 0

section Embed

variable [Zero R] {ss sb cs cb : ℕ} (c : ℤ → R)

/-- An entry of the columns of the whole output. -/
def tileEntry (jcp : JitGemmConvConf) (ss sb cs cb : ℕ) (c : ℤ → R) (ic kh kw s : ℕ) : R :=
  if (cs ≤ ic ∧ ic < cs + cb) ∧ ss ≤ s ∧ s < ss + sb then c (colIdx jcp sb (ic - cs) kh kw (s - ss)) else 0

theorem embed_eq (hkd : 0 < jcp.kd) {ic kh kw oh ow : ℕ} (hkh : kh < jcp.kh) (hkw : kw < jcp.kw) (hoh : oh < jcp.oh)
    (how : ow < jcp.ow) :
    embed jcp ss sb cs cb c ((ic * (jcp.ks * jcp.os) + (((kh * jcp.kw + kw) * jcp.oh + oh) * jcp.ow + ow) : ℕ) : ℤ) =
      tileEntry jcp ss sb cs cb c ic kh kw (oh * jcp.ow + ow) := by
  have hs : oh * jcp.ow + ow < jcp.os := by
    calc oh * jcp.ow + ow < (oh + 1) * jcp.ow := by
          rw [Nat.succ_mul]
          omega
      _ ≤ jcp.oh * jcp.ow := Nat.mul_le_mul_right _ hoh
  have hk := tap_lt_ks hkd hkh hkw
  have hflat : ic * (jcp.ks * jcp.os) + (((kh * jcp.kw + kw) * jcp.oh + oh) * jcp.ow + ow) =
      jcp.os * (jcp.ks * ic + (kh * jcp.kw + kw)) + (oh * jcp.ow + ow) := by
    unfold JitGemmConvConf.os
    ring
  unfold embed tileEntry
  dsimp only
  rw [Int.toNat_natCast, hflat, Nat.mul_add_mod, Nat.mod_eq_of_lt hs, Nat.mul_add_div (by omega),
    Nat.div_eq_of_lt hs, Nat.add_zero, Nat.mul_add_mod, Nat.mod_eq_of_lt hk, Nat.mul_add_div (by omega),
    Nat.div_eq_of_lt hk, Nat.add_zero]
  rfl

theorem embedNhwc_eq {ic kh kw oh ow : ℕ} (hic : ic < jcp.ic) (hkh : kh < jcp.kh) (hkw : kw < jcp.kw) :
    embedNhwc jcp ss sb cs cb c (((((oh * jcp.ow + ow) * jcp.kh + kh) * jcp.kw + kw) * jcp.ic + ic : ℕ) : ℤ) =
      tileEntry jcp ss sb cs cb c ic kh kw (oh * jcp.ow + ow) := by
  have hk : kh * jcp.kw + kw < jcp.kh * jcp.kw := by
    calc kh * jcp.kw + kw < (kh + 1) * jcp.kw := by
          rw [Nat.succ_mul]
          omega
      _ ≤ jcp.kh * jcp.kw := Nat.mul_le_mul_right _ hkh
  have hflat : (((oh * jcp.ow + ow) * jcp.kh + kh) * jcp.kw + kw) * jcp.ic + ic =
      jcp.ic * (jcp.kh * jcp.kw * (oh * jcp.ow + ow) + (kh * jcp.kw + kw)) + ic := by
    ring
  unfold embedNhwc tileEntry
  dsimp only
  rw [Int.toNat_natCast, hflat, Nat.mul_add_mod, Nat.mod_eq_of_lt hic, Nat.mul_add_div (by omega),
    Nat.div_eq_of_lt hic, Nat.add_zero, Nat.mul_add_mod, Nat.mod_eq_of_lt hk, Nat.mul_add_div (by omega),
    Nat.div_eq_of_lt hk, Nat.add_zero]
  rfl

end Embed

section Tile

variable [CommSemiring R] {ss sb cs cb : ℕ}

/-- A sum over the entries of the columns of a tile. -/
def colSum (jcp : JitGemmConvConf) (sb cb : ℕ) (f : ℤ → R) : R :=
  ∑ ic ∈ Finset.range cb, ∑ kh ∈ Finset.range jcp.kh, ∑ kw ∈ Finset.range jcp.kw, ∑ s ∈ Finset.range sb,
    f (colIdx jcp sb ic kh kw s)

/-- The product of the padded image with the entries of a tile. -/
theorem sum_padded_mul_tileEntry (hsp : ss + sb ≤ jcp.os) (hch : cs + cb ≤ jcp.ic) (im c : ℤ → R) :
    ∑ ic ∈ Finset.range jcp.ic, ∑ t ∈ taps jcp,
        padded jcp im ic (ihOf jcp t.2.2.1 t.1) (iwOf jcp t.2.2.2 t.2.1) *
          tileEntry jcp ss sb cs cb c ic t.1 t.2.1 (t.2.2.1 * jcp.ow + t.2.2.2) =
      ∑ ic ∈ Finset.range cb, ∑ kh ∈ Finset.range jcp.kh, ∑ kw ∈ Finset.range jcp.kw, ∑ s ∈ Finset.range sb,
        padded jcp im (cs + ic) (ihOf jcp ((ss + s) / jcp.ow : ℕ) kh) (iwOf jcp ((ss + s) % jcp.ow : ℕ) kw) *
          c (colIdx jcp sb ic kh kw s) := by
  rw [← sum_range_window hch]
  apply Finset.sum_congr rfl
  intro ic _
  rw [sum_taps fun kh kw oh ow => padded jcp im ic (ihOf jcp oh kh) (iwOf jcp ow kw) *
    tileEntry jcp ss sb cs cb c ic kh kw (oh * jcp.ow + ow)]
  by_cases hic : cs ≤ ic ∧ ic < cs + cb
  · rw [if_pos hic]
    apply Finset.sum_congr rfl
    intro kh _
    apply Finset.sum_congr rfl
    intro kw _
    rw [sum_range_mul fun oh ow => padded jcp im ic (ihOf jcp oh kh) (iwOf jcp ow kw) *
      tileEntry jcp ss sb cs cb c ic kh kw (oh * jcp.ow + ow), ← sum_range_window hsp]
    apply Finset.sum_congr rfl
    intro s _
    rw [Nat.div_add_mod']
    unfold tileEntry
    by_cases hs : ss ≤ s ∧ s < ss + sb
    · rw [if_pos ⟨hic, hs⟩, if_pos hs, Nat.add_sub_cancel' hic.1, Nat.add_sub_cancel' hs.1]
    · rw [if_neg fun h => hs h.2, if_neg hs, mul_zero]
  · rw [if_neg hic]
    apply Finset.sum_eq_zero
    intro kh _
    apply Finset.sum_eq_zero
    intro kw _
    apply Finset.sum_eq_zero
    intro oh _
    apply Finset.sum_eq_zero
    intro ow _
    unfold tileEntry
    rw [if_neg fun h => hic h.1, mul_zero]

/-- What the branches of `im2col` write; those for stride one only where the stride is one. -/
def im2colBranches (jcp : JitGemmConvConf) (im : ℤ → R) (ss sb cs cb nthr : ℕ) : List (List (ℤ × R)) :=
  [im2colOuter jcp ss sb cb (stridedElem jcp im cs), im2colInner jcp ss sb cb nthr (stridedElem jcp im cs)] ++
    if jcp.strideW = 1 then
      [im2colOuter jcp ss sb cb (outerUnitElem jcp im cs), im2colInner jcp ss sb cb nthr (innerUnitElem jcp im cs)]
    else []

theorem im2col_mem_branches (im : ℤ → R) (nthr : ℕ) :
    im2col jcp im ss sb cs cb nthr ∈ im2colBranches jcp im ss sb cs cb nthr := by
  unfold im2col im2colBranches
  split_ifs <;> simp

theorem fillsTile_of_mem_branches (how : 0 < jcp.ow) {nthr : ℕ} (hnthr : 0 < nthr) {im : ℤ → R} {l : List (ℤ × R)}
    (hl : l ∈ im2colBranches jcp im ss sb cs cb nthr) : FillsTile jcp im ss sb cs cb l := by
  unfold im2colBranches at hl
  simp only [List.mem_append, List.mem_cons, List.not_mem_nil, or_false] at hl
  rcases hl with (rfl | rfl) | hl
  · exact fillsTile_im2colOuter how stridedElem_right
  · exact fillsTile_im2colInner how hnthr stridedElem_right
  · split_ifs at hl with hsw
    · rcases List.mem_cons.mp hl with rfl | hl
      · exact fillsTile_im2colOuter how (outerUnitElem_right hsw)
      · rw [List.mem_singleton] at hl
        subst hl
        exact fillsTile_im2colInner how hnthr (innerUnitElem_right hsw)
    · cases hl

theorem FillsTile.perm {im : ℤ → R} {l l' : List (ℤ × R)} (h : FillsTile jcp im ss sb cs cb l) (hp : l'.Perm l) :
    FillsTile jcp im ss sb cs cb l' :=
  fun w => hp.mem_iff.trans (h w)

/-- A sum over the elements of an image. -/
def imSum (jcp : JitGemmConvConf) (f : ℕ → ℕ → ℕ → R) : R :=
  ∑ ic ∈ Finset.range jcp.ic, ∑ y ∈ Finset.range jcp.ih, ∑ x ∈ Finset.range jcp.iw, f ic y x

/-- The columns of a tile times columns `c`, and the image times what is gathered from `c`. -/
theorem colSum_eq_imSum (hkd : 0 < jcp.kd) (hsp : ss + sb ≤ jcp.os) (hch : cs + cb ≤ jcp.ic) {im : ℤ → R}
    {l : List (ℤ × R)} (hl : FillsTile jcp im ss sb cs cb l) (col c : ℤ → R) {im' : ℕ → ℕ → ℕ → R}
    (him' : ∀ ic < jcp.ic, ∀ y < jcp.ih, ∀ x < jcp.iw, im' ic y x =
      gathered jcp (fun t => tileEntry jcp ss sb cs cb c ic t.1 t.2.1 (t.2.2.1 * jcp.ow + t.2.2.2)) y x) :
    colSum jcp sb cb (fun a => applyWrites l col a * c a) =
      imSum jcp fun ic y x => im (imIdx jcp ic y x) * im' ic y x := by
  calc colSum jcp sb cb (fun a => applyWrites l col a * c a)
      = ∑ ic ∈ Finset.range cb, ∑ kh ∈ Finset.range jcp.kh, ∑ kw ∈ Finset.range jcp.kw, ∑ s ∈ Finset.range sb,
          padded jcp im (cs + ic) (ihOf jcp ((ss + s) / jcp.ow : ℕ) kh) (iwOf jcp ((ss + s) % jcp.ow : ℕ) kw) *
            c (colIdx jcp sb ic kh kw s) := by
        unfold colSum
        refine Finset.sum_congr rfl fun ic hic => Finset.sum_congr rfl fun kh hkh =>
          Finset.sum_congr rfl fun kw hkw => Finset.sum_congr rfl fun s hs => ?_
        dsimp only
        rw [hl.applyWrites hkd (Finset.mem_range.mp hic) (Finset.mem_range.mp hkh) (Finset.mem_range.mp hkw)
          (Finset.mem_range.mp hs)]
    _ = ∑ ic ∈ Finset.range jcp.ic, ∑ t ∈ taps jcp,
          padded jcp im ic (ihOf jcp t.2.2.1 t.1) (iwOf jcp t.2.2.2 t.2.1) *
            tileEntry jcp ss sb cs cb c ic t.1 t.2.1 (t.2.2.1 * jcp.ow + t.2.2.2) :=
        (sum_padded_mul_tileEntry hsp hch im c).symm
    _ = imSum jcp fun ic y x => im (imIdx jcp ic y x) * im' ic y x := by
        apply Finset.sum_congr rfl
        intro ic hic
        rw [← sum_mul_gathered]
        refine Finset.sum_congr rfl fun y hy => Finset.sum_congr rfl fun x hx => ?_
        dsimp only
        rw [him' ic (Finset.mem_range.mp hic) y (Finset.mem_range.mp hy) x (Finset.mem_range.mp hx)]
        rfl

theorem gathered_congr {c c' : ℕ × ℕ × ℕ × ℕ → R} (h : ∀ kh < jcp.kh, ∀ kw < jcp.kw, ∀ oh < jcp.oh, ∀ ow < jcp.ow,
    c (kh, kw, oh, ow) = c' (kh, kw, oh, ow)) (y x : ℕ) : gathered jcp c y x = gathered jcp c' y x := by
  apply Finset.sum_congr rfl
  rintro ⟨kh, kw, oh, ow⟩ ht
  simp only [taps, Finset.mem_product, Finset.mem_range] at ht
  rw [h kh ht.1 kw ht.2.1 oh ht.2.2.1 ow ht.2.2.2]

/-- All branches of `im2col` fill the columns of a tile with the padded image, and `col2im` and `col2im_s32`
are the adjoint of that, in whatever order the threads write. -/
theorem im2col_adjoint (hkd : 0 < jcp.kd) (how : 0 < jcp.ow) (hsp : ss + sb ≤ jcp.os) (hch : cs + cb ≤ jcp.ic)
    {nthr : ℕ} (hnthr : 0 < nthr) (im c : ℤ → R) :
    im2col jcp im ss sb cs cb nthr ∈ im2colBranches jcp im ss sb cs cb nthr ∧
      ∀ l ∈ im2colBranches jcp im ss sb cs cb nthr, ∀ l', l'.Perm l → ∀ col : ℤ → R,
        (∀ ic < cb, ∀ kh < jcp.kh, ∀ kw < jcp.kw, ∀ s < sb, applyWrites l' col (colIdx jcp sb ic kh kw s) =
          padded jcp im (cs + ic) (ihOf jcp ((ss + s) / jcp.ow : ℕ) kh) (iwOf jcp ((ss + s) % jcp.ow : ℕ) kw)) ∧
        (∀ o im', IsOrder (col2im jcp (embed jcp ss sb cs cb c) nthr) o →
          colSum jcp sb cb (fun a => applyWrites l' col a * c a) =
            imSum jcp fun ic y x => im (imIdx jcp ic y x) * execAll (o.map Prod.snd) im' (imIdx jcp ic y x)) ∧
        ∀ o im', IsOrder (col2imS32 jcp (embedNhwc jcp ss sb cs cb c) nthr) o →
          colSum jcp sb cb (fun a => applyWrites l' col a * c a) =
            imSum jcp fun ic y x => im (imIdx jcp ic y x) * execAll (o.map Prod.snd) im' (imIdxNhwc jcp ic y x) := by
  refine ⟨im2col_mem_branches im nthr, ?_⟩
  intro l hl l' hp col
  have hfill := (fillsTile_of_mem_branches how hnthr hl).perm hp
  refine ⟨?_, ?_, ?_⟩
  · intro ic hic kh hkh kw hkw s hs
    exact hfill.applyWrites hkd hic hkh hkw hs col
  · intro o im' ho
    apply colSum_eq_imSum hkd hsp hch hfill
    intro ic hic y hy x hx
    rw [execAll_col2im hnthr ho im' hic hy hx]
    apply gathered_congr
    intro kh hkh kw hkw oh hoh ow how'
    exact embed_eq c hkd hkh hkw hoh how'
  · intro o im' ho
    apply colSum_eq_imSum hkd hsp hch hfill
    intro ic hic y hy x hx
    rw [execAll_col2imS32 hnthr ho im' hic hy hx]
    apply gathered_congr
    intro kh hkh kw hkw oh _ ow _
    exact embedNhwc_eq c hic hkh hkw

/-- A tile of nine positions and one channel. -/
theorem im2col_adjoint_conv3x3 :
    im2col conv3x3 (fun a => a + 1) 3 9 1 1 4 ∈ im2colBranches conv3x3 (fun a : ℤ => a + 1) 3 9 1 1 4 ∧
      ∀ l ∈ im2colBranches conv3x3 (fun a : ℤ => a + 1) 3 9 1 1 4, ∀ l', l'.Perm l → ∀ col : ℤ → ℤ,
        (∀ ic < 1, ∀ kh < 3, ∀ kw < 3, ∀ s < 9, applyWrites l' col (colIdx conv3x3 9 ic kh kw s) =
          padded conv3x3 (fun a => a + 1) (1 + ic) (ihOf conv3x3 ((3 + s) / 5 : ℕ) kh)
            (iwOf conv3x3 ((3 + s) % 5 : ℕ) kw)) ∧
        (∀ o im', IsOrder (col2im conv3x3 (embed conv3x3 3 9 1 1 fun a => a * a) 4) o →
          colSum conv3x3 9 1 (fun a => applyWrites l' col a * (a * a)) =
            imSum conv3x3 fun ic y x => (imIdx conv3x3 ic y x + 1) * execAll (o.map Prod.snd) im' (imIdx conv3x3 ic y x)) ∧
        ∀ o im', IsOrder (col2imS32 conv3x3 (embedNhwc conv3x3 3 9 1 1 fun a => a * a) 4) o →
          colSum conv3x3 9 1 (fun a => applyWrites l' col a * (a * a)) =
            imSum conv3x3 fun ic y x =>
              (imIdx conv3x3 ic y x + 1) * execAll (o.map Prod.snd) im' (imIdxNhwc conv3x3 ic y x) :=
  im2col_adjoint (by decide) (by decide) (by decide) (by decide) (by decide) (fun a => a + 1) fun a => a * a

end Tile

end MklDnn.JitGemmConvolutionUtils
