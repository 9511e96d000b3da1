import MklDnn.Conv.Proofs.Col2imProofs
import MklDnn.Conv.Proofs.Im2col3dProofs

/-!
# Proofs: `col2im_3d`

`col2im_3d` adds to every element of the image what the columns of a plane of the output hold at the taps that fall
on it.
-/

open LoopNest Interleaving

namespace MklDnn.JitGemmConvolutionUtils

variable {R : Type*} {jcp : JitGemmConvConf}

/-! ## Offsets -/

/-- The offset in an image of several planes. -/
def imIdx3d (jcp : JitGemmConvConf) (ic id y x : ℕ) : ℕ := ((ic * jcp.id + id) * jcp.ih + y) * jcp.iw + x

/-- An element of the image. -/
structure IsPixel (jcp : JitGemmConvConf) (ic id y x : ℕ) : Prop where
  ic : ic < jcp.ic
  id : id < jcp.id
  y : y < jcp.ih
  x : x < jcp.iw

section Pixel

variable {ic id y x ic' id' y' x' : ℕ}

/-- Different elements have different offsets. -/
theorem imIdx3d_inj (hid : id < jcp.id) (hid' : id' < jcp.id) (hy : y < jcp.ih) (hy' : y' < jcp.ih) (hx : x < jcp.iw)
    (hx' : x' < jcp.iw) (h : imIdx3d jcp ic id y x = imIdx3d jcp ic' id' y' x') :
    ic = ic' ∧ id = id' ∧ y = y' ∧ x = x' := by
  unfold imIdx3d at h
  rw [Nat.add_comm, Nat.add_comm (_ * _) x'] at h
  obtain ⟨hx, h⟩ := add_mul_inj hx hx' h
  rw [Nat.add_comm, Nat.add_comm (_ * _) y'] at h
  obtain ⟨hy, h⟩ := add_mul_inj hy hy' h
  rw [Nat.add_comm, Nat.add_comm (_ * _) id'] at h
  obtain ⟨hid, hic⟩ := add_mul_inj hid hid' h
  exact ⟨hic, hid, hy, hx⟩

theorem IsPixel.imIdx3d_lt (h : IsPixel jcp ic id y x) :
    imIdx3d jcp ic id y x < jcp.ic * jcp.ih * jcp.iw * jcp.id := by
  have hplane : id + ic * jcp.id < jcp.ic * jcp.id := add_mul_lt h.id h.ic
  have hrow : y + (id + ic * jcp.id) * jcp.ih < jcp.ic * jcp.id * jcp.ih := add_mul_lt h.y hplane
  have hlt : x + (y + (id + ic * jcp.id) * jcp.ih) * jcp.iw < jcp.ic * jcp.id * jcp.ih * jcp.iw := add_mul_lt h.x hrow
  have hsize : jcp.ic * jcp.id * jcp.ih * jcp.iw = jcp.ic * jcp.ih * jcp.iw * jcp.id := by ring
  have hidx : imIdx3d jcp ic id y x = x + (y + (id + ic * jcp.id) * jcp.ih) * jcp.iw := by
    unfold imIdx3d
    ring
  rw [hidx, ← hsize]
  exact hlt

end Pixel

theorem colIdx3d_eq (jcp : JitGemmConvConf) (ic kd kh kw oh ow : ℕ) :
    ic * (jcp.ks * jcp.os) + kd * (jcp.kh * jcp.kw * jcp.os) + (((kh * jcp.kw + kw) * jcp.oh + oh) * jcp.ow + ow) =
      colIdx3d jcp ic kd kh kw oh ow := by
  unfold colIdx3d tapIdx JitGemmConvConf.os
  ring

/-! ## Additions -/

/-- The tap falls on an element of the image. -/
def Hits3d (jcp : JitGemmConvConf) (od oh ow kd kh kw id y x : ℕ) : Prop :=
  idOf jcp od kd = id ∧ ihOf jcp oh kh = y ∧ iwOf jcp ow kw = x

instance (od oh ow kd kh kw id y x : ℕ) : Decidable (Hits3d jcp od oh ow kd kh kw id y x) :=
  inferInstanceAs (Decidable (_ ∧ _))

/-- The additions of `col2im_3d` for one channel. -/
theorem mem_col2im3dAdds {col : ℤ → R} {od ic : ℕ} {w : ℤ × R} :
    w ∈ col2im3dAdds jcp col od ic ↔ ∃ kd < jcp.kd, ∃ oh < jcp.oh, ∃ kh < jcp.kh, ∃ ow < jcp.ow, ∃ kw < jcp.kw,
      ∃ id < jcp.id, ∃ y < jcp.ih, ∃ x < jcp.iw, Hits3d jcp od oh ow kd kh kw id y x ∧
        w = ((imIdx3d jcp ic id y x : ℤ), col (colIdx3d jcp ic kd kh kw oh ow)) := by
  have hidx : ∀ id y x : ℕ, (ic : ℤ) * (jcp.ih * jcp.iw * jcp.id) + id * jcp.ih * jcp.iw + (y * jcp.iw + x) =
      (imIdx3d jcp ic id y x : ℤ) := by
    intro id y x
    unfold imIdx3d
    push_cast
    ring
  unfold col2im3dAdds
  simp only [List.mem_flatMap, List.mem_range, colIdx3d_eq]
  constructor
  · rintro ⟨kd, hkd, hw⟩
    split_ifs at hw with hid
    · cases hw
    · obtain ⟨oh, hoh, hw⟩ := List.mem_flatMap.mp hw
      obtain ⟨kh, hkh, hw⟩ := List.mem_flatMap.mp hw
      rw [List.mem_range] at hoh hkh
      split_ifs at hw with hih
      · cases hw
      · obtain ⟨ow, how, hw⟩ := List.mem_flatMap.mp hw
        obtain ⟨kw, hkw, hw⟩ := List.mem_flatMap.mp hw
        rw [List.mem_range] at how hkw
        split_ifs at hw with hiw
        · cases hw
        · rw [not_or, not_lt, not_le] at hid hih hiw
          obtain ⟨id, hidEq⟩ := Int.eq_ofNat_of_zero_le hid.1
          obtain ⟨y, hy⟩ := Int.eq_ofNat_of_zero_le hih.1
          obtain ⟨x, hx⟩ := Int.eq_ofNat_of_zero_le hiw.1
          rw [hidEq, hy, hx] at hw
          refine ⟨kd, hkd, oh, hoh, kh, hkh, ow, how, kw, hkw, id, by omega, y, by omega, x, by omega,
            ⟨hidEq, hy, hx⟩, ?_⟩
          rw [List.mem_singleton.mp hw, hidx]
  · rintro ⟨kd, hkd, oh, hoh, kh, hkh, ow, how, kw, hkw, id, hid, y, hy, x, hx, ⟨hidEq, hyEq, hxEq⟩, rfl⟩
    have hidEq : (od : ℤ) * jcp.strideD - jcp.fPad + kd * jcp.dd = id := hidEq
    have hyEq : (oh : ℤ) * jcp.strideH - jcp.tPad + kh * jcp.dh = y := hyEq
    have hxEq : (ow : ℤ) * jcp.strideW - jcp.lPad + kw * jcp.dw = x := hxEq
    refine ⟨kd, hkd, ?_⟩
    rw [hidEq, if_neg (by omega)]
    refine List.mem_flatMap.mpr ⟨oh, List.mem_range.mpr hoh, List.mem_flatMap.mpr ⟨kh, List.mem_range.mpr hkh, ?_⟩⟩
    rw [hyEq, if_neg (by omega)]
    refine List.mem_flatMap.mpr ⟨ow, List.mem_range.mpr how, List.mem_flatMap.mpr ⟨kw, List.mem_range.mpr hkw, ?_⟩⟩
    rw [hxEq, if_neg (by omega), List.mem_singleton, hidx]

/-- What `col2im_3d` adds to an element of the image. -/
theorem sum_col2im3dAdds [AddCommMonoid R] {col : ℤ → R} {od ic' ic id y x : ℕ} (hid : id < jcp.id) (hy : y < jcp.ih)
    (hx : x < jcp.iw) :
    ((col2im3dAdds jcp col od ic').map fun w => if w.1 = (imIdx3d jcp ic id y x : ℤ) then w.2 else 0).sum =
      if ic' = ic then
        ∑ kd ∈ Finset.range jcp.kd, ∑ oh ∈ Finset.range jcp.oh, ∑ kh ∈ Finset.range jcp.kh,
          ∑ ow ∈ Finset.range jcp.ow, ∑ kw ∈ Finset.range jcp.kw,
            if Hits3d jcp od oh ow kd kh kw id y x then col (colIdx3d jcp ic kd kh kw oh ow) else 0
      else 0 := by
  -- an addition goes to the element that its tap falls on
  have hidx : ∀ {id' ih iw : ℤ}, 0 ≤ id' ∧ id' < jcp.id → 0 ≤ ih ∧ ih < jcp.ih → 0 ≤ iw ∧ iw < jcp.iw →
      ((ic' : ℤ) * (jcp.ih * jcp.iw * jcp.id) + id' * jcp.ih * jcp.iw + (ih * jcp.iw + iw) = imIdx3d jcp ic id y x ↔
        ic' = ic ∧ id' = id ∧ ih = y ∧ iw = x) := by
    intro id' ih iw hid' hih hiw
    lift id' to ℕ using hid'.1
    lift ih to ℕ using hih.1
    lift iw to ℕ using hiw.1
    have hnat : (ic' : ℤ) * (jcp.ih * jcp.iw * jcp.id) + id' * jcp.ih * jcp.iw + (ih * jcp.iw + iw) =
        (imIdx3d jcp ic' id' ih iw : ℤ) := by
      unfold imIdx3d
      push_cast
      ring
    rw [hnat]
    constructor
    · intro h
      obtain ⟨rfl, rfl, rfl, rfl⟩ := imIdx3d_inj (by omega) hid (by omega) hy (by omega) hx (Int.ofNat.inj h)
      exact ⟨rfl, rfl, rfl, rfl⟩
    · rintro ⟨rfl, hid', hih', hiw'⟩
      rw [Int.ofNat.inj hid', Int.ofNat.inj hih', Int.ofNat.inj hiw']
  have hsum : ((col2im3dAdds jcp col od ic').map fun w =>
      if w.1 = (imIdx3d jcp ic id y x : ℤ) then w.2 else 0).sum =
        ∑ kd ∈ Finset.range jcp.kd, ∑ oh ∈ Finset.range jcp.oh, ∑ kh ∈ Finset.range jcp.kh,
          ∑ ow ∈ Finset.range jcp.ow, ∑ kw ∈ Finset.range jcp.kw,
            if ic' = ic ∧ Hits3d jcp od oh ow kd kh kw id y x then col (colIdx3d jcp ic' kd kh kw oh ow) else 0 := by
    simp only [col2im3dAdds, sum_map_flatMap]
    apply Finset.sum_congr rfl
    intro kd _
    have hidOf : (od : ℤ) * jcp.strideD - jcp.fPad + kd * jcp.dd = idOf jcp od kd := rfl
    rw [hidOf]
    split_ifs with hplane
    · symm
      rw [List.map_nil, List.sum_nil]
      refine Finset.sum_eq_zero fun oh _ => Finset.sum_eq_zero fun kh _ => Finset.sum_eq_zero fun ow _ =>
        Finset.sum_eq_zero fun kw _ => if_neg ?_
      rintro ⟨-, hhit, -⟩
      omega
    · rw [sum_map_flatMap]
      apply Finset.sum_congr rfl
      intro oh _
      rw [sum_map_flatMap]
      apply Finset.sum_congr rfl
      intro kh _
      have hih : (oh : ℤ) * jcp.strideH - jcp.tPad + kh * jcp.dh = ihOf jcp oh kh := rfl
      rw [hih]
      split_ifs with hrow
      · symm
        rw [List.map_nil, List.sum_nil]
        refine Finset.sum_eq_zero fun ow _ => Finset.sum_eq_zero fun kw _ => if_neg ?_
        rintro ⟨-, -, hhit, -⟩
        omega
      · rw [sum_map_flatMap]
        apply Finset.sum_congr rfl
        intro ow _
        rw [sum_map_flatMap]
        apply Finset.sum_congr rfl
        intro kw _
        have hiw : (ow : ℤ) * jcp.strideW - jcp.lPad + kw * jcp.dw = iwOf jcp ow kw := rfl
        rw [hiw]
        split_ifs with hcol hhit hhit
        · obtain ⟨-, -, -, hhit⟩ := hhit
          omega
        · rfl
        · rw [List.map_singleton, List.sum_singleton, colIdx3d_eq, if_pos]
          exact (hidx (by omega) (by omega) (by omega)).mpr hhit
        · rw [List.map_singleton, List.sum_singleton, if_neg]
          exact fun h => hhit ((hidx (by omega) (by omega) (by omega)).mp h)
  rw [hsum]
  split_ifs with hic
  · subst hic
    simp only [true_and]
  · refine Finset.sum_eq_zero fun kd _ => Finset.sum_eq_zero fun oh _ => Finset.sum_eq_zero fun kh _ =>
      Finset.sum_eq_zero fun ow _ => Finset.sum_eq_zero fun kw _ => if_neg fun h => hic h.1

end MklDnn.JitGemmConvolutionUtils
