import MklDnn.Conv.Proofs.Im2colProofs

/-!
# Proofs: `im2col_3d`

`im2col_3d` writes the columns under the rows and the columns of the image only. If the others hold zero, then the
columns are those of the padded image.
-/

open LoopNest

namespace MklDnn.JitGemmConvolutionUtils

variable {R : Type*} [Zero R] {jcp : JitGemmConvConf} {im : ℤ → R} {od : ℕ}

/-- An element of the planes of one channel, or zero in the padding in front and behind. -/
def planePadded (jcp : JitGemmConvConf) (im : ℤ → R) (ic : ℕ) (id ih iw : ℤ) : R :=
  if 0 ≤ id ∧ id < jcp.id then im (ic * (jcp.ih * jcp.iw * jcp.id : ℕ) + id * jcp.ih * jcp.iw + (ih * jcp.iw + iw))
  else 0

/-- An element of the image of one channel, or zero in the padding. -/
def volumePadded (jcp : JitGemmConvConf) (im : ℤ → R) (od ic kd kh kw oh ow : ℕ) : R :=
  if InPlane jcp oh ow kh kw then planePadded jcp im ic (idOf jcp od kd) (ihOf jcp oh kh) (iwOf jcp ow kw) else 0

/-- The number of a tap of the kernel. -/
def tapIdx (jcp : JitGemmConvConf) (kd kh kw : ℕ) : ℕ := kd * (jcp.kh * jcp.kw) + (kh * jcp.kw + kw)

/-- The offset in the columns of a plane of the output. -/
def colIdx3d (jcp : JitGemmConvConf) (ic kd kh kw oh ow : ℕ) : ℕ :=
  (ic * jcp.ks + tapIdx jcp kd kh kw) * jcp.os + (oh * jcp.ow + ow)

/-- A place in the columns. -/
structure IsCol (jcp : JitGemmConvConf) (ic kd kh kw oh ow : ℕ) : Prop where
  ic : ic < jcp.ic
  kd : kd < jcp.kd
  kh : kh < jcp.kh
  kw : kw < jcp.kw
  oh : oh < jcp.oh
  ow : ow < jcp.ow

section Place

variable {ic kd kh kw oh ow : ℕ} (h : IsCol jcp ic kd kh kw oh ow)

include h

theorem IsCol.plane_lt : kh * jcp.kw + kw < jcp.kh * jcp.kw := by
  rw [Nat.add_comm]
  exact add_mul_lt h.kw h.kh

theorem IsCol.tap_lt : tapIdx jcp kd kh kw < jcp.ks := by
  have hlt : kh * jcp.kw + kw + kd * (jcp.kh * jcp.kw) < jcp.kd * (jcp.kh * jcp.kw) := add_mul_lt h.plane_lt h.kd
  unfold tapIdx JitGemmConvConf.ks
  rw [Nat.add_comm, Nat.mul_comm _ jcp.kd]
  exact hlt

theorem IsCol.pixel_lt : oh * jcp.ow + ow < jcp.os := by
  rw [Nat.add_comm]
  exact add_mul_lt h.ow h.oh

theorem IsCol.row_lt : ic * jcp.ks + tapIdx jcp kd kh kw < jcp.ic * jcp.ks := by
  rw [Nat.add_comm]
  exact add_mul_lt h.tap_lt h.ic

/-- The columns of a plane. -/
theorem IsCol.lt : colIdx3d jcp ic kd kh kw oh ow < jcp.ic * jcp.ks * jcp.os := by
  unfold colIdx3d
  rw [Nat.add_comm]
  exact add_mul_lt h.pixel_lt h.row_lt

theorem IsCol.div_os : colIdx3d jcp ic kd kh kw oh ow / jcp.os = ic * jcp.ks + tapIdx jcp kd kh kw := by
  have hpixel := h.pixel_lt
  unfold colIdx3d
  rw [Nat.mul_comm, Nat.mul_add_div (by omega), Nat.div_eq_of_lt hpixel, Nat.add_zero]

theorem IsCol.mod_os : colIdx3d jcp ic kd kh kw oh ow % jcp.os = oh * jcp.ow + ow := by
  unfold colIdx3d
  rw [Nat.mul_comm, Nat.mul_add_mod, Nat.mod_eq_of_lt h.pixel_lt]

/-- Different places have different offsets. -/
theorem IsCol.inj {ic' kd' kh' kw' oh' ow' : ℕ} (h' : IsCol jcp ic' kd' kh' kw' oh' ow')
    (he : colIdx3d jcp ic kd kh kw oh ow = colIdx3d jcp ic' kd' kh' kw' oh' ow') :
    ic = ic' ∧ kd = kd' ∧ kh = kh' ∧ kw = kw' ∧ oh = oh' ∧ ow = ow' := by
  unfold colIdx3d at he
  rw [Nat.add_comm, Nat.add_comm (_ * _) (oh' * _ + _)] at he
  obtain ⟨hpixel, hrow⟩ := add_mul_inj h.pixel_lt h'.pixel_lt he
  rw [Nat.add_comm, Nat.add_comm (oh' * _)] at hpixel
  obtain ⟨how, hoh⟩ := add_mul_inj h.ow h'.ow hpixel
  rw [Nat.add_comm, Nat.add_comm (ic' * _)] at hrow
  obtain ⟨htap, hic⟩ := add_mul_inj h.tap_lt h'.tap_lt hrow
  unfold tapIdx at htap
  rw [Nat.add_comm, Nat.add_comm (kd' * _)] at htap
  obtain ⟨hplane, hkd⟩ := add_mul_inj h.plane_lt h'.plane_lt htap
  rw [Nat.add_comm, Nat.add_comm (kh' * _)] at hplane
  obtain ⟨hkw, hkh⟩ := add_mul_inj h.kw h'.kw hplane
  exact ⟨hic, hkd, hkh, hkw, hoh, how⟩

end Place

omit [Zero R] in
/-- The writes under the rows and the columns of the image. -/
theorem mem_im2col3dPlane {elem : ℤ → ℤ → R} {col : ℕ} {w : ℤ × R} :
    w ∈ im2col3dPlane jcp elem col ↔ ∃ kh < jcp.kh, ∃ oh < jcp.oh, ∃ kw < jcp.kw, ∃ ow < jcp.ow,
      InPlane jcp oh ow kh kw ∧
        w = (((col + (kh * jcp.kw + kw) * jcp.os + (oh * jcp.ow + ow) : ℕ) : ℤ), elem (ihOf jcp oh kh) (iwOf jcp ow kw)) := by
  have hih : ∀ oh kh : ℕ, -jcp.tPad + kh * jcp.dh + oh * jcp.strideH = ihOf jcp oh kh := by
    intro oh kh
    unfold ihOf
    ring
  have hiw : ∀ ow kw : ℕ, -jcp.lPad + kw * jcp.dw + ow * jcp.strideW = iwOf jcp ow kw := by
    intro ow kw
    unfold iwOf
    ring
  unfold im2col3dPlane
  simp only [List.mem_flatMap, List.mem_range, hih, hiw]
  constructor
  · rintro ⟨kh, hkh, oh, hoh, hw⟩
    split_ifs at hw with hrow
    · cases hw
    · obtain ⟨kw, hkw, hw⟩ := List.mem_flatMap.mp hw
      obtain ⟨ow, how, hw⟩ := List.mem_flatMap.mp hw
      rw [List.mem_range] at hkw how
      split_ifs at hw with hcol
      · cases hw
      · refine ⟨kh, hkh, oh, hoh, kw, hkw, ow, how, ⟨by omega, by omega⟩, ?_⟩
        rw [List.mem_singleton.mp hw]
        congr 2
        unfold JitGemmConvConf.os
        ring
  · rintro ⟨kh, hkh, oh, hoh, kw, hkw, ow, how, hin, rfl⟩
    refine ⟨kh, hkh, oh, hoh, ?_⟩
    obtain ⟨hrow, hcol⟩ := hin
    rw [if_neg (by omega)]
    refine List.mem_flatMap.mpr ⟨kw, List.mem_range.mpr hkw, List.mem_flatMap.mpr ⟨ow, List.mem_range.mpr how, ?_⟩⟩
    rw [if_neg (by omega), List.mem_singleton]
    congr 2
    unfold JitGemmConvConf.os
    ring

/-- The writes of `im2col_3d`. -/
theorem mem_im2col3d {nthr : ℕ} (hnthr : 0 < nthr) {w : ℤ × R} :
    w ∈ im2col3d jcp im od nthr ↔ ∃ ic kd kh kw oh ow, IsCol jcp ic kd kh kw oh ow ∧ InPlane jcp oh ow kh kw ∧
      w = ((colIdx3d jcp ic kd kh kw oh ow : ℤ),
        planePadded jcp im ic (idOf jcp od kd) (ihOf jcp oh kh) (iwOf jcp ow kw)) := by
  have hidx : ∀ ic kd kh kw oh ow : ℕ, ic * (jcp.ks * (jcp.oh * jcp.ow)) + kd * jcp.kh * jcp.kw * (jcp.oh * jcp.ow) +
      (kh * jcp.kw + kw) * jcp.os + (oh * jcp.ow + ow) = colIdx3d jcp ic kd kh kw oh ow := by
    intro ic kd kh kw oh ow
    unfold colIdx3d tapIdx JitGemmConvConf.os
    ring
  unfold im2col3d
  simp only [List.mem_flatMap]
  constructor
  · rintro ⟨l, hl, hw⟩
    rw [mem_parallelNd hnthr] at hl
    cases hl with
    | cons hic hl => cases hl with
      | nil =>
        obtain ⟨kd, hkd, hw⟩ := List.mem_flatMap.mp hw
        rw [List.mem_range] at hkd
        split_ifs at hw with hid
        all_goals
          obtain ⟨kh, hkh, oh, hoh, kw, hkw, ow, how, hin, rfl⟩ := mem_im2col3dPlane.mp hw
          refine ⟨_, kd, kh, kw, oh, ow, ⟨hic, hkd, hkh, hkw, hoh, how⟩, hin, ?_⟩
          rw [hidx]
          unfold planePadded idOf
        · rw [if_neg (by omega)]
        · rw [if_pos (by omega)]
  · rintro ⟨ic, kd, kh, kw, oh, ow, h, hin, rfl⟩
    refine ⟨[ic], (mem_parallelNd hnthr).mpr (.cons h.ic .nil), ?_⟩
    refine List.mem_flatMap.mpr ⟨kd, List.mem_range.mpr h.kd, ?_⟩
    unfold planePadded
    split_ifs with hid hid' hid'
    all_goals
      unfold idOf at hid'
    · omega
    · refine mem_im2col3dPlane.mpr ⟨kh, h.kh, oh, h.oh, kw, h.kw, ow, h.ow, hin, ?_⟩
      rw [hidx]
    · refine mem_im2col3dPlane.mpr ⟨kh, h.kh, oh, h.oh, kw, h.kw, ow, h.ow, hin, ?_⟩
      rw [hidx]
      unfold idOf
      push_cast
      rfl
    · omega

/-- The columns outside the rows and the columns of the image hold zero. -/
def ZeroOutside (jcp : JitGemmConvConf) (col : ℤ → R) : Prop :=
  ∀ ic kd kh kw oh ow, IsCol jcp ic kd kh kw oh ow → ¬ InPlane jcp oh ow kh kw → col (colIdx3d jcp ic kd kh kw oh ow) = 0

/-- After `im2col_3d`, the columns are those of the padded image. -/
theorem applyWrites_im2col3d {nthr : ℕ} (hnthr : 0 < nthr) {col : ℤ → R} (hcol : ZeroOutside jcp col)
    {ic kd kh kw oh ow : ℕ} (h : IsCol jcp ic kd kh kw oh ow) :
    applyWrites (im2col3d jcp im od nthr) col (colIdx3d jcp ic kd kh kw oh ow) =
      volumePadded jcp im od ic kd kh kw oh ow := by
  unfold volumePadded
  split_ifs with hin
  · apply applyWrites_of_mem
    · intro w hw w' hw' he
      obtain ⟨ic, kd, kh, kw, oh, ow, h, -, rfl⟩ := (mem_im2col3d hnthr).mp hw
      obtain ⟨ic', kd', kh', kw', oh', ow', h', -, rfl⟩ := (mem_im2col3d hnthr).mp hw'
      obtain ⟨rfl, rfl, rfl, rfl, rfl, rfl⟩ := h.inj h' (Int.ofNat.inj he)
      rfl
    · exact (mem_im2col3d hnthr).mpr ⟨ic, kd, kh, kw, oh, ow, h, hin, rfl⟩
  · rw [applyWrites_of_notMem, hcol ic kd kh kw oh ow h hin]
    intro w hw he
    obtain ⟨ic', kd', kh', kw', oh', ow', h', hin', rfl⟩ := (mem_im2col3d hnthr).mp hw
    obtain ⟨rfl, rfl, rfl, rfl, rfl, rfl⟩ := h.inj h' (Int.ofNat.inj he).symm
    exact hin hin'

/-- The columns keep zero outside. -/
theorem ZeroOutside.im2col3d {nthr : ℕ} (hnthr : 0 < nthr) {col : ℤ → R} (hcol : ZeroOutside jcp col) (im : ℤ → R)
    (od : ℕ) : ZeroOutside jcp (applyWrites (im2col3d jcp im od nthr) col) := by
  intro ic kd kh kw oh ow h hout
  rw [applyWrites_im2col3d hnthr hcol h, volumePadded, if_neg hout]

/-! ## Successive slices -/

/-- Every offset in the columns is a place. -/
theorem exists_isCol {p : ℕ} (hp : p < jcp.ic * jcp.ks * jcp.os) :
    ∃ ic kd kh kw oh ow, IsCol jcp ic kd kh kw oh ow ∧ colIdx3d jcp ic kd kh kw oh ow = p := by
  have hos : 0 < jcp.os := Nat.pos_of_ne_zero fun h => by simp [h] at hp
  have hks : 0 < jcp.ks := Nat.pos_of_ne_zero fun h => by simp [h] at hp
  have hrow : p / jcp.os < jcp.ic * jcp.ks := Nat.div_lt_of_lt_mul (Nat.mul_comm _ jcp.os ▸ hp)
  have htap : p / jcp.os % jcp.ks < jcp.kd * (jcp.kh * jcp.kw) := by
    rw [Nat.mul_comm]
    exact Nat.mod_lt _ hks
  have hpixel : p % jcp.os < jcp.oh * jcp.ow := Nat.mod_lt _ hos
  have how : 0 < jcp.ow := Nat.pos_of_ne_zero fun h => by simp [h] at hpixel
  have hplane : 0 < jcp.kh * jcp.kw := Nat.pos_of_ne_zero fun h => by simp [h] at htap
  have hkw : 0 < jcp.kw := Nat.pos_of_ne_zero fun h => by simp [h] at hplane
  refine ⟨p / jcp.os / jcp.ks, p / jcp.os % jcp.ks / (jcp.kh * jcp.kw), p / jcp.os % jcp.ks % (jcp.kh * jcp.kw) / jcp.kw,
    p / jcp.os % jcp.ks % (jcp.kh * jcp.kw) % jcp.kw, p % jcp.os / jcp.ow, p % jcp.os % jcp.ow, ?_, ?_⟩
  · exact {
      ic := Nat.div_lt_of_lt_mul (Nat.mul_comm _ jcp.ks ▸ hrow)
      kd := Nat.div_lt_of_lt_mul (Nat.mul_comm _ (jcp.kh * jcp.kw) ▸ htap)
      kh := Nat.div_lt_of_lt_mul (Nat.mul_comm _ jcp.kw ▸ Nat.mod_lt _ hplane)
      kw := Nat.mod_lt _ hkw
      oh := Nat.div_lt_of_lt_mul (Nat.mul_comm _ jcp.ow ▸ hpixel)
      ow := Nat.mod_lt _ how }
  · unfold colIdx3d tapIdx
    rw [Nat.div_add_mod', Nat.div_add_mod', Nat.div_add_mod', Nat.div_add_mod', Nat.div_add_mod']

/-- A call of `im2col_3d`: the image, the slice of the output, and the threads. -/
structure Slice (R : Type*) where
  im : ℤ → R
  od : ℕ
  nthr : ℕ
  nthr_pos : 0 < nthr

/-- The columns after calls one after the other. -/
def columnsOf (jcp : JitGemmConvConf) (slices : List (Slice R)) (col : ℤ → R) : ℤ → R :=
  slices.foldl (fun col s => applyWrites (im2col3d jcp s.im s.od s.nthr) col) col

/-- All the calls keep zero outside. -/
theorem ZeroOutside.columnsOf {col : ℤ → R} (hcol : ZeroOutside jcp col) (slices : List (Slice R)) :
    ZeroOutside jcp (columnsOf jcp slices col) := by
  induction slices generalizing col with
  | nil => exact hcol
  | cons s slices ih => exact ih (hcol.im2col3d s.nthr_pos s.im s.od)

/-- After any calls, `im2col_3d` leaves the columns of its slice of the padded image, at every offset. -/
theorem columnsOf_append {col : ℤ → R} (hcol : ZeroOutside jcp col) (earlier : List (Slice R)) (s : Slice R) :
    (∀ {ic kd kh kw oh ow : ℕ}, IsCol jcp ic kd kh kw oh ow →
      columnsOf jcp (earlier ++ [s]) col (colIdx3d jcp ic kd kh kw oh ow) =
        volumePadded jcp s.im s.od ic kd kh kw oh ow) ∧
    ∀ p < jcp.ic * jcp.ks * jcp.os, ∃ ic kd kh kw oh ow, IsCol jcp ic kd kh kw oh ow ∧
      colIdx3d jcp ic kd kh kw oh ow = p := by
  refine ⟨fun {ic kd kh kw oh ow} h => ?_, fun p hp => exists_isCol hp⟩
  rw [columnsOf, List.foldl_append]
  exact applyWrites_im2col3d s.nthr_pos (hcol.columnsOf earlier) h

/-- The columns of a slice that were written over those of another one. -/
theorem columnsOf_append_conv3x3 :
    columnsOf conv3x3 ([⟨fun off => off + 1, 1, 4, by decide⟩] ++ [⟨fun off => off + 1, 0, 4, by decide⟩]) (fun _ => 0)
      (colIdx3d conv3x3 1 0 1 1 2 3) = 34 :=
  (columnsOf_append (fun _ _ _ _ _ _ _ _ => rfl) _ _).1 ⟨by decide, by decide, by decide, by decide, by decide, by decide⟩

end MklDnn.JitGemmConvolutionUtils
