import Mathlib.Algebra.BigOperators.Ring.Finset
import Mathlib.Tactic.Linarith
import Mathlib.Tactic.Ring
import MklDnn.Common.Proofs.UtilsProofs
import MklDnn.Conv.ConvolutionPd
import MklDnn.Lib.Sums
import MklDnn.Lib.Writes

/-!
# Proofs: the passes of the reference convolution are adjoint

Every pass finds the same pairs of an element of the image and an element of the output, from its own side.
-/

open LoopNest

namespace MklDnn.ConvolutionPd

variable {pd : ConvolutionPd}

/-! ## Accepted descriptors -/

/-- The extents of `src`. -/
def srcShape (pd : ConvolutionPd) : List ℕ := (List.range pd.ndims).map pd.srcDims

def dstShape (pd : ConvolutionPd) : List ℕ := (List.range pd.ndims).map pd.dstDims

def weiShape (pd : ConvolutionPd) : List ℕ := (List.range (pd.ndims + pd.groupDims)).map pd.weiDims

section Accepted

variable (h : pd.Accepted)

include h

theorem Accepted.G_pos : 0 < pd.G := by
  unfold G
  split_ifs with hg
  · apply h.weights
    unfold groupDims
    rw [if_pos hg]
    omega
  · exact Nat.one_pos

theorem Accepted.IC_eq : pd.IC = pd.weiDims (pd.groupDims + 1) := by
  unfold IC
  rw [h.src]
  exact Nat.mul_div_cancel_left _ h.G_pos

theorem Accepted.OC_eq : pd.OC = pd.weiDims (pd.groupDims + 0) := by
  unfold OC
  rw [h.dst]
  exact Nat.mul_div_cancel_left _ h.G_pos

theorem Accepted.srcDims_one : pd.srcDims 1 = pd.G * pd.IC := by
  rw [h.IC_eq]
  exact h.src

theorem Accepted.dstDims_one : pd.dstDims 1 = pd.G * pd.OC := by
  rw [h.OC_eq]
  exact h.dst

theorem Accepted.stride_pos {i : ℕ} (hi : i + 2 < pd.ndims) : 0 < pd.strides i := by
  have hstride := (h.spatial (i + 2) (by omega) hi).1
  rw [Nat.add_sub_cancel] at hstride
  exact hstride

theorem Accepted.KSD_pos : 0 < pd.KSD := by
  unfold KSD
  split_ifs
  · exact h.stride_pos (by omega)
  · exact Nat.one_pos

theorem Accepted.KSH_pos : 0 < pd.KSH := by
  unfold KSH
  split_ifs
  · exact h.stride_pos (by omega)
  · exact Nat.one_pos

theorem Accepted.KSW_pos : 0 < pd.KSW := by
  have hndims := h.ndims
  exact h.stride_pos (by omega)

/-! ## Sums over tensors -/

variable {M : Type*} [AddCommMonoid M]

theorem Accepted.sum_srcShape (f : List ℕ → M) : sumPositions pd.srcShape f =
    ∑ g ∈ Finset.range pd.G, ∑ mb ∈ Finset.range pd.MB, ∑ ic ∈ Finset.range pd.IC, ∑ i ∈ box3 pd.ID pd.IH pd.IW,
      f (pd.dataPos mb (g * pd.IC + ic) i.1 i.2.1 i.2.2) := by
  have hshape : sumPositions pd.srcShape f = ∑ mb ∈ Finset.range pd.MB, ∑ c ∈ Finset.range (pd.srcDims 1),
      ∑ id ∈ Finset.range pd.ID, ∑ ih ∈ Finset.range pd.IH, ∑ iw ∈ Finset.range pd.IW, f (pd.dataPos mb c id ih iw) := by
    unfold srcShape MB ID IH IW dataPos
    rcases h.ndims with hn | hn | hn <;> simp [hn, List.range_succ]
  rw [hshape, h.srcDims_one, Finset.sum_comm, sum_range_blocks]
  apply Finset.sum_congr rfl
  intro g _
  rw [Finset.sum_comm]
  simp only [sum_box3]

theorem Accepted.sum_dstShape (f : List ℕ → M) : sumPositions pd.dstShape f =
    ∑ g ∈ Finset.range pd.G, ∑ mb ∈ Finset.range pd.MB, ∑ oc ∈ Finset.range pd.OC, ∑ o ∈ box3 pd.OD pd.OH pd.OW,
      f (pd.dataPos mb (g * pd.OC + oc) o.1 o.2.1 o.2.2) := by
  have hshape : sumPositions pd.dstShape f = ∑ mb ∈ Finset.range pd.MB, ∑ c ∈ Finset.range (pd.dstDims 1),
      ∑ od ∈ Finset.range pd.OD, ∑ oh ∈ Finset.range pd.OH, ∑ ow ∈ Finset.range pd.OW, f (pd.dataPos mb c od oh ow) := by
    unfold dstShape MB OD OH OW dataPos
    rw [h.mb]
    rcases h.ndims with hn | hn | hn <;> simp [hn, List.range_succ]
  rw [hshape, h.dstDims_one, Finset.sum_comm, sum_range_blocks]
  apply Finset.sum_congr rfl
  intro g _
  rw [Finset.sum_comm]
  simp only [sum_box3]

theorem Accepted.sum_weiShape (f : List ℕ → M) : sumPositions pd.weiShape f =
    ∑ g ∈ Finset.range pd.G, ∑ oc ∈ Finset.range pd.OC, ∑ ic ∈ Finset.range pd.IC, ∑ k ∈ box3 pd.KD pd.KH pd.KW,
      f (pd.weiPos g oc ic k.1 k.2.1 k.2.2) := by
  have hkernel : ∀ g oc ic, ∑ k ∈ box3 pd.KD pd.KH pd.KW, f (pd.weiPos g oc ic k.1 k.2.1 k.2.2) =
      ∑ kd ∈ Finset.range pd.KD, ∑ kh ∈ Finset.range pd.KH, ∑ kw ∈ Finset.range pd.KW, f (pd.weiPos g oc ic kd kh kw) :=
    fun g oc ic => (sum_box3 _ _ _ fun kd kh kw => f (pd.weiPos g oc ic kd kh kw)).symm
  simp only [hkernel]
  rw [h.OC_eq, h.IC_eq]
  unfold weiShape G KD KH KW weiPos groupDims
  rcases h.ndims with hn | hn | hn <;> cases pd.withGroups <;> simp [hn, List.range_succ]

end Accepted

/-! ## What the passes leave -/

/-- Different elements have different positions. -/
theorem Accepted.dataPos_inj (h : pd.Accepted) {C D H W D' H' W' : ℕ} (hD : pd.ndims ≠ 5 → D = 0 ∧ D' = 0)
    (hH : pd.ndims = 3 → H = 0 ∧ H' = 0) {mb mb' c : ℕ} (heq : pd.dataPos mb C D H W = pd.dataPos mb' c D' H' W') :
    mb = mb' ∧ C = c ∧ D = D' ∧ H = H' ∧ W = W' := by
  unfold dataPos at heq
  rcases h.ndims with hn | hn | hn
  · have hd := hD (by omega)
    have hh := hH hn
    simp [hn] at heq
    omega
  · have hd := hD (by omega)
    simp [hn] at heq
    omega
  · simp [hn] at heq
    omega

theorem Accepted.weiPos_inj (h : pd.Accepted) {g oc ic kd kh kw g' oc' ic' kd' kh' kw' : ℕ}
    (hG : pd.withGroups = false → g = 0 ∧ g' = 0) (hD : pd.ndims ≠ 5 → kd = 0 ∧ kd' = 0)
    (hH : pd.ndims = 3 → kh = 0 ∧ kh' = 0)
    (heq : pd.weiPos g oc ic kd kh kw = pd.weiPos g' oc' ic' kd' kh' kw') :
    g = g' ∧ oc = oc' ∧ ic = ic' ∧ kd = kd' ∧ kh = kh' ∧ kw = kw' := by
  have hg : g = g' ∧ (if pd.ndims = 5 then [oc, ic, kd, kh, kw] else if pd.ndims = 4 then [oc, ic, kh, kw]
      else [oc, ic, kw]) = (if pd.ndims = 5 then [oc', ic', kd', kh', kw'] else if pd.ndims = 4 then [oc', ic', kh', kw']
      else [oc', ic', kw']) := by
    unfold weiPos at heq
    cases hgroups : pd.withGroups
    · have hzero := hG hgroups
      rw [hgroups] at heq
      exact ⟨by omega, heq⟩
    · rw [hgroups] at heq
      injection heq
      exact ⟨by assumption, by assumption⟩
  obtain ⟨hg, heq⟩ := hg
  rcases h.ndims with hn | hn | hn
  · have hd := hD (by omega)
    have hh := hH hn
    simp [hn] at heq
    omega
  · have hd := hD (by omega)
    simp [hn] at heq
    omega
  · simp [hn] at heq
    omega

/-- The planes and the rows of a problem that does not have them. -/
theorem lower_rank (f : ℕ → ℕ) {a n : ℕ} {d : ℕ} (hd : d < if n ≤ pd.ndims then f a else 1) (hn : ¬ n ≤ pd.ndims) :
    d = 0 := by
  rw [if_neg hn] at hd
  omega

section Written

variable {R : Type*} [CommSemiring R] (h : pd.Accepted) (x w y : List ℕ → R)

include h

omit [CommSemiring R] in
/-- What a nest of loops over data writes, for every element. -/
theorem Accepted.applyWrites_data {C D H W : ℕ} (hD : pd.ndims ≠ 5 → ∀ d < D, d = 0) (hH : pd.ndims = 3 → ∀ i < H, i = 0)
    (value : ℕ → ℕ → ℕ → ℕ → ℕ → ℕ → R) (t : List ℕ → R) {g mb c d i j : ℕ} (hg : g < pd.G) (hmb : mb < pd.MB)
    (hc : c < C) (hd : d < D) (hi : i < H) (hj : j < W) :
    applyWrites ((List.range pd.G).flatMap fun g => (List.range pd.MB).flatMap fun mb => (List.range C).flatMap fun c =>
      (List.range D).flatMap fun d => (List.range H).flatMap fun i => (List.range W).map fun j =>
        (pd.dataPos mb (g * C + c) d i j, value g mb c d i j)) t (pd.dataPos mb (g * C + c) d i j) =
      value g mb c d i j := by
  apply applyWrites_of_mem
  · intro e he e' he' heq
    simp only [List.mem_flatMap, List.mem_map, List.mem_range] at he he'
    obtain ⟨g, -, mb, -, c, hc, d, hd, i, hi, j, -, rfl⟩ := he
    obtain ⟨g', -, mb', -, c', hc', d', hd', i', hi', j', -, rfl⟩ := he'
    obtain ⟨rfl, hchan, rfl, rfl, rfl⟩ := h.dataPos_inj (fun hn => ⟨hD hn d hd, hD hn d' hd'⟩)
      (fun hn => ⟨hH hn i hi, hH hn i' hi'⟩) heq
    rw [Nat.add_comm, Nat.add_comm (g' * C)] at hchan
    obtain ⟨rfl, rfl⟩ := add_mul_inj hc hc' hchan
    rfl
  · simp only [List.mem_flatMap, List.mem_map, List.mem_range]
    exact ⟨g, hg, mb, hmb, c, hc, d, hd, i, hi, j, hj, rfl⟩

theorem Accepted.applyWrites_executeForward (t : List ℕ → R) {g mb oc od oh ow : ℕ} (hg : g < pd.G) (hmb : mb < pd.MB)
    (hoc : oc < pd.OC) (hod : od < pd.OD) (hoh : oh < pd.OH) (how : ow < pd.OW) :
    applyWrites (pd.executeForward x w) t (pd.dataPos mb (g * pd.OC + oc) od oh ow) = pd.fwdKer x w g mb oc od oh ow := by
  apply h.applyWrites_data _ _ (pd.fwdKer x w) t hg hmb hoc hod hoh how
  · intro hn d hd
    have hndims := h.ndims
    exact lower_rank _ hd (by omega)
  · intro hn i hi
    exact lower_rank _ hi (by omega)

theorem Accepted.applyWrites_executeBackwardData (t : List ℕ → R) {g mb ic id ih iw : ℕ} (hg : g < pd.G) (hmb : mb < pd.MB)
    (hic : ic < pd.IC) (hid : id < pd.ID) (hih : ih < pd.IH) (hiw : iw < pd.IW) :
    applyWrites (pd.executeBackwardData y w) t (pd.dataPos mb (g * pd.IC + ic) id ih iw) =
      pd.bwdDataKer y w g mb ic id ih iw := by
  apply h.applyWrites_data _ _ (pd.bwdDataKer y w) t hg hmb hic hid hih hiw
  · intro hn d hd
    have hndims := h.ndims
    exact lower_rank _ hd (by omega)
  · intro hn i hi
    exact lower_rank _ hi (by omega)

theorem Accepted.applyWrites_executeBackwardWeights (t : List ℕ → R) {g oc ic kd kh kw : ℕ} (hg : g < pd.G)
    (hoc : oc < pd.OC) (hic : ic < pd.IC) (hkd : kd < pd.KD) (hkh : kh < pd.KH) (hkw : kw < pd.KW) :
    applyWrites (pd.executeBackwardWeights x y) t (pd.weiPos g oc ic kd kh kw) =
      pd.bwdWeightsKer x y g oc ic kd kh kw := by
  have hndims := h.ndims
  have hG : pd.withGroups = false → ∀ g < pd.G, g = 0 := by
    intro hgroups g hg
    unfold G at hg
    rw [hgroups] at hg
    exact Nat.lt_one_iff.mp hg
  have hD : pd.ndims ≠ 5 → ∀ d < pd.KD, d = 0 := fun hn d hd => lower_rank _ hd (by omega)
  have hH : pd.ndims = 3 → ∀ i < pd.KH, i = 0 := fun hn i hi => lower_rank _ hi (by omega)
  apply applyWrites_of_mem
  · intro e he e' he' heq
    simp only [executeBackwardWeights, List.mem_flatMap, List.mem_map, List.mem_range] at he he'
    obtain ⟨g, hg, oc, -, ic, -, kd, hkd, kh, hkh, kw, -, rfl⟩ := he
    obtain ⟨g', hg', oc', -, ic', -, kd', hkd', kh', hkh', kw', -, rfl⟩ := he'
    obtain ⟨rfl, rfl, rfl, rfl, rfl, rfl⟩ := h.weiPos_inj (fun hn => ⟨hG hn g hg, hG hn g' hg'⟩)
      (fun hn => ⟨hD hn kd hkd, hD hn kd' hkd'⟩) (fun hn => ⟨hH hn kh hkh, hH hn kh' hkh'⟩) heq
    rfl
  · simp only [executeBackwardWeights, List.mem_flatMap, List.mem_map, List.mem_range]
    exact ⟨g, hg, oc, hoc, ic, hic, kd, hkd, kh, hkh, kw, hkw, rfl⟩

end Written

/-! ## Taps -/

/-- The element of the image under tap `k` of the kernel at output `o`. -/
def tap (pd : ConvolutionPd) (o k : ℕ × ℕ × ℕ) : ℤ × ℤ × ℤ :=
  (o.1 * pd.KSD - pd.padFront + k.1 * (1 + pd.KDD), o.2.1 * pd.KSH - pd.padT + k.2.1 * (1 + pd.KDH),
    o.2.2 * pd.KSW - pd.padL + k.2.2 * (1 + pd.KDW))

/-- The tap lies inside the image. -/
def Inside (pd : ConvolutionPd) (o k : ℕ × ℕ × ℕ) : Prop :=
  (0 ≤ (pd.tap o k).1 ∧ (pd.tap o k).1 < pd.ID) ∧ (0 ≤ (pd.tap o k).2.1 ∧ (pd.tap o k).2.1 < pd.IH) ∧
    (0 ≤ (pd.tap o k).2.2 ∧ (pd.tap o k).2.2 < pd.IW)

instance (o k : ℕ × ℕ × ℕ) : Decidable (pd.Inside o k) := inferInstanceAs (Decidable (_ ∧ _ ∧ _))

/-- The tap falls on the element `i` of the image. -/
def Hits (pd : ConvolutionPd) (o k i : ℕ × ℕ × ℕ) : Prop :=
  (pd.tap o k).1 = i.1 ∧ (pd.tap o k).2.1 = i.2.1 ∧ (pd.tap o k).2.2 = i.2.2

instance (o k i : ℕ × ℕ × ℕ) : Decidable (pd.Hits o k i) := inferInstanceAs (Decidable (_ ∧ _ ∧ _))

/-- A tap falls on one element of the image, or on none. -/
theorem sum_hits {M : Type*} [AddCommMonoid M] (o k : ℕ × ℕ × ℕ) (f : ℕ × ℕ × ℕ → M) :
    ∑ i ∈ box3 pd.ID pd.IH pd.IW, (if pd.Hits o k i then f i else 0) =
      if pd.Inside o k then f ((pd.tap o k).1.toNat, (pd.tap o k).2.1.toNat, (pd.tap o k).2.2.toNat) else 0 := by
  split_ifs with hin
  · obtain ⟨hd, hh, hw⟩ := hin
    rw [Finset.sum_eq_single ((pd.tap o k).1.toNat, (pd.tap o k).2.1.toNat, (pd.tap o k).2.2.toNat)]
    · apply if_pos
      unfold Hits
      dsimp only
      omega
    · intro i _ hne
      apply if_neg
      rintro ⟨hid, hih, hiw⟩
      apply hne
      rw [hid, hih, hiw]
      rfl
    · intro hnot
      exfalso
      apply hnot
      rw [mem_box3]
      dsimp only
      omega
  · apply Finset.sum_eq_zero
    intro i hi
    rw [mem_box3] at hi
    apply if_neg
    rintro ⟨hid, hih, hiw⟩
    apply hin
    unfold Inside
    omega

section Kernels

variable {R : Type*} [CommSemiring R] (x w y : List ℕ → R)

/-- An element of `src` under a tap. -/
def srcAt (pd : ConvolutionPd) (x : List ℕ → R) (g mb ic : ℕ) (i : ℕ × ℕ × ℕ) : R :=
  x (pd.dataPos mb (g * pd.IC + ic) i.1 i.2.1 i.2.2)

def dstAt (pd : ConvolutionPd) (y : List ℕ → R) (g mb oc : ℕ) (o : ℕ × ℕ × ℕ) : R :=
  y (pd.dataPos mb (g * pd.OC + oc) o.1 o.2.1 o.2.2)

def weiAt (pd : ConvolutionPd) (w : List ℕ → R) (g oc ic : ℕ) (k : ℕ × ℕ × ℕ) : R :=
  w (pd.weiPos g oc ic k.1 k.2.1 k.2.2)

/-- The element of the padded image under a tap. -/
def paddedAt (pd : ConvolutionPd) (x : List ℕ → R) (g mb ic : ℕ) (o k : ℕ × ℕ × ℕ) : R :=
  if pd.Inside o k then
    pd.srcAt x g mb ic ((pd.tap o k).1.toNat, (pd.tap o k).2.1.toNat, (pd.tap o k).2.2.toNat)
  else 0

theorem fwdKer_eq (g mb oc : ℕ) (o : ℕ × ℕ × ℕ) : pd.fwdKer x w g mb oc o.1 o.2.1 o.2.2 =
    ∑ ic ∈ Finset.range pd.IC, ∑ k ∈ box3 pd.KD pd.KH pd.KW, pd.paddedAt x g mb ic o k * pd.weiAt w g oc ic k := by
  have hkernel : ∀ ic, ∑ k ∈ box3 pd.KD pd.KH pd.KW, pd.paddedAt x g mb ic o k * pd.weiAt w g oc ic k =
      ∑ kd ∈ Finset.range pd.KD, ∑ kh ∈ Finset.range pd.KH, ∑ kw ∈ Finset.range pd.KW,
        pd.paddedAt x g mb ic o (kd, kh, kw) * pd.weiAt w g oc ic (kd, kh, kw) :=
    fun ic => (sum_box3 _ _ _ fun kd kh kw => pd.paddedAt x g mb ic o (kd, kh, kw) * pd.weiAt w g oc ic (kd, kh, kw)).symm
  simp only [hkernel]
  unfold fwdKer
  refine Finset.sum_congr rfl fun ic _ => Finset.sum_congr rfl fun kd _ => Finset.sum_congr rfl fun kh _ =>
    Finset.sum_congr rfl fun kw _ => ?_
  show (if (pd.tap o (kd, kh, kw)).1 < 0 ∨ pd.ID ≤ (pd.tap o (kd, kh, kw)).1 then 0
    else if (pd.tap o (kd, kh, kw)).2.1 < 0 ∨ pd.IH ≤ (pd.tap o (kd, kh, kw)).2.1 then 0
    else if (pd.tap o (kd, kh, kw)).2.2 < 0 ∨ pd.IW ≤ (pd.tap o (kd, kh, kw)).2.2 then 0
    else pd.srcAt x g mb ic ((pd.tap o (kd, kh, kw)).1.toNat, (pd.tap o (kd, kh, kw)).2.1.toNat,
      (pd.tap o (kd, kh, kw)).2.2.toNat) * pd.weiAt w g oc ic (kd, kh, kw)) = _
  unfold paddedAt
  by_cases hin : pd.Inside o (kd, kh, kw)
  · obtain ⟨hd, hh, hw⟩ := id hin
    rw [if_pos hin, if_neg (by omega), if_neg (by omega), if_neg (by omega)]
  · rw [if_neg hin, zero_mul]
    unfold Inside at hin
    split_ifs with hd hh hw
    · rfl
    · rfl
    · rfl
    · omega

theorem bwdWeightsKer_eq (g oc ic : ℕ) (k : ℕ × ℕ × ℕ) : pd.bwdWeightsKer x y g oc ic k.1 k.2.1 k.2.2 =
    ∑ mb ∈ Finset.range pd.MB, ∑ o ∈ box3 pd.OD pd.OH pd.OW, pd.dstAt y g mb oc o * pd.paddedAt x g mb ic o k := by
  have houtput : ∀ mb, ∑ o ∈ box3 pd.OD pd.OH pd.OW, pd.dstAt y g mb oc o * pd.paddedAt x g mb ic o k =
      ∑ od ∈ Finset.range pd.OD, ∑ oh ∈ Finset.range pd.OH, ∑ ow ∈ Finset.range pd.OW,
        pd.dstAt y g mb oc (od, oh, ow) * pd.paddedAt x g mb ic (od, oh, ow) k :=
    fun mb => (sum_box3 _ _ _ fun od oh ow => pd.dstAt y g mb oc (od, oh, ow) * pd.paddedAt x g mb ic (od, oh, ow) k).symm
  simp only [houtput]
  unfold bwdWeightsKer
  refine Finset.sum_congr rfl fun mb _ => Finset.sum_congr rfl fun od _ => Finset.sum_congr rfl fun oh _ =>
    Finset.sum_congr rfl fun ow _ => ?_
  have htap : pd.tap (od, oh, ow) k = ((od : ℤ) * pd.KSD - pd.padFront + k.1 * (1 + pd.KDD),
      (oh : ℤ) * pd.KSH - pd.padT + k.2.1 * (1 + pd.KDH), (ow : ℤ) * pd.KSW - pd.padL + k.2.2 * (1 + pd.KDW)) := rfl
  unfold paddedAt
  by_cases hin : pd.Inside (od, oh, ow) k
  · rw [if_pos hin, if_neg]
    · rfl
    · unfold Inside at hin
      rw [htap] at hin
      dsimp only at hin
      omega
  · rw [if_neg hin, mul_zero, if_pos]
    unfold Inside at hin
    rw [htap] at hin
    dsimp only at hin
    omega

theorem Accepted.bwdDataKer_eq (h : pd.Accepted) (g mb ic : ℕ) (i : ℕ × ℕ × ℕ) :
    pd.bwdDataKer y w g mb ic i.1 i.2.1 i.2.2 =
      ∑ oc ∈ Finset.range pd.OC, ∑ k ∈ box3 pd.KD pd.KH pd.KW, ∑ o ∈ box3 pd.OD pd.OH pd.OW,
        if pd.Hits o k i then pd.dstAt y g mb oc o * pd.weiAt w g oc ic k else 0 := by
  have hkernel : ∀ oc, ∑ k ∈ box3 pd.KD pd.KH pd.KW, ∑ o ∈ box3 pd.OD pd.OH pd.OW,
      (if pd.Hits o k i then pd.dstAt y g mb oc o * pd.weiAt w g oc ic k else 0) =
        ∑ kd ∈ Finset.range pd.KD, ∑ kh ∈ Finset.range pd.KH, ∑ kw ∈ Finset.range pd.KW,
          ∑ o ∈ box3 pd.OD pd.OH pd.OW,
            if pd.Hits o (kd, kh, kw) i then pd.dstAt y g mb oc o * pd.weiAt w g oc ic (kd, kh, kw) else 0 :=
    fun oc => (sum_box3 _ _ _ fun kd kh kw => ∑ o ∈ box3 pd.OD pd.OH pd.OW,
      if pd.Hits o (kd, kh, kw) i then pd.dstAt y g mb oc o * pd.weiAt w g oc ic (kd, kh, kw) else 0).symm
  simp only [hkernel]
  unfold bwdDataKer
  refine Finset.sum_congr rfl fun oc _ => Finset.sum_congr rfl fun kd _ => Finset.sum_congr rfl fun kh _ =>
    Finset.sum_congr rfl fun kw _ => ?_
  rw [← sum_box3 pd.OD pd.OH pd.OW fun od oh ow => if pd.Hits (od, oh, ow) (kd, kh, kw) i then
    pd.dstAt y g mb oc (od, oh, ow) * pd.weiAt w g oc ic (kd, kh, kw) else 0]
  have hhits : ∀ od oh ow : ℕ, pd.Hits (od, oh, ow) (kd, kh, kw) i ↔
      (od : ℤ) * pd.KSD = i.1 - kd * (1 + pd.KDD) + pd.padFront ∧ (oh : ℤ) * pd.KSH = i.2.1 - kh * (1 + pd.KDH) + pd.padT ∧
        (ow : ℤ) * pd.KSW = i.2.2 - kw * (1 + pd.KDW) + pd.padL := by
    intro od oh ow
    unfold Hits tap
    refine and_congr ?_ (and_congr ?_ ?_) <;> constructor <;> intro h <;> dsimp only at * <;> linarith
  have hx : (i.2.2 : ℤ) + pd.padL < kw * (1 + pd.KDW) ↔ (i.2.2 : ℤ) - kw * (1 + pd.KDW) + pd.padL < 0 := by
    constructor <;> intro h <;> linarith
  have hy : (i.2.1 : ℤ) + pd.padT < kh * (1 + pd.KDH) ↔ (i.2.1 : ℤ) - kh * (1 + pd.KDH) + pd.padT < 0 := by
    constructor <;> intro h <;> linarith
  have hd : (i.1 : ℤ) + pd.padFront < kd * (1 + pd.KDD) ↔ (i.1 : ℤ) - kd * (1 + pd.KDD) + pd.padFront < 0 := by
    constructor <;> intro h <;> linarith
  simp only [hhits, hx, hy, hd]
  exact (sum_range_multiples h.KSD_pos h.KSH_pos h.KSW_pos _ _ _ fun od oh ow =>
    pd.dstAt y g mb oc (od, oh, ow) * pd.weiAt w g oc ic (kd, kh, kw)).symm

end Kernels

/-! ## The passes are adjoint -/

section Adjoint

variable {R : Type*} [CommSemiring R] (h : pd.Accepted) (x w y : List ℕ → R)

/-- The sum over all pairs of an output and a tap: the form of degree three that every pass is a part of. -/
def trilinear (pd : ConvolutionPd) (x w y : List ℕ → R) : R :=
  ∑ g ∈ Finset.range pd.G, ∑ mb ∈ Finset.range pd.MB, ∑ oc ∈ Finset.range pd.OC, ∑ ic ∈ Finset.range pd.IC,
    ∑ k ∈ box3 pd.KD pd.KH pd.KW, ∑ o ∈ box3 pd.OD pd.OH pd.OW,
      pd.paddedAt x g mb ic o k * pd.weiAt w g oc ic k * pd.dstAt y g mb oc o

include h

theorem Accepted.sum_forward (t : List ℕ → R) :
    sumPositions pd.dstShape (fun p => applyWrites (pd.executeForward x w) t p * y p) = pd.trilinear x w y := by
  rw [h.sum_dstShape]
  refine Finset.sum_congr rfl fun g hg => Finset.sum_congr rfl fun mb hmb => Finset.sum_congr rfl fun oc hoc => ?_
  rw [Finset.mem_range] at hg hmb hoc
  calc ∑ o ∈ box3 pd.OD pd.OH pd.OW, applyWrites (pd.executeForward x w) t
          (pd.dataPos mb (g * pd.OC + oc) o.1 o.2.1 o.2.2) * y (pd.dataPos mb (g * pd.OC + oc) o.1 o.2.1 o.2.2)
      = ∑ o ∈ box3 pd.OD pd.OH pd.OW, ∑ ic ∈ Finset.range pd.IC, ∑ k ∈ box3 pd.KD pd.KH pd.KW,
          pd.paddedAt x g mb ic o k * pd.weiAt w g oc ic k * pd.dstAt y g mb oc o := by
        refine Finset.sum_congr rfl fun o ho => ?_
        rw [mem_box3] at ho
        rw [h.applyWrites_executeForward x w t hg hmb hoc ho.1 ho.2.1 ho.2.2, fwdKer_eq, Finset.sum_mul]
        refine Finset.sum_congr rfl fun ic _ => ?_
        rw [Finset.sum_mul]
        rfl
    _ = _ := by
        rw [Finset.sum_comm]
        refine Finset.sum_congr rfl fun ic _ => ?_
        rw [Finset.sum_comm]

theorem Accepted.sum_backwardData (t : List ℕ → R) :
    sumPositions pd.srcShape (fun p => x p * applyWrites (pd.executeBackwardData y w) t p) = pd.trilinear x w y := by
  rw [h.sum_srcShape]
  refine Finset.sum_congr rfl fun g hg => Finset.sum_congr rfl fun mb hmb => ?_
  rw [Finset.mem_range] at hg hmb
  rw [Finset.sum_comm (s := Finset.range pd.OC)]
  refine Finset.sum_congr rfl fun ic hic => ?_
  rw [Finset.mem_range] at hic
  calc ∑ i ∈ box3 pd.ID pd.IH pd.IW, x (pd.dataPos mb (g * pd.IC + ic) i.1 i.2.1 i.2.2) *
          applyWrites (pd.executeBackwardData y w) t (pd.dataPos mb (g * pd.IC + ic) i.1 i.2.1 i.2.2)
      = ∑ i ∈ box3 pd.ID pd.IH pd.IW, ∑ oc ∈ Finset.range pd.OC, ∑ k ∈ box3 pd.KD pd.KH pd.KW,
          ∑ o ∈ box3 pd.OD pd.OH pd.OW,
            if pd.Hits o k i then pd.srcAt x g mb ic i * pd.weiAt w g oc ic k * pd.dstAt y g mb oc o else 0 := by
        refine Finset.sum_congr rfl fun i hi => ?_
        rw [mem_box3] at hi
        rw [h.applyWrites_executeBackwardData w y t hg hmb hic hi.1 hi.2.1 hi.2.2, h.bwdDataKer_eq]
        simp only [Finset.mul_sum, mul_ite, mul_zero]
        refine Finset.sum_congr rfl fun oc _ => Finset.sum_congr rfl fun k _ => Finset.sum_congr rfl fun o _ => ?_
        rw [mul_comm (pd.dstAt y g mb oc o), ← mul_assoc]
        rfl
    _ = _ := by
        -- the image is summed innermost, where a tap falls on one element or on none
        rw [Finset.sum_comm]
        refine Finset.sum_congr rfl fun oc _ => ?_
        rw [Finset.sum_comm]
        refine Finset.sum_congr rfl fun k _ => ?_
        rw [Finset.sum_comm]
        refine Finset.sum_congr rfl fun o _ => ?_
        rw [sum_hits]
        unfold paddedAt
        split_ifs
        · rfl
        · rw [zero_mul, zero_mul]

theorem Accepted.sum_backwardWeights (t : List ℕ → R) :
    sumPositions pd.weiShape (fun p => w p * applyWrites (pd.executeBackwardWeights x y) t p) = pd.trilinear x w y := by
  rw [h.sum_weiShape]
  refine Finset.sum_congr rfl fun g hg => ?_
  rw [Finset.mem_range] at hg
  rw [Finset.sum_comm (s := Finset.range pd.MB)]
  refine Finset.sum_congr rfl fun oc hoc => ?_
  rw [Finset.sum_comm (s := Finset.range pd.MB)]
  refine Finset.sum_congr rfl fun ic hic => ?_
  rw [Finset.sum_comm (s := Finset.range pd.MB)]
  refine Finset.sum_congr rfl fun k hk => ?_
  rw [Finset.mem_range] at hoc hic
  rw [mem_box3] at hk
  rw [h.applyWrites_executeBackwardWeights x y t hg hoc hic hk.1 hk.2.1 hk.2.2, bwdWeightsKer_eq, Finset.mul_sum]
  refine Finset.sum_congr rfl fun mb _ => ?_
  rw [Finset.mul_sum]
  refine Finset.sum_congr rfl fun o _ => ?_
  rw [mul_comm (pd.paddedAt x g mb ic o k), mul_assoc, mul_comm (pd.paddedAt x g mb ic o k)]
  rfl

/-- Every pass of the reference convolution is the adjoint of the others, whatever the destinations held. -/
theorem Accepted.passes_adjoint (dst diffSrc diffWeights : List ℕ → R) :
    sumPositions pd.dstShape (fun p => applyWrites (pd.executeForward x w) dst p * y p) =
        sumPositions pd.srcShape (fun p => x p * applyWrites (pd.executeBackwardData y w) diffSrc p) ∧
      sumPositions pd.srcShape (fun p => x p * applyWrites (pd.executeBackwardData y w) diffSrc p) =
        sumPositions pd.weiShape (fun p => w p * applyWrites (pd.executeBackwardWeights x y) diffWeights p) := by
  rw [h.sum_forward, h.sum_backwardData, h.sum_backwardWeights]
  exact ⟨rfl, rfl⟩

end Adjoint

/-- Two groups, stride two over the rows and dilated columns. -/
def grouped : ConvolutionPd where
  ndims := 4
  withGroups := true
  srcDims := ([2, 4, 5, 5].getD · 0)
  weiDims := ([2, 3, 2, 3, 3].getD · 0)
  dstDims := ([2, 6, 3, 1].getD · 0)
  strides := ([2, 1].getD · 0)
  dilates := ([0, 1].getD · 0)
  paddingL := ([1, 0].getD · 0)
  paddingR := ([1, 0].getD · 0)

theorem grouped_accepted : grouped.Accepted where
  ndims := by decide
  weights := by decide
  mb := by decide
  src := by decide
  dst := by decide
  spatial := by
    intro i hlow hhigh
    have hspatial : i = 2 ∨ i = 3 := by
      have hndims : grouped.ndims = 4 := rfl
      omega
    unfold convDescInitDim
    rcases hspatial with rfl | rfl
    · decide
    · decide

/-- A tensor of integers that tells its elements apart. -/
def sample (p : List ℕ) : ℤ := p.foldl (fun acc (i : ℕ) => 10 * acc + i) 1

theorem passes_adjoint_grouped :
    sumPositions grouped.dstShape (fun p => applyWrites (grouped.executeForward sample sample) sample p * sample p) =
        sumPositions grouped.srcShape (fun p => sample p * applyWrites (grouped.executeBackwardData sample sample) sample p) ∧
      sumPositions grouped.srcShape (fun p => sample p * applyWrites (grouped.executeBackwardData sample sample) sample p) =
        sumPositions grouped.weiShape
          (fun p => sample p * applyWrites (grouped.executeBackwardWeights sample sample) sample p) :=
  grouped_accepted.passes_adjoint sample sample sample sample sample sample

end MklDnn.ConvolutionPd
