import MklDnn.Pooling.Proofs.WindowProofs

/-!
# Proofs: scattering the gradients

What the loops that scatter leave in every element of the image, for any addresses that tell the elements apart.
-/

open LoopNest Interleaving

namespace MklDnn.PoolingPd

open Pooling

variable {pd : PoolingPd}

/-- An element of a tensor whose images have the positions `box`. -/
structure InTensor (pd : PoolingPd) (box : Finset (ℕ × ℕ × ℕ)) (mb c : ℕ) (i : ℕ × ℕ × ℕ) : Prop where
  mb : mb < pd.MB
  c : c < pd.C
  pos : i ∈ box

/-- Different elements have different addresses. -/
def Separates {A : Type*} (pd : PoolingPd) (box : Finset (ℕ × ℕ × ℕ)) (off : ℕ → ℕ → ℕ → ℕ → ℕ → A) : Prop :=
  ∀ {mb c i mb' c' i'}, pd.InTensor box mb c i → pd.InTensor box mb' c' i' →
    off mb c i.1 i.2.1 i.2.2 = off mb' c' i'.1 i'.2.1 i'.2.2 → mb = mb' ∧ c = c' ∧ i = i'

/-- The element of the image under the tap with an index. -/
def indexTap (pd : PoolingPd) (od oh ow : ℤ) (index : ℕ) : ℤ × ℤ × ℤ :=
  (pd.d.tap od ↑(index / pd.w.k / pd.h.k), pd.h.tap oh ↑(index / pd.w.k % pd.h.k), pd.w.tap ow ↑(index % pd.w.k))

/-- The tap with an index falls on the element `i` of the image. -/
def IndexHits (pd : PoolingPd) (od oh ow : ℤ) (index : ℕ) (i : ℕ × ℕ × ℕ) : Prop :=
  (pd.indexTap od oh ow index).1 = i.1 ∧ (pd.indexTap od oh ow index).2.1 = i.2.1 ∧
    (pd.indexTap od oh ow index).2.2 = i.2.2

instance (od oh ow : ℤ) (index : ℕ) (i : ℕ × ℕ × ℕ) : Decidable (pd.IndexHits od oh ow index i) :=
  inferInstanceAs (Decidable (_ ∧ _ ∧ _))

section Scatter

variable {R A : Type*} [Field R] {at' : ℕ → ℕ → ℕ → A} {start : Axis → ℤ → ℤ}

/-! ## Addresses -/

theorem mem_zeros {a : A} :
    a ∈ ((List.range pd.d.i).flatMap fun id => (List.range pd.h.i).flatMap fun ih => (List.range pd.w.i).map fun iw =>
      at' id ih iw) ↔ ∃ i ∈ pd.image, at' i.1 i.2.1 i.2.2 = a := by
  simp only [List.mem_flatMap, List.mem_map, List.mem_range, mem_image]
  constructor
  · rintro ⟨id, hid, ih, hih, iw, hiw, rfl⟩
    exact ⟨(id, ih, iw), ⟨hid, hih, hiw⟩, rfl⟩
  · rintro ⟨i, ⟨hid, hih, hiw⟩, rfl⟩
    exact ⟨i.1, hid, i.2.1, hih, i.2.2, hiw, rfl⟩

theorem mem_kerAvgBwd (hstart : ∀ a o, start a o = a.start o) {d : R} {od oh ow : ℤ} {w : A × R}
    (hw : w ∈ pd.kerAvgBwd start at' d od oh ow) : ∃ i ∈ pd.image, at' i.1 i.2.1 i.2.2 = w.1 := by
  unfold kerAvgBwd at hw
  simp only [List.mem_flatMap, List.mem_map, mem_intLoop, hstart] at hw
  obtain ⟨id, hid, ih, hih, iw, hiw, rfl⟩ := hw
  have hd := Axis.start_nonneg (a := pd.d) od
  have hd' := Axis.stop_le (a := pd.d) od
  have hh := Axis.start_nonneg (a := pd.h) oh
  have hh' := Axis.stop_le (a := pd.h) oh
  have hw := Axis.start_nonneg (a := pd.w) ow
  have hw' := Axis.stop_le (a := pd.w) ow
  refine ⟨(id.toNat, ih.toNat, iw.toNat), ?_, rfl⟩
  rw [mem_image]
  dsimp only
  omega

omit [Field R] in
theorem mem_kerMaxBwd {d : R} {index : ℕ} {od oh ow : ℤ} {w : A × R} (hw : w ∈ pd.kerMaxBwd at' d index od oh ow) :
    ∃ i ∈ pd.image, at' i.1 i.2.1 i.2.2 = w.1 := by
  unfold kerMaxBwd at hw
  dsimp only at hw
  split_ifs at hw with hd hh hw'
  · cases hw
  · cases hw
  · cases hw
  · rw [List.mem_singleton] at hw
    rw [hw]
    refine ⟨((pd.d.tap od ↑(index / pd.w.k / pd.h.k)).toNat, (pd.h.tap oh ↑(index / pd.w.k % pd.h.k)).toNat,
      (pd.w.tap ow ↑(index % pd.w.k)).toNat), ?_, rfl⟩
    rw [mem_image]
    unfold Axis.Outside at hd hh hw'
    dsimp only
    omega

/-- The pass over an image assigns to elements of the image. -/
theorem dst_of_mem_scatter (hstart : ∀ a o, start a o = a.start o) {d : ℕ → ℕ → ℕ → R} {ws : ℕ → ℕ → ℕ → ℕ}
    {e : Assign A R} (he : e ∈ pd.scatter start at' d ws) : ∃ i ∈ pd.image, at' i.1 i.2.1 i.2.2 = e.dst := by
  unfold scatter kerZero at he
  rw [List.mem_append, List.mem_map, List.mem_map] at he
  rcases he with ⟨a, ha, rfl⟩ | ⟨w, hw, rfl⟩
  · exact mem_zeros.mp ha
  · obtain ⟨o, -, hw⟩ := List.mem_flatMap.mp hw
    dsimp only at hw
    split_ifs at hw
    · exact mem_kerMaxBwd hw
    · exact mem_kerAvgBwd hstart hw

theorem local_of_mem_scatter {d : ℕ → ℕ → ℕ → R} {ws : ℕ → ℕ → ℕ → ℕ} {e : Assign A R}
    (he : e ∈ pd.scatter start at' d ws) : e.Local := by
  unfold scatter kerZero at he
  rw [List.mem_append, List.mem_map, List.mem_map] at he
  rcases he with ⟨a, -, rfl⟩ | ⟨w, -, rfl⟩
  · exact Assign.local_set a 0
  · exact Assign.local_add w.1 w.2

/-! ## Contributions of a window -/

variable [DecidableEq A]

/-- What a window adds to an element, for the average. -/
theorem sum_kerAvgBwd (hstart : ∀ a o, start a o = a.start o)
    (hinj : ∀ i ∈ pd.image, ∀ j ∈ pd.image, at' i.1 i.2.1 i.2.2 = at' j.1 j.2.1 j.2.2 → i = j) (d : R) (od oh ow : ℤ)
    {i : ℕ × ℕ × ℕ} (hi : i ∈ pd.image) :
    ((pd.kerAvgBwd start at' d od oh ow).map fun w => if w.1 = at' i.1 i.2.1 i.2.2 then w.2 else 0).sum =
      if pd.Covers od oh ow i then d / (pd.numSummands Axis.start od oh ow : R) else 0 := by
  have hsame : start = Axis.start := by
    funext a o
    exact hstart a o
  subst hsame
  have hloops : ((pd.kerAvgBwd Axis.start at' d od oh ow).map fun w => if w.1 = at' i.1 i.2.1 i.2.2 then w.2 else 0).sum =
      ∑ id ∈ Finset.Ico (pd.d.start od) (pd.d.stop od), ∑ ih ∈ Finset.Ico (pd.h.start oh) (pd.h.stop oh),
        ∑ iw ∈ Finset.Ico (pd.w.start ow) (pd.w.stop ow), if at' id.toNat ih.toNat iw.toNat = at' i.1 i.2.1 i.2.2 then
          d / (pd.numSummands Axis.start od oh ow : R) else 0 := by
    unfold kerAvgBwd
    rw [sum_map_flatMap_list, sum_map_intLoop]
    refine Finset.sum_congr rfl fun id _ => ?_
    rw [sum_map_flatMap_list, sum_map_intLoop]
    refine Finset.sum_congr rfl fun ih _ => ?_
    rw [List.map_map, ← sum_map_intLoop]
    rfl
  rw [hloops, sum_window pd od oh ow fun id ih iw => if at' id ih iw = at' i.1 i.2.1 i.2.2 then
    d / (pd.numSummands Axis.start od oh ow : R) else 0, Finset.sum_eq_single i]
  · rw [if_pos rfl]
  · intro j hj hne
    rw [if_neg fun heq => hne (hinj j hj i hi heq), ite_self]
  · intro hnot
    exact absurd hi hnot

/-- What a window adds to an element, for the maximum. -/
theorem sum_kerMaxBwd (hinj : ∀ i ∈ pd.image, ∀ j ∈ pd.image, at' i.1 i.2.1 i.2.2 = at' j.1 j.2.1 j.2.2 → i = j) (d : R)
    (index : ℕ) (od oh ow : ℤ) {i : ℕ × ℕ × ℕ} (hi : i ∈ pd.image) :
    ((pd.kerMaxBwd at' d index od oh ow).map fun w => if w.1 = at' i.1 i.2.1 i.2.2 then w.2 else 0).sum =
      if pd.IndexHits od oh ow index i then d else 0 := by
  have hbounds := mem_image.mp hi
  have hhits : pd.IndexHits od oh ow index i ↔ pd.d.tap od ↑(index / pd.w.k / pd.h.k) = i.1 ∧
      pd.h.tap oh ↑(index / pd.w.k % pd.h.k) = i.2.1 ∧ pd.w.tap ow ↑(index % pd.w.k) = i.2.2 := Iff.rfl
  unfold kerMaxBwd
  dsimp only
  by_cases hd : pd.d.Outside (pd.d.tap od ↑(index / pd.w.k / pd.h.k))
  · rw [if_pos hd, if_neg]
    · rfl
    · rw [hhits]
      unfold Axis.Outside at hd
      omega
  rw [if_neg hd]
  by_cases hh : pd.h.Outside (pd.h.tap oh ↑(index / pd.w.k % pd.h.k))
  · rw [if_pos hh, if_neg]
    · rfl
    · rw [hhits]
      unfold Axis.Outside at hh
      omega
  rw [if_neg hh]
  by_cases hw : pd.w.Outside (pd.w.tap ow ↑(index % pd.w.k))
  · rw [if_pos hw, if_neg]
    · rfl
    · rw [hhits]
      unfold Axis.Outside at hw
      omega
  rw [if_neg hw, List.map_singleton, List.sum_singleton]
  unfold Axis.Outside at hd hh hw
  by_cases hhit : pd.IndexHits od oh ow index i
  · rw [if_pos hhit, if_pos]
    obtain ⟨h1, h2, h3⟩ := hhits.mp hhit
    rw [h1, h2, h3]
    rfl
  · rw [if_neg hhit, if_neg]
    intro heq
    have hj : (((pd.d.tap od ↑(index / pd.w.k / pd.h.k)).toNat, (pd.h.tap oh ↑(index / pd.w.k % pd.h.k)).toNat,
        (pd.w.tap ow ↑(index % pd.w.k)).toNat) : ℕ × ℕ × ℕ) ∈ pd.image := by
      rw [mem_image]
      dsimp only
      omega
    have hij := hinj _ hj i hi heq
    apply hhit
    rw [hhits, ← hij]
    dsimp only
    omega

/-! ## An image -/

omit [DecidableEq A] in
theorem mem_outputs {o : ℤ × ℤ × ℤ} (ho : o ∈ pd.outputs) :
    (0 ≤ o.1 ∧ 0 ≤ o.2.1 ∧ 0 ≤ o.2.2) ∧ (o.1.toNat, o.2.1.toNat, o.2.2.toNat) ∈ pd.windows := by
  unfold outputs at ho
  simp only [List.mem_flatMap, List.mem_map, mem_intLoop] at ho
  obtain ⟨od, hod, oh, hoh, ow, how, rfl⟩ := ho
  have hd := Axis.oStart_nonneg (a := pd.d)
  have hd' := Axis.oEnd_le (a := pd.d)
  have hh := Axis.oStart_nonneg (a := pd.h)
  have hh' := Axis.oEnd_le (a := pd.h)
  have hw := Axis.oStart_nonneg (a := pd.w)
  have hw' := Axis.oEnd_le (a := pd.w)
  rw [mem_windows]
  dsimp only
  omega

/-- The gradient of an element, for the average. -/
def avgGradient (pd : PoolingPd) (d : ℕ → ℕ → ℕ → R) (i : ℕ × ℕ × ℕ) : R :=
  ∑ o ∈ pd.windows, if pd.Covers o.1 o.2.1 o.2.2 i then
    d o.1 o.2.1 o.2.2 / (pd.numSummands Axis.start o.1 o.2.1 o.2.2 : R) else 0

/-- The gradient of an element, for the maximum. -/
def maxGradient (pd : PoolingPd) (d : ℕ → ℕ → ℕ → R) (ws : ℕ → ℕ → ℕ → ℕ) (i : ℕ × ℕ × ℕ) : R :=
  ∑ o ∈ pd.windows, if pd.IndexHits o.1 o.2.1 o.2.2 (ws o.1 o.2.1 o.2.2) i then d o.1 o.2.1 o.2.2 else 0

theorem Regular.execAll_scatter_avg (hpd : pd.Regular) (halg : pd.alg ≠ .max) (hstart : ∀ a o, start a o = a.start o)
    (hinj : ∀ i ∈ pd.image, ∀ j ∈ pd.image, at' i.1 i.2.1 i.2.2 = at' j.1 j.2.1 j.2.2 → i = j) (d : ℕ → ℕ → ℕ → R)
    (ws : ℕ → ℕ → ℕ → ℕ) (m : A → R) {i : ℕ × ℕ × ℕ} (hi : i ∈ pd.image) :
    execAll (pd.scatter start at' d ws) m (at' i.1 i.2.1 i.2.2) = pd.avgGradient d i := by
  unfold scatter kerZero
  rw [execAll_zero_add _ m (mem_zeros.mpr ⟨i, hi, rfl⟩), sum_map_flatMap_list]
  simp only [if_neg halg, sum_kerAvgBwd hstart hinj _ _ _ _ hi]
  unfold avgGradient
  rw [← hpd.sum_outputs hi fun od oh ow => d od oh ow / (pd.numSummands Axis.start od oh ow : R)]
  congr 1
  refine List.map_congr_left fun o ho => ?_
  obtain ⟨⟨hd, hh, hw⟩, -⟩ := mem_outputs ho
  rw [Int.toNat_of_nonneg hd, Int.toNat_of_nonneg hh, Int.toNat_of_nonneg hw]

/-- A hit of a tap of the kernel is an element that the window covers. -/
theorem IndexHits.covers {od oh ow : ℤ} {index : ℕ} {i : ℕ × ℕ × ℕ} (h : pd.IndexHits od oh ow index i)
    (hindex : index < pd.d.k * pd.h.k * pd.w.k) : pd.Covers od oh ow i := by
  have hw : index % pd.w.k < pd.w.k := by
    apply Nat.mod_lt
    apply Nat.pos_of_ne_zero
    intro hzero
    rw [hzero, mul_zero] at hindex
    exact Nat.not_lt_zero _ hindex
  have hrow : index / pd.w.k < pd.d.k * pd.h.k := Nat.div_lt_of_lt_mul (by rw [mul_comm]; exact hindex)
  have hh : index / pd.w.k % pd.h.k < pd.h.k := by
    apply Nat.mod_lt
    apply Nat.pos_of_ne_zero
    intro hzero
    rw [hzero, mul_zero] at hrow
    exact Nat.not_lt_zero _ hrow
  have hd : index / pd.w.k / pd.h.k < pd.d.k := Nat.div_lt_of_lt_mul (by rw [mul_comm]; exact hrow)
  obtain ⟨h1, h2, h3⟩ := h
  unfold indexTap Axis.tap at h1 h2 h3
  dsimp only at h1 h2 h3
  generalize index / pd.w.k / pd.h.k = kd at hd h1
  generalize index / pd.w.k % pd.h.k = kh at hh h2
  generalize index % pd.w.k = kw at hw h3
  unfold Covers Axis.Covers
  omega

theorem Regular.execAll_scatter_max (hpd : pd.Regular) (halg : pd.alg = .max)
    (hinj : ∀ i ∈ pd.image, ∀ j ∈ pd.image, at' i.1 i.2.1 i.2.2 = at' j.1 j.2.1 j.2.2 → i = j) (d : ℕ → ℕ → ℕ → R)
    {ws : ℕ → ℕ → ℕ → ℕ} (hws : ∀ o ∈ pd.windows, ws o.1 o.2.1 o.2.2 < pd.d.k * pd.h.k * pd.w.k) (m : A → R)
    {i : ℕ × ℕ × ℕ} (hi : i ∈ pd.image) :
    execAll (pd.scatter start at' d ws) m (at' i.1 i.2.1 i.2.2) = pd.maxGradient d ws i := by
  -- a hit needs a window that covers the element
  have hcover : ∀ (od oh ow : ℤ) (index : ℕ) (v : R), index < pd.d.k * pd.h.k * pd.w.k →
      (if pd.IndexHits od oh ow index i then v else 0) =
        if pd.Covers od oh ow i then if pd.IndexHits od oh ow index i then v else 0 else 0 := by
    intro od oh ow index v hindex
    by_cases hhit : pd.IndexHits od oh ow index i
    · rw [if_pos hhit, if_pos (hhit.covers hindex)]
    · rw [if_neg hhit, ite_self]
  unfold scatter kerZero
  rw [execAll_zero_add _ m (mem_zeros.mpr ⟨i, hi, rfl⟩), sum_map_flatMap_list]
  simp only [if_pos halg, sum_kerMaxBwd hinj _ _ _ _ _ hi]
  have hgradient : pd.maxGradient d ws i = ∑ o ∈ pd.windows, if pd.Covers o.1 o.2.1 o.2.2 i then
      if pd.IndexHits o.1 o.2.1 o.2.2 (ws o.1 o.2.1 o.2.2) i then d o.1 o.2.1 o.2.2 else 0 else 0 :=
    Finset.sum_congr rfl fun o ho => hcover _ _ _ _ _ (hws o ho)
  rw [hgradient, ← hpd.sum_outputs hi fun od oh ow => if pd.IndexHits od oh ow (ws od oh ow) i then d od oh ow else 0]
  congr 1
  refine List.map_congr_left fun o ho => ?_
  obtain ⟨⟨hd, hh, hw⟩, hin⟩ := mem_outputs ho
  rw [hcover _ _ _ _ _ (hws _ hin), Int.toNat_of_nonneg hd, Int.toNat_of_nonneg hh, Int.toNat_of_nonneg hw]

/-! ## All images -/

section Images

variable {off : ℕ → ℕ → ℕ → ℕ → ℕ → A} {d : ℕ → ℕ → ℕ → ℕ → ℕ → R} {ws : ℕ → ℕ → ℕ → ℕ → ℕ → ℕ}

theorem Separates.image {A : Type*} {off : ℕ → ℕ → ℕ → ℕ → ℕ → A} (hoff : pd.Separates pd.image off) {mb c : ℕ} (hmb : mb < pd.MB)
    (hc : c < pd.C) : ∀ i ∈ pd.image, ∀ j ∈ pd.image,
      off mb c i.1 i.2.1 i.2.2 = off mb c j.1 j.2.1 j.2.2 → i = j :=
  fun _ hi _ hj heq => (hoff ⟨hmb, hc, hi⟩ ⟨hmb, hc, hj⟩ heq).2.2

/-- The passes over the images do not meet. -/
theorem execAll_scatterImages (hstart : ∀ a o, start a o = a.start o) (hoff : pd.Separates pd.image off) (m : A → R) {mb c : ℕ}
    {i : ℕ × ℕ × ℕ} (hi : pd.InTensor pd.image mb c i) :
    execAll (pd.scatterImages start off d ws) m (off mb c i.1 i.2.1 i.2.2) =
      execAll (pd.scatter start (off mb c) (d mb c) (ws mb c)) m (off mb c i.1 i.2.1 i.2.2) := by
  have hlocal : ∀ e ∈ pd.scatterImages start off d ws, e.Local := by
    intro e he
    unfold scatterImages at he
    obtain ⟨mb', -, he⟩ := List.mem_flatMap.mp he
    obtain ⟨c', -, he⟩ := List.mem_flatMap.mp he
    exact local_of_mem_scatter he
  have hother : ∀ mb' < pd.MB, ∀ c' < pd.C, (mb' ≠ mb ∨ c' ≠ c) →
      ∀ e ∈ pd.scatter start (off mb' c') (d mb' c') (ws mb' c'), e.dst ≠ off mb c i.1 i.2.1 i.2.2 := by
    intro mb' hmb' c' hc' hne e he heq
    obtain ⟨j, hj, hdst⟩ := dst_of_mem_scatter hstart he
    obtain ⟨rfl, rfl, -⟩ := hoff ⟨hmb', hc', hj⟩ hi (hdst.trans heq)
    rcases hne with hne | hne
    · exact hne rfl
    · exact hne rfl
  rw [execAll_eq_trace hlocal, execAll_eq_trace fun e he => local_of_mem_scatter he]
  unfold scatterImages
  rw [trace_flatMap_of_unique List.nodup_range (List.mem_range.mpr hi.mb),
    trace_flatMap_of_unique List.nodup_range (List.mem_range.mpr hi.c)]
  · intro c' hc' hne e he
    exact hother mb hi.mb c' (List.mem_range.mp hc') (Or.inr hne) e he
  · intro mb' hmb' hne e he
    obtain ⟨c', hc', he⟩ := List.mem_flatMap.mp he
    exact hother mb' (List.mem_range.mp hmb') c' (List.mem_range.mp hc') (Or.inl hne) e he

theorem Regular.execAll_scatterImages_avg (hpd : pd.Regular) (halg : pd.alg ≠ .max)
    (hstart : ∀ a o, start a o = a.start o) (hoff : pd.Separates pd.image off) (m : A → R) {mb c : ℕ} {i : ℕ × ℕ × ℕ}
    (hi : pd.InTensor pd.image mb c i) :
    execAll (pd.scatterImages start off d ws) m (off mb c i.1 i.2.1 i.2.2) = pd.avgGradient (d mb c) i := by
  rw [execAll_scatterImages hstart hoff m hi]
  exact hpd.execAll_scatter_avg halg hstart (hoff.image hi.mb hi.c) _ _ m hi.pos

theorem Regular.execAll_scatterImages_max (hpd : pd.Regular) (halg : pd.alg = .max)
    (hstart : ∀ a o, start a o = a.start o) (hoff : pd.Separates pd.image off)
    {mb c : ℕ} (hws : ∀ o ∈ pd.windows, ws mb c o.1 o.2.1 o.2.2 < pd.d.k * pd.h.k * pd.w.k) (m : A → R) {i : ℕ × ℕ × ℕ}
    (hi : pd.InTensor pd.image mb c i) :
    execAll (pd.scatterImages start off d ws) m (off mb c i.1 i.2.1 i.2.2) = pd.maxGradient (d mb c) (ws mb c) i := by
  rw [execAll_scatterImages hstart hoff m hi]
  exact hpd.execAll_scatter_max halg (hoff.image hi.mb hi.c) _ hws m hi.pos

end Images

end Scatter

end MklDnn.PoolingPd
