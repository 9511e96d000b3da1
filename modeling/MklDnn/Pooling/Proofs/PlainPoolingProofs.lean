import MklDnn.Pooling.PlainPooling
import MklDnn.Pooling.Proofs.RefPoolingProofs

/-!
# Proofs: the plain layouts

The offsets of the implementations for plain layouts tell the elements of a tensor apart.
-/

open LoopNest Interleaving

namespace MklDnn

open Pooling

namespace PoolingPd

variable {pd : PoolingPd}

/-- Row-major offsets in the order `mb, c, d, h, w`. -/
theorem nchw_inj {C D H W mb c d h w mb' c' d' h' w' : ℕ} (hc : c < C) (hd : d < D) (hh : h < H) (hw : w < W)
    (hc' : c' < C) (hd' : d' < D) (hh' : h' < H) (hw' : w' < W)
    (heq : W * H * D * C * mb + W * H * D * c + W * H * d + W * h + w =
      W * H * D * C * mb' + W * H * D * c' + W * H * d' + W * h' + w') :
    mb = mb' ∧ c = c' ∧ d = d' ∧ h = h' ∧ w = w' := by
  have hnest : ∀ mb c d h w, W * H * D * C * mb + W * H * D * c + W * H * d + W * h + w =
      w + (h + (d + (c + mb * C) * D) * H) * W := by
    intro mb c d h w
    ring
  rw [hnest, hnest] at heq
  obtain ⟨rfl, heqH⟩ := add_mul_inj hw hw' heq
  obtain ⟨rfl, heqD⟩ := add_mul_inj hh hh' heqH
  obtain ⟨rfl, heqC⟩ := add_mul_inj hd hd' heqD
  obtain ⟨rfl, rfl⟩ := add_mul_inj hc hc' heqC
  exact ⟨rfl, rfl, rfl, rfl, rfl⟩

/-- Row-major offsets in the order `mb, d, h, w, c`. -/
theorem nhwc_inj {C D H W mb c d h w mb' c' d' h' w' : ℕ} (hc : c < C) (hd : d < D) (hh : h < H) (hw : w < W)
    (hc' : c' < C) (hd' : d' < D) (hh' : h' < H) (hw' : w' < W)
    (heq : mb * (D * H * W * C) + d * (H * W * C) + h * (W * C) + w * C + c =
      mb' * (D * H * W * C) + d' * (H * W * C) + h' * (W * C) + w' * C + c') :
    mb = mb' ∧ c = c' ∧ d = d' ∧ h = h' ∧ w = w' := by
  have hnest : ∀ mb c d h w, mb * (D * H * W * C) + d * (H * W * C) + h * (W * C) + w * C + c =
      c + (w + (h + (d + mb * D) * H) * W) * C := by
    intro mb c d h w
    ring
  rw [hnest, hnest] at heq
  obtain ⟨rfl, heqW⟩ := add_mul_inj hc hc' heq
  obtain ⟨rfl, heqH⟩ := add_mul_inj hw hw' heqW
  obtain ⟨rfl, heqD⟩ := add_mul_inj hh hh' heqH
  obtain ⟨rfl, rfl⟩ := add_mul_inj hd hd' heqD
  exact ⟨rfl, rfl, rfl, rfl, rfl⟩

theorem separates_nchw_src (pd : PoolingPd) : pd.Separates pd.image (NchwPooling.srcOff pd) := by
  intro mb c i mb' c' i' hi hi' heq
  obtain ⟨hid, hih, hiw⟩ := mem_image.mp hi.pos
  obtain ⟨hid', hih', hiw'⟩ := mem_image.mp hi'.pos
  obtain ⟨hmb, hc, h1, h2, h3⟩ := nchw_inj hi.c hid hih hiw hi'.c hid' hih' hiw' heq
  exact ⟨hmb, hc, Prod.ext h1 (Prod.ext h2 h3)⟩

theorem separates_nchw_dst (pd : PoolingPd) : pd.Separates pd.windows (NchwPooling.dstOff pd) := by
  intro mb c o mb' c' o' ho ho' heq
  obtain ⟨hod, hoh, how⟩ := mem_windows.mp ho.pos
  obtain ⟨hod', hoh', how'⟩ := mem_windows.mp ho'.pos
  obtain ⟨hmb, hc, h1, h2, h3⟩ := nchw_inj ho.c hod hoh how ho'.c hod' hoh' how' heq
  exact ⟨hmb, hc, Prod.ext h1 (Prod.ext h2 h3)⟩

/-- The depth has one element in a problem of two dimensions, so that its stride does not matter. -/
theorem stridedOffset_eq {C D H W mb d i w : ℕ} (hd : pd.ndims ≠ 5 → d = 0) :
    NhwcPooling.stridedOffset (NhwcPooling.readStrides pd C D H W) mb d i w =
      mb * (D * H * W * C) + d * (H * W * C) + i * (W * C) + w * C := by
  unfold NhwcPooling.stridedOffset NhwcPooling.readStrides is3d
  by_cases hn : pd.ndims = 5
  · simp [hn]
  · have hzero := hd hn
    simp [hn, hzero]

theorem Accepted.separates_nhwc_src (h : pd.Accepted) : pd.Separates pd.image (NhwcPooling.srcOff pd) := by
  intro mb c i mb' c' i' hi hi' heq
  obtain ⟨hid, hih, hiw⟩ := mem_image.mp hi.pos
  obtain ⟨hid', hih', hiw'⟩ := mem_image.mp hi'.pos
  have hD : ∀ {n}, n < pd.d.i → pd.ndims ≠ 5 → n = 0 := by
    intro n hlt hn
    rw [h.lower_rank.1 hn] at hlt
    exact Nat.lt_one_iff.mp hlt
  unfold NhwcPooling.srcOff at heq
  rw [stridedOffset_eq (hD hid), stridedOffset_eq (hD hid')] at heq
  obtain ⟨hmb, hc, h1, h2, h3⟩ := nhwc_inj hi.c hid hih hiw hi'.c hid' hih' hiw' heq
  exact ⟨hmb, hc, Prod.ext h1 (Prod.ext h2 h3)⟩

theorem Accepted.separates_nhwc_dst (h : pd.Accepted) : pd.Separates pd.windows (NhwcPooling.dstOff pd) := by
  intro mb c o mb' c' o' ho ho' heq
  obtain ⟨hod, hoh, how⟩ := mem_windows.mp ho.pos
  obtain ⟨hod', hoh', how'⟩ := mem_windows.mp ho'.pos
  have hD : ∀ {n}, n < pd.d.o → pd.ndims ≠ 5 → n = 0 := by
    intro n hlt hn
    rw [h.lower_rank.1 hn] at hlt
    exact Nat.lt_one_iff.mp hlt
  unfold NhwcPooling.dstOff at heq
  rw [stridedOffset_eq (hD hod), stridedOffset_eq (hD hod')] at heq
  obtain ⟨hmb, hc, h1, h2, h3⟩ := nhwc_inj ho.c hod hoh how ho'.c hod' hoh' how' heq
  exact ⟨hmb, hc, Prod.ext h1 (Prod.ext h2 h3)⟩

/-! ## The implementation for `nchw` -/

section Nchw

variable {R : Type*} [Field R]

/-- What the forward pass leaves in an output. -/
theorem nchw_forward [LinearOrder R] (lowest : R) (src dst : ℕ → R) {mb c : ℕ} {o : ℕ × ℕ × ℕ}
    (ho : pd.InTensor pd.windows mb c o) :
    applyWrites (NchwPooling.executeForward pd lowest src) dst (NchwPooling.dstOff pd mb c o.1 o.2.1 o.2.2) =
      if pd.alg = .max then
        (NchwPooling.kerMax pd (fun id ih iw => src (NchwPooling.srcOff pd mb c id ih iw)) (lowest, 0) o.1 o.2.1 o.2.2).1
      else NchwPooling.kerAvg pd (fun id ih iw => src (NchwPooling.srcOff pd mb c id ih iw)) o.1 o.2.1 o.2.2 :=
  applyWrites_outputs (separates_nchw_dst pd) _ dst ho

omit [Field R] in
theorem nchw_forwardWs [LinearOrder R] (lowest : R) (src : ℕ → R) (ws : ℕ → ℕ) {mb c : ℕ} {o : ℕ × ℕ × ℕ}
    (ho : pd.InTensor pd.windows mb c o) :
    applyWrites (NchwPooling.executeForwardWs pd lowest src) ws (NchwPooling.dstOff pd mb c o.1 o.2.1 o.2.2) =
      (NchwPooling.kerMax pd (fun id ih iw => src (NchwPooling.srcOff pd mb c id ih iw)) (lowest, 0) o.1 o.2.1 o.2.2).2 :=
  applyWrites_outputs (separates_nchw_dst pd) _ ws ho

/-- What the backward pass leaves in an element of the image. -/
theorem Accepted.nchw_backward_avg (h : pd.Accepted) (halg : pd.alg ≠ .max) (diffDst : ℕ → R) (ws : ℕ → ℕ) (m : ℕ → R)
    {mb c : ℕ} {i : ℕ × ℕ × ℕ} (hi : pd.InTensor pd.image mb c i) :
    execAll (NchwPooling.executeBackward pd diffDst ws) m (NchwPooling.srcOff pd mb c i.1 i.2.1 i.2.2) =
      pd.avgGradient (fun od oh ow => diffDst (NchwPooling.dstOff pd mb c od oh ow)) i :=
  h.regular.execAll_scatterImages_avg halg (fun _ o => Axis.startOffset_eq o) (separates_nchw_src pd) m hi

theorem Accepted.nchw_backward_max (h : pd.Accepted) (halg : pd.alg = .max) (diffDst : ℕ → R) {ws : ℕ → ℕ}
    {mb c : ℕ} (hws : ∀ o ∈ pd.windows, ws (NchwPooling.dstOff pd mb c o.1 o.2.1 o.2.2) < pd.d.k * pd.h.k * pd.w.k)
    (m : ℕ → R) {i : ℕ × ℕ × ℕ} (hi : pd.InTensor pd.image mb c i) :
    execAll (NchwPooling.executeBackward pd diffDst ws) m (NchwPooling.srcOff pd mb c i.1 i.2.1 i.2.2) =
      pd.maxGradient (fun od oh ow => diffDst (NchwPooling.dstOff pd mb c od oh ow))
        (fun od oh ow => ws (NchwPooling.dstOff pd mb c od oh ow)) i :=
  h.regular.execAll_scatterImages_max halg (fun _ o => Axis.startOffset_eq o) (separates_nchw_src pd) hws m hi

end Nchw

end PoolingPd

end MklDnn

/-!
## Proofs: one window, forward

The implementations take the maximum and the average of a window in the same way, up to the order of the checks and the way in
which the summands are counted.
-/

open LoopNest Interleaving

namespace MklDnn

open Pooling

variable {R : Type*} {pd : PoolingPd}

/-! ## The maximum -/

section Max

variable [LinearOrder R]

/-- The reference leaves a loop where the others go through it without a change. -/
theorem RefPooling.kerMax_eq (x : ℕ → ℕ → ℕ → R) (st : R × ℕ) (od oh ow : ℕ) :
    RefPooling.kerMax pd x st od oh ow = NchwPooling.kerMax pd x st od oh ow := by
  have hindex : ∀ kd kh kw, pd.tapIndex kd kh kw = kd * pd.h.k * pd.w.k + kh * pd.w.k + kw := by
    intro kd kh kw
    unfold PoolingPd.tapIndex
    ring
  unfold RefPooling.kerMax NchwPooling.kerMax
  simp only [hindex]
  congr 1
  funext st kd
  by_cases hd : pd.d.Outside (pd.d.tap od kd)
  · simp only [if_pos hd, List.foldl_fixed]
  rw [if_neg hd]
  congr 1
  funext st kh
  by_cases hh : pd.h.Outside (pd.h.tap oh kh)
  · simp only [if_neg hd, if_pos hh, List.foldl_fixed]
  · simp only [if_neg hd, if_neg hh]

theorem NhwcPooling.arrayNhwcMax_eq (st : R × ℕ) (s : R) (index : ℕ) :
    NhwcPooling.arrayNhwcMax pd st s index = if st.1 < s then (s, pd.storeIndex index) else st := by
  unfold NhwcPooling.arrayNhwcMax
  by_cases h : st.1 < s
  · rw [if_pos h, if_pos h, max_eq_left h.le]
  · rw [if_neg h, if_neg h, max_eq_right (not_lt.mp h)]

theorem NhwcPooling.kerMax_eq (x : ℕ → ℕ → ℕ → R) (st : R × ℕ) (od oh ow : ℕ) :
    NhwcPooling.kerMax pd x st od oh ow = NchwPooling.kerMax pd x st od oh ow := by
  unfold NhwcPooling.kerMax NchwPooling.kerMax
  simp only [arrayNhwcMax_eq]

namespace PoolingPd

theorem storeIndex_le (index : ℕ) : pd.storeIndex index ≤ index := by
  unfold storeIndex
  split_ifs
  · exact Nat.mod_le index 256
  · exact le_rfl

/-- The workspace holds the index of a tap. -/
theorem kerMax_lt (x : ℕ → ℕ → ℕ → R) {st : R × ℕ} (hst : st.2 < pd.d.k * pd.h.k * pd.w.k) (od oh ow : ℕ) :
    (NchwPooling.kerMax pd x st od oh ow).2 < pd.d.k * pd.h.k * pd.w.k := by
  unfold NchwPooling.kerMax
  refine List.foldlRecOn (motive := fun st : R × ℕ => st.2 < pd.d.k * pd.h.k * pd.w.k) _ _ hst fun st hst kd hkd => ?_
  refine List.foldlRecOn (motive := fun st : R × ℕ => st.2 < pd.d.k * pd.h.k * pd.w.k) _ _ hst fun st hst kh hkh => ?_
  refine List.foldlRecOn (motive := fun st : R × ℕ => st.2 < pd.d.k * pd.h.k * pd.w.k) _ _ hst fun st hst kw hkw => ?_
  rw [List.mem_range] at hkd hkh hkw
  dsimp only
  split_ifs
  · exact hst
  · exact hst
  · exact hst
  · refine lt_of_le_of_lt (storeIndex_le _) ?_
    have hrow : kh + kd * pd.h.k < pd.d.k * pd.h.k := add_mul_lt hkh hkd
    calc kd * pd.h.k * pd.w.k + kh * pd.w.k + kw = kw + (kh + kd * pd.h.k) * pd.w.k := by ring
      _ < pd.d.k * pd.h.k * pd.w.k := add_mul_lt hkw hrow
  · exact hst

end PoolingPd

end Max

/-! ## The average -/

section Average

variable [Field R]

theorem foldl_sum_count {ι : Type*} (l : List ι) (f : ι → R) (st : R × ℕ) :
    l.foldl (fun st i => (st.1 + f i, st.2 + 1)) st = (st.1 + (l.map f).sum, st.2 + l.length) := by
  induction l generalizing st with
  | nil => simp
  | cons i l ih =>
    rw [List.foldl_cons, ih, List.map_cons, List.sum_cons, List.length_cons, add_assoc]
    congr 1
    omega

theorem length_nested (ds hs ws : List ℤ) : (nested ds hs ws).length = ds.length * (hs.length * ws.length) := by
  simp [nested, List.length_flatMap]

theorem length_intLoop (start stop : ℤ) : (intLoop start stop).length = (stop - start).toNat := by
  simp [intLoop]

/-- The summands that are counted are the product of the extents of the clipped window. -/
theorem NhwcPooling.kerAvg_eq (x : ℕ → ℕ → ℕ → R) (od oh ow : ℕ) :
    NhwcPooling.kerAvg pd x od oh ow = pd.kerAvgFwd Axis.startOffset x od oh ow := by
  have hvisits : NhwcPooling.visits pd od oh ow = nested (intLoop (pd.d.startOffset od) (pd.d.stop od))
      (intLoop (pd.h.startOffset oh) (pd.h.stop oh)) (intLoop (pd.w.startOffset ow) (pd.w.stop ow)) := rfl
  unfold NhwcPooling.kerAvg PoolingPd.kerAvgFwd
  rw [foldl_sum_count, hvisits, zero_add, zero_add,
    sum_map_nested _ _ _ fun id ih iw => x id.toNat ih.toNat iw.toNat, length_nested]
  simp only [length_intLoop, sum_map_intLoop]
  unfold PoolingPd.numSummands
  by_cases halg : pd.alg = .avgIncludePadding
  · rw [if_pos halg, if_pos halg]
    push_cast
    rfl
  rw [if_neg halg, if_neg halg]
  -- a window without elements has the sum zero
  by_cases hd : pd.d.startOffset od ≤ pd.d.stop od
  · by_cases hh : pd.h.startOffset oh ≤ pd.h.stop oh
    · by_cases hw : pd.w.startOffset ow ≤ pd.w.stop ow
      · congr 1
        rw [← Int.cast_natCast]
        congr 1
        push_cast
        rw [Int.toNat_of_nonneg (sub_nonneg.mpr hd), Int.toNat_of_nonneg (sub_nonneg.mpr hh),
          Int.toNat_of_nonneg (sub_nonneg.mpr hw), mul_assoc]
      · simp [Finset.Ico_eq_empty_of_le (not_le.mp hw).le]
    · simp [Finset.Ico_eq_empty_of_le (not_le.mp hh).le]
  · simp [Finset.Ico_eq_empty_of_le (not_le.mp hd).le]

end Average

end MklDnn
