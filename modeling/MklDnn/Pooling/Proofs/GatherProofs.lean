import MklDnn.Pooling.Proofs.PlainPoolingProofs

/-!
# Proofs: gathering the gradients

The loops that gather run over the outputs whose windows may cover an element of the image. What they leave in the element is
what the loops that scatter leave there.
-/

open LoopNest Interleaving

namespace MklDnn

open Pooling

/-! ## Loops with a choice -/

section Folds

variable {ι M : Type*} [AddCommMonoid M] {p : ι → Prop} [DecidablePred p]

theorem foldl_ite_add (l : List ι) (f : ι → M) (v : M) :
    l.foldl (fun v x => if p x then v + f x else v) v = v + (l.map fun x => if p x then f x else 0).sum := by
  induction l generalizing v with
  | nil => simp
  | cons x l ih =>
    rw [List.foldl_cons, ih, List.map_cons, List.sum_cons]
    by_cases hx : p x
    · rw [if_pos hx, if_pos hx, add_assoc]
    · rw [if_neg hx, if_neg hx, zero_add]

omit [AddCommMonoid M] in
theorem foldl_ite_of_not {l : List ι} (h : ∀ x ∈ l, ¬ p x) (f : ι → M) (v : M) :
    l.foldl (fun v x => if p x then f x else v) v = v := by
  induction l with
  | nil => rfl
  | cons x l ih =>
    rw [List.foldl_cons, if_neg (h x List.mem_cons_self)]
    exact ih fun y hy => h y (List.mem_cons_of_mem x hy)

/-- An assignment in place of an addition, if there is at most one. -/
theorem foldl_ite_set {l : List ι} (h : l.Pairwise fun x y => ¬ (p x ∧ p y)) (f : ι → M) :
    l.foldl (fun v x => if p x then f x else v) 0 = (l.map fun x => if p x then f x else 0).sum := by
  induction l with
  | nil => rfl
  | cons x l ih =>
    obtain ⟨hx, hl⟩ := List.pairwise_cons.mp h
    rw [List.foldl_cons, List.map_cons, List.sum_cons]
    by_cases hpx : p x
    · have hnone : ∀ y ∈ l, ¬ p y := fun y hy hpy => hx y hy ⟨hpx, hpy⟩
      have hzero : (l.map fun x => if p x then f x else 0).sum = 0 := by
        apply List.sum_eq_zero
        intro z hz
        obtain ⟨y, hy, rfl⟩ := List.mem_map.mp hz
        exact if_neg (hnone y hy)
      rw [if_pos hpx, foldl_ite_of_not hnone, hzero, add_zero]
    · rw [if_neg hpx, zero_add, ih hl]

end Folds

theorem nodup_intLoop (start stop : ℤ) : (intLoop start stop).Nodup := by
  unfold intLoop
  refine List.Nodup.map ?_ List.nodup_range
  intro i j hij
  have hij' : start + (i : ℤ) = start + (j : ℤ) := hij
  omega

theorem nodup_nested {ds hs ws : List ℤ} (hds : ds.Nodup) (hhs : hs.Nodup) (hws : ws.Nodup) : (nested ds hs ws).Nodup := by
  have hproduct : nested ds hs ws = ds ×ˢ (hs ×ˢ ws) := by
    simp only [nested, SProd.sprod, List.product, List.map_flatMap, List.map_map]
    rfl
  rw [hproduct]
  exact hds.product (hhs.product hws)

namespace PoolingPd

variable {pd : PoolingPd}

/-! ## The index of a tap -/

/-- The index of the workspace is the index of the tap that falls on the element. -/
theorem indexHits_iff {od oh ow : ℤ} {index : ℕ} {i : ℕ × ℕ × ℕ} (hindex : index < pd.d.k * pd.h.k * pd.w.k) :
    pd.IndexHits od oh ow index i ↔ pd.Covers od oh ow i ∧
      (index : ℤ) = (i.1 - od * pd.d.s + pd.d.pad) * pd.h.k * pd.w.k + (i.2.1 - oh * pd.h.s + pd.h.pad) * pd.w.k +
        (i.2.2 - ow * pd.w.s + pd.w.pad) := by
  constructor
  · intro hhit
    refine ⟨hhit.covers hindex, ?_⟩
    obtain ⟨h1, h2, h3⟩ := hhit
    unfold indexTap Axis.tap at h1 h2 h3
    dsimp only at h1 h2 h3
    have hd : (i.1 : ℤ) - od * pd.d.s + pd.d.pad = ↑(index / pd.w.k / pd.h.k) := by
      rw [← h1]
      ring
    have hh : (i.2.1 : ℤ) - oh * pd.h.s + pd.h.pad = ↑(index / pd.w.k % pd.h.k) := by
      rw [← h2]
      ring
    have hw : (i.2.2 : ℤ) - ow * pd.w.s + pd.w.pad = ↑(index % pd.w.k) := by
      rw [← h3]
      ring
    rw [hd, hh, hw]
    have hsplit : index / pd.w.k / pd.h.k * pd.h.k * pd.w.k + index / pd.w.k % pd.h.k * pd.w.k + index % pd.w.k = index := by
      rw [← add_mul, Nat.div_add_mod', Nat.div_add_mod']
    exact_mod_cast hsplit.symm
  · rintro ⟨⟨⟨hd, hd'⟩, ⟨hh, hh'⟩, ⟨hw, hw'⟩⟩, heq⟩
    obtain ⟨kd, hkd⟩ := Int.eq_ofNat_of_zero_le (show 0 ≤ (i.1 : ℤ) - od * pd.d.s + pd.d.pad by omega)
    obtain ⟨kh, hkh⟩ := Int.eq_ofNat_of_zero_le (show 0 ≤ (i.2.1 : ℤ) - oh * pd.h.s + pd.h.pad by omega)
    obtain ⟨kw, hkw⟩ := Int.eq_ofNat_of_zero_le (show 0 ≤ (i.2.2 : ℤ) - ow * pd.w.s + pd.w.pad by omega)
    rw [hkd, hkh, hkw] at heq
    have hkh' : kh < pd.h.k := by omega
    have hkw' : kw < pd.w.k := by omega
    have hnat : index = kw + pd.w.k * (kh + pd.h.k * kd) := by
      have hcast : (index : ℤ) = ((kw + pd.w.k * (kh + pd.h.k * kd) : ℕ) : ℤ) := by
        rw [heq]
        push_cast
        ring
      exact_mod_cast hcast
    have hrow : index / pd.w.k = kh + pd.h.k * kd := by
      rw [hnat, Nat.add_mul_div_left _ _ (by omega), Nat.div_eq_of_lt hkw', zero_add]
    unfold IndexHits indexTap Axis.tap
    dsimp only
    rw [hrow, Nat.add_mul_div_left _ _ (by omega), Nat.div_eq_of_lt hkh', zero_add, Nat.add_mul_mod_self_left,
      Nat.mod_eq_of_lt hkh', hnat, Nat.add_mul_mod_self_left, Nat.mod_eq_of_lt hkw']
    omega

/-! ## An element of the image -/

section Gather

variable {R : Type*} [Field R] {diffDst : ℕ → R} {ws : ℕ → ℕ} {mb : ℕ} {i : ℕ × ℕ × ℕ}

/-- The tap of the window lies in the kernel. -/
theorem covers_iff {od oh ow : ℤ} : pd.Covers od oh ow i ↔
    ¬ ((i.1 : ℤ) - od * pd.d.s + pd.d.pad < 0 ∨ (pd.d.k : ℤ) ≤ i.1 - od * pd.d.s + pd.d.pad) ∧
      ¬ ((i.2.1 : ℤ) - oh * pd.h.s + pd.h.pad < 0 ∨ (pd.h.k : ℤ) ≤ i.2.1 - oh * pd.h.s + pd.h.pad) ∧
        ¬ ((i.2.2 : ℤ) - ow * pd.w.s + pd.w.pad < 0 ∨ (pd.w.k : ℤ) ≤ i.2.2 - ow * pd.w.s + pd.w.pad) := by
  unfold Covers Axis.Covers
  omega

/-- What the iteration for an element does for one output. -/
def gatherOutput (pd : PoolingPd) (diffDst : ℕ → R) (ws : ℕ → ℕ) (mb : ℕ) (i : ℕ × ℕ × ℕ) (o : ℤ × ℤ × ℤ) (oc : ℕ) :
    Assign ℕ R :=
  let value := NhwcPooling.contribution pd diffDst ws mb i.1 i.2.1 i.2.2 o.1 o.2.1 o.2.2 oc
  if !NhwcPooling.disjointWindows pd then Assign.add (NhwcPooling.srcOff pd mb oc i.1 i.2.1 i.2.2) value
  else Assign.set (NhwcPooling.srcOff pd mb oc i.1 i.2.1 i.2.2) value

theorem gather_eq : NhwcPooling.gather pd diffDst ws mb i.1 i.2.1 i.2.2 =
    ((List.range pd.C).map fun oc => Assign.set (NhwcPooling.srcOff pd mb oc i.1 i.2.1 i.2.2) 0) ++
      (NhwcPooling.candidates pd i.1 i.2.1 i.2.2).flatMap fun o =>
        if pd.Covers o.1 o.2.1 o.2.2 i then (List.range pd.C).map (pd.gatherOutput diffDst ws mb i o) else [] := by
  unfold NhwcPooling.gather
  congr 2
  funext o
  dsimp only
  by_cases hcov : pd.Covers o.1 o.2.1 o.2.2 i
  · obtain ⟨hd, hh, hw⟩ := covers_iff.mp hcov
    rw [if_neg hd, if_neg hh, if_neg hw, if_pos hcov]
    rfl
  · rw [if_neg hcov]
    have hnot := mt covers_iff.mpr hcov
    by_cases hd : (i.1 : ℤ) - o.1 * pd.d.s + pd.d.pad < 0 ∨ (pd.d.k : ℤ) ≤ i.1 - o.1 * pd.d.s + pd.d.pad
    · rw [if_pos hd]
    by_cases hh : (i.2.1 : ℤ) - o.2.1 * pd.h.s + pd.h.pad < 0 ∨ (pd.h.k : ℤ) ≤ i.2.1 - o.2.1 * pd.h.s + pd.h.pad
    · rw [if_neg hd, if_pos hh]
    by_cases hw : (i.2.2 : ℤ) - o.2.2 * pd.w.s + pd.w.pad < 0 ∨ (pd.w.k : ℤ) ≤ i.2.2 - o.2.2 * pd.w.s + pd.w.pad
    · rw [if_neg hd, if_neg hh, if_pos hw]
    · exact absurd ⟨hd, hh, hw⟩ hnot

theorem dst_gatherOutput (o : ℤ × ℤ × ℤ) (oc : ℕ) :
    (pd.gatherOutput diffDst ws mb i o oc).dst = NhwcPooling.srcOff pd mb oc i.1 i.2.1 i.2.2 := by
  unfold gatherOutput
  dsimp only
  split_ifs <;> rfl

theorem mem_gather {e : Assign ℕ R} (he : e ∈ NhwcPooling.gather pd diffDst ws mb i.1 i.2.1 i.2.2) :
    e.Local ∧ ∃ c < pd.C, e.dst = NhwcPooling.srcOff pd mb c i.1 i.2.1 i.2.2 := by
  rw [gather_eq, List.mem_append] at he
  rcases he with he | he
  · obtain ⟨c, hc, rfl⟩ := List.mem_map.mp he
    exact ⟨Assign.local_set _ _, c, List.mem_range.mp hc, rfl⟩
  · obtain ⟨o, -, he⟩ := List.mem_flatMap.mp he
    split_ifs at he
    · obtain ⟨c, hc, rfl⟩ := List.mem_map.mp he
      refine ⟨?_, c, List.mem_range.mp hc, dst_gatherOutput o c⟩
      unfold gatherOutput
      dsimp only
      split_ifs
      · exact Assign.local_add _ _
      · exact Assign.local_set _ _
    · cases he

/-- Only the iteration for an element assigns to it. -/
theorem Accepted.execAll_gather (h : pd.Accepted) (m : ℕ → R) {c : ℕ} (hi : pd.InTensor pd.image mb c i) :
    execAll (NhwcPooling.executeBackward pd diffDst ws) m (NhwcPooling.srcOff pd mb c i.1 i.2.1 i.2.2) =
      trace (NhwcPooling.srcOff pd mb c i.1 i.2.1 i.2.2) (NhwcPooling.gather pd diffDst ws mb i.1 i.2.1 i.2.2)
        (m (NhwcPooling.srcOff pd mb c i.1 i.2.1 i.2.2)) := by
  obtain ⟨hid, hih, hiw⟩ := mem_image.mp hi.pos
  have hother : ∀ mb' < pd.MB, ∀ id < pd.d.i, ∀ ih < pd.h.i, ∀ iw < pd.w.i, (mb' ≠ mb ∨ (id, ih, iw) ≠ i) →
      ∀ e ∈ NhwcPooling.gather pd diffDst ws mb' id ih iw, e.dst ≠ NhwcPooling.srcOff pd mb c i.1 i.2.1 i.2.2 := by
    intro mb' hmb' id hid ih hih iw hiw hne e he heq
    obtain ⟨-, c', hc', hdst⟩ := mem_gather (i := (id, ih, iw)) he
    obtain ⟨rfl, -, rfl⟩ := h.separates_nhwc_src (i := (id, ih, iw)) ⟨hmb', hc', mem_image.mpr ⟨hid, hih, hiw⟩⟩ hi
      (hdst.symm.trans heq)
    rcases hne with hne | hne
    · exact hne rfl
    · exact hne rfl
  have hlocal : ∀ e ∈ NhwcPooling.executeBackward pd diffDst ws, e.Local := by
    intro e he
    unfold NhwcPooling.executeBackward at he
    obtain ⟨mb, -, he⟩ := List.mem_flatMap.mp he
    obtain ⟨id, -, he⟩ := List.mem_flatMap.mp he
    obtain ⟨ih, -, he⟩ := List.mem_flatMap.mp he
    obtain ⟨iw, -, he⟩ := List.mem_flatMap.mp he
    exact (mem_gather (i := (id, ih, iw)) he).1
  rw [execAll_eq_trace hlocal]
  unfold NhwcPooling.executeBackward
  rw [trace_flatMap_of_unique List.nodup_range (List.mem_range.mpr hi.mb),
    trace_flatMap_of_unique List.nodup_range (List.mem_range.mpr hid),
    trace_flatMap_of_unique List.nodup_range (List.mem_range.mpr hih),
    trace_flatMap_of_unique List.nodup_range (List.mem_range.mpr hiw)]
  · intro iw hiw hne e he
    refine hother mb hi.mb _ hid _ hih iw (List.mem_range.mp hiw) (Or.inr fun heq => hne ?_) e he
    rw [← heq]
  · intro ih hih hne e he
    obtain ⟨iw, hiw, he⟩ := List.mem_flatMap.mp he
    refine hother mb hi.mb _ hid ih (List.mem_range.mp hih) iw (List.mem_range.mp hiw) (Or.inr fun heq => hne ?_) e he
    rw [← heq]
  · intro id hid hne e he
    obtain ⟨ih, hih, he⟩ := List.mem_flatMap.mp he
    obtain ⟨iw, hiw, he⟩ := List.mem_flatMap.mp he
    refine hother mb hi.mb id (List.mem_range.mp hid) ih (List.mem_range.mp hih) iw (List.mem_range.mp hiw)
      (Or.inr fun heq => hne ?_) e he
    rw [← heq]
  · intro mb' hmb' hne e he
    obtain ⟨id, hid, he⟩ := List.mem_flatMap.mp he
    obtain ⟨ih, hih, he⟩ := List.mem_flatMap.mp he
    obtain ⟨iw, hiw, he⟩ := List.mem_flatMap.mp he
    exact hother mb' (List.mem_range.mp hmb') id (List.mem_range.mp hid) ih (List.mem_range.mp hih) iw
      (List.mem_range.mp hiw) (Or.inl hne) e he

/-- With disjoint windows, at most one of the outputs covers the element. -/
theorem covers_unique (hdisj : NhwcPooling.disjointWindows pd = true) {o o' : ℤ × ℤ × ℤ} (ho : pd.Covers o.1 o.2.1 o.2.2 i)
    (ho' : pd.Covers o'.1 o'.2.1 o'.2.2 i) : o = o' := by
  have haxis : ∀ {a : Axis}, a.k = a.s → ∀ {o o' x : ℤ}, a.Covers o x → a.Covers o' x → o = o' := by
    intro a hk o o' x ⟨hlow, hhigh⟩ ⟨hlow', hhigh'⟩
    have hlt : o * a.s < (o' + 1) * a.s := by
      rw [add_mul, one_mul]
      omega
    have hlt' : o' * a.s < (o + 1) * a.s := by
      rw [add_mul, one_mul]
      omega
    have hpos : (0 : ℤ) ≤ a.s := Int.natCast_nonneg _
    have h1 := lt_of_mul_lt_mul_right hlt hpos
    have h2 := lt_of_mul_lt_mul_right hlt' hpos
    omega
  unfold NhwcPooling.disjointWindows at hdisj
  simp only [Bool.and_eq_true, decide_eq_true_eq] at hdisj
  obtain ⟨⟨hd, hh⟩, hw⟩ := hdisj
  exact Prod.ext (haxis hd ho.1 ho'.1) (Prod.ext (haxis hh ho.2.1 ho'.2.1) (haxis hw ho.2.2 ho'.2.2))

/-- The iteration for an element, whether it adds or assigns. -/
theorem Accepted.trace_gather (h : pd.Accepted) {c : ℕ} (hi : pd.InTensor pd.image mb c i) (v : R) :
    trace (NhwcPooling.srcOff pd mb c i.1 i.2.1 i.2.2) (NhwcPooling.gather pd diffDst ws mb i.1 i.2.1 i.2.2) v =
      ((NhwcPooling.candidates pd i.1 i.2.1 i.2.2).map fun o => if pd.Covers o.1 o.2.1 o.2.2 i then
        NhwcPooling.contribution pd diffDst ws mb i.1 i.2.1 i.2.2 o.1 o.2.1 o.2.2 c else 0).sum := by
  have hchannel : ∀ oc ∈ List.range pd.C, oc ≠ c →
      NhwcPooling.srcOff pd mb oc i.1 i.2.1 i.2.2 ≠ NhwcPooling.srcOff pd mb c i.1 i.2.1 i.2.2 := by
    intro oc hoc hne heq
    exact hne (h.separates_nhwc_src ⟨hi.mb, List.mem_range.mp hoc, hi.pos⟩ hi heq).2.1
  have hzero : trace (NhwcPooling.srcOff pd mb c i.1 i.2.1 i.2.2)
      ((List.range pd.C).map fun oc => Assign.set (NhwcPooling.srcOff pd mb oc i.1 i.2.1 i.2.2) (0 : R)) v = 0 :=
    trace_map_of_unique (f := fun oc => Assign.set (NhwcPooling.srcOff pd mb oc i.1 i.2.1 i.2.2) (0 : R)) List.nodup_range
      (List.mem_range.mpr hi.c) rfl hchannel v
  have houtput : ∀ (o : ℤ × ℤ × ℤ) (v : R), trace (NhwcPooling.srcOff pd mb c i.1 i.2.1 i.2.2)
      (if pd.Covers o.1 o.2.1 o.2.2 i then (List.range pd.C).map (pd.gatherOutput diffDst ws mb i o) else []) v =
        if pd.Covers o.1 o.2.1 o.2.2 i then (pd.gatherOutput diffDst ws mb i o c).value fun _ => v else v := by
    intro o v
    split_ifs
    · refine trace_map_of_unique List.nodup_range (List.mem_range.mpr hi.c) (dst_gatherOutput o c) ?_ v
      intro oc hoc hne
      rw [dst_gatherOutput]
      exact hchannel oc hoc hne
    · rfl
  rw [gather_eq, trace_append, hzero, trace_flatMap]
  simp only [houtput]
  unfold gatherOutput
  cases hdisj : NhwcPooling.disjointWindows pd with
  | false =>
    refine (foldl_ite_add (p := fun o : ℤ × ℤ × ℤ => pd.Covers o.1 o.2.1 o.2.2 i) _
      (fun o => NhwcPooling.contribution pd diffDst ws mb i.1 i.2.1 i.2.2 o.1 o.2.1 o.2.2 c) 0).trans ?_
    exact zero_add _
  | true =>
    refine foldl_ite_set (p := fun o : ℤ × ℤ × ℤ => pd.Covers o.1 o.2.1 o.2.2 i) ?_
      (fun o => NhwcPooling.contribution pd diffDst ws mb i.1 i.2.1 i.2.2 o.1 o.2.1 o.2.2 c)
    have hnodup : (NhwcPooling.candidates pd i.1 i.2.1 i.2.2).Nodup :=
      nodup_nested (nodup_intLoop _ _) (nodup_intLoop _ _) (nodup_intLoop _ _)
    refine hnodup.pairwise_of_forall_ne fun o _ o' _ hne hboth => ?_
    exact hne (covers_unique hdisj hboth.1 hboth.2)

/-- What the backward pass leaves in an element of the image. -/
theorem Accepted.nhwc_backward (h : pd.Accepted) (m : ℕ → R) {c : ℕ} (hi : pd.InTensor pd.image mb c i) :
    execAll (NhwcPooling.executeBackward pd diffDst ws) m (NhwcPooling.srcOff pd mb c i.1 i.2.1 i.2.2) =
      ∑ o ∈ pd.windows, if pd.Covers o.1 o.2.1 o.2.2 i then
        NhwcPooling.contribution pd diffDst ws mb i.1 i.2.1 i.2.2 o.1 o.2.1 o.2.2 c else 0 := by
  have hreg := h.regular
  have hd := Axis.encloses_oLeft hreg.d.1 i.1
  have hh := Axis.encloses_oLeft hreg.h.1 i.2.1
  have hw := Axis.encloses_oLeft hreg.w.1 i.2.2
  rw [h.execAll_gather m hi, h.trace_gather hi, ← sum_nested_covers hd hh hw fun od oh ow =>
    NhwcPooling.contribution pd diffDst ws mb i.1 i.2.1 i.2.2 od oh ow c]
  congr 1
  refine List.map_congr_left fun o ho => ?_
  obtain ⟨hod, hoh, how⟩ := mem_nested.mp ho
  rw [mem_intLoop] at hod hoh how
  rw [Int.toNat_of_nonneg (hd.nonneg.trans hod.1), Int.toNat_of_nonneg (hh.nonneg.trans hoh.1),
    Int.toNat_of_nonneg (hw.nonneg.trans how.1)]

theorem Accepted.nhwc_backward_avg (h : pd.Accepted) (halg : pd.alg ≠ .max) (m : ℕ → R) {c : ℕ}
    (hi : pd.InTensor pd.image mb c i) :
    execAll (NhwcPooling.executeBackward pd diffDst ws) m (NhwcPooling.srcOff pd mb c i.1 i.2.1 i.2.2) =
      pd.avgGradient (fun od oh ow => diffDst (NhwcPooling.dstOff pd mb c od oh ow)) i := by
  rw [h.nhwc_backward m hi]
  unfold avgGradient NhwcPooling.contribution
  simp only [if_neg halg, Int.toNat_natCast, numSummands_startOffset]

theorem Accepted.nhwc_backward_max (h : pd.Accepted) (halg : pd.alg = .max) (m : ℕ → R) {c : ℕ}
    (hws : ∀ o ∈ pd.windows, ws (NhwcPooling.dstOff pd mb c o.1 o.2.1 o.2.2) < pd.d.k * pd.h.k * pd.w.k)
    (hi : pd.InTensor pd.image mb c i) :
    execAll (NhwcPooling.executeBackward pd diffDst ws) m (NhwcPooling.srcOff pd mb c i.1 i.2.1 i.2.2) =
      pd.maxGradient (fun od oh ow => diffDst (NhwcPooling.dstOff pd mb c od oh ow))
        (fun od oh ow => ws (NhwcPooling.dstOff pd mb c od oh ow)) i := by
  rw [h.nhwc_backward m hi]
  unfold maxGradient
  refine Finset.sum_congr rfl fun o ho => ?_
  have hhits : pd.IndexHits o.1 o.2.1 o.2.2 _ i ↔ _ := indexHits_iff (hws o ho)
  unfold NhwcPooling.contribution
  simp only [if_pos halg, Int.toNat_natCast]
  rw [if_congr hhits rfl rfl, ite_and]

end Gather

end PoolingPd

end MklDnn
