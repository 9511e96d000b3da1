import Mathlib.Algebra.Order.BigOperators.Ring.Finset
import MklDnn.Common.Proofs.ThreadingProofs
import MklDnn.Memory.Proofs.FillBlockedProofs
import MklDnn.Memory.Proofs.ZeroPadBlkProofs
import MklDnn.Memory.ZeroPad

/-!
# Proofs: the generic zero padding routine

The routine runs through the padded area in row-major order, one step for each index of the leading
dimensions. What it sets to zero are the offsets of the padding positions.
-/

open LoopNest

namespace MklDnn

/-- The positions of the padded area that are not positions of the tensor. -/
def MemoryDesc.IsPadding (md : MemoryDesc) (pos : ℕ → ℕ) : Prop :=
  pos ∈ box md.paddedDims md.ndims ∧ ∃ d < md.ndims, md.dims d ≤ pos d

/-- The loop over the innermost dimensions stops behind the last dimension with padding. -/
theorem stepLoop_spec (dims pdims : ℕ → ℕ) (n step : ℕ) :
    ∃ k ≤ n, stepLoop dims pdims n step = (step * ∏ i ∈ Finset.Ico k n, dims i, k) ∧
      ∀ i, k ≤ i → i < n → dims i = pdims i := by
  induction n generalizing step with
  | zero => exact ⟨0, le_rfl, by simp [stepLoop], by omega⟩
  | succ n ih =>
    by_cases h : dims n = pdims n
    · obtain ⟨k, hk, heq, hsame⟩ := ih (step * dims n)
      refine ⟨k, Nat.le_succ_of_le hk, ?_, fun i hki hi => ?_⟩
      · rw [stepLoop, if_neg (by simpa using h), heq, Finset.prod_Ico_succ_top hk,
          Nat.mul_assoc, Nat.mul_comm (dims n)]
      · rcases Nat.lt_succ_iff_lt_or_eq.mp hi with hi | rfl
        · exact hsame i hki hi
        · exact h
    · refine ⟨n + 1, le_rfl, ?_, fun i hki hi => absurd hi (by omega)⟩
      rw [stepLoop, if_pos h]
      simp

/-- `need_zero` tells whether the position of the index lies in the padding. -/
theorem needZero_iff (dims pdims : ℕ → ℕ) (k idx : ℕ) :
    needZero dims pdims k idx = true ↔ ∃ d < k, dims d ≤ rowMajor pdims k idx d := by
  induction k generalizing idx with
  | zero => simp [needZero]
  | succ k ih =>
    rw [needZero]
    split_ifs with h
    · refine iff_of_true rfl ⟨k, Nat.lt_succ_self k, ?_⟩
      simpa [rowMajor] using h
    · rw [ih]
      constructor
      · rintro ⟨d, hd, hle⟩
        refine ⟨d, Nat.lt_succ_of_lt hd, ?_⟩
        rwa [rowMajor, Function.update_of_ne hd.ne]
      · rintro ⟨d, hd, hle⟩
        by_cases hdk : d = k
        · subst hdk
          simp only [rowMajor, Function.update_self] at hle
          exact absurd hle h
        · rw [rowMajor, Function.update_of_ne hdk] at hle
          exact ⟨d, by omega, hle⟩

theorem mem_flatMap_parallelNd1 {α : Type*} {nthr : ℕ} (hnthr : 0 < nthr) {n : ℕ} {f : ℕ → List α}
    {y : α} : y ∈ (parallelNd nthr [n]).flatMap (fun xs => f (xs.headD 0)) ↔ ∃ i < n, y ∈ f i := by
  simp only [List.mem_flatMap, mem_parallelNd hnthr]
  constructor
  · rintro ⟨p, hp, hy⟩
    cases hp with
    | cons hx hxs => exact ⟨_, hx, hy⟩
  · rintro ⟨i, hi, hy⟩
    exact ⟨[i], List.Forall₂.cons hi List.Forall₂.nil, hy⟩

/-- The generic routine sets the padding to zero. -/
theorem mem_typedZeroPadGenericBlocked {md : MemoryDesc} {nthr : ℕ} (hnthr : 0 < nthr)
    (hnd : 0 < md.ndims) (hpos : ∀ d < md.ndims, 0 < md.paddedDims d) {y : ℤ} :
    y ∈ typedZeroPadGenericBlocked nthr md ↔ ∃ pos, md.IsPadding pos ∧ md.offV pos true = y := by
  obtain ⟨k, hk, hloop, hsame⟩ := stepLoop_spec md.dims md.paddedDims md.ndims 1
  have hstep : ∏ i ∈ Finset.Ico k md.ndims, md.dims i = ∏ i ∈ Finset.Ico k md.ndims, md.paddedDims i :=
    Finset.prod_congr rfl fun i hi => by
      rw [Finset.mem_Ico] at hi
      exact hsame i hi.1 hi.2
  set step := ∏ i ∈ Finset.Ico k md.ndims, md.paddedDims i with hstepdef
  have hstep0 : 0 < step := Finset.prod_pos fun i hi => hpos i (Finset.mem_Ico.mp hi).2
  have hnelems : md.nelems true = volume md.paddedDims k * step := by
    have hz : md.isZero = false := by simp [MemoryDesc.isZero]; omega
    simp only [MemoryDesc.nelems, hz, Bool.false_eq_true, if_false, if_true]
    exact volume_eq_mul hk
  have hquot : md.nelems true / step = volume md.paddedDims k := by
    rw [hnelems, Nat.mul_div_cancel _ hstep0]
  -- the position of an index, by its part in front of `step`
  have hpad : ∀ e1 < volume md.paddedDims k, ∀ e0 < step,
      (needZero md.dims md.paddedDims k e1 = true ↔
        md.IsPadding (rowMajor md.paddedDims md.ndims (e1 * step + e0))) := by
    intro e1 he1 e0 he0
    rw [needZero_iff]
    constructor
    · rintro ⟨d, hd, hdle⟩
      refine ⟨rowMajor_mem_box hpos _, d, by omega, ?_⟩
      rwa [rowMajor_mul_add hk hd e1 he0]
    · rintro ⟨hbox, d, hd, hdle⟩
      have hdk : d < k := by
        by_contra hkd
        have hlt := (mem_box.mp hbox).1 d hd
        rw [← hsame d (by omega) hd] at hlt
        omega
      rw [rowMajor_mul_add hk hdk e1 he0] at hdle
      exact ⟨d, hdk, hdle⟩
  unfold typedZeroPadGenericBlocked
  rw [hloop]
  simp only [Nat.one_mul, hstep, hquot]
  by_cases hk0 : k = 0
  · -- no dimension has padding
    rw [if_pos hk0]
    refine iff_of_false List.not_mem_nil ?_
    rintro ⟨pos, ⟨hbox, d, hd, hdle⟩, -⟩
    have hlt := (mem_box.mp hbox).1 d hd
    rw [← hsame d (by omega) hd] at hlt
    omega
  · rw [if_neg hk0, mem_flatMap_parallelNd1 hnthr (f := fun e1 =>
      if needZero md.dims md.paddedDims k e1 then
        (List.range step).map fun e0 => md.offL (e1 * step + e0) true else [])]
    have hoffL : ∀ l, md.offL l true = md.offV (rowMajor md.paddedDims md.ndims l) true := by
      intro l
      unfold MemoryDesc.offL
      rw [if_pos rfl, offLPos_eq_rowMajor]
    constructor
    · rintro ⟨e1, he1, hy⟩
      split_ifs at hy with hz
      · obtain ⟨e0, he0, rfl⟩ := List.mem_map.mp hy
        rw [List.mem_range] at he0
        exact ⟨_, (hpad e1 he1 e0 he0).mp hz, (hoffL _).symm⟩
      · exact absurd hy List.not_mem_nil
    · rintro ⟨pos, hpos', rfl⟩
      obtain ⟨l, hl, rfl⟩ := exists_rowMajor hpos'.1
      rw [volume_eq_mul hk] at hl
      have he1 : l / step < volume md.paddedDims k :=
        Nat.div_lt_of_lt_mul (by rwa [Nat.mul_comm])
      have he0 : l % step < step := Nat.mod_lt _ hstep0
      have hl' : l / step * step + l % step = l := by
        rw [Nat.mul_comm]
        exact Nat.div_add_mod l step
      refine ⟨l / step, he1, ?_⟩
      rw [if_pos ((hpad _ he1 _ he0).mpr (by rwa [hl'])), List.mem_map]
      exact ⟨l % step, List.mem_range.mpr he0, by rw [hl', hoffL]⟩

end MklDnn

/-!
## Proofs: zero padding

In a dense descriptor every padding position lies in the tail of a last block, so both routines of
`zero_pad` set the same offsets to zero: those of the padding.
-/

open LoopNest

namespace MklDnn

/-! ## Positions and blocks -/

/-- A coordinate lies in the padding if it lies in the tail of the last block. -/
theorem le_mul_add_iff {dims B q r : ℕ} (hq : q < divUp dims B) (hr : r < B) :
    dims ≤ q * B + r ↔ dims % B ≠ 0 ∧ q + 1 = divUp dims B ∧ dims % B ≤ r := by
  have hB : 0 < B := by omega
  have hdm := Nat.div_add_mod dims B
  have hmod := Nat.mod_lt dims hB
  set k := dims / B with hk
  set t := dims % B with ht
  have hup : divUp dims B = if t = 0 then k else k + 1 := by
    unfold divUp
    split_ifs with h0
    · have heq : dims + B - 1 = B * k + (B - 1) := by omega
      rw [heq, Nat.mul_add_div hB, Nat.div_eq_of_lt (by omega), Nat.add_zero]
    · have heq : dims + B - 1 = B * (k + 1) + (t - 1) := by
        rw [Nat.mul_succ]
        omega
      rw [heq, Nat.mul_add_div hB, Nat.div_eq_of_lt (by omega), Nat.add_zero]
  rw [hup] at hq ⊢
  have hcomm : B * k = k * B := Nat.mul_comm _ _
  constructor
  · intro hle
    by_cases h0 : t = 0
    · rw [if_pos h0] at hq
      have hmul : (q + 1) * B ≤ k * B := Nat.mul_le_mul_right _ hq
      rw [Nat.succ_mul] at hmul
      omega
    · rw [if_neg h0] at hq ⊢
      by_cases hqk : q = k
      · subst hqk
        exact ⟨h0, rfl, by omega⟩
      · have hmul : (q + 1) * B ≤ k * B := Nat.mul_le_mul_right _ (by omega)
        rw [Nat.succ_mul] at hmul
        omega
  · rintro ⟨h0, hqk, htr⟩
    rw [if_neg h0] at hqk
    obtain rfl : q = k := by omega
    omega

/-- The offset of a position is that of its outer block plus that inside the block. -/
theorem MemoryDesc.offV_eq_outerOff {md : MemoryDesc} (hL : ValidInner md.ndims md.blocking.inner)
    (hn : md.ndims ≤ 6) {pos : ℕ → ℕ} (hpos : ∀ d, md.ndims ≤ d → pos d = 0) :
    md.offV pos true =
      outerOff md (fun d => (pos d / innerBlocks md.blocking.inner d : ℕ)) +
        inBlock md.blocking.inner fun d => pos d % innerBlocks md.blocking.inner d := by
  set L := md.blocking.inner with hLdef
  have hsum : ∑ d ∈ Finset.range md.ndims, md.dimOff d (pos d) =
      ∑ d ∈ Finset.range 6, md.dimOff d (pos d) := by
    refine Finset.sum_subset (Finset.range_subset_range.mpr hn) fun d _ hd => ?_
    rw [hpos d (by simpa using hd)]
    unfold MemoryDesc.dimOff
    rw [← hLdef, innerOff_zero]
    simp
  rw [md.offV_padded hL, hsum]
  unfold outerOff inBlock MemoryDesc.dimOff
  simp only [innerOff_mod, ← hLdef, Finset.sum_add_distrib]
  ring

/-- The offset of the position with outer block `q` and coordinates `r` inside the block. -/
theorem MemoryDesc.offV_of_blocks {md : MemoryDesc} (hL : ValidInner md.ndims md.blocking.inner)
    (hn : md.ndims ≤ 6) {q : ℕ → ℤ} {r : ℕ → ℕ} (hq : ∀ d < md.ndims, 0 ≤ q d)
    (hq0 : ∀ d < 6, md.ndims ≤ d → q d = 0) (hr : r ∈ box (innerBlocks md.blocking.inner) 6) :
    md.offV (fun d => if d < md.ndims then
        (q d).toNat * innerBlocks md.blocking.inner d + r d else 0) true =
      outerOff md q + inBlock md.blocking.inner r := by
  set B := innerBlocks md.blocking.inner with hBdef
  set pos : ℕ → ℕ := fun d => if d < md.ndims then (q d).toNat * B d + r d else 0 with hposdef
  have hr' := mem_box.mp hr
  have hdiv : ∀ d < md.ndims, pos d / B d = (q d).toNat ∧ pos d % B d = r d := by
    intro d hd
    have hrd : r d < B d := hr'.1 d (by omega)
    rw [hposdef]
    simp only [if_pos hd]
    rw [Nat.mul_comm, Nat.mul_add_div (hL.innerBlocks_pos d), Nat.div_eq_of_lt hrd, Nat.mul_add_mod,
      Nat.mod_eq_of_lt hrd]
    exact ⟨Nat.add_zero _, rfl⟩
  have hpos0 : ∀ d, md.ndims ≤ d → pos d = 0 := fun d hd => if_neg (by omega)
  rw [MemoryDesc.offV_eq_outerOff hL hn hpos0]
  unfold outerOff inBlock
  congr 1
  · refine congrArg (md.offset0 + ·) (Finset.sum_congr rfl fun d hd => ?_)
    show ((pos d / B d : ℕ) : ℤ) * _ = q d * _
    by_cases hdn : d < md.ndims
    · rw [(hdiv d hdn).1, Int.toNat_of_nonneg (hq d hdn)]
    · rw [hpos0 d (by omega), hq0 d (Finset.mem_range.mp hd) (by omega)]
      simp
  · refine Finset.sum_congr rfl fun d hd => ?_
    show (innerOff md.blocking.inner d (pos d % B d) : ℤ) = _
    by_cases hdn : d < md.ndims
    · rw [(hdiv d hdn).2]
    · have hrd : r d < B d := hr'.1 d (Finset.mem_range.mp hd)
      have hB1 : B d = 1 := hL.innerBlocks_eq_one (by omega)
      have hr0 : r d = 0 := by omega
      rw [hpos0 d (by omega), Nat.zero_mod, hr0]

/-! ## The tails are the padding -/

section Tails

variable {md : MemoryDesc} {perm : List ℕ} {kind : BlkKind} {bs : ℕ}

/-- The loops of the specialised routine run over the outer blocks of the descriptor. -/
theorem Dense.blkCount_eq (h : Dense md perm) (hf : FastInner kind bs md.blocking.inner)
    (h3 : 3 ≤ md.ndims) (d : ℕ) :
    blkCount md bs d = if d < md.ndims then md.outerBlocks d else 1 := by
  have hunblocked : d < md.ndims → d ∉ kind.dims → md.dims d = md.outerBlocks d := by
    intro hd hm
    rw [h.outerBlocks_eq hd, hf.innerBlocks_eq, if_neg hm, divUp_one]
  unfold blkCount
  by_cases hd3 : d < 3
  · have hd : d < md.ndims := by omega
    rw [if_pos hd3, if_pos hd]
    split_ifs with hb
    · rw [MemoryDesc.outerBlocks, hf.innerBlocks_eq, if_pos ((hf.dimIsBlocked_iff d).mp hb)]
    · exact hunblocked hd (mt (hf.dimIsBlocked_iff d).mpr hb)
  · rw [if_neg hd3]
    split_ifs with hd
    · exact hunblocked hd fun hm => hd3 (BlkKind.dims_lt hm)
    · rfl

/-- A coordinate is in the tail of the last block. -/
theorem Dense.le_coord_iff (h : Dense md perm) (hf : FastInner kind bs md.blocking.inner) {e q r : ℕ}
    (he : e ∈ kind.dims) (hen : e < md.ndims) (hq : q < md.outerBlocks e) (hr : r < bs) :
    md.dims e ≤ q * bs + r ↔
      md.dims e % bs ≠ 0 ∧ q + 1 = md.outerBlocks e ∧ md.dims e % bs ≤ r := by
  have hB : innerBlocks md.blocking.inner e = bs := by rw [hf.innerBlocks_eq, if_pos he]
  rw [h.outerBlocks_eq hen, hB] at hq ⊢
  exact le_mul_add_iff hq hr

/-- In a dense descriptor the tails of the last blocks are the padding. -/
theorem Dense.inTail_iff (h : Dense md perm) (hf : FastInner kind bs md.blocking.inner)
    (h3 : 3 ≤ md.ndims) (h6 : md.ndims ≤ 6) {y : ℤ} :
    (∃ e ∈ kind.dims, md.dims e % bs ≠ 0 ∧ InTail md bs e y) ↔
      ∃ pos, md.IsPadding pos ∧ md.offV pos true = y := by
  set B := innerBlocks md.blocking.inner with hBdef
  have hB0 : ∀ d, 0 < B d := h.innerBlocks_pos
  have hcount := h.blkCount_eq hf h3
  constructor
  · rintro ⟨e, he, ht, q, hq, hqe, r, hr, htail, rfl⟩
    have hen : e < md.ndims := lt_of_lt_of_le (BlkKind.dims_lt he) h3
    have hBe : B e = bs := by rw [hBdef, hf.innerBlocks_eq, if_pos he]
    have hqlt : ∀ d < 6, 0 ≤ q d ∧ q d < blkCount md bs d := by
      intro d hd
      by_cases hde : d = e
      · subst hde
        have hpos := h.outerBlocks_pos hen
        rw [hqe, hcount, if_pos hen]
        omega
      · exact hq d hd hde
    have hr' := mem_box.mp hr
    refine ⟨fun d => if d < md.ndims then (q d).toNat * B d + r d else 0,
      ⟨mem_box.mpr ⟨fun d hd => ?_, fun d hd => if_neg (by omega)⟩, e, hen, ?_⟩,
      MemoryDesc.offV_of_blocks h.inner h6 (fun d hd => (hqlt d (by omega)).1) (fun d hd hn => ?_) hr⟩
    · have hqd := hqlt d (by omega)
      rw [hcount, if_pos hd] at hqd
      have hrd : r d < B d := hr'.1 d (by omega)
      rw [h.paddedDims_eq hd, if_pos hd]
      calc (q d).toNat * B d + r d < (q d).toNat * B d + B d := by omega
        _ = ((q d).toNat + 1) * B d := (Nat.succ_mul _ _).symm
        _ ≤ md.outerBlocks d * B d := Nat.mul_le_mul_right _ (by omega)
    · have hqe' : (q e).toNat + 1 = md.outerBlocks e := by
        have hpos := h.outerBlocks_pos hen
        rw [hcount, if_pos hen] at hqe
        omega
      simp only [if_pos hen, hBe]
      refine (h.le_coord_iff hf he hen (by omega) ?_).mpr ⟨ht, hqe', htail⟩
      rw [← hBe]
      exact hr'.1 e (by omega)
    · have hqd := hqlt d hd
      rw [hcount, if_neg (by omega)] at hqd
      omega
  · rintro ⟨pos, ⟨hbox, e, hen, hle⟩, rfl⟩
    obtain ⟨hlt, hz⟩ := mem_box.mp hbox
    have hqlt : ∀ d < md.ndims, pos d / B d < md.outerBlocks d := by
      intro d hd
      have hd' := hlt d hd
      rw [h.paddedDims_eq hd] at hd'
      exact Nat.div_lt_of_lt_mul (by rwa [Nat.mul_comm])
    have hm : e ∈ kind.dims := by
      by_contra hm
      have hd' := hlt e hen
      rw [h.paddedDims e hen, hf.innerBlocks_eq, if_neg hm] at hd'
      simp only [rndUp, divUp_one, Nat.mul_one] at hd'
      omega
    have hBe : B e = bs := by rw [hBdef, hf.innerBlocks_eq, if_pos hm]
    have hbs : 0 < bs := hBe ▸ hB0 e
    have hpose : pos e / bs * bs + pos e % bs = pos e := by
      rw [Nat.mul_comm]
      exact Nat.div_add_mod _ _
    have htail := (h.le_coord_iff hf hm hen (hBe ▸ hqlt e hen) (Nat.mod_lt (pos e) hbs)).mp
      (by rwa [hpose])
    refine ⟨e, hm, htail.1, fun d => (pos d / B d : ℕ), fun d _ hde => ?_, ?_,
      fun d => pos d % B d, ?_, ?_, MemoryDesc.offV_eq_outerOff h.inner h6 hz⟩
    · refine ⟨Int.natCast_nonneg _, ?_⟩
      show ((pos d / B d : ℕ) : ℤ) < _
      rw [hcount]
      split_ifs with hd
      · exact_mod_cast hqlt d hd
      · rw [hz d (by omega)]
        simp
    · show ((pos e / B e : ℕ) : ℤ) = _
      rw [hcount, if_pos hen, hBe]
      omega
    · refine mem_box.mpr ⟨fun d _ => Nat.mod_lt _ (hB0 d), fun d hd => ?_⟩
      show pos d % B d = 0
      rw [hz d (by omega), Nat.zero_mod]
    · show md.dims e % bs ≤ pos e % B e
      rw [hBe]
      exact htail.2.2

end Tails

/-! ## The dispatch -/

/-- The kinds the switch selects for the inner blocks of a format tag fit these inner blocks. -/
theorem zeroPadCase_fastInner {tag : FormatTag} {args : BlockingArgs} {kind : BlkKind} {bs : ℕ}
    (hargs : blockingArgs tag = some args)
    (h : zeroPadCase (List.zipWith InnerBlk.mk args.innerIdxs args.innerBlks) = some (kind, bs)) :
    FastInner kind bs (List.zipWith InnerBlk.mk args.innerIdxs args.innerBlks) ∧
      3 ≤ args.perm.length ∧ args.perm.length ≤ 6 := by
  have hall : (zeroPadCase (List.zipWith InnerBlk.mk args.innerIdxs args.innerBlks)).all fun c =>
      FastInner c.1 c.2 (List.zipWith InnerBlk.mk args.innerIdxs args.innerBlks) ∧
        3 ≤ args.perm.length ∧ args.perm.length ≤ 6 := by
    cases tag <;> cases hargs <;> decide
  rw [h] at hall
  exact of_decide_eq_true hall

theorem TagLayout.fastInner {md : MemoryDesc} {tag : FormatTag} {args : BlockingArgs} {kind : BlkKind}
    {bs : ℕ} (h : TagLayout md args) (hargs : blockingArgs tag = some args)
    (hcase : zeroPadCase md.blocking.inner = some (kind, bs)) :
    FastInner kind bs md.blocking.inner ∧ 3 ≤ md.ndims ∧ md.ndims ≤ 6 := by
  rw [h.inner] at hcase ⊢
  rw [← h.length]
  exact zeroPadCase_fastInner hargs hcase

/-- Either routine sets exactly the padding of a dense descriptor to zero. -/
theorem Dense.mem_typedZeroPad {md : MemoryDesc} {perm : List ℕ} (h : Dense md perm) {nthr : ℕ}
    (hnthr : 0 < nthr)
    (hfast : ∀ kind bs, zeroPadCase md.blocking.inner = some (kind, bs) →
      FastInner kind bs md.blocking.inner ∧ 3 ≤ md.ndims ∧ md.ndims ≤ 6) :
    ∃ ws, typedZeroPad nthr md = .ok ws ∧
      ∀ y, y ∈ ws ↔ ∃ pos, md.IsPadding pos ∧ md.offV pos true = y := by
  unfold typedZeroPad
  rw [if_neg (by simp [h.formatKind])]
  have hgen := fun y => mem_typedZeroPadGenericBlocked (y := y) hnthr h.ndims_pos
    fun d hd => h.paddedDims_pos hd
  split_ifs with hnelems
  · -- no padding at all: the extents are the padded extents
    refine ⟨[], rfl, fun y => iff_of_false List.not_mem_nil ?_⟩
    rintro ⟨pos, ⟨hbox, d, hd, hle⟩, -⟩
    have hz : md.isZero = false := by
      have hn := h.ndims_pos
      simp [MemoryDesc.isZero]
      omega
    have hvol : volume md.dims md.ndims = volume md.paddedDims md.ndims := by
      simpa [MemoryDesc.nelems, hz] using hnelems
    have hlt : md.dims d < md.paddedDims d := lt_of_le_of_lt hle ((mem_box.mp hbox).1 d hd)
    have hvol' : volume md.dims md.ndims < volume md.paddedDims md.ndims :=
      Finset.prod_lt_prod (fun i hi => h.dims_pos i (Finset.mem_range.mp hi))
        (fun i hi => h.dims_le (Finset.mem_range.mp hi)) ⟨d, Finset.mem_range.mpr hd, hlt⟩
    omega
  · split
    · rename_i kind bs hcase
      obtain ⟨hf, h3, h6⟩ := hfast kind bs hcase
      refine ⟨_, rfl, fun y => ?_⟩
      rw [mem_typedZeroPadBlk hnthr hf, h.inTail_iff hf h3 h6]
    · exact ⟨_, rfl, hgen⟩

/-- The memory `m'` is the memory `m` with the padding of the tensor set to zero: the elements of the
tensor and everything outside its padded area are unchanged. -/
structure ZeroPadded {V : Type*} [Zero V] (md : MemoryDesc) (m m' : ℤ → V) : Prop where
  padding : ∀ pos, md.IsPadding pos → m' (md.offV pos true) = 0
  data : ∀ pos ∈ box md.dims md.ndims, m' (md.offV pos true) = m (md.offV pos true)
  frame : ∀ y, (∀ pos, md.IsPadding pos → md.offV pos true ≠ y) → m' y = m y

/-- Setting the offsets of the padding to zero, in whatever order, leaves the memory zero padded. -/
theorem ZeroPadded.of_mem {V : Type*} [Zero V] {md : MemoryDesc} {ws ws' : List ℤ} (hp : ws'.Perm ws)
    (hmem : ∀ y, y ∈ ws ↔ ∃ pos, md.IsPadding pos ∧ md.offV pos true = y)
    (hinj : ∀ pos ∈ box md.dims md.ndims, ∀ pos', md.IsPadding pos' →
      md.offV pos' true ≠ md.offV pos true) (m : ℤ → V) :
    ZeroPadded md m (applyWrites (ws'.map fun y => (y, 0)) m) := by
  have hcons : Consistent (ws'.map fun y => (y, (0 : V))) := Consistent.of_map fun _ _ _ _ _ => rfl
  have hframe : ∀ y, (∀ pos, md.IsPadding pos → md.offV pos true ≠ y) →
      applyWrites (ws'.map fun y => (y, 0)) m y = m y := by
    intro y hy
    refine applyWrites_of_notMem (fun w hw he => ?_) m
    obtain ⟨z, hz, rfl⟩ := List.mem_map.mp hw
    obtain ⟨pos, hpos, rfl⟩ := (hmem z).mp (hp.mem_iff.mp hz)
    exact hy pos hpos he
  refine ⟨fun pos hpos => ?_, fun pos hpos => hframe _ (hinj pos hpos), hframe⟩
  refine applyWrites_of_mem hcons (List.mem_map.mpr ⟨md.offV pos true, ?_, rfl⟩) m
  exact hp.mem_iff.mpr ((hmem _).mpr ⟨pos, hpos, rfl⟩)

/-- The padding of a dense descriptor shares no offset with its tensor. -/
theorem Dense.offV_ne_of_isPadding {md : MemoryDesc} {perm : List ℕ} (h : Dense md perm)
    {pos pos' : ℕ → ℕ} (hpos : pos ∈ box md.dims md.ndims) (hpad : md.IsPadding pos') :
    md.offV pos' true ≠ md.offV pos true := by
  intro he
  obtain ⟨hlt, hz⟩ := mem_box.mp hpos
  have hbox : pos ∈ box md.paddedDims md.ndims :=
    mem_box.mpr ⟨fun d hd => lt_of_lt_of_le (hlt d hd) (h.dims_le hd), hz⟩
  obtain ⟨hbox', d, hd, hle⟩ := hpad
  obtain rfl : pos' = pos := h.bijOn_offV.injOn hbox' hbox he
  have hd' := hlt d hd
  omega

/-- A descriptor whose data type is defined reaches `typed_zero_pad`. -/
theorem zeroPad_eq_typedZeroPad {md : MemoryDesc} (hnd : 0 < md.ndims) (hk : md.formatKind = .blocked)
    (hdt : md.dataType ≠ .undef) (nthr : ℕ) : zeroPad nthr md false = typedZeroPad nthr md := by
  have hz : md.isZero = false := by simp [MemoryDesc.isZero]; omega
  unfold zeroPad
  rw [if_neg (by simp [hz, MemoryDesc.isBlockingDesc, hk]), if_neg hdt]

/-- For every blocked descriptor that `dnnl_memory_desc_init_by_tag` builds, every team size and every
order of the writes, `zero_pad` sets the padding to zero and changes nothing else. -/
theorem zeroPad_zeroPadded {V : Type*} [Zero V] {ndims : ℕ} {dims : ℕ → ℤ} {dt : DataType}
    {tag : FormatTag} {md : MemoryDesc} {nthr : ℕ}
    (hinit : memoryDescInitByTag ndims dims dt tag = .ok md) (hk : md.formatKind = .blocked)
    (hnthr : 0 < nthr) :
    ∃ ws, zeroPad nthr md false = .ok ws ∧ ∀ ws' : List ℤ, ws'.Perm ws → ∀ m : ℤ → V,
      ZeroPadded md m (applyWrites (ws'.map fun y => (y, 0)) m) := by
  obtain ⟨args, hargs, hlayout⟩ := memoryDescInitByTag_tagLayout hinit hk
  rw [zeroPad_eq_typedZeroPad hlayout.ndims_pos hk hlayout.dataType]
  by_cases hpos : ∀ d < md.ndims, 0 < md.dims d
  · have hdense := hlayout.dense hpos
    obtain ⟨ws, hws, hmem⟩ := hdense.mem_typedZeroPad hnthr fun kind bs hcase =>
      hlayout.fastInner hargs hcase
    exact ⟨ws, hws, fun ws' hp m =>
      ZeroPadded.of_mem hp hmem (fun pos hpos pos' hpad => hdense.offV_ne_of_isPadding hpos hpad) m⟩
  · -- an empty tensor has an empty padded area
    obtain ⟨d, hd, hd0⟩ : ∃ d < md.ndims, md.dims d = 0 := by
      push Not at hpos
      obtain ⟨d, hd, hle⟩ := hpos
      exact ⟨d, hd, by omega⟩
    have hpad0 : md.paddedDims d = 0 := by
      rw [hlayout.paddedDims d hd, hd0, rndUp, divUp_zero (hlayout.valid.innerBlocks_pos d),
        Nat.zero_mul]
    have hempty : ∀ pos, ¬ md.IsPadding pos := fun pos hpad => by
      have hlt := (mem_box.mp hpad.1).1 d hd
      omega
    have hnelems : md.nelems false = md.nelems true := by
      have h0 : volume md.dims md.ndims = 0 := volume_eq_zero.mpr ⟨d, hd, hd0⟩
      have h1 : volume md.paddedDims md.ndims = 0 := volume_eq_zero.mpr ⟨d, hd, hpad0⟩
      simp [MemoryDesc.nelems, h0, h1]
    refine ⟨[], ?_, fun ws' hp m => ZeroPadded.of_mem hp (fun y => ?_) ?_ m⟩
    · unfold typedZeroPad
      rw [if_neg (by simp [hk]), if_pos hnelems]
    · refine iff_of_false List.not_mem_nil ?_
      rintro ⟨pos, hpad, -⟩
      exact hempty pos hpad
    · exact fun pos _ pos' hpad => absurd hpad (hempty pos')

/-- Three threads zero pad a tensor in the format `OIw4i16o4i` with tails along both blocked
dimensions. -/
theorem zeroPad_zeroPadded_ABc4b16a4b :
    ∃ md ws, memoryDescInitByTag 3 (fun d => [20, 5, 3].getD d 0) .bf16 .ABc4b16a4b = .ok md ∧
      zeroPad 3 md false = .ok ws ∧ ∀ ws' : List ℤ, ws'.Perm ws → ∀ m : ℤ → ℤ,
        ZeroPadded md m (applyWrites (ws'.map fun y => (y, 0)) m) := by
  obtain ⟨md, hmd, hk⟩ : ∃ md, memoryDescInitByTag 3 (fun d => [20, 5, 3].getD d 0) .bf16 .ABc4b16a4b =
      .ok md ∧ md.formatKind = .blocked := ⟨_, rfl, rfl⟩
  obtain ⟨ws, hws, hpad⟩ := zeroPad_zeroPadded (V := ℤ) hmd hk (by decide : 0 < 3)
  exact ⟨md, ws, hmd, hws, hpad⟩

end MklDnn
