import MklDnn.Common.Proofs.UtilsProofs
import MklDnn.Memory.Desc
import MklDnn.Memory.Proofs.DenseProofs
import MklDnn.Memory.Proofs.FillBlockedProofs

/-!
# Proofs: descriptors that match a tag

A descriptor that matches a format tag has the inner blocks and the strides of the tag.
-/

open LoopNest

namespace MklDnn

variable {md : MemoryDesc} {tag : FormatTag} {args : BlockingArgs}

theorem MemoryDesc.matchesOneOfTag_matches {tags : List FormatTag} (h : md.matchesOneOfTag tags ≠ .undef) :
    md.matchesOneOfTag tags ∈ tags ∧ md.matchesTag (md.matchesOneOfTag tags) = true := by
  unfold matchesOneOfTag at h ⊢
  cases hfind : tags.find? fun tag => md.matchesTag tag with
  | none =>
    rw [hfind] at h
    exact absurd rfl h
  | some tag => exact ⟨List.mem_of_find?_eq_some hfind, List.find?_some (p := fun tag => md.matchesTag tag) hfind⟩

/-- The term of a coordinate in a tensor without blocks. -/
theorem MemoryDesc.dimOff_of_plain (hinner : md.blocking.inner = []) (d x : ℕ) :
    md.dimOff d x = x * md.blocking.strides d := by
  unfold dimOff
  simp [hinner, innerOff, innerBlocks]

/-- The term of a coordinate in a tensor with blocks of channels. -/
theorem MemoryDesc.dimOff_of_channels {B : ℕ} (hinner : md.blocking.inner = [⟨1, B⟩]) (d x : ℕ) :
    md.dimOff d x = if d = 1 then (x % B + (x / B : ℕ) * md.blocking.strides d : ℤ) else x * md.blocking.strides d := by
  unfold dimOff
  by_cases hd : d = 1
  · subst hd
    simp [hinner, innerOff, innerBlocks]
  · simp [hinner, innerOff, innerBlocks, hd, Ne.symm hd]

/-- The strides of a tag, for extents that are not zero. -/
theorem MemoryDesc.matchesTag_strides (h : md.matchesTag tag = true) (hargs : blockingArgs tag = some args)
    (hnd : 0 < md.ndims) (hpos : ∀ d < md.ndims, 0 < md.dims d) :
    args.perm.length = md.ndims ∧ md.blocking.inner = List.zipWith InnerBlk.mk args.innerIdxs args.innerBlks ∧
      DenseStrides (fun d => divUp (md.dims d) (innerBlocks md.blocking.inner d)) md.blocking.strides
        (blockSize md.blocking.inner) args.perm := by
  unfold matchesTag at h
  split_ifs at h with hkind
  cases hgold : memoryDescInitByTag md.ndims (fun d => md.dims d) md.dataType tag with
  | error e =>
    rw [hgold] at h
    cases h
  | ok gold =>
    rw [hgold] at h
    dsimp only at h
    rw [decide_eq_true_eq] at h
    obtain ⟨hblocked, hinner, hstrides⟩ := h
    rw [ne_eq, not_not, hblocked] at hkind
    have hnewDims : ∀ d < md.ndims, (newMd md.ndims (fun d => md.dims d) md.dataType tag.kind).dims d = md.dims d := by
      intro d hd
      show (if d < md.ndims then ((md.dims d : ℤ)).toNat else 0) = md.dims d
      rw [if_pos hd, Int.toNat_natCast]
    unfold memoryDescInitByTag at hgold
    split_ifs at hgold with h0 hsane hany
    · rcases h0 with h0 | h0
      · omega
      · rw [h0] at hargs
        cases hargs
    · rw [hany] at hargs
      cases hargs
    · obtain ⟨args', hargs', hdense, hndims, hdims, -, hgoldInner⟩ := computeBlocking_dense hkind.symm
        (fun d hd => by rw [hnewDims d hd]; exact hpos d hd) hgold
      obtain rfl : args = args' := by
        rw [hargs] at hargs'
        exact Option.some.inj hargs'
      have hndims' : gold.ndims = md.ndims := hndims
      have hlt : ∀ d ∈ args.perm, d < md.ndims := fun d hd => hndims' ▸ hdense.mem_perm.mp hd
      have hlen : args.perm.length = md.ndims := by
        rw [← hndims', hdense.perm_range.length_eq, List.length_range]
      refine ⟨hlen, hinner.trans hgoldInner, ?_⟩
      rw [hinner]
      refine DenseStrides.congr (fun d hd => (hstrides d (hlt d hd)).symm) ?_
      refine DenseStrides.congr_blocks (fun d hd => ?_) hdense.strides
      rw [hdense.outerBlocks_eq (hdense.mem_perm.mp hd), hdims, hnewDims d (hlt d hd)]

end MklDnn

/-!
## Proofs: descriptors from blocking descriptors

The sort arranges the dimensions in the order of the given strides, and the loop over the sorted dimensions, from
the innermost one outwards, assigns the strides of a dense layout.
-/

open LoopNest Offsets

namespace MklDnn

/-! ## The order of the dimensions -/

/-- The outer blocks of dimension `e` lie inside of those of dimension `d`: its stride is smaller, or the strides
are equal and it is the later one. -/
def BlockingDesc.Inside (blk : BlockingDesc) (e d : ℕ) : Prop :=
  blk.strides e < blk.strides d ∨ blk.strides e = blk.strides d ∧ d < e

instance (blk : BlockingDesc) (e d : ℕ) : Decidable (blk.Inside e d) :=
  inferInstanceAs (Decidable (_ ∨ _))

theorem isComparator_strides : IsComparator fun a b : ℤ => b - a where
  total := fun a b h => by omega
  trans := fun a b c h h' => by omega

/-- The sorted dimensions are a permutation of all, the outermost first. -/
theorem sorted_keys (blk : BlockingDesc) (n : ℕ) :
    ((List.range n).map (simultaneousSort blk.strides id n fun a b => b - a).keys).Perm (List.range n) ∧
      ((List.range n).map (simultaneousSort blk.strides id n fun a b => b - a).keys).Pairwise
        fun d e => blk.Inside e d := by
  obtain ⟨σ, hσ, hsorted⟩ := simultaneousSort_spec isComparator_strides blk.strides id n
  rw [hσ.keys, Function.id_comp]
  refine ⟨?_, ?_⟩
  · have hnodup : ((List.range n).map σ).Nodup := List.nodup_range.map σ.injective
    have hsub : (List.range n).map σ ⊆ List.range n := by
      intro d hd
      obtain ⟨k, hk, rfl⟩ := List.mem_map.mp hd
      rw [List.mem_range] at hk ⊢
      by_contra hge
      have hfix : σ k = k := σ.injective (hσ.outside (σ k) (by omega))
      omega
    exact (hnodup.subperm hsub).perm_of_length_le (by simp)
  · rw [List.pairwise_map]
    refine List.pairwise_lt_range.imp_of_mem fun {j k} _ hk hlt => ?_
    rw [List.mem_range] at hk
    have hle := hsorted k (Nat.zero_le k) hk j hlt
    have hstable := hσ.stable j k hlt hk
    rw [hσ.vals] at hle hstable
    dsimp only [Function.comp_apply] at hle hstable
    rcases lt_or_eq_of_le (show blk.strides (σ k) ≤ blk.strides (σ j) by omega) with hstride | hstride
    · exact Or.inl hstride
    · exact Or.inr ⟨hstride, hstable (by omega)⟩

/-! ## The strides -/

/-- The loop over the dimensions, the innermost one first. -/
theorem denseStrides_foldr {m : ℕ → ℕ} {perm : List ℕ} (hnd : perm.Nodup) (s : ℕ) (strides : ℕ → ℤ) :
    (perm.foldr (fun d (st : ℕ × (ℕ → ℤ)) => (st.1 * m d, Function.update st.2 d st.1)) (s, strides)).1 =
        s * (perm.map m).prod ∧
      DenseStrides m
        (perm.foldr (fun d (st : ℕ × (ℕ → ℤ)) => (st.1 * m d, Function.update st.2 d st.1)) (s, strides)).2 s perm := by
  induction perm with
  | nil => exact ⟨(Nat.mul_one s).symm, trivial⟩
  | cons d perm ih =>
    obtain ⟨hd, hperm⟩ := List.nodup_cons.mp hnd
    obtain ⟨hprod, hdense⟩ := ih hperm
    rw [List.foldr_cons]
    refine ⟨?_, ?_, ?_⟩
    · rw [hprod, List.map_cons, List.prod_cons, Nat.mul_assoc, Nat.mul_comm (m d)]
    · dsimp only
      rw [Function.update_self, hprod]
    · refine hdense.congr fun e he => ?_
      have hne : e ≠ d := by
        rintro rfl
        exact hd he
      exact (Function.update_of_ne hne _ _).symm

/-- In a dense layout the stride of a dimension counts the blocks of the dimensions inside of it. -/
theorem DenseStrides.eq_prod_inside {m : ℕ → ℕ} {strides : ℕ → ℤ} {s : ℕ} {perm : List ℕ} {blk : BlockingDesc}
    (h : DenseStrides m strides s perm) (hperm : perm.Pairwise fun d e => blk.Inside e d) {d : ℕ} (hd : d ∈ perm) :
    strides d = (s * (perm.map fun e => if blk.Inside e d then m e else 1).prod : ℕ) := by
  have hnot : ∀ {d e}, blk.Inside e d → ¬ blk.Inside d e := by
    unfold BlockingDesc.Inside
    omega
  induction perm with
  | nil => cases hd
  | cons e perm ih =>
    obtain ⟨he, htail⟩ := h
    obtain ⟨hhead, hpair⟩ := List.pairwise_cons.mp hperm
    rw [List.map_cons, List.prod_cons]
    rcases List.mem_cons.mp hd with rfl | hd
    · -- all that follow lie inside
      have hself : ¬ blk.Inside d d := fun hin => hnot hin hin
      have hall : (perm.map fun e => if blk.Inside e d then m e else 1) = perm.map m :=
        List.map_congr_left fun e he => if_pos (hhead e he)
      rw [he, if_neg hself, hall, Nat.one_mul]
    · rw [ih htail hpair hd, if_neg (hnot (hhead d hd)), Nat.one_mul]

/-! ## The descriptor -/

section

variable {md : MemoryDesc} {blk : BlockingDesc}

theorem memoryDescInitByBlockingDesc_strides (hn : md.ndims ≤ maxNdims) :
    DenseStrides (memoryDescInitByBlockingDesc md blk).outerBlocks
      (memoryDescInitByBlockingDesc md blk).blocking.strides (blockSize blk.inner)
      ((List.range md.ndims).map (simultaneousSort blk.strides id md.ndims fun a b => b - a).keys) := by
  have hnodup := (sorted_keys blk md.ndims).1.nodup_iff.mpr List.nodup_range
  have hdense := (denseStrides_foldr (m := (memoryDescInitByBlockingDesc md blk).outerBlocks) hnodup
    (blockSize blk.inner) (simultaneousSort blk.strides id md.ndims fun a b => b - a).vals).2
  rw [List.foldr_map] at hdense
  unfold memoryDescInitByBlockingDesc at hdense ⊢
  simp only [Nat.min_eq_right hn]
  exact hdense

/-- The descriptor lays the padded area out densely. -/
theorem memoryDescInitByBlockingDesc_dense (hn : md.ndims ≤ maxNdims) (hne : 0 < md.ndims)
    (hpos : ∀ d < md.ndims, 0 < md.dims d) (hblk : ValidInner md.ndims blk.inner) :
    Dense (memoryDescInitByBlockingDesc md blk)
      ((List.range md.ndims).map (simultaneousSort blk.strides id md.ndims fun a b => b - a).keys) where
  ndims_pos := hne
  formatKind := rfl
  offset0 := rfl
  inner := hblk
  dims_pos := hpos
  perm_range := (sorted_keys blk md.ndims).1
  paddedDims := fun _ hd => if_pos hd
  paddedOffsets := fun _ hd => if_pos hd
  strides := memoryDescInitByBlockingDesc_strides hn

/-- The positions of the padded area are placed bijectively; a descriptor without dimensions has one position. -/
theorem memoryDescInitByBlockingDesc_bijOn (hn : md.ndims ≤ maxNdims) (hpos : ∀ d < md.ndims, 0 < md.dims d)
    (hblk : ValidInner md.ndims blk.inner) :
    Set.BijOn (fun pos => (memoryDescInitByBlockingDesc md blk).offV pos true)
      {pos | pos ∈ box (memoryDescInitByBlockingDesc md blk).paddedDims md.ndims}
      {y | 0 ≤ y ∧ y < (volume (memoryDescInitByBlockingDesc md blk).paddedDims md.ndims : ℤ)} := by
  rcases Nat.eq_zero_or_pos md.ndims with hzero | hne
  · have hoff : ∀ pos, (memoryDescInitByBlockingDesc md blk).offV pos true = 0 := by
      intro pos
      have hvalid : ValidInner (memoryDescInitByBlockingDesc md blk).ndims
        (memoryDescInitByBlockingDesc md blk).blocking.inner := hblk
      rw [MemoryDesc.offV_padded hvalid]
      simp [memoryDescInitByBlockingDesc, hzero]
    have hdom : {pos | pos ∈ box (memoryDescInitByBlockingDesc md blk).paddedDims md.ndims} = {fun _ => 0} := by
      rw [hzero]
      simp [box]
    have hrange : {y : ℤ | 0 ≤ y ∧ y < (volume (memoryDescInitByBlockingDesc md blk).paddedDims md.ndims : ℤ)} =
        {0} := by
      rw [hzero]
      ext y
      simp only [volume, Finset.range_zero, Finset.prod_empty, Set.mem_ofPred_eq, Set.mem_singleton_iff]
      omega
    rw [hdom, hrange, Set.bijOn_singleton]
    exact hoff _
  · exact (memoryDescInitByBlockingDesc_dense hn hne hpos hblk).bijOn_offV

/-- The descriptor has the given blocks; its outer dimensions lie in the order of the given strides, equal ones in
the order of the dimensions; and it places its padded area bijectively. -/
theorem memoryDescInitByBlockingDesc_layout (md : MemoryDesc) (blk : BlockingDesc) (hn : md.ndims ≤ maxNdims)
    (hpos : ∀ d < md.ndims, 0 < md.dims d) (hblk : ValidInner md.ndims blk.inner) :
    (memoryDescInitByBlockingDesc md blk).blocking.inner = blk.inner ∧
      (∀ d < md.ndims,
        (memoryDescInitByBlockingDesc md blk).paddedDims d = rndUp (md.dims d) (innerBlocks blk.inner d)) ∧
      (∀ d < md.ndims, (memoryDescInitByBlockingDesc md blk).blocking.strides d =
        (blockSize blk.inner * ∏ e ∈ Finset.range md.ndims with blk.Inside e d,
          (memoryDescInitByBlockingDesc md blk).outerBlocks e : ℕ)) ∧
      Set.BijOn (fun pos => (memoryDescInitByBlockingDesc md blk).offV pos true)
        {pos | pos ∈ box (memoryDescInitByBlockingDesc md blk).paddedDims md.ndims}
        {y | 0 ≤ y ∧ y < (volume (memoryDescInitByBlockingDesc md blk).paddedDims md.ndims : ℤ)} := by
  refine ⟨rfl, fun d hd => if_pos hd, fun d hd => ?_, memoryDescInitByBlockingDesc_bijOn hn hpos hblk⟩
  obtain ⟨hperm, hpair⟩ := sorted_keys blk md.ndims
  rw [(memoryDescInitByBlockingDesc_strides hn).eq_prod_inside hpair (hperm.mem_iff.mpr (List.mem_range.mpr hd)),
    Finset.prod_filter, prod_perm hperm]

end

/-- A tensor of 20 x 3 x 7 x 1 elements in blocks of 8 along the first dimension, two of whose strides are equal. -/
theorem memoryDescInitByBlockingDesc_layout_tie :
    let md := newMd 4 (fun d => if d = 0 then 20 else if d = 1 then 3 else if d = 2 then 7 else 1) .f32 .blocked
    let blk : BlockingDesc := ⟨fun d => if d = 1 then 9 else if d = 3 then 100 else 5, [⟨0, 8⟩]⟩
    (memoryDescInitByBlockingDesc md blk).blocking.strides 1 = 168 ∧
      (memoryDescInitByBlockingDesc md blk).blocking.strides 0 = 56 ∧
      Set.BijOn (fun pos => (memoryDescInitByBlockingDesc md blk).offV pos true)
        {pos | pos ∈ box (memoryDescInitByBlockingDesc md blk).paddedDims md.ndims}
        {y | 0 ≤ y ∧ y < (volume (memoryDescInitByBlockingDesc md blk).paddedDims md.ndims : ℤ)} := by
  intro md blk
  have hlayout := memoryDescInitByBlockingDesc_layout md blk (by decide) (by decide) (by decide)
  exact ⟨by decide, by decide, hlayout.2.2.2⟩

/-- The sizes of the dimensions do not decide which of two with equal strides lies inside. -/
theorem memoryDescInitByBlockingDesc_tie_sizes : ¬ ∃ outer : ℕ → ℕ → Prop,
    ∀ md blk, md.ndims ≤ maxNdims → (∀ d < md.ndims, 0 < md.dims d) → ValidInner md.ndims blk.inner →
      ∀ d < md.ndims, ∀ e < md.ndims, blk.strides d = blk.strides e →
        let md' := memoryDescInitByBlockingDesc md blk
        md'.outerBlocks d ≠ md'.outerBlocks e →
          (md'.blocking.strides e < md'.blocking.strides d ↔ outer (md'.outerBlocks d) (md'.outerBlocks e)) := by
  rintro ⟨outer, h⟩
  have h23 := h (newMd 2 (fun d => if d = 0 then 2 else 3) .f32 .blocked) ⟨fun _ => 5, []⟩ (by decide) (by decide)
    (by decide) 0 (by decide) 1 (by decide) rfl (by decide)
  have h32 := h (newMd 2 (fun d => if d = 0 then 3 else 2) .f32 .blocked) ⟨fun _ => 5, []⟩ (by decide) (by decide)
    (by decide) 1 (by decide) 0 (by decide) rfl (by decide)
  have hyes : outer 2 3 := h23.mp (by decide)
  exact absurd (h32.mpr hyes) (by decide)

end MklDnn
