import MklDnn.Conv.Deconvolution
import MklDnn.Memory.Proofs.BuiltProofs
import MklDnn.Memory.Proofs.TagsProofs

/-!
# Proofs: descriptors that are built anew

`memory_desc_init_by_blocking_desc` keeps of the strides of a descriptor only their order. The descriptors that it keeps as
they are, are those that lie densely.
-/

open LoopNest Offsets

namespace MklDnn

/-! ## Dense layouts -/

/-- The number of blocks along a dimension. -/
def MemoryDesc.numBlocks (md : MemoryDesc) (d : ℕ) : ℕ := divUp (md.dims d) (innerBlocks md.blocking.inner d)

/-- The blocks lie densely, in the order of the strides. The stride of a dimension with one block has no meaning. -/
structure MemoryDesc.TightlyPacked (md : MemoryDesc) : Prop where
  offset0 : md.offset0 = 0
  distinct : ∀ d < md.ndims, ∀ e < md.ndims, 1 < md.numBlocks d → 1 < md.numBlocks e →
    md.blocking.strides d = md.blocking.strides e → d = e
  strides : ∀ d < md.ndims, 1 < md.numBlocks d → md.blocking.strides d = (blockSize md.blocking.inner *
    ∏ e ∈ Finset.range md.ndims with md.blocking.strides e < md.blocking.strides d, md.numBlocks e : ℕ)

/-- The stride of a dimension in a dense layout in the order of the strides of `blk`, with `m` blocks along the
dimensions. -/
def BlockingDesc.denseStride (blk : BlockingDesc) (m : ℕ → ℕ) (n d : ℕ) : ℕ :=
  blockSize blk.inner * ∏ e ∈ Finset.range n with blk.Inside e d, m e

section

variable {blk : BlockingDesc} {m : ℕ → ℕ} {n d e : ℕ}

theorem BlockingDesc.inside_or_inside (blk : BlockingDesc) (hne : d ≠ e) : blk.Inside e d ∨ blk.Inside d e := by
  unfold BlockingDesc.Inside
  omega

theorem BlockingDesc.Inside.trans {f : ℕ} (h : blk.Inside f e) (h' : blk.Inside e d) : blk.Inside f d := by
  unfold BlockingDesc.Inside at *
  omega

theorem BlockingDesc.not_inside_self (blk : BlockingDesc) (d : ℕ) : ¬ blk.Inside d d := by
  unfold BlockingDesc.Inside
  omega

/-- A dimension of several blocks has a smaller stride than a dimension outside of it. -/
theorem BlockingDesc.denseStride_lt (hsize : 0 < blockSize blk.inner) (hm : ∀ d < n, 0 < m d) (he : e < n)
    (hin : blk.Inside e d) (hmany : 1 < m e) : blk.denseStride m n e < blk.denseStride m n d := by
  have hnot : e ∉ Finset.filter (blk.Inside · e) (Finset.range n) := by
    simp [blk.not_inside_self e]
  have hsub : insert e (Finset.filter (blk.Inside · e) (Finset.range n)) ⊆
      Finset.filter (blk.Inside · d) (Finset.range n) := by
    intro f hf
    rcases Finset.mem_insert.mp hf with rfl | hf
    · exact Finset.mem_filter.mpr ⟨Finset.mem_range.mpr he, hin⟩
    · obtain ⟨hfn, hfe⟩ := Finset.mem_filter.mp hf
      exact Finset.mem_filter.mpr ⟨hfn, hfe.trans hin⟩
  have hpos : 0 < ∏ f ∈ Finset.range n with blk.Inside f e, m f :=
    Finset.prod_pos fun f hf => hm f (Finset.mem_range.mp (Finset.mem_filter.mp hf).1)
  have hone : ∀ f ∈ Finset.filter (blk.Inside · d) (Finset.range n),
      f ∉ insert e (Finset.filter (blk.Inside · e) (Finset.range n)) → 1 ≤ m f :=
    fun f hf _ => hm f (Finset.mem_range.mp (Finset.mem_filter.mp hf).1)
  refine (Nat.mul_lt_mul_left hsize).mpr ?_
  calc ∏ f ∈ Finset.range n with blk.Inside f e, m f
      < m e * ∏ f ∈ Finset.range n with blk.Inside f e, m f := lt_mul_of_one_lt_left hpos hmany
    _ = ∏ f ∈ insert e (Finset.filter (blk.Inside · e) (Finset.range n)), m f := (Finset.prod_insert hnot).symm
    _ ≤ ∏ f ∈ Finset.range n with blk.Inside f d, m f := Finset.prod_le_prod_of_subset_of_one_le' hsub hone

/-- Dimensions of one block do not count. -/
theorem prod_filter_many {p q : ℕ → Prop} [DecidablePred p] [DecidablePred q] (hm : ∀ d < n, 0 < m d)
    (h : ∀ e < n, 1 < m e → (p e ↔ q e)) :
    ∏ e ∈ Finset.range n with p e, m e = ∏ e ∈ Finset.range n with q e, m e := by
  rw [Finset.prod_filter, Finset.prod_filter]
  refine Finset.prod_congr rfl fun e he => ?_
  have hpos := hm e (Finset.mem_range.mp he)
  by_cases hmany : 1 < m e
  · simp only [h e (Finset.mem_range.mp he) hmany]
  · have hone : m e = 1 := by omega
    rw [hone, ite_self, ite_self]

/-- Without ties the blocks inside of a dimension are those with smaller strides. -/
theorem BlockingDesc.denseStride_of_distinct (hm : ∀ d < n, 0 < m d)
    (hdistinct : ∀ d < n, ∀ e < n, 1 < m d → 1 < m e → blk.strides d = blk.strides e → d = e) (hd : d < n)
    (hmany : 1 < m d) : blk.denseStride m n d =
      blockSize blk.inner * ∏ e ∈ Finset.range n with blk.strides e < blk.strides d, m e := by
  refine congrArg _ (prod_filter_many hm fun e he hmanyE => ?_)
  unfold BlockingDesc.Inside
  constructor
  · rintro (hlt | ⟨heq, hlt⟩)
    · exact hlt
    · exact absurd (hdistinct d hd e he hmany hmanyE heq.symm) (Nat.ne_of_lt hlt)
  · exact Or.inl

end

/-! ## Descriptors that are built anew -/

theorem MemoryDesc.Built.paddedDims_le {md : MemoryDesc} (h : md.Built) {d : ℕ} (hd : d < md.ndims) :
    md.paddedDims d ≤ rndUp (md.dims d) (innerBlocks md.blocking.inner d) := by
  rcases h.paddedDims_eq hd with heq | heq
  · exact heq.trans_le (le_rndUp (h.wellFormed.valid.innerBlocks_pos d))
  · exact heq.le

section

variable {md io : MemoryDesc} {blk : BlockingDesc}

theorem MemoryDesc.numBlocks_pos (md : MemoryDesc) (hpos : ∀ d < md.ndims, 0 < md.dims d)
    (hL : ValidInner md.ndims md.blocking.inner) : ∀ d < md.ndims, 0 < md.numBlocks d :=
  fun d hd => divUp_pos (hpos d hd) (hL.innerBlocks_pos d)

theorem memoryDescInitByBlockingDesc_numBlocks (io : MemoryDesc) (blk : BlockingDesc) (d : ℕ) :
    (memoryDescInitByBlockingDesc io blk).numBlocks d = divUp (io.dims d) (innerBlocks blk.inner d) := rfl

theorem memoryDescInitByBlockingDesc_denseStride (hn : io.ndims ≤ maxNdims) (hpos : ∀ d < io.ndims, 0 < io.dims d)
    (hL : ValidInner io.ndims blk.inner) {d : ℕ} (hd : d < io.ndims) :
    (memoryDescInitByBlockingDesc io blk).blocking.strides d =
      (blk.denseStride (memoryDescInitByBlockingDesc io blk).numBlocks io.ndims d : ℕ) := by
  obtain ⟨hinner, hpadded, hstrides, -⟩ := memoryDescInitByBlockingDesc_layout io blk hn hpos hL
  rw [hstrides d hd, BlockingDesc.denseStride]
  refine congrArg _ (congrArg _ (Finset.prod_congr rfl fun e he => ?_))
  have hen : e < io.ndims := Finset.mem_range.mp (Finset.mem_filter.mp he).1
  rw [MemoryDesc.outerBlocks, hpadded e hen, hinner, rndUp_div (hL.innerBlocks_pos e),
    memoryDescInitByBlockingDesc_numBlocks]

/-- What is built anew lies densely. -/
theorem memoryDescInitByBlockingDesc_tightlyPacked (hn : io.ndims ≤ maxNdims) (hpos : ∀ d < io.ndims, 0 < io.dims d)
    (hL : ValidInner io.ndims blk.inner) : (memoryDescInitByBlockingDesc io blk).TightlyPacked := by
  set r := memoryDescInitByBlockingDesc io blk with hr
  have hm : ∀ d < io.ndims, 0 < r.numBlocks d := r.numBlocks_pos hpos hL
  have hsize := hL.blockSize_pos
  have hlt : ∀ {d e}, d < io.ndims → e < io.ndims → 1 < r.numBlocks e → blk.Inside e d →
      r.blocking.strides e < r.blocking.strides d := by
    intro d e hd he hmany hin
    rw [memoryDescInitByBlockingDesc_denseStride hn hpos hL hd, memoryDescInitByBlockingDesc_denseStride hn hpos hL he]
    exact_mod_cast BlockingDesc.denseStride_lt hsize hm he hin hmany
  refine { offset0 := rfl, distinct := fun d hd e he hmanyD hmanyE heq => ?_, strides := fun d hd hmany => ?_ }
  · by_contra hne
    rcases blk.inside_or_inside hne with hin | hin
    · exact absurd heq (hlt hd he hmanyE hin).ne'
    · exact absurd heq (hlt he hd hmanyD hin).ne
  · refine (memoryDescInitByBlockingDesc_denseStride hn hpos hL hd).trans
      (congrArg _ (congrArg _ (prod_filter_many hm fun e he hmanyE => ?_)))
    constructor
    · exact hlt hd he hmanyE
    · intro hstride
      have hne : d ≠ e := by
        rintro rfl
        exact lt_irrefl _ hstride
      exact (blk.inside_or_inside hne).resolve_right fun hin => absurd hstride (hlt he hd hmany hin).not_gt

/-- The difference to the original is one of the strides. -/
theorem memoryDescInitByBlockingDesc_offV_sub (hndims : io.ndims = md.ndims)
    (hL : ValidInner md.ndims md.blocking.inner) (pos : ℕ → ℕ) :
    md.offV pos true - (memoryDescInitByBlockingDesc io md.blocking).offV pos true = md.offset0 +
      ∑ d ∈ Finset.range md.ndims, (pos d / innerBlocks md.blocking.inner d : ℕ) *
        (md.blocking.strides d - (memoryDescInitByBlockingDesc io md.blocking).blocking.strides d) := by
  have hvalid : ValidInner (memoryDescInitByBlockingDesc io md.blocking).ndims
      (memoryDescInitByBlockingDesc io md.blocking).blocking.inner := by
    rw [← hndims] at hL
    exact hL
  have hoffset0 : (memoryDescInitByBlockingDesc io md.blocking).offset0 = 0 := rfl
  have hdims : (memoryDescInitByBlockingDesc io md.blocking).ndims = md.ndims := hndims
  have hinner : (memoryDescInitByBlockingDesc io md.blocking).blocking.inner = md.blocking.inner := rfl
  rw [md.offV_padded hL, MemoryDesc.offV_padded hvalid, hoffset0, hdims, zero_add, add_sub_assoc,
    ← Finset.sum_sub_distrib]
  refine congrArg _ (Finset.sum_congr rfl fun d _ => ?_)
  rw [MemoryDesc.dimOff, MemoryDesc.dimOff, hinner]
  ring

variable (md io)

variable (hndims : io.ndims = md.ndims) (hdims : ∀ d < md.ndims, io.dims d = md.dims d) (hn : md.ndims ≤ maxNdims)
  (hpos : ∀ d < md.ndims, 0 < md.dims d) (hL : ValidInner md.ndims md.blocking.inner)

include hndims hdims hn hpos hL

theorem rebuilt_strides {d : ℕ} (hd : d < md.ndims) :
    (memoryDescInitByBlockingDesc io md.blocking).blocking.strides d =
      (md.blocking.denseStride md.numBlocks md.ndims d : ℕ) := by
  have hposIo : ∀ d < io.ndims, 0 < io.dims d := by
    intro d hd
    rw [hdims d (hndims ▸ hd)]
    exact hpos d (hndims ▸ hd)
  rw [memoryDescInitByBlockingDesc_denseStride (hndims ▸ hn) hposIo (hndims ▸ hL) (hndims ▸ hd), hndims]
  refine congrArg _ (congrArg _ (Finset.prod_congr rfl fun e he => ?_))
  rw [memoryDescInitByBlockingDesc_numBlocks, hdims e (Finset.mem_range.mp (Finset.mem_filter.mp he).1),
    MemoryDesc.numBlocks]

/-- A dense layout is kept. -/
theorem MemoryDesc.offV_rebuilt (h : md.TightlyPacked) {pos : ℕ → ℕ}
    (hbox : ∀ d < md.ndims, pos d / innerBlocks md.blocking.inner d < md.numBlocks d) :
    (memoryDescInitByBlockingDesc io md.blocking).offV pos true = md.offV pos true := by
  have hm := numBlocks_pos md hpos hL
  have hzero : ∀ d ∈ Finset.range md.ndims, ((pos d / innerBlocks md.blocking.inner d : ℕ) : ℤ) *
      (md.blocking.strides d - (memoryDescInitByBlockingDesc io md.blocking).blocking.strides d) = 0 := by
    intro d hd
    rw [Finset.mem_range] at hd
    have hlt := hbox d hd
    by_cases hmany : 1 < md.numBlocks d
    · rw [rebuilt_strides md io hndims hdims hn hpos hL hd, h.strides d hd hmany,
        md.blocking.denseStride_of_distinct hm h.distinct hd hmany, sub_self, mul_zero]
    · have hfirst : pos d / innerBlocks md.blocking.inner d = 0 := Nat.lt_one_iff.mp (hlt.trans_le (Nat.not_lt.mp hmany))
      rw [hfirst, Nat.cast_zero, zero_mul]
  have hsub := memoryDescInitByBlockingDesc_offV_sub hndims hL pos
  rw [h.offset0, Finset.sum_eq_zero hzero] at hsub
  omega

/-- Only a dense layout is kept. -/
theorem MemoryDesc.tightlyPacked_of_offV
    (h : ∀ pos ∈ box md.dims md.ndims, (memoryDescInitByBlockingDesc io md.blocking).offV pos true = md.offV pos true) :
    md.TightlyPacked := by
  have hm := md.numBlocks_pos hpos hL
  have hsub : ∀ pos ∈ box md.dims md.ndims, md.offset0 +
      ∑ d ∈ Finset.range md.ndims, (pos d / innerBlocks md.blocking.inner d : ℕ) *
        (md.blocking.strides d - (memoryDescInitByBlockingDesc io md.blocking).blocking.strides d) = 0 := by
    intro pos hp
    rw [← memoryDescInitByBlockingDesc_offV_sub hndims hL pos, h pos hp, sub_self]
  -- the first position gives the first offset
  have hoffset0 : md.offset0 = 0 := by
    have hfirst := hsub (fun _ => 0) (mem_box.mpr ⟨hpos, fun _ _ => rfl⟩)
    simpa using hfirst
  -- the second block of a dimension gives its stride
  have hstrides : ∀ d < md.ndims, 1 < md.numBlocks d →
      md.blocking.strides d = (md.blocking.denseStride md.numBlocks md.ndims d : ℕ) := by
    intro d hd hmany
    have hB := hL.innerBlocks_pos d
    have hlt : innerBlocks md.blocking.inner d < md.dims d := by
      by_contra hle
      exact absurd ((divUp_le_iff hB).mpr (by omega : md.dims d ≤ 1 * innerBlocks md.blocking.inner d))
        (Nat.not_le.mpr hmany)
    have hmem : Function.update (fun _ => 0) d (innerBlocks md.blocking.inner d) ∈ box md.dims md.ndims := by
      refine mem_box.mpr ⟨fun e he => ?_, fun e he => ?_⟩
      · by_cases hed : e = d
        · subst hed
          rwa [Function.update_self]
        · rw [Function.update_of_ne hed]
          exact hpos e he
      · rw [Function.update_of_ne (by omega)]
    have hsum := hsub _ hmem
    rw [hoffset0, zero_add, Finset.sum_eq_single d ?_ ?_, Function.update_self, Nat.div_self hB, Nat.cast_one, one_mul,
      rebuilt_strides md io hndims hdims hn hpos hL hd] at hsum
    · omega
    · intro e _ hed
      rw [Function.update_of_ne hed, Nat.zero_div, Nat.cast_zero, zero_mul]
    · exact fun hnot => absurd (Finset.mem_range.mpr hd) hnot
  have hdistinct : ∀ d < md.ndims, ∀ e < md.ndims, 1 < md.numBlocks d → 1 < md.numBlocks e →
      md.blocking.strides d = md.blocking.strides e → d = e := by
    intro d hd e he hmanyD hmanyE heq
    rw [hstrides d hd hmanyD, hstrides e he hmanyE, Nat.cast_inj] at heq
    by_contra hne
    rcases md.blocking.inside_or_inside hne with hin | hin
    · exact absurd heq (BlockingDesc.denseStride_lt hL.blockSize_pos hm he hin hmanyE).ne'
    · exact absurd heq (BlockingDesc.denseStride_lt hL.blockSize_pos hm hd hin hmanyD).ne
  exact {
    offset0 := hoffset0
    distinct := hdistinct
    strides := fun d hd hmany => (hstrides d hd hmany).trans
      (congrArg _ (md.blocking.denseStride_of_distinct hm hdistinct hd hmany)) }

end

end MklDnn

/-!
## Proofs: deconvolution by convolution

The descriptor of the weights of the convolution places the elements where the one of the deconvolution has them when the
latter lies densely, and only then.
-/

namespace MklDnn.RefDeconvolution

/-! ## The exchange of the channels -/

/-- The same elements, with the output and the input channels exchanged. -/
def exchanged (withGroups : Bool) (md : MemoryDesc) : MemoryDesc :=
  { md with
    dims := swapChannels withGroups md.dims
    paddedDims := swapChannels withGroups md.paddedDims
    paddedOffsets := swapChannels withGroups md.paddedOffsets
    blocking := {
      strides := swapChannels withGroups md.blocking.strides
      inner := swapInnerIdxs withGroups md.blocking.inner } }

section

variable {withGroups : Bool} {L : List InnerBlk} {n : ℕ}

theorem swapChannels_swapChannels {α : Type} (withGroups : Bool) (a : ℕ → α) :
    swapChannels withGroups (swapChannels withGroups a) = a := by
  funext d
  simp [swapChannels]

theorem swapInnerIdxs_eq (withGroups : Bool) (L : List InnerBlk) :
    swapInnerIdxs withGroups L = L.map fun b => { b with idx := Equiv.swap (idOc withGroups) (idIc withGroups) b.idx } := by
  refine List.map_congr_left fun b _ => ?_
  rw [Equiv.swap_apply_def]
  split_ifs <;> simp_all

theorem swapInnerIdxs_swapInnerIdxs (withGroups : Bool) (L : List InnerBlk) :
    swapInnerIdxs withGroups (swapInnerIdxs withGroups L) = L := by
  rw [swapInnerIdxs_eq, swapInnerIdxs_eq, List.map_map]
  simp [Function.comp_def]

theorem exchanged_exchanged (withGroups : Bool) (md : MemoryDesc) :
    exchanged withGroups (exchanged withGroups md) = md := by
  simp only [exchanged, swapChannels_swapChannels, swapInnerIdxs_swapInnerIdxs]

theorem innerBlocks_swapInnerIdxs (withGroups : Bool) (L : List InnerBlk) (d : ℕ) :
    innerBlocks (swapInnerIdxs withGroups L) d = swapChannels withGroups (innerBlocks L) d := by
  rw [swapInnerIdxs_eq, swapChannels, Function.comp_apply]
  induction L with
  | nil => rfl
  | cons b L ih =>
    rw [List.map_cons, innerBlocks_cons, innerBlocks_cons, ih]
    simp only [Equiv.swap_apply_eq_iff]

theorem blockSize_swapInnerIdxs (withGroups : Bool) (L : List InnerBlk) :
    blockSize (swapInnerIdxs withGroups L) = blockSize L := by
  rw [swapInnerIdxs_eq, blockSize, blockSize, List.map_map]
  rfl

theorem innerOff_swapInnerIdxs (withGroups : Bool) (L : List InnerBlk) (d x : ℕ) :
    innerOff (swapInnerIdxs withGroups L) d x = innerOff L (Equiv.swap (idOc withGroups) (idIc withGroups) d) x := by
  induction L with
  | nil => rfl
  | cons b L ih =>
    have hblocks := innerBlocks_swapInnerIdxs withGroups L d
    have hsize := blockSize_swapInnerIdxs withGroups L
    rw [swapInnerIdxs_eq] at *
    rw [List.map_cons, innerOff, innerOff, ih, hblocks, hsize]
    simp only [Equiv.swap_apply_eq_iff, swapChannels, Function.comp_apply]

theorem swap_lt_iff (hic : idIc withGroups < n) {d : ℕ} :
    Equiv.swap (idOc withGroups) (idIc withGroups) d < n ↔ d < n := by
  have hoc : idOc withGroups < idIc withGroups := by
    unfold idOc idIc
    omega
  rw [Equiv.swap_apply_def]
  split_ifs <;> omega

theorem validInner_swapInnerIdxs (hic : idIc withGroups < n) (h : ValidInner n L) :
    ValidInner n (swapInnerIdxs withGroups L) := by
  rw [swapInnerIdxs_eq]
  intro b hb
  obtain ⟨c, hc, rfl⟩ := List.mem_map.mp hb
  exact ⟨(swap_lt_iff hic).mpr (h c hc).1, (h c hc).2⟩

/-- Both orders of the dimensions run through all of them. -/
theorem sum_swap {α : Type} [AddCommMonoid α] (hic : idIc withGroups < n) (f : ℕ → α) :
    ∑ d ∈ Finset.range n, f (Equiv.swap (idOc withGroups) (idIc withGroups) d) = ∑ d ∈ Finset.range n, f d :=
  Finset.sum_equiv (Equiv.swap (idOc withGroups) (idIc withGroups))
    (fun d => by rw [Finset.mem_range, Finset.mem_range, swap_lt_iff hic]) fun _ _ => rfl

theorem prod_swap {α : Type} [CommMonoid α] (hic : idIc withGroups < n) (f : ℕ → α) :
    ∏ d ∈ Finset.range n, f (Equiv.swap (idOc withGroups) (idIc withGroups) d) = ∏ d ∈ Finset.range n, f d :=
  Finset.prod_equiv (Equiv.swap (idOc withGroups) (idIc withGroups))
    (fun d => by rw [Finset.mem_range, Finset.mem_range, swap_lt_iff hic]) fun _ _ => rfl

end

theorem exchanged_numBlocks (withGroups : Bool) (md : MemoryDesc) (d : ℕ) : (exchanged withGroups md).numBlocks d =
    md.numBlocks (Equiv.swap (idOc withGroups) (idIc withGroups) d) := by
  simp only [MemoryDesc.numBlocks, exchanged, innerBlocks_swapInnerIdxs, swapChannels, Function.comp_apply]

section

variable {withGroups : Bool} {md : MemoryDesc} (hic : idIc withGroups < md.ndims)

include hic

theorem exchanged_offV (hL : ValidInner md.ndims md.blocking.inner) (pos : ℕ → ℕ) :
    (exchanged withGroups md).offV pos true = md.offV (swapChannels withGroups pos) true := by
  have hvalid : ValidInner (exchanged withGroups md).ndims (exchanged withGroups md).blocking.inner :=
    validInner_swapInnerIdxs hic hL
  rw [MemoryDesc.offV_padded hvalid, md.offV_padded hL]
  refine congrArg _ ?_
  rw [← sum_swap hic fun d => md.dimOff d (swapChannels withGroups pos d)]
  refine Finset.sum_congr rfl fun d _ => ?_
  simp only [MemoryDesc.dimOff, exchanged, innerOff_swapInnerIdxs, innerBlocks_swapInnerIdxs, swapChannels,
    Function.comp_apply, Equiv.swap_apply_self]

theorem tightlyPacked_exchanged (h : md.TightlyPacked) : (exchanged withGroups md).TightlyPacked where
  offset0 := h.offset0
  distinct := by
    intro d hd e he hmanyD hmanyE heq
    rw [exchanged_numBlocks] at hmanyD hmanyE
    exact (Equiv.injective _) (h.distinct _ ((swap_lt_iff hic).mpr hd) _ ((swap_lt_iff hic).mpr he) hmanyD hmanyE heq)
  strides := by
    intro d hd hmany
    rw [exchanged_numBlocks] at hmany
    have hstride := h.strides _ ((swap_lt_iff hic).mpr hd) hmany
    rw [Finset.prod_filter, ← prod_swap hic] at hstride
    simp only [Finset.prod_filter, exchanged_numBlocks]
    simp only [exchanged, blockSize_swapInnerIdxs]
    exact hstride

end

/-! ## One direction and back -/

/-- Every element lies where `oi` has the element with the channels exchanged. -/
def KeepsElements (withGroups : Bool) (oi io : MemoryDesc) : Prop :=
  ∀ isPosPadded, ∀ pos ∈ box (if isPosPadded then io.paddedDims else io.dims) io.ndims,
    io.offV pos isPosPadded = oi.offV (swapChannels withGroups pos) isPosPadded

/-- The other direction gives the offsets of `oi` again, to any descriptor of its sizes. -/
def IsUndone (withGroups : Bool) (oi io : MemoryDesc) : Prop :=
  ∀ md : MemoryDesc, md.ndims = oi.ndims → (∀ d < oi.ndims, md.dims d = oi.dims d) →
    ∃ back, computeBlockedFormat withGroups io md = .ok back ∧
      ∀ isPosPadded, ∀ pos ∈ box (if isPosPadded then oi.paddedDims else oi.dims) oi.ndims,
        back.offV pos isPosPadded = oi.offV pos isPosPadded

theorem computeBlockedFormat_eq {withGroups : Bool} {oi io : MemoryDesc} (hndims : oi.ndims = io.ndims)
    (hk : oi.formatKind = .blocked) : computeBlockedFormat withGroups oi io =
      .ok (memoryDescInitByBlockingDesc { io with formatKind := .blocked } (exchanged withGroups oi).blocking) :=
  if_pos ⟨hndims, hk⟩

theorem div_lt_divUp {x a b : ℕ} (hb : 0 < b) (hx : x < rndUp a b) : x / b < divUp a b :=
  (Nat.div_lt_iff_lt_mul hb).mpr hx

theorem rebuilt_wellFormed (io : MemoryDesc) (blk : BlockingDesc) (hL : ValidInner io.ndims blk.inner) :
    (memoryDescInitByBlockingDesc io blk).WellFormed where
  valid := hL
  dims_le := fun d hd => (le_rndUp (hL.innerBlocks_pos d)).trans_eq (if_pos hd).symm
  paddedOffsets := fun _ hd => if_pos hd

section

variable {withGroups : Bool} (oi io : MemoryDesc) (hic : idIc withGroups < oi.ndims) (hndims : io.ndims = oi.ndims)
  (hdims : ∀ d < oi.ndims, io.dims d = swapChannels withGroups oi.dims d) (hn : oi.ndims ≤ maxNdims)
  (hpos : ∀ d < oi.ndims, 0 < oi.dims d)

include hic hndims hdims hn hpos

/-- In a dense layout the exchange of the channels keeps all offsets of the padded area. -/
theorem offV_rebuilt_exchanged (hL : ValidInner oi.ndims oi.blocking.inner) (h : oi.TightlyPacked) (pos : ℕ → ℕ)
    (hbox : ∀ d < oi.ndims, pos d < rndUp (io.dims d) (innerBlocks (exchanged withGroups oi).blocking.inner d)) :
    (memoryDescInitByBlockingDesc io (exchanged withGroups oi).blocking).offV pos true =
      oi.offV (swapChannels withGroups pos) true := by
  have hvalid : ValidInner (exchanged withGroups oi).ndims (exchanged withGroups oi).blocking.inner :=
    validInner_swapInnerIdxs hic hL
  have hdimsE : ∀ d < (exchanged withGroups oi).ndims, io.dims d = (exchanged withGroups oi).dims d := hdims
  have hposE : ∀ d < (exchanged withGroups oi).ndims, 0 < (exchanged withGroups oi).dims d :=
    fun d hd => hpos _ ((swap_lt_iff hic).mpr hd)
  have hlt : ∀ d < (exchanged withGroups oi).ndims, pos d / innerBlocks (exchanged withGroups oi).blocking.inner d <
      (exchanged withGroups oi).numBlocks d := by
    intro d hd
    rw [MemoryDesc.numBlocks, ← hdimsE d hd]
    exact div_lt_divUp (hvalid.innerBlocks_pos d) (hbox d hd)
  rw [(exchanged withGroups oi).offV_rebuilt io hndims hdimsE hn hposE hvalid (tightlyPacked_exchanged hic h) hlt,
    exchanged_offV hic hL]

/-- Only a dense layout is kept, and it is kept. -/
theorem keepsElements_iff (hwf : oi.WellFormed) :
    KeepsElements withGroups oi (memoryDescInitByBlockingDesc io (exchanged withGroups oi).blocking) ↔
      oi.TightlyPacked := by
  have hvalid : ValidInner (exchanged withGroups oi).ndims (exchanged withGroups oi).blocking.inner :=
    validInner_swapInnerIdxs hic hwf.valid
  have hr := rebuilt_wellFormed io (exchanged withGroups oi).blocking (hndims ▸ hvalid)
  constructor
  · intro hkeeps
    have hdimsE : ∀ d < (exchanged withGroups oi).ndims, io.dims d = (exchanged withGroups oi).dims d := hdims
    have hposE : ∀ d < (exchanged withGroups oi).ndims, 0 < (exchanged withGroups oi).dims d :=
      fun d hd => hpos _ ((swap_lt_iff hic).mpr hd)
    have hbox : box io.dims io.ndims = box (exchanged withGroups oi).dims (exchanged withGroups oi).ndims := by
      rw [hndims]
      exact box_congr hdims
    have hpacked : (exchanged withGroups oi).TightlyPacked := by
      refine (exchanged withGroups oi).tightlyPacked_of_offV io hndims hdimsE hn hposE hvalid fun pos hp => ?_
      have heq := hkeeps false pos (hbox ▸ hp)
      rw [hr.offV_eq, hwf.offV_eq] at heq
      rw [heq, exchanged_offV hic hwf.valid]
    have hback := @tightlyPacked_exchanged withGroups (exchanged withGroups oi) hic hpacked
    rwa [exchanged_exchanged] at hback
  · intro h isPosPadded pos hp
    have hlt : ∀ d < oi.ndims, pos d < rndUp (io.dims d) (innerBlocks (exchanged withGroups oi).blocking.inner d) := by
      intro d hd
      have hdIo : d < io.ndims := hndims ▸ hd
      have hpd := (mem_box.mp hp).1 d hdIo
      cases isPosPadded with
      | true => exact hpd.trans_eq (if_pos hdIo)
      | false => exact hpd.trans_le (le_rndUp (hvalid.innerBlocks_pos d))
    have heq := offV_rebuilt_exchanged oi io hic hndims hdims hn hpos hwf.valid h pos hlt
    cases isPosPadded with
    | true => exact heq
    | false => rw [hr.offV_eq, hwf.offV_eq, heq]

/-- What was built anew is undone by the other direction. -/
theorem isUndone_rebuilt (hwf : oi.WellFormed)
    (hpadded : ∀ d < oi.ndims, oi.paddedDims d ≤ rndUp (oi.dims d) (innerBlocks oi.blocking.inner d))
    (h : oi.TightlyPacked) :
    IsUndone withGroups oi (memoryDescInitByBlockingDesc io (exchanged withGroups oi).blocking) := by
  have hvalid : ValidInner io.ndims (exchanged withGroups oi).blocking.inner :=
    hndims ▸ validInner_swapInnerIdxs hic hwf.valid
  have hposIo : ∀ d < io.ndims, 0 < io.dims d := by
    intro d hd
    rw [hndims] at hd
    rw [hdims d hd]
    exact hpos _ ((swap_lt_iff hic).mpr hd)
  have hpacked := memoryDescInitByBlockingDesc_tightlyPacked (hndims ▸ hn) hposIo hvalid
  set r := memoryDescInitByBlockingDesc io (exchanged withGroups oi).blocking with hr
  intro md hmd hdimsMd
  set back : MemoryDesc := { md with formatKind := .blocked } with hback
  refine ⟨_, computeBlockedFormat_eq (hndims.trans hmd.symm) rfl, fun isPosPadded pos hp => ?_⟩
  have hinner : (exchanged withGroups r).blocking.inner = oi.blocking.inner :=
    swapInnerIdxs_swapInnerIdxs withGroups oi.blocking.inner
  have hlt : ∀ d < oi.ndims, pos d < rndUp (oi.dims d) (innerBlocks oi.blocking.inner d) := by
    intro d hd
    have hpd := (mem_box.mp hp).1 d hd
    cases isPosPadded with
    | true => exact hpd.trans_le (hpadded d hd)
    | false => exact hpd.trans_le (le_rndUp (hwf.valid.innerBlocks_pos d))
  have hrndims : r.ndims = oi.ndims := hndims
  have hdimsBack : ∀ d < r.ndims, back.dims d = swapChannels withGroups r.dims d := by
    intro d hd
    have hswap := hdims _ ((swap_lt_iff hic).mpr (hrndims ▸ hd))
    exact (hdimsMd d (hrndims ▸ hd)).trans
      (hswap.trans (congrFun (swapChannels_swapChannels withGroups oi.dims) d)).symm
  have hltBack : ∀ d < r.ndims, pos d < rndUp (back.dims d) (innerBlocks (exchanged withGroups r).blocking.inner d) := by
    intro d hd
    rw [hinner]
    exact (hlt d (hrndims ▸ hd)).trans_eq (congrArg₂ rndUp (hdimsMd d (hrndims ▸ hd)).symm rfl)
  have hltThere : ∀ d < oi.ndims, swapChannels withGroups pos d <
      rndUp (io.dims d) (innerBlocks (exchanged withGroups oi).blocking.inner d) := by
    intro d hd
    have hblocks := innerBlocks_swapInnerIdxs withGroups oi.blocking.inner d
    rw [hdims d hd]
    exact (hlt _ ((swap_lt_iff hic).mpr hd)).trans_eq (congrArg₂ rndUp rfl hblocks.symm)
  have hbackOff := offV_rebuilt_exchanged r back (hrndims ▸ hic) (hmd.trans hrndims.symm) hdimsBack (hrndims ▸ hn) hposIo
    hvalid hpacked pos hltBack
  have hthere := offV_rebuilt_exchanged oi io hic hndims hdims hn hpos hwf.valid h (swapChannels withGroups pos) hltThere
  rw [swapChannels_swapChannels] at hthere
  have hbackWf := rebuilt_wellFormed back (exchanged withGroups r).blocking (by
    rw [hinner]
    exact hmd ▸ hwf.valid)
  cases isPosPadded with
  | true => exact hbackOff.trans hthere
  | false => rw [hbackWf.offV_eq, hwf.offV_eq, hbackOff, hthere]

end

/-! ## The descriptor of the convolution -/

namespace DeconvolutionDesc

variable {dd : DeconvolutionDesc}

/-- The convolution finds the weights where the deconvolution has them, and the other direction undoes the exchange. -/
def Meets (dd : DeconvolutionDesc) : Prop :=
  ∃ args, dd.convDescrCreate = .ok args ∧ KeepsElements dd.withGroups dd.dWeightsD args.weightsDesc ∧
    IsUndone dd.withGroups dd.dWeightsD args.weightsDesc

theorem Accepted.idIc_lt (h : dd.Accepted) : idIc dd.withGroups < dd.dWeightsD.ndims := by
  have hsrc := h.src
  have hweights := h.weights
  simp only [List.mem_cons, List.not_mem_nil, or_false] at hsrc
  by_cases hg : dd.dWeightsD.ndims = dd.srcMd.ndims + 1
  · rw [withGroups, decide_eq_true hg, idIc, Bool.toNat_true]
    omega
  · rw [withGroups, decide_eq_false hg, idIc, Bool.toNat_false]
    omega

/-- The weights of a blocked format are built anew. -/
theorem convDescrCreate_weights (hk : dd.dWeightsD.formatKind = .blocked) :
    ∃ args, dd.convDescrCreate = .ok args ∧ args.weightsDesc = memoryDescInitByBlockingDesc
      { dd.cWeightsD with formatKind := .blocked } (exchanged dd.withGroups dd.dWeightsD).blocking := by
  have hany : dd.cWeightsD.formatKind ≠ .any := by
    change dd.dWeightsD.formatKind ≠ .any
    rw [hk]
    decide
  have hndims : dd.dWeightsD.ndims = dd.cWeightsD.ndims := rfl
  rw [convDescrCreate, if_pos hany, computeBlockedFormat_eq hndims hk]
  exact ⟨_, rfl, rfl⟩

/-- A tensor with an empty dimension has no padded area. -/
theorem notMem_box {dims paddedDims pos : ℕ → ℕ} {n d b : ℕ} {isPosPadded : Bool} (hd : d < n) (hdim : dims d = 0)
    (hpadded : paddedDims d ≤ rndUp (dims d) b) (hb : 0 < b) :
    pos ∉ box (if isPosPadded then paddedDims else dims) n := by
  intro hp
  have hlt := (mem_box.mp hp).1 d hd
  rw [hdim, rndUp_eq, divUp_zero hb, Nat.zero_mul] at hpadded
  cases isPosPadded with
  | true => exact absurd (hlt.trans_le hpadded) (Nat.not_lt_zero _)
  | false => exact absurd (hlt.trans_eq hdim) (Nat.not_lt_zero _)

theorem meets_of_args {args : ConvDescArgs} (hargs : dd.convDescrCreate = .ok args) :
    dd.Meets ↔ KeepsElements dd.withGroups dd.dWeightsD args.weightsDesc ∧
      IsUndone dd.withGroups dd.dWeightsD args.weightsDesc := by
  constructor
  · rintro ⟨args', hargs', h⟩
    rw [hargs] at hargs'
    obtain rfl := Except.ok.inj hargs'
    exact h
  · exact fun h => ⟨args, hargs, h⟩

section

variable (haccepted : dd.Accepted) (hbuilt : dd.dWeightsD.Built) (hk : dd.dWeightsD.formatKind = .blocked)

include haccepted hbuilt hk

theorem meets_of_hasZeroDim (hzero : dd.dWeightsD.hasZeroDim = true) : dd.Meets := by
  obtain ⟨args, hargs, hweights⟩ := convDescrCreate_weights hk
  have hic := haccepted.idIc_lt
  have hwf := hbuilt.wellFormed
  obtain ⟨d, hd, hdim⟩ := dd.dWeightsD.exists_dim_eq_zero hzero (by omega)
  have hd' := (swap_lt_iff hic).mpr hd
  have hdim' : dd.cWeightsD.dims (Equiv.swap (idOc dd.withGroups) (idIc dd.withGroups) d) = 0 := by
    simpa [cWeightsD, swapChannels] using hdim
  have hvalid := validInner_swapInnerIdxs hic hwf.valid
  rw [meets_of_args hargs, hweights]
  refine ⟨fun isPosPadded pos hp => ?_, fun md hmd _ => ⟨_, computeBlockedFormat_eq hmd.symm rfl,
    fun isPosPadded pos hp => ?_⟩⟩
  · exact absurd hp (notMem_box hd' hdim' (if_pos hd').le (hvalid.innerBlocks_pos _))
  · exact absurd hp (notMem_box hd hdim (hbuilt.paddedDims_le hd) (hwf.valid.innerBlocks_pos d))

theorem meets_iff_tightlyPacked (hzero : dd.dWeightsD.hasZeroDim = false) : dd.Meets ↔ dd.dWeightsD.TightlyPacked := by
  obtain ⟨args, hargs, hweights⟩ := convDescrCreate_weights hk
  have hic := haccepted.idIc_lt
  have hwf := hbuilt.wellFormed
  have hn := (hbuilt.sane hk).1
  have hpos : ∀ d < dd.dWeightsD.ndims, 0 < dd.dWeightsD.dims d := fun d hd => dd.dWeightsD.dims_pos hzero hd
  have hkeeps := keepsElements_iff dd.dWeightsD { dd.cWeightsD with formatKind := .blocked } hic rfl (fun _ _ => rfl) hn
    hpos hwf
  rw [meets_of_args hargs, hweights]
  constructor
  · exact fun h => hkeeps.mp h.1
  · exact fun h => ⟨hkeeps.mpr h, isUndone_rebuilt _ _ hic rfl (fun _ _ => rfl) hn hpos hwf
      (fun d hd => hbuilt.paddedDims_le hd) h⟩

/-- The convolution gets the weights of the deconvolution if these have no elements or lie densely, and in no other case. -/
theorem meets_iff : dd.Meets ↔ dd.dWeightsD.hasZeroDim = true ∨ dd.dWeightsD.TightlyPacked := by
  cases hzero : dd.dWeightsD.hasZeroDim with
  | true => exact iff_of_true (meets_of_hasZeroDim haccepted hbuilt hk hzero) (Or.inl rfl)
  | false =>
    rw [meets_iff_tightlyPacked haccepted hbuilt hk hzero]
    exact (or_iff_right Bool.false_ne_true).symm

end

/-- A forward deconvolution of images with the given weights. -/
def ofWeights (image weights : MemoryDesc) : DeconvolutionDesc where
  propKind := .forwardTraining
  algKind := .deconvolutionDirect
  srcDesc := image
  diffSrcDesc := zeroMd
  weightsDesc := weights
  diffWeightsDesc := zeroMd
  biasDesc := zeroMd
  dstDesc := image
  diffDstDesc := zeroMd
  strides := fun _ => 1
  dilates := fun _ => 0
  paddingL := fun _ => 0
  paddingR := fun _ => 0

/-- Weights of 20 output and 10 input channels, both padded to blocks of 16. -/
theorem meets_iff_ABcd16b16a : ∃ dd : DeconvolutionDesc, dd.Accepted ∧ dd.dWeightsD.Built ∧
    dd.dWeightsD.paddedDims 0 = 32 ∧ dd.Meets := by
  obtain ⟨md, hmd, hk, hn, hpadded, hoffset0, hdistinct, hstrides⟩ : ∃ md,
      memoryDescInitByTag 4 (fun d => if d = 0 then 20 else if d = 1 then 10 else 3) .f32 .ABcd16b16a = .ok md ∧
        md.formatKind = .blocked ∧ md.ndims = 4 ∧ md.paddedDims 0 = 32 ∧ md.offset0 = 0 ∧
        (∀ d < md.ndims, ∀ e < md.ndims, 1 < md.numBlocks d → 1 < md.numBlocks e →
          md.blocking.strides d = md.blocking.strides e → d = e) ∧
        ∀ d < md.ndims, 1 < md.numBlocks d → md.blocking.strides d = (blockSize md.blocking.inner *
          ∏ e ∈ Finset.range md.ndims with md.blocking.strides e < md.blocking.strides d, md.numBlocks e : ℕ) :=
    ⟨_, rfl, rfl, rfl, by decide, rfl, by decide, by decide⟩
  have haccepted : (ofWeights md md).Accepted := ⟨by simp [srcMd, isFwd, ofWeights, hn], Or.inl rfl⟩
  have hbuilt : md.Built := .whole (Or.inl ⟨_, _, _, _, hmd, hk⟩)
  exact ⟨_, haccepted, hbuilt, hpadded, (meets_iff haccepted hbuilt hk).mpr (Or.inr ⟨hoffset0, hdistinct, hstrides⟩)⟩

/-- The output channels are 16 elements apart, the convolution takes them to be 8 elements apart. -/
theorem not_meets_strides : ¬ ∀ dd : DeconvolutionDesc, dd.Accepted → dd.dWeightsD.Built →
    dd.dWeightsD.formatKind = .blocked → dd.Meets := by
  intro h
  obtain ⟨md, hmd, hk, hn, hzero, hmany, hstride, hdense⟩ : ∃ md, memoryDescInitByStrides 4 (fun _ => 2) .f32
      (some fun d => if d = 0 then 16 else if d = 1 then 4 else if d = 2 then 2 else 1) = .ok md ∧
        md.formatKind = .blocked ∧ md.ndims = 4 ∧ md.hasZeroDim = false ∧ 1 < md.numBlocks 0 ∧
        md.blocking.strides 0 = 16 ∧ blockSize md.blocking.inner *
          ∏ e ∈ Finset.range md.ndims with md.blocking.strides e < md.blocking.strides 0, md.numBlocks e = 8 :=
    ⟨_, rfl, rfl, rfl, by decide, by decide, rfl, by decide⟩
  have haccepted : (ofWeights md md).Accepted := ⟨by simp [srcMd, isFwd, ofWeights, hn], Or.inl rfl⟩
  have hbuilt : md.Built := .whole (Or.inr ⟨_, _, _, _, hmd⟩)
  have hpacked : md.TightlyPacked := (meets_iff_tightlyPacked haccepted hbuilt hk hzero).mp (h _ haccepted hbuilt hk)
  have heq := hpacked.strides 0 (hn ▸ by decide) hmany
  rw [hdense, hstride] at heq
  exact absurd heq (by decide)

end DeconvolutionDesc

end MklDnn.RefDeconvolution
