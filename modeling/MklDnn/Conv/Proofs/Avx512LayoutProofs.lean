import Mathlib.Tactic.Ring
import MklDnn.Common.Proofs.UtilsProofs
import MklDnn.Conv.Avx512
import MklDnn.Memory.Proofs.TagsProofs

/-!
# Proofs: the layouts of the AVX-512 backward data convolution

What an accepted problem is, and where its tensors have their rows.
-/

open LoopNest

namespace MklDnn.Avx512BwdData

open Avx512

namespace Problem

/-! ## Accepted problems -/

/-- What the descriptor of a convolution promises, for tensors of four or five dimensions. -/
structure WellFormed (p : Problem) : Prop where
  rank : p.ndims = 4 ∨ p.ndims = 5
  dst_ndims : p.diffDstD.ndims = p.ndims
  wei_ndims : p.weightsD.ndims = p.ndims + p.groupDims
  src_offset0 : p.diffSrcD.offset0 = 0
  wei_offset0 : p.weightsD.offset0 = 0
  dst_offset0 : p.diffDstD.offset0 = 0
  src_pos : ∀ d < p.ndims, 0 < p.diffSrcD.dims d
  wei_pos : ∀ d < p.ndims + p.groupDims, 0 < p.weightsD.dims d
  dst_pos : ∀ d < p.ndims, 0 < p.diffDstD.dims d
  mb : p.diffDstD.dims 0 = p.diffSrcD.dims 0
  ic : p.diffSrcD.dims 1 = p.ngroups * p.weightsD.dims (p.groupDims + 1)
  oc : p.diffDstD.dims 1 = p.ngroups * p.weightsD.dims (p.groupDims + 0)
  strides : ∀ i < p.ndims - 2, 0 < p.strides i

/-- A problem for which `init_conf` chooses the configuration `jcp`. -/
structure Accepted (p : Problem) (isa : CpuIsa) (l1CacheSize : ℕ) (jcp : Jcp) : Prop where
  wellFormed : p.WellFormed
  initConf : p.initConf isa l1CacheSize = some jcp

/-- What `init_conf` has checked, and what it has chosen. -/
structure Configured (p : Problem) (isa : CpuIsa) (l1CacheSize : ℕ) (jcp : Jcp) : Prop where
  depth_unit : p.depth.dilate = 0 ∨ p.depth.stride = 1
  height_unit : p.height.dilate = 0 ∨ p.height.stride = 1
  oc_mod : p.oc % 16 = 0
  ic_mod : p.ic % 16 = 0
  src_tag : p.diffSrcD.matchesTag p.datTag = true
  wei_tag : p.weightsD.matchesTag p.weiTag = true
  dst_tag : p.diffDstD.matchesTag p.datTag = true
  dilates : p.ver isa = .ver4fma → p.depth.dilate = 0 ∧ p.height.dilate = 0
  jcp_eq : jcp = ⟨p.ver isa, (p.blocking isa l1CacheSize).kernelKind, p.pickLoopOrder,
    (p.blocking isa l1CacheSize).nbIcBlocking, p.nbOcL2 isa (p.blocking isa l1CacheSize).nbIcBlocking⟩

theorem matchesTag_of_matchesOneOfTag {md : MemoryDesc} {tag : FormatTag} (hne : tag ≠ .undef)
    (h : md.matchesOneOfTag [tag] = tag) : md.matchesTag tag = true := by
  have hdefined : md.matchesOneOfTag [tag] ≠ .undef := by
    rw [h]
    exact hne
  have hmatches := (md.matchesOneOfTag_matches hdefined).2
  rwa [h] at hmatches

/-- A check of `init_conf` that does not end it. -/
theorem passes_check {α : Type*} {c : Prop} [Decidable c] {x : Option α} {y : α}
    (h : (if c then none else x) = some y) : ¬ c ∧ x = some y := by
  by_cases hc : c
  · rw [if_pos hc] at h
    cases h
  · rw [if_neg hc] at h
    exact ⟨hc, h⟩

variable {p : Problem}

theorem datTag_ne : p.datTag ≠ .undef := by
  unfold datTag
  split_ifs <;> simp

theorem weiTag_ne : p.weiTag ≠ .undef := by
  unfold weiTag
  split_ifs <;> simp

theorem initConf_cases {isa : CpuIsa} {l1CacheSize : ℕ} {jcp : Jcp} (h : p.initConf isa l1CacheSize = some jcp) :
    p.Configured isa l1CacheSize jcp := by
  unfold initConf at h
  dsimp only at h
  obtain ⟨hunit, h⟩ := passes_check h
  obtain ⟨hargs, h⟩ := passes_check h
  obtain ⟨-, h⟩ := passes_check h
  obtain ⟨hwei, h⟩ := passes_check h
  obtain ⟨hdilates, h⟩ := passes_check h
  -- the checks of the width, of the padding and of the size of the code
  obtain ⟨-, h⟩ := passes_check h
  obtain ⟨-, h⟩ := passes_check h
  obtain ⟨-, h⟩ := passes_check h
  obtain ⟨-, h⟩ := passes_check h
  obtain ⟨-, h⟩ := passes_check h
  rw [not_or, not_or] at hunit
  obtain ⟨-, hdepth, hheight⟩ := hunit
  have hwei := not_not.mp hwei
  obtain ⟨hoc, hic, hsrc, hdst⟩ := not_not.mp hargs
  refine ⟨?_, ?_, hoc, hic, matchesTag_of_matchesOneOfTag datTag_ne hsrc, matchesTag_of_matchesOneOfTag weiTag_ne hwei,
    matchesTag_of_matchesOneOfTag datTag_ne hdst, ?_, (Option.some.inj h).symm⟩
  · by_contra hne
    rw [not_or] at hne
    exact hdepth hne
  · by_contra hne
    rw [not_or] at hne
    exact hheight hne
  · intro hver
    by_contra hne
    refine hdilates ⟨fun hall => hne ⟨hall.1, hall.2.1⟩, ?_⟩
    rw [hver]
    decide

namespace Accepted

variable {isa : CpuIsa} {l1CacheSize : ℕ} {jcp : Jcp} (h : p.Accepted isa l1CacheSize jcp)

include h

theorem configured : p.Configured isa l1CacheSize jcp := initConf_cases h.initConf

/-! ## Extents -/

theorem ngroups_pos : 0 < p.ngroups := by
  have hpos := h.wellFormed.src_pos 1 (by rcases h.wellFormed.rank with hr | hr <;> omega)
  rw [h.wellFormed.ic] at hpos
  exact Nat.pos_of_mul_pos_right hpos

/-- The blocks of channels of a tensor are those of all groups. -/
theorem divUp_channels {c cw : ℕ} (hc : c = p.ngroups * cw)
    (hmod : (if p.okToPadChannels then rndUp (c / p.ngroups) 16 else c / p.ngroups) % 16 = 0) :
    (if p.okToPadChannels then rndUp (c / p.ngroups) 16 else c / p.ngroups) / 16 = divUp cw 16 ∧
      divUp c 16 = p.ngroups * divUp cw 16 := by
  have hdiv : c / p.ngroups = cw := by rw [hc, Nat.mul_div_cancel_left _ h.ngroups_pos]
  rw [hdiv] at hmod ⊢
  by_cases hpad : p.okToPadChannels = true
  · rw [if_pos hpad]
    have hg : p.ngroups = 1 := by
      unfold okToPadChannels at hpad
      simp only [Bool.and_eq_true, decide_eq_true_eq] at hpad
      exact hpad.1
    rw [hc, hg, one_mul, one_mul]
    exact ⟨rndUp_div (by decide), rfl⟩
  · rw [if_neg hpad] at hmod ⊢
    obtain ⟨k, rfl⟩ := Nat.dvd_of_mod_eq_zero hmod
    have hblocks : c = 16 * (p.ngroups * k) := by rw [hc]; ring
    rw [hblocks, divUp_mul _ (by decide), divUp_mul _ (by decide), Nat.mul_div_cancel_left _ (by decide)]
    exact ⟨rfl, rfl⟩

theorem nbIc_eq : p.nbIc = divUp (p.weightsD.dims (p.groupDims + 1)) 16 ∧
    divUp (p.diffSrcD.dims 1) 16 = p.ngroups * p.nbIc := by
  obtain ⟨hnb, hall⟩ := h.divUp_channels h.wellFormed.ic h.configured.ic_mod
  have hnb : p.nbIc = divUp (p.weightsD.dims (p.groupDims + 1)) 16 := hnb
  exact ⟨hnb, hall.trans (by rw [hnb])⟩

theorem nbOc_eq : p.nbOc = divUp (p.weightsD.dims (p.groupDims + 0)) 16 ∧
    divUp (p.diffDstD.dims 1) 16 = p.ngroups * p.nbOc := by
  obtain ⟨hnb, hall⟩ := h.divUp_channels h.wellFormed.oc h.configured.oc_mod
  have hnb : p.nbOc = divUp (p.weightsD.dims (p.groupDims + 0)) 16 := hnb
  exact ⟨hnb, hall.trans (by rw [hnb])⟩

theorem nbIc_pos : 0 < p.nbIc := by
  rw [h.nbIc_eq.1]
  exact divUp_pos (h.wellFormed.wei_pos _ (by rcases h.wellFormed.rank with hr | hr <;> omega)) (by decide)

theorem nbOc_pos : 0 < p.nbOc := by
  rw [h.nbOc_eq.1]
  exact divUp_pos (h.wellFormed.wei_pos _ (by rcases h.wellFormed.rank with hr | hr <;> omega)) (by decide)

end Accepted

/-! ## Rows -/

section Rows

variable (p)

/-- The spatial counters of a row, as a tensor of the rank of the problem counts them. -/
def spatial (d y : ℤ) : List ℤ := if p.ndims = 5 then [d, y] else [y]

/-- The start of a row of `diff_src`, for the block `c` of channels. -/
def srcRow (n c d y : ℤ) : ℤ := p.diffSrcD.blkOff ([n, c] ++ p.spatial d y)

/-- The start of a row of `diff_dst`. -/
def dstRow (n c d y : ℤ) : ℤ := p.diffDstD.blkOff ([n, c] ++ p.spatial d y)

/-- The start of a row of the filter, for the blocks `o` and `c` of output and input channels. -/
def whtRow (g o c d y : ℤ) : ℤ := p.whtBlkOff g ([o, c] ++ p.spatial d y)

end Rows

theorem blkOff_three (md : MemoryDesc) (a b c : ℤ) :
    md.blkOff [a, b, c] = a * md.blocking.strides 0 + b * md.blocking.strides 1 + c * md.blocking.strides 2 + md.offset0 := by
  simp [MemoryDesc.blkOff]
  ring

theorem blkOff_four (md : MemoryDesc) (a b c d : ℤ) : md.blkOff [a, b, c, d] =
    a * md.blocking.strides 0 + b * md.blocking.strides 1 + c * md.blocking.strides 2 + d * md.blocking.strides 3 +
      md.offset0 := by
  simp [MemoryDesc.blkOff]
  ring

theorem blkOff_five (md : MemoryDesc) (a b c d e : ℤ) : md.blkOff [a, b, c, d, e] =
    a * md.blocking.strides 0 + b * md.blocking.strides 1 + c * md.blocking.strides 2 + d * md.blocking.strides 3 +
      e * md.blocking.strides 4 + md.offset0 := by
  simp [MemoryDesc.blkOff]
  ring

/-- The strides of the images in blocks of 16 channels. -/
theorem dat_strides {md : MemoryDesc} (hnd : md.ndims = p.ndims) (hrank : p.ndims = 4 ∨ p.ndims = 5)
    (hmatch : md.matchesTag p.datTag = true) (hpos : ∀ d < p.ndims, 0 < md.dims d) :
    if p.ndims = 4 then
      md.blocking.strides 0 = (16 * (divUp (md.dims 1) 16 * (md.dims 2 * md.dims 3)) : ℕ) ∧
        md.blocking.strides 1 = (16 * (md.dims 2 * md.dims 3) : ℕ) ∧ md.blocking.strides 2 = (16 * md.dims 3 : ℕ)
    else
      md.blocking.strides 0 = (16 * (divUp (md.dims 1) 16 * (md.dims 2 * (md.dims 3 * md.dims 4))) : ℕ) ∧
        md.blocking.strides 1 = (16 * (md.dims 2 * (md.dims 3 * md.dims 4)) : ℕ) ∧
        md.blocking.strides 2 = (16 * (md.dims 3 * md.dims 4) : ℕ) ∧ md.blocking.strides 3 = (16 * md.dims 4 : ℕ) := by
  rw [← hnd] at hpos
  unfold datTag at hmatch
  rcases hrank with hr | hr
  · rw [if_neg (by omega), if_pos hr] at hmatch
    obtain ⟨-, hinner, hdense⟩ := md.matchesTag_strides hmatch rfl (by omega) hpos
    have hinner : md.blocking.inner = [⟨1, 16⟩] := hinner
    rw [hinner] at hdense
    obtain ⟨h0, h1, h2, -⟩ := hdense
    rw [if_pos hr, h0, h1, h2]
    simp [innerBlocks, blockSize, Function.update, divUp_one]
  · rw [if_neg (by omega), if_neg (by omega)] at hmatch
    obtain ⟨-, hinner, hdense⟩ := md.matchesTag_strides hmatch rfl (by omega) hpos
    have hinner : md.blocking.inner = [⟨1, 16⟩] := hinner
    rw [hinner] at hdense
    obtain ⟨h0, h1, h2, h3, -⟩ := hdense
    rw [if_neg (by omega), h0, h1, h2, h3]
    simp [innerBlocks, blockSize, Function.update, divUp_one]

namespace Accepted

variable {isa : CpuIsa} {l1CacheSize : ℕ} {jcp : Jcp} (h : p.Accepted isa l1CacheSize jcp)

include h

theorem srcRow_eq {n c d y : ℤ} (hd : p.ndims = 4 → d = 0) : p.srcRow n c d y =
    16 * p.width.input * (((n * (p.ngroups * p.nbIc) + c) * p.depth.input + d) * p.height.input + y) := by
  have hstrides := dat_strides rfl h.wellFormed.rank h.configured.src_tag h.wellFormed.src_pos
  rw [h.nbIc_eq.2] at hstrides
  unfold srcRow spatial depth height width
  rcases h.wellFormed.rank with hr | hr
  · simp only [hr, Nat.reduceEqDiff, if_false, if_true, Nat.reduceSub] at hstrides ⊢
    obtain ⟨h0, h1, h2⟩ := hstrides
    rw [List.cons_append, List.cons_append, List.nil_append, blkOff_three, h0, h1, h2, h.wellFormed.src_offset0, hd hr]
    push_cast
    ring
  · simp only [hr, Nat.reduceEqDiff, if_false, if_true, Nat.reduceSub] at hstrides ⊢
    obtain ⟨h0, h1, h2, h3⟩ := hstrides
    rw [List.cons_append, List.cons_append, List.nil_append, blkOff_four, h0, h1, h2, h3, h.wellFormed.src_offset0]
    push_cast
    ring

theorem dstRow_eq {n c d y : ℤ} (hd : p.ndims = 4 → d = 0) : p.dstRow n c d y =
    p.dstRow n c 0 0 + 16 * p.width.output * (d * p.height.output + y) := by
  have hstrides := dat_strides h.wellFormed.dst_ndims h.wellFormed.rank h.configured.dst_tag h.wellFormed.dst_pos
  unfold dstRow spatial height width
  rcases h.wellFormed.rank with hr | hr
  · simp only [hr, Nat.reduceEqDiff, if_false, if_true, Nat.reduceSub] at hstrides ⊢
    obtain ⟨h0, h1, h2⟩ := hstrides
    rw [List.cons_append, List.cons_append, List.nil_append, List.cons_append, List.cons_append, List.nil_append,
      blkOff_three, blkOff_three, h0, h1, h2, hd hr]
    push_cast
    ring
  · simp only [hr, Nat.reduceEqDiff, if_false, if_true, Nat.reduceSub] at hstrides ⊢
    obtain ⟨h0, h1, h2, h3⟩ := hstrides
    rw [List.cons_append, List.cons_append, List.nil_append, List.cons_append, List.cons_append, List.nil_append,
      blkOff_four, blkOff_four, h0, h1, h2, h3]
    push_cast
    ring

theorem whtRow_eq {g o c d y : ℤ} (hd : p.ndims = 4 → d = 0) : p.whtRow g o c d y =
    p.whtRow g o 0 0 0 + 16 * 16 * p.width.kernel * ((c * p.depth.kernel + d) * p.height.kernel + y) := by
  have hmatch := h.configured.wei_tag
  have hpos := h.wellFormed.wei_pos
  rw [← h.wellFormed.wei_ndims] at hpos
  have hnd := h.wellFormed.wei_ndims
  unfold whtRow whtBlkOff spatial depth height width
  unfold weiTag at hmatch
  unfold groupDims at hnd ⊢
  rcases h.wellFormed.rank with hr | hr
  · cases hg : p.withGroups with
    | true =>
      rw [hg, if_pos rfl, hr] at hnd
      rw [hg, if_pos rfl, if_neg (by omega), if_pos hr] at hmatch
      obtain ⟨-, hinner, hdense⟩ := p.weightsD.matchesTag_strides hmatch rfl (by omega) hpos
      have hinner : p.weightsD.blocking.inner = [⟨1, 16⟩, ⟨2, 16⟩] := hinner
      rw [hinner] at hdense
      obtain ⟨h0, h1, h2, h3, -⟩ := hdense
      simp only [hr, Nat.reduceEqDiff, if_false, if_true, Nat.reduceSub, Nat.reduceAdd,
        List.cons_append, List.nil_append]
      rw [blkOff_four, blkOff_four, h2, h3, hd hr]
      simp [innerBlocks, blockSize, Function.update, divUp_one]
      ring
    | false =>
      rw [hg, if_neg (by decide), hr] at hnd
      rw [hg, if_neg (by decide), if_neg (by omega), if_pos hr] at hmatch
      obtain ⟨-, hinner, hdense⟩ := p.weightsD.matchesTag_strides hmatch rfl (by omega) hpos
      have hinner : p.weightsD.blocking.inner = [⟨0, 16⟩, ⟨1, 16⟩] := hinner
      rw [hinner] at hdense
      obtain ⟨h0, h1, h2, -⟩ := hdense
      simp only [hr, Nat.reduceEqDiff, if_false, Nat.reduceSub, Nat.reduceAdd,
        List.cons_append, List.nil_append, Bool.false_eq_true]
      rw [blkOff_three, blkOff_three, h1, h2, hd hr]
      simp [innerBlocks, blockSize, Function.update, divUp_one]
      ring
  · cases hg : p.withGroups with
    | true =>
      rw [hg, if_pos rfl, hr] at hnd
      rw [hg, if_pos rfl, if_neg (by omega), if_neg (by omega)] at hmatch
      obtain ⟨-, hinner, hdense⟩ := p.weightsD.matchesTag_strides hmatch rfl (by omega) hpos
      have hinner : p.weightsD.blocking.inner = [⟨1, 16⟩, ⟨2, 16⟩] := hinner
      rw [hinner] at hdense
      obtain ⟨h0, h1, h2, h3, h4, -⟩ := hdense
      simp only [hr, Nat.reduceEqDiff, if_false, if_true, Nat.reduceSub, Nat.reduceAdd,
        List.cons_append, List.nil_append]
      rw [blkOff_five, blkOff_five, h2, h3, h4]
      simp [innerBlocks, blockSize, Function.update, divUp_one]
      ring
    | false =>
      rw [hg, if_neg (by decide), hr] at hnd
      rw [hg, if_neg (by decide), if_neg (by omega), if_neg (by omega)] at hmatch
      obtain ⟨-, hinner, hdense⟩ := p.weightsD.matchesTag_strides hmatch rfl (by omega) hpos
      have hinner : p.weightsD.blocking.inner = [⟨0, 16⟩, ⟨1, 16⟩] := hinner
      rw [hinner] at hdense
      obtain ⟨h0, h1, h2, h3, -⟩ := hdense
      simp only [hr, Nat.reduceEqDiff, if_false, if_true, Nat.reduceSub, Nat.reduceAdd,
        List.cons_append, List.nil_append, Bool.false_eq_true]
      rw [blkOff_four, blkOff_four, h1, h2, h3]
      simp [innerBlocks, blockSize, Function.update, divUp_one]
      ring

end Accepted

end Problem

end MklDnn.Avx512BwdData
