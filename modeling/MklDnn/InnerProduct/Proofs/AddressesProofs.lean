import MklDnn.InnerProduct.GemmInnerProduct
import MklDnn.InnerProduct.Proofs.LayoutProofs

/-!
# Proofs: the elements that the GEMM of an inner product addresses

The GEMM of every pass takes the source to be one row of `IC_total_padded` elements for each image, and the weights to be
such a row, or a column, for each output channel. The check accepts other layouts, too.
-/

open LoopNest Offsets

namespace MklDnn

namespace InnerProductPd

/-- An inner product that was described, on tensors that are not empty. -/
structure Described (pd : InnerProductPd) : Prop where
  init : ∃ biasDesc, ipDescInit pd.srcMd pd.weightsMd biasDesc pd.dstMd = .ok pd
  src : pd.srcMd.Operand
  weights : pd.weightsMd.Operand
  dst : pd.dstMd.Operand
  /-- No format tag blocks a tensor of one dimension. -/
  bias : pd.withBias = true → pd.biasMd.Operand ∧ pd.biasMd.blocking.inner = []
  nonempty : pd.hasZeroDimMemory = false

/-- What `ip_desc_init` checks. -/
structure Shapes (pd : InnerProductPd) : Prop where
  ndims : pd.ndims ∈ [2, 3, 4, 5]
  dstNdims : pd.dstMd.ndims = 2
  weightsNdims : pd.weightsMd.ndims = pd.ndims
  biasNdims : pd.withBias = true → pd.biasMd.ndims = 1
  biasDims : pd.withBias = true → pd.biasMd.dims 0 = pd.OC
  mb : pd.dstMd.dims 0 = pd.MB
  dims : ∀ d, 1 ≤ d → d < pd.ndims → pd.weightsMd.dims d = pd.srcMd.dims d
  oc : pd.weightsMd.dims 0 = pd.OC

variable {pd : InnerProductPd}

theorem shapes_of_init {biasDesc : Option MemoryDesc} (h : ipDescInit pd.srcMd pd.weightsMd biasDesc pd.dstMd = .ok pd) :
    pd.Shapes := by
  unfold ipDescInit at h
  dsimp only at h
  split_ifs at h with hconds
  obtain ⟨-, hnd, hdst, hwnd, hbnd, hbdims, hmb, hdims, hoc⟩ := hconds
  have hbias : (biasDesc.filter fun md => md.formatKind ≠ .undef).getD zeroMd = pd.biasMd :=
    congrArg InnerProductPd.biasMd (Except.ok.inj h)
  rw [hbias] at hbnd hbdims
  have hany : pd.withBias = true → (biasDesc.any fun md => md.formatKind ≠ .undef) = true := by
    intro hwith
    unfold withBias at hwith
    rw [← hbias] at hwith
    cases biasDesc with
    | none => simp [zeroMd, MemoryDesc.isZero] at hwith
    | some md =>
      by_cases hk : md.formatKind = .undef
      · rw [Option.filter_some, if_neg (by simp [hk])] at hwith
        simp [zeroMd, MemoryDesc.isZero] at hwith
      · simp [hk]
  exact {
    ndims := hnd
    dstNdims := hdst
    weightsNdims := hwnd
    biasNdims := fun hwith => hbnd (hany hwith)
    biasDims := fun hwith => hbdims (hany hwith)
    mb := hmb.symm
    dims := fun d hd hlt => by
      have heq := hdims (d - 1) (by have hlt' : d < pd.srcMd.ndims := hlt; omega)
      rw [Nat.sub_add_cancel hd] at heq
      exact heq.symm
    oc := hoc.symm }

namespace Described

variable (h : pd.Described)

include h

theorem shapes : pd.Shapes := by
  obtain ⟨_, hinit⟩ := h.init
  exact shapes_of_init hinit

theorem two_le_ndims : 2 ≤ pd.ndims := by
  have hnd := h.shapes.ndims
  simp only [List.mem_cons, List.not_mem_nil, or_false] at hnd
  omega

theorem srcDims_pos {d : ℕ} (hd : d < pd.ndims) : 0 < pd.srcMd.dims d := by
  have hzero := h.nonempty
  unfold hasZeroDimMemory at hzero
  rw [Bool.or_eq_false_iff] at hzero
  exact pd.srcMd.dims_pos hzero.1 hd

theorem mb_pos : 0 < pd.MB := h.srcDims_pos (Nat.lt_of_lt_of_le Nat.zero_lt_two h.two_le_ndims)

theorem oc_pos : 0 < pd.OC := by
  have hzero := h.nonempty
  unfold hasZeroDimMemory at hzero
  rw [Bool.or_eq_false_iff] at hzero
  exact pd.dstMd.dims_pos hzero.2 (by rw [h.shapes.dstNdims]; omega)

theorem srcPaddedDims_pos {d : ℕ} (hd : d < pd.ndims) : 0 < pd.srcMd.paddedDims d :=
  (h.srcDims_pos hd).trans_le (h.src.wellFormed.dims_le d hd)

theorem icTotalPadded_pos : 0 < pd.icTotalPadded := by
  apply List.prod_pos
  intro x hx
  obtain ⟨d, hd, rfl⟩ := List.mem_map.mp hx
  rw [List.mem_range'_1] at hd
  exact h.srcPaddedDims_pos (by omega)

end Described

/-! ## What the GEMM addresses -/

/-- The indices of the elements of an image, padding included. -/
def paddedTaps (pd : InnerProductPd) : List (List ℕ) := positions (pd.srcMd.imageDims pd.srcMd.paddedDims)

/-- The offsets that a GEMM has for the elements of the three tensors are those that the descriptors give them: element `k`
of a row of the source and element `k` of the weights of a channel have the same indices. -/
def Addresses (pd : InnerProductPd) (tap : ℕ → List ℕ) (srcOff weightsOff dstOff : ℕ → ℕ → ℕ) : Prop :=
  Set.BijOn tap {k | k < pd.icTotalPadded} {t | t ∈ pd.paddedTaps} ∧
    (∀ n < pd.MB, ∀ k < pd.icTotalPadded, (srcOff n k : ℤ) = pd.srcMd.off (n :: tap k)) ∧
    (∀ oc < pd.OC, ∀ k < pd.icTotalPadded, (weightsOff oc k : ℤ) = pd.weightsMd.off (oc :: tap k)) ∧
    ∀ n < pd.MB, ∀ oc < pd.OC, (dstOff n oc : ℤ) = pd.dstMd.off [n, oc]

/-- The source as a matrix. -/
def srcOff (pd : InnerProductPd) (n k : ℕ) : ℕ := k + n * pd.icTotalPadded

/-- The weights as a matrix. -/
def weightsOff (pd : InnerProductPd) (oc k : ℕ) : ℕ := if pd.weiTr then k + oc * pd.icTotalPadded else oc + k * pd.OC

/-- The destination as a matrix. -/
def dstOff (pd : InnerProductPd) (n oc : ℕ) : ℕ := oc + n * pd.OC

theorem fwdGemm_offs (pd : InnerProductPd) : (fun n k => pd.fwdGemm.bOff k n) = pd.srcOff ∧
    pd.fwdGemm.aOff = pd.weightsOff ∧ (fun n oc => pd.fwdGemm.cOff oc n) = pd.dstOff := by
  refine ⟨rfl, ?_, rfl⟩
  funext oc k
  unfold GemmArgs.aOff weightsOff fwdGemm
  dsimp only
  split_ifs <;> rfl

theorem bwdDataGemm_offs (pd : InnerProductPd) : (fun n k => pd.bwdDataGemm.cOff k n) = pd.srcOff ∧
    (fun oc k => pd.bwdDataGemm.aOff k oc) = pd.weightsOff ∧ (fun n oc => pd.bwdDataGemm.bOff oc n) = pd.dstOff := by
  refine ⟨rfl, ?_, rfl⟩
  funext oc k
  unfold GemmArgs.aOff weightsOff bwdDataGemm
  cases pd.weiTr <;> rfl

/-- In the backward pass by weights the operands depend on the layout of the weights. -/
theorem bwdWeightsGemm_offs (pd : InnerProductPd) :
    (pd.weiTr = false → (fun n k => pd.bwdWeightsGemm.bOff n k) = pd.srcOff ∧
      (fun oc k => pd.bwdWeightsGemm.cOff oc k) = pd.weightsOff ∧ (fun n oc => pd.bwdWeightsGemm.aOff oc n) = pd.dstOff) ∧
    (pd.weiTr = true → (fun n k => pd.bwdWeightsGemm.aOff k n) = pd.srcOff ∧
      (fun oc k => pd.bwdWeightsGemm.cOff k oc) = pd.weightsOff ∧ (fun n oc => pd.bwdWeightsGemm.bOff n oc) = pd.dstOff) := by
  constructor <;>
  · intro htr
    refine ⟨?_, ?_, ?_⟩ <;>
    · funext a b
      unfold bwdWeightsGemm
      rw [htr]
      first
        | rfl
        | unfold weightsOff
          rw [htr]
          rfl

/-! ## The layouts for which the addresses are right -/

/-- How far two elements of the weights of one output channel lie apart if those of the source are neighbours. -/
def channelStep (pd : InnerProductPd) : ℕ := if pd.weiTr then 1 else pd.OC

/-- The layouts that the GEMM is right for. -/
structure Suits (pd : InnerProductPd) : Prop where
  /-- The images of the source follow one another without gaps. -/
  images : Uniform pd.icTotalPadded (pd.srcMd.dimLoops 0)
  /-- An image is dense. -/
  image : Nestable pd.srcMd.imageLoops
  /-- Unless the output channels are the innermost dimension, their weights follow one another without gaps, too. -/
  channels : pd.weiTr = true → Uniform pd.icTotalPadded (pd.weightsMd.dimLoops 0)
  /-- The other dimensions of the weights have the strides of the source, or those times the number of output channels. -/
  strides : ∀ d, 1 ≤ d → d < pd.ndims → pd.weightsMd.outerBlocks d ≤ 1 ∨
    pd.weightsMd.blocking.strides d = pd.channelStep * pd.srcMd.blocking.strides d

section Accepted

variable (h : pd.Described) (hc : GemmConsistent pd.srcMd pd.weightsMd pd.dstMd)

include h

theorem Described.weightsNdims_pos : 0 < pd.weightsMd.ndims := by
  rw [h.shapes.weightsNdims]
  exact Nat.lt_of_lt_of_le Nat.zero_lt_two h.two_le_ndims

theorem Described.src_off {t : List ℕ} (ht : t ∈ pd.paddedTaps) (n : ℕ) :
    pd.srcMd.off (n :: t) = pd.srcMd.dimOff 0 n + termSum pd.srcMd.dimOff 1 t :=
  h.src.off_cons n (MemoryDesc.length_of_mem_image ht) (Nat.lt_of_lt_of_le Nat.zero_lt_two h.two_le_ndims)

theorem Described.weights_off {t : List ℕ} (ht : t ∈ pd.paddedTaps) (oc : ℕ) :
    pd.weightsMd.off (oc :: t) = pd.weightsMd.dimOff 0 oc + termSum pd.weightsMd.dimOff 1 t := by
  refine h.weights.off_cons oc ?_ h.weightsNdims_pos
  rw [h.shapes.weightsNdims]
  exact MemoryDesc.length_of_mem_image ht

include hc

theorem Described.srcPaddedDims_zero : pd.srcMd.paddedDims 0 = pd.MB :=
  (hc.srcPadded 0 (Nat.lt_of_lt_of_le Nat.zero_lt_two h.two_le_ndims) Nat.zero_ne_one).symm

theorem Described.weightsPaddedDims_zero : pd.weightsMd.paddedDims 0 = pd.OC := by
  rw [← hc.weiPadded 0 h.weightsNdims_pos Nat.zero_ne_one]
  exact h.shapes.oc

theorem Described.weightsPaddedDims {d : ℕ} (hd : 1 ≤ d) (hlt : d < pd.ndims) :
    pd.weightsMd.paddedDims d = pd.srcMd.paddedDims d := by
  by_cases hone : d = 1
  · rw [hone]
    exact hc.padded.symm
  · rw [← hc.weiPadded d (by rw [h.shapes.weightsNdims]; exact hlt) hone, ← hc.srcPadded d hlt hone]
    exact h.shapes.dims d hd hlt

/-- The two-dimensional destination is stored row by row. -/
theorem Described.dst_off {n oc : ℕ} : pd.dstMd.off [n, oc] = pd.dstOff n oc := by
  have hnd := h.shapes.dstNdims
  have hpos : ∀ d < pd.dstMd.ndims, 0 < pd.dstMd.dims d := by
    intro d hd
    have hzero := h.nonempty
    unfold hasZeroDimMemory at hzero
    rw [Bool.or_eq_false_iff] at hzero
    exact pd.dstMd.dims_pos hzero.2 hd
  have hargs : blockingArgs .ab = some ⟨[0, 1], [], []⟩ := rfl
  obtain ⟨-, hinner, hdense⟩ := MemoryDesc.matchesTag_strides hc.dst hargs (by omega) hpos
  have hinner : pd.dstMd.blocking.inner = [] := hinner
  rw [hinner] at hdense
  obtain ⟨hrow, hcol, -⟩ := hdense
  have hcol : pd.dstMd.blocking.strides 1 = 1 := hcol
  have hrow : pd.dstMd.blocking.strides 0 = pd.OC := by
    have hone : divUp (pd.dstMd.dims 1) (innerBlocks [] 1) = pd.OC := by
      rw [innerBlocks_nil, divUp, Nat.add_sub_cancel, Nat.div_one]
      rfl
    refine hrow.trans (congrArg Nat.cast ?_)
    show blockSize [] * (divUp (pd.dstMd.dims 1) (innerBlocks [] 1) * 1) = pd.OC
    rw [hone, blockSize_nil, Nat.one_mul, Nat.mul_one]
  rw [h.dst.off_cons n (by rw [hnd]; rfl) (by omega)]
  unfold termSum termSum MemoryDesc.dimOff dstOff
  rw [hinner]
  simp only [innerOff, innerBlocks_nil, Nat.div_one, hrow, hcol]
  push_cast
  ring

/-! ## The weights against the source -/

/-- Without a transposition the innermost block of the weights, if there is one, holds all output channels. -/
theorem Described.lastBlock (htr : pd.weiTr = false) : pd.weightsMd.blocking.inner = [] ∧ pd.srcMd.blocking.inner = [] ∨
    pd.weightsMd.blocking.inner = pd.srcMd.blocking.inner ++ [⟨0, pd.OC⟩] := by
  have hone : pd.weightsMd.blocking.strides 0 = 1 := by simpa [weiTr] using htr
  rcases hc.inner.tail hone with hnil | ⟨blk, happ, hdiv⟩
  · exact Or.inl hnil
  · right
    have hdvd := h.weights.blocks 0 h.weightsNdims_pos
    rw [h.weightsPaddedDims_zero hc, happ, innerBlocks_concat, if_pos rfl] at hdvd
    rw [h.shapes.oc] at hdiv
    have hblk : pd.OC = blk := by
      have hmul := Nat.div_mul_cancel (dvd_of_mul_left_dvd hdvd)
      rw [hdiv, Nat.one_mul] at hmul
      exact hmul.symm
    rw [happ, hblk]

theorem Described.innerBlocks_weights {d : ℕ} (hd : 1 ≤ d) :
    innerBlocks pd.weightsMd.blocking.inner d = innerBlocks pd.srcMd.blocking.inner d := by
  cases htr : pd.weiTr with
  | true => rw [hc.inner.same (of_decide_eq_true htr)]
  | false =>
    rcases h.lastBlock hc htr with ⟨hwei, hsrc⟩ | happ
    · rw [hwei, hsrc]
    · rw [happ, innerBlocks_concat, if_neg (by show 0 ≠ d; omega), Nat.mul_one]

theorem Described.innerOff_weights {d : ℕ} (hd : 1 ≤ d) (x : ℕ) :
    innerOff pd.weightsMd.blocking.inner d x = pd.channelStep * innerOff pd.srcMd.blocking.inner d x := by
  unfold channelStep
  cases htr : pd.weiTr with
  | true => rw [hc.inner.same (of_decide_eq_true htr), if_pos rfl, Nat.one_mul]
  | false =>
    rw [if_neg Bool.false_ne_true]
    rcases h.lastBlock hc htr with ⟨hwei, hsrc⟩ | happ
    · rw [hwei, hsrc]
      rfl
    · rw [happ, innerOff_concat_of_ne (by show 0 ≠ d; omega)]

/-- Without a transposition the output channels are neighbours. -/
theorem Described.dimOff_channel (htr : pd.weiTr = false) {oc : ℕ} (hoc : oc < pd.OC) : pd.weightsMd.dimOff 0 oc = oc := by
  have hone : pd.weightsMd.blocking.strides 0 = 1 := by simpa [weiTr] using htr
  unfold MemoryDesc.dimOff
  rcases h.lastBlock hc htr with ⟨hwei, -⟩ | happ
  · rw [hwei, hone, innerBlocks_nil, Nat.div_one, mul_one]
    exact zero_add _
  · have hpos : 0 < innerBlocks pd.srcMd.blocking.inner 0 := h.src.innerBlocks_pos 0
    have hself := innerOff_concat_self pd.srcMd.blocking.inner ⟨0, pd.OC⟩ oc
    rw [Nat.mod_eq_of_lt hoc, Nat.div_eq_of_lt hoc, innerOff_zero, Nat.mul_zero, Nat.add_zero] at hself
    rw [happ, hself, innerBlocks_concat, if_pos rfl, Nat.div_eq_of_lt (hoc.trans_le (Nat.le_mul_of_pos_left _ hpos)),
      Nat.cast_zero, zero_mul, add_zero]

/-- The weights of a channel have the order of an image exactly if the strides of their outer blocks have. -/
theorem Described.dimOff_weights_iff {d : ℕ} (hd : 1 ≤ d) (hlt : d < pd.ndims) :
    (∀ x < pd.srcMd.paddedDims d, pd.weightsMd.dimOff d x = pd.channelStep * pd.srcMd.dimOff d x) ↔
      pd.weightsMd.outerBlocks d ≤ 1 ∨
        pd.weightsMd.blocking.strides d = pd.channelStep * pd.srcMd.blocking.strides d := by
  have hblocks := h.innerBlocks_weights hc hd
  have hpadded := h.weightsPaddedDims hc hd hlt
  have houter : pd.weightsMd.outerBlocks d * innerBlocks pd.srcMd.blocking.inner d = pd.srcMd.paddedDims d := by
    rw [← hblocks, ← hpadded]
    exact h.weights.outerBlocks_mul (by rw [h.shapes.weightsNdims]; exact hlt)
  have hpos : 0 < innerBlocks pd.srcMd.blocking.inner d := h.src.innerBlocks_pos d
  constructor
  · intro hall
    rcases Nat.lt_or_ge 1 (pd.weightsMd.outerBlocks d) with hmore | hone
    · right
      have heq := hall (innerBlocks pd.srcMd.blocking.inner d) (by rw [← houter]; nlinarith)
      rwa [h.src.dimOff_innerBlocks d, ← hblocks, h.weights.dimOff_innerBlocks d] at heq
    · exact Or.inl hone
  · intro hor x hx
    unfold MemoryDesc.dimOff
    rw [hblocks, h.innerOff_weights hc hd]
    rcases hor with hone | hstride
    · have hzero : x / innerBlocks pd.srcMd.blocking.inner d = 0 := by
        apply Nat.div_eq_of_lt
        rw [← houter] at hx
        nlinarith
      rw [hzero]
      push_cast
      ring
    · rw [hstride]
      push_cast
      ring

end Accepted

/-! ## The layouts that the GEMM is right for -/

/-- Where the weights of an output channel start. -/
def channelOff (pd : InnerProductPd) (oc : ℕ) : ℕ := if pd.weiTr then oc * pd.icTotalPadded else oc

theorem weightsOff_eq (pd : InnerProductPd) (oc k : ℕ) :
    pd.weightsOff oc k = pd.channelOff oc + pd.channelStep * k := by
  unfold weightsOff channelOff channelStep
  split_ifs
  · rw [Nat.one_mul, Nat.add_comm]
  · rw [Nat.mul_comm]

section Accepted

variable (h : pd.Described) (hc : GemmConsistent pd.srcMd pd.weightsMd pd.dstMd)

include h

/-- The offset in the image `n` is that in the image zero, moved. -/
theorem Described.src_off_zero {t : List ℕ} (ht : t ∈ pd.paddedTaps) (n : ℕ) :
    pd.srcMd.off (n :: t) = pd.srcMd.dimOff 0 n + pd.srcMd.off (0 :: t) := by
  rw [h.src_off ht n, h.src_off ht 0, MemoryDesc.dimOff_zero, zero_add]

theorem Described.image_iff : Set.BijOn (fun t => pd.srcMd.off (0 :: t)) {t | t ∈ pd.paddedTaps}
    {y | 0 ≤ y ∧ y < (pd.icTotalPadded : ℤ)} ↔ Nestable pd.srcMd.imageLoops :=
  h.src.bijOn_image_iff (Nat.lt_of_lt_of_le Nat.zero_lt_two h.two_le_ndims)

/-- An index of one dimension only. -/
theorem Described.singleTap_mem {d v : ℕ} (hd : 1 ≤ d) (hlt : d < pd.ndims) (hv : v < pd.srcMd.paddedDims d) :
    ((List.range' 1 (pd.ndims - 1)).map fun e => if e = d then v else 0) ∈ pd.paddedTaps := by
  unfold paddedTaps MemoryDesc.imageDims
  rw [mem_positions, List.forall₂_map_left_iff, List.forall₂_map_right_iff]
  refine List.forall₂_same.mpr fun e he => ?_
  rw [List.mem_range'_1] at he
  split_ifs with heq
  · rw [heq]
    exact hv
  · exact h.srcPaddedDims_pos (by omega)

/-- The element of an image that is element `k` of its row. -/
theorem Described.exists_tap (hs : pd.Suits) : ∃ tap : ℕ → List ℕ,
    Set.BijOn tap {k | k < pd.icTotalPadded} {t | t ∈ pd.paddedTaps} ∧
      ∀ k < pd.icTotalPadded, pd.srcMd.off (0 :: tap k) = k := by
  have hbij := h.image_iff.mpr hs.image
  have hinv := hbij.invOn_invFunOn
  have hback := (Set.bijOn_comm hinv).mpr hbij
  refine ⟨fun k => Function.invFunOn (fun t => pd.srcMd.off (0 :: t)) {t | t ∈ pd.paddedTaps} (k : ℤ),
    hback.comp (f := fun k : ℕ => (k : ℤ)) ⟨?_, ?_, ?_⟩, ?_⟩
  · exact fun k hk => ⟨Int.natCast_nonneg k, Int.ofNat_lt.mpr hk⟩
  · exact fun k _ k' _ heq => Int.ofNat_inj.mp heq
  · rintro y ⟨hy, hlt⟩
    exact ⟨y.toNat, by show y.toNat < _; omega, Int.toNat_of_nonneg hy⟩
  · exact fun k hk => hinv.2 ⟨Int.natCast_nonneg k, by exact_mod_cast hk⟩

include hc

theorem Described.suits_of_addresses {tap : ℕ → List ℕ}
    (ha : Addresses pd tap pd.srcOff pd.weightsOff pd.dstOff) : pd.Suits := by
  obtain ⟨hbij, hsrc, hwei, -⟩ := ha
  have hK := h.icTotalPadded_pos
  have htap : ∀ k < pd.icTotalPadded, tap k ∈ pd.paddedTaps := fun k hk => hbij.mapsTo hk
  -- the images start at multiples of the size of one, the image zero has the elements in the order of the row
  have hzero : ∀ k < pd.icTotalPadded, pd.srcMd.off (0 :: tap k) = k := by
    intro k hk
    have heq := hsrc 0 h.mb_pos k hk
    unfold srcOff at heq
    rw [← heq]
    push_cast
    ring
  have hweiZero : ∀ k < pd.icTotalPadded, termSum pd.weightsMd.dimOff 1 (tap k) = pd.channelStep * k := by
    intro k hk
    have heq := hwei 0 h.oc_pos k hk
    rw [h.weights_off (htap k hk), MemoryDesc.dimOff_zero, zero_add, weightsOff_eq] at heq
    rw [← heq]
    unfold channelOff
    simp
  refine ⟨?_, ?_, ?_, ?_⟩
  · rw [← h.src.dimOff_iff_uniform (Nat.lt_of_lt_of_le Nat.zero_lt_two h.two_le_ndims)
      (h.srcPaddedDims_pos (Nat.lt_of_lt_of_le Nat.zero_lt_two h.two_le_ndims)), h.srcPaddedDims_zero hc]
    intro n hn
    have heq := hsrc n hn 0 hK
    rw [h.src_off_zero (htap 0 hK), hzero 0 hK] at heq
    unfold srcOff at heq
    push_cast at heq
    linarith
  · rw [← h.image_iff]
    refine ⟨?_, ?_, ?_⟩
    · intro t ht
      obtain ⟨k, hk, rfl⟩ := hbij.surjOn ht
      show 0 ≤ pd.srcMd.off _ ∧ pd.srcMd.off _ < _
      rw [hzero k hk]
      exact ⟨Int.natCast_nonneg k, by exact_mod_cast hk⟩
    · intro t ht t' ht' heq
      obtain ⟨k, hk, rfl⟩ := hbij.surjOn ht
      obtain ⟨k', hk', rfl⟩ := hbij.surjOn ht'
      have heq : pd.srcMd.off (0 :: tap k) = pd.srcMd.off (0 :: tap k') := heq
      rw [hzero k hk, hzero k' hk'] at heq
      rw [Int.ofNat_inj.mp heq]
    · rintro y ⟨hy, hlt⟩
      have hk : y.toNat < pd.icTotalPadded := by omega
      refine ⟨tap y.toNat, htap _ hk, ?_⟩
      show pd.srcMd.off _ = y
      rw [hzero _ hk, Int.toNat_of_nonneg hy]
  · intro htr
    rw [← h.weights.dimOff_iff_uniform h.weightsNdims_pos (by rw [h.weightsPaddedDims_zero hc]; exact h.oc_pos),
      h.weightsPaddedDims_zero hc]
    intro oc hoc
    have heq := hwei oc hoc 0 hK
    rw [h.weights_off (htap 0 hK), hweiZero 0 hK, weightsOff_eq, channelOff, htr, if_pos rfl] at heq
    push_cast at heq
    linarith
  · intro d hd hlt
    rcases Nat.lt_or_ge 1 (pd.weightsMd.outerBlocks d) with hmore | hone
    · right
      -- the first element of the second outer block
      have hpos : 0 < innerBlocks pd.srcMd.blocking.inner d := h.src.innerBlocks_pos d
      have houter := h.weights.outerBlocks_mul (d := d) (by rw [h.shapes.weightsNdims]; exact hlt)
      rw [h.innerBlocks_weights hc hd, h.weightsPaddedDims hc hd hlt] at houter
      have hmem := h.singleTap_mem (v := innerBlocks pd.srcMd.blocking.inner d) hd hlt (by rw [← houter]; nlinarith)
      obtain ⟨k, hk, hkt⟩ := hbij.surjOn hmem
      have hsrck := hzero k hk
      have hweik := hweiZero k hk
      rw [hkt] at hsrck hweik
      rw [h.src_off hmem, MemoryDesc.dimOff_zero, zero_add,
        termSum_replace (MemoryDesc.dimOff_zero _) _ hd (by omega), h.src.dimOff_innerBlocks] at hsrck
      rw [termSum_replace (MemoryDesc.dimOff_zero _) _ hd (by omega), ← h.innerBlocks_weights hc hd,
        h.weights.dimOff_innerBlocks] at hweik
      rw [hweik, hsrck]
    · exact Or.inl hone

theorem Described.addresses_of_suits (hs : pd.Suits) : ∃ tap, Addresses pd tap pd.srcOff pd.weightsOff pd.dstOff := by
  obtain ⟨tap, hbij, hzero⟩ := h.exists_tap hs
  have htap : ∀ k < pd.icTotalPadded, tap k ∈ pd.paddedTaps := fun k hk => hbij.mapsTo hk
  refine ⟨tap, hbij, ?_, ?_, fun n _ oc _ => (h.dst_off hc).symm⟩
  · intro n hn k hk
    have himages := (h.src.dimOff_iff_uniform (Nat.lt_of_lt_of_le Nat.zero_lt_two h.two_le_ndims)
      (h.srcPaddedDims_pos (Nat.lt_of_lt_of_le Nat.zero_lt_two h.two_le_ndims)) _).mpr hs.images n
        (by rw [h.srcPaddedDims_zero hc]; exact hn)
    rw [h.src_off_zero (htap k hk), hzero k hk, himages, srcOff]
    push_cast
    ring
  · intro oc hoc k hk
    -- the weights of a channel have the order of an image
    have hterms : termSum pd.weightsMd.dimOff 1 (tap k) = pd.channelStep * termSum pd.srcMd.dimOff 1 (tap k) :=
      termSum_smul (mem_positions.mp (htap k hk)) fun d hd hlt x hx =>
        (h.dimOff_weights_iff hc hd (by have hnd := h.two_le_ndims; unfold ndims at hnd ⊢; omega)).mpr
          (hs.strides d hd (by have hnd := h.two_le_ndims; unfold ndims at hnd ⊢; omega)) x hx
    have hrow := hzero k hk
    rw [h.src_off (htap k hk), MemoryDesc.dimOff_zero, zero_add] at hrow
    have hchannel : pd.weightsMd.dimOff 0 oc = pd.channelOff oc := by
      unfold channelOff
      cases htr : pd.weiTr with
      | true =>
        have huniform := (h.weights.dimOff_iff_uniform h.weightsNdims_pos
          (by rw [h.weightsPaddedDims_zero hc]; exact h.oc_pos) _).mpr (hs.channels htr) oc
            (by rw [h.weightsPaddedDims_zero hc]; exact hoc)
        rw [huniform, if_pos rfl]
        push_cast
        ring
      | false => rw [h.dimOff_channel hc htr hoc, if_neg Bool.false_ne_true]
    rw [h.weights_off (htap k hk), hterms, hrow, hchannel, weightsOff_eq]
    push_cast
    ring

/-- The GEMM has the addresses of the descriptors exactly for the layouts that suit it. -/
theorem Described.addresses_iff :
    (∃ tap, Addresses pd tap pd.srcOff pd.weightsOff pd.dstOff) ↔ pd.Suits :=
  ⟨fun ⟨_, ha⟩ => h.suits_of_addresses hc ha, h.addresses_of_suits hc⟩

end Accepted

end InnerProductPd

end MklDnn
