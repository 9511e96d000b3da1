import Mathlib.Data.List.Basic
import MklDnn.Common.PrimitiveHashing

/-!
# Equal keys and their hashes

The comparison of memory descriptors leaves out entries that the hash takes in. Keys whose memory
descriptors agree in these, and are equal, have the same hash.
-/

namespace MklDnn.PrimitiveHashing

/-! ## Arrays -/

section Arrays

variable {α : Type*} {a b : ℕ → α}

theorem arrayCmp_iff [BEq α] {size : ℤ} :
    arrayCmp a b size = true ↔ ∀ i : ℕ, (i : ℤ) < size → (a i == b i) = true := by
  unfold arrayCmp
  rw [List.all_eq_true]
  constructor
  · intro h i hi
    exact h i (List.mem_range.mpr (by omega))
  · intro h i hi
    exact h i (by have := List.mem_range.mp hi; omega)

theorem foldl_range_congr {β : Type*} {f g : β → ℕ → β} {n : ℕ}
    (h : ∀ i < n, ∀ seed, f seed i = g seed i) (seed : β) :
    (List.range n).foldl f seed = (List.range n).foldl g seed := by
  apply List.foldl_ext
  intro seed i hi
  exact h i (List.mem_range.mp hi) seed

theorem arrayHash_congr {h : α → UInt64} {size : ℕ} (hab : ∀ i < size, h (a i) = h (b i)) (seed : UInt64) :
    arrayHash h seed a size = arrayHash h seed b size := by
  apply foldl_range_congr
  intro i hi seed
  rw [hab i hi]

/-- The hash of an array of which only the entries below `n` are compared. -/
theorem arrayHash_of_arrayCmp [BEq α] [LawfulBEq α] {h : α → UInt64} {n : ℤ} {size : ℕ}
    (hcmp : arrayCmp a b n = true) (htail : ∀ i < size, n ≤ (i : ℤ) → a i = b i) (seed : UInt64) :
    arrayHash h seed a size = arrayHash h seed b size := by
  apply arrayHash_congr
  intro i hi
  rcases lt_or_ge (i : ℤ) n with hlt | hge
  · rw [eq_of_beq (arrayCmp_iff.mp hcmp i hlt)]
  · rw [htail i hi hge]

theorem arrayHash_float (H : StdHash) {a b : ℕ → F32} {n : ℤ} (hcmp : arrayCmp a b n = true)
    (seed : UInt64) :
    arrayHash H.float seed a n.toNat = arrayHash H.float seed b n.toNat := by
  apply arrayHash_congr
  intro i hi
  exact H.float_eq _ _ (arrayCmp_iff.mp hcmp i (by omega))

end Arrays

/-! ## Memory descriptors -/

/-- Two descriptors agree in what the hash takes in and their comparison leaves out. -/
structure UncomparedAgree (lhs rhs : MemoryDesc) : Prop where
  /-- The comparison of descriptors without dimensions stops at the quick path. -/
  noDims : lhs.ndims = 0 → rhs.ndims = 0 → lhs.eqFields rhs = true
  dims : ∀ i < maxNdims, lhs.ndims ≤ (i : ℤ) → lhs.dims i = rhs.dims i
  paddedDims : ∀ i < maxNdims, lhs.ndims ≤ (i : ℤ) → lhs.paddedDims i = rhs.paddedDims i
  paddedOffsets : ∀ i < maxNdims, lhs.ndims ≤ (i : ℤ) → lhs.paddedOffsets i = rhs.paddedOffsets i
  strides : lhs.formatKind = .blocked →
    ∀ i < maxNdims, lhs.ndims ≤ (i : ℤ) → lhs.blocking.strides i = rhs.blocking.strides i
  innerBlks : lhs.formatKind = .blocked →
    ∀ i < maxNdims, lhs.blocking.innerNblks ≤ (i : ℤ) →
      lhs.blocking.innerBlks i = rhs.blocking.innerBlks i
  innerIdxs : lhs.formatKind = .blocked →
    ∀ i < maxNdims, lhs.blocking.innerNblks ≤ (i : ℤ) →
      lhs.blocking.innerIdxs i = rhs.blocking.innerIdxs i
  adjScale : lhs.formatKind = .wino → (lhs.winoDesc.adjScale == rhs.winoDesc.adjScale) = true
  winoSize : lhs.formatKind = .wino → lhs.winoDesc.size = rhs.winoDesc.size
  parts : lhs.formatKind = .rnnPacked →
    ∀ i < rnnMaxNParts, lhs.rnnPackedDesc.nParts ≤ (i : ℤ) →
      lhs.rnnPackedDesc.parts i = rhs.rnnPackedDesc.parts i
  partPackSize : lhs.formatKind = .rnnPacked →
    ∀ i < rnnMaxNParts, lhs.rnnPackedDesc.nParts ≤ (i : ℤ) →
      lhs.rnnPackedDesc.partPackSize i = rhs.rnnPackedDesc.partPackSize i
  packPart : lhs.formatKind = .rnnPacked →
    ∀ i < rnnMaxNParts, lhs.rnnPackedDesc.packPart i = rhs.rnnPackedDesc.packPart i

/-- Two descriptors at the same place of two keys are one and the same, or agree in what the comparison
leaves out. -/
def SameUncompared (lhs rhs : MemoryDesc) : Prop := lhs = rhs ∨ UncomparedAgree lhs rhs

theorem eqFields_of_eq {lhs rhs : MemoryDesc} (h : (lhs == rhs) = true)
    (hnoDims : lhs.ndims = 0 → rhs.ndims = 0 → lhs.eqFields rhs = true) : lhs.eqFields rhs = true := by
  change MemoryDesc.eq lhs rhs = true at h
  unfold MemoryDesc.eq at h
  split_ifs at h with hzero
  · exact hnoDims hzero.1 hzero.2
  · exact h

section Hash

variable (H : StdHash)

theorem MemoryExtraDesc.hash_congr {lhs rhs : MemoryExtraDesc} (h : lhs.isEqual rhs = true) (seed : UInt64) :
    lhs.hash H seed = rhs.hash H seed := by
  simp only [MemoryExtraDesc.isEqual, Bool.and_eq_true, beq_iff_eq, Bool.or_eq_true, Bool.not_eq_true'] at h
  obtain ⟨⟨hflags, hmask⟩, hscale⟩ := h
  have hcomp : rhs.compensationConvS8s8 = lhs.compensationConvS8s8 := by
    unfold MemoryExtraDesc.compensationConvS8s8
    rw [hflags]
  have hadjust : rhs.hasScaleAdjust = lhs.hasScaleAdjust := by
    unfold MemoryExtraDesc.hasScaleAdjust
    rw [hflags]
  unfold MemoryExtraDesc.hash
  rw [hcomp, hadjust, ← hflags]
  rcases hmask with hmask | hmask
  · rcases hscale with hscale | hscale
    · simp only [hmask, hscale, Bool.false_eq_true, if_false]
    · simp only [hmask, H.float_eq _ _ hscale, Bool.false_eq_true, if_false]
  · rcases hscale with hscale | hscale
    · simp only [hmask, hscale, Bool.false_eq_true, if_false]
    · simp only [hmask, H.float_eq _ _ hscale]

theorem BlockingDesc.hash_congr {lhs rhs : BlockingDesc} {ndims : ℤ} (h : lhs.isEqual rhs ndims = true)
    (hstrides : ∀ i < maxNdims, ndims ≤ (i : ℤ) → lhs.strides i = rhs.strides i)
    (hblks : ∀ i < maxNdims, lhs.innerNblks ≤ (i : ℤ) → lhs.innerBlks i = rhs.innerBlks i)
    (hidxs : ∀ i < maxNdims, lhs.innerNblks ≤ (i : ℤ) → lhs.innerIdxs i = rhs.innerIdxs i) (seed : UInt64) :
    lhs.hash H seed = rhs.hash H seed := by
  simp only [BlockingDesc.isEqual, Bool.and_eq_true, beq_iff_eq] at h
  obtain ⟨⟨⟨hn, hs⟩, hb⟩, hi⟩ := h
  simp only [BlockingDesc.hash, arrayHash_of_arrayCmp hs hstrides, arrayHash_of_arrayCmp hb hblks,
    arrayHash_of_arrayCmp hi hidxs, hn]

theorem WinoDesc.hash_congr {lhs rhs : WinoDesc} (h : lhs.isEqual rhs = true)
    (hadj : (lhs.adjScale == rhs.adjScale) = true) (hsize : lhs.size = rhs.size) (seed : UInt64) :
    lhs.hash H seed = rhs.hash H seed := by
  simp only [WinoDesc.isEqual, Bool.and_eq_true, beq_iff_eq] at h
  simp only [WinoDesc.hash, h, H.float_eq _ _ hadj, hsize]

theorem RnnPackedDesc.hash_congr {lhs rhs : RnnPackedDesc} (h : lhs.isEqual rhs = true)
    (hparts : ∀ i < rnnMaxNParts, lhs.nParts ≤ (i : ℤ) → lhs.parts i = rhs.parts i)
    (hsizes : ∀ i < rnnMaxNParts, lhs.nParts ≤ (i : ℤ) → lhs.partPackSize i = rhs.partPackSize i)
    (hpack : ∀ i < rnnMaxNParts, lhs.packPart i = rhs.packPart i) (seed : UInt64) :
    lhs.hash H seed = rhs.hash H seed := by
  simp only [RnnPackedDesc.isEqual, Bool.and_eq_true, beq_iff_eq] at h
  obtain ⟨⟨⟨⟨⟨⟨⟨hformat, hldb⟩, hn⟩, hoff⟩, hsize⟩, hn'⟩, hp⟩, hs⟩ := h
  rw [← hn] at hp hs
  have hpack' : ∀ seed, arrayHash H.unsigned seed lhs.packPart rnnMaxNParts
      = arrayHash H.unsigned seed rhs.packPart rnnMaxNParts :=
    arrayHash_congr fun i hi => by rw [hpack i hi]
  simp only [RnnPackedDesc.hash, hformat, hldb, hn, hoff, hsize, hn', hpack',
    arrayHash_of_arrayCmp hp hparts, arrayHash_of_arrayCmp hs hsizes]

/-- Equal memory descriptors that agree in what the comparison leaves out have the same hash. -/
theorem mdHash_congr {lhs rhs : MemoryDesc} (h : (lhs == rhs) = true) (hrest : UncomparedAgree lhs rhs) :
    mdHash H lhs = mdHash H rhs := by
  have hfields := eqFields_of_eq h hrest.noDims
  simp only [MemoryDesc.eqFields, Bool.and_eq_true, beq_iff_eq] at hfields
  obtain ⟨⟨⟨⟨⟨⟨⟨⟨hndims, hdims⟩, htype⟩, hpadded⟩, hoffsets⟩, hoffset0⟩, hkind⟩, hextra⟩, hformat⟩ := hfields
  unfold mdHash
  simp only [arrayHash_of_arrayCmp hdims hrest.dims, htype, arrayHash_of_arrayCmp hpadded hrest.paddedDims,
    arrayHash_of_arrayCmp hoffsets hrest.paddedOffsets, hoffset0, MemoryExtraDesc.hash_congr H hextra]
  congr 1
  rw [← hkind]
  cases hk : lhs.formatKind with
  | undef => rfl
  | any => rfl
  | blocked =>
    rw [hk] at hformat
    exact BlockingDesc.hash_congr H hformat (hrest.strides hk) (hrest.innerBlks hk) (hrest.innerIdxs hk) _
  | wino =>
    rw [hk] at hformat
    exact WinoDesc.hash_congr H hformat (hrest.adjScale hk) (hrest.winoSize hk) _
  | rnnPacked =>
    rw [hk] at hformat
    exact RnnPackedDesc.hash_congr H hformat (hrest.parts hk) (hrest.partPackSize hk) (hrest.packPart hk) _

theorem hashMd_congr {lhs rhs : MemoryDesc} (h : (lhs == rhs) = true) (hrest : SameUncompared lhs rhs) :
    hashMd H lhs = hashMd H rhs := by
  unfold hashMd
  rcases hrest with rfl | hrest
  · rfl
  · rw [mdHash_congr H h hrest]

/-! ## Attributes -/

theorem Scales.hash_congr {lhs rhs : Scales} (h : lhs.eq rhs = true) (seed : UInt64) :
    lhs.hash H seed = rhs.hash H seed := by
  simp only [Scales.eq, Bool.and_eq_true, beq_iff_eq] at h
  obtain ⟨⟨hcount, hmask⟩, hscales⟩ := h
  simp only [Scales.hash, hmask]
  cases hl : lhs.scales with
  | none => rw [hl] at hscales; cases hscales
  | some a =>
    cases hr : rhs.scales with
    | none => rw [hl, hr] at hscales; cases hscales
    | some b =>
      rw [hl, hr] at hscales
      dsimp only at hscales ⊢
      rw [arrayHash_float H hscales, hcount]

theorem PostOpsEntry.hash_congr {lhs rhs : PostOpsEntry} (h : (lhs == rhs) = true) (seed : UInt64) :
    lhs.hash H seed = rhs.hash H seed := by
  change PostOpsEntry.eq lhs rhs = true at h
  simp only [PostOpsEntry.eq, Bool.and_eq_true, beq_iff_eq] at h
  obtain ⟨hkind, hentry⟩ := h
  unfold PostOpsEntry.hash
  rw [← hkind]
  cases hk : lhs.kind with
  | eltwise =>
    simp only [hk, Bool.and_eq_true, beq_iff_eq] at hentry
    obtain ⟨⟨⟨halg, hscale⟩, halpha⟩, hbeta⟩ := hentry
    simp only [halg, H.float_eq _ _ hscale, H.float_eq _ _ halpha, H.float_eq _ _ hbeta]
  | sum =>
    simp only [hk] at hentry
    simp only [H.float_eq _ _ hentry]
  | _ => rfl

/-- Equal attributes have the same hash. -/
theorem attrHash_congr {lhs rhs : PrimitiveAttr} (h : lhs.eq rhs = true) : attrHash H lhs = attrHash H rhs := by
  simp only [PrimitiveAttr.eq, Bool.and_eq_true, beq_iff_eq] at h
  obtain ⟨⟨⟨⟨⟨hmode, hscales⟩, hlen, hentries⟩, hscale, hshift⟩, hweights⟩, -⟩ := h
  have hops : ∀ seed,
      (List.range lhs.postOps.len.toNat).foldl (fun seed i => (lhs.postOps.entry i).hash H seed) seed
        = (List.range rhs.postOps.len.toNat).foldl (fun seed i => (rhs.postOps.entry i).hash H seed) seed := by
    rw [← hlen]
    apply foldl_range_congr
    intro i hi seed
    exact PostOpsEntry.hash_congr H (arrayCmp_iff.mp hentries i (by omega)) seed
  simp only [attrHash, hmode, Scales.hash_congr H hscales, hops, H.float_eq _ _ hscale, H.float_eq _ _ hshift,
    Scales.hash_congr H hweights]

/-! ## Descriptors of operations -/

/-- The memory descriptors of a descriptor of an operation. -/
def OpDesc.mds : OpDesc → List MemoryDesc
  | .batchNormalization desc =>
    [desc.dataDesc, desc.diffDataDesc, desc.dataScaleshiftDesc, desc.diffDataScaleshiftDesc,
      desc.statDesc]
  | .concat desc => desc.dstMd :: (List.range desc.n.toNat).map desc.srcMds
  | .convolution desc =>
    [desc.srcDesc, desc.diffSrcDesc, desc.weightsDesc, desc.diffWeightsDesc, desc.biasDesc,
      desc.diffBiasDesc, desc.dstDesc, desc.diffDstDesc]
  | .deconvolution desc =>
    [desc.srcDesc, desc.diffSrcDesc, desc.weightsDesc, desc.diffWeightsDesc, desc.biasDesc,
      desc.diffBiasDesc, desc.dstDesc, desc.diffDstDesc]
  | .eltwise desc => [desc.dataDesc, desc.diffDataDesc]
  | .gemm _ => []
  | .innerProduct desc =>
    [desc.srcDesc, desc.diffSrcDesc, desc.weightsDesc, desc.diffWeightsDesc, desc.biasDesc,
      desc.diffBiasDesc, desc.dstDesc, desc.diffDstDesc]
  | .layerNormalization desc =>
    [desc.dataDesc, desc.diffDataDesc, desc.dataScaleshiftDesc, desc.diffDataScaleshiftDesc,
      desc.statDesc]
  | .lrn desc => [desc.dataDesc, desc.diffDataDesc]
  | .pooling desc => [desc.srcDesc, desc.diffSrcDesc, desc.dstDesc, desc.diffDstDesc]
  | .reorder desc => [desc.srcMd, desc.dstMd]
  | .rnn desc =>
    [desc.srcLayerDesc, desc.srcIterDesc, desc.srcIterCDesc, desc.weightsLayerDesc,
      desc.weightsIterDesc, desc.biasDesc, desc.dstLayerDesc, desc.dstIterDesc, desc.dstIterCDesc,
      desc.placeholderDesc, desc.placeholder2Desc, desc.diffSrcLayerDesc, desc.diffSrcIterDesc,
      desc.diffSrcIterCDesc, desc.diffWeightsLayerDesc, desc.diffWeightsIterDesc, desc.diffBiasDesc,
      desc.diffDstLayerDesc, desc.diffDstIterDesc, desc.diffDstIterCDesc, desc.diffPlaceholderDesc,
      desc.diffPlaceholder2Desc]
  | .shuffle desc => [desc.dataDesc]
  | .softmax desc => [desc.dataDesc, desc.diffDesc]
  | .sum desc => desc.dstMd :: (List.range desc.n.toNat).map desc.srcMds

theorem hashMds {l r : List MemoryDesc} (h : List.Forall₂ SameUncompared l r) :
    List.Forall₂ (fun a b => (a == b) = true → hashMd H a = hashMd H b) l r :=
  h.imp fun _ _ hrest heq => hashMd_congr H heq hrest

/-- The hash of an array that is compared as a whole. -/
theorem arrayHash_dims (a b : ℕ → ℤ) (h : arrayCmp a b maxNdims = true) (seed : UInt64) :
    arrayHash H.dim seed a maxNdims = arrayHash H.dim seed b maxNdims :=
  arrayHash_of_arrayCmp h (fun _ hi hge => absurd hge (by omega)) seed

theorem ConvolutionDesc.hash_congr {lhs rhs : ConvolutionDesc} (h : lhs.eq rhs = true)
    (hmds : List.Forall₂ SameUncompared (OpDesc.convolution lhs).mds (OpDesc.convolution rhs).mds) :
    lhs.hash H = rhs.hash H := by
  simp only [ConvolutionDesc.eq, Bool.and_eq_true, beq_iff_eq] at h
  have hhash := hashMds H hmds
  simp only [OpDesc.mds, List.forall₂_cons, h, true_implies] at hhash
  have hstrides := arrayHash_dims H lhs.strides rhs.strides (by simp only [h])
  have hdilates := arrayHash_dims H lhs.dilates rhs.dilates (by simp only [h])
  have hpaddingL := arrayHash_dims H lhs.paddingL rhs.paddingL (by simp only [h])
  have hpaddingR := arrayHash_dims H lhs.paddingR rhs.paddingR (by simp only [h])
  simp only [ConvolutionDesc.hash, h, hhash, hstrides, hdilates, hpaddingL, hpaddingR]

theorem EltwiseDesc.hash_congr {lhs rhs : EltwiseDesc} (h : lhs.eq rhs = true)
    (hmds : List.Forall₂ SameUncompared (OpDesc.eltwise lhs).mds (OpDesc.eltwise rhs).mds) :
    lhs.hash H = rhs.hash H := by
  simp only [EltwiseDesc.eq, Bool.and_eq_true, beq_iff_eq] at h
  have hhash := hashMds H hmds
  simp only [OpDesc.mds, List.forall₂_cons, h, true_implies] at hhash
  have halpha := H.float_eq lhs.alpha rhs.alpha (by simp only [h])
  have hbeta := H.float_eq lhs.beta rhs.beta (by simp only [h])
  simp only [EltwiseDesc.hash, h, hhash, halpha, hbeta]

theorem GemmDesc.hash_congr {lhs rhs : GemmDesc} (h : lhs.eq rhs = true) :
    lhs.hash H = rhs.hash H := by
  simp only [GemmDesc.eq, Bool.and_eq_true, beq_iff_eq] at h
  have halpha := H.float_eq lhs.alpha rhs.alpha (by simp only [h])
  have hbeta := H.float_eq lhs.beta rhs.beta (by simp only [h])
  simp only [GemmDesc.hash, h, halpha, hbeta]

theorem InnerProductDesc.hash_congr {lhs rhs : InnerProductDesc} (h : lhs.eq rhs = true)
    (hmds : List.Forall₂ SameUncompared (OpDesc.innerProduct lhs).mds (OpDesc.innerProduct rhs).mds) :
    lhs.hash H = rhs.hash H := by
  simp only [InnerProductDesc.eq, Bool.and_eq_true, beq_iff_eq] at h
  have hhash := hashMds H hmds
  simp only [OpDesc.mds, List.forall₂_cons, h, true_implies] at hhash
  simp only [InnerProductDesc.hash, h, hhash]

theorem NormalizationDesc.hash_congr {lhs rhs : NormalizationDesc} (h : lhs.eq rhs = true)
    (hmds : List.Forall₂ SameUncompared (OpDesc.batchNormalization lhs).mds
      (OpDesc.batchNormalization rhs).mds) :
    lhs.hash H = rhs.hash H := by
  simp only [NormalizationDesc.eq, Bool.and_eq_true, beq_iff_eq] at h
  have hhash := hashMds H hmds
  simp only [OpDesc.mds, List.forall₂_cons, h, true_implies] at hhash
  have hepsilon := H.float_eq lhs.epsilon rhs.epsilon (by simp only [h])
  simp only [NormalizationDesc.hash, h, hhash, hepsilon]

theorem LrnDesc.hash_congr {lhs rhs : LrnDesc} (h : lhs.eq rhs = true)
    (hmds : List.Forall₂ SameUncompared (OpDesc.lrn lhs).mds (OpDesc.lrn rhs).mds) :
    lhs.hash H = rhs.hash H := by
  simp only [LrnDesc.eq, Bool.and_eq_true, beq_iff_eq] at h
  have hhash := hashMds H hmds
  simp only [OpDesc.mds, List.forall₂_cons, h, true_implies] at hhash
  have hlrnAlpha := H.float_eq lhs.lrnAlpha rhs.lrnAlpha (by simp only [h])
  have hlrnBeta := H.float_eq lhs.lrnBeta rhs.lrnBeta (by simp only [h])
  have hlrnK := H.float_eq lhs.lrnK rhs.lrnK (by simp only [h])
  simp only [LrnDesc.hash, h, hhash, hlrnAlpha, hlrnBeta, hlrnK]

theorem PoolingDesc.hash_congr {lhs rhs : PoolingDesc} (h : lhs.eq rhs = true)
    (hmds : List.Forall₂ SameUncompared (OpDesc.pooling lhs).mds (OpDesc.pooling rhs).mds) :
    lhs.hash H = rhs.hash H := by
  simp only [PoolingDesc.eq, Bool.and_eq_true, beq_iff_eq] at h
  have hhash := hashMds H hmds
  simp only [OpDesc.mds, List.forall₂_cons, h, true_implies] at hhash
  have hstrides := arrayHash_dims H lhs.strides rhs.strides (by simp only [h])
  have hkernel := arrayHash_dims H lhs.kernel rhs.kernel (by simp only [h])
  have hpaddingL := arrayHash_dims H lhs.paddingL rhs.paddingL (by simp only [h])
  have hpaddingR := arrayHash_dims H lhs.paddingR rhs.paddingR (by simp only [h])
  simp only [PoolingDesc.hash, h, hhash, hstrides, hkernel, hpaddingL, hpaddingR]

theorem ReorderDesc.hash_congr {lhs rhs : ReorderDesc} (h : lhs.eq rhs = true)
    (hmds : List.Forall₂ SameUncompared (OpDesc.reorder lhs).mds (OpDesc.reorder rhs).mds) :
    lhs.hash H = rhs.hash H := by
  simp only [ReorderDesc.eq, Bool.and_eq_true, beq_iff_eq] at h
  have hhash := hashMds H hmds
  simp only [OpDesc.mds, List.forall₂_cons, h, true_implies] at hhash
  simp only [ReorderDesc.hash, h, hhash]

theorem RnnDesc.hash_congr {lhs rhs : RnnDesc} (h : lhs.eq rhs = true)
    (hmds : List.Forall₂ SameUncompared (OpDesc.rnn lhs).mds (OpDesc.rnn rhs).mds) :
    lhs.hash H = rhs.hash H := by
  simp only [RnnDesc.eq, Bool.and_eq_true, beq_iff_eq] at h
  have hhash := hashMds H hmds
  simp only [OpDesc.mds, List.forall₂_cons, h, true_implies] at hhash
  have halpha := H.float_eq lhs.alpha rhs.alpha (by simp only [h])
  have hbeta := H.float_eq lhs.beta rhs.beta (by simp only [h])
  simp only [RnnDesc.hash, h, hhash, halpha, hbeta]

theorem ShuffleDesc.hash_congr {lhs rhs : ShuffleDesc} (h : lhs.eq rhs = true)
    (hmds : List.Forall₂ SameUncompared (OpDesc.shuffle lhs).mds (OpDesc.shuffle rhs).mds) :
    lhs.hash H = rhs.hash H := by
  simp only [ShuffleDesc.eq, Bool.and_eq_true, beq_iff_eq] at h
  have hhash := hashMds H hmds
  simp only [OpDesc.mds, List.forall₂_cons, h, true_implies] at hhash
  simp only [ShuffleDesc.hash, h, hhash]

theorem SoftmaxDesc.hash_congr {lhs rhs : SoftmaxDesc} (h : lhs.eq rhs = true)
    (hmds : List.Forall₂ SameUncompared (OpDesc.softmax lhs).mds (OpDesc.softmax rhs).mds) :
    lhs.hash H = rhs.hash H := by
  simp only [SoftmaxDesc.eq, Bool.and_eq_true, beq_iff_eq] at h
  have hhash := hashMds H hmds
  simp only [OpDesc.mds, List.forall₂_cons, h, true_implies] at hhash
  simp only [SoftmaxDesc.hash, h, hhash]

/-- The hash of an array of memory descriptors. -/
theorem arrayHash_mds {a b : ℕ → MemoryDesc} {n : ℤ} (hcmp : arrayCmp a b n = true)
    (hmds : ∀ i < n.toNat, SameUncompared (a i) (b i)) (seed : UInt64) :
    arrayHash (hashMd H) seed a n.toNat = arrayHash (hashMd H) seed b n.toNat := by
  apply arrayHash_congr
  intro i hi
  exact hashMd_congr H (arrayCmp_iff.mp hcmp i (by omega)) (hmds i hi)

theorem sameUncompared_of_map {a b : ℕ → MemoryDesc} {n : ℕ}
    (h : List.Forall₂ SameUncompared ((List.range n).map a) ((List.range n).map b)) :
    ∀ i < n, SameUncompared (a i) (b i) := by
  rw [List.forall₂_map_left_iff, List.forall₂_map_right_iff, List.forall₂_same] at h
  intro i hi
  exact h i (List.mem_range.mpr hi)

theorem ConcatDesc.hash_congr {lhs rhs : ConcatDesc} (h : lhs.eq rhs = true)
    (hmds : List.Forall₂ SameUncompared (OpDesc.concat lhs).mds (OpDesc.concat rhs).mds) :
    lhs.hash H = rhs.hash H := by
  simp only [ConcatDesc.eq, Bool.and_eq_true, beq_iff_eq] at h
  obtain ⟨⟨⟨⟨hkind, hdst⟩, hn⟩, hdim⟩, hsrcs⟩ := h
  simp only [OpDesc.mds, ← hn, List.forall₂_cons] at hmds
  have hsrc := arrayHash_mds H hsrcs (sameUncompared_of_map hmds.2)
  simp only [ConcatDesc.hash, hkind, hashMd_congr H hdst hmds.1, ← hn, hdim, hsrc]

theorem foldl_float_congr {a b : List F32} (h : (a == b) = true) (n : ℕ) (seed : UInt64) :
    (a.take n).foldl (fun seed s => hashCombine seed (H.float s)) seed
      = (b.take n).foldl (fun seed s => hashCombine seed (H.float s)) seed := by
  induction a generalizing b n seed with
  | nil =>
    cases b with
    | nil => rfl
    | cons _ _ => cases h
  | cons x a ih =>
    cases b with
    | nil => cases h
    | cons y b =>
      cases n with
      | zero => rfl
      | succ n =>
        rw [List.cons_beq_cons, Bool.and_eq_true] at h
        obtain ⟨hx, hab⟩ := h
        rw [List.take_succ_cons, List.take_succ_cons, List.foldl_cons, List.foldl_cons, H.float_eq x y hx,
          ih hab]

theorem SumDesc.hash_congr {lhs rhs : SumDesc} (h : lhs.eq rhs = true)
    (hmds : List.Forall₂ SameUncompared (OpDesc.sum lhs).mds (OpDesc.sum rhs).mds) :
    lhs.hash H = rhs.hash H := by
  simp only [SumDesc.eq, Bool.and_eq_true, beq_iff_eq] at h
  obtain ⟨⟨⟨⟨hkind, hdst⟩, hn⟩, hscales⟩, hsrcs⟩ := h
  simp only [OpDesc.mds, ← hn, List.forall₂_cons] at hmds
  have hsrc := arrayHash_mds H hsrcs (sameUncompared_of_map hmds.2)
  simp only [SumDesc.hash, hkind, hashMd_congr H hdst hmds.1, ← hn, foldl_float_congr H hscales, hsrc]

/-- Equal descriptors of operations whose memory descriptors agree in what the comparison leaves out have
the same hash. -/
theorem OpDesc.hash_congr {lhs rhs : OpDesc} (h : lhs.eq rhs = true)
    (hmds : List.Forall₂ SameUncompared lhs.mds rhs.mds) : lhs.hash H = rhs.hash H := by
  cases lhs <;> cases rhs <;> first | cases h | skip
  case batchNormalization.batchNormalization lhs rhs => exact NormalizationDesc.hash_congr H h hmds
  case concat.concat lhs rhs => exact ConcatDesc.hash_congr H h hmds
  case convolution.convolution lhs rhs => exact ConvolutionDesc.hash_congr H h hmds
  case deconvolution.deconvolution lhs rhs => exact ConvolutionDesc.hash_congr H h hmds
  case eltwise.eltwise lhs rhs => exact EltwiseDesc.hash_congr H h hmds
  case gemm.gemm lhs rhs => exact GemmDesc.hash_congr H h
  case innerProduct.innerProduct lhs rhs => exact InnerProductDesc.hash_congr H h hmds
  case layerNormalization.layerNormalization lhs rhs => exact NormalizationDesc.hash_congr H h hmds
  case lrn.lrn lhs rhs => exact LrnDesc.hash_congr H h hmds
  case pooling.pooling lhs rhs => exact PoolingDesc.hash_congr H h hmds
  case reorder.reorder lhs rhs => exact ReorderDesc.hash_congr H h hmds
  case rnn.rnn lhs rhs => exact RnnDesc.hash_congr H h hmds
  case shuffle.shuffle lhs rhs => exact ShuffleDesc.hash_congr H h hmds
  case softmax.softmax lhs rhs => exact SoftmaxDesc.hash_congr H h hmds
  case sum.sum lhs rhs => exact SumDesc.hash_congr H h hmds

end Hash

/-! ## Keys -/

/-- Equal keys have the same hash if their memory descriptors agree in what the comparison leaves out. -/
theorem KeyT.hash_eq_of_sameUncompared (H : StdHash) {lhs rhs : KeyT}
    (heq : lhs = rhs ∨ lhs.eq rhs = true)
    (hmds : List.Forall₂ SameUncompared lhs.opDesc.mds rhs.opDesc.mds) : lhs.hash H = rhs.hash H := by
  rcases heq with rfl | heq
  · rfl
  · simp only [KeyT.eq, Bool.and_eq_true, beq_iff_eq] at heq
    obtain ⟨⟨⟨⟨hkind, himpl⟩, hnthr⟩, hattr⟩, hdesc⟩ := heq
    simp only [KeyT.hash, hkind, himpl, hnthr, attrHash_congr H hattr, OpDesc.hash_congr H hdesc hmds]

/-! ### Keys of a vanilla rnn -/

/-- `std::hash` that keeps integers and takes the bits of floats, those of zero for both zeros. -/
def StdHash.ofBits : StdHash where
  int := fun x => UInt64.ofInt x
  dim := fun x => UInt64.ofInt x
  unsigned := UInt32.toUInt64
  size := id
  float := fun x => if x.isZero then 0 else x.bits.toUInt64
  typeIndex := UInt64.ofNat
  float_eq := by
    intro x y h
    change F32.eq x y = true at h
    simp only [F32.eq, Bool.and_eq_true, Bool.or_eq_true, decide_eq_true_eq] at h
    rcases h.2 with hbits | ⟨hx, hy⟩
    · obtain rfl : x = y := congrArg F32.mk hbits
      rfl
    · simp only [hx, hy, if_true]

/-- The descriptor of a plain tensor of floats. -/
def plainMd (ndims : ℤ) (dims strides : ℕ → ℤ) : MemoryDesc :=
  { zeroMd with
    ndims := ndims
    dims := dims
    dataType := .f32
    paddedDims := dims
    formatKind := .blocked
    blocking := { zeroMd.blocking with strides := strides } }

/-- Attributes with default values. -/
def defaultAttr : PrimitiveAttr where
  scratchpadMode := .library
  outputScales := ⟨1, 0, some fun _ => ⟨0x3f800000⟩⟩
  postOps := ⟨0, fun _ => ⟨.undefined, .undef, ⟨0⟩, ⟨0⟩, ⟨0⟩, ⟨0⟩⟩⟩
  rnnDataQparamsScale := ⟨0x3f800000⟩
  rnnDataQparamsShift := ⟨0⟩
  rnnWeightsQparams := ⟨1, 0, some fun _ => ⟨0x3f800000⟩⟩
  rnnTparams := ⟨false, none, 0, ⟨0⟩⟩

/-- The key of a vanilla rnn with one step, one layer and a batch of two, on vectors of three floats, as
its forward descriptor is filled from the arguments. -/
def rnnKey (srcIterDesc biasDesc : MemoryDesc) (alpha : F32) : KeyT where
  primitiveKind := .rnn
  opDesc := .rnn {
    primitiveKind := .rnn
    propKind := .forwardInference
    cellKind := .vanillaRnn
    direction := .unidirectionalLeft2right
    srcLayerDesc := plainMd 3 (fun i => [1, 2, 3].getD i 0) (fun i => [6, 3, 1].getD i 0)
    srcIterDesc := srcIterDesc
    srcIterCDesc := zeroMd
    weightsLayerDesc := plainMd 5 (fun i => [1, 1, 3, 1, 3].getD i 0) (fun i => [9, 9, 3, 3, 1].getD i 0)
    weightsIterDesc := plainMd 5 (fun i => [1, 1, 3, 1, 3].getD i 0) (fun i => [9, 9, 3, 3, 1].getD i 0)
    biasDesc := biasDesc
    dstLayerDesc := plainMd 3 (fun i => [1, 2, 3].getD i 0) (fun i => [6, 3, 1].getD i 0)
    dstIterDesc := zeroMd
    dstIterCDesc := zeroMd
    placeholderDesc := zeroMd
    placeholder2Desc := zeroMd
    diffSrcLayerDesc := zeroMd
    diffSrcIterDesc := zeroMd
    diffSrcIterCDesc := zeroMd
    diffWeightsLayerDesc := zeroMd
    diffWeightsIterDesc := zeroMd
    diffBiasDesc := zeroMd
    diffDstLayerDesc := zeroMd
    diffDstIterDesc := zeroMd
    diffDstIterCDesc := zeroMd
    diffPlaceholderDesc := zeroMd
    diffPlaceholder2Desc := zeroMd
    flags := 0
    activationKind := .eltwiseRelu
    alpha := alpha
    beta := ⟨0⟩ }
  attr := defaultAttr
  implId := 0
  implNthr := 4
  kind_eq := rfl

/-- Keys that differ in the sign of a zero. -/
theorem KeyT.hash_eq_of_sameUncompared_rnn :
    (rnnKey zeroMd zeroMd ⟨0⟩).hash .ofBits = (rnnKey zeroMd zeroMd ⟨0x80000000⟩).hash .ofBits :=
  KeyT.hash_eq_of_sameUncompared .ofBits (.inr (by decide +kernel))
    (List.forall₂_same.mpr fun _ _ => .inl rfl)

/-- A descriptor without dimensions, which counts as an absent one, with a data type set. -/
theorem KeyT.hash_ne_of_eq :
    ¬∀ (H : StdHash) (lhs rhs : KeyT), lhs = rhs ∨ lhs.eq rhs = true → lhs.hash H = rhs.hash H := by
  intro h
  have heq := h .ofBits (rnnKey zeroMd zeroMd ⟨0⟩) (rnnKey { zeroMd with dataType := .f32 } zeroMd ⟨0⟩)
    (.inr (by decide +kernel))
  revert heq
  decide +kernel

end MklDnn.PrimitiveHashing
