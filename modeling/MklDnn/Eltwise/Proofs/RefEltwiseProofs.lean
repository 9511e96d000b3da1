import MklDnn.Common.Proofs.ParallelLoopsProofs
import MklDnn.Eltwise.RefEltwise
import MklDnn.Memory.Proofs.BuiltProofs

/-!
# Proofs: the paths of the reference element-wise functions

Every path assigns to an address a value that depends on the address only. What is left to say of a path is which addresses it
assigns to: all elements of the tensor, and nothing of the padding unless zero becomes zero.
-/

open LoopNest Interleaving MixedRadix

namespace MklDnn

/-! ## Padding -/

/-- The padding of a tensor has no address in common with its elements. -/
theorem MemoryDesc.Built.offV_ne_of_isPadding {md : MemoryDesc} (h : md.Built) (hk : md.formatKind = .blocked)
    {pos pos' : ℕ → ℕ} (hpos : pos ∈ box md.dims md.ndims) (hpad : md.IsPadding pos') :
    md.offV pos true ≠ md.offV pos' true := by
  induction h generalizing pos pos' with
  | @whole md h =>
    rcases h with ⟨_, _, _, _, h, hk⟩ | ⟨_, _, _, _, h⟩
    · obtain ⟨args, -, hlayout⟩ := memoryDescInitByTag_tagLayout h hk
      have hdense := hlayout.dense fun d hd => lt_of_le_of_lt (Nat.zero_le _) ((mem_box.mp hpos).1 d hd)
      exact (hdense.offV_ne_of_isPadding hpos hpad).symm
    · -- a tensor with strides of its own is not padded
      obtain ⟨d, hd, hle⟩ := hpad.2
      have hlt := (mem_box.mp hpad.1).1 d hd
      unfold memoryDescInitByStrides at h
      split_ifs at h
      · obtain rfl := Except.ok.inj h
        exact absurd hd (Nat.not_lt_zero d)
      · obtain rfl := Except.ok.inj h
        exact absurd hlt (Nat.not_lt.mpr hle)
  | @part parent sub dims offsets hparent h ih =>
    obtain ⟨hkind, -, -⟩ := memoryDescInitSubmemory_isPart h
    have hwf := hparent.wellFormed
    have hnot : pos' ∉ box sub.dims sub.ndims := fun hmem => by
      obtain ⟨d, hd, hle⟩ := hpad.2
      exact absurd ((mem_box.mp hmem).1 d hd) (Nat.not_lt.mpr hle)
    obtain ⟨hin, hout⟩ := partPos_padding hwf h hpad.1 hnot
    have hpart : parent.IsPadding (partPos parent offsets pos') := by
      refine ⟨hin, ?_⟩
      by_contra hnone
      refine hout (mem_box.mpr ⟨fun d hd => ?_, (mem_box.mp hin).2⟩)
      by_contra hge
      exact hnone ⟨d, hd, Nat.not_lt.mp hge⟩
    rw [hwf.offV_part h, hwf.offV_part h]
    exact ih hkind (partPos_mem_box h hpos) hpart

/-! ## Dense parts of dense tensors -/

/-- Factors none of which is greater, with a product that is no less. -/
theorem eq_of_prod_le {f g : ℕ → ℕ} {l : List ℕ} (hpos : ∀ d ∈ l, 0 < f d) (hle : ∀ d ∈ l, f d ≤ g d)
    (hprod : (l.map g).prod ≤ (l.map f).prod) : ∀ d ∈ l, f d = g d := by
  induction l with
  | nil => exact fun d hd => absurd hd List.not_mem_nil
  | cons e l ih =>
    have hpos' : ∀ d ∈ l, 0 < f d := fun d hd => hpos d (List.mem_cons_of_mem e hd)
    have hle' : ∀ d ∈ l, f d ≤ g d := fun d hd => hle d (List.mem_cons_of_mem e hd)
    have hrest : (l.map f).prod ≤ (l.map g).prod := List.Forall₂.prod_le_prod' (by
      rw [List.forall₂_map_left_iff, List.forall₂_map_right_iff]
      exact List.forall₂_same.mpr hle')
    have hf : 0 < (l.map f).prod := List.prod_pos fun x hx => by
      obtain ⟨d, hd, rfl⟩ := List.mem_map.mp hx
      exact hpos' d hd
    have he := hle e List.mem_cons_self
    have he0 := hpos e List.mem_cons_self
    rw [List.map_cons, List.map_cons, List.prod_cons, List.prod_cons] at hprod
    have hhead : f e = g e := by
      by_contra hne
      nlinarith [Nat.lt_of_le_of_ne he hne]
    have htail : (l.map g).prod ≤ (l.map f).prod := by
      rw [hhead] at hprod he0
      exact Nat.le_of_mul_le_mul_left hprod he0
    intro d hd
    rcases List.mem_cons.mp hd with rfl | hd
    · exact hhead
    · exact ih hpos' hle' htail d hd

/-- The strides of a blocked descriptor are those of a tensor of a format tag, which is no smaller. -/
theorem MemoryDesc.Built.denseStrides {md : MemoryDesc} (h : md.Built) (hk : md.formatKind = .blocked)
    (hpos : ∀ d < md.ndims, 0 < md.dims d) (hinner : md.blocking.inner ≠ []) :
    ∃ tag args, ∃ m : ℕ → ℕ, blockingArgs tag = some args ∧
      md.blocking.inner = List.zipWith InnerBlk.mk args.innerIdxs args.innerBlks ∧ args.perm.Perm (List.range md.ndims) ∧
      DenseStrides m md.blocking.strides (blockSize md.blocking.inner) args.perm ∧ ∀ d < md.ndims, md.outerBlocks d ≤ m d := by
  induction h with
  | @whole md h =>
    rcases h with ⟨_, _, _, tag, h, hk⟩ | ⟨_, _, _, _, h⟩
    · obtain ⟨args, hargs, hlayout⟩ := memoryDescInitByTag_tagLayout h hk
      have hdense := hlayout.dense hpos
      exact ⟨tag, args, md.outerBlocks, hargs, hlayout.inner, hdense.perm_range, hdense.strides, fun d _ => le_rfl⟩
    · unfold memoryDescInitByStrides at h
      split_ifs at h
      · obtain rfl := Except.ok.inj h
        exact absurd rfl hinner
      · obtain rfl := Except.ok.inj h
        exact absurd rfl hinner
  | @part parent sub dims offsets hparent h ih =>
    obtain ⟨hkind, hpart, -⟩ := memoryDescInitSubmemory_isPart h
    have hlt : ∀ d < parent.ndims, 0 < parent.dims d := by
      intro d hd
      have hsub := hpos d (hpart.ndims ▸ hd)
      have hadd := hpart.add_le d hd
      omega
    obtain ⟨tag, args, m, hargs, hin, hperm, hstrides, hle⟩ := ih hkind hlt (hpart.blocking ▸ hinner)
    rw [hpart.blocking, hpart.ndims]
    refine ⟨tag, args, m, hargs, hin, hperm, hstrides, fun d hd => le_trans ?_ (hle d hd)⟩
    have hadd := hpart.add_le d hd
    have hdims := hparent.wellFormed.dims_le d hd
    have hpadded := hpart.paddedDims d hd
    unfold MemoryDesc.outerBlocks
    rw [hpart.blocking]
    apply Nat.div_le_div_right
    rw [hpadded]
    split_ifs <;> omega

/-- No dimension of a dense tensor extends beyond its elements. -/
theorem MemoryDesc.mul_strides_le_of_isDense {md : MemoryDesc} (hdense : md.isDense true = true)
    (hk : md.formatKind = .blocked) (hsz : 0 < md.dataType.size) (hpos : 0 < md.nelems true) (hin : ValidInner md.ndims md.blocking.inner) :
    md.offset0 = 0 ∧ ∀ d < md.ndims, toSizeT ((md.outerBlocks d : ℕ) * md.blocking.strides d) ≤ md.nelems true := by
  unfold MemoryDesc.isDense at hdense
  rw [if_neg (by rw [hk]; decide), decide_eq_true_eq] at hdense
  have hne : md.size ≠ 0 := by
    rw [← hdense]
    exact (Nat.mul_pos hpos hsz).ne'
  unfold MemoryDesc.size at hdense hne
  have hguard : ¬ (md.isZero = true ∨ md.hasZeroDim = true ∨ md.formatKind = .any) := fun h => hne (if_pos h)
  rw [if_neg hguard, if_neg (by rw [hk]; decide), if_neg (by rw [hk]; decide)] at hdense hne
  have hoff : md.offset0 = 0 := by_contra fun h => hne (if_pos h)
  rw [if_neg (not_not.mpr hoff)] at hdense
  refine ⟨hoff, fun d hd => ?_⟩
  have hblocks : md.computeBlocks = innerBlocks md.blocking.inner := by
    simp [MemoryDesc.computeBlocks, MemoryDesc.isBlockingDesc, hk]
  rw [hblocks] at hdense
  dsimp only at hdense
  set maxSize := (List.range md.ndims).foldl
    (fun maxSize d => max maxSize
      (toSizeT ((md.paddedDims d / innerBlocks md.blocking.inner d : ℕ) * md.blocking.strides d))) 0 with hmax
  have hle : toSizeT ((md.outerBlocks d : ℕ) * md.blocking.strides d) ≤ maxSize :=
    (le_foldl_max (fun d => toSizeT ((md.outerBlocks d : ℕ) * md.blocking.strides d)) (List.range md.ndims) 0).2 d
      (List.mem_range.mpr hd)
  have hmaxle : maxSize ≤ if maxSize = 1 ∧ md.blocking.innerNblks ≠ 0 then blockSize md.blocking.inner else maxSize := by
    split_ifs with hone
    · rw [hone.1]
      exact hin.blockSize_pos
    · exact le_rfl
  refine hle.trans (hmaxle.trans (Nat.le_of_mul_le_mul_right ?_ hsz))
  omega

/-- A part of a tensor that is dense is laid out as a tensor of its own. -/
theorem MemoryDesc.Built.dense_of_isDense {md : MemoryDesc} (h : md.Built) (hk : md.formatKind = .blocked)
    (hpos : ∀ d < md.ndims, 0 < md.dims d) (hinner : md.blocking.inner ≠ []) (hdense : md.isDense true = true)
    (hpad : ∀ d < md.ndims, md.paddedDims d = rndUp (md.dims d) (innerBlocks md.blocking.inner d)) :
    ∃ tag args, blockingArgs tag = some args ∧
      md.blocking.inner = List.zipWith InnerBlk.mk args.innerIdxs args.innerBlks ∧ Dense md args.perm := by
  obtain ⟨tag, args, m, hargs, hin, hperm, hstrides, hle⟩ := h.denseStrides hk hpos hinner
  have hwf := h.wellFormed
  have hB : ∀ d, 0 < innerBlocks md.blocking.inner d := hwf.valid.innerBlocks_pos
  have hn := h.ndims_pos hk
  have hpadded : ∀ d < md.ndims, md.paddedDims d = md.outerBlocks d * innerBlocks md.blocking.inner d := by
    intro d hd
    rw [MemoryDesc.outerBlocks, hpad d hd, rndUp_div (hB d), rndUp]
  have houter : ∀ d < md.ndims, 0 < md.outerBlocks d := by
    intro d hd
    rw [MemoryDesc.outerBlocks, hpad d hd, rndUp_div (hB d)]
    exact divUp_pos (hpos d hd) (hB d)
  have hvol : md.nelems true = blockSize md.blocking.inner * (args.perm.map md.outerBlocks).prod := by
    have hbox : volume md.paddedDims md.ndims =
        ∏ d ∈ Finset.range md.ndims, (md.outerBlocks d * innerBlocks md.blocking.inner d) :=
      Finset.prod_congr rfl fun d hd => hpadded d (Finset.mem_range.mp hd)
    rw [← prod_perm hperm, ← prod_innerBlocks hwf.valid, Nat.mul_comm, ← Finset.prod_mul_distrib, ← hbox, MemoryDesc.nelems,
      if_neg (by simp only [MemoryDesc.isZero, decide_eq_true_eq]; omega)]
    rfl
  have hmem : ∀ d ∈ args.perm, d < md.ndims := fun d hd => List.mem_range.mp (hperm.mem_iff.mp hd)
  have hprodpos : ∀ l : List ℕ, (∀ d ∈ l, d ∈ args.perm) → 0 < (l.map md.outerBlocks).prod := fun l hl =>
    List.prod_pos fun x hx => by
      obtain ⟨d, hd, rfl⟩ := List.mem_map.mp hx
      exact houter d (hmem d (hl d hd))
  have hs := hwf.valid.blockSize_pos
  have hsz : 0 < md.dataType.size := by
    have hdt := (h.sane hk).2
    revert hdt
    cases md.dataType <;> decide
  obtain ⟨hoff, hsize⟩ := MemoryDesc.mul_strides_le_of_isDense hdense hk hsz
    (hvol ▸ Nat.mul_pos hs (hprodpos _ fun _ hd => hd)) hwf.valid
  refine ⟨tag, args, hargs, hin, ?_⟩
  refine { ndims_pos := hn, formatKind := hk, offset0 := hoff, inner := hwf.valid, dims_pos := hpos, perm_range := hperm,
           paddedDims := hpad, paddedOffsets := hwf.paddedOffsets, strides := ?_ }
  -- the outermost dimension spans the whole tensor, and so those inside of it are complete
  obtain ⟨p, rest, hcons⟩ : ∃ p rest, args.perm = p :: rest := by
    cases hp : args.perm with
    | nil =>
      rw [hp] at hperm
      have hlen := hperm.length_eq
      rw [List.length_range, List.length_nil] at hlen
      omega
    | cons p rest => exact ⟨p, rest, rfl⟩
  rw [hcons] at hstrides hmem hvol hprodpos ⊢
  obtain ⟨hstride, hrest⟩ := hstrides
  have hspan := hsize p (hmem p List.mem_cons_self)
  rw [hstride, ← Nat.cast_mul, toSizeT_of_nonneg (Int.natCast_nonneg _), Int.toNat_natCast, hvol, List.map_cons,
    List.prod_cons, Nat.mul_left_comm] at hspan
  have hprod : (rest.map m).prod ≤ (rest.map md.outerBlocks).prod :=
    Nat.le_of_mul_le_mul_left (Nat.le_of_mul_le_mul_left hspan hs) (houter p (hmem p List.mem_cons_self))
  have heq := eq_of_prod_le (fun d hd => houter d (hmem d (List.mem_cons_of_mem p hd)))
    (fun d hd => hle d (hmem d (List.mem_cons_of_mem p hd))) hprod
  refine ⟨?_, hrest.congr_blocks fun d hd => (heq d hd).symm⟩
  rw [hstride, List.map_congr_left heq]

/-- The place of an element of dense dimensions. -/
theorem DenseStrides.exists_sum {m p : ℕ → ℕ} {strides : ℕ → ℤ} {s : ℕ} {perm : List ℕ} (h : DenseStrides m strides s perm)
    (hp : ∀ d ∈ perm, p d < m d) :
    ∃ k < (perm.map m).prod, (perm.map fun d => (p d : ℤ) * strides d).sum = (s * k : ℕ) := by
  induction perm with
  | nil => exact ⟨0, Nat.one_pos, rfl⟩
  | cons e perm ih =>
    obtain ⟨he, hperm⟩ := h
    obtain ⟨k, hk, hsum⟩ := ih hperm fun d hd => hp d (List.mem_cons_of_mem e hd)
    have hlt := hp e List.mem_cons_self
    refine ⟨p e * (perm.map m).prod + k, ?_, ?_⟩
    · rw [List.map_cons, List.prod_cons]
      nlinarith
    · rw [List.map_cons, List.sum_cons, hsum, he]
      push_cast
      ring

namespace RefEltwise

variable {V : Type}

/-! ## What a path assigns to -/

/-- An iteration assigns to the address. -/
def Touches (ph : Phase ℤ V) (a : ℤ) : Prop := ∃ idx ∈ digits ph.dims, ∃ e ∈ ph.body idx, e.dst = a

/-- Every assignment is to the value `F` of its address. -/
def Assigns (F : ℤ → V) (ph : Phase ℤ V) : Prop :=
  ∀ idx ∈ digits ph.dims, ∀ e ∈ ph.body idx, ∀ m, e.value m = F e.dst

theorem Assigns.step_eq {F : ℤ → V} {ph : Phase ℤ V} (h : Assigns F ph) {m m' : ℤ → V} (hstep : ph.Step m m') (a : ℤ) :
    (Touches ph a → m' a = F a) ∧ (¬ Touches ph a → m' a = m a) := by
  refine ⟨fun htouch => ?_, fun hnot => ?_⟩
  · refine hstep.of_const (fun idx hidx e he hdst m => ?_) htouch
    rw [h idx hidx e he, hdst]
  · exact hstep.of_ne fun idx hidx e he hdst => hnot ⟨idx, hidx, e, he, hdst⟩

theorem touches_nothing {a : ℤ} : ¬ Touches (nothing : Phase ℤ V) a := by
  rintro ⟨idx, -, e, he, -⟩
  exact absurd he List.not_mem_nil

theorem asInt_eq_some {x y : ℕ} (h : asInt x = some y) : x < 2 ^ 31 ∧ y = x := by
  unfold asInt at h
  split_ifs at h with hlt
  exact ⟨hlt, (Option.some.inj h).symm⟩

theorem asInt_of_lt {x : ℕ} (h : x < 2 ^ 31) : asInt x = some x := if_pos h

/-! ## The loops over the dimensions -/

section Generic

variable {desc : EltwiseDesc}

/-- The loops run through the positions of the tensor. -/
theorem exists_pos_of_digits (hn : desc.ndims = 4 ∨ desc.ndims = 5) {idx : List ℕ}
    (hidx : idx ∈ digits [desc.MB, desc.C, desc.D, desc.H, desc.W]) :
    ∃ pos ∈ box desc.dataDesc.dims desc.ndims,
      ∀ md : MemoryDesc, genericOff md (decide (desc.dataDesc.ndims = 5)) idx = md.offV pos false := by
  obtain _ | ⟨hb, _ | ⟨hc, _ | ⟨hd, _ | ⟨hh, _ | ⟨hw, hnil⟩⟩⟩⟩⟩ := hidx
  cases hnil
  rename_i n c d h w
  rcases hn with hn | hn
  · have hn' : desc.dataDesc.ndims = 4 := hn
    simp only [EltwiseDesc.MB, EltwiseDesc.C, EltwiseDesc.D, EltwiseDesc.H, EltwiseDesc.W, hn] at hb hc hd hh hw
    refine ⟨fun i => [n, c, h, w].getD i 0, hn ▸ getD_mem_box ?_, fun md => ?_⟩
    · exact .cons hb (.cons hc (.cons hh (.cons hw .nil)))
    · rw [genericOff, hn']
      rfl
  · have hn' : desc.dataDesc.ndims = 5 := hn
    simp only [EltwiseDesc.MB, EltwiseDesc.C, EltwiseDesc.D, EltwiseDesc.H, EltwiseDesc.W, hn] at hb hc hd hh hw
    refine ⟨fun i => [n, c, d, h, w].getD i 0, hn ▸ getD_mem_box ?_, fun md => ?_⟩
    · exact .cons hb (.cons hc (.cons hd (.cons hh (.cons hw .nil))))
    · rw [genericOff, hn']
      rfl

theorem exists_digits_of_pos (hn : desc.ndims = 4 ∨ desc.ndims = 5) {pos : ℕ → ℕ}
    (hpos : pos ∈ box desc.dataDesc.dims desc.ndims) :
    ∃ idx ∈ digits [desc.MB, desc.C, desc.D, desc.H, desc.W],
      ∀ md : MemoryDesc, genericOff md (decide (desc.dataDesc.ndims = 5)) idx = md.offV pos false := by
  obtain ⟨hlt, hzero⟩ := mem_box.mp hpos
  rcases hn with hn | hn
  · have hn' : desc.dataDesc.ndims = 4 := hn
    rw [hn] at hlt hzero
    refine ⟨[pos 0, pos 1, 0, pos 2, pos 3], ?_, fun md => ?_⟩
    · simp only [EltwiseDesc.MB, EltwiseDesc.C, EltwiseDesc.D, EltwiseDesc.H, EltwiseDesc.W, hn]
      exact .cons (hlt 0 (by omega)) (.cons (hlt 1 (by omega)) (.cons Nat.one_pos (.cons (hlt 2 (by omega))
        (.cons (hlt 3 (by omega)) .nil))))
    · rw [genericOff, hn']
      exact congrArg (md.offV · false) (getD_map_range hzero)
  · have hn' : desc.dataDesc.ndims = 5 := hn
    rw [hn] at hlt hzero
    refine ⟨[pos 0, pos 1, pos 2, pos 3, pos 4], ?_, fun md => ?_⟩
    · simp only [EltwiseDesc.MB, EltwiseDesc.C, EltwiseDesc.D, EltwiseDesc.H, EltwiseDesc.W, hn]
      exact .cons (hlt 0 (by omega)) (.cons (hlt 1 (by omega)) (.cons (hlt 2 (by omega)) (.cons (hlt 3 (by omega))
        (.cons (hlt 4 (by omega)) .nil))))
    · rw [genericOff, hn']
      exact congrArg (md.offV · false) (getD_map_range hzero)

/-- The dimensions are all that the loops convert to `int`. -/
theorem asInt_dims (hn : desc.ndims = 4 ∨ desc.ndims = 5) :
    (desc.MB < 2 ^ 31 ∧ desc.C < 2 ^ 31 ∧ desc.D < 2 ^ 31 ∧ desc.H < 2 ^ 31 ∧ desc.W < 2 ^ 31) ↔
      ∀ d < desc.ndims, desc.dataDesc.dims d < 2 ^ 31 := by
  rcases hn with hn | hn
  · simp only [EltwiseDesc.MB, EltwiseDesc.C, EltwiseDesc.D, EltwiseDesc.H, EltwiseDesc.W, hn]
    constructor
    · rintro ⟨h0, h1, -, h2, h3⟩ d hd
      interval_cases d <;> assumption
    · intro h
      exact ⟨h 0 (by omega), h 1 (by omega), by norm_num, h 2 (by omega), h 3 (by omega)⟩
  · simp only [EltwiseDesc.MB, EltwiseDesc.C, EltwiseDesc.D, EltwiseDesc.H, EltwiseDesc.W, hn]
    constructor
    · rintro ⟨h0, h1, h2, h3, h4⟩ d hd
      interval_cases d <;> assumption
    · intro h
      exact ⟨h 0 (by omega), h 1 (by omega), h 2 (by omega), h 3 (by omega), h 4 (by omega)⟩

end Generic

/-! ## The choice of a path -/

/-- What is known of a descriptor for which a path is taken. -/
theorem fwdInit_cases {t : Target} {desc : EltwiseDesc} {path : Path} (h : fwdInit t desc = .ok path) :
    path = .dense ∨
    (path = .nCspBcPadded ∧ desc.hasZeroDimMemory = false ∧ desc.dataDesc.isDense false = false ∧
      eltwiseFwdPreservesZero desc.algKind false = false ∧ desc.dataDesc.isDense true = true ∧
      desc.dataDesc.onlyPaddedDim 1 = true ∧ ∃ blk, desc.dataDesc.blocking.inner = [⟨1, blk⟩] ∧ (blk = 8 ∨ blk = 16)) ∨
    (path = .generic ∧ (desc.ndims = 4 ∨ desc.ndims = 5)) := by
  unfold fwdInit at h
  dsimp only at h
  split_ifs at h with hcond hdense hblocked
  · exact Or.inl (Except.ok.inj h).symm
  · right
    left
    rw [Bool.and_eq_true, Bool.and_eq_true, Bool.not_eq_true', Bool.not_eq_true'] at hblocked
    obtain ⟨⟨hnot, hmatch⟩, hzero⟩ := hblocked
    rw [Bool.or_eq_false_iff] at hnot
    split at hmatch
    · rename_i b hb
      simp only [Bool.and_eq_true, decide_eq_true_eq] at hmatch
      obtain ⟨⟨⟨hblk, hidx⟩, hpad⟩, hden⟩ := hmatch
      have hzp : eltwiseFwdPreservesZero desc.algKind false = false := by
        have hand := hnot.2
        rw [hden, Bool.true_and] at hand
        exact hand
      refine ⟨(Except.ok.inj h).symm, hzero, hnot.1, hzp, hden, hpad, b.blk, ?_, hblk⟩
      rw [hb, ← hidx]
    · exact absurd hmatch (by decide)
  · right
    right
    refine ⟨(Except.ok.inj h).symm, ?_⟩
    rw [Bool.not_eq_true] at hdense hblocked
    rw [hdense, hblocked] at hcond
    simp only [Bool.and_eq_true, Bool.or_eq_true, Bool.not_false, Bool.and_self, Bool.not_true, Bool.false_eq_true,
      false_or, decide_eq_true_eq] at hcond
    exact hcond.1.2

/-! ## The blocks of channels -/

theorem blockingArgs_channels {tag : FormatTag} {args : BlockingArgs} (h : blockingArgs tag = some args) {blk : ℕ}
    (hin : List.zipWith InnerBlk.mk args.innerIdxs args.innerBlks = [⟨1, blk⟩]) (hblk : blk = 8 ∨ blk = 16) :
    ∃ rest, args.perm = 0 :: 1 :: rest := by
  have hall : List.zipWith InnerBlk.mk args.innerIdxs args.innerBlks = [⟨1, 8⟩] ∨
      List.zipWith InnerBlk.mk args.innerIdxs args.innerBlks = [⟨1, 16⟩] → args.perm.take 2 = [0, 1] := by
    clear hin
    cases tag <;> cases h <;> decide
  have htake : args.perm.take 2 = [0, 1] := by
    rcases hblk with rfl | rfl
    · exact hall (Or.inl hin)
    · exact hall (Or.inr hin)
  refine ⟨args.perm.drop 2, ?_⟩
  conv_lhs => rw [← List.take_append_drop 2 args.perm, htake]
  rfl

section Blocks

variable {md : MemoryDesc} {blk : ℕ} {rest : List ℕ}

/-- The number of positions of the dimensions behind the channels. -/
def spatial (md : MemoryDesc) : ℕ := ∏ d ∈ Finset.Ico 2 md.ndims, md.dims d

theorem innerBlocks_channels (d : ℕ) : innerBlocks [⟨1, blk⟩] d = if d = 1 then blk else 1 := by
  rw [innerBlocks_cons, innerBlocks_nil, Nat.mul_one]
  exact if_congr eq_comm rfl rfl

/-- The outer blocks of a tensor with blocked channels. -/
theorem outerBlocks_channels (h : Dense md (0 :: 1 :: rest)) (hin : md.blocking.inner = [⟨1, blk⟩]) {d : ℕ} (hd : d < md.ndims)
    (hne : d ≠ 1) : md.outerBlocks d = md.dims d ∧ md.paddedDims d = md.dims d := by
  have hB : innerBlocks md.blocking.inner d = 1 := by rw [hin, innerBlocks_channels, if_neg hne]
  have hp := h.paddedDims d hd
  rw [hB, rndUp_one] at hp
  refine ⟨?_, hp⟩
  rw [MemoryDesc.outerBlocks, hB, Nat.div_one, hp]

theorem two_le_ndims (h : Dense md (0 :: 1 :: rest)) : 2 ≤ md.ndims := by
  have hlen := h.perm_range.length_eq
  rw [List.length_range, List.length_cons, List.length_cons] at hlen
  omega

theorem prod_outerBlocks_rest (h : Dense md (0 :: 1 :: rest)) (hin : md.blocking.inner = [⟨1, blk⟩]) :
    (rest.map md.outerBlocks).prod = spatial md := by
  have hn := two_le_ndims h
  have hall := prod_perm h.perm_range md.outerBlocks
  rw [← Finset.prod_range_mul_prod_Ico _ hn, Finset.prod_range_succ, Finset.prod_range_one, List.map_cons, List.map_cons,
    List.prod_cons, List.prod_cons, Nat.mul_assoc] at hall
  have h0 := h.outerBlocks_pos (d := 0) (by omega)
  have h1 := h.outerBlocks_pos (d := 1) (by omega)
  have hrest := Nat.eq_of_mul_eq_mul_left h1 (Nat.eq_of_mul_eq_mul_left h0 hall)
  rw [← hrest, spatial]
  refine Finset.prod_congr rfl fun d hd => ?_
  obtain ⟨hlo, hhi⟩ := Finset.mem_Ico.mp hd
  exact (outerBlocks_channels h hin hhi (by omega)).1

/-- The address of a position: the image, the block of channels, the position in the plane, the channel in the block. -/
theorem offV_channels (h : Dense md (0 :: 1 :: rest)) (hin : md.blocking.inner = [⟨1, blk⟩]) {pos : ℕ → ℕ}
    (hpos : pos ∈ box md.paddedDims md.ndims) :
    ∃ k < spatial md, md.offV pos true =
      (((pos 0 * md.outerBlocks 1 + pos 1 / blk) * spatial md + k) * blk + pos 1 % blk : ℕ) := by
  have hn := two_le_ndims h
  obtain ⟨hlt, -⟩ := mem_box.mp hpos
  obtain ⟨hs0, hs1, hrest⟩ := h.strides
  have hnodup := h.nodup
  obtain ⟨hnot0, hnodup'⟩ := List.nodup_cons.mp hnodup
  obtain ⟨hnot1, -⟩ := List.nodup_cons.mp hnodup'
  have hsize : blockSize md.blocking.inner = blk := by rw [hin, blockSize_cons, blockSize_nil, Nat.mul_one]
  have hrow := prod_outerBlocks_rest h hin
  have hmem : ∀ d ∈ rest, d < md.ndims ∧ d ≠ 1 := fun d hd =>
    ⟨h.mem_perm.mp (List.mem_cons_of_mem _ (List.mem_cons_of_mem _ hd)), fun heq => hnot1 (heq ▸ hd)⟩
  have hplain : ∀ d, d ≠ 1 → ∀ x, md.dimOff d x = x * md.blocking.strides d := by
    intro d hd x
    rw [MemoryDesc.dimOff, hin, innerBlocks_channels, if_neg hd, Nat.div_one, innerOff, innerOff, if_neg (Ne.symm hd)]
    simp
  have hchannel : ∀ x, md.dimOff 1 x = (x % blk : ℕ) + (x / blk : ℕ) * md.blocking.strides 1 := by
    intro x
    rw [MemoryDesc.dimOff, hin, innerBlocks_channels, if_pos rfl, innerOff, innerOff, if_pos rfl, innerBlocks_nil,
      Nat.div_one, blockSize_nil, Nat.mul_one, Nat.zero_add]
  obtain ⟨k, hk, hsum⟩ := hrest.exists_sum (p := pos) fun d hd => by
    rw [(outerBlocks_channels h hin (hmem d hd).1 (hmem d hd).2).1, ← (outerBlocks_channels h hin (hmem d hd).1 (hmem d hd).2).2]
    exact hlt d (hmem d hd).1
  rw [hrow] at hk
  refine ⟨k, hk, ?_⟩
  have hperm : ∑ d ∈ Finset.range md.ndims, md.dimOff d (pos d) =
      ((0 :: 1 :: rest).map fun d => md.dimOff d (pos d)).sum :=
    ((h.perm_range.map _).sum_eq).symm
  have htail : (rest.map fun d => md.dimOff d (pos d)).sum = (blockSize md.blocking.inner * k : ℕ) := by
    rw [← hsum]
    refine congrArg List.sum (List.map_congr_left fun d hd => ?_)
    exact hplain d (hmem d hd).2 (pos d)
  rw [MemoryDesc.offV_padded h.inner, h.offset0, hperm, List.map_cons, List.map_cons, List.sum_cons, List.sum_cons, htail,
    hplain 0 (by omega), hchannel, hs0, hs1, List.map_cons, List.prod_cons, hrow, hsize]
  push_cast
  ring

end Blocks

/-! ## The addresses of the forward paths -/

section Forward

variable {desc : EltwiseDesc} {scalar : AlgKind → V → V} {src : ℤ → V}

/-- The address is one that the dense path counts through. -/
def InDense (md : MemoryDesc) (a : ℤ) : Prop := md.offset0 ≤ a ∧ a < md.offset0 + md.nelems true

theorem executeForwardDense_spec (a : ℤ) :
    Assigns (fun a => scalar desc.algKind (src a)) (executeForwardDense desc scalar src) ∧
      (Touches (executeForwardDense desc scalar src) a ↔ InDense desc.dataDesc a) := by
  refine ⟨?_, ?_, ?_⟩
  · intro idx _ e he m
    obtain rfl := List.mem_singleton.mp he
    rfl
  · rintro ⟨idx, hidx, e, he, rfl⟩
    obtain ⟨i, hi, rfl⟩ := digits_singleton.mp hidx
    obtain rfl := List.mem_singleton.mp he
    exact ⟨Int.le_add_of_nonneg_right (Int.natCast_nonneg i), Int.add_lt_add_left (Int.ofNat_lt.mpr hi) _⟩
  · rintro ⟨hlo, hhi⟩
    refine ⟨[(a - desc.dataDesc.offset0).toNat], digits_singleton.mpr ⟨_, by omega, rfl⟩, _, List.mem_singleton_self _, ?_⟩
    show desc.dataDesc.offset0 + (([(a - desc.dataDesc.offset0).toNat] : List ℕ).getD 0 0 : ℕ) = a
    rw [List.getD_cons_zero]
    omega

theorem executeForwardGeneric_of_hasZeroDim (h : desc.hasZeroDimMemory = true) :
    executeForwardGeneric desc scalar src = some nothing :=
  if_pos h

/-- The loops of the generic path, where every extent is an `int`. -/
def forwardLoops (desc : EltwiseDesc) (scalar : AlgKind → V → V) (src : ℤ → V) : Phase ℤ V where
  dims := [desc.MB, desc.C, desc.D, desc.H, desc.W]
  body := fun idx =>
    let dOff := genericOff desc.dataDesc (decide (desc.dataDesc.ndims = 5)) idx
    [Assign.set dOff (scalar desc.algKind (src dOff))]

theorem executeForwardGeneric_of_dims (hzero : desc.hasZeroDimMemory = false) (hn : desc.ndims = 4 ∨ desc.ndims = 5)
    (hdims : ∀ d < desc.ndims, desc.dataDesc.dims d < 2 ^ 31) :
    executeForwardGeneric desc scalar src = some (forwardLoops desc scalar src) := by
  obtain ⟨hMB, hC, hD, hH, hW⟩ := (asInt_dims hn).mpr hdims
  unfold executeForwardGeneric
  rw [if_neg (by rw [hzero]; decide), asInt_of_lt hMB, asInt_of_lt hC, asInt_of_lt hD, asInt_of_lt hH, asInt_of_lt hW]
  rfl

theorem dims_of_executeForwardGeneric (hzero : desc.hasZeroDimMemory = false) (hn : desc.ndims = 4 ∨ desc.ndims = 5)
    {ph : Phase ℤ V} (hph : executeForwardGeneric desc scalar src = some ph) :
    ∀ d < desc.ndims, desc.dataDesc.dims d < 2 ^ 31 := by
  unfold executeForwardGeneric at hph
  rw [if_neg (by rw [hzero]; decide)] at hph
  obtain ⟨_, hMB, hph⟩ := Option.bind_eq_some_iff.mp hph
  obtain ⟨_, hC, hph⟩ := Option.bind_eq_some_iff.mp hph
  obtain ⟨_, hD, hph⟩ := Option.bind_eq_some_iff.mp hph
  obtain ⟨_, hH, hph⟩ := Option.bind_eq_some_iff.mp hph
  obtain ⟨_, hW, -⟩ := Option.bind_eq_some_iff.mp hph
  exact (asInt_dims hn).mp ⟨(asInt_eq_some hMB).1, (asInt_eq_some hC).1, (asInt_eq_some hD).1, (asInt_eq_some hH).1,
    (asInt_eq_some hW).1⟩

theorem forwardLoops_spec (hn : desc.ndims = 4 ∨ desc.ndims = 5) (hwf : desc.dataDesc.WellFormed) (a : ℤ) :
    Assigns (fun a => scalar desc.algKind (src a)) (forwardLoops desc scalar src) ∧
      (Touches (forwardLoops desc scalar src) a ↔
        ∃ pos ∈ box desc.dataDesc.dims desc.ndims, desc.dataDesc.offV pos true = a) := by
  refine ⟨?_, ?_, ?_⟩
  · intro idx _ e he m
    obtain rfl := List.mem_singleton.mp he
    rfl
  · rintro ⟨idx, hidx, e, he, rfl⟩
    obtain rfl := List.mem_singleton.mp he
    obtain ⟨pos, hpos, hoff⟩ := exists_pos_of_digits hn hidx
    refine ⟨pos, hpos, ?_⟩
    rw [← hwf.offV_eq, ← hoff]
    rfl
  · rintro ⟨pos, hpos, rfl⟩
    obtain ⟨idx, hidx, hoff⟩ := exists_digits_of_pos hn hpos
    refine ⟨idx, hidx, _, List.mem_singleton_self _, ?_⟩
    rw [← hwf.offV_eq, ← hoff]
    rfl

/-- The spatial dimensions that the extents `D`, `H` and `W` leave out. -/
def missed (desc : EltwiseDesc) : ℕ := ∏ d ∈ Finset.Ico 2 (desc.ndims - 3), desc.dataDesc.dims d

theorem spatial_eq (hn : 2 ≤ desc.ndims) : spatial desc.dataDesc = missed desc * (desc.D * desc.H * desc.W) := by
  have hmiss : spatial desc.dataDesc = ∏ d ∈ Finset.Ico 2 desc.ndims, desc.dataDesc.dims d := rfl
  rw [hmiss, missed]
  rcases Nat.lt_or_ge desc.ndims 5 with hlt | hge
  · have hcase : desc.ndims = 2 ∨ desc.ndims = 3 ∨ desc.ndims = 4 := by omega
    rcases hcase with h | h | h
    · simp [EltwiseDesc.D, EltwiseDesc.H, EltwiseDesc.W, h]
    · simp [EltwiseDesc.D, EltwiseDesc.H, EltwiseDesc.W, h]
    · rw [h]
      simp [EltwiseDesc.D, EltwiseDesc.H, EltwiseDesc.W, h, Finset.prod_Ico_succ_top]
  · obtain ⟨k, hk⟩ : ∃ k, desc.ndims = k + 3 := ⟨desc.ndims - 3, by omega⟩
    have hsub : k + 3 - 3 = k := by omega
    rw [EltwiseDesc.D, EltwiseDesc.H, EltwiseDesc.W, if_pos hge, if_pos (by omega), if_pos (by omega), hk,
      Finset.prod_Ico_succ_top (by omega), Finset.prod_Ico_succ_top (by omega), Finset.prod_Ico_succ_top (by omega), hsub]
    have h2 : k + 3 - 2 = k + 1 := by omega
    have h1 : k + 3 - 1 = k + 2 := by omega
    rw [h2, h1]
    ring

/-! ## The path over blocks of channels -/

/-- The number of blocks of channels, with the padding. -/
def cPadded (desc : EltwiseDesc) (blk : ℕ) : ℕ := desc.dataDesc.paddedDims 1 / blk

/-- The number of channels of a block. -/
def blockLen (desc : EltwiseDesc) (blk c : ℕ) : ℕ := if c < desc.C / blk then blk else desc.C % blk

/-- The address of a block. -/
def blockOff (desc : EltwiseDesc) (blk n c sp : ℕ) : ℕ :=
  (n * cPadded desc blk * (desc.D * desc.H * desc.W) + c * (desc.D * desc.H * desc.W) + sp) * blk

/-- The loops over blocks of channels, where every number is an `int`. -/
def blockLoops (desc : EltwiseDesc) (scalar : AlgKind → V → V) (src : ℤ → V) (blk : ℕ) : Phase ℤ V where
  dims := [desc.MB, cPadded desc blk, desc.D * desc.H * desc.W]
  body := fun idx =>
    (List.range (blockLen desc blk (idx.getD 1 0))).flatMap fun v =>
      ker desc scalar src (blockOff desc blk (idx.getD 0 0) (idx.getD 1 0) (idx.getD 2 0) + v : ℕ)

/-- An `int` holds the numbers of the path. -/
structure BlocksFit (desc : EltwiseDesc) (blk : ℕ) : Prop where
  MB : desc.MB < 2 ^ 31
  C : desc.C / blk < 2 ^ 31
  cPadded : cPadded desc blk < 2 ^ 31
  tail : desc.C % blk < 2 ^ 31
  SP : desc.D * desc.H * desc.W < 2 ^ 31
  off : ∀ n < desc.MB, ∀ c < RefEltwise.cPadded desc blk, ∀ sp < desc.D * desc.H * desc.W,
    blockOff desc blk n c sp < 2 ^ 31 ∧ blockOff desc blk n c sp + blockLen desc blk c ≤ 2 ^ 31

variable {blk : ℕ}

theorem executeForwardNCspBcPadded_of_fits (hin : desc.dataDesc.blocking.inner = [⟨1, blk⟩]) (h : BlocksFit desc blk) :
    executeForwardNCspBcPadded desc scalar src = some (blockLoops desc scalar src blk) := by
  have hblk : (desc.dataDesc.blocking.inner.map InnerBlk.blk).headD 0 = blk := by rw [hin]; rfl
  have hpad : asInt (desc.dataDesc.paddedDims 1 / blk) = some (cPadded desc blk) := asInt_of_lt h.cPadded
  unfold executeForwardNCspBcPadded
  dsimp only
  rw [hblk, asInt_of_lt h.MB, asInt_of_lt h.C, hpad, asInt_of_lt h.tail, asInt_of_lt h.SP]
  exact if_pos h.off

theorem fits_of_executeForwardNCspBcPadded (hin : desc.dataDesc.blocking.inner = [⟨1, blk⟩]) {ph : Phase ℤ V}
    (hph : executeForwardNCspBcPadded desc scalar src = some ph) : BlocksFit desc blk := by
  have hblk : (desc.dataDesc.blocking.inner.map InnerBlk.blk).headD 0 = blk := by rw [hin]; rfl
  unfold executeForwardNCspBcPadded at hph
  dsimp only at hph
  rw [hblk] at hph
  obtain ⟨_, hMB, hph⟩ := Option.bind_eq_some_iff.mp hph
  obtain ⟨_, hC, hph⟩ := Option.bind_eq_some_iff.mp hph
  obtain ⟨_, hcPadded, hph⟩ := Option.bind_eq_some_iff.mp hph
  obtain ⟨_, htail, hph⟩ := Option.bind_eq_some_iff.mp hph
  obtain ⟨_, hSP, hph⟩ := Option.bind_eq_some_iff.mp hph
  obtain ⟨hMB', rfl⟩ := asInt_eq_some hMB
  obtain ⟨hC', rfl⟩ := asInt_eq_some hC
  obtain ⟨hcPadded', rfl⟩ := asInt_eq_some hcPadded
  obtain ⟨htail', rfl⟩ := asInt_eq_some htail
  obtain ⟨hSP', rfl⟩ := asInt_eq_some hSP
  split_ifs at hph with hoff
  exact { MB := hMB', C := hC', cPadded := hcPadded', tail := htail', SP := hSP', off := hoff }

theorem ker_eq (hzp : eltwiseFwdPreservesZero desc.algKind false = false) (d : ℤ) :
    ker desc scalar src d = [Assign.set d (scalar desc.algKind (src d))] := by
  have hmem : desc.algKind ∈ [AlgKind.linear, .softRelu, .logistic, .exp] := by
    by_contra hnot
    simp [eltwiseFwdPreservesZero, hnot] at hzp
  unfold ker
  simp only [List.mem_cons, List.not_mem_nil, or_false] at hmem
  rcases hmem with h | h | h | h <;> rw [h]

theorem blockLoops_spec (hzp : eltwiseFwdPreservesZero desc.algKind false = false) (a : ℤ) :
    Assigns (fun a => scalar desc.algKind (src a)) (blockLoops desc scalar src blk) ∧
      (Touches (blockLoops desc scalar src blk) a ↔
        ∃ n < desc.MB, ∃ c < cPadded desc blk, ∃ sp < desc.D * desc.H * desc.W, ∃ v < blockLen desc blk c,
          a = (blockOff desc blk n c sp + v : ℕ)) := by
  refine ⟨?_, ?_, ?_⟩
  · intro idx _ e he m
    obtain ⟨v, -, he⟩ := List.mem_flatMap.mp he
    rw [ker_eq hzp] at he
    obtain rfl := List.mem_singleton.mp he
    rfl
  · rintro ⟨idx, hidx, e, he, rfl⟩
    obtain _ | ⟨hn, _ | ⟨hc, _ | ⟨hsp, hnil⟩⟩⟩ := hidx
    cases hnil
    obtain ⟨v, hv, he⟩ := List.mem_flatMap.mp he
    rw [ker_eq hzp] at he
    obtain rfl := List.mem_singleton.mp he
    exact ⟨_, hn, _, hc, _, hsp, v, List.mem_range.mp hv, rfl⟩
  · rintro ⟨n, hn, c, hc, sp, hsp, v, hv, rfl⟩
    refine ⟨[n, c, sp], .cons hn (.cons hc (.cons hsp .nil)), Assign.set (blockOff desc blk n c sp + v : ℕ)
      (scalar desc.algKind (src (blockOff desc blk n c sp + v : ℕ))), ?_, rfl⟩
    refine List.mem_flatMap.mpr ⟨v, List.mem_range.mpr hv, ?_⟩
    rw [ker_eq hzp]
    exact List.mem_singleton_self _

section Layout

variable {rest : List ℕ} (h : Dense desc.dataDesc (0 :: 1 :: rest)) (hin : desc.dataDesc.blocking.inner = [⟨1, blk⟩])

include h hin

omit h in
theorem cPadded_eq : cPadded desc blk = desc.dataDesc.outerBlocks 1 := by
  rw [cPadded, MemoryDesc.outerBlocks, hin, innerBlocks_channels, if_pos rfl]

theorem paddedDims_channels : desc.dataDesc.paddedDims 1 = cPadded desc blk * blk := by
  rw [cPadded_eq hin, h.paddedDims_eq (two_le_ndims h), hin, innerBlocks_channels, if_pos rfl]

theorem nelems_channels :
    desc.dataDesc.nelems true = desc.MB * cPadded desc blk * spatial desc.dataDesc * blk := by
  have hn := two_le_ndims h
  rw [MemoryDesc.nelems, if_neg (by simp only [MemoryDesc.isZero, decide_eq_true_eq]; omega), if_pos rfl, h.volume_eq, hin,
    blockSize_cons, blockSize_nil, List.map_cons, List.map_cons, List.prod_cons, List.prod_cons, prod_outerBlocks_rest h hin,
    (outerBlocks_channels h hin (d := 0) (by omega) (by omega)).1, ← cPadded_eq hin, EltwiseDesc.MB]
  ring

/-- The padding begins in the last block of channels. -/
theorem lt_dims_channels_iff (hblk : 0 < blk) {x : ℕ} (hx : x < desc.dataDesc.paddedDims 1) :
    x < desc.C ↔ x % blk < blockLen desc blk (x / blk) := by
  have hlt := h.paddedDims 1 (two_le_ndims h)
  rw [hin, innerBlocks_channels, if_pos rfl] at hlt
  have hround : desc.dataDesc.paddedDims 1 < desc.C + blk := by
    rw [hlt]
    exact rndUp_lt hblk
  have hC := Nat.div_add_mod' desc.C blk
  have hdiv := Nat.div_add_mod' x blk
  have hmod := Nat.mod_lt x hblk
  have hmodC := Nat.mod_lt desc.C hblk
  unfold blockLen
  split_ifs with hcase
  · have hnext : (x / blk + 1) * blk ≤ desc.C / blk * blk := Nat.mul_le_mul_right blk hcase
    rw [Nat.succ_mul] at hnext
    exact iff_of_true (by omega) hmod
  · have hle : desc.C / blk ≤ x / blk := Nat.not_lt.mp hcase
    have hupper : x / blk ≤ desc.C / blk := by
      by_contra hgt
      have hstep : (desc.C / blk + 1) * blk ≤ x / blk * blk := Nat.mul_le_mul_right blk (by omega)
      have hpad := paddedDims_channels h hin
      have hwhole : blk ∣ desc.dataDesc.paddedDims 1 := ⟨cPadded desc blk, by rw [hpad, Nat.mul_comm]⟩
      have hup : desc.dataDesc.paddedDims 1 ≤ (desc.C / blk + 1) * blk := by
        obtain ⟨q, hq⟩ := hwhole
        have hql : q < desc.C / blk + 2 := by
          by_contra hge
          have hmul : blk * (desc.C / blk + 2) ≤ blk * q := Nat.mul_le_mul_left blk (Nat.not_lt.mp hge)
          nlinarith
        rw [hq, Nat.mul_comm]
        exact Nat.mul_le_mul_right blk (by omega)
      omega
    have heq : x / blk = desc.C / blk := le_antisymm hupper hle
    rw [heq] at hdiv
    omega

omit h hin in
theorem blockOff_eq (n c sp : ℕ) :
    blockOff desc blk n c sp = ((n * cPadded desc blk + c) * (desc.D * desc.H * desc.W) + sp) * blk := by
  unfold blockOff
  ring

omit h hin in
/-- The addresses of the path lie below the number of positions that it counts. -/
theorem blockOff_add_lt {n c sp v : ℕ} (hn : n < desc.MB) (hc : c < cPadded desc blk) (hsp : sp < desc.D * desc.H * desc.W)
    (hv : v < blk) :
    blockOff desc blk n c sp + v < desc.MB * cPadded desc blk * (desc.D * desc.H * desc.W) * blk := by
  rw [blockOff_eq]
  have hchannel : n * cPadded desc blk + c < desc.MB * cPadded desc blk := by nlinarith
  have hplane : (n * cPadded desc blk + c) * (desc.D * desc.H * desc.W) + sp <
      desc.MB * cPadded desc blk * (desc.D * desc.H * desc.W) := by nlinarith
  nlinarith

omit h hin in
theorem blockLen_le (hblk : 0 < blk) (c : ℕ) : blockLen desc blk c ≤ blk := by
  unfold blockLen
  split_ifs
  · exact le_rfl
  · exact (Nat.mod_lt _ hblk).le

/-- Where the extents give all positions, the path assigns to the elements of the tensor and not to the padding. -/
theorem blockLoops_touches_iff (hblk : 0 < blk) (hzp : eltwiseFwdPreservesZero desc.algKind false = false)
    (hmissed : missed desc = 1) {pos : ℕ → ℕ} (hpos : pos ∈ box desc.dataDesc.paddedDims desc.ndims) :
    Touches (blockLoops desc scalar src blk) (desc.dataDesc.offV pos true) ↔ pos 1 < desc.C := by
  have hn := two_le_ndims h
  have hlt := (mem_box.mp hpos).1
  obtain ⟨k, hk, hoff⟩ := offV_channels h hin hpos
  rw [spatial_eq hn, hmissed, Nat.one_mul] at hk hoff
  rw [← cPadded_eq hin] at hoff
  have hx := hlt 1 hn
  have hc : pos 1 / blk < cPadded desc blk := by
    rw [paddedDims_channels h hin] at hx
    exact Nat.div_lt_of_lt_mul (by rwa [Nat.mul_comm])
  have hpos0 : pos 0 < desc.MB := by
    rw [EltwiseDesc.MB, ← (outerBlocks_channels h hin (d := 0) (by omega) (by omega)).2]
    exact hlt 0 (Nat.lt_of_lt_of_le Nat.two_pos hn)
  rw [(blockLoops_spec hzp _).2, lt_dims_channels_iff h hin hblk hx, hoff]
  constructor
  · rintro ⟨n, hn, c, hc', sp, hsp, v, hv, heq⟩
    rw [Int.natCast_inj, blockOff_eq] at heq
    have hvlt := hv.trans_le (blockLen_le hblk c)
    have hmod := Nat.mod_lt (pos 1) hblk
    have hplane := congrArg (· / blk) heq
    have hinner := congrArg (· % blk) heq
    rw [mul_add_div hmod, mul_add_div hvlt] at hplane
    rw [mul_add_mod hmod, mul_add_mod hvlt] at hinner
    have hchannel := congrArg (· / (desc.D * desc.H * desc.W)) hplane
    rw [mul_add_div hk, mul_add_div hsp] at hchannel
    have hblock := congrArg (· % cPadded desc blk) hchannel
    rw [mul_add_mod hc, mul_add_mod hc'] at hblock
    rw [hblock, hinner]
    exact hv
  · intro hv
    exact ⟨pos 0, hpos0, pos 1 / blk, hc, k, hk, pos 1 % blk, hv, by rw [blockOff_eq]⟩

/-- Where the extents leave out a dimension, the last elements are not assigned to. -/
theorem exists_not_touches (hblk : 0 < blk) (hzp : eltwiseFwdPreservesZero desc.algKind false = false)
    (hmissed : missed desc ≠ 1) : ∃ pos ∈ box desc.dataDesc.dims desc.ndims,
      ¬ Touches (blockLoops desc scalar src blk) (desc.dataDesc.offV pos true) := by
  have hn := two_le_ndims h
  have hspatial := spatial_eq hn
  have hpositive : 0 < missed desc := Finset.prod_pos fun d hd => by
    have hlt := (Finset.mem_Ico.mp hd).2
    exact h.dims_pos d (lt_of_lt_of_le hlt (Nat.sub_le _ _))
  have hnelems := nelems_channels h hin
  have hvolume : volume desc.dataDesc.paddedDims desc.ndims = desc.dataDesc.nelems true := by
    rw [MemoryDesc.nelems, if_neg (by simp only [MemoryDesc.isZero, decide_eq_true_eq]; omega), if_pos rfl]
    rfl
  have hspos : 0 < spatial desc.dataDesc := Finset.prod_pos fun d hd => h.dims_pos d (Finset.mem_Ico.mp hd).2
  have hMB : 0 < desc.MB := h.dims_pos 0 (by omega)
  have hCP : 0 < cPadded desc blk := by
    rw [cPadded_eq hin]
    exact h.outerBlocks_pos hn
  set total := desc.MB * cPadded desc blk * spatial desc.dataDesc with htotal
  have htotalpos : 0 < total := Nat.mul_pos (Nat.mul_pos hMB hCP) hspos
  obtain ⟨pos, hpos, hoff⟩ := h.bijOn_offV.surjOn (show (((total - 1) * blk : ℕ) : ℤ) ∈ _ from
    ⟨Int.natCast_nonneg _, by
      have hbound : (total - 1) * blk < total * blk := Nat.mul_lt_mul_of_pos_right (by omega) hblk
      have hvol : volume desc.dataDesc.paddedDims desc.dataDesc.ndims = total * blk := hvolume.trans hnelems
      rw [hvol]
      exact_mod_cast hbound⟩)
  have hlt := (mem_box.mp hpos).1
  dsimp only at hoff
  refine ⟨pos, mem_box.mpr ⟨fun d hd => ?_, (mem_box.mp hpos).2⟩, fun htouch => ?_⟩
  · by_cases hd1 : d = 1
    · -- the last block of channels begins with an element
      subst hd1
      obtain ⟨k, hk, heq⟩ := offV_channels h hin hpos
      rw [hoff, Int.natCast_inj] at heq
      have hmod := Nat.mod_lt (pos 1) hblk
      have hinner := congrArg (· % blk) heq
      rw [Nat.mul_mod_left, mul_add_mod hmod] at hinner
      have hx := hlt 1 hd
      have hround : desc.dataDesc.paddedDims 1 < desc.dataDesc.dims 1 + blk := by
        rw [h.paddedDims 1 hd, hin, innerBlocks_channels, if_pos rfl]
        exact rndUp_lt hblk
      rw [paddedDims_channels h hin] at hx hround
      have hdiv := Nat.div_add_mod' (pos 1) blk
      have hc : pos 1 / blk < cPadded desc blk := Nat.div_lt_of_lt_mul (by rwa [Nat.mul_comm])
      nlinarith
    · rw [← (outerBlocks_channels h hin hd hd1).2]
      exact hlt d hd
  · rw [(blockLoops_spec hzp _).2, hoff] at htouch
    obtain ⟨n, hn', c, hc, sp, hsp, v, hv, heq⟩ := htouch
    rw [Int.natCast_inj] at heq
    have hbound := blockOff_add_lt hn' hc hsp (hv.trans_le (blockLen_le hblk c))
    rw [← heq] at hbound
    have hplane := Nat.lt_of_mul_lt_mul_right hbound
    have htwo : 2 * (desc.MB * cPadded desc blk * (desc.D * desc.H * desc.W)) ≤ total := by
      rw [htotal, hspatial]
      have hge : 2 ≤ missed desc := by omega
      calc 2 * (desc.MB * cPadded desc blk * (desc.D * desc.H * desc.W))
          ≤ missed desc * (desc.MB * cPadded desc blk * (desc.D * desc.H * desc.W)) := Nat.mul_le_mul_right _ hge
        _ = desc.MB * cPadded desc blk * (missed desc * (desc.D * desc.H * desc.W)) := by ring
    omega

/-- The numbers of the path are those of the padded tensor. -/
theorem blocksFit_iff (hblk : blk = 8 ∨ blk = 16) (hmissed : missed desc = 1) :
    BlocksFit desc blk ↔ desc.dataDesc.nelems true ≤ 2 ^ 31 := by
  have hn := two_le_ndims h
  have hpos : 0 < blk := by omega
  have hnelems := nelems_channels h hin
  rw [spatial_eq hn, hmissed, Nat.one_mul] at hnelems
  have hspos : 0 < desc.D * desc.H * desc.W := by
    have hs : 0 < spatial desc.dataDesc := Finset.prod_pos fun d hd => h.dims_pos d (Finset.mem_Ico.mp hd).2
    rwa [spatial_eq hn, hmissed, Nat.one_mul] at hs
  have hMB : 0 < desc.MB := h.dims_pos 0 (by omega)
  have hCP : 0 < cPadded desc blk := by
    rw [cPadded_eq hin]
    exact h.outerBlocks_pos hn
  set SP := desc.D * desc.H * desc.W with hSP
  set CP := cPadded desc blk with hpadC
  have hK : 0 < desc.MB * CP * SP := Nat.mul_pos (Nat.mul_pos hMB hCP) hspos
  rw [hnelems]
  constructor
  · intro hfit
    have hlast := (hfit.off (desc.MB - 1) (by omega) (CP - 1) (by omega) (SP - 1) (by omega)).1
    have hoff : blockOff desc blk (desc.MB - 1) (CP - 1) (SP - 1) = (desc.MB * CP * SP - 1) * blk := by
      rw [blockOff_eq, ← hSP, ← hpadC]
      congr 1
      obtain ⟨a, ha⟩ := Nat.exists_eq_succ_of_ne_zero hMB.ne'
      obtain ⟨b, hb⟩ := Nat.exists_eq_succ_of_ne_zero hCP.ne'
      obtain ⟨c, hc⟩ := Nat.exists_eq_succ_of_ne_zero hspos.ne'
      rw [ha, hb, hc]
      simp only [Nat.succ_eq_add_one, Nat.add_sub_cancel]
      have hexp : (a + 1) * (b + 1) * (c + 1) = (a * (b + 1) + b) * (c + 1) + c + 1 := by ring
      omega
    rw [hoff] at hlast
    rcases hblk with rfl | rfl <;> omega
  · intro hle
    have hchain : ∀ x : ℕ, x ≤ desc.MB * CP * SP → x < 2 ^ 31 := by
      intro x hx
      rcases hblk with rfl | rfl <;> omega
    have hCle : desc.C / blk ≤ CP := by
      rw [hpadC, cPadded]
      exact Nat.div_le_div_right (h.dims_le (two_le_ndims h))
    have hMBle : desc.MB ≤ desc.MB * CP * SP := by
      rw [Nat.mul_assoc]
      exact Nat.le_mul_of_pos_right _ (Nat.mul_pos hCP hspos)
    have hCPle : CP ≤ desc.MB * CP * SP := by
      rw [Nat.mul_comm desc.MB, Nat.mul_assoc]
      exact Nat.le_mul_of_pos_right _ (Nat.mul_pos hMB hspos)
    have hmod := Nat.mod_lt desc.C hpos
    refine { MB := hchain _ hMBle, C := hchain _ (hCle.trans hCPle), cPadded := hchain _ hCPle, tail := ?_,
             SP := hchain _ (Nat.le_mul_of_pos_left _ (Nat.mul_pos hMB hCP)), off := fun n hn' c hc sp hsp => ?_ }
    · rcases hblk with rfl | rfl <;> omega
    · have hbound := blockOff_add_lt hn' hc hsp (Nat.sub_lt hpos Nat.one_pos)
      have hlen : blockLen desc blk c ≤ blk := blockLen_le hpos c
      rw [← hSP, ← hpadC] at hbound
      constructor <;> omega

end Layout

end Forward

/-! ## The forward pass -/

/-- Every element of the output is the function of the element of the input, and padding that was zero is zero. -/
def ForwardMeets [Zero V] (scalar : AlgKind → V → V) (desc : EltwiseDesc) (path : Path) : Prop :=
  ∀ src m : ℤ → V, ∃ ph, executeForward desc scalar src path = some ph ∧ ∀ m', ph.Step m m' →
    (∀ pos ∈ box desc.dataDesc.dims desc.ndims,
      m' (desc.dataDesc.offV pos false) = scalar desc.algKind (src (desc.dataDesc.offV pos false))) ∧
    ((∀ pos, desc.dataDesc.IsPadding pos → src (desc.dataDesc.offV pos true) = 0 ∧ m (desc.dataDesc.offV pos true) = 0) →
      ∀ pos, desc.dataDesc.IsPadding pos → m' (desc.dataDesc.offV pos true) = 0)

/-- When the forward pass does that: the dense path needs every element where it counts, and a function of zero that is zero if it
counts through padding; the path over blocks of channels needs the extents to give all dimensions, and both of the other paths
need numbers that an `int` holds. -/
def ForwardCondition [Zero V] (scalar : AlgKind → V → V) (desc : EltwiseDesc) : Path → Prop
  | .dense => (∀ pos ∈ box desc.dataDesc.dims desc.ndims, InDense desc.dataDesc (desc.dataDesc.offV pos true)) ∧
      (scalar desc.algKind 0 = 0 ∨
        ∀ pos, desc.dataDesc.IsPadding pos → ¬ InDense desc.dataDesc (desc.dataDesc.offV pos true))
  | .nCspBcPadded => ∏ d ∈ Finset.Ico 2 (desc.ndims - 3), desc.dataDesc.dims d = 1 ∧ desc.dataDesc.nelems true ≤ 2 ^ 31
  | .generic => desc.hasZeroDimMemory = true ∨ ∀ d < desc.ndims, desc.dataDesc.dims d < 2 ^ 31

section ForwardMeets

variable [Zero V] {desc : EltwiseDesc} {scalar : AlgKind → V → V} {path : Path}

/-- A path that assigns to the addresses `T`. -/
theorem forwardMeets_iff_of_touches [Nontrivial V] {T : ℤ → Prop} (hwf : desc.dataDesc.WellFormed)
    (hph : ∀ src, ∃ ph, executeForward desc scalar src path = some ph ∧
      Assigns (fun a => scalar desc.algKind (src a)) ph ∧ ∀ a, Touches ph a ↔ T a) :
    ForwardMeets scalar desc path ↔ (∀ pos ∈ box desc.dataDesc.dims desc.ndims, T (desc.dataDesc.offV pos true)) ∧
      (scalar desc.algKind 0 = 0 ∨ ∀ pos, desc.dataDesc.IsPadding pos → ¬ T (desc.dataDesc.offV pos true)) := by
  constructor
  · intro hmeets
    obtain ⟨ph, hexec, hassigns, htouches⟩ := hph fun _ => 0
    constructor
    · intro pos hpos
      by_contra hnot
      obtain ⟨x, hx⟩ := exists_ne (scalar desc.algKind 0)
      obtain ⟨ph', hexec', hstep⟩ := hmeets (fun _ => 0) fun _ => x
      obtain rfl := Option.some.inj (hexec.symm.trans hexec')
      obtain ⟨m', hm'⟩ := ph.exists_step fun _ => x
      have hvalue := (hstep m' hm').1 pos hpos
      rw [hwf.offV_eq, (hassigns.step_eq hm' _).2 (mt (htouches _).mp hnot)] at hvalue
      exact hx hvalue
    · by_contra hnot
      push Not at hnot
      obtain ⟨hzero, pos, hpad, hmem⟩ := hnot
      obtain ⟨ph', hexec', hstep⟩ := hmeets (fun _ => 0) fun _ => 0
      obtain rfl := Option.some.inj (hexec.symm.trans hexec')
      obtain ⟨m', hm'⟩ := ph.exists_step fun _ => 0
      have hvalue := (hstep m' hm').2 (fun _ _ => ⟨rfl, rfl⟩) pos hpad
      rw [(hassigns.step_eq hm' _).1 ((htouches _).mpr hmem)] at hvalue
      exact hzero hvalue
  · rintro ⟨hall, hpadding⟩ src m
    obtain ⟨ph, hexec, hassigns, htouches⟩ := hph src
    refine ⟨ph, hexec, fun m' hstep => ⟨fun pos hpos => ?_, fun hzero pos hpad => ?_⟩⟩
    · rw [hwf.offV_eq]
      exact (hassigns.step_eq hstep _).1 ((htouches _).mpr (hall pos hpos))
    · obtain ⟨hsrc, hm⟩ := hzero pos hpad
      by_cases hmem : T (desc.dataDesc.offV pos true)
      · rw [(hassigns.step_eq hstep _).1 ((htouches _).mpr hmem), hsrc]
        exact hpadding.resolve_right fun hout => hout pos hpad hmem
      · rw [(hassigns.step_eq hstep _).2 (mt (htouches _).mp hmem), hm]

theorem forwardMeets_dense_iff [Nontrivial V] (hwf : desc.dataDesc.WellFormed) :
    ForwardMeets scalar desc .dense ↔ ForwardCondition scalar desc .dense :=
  forwardMeets_iff_of_touches hwf fun _ =>
    ⟨_, rfl, (executeForwardDense_spec 0).1, fun a => (executeForwardDense_spec a).2⟩

theorem forwardMeets_generic_iff [Nontrivial V] (h : desc.dataDesc.Built) (hk : desc.dataDesc.formatKind = .blocked)
    (hn : desc.ndims = 4 ∨ desc.ndims = 5) : ForwardMeets scalar desc .generic ↔ ForwardCondition scalar desc .generic := by
  have hwf := h.wellFormed
  unfold ForwardCondition
  cases hzero : desc.hasZeroDimMemory with
  | true =>
    have hexec : ∀ src : ℤ → V, executeForward desc scalar src .generic = some nothing :=
      fun _ => executeForwardGeneric_of_hasZeroDim hzero
    refine iff_of_true ((forwardMeets_iff_of_touches hwf fun src =>
      ⟨nothing, hexec src, ?_, fun a => iff_of_false touches_nothing id⟩).mpr ?_) (Or.inl rfl)
    · intro idx _ e he
      exact absurd he List.not_mem_nil
    · exact ⟨fun pos hpos => absurd hpos (MemoryDesc.notMem_box hzero (h.ndims_pos hk) pos), Or.inr fun _ _ => id⟩
  | false =>
    by_cases hdims : ∀ d < desc.ndims, desc.dataDesc.dims d < 2 ^ 31
    · have hexec : ∀ src : ℤ → V, executeForward desc scalar src .generic = some (forwardLoops desc scalar src) :=
        fun _ => executeForwardGeneric_of_dims hzero hn hdims
      refine iff_of_true ((forwardMeets_iff_of_touches hwf fun src => ⟨_, hexec src, (forwardLoops_spec hn hwf 0).1,
          fun a => (forwardLoops_spec hn hwf a).2⟩).mpr ?_) (Or.inr hdims)
      refine ⟨fun pos hpos => ⟨pos, hpos, rfl⟩, Or.inr fun pos hpad htouch => ?_⟩
      obtain ⟨pos', hpos', heq⟩ := htouch
      exact h.offV_ne_of_isPadding hk hpos' hpad heq
    · refine iff_of_false (fun hmeets => ?_) ?_
      · obtain ⟨ph, hexec, -⟩ := hmeets (fun _ => 0) fun _ => 0
        have hloops : executeForwardGeneric desc scalar (fun _ => 0) = some ph := hexec
        exact hdims (dims_of_executeForwardGeneric hzero hn hloops)
      · rintro (hfalse | hall)
        · exact absurd hfalse (by decide)
        · exact hdims hall

/-- The layout of a tensor for which the path over blocks of channels is taken. -/
theorem dense_of_nCspBcPadded (h : desc.dataDesc.Built) (hk : desc.dataDesc.formatKind = .blocked)
    (hzero : desc.hasZeroDimMemory = false) (hden : desc.dataDesc.isDense false = false)
    (hdense : desc.dataDesc.isDense true = true) (hpad : desc.dataDesc.onlyPaddedDim 1 = true) {blk : ℕ}
    (hin : desc.dataDesc.blocking.inner = [⟨1, blk⟩]) (hblk : blk = 8 ∨ blk = 16) :
    ∃ rest, Dense desc.dataDesc (0 :: 1 :: rest) := by
  have hpos : ∀ d < desc.dataDesc.ndims, 0 < desc.dataDesc.dims d := fun d hd => desc.dataDesc.dims_pos hzero hd
  simp only [MemoryDesc.onlyPaddedDim, decide_eq_true_eq] at hpad
  have hpadded : ∀ d < desc.dataDesc.ndims,
      desc.dataDesc.paddedDims d = rndUp (desc.dataDesc.dims d) (innerBlocks desc.dataDesc.blocking.inner d) := by
    intro d hd
    by_cases hd1 : d = 1
    · subst hd1
      rcases h.paddedDims_eq hd with heq | heq
      · -- without padding, the two counts of elements are the same
        have hsame : desc.dataDesc.nelems false = desc.dataDesc.nelems true := by
          have hcongr : volume desc.dataDesc.dims desc.dataDesc.ndims = volume desc.dataDesc.paddedDims desc.dataDesc.ndims := by
            refine volume_congr fun e he => ?_
            by_cases he1 : e = 1
            · rw [he1, heq]
            · exact hpad e he he1
          simp only [MemoryDesc.nelems, hcongr, Bool.false_eq_true, if_false, if_true]
        have hcontra : desc.dataDesc.isDense false = desc.dataDesc.isDense true := by
          unfold MemoryDesc.isDense
          rw [hsame]
        rw [hden, hdense] at hcontra
        exact absurd hcontra (by decide)
      · exact heq
    · rw [hin, innerBlocks_channels, if_neg hd1, rndUp_one]
      exact (hpad d hd hd1).symm
  obtain ⟨tag, args, hargs, hzip, hlayout⟩ := h.dense_of_isDense hk hpos (by rw [hin]; simp) hdense hpadded
  obtain ⟨rest, hperm⟩ := blockingArgs_channels hargs (hzip ▸ hin) hblk
  exact ⟨rest, hperm ▸ hlayout⟩

theorem forwardMeets_nCspBcPadded_iff [Nontrivial V] (h : desc.dataDesc.Built) (hk : desc.dataDesc.formatKind = .blocked)
    (hzero : desc.hasZeroDimMemory = false) (hden : desc.dataDesc.isDense false = false)
    (hzp : eltwiseFwdPreservesZero desc.algKind false = false) (hdense : desc.dataDesc.isDense true = true)
    (hpad : desc.dataDesc.onlyPaddedDim 1 = true) {blk : ℕ} (hin : desc.dataDesc.blocking.inner = [⟨1, blk⟩])
    (hblk : blk = 8 ∨ blk = 16) :
    ForwardMeets scalar desc .nCspBcPadded ↔ ForwardCondition scalar desc .nCspBcPadded := by
  have hwf := h.wellFormed
  have hpos : 0 < blk := by omega
  obtain ⟨rest, hlayout⟩ := dense_of_nCspBcPadded h hk hzero hden hdense hpad hin hblk
  have hmissed : missed desc = ∏ d ∈ Finset.Ico 2 (desc.ndims - 3), desc.dataDesc.dims d := rfl
  unfold ForwardCondition
  dsimp only
  rw [← hmissed]
  by_cases hfit : BlocksFit desc blk
  · have hexec : ∀ src : ℤ → V, executeForward desc scalar src .nCspBcPadded = some (blockLoops desc scalar src blk) :=
      fun src => executeForwardNCspBcPadded_of_fits hin hfit
    rw [forwardMeets_iff_of_touches (T := fun a => Touches (blockLoops desc scalar (fun _ => 0) blk) a) hwf fun src =>
      ⟨_, hexec src, (blockLoops_spec hzp 0).1, fun a => (blockLoops_spec hzp a).2.trans (blockLoops_spec hzp a).2.symm⟩]
    constructor
    · rintro ⟨hall, -⟩
      have hone : missed desc = 1 := by
        by_contra hne
        obtain ⟨pos, hmem, hnot⟩ : ∃ pos ∈ box desc.dataDesc.dims desc.ndims,
            ¬ Touches (blockLoops desc scalar (fun _ => 0) blk) (desc.dataDesc.offV pos true) :=
          exists_not_touches hlayout hin hpos hzp hne
        exact hnot (hall pos hmem)
      exact ⟨hone, (blocksFit_iff hlayout hin hblk hone).mp hfit⟩
    · rintro ⟨hone, -⟩
      refine ⟨fun pos hmem => ?_, Or.inr fun pos hpadding htouch => ?_⟩
      · have hbox : pos ∈ box desc.dataDesc.paddedDims desc.ndims := mem_box.mpr
          ⟨fun d hd => ((mem_box.mp hmem).1 d hd).trans_le (hwf.dims_le d hd), (mem_box.mp hmem).2⟩
        exact (blockLoops_touches_iff hlayout hin hpos hzp hone hbox).mpr ((mem_box.mp hmem).1 1 (two_le_ndims hlayout))
      · have hchannel := (blockLoops_touches_iff hlayout hin hpos hzp hone hpadding.1).mp htouch
        obtain ⟨d, hd, hle⟩ := hpadding.2
        by_cases hd1 : d = 1
        · subst hd1
          exact absurd hchannel (Nat.not_lt.mpr hle)
        · have hlt := (mem_box.mp hpadding.1).1 d hd
          rw [(outerBlocks_channels hlayout hin hd hd1).2] at hlt
          omega
  · refine iff_of_false (fun hmeets => ?_) fun ⟨hone, hle⟩ => hfit ((blocksFit_iff hlayout hin hblk hone).mpr hle)
    obtain ⟨ph, hexec, -⟩ := hmeets (fun _ => 0) fun _ => 0
    exact hfit (fits_of_executeForwardNCspBcPadded hin hexec)

/-- The forward pass, for each path. -/
theorem forwardMeets_iff [Nontrivial V] {t : Target} (h : desc.dataDesc.Built) (hk : desc.dataDesc.formatKind = .blocked)
    (hinit : fwdInit t desc = .ok path) : ForwardMeets scalar desc path ↔ ForwardCondition scalar desc path := by
  obtain rfl | ⟨rfl, hzero, hden, hzp, hdense, hpad, blk, hin, hblk⟩ | ⟨rfl, hn⟩ := fwdInit_cases hinit
  · exact forwardMeets_dense_iff h.wellFormed
  · exact forwardMeets_nCspBcPadded_iff h hk hzero hden hzp hdense hpad hin hblk
  · exact forwardMeets_generic_iff h hk hn

end ForwardMeets

/-! ## The backward pass -/

/-- Every element of `diff_src` is the function of the elements of `diff_dst` and of `src`, and padding that was zero is zero. -/
def BackwardMeets [Zero V] (scalar : AlgKind → V → V → V) (desc : EltwiseDesc) (path : Path) : Prop :=
  ∀ src diffDst m : ℤ → V, ∃ ph, executeBackward desc scalar src diffDst path = some ph ∧ ∀ m', ph.Step m m' →
    (∀ pos ∈ box desc.dataDesc.dims desc.ndims,
      m' (desc.diffDataDesc.offV pos false) =
        scalar desc.algKind (diffDst (desc.diffDataDesc.offV pos false)) (src (desc.dataDesc.offV pos false))) ∧
    ((∀ pos, desc.dataDesc.IsPadding pos → src (desc.dataDesc.offV pos true) = 0) →
      (∀ pos, desc.diffDataDesc.IsPadding pos →
        diffDst (desc.diffDataDesc.offV pos true) = 0 ∧ m (desc.diffDataDesc.offV pos true) = 0) →
      ∀ pos, desc.diffDataDesc.IsPadding pos → m' (desc.diffDataDesc.offV pos true) = 0)

/-- When the backward pass does that. In the loops over the dimensions, elements of `diff_src` at one address need elements of `src`
at one address, unless the function does not depend on `src`. -/
def BackwardCondition [Zero V] (scalar : AlgKind → V → V → V) (desc : EltwiseDesc) : Path → Prop
  | .dense => (∀ pos ∈ box desc.dataDesc.dims desc.ndims, InDense desc.dataDesc (desc.dataDesc.offV pos true)) ∧
      (scalar desc.algKind 0 0 = 0 ∨
        ∀ pos, desc.dataDesc.IsPadding pos → ¬ InDense desc.dataDesc (desc.dataDesc.offV pos true))
  | _ => desc.hasZeroDimMemory = true ∨ (∀ d < desc.ndims, desc.dataDesc.dims d < 2 ^ 31) ∧
      ((∀ pos ∈ box desc.dataDesc.dims desc.ndims, ∀ pos' ∈ box desc.dataDesc.dims desc.ndims,
          desc.diffDataDesc.offV pos false = desc.diffDataDesc.offV pos' false →
          desc.dataDesc.offV pos false = desc.dataDesc.offV pos' false) ∨
        ∀ dd s s', scalar desc.algKind dd s = scalar desc.algKind dd s')

theorem bwdInit_cases {t : Target} {desc : EltwiseDesc} {path : Path} (h : bwdInit t desc = .ok path) :
    (path = .dense ∧ desc.diffDataDesc.isEqual desc.dataDesc = true) ∨
      path = .generic ∧ (desc.diffDataDesc.ndims = 4 ∨ desc.diffDataDesc.ndims = 5) := by
  unfold bwdInit at h
  dsimp only at h
  split_ifs at h with hcond hdense hn
  · rw [Bool.and_eq_true, Bool.and_eq_true] at hdense
    exact Or.inl ⟨(Except.ok.inj h).symm, hdense.1.1⟩
  · exact Or.inr ⟨(Except.ok.inj h).symm, hn⟩

section BackwardMeets

variable {desc : EltwiseDesc} {scalar : AlgKind → V → V → V} {src diffDst : ℤ → V}

/-- The loops of the backward pass, where every extent is an `int`. -/
def backwardLoops (desc : EltwiseDesc) (scalar : AlgKind → V → V → V) (src diffDst : ℤ → V) : Phase ℤ V where
  dims := [desc.MB, desc.C, desc.D, desc.H, desc.W]
  body := fun idx =>
    let dataOff := genericOff desc.dataDesc (decide (desc.dataDesc.ndims = 5)) idx
    let diffDataOff := genericOff desc.diffDataDesc (decide (desc.dataDesc.ndims = 5)) idx
    [Assign.set diffDataOff (scalar desc.algKind (diffDst diffDataOff) (src dataOff))]

theorem executeBackwardGeneric_of_dims (hzero : desc.hasZeroDimMemory = false) (hn : desc.ndims = 4 ∨ desc.ndims = 5)
    (hdims : ∀ d < desc.ndims, desc.dataDesc.dims d < 2 ^ 31) :
    executeBackwardGeneric desc scalar src diffDst = some (backwardLoops desc scalar src diffDst) := by
  obtain ⟨hMB, hC, hD, hH, hW⟩ := (asInt_dims hn).mpr hdims
  unfold executeBackwardGeneric
  rw [if_neg (by rw [hzero]; decide), asInt_of_lt hMB, asInt_of_lt hC, asInt_of_lt hD, asInt_of_lt hH, asInt_of_lt hW]
  rfl

theorem dims_of_executeBackwardGeneric (hzero : desc.hasZeroDimMemory = false) (hn : desc.ndims = 4 ∨ desc.ndims = 5)
    {ph : Phase ℤ V} (hph : executeBackwardGeneric desc scalar src diffDst = some ph) :
    ∀ d < desc.ndims, desc.dataDesc.dims d < 2 ^ 31 := by
  unfold executeBackwardGeneric at hph
  rw [if_neg (by rw [hzero]; decide)] at hph
  obtain ⟨_, hMB, hph⟩ := Option.bind_eq_some_iff.mp hph
  obtain ⟨_, hC, hph⟩ := Option.bind_eq_some_iff.mp hph
  obtain ⟨_, hD, hph⟩ := Option.bind_eq_some_iff.mp hph
  obtain ⟨_, hH, hph⟩ := Option.bind_eq_some_iff.mp hph
  obtain ⟨_, hW, -⟩ := Option.bind_eq_some_iff.mp hph
  exact (asInt_dims hn).mp ⟨(asInt_eq_some hMB).1, (asInt_eq_some hC).1, (asInt_eq_some hD).1, (asInt_eq_some hH).1,
    (asInt_eq_some hW).1⟩

/-- An assignment of the loops is that of a position. -/
theorem mem_backwardLoops (hn : desc.ndims = 4 ∨ desc.ndims = 5) {idx : List ℕ}
    (hidx : idx ∈ digits (backwardLoops desc scalar src diffDst).dims) {e : Assign ℤ V}
    (he : e ∈ (backwardLoops desc scalar src diffDst).body idx) :
    ∃ pos ∈ box desc.dataDesc.dims desc.ndims, e = Assign.set (desc.diffDataDesc.offV pos false)
      (scalar desc.algKind (diffDst (desc.diffDataDesc.offV pos false)) (src (desc.dataDesc.offV pos false))) := by
  obtain rfl := List.mem_singleton.mp he
  obtain ⟨pos, hpos, hoff⟩ := exists_pos_of_digits hn hidx
  exact ⟨pos, hpos, by rw [hoff, hoff]⟩

theorem touches_backwardLoops (hn : desc.ndims = 4 ∨ desc.ndims = 5) {pos : ℕ → ℕ}
    (hpos : pos ∈ box desc.dataDesc.dims desc.ndims) :
    Touches (backwardLoops desc scalar src diffDst) (desc.diffDataDesc.offV pos false) := by
  obtain ⟨idx, hidx, hoff⟩ := exists_digits_of_pos hn hpos
  exact ⟨idx, hidx, _, List.mem_singleton_self _, hoff desc.diffDataDesc⟩

variable [Zero V]

/-- The loops over the dimensions, for both descriptors of the same shape. -/
theorem backwardMeets_generic_iff (hdiff : desc.diffDataDesc.Built) (hkdiff : desc.diffDataDesc.formatKind = .blocked)
    (hndims : desc.diffDataDesc.ndims = desc.ndims) (hdims : ∀ d < desc.ndims, desc.diffDataDesc.dims d = desc.dataDesc.dims d)
    (hn : desc.ndims = 4 ∨ desc.ndims = 5) : BackwardMeets scalar desc .generic ↔ BackwardCondition scalar desc .generic := by
  have hbox : box desc.diffDataDesc.dims desc.diffDataDesc.ndims = box desc.dataDesc.dims desc.ndims := by
    rw [hndims]
    exact box_congr hdims
  unfold BackwardCondition
  dsimp only
  cases hzero : desc.hasZeroDimMemory with
  | true =>
    refine iff_of_true (fun src diffDst m => ⟨nothing, if_pos hzero, fun m' hstep => ⟨fun pos hpos => ?_, ?_⟩⟩) (Or.inl rfl)
    · have hnd : 0 < desc.dataDesc.ndims := by
        have hn' : desc.dataDesc.ndims = 4 ∨ desc.dataDesc.ndims = 5 := hn
        omega
      exact absurd hpos (MemoryDesc.notMem_box hzero hnd pos)
    · intro _ hpad pos hpadding
      have hkeep : m' (desc.diffDataDesc.offV pos true) = m (desc.diffDataDesc.offV pos true) :=
        hstep.of_ne fun _ _ _ he => absurd he List.not_mem_nil
      rw [hkeep, (hpad pos hpadding).2]
  | false =>
    rw [or_iff_right (by decide)]
    constructor
    · intro hmeets
      obtain ⟨ph, hexec, -⟩ := hmeets (fun _ => 0) (fun _ => 0) fun _ => 0
      have hloops : executeBackwardGeneric desc scalar (fun _ => 0) (fun _ => 0) = some ph := hexec
      have hfit := dims_of_executeBackwardGeneric hzero hn hloops
      refine ⟨hfit, ?_⟩
      by_contra hnot
      push Not at hnot
      obtain ⟨⟨pos, hpos, pos', hpos', hsame, hne⟩, dd, s, s', hvalue⟩ := hnot
      set src : ℤ → V := fun a => if a = desc.dataDesc.offV pos false then s else s' with hsrc
      obtain ⟨ph', hexec', hstep⟩ := hmeets src (fun _ => dd) fun _ => 0
      obtain ⟨m', hm'⟩ := ph'.exists_step fun _ => 0
      have hfirst := (hstep m' hm').1 pos hpos
      have hsecond := (hstep m' hm').1 pos' hpos'
      rw [← hsame, hfirst, hsrc] at hsecond
      dsimp only at hsecond
      rw [if_pos rfl, if_neg (Ne.symm hne)] at hsecond
      exact hvalue hsecond
    · rintro ⟨hfit, hcond⟩ src diffDst m
      refine ⟨_, executeBackwardGeneric_of_dims hzero hn hfit, fun m' hstep => ⟨fun pos hpos => ?_, fun _ hpad pos hpadding => ?_⟩⟩
      · refine hstep.of_const (fun idx hidx e he hdst m => ?_) (touches_backwardLoops hn hpos)
        obtain ⟨pos', hpos', rfl⟩ := mem_backwardLoops hn hidx he
        have hsame : desc.diffDataDesc.offV pos' false = desc.diffDataDesc.offV pos false := hdst
        show scalar desc.algKind (diffDst (desc.diffDataDesc.offV pos' false)) (src (desc.dataDesc.offV pos' false)) = _
        rw [hsame]
        rcases hcond with hconsistent | hconst
        · rw [hconsistent pos' hpos' pos hpos hsame]
        · exact hconst _ _ _
      · have hkeep : m' (desc.diffDataDesc.offV pos true) = m (desc.diffDataDesc.offV pos true) := by
          refine hstep.of_ne fun idx hidx e he hdst => ?_
          obtain ⟨pos', hpos', rfl⟩ := mem_backwardLoops hn hidx he
          rw [← hbox] at hpos'
          refine hdiff.offV_ne_of_isPadding hkdiff hpos' hpadding ?_
          rw [← hdiff.wellFormed.offV_eq]
          exact hdst
        rw [hkeep, (hpad pos hpadding).2]

omit [Zero V] in
theorem executeBackwardDense_spec (hsame : desc.diffDataDesc.SameFields desc.dataDesc) (a : ℤ) :
    Assigns (fun a => scalar desc.algKind (diffDst a) (src a)) (executeBackwardDense desc scalar src diffDst) ∧
      (Touches (executeBackwardDense desc scalar src diffDst) a ↔ InDense desc.dataDesc a) := by
  refine ⟨?_, ?_, ?_⟩
  · intro idx _ e he m
    obtain rfl := List.mem_singleton.mp he
    show scalar desc.algKind (diffDst (desc.diffDataDesc.offset0 + _)) (src (desc.dataDesc.offset0 + _)) =
      scalar desc.algKind (diffDst (desc.diffDataDesc.offset0 + _)) (src (desc.diffDataDesc.offset0 + _))
    rw [hsame.offset0]
  · rintro ⟨idx, hidx, e, he, rfl⟩
    obtain ⟨i, hi, rfl⟩ := digits_singleton.mp hidx
    obtain rfl := List.mem_singleton.mp he
    show InDense desc.dataDesc (desc.diffDataDesc.offset0 + (i : ℕ))
    rw [hsame.offset0]
    exact ⟨Int.le_add_of_nonneg_right (Int.natCast_nonneg i), Int.add_lt_add_left (Int.ofNat_lt.mpr hi) _⟩
  · rintro ⟨hlo, hhi⟩
    refine ⟨[(a - desc.dataDesc.offset0).toNat], digits_singleton.mpr ⟨_, by omega, rfl⟩, _, List.mem_singleton_self _, ?_⟩
    show desc.diffDataDesc.offset0 + (([(a - desc.dataDesc.offset0).toNat] : List ℕ).getD 0 0 : ℕ) = a
    rw [List.getD_cons_zero, hsame.offset0]
    omega

theorem backwardMeets_dense_iff [Nontrivial V] (hwf : desc.dataDesc.WellFormed)
    (hsame : desc.diffDataDesc.SameFields desc.dataDesc) :
    BackwardMeets scalar desc .dense ↔ BackwardCondition scalar desc .dense := by
  have hspec : ∀ src diffDst : ℤ → V, Assigns (fun a => scalar desc.algKind (diffDst a) (src a))
      (executeBackwardDense desc scalar src diffDst) := fun src diffDst => (executeBackwardDense_spec hsame 0).1
  have htouches : ∀ (src diffDst : ℤ → V) (a : ℤ),
      Touches (executeBackwardDense desc scalar src diffDst) a ↔ InDense desc.dataDesc a :=
    fun src diffDst a => (executeBackwardDense_spec hsame a).2
  unfold BackwardMeets BackwardCondition
  simp only [hsame.offV_eq hwf, hsame.isPadding_iff]
  constructor
  · intro hmeets
    constructor
    · intro pos hpos
      by_contra hnot
      obtain ⟨x, hx⟩ := exists_ne (scalar desc.algKind 0 0)
      obtain ⟨ph, hexec, hstep⟩ := hmeets (fun _ => 0) (fun _ => 0) fun _ => x
      obtain rfl := Option.some.inj hexec
      obtain ⟨m', hm'⟩ := Phase.exists_step (executeBackwardDense desc scalar (fun _ => 0) fun _ => 0) fun _ => x
      have hvalue := (hstep m' hm').1 pos hpos
      rw [hwf.offV_eq, ((hspec _ _).step_eq hm' _).2 (mt (htouches _ _ _).mp hnot)] at hvalue
      exact hx hvalue
    · by_contra hnot
      push Not at hnot
      obtain ⟨hzero, pos, hpad, hmem⟩ := hnot
      obtain ⟨ph, hexec, hstep⟩ := hmeets (fun _ => 0) (fun _ => 0) fun _ => 0
      obtain rfl := Option.some.inj hexec
      obtain ⟨m', hm'⟩ := Phase.exists_step (executeBackwardDense desc scalar (fun _ => 0) fun _ => 0) fun _ => 0
      have hvalue := (hstep m' hm').2 (fun _ _ => rfl) (fun _ _ => ⟨rfl, rfl⟩) pos hpad
      rw [((hspec _ _).step_eq hm' _).1 ((htouches _ _ _).mpr hmem)] at hvalue
      exact hzero hvalue
  · rintro ⟨hall, hpadding⟩ src diffDst m
    refine ⟨_, rfl, fun m' hstep => ⟨fun pos hpos => ?_, fun hsrc hdiff pos hpad => ?_⟩⟩
    · rw [hwf.offV_eq]
      exact ((hspec _ _).step_eq hstep _).1 ((htouches _ _ _).mpr (hall pos hpos))
    · obtain ⟨hdd, hm⟩ := hdiff pos hpad
      by_cases hmem : InDense desc.dataDesc (desc.dataDesc.offV pos true)
      · rw [((hspec _ _).step_eq hstep _).1 ((htouches _ _ _).mpr hmem), hdd, hsrc pos hpad]
        exact hpadding.resolve_right fun hout => hout pos hpad hmem
      · rw [((hspec _ _).step_eq hstep _).2 (mt (htouches _ _ _).mp hmem), hm]

/-- The backward pass, for each path. -/
theorem backwardMeets_iff [Nontrivial V] {t : Target} {path : Path} (h : desc.dataDesc.Built)
    (hk : desc.dataDesc.formatKind = .blocked) (hdiff : desc.diffDataDesc.Built)
    (hkdiff : desc.diffDataDesc.formatKind = .blocked) (hndims : desc.diffDataDesc.ndims = desc.ndims)
    (hdims : ∀ d < desc.ndims, desc.diffDataDesc.dims d = desc.dataDesc.dims d) (hinit : bwdInit t desc = .ok path) :
    BackwardMeets scalar desc path ↔ BackwardCondition scalar desc path := by
  obtain ⟨rfl, heq⟩ | ⟨rfl, hn⟩ := bwdInit_cases hinit
  · exact backwardMeets_dense_iff h.wellFormed (MemoryDesc.sameFields_of_isEqual heq (h.ndims_pos hk) hk)
  · exact backwardMeets_generic_iff hdiff hkdiff hndims hdims (hndims ▸ hn)

end BackwardMeets

/-! ## Both passes -/

/-- Descriptors of one shape, as the two functions that initialise the descriptor of the operation get them. -/
structure Accepted (desc : EltwiseDesc) : Prop where
  built : desc.dataDesc.Built
  formatKind : desc.dataDesc.formatKind = .blocked
  diff : desc.isFwd = false → desc.diffDataDesc.Built ∧ desc.diffDataDesc.formatKind = .blocked ∧
    desc.diffDataDesc.ndims = desc.ndims ∧ ∀ d < desc.ndims, desc.diffDataDesc.dims d = desc.dataDesc.dims d

theorem isFwd_of_bwdInit {t : Target} {desc : EltwiseDesc} {path : Path} (h : bwdInit t desc = .ok path) :
    desc.isFwd = false := by
  unfold bwdInit at h
  split_ifs at h with hcond
  simp only [Bool.and_eq_true, Bool.not_eq_true'] at hcond
  exact hcond.1.1.1.1

/-- Whichever path is taken, it computes the function at every element and keeps zero padding exactly under its condition. -/
theorem execute_meets_iff [Zero V] [Nontrivial V] {t : Target} {desc : EltwiseDesc} {path : Path} (h : Accepted desc)
    (fwd : AlgKind → V → V) (bwd : AlgKind → V → V → V) :
    (fwdInit t desc = .ok path → (ForwardMeets fwd desc path ↔ ForwardCondition fwd desc path)) ∧
    (bwdInit t desc = .ok path → (BackwardMeets bwd desc path ↔ BackwardCondition bwd desc path)) := by
  refine ⟨fun hinit => forwardMeets_iff h.built h.formatKind hinit, fun hinit => ?_⟩
  obtain ⟨hdiff, hkdiff, hndims, hdims⟩ := h.diff (isFwd_of_bwdInit hinit)
  exact backwardMeets_iff h.built h.formatKind hdiff hkdiff hndims hdims hinit

/-- The forward pass of a tensor of a format tag. -/
theorem accepted_of_tag {ndims : ℕ} {dims : ℕ → ℤ} {dt : DataType} {tag : FormatTag} {md : MemoryDesc}
    (h : memoryDescInitByTag ndims dims dt tag = .ok md) (hk : md.formatKind = .blocked) (alg : AlgKind) :
    Accepted ⟨true, alg, md, zeroMd⟩ where
  built := .whole (Or.inl ⟨ndims, dims, dt, tag, h, hk⟩)
  formatKind := hk
  diff := fun hfwd => Bool.noConfusion hfwd

/-- Twelve channels in a block of 16, for a linear function. -/
theorem execute_meets_iff_aBcd16b : ∃ (t : Target) (desc : EltwiseDesc), Accepted desc ∧
    fwdInit t desc = .ok .nCspBcPadded ∧ ForwardMeets (fun _ x => x + 1 : AlgKind → ℤ → ℤ) desc .nCspBcPadded := by
  obtain ⟨md, hmd, hk, hinit, hcond⟩ : ∃ md,
      memoryDescInitByTag 4 (fun d => if d = 1 then 12 else 1) .f32 .aBcd16b = .ok md ∧ md.formatKind = .blocked ∧
      fwdInit ⟨.f32, false, true⟩ ⟨true, .linear, md, zeroMd⟩ = .ok .nCspBcPadded ∧
      ForwardCondition (fun _ x => x + 1 : AlgKind → ℤ → ℤ) ⟨true, .linear, md, zeroMd⟩ .nCspBcPadded :=
    ⟨_, rfl, rfl, by decide, by decide, by decide⟩
  exact ⟨_, _, accepted_of_tag hmd hk _, hinit,
    ((execute_meets_iff (accepted_of_tag hmd hk _) _ fun _ _ _ => 0).1 hinit).mpr hcond⟩

/-- A tensor of six dimensions, where the path over blocks of channels leaves out the third one. -/
theorem execute_fails_aBcdef16b : ∃ (t : Target) (desc : EltwiseDesc), Accepted desc ∧
    fwdInit t desc = .ok .nCspBcPadded ∧ ¬ ForwardMeets (fun _ x => x + 1 : AlgKind → ℤ → ℤ) desc .nCspBcPadded := by
  obtain ⟨md, hmd, hk, hinit, hcond⟩ : ∃ md,
      memoryDescInitByTag 6 (fun d => if d = 1 then 12 else if d = 2 then 2 else 1) .f32 .aBcdef16b = .ok md ∧
      md.formatKind = .blocked ∧ fwdInit ⟨.f32, false, true⟩ ⟨true, .linear, md, zeroMd⟩ = .ok .nCspBcPadded ∧
      ¬ ∏ d ∈ Finset.Ico 2 (md.ndims - 3), md.dims d = 1 :=
    ⟨_, rfl, rfl, by decide, by decide⟩
  have hacc := accepted_of_tag hmd hk .linear
  refine ⟨_, _, hacc, hinit, fun hmeets => hcond ?_⟩
  exact ((forwardMeets_iff hacc.built hacc.formatKind hinit).mp hmeets).1

end RefEltwise

end MklDnn
