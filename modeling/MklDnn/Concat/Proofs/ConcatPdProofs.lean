import MklDnn.Concat.ConcatPd
import MklDnn.Lib.Checks
import MklDnn.Memory.Proofs.BuiltProofs

/-!
# Proofs: the descriptor of a concatenation

A format fits the sources if every image starts at a block and consists of whole blocks or of a part of one. A plain format
always does.
-/

open MklDnn.DirectCopyExceptDim0 (toInt)

namespace MklDnn.ConcatPd

variable {dstMd md : MemoryDesc} {concatDim : ℕ} {srcMds : List MemoryDesc}

/-! ## Images -/

/-- The extents of the image of `src`. -/
def extent (dstMd : MemoryDesc) (concatDim : ℕ) (src : MemoryDesc) (d : ℕ) : ℕ :=
  if d = concatDim then src.dims concatDim else dstMd.dims d

/-- The position in the destination at which source `i` starts. -/
def start (concatDim : ℕ) (srcMds : List MemoryDesc) (i d : ℕ) : ℕ :=
  if d = concatDim then ((srcMds.take i).map fun src => src.dims concatDim).sum else 0

/-- The image of source `i` in the destination. -/
def imageMd (dstMd : MemoryDesc) (concatDim : ℕ) (srcMds : List MemoryDesc) (i : ℕ) : Except Status MemoryDesc :=
  memoryDescInitSubmemory dstMd (fun d => extent dstMd concatDim (srcMds.getD i zeroMd) d)
    (fun d => start concatDim srcMds i d)

/-- The image of source `i`, from the offset `offset` on. -/
def imageFrom (dstMd : MemoryDesc) (concatDim offset : ℕ) (srcMds : List MemoryDesc) (i : ℕ) : Except Status MemoryDesc :=
  memoryDescInitSubmemory dstMd (fun d => extent dstMd concatDim (srcMds.getD i zeroMd) d)
    (fun d => if d = concatDim then (offset + start concatDim srcMds i d : ℕ) else 0)

theorem imageFrom_zero (i : ℕ) : imageFrom dstMd concatDim 0 srcMds i = imageMd dstMd concatDim srcMds i := by
  unfold imageFrom imageMd start
  refine congrArg _ (funext fun d => ?_)
  split_ifs
  · rw [Nat.zero_add]
  · rfl

/-- The loop over the images describes those of all sources. -/
theorem srcImageMds_eq_ok (hint : ∀ src ∈ srcMds, src.dims concatDim < 2 ^ 31) (offset : ℕ) {images : List MemoryDesc} :
    srcImageMds dstMd concatDim offset srcMds = .ok images ↔
      (List.range srcMds.length).map (imageFrom dstMd concatDim offset srcMds) = images.map .ok := by
  induction srcMds generalizing offset images with
  | nil =>
    cases images with
    | nil => exact iff_of_true rfl rfl
    | cons img images => exact iff_of_false (fun h => by cases h) (fun h => by cases h)
  | cons src srcMds ih =>
    have hdim : toInt (src.dims concatDim) = src.dims concatDim := by
      have hlt := hint src List.mem_cons_self
      unfold toInt
      omega
    have hhead : memoryDescInitSubmemory dstMd (Function.update (fun d => (dstMd.dims d : ℤ)) concatDim (src.dims concatDim))
        (Function.update (fun _ => 0) concatDim (offset : ℤ)) = imageFrom dstMd concatDim offset (src :: srcMds) 0 := by
      unfold imageFrom extent start
      refine congrArg₂ _ (funext fun d => ?_) (funext fun d => ?_) <;> by_cases hd : d = concatDim
      · rw [hd, Function.update_self, if_pos rfl]
        rfl
      · rw [Function.update_of_ne hd, if_neg hd]
      · rw [hd, Function.update_self, if_pos rfl, if_pos rfl]
        rfl
      · rw [Function.update_of_ne hd, if_neg hd]
    have htail : ∀ i, imageFrom dstMd concatDim (offset + src.dims concatDim) srcMds i =
        imageFrom dstMd concatDim offset (src :: srcMds) (i + 1) := by
      intro i
      unfold imageFrom extent start
      refine congrArg _ (funext fun d => ?_)
      by_cases hd : d = concatDim
      · rw [if_pos hd, if_pos hd, if_pos hd, if_pos hd, List.take_succ_cons, List.map_cons, List.sum_cons, Nat.add_assoc]
      · rw [if_neg hd, if_neg hd]
    have hrest := @ih (fun x hx => hint x (List.mem_cons_of_mem src hx)) (offset + src.dims concatDim)
    rw [Nat.cast_add, List.map_congr_left fun i _ => htail i] at hrest
    unfold srcImageMds
    dsimp only
    rw [hdim, hhead, List.length_cons, List.range_succ_eq_map, List.map_cons, List.map_map, Checks.bind_eq_ok]
    constructor
    · rintro ⟨img, himg, hbind⟩
      obtain ⟨rest, hloop, himages⟩ := Checks.bind_eq_ok.mp hbind
      obtain rfl : img :: rest = images := Except.ok.inj himages
      rw [himg, List.map_cons, ← hrest.mp hloop]
      rfl
    · intro hmap
      cases images with
      | nil => cases hmap
      | cons img images =>
        rw [List.map_cons] at hmap
        obtain ⟨himg, hmap⟩ := List.cons.inj hmap
        exact ⟨img, himg, Checks.bind_eq_ok.mpr ⟨images, hrest.mpr hmap, rfl⟩⟩

/-- A list of computations that all succeed. -/
theorem exists_map_ok {α : Type} {f : ℕ → Except Status α} {l : List ℕ} :
    (∃ r : List α, l.map f = r.map .ok) ↔ ∀ i ∈ l, ∃ a, f i = .ok a := by
  induction l with
  | nil => exact iff_of_true ⟨[], rfl⟩ fun i hi => absurd hi List.not_mem_nil
  | cons i l ih =>
    rw [List.forall_mem_cons, ← ih]
    constructor
    · rintro ⟨r, hr⟩
      cases r with
      | nil => cases hr
      | cons a r =>
        obtain ⟨ha, hr⟩ := List.cons.inj hr
        exact ⟨⟨a, ha⟩, r, hr⟩
    · rintro ⟨⟨a, ha⟩, r, hr⟩
      exact ⟨a :: r, by rw [List.map_cons, List.map_cons, ha, hr]⟩

/-! ## Formats -/

/-- The sources start at blocks of the format, and consist of whole blocks or of a part of one. -/
def Fits (inner : List InnerBlk) (dstMd : MemoryDesc) (concatDim : ℕ) (srcMds : List MemoryDesc) : Prop :=
  ∀ i < srcMds.length, ∀ d < dstMd.ndims,
    start concatDim srcMds i d % innerBlocks inner d = 0 ∧
      (extent dstMd concatDim (srcMds.getD i zeroMd) d % innerBlocks inner d = 0 ∨
        extent dstMd concatDim (srcMds.getD i zeroMd) d < innerBlocks inner d)

/-- The destination `dstMd` with a format. -/
structure Formatted (dstMd md : MemoryDesc) : Prop where
  ndims : md.ndims = dstMd.ndims
  dims : ∀ d < dstMd.ndims, md.dims d = dstMd.dims d
  dataType : md.dataType = dstMd.dataType
  formatKind : md.formatKind = .blocked
  paddedOffsets : ∀ d < dstMd.ndims, md.paddedOffsets d = 0

theorem formatted_blockingDesc (dstMd : MemoryDesc) (blk : BlockingDesc) :
    Formatted dstMd (memoryDescInitByBlockingDesc dstMd blk) where
  ndims := rfl
  dims := fun _ _ => rfl
  dataType := rfl
  formatKind := rfl
  paddedOffsets := fun _ hd => if_pos hd

/-- When a part of a destination with a format is described. -/
theorem Formatted.submemory_iff (h : Formatted dstMd md)
    (hsane : memoryDescSanityCheck dstMd.ndims (fun d => dstMd.dims d) dstMd.dataType .any = true) {dims offsets : ℕ → ℕ}
    (hle : ∀ d < dstMd.ndims, offsets d + dims d ≤ dstMd.dims d) :
    (∃ sub, memoryDescInitSubmemory md (fun d => dims d) (fun d => offsets d) = .ok sub) ↔
      ∀ d < dstMd.ndims, offsets d % innerBlocks md.blocking.inner d = 0 ∧
        (dims d % innerBlocks md.blocking.inner d = 0 ∨ dims d < innerBlocks md.blocking.inner d) := by
  have hsane' : memoryDescSanityCheck md.ndims (fun d => md.dims d) md.dataType .any = true := by
    rw [h.ndims, h.dataType]
    unfold memoryDescSanityCheck at hsane ⊢
    simp only [Int.natCast_nonneg] at hsane ⊢
    exact hsane
  have hinside : ¬ ∃ d < md.ndims, (dims d : ℤ) < 0 ∨ (offsets d : ℤ) < 0 ∨ (offsets d : ℤ) + dims d > md.dims d := by
    rintro ⟨d, hd, hout⟩
    rw [h.ndims] at hd
    have hdim := h.dims d hd
    have hle' := hle d hd
    omega
  have hblocks : md.computeBlocks = innerBlocks md.blocking.inner := by
    simp [MemoryDesc.computeBlocks, MemoryDesc.isBlockingDesc, h.formatKind]
  unfold memoryDescInitSubmemory
  dsimp only
  rw [hsane', Bool.not_true, if_neg Bool.false_ne_true, if_neg hinside, if_neg (not_not.mpr h.formatKind), hblocks, h.ndims]
  have hcheck : (∃ d < dstMd.ndims, ¬ ((offsets d : ℤ) % (innerBlocks md.blocking.inner d : ℕ) = 0 ∧
      md.paddedOffsets d = 0 ∧ ((dims d : ℤ) % (innerBlocks md.blocking.inner d : ℕ) = 0 ∨
        (dims d : ℤ) < (innerBlocks md.blocking.inner d : ℕ)))) ↔
      ¬ ∀ d < dstMd.ndims, offsets d % innerBlocks md.blocking.inner d = 0 ∧
        (dims d % innerBlocks md.blocking.inner d = 0 ∨ dims d < innerBlocks md.blocking.inner d) := by
    rw [← not_iff_not, not_not]
    simp only [not_exists, not_and]
    refine forall₂_congr fun d hd => ?_
    rw [h.paddedOffsets d hd]
    norm_cast
    tauto
  by_cases hfits : ∀ d < dstMd.ndims, offsets d % innerBlocks md.blocking.inner d = 0 ∧
      (dims d % innerBlocks md.blocking.inner d = 0 ∨ dims d < innerBlocks md.blocking.inner d)
  · rw [if_neg (mt hcheck.mp (not_not.mpr hfits))]
    exact iff_of_true ⟨_, rfl⟩ hfits
  · rw [if_pos (hcheck.mpr hfits)]
    refine iff_of_false ?_ hfits
    rintro ⟨sub, hsub⟩
    cases hsub

/-- What is promised of the arguments of a concatenation. -/
structure Consistent (dstMd : MemoryDesc) (concatDim : ℕ) (srcMds : List MemoryDesc) : Prop where
  concatDim_lt : concatDim < dstMd.ndims
  sane : memoryDescSanityCheck dstMd.ndims (fun d => dstMd.dims d) dstMd.dataType .any = true
  dims_lt : dstMd.dims concatDim < 2 ^ 31
  sum : dstMd.dims concatDim = (srcMds.map fun src => src.dims concatDim).sum

section Consistent

variable (h : Consistent dstMd concatDim srcMds)

include h

theorem Consistent.src_lt {src : MemoryDesc} (hsrc : src ∈ srcMds) : src.dims concatDim < 2 ^ 31 := by
  have hle : src.dims concatDim ≤ (srcMds.map fun src => src.dims concatDim).sum :=
    List.single_le_sum (fun _ _ => Nat.zero_le _) _ (List.mem_map_of_mem hsrc)
  have hlt := h.dims_lt
  rw [h.sum] at hlt
  exact hle.trans_lt hlt

/-- An image ends inside the destination. -/
theorem Consistent.start_add_le {i : ℕ} (hi : i < srcMds.length) (d : ℕ) :
    start concatDim srcMds i d + extent dstMd concatDim (srcMds.getD i zeroMd) d ≤ dstMd.dims d := by
  unfold start extent
  split_ifs with hd
  · subst hd
    have hsplit : srcMds = srcMds.take i ++ srcMds[i] :: srcMds.drop (i + 1) := by
      rw [← List.drop_eq_getElem_cons hi, List.take_append_drop]
    have hget : srcMds.getD i zeroMd = srcMds[i] := by
      rw [List.getD_eq_getElem?_getD, List.getElem?_eq_getElem hi, Option.getD_some]
    rw [hget, h.sum]
    conv => rhs; rw [hsplit]
    rw [List.map_append, List.sum_append, List.map_cons, List.sum_cons]
    omega
  · omega

/-- With a format, the images exist if and only if it fits. -/
theorem Consistent.images_iff (hmd : Formatted dstMd md) :
    (∃ images, srcImageMds md concatDim 0 srcMds = .ok images) ↔ Fits md.blocking.inner dstMd concatDim srcMds := by
  have hloop : ∀ images, srcImageMds md concatDim 0 srcMds = .ok images ↔
      (List.range srcMds.length).map (imageFrom md concatDim 0 srcMds) = images.map .ok :=
    fun images => srcImageMds_eq_ok (fun src hsrc => h.src_lt hsrc) 0
  simp only [hloop, exists_map_ok, imageFrom_zero, List.mem_range]
  refine forall₂_congr fun i hi => ?_
  have hextent : ∀ d < dstMd.ndims, extent md concatDim (srcMds.getD i zeroMd) d =
      extent dstMd concatDim (srcMds.getD i zeroMd) d := by
    intro d hd
    unfold extent
    rw [hmd.dims d hd]
  refine (hmd.submemory_iff h.sane fun d hd => ?_).trans (forall₂_congr fun d hd => ?_)
  · rw [hextent d hd]
    exact h.start_add_le hi d
  · rw [hextent d hd]

omit h in
/-- A plain format fits all sources. -/
theorem fits_nil : Fits [] dstMd concatDim srcMds := by
  intro i _ d _
  rw [innerBlocks_nil]
  exact ⟨Nat.mod_one _, Or.inl (Nat.mod_one _)⟩

theorem Consistent.formatted_strides : ∃ md, memoryDescInitByStrides dstMd.ndims (fun d => dstMd.dims d) dstMd.dataType
    none = .ok md ∧ Formatted dstMd md ∧ md.blocking.inner = [] := by
  have hndims : dstMd.ndims ≠ 0 := by have := h.concatDim_lt; omega
  unfold memoryDescInitByStrides
  rw [if_neg hndims, if_pos h.sane]
  refine ⟨_, rfl, ⟨rfl, fun d hd => ?_, rfl, rfl, fun d hd => rfl⟩, rfl⟩
  show (if d < dstMd.ndims then ((dstMd.dims d : ℕ) : ℤ).toNat else 0) = _
  rw [if_pos hd, Int.toNat_natCast]

end Consistent

/-! ## The destination -/

/-- The sum of the extents is an `int`. -/
theorem foldlM_lt {check : ℤ → MemoryDesc → Except Status ℤ} (hcheck : ∀ sz src z, check sz src = .ok z → z < 2 ^ 31)
    {sz z : ℤ} (hsz : sz < 2 ^ 31) (h : srcMds.foldlM check sz = .ok z) : z < 2 ^ 31 := by
  induction srcMds generalizing sz with
  | nil =>
    obtain rfl := Except.ok.inj h
    exact hsz
  | cons src srcMds ih =>
    rw [List.foldlM_cons] at h
    obtain ⟨z', hz', hrest⟩ := Checks.bind_eq_ok.mp h
    exact ih (hcheck sz src z' hz') hrest

theorem toInt_lt (z : ℤ) : toInt z < 2 ^ 31 := by
  unfold toInt
  omega

theorem sanityCheck_of_le {ndims : ℕ} {dims : ℕ → ℕ} {dt : DataType} (hndims : ndims ≤ maxNdims) (hdt : dt ≠ .undef) :
    memoryDescSanityCheck ndims (fun d => dims d) dt .any = true := by
  unfold memoryDescSanityCheck
  rw [decide_eq_true_eq, or_iff_not_imp_left]
  intro hne
  exact ⟨Nat.pos_of_ne_zero hne, hndims, hdt, by decide, fun d _ => Int.natCast_nonneg _⟩

/-- A descriptor without a format. -/
theorem memoryDescInitByTag_any {ndims : ℕ} {dims : ℕ → ℤ} {dt : DataType}
    (h : memoryDescInitByTag ndims dims dt .any = .ok md) (hpos : 0 < md.ndims) :
    md.formatKind = .any ∧ md.ndims ≤ maxNdims ∧ md.dataType ≠ .undef := by
  unfold memoryDescInitByTag at h
  by_cases hne : ndims = 0
  · rw [if_pos (Or.inl hne)] at h
    obtain rfl := Except.ok.inj h
    exact absurd hpos (Nat.lt_irrefl 0)
  · have hzero : ¬ (ndims = 0 ∨ FormatTag.any = FormatTag.undef) := by simp [hne]
    rw [if_neg hzero] at h
    split_ifs at h with hsane hany
    · obtain rfl := Except.ok.inj h
      simp only [memoryDescSanityCheck, decide_eq_true_eq, hne, false_or] at hsane
      exact ⟨rfl, hsane.2.1, hsane.2.2.1⟩
    · exact absurd rfl hany

/-- The destination that the implementations get meets what is promised, if its extent is the sum of those of the sources. -/
theorem createDstMd_consistent {dst : Option MemoryDesc} (hcreate : createDstMd dst concatDim srcMds = .ok dstMd)
    (hdst : ∀ md ∈ dst, ∃ ndims dims dt, memoryDescInitByTag ndims dims dt .any = .ok md)
    (hsrc : ∀ src ∈ srcMds, src.Built ∧ src.formatKind = .blocked) (hconcat : concatDim < dstMd.ndims)
    (hsum : dstMd.dims concatDim = (srcMds.map fun src => src.dims concatDim).sum) :
    Consistent dstMd concatDim srcMds ∧ dstMd.formatKind = .any := by
  cases srcMds with
  | nil => cases hcreate
  | cons src0 srcMds =>
    obtain ⟨concatDimSz, hfold, hcreate⟩ := Checks.bind_eq_ok.mp hcreate
    have hlt : concatDimSz < 2 ^ 31 := by
      refine foldlM_lt (fun sz src z hz => ?_) (toInt_lt _) hfold
      split_ifs at hz
      obtain rfl := Except.ok.inj hz
      exact toInt_lt _
    cases dst with
    | some dst =>
      dsimp only at hcreate
      split_ifs at hcreate with hndims hdims
      obtain rfl := Except.ok.inj hcreate
      obtain ⟨ndims, dims, dt, htag⟩ := hdst dst rfl
      obtain ⟨hany, hle, hdt⟩ := memoryDescInitByTag_any htag (by omega)
      refine ⟨⟨hconcat, sanityCheck_of_le hle hdt, ?_, hsum⟩, hany⟩
      have hdim : ¬ (dst.dims concatDim : ℤ) ≠ if concatDim = concatDim then concatDimSz else src0.dims concatDim :=
        fun hne => hdims ⟨concatDim, by omega, hne⟩
      rw [if_pos rfl] at hdim
      omega
    | none =>
      dsimp only at hcreate
      split_ifs at hcreate with hneg
      obtain rfl := Except.ok.inj hcreate
      obtain ⟨hbuilt, hk⟩ := hsrc src0 List.mem_cons_self
      obtain ⟨hle, hdt⟩ := hbuilt.sane hk
      refine ⟨⟨hconcat, sanityCheck_of_le hle hdt, ?_, hsum⟩, rfl⟩
      show (Function.update src0.dims concatDim concatDimSz.toNat concatDim : ℕ) < 2 ^ 31
      rw [Function.update_self]
      omega

/-! ## The choice of a format -/

theorem isPlain_iff (hk : md.formatKind = .blocked) : md.isPlain = true ↔ md.blocking.inner = [] := by
  unfold MemoryDesc.isPlain MemoryDesc.isBlockingDesc BlockingDesc.innerNblks
  simp [hk]

/-- The format that is taken where none with blocks is. -/
theorem Consistent.withoutBlocks_eq (h : Consistent dstMd concatDim srcMds) (hsrc : ∀ src ∈ srcMds, src.formatKind = .blocked)
    {base : MemoryDesc} (hndims : base.ndims = dstMd.ndims) (hdims : base.dims = dstMd.dims)
    (hdt : base.dataType = dstMd.dataType) :
    ∃ md, (if srcMds.any fun src => src.isBlockingDesc && src.isPlain then
        .ok (memoryDescInitByBlockingDesc base (srcMds.headD zeroMd).blocking)
      else memoryDescInitByStrides base.ndims (fun d => base.dims d) base.dataType none : Except Status MemoryDesc) = .ok md ∧
      Formatted dstMd md ∧ (Fits md.blocking.inner dstMd concatDim srcMds ↔
        (∀ src ∈ srcMds, src.isPlain = false) ∨ Fits (srcMds.headD zeroMd).blocking.inner dstMd concatDim srcMds) := by
  split_ifs with hplain
  · obtain ⟨src, hmem, hplain⟩ := List.any_eq_true.mp hplain
    rw [Bool.and_eq_true] at hplain
    refine ⟨_, rfl, ⟨hndims, fun d _ => congrFun hdims d, hdt, rfl, fun d hd => ?_⟩, ?_⟩
    · rw [← hndims] at hd
      exact if_pos hd
    · rw [or_iff_right fun hall => Bool.false_ne_true ((hall src hmem).symm.trans hplain.2)]
      exact Iff.rfl
  · obtain ⟨md, hmd, hformatted, hinner⟩ := h.formatted_strides
    rw [hndims, hdims, hdt]
    refine ⟨md, hmd, hformatted, iff_of_true (hinner ▸ fits_nil) (Or.inl fun src hmem => ?_)⟩
    by_contra hsrcPlain
    refine hplain (List.any_eq_true.mpr ⟨src, hmem, ?_⟩)
    rw [Bool.not_eq_false] at hsrcPlain
    rw [hsrcPlain, Bool.and_true]
    exact decide_eq_true (hsrc src hmem)

/-- The chosen format. Where the format of a source that is not plain does not fit, the format of the first source is taken if
some source is plain. -/
theorem Consistent.setDefaultParams_eq (h : Consistent dstMd concatDim srcMds) (hany : dstMd.formatKind = .any)
    (hsrc : ∀ src ∈ srcMds, src.formatKind = .blocked) :
    ∃ md, setDefaultParams dstMd concatDim srcMds = .ok md ∧ Formatted dstMd md ∧
      (Fits md.blocking.inner dstMd concatDim srcMds ↔
        (∀ src ∈ srcMds, src.isPlain = false) ∨ Fits (srcMds.headD zeroMd).blocking.inner dstMd concatDim srcMds) := by
  unfold setDefaultParams
  dsimp only
  rw [if_neg (not_not.mpr hany)]
  cases hfind : srcMds.find? fun src => src.isBlockingDesc && !src.isPlain with
  | none => exact h.withoutBlocks_eq hsrc rfl rfl rfl
  | some src =>
    have hblocked := h.images_iff (formatted_blockingDesc dstMd src.blocking)
    dsimp only
    cases himages : srcImageMds (memoryDescInitByBlockingDesc dstMd src.blocking) concatDim 0 srcMds with
    | error e => exact h.withoutBlocks_eq hsrc rfl rfl rfl
    | ok images =>
      have hfits : Fits src.blocking.inner dstMd concatDim srcMds := hblocked.mp ⟨images, himages⟩
      refine ⟨_, rfl, formatted_blockingDesc dstMd src.blocking, iff_of_true hfits (Or.inr ?_)⟩
      -- the first source is plain, or it is the one whose format is taken
      cases srcMds with
      | nil => cases hfind
      | cons src0 srcMds =>
        show Fits src0.blocking.inner _ _ _
        by_cases hplain : src0.isPlain = true
        · rw [(isPlain_iff (hsrc src0 List.mem_cons_self)).mp hplain]
          exact fits_nil
        · have hpick : (src0.isBlockingDesc && !src0.isPlain) = true := by
            rw [Bool.and_eq_true, Bool.not_eq_true']
            exact ⟨decide_eq_true (hsrc src0 List.mem_cons_self), Bool.eq_false_of_not_eq_true hplain⟩
          rw [List.find?_cons, hpick] at hfind
          obtain rfl := Option.some.inj hfind
          exact hfits

/-- For a destination without a format, `init` describes the image of every source in a destination that it chooses if and
only if no source is plain or the format of the first source fits, as it does if the first source is plain. -/
theorem init_images_iff {dst : Option MemoryDesc} (hcreate : createDstMd dst concatDim srcMds = .ok dstMd)
    (hdst : ∀ md ∈ dst, ∃ ndims dims dt, memoryDescInitByTag ndims dims dt .any = .ok md)
    (hsrc : ∀ src ∈ srcMds, src.Built ∧ src.formatKind = .blocked ∧ src.isAdditionalBuffer = false)
    (hconcat : concatDim < dstMd.ndims)
    (hsum : dstMd.dims concatDim = (srcMds.map fun src => src.dims concatDim).sum) :
    (∃ md images, init true dstMd concatDim srcMds = .ok (md, images) ∧
        (List.range srcMds.length).map (imageMd md concatDim srcMds) = images.map .ok) ↔
      (∀ src ∈ srcMds, src.isPlain = false) ∨ Fits (srcMds.headD zeroMd).blocking.inner dstMd concatDim srcMds := by
  obtain ⟨h, hany⟩ := createDstMd_consistent hcreate hdst (fun src hmem => ⟨(hsrc src hmem).1, (hsrc src hmem).2.1⟩)
    hconcat hsum
  obtain ⟨md, hmd, hformatted, hfits⟩ := h.setDefaultParams_eq hany fun src hmem => (hsrc src hmem).2.1
  rw [← hfits, ← h.images_iff hformatted]
  have hsources : ¬ ∃ src ∈ srcMds, ¬ src.isBlockingDesc = true ∨ src.isAdditionalBuffer = true := by
    rintro ⟨src, hmem, hblocked | hbuffer⟩
    · exact hblocked (decide_eq_true (hsrc src hmem).2.1)
    · exact Bool.false_ne_true ((hsrc src hmem).2.2.symm.trans hbuffer)
  have hinit : init true dstMd concatDim srcMds = (srcImageMds md concatDim 0 srcMds >>= fun images => .ok (md, images)) := by
    unfold init
    rw [hmd]
    dsimp only
    rw [Bool.not_true, if_neg Bool.false_ne_true, if_neg hsources]
    rfl
  rw [hinit]
  constructor
  · rintro ⟨_, images, hbind, -⟩
    obtain ⟨images', himages, -⟩ := Checks.bind_eq_ok.mp hbind
    exact ⟨images', himages⟩
  · rintro ⟨images, himages⟩
    refine ⟨md, images, Checks.bind_eq_ok.mpr ⟨images, himages, rfl⟩, ?_⟩
    have hloop := (srcImageMds_eq_ok (fun src hmem => h.src_lt hmem) 0).mp himages
    rw [← hloop]
    exact List.map_congr_left fun i _ => (imageFrom_zero i).symm

/-- A plain tensor in front of a blocked one. -/
theorem init_images_iff_nchw : ∃ src0 src1 dstMd,
    memoryDescInitByTag 4 (fun d => [1, 8, 3, 3].getD d 0) .f32 .abcd = .ok src0 ∧
    memoryDescInitByTag 4 (fun d => [1, 8, 3, 3].getD d 0) .f32 .aBcd16b = .ok src1 ∧
    createDstMd none 1 [src0, src1] = .ok dstMd ∧
    ((∃ md images, init true dstMd 1 [src0, src1] = .ok (md, images) ∧
        (List.range 2).map (imageMd md 1 [src0, src1]) = images.map .ok) ↔
      (∀ src ∈ [src0, src1], src.isPlain = false) ∨ Fits src0.blocking.inner dstMd 1 [src0, src1]) := by
  have hall : (memoryDescInitByTag 4 (fun d => [1, 8, 3, 3].getD d 0) .f32 .abcd).toOption.any (fun src0 =>
      (memoryDescInitByTag 4 (fun d => [1, 8, 3, 3].getD d 0) .f32 .aBcd16b).toOption.any fun src1 =>
        decide (src0.formatKind = .blocked) && decide (src1.formatKind = .blocked) && !src0.isAdditionalBuffer &&
          !src1.isAdditionalBuffer && (createDstMd none 1 [src0, src1]).toOption.any fun dstMd =>
            decide (1 < dstMd.ndims) && decide (dstMd.dims 1 = src0.dims 1 + (src1.dims 1 + 0))) = true := by
    decide +kernel
  obtain ⟨src0, hsrc0, hrest⟩ := Checks.exists_ok_of_any hall
  obtain ⟨src1, hsrc1, hrest⟩ := Checks.exists_ok_of_any hrest
  rw [Bool.and_eq_true] at hrest
  obtain ⟨dstMd, hcreate, hdims⟩ := Checks.exists_ok_of_any hrest.2
  simp only [Bool.and_eq_true, decide_eq_true_eq, Bool.not_eq_true'] at hrest hdims
  obtain ⟨⟨⟨hk0, hk1⟩, hbuffer0⟩, hbuffer1⟩ := hrest.1
  refine ⟨src0, src1, dstMd, hsrc0, hsrc1, hcreate, init_images_iff hcreate (fun md hmd => by cases hmd) ?_ hdims.1 hdims.2⟩
  intro src hmem
  rcases List.mem_cons.mp hmem with rfl | hmem
  · exact ⟨.whole (Or.inl ⟨_, _, _, _, hsrc0, hk0⟩), hk0, hbuffer0⟩
  · rw [List.mem_singleton.mp hmem]
    exact ⟨.whole (Or.inl ⟨_, _, _, _, hsrc1, hk1⟩), hk1, hbuffer1⟩

/-- A blocked tensor in front of a plain one: the plain format would do, but the format that does not fit is taken again. -/
theorem init_nChw16c_fails : ∃ src0 src1 dstMd plainMd,
    memoryDescInitByTag 4 (fun d => [1, 8, 3, 3].getD d 0) .f32 .aBcd16b = .ok src0 ∧
    memoryDescInitByTag 4 (fun d => [1, 8, 3, 3].getD d 0) .f32 .abcd = .ok src1 ∧
    createDstMd none 1 [src0, src1] = .ok dstMd ∧
    memoryDescInitByTag 4 (fun d => [1, 16, 3, 3].getD d 0) .f32 .abcd = .ok plainMd ∧
    (∃ images, srcImageMds plainMd 1 0 [src0, src1] = .ok images) ∧
    ¬ ∃ md images, init true dstMd 1 [src0, src1] = .ok (md, images) := by
  have hall : (memoryDescInitByTag 4 (fun d => [1, 8, 3, 3].getD d 0) .f32 .aBcd16b).toOption.any (fun src0 =>
      (memoryDescInitByTag 4 (fun d => [1, 8, 3, 3].getD d 0) .f32 .abcd).toOption.any fun src1 =>
        (createDstMd none 1 [src0, src1]).toOption.any fun dstMd =>
          (memoryDescInitByTag 4 (fun d => [1, 16, 3, 3].getD d 0) .f32 .abcd).toOption.any fun plainMd =>
            (init true dstMd 1 [src0, src1]).toOption.isNone &&
              (srcImageMds plainMd 1 0 [src0, src1]).toOption.any fun _ => true) = true := by
    decide +kernel
  obtain ⟨src0, hsrc0, hrest⟩ := Checks.exists_ok_of_any hall
  obtain ⟨src1, hsrc1, hrest⟩ := Checks.exists_ok_of_any hrest
  obtain ⟨dstMd, hcreate, hrest⟩ := Checks.exists_ok_of_any hrest
  obtain ⟨plainMd, hplain, hrest⟩ := Checks.exists_ok_of_any hrest
  rw [Bool.and_eq_true] at hrest
  obtain ⟨images, himages, -⟩ := Checks.exists_ok_of_any hrest.2
  refine ⟨src0, src1, dstMd, plainMd, hsrc0, hsrc1, hcreate, hplain, ⟨images, himages⟩, ?_⟩
  rintro ⟨md, images, hinit⟩
  have hfails := hrest.1
  rw [hinit] at hfails
  cases hfails

end MklDnn.ConcatPd
