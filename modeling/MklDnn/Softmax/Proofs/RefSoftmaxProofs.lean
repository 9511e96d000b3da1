import Mathlib.Algebra.Order.Ring.Rat
import MklDnn.Lib.Tilings
import MklDnn.Memory.Proofs.BuiltProofs
import MklDnn.Softmax.Proofs.RowsProofs

/-!
# Proofs: the dense and the generic path of the reference softmax

Both paths do the same to a row. They do the same to a tensor exactly if the rows that the dense path walks to, a stride of the
neighbouring dimension apart, are the rows of the tensor.
-/

open LoopNest Offsets

namespace MklDnn

/-! ## Blocks and strides -/

theorem DenseStrides.le_strides {m : ℕ → ℕ} {strides : ℕ → ℤ} {s : ℕ} {perm : List ℕ} (h : DenseStrides m strides s perm)
    (hm : ∀ d ∈ perm, 0 < m d) : ∀ d ∈ perm, (s : ℤ) ≤ strides d := by
  induction perm with
  | nil => simp
  | cons e perm ih =>
    obtain ⟨he, hperm⟩ := h
    have htail : ∀ d ∈ perm, 0 < m d := fun d hd => hm d (List.mem_cons_of_mem e hd)
    intro d hd
    rcases List.mem_cons.mp hd with rfl | hd
    · have hprod : 0 < (perm.map m).prod := List.prod_pos fun x hx => by
        obtain ⟨d', hd', rfl⟩ := List.mem_map.mp hx
        exact htail d' hd'
      rw [he]
      exact_mod_cast Nat.le_mul_of_pos_right s hprod
    · exact ih hperm htail d hd

/-- The outer blocks of a dimension do not overlap. -/
theorem MemoryDesc.Built.blockSize_le_strides {md : MemoryDesc} (h : md.Built) (hk : md.formatKind = .blocked)
    (hpos : ∀ d < md.ndims, 0 < md.dims d) {d : ℕ} (hd : d < md.ndims) :
    md.blocking.inner = [] ∨ (blockSize md.blocking.inner : ℤ) ≤ md.blocking.strides d := by
  induction h with
  | whole h =>
    rcases h with ⟨_, _, _, _, h, hk⟩ | ⟨_, _, _, _, h⟩
    · obtain ⟨args, -, hlayout⟩ := memoryDescInitByTag_tagLayout h hk
      have hdense := hlayout.dense hpos
      exact Or.inr (hdense.strides.le_strides (fun e he => hdense.outerBlocks_pos (hdense.mem_perm.mp he)) d
        (hdense.mem_perm.mpr hd))
    · unfold memoryDescInitByStrides at h
      split_ifs at h with hzero
      · obtain rfl := Except.ok.inj h
        cases hk
      · obtain rfl := Except.ok.inj h
        exact Or.inl rfl
  | part _ h ih =>
    obtain ⟨hparent, hpart, -⟩ := memoryDescInitSubmemory_isPart h
    rw [hpart.blocking]
    refine ih hparent (fun e he => ?_) (hpart.ndims ▸ hd)
    have hsub := hpos e (hpart.ndims ▸ he)
    have hadd := hpart.add_le e he
    omega

/-- Where only one dimension is blocked, its blocks are dense. -/
theorem innerOff_of_single {n : ℕ} {L : List InnerBlk} (hL : ValidInner n L) {d : ℕ} (h : blockSize L = innerBlocks L d)
    (x : ℕ) : innerOff L d x = x % innerBlocks L d := by
  induction L with
  | nil => rw [innerOff, innerBlocks_nil, Nat.mod_one]
  | cons b L ih =>
    have hpos := hL.tail.innerBlocks_pos d
    have hle : innerBlocks L d ≤ blockSize L := by
      rw [← prod_innerBlocks hL.tail]
      by_cases hd : d < n
      · exact Nat.le_of_dvd (Finset.prod_pos fun e _ => hL.tail.innerBlocks_pos e)
          (Finset.dvd_prod_of_mem _ (Finset.mem_range.mpr hd))
      · rw [hL.tail.innerBlocks_eq_one (Nat.le_of_not_lt hd)]
        exact Finset.prod_pos fun e _ => hL.tail.innerBlocks_pos e
    rw [blockSize_cons, innerBlocks_cons] at h
    rw [innerOff, innerBlocks_cons]
    by_cases hidx : b.idx = d
    · rw [if_pos hidx] at h ⊢
      have hsize : blockSize L = innerBlocks L d := Nat.eq_of_mul_eq_mul_left hL.head.2 h
      rw [ih hL.tail hsize, if_pos hidx, hsize, Nat.mul_comm b.blk, Nat.mod_mul, Nat.mul_comm]
    · rw [if_neg hidx, Nat.one_mul] at h
      have hb := hL.head.2
      have hsize : blockSize L = innerBlocks L d := by nlinarith
      rw [ih hL.tail hsize, if_neg hidx, if_neg hidx, Nat.add_zero, Nat.one_mul]

namespace RefSoftmax

/-! ## The rows of a tensor -/

namespace Pd

variable (pd : Pd)

/-- A primitive descriptor of a tensor that was laid out. -/
structure Accepted : Prop where
  built : pd.dataDesc.Built
  formatKind : pd.dataDesc.formatKind = .blocked
  axis_lt : pd.axis < pd.dataDesc.ndims
  distinct : pd.dataDesc.Distinct

/-- The offset of the first element of a row. -/
def rowOff (ou : ℕ) : ℤ := pd.dataDesc.offL (ou * pd.axisSize) false

/-- The rows that the dense path walks to are the rows of the tensor, in some order. -/
def RowsMatch : Prop :=
  ((List.range pd.outerSize).map fun ou : ℕ => ou * pd.outerStride).Perm ((List.range pd.outerSize).map pd.rowOff)

instance : Decidable pd.RowsMatch := inferInstanceAs (Decidable (List.Perm _ _))

theorem axisBlkSize_eq (bd : BlockingDesc) : pd.axisBlkSize bd = innerBlocks bd.inner pd.axis := by
  have hfold : ∀ (L : List InnerBlk) (a : ℕ),
      L.foldl (fun axisBlkSize b => if b.idx = pd.axis then axisBlkSize * b.blk else axisBlkSize) a =
        a * innerBlocks L pd.axis := by
    intro L
    induction L with
    | nil => exact fun a => (Nat.mul_one a).symm
    | cons b L ih =>
      intro a
      rw [List.foldl_cons, ih, innerBlocks_cons]
      split_ifs
      · rw [Nat.mul_assoc]
      · rw [Nat.one_mul]
  exact (hfold bd.inner 1).trans (Nat.one_mul _)

variable {pd}

theorem Accepted.volume_eq (h : pd.Accepted) (hin : pd.innerSize = 1) :
    volume pd.dataDesc.dims pd.dataDesc.ndims = pd.outerSize * pd.axisSize ∧
      ∏ i ∈ Finset.Ico (pd.axis + 1) pd.dataDesc.ndims, pd.dataDesc.dims i = 1 := by
  have hinner : ∏ i ∈ Finset.Ico (pd.axis + 1) pd.dataDesc.ndims, pd.dataDesc.dims i = 1 := by
    have hcount : pd.dataDesc.ndims - (pd.axis + 1) = pd.dataDesc.ndims - 1 - pd.axis := by omega
    rw [Finset.prod_Ico_eq_prod_range, prod_perm (List.Perm.refl _), hcount]
    exact hin
  have houter : volume pd.dataDesc.dims pd.axis = pd.outerSize := prod_perm (List.Perm.refl _) _
  refine ⟨?_, hinner⟩
  rw [volume_eq_mul (Nat.succ_le_of_lt h.axis_lt), hinner, Nat.mul_one, volume_succ, houter, axisSize]

theorem Accepted.nelems_eq (h : pd.Accepted) (hin : pd.innerSize = 1) :
    pd.dataDesc.nelems false = pd.outerSize * pd.axisSize := by
  rw [← (h.volume_eq hin).1, MemoryDesc.nelems, if_neg]
  · rfl
  · have hlt := h.axis_lt
    simp only [MemoryDesc.isZero, decide_eq_true_eq]
    omega

/-- The elements of a row follow one another. -/
theorem Accepted.offL_eq (h : pd.Accepted) (hin : pd.innerSize = 1)
    (hstride : pd.dataDesc.blocking.strides pd.axis = pd.axisBlkSize pd.dataDesc.blocking) {ou c : ℕ}
    (hou : ou < pd.outerSize) (hc : c < pd.axisSize) :
    pd.dataDesc.offL (ou * pd.axisSize + c) false = pd.rowOff ou + c := by
  set md := pd.dataDesc with hmd
  have hwf := h.built.wellFormed
  obtain ⟨hvol, hinner⟩ := h.volume_eq hin
  have hpos : ∀ d < md.ndims, 0 < md.dims d := by
    intro d hd
    refine Nat.pos_of_ne_zero fun hzero => ?_
    rw [volume_eq_zero.mpr ⟨d, hd, hzero⟩] at hvol
    exact absurd hvol (Nat.mul_pos (by omega) (by omega)).ne
  have hrow : ∏ i ∈ Finset.Ico pd.axis md.ndims, md.dims i = pd.axisSize := by
    rw [Finset.prod_eq_prod_Ico_succ_bot h.axis_lt, hinner, Nat.mul_one]
    rfl
  -- a block of the axis is a whole block
  have hblocks : ∀ x, md.dimOff pd.axis x = x := by
    intro x
    have hstride' : md.blocking.strides pd.axis = innerBlocks md.blocking.inner pd.axis := by
      rw [hstride, axisBlkSize_eq]
    have hsize : blockSize md.blocking.inner = innerBlocks md.blocking.inner pd.axis := by
      have hdvd : innerBlocks md.blocking.inner pd.axis ∣ blockSize md.blocking.inner := by
        rw [← prod_innerBlocks hwf.valid]
        exact Finset.dvd_prod_of_mem _ (Finset.mem_range.mpr h.axis_lt)
      rcases h.built.blockSize_le_strides h.formatKind hpos h.axis_lt with hnil | hle
      · rw [hnil]
        rfl
      · rw [hstride'] at hle
        exact Nat.le_antisymm (by exact_mod_cast hle) (Nat.le_of_dvd hwf.valid.blockSize_pos hdvd)
    unfold MemoryDesc.dimOff
    rw [innerOff_of_single hwf.valid hsize, hstride']
    exact_mod_cast Nat.mod_add_div' x _
  have hsum : ∀ c < pd.axisSize, md.offL (ou * pd.axisSize + c) false =
      md.offset0 + ∑ d ∈ Finset.range pd.axis, md.dimOff d (rowMajor md.dims pd.axis ou d) + c := by
    intro c hc
    have hrest : ∀ d ∈ Finset.range md.ndims, d ∉ Finset.range (pd.axis + 1) →
        md.dimOff d (rowMajor md.dims md.ndims (ou * pd.axisSize + c) d) = 0 := by
      intro d hd hnot
      have hlt := Finset.mem_range.mp hd
      have hone : md.dims d = 1 := by
        have hdvd := Finset.dvd_prod_of_mem md.dims (Finset.mem_Ico.mpr ⟨Nat.le_of_not_lt (mt Finset.mem_range.mpr hnot), hlt⟩)
        rw [hinner] at hdvd
        exact Nat.dvd_one.mp hdvd
      have hzero := rowMajor_lt (ou * pd.axisSize + c) hlt (hpos d hlt)
      rw [hone, Nat.lt_one_iff] at hzero
      rw [hzero, MemoryDesc.dimOff, innerOff_zero, Nat.zero_div, Nat.cast_zero, zero_mul, add_zero]
    have hsub : Finset.range (pd.axis + 1) ⊆ Finset.range md.ndims :=
      Finset.range_subset_range.mpr (Nat.succ_le_of_lt h.axis_lt)
    have hlast : rowMajor md.dims md.ndims (ou * pd.axisSize + c) pd.axis = c := by
      have hmul := @rowMajor_mul_add md.dims _ _ _ (Nat.succ_le_of_lt h.axis_lt) (Nat.lt_succ_self pd.axis)
        (ou * pd.axisSize + c) 0 (by rw [hinner]; exact Nat.one_pos)
      rw [hinner, Nat.mul_one, Nat.add_zero] at hmul
      rw [hmul]
      exact (congrFun (rowMajor_succ_mul_add md.dims pd.axis ou hc) pd.axis).trans (Function.update_self ..)
    have hfirst : ∀ d ∈ Finset.range pd.axis,
        md.dimOff d (rowMajor md.dims md.ndims (ou * pd.axisSize + c) d) = md.dimOff d (rowMajor md.dims pd.axis ou d) := by
      intro d hd
      have hmul := @rowMajor_mul_add md.dims _ _ _ h.axis_lt.le (Finset.mem_range.mp hd) ou c (hrow.symm ▸ hc)
      rw [hrow] at hmul
      rw [hmul]
    rw [hwf.offL_eq, ← Finset.sum_subset hsub hrest, Finset.sum_range_succ, hlast, hblocks, Finset.sum_congr rfl hfirst,
      add_assoc]
  have hzero := hsum 0 (by omega)
  rw [Nat.add_zero, Nat.cast_zero, add_zero] at hzero
  rw [hsum c hc, rowOff, ← hmd, hzero]

/-- Different rows have no element in common. -/
theorem Accepted.rowOff_inj (h : pd.Accepted) (hin : pd.innerSize = 1)
    (hstride : pd.dataDesc.blocking.strides pd.axis = pd.axisBlkSize pd.dataDesc.blocking) {ou ou' : ℕ}
    (hou : ou < pd.outerSize) (hou' : ou' < pd.outerSize) {a : ℤ} (ha : a ∈ rowSet (pd.rowOff ou) pd.axisSize)
    (ha' : a ∈ rowSet (pd.rowOff ou') pd.axisSize) : ou = ou' := by
  obtain ⟨c, hc, rfl⟩ := mem_rowSet.mp ha
  obtain ⟨c', hc', heq⟩ := mem_rowSet.mp ha'
  rw [← h.offL_eq hin hstride hou hc, ← h.offL_eq hin hstride hou' hc'] at heq
  have hlt : ∀ {ou c : ℕ}, ou < pd.outerSize → c < pd.axisSize →
      ou * pd.axisSize + c < volume pd.dataDesc.dims pd.dataDesc.ndims := by
    intro ou c hou hc
    rw [(h.volume_eq hin).1]
    nlinarith
  have hplace := h.distinct.offL_inj (hlt hou hc) (hlt hou' hc') heq
  rcases Nat.lt_trichotomy ou ou' with hless | heq | hless
  · nlinarith
  · exact heq
  · nlinarith

end Pd

/-! ## Loops over rows -/

section Runs

variable {R : Type*} {n : ℕ}

/-- A loop over rows, each of which is assigned to. -/
def writeRows (n : ℕ) (v : ℤ → ℕ → R) (bases : List ℤ) (b : Buffer R) : Buffer R :=
  bases.foldl (fun b base => writeRow base n (v base) b) b

theorem foldlM_rows {ι : Type*} {l : List ι} (base : ι → ℤ) (row : ι → Buffer R → Option (Buffer R)) {v : ℤ → ℕ → R}
    {b : Buffer R} (hhas : ∀ i ∈ l, HasRow b (base i) n)
    (hrow : ∀ i ∈ l, ∀ b', HasRow b' (base i) n → row i b' = some (writeRow (base i) n (v (base i)) b')) :
    l.foldlM (fun b i => row i b) b = some (writeRows n v (l.map base) b) := by
  induction l generalizing b with
  | nil => rfl
  | cons i l ih =>
    have hfirst := hhas i List.mem_cons_self
    rw [List.foldlM_cons, bind_of_some (hrow i List.mem_cons_self b hfirst)]
    refine ih (fun j hj c hc => ?_) fun j hj => hrow j (List.mem_cons_of_mem i hj)
    rw [isSome_writeRow hfirst]
    exact hhas j (List.mem_cons_of_mem i hj) c hc

/-- The order of rows without common elements does not matter. -/
theorem writeRows_perm {v : ℤ → ℕ → R} {bases bases' : List ℤ} (hperm : bases.Perm bases')
    (hdisj : ∀ x ∈ bases, ∀ y ∈ bases, x ≠ y → ∀ a ∈ rowSet x n, a ∉ rowSet y n) (b : Buffer R) :
    writeRows n v bases b = writeRows n v bases' b := by
  refine hperm.foldl_eq' (fun x hx y hy b => ?_) b
  by_cases heq : x = y
  · rw [heq]
  · exact writeRow_comm (hdisj y hy x hx (Ne.symm heq)) _ _ b

/-- An element of one of the rows does not keep what was there before. -/
theorem writeRows_eq_of_mem {v : ℤ → ℕ → R} {bases : List ℤ} {a : ℤ} (ha : ∃ base ∈ bases, a ∈ rowSet base n)
    (b b' : Buffer R) : writeRows n v bases b a = writeRows n v bases b' a := by
  have hall : ∀ (l : List ℤ) (b b' : Buffer R), (b a = b' a ∨ ∃ base ∈ l, a ∈ rowSet base n) →
      writeRows n v l b a = writeRows n v l b' a := by
    intro l
    induction l with
    | nil =>
      rintro b b' (heq | ⟨base, hbase, -⟩)
      · exact heq
      · exact absurd hbase List.not_mem_nil
    | cons base l ih =>
      intro b b' h
      refine ih _ _ ?_
      dsimp only
      by_cases hrow : a ∈ rowSet base n
      · obtain ⟨c, hc, rfl⟩ := mem_rowSet.mp hrow
        rw [writeRow_add hc, writeRow_add hc]
        exact Or.inl rfl
      · rw [writeRow_of_notMem hrow, writeRow_of_notMem hrow]
        rcases h with heq | ⟨base', hbase', hmem⟩
        · exact Or.inl heq
        · rcases List.mem_cons.mp hbase' with rfl | hbase'
          · exact absurd hmem hrow
          · exact Or.inr ⟨base', hbase', hmem⟩
  exact hall bases b b' (Or.inr ha)

end Runs

/-! ## The rows of the dense path -/

/-- A buffer with the elements of a tensor. -/
def IsBuffer {R : Type*} (md : MemoryDesc) (b : Buffer R) : Prop :=
  ∀ a, (b a).isSome ↔ ∃ l < md.nelems false, md.offL l false = a

/-- The tensor all elements of which are `x`. -/
def constBuffer {R : Type*} (md : MemoryDesc) (x : R) : Buffer R :=
  fun a => if a ∈ (List.range (md.nelems false)).map fun l => md.offL l false then some x else none

theorem isBuffer_constBuffer {R : Type*} (md : MemoryDesc) (x : R) : IsBuffer md (constBuffer md x) := by
  intro a
  unfold constBuffer
  split_ifs with ha
  · obtain ⟨l, hl, rfl⟩ := List.mem_map.mp ha
    exact iff_of_true rfl ⟨l, List.mem_range.mp hl, rfl⟩
  · refine iff_of_false (by simp) fun ⟨l, hl, heq⟩ => ha (List.mem_map.mpr ⟨l, List.mem_range.mpr hl, heq⟩)

theorem constBuffer_offL {R : Type*} {md : MemoryDesc} {l : ℕ} (hl : l < md.nelems false) (x : R) :
    constBuffer md x (md.offL l false) = some x :=
  if_pos (List.mem_map.mpr ⟨l, List.mem_range.mpr hl, rfl⟩)

variable {R : Type*} {pd : Pd}

/-- The rows of a tensor are in its buffers. -/
theorem Pd.Accepted.hasRow (h : pd.Accepted) (hin : pd.innerSize = 1)
    (hstride : pd.dataDesc.blocking.strides pd.axis = pd.axisBlkSize pd.dataDesc.blocking) {b : Buffer R}
    (hb : IsBuffer pd.dataDesc b) {ou : ℕ} (hou : ou < pd.outerSize) : HasRow b (pd.rowOff ou) pd.axisSize := by
  intro c hc
  rw [hb, h.nelems_eq hin]
  exact ⟨ou * pd.axisSize + c, by nlinarith, h.offL_eq hin hstride hou hc⟩

/-- Rows that together have every element of the tensor are the rows of the tensor: there are not more of them. -/
theorem Pd.Accepted.rowsMatch_of_covers (h : pd.Accepted) (hin : pd.innerSize = 1)
    (hstride : pd.dataDesc.blocking.strides pd.axis = pd.axisBlkSize pd.dataDesc.blocking) (hC : 0 < pd.axisSize)
    (hcov : ∀ l < pd.dataDesc.nelems false,
      ∃ ou < pd.outerSize, pd.dataDesc.offL l false ∈ rowSet (ou * pd.outerStride) pd.axisSize) : pd.RowsMatch := by
  set N := pd.outerSize with hN
  set C := pd.axisSize with hCdef
  have hvol : volume pd.dataDesc.dims pd.dataDesc.ndims = N * C := (h.volume_eq hin).1
  have hdata : ofList (List.range (N * C)) (fun l => pd.dataDesc.offL l false) =
      ofList (List.range N) pd.rowOff * strided C 1 := by
    rw [strided_unit]
    exact ofList_range_mul N C fun ou hou c hc => h.offL_eq hin hstride hou hc
  have hwalk : ofList (List.range (N * C)) (fun l : ℕ => (l / C : ℕ) * pd.outerStride + (l % C : ℕ)) =
      ofList (List.range N) (fun ou : ℕ => ou * pd.outerStride) * strided C 1 := by
    rw [strided_unit]
    refine ofList_range_mul N C fun ou _ c hc => ?_
    rw [Nat.add_comm, Nat.add_mul_div_right _ _ hC, Nat.div_eq_of_lt hc, Nat.zero_add, Nat.add_mul_mod_self_right,
      Nat.mod_eq_of_lt hc]
  have hnodup : ((List.range (N * C)).map fun l => pd.dataDesc.offL l false).Nodup := by
    refine List.Nodup.map_on (fun l hl l' hl' heq => ?_) List.nodup_range
    rw [List.mem_range, ← hvol] at hl hl'
    exact h.distinct.offL_inj hl hl' heq
  have hsub : ((List.range (N * C)).map fun l => pd.dataDesc.offL l false) ⊆
      (List.range (N * C)).map fun l : ℕ => (l / C : ℕ) * pd.outerStride + (l % C : ℕ) := by
    intro a ha
    obtain ⟨l, hl, rfl⟩ := List.mem_map.mp ha
    rw [List.mem_range, ← h.nelems_eq hin] at hl
    obtain ⟨ou, hou, hmem⟩ := hcov l hl
    obtain ⟨c, hc, heq⟩ := mem_rowSet.mp hmem
    refine List.mem_map.mpr ⟨ou * C + c, List.mem_range.mpr (by nlinarith), ?_⟩
    rw [heq, Nat.add_comm, Nat.add_mul_div_right _ _ hC, Nat.div_eq_of_lt hc, Nat.zero_add, Nat.add_mul_mod_self_right,
      Nat.mod_eq_of_lt hc]
  have hperm := (List.subperm_of_subset hnodup hsub).perm_of_length_le (by simp)
  have hcancel : ofList (List.range N) pd.rowOff = ofList (List.range N) fun ou : ℕ => ou * pd.outerStride := by
    have hrow : (strided C (1 : ℤ)).visits ≠ 0 := by
      intro hzero
      have hcard := card_strided C (1 : ℤ)
      rw [hzero, Multiset.card_zero] at hcard
      omega
    refine mul_left_cancel_of_ne hrow ?_
    rw [mul_comm _ (ofList (List.range N) pd.rowOff), mul_comm _ (ofList _ _), ← hdata, ← hwalk]
    exact ofList_eq_iff.mpr hperm
  exact (ofList_eq_iff.mp hcancel).symm

section Passes

variable {v : ℤ → ℕ → R} (dense : ℤ → Buffer R → Option (Buffer R)) (generic : ℕ → Buffer R → Option (Buffer R))

/-- Two passes that do the same to a row. -/
theorem Pd.Accepted.agree_of_rowsMatch (h : pd.Accepted) (hin : pd.innerSize = 1)
    (hstride : pd.dataDesc.blocking.strides pd.axis = pd.axisBlkSize pd.dataDesc.blocking) (hmatch : pd.RowsMatch)
    (hdense : ∀ ou < pd.outerSize, ∀ b, HasRow b (pd.rowOff ou) pd.axisSize →
      dense (pd.rowOff ou) b = some (writeRow (pd.rowOff ou) pd.axisSize (v (pd.rowOff ou)) b))
    (hgeneric : ∀ ou < pd.outerSize, ∀ b, HasRow b (pd.rowOff ou) pd.axisSize →
      generic ou b = some (writeRow (pd.rowOff ou) pd.axisSize (v (pd.rowOff ou)) b))
    {b : Buffer R} (hb : IsBuffer pd.dataDesc b) {order order' : List ℕ} (ho : order.Perm (List.range pd.outerSize))
    (ho' : order'.Perm (List.range pd.outerSize)) :
    ∃ out, order.foldlM (fun b (ou : ℕ) => dense (ou * pd.outerStride) b) b = some out ∧
      order'.foldlM (fun b ou => generic ou b) b = some out := by
  have hlt : ∀ {l : List ℕ}, l.Perm (List.range pd.outerSize) → ∀ ou ∈ l, ou < pd.outerSize :=
    fun hl ou hou => List.mem_range.mp (hl.mem_iff.mp hou)
  -- every row that is walked to is a row of the tensor
  have hwalk : ∀ ou ∈ order, ∃ ou' < pd.outerSize, pd.rowOff ou' = ou * pd.outerStride := by
    intro ou hou
    have hmem := hmatch.mem_iff.mp (List.mem_map.mpr ⟨ou, ho.mem_iff.mp hou, rfl⟩)
    obtain ⟨ou', hou', heq⟩ := List.mem_map.mp hmem
    exact ⟨ou', List.mem_range.mp hou', heq⟩
  have hrun : order.foldlM (fun b (ou : ℕ) => dense (ou * pd.outerStride) b) b =
      some (writeRows pd.axisSize v (order.map fun ou : ℕ => ou * pd.outerStride) b) := by
    refine foldlM_rows (fun ou : ℕ => ou * pd.outerStride) (fun ou b => dense (ou * pd.outerStride) b)
      (fun ou hou => ?_) (fun ou hou b' hb' => ?_)
    · obtain ⟨ou', hou', heq⟩ := hwalk ou hou
      exact heq ▸ h.hasRow hin hstride hb hou'
    · obtain ⟨ou', hou', heq⟩ := hwalk ou hou
      rw [← heq] at hb' ⊢
      exact hdense ou' hou' b' hb'
  have hrun' : order'.foldlM (fun b ou => generic ou b) b = some (writeRows pd.axisSize v (order'.map pd.rowOff) b) :=
    foldlM_rows pd.rowOff generic (fun ou hou => h.hasRow hin hstride hb (hlt ho' ou hou))
      fun ou hou => hgeneric ou (hlt ho' ou hou)
  have hbases : (order.map fun ou : ℕ => ou * pd.outerStride).Perm (order'.map pd.rowOff) :=
    ((ho.map _).trans hmatch).trans (ho'.map _).symm
  refine ⟨_, hrun, ?_⟩
  rw [hrun']
  refine congrArg some (writeRows_perm hbases ?_ b).symm
  intro x hx y hy hne a ha ha'
  obtain ⟨ou, hou, rfl⟩ := List.mem_map.mp hx
  obtain ⟨ou', hou', rfl⟩ := List.mem_map.mp hy
  obtain ⟨i, hi, heq⟩ := hwalk ou hou
  obtain ⟨j, hj, heq'⟩ := hwalk ou' hou'
  rw [← heq] at ha hne
  rw [← heq'] at ha' hne
  exact hne (congrArg pd.rowOff (h.rowOff_inj hin hstride hi hj ha ha'))

/-- Passes that agree on every buffer walk over the same rows: an element that the first one does not get to would stay. -/
theorem Pd.Accepted.rowsMatch_of_agree [Field R] (h : pd.Accepted) (hin : pd.innerSize = 1)
    (hstride : pd.dataDesc.blocking.strides pd.axis = pd.axisBlkSize pd.dataDesc.blocking) (hC : 0 < pd.axisSize)
    (hdense : ∀ base b b', dense base b = some b' → Assigns (rowSet base pd.axisSize) b b')
    (hgeneric : ∀ ou < pd.outerSize, ∀ b, HasRow b (pd.rowOff ou) pd.axisSize →
      generic ou b = some (writeRow (pd.rowOff ou) pd.axisSize (v (pd.rowOff ou)) b))
    (hagree : ∀ b : Buffer R, IsBuffer pd.dataDesc b → ∃ out out',
      (List.range pd.outerSize).foldlM (fun b (ou : ℕ) => dense (ou * pd.outerStride) b) b = some out ∧
      (List.range pd.outerSize).foldlM (fun b ou => generic ou b) b = some out' ∧
      ∀ l < pd.dataDesc.nelems false, out (pd.dataDesc.offL l false) = out' (pd.dataDesc.offL l false)) :
    pd.RowsMatch := by
  have hgen : ∀ b : Buffer R, IsBuffer pd.dataDesc b →
      (List.range pd.outerSize).foldlM (fun b ou => generic ou b) b =
        some (writeRows pd.axisSize v ((List.range pd.outerSize).map pd.rowOff) b) := fun b hb =>
    foldlM_rows pd.rowOff generic (fun ou hou => h.hasRow hin hstride hb (List.mem_range.mp hou))
      fun ou hou => hgeneric ou (List.mem_range.mp hou)
  refine h.rowsMatch_of_covers hin hstride hC fun l hl => ?_
  set a := pd.dataDesc.offL l false with ha
  have hmem : ∃ base ∈ (List.range pd.outerSize).map pd.rowOff, a ∈ rowSet base pd.axisSize := by
    rw [h.nelems_eq hin] at hl
    have hou : l / pd.axisSize < pd.outerSize := Nat.div_lt_of_lt_mul (by rwa [Nat.mul_comm])
    refine ⟨_, List.mem_map.mpr ⟨l / pd.axisSize, List.mem_range.mpr hou, rfl⟩, mem_rowSet.mpr ⟨l % pd.axisSize, Nat.mod_lt l hC, ?_⟩⟩
    rw [ha, ← h.offL_eq hin hstride hou (Nat.mod_lt l hC), Nat.div_add_mod']
  obtain ⟨out₀, out₀', hrun₀, hrun₀', hsame₀⟩ := hagree (constBuffer pd.dataDesc 0) (isBuffer_constBuffer _ _)
  obtain ⟨out₁, out₁', hrun₁, hrun₁', hsame₁⟩ := hagree (constBuffer pd.dataDesc 1) (isBuffer_constBuffer _ _)
  rw [hgen _ (isBuffer_constBuffer _ _)] at hrun₀' hrun₁'
  obtain rfl := Option.some.inj hrun₀'
  obtain rfl := Option.some.inj hrun₁'
  have hout : out₀ a = out₁ a := by
    rw [hsame₀ l hl, hsame₁ l hl]
    exact writeRows_eq_of_mem hmem _ _
  have hassigns₀ := Assigns.foldlM id (fun ou _ b b' hb => hdense _ b b' hb) hrun₀
  have hassigns₁ := Assigns.foldlM id (fun ou _ b b' hb => hdense _ b b' hb) hrun₁
  by_contra hnot
  have hnotMem : a ∉ {a | ∃ ou ∈ List.range pd.outerSize, a ∈ rowSet (ou * pd.outerStride) pd.axisSize} :=
    fun ⟨ou, hou, hrow⟩ => hnot ⟨ou, List.mem_range.mp hou, hrow⟩
  have hkeep₀ : out₀ a = some 0 := (hassigns₀.frame a hnotMem).trans (constBuffer_offL hl 0)
  have hkeep₁ : out₁ a = some 1 := (hassigns₁.frame a hnotMem).trans (constBuffer_offL hl 1)
  rw [hkeep₀, hkeep₁] at hout
  exact zero_ne_one (Option.some.inj hout)

end Passes

/-! ## The forward pass -/

/-- Where the row is, its elements. -/
def rowOf [Zero R] (b : Buffer R) (base : ℤ) (c : ℕ) : R := (b (base + c)).getD 0

theorem rowOf_eq [Zero R] {b : Buffer R} {base : ℤ} {n : ℕ} (h : HasRow b base n) {c : ℕ} (hc : c < n) :
    b (base + c) = some (rowOf b base c) := by
  obtain ⟨x, hx⟩ := Option.isSome_iff_exists.mp (h c hc)
  rw [rowOf, hx, Option.getD_some]

/-- For every input and every order of the rows, the dense path stays inside the tensor and has the results of the generic path.
The values of the input are no less than `lowest`. -/
def Pd.ForwardAgrees [Field R] [LinearOrder R] (pd : Pd) (exp : R → R) (lowest : R) : Prop :=
  ∀ src dst : Buffer R, IsBuffer pd.dataDesc src → IsBuffer pd.dataDesc dst → (∀ a x, src a = some x → lowest ≤ x) →
    ∀ order order' : List ℕ, order.Perm (List.range pd.outerSize) → order'.Perm (List.range pd.outerSize) →
      ∃ out out', forwardDense exp pd order src dst = some out ∧ forwardGeneric exp pd lowest order' src dst = some out' ∧
        ∀ l < pd.dataDesc.nelems false, out (pd.dataDesc.offL l false) = out' (pd.dataDesc.offL l false)

section Forward

variable [Field R] [LinearOrder R] {exp : R → R} {lowest : R}

/-- The values that the rows of a tensor get. -/
def forwardValue (exp : R → R) (lowest : R) (n : ℕ) (src : Buffer R) (base : ℤ) (c : ℕ) : R :=
  softmaxRow exp n (rowOf src base) ((List.range n).foldl (fun m c => max m (rowOf src base c)) lowest) c

theorem Pd.Accepted.forward_rows (h : pd.Accepted) (hin : pd.innerSize = 1)
    (hstride : pd.dataDesc.blocking.strides pd.axis = pd.axisBlkSize pd.dataDesc.blocking) (hC : 0 < pd.axisSize)
    {src : Buffer R} (hsrc : IsBuffer pd.dataDesc src) (hlow : ∀ a x, src a = some x → lowest ≤ x) {ou : ℕ}
    (hou : ou < pd.outerSize) {b : Buffer R} (hb : HasRow b (pd.rowOff ou) pd.axisSize) :
    forwardDenseRow exp pd.axisSize (pd.rowOff ou) src b =
        some (writeRow (pd.rowOff ou) pd.axisSize (forwardValue exp lowest pd.axisSize src (pd.rowOff ou)) b) ∧
      forwardGenericRow exp pd lowest ou src b =
        some (writeRow (pd.rowOff ou) pd.axisSize (forwardValue exp lowest pd.axisSize src (pd.rowOff ou)) b) := by
  have hrow := h.hasRow hin hstride hsrc hou
  have hvalues : ∀ c < pd.axisSize, src (pd.rowOff ou + c) = some (rowOf src (pd.rowOff ou) c) := fun c hc => rowOf_eq hrow hc
  have hbound : ∀ c < pd.axisSize, lowest ≤ rowOf src (pd.rowOff ou) c := fun c hc => hlow _ _ (hvalues c hc)
  have hmax := isMax_foldl hC hbound
  have hoff : ∀ c < pd.axisSize, genericOff pd pd.dataDesc ou (c, 0) = pd.rowOff ou + c := by
    intro c hc
    rw [← h.offL_eq hin hstride hou hc, genericOff, hin]
    simp only [Nat.mul_one, Nat.add_zero]
  exact ⟨forwardDenseRow_eq hC hvalues hmax hb, forwardGenericRow_eq hin hC hoff hvalues hbound hmax hb⟩

/-- The forward pass, for rows with elements. -/
theorem Pd.Accepted.forwardAgrees_iff (h : pd.Accepted) (hin : pd.innerSize = 1)
    (hstride : pd.dataDesc.blocking.strides pd.axis = pd.axisBlkSize pd.dataDesc.blocking) (hC : 0 < pd.axisSize) :
    pd.ForwardAgrees exp lowest ↔ pd.RowsMatch := by
  constructor
  · intro hagree
    have hsrc : IsBuffer pd.dataDesc (constBuffer pd.dataDesc lowest) := isBuffer_constBuffer _ _
    have hlow : ∀ a x, constBuffer pd.dataDesc lowest a = some x → lowest ≤ x := by
      intro a x hx
      unfold constBuffer at hx
      split_ifs at hx
      exact (Option.some.inj hx).le
    refine h.rowsMatch_of_agree (forwardDenseRow exp pd.axisSize · (constBuffer pd.dataDesc lowest))
      (forwardGenericRow exp pd lowest · (constBuffer pd.dataDesc lowest)) hin hstride hC
      (fun base b b' => forwardDenseRow_assigns)
      (fun ou hou b hb => (h.forward_rows hin hstride hC hsrc hlow hou hb).2) fun b hb => ?_
    exact hagree _ b hsrc hb hlow _ _ (List.Perm.refl _) (List.Perm.refl _)
  · intro hmatch src dst hsrc hdst hlow order order' ho ho'
    obtain ⟨out, hrun, hrun'⟩ := h.agree_of_rowsMatch (forwardDenseRow exp pd.axisSize · src)
      (forwardGenericRow exp pd lowest · src) hin hstride hmatch
      (fun ou hou b hb => (h.forward_rows hin hstride hC hsrc hlow hou hb).1)
      (fun ou hou b hb => (h.forward_rows hin hstride hC hsrc hlow hou hb).2) hdst ho ho'
    exact ⟨out, out, hrun, hrun', fun _ _ => rfl⟩

/-- Without rows there is nothing to do. -/
theorem Pd.forwardAgrees_of_outerSize (hN : pd.outerSize = 0) : pd.ForwardAgrees exp lowest := by
  intro src dst _ _ _ order order' ho ho'
  rw [hN, List.range_zero] at ho ho'
  obtain rfl := ho.eq_nil
  obtain rfl := ho'.eq_nil
  exact ⟨dst, dst, rfl, rfl, fun _ _ => rfl⟩

/-- The first element of a row is read even if the row has none. -/
theorem Pd.Accepted.not_forwardAgrees (h : pd.Accepted) (hin : pd.innerSize = 1) (hC : pd.axisSize = 0)
    (hN : pd.outerSize ≠ 0) : ¬ pd.ForwardAgrees exp lowest := by
  intro hagree
  have hnone : ∀ a, constBuffer pd.dataDesc lowest a = none := by
    intro a
    unfold constBuffer
    rw [h.nelems_eq hin, hC, Nat.mul_zero]
    rfl
  obtain ⟨out, -, hrun, -⟩ := hagree _ _ (isBuffer_constBuffer pd.dataDesc lowest) (isBuffer_constBuffer pd.dataDesc lowest)
    (fun a x hx => by rw [hnone] at hx; cases hx) _ _ (List.Perm.refl _) (List.Perm.refl _)
  obtain ⟨n, hn⟩ := Nat.exists_eq_succ_of_ne_zero hN
  rw [forwardDense, hn, List.range_succ_eq_map, List.foldlM_cons, hC, forwardDenseRow_zero (hnone _)] at hrun
  cases hrun

end Forward

/-! ## The backward pass -/

/-- For every input and every order of the iterations, the dense path stays inside the tensor and has the results of the generic
path. -/
def Pd.BackwardAgrees (R : Type*) [Field R] (pd : Pd) : Prop :=
  ∀ dst diffDst diffSrc : Buffer R, IsBuffer pd.dataDesc dst → IsBuffer pd.diffDesc diffDst → IsBuffer pd.diffDesc diffSrc →
    ∀ (order : List ℕ) (order' : List (ℕ × ℕ)), order.Perm (List.range pd.outerSize) →
      order'.Perm ((List.range pd.outerSize).flatMap fun ou => (List.range pd.innerSize).map fun i => (ou, i)) →
      ∃ out out', backwardDense pd order dst diffDst diffSrc = some out ∧
        backwardGeneric pd order' dst diffDst diffSrc = some out' ∧
        ∀ l < pd.diffDesc.nelems false, out (pd.diffDesc.offL l false) = out' (pd.diffDesc.offL l false)

section Backward

variable [Field R]

/-- Equal descriptors have the same elements at the same places. -/
theorem offL_of_sameFields {md md' : MemoryDesc} (h : md.SameFields md') (hwf : md'.WellFormed) (l : ℕ) :
    md.offL l false = md'.offL l false := by
  unfold MemoryDesc.offL
  rw [if_neg Bool.false_ne_true, if_neg Bool.false_ne_true, offLPos_eq_rowMajor, offLPos_eq_rowMajor, h.ndims,
    rowMajor_congr h.dims, h.offV_eq hwf]

/-- The gradient that the rows of a tensor get. -/
def backwardValue (n : ℕ) (dst diffDst : Buffer R) (base : ℤ) : ℕ → R :=
  gradRow n (rowOf dst base) (rowOf diffDst base)

theorem Pd.Accepted.backward_rows (h : pd.Accepted) (hin : pd.innerSize = 1)
    (hstride : pd.dataDesc.blocking.strides pd.axis = pd.axisBlkSize pd.dataDesc.blocking)
    (hdiffOff : ∀ l, pd.diffDesc.offL l false = pd.dataDesc.offL l false) {dst diffDst : Buffer R}
    (hdst : IsBuffer pd.dataDesc dst) (hdiff : IsBuffer pd.dataDesc diffDst) {ou : ℕ} (hou : ou < pd.outerSize)
    {b : Buffer R} (hb : HasRow b (pd.rowOff ou) pd.axisSize) :
    backwardDenseRow pd.axisSize (pd.rowOff ou) dst diffDst b =
        some (writeRow (pd.rowOff ou) pd.axisSize (backwardValue pd.axisSize dst diffDst (pd.rowOff ou)) b) ∧
      backwardGenericRow pd (ou, 0) dst diffDst b =
        some (writeRow (pd.rowOff ou) pd.axisSize (backwardValue pd.axisSize dst diffDst (pd.rowOff ou)) b) := by
  have hvalues := fun (c : ℕ) (hc : c < pd.axisSize) => rowOf_eq (h.hasRow hin hstride hdst hou) hc
  have hgrads := fun (c : ℕ) (hc : c < pd.axisSize) => rowOf_eq (h.hasRow hin hstride hdiff hou) hc
  have hoff : ∀ c < pd.axisSize, genericOff pd pd.dataDesc ou (c, 0) = pd.rowOff ou + c := by
    intro c hc
    rw [← h.offL_eq hin hstride hou hc, genericOff, hin]
    simp only [Nat.mul_one, Nat.add_zero]
  have hoff' : ∀ c < pd.axisSize, genericOff pd pd.diffDesc ou (c, 0) = pd.rowOff ou + c := by
    intro c hc
    rw [← hoff c hc, genericOff, genericOff, hdiffOff]
  exact ⟨backwardDenseRow_eq hvalues hgrads hb, backwardGenericRow_eq hoff hoff' hvalues hgrads hb⟩

/-- The iterations of the generic path are the rows. -/
theorem Pd.backwardGeneric_eq (hin : pd.innerSize = 1) {order' : List (ℕ × ℕ)}
    (ho' : order'.Perm ((List.range pd.outerSize).flatMap fun ou => (List.range pd.innerSize).map fun i => (ou, i)))
    (dst diffDst diffSrc : Buffer R) :
    (order'.map Prod.fst).Perm (List.range pd.outerSize) ∧ backwardGeneric pd order' dst diffDst diffSrc =
      (order'.map Prod.fst).foldlM (fun b ou => backwardGenericRow pd (ou, 0) dst diffDst b) diffSrc := by
  have hpairs : ((List.range pd.outerSize).flatMap fun ou => (List.range pd.innerSize).map fun i => (ou, i)) =
      (List.range pd.outerSize).map fun ou => (ou, 0) := by
    rw [hin, List.map_eq_flatMap]
    rfl
  rw [hpairs] at ho'
  have hzero : (order'.map Prod.fst).map (fun ou => (ou, 0)) = order' := by
    rw [List.map_map]
    refine (List.map_congr_left fun x hx => ?_).trans (List.map_id _)
    obtain ⟨ou, -, rfl⟩ := List.mem_map.mp (ho'.mem_iff.mp hx)
    rfl
  refine ⟨?_, ?_⟩
  · have hfst := ho'.map Prod.fst
    rw [List.map_map] at hfst
    exact hfst.trans (List.Perm.of_eq (List.map_id _))
  · conv_lhs => rw [← hzero]
    rw [backwardGeneric, List.foldlM_map]

/-- The backward pass, for rows with elements. -/
theorem Pd.Accepted.backwardAgrees_iff (h : pd.Accepted) (hin : pd.innerSize = 1)
    (hstride : pd.dataDesc.blocking.strides pd.axis = pd.axisBlkSize pd.dataDesc.blocking) (hC : 0 < pd.axisSize)
    (heq : pd.diffDesc.isEqual pd.dataDesc = true) : pd.BackwardAgrees R ↔ pd.RowsMatch := by
  have hsame := MemoryDesc.sameFields_of_isEqual heq (Nat.lt_of_le_of_lt (Nat.zero_le _) h.axis_lt) h.formatKind
  have hnelems := hsame.nelems_eq false
  have hoffL := offL_of_sameFields hsame h.built.wellFormed
  have hbuffer : ∀ b : Buffer R, IsBuffer pd.diffDesc b ↔ IsBuffer pd.dataDesc b := by
    intro b
    simp only [IsBuffer, hnelems, hoffL]
  unfold Pd.BackwardAgrees
  simp only [hbuffer, hnelems, hoffL]
  constructor
  · intro hagree
    have hzero : IsBuffer pd.dataDesc (constBuffer pd.dataDesc (0 : R)) := isBuffer_constBuffer _ _
    refine h.rowsMatch_of_agree (backwardDenseRow pd.axisSize · (constBuffer pd.dataDesc 0) (constBuffer pd.dataDesc 0))
      (fun ou => backwardGenericRow pd (ou, 0) (constBuffer pd.dataDesc 0) (constBuffer pd.dataDesc 0)) hin hstride hC
      (fun base b b' => backwardDenseRow_assigns)
      (fun ou hou b hb => (h.backward_rows hin hstride hoffL hzero hzero hou hb).2) fun b hb => ?_
    have hall := hagree _ _ b hzero hzero hb _ _ (List.Perm.refl _) (List.Perm.refl _)
    rw [(Pd.backwardGeneric_eq hin (List.Perm.refl _) _ _ _).2] at hall
    have hfst : (((List.range pd.outerSize).flatMap fun ou => (List.range pd.innerSize).map fun i => (ou, i)).map Prod.fst) =
        List.range pd.outerSize := by
      rw [hin, List.map_flatMap]
      exact (List.map_eq_flatMap ..).symm.trans (List.map_id _)
    rw [hfst] at hall
    exact hall
  · intro hmatch dst diffDst diffSrc hdst hdiff hsrc order order' ho ho'
    obtain ⟨hperm, hgen⟩ := Pd.backwardGeneric_eq hin ho' dst diffDst diffSrc
    obtain ⟨out, hrun, hrun'⟩ := h.agree_of_rowsMatch (backwardDenseRow pd.axisSize · dst diffDst)
      (fun ou => backwardGenericRow pd (ou, 0) dst diffDst) hin hstride hmatch
      (fun ou hou b hb => (h.backward_rows hin hstride hoffL hdst hdiff hou hb).1)
      (fun ou hou b hb => (h.backward_rows hin hstride hoffL hdst hdiff hou hb).2) hsrc ho hperm
    exact ⟨out, out, hrun, hgen.trans hrun', fun _ _ => rfl⟩

/-- Rows without elements are left alone. -/
theorem Pd.backwardAgrees_of_axisSize (hC : pd.axisSize = 0) : pd.BackwardAgrees R := by
  intro dst diffDst diffSrc _ _ _ order order' _ _
  have hdense : ∀ ou ∈ order, ∀ b : Buffer R,
      backwardDenseRow pd.axisSize (ou * pd.outerStride) dst diffDst b = some b := by
    intro ou _ b
    rw [hC]
    rfl
  have hgeneric : ∀ x ∈ order', ∀ b : Buffer R, backwardGenericRow pd x dst diffDst b = some b := by
    intro x _ b
    unfold backwardGenericRow
    rw [hC]
    rfl
  have hkeep : ∀ {α : Type} (l : List α), l.foldl (fun b _ => b) diffSrc = diffSrc := fun l => by
    induction l with
    | nil => rfl
    | cons _ _ ih => exact ih
  refine ⟨diffSrc, diffSrc, ?_, ?_, fun _ _ => rfl⟩
  · rw [backwardDense, foldlM_some hdense, hkeep]
  · rw [backwardGeneric, foldlM_some hgeneric, hkeep]

end Backward

/-! ## Both passes -/

/-- The dense path of the forward pass agrees with the generic one exactly if there is no row or the rows have elements and are
those of the tensor; that of the backward pass exactly if the rows have no elements or are those of the tensor. -/
theorem Pd.Accepted.agrees_iff [Field R] [LinearOrder R] (h : pd.Accepted) (exp : R → R) (lowest : R) :
    (pd.useDenseFwd = true →
      (pd.ForwardAgrees exp lowest ↔ pd.outerSize = 0 ∨ pd.axisSize ≠ 0 ∧ pd.RowsMatch)) ∧
    (pd.useDenseBwd = true → (pd.BackwardAgrees R ↔ pd.axisSize = 0 ∨ pd.RowsMatch)) := by
  constructor
  · intro hdense
    simp only [Pd.useDenseFwd, decide_eq_true_eq] at hdense
    obtain ⟨hin, -, -, hstride⟩ := hdense
    by_cases hN : pd.outerSize = 0
    · exact iff_of_true (Pd.forwardAgrees_of_outerSize hN) (Or.inl hN)
    by_cases hC : pd.axisSize = 0
    · refine iff_of_false (h.not_forwardAgrees hin hC hN) ?_
      rintro (hzero | ⟨hne, -⟩)
      · exact hN hzero
      · exact hne hC
    · rw [h.forwardAgrees_iff hin hstride (Nat.pos_of_ne_zero hC)]
      exact ⟨fun hmatch => Or.inr ⟨hC, hmatch⟩, fun hcond => (hcond.resolve_left hN).2⟩
  · intro hdense
    simp only [Pd.useDenseBwd, decide_eq_true_eq] at hdense
    obtain ⟨hin, heq, -, hstride⟩ := hdense
    by_cases hC : pd.axisSize = 0
    · exact iff_of_true (Pd.backwardAgrees_of_axisSize hC) (Or.inl hC)
    · have hsame := MemoryDesc.sameFields_of_isEqual heq (Nat.lt_of_le_of_lt (Nat.zero_le _) h.axis_lt) h.formatKind
      have hstride' : pd.dataDesc.blocking.strides pd.axis = pd.axisBlkSize pd.dataDesc.blocking := by
        rw [← hsame.strides pd.axis h.axis_lt, hstride, axisBlkSize_eq, axisBlkSize_eq, hsame.inner]
      rw [h.backwardAgrees_iff hin hstride' (Nat.pos_of_ne_zero hC) heq]
      exact ⟨Or.inr, fun hcond => hcond.resolve_left hC⟩

/-- The softmax along the last dimension of a tensor of a format tag. -/
theorem Pd.accepted_of_tag {ndims : ℕ} {dims : ℕ → ℤ} {dt : DataType} {tag : FormatTag} {md : MemoryDesc}
    (h : memoryDescInitByTag ndims dims dt tag = .ok md) (hk : md.formatKind = .blocked) {axis : ℕ} (hlt : axis < md.ndims) :
    (Pd.mk md md axis).Accepted where
  built := .whole (Or.inl ⟨ndims, dims, dt, tag, h, hk⟩)
  formatKind := hk
  axis_lt := hlt
  distinct := memoryDescInitByTag_distinct h hk

/-- In the order of the dimensions, both paths agree. -/
theorem Pd.Accepted.agrees_iff_abc : ∃ pd : Pd, pd.Accepted ∧ pd.useDenseFwd = true ∧ pd.useDenseBwd = true ∧
    (∀ (exp : ℚ → ℚ) (lowest : ℚ), pd.ForwardAgrees exp lowest) ∧ pd.BackwardAgrees ℚ := by
  obtain ⟨md, hmd, hk, hn, hfwd, hbwd, hC, hrows⟩ : ∃ md, memoryDescInitByTag 3 (fun _ => 2) .f32 .abc = .ok md ∧
      md.formatKind = .blocked ∧ 2 < md.ndims ∧ (Pd.mk md md 2).useDenseFwd = true ∧ (Pd.mk md md 2).useDenseBwd = true ∧
      (Pd.mk md md 2).axisSize ≠ 0 ∧ (Pd.mk md md 2).RowsMatch :=
    ⟨_, rfl, rfl, by decide, by decide, by decide, by decide, by decide⟩
  have hacc := Pd.accepted_of_tag hmd hk hn
  exact ⟨_, hacc, hfwd, hbwd, fun exp lowest => ((hacc.agrees_iff exp lowest).1 hfwd).mpr (Or.inr ⟨hC, hrows⟩),
    ((hacc.agrees_iff id 0).2 hbwd).mpr (Or.inr hrows)⟩

/-- With the second dimension outside of the first one, the rows are two elements apart, but the dense path goes on by four. -/
theorem Pd.Accepted.agrees_bac : ∃ pd : Pd, pd.Accepted ∧ pd.useDenseFwd = true ∧ pd.useDenseBwd = true ∧
    (∀ (exp : ℚ → ℚ) (lowest : ℚ), ¬ pd.ForwardAgrees exp lowest) ∧ ¬ pd.BackwardAgrees ℚ := by
  obtain ⟨md, hmd, hk, hn, hfwd, hbwd, hin, hC, heq, hstride, hrows⟩ : ∃ md,
      memoryDescInitByTag 3 (fun _ => 2) .f32 .bac = .ok md ∧ md.formatKind = .blocked ∧ 2 < md.ndims ∧
      (Pd.mk md md 2).useDenseFwd = true ∧ (Pd.mk md md 2).useDenseBwd = true ∧ (Pd.mk md md 2).innerSize = 1 ∧
      0 < (Pd.mk md md 2).axisSize ∧ md.isEqual md = true ∧
      md.blocking.strides 2 = (Pd.mk md md 2).axisBlkSize md.blocking ∧ ¬ (Pd.mk md md 2).RowsMatch :=
    ⟨_, rfl, rfl, by decide, by decide, by decide, by decide, by decide, by decide, by decide, by decide⟩
  have hacc := Pd.accepted_of_tag hmd hk hn
  exact ⟨_, hacc, hfwd, hbwd, fun exp lowest => mt (hacc.forwardAgrees_iff hin hstride hC).mp hrows,
    mt (hacc.backwardAgrees_iff hin hstride hC heq).mp hrows⟩

end RefSoftmax

end MklDnn
