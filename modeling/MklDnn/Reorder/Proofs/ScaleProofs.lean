import MklDnn.Common.Proofs.NdIteratorProofs
import MklDnn.Reorder.Proofs.ReorderProofs
import MklDnn.Reorder.Simple

/-!
# Proofs: which scale an element is reordered with

The output scales are indexed by the coordinates of the masked dimensions. The reference reorder computes
this index from logical extents. The scale strides of `prb_init` are products of padded extents, so the two
agree if no dimension with padding follows a masked one.
-/

open LoopNest Offsets

namespace MklDnn

/-! ## The index of a scale -/

/-- The row-major index of a position over the masked dimensions. -/
def scaleIndex (mask : ℕ) (dims : ℕ → ℕ) (ndims : ℕ) (pos : ℕ → ℕ) : ℕ :=
  (List.range ndims).foldl (fun idx d => if mask.testBit d then idx * dims d + pos d else idx) 0

/-- The number of scales for a mask. -/
def scaleCount (mask : ℕ) (dims : ℕ → ℕ) (ndims : ℕ) : ℕ := maskedProd mask.testBit dims 0 ndims

section ScaleIndex

variable {mask : ℕ} {dims pos : ℕ → ℕ} {n : ℕ}

theorem scaleIndex_succ (mask : ℕ) (dims : ℕ → ℕ) (n : ℕ) (pos : ℕ → ℕ) :
    scaleIndex mask dims (n + 1) pos =
      if mask.testBit n then scaleIndex mask dims n pos * dims n + pos n
      else scaleIndex mask dims n pos := by
  rw [scaleIndex, List.range_succ, List.foldl_append]
  rfl

theorem scaleIndex_congr {pos' : ℕ → ℕ} (h : ∀ d < n, pos d = pos' d) :
    scaleIndex mask dims n pos = scaleIndex mask dims n pos' := by
  induction n with
  | zero => rfl
  | succ n ih =>
    rw [scaleIndex_succ, scaleIndex_succ, ih fun d hd => h d (Nat.lt_succ_of_lt hd), h n n.lt_succ_self]

theorem maskedProd_succ_top {masked : ℕ → Bool} {k : ℕ} (h : k ≤ n) :
    maskedProd masked dims k (n + 1) = maskedProd masked dims k n * if masked n then dims n else 1 :=
  Finset.prod_Ico_succ_top h _

theorem scaleIndex_lt (h : ∀ d < n, pos d < dims d) :
    scaleIndex mask dims n pos < scaleCount mask dims n := by
  induction n with
  | zero => exact Nat.one_pos
  | succ n ih =>
    have hlt := ih fun d hd => h d (Nat.lt_succ_of_lt hd)
    have hn := h n n.lt_succ_self
    rw [scaleIndex_succ, scaleCount, maskedProd_succ_top (Nat.zero_le n), ← scaleCount]
    split_ifs
    · have hle := Nat.mul_le_mul_right (dims n) hlt
      rw [Nat.succ_mul] at hle
      omega
    · rwa [Nat.mul_one]

/-- The index is a sum of one term for each masked dimension. -/
theorem scaleIndex_eq_sum (mask : ℕ) (dims : ℕ → ℕ) (n : ℕ) (pos : ℕ → ℕ) :
    scaleIndex mask dims n pos = ∑ d ∈ Finset.range n,
      if mask.testBit d then pos d * maskedProd mask.testBit dims (d + 1) n else 0 := by
  induction n with
  | zero => rfl
  | succ n ih =>
    have hsum : ∀ d ∈ Finset.range n,
        (if mask.testBit d then pos d * maskedProd mask.testBit dims (d + 1) (n + 1) else 0) =
          (if mask.testBit d then pos d * maskedProd mask.testBit dims (d + 1) n else 0) *
            if mask.testBit n then dims n else 1 := by
      intro d hd
      rw [maskedProd_succ_top (Finset.mem_range.mp hd), ite_mul, Nat.zero_mul, Nat.mul_assoc]
    rw [scaleIndex_succ, ih, Finset.sum_range_succ, Finset.sum_congr rfl hsum, ← Finset.sum_mul,
      maskedProd_self, Nat.mul_one]
    split_ifs
    · rfl
    · rw [Nat.mul_one, Nat.add_zero]

end ScaleIndex

/-! ## The reference reorder -/

theorem skipBits_spec (bit : Bool) (smask : ℕ) :
    (Reference.skipBits bit smask).2 = smask >>> (Reference.skipBits bit smask).1 ∧
      ∀ d < (Reference.skipBits bit smask).1, smask.testBit d = bit := by
  fun_induction Reference.skipBits bit smask with
  | case1 smask h skipped ih =>
    obtain ⟨hrest, hbits⟩ := ih
    refine ⟨?_, fun d hd => ?_⟩
    · rw [hrest, ← Nat.shiftRight_add, Nat.add_comm]
    · cases d with
      | zero => exact h.2
      | succ d =>
        have hbit := hbits d (Nat.lt_of_succ_lt_succ hd)
        rwa [Nat.testBit_shiftRight, Nat.add_comm] at hbit
  | case2 smask h => exact ⟨rfl, fun d hd => absurd hd (Nat.not_lt_zero d)⟩

/-- The mask consists of the `m` bits from bit `s` on. -/
def MaskRange (mask s m : ℕ) : Prop := ∀ d, mask.testBit d = true ↔ s ≤ d ∧ d < s + m

/-- The masks that the reference reorder supports. -/
theorem maskRange_of_isApplicable {inputD outputD : MemoryDesc} {scales : OutputScales}
    (h : Reference.isApplicable inputD outputD (some scales) = true) :
    MaskRange scales.mask (Reference.skipBits false scales.mask).1
      (Reference.skipBits true (Reference.skipBits false scales.mask).2).1 := by
  obtain ⟨hrest, hstart⟩ := skipBits_spec false scales.mask
  obtain ⟨hrest', hmask⟩ := skipBits_spec true (Reference.skipBits false scales.mask).2
  simp only [Reference.isApplicable, Option.map_some, Option.getD_some, Bool.and_eq_true,
    decide_eq_true_eq] at h
  rw [h.2, hrest, ← Nat.shiftRight_add] at hrest'
  rw [hrest] at hmask ⊢
  generalize (Reference.skipBits false scales.mask).1 = s at *
  generalize (Reference.skipBits true (scales.mask >>> s)).1 = m at *
  intro d
  constructor
  · intro hd
    by_contra hout
    rcases Nat.lt_or_ge d s with hlt | hle
    · rw [hstart d hlt] at hd
      cases hd
    · -- behind the mask there are no bits left
      obtain ⟨k, rfl⟩ := Nat.exists_eq_add_of_le (show s + m ≤ d by omega)
      rw [← Nat.testBit_shiftRight, ← hrest', Nat.zero_testBit] at hd
      cases hd
  · rintro ⟨hle, hlt⟩
    have hbit := hmask (d - s) (by omega)
    rwa [Nat.testBit_shiftRight, Nat.add_sub_cancel' hle] at hbit

section MaskRange

variable {mask s m : ℕ} (hmask : MaskRange mask s m)

include hmask

theorem scaleIndex_eq_zero {k : ℕ} (hk : k ≤ s) (dims pos : ℕ → ℕ) : scaleIndex mask dims k pos = 0 := by
  induction k with
  | zero => rfl
  | succ k ih =>
    rw [scaleIndex_succ, ih (Nat.le_of_succ_le hk), if_neg]
    intro hbit
    have hrange := (hmask k).mp hbit
    omega

/-- Within the mask the index is the number of the row-major order, up to the dimensions before. -/
theorem scaleIndex_rowMajor_inside (dims : ℕ → ℕ) {k : ℕ} (hk : s ≤ k) (hkm : k ≤ s + m) (q : ℕ) :
    scaleIndex mask dims k (rowMajor dims k q) = q % ∏ d ∈ Finset.Ico s k, dims d := by
  induction k, hk using Nat.le_induction generalizing q with
  | base => rw [scaleIndex_eq_zero hmask le_rfl, Finset.Ico_self, Finset.prod_empty, Nat.mod_one]
  | succ k hk ih =>
    have hpos : scaleIndex mask dims k (rowMajor dims (k + 1) q) =
        scaleIndex mask dims k (rowMajor dims k (q / dims k)) :=
      scaleIndex_congr fun d hd => by rw [rowMajor, Function.update_of_ne (Nat.ne_of_lt hd)]
    have hlast : rowMajor dims (k + 1) q k = q % dims k := by rw [rowMajor, Function.update_self]
    rw [scaleIndex_succ, if_pos ((hmask k).mpr ⟨hk, hkm⟩), hpos, hlast, ih (Nat.le_of_succ_le hkm),
      Finset.prod_Ico_succ_top hk, Nat.mul_comm (∏ d ∈ Finset.Ico s k, dims d), Nat.mod_mul, Nat.mul_comm,
      Nat.add_comm]

/-- The dimensions after the mask are divided out. -/
theorem scaleIndex_rowMajor (dims : ℕ → ℕ) {n : ℕ} (hn : s + m ≤ n) (l : ℕ) :
    scaleIndex mask dims n (rowMajor dims n l) =
      l / (∏ d ∈ Finset.Ico (s + m) n, dims d) % ∏ d ∈ Finset.Ico s (s + m), dims d := by
  induction n, hn using Nat.le_induction generalizing l with
  | base =>
    rw [scaleIndex_rowMajor_inside hmask dims (Nat.le_add_right s m) le_rfl, Finset.Ico_self,
      Finset.prod_empty, Nat.div_one]
  | succ n hn ih =>
    have hbit : ¬ mask.testBit n = true := fun hbit => Nat.not_lt.mpr hn ((hmask n).mp hbit).2
    have hpos : scaleIndex mask dims n (rowMajor dims (n + 1) l) =
        scaleIndex mask dims n (rowMajor dims n (l / dims n)) :=
      scaleIndex_congr fun d hd => by rw [rowMajor, Function.update_of_ne (Nat.ne_of_lt hd)]
    rw [scaleIndex_succ, if_neg hbit, hpos, ih, Finset.prod_Ico_succ_top hn, Nat.mul_comm,
      Nat.div_div_eq_div_mul]

end MaskRange

/-- The three counters of an iteration make up its number. -/
theorem join_digits {a b c l : ℕ} (hl : l < a * (b * c)) :
    (l / (b * c) % a * b + l / c % b) * c + l % c = l := by
  have hquot : l / (b * c) % a = l / c / b := by
    rw [Nat.mod_eq_of_lt (Nat.div_lt_of_lt_mul (by rwa [Nat.mul_comm])), Nat.mul_comm b,
      Nat.div_div_eq_div_mul]
  rw [hquot, Nat.div_add_mod', Nat.div_add_mod']

/-- The stores that the reference reorder should make for a mask. -/
def scaledStores (inputD outputD : MemoryDesc) (mask : ℕ) : List Reference.ScaledStore :=
  (box inputD.dims inputD.ndims).map fun pos =>
    ⟨outputD.offV pos false, inputD.offV pos false, scaleIndex mask inputD.dims inputD.ndims pos⟩

/-- The reference reorder stores every element once, with the scale of its masked coordinates. -/
theorem Reference.execute_scaledStores {inputD outputD : MemoryDesc} {scales : OutputScales} {nthr : ℕ}
    {stores : List ScaledStore} (hin : inputD.Built) (hcons : inputD.consistentWith outputD = true)
    (hzero : inputD.isZero = false) (happl : isApplicable inputD outputD (some scales) = true)
    (hnthr : 0 < nthr) (h : execute inputD outputD scales.mask nthr = some stores) :
    stores = scaledStores inputD outputD scales.mask := by
  have hmask := maskRange_of_isApplicable happl
  simp only [MemoryDesc.consistentWith, decide_eq_true_eq] at hcons
  have hnelems : inputD.nelems false = volume inputD.dims inputD.ndims := by
    simp [MemoryDesc.nelems, hzero]
  unfold execute at h
  dsimp only at h
  generalize (skipBits false scales.mask).1 = s at *
  generalize (skipBits true (skipBits false scales.mask).2).1 = m at *
  have hD : volume (fun d => inputD.dims (d + s)) m = ∏ d ∈ Finset.Ico s (s + m), inputD.dims d := by
    rw [Finset.prod_Ico_eq_prod_range, Nat.add_sub_cancel_left, volume]
    exact Finset.prod_congr rfl fun d _ => by rw [Nat.add_comm]
  rw [hD, hnelems] at h
  split_ifs at h with h0
  have hpos : 0 < volume inputD.dims (s + m) := by
    rw [volume_eq_mul (Nat.le_add_right s m)]
    exact Nat.pos_of_ne_zero (by simp only [ne_eq, Nat.mul_eq_zero]; exact h0)
  have hn : s + m ≤ inputD.ndims := by
    by_contra hlt
    have hvol := volume_eq_zero.mpr ⟨inputD.ndims, Nat.not_le.mp hlt, hin.dims_eq_zero le_rfl⟩
    omega
  have hvol : volume inputD.dims inputD.ndims = volume inputD.dims s *
      ((∏ d ∈ Finset.Ico s (s + m), inputD.dims d) * ∏ d ∈ Finset.Ico (s + m) inputD.ndims, inputD.dims d) := by
    rw [volume_eq_mul hn, volume_eq_mul (Nat.le_add_right s m), Nat.mul_assoc]
  push Not at h0
  have hrest : volume inputD.dims inputD.ndims / volume inputD.dims s /
      (∏ d ∈ Finset.Ico s (s + m), inputD.dims d) = ∏ d ∈ Finset.Ico (s + m) inputD.ndims, inputD.dims d := by
    rw [hvol, Nat.mul_div_cancel_left _ (Nat.pos_of_ne_zero h0.1),
      Nat.mul_div_cancel_left _ (Nat.pos_of_ne_zero h0.2)]
  rw [hrest] at h
  obtain rfl := Option.some.inj h
  rw [parallelNd_eq hnthr, scaledStores, box_eq_map_rowMajor, List.map_map, List.map_map]
  have hprod : [volume inputD.dims s, ∏ d ∈ Finset.Ico s (s + m), inputD.dims d,
      ∏ d ∈ Finset.Ico (s + m) inputD.ndims, inputD.dims d].prod = volume inputD.dims inputD.ndims := by
    rw [hvol, List.prod_cons, List.prod_cons, List.prod_singleton]
  rw [hprod]
  refine List.map_congr_left fun l hl => ?_
  have hl : l < volume inputD.dims inputD.ndims := List.mem_range.mp hl
  have hpos : rowMajor outputD.dims outputD.ndims l = rowMajor inputD.dims inputD.ndims l := by
    rw [← hcons.1]
    exact rowMajor_congr (fun d hd => (hcons.2 d hd).symm) l
  simp only [Function.comp, ndIndex_cons, ndIndex_nil, List.getD_cons_zero, List.getD_cons_succ,
    List.prod_cons, List.prod_nil, Nat.mul_one, Nat.div_one]
  rw [join_digits (hvol ▸ hl), MemoryDesc.offL, MemoryDesc.offL, if_neg Bool.false_ne_true,
    if_neg Bool.false_ne_true, offLPos_eq_rowMajor, offLPos_eq_rowMajor, hpos,
    scaleIndex_rowMajor hmask inputD.dims hn]

/-- The dimensions up to the last masked one exist and are not empty. -/
def MaskedNonempty (md : MemoryDesc) (mask : ℕ) : Prop :=
  ∀ d e, d ≤ e → mask.testBit e = true → d < md.ndims ∧ 0 < md.dims d

/-- The reference reorder divides by zero if and only if a dimension up to the last masked one is missing or empty. -/
theorem Reference.execute_isSome_iff {inputD outputD : MemoryDesc} {scales : OutputScales} (nthr : ℕ)
    (hin : inputD.Built) (happl : isApplicable inputD outputD (some scales) = true) :
    (execute inputD outputD scales.mask nthr).isSome = true ↔ MaskedNonempty inputD scales.mask := by
  have hmask := maskRange_of_isApplicable happl
  have hstart : (skipBits true (skipBits false scales.mask).2).1 = 0 → (skipBits false scales.mask).1 = 0 := by
    intro hm
    rw [hm] at hmask
    -- no bit is set
    have hzero : scales.mask = 0 := Nat.eq_of_testBit_eq fun d => by
      rw [Nat.zero_testBit, Bool.eq_false_iff]
      intro hd
      have hrange := (hmask d).mp hd
      omega
    rw [hzero, skipBits]
    simp
  unfold execute
  dsimp only
  generalize (skipBits false scales.mask).1 = s at *
  generalize (skipBits true (skipBits false scales.mask).2).1 = m at *
  have hdivisors : ¬ (volume inputD.dims s = 0 ∨ volume (fun d => inputD.dims (d + s)) m = 0) ↔
      ∀ d < s + m, 0 < inputD.dims d := by
    rw [volume_eq_zero, volume_eq_zero, not_or]
    push Not
    constructor
    · rintro ⟨hfirst, hmasked⟩ d hd
      by_cases hds : d < s
      · exact Nat.pos_of_ne_zero (hfirst d hds)
      · have hd' := hmasked (d - s) (by omega)
        rw [Nat.sub_add_cancel (by omega)] at hd'
        exact Nat.pos_of_ne_zero hd'
    · intro hall
      exact ⟨fun d hd => Nat.ne_of_gt (hall d (by omega)), fun d hd => Nat.ne_of_gt (hall (d + s) (by omega))⟩
  have hnonempty : (∀ d < s + m, 0 < inputD.dims d) ↔ MaskedNonempty inputD scales.mask := by
    constructor
    · intro hall d e hde he
      have hrange := (hmask e).mp he
      have hd := hall d (by omega)
      refine ⟨?_, hd⟩
      by_contra hout
      rw [hin.dims_eq_zero (Nat.not_lt.mp hout)] at hd
      cases hd
    · intro hall d hd
      by_cases hm : m = 0
      · have hs := hstart hm
        omega
      · exact (hall d (s + m - 1) (by omega) ((hmask _).mpr (by omega))).2
  rw [← hnonempty, ← hdivisors]
  split_ifs with hzero
  · exact iff_of_false (by simp) (fun h => h hzero)
  · exact iff_of_true rfl hzero

/-- With as many scales as the masked dimensions have elements, the reference reorder uses none behind them. -/
theorem Reference.execute_scale_lt {inputD outputD : MemoryDesc} {scales : OutputScales} {count nthr : ℕ}
    (hin : inputD.Built) (hcons : inputD.consistentWith outputD = true)
    (happl : isApplicable inputD outputD (some scales) = true) (hnthr : 0 < nthr)
    (hmasked : MaskedNonempty inputD scales.mask) (hcount : scaleCount scales.mask inputD.dims inputD.ndims ≤ count) :
    ∃ stores, execute inputD outputD scales.mask nthr = some stores ∧ ∀ s ∈ stores, s.scale < count := by
  have hblocked : inputD.formatKind = .blocked := by
    simp only [isApplicable, Bool.and_eq_true, MemoryDesc.isBlockingDesc, decide_eq_true_eq] at happl
    exact happl.1.1.1.1
  have hzero : inputD.isZero = false := by
    simp only [MemoryDesc.isZero, decide_eq_false_iff_not]
    exact Nat.ne_of_gt (hin.ndims_pos hblocked)
  obtain ⟨stores, hstores⟩ := Option.isSome_iff_exists.mp ((execute_isSome_iff nthr hin happl).mpr hmasked)
  refine ⟨stores, hstores, fun s hs => ?_⟩
  rw [execute_scaledStores hin hcons hzero happl hnthr hstores] at hs
  obtain ⟨pos, hpos, rfl⟩ := List.mem_map.mp hs
  exact (scaleIndex_lt (mem_box.mp hpos).1).trans_le hcount

theorem Reference.execute_scale_lt_2x3 : ∃ md, memoryDescInitByTag 2 (fun d => [2, 3].getD d 0) .f32 .ab = .ok md ∧
    ∃ stores, Reference.execute md md (⟨false, 2⟩ : OutputScales).mask 4 = some stores ∧ ∀ s ∈ stores, s.scale < 3 := by
  have hall : (memoryDescInitByTag 2 (fun d => [2, 3].getD d 0) .f32 .ab).toOption.any (fun md =>
      decide (md.formatKind = .blocked ∧ md.consistentWith md = true ∧
        Reference.isApplicable md md (some ⟨false, 2⟩) = true ∧ md.ndims = 2 ∧ md.dims 0 = 2 ∧ md.dims 1 = 3 ∧
        scaleCount 2 md.dims md.ndims ≤ 3)) = true := by
    decide +kernel
  obtain ⟨md, hmd, hrest⟩ := Checks.exists_ok_of_any hall
  rw [decide_eq_true_eq] at hrest
  obtain ⟨hk, hcons, happl, hndims, h0, h1, hcount⟩ := hrest
  refine ⟨md, hmd, Reference.execute_scale_lt (.whole (Or.inl ⟨_, _, _, _, hmd, hk⟩)) hcons happl (by decide) ?_ hcount⟩
  intro d e hde he
  have he' : e = 1 := by
    by_contra hne
    rcases Nat.lt_or_ge e 2 with hlt | hge
    · obtain rfl : e = 0 := by omega
      cases he
    · rw [Nat.testBit_lt_two_pow (Nat.lt_of_lt_of_le (by decide) (Nat.pow_le_pow_right (by decide) hge))] at he
      cases he
  subst he'
  rcases Nat.le_one_iff_eq_zero_or_eq_one.mp hde with rfl | rfl
  · omega
  · omega

/-- One scale for three masked columns, which the setter of the attribute accepts. -/
theorem Reference.execute_scale_index_outside : ∃ md,
    memoryDescInitByTag 2 (fun d => [2, 3].getD d 0) .f32 .ab = .ok md ∧ md.consistentWith md = true ∧
    isApplicable md md (some ⟨false, 2⟩) = true ∧
    ¬ ∃ stores, execute md md 2 1 = some stores ∧ ∀ s ∈ stores, s.scale < 1 := by
  have hall : (memoryDescInitByTag 2 (fun d => [2, 3].getD d 0) .f32 .ab).toOption.any (fun md =>
      decide (md.formatKind = .blocked ∧ md.consistentWith md = true ∧
        Reference.isApplicable md md (some ⟨false, 2⟩) = true ∧ md.isZero = false ∧
        ∃ s ∈ scaledStores md md 2, 1 ≤ s.scale)) = true := by
    decide +kernel
  obtain ⟨md, hmd, hrest⟩ := Checks.exists_ok_of_any hall
  rw [decide_eq_true_eq] at hrest
  obtain ⟨hk, hcons, happl, hzero, s, hs, hscale⟩ := hrest
  refine ⟨md, hmd, hcons, happl, ?_⟩
  rintro ⟨stores, hstores, hlt⟩
  have heq := execute_scaledStores (.whole (Or.inl ⟨_, _, _, _, hmd, hk⟩)) hcons hzero happl Nat.one_pos hstores
  have hs' := hlt s (heq ▸ hs)
  omega

/-! ## The JIT reorder -/

/-- The position is one of an element, not of the padding. -/
def MemoryDesc.IsLogical (md : MemoryDesc) (pos : ℕ → ℕ) : Prop := ∀ d < md.ndims, pos d < md.dims d

/-- An iteration of the loops of a problem at the position `pos` moves the element of this position. If it
is not padding, the scale offset is the index of the scale and lies within the scales. -/
def SelectsScale (imd omd : MemoryDesc) (mask : ℕ) (p : Prb) (pos : ℕ → ℕ) (v : ℤ × ℤ × ℤ) : Prop :=
  v.1 + p.ioff = imd.offV pos false ∧ v.2.1 + p.ooff = omd.offV pos false ∧
    (imd.IsLogical pos → v.2.2 = (scaleIndex mask imd.dims imd.ndims pos : ℕ) ∧
      scaleIndex mask imd.dims imd.ndims pos < scaleCount mask imd.dims imd.ndims)

/-- The problem reorders the elements with the scales of the reference reorder, whatever the passes do. -/
structure SelectsScales (imd omd : MemoryDesc) (mask : ℕ) (p : Prb) : Prop where
  visits : List.Forall₂ (SelectsScale imd omd mask p) (box imd.paddedDims imd.ndims) (loopVisits p.nodes)
  passes : ∀ {nthr : ℕ} {q : Prb} {ndimsKerMax : ℕ}, prbPasses nthr p = some (q, ndimsKerMax) →
    (loopVisits q.nodes).Perm (loopVisits p.nodes)
  reference : ∀ {scales : OutputScales} {nthr : ℕ} {stores : List Reference.ScaledStore},
    scales.mask = mask → 0 < nthr → Reference.isApplicable imd omd (some scales) = true →
    Reference.execute imd omd mask nthr = some stores → stores = scaledStores imd omd mask

/-- A masked dimension that has more than one coordinate is not followed by a masked one with padding. -/
def NoPaddingAfterMasked (imd : MemoryDesc) (mask : ℕ) : Prop :=
  ∀ d e, d < e → e < imd.ndims → mask.testBit d = true → mask.testBit e = true →
    imd.dims e < imd.paddedDims e → imd.dims d = 1

theorem OutputScales.masked_eq {scales : OutputScales} (hdef : scales.hasDefaultValues = false) :
    scales.masked = scales.mask.testBit := by
  funext d
  rw [OutputScales.masked, OutputScales.scaleType, hdef]
  by_cases h0 : scales.mask = 0
  · simp [h0]
  · simp [h0]

section Accepted

variable {imd omd : MemoryDesc} {scales : OutputScales} {p : Prb} (h : Accepted imd omd scales p)
  (hi : imd.WellFormed)

include h hi

omit hi in
theorem Accepted.scaleType_ne_none : p.scaleType ≠ .none ↔ scales.hasDefaultValues = false := by
  rw [h.scaleType, OutputScales.scaleType]
  split_ifs with hdef <;> simp [hdef]

omit hi in
theorem Accepted.isZero_input : imd.isZero = false := by
  have hzero := h.nonzero_input
  rw [MemoryDesc.hasZeroDim, MemoryDesc.nelems] at hzero
  cases hz : imd.isZero with
  | true => simp [hz] at hzero
  | false => rfl

/-- The scale offsets of a problem are row-major indices, with padded extents. -/
theorem Accepted.visits_iff (ho : omd.WellFormed) (hdef : scales.hasDefaultValues = false)
    (hndims : omd.ndims = imd.ndims) (hdiv : MutuallyDivisible imd omd) :
    List.Forall₂ (SelectsScale imd omd scales.mask p) (box imd.paddedDims imd.ndims)
        (loopVisits p.nodes) ↔
      ∀ pos ∈ box imd.paddedDims imd.ndims, imd.IsLogical pos →
        scaleIndex scales.mask imd.paddedDims imd.ndims pos =
          scaleIndex scales.mask imd.dims imd.ndims pos := by
  rw [h.loopVisits_eq hi ho hndims hdiv, List.forall₂_map_right_iff, List.forall₂_same,
    OutputScales.masked_eq hdef]
  refine forall₂_congr fun pos _ => ?_
  have hinput : (∑ d ∈ Finset.range imd.ndims, imd.dimOff d (pos d)) + p.ioff = imd.offV pos false := by
    rw [h.ioff, hi.offV_zero, hi.offV_eq, imd.offV_padded hi.valid, add_comm]
  have houtput : (∑ d ∈ Finset.range imd.ndims, omd.dimOff d (pos d)) + p.ooff = omd.offV pos false := by
    rw [h.ooff, ho.offV_zero, ho.offV_eq, omd.offV_padded ho.valid, hndims, add_comm]
  have hscale : (∑ d ∈ Finset.range imd.ndims, if scales.mask.testBit d = true then
      ((pos d * maskedProd scales.mask.testBit imd.paddedDims (d + 1) imd.ndims : ℕ) : ℤ) else 0) =
        (scaleIndex scales.mask imd.paddedDims imd.ndims pos : ℕ) := by
    rw [scaleIndex_eq_sum]
    push_cast
    rfl
  rw [SelectsScale, Prod.fst_sum, Prod.snd_sum, Prod.fst_sum, Prod.snd_sum, hscale]
  constructor
  · rintro ⟨-, -, hlogical⟩ hpos
    exact_mod_cast (hlogical hpos).1
  · intro hindex
    exact ⟨hinput, houtput, fun hpos => ⟨by rw [hindex hpos], scaleIndex_lt hpos⟩⟩

/-- The two indices agree at every position if and only if no padding follows a masked dimension. -/
theorem Accepted.scaleIndex_eq_iff (mask : ℕ) :
    (∀ pos ∈ box imd.paddedDims imd.ndims, imd.IsLogical pos →
      scaleIndex mask imd.paddedDims imd.ndims pos = scaleIndex mask imd.dims imd.ndims pos) ↔
      NoPaddingAfterMasked imd mask := by
  have hdims : ∀ e < imd.ndims, 0 < imd.dims e := fun e he => imd.dims_pos h.nonzero_input he
  constructor
  · intro hindex d e hde he hd hme hpad
    by_contra hone
    have hd0 := hdims d (hde.trans he)
    have hd1 : 1 < imd.dims d := by omega
    have hpos : ∀ k < imd.ndims, Function.update (fun _ => 0) d 1 k < imd.dims k := by
      intro k hk
      rcases eq_or_ne k d with rfl | hne
      · rwa [Function.update_self]
      · rw [Function.update_of_ne hne]
        exact hdims k hk
    have hbox : Function.update (fun _ => 0) d 1 ∈ box imd.paddedDims imd.ndims := by
      refine mem_box.mpr ⟨fun k hk => (hpos k hk).trans_le (hi.dims_le k hk), fun k hk => ?_⟩
      exact Function.update_of_ne (by omega) _ _
    have hsum : ∀ dims : ℕ → ℕ, scaleIndex mask dims imd.ndims (Function.update (fun _ => 0) d 1) =
        maskedProd mask.testBit dims (d + 1) imd.ndims := by
      intro dims
      rw [scaleIndex_eq_sum, Finset.sum_eq_single d, if_pos hd, Function.update_self, Nat.one_mul]
      · intro k _ hne
        rw [Function.update_of_ne hne, Nat.zero_mul, ite_self]
      · intro hmem
        exact absurd (Finset.mem_range.mpr (hde.trans he)) hmem
    have hlt : maskedProd mask.testBit imd.dims (d + 1) imd.ndims <
        maskedProd mask.testBit imd.paddedDims (d + 1) imd.ndims := by
      refine Finset.prod_lt_prod (fun k hk => ?_) (fun k hk => ?_)
        ⟨e, Finset.mem_Ico.mpr ⟨hde, he⟩, by rwa [if_pos hme, if_pos hme]⟩
      · split_ifs
        · exact hdims k (Finset.mem_Ico.mp hk).2
        · exact Nat.one_pos
      · split_ifs
        · exact hi.dims_le k (Finset.mem_Ico.mp hk).2
        · exact le_rfl
    have heq := hindex _ hbox hpos
    rw [hsum, hsum] at heq
    omega
  · intro hpad pos _ hpos
    rw [scaleIndex_eq_sum, scaleIndex_eq_sum]
    refine Finset.sum_congr rfl fun d hd => ?_
    have hd : d < imd.ndims := Finset.mem_range.mp hd
    split_ifs with hmd
    · by_cases hone : imd.dims d = 1
      · have h0 : pos d = 0 := by
          have hlt := hpos d hd
          omega
        rw [h0, Nat.zero_mul, Nat.zero_mul]
      · refine congrArg _ (Finset.prod_congr rfl fun e he => ?_)
        obtain ⟨hde, he⟩ := Finset.mem_Ico.mp he
        split_ifs with hme
        · have hle := hi.dims_le e he
          by_contra hne
          exact hone (hpad d e hde he hmd hme (by omega))
        · rfl
    · rfl

end Accepted

/-- The JIT reorder applies the scales of the reference reorder if and only if it applies none, or no
dimension with padding follows a masked one. -/
theorem selectsScales_iff {imd omd : MemoryDesc} {scales : OutputScales} {p : Prb} (hin : imd.Built)
    (hout : omd.Built) (hcons : imd.consistentWith omd = true) (h : prbInit imd omd scales = .ok p) :
    (p.scaleType ≠ .none → SelectsScales imd omd scales.mask p) ↔
      scales.hasDefaultValues = true ∨ NoPaddingAfterMasked imd scales.mask := by
  have hacc := prbInit_accepted h
  have hndims : omd.ndims = imd.ndims := by
    simp only [MemoryDesc.consistentWith, decide_eq_true_eq] at hcons
    exact hcons.1.symm
  rw [hacc.scaleType_ne_none]
  cases hdef : scales.hasDefaultValues with
  | true => simp
  | false =>
    have hiff := hacc.visits_iff hin.wellFormed hout.wellFormed hdef hndims
      (hin.mutuallyDivisible hout)
    rw [hacc.scaleIndex_eq_iff hin.wellFormed] at hiff
    constructor
    · intro hselects
      exact Or.inr (hiff.mp (hselects rfl).visits)
    · rintro (hfalse | hpad) _
      · cases hfalse
      · exact {
          visits := hiff.mpr hpad
          passes := fun hq => (prbPasses_sameOffsets hq).loopVisits_perm
          reference := by
            rintro scales' nthr stores hmask hnthr happl hexec
            rw [← hmask] at hexec ⊢
            exact Reference.execute_scaledStores hin hcons hacc.isZero_input happl hnthr hexec }

theorem selectsScales_iff_aBCde16b16c :
    ∃ imd omd p,
      memoryDescInitByTag 5 (fun d => [2, 32, 16, 1, 1].getD d 0) .f32 .abcde = .ok imd ∧
      memoryDescInitByTag 5 (fun d => [2, 32, 16, 1, 1].getD d 0) .f32 .aBCde16b16c = .ok omd ∧
      prbInit imd omd ⟨false, 3⟩ = .ok p ∧
      ((p.scaleType ≠ .none → SelectsScales imd omd 3 p) ↔ false = true ∨ NoPaddingAfterMasked imd 3) := by
  have hall : (memoryDescInitByTag 5 (fun d => [2, 32, 16, 1, 1].getD d 0) .f32 .abcde).toOption.any
      (fun imd => (memoryDescInitByTag 5 (fun d => [2, 32, 16, 1, 1].getD d 0) .f32
        .aBCde16b16c).toOption.any fun omd =>
          decide (imd.formatKind = .blocked ∧ omd.formatKind = .blocked) && imd.consistentWith omd &&
            (prbInit imd omd ⟨false, 3⟩).toOption.any fun _ => true) = true := by
    decide +kernel
  obtain ⟨imd, himd, hrest⟩ := Checks.exists_ok_of_any hall
  obtain ⟨omd, homd, hrest⟩ := Checks.exists_ok_of_any hrest
  rw [Bool.and_eq_true, Bool.and_eq_true, decide_eq_true_eq] at hrest
  obtain ⟨⟨⟨hik, hok⟩, hcons⟩, hinit⟩ := hrest
  obtain ⟨p, hp, -⟩ := Checks.exists_ok_of_any hinit
  have hin : imd.Built := .whole (Or.inl ⟨_, _, _, _, himd, hik⟩)
  have hout : omd.Built := .whole (Or.inl ⟨_, _, _, _, homd, hok⟩)
  exact ⟨imd, omd, p, himd, homd, hp, selectsScales_iff hin hout hcons hp⟩

/-- Two groups of twenty channels in blocks of sixteen, with one scale for each channel. The scale stride
of the groups is thirty-two. -/
theorem selectsScales_fails :
    ∃ imd omd p,
      memoryDescInitByTag 5 (fun d => [2, 20, 16, 1, 1].getD d 0) .f32 .aBCde16b16c = .ok imd ∧
      memoryDescInitByTag 5 (fun d => [2, 20, 16, 1, 1].getD d 0) .f32 .aBCde16c16b = .ok omd ∧
      prbInit imd omd ⟨false, 3⟩ = .ok p ∧ p.scaleType ≠ .none ∧ ¬ SelectsScales imd omd 3 p := by
  have hall : (memoryDescInitByTag 5 (fun d => [2, 20, 16, 1, 1].getD d 0) .f32
      .aBCde16b16c).toOption.any
      (fun imd => (memoryDescInitByTag 5 (fun d => [2, 20, 16, 1, 1].getD d 0) .f32
        .aBCde16c16b).toOption.any fun omd =>
          decide (imd.formatKind = .blocked ∧ omd.formatKind = .blocked ∧ omd.ndims = imd.ndims ∧
            imd.ndims = 5 ∧ imd.dims 0 = 2 ∧ imd.dims 1 = 20 ∧ imd.paddedDims 1 = 32) &&
            (prbInit imd omd ⟨false, 3⟩).toOption.any fun p => p.scaleType = .many) = true := by
    decide +kernel
  obtain ⟨imd, himd, hrest⟩ := Checks.exists_ok_of_any hall
  obtain ⟨omd, homd, hrest⟩ := Checks.exists_ok_of_any hrest
  rw [Bool.and_eq_true, decide_eq_true_eq] at hrest
  obtain ⟨⟨hik, hok, hndims, h5, h0, h1, h32⟩, hinit⟩ := hrest
  obtain ⟨p, hp, hmany⟩ := Checks.exists_ok_of_any hinit
  rw [decide_eq_true_eq] at hmany
  have hin : imd.Built := .whole (Or.inl ⟨_, _, _, _, himd, hik⟩)
  have hout : omd.Built := .whole (Or.inl ⟨_, _, _, _, homd, hok⟩)
  have hacc := prbInit_accepted hp
  refine ⟨imd, omd, p, himd, homd, hp, hmany ▸ ScaleType.noConfusion, ?_⟩
  intro hselects
  have hindex := (hacc.visits_iff hin.wellFormed hout.wellFormed rfl hndims
    (hin.mutuallyDivisible hout)).mp hselects.visits
  have hpad := (hacc.scaleIndex_eq_iff hin.wellFormed 3).mp hindex
  have hone := hpad 0 1 Nat.one_pos (by omega) (by decide) (by decide) (by omega)
  omega

end MklDnn
