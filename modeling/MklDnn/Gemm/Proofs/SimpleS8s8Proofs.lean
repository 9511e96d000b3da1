import MklDnn.Common.Proofs.UtilsProofs
import MklDnn.Gemm.SimpleS8s8
import MklDnn.Lib.Checks
import MklDnn.Lib.Sums

/-!
# Proofs: the product of signed bytes

The compensation is 128 times the sums of the rows of `A`, however the columns are divided into panels, and so the
product with the shifted bytes is the product with the signed bytes.
-/

open LoopNest Interleaving

namespace MklDnn.SimpleGemm

open PrimitiveHashing (F32)

variable {env : Env} {g : Args}

/-! ## The compensation -/

theorem sumA_eq (g : Args) (n : ℕ) (f : ℕ → ℕ) :
    sumA g ((List.range n).map f) = ∑ l ∈ Finset.range n, (g.a (f l)).signExtend 32 := by
  unfold sumA
  induction n with
  | zero => rfl
  | succ n ih =>
    rw [List.range_succ, List.map_append, List.foldl_append, ih, Finset.sum_range_succ]
    rfl

theorem sumA_range' (g : Args) (start n : ℕ) (f : ℕ → ℕ) :
    sumA g ((List.range' start n).map f) = ∑ l ∈ Finset.range n, (g.a (f (start + l))).signExtend 32 := by
  have hmap : (List.range' start n).map f = (List.range n).map fun l => f (start + l) := by
    rw [List.range'_eq_map_range, List.map_map]
    rfl
  rw [hmap, sumA_eq]

/-- What is added to an element, where every iteration of a loop adds to its own element. -/
theorem sum_adds {m i : ℕ} (hi : i < m) (f : ℕ → BitVec 32) :
    (((List.range m).map fun i => (i, f i)).map fun w => if w.1 = i then w.2 else 0).sum = f i := by
  rw [sum_map_range, Finset.sum_eq_single i]
  · exact if_pos rfl
  · intro j _ hj
    exact if_neg hj
  · intro hnot
    exact absurd (Finset.mem_range.mpr hi) hnot

theorem compensationTerm_eq (h : g.Accepted) (env : Env) (val : BitVec 32) :
    compensationTerm env g val = val * -128 := by
  unfold compensationTerm
  have halpha := h.alpha
  rw [if_neg]
  simp [bne, halpha]

/-- The sum of the row of `op(A)`, times `-128`. -/
theorem compensationCompute_spec (h : g.Accepted) (env : Env) : ∃ adds, compensationCompute env g = some adds ∧
    ∀ i < g.m, (adds.map fun w => if w.1 = i then w.2 else 0).sum =
      (∑ l ∈ Finset.range g.k, (g.opA i l).signExtend 32) * -128 := by
  have hk := h.k_pos
  have hlda := h.lda
  unfold compensationCompute
  by_cases htrans : g.transa = true
  · rw [if_neg (not_not.mpr htrans)]
    refine ⟨_, rfl, ?_⟩
    intro i hi
    rw [sum_adds hi, compensationTerm_eq h, sumA_eq]
    simp only [Args.opA, if_pos htrans]
  · rw [if_pos htrans]
    rw [if_neg htrans] at hlda
    dsimp only
    have hm := h.m_pos
    set factor := min g.k (env.l2CacheSize / g.lda + 1) with hfactor
    have hpos : 0 < factor := Nat.lt_min.mpr ⟨hk, Nat.succ_pos _⟩
    rw [if_neg (by omega)]
    refine ⟨_, rfl, ?_⟩
    intro i hi
    have hsplit := Nat.div_add_mod' g.k factor
    have hpanels : (((List.range (g.k / factor)).flatMap fun j => (List.range g.m).map fun i =>
        (i, compensationTerm env g (sumA g ((List.range factor).map fun jb =>
          i + j * factor * g.lda + jb * g.lda)))).map fun w => if w.1 = i then w.2 else 0).sum =
        (∑ l ∈ Finset.range (g.k / factor * factor), (g.opA i l).signExtend 32) * -128 := by
      rw [sum_map_flatMap, sum_range_blocks, Finset.sum_mul]
      apply Finset.sum_congr rfl
      intro j _
      rw [sum_adds hi, compensationTerm_eq h, sumA_eq]
      simp only [Args.opA, if_neg htrans, Nat.add_mul, Nat.add_assoc]
    have htile : (((List.range g.m).map fun i => (i, compensationTerm env g (sumA g
        ((List.range' (g.k / factor * factor) (g.k - g.k / factor * factor)).map fun j => i + j * g.lda)))).map
          fun w => if w.1 = i then w.2 else 0).sum =
        (∑ l ∈ Finset.range (g.k % factor), (g.opA i (g.k / factor * factor + l)).signExtend 32) * -128 := by
      rw [sum_adds hi, compensationTerm_eq h, sumA_range', show g.k - g.k / factor * factor = g.k % factor by omega]
      simp only [Args.opA, if_neg htrans]
    have hall : (∑ l ∈ Finset.range g.k, (g.opA i l).signExtend 32) =
        (∑ l ∈ Finset.range (g.k / factor * factor), (g.opA i l).signExtend 32) +
          ∑ l ∈ Finset.range (g.k % factor), (g.opA i (g.k / factor * factor + l)).signExtend 32 := by
      rw [← Finset.sum_range_add, hsplit]
    rw [hall, add_mul, ← hpanels, ← htile]
    split_ifs with htail
    · rw [List.map_append, List.sum_append]
    · have hzero : g.k % factor = 0 := by
        simpa using htail
      rw [hzero] at htile
      rw [htile, Finset.sum_range_zero, zero_mul, add_zero]

theorem compensationInit_eq (h : g.Accepted) (fresh : ℕ → BitVec 32) {i : ℕ} (hi : i < g.m) (j : ℕ) :
    compensationInit g fresh i = if g.rowOffset then 0 else g.offset i j := by
  have hkind := h.offsetC
  unfold compensationInit Args.offset Args.fixOffset Args.colOffset Args.rowOffset
  simp only [List.mem_cons, List.not_mem_nil, or_false] at hkind
  rw [if_pos hi]
  rcases hkind with hc | hc | hc | hc | hc | hc <;> rw [hc] <;> simp
  all_goals
    intro hzero
    exact hzero.symm

/-- The compensation of a row, with the offset of the row. -/
theorem compensation_eq (h : g.Accepted) (env : Env) {adds : List (ℕ × BitVec 32)} {i : ℕ} (hi : i < g.m)
    (hadds : (adds.map fun w => if w.1 = i then w.2 else 0).sum =
      (∑ l ∈ Finset.range g.k, (g.opA i l).signExtend 32) * -128) (j : ℕ) :
    compensation env g adds i = (if g.rowOffset then 0 else g.offset i j) +
      (∑ l ∈ Finset.range g.k, (g.opA i l).signExtend 32) * -128 := by
  unfold compensation
  rw [execAll_add, compensationInit_eq h _ hi j, ← hadds]
  congr 1
  exact ((env.order_perm adds).map _).sum_eq

/-! ## The shift -/

/-- The products of the last column fit an `int`. -/
def Args.Fits (g : Args) : Prop := (g.bCols - 1) * g.ldb < 2 ^ 31

theorem intProduct_of_lt {j ld : ℕ} (hlt : j * ld < 2 ^ 31) : intProduct j ld = (j * ld : ℕ) := by
  unfold intProduct
  rw [← Nat.cast_mul, Int.bmod_def]
  split_ifs <;> omega

theorem toNat_shift (x : BitVec 8) : (BitVec.ofInt 8 (x.toInt + 128)).toNat = x.toInt + 128 := by
  have hlow := BitVec.le_toInt x
  have hhigh := BitVec.toInt_lt (x := x)
  rw [BitVec.toNat_ofInt]
  omega

theorem bRows_mul_bCols (g : Args) : g.bCols * g.bRows = g.k * g.n := by
  unfold Args.bCols Args.bRows
  split_ifs
  · rfl
  · exact Nat.mul_comm _ _

theorem mem_copies {s : ℤ × ℤ} : s ∈ copies g ↔ ∃ j < g.bCols, ∃ i < g.bRows,
    s = (intProduct j g.bRows + i, intProduct j g.ldb + i) := by
  unfold copies
  simp only [List.mem_flatMap, List.mem_range, List.mem_map]
  constructor
  · rintro ⟨j, hj, i, hi, rfl⟩
    exact ⟨j, hj, i, hi, rfl⟩
  · rintro ⟨j, hj, i, hi, rfl⟩
    exact ⟨j, hj, i, hi, rfl⟩

/-- The products of the columns fit an `int`, also those with the smaller leading dimension of the buffer. -/
theorem Args.Fits.intProduct_eq (hfits : g.Fits) (h : g.Accepted) {j : ℕ} (hj : j < g.bCols) :
    intProduct j g.bRows = (j * g.bRows : ℕ) ∧ intProduct j g.ldb = (j * g.ldb : ℕ) := by
  unfold Args.Fits at hfits
  have hldb : j * g.ldb ≤ (g.bCols - 1) * g.ldb := Nat.mul_le_mul_right _ (by omega)
  have hrows : j * g.bRows ≤ j * g.ldb := Nat.mul_le_mul_left _ h.ldb
  exact ⟨intProduct_of_lt (by omega), intProduct_of_lt (by omega)⟩

theorem Args.Fits.insideB (hfits : g.Fits) (h : g.Accepted) : ∀ s ∈ copies g, InsideB g s := by
  intro s hs
  obtain ⟨j, hj, i, hi, rfl⟩ := mem_copies.mp hs
  obtain ⟨hbuffer, hmatrix⟩ := hfits.intProduct_eq h hj
  have hend : j * g.bRows + g.bRows ≤ g.k * g.n := by
    rw [← bRows_mul_bCols, ← Nat.succ_mul]
    exact Nat.mul_le_mul_right _ hj
  have hlast : j * g.ldb ≤ (g.bCols - 1) * g.ldb := Nat.mul_le_mul_right _ (by omega)
  unfold InsideB
  dsimp only
  rw [hbuffer, hmatrix]
  omega

/-- The first product that does not fit is negative. -/
theorem not_insideB_of_not_fits (h : g.Accepted) (hfits : ¬ g.Fits) : ∃ s ∈ copies g, ¬ InsideB g s := by
  have hcols : 0 < g.bCols := by
    unfold Args.bCols
    split_ifs
    · exact h.k_pos
    · exact h.n_pos
  have hrows : 0 < g.bRows := by
    unfold Args.bRows
    split_ifs
    · exact h.n_pos
    · exact h.k_pos
  have hlt := h.ldb_lt
  unfold Args.Fits at hfits
  have hex : ∃ j, 2 ^ 31 ≤ j * g.ldb := ⟨g.bCols - 1, Nat.not_lt.mp hfits⟩
  obtain ⟨j, hj, hmin⟩ : ∃ j, 2 ^ 31 ≤ j * g.ldb ∧ ∀ i < j, ¬ 2 ^ 31 ≤ i * g.ldb :=
    ⟨Nat.find hex, Nat.find_spec hex, fun _ hi => Nat.find_min hex hi⟩
  have hjcols : j < g.bCols := by
    by_contra hge
    exact hmin (g.bCols - 1) (by omega) (Nat.not_lt.mp hfits)
  have hnext : j * g.ldb < 2 ^ 32 := by
    have hj0 : j ≠ 0 := by
      rintro rfl
      rw [Nat.zero_mul] at hj
      omega
    have hprev := hmin (j - 1) (by omega)
    have hstep : j * g.ldb = (j - 1) * g.ldb + g.ldb := by
      rw [← Nat.succ_mul]
      congr 1
      omega
    omega
  refine ⟨_, mem_copies.mpr ⟨j, hjcols, 0, hrows, rfl⟩, ?_⟩
  rintro ⟨-, hlow, -⟩
  have hneg : intProduct j g.ldb = (j * g.ldb : ℕ) - 2 ^ 32 := by
    unfold intProduct
    rw [← Nat.cast_mul, Int.bmod_def]
    split_ifs <;> omega
  rw [hneg] at hlow
  omega

/-- The buffer holds the shifted bytes, column by column. -/
theorem copyAndShiftB_spec (h : g.Accepted) (hfits : g.Fits) (fresh : ℕ → BitVec 8) :
    ∃ bU8, copyAndShiftB g fresh = some bU8 ∧ ∀ j < g.bCols, ∀ i < g.bRows,
      ((bU8 (i + j * g.bRows)).toNat : ℤ) = (g.b (i + j * g.ldb)).toInt + 128 := by
  unfold copyAndShiftB
  rw [if_pos (hfits.insideB h)]
  refine ⟨_, rfl, ?_⟩
  intro j hj i hi
  rw [← toNat_shift, applyWrites_of_mem (v := BitVec.ofInt 8 ((g.b (i + j * g.ldb)).toInt + 128))]
  · apply Consistent.of_map
    intro s hs s' hs' heq
    obtain ⟨j, hj, i, hi, rfl⟩ := mem_copies.mp hs
    obtain ⟨j', hj', i', hi', rfl⟩ := mem_copies.mp hs'
    dsimp only at heq ⊢
    rw [(hfits.intProduct_eq h hj).1, (hfits.intProduct_eq h hj').1, ← Nat.cast_add, ← Nat.cast_add,
      Int.toNat_natCast, Int.toNat_natCast, Nat.add_comm, Nat.add_comm (j' * g.bRows)] at heq
    obtain ⟨rfl, rfl⟩ := add_mul_inj hi hi' heq
    rfl
  · rw [List.mem_map]
    refine ⟨_, mem_copies.mpr ⟨j, hj, i, hi, rfl⟩, ?_⟩
    obtain ⟨hbuffer, hmatrix⟩ := hfits.intProduct_eq h hj
    dsimp only
    rw [hbuffer, hmatrix, ← Nat.cast_add, ← Nat.cast_add, Int.toNat_natCast, Int.toNat_natCast, Nat.add_comm,
      Nat.add_comm (j * g.ldb)]

theorem copyAndShiftB_of_not_fits (h : g.Accepted) (hfits : ¬ g.Fits) (fresh : ℕ → BitVec 8) :
    copyAndShiftB g fresh = none := by
  obtain ⟨s, hs, hnot⟩ := not_insideB_of_not_fits h hfits
  unfold copyAndShiftB
  exact if_neg fun hall => hnot (hall s hs)

/-! ## The product -/

variable {bU8 : ℕ → BitVec 8} {comp : ℕ → BitVec 32}

theorem shifted_accepted (h : g.Accepted) (bU8 : ℕ → BitVec 8) (comp : ℕ → BitVec 32) : (shifted g bU8 comp).Accepted where
  transA := h.transA
  transB := h.transB
  offsetC := by
    show 'C' ∈ ['F', 'f', 'C', 'c', 'R', 'r']
    decide
  m_pos := h.m_pos
  n_pos := h.n_pos
  k_pos := h.k_pos
  lda := h.lda
  ldb := Nat.le_refl _
  ldb_lt := Nat.lt_of_le_of_lt h.ldb h.ldb_lt
  ldc := h.ldc
  alpha := h.alpha
  beta := h.beta

/-- The elements of the shifted matrix. -/
theorem opB_shifted (hbytes : ∀ j < g.bCols, ∀ i < g.bRows,
      ((bU8 (i + j * g.bRows)).toNat : ℤ) = (g.b (i + j * g.ldb)).toInt + 128) {l j : ℕ} (hl : l < g.k) (hj : j < g.n) :
    u8 ((shifted g bU8 comp).opB l j) = s8 (g.opB l j) + 128 := by
  unfold Args.bCols Args.bRows at hbytes
  unfold u8 s8 Args.opB
  show (((if g.transb then bU8 (j + l * g.bRows) else bU8 (l + j * g.bRows)).toNat : ℕ) : ℤ) = _
  unfold Args.bRows
  by_cases htrans : g.transb = true
  · simp only [if_pos htrans] at hbytes ⊢
    exact hbytes l hl j hj
  · simp only [if_neg htrans] at hbytes ⊢
    exact hbytes j hj l hl

/-- The product with the shifted bytes and the compensation, but for a row of offsets. -/
theorem result_shifted (hbytes : ∀ j < g.bCols, ∀ i < g.bRows,
      ((bU8 (i + j * g.bRows)).toNat : ℤ) = (g.b (i + j * g.ldb)).toInt + 128) {i j : ℕ} (hj : j < g.n)
    (hcomp : comp i = (if g.rowOffset then 0 else g.offset i j) +
      (∑ l ∈ Finset.range g.k, (g.opA i l).signExtend 32) * -128) :
    (shifted g bU8 comp).result u8 i j + (if g.rowOffset then g.oc j else 0) = g.result s8 i j := by
  have hsum : (∑ l ∈ Finset.range g.k,
      BitVec.ofInt 32 ((g.opA i l).toInt * u8 ((shifted g bU8 comp).opB l j))) =
        (∑ l ∈ Finset.range g.k, BitVec.ofInt 32 ((g.opA i l).toInt * s8 (g.opB l j))) +
          (∑ l ∈ Finset.range g.k, (g.opA i l).signExtend 32) * 128 := by
    rw [Finset.sum_mul, ← Finset.sum_add_distrib]
    apply Finset.sum_congr rfl
    intro l hl
    rw [opB_shifted hbytes (Finset.mem_range.mp hl) hj, mul_add, BitVec.ofInt_add, BitVec.ofInt_mul _ 128]
    rfl
  have hoffset : (shifted g bU8 comp).offset i j = comp i := by
    unfold Args.offset Args.rowOffset Args.colOffset shifted
    simp
  have hrow : (if g.rowOffset then 0 else g.offset i j) + (if g.rowOffset then g.oc j else 0) = g.offset i j := by
    unfold Args.offset
    split_ifs <;> simp
  unfold Args.result
  show (∑ l ∈ Finset.range g.k, BitVec.ofInt 32 ((g.opA i l).toInt * u8 ((shifted g bU8 comp).opB l j))) +
    (if g.beta == F32.zero then 0 else g.c (i + j * g.ldc)) + (shifted g bU8 comp).offset i j + _ = _
  rw [hsum, hoffset, hcomp]
  generalize (128 : BitVec 32) = x
  generalize (if g.rowOffset then 0 else g.offset i j) = column at hrow ⊢
  generalize (if g.rowOffset then g.oc j else 0) = row at hrow ⊢
  rw [← hrow]
  ring

/-- The additions of a row of offsets. -/
theorem sum_rowAdds (h : g.Accepted) {i j : ℕ} (hi : i < g.m) (hj : j < g.n) :
    ((rowAdds g).map fun w => if w.1 = i + j * g.ldc then w.2 else 0).sum = g.oc j := by
  have hldc := h.ldc
  unfold rowAdds
  rw [sum_map_flatMap, Finset.sum_eq_single i]
  · rw [sum_map_range, Finset.sum_eq_single j]
    · exact if_pos rfl
    · intro j' _ hne
      refine if_neg fun heq => hne ?_
      exact (add_mul_inj (hi.trans_le hldc) (hi.trans_le hldc) heq).2
    · intro hnot
      exact absurd (Finset.mem_range.mpr hj) hnot
  · intro i' hi' hne
    rw [sum_map_range]
    apply Finset.sum_eq_zero
    intro j' _
    refine if_neg fun heq => hne ?_
    exact (add_mul_inj ((Finset.mem_range.mp hi').trans_le hldc) (hi.trans_le hldc) heq).1
  · intro hnot
    exact absurd (Finset.mem_range.mpr hi) hnot

/-- The row of offsets is added to the elements of the matrix. -/
theorem execAll_rowAdds (h : g.Accepted) (c : ℕ → BitVec 32) :
    (∀ i < g.m, ∀ j < g.n, (if g.rowOffset then execAll ((rowAdds g).map fun w => Assign.add w.1 w.2) c else c)
      (i + j * g.ldc) = c (i + j * g.ldc) + if g.rowOffset then g.oc j else 0) ∧
    ∀ x, (∀ i < g.m, ∀ j < g.n, x ≠ i + j * g.ldc) →
      (if g.rowOffset then execAll ((rowAdds g).map fun w => Assign.add w.1 w.2) c else c) x = c x := by
  by_cases hrow : g.rowOffset = true
  · constructor
    · intro i hi j hj
      rw [if_pos hrow, if_pos hrow, execAll_add, sum_rowAdds h hi hj]
    · intro x hx
      rw [if_pos hrow]
      apply execAll_of_ne
      intro e he
      obtain ⟨w, hw, rfl⟩ := List.mem_map.mp he
      obtain ⟨i, hi, hw⟩ := List.mem_flatMap.mp hw
      obtain ⟨j, hj, rfl⟩ := List.mem_map.mp hw
      exact (hx i (List.mem_range.mp hi) j (List.mem_range.mp hj)).symm
  · constructor
    · intro i _ j _
      rw [if_neg hrow, if_neg hrow, add_zero]
    · intro x _
      rw [if_neg hrow]

/-- The result of the function, where it gets to the product. -/
theorem simpleGemmS8s8s32_eq (env : Env) (h : g.Accepted) (hfits : g.Fits) (hoa : g.oa = 0) (hob : g.ob = 0)
    (hbU8 : env.bU8Null = false) (hcompensation : env.compensationNull = false) : ∃ adds bU8,
      (∀ i < g.m, (adds.map fun w => if w.1 = i then w.2 else 0).sum =
        (∑ l ∈ Finset.range g.k, (g.opA i l).signExtend 32) * -128) ∧
      (∀ j < g.bCols, ∀ i < g.bRows, ((bU8 (i + j * g.bRows)).toNat : ℤ) = (g.b (i + j * g.ldb)).toInt + 128) ∧
      simpleGemmS8s8s32 env g = some (.ok (), if g.rowOffset then execAll ((rowAdds g).map fun w => Assign.add w.1 w.2)
        (env.gemmS8x8s32 (shifted g bU8 (compensation env g adds))).2
      else (env.gemmS8x8s32 (shifted g bU8 (compensation env g adds))).2) := by
  obtain ⟨adds, hadds, hsum⟩ := compensationCompute_spec h env
  obtain ⟨bU8, hcopy, hbytes⟩ := copyAndShiftB_spec h hfits env.freshBytes
  refine ⟨adds, bU8, hsum, hbytes, ?_⟩
  unfold simpleGemmS8s8s32
  rw [if_neg (by simp [hoa, hob]), if_neg (by simp [hbU8, hcompensation]), hadds, hcopy]
  rfl

/-- The product with the signed bytes, if nothing fails. -/
theorem simpleGemmS8s8s32_spec (h : g.Accepted) (hmul : env.Multiplies) (hfits : g.Fits) (hoa : g.oa = 0)
    (hob : g.ob = 0) (hbU8 : env.bU8Null = false) (hcompensation : env.compensationNull = false)
    (hgemm : env.gemmFailure = none) : ∃ c, simpleGemmS8s8s32 env g = some (.ok (), c) ∧ g.IsResult s8 c := by
  obtain ⟨adds, bU8, hsum, hbytes, heq⟩ := simpleGemmS8s8s32_eq env h hfits hoa hob hbU8 hcompensation
  refine ⟨_, heq, ?_⟩
  obtain ⟨hvalue, hframe⟩ := hmul _ (shifted_accepted h bU8 (compensation env g adds))
  have hcall : (env.gemmS8x8s32 (shifted g bU8 (compensation env g adds))).2 =
      env.gemm (shifted g bU8 (compensation env g adds)) := by
    unfold Env.gemmS8x8s32
    rw [hgemm]
  obtain ⟨hrow, hother⟩ := execAll_rowAdds h (env.gemm (shifted g bU8 (compensation env g adds)))
  rw [hcall]
  constructor
  · intro i hi j hj
    have hin := hvalue i hi j hj
    have hres := result_shifted hbytes hj (compensation_eq h env hi (hsum i hi) j)
    rw [hrow i hi j hj, ← hres, ← hin]
    rfl
  · intro x hx
    rw [hother x hx]
    exact hframe x hx

/-- The product with the unsigned bytes by its definition. -/
def plainGemm (g : Args) (x : ℕ) : BitVec 32 :=
  if x % g.ldc < g.m ∧ x / g.ldc < g.n then g.result u8 (x % g.ldc) (x / g.ldc) else g.c x

/-- Nothing fails but the GEMM for unsigned bytes, if it does. -/
def plainEnv (gemmFailure : Option (Status × (ℕ → BitVec 32))) : Env where
  l2CacheSize := 2 ^ 18
  order := id
  order_perm := List.Perm.refl
  bU8Null := false
  compensationNull := false
  freshBytes := fun _ => 0
  freshInts := fun _ => 0
  scale := fun _ val => val
  gemm := plainGemm
  gemmFailure := gemmFailure

theorem plainEnv_multiplies (gemmFailure : Option (Status × (ℕ → BitVec 32))) : (plainEnv gemmFailure).Multiplies := by
  intro g h
  have hldc := h.ldc
  constructor
  · intro i hi j hj
    show plainGemm g _ = _
    unfold plainGemm
    rw [Nat.add_mul_mod_self_right, Nat.mod_eq_of_lt (hi.trans_le hldc), Nat.add_mul_div_right _ _ (by omega),
      Nat.div_eq_of_lt (hi.trans_le hldc), Nat.zero_add, if_pos ⟨hi, hj⟩]
  · intro x hx
    show plainGemm g _ = _
    unfold plainGemm
    refine if_neg fun hin => hx _ hin.1 _ hin.2 ?_
    exact (Nat.mod_add_div' x g.ldc).symm

/-- One element: `2 * -3 + 7` -/
def single : Args :=
  ⟨'N', 'N', 'F', 1, 1, 1, F32.one, fun _ => 2, 1, 0, fun _ => -3, 1, 0, F32.zero, fun _ => 0, 1, fun _ => 7⟩

theorem single_accepted : single.Accepted :=
  ⟨by decide, by decide, by decide, by decide, by decide, by decide, by decide, by decide, by decide, by decide,
    by decide, by decide⟩

end MklDnn.SimpleGemm
