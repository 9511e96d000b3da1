import MklDnn.Reorder.Proofs.ApplicabilityProofs
import MklDnn.Reorder.Proofs.SimpleProofs

/-!
# Proofs: the direct copies and the reference

Both the copies and the reference are nests of loops over pairs of offsets that differ only in the loops
over the copied part of the tensor. These can be cancelled down to the question whether the strides of the
tensor are those of nested loops.
-/

open LoopNest Offsets

namespace MklDnn

/-! ## Moves as nests of loops -/

section Moves

/-- The nest that visits one offset only. -/
def point {M : Type*} (c : M) : Offsets M := ofList [()] fun _ => c

theorem visits_point {M : Type*} (c : M) : (point c).visits ≠ 0 := by
  rw [point, visits_ofList]
  exact Multiset.singleton_ne_zero c

theorem ofList_add {α M : Type*} [AddCommMonoid M] (l : List α) (c : M) (f : α → M) :
    ofList l (fun x => c + f x) = point c * ofList l f := by
  rw [point, ← ofList_flatMap [()] l (fun _ x => x) (fun x => c + f x) (fun _ => c) f fun _ _ _ _ => rfl]
  simp

/-- The same offset in the output and in the input. -/
def diagonal : ℤ →+ ℤ × ℤ := (AddMonoidHom.id ℤ).prod (AddMonoidHom.id ℤ)

@[simp] theorem diagonal_apply (x : ℤ) : diagonal x = (x, x) := rfl

/-- Nests with the same outer loops that copy the same relative offsets. -/
theorem mul_map_diagonal_inj {A : Offsets (ℤ × ℤ)} (hA : A.visits ≠ 0) {B C : Offsets ℤ} :
    A * map diagonal B = A * map diagonal C ↔ B = C := by
  refine ⟨fun h => ?_, fun h => by rw [h]⟩
  have hmap := mul_left_cancel_of_ne hA h
  ext1
  have hinj : Function.Injective diagonal := fun x y hxy => congrArg Prod.fst hxy
  exact Multiset.map_injective hinj (congrArg visits hmap)

/-- The moves of the reference reorder. -/
def referenceMoves (inputD outputD : MemoryDesc) : List (ℤ × ℤ) :=
  (List.range (inputD.nelems false)).map fun e => (outputD.offL e false, inputD.offL e false)

theorem skipBits_zero (bit : Bool) : Reference.skipBits bit 0 = (0, 0) := by
  rw [Reference.skipBits]
  simp

/-- Without a mask the reference stores every element once. -/
theorem Reference.execute_moves (inputD outputD : MemoryDesc) {nthr : ℕ} (hnthr : 0 < nthr) :
    ∃ stores, Reference.execute inputD outputD 0 nthr = some stores ∧
      stores.map ScaledStore.move = referenceMoves inputD outputD := by
  unfold Reference.execute
  simp only [skipBits_zero, volume_zero, Nat.div_one]
  rw [if_neg (by omega)]
  refine ⟨_, rfl, ?_⟩
  rw [parallelNd_eq hnthr, List.map_map, List.map_map, referenceMoves]
  have hprod : [1, 1, inputD.nelems false].prod = inputD.nelems false := by simp
  rw [hprod]
  refine List.map_congr_left fun e he => ?_
  have he : e < inputD.nelems false := List.mem_range.mp he
  simp [ScaledStore.move, Nat.mod_one, Nat.mod_eq_of_lt he]

variable {inputD outputD : MemoryDesc}

/-- The moves of a copy to and from consecutive offsets. -/
theorem ofList_copyMoves (n : ℕ) :
    ofList (copyMoves inputD outputD n) id =
      point (outputD.offset0, inputD.offset0) * map diagonal (strided n 1) := by
  rw [copyMoves, ofList_map, strided_unit, map_ofList, ← ofList_add]
  rfl

theorem lt_of_mem_copyMoves {n : ℕ} {x : ℤ × ℤ} (hx : x ∈ copyMoves inputD outputD n) :
    x.2 < inputD.offset0 + n := by
  obtain ⟨e, he, rfl⟩ := List.mem_map.mp hx
  have he : e < n := List.mem_range.mp he
  show inputD.offset0 + (e : ℤ) < inputD.offset0 + n
  omega

/-- The outer loop over dimension `0`. -/
def rowLoop (inputD outputD : MemoryDesc) (N : ℕ) : Offsets (ℤ × ℤ) :=
  ofList (List.range N) fun n : ℕ =>
    (outputD.blocking.strides 0 * (n : ℤ), inputD.blocking.strides 0 * (n : ℤ))

/-- The moves of a copy row by row. -/
theorem ofList_rowMoves (N : ℕ) {M : ℕ} (hM : 0 < M) :
    ofList (DirectCopyExceptDim0.rowMoves inputD outputD N M) id =
      point (outputD.offset0, inputD.offset0) * rowLoop inputD outputD N *
        map diagonal (strided M 1) := by
  rw [DirectCopyExceptDim0.rowMoves, ofList_map, strided_unit, map_ofList, mul_assoc, rowLoop,
    ← ofList_range_mul N M (f := fun l : ℕ =>
      (outputD.blocking.strides 0 * ((l / M : ℕ) : ℤ) + ((l % M : ℕ) : ℤ),
        inputD.blocking.strides 0 * ((l / M : ℕ) : ℤ) + ((l % M : ℕ) : ℤ))) ?_, ← ofList_add]
  · rfl
  · intro q _ r hr
    have hdiv : (q * M + r) / M = q := by
      rw [Nat.mul_comm, Nat.mul_add_div hM, Nat.div_eq_of_lt hr, Nat.add_zero]
    have hmod : (q * M + r) % M = r := by
      rw [Nat.mul_comm, Nat.mul_add_mod, Nat.mod_eq_of_lt hr]
    rw [hdiv, hmod]
    rfl

end Moves

section Reference

variable {inputD outputD : MemoryDesc} {dimStart : ℕ} (hin : BlockedLayout inputD)
  (hout : BlockedLayout outputD) (hndims : inputD.ndims = outputD.ndims)
  (hinner : inputD.blocking.inner = outputD.blocking.inner)
  (hstrides : ∀ d < inputD.ndims, dimStart ≤ d → inputD.blocking.strides d = outputD.blocking.strides d)
  (hds : dimStart ≤ inputD.ndims) (hdims : ∀ d < inputD.ndims, inputD.dims d = outputD.dims d)
  (hone : ∀ d < dimStart, innerBlocks inputD.blocking.inner d = 1)
  (hpad : ∀ d < inputD.ndims, dimStart ≤ d →
    inputD.dims d = inputD.outerBlocks d * innerBlocks inputD.blocking.inner d)

include hin hout hndims hinner hstrides hds hdims hone hpad

/-- The moves of the reference: loops over the first dimensions around the loops over the rest. -/
theorem ofList_referenceMoves :
    ofList (referenceMoves inputD outputD) id =
      point (outputD.offset0, inputD.offset0) *
        (∏ d ∈ Finset.range dimStart, ofList (List.range (inputD.dims d)) fun x =>
          (outputD.blocking.strides d * (x : ℤ), inputD.blocking.strides d * (x : ℤ))) *
        map diagonal (nest (inputD.loops dimStart)) := by
  have hnelems : inputD.nelems false = volume inputD.dims inputD.ndims := by
    have hpos := hin.ndims_pos
    simp [MemoryDesc.nelems, MemoryDesc.isZero]
    omega
  have houtL : ValidInner outputD.ndims outputD.blocking.inner := hout.inner
  have hoff : ∀ l, (outputD.offL l false, inputD.offL l false) =
      (outputD.offset0, inputD.offset0) + ∑ d ∈ Finset.range inputD.ndims,
        (outputD.dimOff d (rowMajor inputD.dims inputD.ndims l d),
          inputD.dimOff d (rowMajor inputD.dims inputD.ndims l d)) := by
    intro l
    have hpos : rowMajor outputD.dims outputD.ndims l = rowMajor inputD.dims inputD.ndims l := by
      rw [← hndims]
      exact rowMajor_congr (fun d hd => (hdims d hd).symm) l
    rw [MemoryDesc.offL, MemoryDesc.offL, if_neg (by decide), if_neg (by decide), offLPos_eq_rowMajor,
      offLPos_eq_rowMajor, hpos, MemoryDesc.offV_unpadded hout.paddedOffsets,
      MemoryDesc.offV_unpadded hin.paddedOffsets, MemoryDesc.offV_padded hout.inner,
      MemoryDesc.offV_padded hin.inner, ← hndims, Prod.ext_iff]
    simp [Prod.fst_sum, Prod.snd_sum]
  rw [referenceMoves, ofList_map, hnelems]
  simp only [id_eq, hoff]
  rw [ofList_add, ← ofList_map (List.range (volume inputD.dims inputD.ndims))
      (rowMajor inputD.dims inputD.ndims) (fun p => ∑ d ∈ Finset.range inputD.ndims,
        (outputD.dimOff d (p d), inputD.dimOff d (p d))), ← box_eq_map_rowMajor,
    ofList_box inputD.dims inputD.ndims fun d x => (outputD.dimOff d x, inputD.dimOff d x),
    ← Finset.prod_range_mul_prod_Ico _ hds, mul_assoc]
  congr 2
  · refine Finset.prod_congr rfl fun d hd => ofList_congr fun x _ => ?_
    have h1 := hone d (Finset.mem_range.mp hd)
    have hzero : innerOff inputD.blocking.inner d x = 0 := by
      rw [← innerOff_mod, h1, Nat.mod_one, innerOff_zero]
    simp [MemoryDesc.dimOff, ← hinner, h1, hzero, mul_comm]
  · rw [← prod_ofList_dimOff hin.inner hds hone hpad, Finset.prod_Ico_eq_prod_range,
      Finset.prod_Ico_eq_prod_range, map_prod_range]
    refine Finset.prod_congr rfl fun i hi => ?_
    have hi : dimStart + i < inputD.ndims := by
      have := Finset.mem_range.mp hi
      omega
    rw [map_ofList]
    refine ofList_congr fun x _ => ?_
    simp [MemoryDesc.dimOff, ← hinner, hstrides _ hi (Nat.le_add_right _ _)]

end Reference

/-! ## When the direct copies agree with the reference -/

/-- `direct_copy` makes the moves of the reference reorder, each as often as that does. -/
def DirectCopy.AgreesWithReference (inputD outputD : MemoryDesc) (alphaIsOne betaIsZero : Bool)
    (nthr : ℕ) : Prop :=
  ∃ stores, Reference.execute inputD outputD 0 nthr = some stores ∧
    ((DirectCopy.execute inputD outputD alphaIsOne betaIsZero nthr).map ElemStore.move).Perm
      (stores.map Reference.ScaledStore.move)

/-- `direct_copy_except_dim_0` terminates without dividing by zero and makes the moves of the reference
reorder, each as often as that does. -/
def DirectCopyExceptDim0.AgreesWithReference (inputD outputD : MemoryDesc) (alphaIsOne betaIsZero : Bool)
    (nthr : ℕ) : Prop :=
  ∃ fuel copies stores,
    (∀ fuel', fuel ≤ fuel' →
      DirectCopyExceptDim0.execute inputD outputD alphaIsOne betaIsZero nthr fuel' = some copies) ∧
    Reference.execute inputD outputD 0 nthr = some stores ∧
    (copies.map ElemStore.move).Perm (stores.map Reference.ScaledStore.move)

section Agree

variable {inputD outputD : MemoryDesc} (hin : inputD.Created) (hout : outputD.Created)
  (attr : Option OutputScales) (alphaIsOne betaIsZero : Bool) {nthr : ℕ} (hnthr : 0 < nthr)

include hnthr in
theorem DirectCopy.agreesWithReference_iff_perm :
    DirectCopy.AgreesWithReference inputD outputD alphaIsOne betaIsZero nthr ↔
      (copyMoves inputD outputD (inputD.nelems false)).Perm (referenceMoves inputD outputD) := by
  obtain ⟨stores, hexec, hmoves⟩ := Reference.execute_moves inputD outputD hnthr
  have hcopy := DirectCopy.execute_moves inputD outputD alphaIsOne betaIsZero hnthr
  constructor
  · rintro ⟨stores', hexec', hperm⟩
    obtain rfl := Option.some.inj (hexec.symm.trans hexec')
    rw [← hmoves]
    exact hcopy.symm.trans hperm
  · intro hperm
    exact ⟨stores, hexec, hcopy.trans (hmoves ▸ hperm)⟩

theorem perm_iff_ofList_eq {l l' : List (ℤ × ℤ)} : l.Perm l' ↔ ofList l id = ofList l' id := by
  rw [ofList_eq_iff, List.map_id, List.map_id]

include hnthr

include hin hout in
theorem DirectCopy.agreesWithReference_iff
    (happ : DirectCopy.isApplicable inputD outputD attr = true) :
    DirectCopy.AgreesWithReference inputD outputD alphaIsOne betaIsZero nthr ↔
      Nestable (inputD.loops 0) := by
  simp only [DirectCopy.isApplicable, Bool.and_eq_true] at happ
  have hsim := MemoryDesc.similarTo_similar happ.1.1.1
  have hinL := hin.blockedLayout hsim.formatKind
  have houtL := hout.blockedLayout (hsim.formatKind_eq ▸ hsim.formatKind)
  rw [DirectCopy.agreesWithReference_iff_perm _ _ hnthr]
  by_cases hzero : ∃ d < inputD.ndims, inputD.dims d = 0
  · -- no element, and a loop without iterations
    obtain ⟨d, hd, hd0⟩ := hzero
    have hnone : inputD.nelems false = 0 := by
      rw [hinL.nelems_eq]
      exact volume_eq_zero.mpr ⟨d, hd, hd0⟩
    have houter : inputD.outerBlocks d = 0 := by
      rw [MemoryDesc.outerBlocks, hinL.paddedDims d hd, hd0, rndUp_div (hinL.innerBlocks_pos d),
        divUp_zero (hinL.innerBlocks_pos d)]
    refine iff_of_true ?_ (Or.inl ⟨(inputD.outerBlocks d, inputD.blocking.strides d), ?_, houter⟩)
    · rw [copyMoves, referenceMoves, hnone]
      exact List.Perm.refl _
    · rw [MemoryDesc.loops, List.mem_append, List.mem_map]
      exact Or.inl ⟨d, List.mem_range.mpr hd, by rw [Nat.zero_add]⟩
  · have hpos : ∀ d < inputD.ndims, 0 < inputD.dims d := fun d hd =>
      Nat.pos_of_ne_zero fun h0 => hzero ⟨d, hd, h0⟩
    have hpad := hinL.unpadded_of_isDense hpos happ.1.1.2
    have hone : ∀ d < 0, innerBlocks inputD.blocking.inner d = 1 := fun d hd => absurd hd (by omega)
    have hvol : inputD.nelems false = ((inputD.loops 0).map Prod.fst).prod := by
      rw [prod_loops hinL.inner (Nat.zero_le _) hone fun d hd _ => hpad d hd, hinL.nelems_eq, volume,
        Finset.range_eq_Ico]
    rw [perm_iff_ofList_eq, ofList_copyMoves, ofList_referenceMoves hinL houtL hsim.ndims hsim.inner
      hsim.strides (Nat.zero_le _) (fun d hd => hsim.dims d hd (Nat.zero_le d)) hone
      fun d hd _ => hpad d hd, Finset.range_zero, Finset.prod_empty, mul_one,
      mul_map_diagonal_inj (visits_point _), eq_comm, hvol, nest_eq_strided_iff]

theorem DirectCopyExceptDim0.not_agreesWithReference_of_zero (h0 : inputD.dims 0 = 0) :
    ¬ DirectCopyExceptDim0.AgreesWithReference inputD outputD alphaIsOne betaIsZero nthr := by
  rintro ⟨fuel, copies, _, hcopies, _⟩
  have hN : DirectCopyExceptDim0.toInt (inputD.dims 0) = 0 := by
    rw [h0]
    rfl
  have hnone := DirectCopyExceptDim0.execute_eq_none outputD hN alphaIsOne betaIsZero hnthr fuel
  rw [hcopies fuel le_rfl] at hnone
  cases hnone

/-- A number of rows that does not fit into an `int` is a different number of rows. -/
theorem DirectCopyExceptDim0.not_agreesWithReference_of_le
    (hM : 0 < DirectCopyExceptDim0.nelemsNoDim0 inputD) (h31 : 2 ^ 31 ≤ inputD.dims 0)
    (hnelems : inputD.nelems false = inputD.dims 0 * DirectCopyExceptDim0.nelemsNoDim0 inputD) :
    ¬ DirectCopyExceptDim0.AgreesWithReference inputD outputD alphaIsOne betaIsZero nthr := by
  rintro ⟨fuel, copies, stores, hcopies, hexec, hperm⟩
  obtain ⟨stores', hexec', hmoves⟩ := Reference.execute_moves inputD outputD hnthr
  obtain rfl := Option.some.inj (hexec.symm.trans hexec')
  have hlen := hperm.length_eq
  rw [hmoves, List.length_map, referenceMoves, List.length_map, List.length_range, hnelems] at hlen
  have hpos : 0 < inputD.dims 0 * DirectCopyExceptDim0.nelemsNoDim0 inputD := Nat.mul_pos (by omega) hM
  rcases lt_trichotomy (DirectCopyExceptDim0.toInt (inputD.dims 0)) 0 with hneg | hzero | hposN
  · have hnil := DirectCopyExceptDim0.execute_of_neg outputD nthr rfl hneg hM
      alphaIsOne betaIsZero fuel
    rw [hcopies fuel le_rfl] at hnil
    obtain rfl := Option.some.inj hnil
    rw [List.length_nil] at hlen
    omega
  · have hnone := DirectCopyExceptDim0.execute_eq_none outputD hzero alphaIsOne betaIsZero
      hnthr fuel
    rw [hcopies fuel le_rfl] at hnone
    cases hnone
  · obtain ⟨N, hN⟩ := Int.eq_ofNat_of_zero_le hposN.le
    obtain ⟨copies', hcopies', hrows⟩ := DirectCopyExceptDim0.execute_moves outputD hN rfl
      (by omega) hM alphaIsOne betaIsZero hnthr
    have hc := hcopies (max fuel (N * DirectCopyExceptDim0.nelemsNoDim0 inputD)) (le_max_left _ _)
    rw [hcopies' _ (le_max_right _ _)] at hc
    obtain rfl := Option.some.inj hc
    have hlenN := congrArg List.length hrows
    rw [List.length_map, hlen, DirectCopyExceptDim0.rowMoves, List.length_map, List.length_range] at hlenN
    have hNeq : inputD.dims 0 = N := Nat.eq_of_mul_eq_mul_right hM hlenN
    have hlt : DirectCopyExceptDim0.toInt (inputD.dims 0) < 2 ^ 31 := by
      unfold DirectCopyExceptDim0.toInt
      omega
    omega

theorem DirectCopyExceptDim0.agreesWithReference_iff_perm
    (hM : 0 < DirectCopyExceptDim0.nelemsNoDim0 inputD) (h0 : 0 < inputD.dims 0)
    (h31 : inputD.dims 0 < 2 ^ 31) :
    DirectCopyExceptDim0.AgreesWithReference inputD outputD alphaIsOne betaIsZero nthr ↔
      (DirectCopyExceptDim0.rowMoves inputD outputD (inputD.dims 0)
        (DirectCopyExceptDim0.nelemsNoDim0 inputD)).Perm (referenceMoves inputD outputD) := by
  have hN : DirectCopyExceptDim0.toInt (inputD.dims 0) = inputD.dims 0 := by
    unfold DirectCopyExceptDim0.toInt
    omega
  obtain ⟨stores, hexec, hmoves⟩ := Reference.execute_moves inputD outputD hnthr
  obtain ⟨copies, hcopies, hrows⟩ := DirectCopyExceptDim0.execute_moves outputD hN rfl
    h0 hM alphaIsOne betaIsZero hnthr
  rw [← hrows, ← hmoves]
  constructor
  · rintro ⟨fuel, copies', stores', hcopies', hexec', hperm⟩
    have hc := hcopies' (max fuel (inputD.dims 0 * DirectCopyExceptDim0.nelemsNoDim0 inputD))
      (le_max_left _ _)
    rw [hcopies _ (le_max_right _ _)] at hc
    obtain rfl := Option.some.inj hc
    obtain rfl := Option.some.inj (hexec.symm.trans hexec')
    exact hperm
  · exact fun hperm => ⟨_, copies, stores, hcopies, hexec, hperm⟩

include hin hout

theorem DirectCopyExceptDim0.agreesWithReference_iff (hcons : inputD.consistentWith outputD = true)
    (happ : DirectCopyExceptDim0.isApplicable inputD outputD attr = true) :
    DirectCopyExceptDim0.AgreesWithReference inputD outputD alphaIsOne betaIsZero nthr ↔
      0 < inputD.dims 0 ∧ inputD.dims 0 < 2 ^ 31 ∧ Nestable (inputD.loops 1) := by
  simp only [DirectCopyExceptDim0.isApplicable, Bool.and_eq_true] at happ
  have hsim := MemoryDesc.similarTo_similar happ.1.1.1
  have hinL := hin.blockedLayout hsim.formatKind
  have houtL := hout.blockedLayout (hsim.formatKind_eq ▸ hsim.formatKind)
  have hdims := (of_decide_eq_true hcons).2
  have hM := hinL.nelemsNoDim0_pos happ.1.1.2
  rcases Nat.eq_zero_or_pos (inputD.dims 0) with h0 | h0
  · refine iff_of_false ?_ fun h => absurd h.1 (by omega)
    exact DirectCopyExceptDim0.not_agreesWithReference_of_zero _ _ hnthr h0
  rcases Nat.lt_or_ge (inputD.dims 0) (2 ^ 31) with h31 | h31
  · obtain ⟨hone0, hpad⟩ := hinL.unpadded_of_isDenseNo0 h0 happ.1.1.2
    have hone : ∀ d < 1, innerBlocks inputD.blocking.inner d = 1 := by
      intro d hd
      obtain rfl : d = 0 := by omega
      exact hone0
    have hprod : DirectCopyExceptDim0.nelemsNoDim0 inputD = ((inputD.loops 1).map Prod.fst).prod := by
      rw [prod_loops hinL.inner hinL.ndims_pos hone hpad, hinL.nelemsNoDim0_eq]
    have hA : (point (outputD.offset0, inputD.offset0) *
        rowLoop inputD outputD (inputD.dims 0)).visits ≠ 0 := by
      refine ne_of_apply_ne Multiset.card ?_
      rw [visits_mul, Multiset.card_bind, Multiset.card_zero]
      simp [point, rowLoop, h0.ne']
    rw [DirectCopyExceptDim0.agreesWithReference_iff_perm _ _ hnthr hM h0 h31, perm_iff_ofList_eq,
      ofList_rowMoves _ hM, ofList_referenceMoves hinL houtL hsim.ndims hsim.inner hsim.strides
        hinL.ndims_pos hdims hone hpad, Finset.prod_range_one, ← rowLoop, mul_map_diagonal_inj hA, eq_comm,
      hprod, nest_eq_strided_iff]
    exact ⟨fun h => ⟨h0, h31, h⟩, fun h => h.2.2⟩
  · refine iff_of_false ?_ fun h => absurd h.2.1 (by omega)
    exact DirectCopyExceptDim0.not_agreesWithReference_of_le _ _ hnthr hM h31 hinL.nelems_eq_mul

end Agree

/-- When the direct copies agree with the reference, for descriptors created from strides or a tag. -/
theorem directCopies_agree_iff {inputD outputD : MemoryDesc} (hin : inputD.Created)
    (hout : outputD.Created) (hcons : inputD.consistentWith outputD = true)
    (attr : Option OutputScales) (alphaIsOne betaIsZero : Bool) {nthr : ℕ} (hnthr : 0 < nthr) :
    (DirectCopy.isApplicable inputD outputD attr = true →
      (DirectCopy.AgreesWithReference inputD outputD alphaIsOne betaIsZero nthr ↔
        Nestable (inputD.loops 0))) ∧
    (DirectCopyExceptDim0.isApplicable inputD outputD attr = true →
      (DirectCopyExceptDim0.AgreesWithReference inputD outputD alphaIsOne betaIsZero nthr ↔
        0 < inputD.dims 0 ∧ inputD.dims 0 < 2 ^ 31 ∧ Nestable (inputD.loops 1))) :=
  ⟨DirectCopy.agreesWithReference_iff hin hout attr alphaIsOne betaIsZero hnthr,
    DirectCopyExceptDim0.agreesWithReference_iff hin hout attr alphaIsOne betaIsZero hnthr hcons⟩

/-- A `4 x 2 x 3` tensor, copied as a whole, and into a tensor with gaps between its rows. -/
theorem directCopies_agree_iff_4x2x3 :
    ∃ inputD outputD,
      memoryDescInitByStrides 3 (fun d => [4, 2, 3].getD d 0) .f32 (some fun d => [6, 3, 1].getD d 0) =
        .ok inputD ∧
      memoryDescInitByStrides 3 (fun d => [4, 2, 3].getD d 0) .s8 (some fun d => [8, 3, 1].getD d 0) =
        .ok outputD ∧
      DirectCopy.AgreesWithReference inputD inputD true true 3 ∧
      DirectCopyExceptDim0.AgreesWithReference inputD outputD true true 3 := by
  have hin : memoryDescInitByStrides 3 (fun d => [4, 2, 3].getD d 0) .f32
    (some fun d => [6, 3, 1].getD d 0) = .ok _ := rfl
  have hout : memoryDescInitByStrides 3 (fun d => [4, 2, 3].getD d 0) .s8
    (some fun d => [8, 3, 1].getD d 0) = .ok _ := rfl
  refine ⟨_, _, hin, hout, ?_, ?_⟩
  · refine ((directCopies_agree_iff (Or.inl ⟨_, _, _, _, hin⟩) (Or.inl ⟨_, _, _, _, hin⟩) ?_ none true
      true three_pos).1 ?_).mpr (Or.inr ⟨[(4, 6), (2, 3), (3, 1)], ?_, ?_⟩)
    · decide
    · decide
    · exact List.Perm.refl _
    · exact ⟨rfl, rfl, rfl, trivial⟩
  · refine ((directCopies_agree_iff (Or.inl ⟨_, _, _, _, hin⟩) (Or.inl ⟨_, _, _, _, hout⟩) ?_ none true
      true three_pos).2 ?_).mpr ⟨?_, ?_, Or.inr ⟨[(2, 3), (3, 1)], ?_, ?_⟩⟩
    · decide
    · decide
    · decide
    · decide
    · exact List.Perm.refl _
    · exact ⟨rfl, rfl, trivial⟩

/-- A `2 x 3` tensor whose strides `3` and `2` do not overlap passes for dense, but the reference stores to
the offset seven. Copying zero rows divides by zero. -/
theorem directCopies_disagree :
    (∃ md, memoryDescInitByStrides 2 (fun d => [2, 3].getD d 0) .f32 (some fun d => [3, 2].getD d 0) =
        .ok md ∧
      DirectCopy.isApplicable md md none = true ∧ ¬ DirectCopy.AgreesWithReference md md true true 1) ∧
    ∃ inputD outputD,
      memoryDescInitByStrides 2 (fun d => [0, 4].getD d 0) .f32 (some fun d => [4, 1].getD d 0) =
        .ok inputD ∧
      memoryDescInitByStrides 2 (fun d => [0, 4].getD d 0) .f32 (some fun d => [8, 1].getD d 0) =
        .ok outputD ∧
      DirectCopyExceptDim0.isApplicable inputD outputD none = true ∧
      ∀ nthr fuel, 0 < nthr → DirectCopyExceptDim0.execute inputD outputD true true nthr fuel = none := by
  refine ⟨⟨_, rfl, by decide, ?_⟩, _, _, rfl, rfl, by decide, fun nthr fuel hnthr => ?_⟩
  · rw [DirectCopy.agreesWithReference_iff_perm _ _ one_pos]
    intro hperm
    have hmem : ((7 : ℤ), (7 : ℤ)) ∈ copyMoves _ _ _ := hperm.mem_iff.mpr (by decide)
    have hlt := lt_of_mem_copyMoves hmem
    revert hlt
    decide
  · exact DirectCopyExceptDim0.execute_eq_none _ (by decide) true true hnthr fuel

end MklDnn
