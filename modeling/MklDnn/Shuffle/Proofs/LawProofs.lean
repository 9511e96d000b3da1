import MklDnn.Shuffle.Proofs.ShuffleProofs

/-!
# Proofs: what a shuffle has to do

The table is a permutation, the directions undo each other, and the branches for particular layouts agree with the general one.
The last two fail exactly when such a branch runs on a tensor that does not begin at the origin of its memory.
-/

open LoopNest

namespace MklDnn

open PrimitiveHashing

namespace ShuffleDesc

variable {sd sd' : ShuffleDesc}

/-! ## The general branch -/

theorem Accepted.volume_eq (h : sd.Accepted) :
    sd.outerSize * sd.axisSize * sd.innerSize = volume sd.dataDesc.dims sd.dataDesc.ndims := by
  have haxis := h.axis
  unfold outerSize axisSize innerSize volume
  rw [← Finset.prod_range_succ, Finset.prod_range_mul_prod_Ico _ (by omega)]

theorem Accepted.length_executeAny (h : sd.Accepted) :
    sd.executeAny.length = volume sd.dataDesc.dims sd.dataDesc.ndims := by
  rw [executeAny_eq, ← h.volume_eq]
  simp [List.length_flatMap, mul_assoc]

/-- Different places of the tensor have different offsets. -/
theorem Accepted.place_inj (h : sd.Accepted) (hdist : sd.dataDesc.Distinct) {ou a i ou' a' i' : ℕ} (hou : ou < sd.outerSize)
    (ha : a < sd.axisSize) (hi : i < sd.innerSize) (hou' : ou' < sd.outerSize) (ha' : a' < sd.axisSize)
    (hi' : i' < sd.innerSize) (heq : sd.place ou a i = sd.place ou' a' i') : ou = ou' ∧ a = a' ∧ i = i' := by
  have hlt : ∀ {ou a i}, ou < sd.outerSize → a < sd.axisSize → i < sd.innerSize →
      (ou * sd.axisSize + a) * sd.innerSize + i < volume sd.dataDesc.dims sd.dataDesc.ndims := by
    intro ou a i hou ha hi
    rw [← h.volume_eq, add_comm]
    refine add_mul_lt hi ?_
    rw [add_comm]
    exact add_mul_lt ha hou
  have hplace := hdist.offL_inj (hlt hou ha hi) (hlt hou' ha' hi') heq
  rw [add_comm, add_comm (_ * sd.innerSize)] at hplace
  obtain ⟨rfl, hrow⟩ := add_mul_inj hi hi' hplace
  rw [add_comm, add_comm (_ * sd.axisSize)] at hrow
  obtain ⟨rfl, rfl⟩ := add_mul_inj ha ha' hrow
  exact ⟨rfl, rfl, rfl⟩

/-- What an execution leaves in an element, if it makes the moves of the general branch. -/
theorem Accepted.run_place {V : Type*} (h : sd.Accepted) (hdist : sd.dataDesc.Distinct)
    (hperm : sd.execute.Perm sd.executeAny) (input output : ℤ → V) {ou a i : ℕ} (hou : ou < sd.outerSize)
    (ha : a < sd.axisSize) (hi : i < sd.innerSize) :
    sd.run input output (sd.place ou a i) = input (sd.place ou (sd.revTransposed a) i) := by
  rw [executeAny_eq] at hperm
  have hmoves : ∀ w, w ∈ sd.execute.map (fun move => (move.1, input move.2)) → ∃ ou < sd.outerSize, ∃ a < sd.axisSize,
      ∃ i < sd.innerSize, w = (sd.place ou a i, input (sd.place ou (sd.revTransposed a) i)) := by
    intro w hw
    obtain ⟨move, hmove, rfl⟩ := List.mem_map.mp hw
    rw [hperm.mem_iff] at hmove
    simp only [List.mem_flatMap, List.mem_map, List.mem_range] at hmove
    obtain ⟨ou, hou, a, ha, i, hi, rfl⟩ := hmove
    exact ⟨ou, hou, a, ha, i, hi, rfl⟩
  unfold run
  apply applyWrites_of_mem
  · intro w hw w' hw' heq
    obtain ⟨ou, hou, a, ha, i, hi, rfl⟩ := hmoves w hw
    obtain ⟨ou', hou', a', ha', i', hi', rfl⟩ := hmoves w' hw'
    obtain ⟨rfl, rfl, rfl⟩ := h.place_inj hdist hou ha hi hou' ha' hi' heq
    rfl
  · rw [List.mem_map]
    refine ⟨(sd.place ou a i, sd.place ou (sd.revTransposed a) i), ?_, rfl⟩
    rw [hperm.mem_iff]
    simp only [List.mem_flatMap, List.mem_map, List.mem_range]
    exact ⟨ou, hou, a, ha, i, hi, rfl⟩

/-- Every element of the tensor has a place. -/
theorem Accepted.exists_place (h : sd.Accepted) {pos : ℕ → ℕ} (hpos : pos ∈ box sd.dataDesc.dims sd.dataDesc.ndims) :
    ∃ ou < sd.outerSize, ∃ a < sd.axisSize, ∃ i < sd.innerSize, sd.dataDesc.offV pos false = sd.place ou a i := by
  obtain ⟨l, hl, rfl⟩ := exists_rowMajor hpos
  rw [← h.volume_eq] at hl
  have hinner : 0 < sd.innerSize := Nat.pos_of_ne_zero fun hz => by
    rw [hz, mul_zero] at hl
    exact Nat.not_lt_zero _ hl
  have hrow : l / sd.innerSize < sd.outerSize * sd.axisSize := Nat.div_lt_of_lt_mul (by rw [mul_comm]; exact hl)
  refine ⟨l / sd.innerSize / sd.axisSize, Nat.div_lt_of_lt_mul (by rw [mul_comm]; exact hrow), l / sd.innerSize % sd.axisSize,
    Nat.mod_lt _ h.axisSize_pos, l % sd.innerSize, Nat.mod_lt _ hinner, ?_⟩
  unfold place MemoryDesc.offL
  rw [if_neg Bool.false_ne_true, offLPos_eq_rowMajor, Nat.div_add_mod', Nat.div_add_mod']

/-! ## The law -/

/-- What a shuffle has to do. -/
structure Law (sd : ShuffleDesc) : Prop where
  /-- `rev_transposed_` is a permutation of the axis. -/
  permutation : Set.BijOn sd.revTransposed (Set.Iio sd.axisSize) (Set.Iio sd.axisSize)
  /-- The opposite direction undoes the shuffle, whatever the outputs held. -/
  undoes : sd.dataDesc.Distinct → ∀ sd', sd.Opposite sd' → sd'.groupSize = sd.groupSize →
    ∀ (V : Type) (x y z : ℤ → V), ∀ pos ∈ box sd.dataDesc.dims sd.dataDesc.ndims,
      sd'.run (sd.run x y) z (sd.dataDesc.offV pos false) = x (sd.dataDesc.offV pos false)
  /-- The opposite direction with the other group size is the same shuffle. -/
  exchanges : ∀ sd', sd.Opposite sd' → sd'.groupSize = sd.axisSize / sd.groupSize → sd'.execute = sd.execute
  /-- The branch that is taken moves the same elements as the general one. -/
  general : sd.execute.Perm sd.executeAny

theorem shift_zero (l : List (ℤ × ℤ)) : l.map (shift 0) = l := by
  have hid : shift 0 = id := by
    funext move
    unfold shift
    rw [zero_add, zero_add]
    rfl
  rw [hid, List.map_id]

theorem sum_map_shift (k : ℤ) (l : List (ℤ × ℤ)) :
    ((l.map (shift k)).map Prod.fst).sum = l.length * k + (l.map Prod.fst).sum := by
  induction l with
  | nil => simp
  | cons move l ih =>
    simp only [List.map_cons, List.sum_cons, List.length_cons, ih, shift]
    push_cast
    ring

/-- The branch that is taken moves the same elements as the general one exactly when it sees the initial offset. -/
theorem Accepted.execute_perm_iff (h : sd.Accepted) (hwf : sd.dataDesc.WellFormed) :
    sd.execute.Perm sd.executeAny ↔ (sd.FastPath → sd.dataDesc.offset0 = 0 ∨ sd.dataDesc.nelems false = 0) := by
  have hnelems : sd.dataDesc.nelems false = volume sd.dataDesc.dims sd.dataDesc.ndims := by
    have haxis := h.axis
    have hnd : sd.dataDesc.ndims ≠ 0 := by omega
    simp [MemoryDesc.nelems, MemoryDesc.isZero, hnd]
  rw [hnelems, ← h.length_executeAny]
  constructor
  · intro hperm hfast
    have hshift := hfast.execute_perm h hwf
    have hsum := (hshift.map Prod.fst).sum_eq
    rw [sum_map_shift, ← (hperm.map Prod.fst).sum_eq, hperm.length_eq] at hsum
    have hzero : (sd.executeAny.length : ℤ) * sd.dataDesc.offset0 = 0 := by omega
    rcases mul_eq_zero.mp hzero with hz | hz
    · exact Or.inr (by exact_mod_cast hz)
    · exact Or.inl hz
  · intro hcond
    by_cases hfast : sd.FastPath
    · have hshift := hfast.execute_perm h hwf
      rcases hcond hfast with hz | hz
      · rw [hz, shift_zero] at hshift
        exact hshift
      · have hany : sd.executeAny = [] := List.length_eq_zero_iff.mp hz
        have hmap : sd.execute.map (shift sd.dataDesc.offset0) = [] := by
          rw [hany] at hshift
          exact hshift.eq_nil
        rw [hany, List.map_eq_nil_iff.mp hmap]
    · rw [execute_of_not_fastPath hfast]

/-- The condition is the same for both directions. -/
theorem Opposite.fastPath_iff (h : sd.Opposite sd') : sd'.FastPath ↔ sd.FastPath := by
  unfold FastPath datTag
  rw [h.axis, h.dataDesc]

theorem Opposite.accepted (h : sd.Opposite sd') (hacc : sd.Accepted) (hgroup : sd'.groupSize = sd.groupSize) :
    sd'.Accepted := by
  refine ⟨?_, ?_, ?_, ?_⟩
  · rw [h.axis, h.dataDesc]
    exact hacc.axis
  · rw [hgroup]
    exact hacc.groupSize
  · rw [hgroup, h.axisSize]
    exact hacc.le
  · rw [hgroup, h.axisSize]
    exact hacc.dvd

/-- The opposite direction undoes a shuffle that makes the moves of the general branch. -/
theorem Accepted.run_run (hacc : sd.Accepted) (hwf : sd.dataDesc.WellFormed) (hdist : sd.dataDesc.Distinct)
    (hopp : sd.Opposite sd') (hgroup : sd'.groupSize = sd.groupSize) (hperm : sd.execute.Perm sd.executeAny) {V : Type}
    (x y z : ℤ → V) {pos : ℕ → ℕ} (hpos : pos ∈ box sd.dataDesc.dims sd.dataDesc.ndims) :
    sd'.run (sd.run x y) z (sd.dataDesc.offV pos false) = x (sd.dataDesc.offV pos false) := by
  have hacc' := hopp.accepted hacc hgroup
  obtain ⟨hrow, hcol⟩ := hopp.transpose hgroup
  have hplace : ∀ ou a i, sd'.place ou a i = sd.place ou a i := by
    intro ou a i
    unfold place axisSize innerSize
    rw [hopp.dataDesc, hopp.axis]
  have houter : sd'.outerSize = sd.outerSize := by
    unfold outerSize
    rw [hopp.dataDesc, hopp.axis]
  have hinner : sd'.innerSize = sd.innerSize := by
    unfold innerSize
    rw [hopp.dataDesc, hopp.axis]
  have hperm' : sd'.execute.Perm sd'.executeAny := by
    rw [hacc'.execute_perm_iff (by rw [hopp.dataDesc]; exact hwf), hopp.fastPath_iff, hopp.dataDesc]
    exact (hacc.execute_perm_iff hwf).mp hperm
  have hdist' : sd'.dataDesc.Distinct := by
    rw [hopp.dataDesc]
    exact hdist
  obtain ⟨ou, hou, a, ha, i, hi, hoff⟩ := hacc.exists_place hpos
  have ha' : a < sd'.axisSize := by
    rw [hopp.axisSize]
    exact ha
  have hrev : sd'.revTransposed a < sd.axisSize := by
    rw [← hopp.axisSize]
    exact hacc'.revTransposed_lt ha'
  calc sd'.run (sd.run x y) z (sd.dataDesc.offV pos false)
      = sd'.run (sd.run x y) z (sd'.place ou a i) := by rw [hoff, hplace]
    _ = sd.run x y (sd'.place ou (sd'.revTransposed a) i) :=
        hacc'.run_place hdist' hperm' _ _ (houter ▸ hou) ha' (hinner ▸ hi)
    _ = sd.run x y (sd.place ou (sd'.revTransposed a) i) := by rw [hplace]
    _ = x (sd.place ou (sd.revTransposed (sd'.revTransposed a)) i) := hacc.run_place hdist hperm _ _ hou hrev hi
    _ = x (sd.dataDesc.offV pos false) := by rw [hacc'.revTransposed_cancel hacc hcol.symm hrow.symm ha', hoff]

/-- A shuffle does what it has to do exactly when no branch for a particular layout runs on a tensor with an initial offset. -/
theorem Accepted.law_iff (h : sd.Accepted) (hwf : sd.dataDesc.WellFormed) :
    sd.Law ↔ (sd.FastPath → sd.dataDesc.offset0 = 0 ∨ sd.dataDesc.nelems false = 0) := by
  rw [← h.execute_perm_iff hwf]
  constructor
  · exact fun hlaw => hlaw.general
  · intro hperm
    refine ⟨h.bijOn_revTransposed, ?_, ?_, hperm⟩
    · intro hdist sd' hopp hgroup V x y z pos hpos
      exact h.run_run hwf hdist hopp hgroup hperm x y z hpos
    · intro sd' hopp hgroup
      obtain ⟨hrow, hcol⟩ := hopp.transpose_div h hgroup
      exact execute_congr hopp.dataDesc hopp.axis hrow hcol

/-- The descriptors that `shuffle_desc_init` accepts, over tensors and parts of tensors in any blocked layout. -/
theorem init_law_iff {propKind : PropKind} {md : MemoryDesc} {axis groupSize : ℤ}
    (h : shuffleDescInit propKind md axis groupSize = .ok sd) (hmd : md.Built) :
    sd.Law ↔ (sd.FastPath → md.offset0 = 0 ∨ md.nelems false = 0) := by
  obtain ⟨hacc, rfl⟩ := init_accepted h
  exact hacc.law_iff hmd.wellFormed

/-- Twenty channels in blocks of sixteen. -/
theorem init_law_iff_tail : ∃ md sd, memoryDescInitByTag 4 (fun d => [2, 20, 2, 3].getD d 0) .f32 .aBcd16b = .ok md ∧
    shuffleDescInit .forwardTraining md 1 4 = .ok sd ∧ sd.Law := by
  have hlaw : ∀ md : MemoryDesc, shuffleDescInit .forwardTraining md 1 4 = .ok ⟨.forwardTraining, md, 1, 4⟩ → md.Built →
      md.offset0 = 0 → (⟨.forwardTraining, md, 1, 4⟩ : ShuffleDesc).Law :=
    fun md h hmd hoffset => (init_law_iff h hmd).mpr fun _ => Or.inl hoffset
  refine ⟨_, ⟨.forwardTraining, _, 1, 4⟩, rfl, rfl, ?_⟩
  exact hlaw _ rfl (.whole (Or.inl ⟨4, fun d => [2, 20, 2, 3].getD d 0, .f32, .aBcd16b, rfl, rfl⟩)) rfl

/-- The second of two images, in `nchw`. -/
theorem not_law_image : ∃ parent md sd,
    memoryDescInitByTag 4 (fun d => [2, 4, 1, 1].getD d 0) .f32 .abcd = .ok parent ∧
      memoryDescInitSubmemory parent (fun d => [1, 4, 1, 1].getD d 0) (fun d => [1, 0, 0, 0].getD d 0) = .ok md ∧
        shuffleDescInit .forwardTraining md 1 2 = .ok sd ∧ md.Distinct ∧ ¬ sd.Law := by
  obtain ⟨parent, hparent, hk⟩ : ∃ parent, memoryDescInitByTag 4 (fun d => [2, 4, 1, 1].getD d 0) .f32 .abcd = .ok parent ∧
      parent.formatKind = .blocked := ⟨_, rfl, rfl⟩
  obtain ⟨md, hsub, hinit, hoffset, hnelems, htag⟩ : ∃ md,
      memoryDescInitSubmemory parent (fun d => [1, 4, 1, 1].getD d 0) (fun d => [1, 0, 0, 0].getD d 0) = .ok md ∧
        shuffleDescInit .forwardTraining md 1 2 = .ok ⟨.forwardTraining, md, 1, 2⟩ ∧ md.offset0 = 4 ∧
          md.nelems false = 4 ∧ (⟨.forwardTraining, md, 1, 2⟩ : ShuffleDesc).datTag = .abcd := by
    obtain rfl := Except.ok.inj hparent
    exact ⟨_, rfl, rfl, rfl, rfl, by decide⟩
  have hwf := memoryDescInitByTag_wellFormed hparent hk
  refine ⟨parent, md, _, hparent, hsub, hinit, (memoryDescInitByTag_distinct hparent hk).submemory hwf hsub, fun hlaw => ?_⟩
  have hfast : (⟨.forwardTraining, md, 1, 2⟩ : ShuffleDesc).FastPath := by
    refine ⟨rfl, ?_⟩
    rw [htag]
    decide
  rcases ((init_accepted hinit).1.law_iff (hwf.submemory hsub)).mp hlaw hfast with hz | hz
  · rw [hoffset] at hz
    omega
  · rw [hnelems] at hz
    omega

end ShuffleDesc

end MklDnn
