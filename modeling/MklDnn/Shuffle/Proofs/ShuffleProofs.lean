import MklDnn.Shuffle.Proofs.LayoutProofs

/-!
# Proofs: the paths of a shuffle

The branches of `execute_` for particular layouts make the moves of the branch for any layout, but they do not see the offset of
the first element of a descriptor.
-/

open LoopNest

namespace MklDnn

open PrimitiveHashing

namespace ShuffleDesc

variable {sd sd' : ShuffleDesc}

/-! ## The branches -/

/-- A move behind an initial offset. -/
def shift (k : ℤ) (move : ℤ × ℤ) : ℤ × ℤ := (k + move.1, k + move.2)

/-- The moves of a planar tensor, by the terms of its offsets. -/
theorem Planar.executeAny_eq (h : sd.Planar) (hacc : sd.Accepted) {channel : ℕ → ℕ} {step : ℕ}
    (hsplit : sd.SplitsAs channel step) : sd.executeAny =
      (List.range sd.MB).flatMap fun mb : ℕ => (List.range sd.C).flatMap fun c : ℕ => (List.range sd.SP).map fun sp : ℕ =>
        shift sd.dataDesc.offset0 (mb * sd.dataDesc.blocking.strides 0 + channel c + (sp * step : ℕ),
          mb * sd.dataDesc.blocking.strides 0 + channel (sd.revTransposed c) + (sp * step : ℕ)) := by
  obtain ⟨houter, hsize, hinner⟩ := h.sizes
  rw [ShuffleDesc.executeAny_eq, houter, hsize, hinner]
  refine List.flatMap_congr fun mb hmb => List.flatMap_congr fun c hc => List.map_congr_left fun sp hsp => ?_
  rw [List.mem_range] at hmb hc hsp
  have hrev : sd.revTransposed c < sd.C := by
    rw [← hsize] at hc ⊢
    exact hacc.revTransposed_lt hc
  rw [hsplit mb c sp hmb hc hsp, hsplit mb _ sp hmb hrev hsp]
  rfl

theorem Planar.executePlain_perm (h : sd.Planar) (hacc : sd.Accepted) (hsplit : sd.SplitsAs (fun c => c * sd.SP) 1) :
    (sd.executePlain.map (shift sd.dataDesc.offset0)).Perm sd.executeAny := by
  rw [h.executeAny_eq hacc hsplit]
  unfold executePlain
  simp only [List.map_flatMap, List.map_map, mul_one]
  rfl

theorem Planar.executeLast_perm (h : sd.Planar) (hacc : sd.Accepted) (hsplit : sd.SplitsAs (fun c => c) sd.C) :
    (sd.executeLast.map (shift sd.dataDesc.offset0)).Perm sd.executeAny := by
  rw [h.executeAny_eq hacc hsplit]
  unfold executeLast
  simp only [List.map_flatMap, List.map_map]
  refine List.Perm.flatMap_left _ fun mb _ => ?_
  simp only [List.map_eq_flatMap]
  refine (flatMap_comm_perm _ _ _).trans (List.Perm.of_eq ?_)
  refine List.flatMap_congr fun c _ => List.flatMap_congr fun sp _ => ?_
  simp only [Function.comp, shift, add_right_comm]

theorem Planar.executeBlocked_perm (h : sd.Planar) (hacc : sd.Accepted) {B : ℕ} (hB : 0 < B)
    (hsplit : sd.SplitsAs (sd.blockedChannel B) B) :
    ((sd.executeBlocked B).map (shift sd.dataDesc.offset0)).Perm sd.executeAny := by
  have hchannels : List.range sd.C = (List.range (divUp sd.C B)).flatMap fun b =>
      (List.range (min B (sd.C - b * B))).map (b * B + ·) := range_eq_blocks (le_rndUp hB)
  rw [h.executeAny_eq hacc hsplit]
  unfold executeBlocked
  simp only [List.map_flatMap, List.map_map]
  refine List.Perm.flatMap_left _ fun mb _ => ?_
  rw [hchannels, List.flatMap_assoc]
  refine List.Perm.flatMap_left _ fun cb _ => ?_
  simp only [List.map_eq_flatMap, List.flatMap_assoc, List.flatMap_cons, List.flatMap_nil, List.append_nil]
  refine (flatMap_comm_perm _ _ _).trans (List.Perm.of_eq ?_)
  refine List.flatMap_congr fun cc hcc => List.flatMap_congr fun sp _ => ?_
  rw [List.mem_range] at hcc
  have hlt : cc < B := lt_of_lt_of_le hcc (Nat.min_le_left _ _)
  have hchannel : sd.blockedChannel B (cb * B + cc) = cb * B * sd.SP + cc := by
    unfold blockedChannel
    rw [Nat.mul_add_mod_of_lt hlt, Nat.add_comm (cb * B), Nat.add_mul_div_right _ _ hB, Nat.div_eq_of_lt hlt]
    ring
  rw [hchannel]
  unfold shift blockedChannel
  simp only [Function.comp]
  push_cast
  congr 2
  · ring
  · ring

/-! ## The choice of a branch -/

/-- The execution takes a branch for a particular layout. -/
def FastPath (sd : ShuffleDesc) : Prop :=
  sd.axis = 1 ∧ sd.datTag ∈ [.aBcd16b, .aBcd8b, .abcd, .acdb, .aBcde16b, .aBcde8b, .abcde, .acdeb]

theorem datTag_cases (sd : ShuffleDesc) : sd.datTag = .undef ∨ sd.datTag = .any ∨
    (sd.dataDesc.ndims = 4 ∧ sd.datTag ∈ [.aBcd16b, .aBcd8b, .abcd, .acdb] ∧ sd.dataDesc.matchesTag sd.datTag = true) ∨
    (sd.dataDesc.ndims = 5 ∧ sd.datTag ∈ [.aBcde16b, .aBcde8b, .abcde, .acdeb] ∧
      sd.dataDesc.matchesTag sd.datTag = true) := by
  by_cases hundef : sd.datTag = .undef
  · exact Or.inl hundef
  unfold datTag at hundef ⊢
  split_ifs at hundef ⊢ with h5 h4
  · obtain ⟨hmem, hmatch⟩ := MemoryDesc.matchesOneOfTag_matches hundef
    refine Or.inr (Or.inr (Or.inr ⟨h5, ?_, hmatch⟩))
    simp only [List.mem_cons, List.not_mem_nil, or_false] at hmem ⊢
    tauto
  · obtain ⟨hmem, hmatch⟩ := MemoryDesc.matchesOneOfTag_matches hundef
    refine Or.inr (Or.inr (Or.inl ⟨h4, ?_, hmatch⟩))
    simp only [List.mem_cons, List.not_mem_nil, or_false] at hmem ⊢
    tauto
  · exact Or.inr (Or.inl rfl)

/-- Elsewhere the execution takes the branch for any layout. -/
theorem execute_of_not_fastPath (h : ¬ sd.FastPath) : sd.execute = sd.executeAny := by
  unfold execute
  dsimp only
  by_cases haxis : sd.axis = 1
  · have htag : sd.datTag ∉ [.aBcd16b, .aBcd8b, .abcd, .acdb, .aBcde16b, .aBcde8b, .abcde, .acdeb] :=
      fun hmem => h ⟨haxis, hmem⟩
    rcases sd.datTag_cases with hu | ha | ⟨-, hmem, -⟩ | ⟨-, hmem, -⟩
    · simp [hu]
    · simp [ha]
    · refine absurd ?_ htag
      simp only [List.mem_cons, List.not_mem_nil, or_false] at hmem ⊢
      tauto
    · refine absurd ?_ htag
      simp only [List.mem_cons, List.not_mem_nil, or_false] at hmem ⊢
      tauto
  · simp [haxis]

/-- A shuffle without elements makes no moves. -/
theorem Planar.execute_eq_nil (h : sd.MB = 0 ∨ sd.C = 0 ∨ sd.SP = 0) (B : ℕ) :
    sd.executeBlocked B = [] ∧ sd.executeLast = [] ∧ sd.executePlain = [] := by
  unfold executeBlocked executeLast executePlain
  rcases h with h | h | h
  · simp [h]
  · simp [h]
  · simp [h]

theorem Planar.executeAny_eq_nil (h : sd.Planar) (hz : sd.MB = 0 ∨ sd.C = 0 ∨ sd.SP = 0) : sd.executeAny = [] := by
  obtain ⟨houter, hsize, hinner⟩ := h.sizes
  rw [ShuffleDesc.executeAny_eq, houter, hsize, hinner]
  rcases hz with hz | hz | hz
  · simp [hz]
  · simp [hz]
  · simp [hz]

theorem Planar.dims_pos (h : sd.Planar) (hz : ¬ (sd.MB = 0 ∨ sd.C = 0 ∨ sd.SP = 0)) :
    ∀ d < sd.dataDesc.ndims, 0 < sd.dataDesc.dims d := by
  intro d hd
  apply Nat.pos_of_ne_zero
  intro hzero
  apply hz
  unfold MB C SP D H W
  rcases h.ndims with hn | hn
  · have hcases : d = 0 ∨ d = 1 ∨ d = 2 ∨ d = 3 := by omega
    rcases hcases with rfl | rfl | rfl | rfl <;> simp [hn, hzero]
  · have hcases : d = 0 ∨ d = 1 ∨ d = 2 ∨ d = 3 ∨ d = 4 := by omega
    rcases hcases with rfl | rfl | rfl | rfl | rfl <;> simp [hn, hzero]

/-- The branch that a tag selects. -/
theorem execute_of_tag (haxis : sd.axis = 1) :
    (sd.datTag ∈ [.aBcd16b, .aBcde16b] → sd.execute = sd.executeBlocked 16) ∧
    (sd.datTag ∈ [.aBcd8b, .aBcde8b] → sd.execute = sd.executeBlocked 8) ∧
    (sd.datTag ∈ [.acdb, .acdeb] → sd.execute = sd.executeLast) ∧
    (sd.datTag ∈ [.abcd, .abcde] → sd.execute = sd.executePlain) := by
  unfold execute
  simp only [List.mem_cons, List.not_mem_nil, or_false]
  refine ⟨?_, ?_, ?_, ?_⟩
  all_goals
    rintro (htag | htag)
    · simp [haxis, htag, blksize]
    · simp [haxis, htag, blksize]

/-- A branch for a particular layout makes the moves of the general one, without the initial offset. -/
theorem FastPath.execute_perm (h : sd.FastPath) (hacc : sd.Accepted) (hwf : sd.dataDesc.WellFormed) :
    (sd.execute.map (shift sd.dataDesc.offset0)).Perm sd.executeAny := by
  obtain ⟨haxis, hmem⟩ := h
  have hnd : 0 < sd.dataDesc.ndims := lt_of_le_of_lt (Nat.zero_le _) hacc.axis
  obtain ⟨h16, h8, hlast, hplain⟩ := execute_of_tag haxis
  have htags : (sd.dataDesc.ndims = 4 ∨ sd.dataDesc.ndims = 5) ∧ sd.dataDesc.matchesTag sd.datTag = true := by
    rcases sd.datTag_cases with hu | ha | ⟨hn, -, hmatch⟩ | ⟨hn, -, hmatch⟩
    · rw [hu] at hmem
      simp at hmem
    · rw [ha] at hmem
      simp at hmem
    · exact ⟨Or.inl hn, hmatch⟩
    · exact ⟨Or.inr hn, hmatch⟩
  obtain ⟨hn, hmatch⟩ := htags
  have hplanar : sd.Planar := ⟨haxis, hn⟩
  by_cases hz : sd.MB = 0 ∨ sd.C = 0 ∨ sd.SP = 0
  · have hnil : sd.execute = [] := by
      simp only [List.mem_cons, List.not_mem_nil, or_false] at hmem h16 h8 hlast hplain
      rcases hmem with ht | ht | ht | ht | ht | ht | ht | ht
      · exact (h16 (Or.inl ht)).trans (Planar.execute_eq_nil hz 16).1
      · exact (h8 (Or.inl ht)).trans (Planar.execute_eq_nil hz 8).1
      · exact (hplain (Or.inl ht)).trans (Planar.execute_eq_nil hz 0).2.2
      · exact (hlast (Or.inl ht)).trans (Planar.execute_eq_nil hz 0).2.1
      · exact (h16 (Or.inr ht)).trans (Planar.execute_eq_nil hz 16).1
      · exact (h8 (Or.inr ht)).trans (Planar.execute_eq_nil hz 8).1
      · exact (hplain (Or.inr ht)).trans (Planar.execute_eq_nil hz 0).2.2
      · exact (hlast (Or.inr ht)).trans (Planar.execute_eq_nil hz 0).2.1
    rw [hnil, hplanar.executeAny_eq_nil hz]
    rfl
  have hpos := hplanar.dims_pos hz
  have hstrides : ∀ {args : BlockingArgs}, blockingArgs sd.datTag = some args → _ :=
    fun hargs => MemoryDesc.matchesTag_strides hmatch hargs hnd hpos
  -- the block of a tag, and the order of its dimensions
  have hblocked : ∀ {B : ℕ}, 0 < B →
      (∃ perm, blockingArgs sd.datTag = some ⟨perm, [B], [1]⟩ ∧ perm = List.range perm.length) →
        sd.execute = sd.executeBlocked B → (sd.execute.map (shift sd.dataDesc.offset0)).Perm sd.executeAny := by
    rintro B hB ⟨perm, hargs, hperm⟩ hexec
    obtain ⟨hlen, hinner, hdense⟩ := hstrides hargs
    dsimp only at hlen hinner hdense
    rw [hperm, hlen] at hdense
    rw [hexec]
    exact hplanar.executeBlocked_perm hacc hB (splitsAs_blocked hwf haxis hinner hn hdense)
  have hplane : (∃ perm, blockingArgs sd.datTag = some ⟨perm, [], []⟩ ∧ perm = List.range perm.length) →
      sd.execute = sd.executePlain → (sd.execute.map (shift sd.dataDesc.offset0)).Perm sd.executeAny := by
    rintro ⟨perm, hargs, hperm⟩ hexec
    obtain ⟨hlen, hinner, hdense⟩ := hstrides hargs
    dsimp only at hlen hinner hdense
    rw [hperm, hlen] at hdense
    rw [hexec]
    exact hplanar.executePlain_perm hacc (splitsAs_plain hwf haxis hinner hn hdense)
  have hchannels : (∃ perm, blockingArgs sd.datTag = some ⟨perm, [], []⟩ ∧
      perm = if perm.length = 4 then [0, 2, 3, 1] else [0, 2, 3, 4, 1]) →
      sd.execute = sd.executeLast → (sd.execute.map (shift sd.dataDesc.offset0)).Perm sd.executeAny := by
    rintro ⟨perm, hargs, hperm⟩ hexec
    obtain ⟨hlen, hinner, hdense⟩ := hstrides hargs
    dsimp only at hlen hinner hdense
    rw [hperm, hlen] at hdense
    rw [hexec]
    exact hplanar.executeLast_perm hacc (splitsAs_last hwf haxis hinner hn hdense)
  simp only [List.mem_cons, List.not_mem_nil, or_false] at hmem h16 h8 hlast hplain
  rcases hmem with ht | ht | ht | ht | ht | ht | ht | ht
  · exact hblocked (by omega) ⟨[0, 1, 2, 3], by rw [ht]; rfl, rfl⟩ (h16 (Or.inl ht))
  · exact hblocked (by omega) ⟨[0, 1, 2, 3], by rw [ht]; rfl, rfl⟩ (h8 (Or.inl ht))
  · exact hplane ⟨[0, 1, 2, 3], by rw [ht]; rfl, rfl⟩ (hplain (Or.inl ht))
  · exact hchannels ⟨[0, 2, 3, 1], by rw [ht]; rfl, rfl⟩ (hlast (Or.inl ht))
  · exact hblocked (by omega) ⟨[0, 1, 2, 3, 4], by rw [ht]; rfl, rfl⟩ (h16 (Or.inr ht))
  · exact hblocked (by omega) ⟨[0, 1, 2, 3, 4], by rw [ht]; rfl, rfl⟩ (h8 (Or.inr ht))
  · exact hplane ⟨[0, 1, 2, 3, 4], by rw [ht]; rfl, rfl⟩ (hplain (Or.inr ht))
  · exact hchannels ⟨[0, 2, 3, 4, 1], by rw [ht]; rfl, rfl⟩ (hlast (Or.inr ht))

end ShuffleDesc

end MklDnn
