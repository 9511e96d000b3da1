import MklDnn.Common.Proofs.ThreadingProofs
import MklDnn.Common.Proofs.UtilsProofs
import MklDnn.Reducer.CpuReducer

/-!
# Proofs: balance of a reduction

Whatever the search finds, the groups fit into the team, no group is left without a job, and the jobs of the
groups follow one another.
-/

namespace MklDnn.ReduceBalancer

variable {b : ReduceBalancer}

/-! ## The search -/

section Balance

variable {allowNthrInGroup : Bool} {nthr jobSize njobs reductionSize maxBufferSize : ℕ}

/-- A choice of groups that fit into the team and have jobs. -/
structure Choice.Valid (nthr njobs : ℕ) (c : Choice) : Prop where
  ngroups_pos : 0 < c.ngroups
  ngroups_le : c.ngroups ≤ njobs
  nthrPerGroup_pos : 0 < c.nthrPerGroup
  threads_le : c.nthrPerGroup * c.ngroups ≤ nthr
  njobsPerGroupUb_eq : c.njobsPerGroupUb = divUp njobs c.ngroups

theorem candidate_valid (hnthr : 0 < nthr) (hreduction : 0 < reductionSize) {njobsPerGroup : ℕ}
    (hpos : 0 < njobsPerGroup) (hle : njobsPerGroup ≤ njobs) :
    (candidate allowNthrInGroup nthr njobs reductionSize njobsPerGroup).Valid nthr njobs := by
  have hngroups : 0 < min (njobs / njobsPerGroup) nthr := Nat.lt_min.mpr ⟨Nat.div_pos hle hpos, hnthr⟩
  have hthr : min (njobs / njobsPerGroup) nthr ≤ nthr := Nat.min_le_right _ _
  constructor
  · exact hngroups
  · exact (Nat.min_le_left _ _).trans (Nat.div_le_self _ _)
  · show 0 < if allowNthrInGroup then _ else 1
    split_ifs
    · exact Nat.lt_min.mpr ⟨Nat.div_pos hthr hngroups, hreduction⟩
    · exact Nat.one_pos
  · show (if allowNthrInGroup then _ else 1) * _ ≤ nthr
    split_ifs
    · exact (Nat.mul_le_mul_right _ (Nat.min_le_left _ _)).trans (Nat.div_mul_le_self _ _)
    · rw [Nat.one_mul]
      exact hthr
  · rfl

/-- A step of the search keeps a valid choice. -/
theorem balanceStep_valid (hnthr : 0 < nthr) (hreduction : 0 < reductionSize) {best : Choice × ℕ}
    (hbest : best.1.Valid nthr njobs) {njobsPerGroup : ℕ} (hpos : 0 < njobsPerGroup) (hle : njobsPerGroup ≤ njobs) :
    (balanceStep allowNthrInGroup nthr jobSize njobs reductionSize maxBufferSize best njobsPerGroup).1.Valid
      nthr njobs := by
  unfold balanceStep
  dsimp only
  split_ifs
  · exact hbest
  · exact candidate_valid hnthr hreduction hpos hle
  · exact hbest

/-- The whole search keeps a valid choice. -/
theorem foldl_balanceStep_valid (hnthr : 0 < nthr) (hreduction : 0 < reductionSize) {l : List ℕ}
    (hl : ∀ njobsPerGroup ∈ l, 0 < njobsPerGroup ∧ njobsPerGroup ≤ njobs) {best : Choice × ℕ}
    (hbest : best.1.Valid nthr njobs) :
    (l.foldl (balanceStep allowNthrInGroup nthr jobSize njobs reductionSize maxBufferSize) best).1.Valid
      nthr njobs := by
  induction l generalizing best with
  | nil => exact hbest
  | cons njobsPerGroup l ih =>
    obtain ⟨hpos, hle⟩ := hl njobsPerGroup List.mem_cons_self
    apply ih
    · intro x hx
      exact hl x (List.mem_cons_of_mem _ hx)
    · exact balanceStep_valid hnthr hreduction hbest hpos hle

theorem balance_valid (hnthr : 0 < nthr) (hnjobs : 0 < njobs) (hreduction : 0 < reductionSize) :
    (balance allowNthrInGroup nthr jobSize njobs reductionSize maxBufferSize).Valid nthr njobs := by
  have hpos : 0 < minNjobsPerGroup nthr njobs := Nat.lt_of_lt_of_le Nat.one_pos (Nat.le_max_left _ _)
  have hle : minNjobsPerGroup nthr njobs ≤ njobs := Nat.max_le.mpr ⟨hnjobs, Nat.div_le_self _ _⟩
  apply foldl_balanceStep_valid hnthr hreduction
  · intro njobsPerGroup hmem
    rw [List.mem_range'_1] at hmem
    omega
  · exact candidate_valid hnthr hreduction hpos hle

end Balance

/-- What a balancer promises. -/
structure Valid (b : ReduceBalancer) : Prop where
  ngroups_pos : 0 < b.ngroups
  ngroups_le : b.ngroups ≤ b.njobs
  nthrPerGroup_pos : 0 < b.nthrPerGroup
  threads_le : b.nthrPerGroup * b.ngroups ≤ b.nthr
  njobsPerGroupUb_eq : b.njobsPerGroupUb = divUp b.njobs b.ngroups

theorem init_valid {allowNthrInGroup : Bool} {nthr jobSize njobs reductionSize maxBufferSize : ℕ} (hnthr : 0 < nthr)
    (hnjobs : 0 < njobs) (hreduction : 0 < reductionSize) :
    (init allowNthrInGroup nthr jobSize njobs reductionSize maxBufferSize).Valid := by
  have hvalid : (balance allowNthrInGroup nthr jobSize njobs reductionSize maxBufferSize).Valid nthr njobs :=
    balance_valid hnthr hnjobs hreduction
  exact ⟨hvalid.ngroups_pos, hvalid.ngroups_le, hvalid.nthrPerGroup_pos, hvalid.threads_le, hvalid.njobsPerGroupUb_eq⟩

/-! ## Threads and groups -/

section Threads

variable (h : b.Valid)

include h

/-- Thread `id` of group `grp`. -/
theorem Valid.groupId_eq {grp id : ℕ} (hid : id < b.nthrPerGroup) : b.groupId (grp * b.nthrPerGroup + id) = grp := by
  unfold groupId
  rw [Nat.mul_comm, Nat.mul_add_div h.nthrPerGroup_pos, Nat.div_eq_of_lt hid, Nat.add_zero]

omit h in
theorem idInGroup_eq {grp id : ℕ} (hid : id < b.nthrPerGroup) : b.idInGroup (grp * b.nthrPerGroup + id) = id := by
  unfold idInGroup
  rw [Nat.mul_comm, Nat.mul_add_mod, Nat.mod_eq_of_lt hid]

omit h in
theorem ithr_eq (ithr : ℕ) : ithr = b.groupId ithr * b.nthrPerGroup + b.idInGroup ithr :=
  (Nat.div_add_mod' _ _).symm

theorem Valid.idInGroup_lt (ithr : ℕ) : b.idInGroup ithr < b.nthrPerGroup := Nat.mod_lt _ h.nthrPerGroup_pos

theorem Valid.idle_eq_false_iff {ithr : ℕ} : b.idle ithr = false ↔ b.groupId ithr < b.ngroups := by
  unfold idle groupId
  rw [decide_eq_false_iff_not, Nat.div_lt_iff_lt_mul h.nthrPerGroup_pos, Nat.mul_comm]
  exact Nat.not_le

/-- The threads of the groups are in the team. -/
theorem Valid.ithr_lt {grp id : ℕ} (hgrp : grp < b.ngroups) (hid : id < b.nthrPerGroup) :
    grp * b.nthrPerGroup + id < b.nthr := by
  have hrow : (grp + 1) * b.nthrPerGroup ≤ b.ngroups * b.nthrPerGroup := Nat.mul_le_mul_right _ hgrp
  have hthr := h.threads_le
  rw [Nat.mul_comm] at hthr
  rw [Nat.succ_mul] at hrow
  omega

end Threads

/-! ## Jobs -/

section Jobs

variable (h : b.Valid)

include h

/-- The first job of a group, also behind the last one. -/
theorem Valid.grpJobOff_eq {grp : ℕ} (hgrp : grp ≤ b.ngroups) :
    b.grpJobOff grp = b.njobs / b.ngroups * grp + min grp (b.njobs % b.ngroups) := by
  unfold grpJobOff
  split_ifs with hlast
  · obtain rfl : grp = b.ngroups := by omega
    rw [min_eq_right (Nat.mod_lt _ h.ngroups_pos).le]
    exact (Nat.div_add_mod' _ _).symm
  · rfl

/-- The jobs of a group end where the jobs of the next one start. -/
theorem Valid.grpJobOff_succ {grp : ℕ} (hgrp : grp < b.ngroups) :
    b.grpJobOff (grp + 1) = b.grpJobOff grp + b.grpNjobs grp := by
  rw [h.grpJobOff_eq hgrp, h.grpJobOff_eq hgrp.le, Nat.mul_succ]
  unfold grpNjobs
  rw [if_neg (by omega)]
  split_ifs with hmore
  · omega
  · omega

theorem Valid.grpJobOff_zero : b.grpJobOff 0 = 0 := by
  unfold grpJobOff
  rw [if_neg (by have := h.ngroups_pos; omega), Nat.mul_zero, Nat.zero_min]

omit h in
theorem grpJobOff_ngroups : b.grpJobOff b.ngroups = b.njobs := if_pos (Nat.le_refl _)

theorem Valid.grpJobOff_mono {grp grp' : ℕ} (hlt : grp < grp') (hgrp' : grp' ≤ b.ngroups) :
    b.grpJobOff grp + b.grpNjobs grp ≤ b.grpJobOff grp' := by
  induction grp' with
  | zero => omega
  | succ grp' ih =>
    rcases Nat.lt_or_ge grp grp' with hlt' | hge
    · rw [h.grpJobOff_succ (by omega)]
      exact (ih hlt' (by omega)).trans (Nat.le_add_right _ _)
    · obtain rfl : grp = grp' := by omega
      rw [h.grpJobOff_succ (by omega)]

/-- The jobs of a group are jobs. -/
theorem Valid.grpJobOff_le {grp : ℕ} (hgrp : grp < b.ngroups) : b.grpJobOff grp + b.grpNjobs grp ≤ b.njobs := by
  rw [← grpJobOff_ngroups (b := b)]
  exact h.grpJobOff_mono hgrp (Nat.le_refl _)

/-- Every job belongs to a group. -/
theorem Valid.exists_group {job : ℕ} (hjob : job < b.njobs) :
    ∃ grp < b.ngroups, b.grpJobOff grp ≤ job ∧ job < b.grpJobOff grp + b.grpNjobs grp := by
  have hup : ∀ n ≤ b.ngroups, job < b.grpJobOff n →
      ∃ grp < n, b.grpJobOff grp ≤ job ∧ job < b.grpJobOff grp + b.grpNjobs grp := by
    intro n
    induction n with
    | zero =>
      intro _ hlt
      rw [h.grpJobOff_zero] at hlt
      omega
    | succ n ih =>
      intro hn hlt
      rcases Nat.lt_or_ge job (b.grpJobOff n) with hbelow | habove
      · obtain ⟨grp, hgrp, hmem⟩ := ih (by omega) hbelow
        exact ⟨grp, by omega, hmem⟩
      · rw [h.grpJobOff_succ hn] at hlt
        exact ⟨n, by omega, habove, hlt⟩
  obtain ⟨grp, hgrp, hmem⟩ := hup b.ngroups (Nat.le_refl _) (by rw [grpJobOff_ngroups]; exact hjob)
  exact ⟨grp, hgrp, hmem⟩

/-- A job belongs to one group only. -/
theorem Valid.group_unique {grp grp' job : ℕ} (hgrp : grp < b.ngroups) (hgrp' : grp' < b.ngroups)
    (hjob : b.grpJobOff grp ≤ job ∧ job < b.grpJobOff grp + b.grpNjobs grp)
    (hjob' : b.grpJobOff grp' ≤ job ∧ job < b.grpJobOff grp' + b.grpNjobs grp') : grp = grp' := by
  rcases Nat.lt_trichotomy grp grp' with hlt | heq | hgt
  · have := h.grpJobOff_mono hlt hgrp'.le
    omega
  · exact heq
  · have := h.grpJobOff_mono hgt hgrp.le
    omega

/-- No group has more jobs than `njobs_per_group_ub_`. -/
theorem Valid.grpNjobs_le (grp : ℕ) : b.grpNjobs grp ≤ b.njobsPerGroupUb := by
  have hpos := h.ngroups_pos
  have hnjobs := Nat.div_add_mod' b.njobs b.ngroups
  have hup := @le_rndUp b.njobs b.ngroups hpos
  rw [rndUp_eq, ← h.njobsPerGroupUb_eq] at hup
  have hdiv : b.njobs / b.ngroups ≤ b.njobsPerGroupUb :=
    Nat.div_le_of_le_mul (by rw [Nat.mul_comm]; exact hup)
  unfold grpNjobs
  split_ifs with hidle hmore
  · omega
  · by_contra hgt
    have heq : b.njobsPerGroupUb = b.njobs / b.ngroups := by omega
    rw [heq] at hup
    omega
  · omega

end Jobs

end MklDnn.ReduceBalancer
