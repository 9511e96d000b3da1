import MklDnn.Reducer.Proofs.BalancerProofs

/-!
# Proofs: the assertions of the balance search

Every choice of the search passes the test against `max_njobs_per_group`. That bound is at least one, also where
the buffer does not hold a job of each thread, so a reduction within groups may need more than the buffer.
-/

namespace MklDnn.ReduceBalancer

section Search

variable {allowNthrInGroup : Bool} {nthr jobSize njobs reductionSize maxBufferSize : ℕ}

/-- The search keeps whatever the first guess and the tested candidates have. -/
theorem balance_induction {P : Choice → Prop}
    (hfirst : P (candidate allowNthrInGroup nthr njobs reductionSize (minNjobsPerGroup nthr njobs)))
    (hstep : ∀ n, 0 < n → n ≤ njobs →
      ¬ ((candidate allowNthrInGroup nthr njobs reductionSize n).nthrPerGroup > 1 ∧
        (candidate allowNthrInGroup nthr njobs reductionSize n).njobsPerGroupUb >
          maxNjobsPerGroup nthr jobSize maxBufferSize) →
      P (candidate allowNthrInGroup nthr njobs reductionSize n)) :
    P (balance allowNthrInGroup nthr jobSize njobs reductionSize maxBufferSize) := by
  have hrun : ∀ (l : List ℕ) (best : Choice × ℕ), (∀ n ∈ l, 0 < n ∧ n ≤ njobs) → P best.1 →
      P (l.foldl (balanceStep allowNthrInGroup nthr jobSize njobs reductionSize maxBufferSize) best).1 := by
    intro l
    induction l with
    | nil => exact fun best _ hbest => hbest
    | cons n l ih =>
      intro best hl hbest
      apply ih
      · exact fun x hx => hl x (List.mem_cons_of_mem _ hx)
      · unfold balanceStep
        dsimp only
        split_ifs with hskip hless
        · exact hbest
        · exact hstep n (hl n List.mem_cons_self).1 (hl n List.mem_cons_self).2 hskip
        · exact hbest
  apply hrun
  · intro n hmem
    have hpos : 0 < minNjobsPerGroup nthr njobs := Nat.lt_of_lt_of_le Nat.one_pos (Nat.le_max_left _ _)
    rw [List.mem_range'_1] at hmem
    omega
  · exact hfirst

theorem one_le_maxNjobsPerGroup : 1 ≤ maxNjobsPerGroup nthr jobSize maxBufferSize := Nat.le_max_left _ _

/-- The conversion to an `int` does not make the bound larger. -/
theorem maxNjobsPerGroup_le :
    maxNjobsPerGroup nthr jobSize maxBufferSize ≤ max 1 (maxBufferSize / (nthr * jobSize)) := by
  unfold maxNjobsPerGroup
  apply max_le_max (Nat.le_refl _)
  generalize maxBufferSize / (nthr * jobSize) = q
  rw [Int.bmod_def]
  split_ifs <;> omega

theorem candidate_nthrPerGroup_le (hreduction : 0 < reductionSize) (n : ℕ) :
    (candidate allowNthrInGroup nthr njobs reductionSize n).nthrPerGroup ≤ reductionSize := by
  show (if allowNthrInGroup then _ else 1) ≤ reductionSize
  split_ifs
  · exact Nat.min_le_right _ _
  · exact hreduction

theorem candidate_nthrPerGroup_of_not_allowed (hallow : allowNthrInGroup = false) (n : ℕ) :
    (candidate allowNthrInGroup nthr njobs reductionSize n).nthrPerGroup = 1 := by
  subst hallow
  rfl

/-- Where the threads are at least twice as many as the jobs, every candidate reduces within its groups. -/
theorem one_lt_candidate_nthrPerGroup (hallow : allowNthrInGroup = true) (hreduction : 2 ≤ reductionSize)
    (hnthr : 2 * njobs ≤ nthr) {n : ℕ} (hpos : 0 < n) (hle : n ≤ njobs) :
    1 < (candidate allowNthrInGroup nthr njobs reductionSize n).nthrPerGroup := by
  subst hallow
  show 1 < min (nthr / min (njobs / n) nthr) reductionSize
  have hgroups : 0 < njobs / n := Nat.div_pos hle hpos
  have hfew : min (njobs / n) nthr ≤ njobs := (Nat.min_le_left _ _).trans (Nat.div_le_self _ _)
  have htwo : 2 ≤ nthr / min (njobs / n) nthr := by
    rw [Nat.le_div_iff_mul_le (by omega)]
    omega
  omega

/-- The first guess has one thread in each group, or one job. -/
theorem first_fits (hnthr : 0 < nthr) (hnjobs : 0 < njobs) :
    (candidate allowNthrInGroup nthr njobs reductionSize (minNjobsPerGroup nthr njobs)).nthrPerGroup ≤ 1 ∨
      (candidate allowNthrInGroup nthr njobs reductionSize (minNjobsPerGroup nthr njobs)).njobsPerGroupUb = 1 := by
  rcases Nat.lt_or_ge njobs nthr with hfew | hmany
  · right
    have hmin : minNjobsPerGroup nthr njobs = 1 := by
      unfold minNjobsPerGroup
      rw [Nat.div_eq_of_lt hfew, max_eq_left (Nat.zero_le _)]
    show divUp njobs (min (njobs / minNjobsPerGroup nthr njobs) nthr) = 1
    rw [hmin, Nat.div_one, min_eq_left hfew.le]
    unfold divUp
    rw [Nat.div_eq_of_lt_le] <;> omega
  · left
    have hmin : minNjobsPerGroup nthr njobs = njobs / nthr := max_eq_right (Nat.div_pos hmany hnthr)
    have hgroups : nthr ≤ njobs / (njobs / nthr) := by
      rw [Nat.le_div_iff_mul_le (Nat.div_pos hmany hnthr)]
      exact Nat.mul_div_le njobs nthr
    show (if allowNthrInGroup then min (nthr / min (njobs / minNjobsPerGroup nthr njobs) nthr) reductionSize else 1) ≤ 1
    rw [hmin, min_eq_right hgroups, Nat.div_self hnthr]
    split_ifs
    · exact Nat.min_le_left _ _
    · exact Nat.le_refl _

end Search

/-! ## The assertions -/

section Assertions

variable {allowNthrInGroup : Bool} {nthr jobSize njobs reductionSize maxBufferSize : ℕ}

/-- Groups with several threads have passed the test against `max_njobs_per_group`. -/
theorem init_fits (hnthr : 0 < nthr) (hnjobs : 0 < njobs) :
    let b := init allowNthrInGroup nthr jobSize njobs reductionSize maxBufferSize
    b.nthrPerGroup ≤ 1 ∨ b.njobsPerGroupUb ≤ maxNjobsPerGroup nthr jobSize maxBufferSize := by
  refine balance_induction (P := fun c => c.nthrPerGroup ≤ 1 ∨ c.njobsPerGroupUb ≤ maxNjobsPerGroup nthr jobSize maxBufferSize) ?_ ?_
  · rcases first_fits hnthr hnjobs with hone | hjob
    · exact Or.inl hone
    · exact Or.inr (hjob.trans_le one_le_maxNjobsPerGroup)
  · intro n _ _ hskip
    omega

theorem init_nthrPerGroup_le (hreduction : 0 < reductionSize) :
    (init allowNthrInGroup nthr jobSize njobs reductionSize maxBufferSize).nthrPerGroup ≤ reductionSize :=
  balance_induction (P := fun c => c.nthrPerGroup ≤ reductionSize) (candidate_nthrPerGroup_le hreduction _)
    fun n _ _ _ => candidate_nthrPerGroup_le hreduction n

theorem init_lockFree (hallow : allowNthrInGroup = false) :
    (init allowNthrInGroup nthr jobSize njobs reductionSize maxBufferSize).nthrPerGroup = 1 :=
  balance_induction (P := fun c => c.nthrPerGroup = 1) (candidate_nthrPerGroup_of_not_allowed hallow _)
    fun n _ _ _ => candidate_nthrPerGroup_of_not_allowed hallow n

theorem one_lt_init_nthrPerGroup (hnjobs : 0 < njobs) (hallow : allowNthrInGroup = true)
    (hreduction : 2 ≤ reductionSize) (hnthr : 2 * njobs ≤ nthr) :
    1 < (init allowNthrInGroup nthr jobSize njobs reductionSize maxBufferSize).nthrPerGroup := by
  have hpos : 0 < minNjobsPerGroup nthr njobs := Nat.lt_of_lt_of_le Nat.one_pos (Nat.le_max_left _ _)
  have hle : minNjobsPerGroup nthr njobs ≤ njobs := Nat.max_le.mpr ⟨hnjobs, Nat.div_le_self _ _⟩
  exact balance_induction (P := fun c => 1 < c.nthrPerGroup)
    (one_lt_candidate_nthrPerGroup hallow hreduction hnthr hpos hle)
    fun n hn hn' _ => one_lt_candidate_nthrPerGroup hallow hreduction hnthr hn hn'

/-- The groups of a valid balancer have jobs enough for all. -/
theorem Valid.cover {b : ReduceBalancer} (h : b.Valid) : b.njobs ≤ b.ngroups * b.njobsPerGroupUb := by
  have hup := @le_rndUp b.njobs b.ngroups h.ngroups_pos
  rw [rndUp_eq, ← h.njobsPerGroupUb_eq, Nat.mul_comm] at hup
  exact hup

theorem Valid.partitions {b : ReduceBalancer} (h : b.Valid) : b.Partitions := by
  constructor
  · exact h.cover
  · intro job hjob
    obtain ⟨grp, hgrp, hmem⟩ := h.exists_group hjob
    refine ⟨grp, ⟨hgrp, hmem⟩, ?_⟩
    rintro grp' ⟨hgrp', hmem'⟩
    exact h.group_unique hgrp' hgrp hmem' hmem
  · exact fun grp hgrp => h.grpJobOff_le hgrp
  · exact h.grpNjobs_le

/-- Groups with several threads and one job need two threads for each job. -/
theorem Valid.two_mul_njobs_le {b : ReduceBalancer} (h : b.Valid) (hnthr : 1 < b.nthrPerGroup)
    (hjob : b.njobsPerGroupUb ≤ 1) : 2 * b.njobs ≤ b.nthr := by
  have hcover : b.njobs ≤ b.ngroups :=
    h.cover.trans ((Nat.mul_le_mul_left _ hjob).trans (Nat.mul_one _).le)
  calc 2 * b.njobs ≤ 2 * b.ngroups := Nat.mul_le_mul_left _ hcover
    _ ≤ b.nthrPerGroup * b.ngroups := Nat.mul_le_mul_right _ hnthr
    _ ≤ b.nthr := h.threads_le

/-- The closing assertions hold, and the groups partition the jobs, unless the threads of a group share the
reduction of a job while the buffer does not hold a job of each thread. -/
theorem init_closes_iff (hnthr : 0 < nthr) (hjobSize : 0 < jobSize) (hnjobs : 0 < njobs) (hreduction : 0 < reductionSize) :
    let b := init allowNthrInGroup nthr jobSize njobs reductionSize maxBufferSize
    b.Closes ∧ b.Partitions ↔
      nthr * jobSize ≤ maxBufferSize ∨ allowNthrInGroup = false ∨ reductionSize = 1 ∨ nthr < 2 * njobs := by
  intro b
  have hvalid : b.Valid := init_valid hnthr hnjobs hreduction
  have hfits : b.nthrPerGroup ≤ 1 ∨ b.njobsPerGroupUb ≤ maxNjobsPerGroup nthr jobSize maxBufferSize := init_fits hnthr hnjobs
  have hone := hvalid.nthrPerGroup_pos
  have hmax := @maxNjobsPerGroup_le nthr jobSize maxBufferSize
  have hdiv := Nat.div_mul_le_self maxBufferSize (nthr * jobSize)
  constructor
  · rintro ⟨hcloses, -⟩
    by_contra hfail
    push Not at hfail
    obtain ⟨hsmall, hallow, hred, hthreads⟩ := hfail
    have hshared : 1 < b.nthrPerGroup :=
      one_lt_init_nthrPerGroup hnjobs (Bool.eq_true_of_not_eq_false hallow) (by omega) hthreads
    rcases hcloses.buffer with hbuffer | honly
    · have hjobs : 0 < b.njobsPerGroupUb := by
        by_contra hzero
        have := hvalid.cover
        rw [show b.njobsPerGroupUb = 0 by omega, Nat.mul_zero] at this
        exact absurd (Nat.lt_of_lt_of_le hnjobs this) (Nat.lt_irrefl 0)
      have hneed : nthr * jobSize ≤ b.njobsPerGroupUb * b.jobSize * b.nthr := by
        calc nthr * jobSize = 1 * (jobSize * nthr) := by rw [Nat.one_mul, Nat.mul_comm]
          _ ≤ b.njobsPerGroupUb * (jobSize * nthr) := Nat.mul_le_mul_right _ hjobs
          _ = b.njobsPerGroupUb * b.jobSize * b.nthr := (Nat.mul_assoc _ _ _).symm
      exact absurd (hneed.trans hbuffer) (Nat.not_le.mpr hsmall)
    · omega
  · intro hcond
    refine ⟨⟨?_, ?_, ?_, init_lockFree⟩, hvalid.partitions⟩
    · rcases hfits with hless | hfits
      · exact Or.inr (by omega)
      · exact Or.inl hfits
    · rw [Nat.mul_comm]
      exact hvalid.threads_le
    · rcases Nat.lt_or_ge 1 b.nthrPerGroup with hshared | hless
      · left
        have hub : b.njobsPerGroupUb ≤ max 1 (maxBufferSize / (nthr * jobSize)) := by omega
        have hholds : nthr * jobSize ≤ maxBufferSize := by
          by_contra hsmall
          rw [Nat.div_eq_of_lt (by omega), max_eq_left (Nat.zero_le 1)] at hub
          have hthreads : 2 * njobs ≤ nthr := hvalid.two_mul_njobs_le hshared hub
          have hred : b.nthrPerGroup ≤ reductionSize := init_nthrPerGroup_le hreduction
          rcases hcond with hle | hnot | hred' | hfew
          · exact hsmall hle
          · exact absurd (init_lockFree hnot) (Nat.ne_of_gt hshared)
          · omega
          · omega
        have hquot : 1 ≤ maxBufferSize / (nthr * jobSize) := Nat.div_pos hholds (Nat.mul_pos hnthr hjobSize)
        rw [max_eq_right hquot] at hub
        calc b.njobsPerGroupUb * b.jobSize * b.nthr = b.njobsPerGroupUb * (nthr * jobSize) := by
              rw [Nat.mul_assoc, Nat.mul_comm nthr]; rfl
          _ ≤ maxBufferSize / (nthr * jobSize) * (nthr * jobSize) := Nat.mul_le_mul_right _ hub
          _ ≤ maxBufferSize := hdiv
      · exact Or.inr (by omega)

/-- Two threads share the reduction of the only job of two elements: the buffer of sixteen holds it for both. -/
theorem init_closes_iff_two :
    let b := init true 2 8 1 2 16
    b.Closes ∧ b.Partitions ↔ 2 * 8 ≤ 16 ∨ true = false ∨ 2 = 1 ∨ 2 < 2 * 1 :=
  init_closes_iff (by decide) (by decide) (by decide) (by decide)

/-- Without a buffer two threads share the reduction of the only job all the same. -/
theorem init_exceeds_buffer : ¬ ((init true 2 1 1 2 0).Closes ∧ (init true 2 1 1 2 0).Partitions) := by
  rintro ⟨hcloses, -⟩
  have hbuffer := hcloses.buffer
  revert hbuffer
  decide

end Assertions

end MklDnn.ReduceBalancer
