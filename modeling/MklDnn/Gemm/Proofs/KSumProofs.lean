import MklDnn.Gemm.Proofs.KSumEventsProofs

/-!
# Proofs: the summation of the k slices

Both ways of summing are race free, and no team of threads blocks itself. So in every execution every
element of `C` gets the results of all k slices.
-/

open LoopNest Interleaving

namespace MklDnn

/-! ## Teams -/

theorem mem_logicalThreads {ithr p nthr n : ℕ} (hp : p < nthr) :
    ithr ∈ logicalThreads p nthr n ↔ ithr < n ∧ ithr % nthr = p := by
  have hnthr : 0 < nthr := by omega
  unfold logicalThreads
  rw [List.mem_range']
  constructor
  · rintro ⟨k, hk, rfl⟩
    have hlt : ¬ divUp (n - p) nthr ≤ k := by omega
    rw [divUp_le_iff hnthr, Nat.mul_comm] at hlt
    rw [Nat.add_mul_mod_self_left, Nat.mod_eq_of_lt hp]
    exact ⟨by omega, rfl⟩
  · rintro ⟨hlt, rfl⟩
    have hdiv := Nat.mod_add_div ithr nthr
    refine ⟨ithr / nthr, ?_, hdiv.symm⟩
    rw [← Nat.not_le, divUp_le_iff hnthr, Nat.mul_comm]
    omega

theorem nodup_logicalThreads {p nthr n : ℕ} (hnthr : 0 < nthr) : (logicalThreads p nthr n).Nodup :=
  List.nodup_range' nthr hnthr

section Teams

variable {E : Type*} {body : ℕ → List E} {nthr n p : ℕ}

theorem mem_teamProgs (hnthr : 0 < nthr) {e : E} :
    e ∈ teamProgs nthr n body p ↔ ∃ ithr < n, ithr % nthr = p ∧ e ∈ body ithr := by
  unfold teamProgs
  by_cases hp : p < nthr
  · rw [if_pos hp, List.mem_flatMap]
    constructor
    · rintro ⟨ithr, hithr, he⟩
      rw [mem_logicalThreads hp] at hithr
      exact ⟨ithr, hithr.1, hithr.2, he⟩
    · rintro ⟨ithr, hlt, hmod, he⟩
      exact ⟨ithr, (mem_logicalThreads hp).mpr ⟨hlt, hmod⟩, he⟩
  · rw [if_neg hp]
    constructor
    · simp
    · rintro ⟨ithr, -, rfl, -⟩
      exact absurd (Nat.mod_lt ithr hnthr) hp

/-- A team with enough threads gives every thread one logical thread. -/
theorem teamProgs_of_le (h : n ≤ nthr) (p : ℕ) :
    teamProgs nthr n body p = if p < n then body p else [] := by
  unfold teamProgs logicalThreads
  by_cases hp : p < n
  · have hone : divUp (n - p) nthr = 1 := by
      refine le_antisymm ?_ (divUp_pos (by omega) (by omega))
      rw [divUp_le_iff (by omega)]
      omega
    rw [if_pos (by omega), if_pos hp, hone]
    simp
  · have hzero : divUp (n - p) nthr ≤ 0 ∨ ¬ p < nthr := by
      by_cases hlt : p < nthr
      · rw [divUp_le_iff (by omega)]
        omega
      · exact Or.inr hlt
    rw [if_neg hp]
    rcases hzero with hzero | hlt
    · rw [Nat.le_zero.mp hzero]
      simp
    · rw [if_neg hlt]

theorem justified_teamProgs {ok : List E → E → Prop} (h : ∀ ithr seen, Justified ok seen (body ithr))
    (p : ℕ) : Justified ok [] (teamProgs nthr n body p) := by
  unfold teamProgs
  split_ifs
  · exact justified_flatMap_of_forall (fun ithr _ seen => h ithr seen) []
  · trivial

end Teams

/-- Only one logical thread adds to the element. -/
theorem addsTo_teamProgs {V : Type*} {body : ℕ → List (KEvent V)} {nthr n ithr a : ℕ}
    (hnthr : 0 < nthr) (hithr : ithr < n)
    (h : ∀ ithr' < n, ithr' ≠ ithr → ∀ e ∈ body ithr', ¬ e.Adds a) :
    addsTo a (teamProgs nthr n body (ithr % nthr)) = addsTo a (body ithr) := by
  have hp := Nat.mod_lt ithr hnthr
  unfold teamProgs
  rw [if_pos hp, KSumArgs.addsTo_flatMap]
  refine flatMap_eq_of_unique (nodup_logicalThreads hnthr) ((mem_logicalThreads hp).mpr ⟨hithr, rfl⟩) ?_
  intro ithr' hmem hne
  exact KSumArgs.addsTo_eq_nil_of_not_adds (h ithr' ((mem_logicalThreads hp).mp hmem).1 hne)

namespace KSumArgs

variable {V : Type*} {args : KSumArgs} {result : ℕ → ℕ → ℕ → V}

/-! ## Who stores and adds what -/

theorem exists_thread {ithr : ℕ} (h : ithr < args.threading.nthrs) :
    ∃ tm < args.threading.nthrsM, ∃ tn < args.threading.nthrsN, ∃ tk < args.threading.nthrsK,
      ithr = args.thread tm tn tk :=
  args.threading.exists_coords h

theorem computeEvents_isStore (hwf : args.WellFormed) {ithr : ℕ} (hithr : ithr < args.threading.nthrs) :
    ∀ e ∈ args.computeEvents result ithr, e.IsStore := by
  intro e he
  obtain ⟨tm, htm, tn, htn, tk, -, rfl⟩ := exists_thread hithr
  obtain ⟨i, j, -, rfl⟩ := (mem_computeEvents hwf htm htn).mp he
  split_ifs
  · trivial
  · trivial

/-- Only the first k slice is stored into `C`. -/
theorem of_storeC_mem (hwf : args.WellFormed) {ithr a : ℕ} {v : V} (hithr : ithr < args.threading.nthrs)
    (h : .storeC a v ∈ args.computeEvents result ithr) :
    ∃ tm tn i j, args.IsElement tm tn i j ∧ ithr = args.thread tm tn 0 ∧ a = args.dst tm tn i j ∧
      v = result ithr i j := by
  obtain ⟨tm, htm, tn, htn, tk, htk, rfl⟩ := exists_thread hithr
  obtain ⟨i, j, hel, heq⟩ := (mem_computeEvents hwf htm htn).mp h
  by_cases hlocal : (args.kSumming && decide (tk > 0)) = true
  · rw [if_pos hlocal] at heq
    cases heq
  · rw [if_neg hlocal] at heq
    have htk0 : tk = 0 := by
      simp only [kSumming, Bool.and_eq_true, decide_eq_true_eq] at hlocal
      omega
    subst htk0
    cases heq
    exact ⟨tm, tn, i, j, hel, rfl, rfl, rfl⟩

theorem of_storeLocal_mem (hwf : args.WellFormed) {ithr b : ℕ} {v : V}
    (hithr : ithr < args.threading.nthrs) (h : .storeLocal b v ∈ args.computeEvents result ithr) :
    ∃ tm tn tk i j, args.IsElement tm tn i j ∧ tk < args.threading.nthrsK ∧
      ithr = args.thread tm tn tk ∧ b = args.src ithr i j ∧ v = result ithr i j := by
  obtain ⟨tm, htm, tn, htn, tk, htk, rfl⟩ := exists_thread hithr
  obtain ⟨i, j, hel, heq⟩ := (mem_computeEvents hwf htm htn).mp h
  by_cases hlocal : (args.kSumming && decide (tk > 0)) = true
  · rw [if_pos hlocal] at heq
    cases heq
    exact ⟨tm, tn, tk, i, j, hel, htk, rfl, rfl, rfl⟩
  · rw [if_neg hlocal] at heq
    cases heq

theorem storeC_mem (hwf : args.WellFormed) {tm tn i j : ℕ} (hel : args.IsElement tm tn i j) :
    .storeC (args.dst tm tn i j) (result (args.thread tm tn 0) i j) ∈
      args.computeEvents result (args.thread tm tn 0) := by
  rw [mem_computeEvents hwf hel.tm_lt hel.tn_lt]
  exact ⟨i, j, hel, by simp⟩

theorem storeLocal_mem (hwf : args.WellFormed) {tm tn tk i j : ℕ} (hel : args.IsElement tm tn i j)
    (hpos : 0 < tk) (htk : tk < args.threading.nthrsK) :
    .storeLocal (args.src (args.thread tm tn tk) i j) (result (args.thread tm tn tk) i j) ∈
      args.computeEvents result (args.thread tm tn tk) := by
  rw [mem_computeEvents hwf hel.tm_lt hel.tn_lt]
  refine ⟨i, j, hel, (if_pos ?_).symm⟩
  simp only [kSumming, Bool.and_eq_true, decide_eq_true_eq]
  omega

/-- No two threads add to the same element. -/
theorem adds_unique (hwf : args.WellFormed) {w w' : Bool} {ithr ithr' a : ℕ} {e e' : KEvent V}
    (hithr : ithr < args.threading.nthrs) (hithr' : ithr' < args.threading.nthrs)
    (he : e ∈ args.sumKBlocks w ithr) (he' : e' ∈ args.sumKBlocks w' ithr') (ha : e.Adds a)
    (ha' : e'.Adds a) : ithr = ithr' := by
  obtain ⟨tm, htm, tn, htn, tk, htk, rfl⟩ := exists_thread hithr
  obtain ⟨tm', htm', tn', htn', tk', htk', rfl⟩ := exists_thread hithr'
  obtain ⟨i, j, hel, hband, rfl, -⟩ := adds_sumKBlocks hwf htm htn htk he ha
  obtain ⟨i', j', hel', hband', heq, -⟩ := adds_sumKBlocks hwf htm' htn' htk' he' ha'
  obtain ⟨rfl, rfl, -, rfl⟩ := dst_inj hwf hel hel' heq
  rw [hband, hband']

/-- What a logical thread may do. -/
def Covers (args : KSumArgs) (result : ℕ → ℕ → ℕ → V) (body : ℕ → List (KEvent V)) : Prop :=
  ∀ ithr < args.threading.nthrs, ∀ e ∈ body ithr,
    e ∈ args.computeEvents result ithr ∨ e = .setDone ithr ∨ ∃ w, e ∈ args.sumKBlocks w ithr

section Covers

variable {body : ℕ → List (KEvent V)} {ithr a : ℕ} {e : KEvent V} {v : V}

theorem Covers.mem_of_adds (hc : args.Covers result body) (hwf : args.WellFormed)
    (hithr : ithr < args.threading.nthrs) (he : e ∈ body ithr) (ha : e.Adds a) :
    ∃ w, e ∈ args.sumKBlocks w ithr := by
  rcases hc ithr hithr e he with hmem | rfl | h
  · have hstore := computeEvents_isStore hwf hithr e hmem
    rcases ha with rfl | ⟨s, rfl⟩
    · exact hstore.elim
    · exact hstore.elim
  · rcases ha with h | ⟨s, h⟩
    · cases h
    · cases h
  · exact h

theorem Covers.mem_of_isStore (hc : args.Covers result body) (hwf : args.WellFormed)
    (hithr : ithr < args.threading.nthrs) (he : e ∈ body ithr) (hs : e.IsStore) :
    e ∈ args.computeEvents result ithr := by
  rcases hc ithr hithr e he with hmem | rfl | ⟨w, hmem⟩
  · exact hmem
  · exact hs.elim
  · obtain ⟨tm, htm, tn, htn, tk, htk, rfl⟩ := exists_thread hithr
    exact absurd hs (sumKBlocks_no_store hwf htm htn htk hmem).1

/-- The threads of a team do not race if the additions come late enough. -/
theorem Covers.raceFree [AddCommMonoid V] (hc : args.Covers result body) (hwf : args.WellFormed)
    {nthr : ℕ} (hnthr : 0 < nthr) (s : KState V) (hpaired : ∀ ithr seen, Justified Paired seen (body ithr))
    (hguarded : ∀ h c, Run (kSystem V) ⟨teamProgs nthr args.threading.nthrs body, s⟩ h c →
      ∀ p e rest, c.progs p = e :: rest → ∀ q, ∀ x ∈ c.progs q, ¬ x.Feeds e) :
    ∃ o own val, RaceFree ⟨teamProgs nthr args.threading.nthrs body, s⟩ o own val := by
  refine RaceFree.of_unique ?_ (fun p => justified_teamProgs hpaired p) ?_ ?_ hguarded
  · intro p q a e he e' he' ha ha'
    obtain ⟨ithr, hithr, rfl, hbody⟩ := (mem_teamProgs hnthr).mp he
    obtain ⟨ithr', hithr', rfl, hbody'⟩ := (mem_teamProgs hnthr).mp he'
    obtain ⟨w, hmem⟩ := hc.mem_of_adds hwf hithr hbody ha
    obtain ⟨w', hmem'⟩ := hc.mem_of_adds hwf hithr' hbody' ha'
    rw [adds_unique hwf hithr hithr' hmem hmem' ha ha']
  · intro p q a v v' hv hv'
    obtain ⟨ithr, hithr, rfl, hbody⟩ := (mem_teamProgs hnthr).mp hv
    obtain ⟨ithr', hithr', rfl, hbody'⟩ := (mem_teamProgs hnthr).mp hv'
    obtain ⟨tm, tn, i, j, hel, rfl, rfl, rfl⟩ :=
      of_storeC_mem hwf hithr (hc.mem_of_isStore hwf hithr hbody trivial)
    obtain ⟨tm', tn', i', j', hel', rfl, heq, rfl⟩ :=
      of_storeC_mem hwf hithr' (hc.mem_of_isStore hwf hithr' hbody' trivial)
    obtain ⟨rfl, rfl, rfl, rfl⟩ := dst_inj hwf hel hel' heq
    rfl
  · intro p q b v v' hv hv'
    obtain ⟨ithr, hithr, rfl, hbody⟩ := (mem_teamProgs hnthr).mp hv
    obtain ⟨ithr', hithr', rfl, hbody'⟩ := (mem_teamProgs hnthr).mp hv'
    obtain ⟨tm, tn, tk, i, j, hel, htk, rfl, rfl, rfl⟩ :=
      of_storeLocal_mem hwf hithr (hc.mem_of_isStore hwf hithr hbody trivial)
    obtain ⟨tm', tn', tk', i', j', hel', htk', rfl, heq, rfl⟩ :=
      of_storeLocal_mem hwf hithr' (hc.mem_of_isStore hwf hithr' hbody' trivial)
    obtain ⟨rfl, rfl, rfl, rfl, rfl⟩ := src_inj hwf hel hel' htk htk' heq
    rfl

end Covers

/-! ## Waiting inside of the parallel section -/

section Inside

variable {thrSync : Bool} {nthr : ℕ} (hwf : args.WellFormed)
  (hin : args.sumInside thrSync nthr = true)

include hin

theorem nthrs_le_of_sumInside : args.threading.nthrs ≤ nthr := by
  simp only [sumInside, Bool.and_eq_true, decide_eq_true_eq] at hin
  exact hin.2

theorem one_lt_of_sumInside : 1 < args.threading.nthrsK := by
  simp only [sumInside, kSumming, Bool.and_eq_true, decide_eq_true_eq] at hin
  exact hin.1.2

theorem computeBody_of_sumInside (ithr : ℕ) :
    args.computeBody thrSync nthr result ithr =
      args.computeEvents result ithr ++ .setDone ithr :: args.sumKBlocks true ithr := by
  unfold computeBody
  rw [if_pos hin]

variable (result) in
theorem computeProgs_of_sumInside (p : ℕ) :
    args.computeProgs thrSync nthr result p =
      if p < args.threading.nthrs then
        args.computeEvents result p ++ .setDone p :: args.sumKBlocks true p
      else [] := by
  unfold computeProgs
  rw [teamProgs_of_le (nthrs_le_of_sumInside hin), computeBody_of_sumInside hin]

include hwf

/-- The operands of an addition come from the first k slice and from the one that is added. -/
theorem feeds_addThreadResults {tm tn tk thrK q : ℕ} (htm : tm < args.threading.nthrsM)
    (htn : tn < args.threading.nthrsN) (htk : tk < args.threading.nthrsK)
    (hthrK : thrK < args.threading.nthrsK) {x e : KEvent V}
    (he : e ∈ args.addThreadResults (args.thread tm tn tk) thrK)
    (hx : x ∈ args.computeProgs thrSync nthr result q) (hf : x.Feeds e) :
    q = args.thread tm tn 0 ∨ q = args.thread tm tn thrK := by
  rw [computeProgs_of_sumInside result hin] at hx
  split_ifs at hx with hq
  · have hmem : x ∈ args.computeEvents result q := by
      rcases List.mem_append.mp hx with hmem | hmem
      · exact hmem
      · rcases List.mem_cons.mp hmem with rfl | hmem
        · exact hf.isStore.elim
        · obtain ⟨tm', htm', tn', htn', tk', htk', rfl⟩ := exists_thread hq
          exact absurd hf.isStore (sumKBlocks_no_store hwf htm' htn' htk' hmem).1
    obtain ⟨i, j, hel, -, he⟩ := (mem_addThreadResults hwf htm htn htk).mp he
    rcases hf with ⟨a, v, rfl, ha⟩ | ⟨a, b, v, heq, rfl⟩
    · obtain ⟨tm', tn', i', j', hel', rfl, rfl, -⟩ := of_storeC_mem hwf hq hmem
      have hdst : args.dst tm tn i j = args.dst tm' tn' i' j' := by
        rcases he with rfl | rfl
        · rcases ha with h | ⟨s, h⟩
          · exact (KEvent.load.inj h)
          · cases h
        · rcases ha with h | ⟨s, h⟩
          · cases h
          · exact (KEvent.addStore.inj h).1
      obtain ⟨rfl, rfl, -, -⟩ := dst_inj hwf hel hel' hdst
      exact Or.inl rfl
    · obtain ⟨tm', tn', tk', i', j', hel', htk', rfl, hsrc, -⟩ := of_storeLocal_mem hwf hq hmem
      have hsrc' : args.src (args.thread tm tn thrK) i j = args.src (args.thread tm' tn' tk') i' j' := by
        rcases he with rfl | rfl
        · cases heq
        · rw [← hsrc]
          exact (KEvent.addStore.inj heq).2
      obtain ⟨rfl, rfl, rfl, -, -⟩ := src_inj hwf hel hel' hthrK htk' hsrc'
      exact Or.inr rfl
  · simp at hx

/-- A thread waits for the operands of an addition, provided that it has set its flag and has the results
of the first k slice unless it waits for them now. -/
theorem waited_block {tm tn tk thrK : ℕ} (htm : tm < args.threading.nthrsM)
    (htn : tn < args.threading.nthrsN) (htk : tk < args.threading.nthrsK)
    (hthrK : thrK < args.threading.nthrsK) {seen : List (KEvent V)}
    (hset : .setDone (args.thread tm tn tk) ∈ seen)
    (hzero : thrK ≠ tk → .waitDone (args.thread tm tn 0) ∈ seen ∨ .setDone (args.thread tm tn 0) ∈ seen) :
    Justified (Waited (args.computeProgs thrSync nthr result)) seen
      (args.waitThread true (args.thread tm tn tk) (if thrK = tk then 0 else thrK) ++
        args.addThreadResults (args.thread tm tn tk) thrK) := by
  have hwait : (args.waitThread true (args.thread tm tn tk) (if thrK = tk then 0 else thrK) :
      List (KEvent V)) = [.waitDone (args.thread tm tn (if thrK = tk then 0 else thrK))] := by
    unfold waitThread
    rw [if_pos rfl, kThread_thread hwf tk _ htm htn]
  rw [justified_append, hwait]
  refine ⟨⟨?_, trivial⟩, justified_of_subset ?_ (List.Subset.refl _)⟩
  · rintro q x - (⟨a, v, -, h | ⟨s, h⟩⟩ | ⟨a, s, v, h, -⟩)
    · cases h
    · cases h
    · cases h
  · intro e he seen' hseen q x hx hf
    have hseen' : ∀ y, y ∈ seen → y ∈ seen' := fun y hy => hseen (List.mem_append_left _ hy)
    have hwaited : .waitDone (args.thread tm tn (if thrK = tk then 0 else thrK)) ∈ seen' :=
      hseen (List.mem_append_right _ List.mem_cons_self)
    rcases feeds_addThreadResults hwf hin htm htn htk hthrK he hx hf with rfl | rfl
    · by_cases hself : thrK = tk
      · rw [if_pos hself] at hwaited
        exact Or.inl hwaited
      · exact (hzero hself).imp (hseen' _) (hseen' _)
    · by_cases hself : thrK = tk
      · rw [hself]
        exact Or.inr (hseen' _ hset)
      · rw [if_neg hself] at hwaited
        exact Or.inl hwaited

theorem waited_sumKBlocks {tm tn tk : ℕ} (htm : tm < args.threading.nthrsM)
    (htn : tn < args.threading.nthrsN) (htk : tk < args.threading.nthrsK) {seen : List (KEvent V)}
    (hset : .setDone (args.thread tm tn tk) ∈ seen) :
    Justified (Waited (args.computeProgs thrSync nthr result)) seen
      (args.sumKBlocks true (args.thread tm tn tk)) := by
  have hrange : ∀ thrK ∈ List.filter (fun thrK => thrK != tk)
      (List.range' 1 (args.threading.nthrsK - 1)), thrK < args.threading.nthrsK := by
    intro thrK hmem
    have h := List.mem_of_mem_filter hmem
    rw [List.mem_range'_1] at h
    omega
  rw [sumKBlocks_eq, slice_thread hwf tk htm htn]
  dsimp only
  unfold addOrder
  by_cases hpos : tk > 0
  · -- the first block waits for the results of the first k slice
    rw [if_pos hpos, List.singleton_append, List.flatMap_cons, justified_append]
    refine ⟨waited_block hwf hin htm htn htk htk hset fun h => absurd rfl h, ?_⟩
    refine justified_flatMap ?_ (?_ : seen ++ [KEvent.waitDone (args.thread tm tn 0)] ⊆ _)
    · intro thrK hmem seen' hsub
      refine waited_block hwf hin htm htn htk (hrange thrK hmem)
        (hsub (List.mem_append_left _ hset)) fun _ => Or.inl ?_
      exact hsub (List.mem_append_right _ List.mem_cons_self)
    · refine List.append_subset.mpr ⟨List.subset_append_left _ _, ?_⟩
      intro y hy
      rw [List.mem_singleton.mp hy]
      refine List.mem_append_right _ (List.mem_append_left _ ?_)
      rw [mem_waitThread, if_pos rfl, kThread_thread hwf tk 0 htm htn]
      exact ⟨rfl, rfl⟩
  · have htk0 : tk = 0 := by omega
    subst htk0
    rw [if_neg hpos, List.nil_append]
    refine justified_flatMap ?_ (List.Subset.refl seen)
    intro thrK hmem seen' hsub
    exact waited_block hwf hin htm htn htk (hrange thrK hmem) (hsub hset) fun _ => Or.inr (hsub hset)

/-- The programs of the parallel section synchronise by the flags. -/
theorem synchronized : Synchronized (args.computeProgs thrSync nthr result) where
  split p := by
    rw [computeProgs_of_sumInside result hin]
    split_ifs with hp
    · obtain ⟨tm, htm, tn, htn, tk, htk, rfl⟩ := exists_thread hp
      exact Or.inr ⟨_, _, rfl, computeEvents_isStore hwf hp,
        fun e he => sumKBlocks_no_store hwf htm htn htk he⟩
    · exact Or.inl rfl
  waited p := by
    have hprogs := computeProgs_of_sumInside result hin p
    by_cases hp : p < args.threading.nthrs
    · rw [if_pos hp] at hprogs
      rw [hprogs, justified_append]
      refine ⟨justified_of_forall ?_ [], ?_, ?_⟩
      · intro e he seen q x _ hf
        have hstore := computeEvents_isStore hwf hp e he
        rcases hf with ⟨a, v, -, rfl | ⟨s, rfl⟩⟩ | ⟨a, s, v, rfl, -⟩
        · exact hstore.elim
        · exact hstore.elim
        · exact hstore.elim
      · rintro q x - (⟨a, v, -, h | ⟨s, h⟩⟩ | ⟨a, s, v, h, -⟩)
        · cases h
        · cases h
        · cases h
      · obtain ⟨tm, htm, tn, htn, tk, htk, rfl⟩ := exists_thread hp
        refine waited_sumKBlocks hwf hin htm htn htk ?_
        exact List.mem_append_right _ List.mem_cons_self
    · rw [if_neg hp] at hprogs
      rw [hprogs]
      trivial
  running p q hmem := by
    rw [computeProgs_of_sumInside result hin] at hmem
    have hq : q < args.threading.nthrs := by
      split_ifs at hmem with hp
      · obtain ⟨tm, htm, tn, htn, tk, htk, rfl⟩ := exists_thread hp
        rcases List.mem_append.mp hmem with hmem | hmem
        · exact (computeEvents_isStore hwf hp _ hmem).elim
        · rcases List.mem_cons.mp hmem with h | hmem
          · cases h
          · rw [sumKBlocks_eq, slice_thread hwf tk htm htn, List.mem_flatMap] at hmem
            obtain ⟨thrK, hthrK, hmem⟩ := hmem
            have hlt := ((addOrder_perm htk).mem_iff.mp hthrK)
            rw [List.mem_range'_1] at hlt
            rcases List.mem_append.mp hmem with hmem | hmem
            · obtain ⟨-, heq⟩ := mem_waitThread.mp hmem
              rw [kThread_thread hwf tk _ htm htn] at heq
              rw [KEvent.waitDone.inj heq]
              refine thread_lt htm htn ?_
              split_ifs
              · omega
              · omega
            · obtain ⟨i, j, -, -, h | h⟩ := (mem_addThreadResults hwf htm htn htk).mp hmem
              · cases h
              · cases h
      · simp at hmem
    rw [computeProgs_of_sumInside result hin, if_pos hq]
    simp

end Inside

/-! ## Executions of the driver -/

variable (result) in
theorem covers_computeBody (thrSync : Bool) (nthr : ℕ) :
    args.Covers result (args.computeBody thrSync nthr result) := by
  intro ithr _ e he
  unfold computeBody at he
  rcases List.mem_append.mp he with he | he
  · exact Or.inl he
  · split_ifs at he
    · rcases List.mem_cons.mp he with rfl | he
      · exact Or.inr (Or.inl rfl)
      · exact Or.inr (Or.inr ⟨true, he⟩)
    · simp at he

variable (result) in
theorem covers_sumKBlocks : args.Covers result (args.sumKBlocks false) :=
  fun _ _ _ he => Or.inr (Or.inr ⟨false, he⟩)

theorem paired_computeBody (thrSync : Bool) (nthr ithr : ℕ) (seen : List (KEvent V)) :
    Justified Paired seen (args.computeBody thrSync nthr result ithr) := by
  unfold computeBody
  rw [justified_append]
  refine ⟨paired_computeEvents result ithr seen, ?_⟩
  split_ifs
  · exact ⟨trivial, paired_sumKBlocks true ithr _⟩
  · trivial

/-- Without the sum inside of it, the parallel section only stores results. -/
theorem computeProgs_isStore (hwf : args.WellFormed) {thrSync : Bool} {nthr : ℕ} (hnthr : 0 < nthr)
    (hin : args.sumInside thrSync nthr = false) (p : ℕ) :
    ∀ e ∈ args.computeProgs thrSync nthr result p, e.IsStore := by
  intro e he
  obtain ⟨ithr, hithr, -, hbody⟩ := (mem_teamProgs hnthr).mp he
  unfold computeBody at hbody
  rw [hin, if_neg Bool.false_ne_true, List.append_nil] at hbody
  exact computeEvents_isStore hwf hithr e hbody

theorem sumProgs_no_store (hwf : args.WellFormed) {nthr : ℕ} (hnthr : 0 < nthr) (p : ℕ) :
    ∀ e ∈ (args.sumProgs nthr p : List (KEvent V)), ¬ e.IsStore := by
  intro e he
  obtain ⟨ithr, hithr, -, hbody⟩ := (mem_teamProgs hnthr).mp he
  obtain ⟨tm, htm, tn, htn, tk, htk, rfl⟩ := exists_thread hithr
  exact (sumKBlocks_no_store hwf htm htn htk hbody).1

/-- The buffers of the k slices behind the first one: where they hold an element of `C`, and the results
that they contribute to it. -/
def bufs (args : KSumArgs) (result : ℕ → ℕ → ℕ → V) (tm tn i j : ℕ) : List (ℕ × V) :=
  (List.range' 1 (args.threading.nthrsK - 1)).map fun tk =>
    (args.src (args.thread tm tn tk) i j, result (args.thread tm tn tk) i j)

section Element

variable (hwf : args.WellFormed) {thrSync : Bool} {nthr : ℕ} (hnthr : 0 < nthr) {tm tn i j : ℕ}
  (hel : args.IsElement tm tn i j)

include hwf hnthr hel

theorem own_mem_computeProgs :
    ∃ q, .storeC (args.dst tm tn i j) (result (args.thread tm tn 0) i j) ∈
      args.computeProgs thrSync nthr result q := by
  refine ⟨_, (mem_teamProgs hnthr).mpr ⟨_, thread_lt hel.tm_lt hel.tn_lt hwf.nthrsK_pos, rfl, ?_⟩⟩
  exact List.mem_append_left _ (storeC_mem hwf hel)

theorem bufs_mem_computeProgs :
    ∀ b ∈ args.bufs result tm tn i j, ∃ q, .storeLocal b.1 b.2 ∈
      args.computeProgs thrSync nthr result q := by
  intro b hb
  obtain ⟨tk, htk, rfl⟩ := List.mem_map.mp hb
  rw [List.mem_range'_1] at htk
  have hlt : tk < args.threading.nthrsK := by omega
  refine ⟨_, (mem_teamProgs hnthr).mpr ⟨_, thread_lt hel.tm_lt hel.tn_lt hlt, rfl, ?_⟩⟩
  exact List.mem_append_left _ (storeLocal_mem hwf hel htk.1 hlt)

omit hwf hnthr hel in
theorem addOrder_src_perm {tk : ℕ} (htk : tk < args.threading.nthrsK) :
    ((addOrder args.threading.nthrsK tk).map fun thrK => args.src (args.thread tm tn thrK) i j).Perm
      ((args.bufs result tm tn i j).map Prod.fst) := by
  unfold bufs
  rw [List.map_map]
  exact (addOrder_perm htk).map _

omit hnthr in
/-- The thread whose band the element is in adds to it, if there is something to add. -/
theorem exists_adds (w : Bool) {tk : ℕ} (htk : tk < args.threading.nthrsK)
    (hband : tk = bandOf args.threading.nthrsK (args.cols tn) j) (hK : 1 < args.threading.nthrsK) :
    ∃ e ∈ (args.sumKBlocks w (args.thread tm tn tk) : List (KEvent V)),
      e.Adds (args.dst tm tn i j) := by
  have hone : 1 ∈ addOrder args.threading.nthrsK tk := by
    rw [(addOrder_perm htk).mem_iff, List.mem_range'_1]
    omega
  have hmem : args.src (args.thread tm tn 1) i j ∈
      addsTo (args.dst tm tn i j) (args.sumKBlocks w (args.thread tm tn tk) : List (KEvent V)) := by
    rw [addsTo_sumKBlocks hwf w hel htk hband]
    exact List.mem_map.mpr ⟨1, hone, rfl⟩
  exact ⟨_, mem_addsTo.mp hmem, Or.inr ⟨_, rfl⟩⟩

variable [AddCommMonoid V] {s : KState V} {h : List (ℕ × KEvent V)} {c1 : Config (KEvent V) (KState V)}

/-- The threads sum inside of the parallel section. -/
theorem summedOnce_of_sumInside (hin : args.sumInside thrSync nthr = true)
    (hinit : ∀ u, s.computeDone u = false)
    (hrun : Run (kSystem V) ⟨args.computeProgs thrSync nthr result, s⟩ h c1) (hcomplete : c1.Complete) :
    SummedOnce h c1.state (args.dst tm tn i j) (result (args.thread tm tn 0) i j)
      (args.bufs result tm tn i j) := by
  obtain ⟨o, own, val, hr⟩ := (covers_computeBody result thrSync nthr).raceFree hwf hnthr s
    (paired_computeBody thrSync nthr) fun h' c' hrun' p e rest hprog q x hx =>
      (synchronized hwf hin).guarded hinit hrun' hprog q x hx
  have htk := bandOf_lt hwf.nthrsK_pos (args.cols tn) j
  have hlt := thread_lt hel.tm_lt hel.tn_lt htk
  have hK := one_lt_of_sumInside hin
  have hprogs := computeProgs_of_sumInside result hin
    (args.thread tm tn (bandOf args.threading.nthrsK (args.cols tn) j))
  rw [if_pos hlt] at hprogs
  obtain ⟨e, he, ha⟩ := exists_adds (V := V) hwf hel true htk rfl hK
  have hmem : e ∈ args.computeProgs thrSync nthr result
      (args.thread tm tn (bandOf args.threading.nthrsK (args.cols tn) j)) := by
    rw [hprogs]
    exact List.mem_append_right _ (List.mem_cons_of_mem _ he)
  have ho := hr.adder _ (args.dst tm tn i j) e hmem ha
  refine hr.summedOnce hrun hcomplete (own_mem_computeProgs hwf hnthr hel)
    (bufs_mem_computeProgs hwf hnthr hel) ?_
  have hevents : addsTo (args.dst tm tn i j) (args.computeEvents result
      (args.thread tm tn (bandOf args.threading.nthrsK (args.cols tn) j))) = [] := by
    refine addsTo_eq_nil_of_not_adds fun e' he' ha' => ?_
    have hstore := computeEvents_isStore hwf hlt e' he'
    rcases ha' with rfl | ⟨s', rfl⟩
    · exact hstore
    · exact hstore
  show (addsTo (args.dst tm tn i j) (args.computeProgs thrSync nthr result _)).Perm _
  rw [← ho, hprogs, addsTo_append, hevents, List.nil_append, addsTo_cons_of_ne (by simp),
    addsTo_sumKBlocks hwf true hel htk rfl]
  exact addOrder_src_perm htk

omit hel in
variable (result) in
/-- The parallel section does not race when it only stores results. -/
theorem raceFree_of_not_sumInside (hin : args.sumInside thrSync nthr = false) (s : KState V) :
    ∃ o own val, RaceFree ⟨args.computeProgs thrSync nthr result, s⟩ o own val := by
  refine (covers_computeBody result thrSync nthr).raceFree hwf hnthr s (paired_computeBody thrSync nthr) ?_
  intro h' c' hrun' p e rest hprog q x _ hf
  have hstore := computeProgs_isStore hwf hnthr hin p e (hrun'.mem_of_mem (by simp [hprog]))
  rcases hf with ⟨a, v, -, rfl | ⟨b, rfl⟩⟩ | ⟨a, b, v, rfl, -⟩
  · exact hstore
  · exact hstore
  · exact hstore

/-- There is only one k slice. -/
theorem summedOnce_of_not_kSumming (hin : args.sumInside thrSync nthr = false)
    (hK : args.kSumming = false)
    (hrun : Run (kSystem V) ⟨args.computeProgs thrSync nthr result, s⟩ h c1) (hcomplete : c1.Complete) :
    SummedOnce h c1.state (args.dst tm tn i j) (result (args.thread tm tn 0) i j)
      (args.bufs result tm tn i j) := by
  obtain ⟨o, own, val, hr⟩ := raceFree_of_not_sumInside result hwf hnthr hin s
  refine hr.summedOnce hrun hcomplete (own_mem_computeProgs hwf hnthr hel)
    (bufs_mem_computeProgs hwf hnthr hel) ?_
  have hone : args.threading.nthrsK - 1 = 0 := by
    simp only [kSumming, decide_eq_false_iff_not] at hK
    omega
  have hnil : args.bufs result tm tn i j = [] := by
    unfold bufs
    rw [hone]
    rfl
  have hadds : addsTo (args.dst tm tn i j) (args.computeProgs thrSync nthr result
      (o (args.dst tm tn i j))) = [] := by
    refine addsTo_eq_nil_of_not_adds fun e he ha => ?_
    have hstore := computeProgs_isStore hwf hnthr hin _ e he
    rcases ha with rfl | ⟨b, rfl⟩
    · exact hstore
    · exact hstore
  show (addsTo (args.dst tm tn i j) (args.computeProgs thrSync nthr result _)).Perm _
  rw [hadds, hnil]
  exact List.Perm.nil

/-- The results are summed in a second parallel section. -/
theorem summedOnce_of_later (hin : args.sumInside thrSync nthr = false) (hK : args.kSumming = true)
    (hrun : Run (kSystem V) ⟨args.computeProgs thrSync nthr result, s⟩ h c1) (hcomplete : c1.Complete)
    {nthr' : ℕ} (hnthr' : 0 < nthr') {h' : List (ℕ × KEvent V)} {c2 : Config (KEvent V) (KState V)}
    (hrun' : Run (kSystem V) ⟨args.sumProgs nthr', c1.state⟩ h' c2) (hcomplete' : c2.Complete) :
    SummedOnce (h ++ h') c2.state (args.dst tm tn i j) (result (args.thread tm tn 0) i j)
      (args.bufs result tm tn i j) := by
  have hnone := sumProgs_no_store (V := V) hwf hnthr'
  obtain ⟨o, own, val, hr⟩ := raceFree_of_not_sumInside result hwf hnthr hin s
  obtain ⟨o', own', val', hr'⟩ := (covers_sumKBlocks result).raceFree hwf hnthr' c1.state
    (paired_sumKBlocks false) fun h2 c3 hrun2 p e rest _ q x hx hf =>
      hnone q x (hrun2.mem_of_mem hx) hf.isStore
  have htk := bandOf_lt hwf.nthrsK_pos (args.cols tn) j
  have hlt := thread_lt hel.tm_lt hel.tn_lt htk
  have hK' : 1 < args.threading.nthrsK := by simpa [kSumming] using hK
  obtain ⟨e, he, ha⟩ := exists_adds (V := V) hwf hel false htk rfl hK'
  have ho := hr'.adder _ (args.dst tm tn i j) e ((mem_teamProgs hnthr').mpr ⟨_, hlt, rfl, he⟩) ha
  refine hr.summedOnce_later hrun hcomplete (computeProgs_isStore hwf hnthr hin) hr' hrun' hcomplete'
    hnone (own_mem_computeProgs hwf hnthr hel) (bufs_mem_computeProgs hwf hnthr hel) ?_
  rw [← ho, addsTo_teamProgs hnthr' hlt, addsTo_sumKBlocks hwf false hel htk rfl]
  · exact addOrder_src_perm htk
  · intro ithr' hithr' hne e' he' ha'
    exact hne (adds_unique hwf hithr' hlt he' he ha' ha)

end Element

/-! ## Flags and progress -/

/-- A flag that no thread sets stays as it is. -/
theorem computeDone_eq_of_run [Add V] {c0 c : Config (KEvent V) (KState V)} {h : List (ℕ × KEvent V)}
    (hrun : Run (kSystem V) c0 h c) {u : ℕ} (hnone : ∀ p, .setDone u ∉ c0.progs p) :
    c.state.computeDone u = c0.state.computeDone u := by
  refine hrun.invariant (I := fun c1 => c1.state.computeDone u = c0.state.computeDone u) rfl ?_
  intro c1 c2 x h1 hrun1 hi hstep
  cases hstep with
  | @mk p e rest hprog henabled =>
    have hne : e ≠ .setDone u := by
      rintro rfl
      exact hnone p (hrun1.mem_of_mem (by simp [hprog]))
    rw [← hi]
    exact exec_computeDone hne _

section Exec

variable [AddCommMonoid V] (hwf : args.WellFormed) {thrSync : Bool} {nthr : ℕ} (hnthr : 0 < nthr)
  {s : KState V} {h : List (ℕ × KEvent V)} {c1 : Config (KEvent V) (KState V)}

include hwf hnthr

/-- The flag of the first thread tells whether the results have been summed already. -/
theorem computeDone_zero_iff (hpos : 0 < args.threading.nthrs) (hinit : ∀ u, s.computeDone u = false)
    (hrun : Run (kSystem V) ⟨args.computeProgs thrSync nthr result, s⟩ h c1) (hcomplete : c1.Complete) :
    c1.state.computeDone 0 = args.sumInside thrSync nthr := by
  by_cases hin : args.sumInside thrSync nthr = true
  · have hset : .setDone 0 ∈ eventsOf 0 h := by
      rw [hrun.eventsOf_eq hcomplete 0]
      show _ ∈ args.computeProgs thrSync nthr result 0
      rw [computeProgs_of_sumInside result hin, if_pos hpos]
      simp
    rw [hin]
    exact ((synchronized hwf hin).computeDone_iff hinit hrun 0).mpr hset
  · rw [Bool.not_eq_true] at hin
    rw [hin, computeDone_eq_of_run hrun fun p hmem =>
      KEvent.not_isStore_setDone 0 (computeProgs_isStore hwf hnthr hin p _ hmem)]
    exact hinit 0

theorem progress_computeProgs (hinit : ∀ u, s.computeDone u = false)
    (hrun : Run (kSystem V) ⟨args.computeProgs thrSync nthr result, s⟩ h c1) (hnot : ¬ c1.Complete) :
    ∃ x c2, Step (kSystem V) c1 x c2 := by
  by_cases hin : args.sumInside thrSync nthr = true
  · exact (synchronized hwf hin).progress hinit hrun hnot
  · rw [Bool.not_eq_true] at hin
    refine progress_of_no_wait hrun ?_ hnot
    intro p u hmem
    exact KEvent.not_isStore_waitDone u (computeProgs_isStore hwf hnthr hin p _ hmem)

theorem progress_sumProgs (hrun : Run (kSystem V) ⟨args.sumProgs nthr, s⟩ h c1)
    (hnot : ¬ c1.Complete) : ∃ x c2, Step (kSystem V) c1 x c2 := by
  refine progress_of_no_wait hrun ?_ hnot
  intro p u hmem
  obtain ⟨ithr, hithr, -, hbody⟩ := (mem_teamProgs hnthr).mp hmem
  obtain ⟨tm, htm, tn, htn, tk, htk, rfl⟩ := exists_thread hithr
  rw [sumKBlocks_eq, List.mem_flatMap] at hbody
  obtain ⟨thrK, -, hbody⟩ := hbody
  rcases List.mem_append.mp hbody with hwait | hadd
  · exact absurd (mem_waitThread.mp hwait).1 Bool.false_ne_true
  · obtain ⟨i, j, -, -, h | h⟩ := (mem_addThreadResults hwf htm htn htk).mp hadd
    · cases h
    · cases h

end Exec

/-- In every execution of the driver every element of `C` gets the result of the first k slice and then
once the result of every other k slice, from one thread; and no execution gets stuck. -/
theorem exec_summedOnce [AddCommMonoid V] (args : KSumArgs) (hwf : args.WellFormed) (thrSync : Bool)
    {nthr nthr' : ℕ} (hnthr : 0 < nthr) (hnthr' : 0 < nthr') (result : ℕ → ℕ → ℕ → V)
    (c cLocal reg : ℕ → V) :
    (∀ h s, args.Exec thrSync nthr nthr' result c cLocal reg h s →
      ∀ tm tn i j, args.IsElement tm tn i j →
        SummedOnce h s (args.dst tm tn i j) (result (args.thread tm tn 0) i j)
          (args.bufs result tm tn i j)) ∧
    (∀ h c1, Run (kSystem V) ⟨args.computeProgs thrSync nthr result, c, cLocal, fun _ => false, reg⟩
      h c1 → ¬ c1.Complete → ∃ x c2, Step (kSystem V) c1 x c2) ∧
    ∀ s h c1, Run (kSystem V) ⟨args.sumProgs nthr', s⟩ h c1 → ¬ c1.Complete →
      ∃ x c2, Step (kSystem V) c1 x c2 := by
  have hinit : ∀ u, (⟨c, cLocal, fun _ => false, reg⟩ : KState V).computeDone u = false := fun _ => rfl
  refine ⟨?_, fun h c1 hrun hnot => progress_computeProgs hwf hnthr hinit hrun hnot,
    fun s h c1 hrun hnot => progress_sumProgs hwf hnthr' hrun hnot⟩
  intro h s hexec tm tn i j hel
  have hpos : 0 < args.threading.nthrs :=
    lt_of_le_of_lt (Nat.zero_le _) (thread_lt hel.tm_lt hel.tn_lt hwf.nthrsK_pos)
  cases hexec with
  | @inside _ c1 hrun hcomplete hdone =>
    rw [computeDone_zero_iff hwf hnthr hpos hinit hrun hcomplete] at hdone
    by_cases hin : args.sumInside thrSync nthr = true
    · exact summedOnce_of_sumInside hwf hnthr hel hin hinit hrun hcomplete
    · rw [Bool.not_eq_true] at hin
      rw [hin, Bool.not_false, Bool.and_true] at hdone
      exact summedOnce_of_not_kSumming hwf hnthr hel hin hdone hrun hcomplete
  | @later _ _ c1 c2 hrun hcomplete hdone hrun' hcomplete' =>
    rw [computeDone_zero_iff hwf hnthr hpos hinit hrun hcomplete, Bool.and_eq_true,
      Bool.not_eq_true'] at hdone
    exact summedOnce_of_later hwf hnthr hel hdone.2 hdone.1 hrun hcomplete hnthr' hrun' hcomplete'

/-- A grid of `2 x 2 x 3` threads for a matrix of `3 x 5` elements and `k = 7`, a team of 12 threads that
waits and one of 5 that would sum later. -/
theorem exec_summedOnce_2x2x3 :
    let args : KSumArgs := ⟨⟨2, 2, 3, -1, -1, -1, 2, 3, 3, .mnk3d, .nonshared⟩, 3, 5, 7, 4⟩
    (∀ h s, args.Exec true 12 5 (fun ithr i j => ithr + i * j) (fun _ => 0) (fun _ => 0) (fun _ => 0)
      h s → ∀ tm tn i j, args.IsElement tm tn i j →
        SummedOnce h s (args.dst tm tn i j) (args.thread tm tn 0 + i * j)
          (args.bufs (fun ithr i j => ithr + i * j) tm tn i j)) := by
  have hwf : KSumArgs.WellFormed
      ⟨⟨2, 2, 3, -1, -1, -1, 2, 3, 3, .mnk3d, .nonshared⟩, 3, 5, 7, 4⟩ := ⟨rfl, by decide, by decide⟩
  exact (exec_summedOnce _ hwf true (by decide) (by decide) _ _ _ _).1

end KSumArgs

end MklDnn
