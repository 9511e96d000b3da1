import Mathlib.Data.List.Nodup
import Mathlib.Tactic.Ring
import MklDnn.Gemm.Proofs.KSumValueProofs
import MklDnn.Gemm.Proofs.PartitionProofs
import MklDnn.Lib.SteppedLoops

/-!
# Proofs: waiting for the other threads

A thread sets its flag after all of its stores and waits for another thread only after it has set its own
flag. So a thread whose flag is set has nothing left to store, and not all threads can be blocked.
-/

open Interleaving

namespace MklDnn

variable {V : Type*}

/-- The program of thread `p` stores its results, sets its flag and then stores no results any more. -/
def PhaseSplit (p : ℕ) (l : List (KEvent V)) : Prop :=
  l = [] ∨ ∃ pre post, l = pre ++ .setDone p :: post ∧ (∀ e ∈ pre, e.IsStore) ∧
    ∀ e ∈ post, ¬ e.IsStore ∧ ∀ q, e ≠ .setDone q

/-- Whoever stores what the addition `e` reads has been waited for. -/
def Waited (progs : ℕ → List (KEvent V)) (seen : List (KEvent V)) (e : KEvent V) : Prop :=
  ∀ q, ∀ x ∈ progs q, x.Feeds e → .waitDone q ∈ seen ∨ .setDone q ∈ seen

/-- The programs synchronise by the flags of the threads. -/
structure Synchronized (progs : ℕ → List (KEvent V)) : Prop where
  split : ∀ p, PhaseSplit p (progs p)
  waited : ∀ p, Justified (Waited progs) [] (progs p)
  running : ∀ p q, .waitDone q ∈ progs p → progs q ≠ []

/-- A thread that has set its flag has no stores left; otherwise it is not in front of a wait. -/
theorem PhaseSplit.cases {p : ℕ} {done rem : List (KEvent V)} (h : PhaseSplit p (done ++ rem)) :
    (.setDone p ∈ done ∧ ∀ e ∈ rem, ¬ e.IsStore) ∨
      (.setDone p ∉ done ∧ ∃ e rest, rem = e :: rest ∧ ∀ q, e ≠ .waitDone q) ∨ done ++ rem = [] := by
  rcases h with hnil | ⟨pre, post, heq, hpre, hpost⟩
  · exact Or.inr (Or.inr hnil)
  rcases List.append_eq_append_iff.mp heq with ⟨as, hdone, hrem⟩ | ⟨cs, hdone, hrem⟩
  · refine Or.inr (Or.inl ⟨?_, ?_⟩)
    · intro hmem
      exact KEvent.not_isStore_setDone p (hpre _ (hdone ▸ List.mem_append_left as hmem))
    · cases as with
      | nil => exact ⟨_, _, hrem, by simp⟩
      | cons e as =>
        refine ⟨e, _, hrem, ?_⟩
        rintro q rfl
        exact KEvent.not_isStore_waitDone q (hpre _ (by simp [hdone]))
  · cases cs with
    | nil =>
      rw [List.nil_append] at hrem
      refine Or.inr (Or.inl ⟨?_, .setDone p, post, hrem.symm, by simp⟩)
      intro hmem
      rw [hdone, List.append_nil] at hmem
      exact KEvent.not_isStore_setDone p (hpre _ hmem)
    | cons e cs =>
      obtain ⟨rfl, hpost'⟩ := List.cons.inj hrem
      refine Or.inl ⟨by simp [hdone], fun x hx => (hpost x ?_).1⟩
      rw [hpost']
      exact List.mem_append_right cs hx

/-- Only thread `u` sets the flag of thread `u`. -/
theorem PhaseSplit.setDone_eq {p u : ℕ} {l : List (KEvent V)} (h : PhaseSplit p l)
    (hmem : .setDone u ∈ l) : u = p := by
  rcases h with rfl | ⟨pre, post, rfl, hpre, hpost⟩
  · simp at hmem
  · rcases List.mem_append.mp hmem with hmem | hmem
    · exact absurd (hpre _ hmem) (KEvent.not_isStore_setDone u)
    · rcases List.mem_cons.mp hmem with heq | hmem
      · exact KEvent.setDone.inj heq
      · exact absurd rfl ((hpost _ hmem).2 u)

variable [Add V] {c0 c : Config (KEvent V) (KState V)} {h : List (ℕ × KEvent V)}

theorem exec_computeDone {p u : ℕ} {e : KEvent V} (he : e ≠ .setDone u) (s : KState V) :
    ((kSystem V).exec p e s).computeDone u = s.computeDone u := by
  cases e with
  | setDone q =>
    have hne : u ≠ q := by
      rintro rfl
      exact he rfl
    simp [kSystem, Function.update_of_ne hne]
  | _ => rfl

/-- A flag is set if and only if its thread has set it. -/
theorem Synchronized.computeDone_iff (hs : Synchronized c0.progs)
    (hinit : ∀ u, c0.state.computeDone u = false) (hrun : Run (kSystem V) c0 h c) (u : ℕ) :
    c.state.computeDone u = true ↔ .setDone u ∈ eventsOf u h := by
  induction hrun with
  | nil => simp [hinit u]
  | @snoc h1 c1 c2 x hrun hstep ih =>
    cases hstep with
    | @mk p e rest hprog henabled =>
      show ((kSystem V).exec p e c1.state).computeDone u = true ↔ _
      rw [eventsOf_append, eventsOf_singleton, List.mem_append]
      by_cases he : e = .setDone u
      · subst he
        have hmem : .setDone u ∈ c1.progs p := by simp [hprog]
        have hp : u = p := (hs.split p).setDone_eq (hrun.mem_of_mem hmem)
        subst hp
        simp [kSystem]
      · rw [exec_computeDone he, ih]
        by_cases hp : p = u
        · simp [hp, Ne.symm he]
        · simp [hp]

/-- A thread that was waited for has set its flag. -/
theorem computeDone_of_waited (hrun : Run (kSystem V) c0 h c) {p u : ℕ}
    (hmem : .waitDone u ∈ eventsOf p h) : c.state.computeDone u = true := by
  induction hrun with
  | nil => simp at hmem
  | @snoc h1 c1 c2 x hrun hstep ih =>
    cases hstep with
    | @mk q e rest hprog henabled =>
      show ((kSystem V).exec q e c1.state).computeDone u = true
      rw [eventsOf_append, eventsOf_singleton, List.mem_append] at hmem
      by_cases he : e = .setDone u
      · subst he
        simp [kSystem]
      · rw [exec_computeDone he]
        rcases hmem with hmem | hmem
        · exact ih hmem
        · have heq : KEvent.waitDone u = e := by
            by_cases hq : q = p
            · simpa [hq] using hmem
            · simp [hq] at hmem
          subst heq
          exact henabled

/-- No addition happens before its operands are stored. -/
theorem Synchronized.guarded (hs : Synchronized c0.progs)
    (hinit : ∀ u, c0.state.computeDone u = false) (hrun : Run (kSystem V) c0 h c) {p : ℕ}
    {e : KEvent V} {rest : List (KEvent V)} (hprog : c.progs p = e :: rest) (q : ℕ) :
    ∀ x ∈ c.progs q, ¬ x.Feeds e := by
  intro x hx hfeeds
  have hdone : .setDone q ∈ eventsOf q h := by
    rcases hrun.ok_head (hs.waited p) hprog q x (hrun.mem_of_mem hx) hfeeds with hwait | hset
    · exact (hs.computeDone_iff hinit hrun q).mp (computeDone_of_waited hrun hwait)
    · have hmem : .setDone q ∈ c0.progs p := by
        rw [hrun.progs_eq p]
        exact List.mem_append_left _ hset
      have hp := (hs.split p).setDone_eq hmem
      subst hp
      exact hset
  have hsplit := hs.split q
  rw [hrun.progs_eq q] at hsplit
  rcases hsplit.cases with ⟨-, hrem⟩ | ⟨hnot, -⟩ | hnil
  · exact hrem x hx hfeeds.isStore
  · exact hnot hdone
  · rw [List.append_eq_nil_iff] at hnil
    rw [hnil.2] at hx
    simp at hx

/-- The threads do not block each other for ever. -/
theorem Synchronized.progress (hs : Synchronized c0.progs)
    (hinit : ∀ u, c0.state.computeDone u = false) (hrun : Run (kSystem V) c0 h c)
    (hnot : ¬ c.Complete) : ∃ x c', Step (kSystem V) c x c' := by
  unfold Config.Complete at hnot
  push Not at hnot
  obtain ⟨p, hp⟩ := hnot
  obtain ⟨e, rest, hprog⟩ := List.exists_cons_of_ne_nil hp
  by_cases henabled : (kSystem V).enabled p e c.state
  · exact ⟨_, _, Step.mk hprog henabled⟩
  -- the thread waits for another one, which is in front of an event that is no wait
  cases e with
  | waitDone u =>
    have hset : .setDone u ∉ eventsOf u h := by
      rw [← hs.computeDone_iff hinit hrun u]
      exact henabled
    have hwait : .waitDone u ∈ c0.progs p := hrun.mem_of_mem (by simp [hprog])
    have hsplit := hs.split u
    rw [hrun.progs_eq u] at hsplit
    rcases hsplit.cases with ⟨hmem, -⟩ | ⟨-, e', rest', hprog', he'⟩ | hnil
    · exact absurd hmem hset
    · refine ⟨_, _, Step.mk hprog' ?_⟩
      cases e' with
      | waitDone w => exact absurd rfl (he' w)
      | _ => trivial
    · rw [← hrun.progs_eq u] at hnil
      exact absurd hnil (hs.running p u hwait)
  | _ => exact absurd trivial henabled

/-- Threads that do not wait can always go on. -/
theorem progress_of_no_wait (hrun : Run (kSystem V) c0 h c)
    (hwait : ∀ p u, .waitDone u ∉ c0.progs p) (hnot : ¬ c.Complete) :
    ∃ x c', Step (kSystem V) c x c' := by
  unfold Config.Complete at hnot
  push Not at hnot
  obtain ⟨p, hp⟩ := hnot
  obtain ⟨e, rest, hprog⟩ := List.exists_cons_of_ne_nil hp
  refine ⟨_, _, Step.mk hprog ?_⟩
  cases e with
  | waitDone u => exact absurd (hrun.mem_of_mem (by simp [hprog])) (hwait p u)
  | _ => trivial

end MklDnn

/-!
## Proofs: what the threads store and add

An element of a slice of `C` is addressed by the coordinates of the slice and its position there. The
addresses of different elements differ, and so do those in the buffers. `partition_1d` gives each column
to one thread, so only one thread adds to an element; it waits for the threads whose results it reads.
-/

open LoopNest Interleaving

namespace MklDnn

theorem le_foldl_range_max (f : ℕ → ℕ) {i n : ℕ} (hi : i < n) :
    f i ≤ (List.range n).foldl (fun x i => max x (f i)) 0 := by
  induction n with
  | zero => omega
  | succ n ih =>
    rw [List.range_succ, List.foldl_append, List.foldl_cons, List.foldl_nil]
    rcases Nat.lt_succ_iff_lt_or_eq.mp hi with hlt | rfl
    · exact le_max_of_le_left (ih hlt)
    · exact le_max_right _ _

variable {V : Type*}

namespace KSumArgs

variable (args : KSumArgs)

/-! ## Addresses -/

/-- The thread with coordinates `tm`, `tn` and `tk`. -/
def thread (tm tn tk : ℕ) : ℕ :=
  tm + (tn + tk * args.threading.nthrsN) * args.threading.nthrsM

/-- The address of element `(i, j)` in slice `(tm, tn)` of `C`. -/
def dst (tm tn i j : ℕ) : ℕ :=
  tm * args.threading.threadM.toNat + tn * args.threading.threadN.toNat * args.ldc + (i + j * args.ldc)

/-- The address of element `(i, j)` in the buffer of a thread. -/
def src (ithr i j : ℕ) : ℕ := ithr * args.cLocalStride + (i + j * args.ldcLocal)

/-- The numbers of rows and columns of slice `(tm, tn)`. -/
def rows (tm : ℕ) : ℕ := min args.threading.threadM.toNat (args.m - tm * args.threading.threadM.toNat)

def cols (tn : ℕ) : ℕ := min args.threading.threadN.toNat (args.n - tn * args.threading.threadN.toNat)

/-- What the driver relies on: a grid of threads in three dimensions, and columns that do not overlap. -/
structure WellFormed : Prop where
  partition : args.threading.partition = .mnk3d
  nthrsK_pos : 0 < args.threading.nthrsK
  le_ldc : args.m ≤ args.ldc

/-- `(i, j)` is an element of slice `(tm, tn)`. -/
structure IsElement (tm tn i j : ℕ) : Prop where
  tm_lt : tm < args.threading.nthrsM
  tn_lt : tn < args.threading.nthrsN
  i_lt : i < args.rows tm
  j_lt : j < args.cols tn

variable {args}

theorem slice_thread (hwf : args.WellFormed) {tm tn : ℕ} (tk : ℕ) (htm : tm < args.threading.nthrsM)
    (htn : tn < args.threading.nthrsN) :
    args.slice (args.thread tm tn tk) =
      ⟨tm * args.threading.threadM.toNat, tn * args.threading.threadN.toNat,
        tk * args.threading.threadK.toNat, args.rows tm, args.cols tn,
        min args.threading.threadK.toNat (args.k - tk * args.threading.threadK.toNat), tm, tn, tk⟩ :=
  args.threading.getThreadSlice_coords hwf.partition tk htm htn args.m args.n args.k

theorem thread_lt {tm tn tk : ℕ} (htm : tm < args.threading.nthrsM) (htn : tn < args.threading.nthrsN)
    (htk : tk < args.threading.nthrsK) : args.thread tm tn tk < args.threading.nthrs :=
  args.threading.coords_lt_nthrs htm htn htk

theorem thread_inj {tm tn tk tm' tn' tk' : ℕ} (htm : tm < args.threading.nthrsM)
    (htn : tn < args.threading.nthrsN) (htm' : tm' < args.threading.nthrsM)
    (htn' : tn' < args.threading.nthrsN) (h : args.thread tm tn tk = args.thread tm' tn' tk') :
    tm = tm' ∧ tn = tn' ∧ tk = tk' := by
  obtain ⟨hm, hjk⟩ := add_mul_inj htm htm' h
  exact ⟨hm, add_mul_inj htn htn' hjk⟩

/-- `thr_k_stride` leads from one k slice to the next. -/
theorem thread_eq (tm tn tk : ℕ) :
    args.thread tm tn tk = args.thread tm tn 0 + tk * args.threading.thrKStride := by
  unfold thread GemmThreading.thrKStride
  ring

theorem kThread_thread (hwf : args.WellFormed) {tm tn : ℕ} (tk thrK : ℕ)
    (htm : tm < args.threading.nthrsM) (htn : tn < args.threading.nthrsN) :
    args.kThread (args.thread tm tn tk) thrK = args.thread tm tn thrK := by
  have hslice := slice_thread hwf tk htm htn
  unfold kThread threadArg
  simp only [hslice]
  rw [thread_eq tm tn tk, thread_eq tm tn thrK]
  omega

theorem dst_inj (hwf : args.WellFormed) {tm tn i j tm' tn' i' j' : ℕ} (he : args.IsElement tm tn i j)
    (he' : args.IsElement tm' tn' i' j') (h : args.dst tm tn i j = args.dst tm' tn' i' j') :
    tm = tm' ∧ tn = tn' ∧ i = i' ∧ j = j' := by
  have hi := he.i_lt
  have hi' := he'.i_lt
  have hj := he.j_lt
  have hj' := he'.j_lt
  have hldc := hwf.le_ldc
  rw [rows, lt_min_iff] at hi hi'
  rw [cols, lt_min_iff] at hj hj'
  have heq : (i + tm * args.threading.threadM.toNat) + (j + tn * args.threading.threadN.toNat) * args.ldc =
      (i' + tm' * args.threading.threadM.toNat) +
        (j' + tn' * args.threading.threadN.toNat) * args.ldc := by
    unfold dst at h
    rw [Nat.add_mul, Nat.add_mul]
    omega
  obtain ⟨hrow, hcol⟩ := add_mul_inj (by omega) (by omega) heq
  obtain ⟨hi2, htm2⟩ := add_mul_inj hi.1 hi'.1 hrow
  obtain ⟨hj2, htn2⟩ := add_mul_inj hj.1 hj'.1 hcol
  exact ⟨htm2, htn2, hi2, hj2⟩

theorem rows_le_ldcLocal (hwf : args.WellFormed) {tm tn tk : ℕ} (htm : tm < args.threading.nthrsM)
    (htn : tn < args.threading.nthrsN) (htk : tk < args.threading.nthrsK) :
    args.rows tm ≤ args.ldcLocal := by
  have h := le_foldl_range_max (fun ithr => (args.slice ithr).m) (thread_lt htm htn htk)
  rw [slice_thread hwf tk htm htn] at h
  have hpadd : args.maxMt ≤ args.ldcLocal := by
    unfold ldcLocal getLdPadd
    exact le_trans (le_rndUp (by decide)) (Nat.le_add_right _ _)
  exact le_trans h hpadd

theorem cols_le_maxNt (hwf : args.WellFormed) {tm tn tk : ℕ} (htm : tm < args.threading.nthrsM)
    (htn : tn < args.threading.nthrsN) (htk : tk < args.threading.nthrsK) :
    args.cols tn ≤ args.maxNt := by
  have h := le_foldl_range_max (fun ithr => (args.slice ithr).n) (thread_lt htm htn htk)
  rwa [slice_thread hwf tk htm htn] at h

theorem src_inj (hwf : args.WellFormed) {tm tn tk i j tm' tn' tk' i' j' : ℕ}
    (he : args.IsElement tm tn i j) (he' : args.IsElement tm' tn' i' j')
    (htk : tk < args.threading.nthrsK) (htk' : tk' < args.threading.nthrsK)
    (h : args.src (args.thread tm tn tk) i j = args.src (args.thread tm' tn' tk') i' j') :
    tm = tm' ∧ tn = tn' ∧ tk = tk' ∧ i = i' ∧ j = j' := by
  have hi := lt_of_lt_of_le he.i_lt (rows_le_ldcLocal hwf he.tm_lt he.tn_lt htk)
  have hi' := lt_of_lt_of_le he'.i_lt (rows_le_ldcLocal hwf he'.tm_lt he'.tn_lt htk')
  have hj := lt_of_lt_of_le he.j_lt (cols_le_maxNt hwf he.tm_lt he.tn_lt htk)
  have hj' := lt_of_lt_of_le he'.j_lt (cols_le_maxNt hwf he'.tm_lt he'.tn_lt htk')
  have hlt : i + j * args.ldcLocal < args.cLocalStride := by
    rw [cLocalStride, Nat.mul_comm args.ldcLocal]
    exact add_mul_lt hi hj
  have hlt' : i' + j' * args.ldcLocal < args.cLocalStride := by
    rw [cLocalStride, Nat.mul_comm args.ldcLocal]
    exact add_mul_lt hi' hj'
  unfold src at h
  rw [Nat.add_comm, Nat.add_comm (args.thread tm' tn' tk' * _)] at h
  obtain ⟨hpos, hthread⟩ := add_mul_inj hlt hlt' h
  obtain ⟨hi2, hj2⟩ := add_mul_inj hi hi' hpos
  obtain ⟨hm, hn, hk⟩ := thread_inj he.tm_lt he.tn_lt he'.tm_lt he'.tn_lt hthread
  exact ⟨hm, hn, hk, hi2, hj2⟩

/-! ## The events of a thread -/

theorem computeEvents_thread (hwf : args.WellFormed) (result : ℕ → ℕ → ℕ → V) {tm tn : ℕ} (tk : ℕ)
    (htm : tm < args.threading.nthrsM) (htn : tn < args.threading.nthrsN) :
    args.computeEvents result (args.thread tm tn tk) =
      (List.range (args.cols tn)).flatMap fun j => (List.range (args.rows tm)).map fun i =>
        if args.kSumming && tk > 0 then
          .storeLocal (args.src (args.thread tm tn tk) i j) (result (args.thread tm tn tk) i j)
        else .storeC (args.dst tm tn i j) (result (args.thread tm tn tk) i j) := by
  unfold computeEvents threadArg
  simp only [slice_thread hwf tk htm htn]
  rfl

/-- The elements that a multiplication stores. -/
theorem mem_computeEvents (hwf : args.WellFormed) {result : ℕ → ℕ → ℕ → V} {tm tn tk : ℕ}
    (htm : tm < args.threading.nthrsM) (htn : tn < args.threading.nthrsN) {e : KEvent V} :
    e ∈ args.computeEvents result (args.thread tm tn tk) ↔ ∃ i j, args.IsElement tm tn i j ∧
      e = if args.kSumming && tk > 0 then
          .storeLocal (args.src (args.thread tm tn tk) i j) (result (args.thread tm tn tk) i j)
        else .storeC (args.dst tm tn i j) (result (args.thread tm tn tk) i j) := by
  rw [computeEvents_thread hwf result tk htm htn]
  simp only [List.mem_flatMap, List.mem_map, List.mem_range]
  constructor
  · rintro ⟨j, hj, i, hi, rfl⟩
    exact ⟨i, j, ⟨htm, htn, hi, hj⟩, rfl⟩
  · rintro ⟨i, j, he, rfl⟩
    exact ⟨j, he.j_lt, i, he.i_lt, rfl⟩

/-- The k slices in the order in which thread `ithrK` adds them. -/
def addOrder (nthrK ithrK : ℕ) : List ℕ :=
  (if ithrK > 0 then [ithrK] else []) ++ (List.range' 1 (nthrK - 1)).filter fun thrK => thrK != ithrK

theorem addOrder_perm {nthrK ithrK : ℕ} (h : ithrK < nthrK) :
    (addOrder nthrK ithrK).Perm (List.range' 1 (nthrK - 1)) := by
  unfold addOrder
  by_cases hpos : ithrK > 0
  · have hmem : ithrK ∈ List.range' 1 (nthrK - 1) := by
      rw [List.mem_range'_1]
      omega
    have hnd : (List.range' 1 (nthrK - 1)).Nodup := List.nodup_range'
    rw [if_pos hpos, List.singleton_append, ← hnd.erase_eq_filter ithrK]
    exact (List.perm_cons_erase hmem).symm
  · have hzero : ∀ thrK ∈ List.range' 1 (nthrK - 1), (thrK != ithrK) = true := by
      intro thrK hmem
      rw [List.mem_range'_1] at hmem
      simp only [bne_iff_ne]
      omega
    rw [if_neg hpos, List.nil_append, List.filter_eq_self.mpr hzero]

theorem sumKBlocks_eq (wait : Bool) (ithr : ℕ) :
    (args.sumKBlocks wait ithr : List (KEvent V)) =
      (addOrder args.threading.nthrsK (args.slice ithr).ithrK).flatMap fun thrK =>
        args.waitThread wait ithr (if thrK = (args.slice ithr).ithrK then 0 else thrK) ++
          args.addThreadResults ithr thrK := by
  have hnth : (args.threadArg ithr).nthrK = args.threading.nthrsK := rfl
  have hslice : (args.threadArg ithr).slice = args.slice ithr := rfl
  unfold sumKBlocks addOrder
  dsimp only
  rw [hnth, hslice, List.flatMap_append]
  congr 1
  · split_ifs <;> simp
  · induction List.range' 1 (args.threading.nthrsK - 1) with
    | nil => rfl
    | cons thrK l ih =>
      by_cases h : thrK = (args.slice ithr).ithrK
      · simpa [h] using ih
      · simpa [h] using ih

/-- The columns of slice `tn` that thread `tk` adds. -/
def band (args : KSumArgs) (tn tk : ℕ) : ℕ × ℕ := partition1d tk args.threading.nthrsK (args.cols tn)

theorem addThreadResults_thread (hwf : args.WellFormed) {tm tn : ℕ} (tk thrK : ℕ)
    (htm : tm < args.threading.nthrsM) (htn : tn < args.threading.nthrsN) :
    (args.addThreadResults (args.thread tm tn tk) thrK : List (KEvent V)) =
      (List.range (args.band tn tk).2).flatMap fun j => (List.range (args.rows tm)).flatMap fun i =>
        [.load (args.dst tm tn i ((args.band tn tk).1 + j)),
          .addStore (args.dst tm tn i ((args.band tn tk).1 + j))
            (args.src (args.thread tm tn thrK) i ((args.band tn tk).1 + j))] := by
  have hdst : ∀ i j, tm * args.threading.threadM.toNat + tn * args.threading.threadN.toNat * args.ldc +
      (args.band tn tk).1 * args.ldc + (i + j * args.ldc) =
      args.dst tm tn i ((args.band tn tk).1 + j) := by
    intro i j
    unfold dst
    rw [Nat.add_mul]
    omega
  have hsrc : ∀ i j, args.thread tm tn thrK * args.cLocalStride +
      (args.band tn tk).1 * args.ldcLocal + (i + j * args.ldcLocal) =
      args.src (args.thread tm tn thrK) i ((args.band tn tk).1 + j) := by
    intro i j
    unfold src
    rw [Nat.add_mul]
    omega
  unfold addThreadResults sumMatrices
  rw [kThread_thread hwf tk thrK htm htn]
  unfold threadArg
  simp only [slice_thread hwf _ htm htn, ← hdst, ← hsrc]
  rfl

/-- A thread adds the columns of its band. -/
theorem mem_addThreadResults (hwf : args.WellFormed) {tm tn tk thrK : ℕ}
    (htm : tm < args.threading.nthrsM) (htn : tn < args.threading.nthrsN)
    (htk : tk < args.threading.nthrsK) {e : KEvent V} :
    e ∈ (args.addThreadResults (args.thread tm tn tk) thrK : List (KEvent V)) ↔
      ∃ i j, args.IsElement tm tn i j ∧ tk = bandOf args.threading.nthrsK (args.cols tn) j ∧
        (e = .load (args.dst tm tn i j) ∨
          e = .addStore (args.dst tm tn i j) (args.src (args.thread tm tn thrK) i j)) := by
  rw [addThreadResults_thread hwf tk thrK htm htn]
  simp only [List.mem_flatMap, List.mem_range, List.mem_cons, List.not_mem_nil, or_false]
  constructor
  · rintro ⟨j, hj, i, hi, he⟩
    obtain ⟨hcol, hband⟩ := (mem_partition1d (n := args.cols tn) htk).mp
      ⟨Nat.le_add_right (args.band tn tk).1 j, Nat.add_lt_add_left hj _⟩
    exact ⟨i, (args.band tn tk).1 + j, ⟨htm, htn, hi, hcol⟩, hband, he⟩
  · rintro ⟨i, j, hel, hband, he⟩
    obtain ⟨hle, hlt⟩ := (mem_partition1d htk).mpr ⟨hel.j_lt, hband⟩
    change (args.band tn tk).1 ≤ j at hle
    change j < (args.band tn tk).1 + (args.band tn tk).2 at hlt
    refine ⟨j - (args.band tn tk).1, by omega, i, hel.i_lt, ?_⟩
    rwa [Nat.add_sub_cancel' hle]

theorem mem_waitThread {wait : Bool} {ithr thrK : ℕ} {e : KEvent V} :
    e ∈ args.waitThread wait ithr thrK ↔ wait = true ∧ e = .waitDone (args.kThread ithr thrK) := by
  unfold waitThread
  by_cases h : wait = true
  · simp [h]
  · simp [h]

/-- What a thread adds belongs to its slice and its band. -/
theorem adds_sumKBlocks (hwf : args.WellFormed) {wait : Bool} {tm tn tk a : ℕ}
    (htm : tm < args.threading.nthrsM) (htn : tn < args.threading.nthrsN)
    (htk : tk < args.threading.nthrsK) {e : KEvent V}
    (he : e ∈ args.sumKBlocks wait (args.thread tm tn tk)) (ha : e.Adds a) :
    ∃ i j, args.IsElement tm tn i j ∧ tk = bandOf args.threading.nthrsK (args.cols tn) j ∧
      a = args.dst tm tn i j ∧ ∀ s, e = .addStore a s →
        ∃ thrK ∈ addOrder args.threading.nthrsK tk, s = args.src (args.thread tm tn thrK) i j := by
  rw [sumKBlocks_eq, slice_thread hwf tk htm htn, List.mem_flatMap] at he
  obtain ⟨thrK, hthrK, he⟩ := he
  rcases List.mem_append.mp he with he | he
  · obtain ⟨-, rfl⟩ := mem_waitThread.mp he
    rcases ha with h | ⟨s, h⟩
    · cases h
    · cases h
  · obtain ⟨i, j, hel, hband, rfl | rfl⟩ := (mem_addThreadResults hwf htm htn htk).mp he
    · rcases ha with heq | ⟨s, heq⟩
      · cases heq
        exact ⟨i, j, hel, hband, rfl, by simp⟩
      · cases heq
    · rcases ha with heq | ⟨s, heq⟩
      · cases heq
      · cases heq
        refine ⟨i, j, hel, hband, rfl, ?_⟩
        intro s' hs'
        cases hs'
        exact ⟨thrK, hthrK, rfl⟩

theorem sumKBlocks_no_store (hwf : args.WellFormed) {wait : Bool} {tm tn tk : ℕ}
    (htm : tm < args.threading.nthrsM) (htn : tn < args.threading.nthrsN)
    (htk : tk < args.threading.nthrsK) {e : KEvent V}
    (he : e ∈ args.sumKBlocks wait (args.thread tm tn tk)) :
    ¬ e.IsStore ∧ ∀ q, e ≠ .setDone q := by
  rw [sumKBlocks_eq, List.mem_flatMap] at he
  obtain ⟨thrK, -, he⟩ := he
  rcases List.mem_append.mp he with he | he
  · obtain ⟨-, rfl⟩ := mem_waitThread.mp he
    exact ⟨id, by simp⟩
  · obtain ⟨i, j, -, -, rfl | rfl⟩ := (mem_addThreadResults hwf htm htn htk).mp he
    · exact ⟨id, by simp⟩
    · exact ⟨id, by simp⟩

/-! ## The additions to one element -/

theorem addsTo_flatMap {α : Type*} (a : ℕ) (l : List α) (f : α → List (KEvent V)) :
    addsTo a (l.flatMap f) = l.flatMap fun x => addsTo a (f x) := by
  unfold addsTo
  rw [List.filterMap_flatMap]

theorem addsTo_pair (a d s : ℕ) :
    addsTo a ([.load d, .addStore d s] : List (KEvent V)) = if d = a then [s] else [] := by
  by_cases h : d = a
  · simp [addsTo, h]
  · simp [addsTo, h]

theorem addsTo_waitThread (a : ℕ) (wait : Bool) (ithr thrK : ℕ) :
    addsTo a (args.waitThread wait ithr thrK : List (KEvent V)) = [] := by
  unfold waitThread
  split_ifs
  · rfl
  · rfl

/-- The thread in whose band the element is adds each buffer once. -/
theorem addsTo_addThreadResults (hwf : args.WellFormed) {tm tn tk i j : ℕ} (thrK : ℕ)
    (hel : args.IsElement tm tn i j) (htk : tk < args.threading.nthrsK)
    (hband : tk = bandOf args.threading.nthrsK (args.cols tn) j) :
    addsTo (args.dst tm tn i j) (args.addThreadResults (args.thread tm tn tk) thrK : List (KEvent V)) =
      [args.src (args.thread tm tn thrK) i j] := by
  obtain ⟨hle, hlt⟩ := (mem_partition1d htk).mpr ⟨hel.j_lt, hband⟩
  change (args.band tn tk).1 ≤ j at hle
  change j < (args.band tn tk).1 + (args.band tn tk).2 at hlt
  have hcol : ∀ jj < (args.band tn tk).2, (args.band tn tk).1 + jj < args.cols tn := by
    intro jj hjj
    exact ((mem_partition1d (n := args.cols tn) htk).mp
      ⟨Nat.le_add_right (args.band tn tk).1 jj, Nat.add_lt_add_left hjj _⟩).1
  have hmiss : ∀ jj < (args.band tn tk).2, ∀ ii < args.rows tm,
      ¬ (ii = i ∧ (args.band tn tk).1 + jj = j) →
      args.dst tm tn ii ((args.band tn tk).1 + jj) ≠ args.dst tm tn i j := by
    intro jj hjj ii hii hne heq
    obtain ⟨-, -, hi, hj⟩ := dst_inj hwf ⟨hel.tm_lt, hel.tn_lt, hii, hcol jj hjj⟩ hel heq
    exact hne ⟨hi, hj⟩
  rw [addThreadResults_thread hwf tk thrK hel.tm_lt hel.tn_lt, addsTo_flatMap]
  simp only [addsTo_flatMap, addsTo_pair]
  have hj : j - (args.band tn tk).1 < (args.band tn tk).2 := by omega
  have hadd : (args.band tn tk).1 + (j - (args.band tn tk).1) = j := Nat.add_sub_cancel' hle
  rw [flatMap_eq_of_unique List.nodup_range (List.mem_range.mpr hj),
    flatMap_eq_of_unique List.nodup_range (List.mem_range.mpr hel.i_lt)]
  · rw [hadd, if_pos rfl]
  · intro ii hii hne
    exact if_neg (hmiss _ hj ii (List.mem_range.mp hii) fun h => hne h.1)
  · intro jj hjj hne
    rw [List.flatMap_eq_nil_iff]
    intro ii hii
    refine if_neg (hmiss jj (List.mem_range.mp hjj) ii (List.mem_range.mp hii) fun h => hne ?_)
    omega

/-- The thread in whose band the element is adds the buffers of all other k slices. -/
theorem addsTo_sumKBlocks (hwf : args.WellFormed) (wait : Bool) {tm tn tk i j : ℕ}
    (hel : args.IsElement tm tn i j) (htk : tk < args.threading.nthrsK)
    (hband : tk = bandOf args.threading.nthrsK (args.cols tn) j) :
    addsTo (args.dst tm tn i j) (args.sumKBlocks wait (args.thread tm tn tk) : List (KEvent V)) =
      (addOrder args.threading.nthrsK tk).map fun thrK => args.src (args.thread tm tn thrK) i j := by
  rw [sumKBlocks_eq, slice_thread hwf tk hel.tm_lt hel.tn_lt, addsTo_flatMap]
  simp only [addsTo_append, addsTo_waitThread, List.nil_append,
    addsTo_addThreadResults hwf _ hel htk hband]
  exact List.map_eq_flatMap.symm

theorem addsTo_eq_nil_of_not_adds {a : ℕ} {l : List (KEvent V)} (h : ∀ e ∈ l, ¬ e.Adds a) :
    addsTo a l = [] := by
  rw [List.eq_nil_iff_forall_not_mem]
  intro s hs
  rw [mem_addsTo] at hs
  exact h _ hs (Or.inr ⟨s, rfl⟩)

/-! ## Loads in front of the stores -/

theorem paired_sumMatrices (m n dst ldDst src ldSrc : ℕ) (seen : List (KEvent V)) :
    Justified Paired seen (sumMatrices m n dst ldDst src ldSrc) := by
  refine justified_flatMap_of_forall ?_ seen
  intro j _ seen'
  refine justified_flatMap_of_forall ?_ seen'
  intro i _ seen''
  exact ⟨trivial, ⟨seen'', rfl⟩, trivial⟩

theorem paired_sumKBlocks (wait : Bool) (ithr : ℕ) (seen : List (KEvent V)) :
    Justified Paired seen (args.sumKBlocks wait ithr) := by
  rw [sumKBlocks_eq]
  refine justified_flatMap_of_forall ?_ seen
  intro thrK _ seen'
  rw [justified_append]
  refine ⟨justified_of_forall ?_ seen', paired_sumMatrices _ _ _ _ _ _ _⟩
  intro e he seen''
  obtain ⟨-, rfl⟩ := mem_waitThread.mp he
  trivial

theorem paired_computeEvents (result : ℕ → ℕ → ℕ → V) (ithr : ℕ) (seen : List (KEvent V)) :
    Justified Paired seen (args.computeEvents result ithr) := by
  refine justified_flatMap_of_forall ?_ seen
  intro j _ seen'
  refine justified_of_forall ?_ seen'
  intro e he seen''
  obtain ⟨i, -, rfl⟩ := List.mem_map.mp he
  split_ifs
  · trivial
  · trivial

end KSumArgs

end MklDnn
