import MklDnn.Reducer.Proofs.BalancerProofs
import MklDnn.Reducer.Proofs.DriverProofs

/-!
# Proofs: reduction of partial results

The threads of a group reduce different cache lines of the destination of the group, and nothing else that a
thread of the group reads is assigned to.
-/

open Interleaving

namespace MklDnn.CpuReducer

open Reducer2dDriver

variable {b : ReduceBalancer} {grp id i : ℕ}

/-! ## Local spaces -/

theorem getLocalPtr_zero (h : b.Valid) (grp i : ℕ) :
    getLocalPtr b (grp * b.nthrPerGroup) i = .dst (b.grpJobOff grp * b.jobSize + i) := by
  have hid : b.idInGroup (grp * b.nthrPerGroup) = 0 := @ReduceBalancer.idInGroup_eq b grp 0 h.nthrPerGroup_pos
  have hgrp : b.groupId (grp * b.nthrPerGroup) = grp := @ReduceBalancer.Valid.groupId_eq b h grp 0 h.nthrPerGroup_pos
  unfold getLocalPtr ReduceBalancer.ithrJobOff
  rw [hid, hgrp, if_pos rfl]

theorem getLocalPtr_succ (h : b.Valid) {k : ℕ} (hk : k + 1 < b.nthrPerGroup) (grp i : ℕ) :
    getLocalPtr b (grp * b.nthrPerGroup + (k + 1)) i =
      .space ((grp * (b.nthrPerGroup - 1) + k) * spacePerThread b + i) := by
  unfold getLocalPtr
  dsimp only
  rw [ReduceBalancer.idInGroup_eq hk, h.groupId_eq hk, if_neg (Nat.succ_ne_zero k), Nat.add_sub_cancel]

/-- The place of a thread: in front of the spaces of its group, or at one of them. -/
theorem getLocalPtr_cases (h : b.Valid) (ithr i : ℕ) :
    (b.idInGroup ithr = 0 ∧ getLocalPtr b ithr i = .dst (b.grpJobOff (b.groupId ithr) * b.jobSize + i)) ∨
      ∃ k, b.idInGroup ithr = k + 1 ∧ k < b.nthrPerGroup - 1 ∧ getLocalPtr b ithr i =
        .space ((b.groupId ithr * (b.nthrPerGroup - 1) + k) * spacePerThread b + i) := by
  have hlt := h.idInGroup_lt ithr
  rcases Nat.eq_zero_or_pos (b.idInGroup ithr) with hid | hid
  · left
    refine ⟨hid, ?_⟩
    unfold getLocalPtr ReduceBalancer.ithrJobOff
    rw [hid, if_pos rfl]
  · right
    obtain ⟨k, hk⟩ : ∃ k, b.idInGroup ithr = k + 1 := ⟨b.idInGroup ithr - 1, by omega⟩
    refine ⟨k, hk, by omega, ?_⟩
    unfold getLocalPtr
    dsimp only
    rw [hk, if_neg (Nat.succ_ne_zero k), Nat.add_sub_cancel]

/-- An idle thread has no partial results. -/
theorem groupId_lt_of_lt {ithr : ℕ} (hi : i < reductionSize b ithr) : b.groupId ithr < b.ngroups := by
  by_contra hge
  have hzero : b.grpNjobs (b.groupId ithr) = 0 := if_pos (Nat.not_lt.mp hge)
  unfold reductionSize ReduceBalancer.ithrNjobs at hi
  rw [hzero, Nat.zero_mul] at hi
  omega

/-- The partial results of a thread fit into its space. -/
theorem lt_spacePerThread (h : b.Valid) {ithr : ℕ} (hi : i < reductionSize b ithr) : i < spacePerThread b :=
  hi.trans_le (Nat.mul_le_mul_right _ (h.grpNjobs_le _))

/-- The jobs of the destination of a group. -/
theorem job_of_dst {off n js x : ℕ} (hlow : off * js ≤ x) (hhigh : x < (off + n) * js) :
    off ≤ x / js ∧ x / js < off + n := by
  have hjs : 0 < js := by
    rcases Nat.eq_zero_or_pos js with rfl | hjs
    · omega
    · exact hjs
  exact ⟨(Nat.le_div_iff_mul_le hjs).mpr hlow, (Nat.div_lt_iff_lt_mul hjs).mpr hhigh⟩

/-- Different groups have different parts of the destination. -/
theorem dst_unique (h : b.Valid) {grp' i' : ℕ} (hgrp : grp < b.ngroups) (hgrp' : grp' < b.ngroups)
    (hi : i < b.grpNjobs grp * b.jobSize) (hi' : i' < b.grpNjobs grp' * b.jobSize)
    (heq : b.grpJobOff grp * b.jobSize + i = b.grpJobOff grp' * b.jobSize + i') : grp = grp' := by
  have hjob := @job_of_dst (b.grpJobOff grp) (b.grpNjobs grp) b.jobSize (b.grpJobOff grp * b.jobSize + i)
    (Nat.le_add_right _ _) (by rw [Nat.add_mul]; omega)
  have hjob' := @job_of_dst (b.grpJobOff grp') (b.grpNjobs grp') b.jobSize (b.grpJobOff grp * b.jobSize + i)
    (by omega) (by rw [Nat.add_mul]; omega)
  exact h.group_unique hgrp hgrp' hjob hjob'

/-- The local spaces of different threads are disjoint. -/
theorem getLocalPtr_unique (h : b.Valid) {p q k : ℕ} (hi : i < reductionSize b p) (hk : k < reductionSize b q)
    (heq : getLocalPtr b p i = getLocalPtr b q k) : p = q := by
  have hgp := groupId_lt_of_lt hi
  have hgq := groupId_lt_of_lt hk
  have hthread : b.groupId p = b.groupId q → b.idInGroup p = b.idInGroup q → p = q := by
    intro hgroup hid
    rw [ReduceBalancer.ithr_eq (b := b) p, ReduceBalancer.ithr_eq (b := b) q, hgroup, hid]
  rcases getLocalPtr_cases h p i with ⟨hidp, hp⟩ | ⟨idp, hidp, hltp, hp⟩
  · rcases getLocalPtr_cases h q k with ⟨hidq, hq⟩ | ⟨idq, hidq, hltq, hq⟩
    · rw [hp, hq] at heq
      injection heq with heq
      exact hthread (dst_unique h hgp hgq hi hk heq) (hidp.trans hidq.symm)
    · rw [hp, hq] at heq
      cases heq
  · rcases getLocalPtr_cases h q k with ⟨hidq, hq⟩ | ⟨idq, hidq, hltq, hq⟩
    · rw [hp, hq] at heq
      cases heq
    · rw [hp, hq] at heq
      injection heq with heq
      rw [Nat.add_comm, Nat.add_comm (_ * spacePerThread b) k] at heq
      obtain ⟨-, hspace⟩ := add_mul_inj (lt_spacePerThread h hi) (lt_spacePerThread h hk) heq
      rw [Nat.add_comm, Nat.add_comm (_ * _) idq] at hspace
      obtain ⟨hid, hgroup⟩ := add_mul_inj hltp hltq hspace
      exact hthread hgroup (by omega)

/-- The element is in the destination or in what is booked. -/
def Inside (b : ReduceBalancer) : Elem → Prop
  | .dst i => i < b.njobs * b.jobSize
  | .space i => i < spaceSize b
  | .reg _ _ => False

theorem getLocalPtr_inside (h : b.Valid) {ithr : ℕ} (hi : i < reductionSize b ithr) : Inside b (getLocalPtr b ithr i) := by
  have hgrp := groupId_lt_of_lt hi
  rcases getLocalPtr_cases h ithr i with ⟨-, hptr⟩ | ⟨k, -, hk, hptr⟩
  · rw [hptr]
    have hle : (b.grpJobOff (b.groupId ithr) + b.grpNjobs (b.groupId ithr)) * b.jobSize ≤ b.njobs * b.jobSize :=
      Nat.mul_le_mul_right _ (h.grpJobOff_le hgrp)
    rw [Nat.add_mul] at hle
    show b.grpJobOff (b.groupId ithr) * b.jobSize + i < b.njobs * b.jobSize
    have hlt : i < b.grpNjobs (b.groupId ithr) * b.jobSize := hi
    omega
  · rw [hptr]
    show _ < spaceSize b
    unfold spaceSize
    rw [if_neg (by omega)]
    have hlt := lt_spacePerThread h hi
    have hrow : b.groupId ithr * (b.nthrPerGroup - 1) + k + 1 ≤ b.ngroups * (b.nthrPerGroup - 1) := by
      have hmul : (b.groupId ithr + 1) * (b.nthrPerGroup - 1) ≤ b.ngroups * (b.nthrPerGroup - 1) :=
        Nat.mul_le_mul_right _ hgrp
      rw [Nat.succ_mul] at hmul
      omega
    have hspace := Nat.mul_le_mul_right (spacePerThread b) hrow
    rw [Nat.succ_mul] at hspace
    omega

/-! ## The slices of a group -/

/-- The elements of the group that a thread reduces. -/
def Slice (b : ReduceBalancer) (ithr i : ℕ) : Prop := (lines b ithr).1 * cl ≤ i ∧ i < (lines b ithr).1 * cl + len b ithr

theorem slice_iff {ithr : ℕ} : Slice b ithr i ↔
    ((lines b ithr).1 ≤ i / cl ∧ i / cl < (lines b ithr).2) ∧ i < reductionSize b ithr := by
  have hle : (lines b ithr).1 ≤ (lines b ithr).2 := balance211_fst_le_snd _ _ _
  unfold Slice len
  have hcl : cl = 16 := rfl
  rw [hcl]
  omega

section Group

variable (h : b.Valid)

include h

theorem reductionSize_eq (hid : id < b.nthrPerGroup) :
    reductionSize b (grp * b.nthrPerGroup + id) = b.grpNjobs grp * b.jobSize := by
  unfold reductionSize ReduceBalancer.ithrNjobs
  rw [h.groupId_eq hid]

theorem lines_eq (hid : id < b.nthrPerGroup) : lines b (grp * b.nthrPerGroup + id) =
    balance211 (divUp (b.grpNjobs grp * b.jobSize) cl) b.nthrPerGroup id := by
  unfold lines
  rw [reductionSize_eq h hid, ReduceBalancer.idInGroup_eq hid]

/-- Every element of the destination of a group is in the slice of a thread. -/
theorem exists_slice (hi : i < b.grpNjobs grp * b.jobSize) :
    ∃ id < b.nthrPerGroup, Slice b (grp * b.nthrPerGroup + id) i := by
  have hline : i / cl < divUp (b.grpNjobs grp * b.jobSize) cl := by
    have hup := @le_rndUp (b.grpNjobs grp * b.jobSize) cl (by decide)
    rw [rndUp_eq] at hup
    rw [Nat.div_lt_iff_lt_mul (by decide)]
    omega
  obtain ⟨id, hid, hrange⟩ := exists_balance211 h.nthrPerGroup_pos hline
  refine ⟨id, hid, slice_iff.mpr ⟨?_, ?_⟩⟩
  · rw [lines_eq h hid]
    exact hrange
  · rw [reductionSize_eq h hid]
    exact hi

theorem slice_unique {id' : ℕ} (hid : id < b.nthrPerGroup) (hid' : id' < b.nthrPerGroup)
    (hi : Slice b (grp * b.nthrPerGroup + id) i) (hi' : Slice b (grp * b.nthrPerGroup + id') i) : id = id' := by
  rw [slice_iff, lines_eq h hid] at hi
  rw [slice_iff, lines_eq h hid'] at hi'
  exact balance211_unique hid hid' hi.1 hi'.1

/-- The threads of a group have something to reduce. -/
theorem redundantReduction_eq_false (hred : b.nthrPerGroup ≠ 1) (hgrp : grp < b.ngroups) (hid : id < b.nthrPerGroup) :
    redundantReduction b (grp * b.nthrPerGroup + id) = false := by
  unfold redundantReduction
  rw [decide_eq_false_iff_not, h.idle_eq_false_iff.mpr (by rw [h.groupId_eq hid]; exact hgrp)]
  rintro (hone | hidle)
  · exact hred hone
  · cases hidle

/-- The program of a thread reduces its slice. -/
theorem reduceNolock_reduces {V : Type*} [Add V] [Zero V] (isa : IsaTraits) (hred : b.nthrPerGroup ≠ 1)
    (hgrp : grp < b.ngroups) (hid : id < b.nthrPerGroup) :
    Reduces (V := V) (drv b isa) (.reg (grp * b.nthrPerGroup + id))
      (fun x => .dst (b.grpJobOff grp * b.jobSize + ((lines b (grp * b.nthrPerGroup + id)).1 * cl + x)))
      (fun x => .space (grp * (b.nthrPerGroup - 1) * spacePerThread b +
        ((lines b (grp * b.nthrPerGroup + id)).1 * cl + x)))
      0 (len b (grp * b.nthrPerGroup + id)) (reduceNolock b isa (grp * b.nthrPerGroup + id)) := by
  unfold reduceNolock
  rw [redundantReduction_eq_false h hred hgrp hid, if_neg Bool.false_ne_true]
  dsimp only
  split_ifs with hempty
  · have hlen : len b (grp * b.nthrPerGroup + id) = 0 := by
      unfold len
      rw [hempty]
      omega
    rw [hlen]
    exact reduces_nil 0
  · have hmaster : grp * b.nthrPerGroup + id - b.idInGroup (grp * b.nthrPerGroup + id) = grp * b.nthrPerGroup := by
      rw [ReduceBalancer.idInGroup_eq hid, Nat.add_sub_cancel]
    have hpos := h.nthrPerGroup_pos
    have hsep : Separate (A := Elem) (.reg (grp * b.nthrPerGroup + id))
        (fun x => .dst (b.grpJobOff grp * b.jobSize + ((lines b (grp * b.nthrPerGroup + id)).1 * cl + x)))
        (fun x => .space (grp * (b.nthrPerGroup - 1) * spacePerThread b +
          ((lines b (grp * b.nthrPerGroup + id)).1 * cl + x))) := by
      constructor
      · intro r r' heq
        injection heq
      · intro x x' heq
        injection heq with heq
        omega
      · intro x r heq
        cases heq
      · intro x r heq
        cases heq
      · intro x y heq
        cases heq
    have hloop : Reduces (V := V) (drv b isa) _ _ _ 0 (len b (grp * b.nthrPerGroup + id)) _ := loopX_reduces hsep _
    rw [hmaster]
    unfold ker
    rw [List.range_one, List.flatMap_cons, List.flatMap_nil, List.append_nil]
    simp only [getLocalPtr_zero h, getLocalPtr_succ h (k := 0) (by omega : 0 + 1 < b.nthrPerGroup), Nat.zero_mul,
      Nat.zero_add, Nat.add_zero]
    exact hloop

/-! ## The reduction of a group -/

/-- The element belongs to a group: to its part of the destination, to the local spaces of its threads, or to their
registers. -/
def InGroup (b : ReduceBalancer) (grp : ℕ) : Elem → Prop
  | .dst i => b.grpJobOff grp * b.jobSize ≤ i ∧ i < (b.grpJobOff grp + b.grpNjobs grp) * b.jobSize
  | .space i => ∃ k < b.nthrPerGroup - 1, ∃ x < spacePerThread b,
      i = (grp * (b.nthrPerGroup - 1) + k) * spacePerThread b + x
  | .reg ithr _ => b.groupId ithr = grp

/-- The threads of a group have passed the barrier of the group. The other threads do whatever they do to what does
not belong to the group. -/
structure GroupRuns {V : Type*} [Add V] [Zero V] (b : ReduceBalancer) (isa : IsaTraits) (grp : ℕ)
    (progs : ℕ → List (Assign Elem V)) : Prop where
  reduces : ∀ ithr, b.groupId ithr = grp → progs ithr = reduceNolock b isa ithr
  others : ∀ ithr, b.groupId ithr ≠ grp → ∀ e ∈ progs ithr, ¬ InGroup b grp e.dst

/-- The partial results of the threads of a group, added up in the order of the threads. -/
def groupSum {V : Type*} [Add V] (b : ReduceBalancer) (grp : ℕ) (m : Elem → V) (i : ℕ) : V :=
  (List.range (b.nthrPerGroup - 1)).foldl
    (fun acc k => acc + m (getLocalPtr b (grp * b.nthrPerGroup + (k + 1)) i))
    (m (getLocalPtr b (grp * b.nthrPerGroup) i))

omit h in
theorem groupRuns_private {V : Type*} [Add V] [Zero V] {isa : IsaTraits} {progs : ℕ → List (Assign Elem V)}
    (hruns : GroupRuns b isa grp progs) {p : ℕ} {a : Elem} (ha : InGroup b grp a)
    (hgroup : ∀ q, q ≠ p → b.groupId q = grp → ∀ e ∈ reduceNolock (V := V) b isa q, e.dst ≠ a) :
    Private progs p a := by
  intro q hq e he heq
  by_cases hqg : b.groupId q = grp
  · rw [hruns.reduces q hqg] at he
    exact hgroup q hq hqg e he heq
  · exact hruns.others q hqg e he (heq ▸ ha)

/-- What a thread of the group assigns to: its registers and its slice. -/
theorem mem_reduceNolock {V : Type*} [Add V] [Zero V] {isa : IsaTraits} (hgrp : grp < b.ngroups) {p : ℕ}
    (hp : b.groupId p = grp) {e : Assign Elem V} (he : e ∈ reduceNolock b isa p) :
    (∃ r, e.dst = .reg p r) ∨ ∃ i, Slice b p i ∧ e.dst = .dst (b.grpJobOff grp * b.jobSize + i) := by
  have hred : b.nthrPerGroup ≠ 1 := by
    intro hone
    have hredundant : redundantReduction b p = true := decide_eq_true (Or.inl hone)
    unfold reduceNolock at he
    rw [if_pos hredundant] at he
    cases he
  have hid := h.idInGroup_lt p
  have hthread := ReduceBalancer.ithr_eq (b := b) p
  rw [hp] at hthread
  rw [hthread] at he ⊢
  rcases (reduceNolock_reduces h isa hred hgrp hid).frame e he with hreg | ⟨x, -, hx, hdst⟩
  · exact Or.inl hreg
  · refine Or.inr ⟨_, ⟨Nat.le_add_right _ x, ?_⟩, hdst⟩
    omega

/-- In any order of the threads, the destination of a group gets the sum of the partial results. -/
theorem execAll_reduceNolock {V : Type*} [Add V] [Zero V] {isa : IsaTraits} {progs : ℕ → List (Assign Elem V)}
    {o : List (ℕ × Assign Elem V)} (hgrp : grp < b.ngroups) (hruns : GroupRuns b isa grp progs) (ho : IsOrder progs o)
    (m : Elem → V) (hi : i < b.grpNjobs grp * b.jobSize) :
    execAll (o.map Prod.snd) m (.dst (b.grpJobOff grp * b.jobSize + i)) = groupSum b grp m i := by
  have hin : InGroup b grp (.dst (b.grpJobOff grp * b.jobSize + i)) := by
    refine ⟨Nat.le_add_right _ _, ?_⟩
    rw [Nat.add_mul]
    omega
  obtain ⟨id, hid, hslice⟩ := exists_slice h hi
  by_cases hred : b.nthrPerGroup = 1
  · -- nobody reduces, there is one partial result
    have hsum : groupSum b grp m i = m (.dst (b.grpJobOff grp * b.jobSize + i)) := by
      unfold groupSum
      rw [hred, List.range_zero, List.foldl_nil, ← hred, getLocalPtr_zero h]
    rw [hsum]
    apply execAll_order_of_ne ho
    intro p e he heq
    by_cases hp : b.groupId p = grp
    · have hredundant : redundantReduction b p = true := decide_eq_true (Or.inl hred)
      rw [hruns.reduces p hp] at he
      unfold reduceNolock at he
      rw [if_pos hredundant] at he
      cases he
    · exact hruns.others p hp e he (heq ▸ hin)
  · have hreduces := reduceNolock_reduces (V := V) h isa hred hgrp hid
    set p := grp * b.nthrPerGroup + id with hp
    have hgroup : b.groupId p = grp := h.groupId_eq hid
    -- no other thread assigns to the slice
    have hdst : ∀ i, Slice b p i → Private progs p (.dst (b.grpJobOff grp * b.jobSize + i)) := by
      intro i hi
      have hlt : i < b.grpNjobs grp * b.jobSize := by
        rw [← reductionSize_eq h hid]
        exact (slice_iff.mp hi).2
      apply groupRuns_private hruns
      · refine ⟨Nat.le_add_right _ _, ?_⟩
        rw [Nat.add_mul]
        omega
      · intro q hq hqg e he heq
        rcases mem_reduceNolock h hgrp hqg he with ⟨r, hreg⟩ | ⟨i', hi', hdst⟩
        · rw [hreg] at heq
          cases heq
        · rw [hdst] at heq
          injection heq with heq
          obtain rfl : i' = i := by omega
          have hthread := ReduceBalancer.ithr_eq (b := b) q
          rw [hqg] at hthread
          rw [hthread] at hi' hq
          apply hq
          rw [hp, slice_unique h (h.idInGroup_lt q) hid hi' hi]
    -- a thread has its registers
    have hreg : ∀ r, Private progs p (.reg p r) := by
      intro r
      have hin : InGroup b grp (.reg p r) := hgroup
      apply groupRuns_private hruns hin
      intro q hq hqg e he heq
      rcases mem_reduceNolock h hgrp hqg he with ⟨r', hreg⟩ | ⟨i', -, hdst⟩
      · rw [hreg] at heq
        injection heq with heq
        exact hq heq
      · rw [hdst] at heq
        cases heq
    -- after the barrier nobody assigns to the local spaces
    have hspace : ∀ k < b.nthrPerGroup - 1, ∀ x < spacePerThread b,
        Private progs p (.space ((grp * (b.nthrPerGroup - 1) + k) * spacePerThread b + x)) := by
      intro k hk x hx
      apply groupRuns_private hruns
      · exact ⟨k, hk, x, hx, rfl⟩
      · intro q _ hqg e he heq
        rcases mem_reduceNolock h hgrp hqg he with ⟨r', hreg⟩ | ⟨i', -, hdst⟩
        · rw [hreg] at heq
          cases heq
        · rw [hdst] at heq
          cases heq
    have hprog : progs p = reduceNolock b isa p := hruns.reduces p hgroup
    have hreads : ∀ e ∈ progs p, ∀ m m' : Elem → V, (∀ a, Private progs p a → m a = m' a) → e.value m = e.value m' := by
      intro e he m m' hm
      rw [hprog] at he
      apply hreduces.reads e he
      · intro r
        exact hm _ (hreg r)
      · intro x _ hx
        exact hm _ (hdst _ ⟨Nat.le_add_right _ x, by omega⟩)
      · intro k hk x _ hx
        have hlt : (lines b p).1 * cl + x < reductionSize b p :=
          (slice_iff.mp (⟨Nat.le_add_right _ x, by omega⟩ : Slice b p ((lines b p).1 * cl + x))).2
        have hpriv := hm _ (hspace k hk _ (lt_spacePerThread h hlt))
        rw [Nat.add_mul, Nat.add_assoc] at hpriv
        show m (.space (_ + (_ + (k * spacePerThread b + x)))) = m' (.space (_ + (_ + (k * spacePerThread b + x))))
        rw [Nat.add_left_comm (_ * cl)]
        exact hpriv
    obtain ⟨x, rfl⟩ : ∃ x, i = (lines b p).1 * cl + x := ⟨i - (lines b p).1 * cl, by have := hslice.1; omega⟩
    have hx : x < 0 + len b p := by
      have := hslice.2
      omega
    rw [execAll_order_of_private hreads ho (hdst _ hslice), hprog, hreduces.value m x (Nat.zero_le x) hx]
    unfold total groupSum
    rw [getLocalPtr_zero h]
    show List.foldl _ (m _) (List.range (b.nthrPerGroup - 1)) = _
    apply List.foldl_ext
    intro acc k hk
    rw [List.mem_range] at hk
    rw [getLocalPtr_succ h (by omega), Nat.add_mul, Nat.add_assoc]
    show acc + m (.space (_ + (_ + (k * spacePerThread b + x)))) = _
    rw [Nat.add_left_comm (_ * cl)]

/-- A thread with something to reduce is in a group. -/
theorem groupId_lt_of_mem {V : Type*} [Add V] [Zero V] {isa : IsaTraits} {p : ℕ} {e : Assign Elem V}
    (he : e ∈ reduceNolock b isa p) : b.groupId p < b.ngroups := by
  rw [← h.idle_eq_false_iff]
  by_contra hidle
  have hredundant : redundantReduction b p = true := decide_eq_true (Or.inr (Bool.eq_true_of_not_eq_false hidle))
  unfold reduceNolock at he
  rw [if_pos hredundant] at he
  cases he

/-- Every element of the destination is reduced by one thread. -/
theorem existsUnique_reduces {V : Type*} [Add V] [Zero V] (isa : IsaTraits) (hred : b.nthrPerGroup ≠ 1) {x : ℕ}
    (hx : x < b.njobs * b.jobSize) :
    ∃! p, p < b.nthr ∧ ∃ e ∈ reduceNolock (V := V) b isa p, e.dst = .dst x := by
  have hjs : 0 < b.jobSize := Nat.pos_of_ne_zero fun h0 => by
    rw [h0] at hx
    omega
  obtain ⟨grp, hgrp, hoff, hend⟩ := h.exists_group ((Nat.div_lt_iff_lt_mul hjs).mpr hx)
  rw [Nat.le_div_iff_mul_le hjs] at hoff
  rw [Nat.div_lt_iff_lt_mul hjs, Nat.add_mul] at hend
  obtain ⟨i, rfl⟩ : ∃ i, x = b.grpJobOff grp * b.jobSize + i := ⟨x - b.grpJobOff grp * b.jobSize, by omega⟩
  have hi : i < b.grpNjobs grp * b.jobSize := by omega
  obtain ⟨id, hid, hslice⟩ := exists_slice h hi
  refine ⟨grp * b.nthrPerGroup + id, ⟨h.ithr_lt hgrp hid, ?_⟩, ?_⟩
  · have hstores := (reduceNolock_reduces (V := V) h isa hred hgrp hid).stores
    obtain ⟨r, rfl⟩ : ∃ r, i = (lines b (grp * b.nthrPerGroup + id)).1 * cl + r :=
      ⟨i - (lines b (grp * b.nthrPerGroup + id)).1 * cl, by have := hslice.1; omega⟩
    apply hstores r (Nat.zero_le r)
    have := hslice.2
    omega
  · rintro q ⟨-, e, he, hdst⟩
    have hgrpq := groupId_lt_of_mem h he
    rcases mem_reduceNolock h hgrpq rfl he with ⟨r, hreg⟩ | ⟨i', hi', hdst'⟩
    · rw [hreg] at hdst
      cases hdst
    · have hthread := ReduceBalancer.ithr_eq (b := b) q
      have hlt' : i' < b.grpNjobs (b.groupId q) * b.jobSize := (slice_iff.mp hi').2
      rw [hdst'] at hdst
      injection hdst with heq
      have hgroup := dst_unique h hgrpq hgrp hlt' hi heq
      rw [hgroup] at heq hthread
      obtain rfl : i' = i := by omega
      rw [hthread] at hi' ⊢
      rw [slice_unique h (h.idInGroup_lt q) hid hi' hslice]

end Group

/-- For every balance: the local spaces of the threads are disjoint, they are in the destination or in what is booked,
every element is reduced by one thread, and in any order of the threads after the barrier of a group every job of the
group gets the sum of the partial results. -/
theorem reduceNolock_correct {V : Type*} [Add V] [Zero V] (isa : IsaTraits) (allowNthrInGroup : Bool)
    (nthr jobSize njobs reductionSize maxBufferSize : ℕ) (hnthr : 0 < nthr) (hnjobs : 0 < njobs)
    (hreduction : 0 < reductionSize) (b : ReduceBalancer)
    (hb : b = .init allowNthrInGroup nthr jobSize njobs reductionSize maxBufferSize) :
    (∀ p q i k, i < CpuReducer.reductionSize b p → k < CpuReducer.reductionSize b q → p ≠ q →
        getLocalPtr b p i ≠ getLocalPtr b q k) ∧
      (∀ p i, i < CpuReducer.reductionSize b p → Inside b (getLocalPtr b p i)) ∧
      (b.nthrPerGroup ≠ 1 → ∀ x < njobs * jobSize,
        ∃! p, p < nthr ∧ ∃ e ∈ reduceNolock (V := V) b isa p, e.dst = .dst x) ∧
      ∀ job < njobs, ∃ grp < b.ngroups, (b.grpJobOff grp ≤ job ∧ job < b.grpJobOff grp + b.grpNjobs grp) ∧
        ∀ (progs : ℕ → List (Assign Elem V)) (o : List (ℕ × Assign Elem V)) (m : Elem → V),
          GroupRuns b isa grp progs → IsOrder progs o → ∀ x < jobSize,
            execAll (o.map Prod.snd) m (.dst (job * jobSize + x)) =
              groupSum b grp m ((job - b.grpJobOff grp) * jobSize + x) := by
  have h : b.Valid := by
    rw [hb]
    exact ReduceBalancer.init_valid hnthr hnjobs hreduction
  have hsizes : b.nthr = nthr ∧ b.njobs = njobs ∧ b.jobSize = jobSize := by
    rw [hb]
    exact ⟨rfl, rfl, rfl⟩
  obtain ⟨rfl, rfl, rfl⟩ := hsizes
  refine ⟨?_, ?_, ?_, ?_⟩
  · intro p q i k hi hk hne heq
    exact hne (getLocalPtr_unique h hi hk heq)
  · intro p i hi
    exact getLocalPtr_inside h hi
  · intro hred x hx
    exact existsUnique_reduces h isa hred hx
  · intro job hjob
    obtain ⟨grp, hgrp, hoff, hend⟩ := h.exists_group hjob
    refine ⟨grp, hgrp, ⟨hoff, hend⟩, ?_⟩
    intro progs o m hruns ho x hx
    have hi : (job - b.grpJobOff grp) * b.jobSize + x < b.grpNjobs grp * b.jobSize := by
      have hrow : (job - b.grpJobOff grp + 1) * b.jobSize ≤ b.grpNjobs grp * b.jobSize :=
        Nat.mul_le_mul_right _ (by omega)
      rw [Nat.succ_mul] at hrow
      omega
    have hdst : job * b.jobSize + x = b.grpJobOff grp * b.jobSize + ((job - b.grpJobOff grp) * b.jobSize + x) := by
      rw [← Nat.add_assoc, ← Nat.add_mul, Nat.add_sub_cancel' hoff]
    rw [hdst]
    exact execAll_reduceNolock h hgrp hruns ho m hi

/-- Two groups of two threads: job 1 is reduced from the destination and from the local space of thread 3. -/
theorem reduceNolock_two_jobs : ∃ grp < 2, ∀ (progs : ℕ → List (Assign Elem ℕ)) (o : List (ℕ × Assign Elem ℕ))
    (m : Elem → ℕ), GroupRuns (.init true 4 3 2 8 1000) .avx2 grp progs → IsOrder progs o →
      execAll (o.map Prod.snd) m (.dst 5) = m (.dst 5) + m (.space 5) := by
  obtain ⟨grp, hgrp, ⟨-, hend⟩, hsum⟩ := (reduceNolock_correct (V := ℕ) .avx2 true 4 3 2 8 1000 (by decide) (by decide)
    (by decide) _ rfl).2.2.2 1 (by decide)
  have hfirst : (ReduceBalancer.init true 4 3 2 8 1000).grpJobOff 0 +
      (ReduceBalancer.init true 4 3 2 8 1000).grpNjobs 0 = 1 := by decide
  have hne : grp ≠ 0 := by
    rintro rfl
    omega
  have hngroups : (ReduceBalancer.init true 4 3 2 8 1000).ngroups = 2 := by decide
  obtain rfl : grp = 1 := by omega
  refine ⟨1, by decide, ?_⟩
  intro progs o m hruns ho
  exact hsum progs o m hruns ho 2 (by decide)

end MklDnn.CpuReducer
