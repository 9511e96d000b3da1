import Mathlib.Tactic.Common
import MklDnn.Common.Threading

/-!
# Proofs: the barrier separates the rounds

The sense of the context belongs to the round that is going on. A thread of this round that has read the sense holds it; a
thread of the round before waits for the other one.
-/

namespace MklDnn.SimpleBarrier

/-! ## States -/

namespace Pc

/-- The sense that the thread holds. -/
def saved : Pc → Option UInt64
  | .outside => none
  | .readSense => none
  | .addCtr x => some x
  | .resetCtr x => some x
  | .flipSense x => some x
  | .spin x => some x

/-- The thread has counted itself. -/
def arrived : Pc → Bool
  | .resetCtr _ => true
  | .flipSense _ => true
  | .spin _ => true
  | _ => false

/-- The thread is the last one of its round. -/
def last : Pc → Bool
  | .resetCtr _ => true
  | .flipSense _ => true
  | _ => false

end Pc

@[simp] theorem State.set_ctx (s : State) (p : ℕ) (t : Thread) (ctx : Ctx) : (s.set p t ctx).ctx = ctx := rfl

@[simp] theorem State.set_threads_self (s : State) (p : ℕ) (t : Thread) (ctx : Ctx) : (s.set p t ctx).threads p = t :=
  Function.update_self ..

theorem State.set_threads_of_ne {p q : ℕ} (h : q ≠ p) (s : State) (t : Thread) (ctx : Ctx) :
    (s.set p t ctx).threads q = s.threads q :=
  Function.update_of_ne h ..

/-- The threads that have arrived in round `k`. -/
def arrivedIn (n : ℕ) (s : State) (k : ℕ) : Finset ℕ :=
  (Finset.range n).filter fun q => (s.threads q).left = k ∧ (s.threads q).pc.arrived = true

theorem mem_arrivedIn {n : ℕ} {s : State} {k q : ℕ} :
    q ∈ arrivedIn n s k ↔ q < n ∧ (s.threads q).left = k ∧ (s.threads q).pc.arrived = true := by
  unfold arrivedIn
  rw [Finset.mem_filter, Finset.mem_range]

/-- A step that is no arrival. -/
theorem arrivedIn_set {n : ℕ} {s : State} {p k : ℕ} {t : Thread} {ctx : Ctx}
    (h : (t.left = k ∧ t.pc.arrived = true) ↔ (s.threads p).left = k ∧ (s.threads p).pc.arrived = true) :
    arrivedIn n (s.set p t ctx) k = arrivedIn n s k := by
  ext q
  rw [mem_arrivedIn, mem_arrivedIn]
  by_cases hq : q = p
  · rw [hq, State.set_threads_self, h]
  · rw [State.set_threads_of_ne hq]

/-- An arrival. -/
theorem arrivedIn_insert {n : ℕ} {s : State} {p k : ℕ} {t : Thread} {ctx : Ctx} (hp : p < n) (hleft : t.left = k)
    (harrived : t.pc.arrived = true) : arrivedIn n (s.set p t ctx) k = insert p (arrivedIn n s k) := by
  ext q
  rw [Finset.mem_insert, mem_arrivedIn, mem_arrivedIn]
  by_cases hq : q = p
  · rw [hq, State.set_threads_self]
    simp [hp, hleft, harrived]
  · rw [State.set_threads_of_ne hq]
    simp [hq]

theorem card_arrivedIn_le (n : ℕ) (s : State) (k : ℕ) : (arrivedIn n s k).card ≤ n := by
  have hle := Finset.card_filter_le (Finset.range n) fun q => (s.threads q).left = k ∧ (s.threads q).pc.arrived = true
  rw [Finset.card_range] at hle
  exact hle

/-- If every thread of the round has arrived, all `n` are counted. -/
theorem arrived_of_card {n : ℕ} {s : State} {k : ℕ} (h : (arrivedIn n s k).card = n) {q : ℕ} (hq : q < n) :
    (s.threads q).left = k ∧ (s.threads q).pc.arrived = true := by
  have hall : arrivedIn n s k = Finset.range n := by
    apply Finset.eq_of_subset_of_card_le
    · exact Finset.filter_subset _ _
    · rw [Finset.card_range, h]
  have hmem : q ∈ arrivedIn n s k := by
    rw [hall, Finset.mem_range]
    exact hq
  exact (mem_arrivedIn.mp hmem).2

/-! ## The invariant -/

/-- A thread that has left `k` rounds, in or ahead of the next one. -/
def Current (ctx : Ctx) (k : ℕ) (t : Thread) : Prop := t.left = k ∧ ∀ x, t.pc.saved = some x → x = ctx.sense

/-- A thread that has not left the round before. -/
def Behind (ctx : Ctx) (k : ℕ) (t : Thread) : Prop := t.left + 1 = k ∧ ∃ x, t.pc = .spin x ∧ x ≠ ctx.sense

/-- Some thread has not arrived in the round. -/
structure Open (n : ℕ) (s : State) (k : ℕ) : Prop where
  ctr : s.ctx.ctr.toNat = (arrivedIn n s k).card
  notAll : (arrivedIn n s k).card < n
  notLast : ∀ q < n, (s.threads q).pc.last = false

/-- The last thread `p` has arrived, and the other ones wait. -/
structure Closing (n : ℕ) (s : State) (k p : ℕ) : Prop where
  lt : p < n
  left : ∀ q < n, (s.threads q).left = k
  leader : (∃ x, (s.threads p).pc = .resetCtr x ∧ s.ctx.ctr.toNat = n) ∨ (∃ x, (s.threads p).pc = .flipSense x ∧ s.ctx.ctr = 0)
  spins : ∀ q < n, q ≠ p → ∃ x, (s.threads q).pc = .spin x

/-- What holds in every state: `k` rounds are over. -/
structure Inv (n : ℕ) (s : State) (k : ℕ) : Prop where
  threads : ∀ q < n, Current s.ctx k (s.threads q) ∨ Behind s.ctx k (s.threads q)
  phase : Open n s k ∨ ∃ p, Closing n s k p

namespace Inv

variable {n k : ℕ} {s : State} {p : ℕ}

/-- A thread that does not wait is not behind. -/
theorem current (h : Inv n s k) (hp : p < n) (hspin : ∀ x, (s.threads p).pc ≠ .spin x) : Current s.ctx k (s.threads p) := by
  rcases h.threads p hp with hcur | ⟨-, x, hx, -⟩
  · exact hcur
  · exact absurd hx (hspin x)

/-- A thread that has not arrived leaves the round open. -/
theorem isOpen (h : Inv n s k) (hp : p < n) (hpc : (s.threads p).pc.arrived = false) : Open n s k := by
  rcases h.phase with hopen | ⟨q, hclosing⟩
  · exact hopen
  · exfalso
    by_cases hq : p = q
    · subst hq
      rcases hclosing.leader with ⟨x, hx, -⟩ | ⟨x, hx, -⟩
      · rw [hx] at hpc
        cases hpc
      · rw [hx] at hpc
        cases hpc
    · obtain ⟨x, hx⟩ := hclosing.spins p hp hq
      rw [hx] at hpc
      cases hpc

/-- The last thread closes the round. -/
theorem closing (h : Inv n s k) (hp : p < n) (hpc : (s.threads p).pc.last = true) : Closing n s k p := by
  rcases h.phase with hopen | ⟨q, hclosing⟩
  · exfalso
    rw [hopen.notLast p hp] at hpc
    cases hpc
  · by_cases hq : p = q
    · rw [hq]
      exact hclosing
    · exfalso
      obtain ⟨x, hx⟩ := hclosing.spins p hp hq
      rw [hx] at hpc
      cases hpc

/-- A thread of the round goes on, and the round stays open. -/
theorem set_open (h : Inv n s k) {t : Thread} {ctx : Ctx} (hsense : ctx.sense = s.ctx.sense)
    (hcur : Current ctx k t) (hopen : Open n (s.set p t ctx) k) : Inv n (s.set p t ctx) k := by
  refine ⟨fun q hq => ?_, Or.inl hopen⟩
  by_cases hqp : q = p
  · rw [hqp, State.set_threads_self]
    exact Or.inl hcur
  · rw [State.set_threads_of_ne hqp, State.set_ctx]
    unfold Current Behind
    rw [hsense]
    exact h.threads q hq

end Inv

/-- A thread of the round goes on without arriving. -/
theorem Open.set {n k : ℕ} {s : State} {p : ℕ} (h : Open n s k) {t : Thread} (hpc : t.pc.arrived = false)
    (hbefore : ¬ ((s.threads p).left = k ∧ (s.threads p).pc.arrived = true)) : Open n (s.set p t s.ctx) k := by
  have hsame : arrivedIn n (s.set p t s.ctx) k = arrivedIn n s k := by
    apply arrivedIn_set
    constructor
    · rintro ⟨-, harrived⟩
      rw [hpc] at harrived
      cases harrived
    · intro harrived
      exact absurd harrived hbefore
  refine ⟨?_, ?_, fun q hq => ?_⟩
  · rw [hsame]
    exact h.ctr
  · rw [hsame]
    exact h.notAll
  · by_cases hqp : q = p
    · rw [hqp, State.set_threads_self]
      cases hpcs : t.pc with
      | resetCtr x =>
        rw [hpcs] at hpc
        cases hpc
      | flipSense x =>
        rw [hpcs] at hpc
        cases hpc
      | _ => rfl
    · rw [State.set_threads_of_ne hqp]
      exact h.notLast q hq

/-! ## Steps -/

section Step

variable {nthr : UInt64} {k : ℕ} {s : State} {p : ℕ}

theorem not_sense (x : UInt64) : ~~~x ≠ x := by
  intro h
  have hbit := congrArg (fun y : UInt64 => y.toBitVec.getLsbD 0) h
  simp at hbit

/-- A thread alone leaves at once. -/
theorem Inv.step_alone (h : Inv nthr.toNat s k) (hp : p < nthr.toNat) (hpc : (s.threads p).pc = .outside) (hone : nthr ≤ 1) :
    Inv nthr.toNat (s.set p (s.threads p).exit s.ctx) (k + 1) := by
  have hle : nthr.toNat ≤ 1 := UInt64.le_iff_toNat_le.mp hone
  have hcur := h.current hp (by rw [hpc]; intro x hx; cases hx)
  have hopen := h.isOpen hp (by rw [hpc]; rfl)
  have hzero : ∀ q < nthr.toNat, q = p := by
    intro q hq
    omega
  have hempty : arrivedIn nthr.toNat (s.set p (s.threads p).exit s.ctx) (k + 1) = ∅ := by
    rw [Finset.eq_empty_iff_forall_notMem]
    intro q hq
    obtain ⟨hq, -, harrived⟩ := mem_arrivedIn.mp hq
    rw [hzero q hq, State.set_threads_self] at harrived
    cases harrived
  refine ⟨fun q hq => ?_, Or.inl ⟨?_, ?_, fun q hq => ?_⟩⟩
  · rw [hzero q hq, State.set_threads_self]
    refine Or.inl ⟨?_, fun x hx => ?_⟩
    · show (s.threads p).left + 1 = k + 1
      rw [hcur.1]
    · cases hx
  · rw [hempty, State.set_ctx, hopen.ctr]
    have hlt := hopen.notAll
    rw [Finset.card_empty]
    omega
  · rw [hempty, Finset.card_empty]
    omega
  · rw [hzero q hq, State.set_threads_self]
    rfl

theorem Inv.step_enter (h : Inv nthr.toNat s k) (hp : p < nthr.toNat) (hpc : (s.threads p).pc = .outside) :
    Inv nthr.toNat (s.set p ((s.threads p).goto .readSense) s.ctx) k := by
  have hcur := h.current hp (by rw [hpc]; intro x hx; cases hx)
  have hopen := h.isOpen hp (by rw [hpc]; rfl)
  apply h.set_open rfl
  · refine ⟨hcur.1, fun x hx => ?_⟩
    cases hx
  · apply hopen.set rfl
    rw [hpc]
    rintro ⟨-, harrived⟩
    cases harrived

theorem Inv.step_readSense (h : Inv nthr.toNat s k) (hp : p < nthr.toNat) (hpc : (s.threads p).pc = .readSense) :
    Inv nthr.toNat (s.set p ((s.threads p).goto (.addCtr s.ctx.sense)) s.ctx) k := by
  have hcur := h.current hp (by rw [hpc]; intro x hx; cases hx)
  have hopen := h.isOpen hp (by rw [hpc]; rfl)
  apply h.set_open rfl
  · refine ⟨hcur.1, fun x hx => ?_⟩
    injection hx with hx
    exact hx.symm
  · apply hopen.set rfl
    rw [hpc]
    rintro ⟨-, harrived⟩
    cases harrived

/-- The thread that counts itself waits, or it is the last one and closes the round. -/
theorem Inv.step_addCtr {x : UInt64} (h : Inv nthr.toNat s k) (hp : p < nthr.toNat) (hpc : (s.threads p).pc = .addCtr x) :
    Inv nthr.toNat (s.set p ((s.threads p).goto (if s.ctx.ctr + 1 ≠ nthr then .spin x else .resetCtr x))
      ⟨s.ctx.ctr + 1, s.ctx.sense⟩) k := by
  have hcur := h.current hp (by rw [hpc]; intro x hx; cases hx)
  have hopen := h.isOpen hp (by rw [hpc]; rfl)
  have hx : x = s.ctx.sense := hcur.2 x (by rw [hpc]; rfl)
  have hnotin : p ∉ arrivedIn nthr.toNat s k := by
    rw [mem_arrivedIn, hpc]
    rintro ⟨-, -, harrived⟩
    cases harrived
  have hctr : (s.ctx.ctr + 1).toNat = (arrivedIn nthr.toNat s k).card + 1 := by
    have hlt := hopen.notAll
    have hmax := nthr.toNat_lt
    have hone : (1 : UInt64).toNat = 1 := rfl
    rw [UInt64.toNat_add, hopen.ctr, hone]
    exact Nat.mod_eq_of_lt (by omega)
  by_cases hlast : s.ctx.ctr + 1 ≠ nthr
  · rw [if_pos hlast]
    have hcard : (arrivedIn nthr.toNat (s.set p ((s.threads p).goto (.spin x)) ⟨s.ctx.ctr + 1, s.ctx.sense⟩) k).card =
        (arrivedIn nthr.toNat s k).card + 1 := by
      rw [arrivedIn_insert hp (show ((s.threads p).goto (.spin x)).left = k from hcur.1) rfl,
        Finset.card_insert_of_notMem hnotin]
    refine h.set_open ?_ ?_ ?_
    · rfl
    · refine ⟨hcur.1, fun y hy => ?_⟩
      injection hy with hy
      rw [← hy]
      exact hx
    · refine ⟨?_, ?_, fun q hq => ?_⟩
      · rw [hcard]
        exact hctr
      · have hne : (s.ctx.ctr + 1).toNat ≠ nthr.toNat := fun heq => hlast (UInt64.toNat_inj.mp heq)
        have hlt := hopen.notAll
        rw [hcard]
        omega
      · by_cases hqp : q = p
        · rw [hqp, State.set_threads_self]
          rfl
        · rw [State.set_threads_of_ne hqp]
          exact hopen.notLast q hq
  · rw [if_neg hlast]
    rw [not_not] at hlast
    have hcard : (arrivedIn nthr.toNat (s.set p ((s.threads p).goto (.resetCtr x)) ⟨s.ctx.ctr + 1, s.ctx.sense⟩)
        k).card = nthr.toNat := by
      rw [arrivedIn_insert hp (show ((s.threads p).goto (.resetCtr x)).left = k from hcur.1) rfl,
        Finset.card_insert_of_notMem hnotin, ← hctr, hlast]
    refine ⟨fun q hq => ?_, Or.inr ⟨p, hp, fun q hq => (arrived_of_card hcard hq).1, Or.inl ⟨x, ?_, ?_⟩, fun q hq hqp => ?_⟩⟩
    · by_cases hqp : q = p
      · rw [hqp, State.set_threads_self]
        refine Or.inl ⟨hcur.1, fun y hy => ?_⟩
        injection hy with hy
        rw [← hy]
        exact hx
      · rw [State.set_threads_of_ne hqp]
        exact h.threads q hq
    · rw [State.set_threads_self]
      rfl
    · rw [State.set_ctx]
      show (s.ctx.ctr + 1).toNat = nthr.toNat
      rw [hlast]
    · -- another thread that has arrived is not the last one, so that it waits
      have harrived := (arrived_of_card hcard hq).2
      rw [State.set_threads_of_ne hqp] at harrived ⊢
      have hnotLast := hopen.notLast q hq
      cases hpcq : (s.threads q).pc with
      | spin y =>
        exact ⟨y, rfl⟩
      | resetCtr y =>
        rw [hpcq] at hnotLast
        cases hnotLast
      | flipSense y =>
        rw [hpcq] at hnotLast
        cases hnotLast
      | _ =>
        rw [hpcq] at harrived
        cases harrived

theorem Inv.step_resetCtr {x : UInt64} (h : Inv nthr.toNat s k) (hp : p < nthr.toNat) (hpc : (s.threads p).pc = .resetCtr x) :
    Inv nthr.toNat (s.set p ((s.threads p).goto (.flipSense x)) ⟨0, s.ctx.sense⟩) k := by
  have hcur := h.current hp (by rw [hpc]; intro x hx; cases hx)
  have hclosing := h.closing hp (by rw [hpc]; rfl)
  refine ⟨fun q hq => ?_, Or.inr ⟨p, hp, fun q hq => ?_, Or.inr ⟨x, ?_, rfl⟩, fun q hq hqp => ?_⟩⟩
  · by_cases hqp : q = p
    · rw [hqp, State.set_threads_self]
      refine Or.inl ⟨hcur.1, fun y hy => hcur.2 y ?_⟩
      rw [hpc]
      exact hy
    · rw [State.set_threads_of_ne hqp]
      exact h.threads q hq
  · by_cases hqp : q = p
    · rw [hqp, State.set_threads_self]
      exact hcur.1
    · rw [State.set_threads_of_ne hqp]
      exact hclosing.left q hq
  · rw [State.set_threads_self]
    rfl
  · rw [State.set_threads_of_ne hqp]
    exact hclosing.spins q hq hqp

/-- The flip of the sense ends the round: all other threads of it are behind. -/
theorem Inv.step_flipSense {x : UInt64} (h : Inv nthr.toNat s k) (hp : p < nthr.toNat) (hpc : (s.threads p).pc = .flipSense x) :
    Inv nthr.toNat (s.set p (s.threads p).exit ⟨s.ctx.ctr, ~~~x⟩) (k + 1) := by
  have hcur := h.current hp (by rw [hpc]; intro x hx; cases hx)
  have hclosing := h.closing hp (by rw [hpc]; rfl)
  have hx : x = s.ctx.sense := hcur.2 x (by rw [hpc]; rfl)
  have hzero : s.ctx.ctr = 0 := by
    rcases hclosing.leader with ⟨y, hy, -⟩ | ⟨-, -, hzero⟩
    · rw [hpc] at hy
      cases hy
    · exact hzero
  have hempty : arrivedIn nthr.toNat (s.set p (s.threads p).exit ⟨s.ctx.ctr, ~~~x⟩) (k + 1) = ∅ := by
    rw [Finset.eq_empty_iff_forall_notMem]
    intro q hq
    obtain ⟨hq, hleft, harrived⟩ := mem_arrivedIn.mp hq
    by_cases hqp : q = p
    · rw [hqp, State.set_threads_self] at harrived
      cases harrived
    · rw [State.set_threads_of_ne hqp, hclosing.left q hq] at hleft
      omega
  refine ⟨fun q hq => ?_, Or.inl ⟨?_, ?_, fun q hq => ?_⟩⟩
  · by_cases hqp : q = p
    · rw [hqp, State.set_threads_self]
      refine Or.inl ⟨?_, fun y hy => ?_⟩
      · show (s.threads p).left + 1 = k + 1
        rw [hcur.1]
      · cases hy
    · obtain ⟨y, hy⟩ := hclosing.spins q hq hqp
      have hqcur : y = s.ctx.sense := by
        rcases h.threads q hq with hq' | hq'
        · exact hq'.2 y (by rw [hy]; rfl)
        · have hleft := hq'.1
          rw [hclosing.left q hq] at hleft
          omega
      rw [State.set_threads_of_ne hqp]
      refine Or.inr ⟨by rw [hclosing.left q hq], y, hy, ?_⟩
      show y ≠ ~~~x
      rw [hqcur, ← hx]
      exact (not_sense x).symm
  · rw [hempty, State.set_ctx, Finset.card_empty]
    show s.ctx.ctr.toNat = 0
    rw [hzero]
    rfl
  · rw [hempty, Finset.card_empty]
    omega
  · by_cases hqp : q = p
    · rw [hqp, State.set_threads_self]
      rfl
    · obtain ⟨y, hy⟩ := hclosing.spins q hq hqp
      rw [State.set_threads_of_ne hqp, hy]
      rfl

/-- A thread that finds another sense was behind. -/
theorem Inv.step_spin {x : UInt64} (h : Inv nthr.toNat s k) (hp : p < nthr.toNat) (hpc : (s.threads p).pc = .spin x) :
    Inv nthr.toNat (s.set p (if x = s.ctx.sense then s.threads p else (s.threads p).exit) s.ctx) k := by
  by_cases hx : x = s.ctx.sense
  · have hsame : s.set p (s.threads p) s.ctx = s := by
      unfold State.set
      rw [Function.update_eq_self]
    rw [if_pos hx, hsame]
    exact h
  · rw [if_neg hx]
    have hbehind : (s.threads p).left + 1 = k := by
      rcases h.threads p hp with hcur | hbehind
      · exact absurd (hcur.2 x (by rw [hpc]; rfl)) hx
      · exact hbehind.1
    have hopen : Open nthr.toNat s k := by
      rcases h.phase with hopen | ⟨q, hclosing⟩
      · exact hopen
      · have hleft := hclosing.left p hp
        omega
    apply h.set_open rfl
    · refine ⟨hbehind, fun y hy => ?_⟩
      cases hy
    · apply hopen.set rfl
      rintro ⟨hleft, -⟩
      omega

theorem Inv.step (h : Inv nthr.toNat s k) (hp : p < nthr.toNat) : ∃ k', Inv nthr.toNat (step nthr s p) k' := by
  unfold SimpleBarrier.step
  cases hpc : (s.threads p).pc with
  | outside =>
    by_cases hone : nthr ≤ 1
    · simp only [hpc, if_pos hone]
      exact ⟨k + 1, h.step_alone hp hpc hone⟩
    · simp only [hpc, if_neg hone]
      exact ⟨k, h.step_enter hp hpc⟩
  | readSense =>
    simp only [hpc]
    exact ⟨k, h.step_readSense hp hpc⟩
  | addCtr x =>
    simp only [hpc]
    exact ⟨k, h.step_addCtr hp hpc⟩
  | resetCtr x =>
    simp only [hpc]
    exact ⟨k, h.step_resetCtr hp hpc⟩
  | flipSense x =>
    simp only [hpc]
    exact ⟨k + 1, h.step_flipSense hp hpc⟩
  | spin x =>
    simp only [hpc]
    exact ⟨k, h.step_spin hp hpc⟩

end Step

/-! ## Runs -/

theorem inv_init {n : ℕ} (hn : 1 ≤ n) : Inv n init 0 := by
  have hempty : arrivedIn n init 0 = ∅ := by
    rw [Finset.eq_empty_iff_forall_notMem]
    intro q hq
    obtain ⟨-, -, harrived⟩ := mem_arrivedIn.mp hq
    cases harrived
  refine ⟨fun q _ => Or.inl ⟨rfl, fun x hx => ?_⟩, Or.inl ⟨?_, ?_, fun q _ => rfl⟩⟩
  · cases hx
  · rw [hempty]
    rfl
  · rw [hempty, Finset.card_empty]
    omega

theorem inv_run {nthr : UInt64} (hnthr : 1 ≤ nthr) {order : List ℕ} (horder : ∀ p ∈ order, p < nthr.toNat) :
    ∃ k, Inv nthr.toNat (run nthr order) k := by
  induction order using List.reverseRecOn with
  | nil =>
    exact ⟨0, inv_init (UInt64.le_iff_toNat_le.mp hnthr)⟩
  | append_singleton order p ih =>
    obtain ⟨k, hk⟩ := ih fun q hq => horder q (List.mem_append_left _ hq)
    have hstep := hk.step (horder p (List.mem_append_right _ List.mem_cons_self))
    unfold run at hstep ⊢
    rw [List.foldl_append]
    exact hstep

/-! ## What the barrier guarantees -/

/-- The context is fit for round `r`: the counter is the number of the threads that have arrived, and the threads that have
read the sense have the one of the context. -/
structure Fit (n : ℕ) (s : State) (r : ℕ) : Prop where
  ctr : s.ctx.ctr.toNat = (arrivedIn n s r).card
  sense : ∀ q < n, (s.threads q).left = r ∧ ∀ x, (s.threads q).pc.saved = some x → x = s.ctx.sense

/-- The next step of thread `p` is the one with which the last thread leaves the round that `p` is in. -/
def LastLeaves (nthr : UInt64) (s : State) (p : ℕ) : Prop :=
  ((step nthr s p).threads p).left = (s.threads p).left + 1 ∧
    ∀ q < nthr.toNat, (s.threads p).left + 1 ≤ ((step nthr s p).threads q).left

/-- The barrier separates the rounds. -/
structure Separates (nthr : UInt64) (s : State) : Prop where
  /-- A round that a thread has left has been entered by all threads. -/
  entered : ∀ p < nthr.toNat, ∀ q < nthr.toNat, (s.threads p).left ≤ (s.threads q).entered
  ctr : s.ctx.ctr ≤ nthr
  /-- A thread that waits in a round that another thread has left, leaves it with its next step. -/
  released : ∀ p < nthr.toNat, ∀ q < nthr.toNat, ∀ x, (s.threads p).pc = .spin x → (s.threads p).left < (s.threads q).left →
    (step nthr s p).threads p = (s.threads p).exit
  fit : ∀ p < nthr.toNat, LastLeaves nthr s p → Fit nthr.toNat (step nthr s p) ((s.threads p).left + 1)

section Separates

variable {n k : ℕ} {s : State} {p : ℕ}

theorem Inv.left_le (h : Inv n s k) (hp : p < n) : (s.threads p).left ≤ k := by
  rcases h.threads p hp with hcur | hbehind
  · exact le_of_eq hcur.1
  · have hleft := hbehind.1
    omega

theorem Inv.le_entered (h : Inv n s k) (hp : p < n) : k ≤ (s.threads p).entered := by
  unfold Thread.entered
  rcases h.threads p hp with hcur | ⟨hleft, x, hx, -⟩
  · have hleft := hcur.1
    split_ifs <;> omega
  · rw [hx, if_neg]
    · omega
    · intro hpc
      cases hpc

theorem Inv.ctr_le (h : Inv n s k) : s.ctx.ctr.toNat ≤ n := by
  rcases h.phase with hopen | ⟨q, hclosing⟩
  · rw [hopen.ctr]
    exact card_arrivedIn_le n s k
  · rcases hclosing.leader with ⟨-, -, hctr⟩ | ⟨-, -, hctr⟩
    · exact le_of_eq hctr
    · rw [hctr]
      exact Nat.zero_le n

theorem Inv.released {nthr : UInt64} (h : Inv nthr.toNat s k) (hp : p < nthr.toNat) {q : ℕ} (hq : q < nthr.toNat)
    {x : UInt64} (hpc : (s.threads p).pc = .spin x) (hlt : (s.threads p).left < (s.threads q).left) :
    (SimpleBarrier.step nthr s p).threads p = (s.threads p).exit := by
  have hqk := h.left_le hq
  have hne : x ≠ s.ctx.sense := by
    rcases h.threads p hp with hcur | ⟨-, y, hy, hne⟩
    · have hleft := hcur.1
      omega
    · rw [hpc] at hy
      injection hy with hy
      rw [hy]
      exact hne
  unfold SimpleBarrier.step
  simp only [hpc, if_neg hne, State.set_threads_self]

/-- With a thread ahead of the round, and none in the round before, the context is fit. -/
theorem Inv.fit (h : Inv n s k) (hp : p < n) (hpc : (s.threads p).pc = .outside)
    (hall : ∀ q < n, (s.threads p).left ≤ (s.threads q).left) : Fit n s (s.threads p).left := by
  have hcur := h.current hp (by rw [hpc]; intro x hx; cases hx)
  have hopen := h.isOpen hp (by rw [hpc]; rfl)
  rw [hcur.1] at hall ⊢
  refine ⟨hopen.ctr, fun q hq => ?_⟩
  rcases h.threads q hq with hq' | hq'
  · exact hq'
  · have hleft := hq'.1
    have hle := hall q hq
    omega

end Separates

/-- A step that leaves the round leads out of the barrier. -/
theorem step_outside {nthr : UInt64} {s : State} {p : ℕ} (h : ((step nthr s p).threads p).left = (s.threads p).left + 1) :
    ((step nthr s p).threads p).pc = .outside := by
  revert h
  unfold step
  cases hpc : (s.threads p).pc with
  | outside =>
    simp only [hpc, State.set_threads_self]
    split_ifs
    · intro _
      rfl
    · intro h
      simp [Thread.goto] at h
  | readSense =>
    simp [hpc, Thread.goto]
  | addCtr x =>
    simp [hpc, Thread.goto]
  | resetCtr x =>
    simp [hpc, Thread.goto]
  | flipSense x =>
    intro _
    simp [hpc, Thread.exit]
  | spin x =>
    simp only [hpc, State.set_threads_self]
    split_ifs
    · intro h
      omega
    · intro _
      rfl

/-- Whatever the order of the accesses of the threads and the number of rounds, the barrier separates the rounds. -/
theorem run_separates {nthr : UInt64} (hnthr : 1 ≤ nthr) {order : List ℕ} (horder : ∀ p ∈ order, p < nthr.toNat) :
    Separates nthr (run nthr order) := by
  obtain ⟨k, hk⟩ := inv_run hnthr horder
  refine ⟨fun p hp q hq => ?_, ?_, fun p hp q hq x => ?_, fun p hp hlast => ?_⟩
  · exact le_trans (hk.left_le hp) (hk.le_entered hq)
  · exact UInt64.le_iff_toNat_le.mpr hk.ctr_le
  · exact hk.released hp hq
  · obtain ⟨k', hk'⟩ := hk.step hp
    obtain ⟨hleft, hall⟩ := hlast
    rw [← hleft] at hall ⊢
    exact hk'.fit hp (step_outside hleft) hall

/-- Two threads, the first of which is in its second round while the other one still waits in the first round. -/
theorem run_separates_two : Separates 2 (run 2 [0, 1, 1, 0, 1, 0, 0, 0, 0, 0, 0]) :=
  run_separates (by decide) (by decide)

end MklDnn.SimpleBarrier
