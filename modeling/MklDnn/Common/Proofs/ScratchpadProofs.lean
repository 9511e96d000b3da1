import MklDnn.Common.MemoryTracking

/-!
# The global scratchpad: runs

The invariant of a thread that creates and destroys its scratchpads itself: the reference count is the number
of its live scratchpads, and it has a buffer, of `size_` bytes, exactly while that number is not zero.
-/

namespace MklDnn.GlobalScratchpad

/-! ## The buffers -/

theorem getElem?_free (buffers : List Buffer) (b c : ℕ) :
    (free buffers (some b))[c]? =
      if b = c then (buffers[c]?).map fun buf => ⟨buf.size, buf.owner, buf.freed + 1⟩ else buffers[c]? := by
  rw [free, List.getElem?_modify]
  split_ifs with h
  · rfl
  · simp

@[simp] theorem length_free (buffers : List Buffer) (o : Option ℕ) : (free buffers o).length = buffers.length := by
  cases o with
  | none => rfl
  | some b => simp [free]

/-! ## The invariant -/

/-- What holds of a thread and of the buffers between steps. -/
structure Inv (s : State) : Prop where
  count : ∀ t, (s.locals t).referenceCount_ = s.live t % 2 ^ 32
  live_le : ∀ t, s.live t ≤ 2 ^ 32
  idle : ∀ t, s.live t = 0 → s.locals t = ⟨none, 0, 0⟩
  holds : ∀ t, s.live t ≠ 0 → ∃ b, (s.locals t).scratchpad_ = some b ∧ s.buffers[b]? = some ⟨(s.locals t).size_, t, 0⟩
  sizes : ∀ p ∈ s.pads, p.size ≤ (s.locals p.creator).size_
  freed : ∀ (b : ℕ) (buf : Buffer), s.buffers[b]? = some buf →
    buf.freed = 1 ∨ buf.freed = 0 ∧ (s.locals buf.owner).scratchpad_ = some b

theorem live_cons (s : State) (buffers : List Buffer) (locals : ℕ → Locals) (t size u : ℕ) :
    State.live ⟨buffers, locals, ⟨t, size⟩ :: s.pads⟩ u = s.live u + if t = u then 1 else 0 := by
  unfold State.live
  rw [List.countP_cons]
  simp

theorem live_erase {s : State} {pad : Pad} (hpad : pad ∈ s.pads) (buffers : List Buffer) (locals : ℕ → Locals) (u : ℕ) :
    State.live ⟨buffers, locals, s.pads.erase pad⟩ u = s.live u - if pad.creator = u then 1 else 0 := by
  unfold State.live
  rw [List.countP_erase]
  by_cases h : pad.creator = u
  · simp [h, hpad]
  · simp [h]

theorem live_pos {s : State} {pad : Pad} (hpad : pad ∈ s.pads) : s.live pad.creator ≠ 0 := by
  unfold State.live
  rw [← Nat.pos_iff_ne_zero, List.countP_pos_iff]
  exact ⟨pad, hpad, by simp⟩

theorem inv_init : Inv init where
  count := fun _ => rfl
  live_le := fun _ => Nat.zero_le _
  idle := fun _ _ => rfl
  holds := fun _ h => absurd rfl h
  sizes := fun _ h => by cases h
  freed := fun b buf h => by simp [init] at h

/-- Freeing the buffer of a thread does not touch the buffers of the others. -/
theorem Inv.freed_free {s : State} (h : Inv s) {t : ℕ} (b : ℕ) (buf : Buffer)
    (hb : (free s.buffers (s.locals t).scratchpad_)[b]? = some buf) :
    buf.freed = 1 ∨ buf.freed = 0 ∧ buf.owner ≠ t ∧ (s.locals buf.owner).scratchpad_ = some b := by
  by_cases hlive : s.live t = 0
  · rw [h.idle t hlive] at hb
    rcases h.freed b buf hb with h1 | ⟨h0, hown⟩
    · exact Or.inl h1
    · refine Or.inr ⟨h0, fun ht => ?_, hown⟩
      rw [ht, h.idle t hlive] at hown
      cases hown
  · obtain ⟨c, hc, hbuf⟩ := h.holds t hlive
    rw [hc, getElem?_free] at hb
    by_cases hcb : c = b
    · subst hcb
      rw [if_pos rfl, hbuf, Option.map_some, Option.some.injEq] at hb
      left
      rw [← hb]
    · rw [if_neg hcb] at hb
      rcases h.freed b buf hb with h1 | ⟨h0, hown⟩
      · exact Or.inl h1
      · refine Or.inr ⟨h0, fun ht => ?_, hown⟩
        rw [ht, hc, Option.some.injEq] at hown
        exact hcb hown

/-- The buffer of another thread stays when thread `t` frees its own. -/
theorem Inv.holds_free {s : State} (h : Inv s) {t u : ℕ} (hne : u ≠ t) (hlive : s.live u ≠ 0) :
    ∃ b, (s.locals u).scratchpad_ = some b ∧
      (free s.buffers (s.locals t).scratchpad_)[b]? = some ⟨(s.locals u).size_, u, 0⟩ := by
  obtain ⟨b, hb, hbuf⟩ := h.holds u hlive
  refine ⟨b, hb, ?_⟩
  by_cases ht : s.live t = 0
  · rw [h.idle t ht]
    exact hbuf
  · obtain ⟨c, hc, hcbuf⟩ := h.holds t ht
    have hcb : c ≠ b := by
      rintro rfl
      rw [hbuf, Option.some.injEq] at hcbuf
      exact hne (congrArg Buffer.owner hcbuf)
    rw [hc, getElem?_free, if_neg hcb]
    exact hbuf

/-- A step that changes the variables of one thread and leaves the buffers of the others. -/
theorem Inv.change {s s' : State} (h : Inv s) {t : ℕ} {l : Locals} (hlocals : s'.locals = Function.update s.locals t l)
    (hother : ∀ u, u ≠ t → s'.live u = s.live u)
    (hkeep : ∀ u, u ≠ t → s.live u ≠ 0 → ∃ b, (s.locals u).scratchpad_ = some b ∧
      s'.buffers[b]? = some ⟨(s.locals u).size_, u, 0⟩)
    (hcount : l.referenceCount_ = s'.live t % 2 ^ 32) (hle : s'.live t ≤ 2 ^ 32)
    (hidle : s'.live t = 0 → l = ⟨none, 0, 0⟩)
    (hholds : s'.live t ≠ 0 → ∃ b, l.scratchpad_ = some b ∧ s'.buffers[b]? = some ⟨l.size_, t, 0⟩)
    (hsizes : ∀ p ∈ s'.pads, (p.creator = t ∧ p.size ≤ l.size_) ∨ (p.creator ≠ t ∧ p ∈ s.pads))
    (hfreed : ∀ (b : ℕ) (buf : Buffer), s'.buffers[b]? = some buf → buf.freed = 1 ∨
      buf.freed = 0 ∧ (buf.owner = t ∧ l.scratchpad_ = some b ∨
        buf.owner ≠ t ∧ (s.locals buf.owner).scratchpad_ = some b)) : Inv s' := by
  have hself : s'.locals t = l := by rw [hlocals, Function.update_self]
  have hne : ∀ u, u ≠ t → s'.locals u = s.locals u := fun u hu => by rw [hlocals, Function.update_of_ne hu]
  constructor
  · intro u
    by_cases hu : u = t
    · rw [hu, hself, hcount]
    · rw [hne u hu, hother u hu, h.count u]
  · intro u
    by_cases hu : u = t
    · rw [hu]
      exact hle
    · rw [hother u hu]
      exact h.live_le u
  · intro u hzero
    by_cases hu : u = t
    · rw [hu] at hzero ⊢
      rw [hself, hidle hzero]
    · rw [hne u hu]
      exact h.idle u (hother u hu ▸ hzero)
  · intro u hlive
    by_cases hu : u = t
    · rw [hu] at hlive ⊢
      rw [hself]
      exact hholds hlive
    · rw [hne u hu]
      exact hkeep u hu (hother u hu ▸ hlive)
  · intro p hp
    rcases hsizes p hp with ⟨ht, hsize⟩ | ⟨ht, hold⟩
    · rw [ht, hself]
      exact hsize
    · rw [hne p.creator ht]
      exact h.sizes p hold
  · intro b buf hb
    rcases hfreed b buf hb with h1 | ⟨h0, ⟨ht, hown⟩ | ⟨ht, hown⟩⟩
    · exact Or.inl h1
    · rw [ht, hself]
      exact Or.inr ⟨h0, hown⟩
    · rw [hne buf.owner ht]
      exact Or.inr ⟨h0, hown⟩

/-! ## The steps -/

theorem inv_create {s : State} (h : Inv s) {t size : ℕ} {ok : Bool} (hproper : Proper s (.create t size ok)) :
    Inv (s.create t size ok) := by
  obtain ⟨hbuf, hlt⟩ := hproper
  have hcount : ((s.locals t).referenceCount_ + 1) % 2 ^ 32 = (s.live t + 1) % 2 ^ 32 := by
    rw [h.count t]
    omega
  by_cases hgrow : size > (s.locals t).size_
  · -- the thread gets a new buffer
    rw [if_pos hgrow] at hbuf
    have hcreate : s.create t size ok =
        { buffers := free s.buffers (s.locals t).scratchpad_ ++ [⟨size, t, 0⟩]
          locals := Function.update s.locals t
            ⟨some (free s.buffers (s.locals t).scratchpad_).length, size, (s.live t + 1) % 2 ^ 32⟩
          pads := ⟨t, size⟩ :: s.pads } := by
      simp only [State.create, if_pos hgrow, hbuf, if_true, hcount]
    have hlive : ∀ u, (s.create t size ok).live u = s.live u + if t = u then 1 else 0 := by
      intro u
      rw [hcreate, live_cons]
    rw [hcreate] at hlive ⊢
    refine h.change rfl (fun u hu => by rw [hlive, if_neg (Ne.symm hu), Nat.add_zero]) ?_ (by rw [hlive, if_pos rfl])
      (by rw [hlive, if_pos rfl]; omega) (fun hzero => by rw [hlive, if_pos rfl] at hzero; omega) ?_ ?_ ?_
    · intro u hu hne
      obtain ⟨b, hb, hold⟩ := h.holds_free hu hne
      refine ⟨b, hb, ?_⟩
      rw [List.getElem?_append_left (List.getElem?_eq_some_iff.mp hold).1]
      exact hold
    · intro _
      exact ⟨_, rfl, List.getElem?_concat_length⟩
    · intro p hp
      rcases List.mem_cons.mp hp with rfl | hp
      · exact Or.inl ⟨rfl, Nat.le_refl _⟩
      · by_cases hu : p.creator = t
        · have hle := h.sizes p hp
          rw [hu] at hle
          exact Or.inl ⟨hu, show p.size ≤ size by omega⟩
        · exact Or.inr ⟨hu, hp⟩
    · intro b buf hb
      rcases Nat.lt_or_ge b (free s.buffers (s.locals t).scratchpad_).length with hlen | hlen
      · rw [List.getElem?_append_left hlen] at hb
        rcases h.freed_free b buf hb with h1 | ⟨h0, hown⟩
        · exact Or.inl h1
        · exact Or.inr ⟨h0, Or.inr hown⟩
      · have hlast := (List.getElem?_eq_some_iff.mp hb).1
        rw [List.length_append, List.length_singleton] at hlast
        obtain rfl : b = (free s.buffers (s.locals t).scratchpad_).length := by omega
        rw [List.getElem?_concat_length, Option.some.injEq] at hb
        subst hb
        exact Or.inr ⟨rfl, Or.inl ⟨rfl, rfl⟩⟩
  · -- the buffer of the thread is large enough
    rw [if_neg hgrow] at hbuf
    have hcreate : s.create t size ok =
        { buffers := s.buffers
          locals := Function.update s.locals t
            ⟨(s.locals t).scratchpad_, (s.locals t).size_, (s.live t + 1) % 2 ^ 32⟩
          pads := ⟨t, size⟩ :: s.pads } := by
      simp only [State.create, if_neg hgrow, hcount]
    have hlive : ∀ u, (s.create t size ok).live u = s.live u + if t = u then 1 else 0 := by
      intro u
      rw [hcreate, live_cons]
    have hhas : s.live t ≠ 0 := by
      intro hzero
      rw [State.get, h.idle t hzero] at hbuf
      cases hbuf
    rw [hcreate] at hlive ⊢
    refine h.change rfl (fun u hu => by rw [hlive, if_neg (Ne.symm hu), Nat.add_zero]) (fun u _ hne => h.holds u hne)
      (by rw [hlive, if_pos rfl]) (by rw [hlive, if_pos rfl]; omega)
      (fun hzero => by rw [hlive, if_pos rfl] at hzero; omega) (fun _ => h.holds t hhas) ?_ ?_
    · intro p hp
      rcases List.mem_cons.mp hp with rfl | hp
      · exact Or.inl ⟨rfl, Nat.le_of_not_lt hgrow⟩
      · by_cases hu : p.creator = t
        · have hle := h.sizes p hp
          rw [hu] at hle
          exact Or.inl ⟨hu, hle⟩
        · exact Or.inr ⟨hu, hp⟩
    · intro b buf hb
      rcases h.freed b buf hb with h1 | ⟨h0, hown⟩
      · exact Or.inl h1
      · by_cases hu : buf.owner = t
        · rw [hu] at hown
          exact Or.inr ⟨h0, Or.inl ⟨hu, hown⟩⟩
        · exact Or.inr ⟨h0, Or.inr ⟨hu, hown⟩⟩

theorem inv_destroy {s : State} (h : Inv s) {pad : Pad} (hpad : pad ∈ s.pads) : Inv (s.destroy pad pad.creator) := by
  have hpos := live_pos hpad
  have hle := h.live_le pad.creator
  have hcount : ((s.locals pad.creator).referenceCount_ + 2 ^ 32 - 1) % 2 ^ 32 = s.live pad.creator - 1 := by
    rw [h.count pad.creator]
    rcases Nat.lt_or_eq_of_le hle with hlt | heq
    · rw [Nat.mod_eq_of_lt hlt]
      omega
    · rw [heq, Nat.mod_self]
      omega
  by_cases hlast : s.live pad.creator - 1 = 0
  · -- the last scratchpad of the thread
    have hdestroy : s.destroy pad pad.creator =
        { buffers := free s.buffers (s.locals pad.creator).scratchpad_
          locals := Function.update s.locals pad.creator ⟨none, 0, 0⟩
          pads := s.pads.erase pad } := by
      simp only [State.destroy, hcount, hlast, if_true]
    have hlive : ∀ u, (s.destroy pad pad.creator).live u = s.live u - if pad.creator = u then 1 else 0 := by
      intro u
      rw [hdestroy, live_erase hpad]
    rw [hdestroy] at hlive ⊢
    have hzero := hlive pad.creator
    rw [if_pos rfl, hlast] at hzero
    refine h.change rfl (fun u hu => by rw [hlive, if_neg (Ne.symm hu), Nat.sub_zero])
      (fun u hu hne => h.holds_free hu hne) (by rw [hzero, Nat.zero_mod]) (by rw [hzero]; exact Nat.zero_le _) (fun _ => rfl)
      (fun hne => absurd hzero hne) ?_ ?_
    · intro p hp
      have hmem := List.mem_of_mem_erase hp
      refine Or.inr ⟨fun hu => ?_, hmem⟩
      -- no other scratchpad of the thread is live
      unfold State.live at hzero
      rw [List.countP_eq_zero] at hzero
      exact hzero p hp (by simpa using hu)
    · intro b buf hb
      rcases h.freed_free b buf hb with h1 | ⟨h0, hown⟩
      · exact Or.inl h1
      · exact Or.inr ⟨h0, Or.inr hown⟩
  · have hdestroy : s.destroy pad pad.creator =
        { buffers := s.buffers
          locals := Function.update s.locals pad.creator
            ⟨(s.locals pad.creator).scratchpad_, (s.locals pad.creator).size_, s.live pad.creator - 1⟩
          pads := s.pads.erase pad } := by
      simp only [State.destroy, hcount, if_neg hlast]
    have hlive : ∀ u, (s.destroy pad pad.creator).live u = s.live u - if pad.creator = u then 1 else 0 := by
      intro u
      rw [hdestroy, live_erase hpad]
    rw [hdestroy] at hlive ⊢
    have hself := hlive pad.creator
    rw [if_pos rfl] at hself
    have hmod : (s.live pad.creator - 1) % 2 ^ 32 = s.live pad.creator - 1 := Nat.mod_eq_of_lt (by omega)
    refine h.change rfl (fun u hu => by rw [hlive, if_neg (Ne.symm hu), Nat.sub_zero]) (fun u _ hne => h.holds u hne)
      (by rw [hself, hmod]) (by rw [hself]; omega) (fun hzero => absurd (hself ▸ hzero) hlast)
      (fun _ => h.holds _ hpos) ?_ ?_
    · intro p hp
      have hmem := List.mem_of_mem_erase hp
      by_cases hu : p.creator = pad.creator
      · have hsize := h.sizes p hmem
        rw [hu] at hsize
        exact Or.inl ⟨hu, hsize⟩
      · exact Or.inr ⟨hu, hmem⟩
    · intro b buf hb
      rcases h.freed b buf hb with h1 | ⟨h0, hown⟩
      · exact Or.inl h1
      · by_cases hu : buf.owner = pad.creator
        · rw [hu] at hown
          exact Or.inr ⟨h0, Or.inl ⟨hu, hown⟩⟩
        · exact Or.inr ⟨h0, Or.inr ⟨hu, hown⟩⟩

/-- A proper step keeps the invariant. -/
theorem inv_step {s s' : State} {e : Event} (h : Inv s) (hproper : Proper s e) (hstep : step s e = some s') : Inv s' := by
  cases e with
  | create t size ok =>
    obtain rfl : s.create t size ok = s' := Option.some.inj hstep
    exact inv_create h hproper
  | destroy pad t =>
    rw [step] at hstep
    split_ifs at hstep with hpad
    obtain rfl : s.destroy pad t = s' := Option.some.inj hstep
    obtain rfl : t = pad.creator := hproper
    exact inv_destroy h hpad

theorem inv_reaches {s : State} (h : Reaches Proper s) : Inv s := by
  induction h with
  | init => exact inv_init
  | step _ hproper hstep ih => exact inv_step ih hproper hstep

/-! ## What the users rely on -/

theorem Inv.sound {s : State} (h : Inv s) : Sound s where
  get := by
    intro p hp
    obtain ⟨b, hb, hbuf⟩ := h.holds p.creator (live_pos hp)
    exact ⟨b, _, hb, hbuf, rfl, h.sizes p hp⟩
  freed_le := by
    intro buf hbuf
    obtain ⟨b, hb⟩ := List.mem_iff_getElem?.mp hbuf
    rcases h.freed b buf hb with h1 | ⟨h0, -⟩ <;> omega
  freed_last := by
    intro buf hbuf hlive
    obtain ⟨b, hb⟩ := List.mem_iff_getElem?.mp hbuf
    rcases h.freed b buf hb with h1 | ⟨-, hown⟩
    · exact h1
    · rw [h.idle buf.owner hlive] at hown
      cases hown

theorem Reaches.unwinds {s s' : State} (h : Reaches Proper s) (hun : Unwinds s s') : Reaches Proper s' := by
  induction hun with
  | refl => exact h
  | step _ hstep ih => exact .step ih (e := .destroy _ _) rfl hstep

/-! ## Improper steps -/

theorem create_pads (s : State) (t size : ℕ) (ok : Bool) : (s.create t size ok).pads = ⟨t, size⟩ :: s.pads := by
  simp only [State.create]
  split_ifs <;> rfl

theorem create_count (s : State) (t size : ℕ) (ok : Bool) :
    ((s.create t size ok).locals t).referenceCount_ = ((s.locals t).referenceCount_ + 1) % 2 ^ 32 := by
  simp only [State.create]
  split_ifs <;> simp

/-- A creation that `malloc` refuses memory, or that finds no buffer. -/
theorem create_get {s : State} {t size : ℕ} {ok : Bool}
    (h : ¬ if size > (s.locals t).size_ then ok = true else (s.get t).isSome = true) :
    (s.create t size ok).get t = none := by
  by_cases hgrow : size > (s.locals t).size_
  · rw [if_pos hgrow] at h
    simp only [State.create, if_pos hgrow, if_neg h, State.get, Function.update_self]
  · rw [if_neg hgrow, Bool.not_eq_true, Option.isSome_eq_false_iff, Option.isNone_iff_eq_none, State.get] at h
    simp only [State.create, if_neg hgrow, State.get, Function.update_self, h]

/-- A live scratchpad without a buffer. -/
theorem not_sound_of_get {s : State} {p : Pad} (hp : p ∈ s.pads) (hget : s.get p.creator = none) : ¬ Sound s := by
  intro hsound
  obtain ⟨b, buf, hb, -⟩ := hsound.get p hp
  rw [hget] at hb
  cases hb

theorem Unwinds.trans {s s' s'' : State} (h : Unwinds s s') (h' : Unwinds s' s'') : Unwinds s s'' := by
  induction h' with
  | refl => exact h
  | step _ hstep ih => exact .step ih hstep

theorem exists_pad {s : State} {t : ℕ} (h : s.live t ≠ 0) : ∃ pad ∈ s.pads, pad.creator = t := by
  unfold State.live at h
  rw [← Nat.pos_iff_ne_zero, List.countP_pos_iff] at h
  obtain ⟨pad, hpad, ht⟩ := h
  exact ⟨pad, hpad, by simpa using ht⟩

theorem step_destroy {s : State} {pad : Pad} (hpad : pad ∈ s.pads) (t : ℕ) :
    step s (.destroy pad t) = some (s.destroy pad t) := if_pos hpad

/-- A thread that counts one scratchpad too many: the destructions leave its buffer. -/
theorem unwinds_leak {s : State} {t b : ℕ} {size : ℕ}
    (hcount : (s.locals t).referenceCount_ = (s.live t + 1) % 2 ^ 32) (hlt : s.live t < 2 ^ 32)
    (hbuf : s.buffers[b]? = some ⟨size, t, 0⟩) : ∃ s', Unwinds s s' ∧ ¬ Sound s' := by
  generalize hn : s.live t = n at hcount hlt
  induction n generalizing s with
  | zero =>
    refine ⟨s, .refl, fun hsound => ?_⟩
    have hfreed := hsound.freed_last _ (List.mem_of_getElem? hbuf) hn
    cases hfreed
  | succ n ih =>
    obtain ⟨pad, hpad, rfl⟩ := exists_pad (s := s) (t := t) (by omega)
    have hlast : ¬ ((s.locals pad.creator).referenceCount_ + 2 ^ 32 - 1) % 2 ^ 32 = 0 := by
      rw [hcount]
      omega
    have hdestroy : s.destroy pad pad.creator =
        { buffers := s.buffers
          locals := Function.update s.locals pad.creator ⟨(s.locals pad.creator).scratchpad_,
            (s.locals pad.creator).size_, ((s.locals pad.creator).referenceCount_ + 2 ^ 32 - 1) % 2 ^ 32⟩
          pads := s.pads.erase pad } := by
      simp only [State.destroy, if_neg hlast]
    have hlive : (s.destroy pad pad.creator).live pad.creator = n := by
      rw [hdestroy, live_erase hpad, if_pos rfl, hn, Nat.add_sub_cancel]
    obtain ⟨s', hun, hbad⟩ := ih (s := s.destroy pad pad.creator) (by rw [hdestroy]; exact hbuf) hlive
      (by
        rw [hdestroy]
        simp only [Function.update_self, hcount]
        omega) (by omega)
    exact ⟨s', .trans (.step .refl (step_destroy hpad _)) hun, hbad⟩

/-- After a step that is not proper there are destructions that take a buffer from a live scratchpad, or leave
one behind. -/
theorem Inv.improper {s s' : State} {e : Event} (h : Inv s) (hstep : step s e = some s') (hproper : ¬ Proper s e) :
    ∃ s'', Unwinds s' s'' ∧ ¬ Sound s'' := by
  cases e with
  | create t size ok =>
    obtain rfl : s.create t size ok = s' := Option.some.inj hstep
    have hpad : (⟨t, size⟩ : Pad) ∈ (s.create t size ok).pads := by
      rw [create_pads]
      exact List.mem_cons_self
    by_cases hbuf : if size > (s.locals t).size_ then ok = true else (s.get t).isSome = true
    · -- the reference count wraps around
      have hlive : s.live t = 2 ^ 32 := by
        have hle := h.live_le t
        have hge : ¬ s.live t < 2 ^ 32 := fun hlt => hproper ⟨hbuf, hlt⟩
        omega
      have hcount : ((s.create t size ok).locals t).referenceCount_ = 1 := by
        rw [create_count, h.count t, hlive, Nat.mod_self]
        omega
      have hdestroy : (s.create t size ok).destroy ⟨t, size⟩ t =
          { buffers := free (s.create t size ok).buffers ((s.create t size ok).locals t).scratchpad_
            locals := Function.update (s.create t size ok).locals t ⟨none, 0, 0⟩
            pads := s.pads } := by
        have herase : (s.create t size ok).pads.erase ⟨t, size⟩ = s.pads := by
          rw [create_pads, List.erase_cons_head]
        simp only [State.destroy, hcount, herase]
        rfl
      refine ⟨_, .step .refl (step_destroy hpad t), ?_⟩
      obtain ⟨pad, hold, ht⟩ := exists_pad (s := s) (t := t) (by omega)
      rw [hdestroy]
      refine not_sound_of_get (p := pad) hold ?_
      simp only [ht, State.get, Function.update_self]
    · -- the scratchpad has no buffer
      exact ⟨_, .refl, not_sound_of_get hpad (create_get hbuf)⟩
  | destroy pad t =>
    rw [step] at hstep
    split_ifs at hstep with hpad
    obtain rfl : s.destroy pad t = s' := Option.some.inj hstep
    have hne : t ≠ pad.creator := hproper
    -- the thread that created the scratchpad still counts it
    have hpos := live_pos hpad
    have hle := h.live_le pad.creator
    obtain ⟨b, hb, hbuf⟩ := h.holds_free (t := t) hne.symm hpos
    have hlive : (s.destroy pad t).live pad.creator = s.live pad.creator - 1 := by
      simp only [State.destroy]
      split_ifs <;> rw [live_erase hpad, if_pos rfl]
    have hlocals : (s.destroy pad t).locals pad.creator = s.locals pad.creator := by
      simp only [State.destroy]
      split_ifs <;> exact Function.update_of_ne hne.symm _ _
    have hkeep : (s.destroy pad t).buffers[b]? = some ⟨(s.locals pad.creator).size_, pad.creator, 0⟩ := by
      simp only [State.destroy]
      split_ifs
      · exact hbuf
      · obtain ⟨c, hc, hcbuf⟩ := h.holds pad.creator hpos
        rw [hb, Option.some.injEq] at hc
        rw [hc]
        exact hcbuf
    refine unwinds_leak ?_ (by rw [hlive]; omega) hkeep
    rw [hlocals, hlive, h.count pad.creator, Nat.sub_add_cancel (Nat.pos_of_ne_zero hpos)]

/-- In a run of proper steps the users get what they rely on, and a next step that is not proper breaks this, at
once or when scratchpads are destroyed on their threads. -/
theorem sound_of_reaches {s : State} (h : Reaches Proper s) :
    Sound s ∧ ∀ e s', step s e = some s' → (Proper s e ↔ ∀ s'', Unwinds s' s'' → Sound s'') := by
  refine ⟨(inv_reaches h).sound, fun e s' hstep => ⟨fun hproper s'' hun => ?_, fun hall => ?_⟩⟩
  · exact (inv_reaches ((Reaches.step h hproper hstep).unwinds hun)).sound
  · by_contra hproper
    obtain ⟨s'', hun, hbad⟩ := (inv_reaches h).improper hstep hproper
    exact hbad (hall s'' hun)

/-- Two threads; the buffer of one grows, the other one destroys its only scratchpad. -/
theorem sound_of_reaches_two :
    ∃ s, Reaches Proper s ∧ s.pads = [⟨0, 256⟩, ⟨0, 64⟩] ∧
      s.buffers = [⟨64, 0, 1⟩, ⟨256, 0, 0⟩, ⟨8, 1, 1⟩] ∧ Sound s ∧
      ∀ e s', step s e = some s' → (Proper s e ↔ ∀ s'', Unwinds s' s'' → Sound s'') := by
  have h1 : Reaches Proper _ := .step .init (e := .create 0 64 true) ⟨rfl, by decide⟩ rfl
  have h2 : Reaches Proper _ := .step h1 (e := .create 0 256 true) ⟨rfl, by decide⟩ rfl
  have h3 : Reaches Proper _ := .step h2 (e := .create 1 8 true) ⟨rfl, by decide⟩ rfl
  have h4 : Reaches Proper _ := .step h3 (e := .destroy ⟨1, 8⟩ 1) rfl rfl
  exact ⟨_, h4, rfl, rfl, sound_of_reaches h4⟩

/-- A scratchpad of thread 0 is destroyed on thread 1, whose only scratchpad loses its buffer. -/
theorem not_sound_migration : ¬ ∀ s, Reaches (fun _ _ => True) s → Sound s := by
  intro hall
  have h1 : Reaches (fun _ _ => True) _ := .step .init (e := .create 0 64 true) trivial rfl
  have h2 : Reaches (fun _ _ => True) _ := .step h1 (e := .create 1 64 true) trivial rfl
  have h3 : Reaches (fun _ _ => True) _ := .step h2 (e := .destroy ⟨0, 64⟩ 1) trivial rfl
  obtain ⟨b, buf, hget, -⟩ := (hall _ h3).get ⟨1, 64⟩ (List.mem_singleton.mpr rfl)
  cases hget

end MklDnn.GlobalScratchpad
