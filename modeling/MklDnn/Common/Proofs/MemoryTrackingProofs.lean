import Mathlib.Data.List.Induction
import Mathlib.Data.Nat.Digits.Defs
import MklDnn.Common.MemoryTracking
import MklDnn.Common.Proofs.UtilsProofs
import MklDnn.Lib.Regions

/-!
# Proofs: the scratchpad registry

Every booking gets a slot of its own in front of the running size, with enough room to align the pointer
to any base. The keys of different bookings differ since a chain of prefixes and a key are the digits of
the global key.
-/

open Regions

namespace MklDnn

/-! ## Global keys -/

/-- What a booking may use as chain of prefixes and as key. -/
structure ValidKey (chain : List ℕ) (key : ℕ) : Prop where
  length_le : chain.length ≤ 3
  prefixes : ∀ p ∈ chain, 1 ≤ p ∧ p < maxPrefix
  key_pos : 1 ≤ key
  key_lt : key < maxKey

/-- A chain of prefixes as a number. -/
def chainValue (chain : List ℕ) : ℕ := Nat.ofDigits maxPrefix chain.reverse

theorem chainValue_lt {chain : List ℕ} (hlen : chain.length ≤ 3)
    (h : ∀ p ∈ chain, 1 ≤ p ∧ p < maxPrefix) : chainValue chain < 2 ^ 21 := by
  have hlt : chainValue chain < maxPrefix ^ chain.reverse.length :=
    Nat.ofDigits_lt_base_pow_length (by decide) fun p hp => (h p (List.mem_reverse.mp hp)).2
  have hle : maxPrefix ^ chain.reverse.length ≤ maxPrefix ^ 3 :=
    Nat.pow_le_pow_right (by decide) (by rwa [List.length_reverse])
  exact lt_of_lt_of_le hlt hle

theorem chainValue_inj {chain chain' : List ℕ} (h : ∀ p ∈ chain, 1 ≤ p ∧ p < maxPrefix)
    (h' : ∀ p ∈ chain', 1 ≤ p ∧ p < maxPrefix) (heq : chainValue chain = chainValue chain') :
    chain = chain' := by
  have hdigits : ∀ c : List ℕ, (∀ p ∈ c, 1 ≤ p ∧ p < maxPrefix) →
      Nat.digits maxPrefix (chainValue c) = c.reverse := by
    intro c hc
    refine Nat.digits_ofDigits maxPrefix (by decide) _
      (fun p hp => (hc p (List.mem_reverse.mp hp)).2) fun hne => ?_
    have hpos := (hc _ (List.mem_reverse.mp (List.getLast_mem hne))).1
    omega
  have hrev : chain.reverse = chain'.reverse := by
    rw [← hdigits chain h, heq, hdigits chain' h']
  exact List.reverse_inj.mp hrev

/-- The prefixes do not overflow. -/
theorem ofChain_globalPrefix {chain : List ℕ} (hlen : chain.length ≤ 3)
    (h : ∀ p ∈ chain, 1 ≤ p ∧ p < maxPrefix) :
    (Registrar.ofChain chain).globalPrefix = maxKey * chainValue chain := by
  induction chain using List.reverseRecOn with
  | nil => rfl
  | append_singleton chain p ih =>
    have hlt := chainValue_lt hlen h
    rw [List.length_append] at hlen
    have hchain := ih (by omega) fun q hq => h q (List.mem_append_left _ hq)
    have hvalue : chainValue (chain ++ [p]) = p + maxPrefix * chainValue chain := by
      unfold chainValue
      rw [List.reverse_append, List.reverse_singleton, List.singleton_append, Nat.ofDigits_cons]
    have hnested : Registrar.ofChain (chain ++ [p]) = (Registrar.ofChain chain).nested p := by
      unfold Registrar.ofChain
      rw [List.foldl_append]
      rfl
    rw [hnested, hvalue]
    rw [hvalue] at hlt
    unfold Registrar.nested makePrefix
    rw [hchain]
    unfold maxKey maxPrefix at *
    dsimp only
    omega

/-- The key under which the registry keeps a booking. -/
def globalKey (chain : List ℕ) (key : ℕ) : ℕ := makeKey (Registrar.ofChain chain).globalPrefix key

theorem globalKey_eq {chain : List ℕ} {key : ℕ} (h : ValidKey chain key) :
    globalKey chain key = key + maxKey * chainValue chain := by
  have hlt := chainValue_lt h.length_le h.prefixes
  have hkey := h.key_lt
  unfold globalKey makeKey
  rw [ofChain_globalPrefix h.length_le h.prefixes]
  unfold maxKey at *
  omega

theorem globalKey_inj {chain chain' : List ℕ} {key key' : ℕ} (h : ValidKey chain key)
    (h' : ValidKey chain' key') (heq : globalKey chain key = globalKey chain' key') :
    chain = chain' ∧ key = key' := by
  rw [globalKey_eq h, globalKey_eq h'] at heq
  have hkey := h.key_lt
  have hkey' := h'.key_lt
  have hvalue : chainValue chain = chainValue chain' := by
    unfold maxKey at *
    omega
  refine ⟨chainValue_inj h.prefixes h'.prefixes hvalue, ?_⟩
  rw [hvalue] at heq
  omega

theorem grantor_ofChain (registry : Registry) (basePtr : ℕ) (chain : List ℕ) :
    Grantor.ofChain registry basePtr chain =
      ⟨registry, (Registrar.ofChain chain).globalPrefix, basePtr⟩ := by
  induction chain using List.reverseRecOn with
  | nil => rfl
  | append_singleton chain p ih =>
    unfold Grantor.ofChain Registrar.ofChain at *
    rw [List.foldl_append, List.foldl_append, ih]
    rfl

/-! ## Aligning pointers -/

/-- Clearing the low bits rounds down. -/
theorem and_mask_eq {x k : ℕ} (hk : k ≤ 64) (hx : x < 2 ^ 64) :
    x &&& (2 ^ 64 - 2 ^ k) = x / 2 ^ k * 2 ^ k := by
  have hmask : 2 ^ 64 - 2 ^ k = (2 ^ (64 - k) - 1) * 2 ^ k := by
    rw [Nat.sub_mul, ← Nat.pow_add, Nat.sub_add_cancel hk, Nat.one_mul]
  refine Nat.eq_of_testBit_eq fun i => ?_
  rw [hmask, Nat.testBit_and, Nat.testBit_mul_two_pow, Nat.testBit_mul_two_pow,
    Nat.testBit_two_pow_sub_one, Nat.testBit_div_two_pow]
  by_cases hi : k ≤ i
  · by_cases hi64 : i < 64
    · have hsub : i - k < 64 - k := by omega
      simp [hi, hsub]
    · have hbit : x.testBit i = false :=
        Nat.testBit_lt_two_pow (lt_of_lt_of_le hx (Nat.pow_le_pow_right (by decide) (by omega)))
      simp [hi, hbit]
  · simp [hi]

theorem alignPtr_eq {ptr k : ℕ} (h : ptr + 2 ^ k ≤ 2 ^ 64) : alignPtr ptr (2 ^ k) = rndUp ptr (2 ^ k) := by
  have hpos : 0 < 2 ^ k := Nat.two_pow_pos k
  have hk : k ≤ 64 := (Nat.pow_le_pow_iff_right (a := 2) (by decide)).mp (by omega)
  unfold alignPtr rndUp divUp
  rw [Nat.mod_eq_of_lt (by omega)]
  have hmask : 2 ^ 64 - 1 - (2 ^ k - 1) = 2 ^ 64 - 2 ^ k := by omega
  rw [hmask, and_mask_eq hk (by omega)]

/-! ## The slots of the registry -/

/-- The bytes that an entry reserves, relative to the aligned base pointer. -/
def Entry.slot (e : Entry) : Region := ⟨e.offset, e.offset + (e.size + e.alignment - minimalAlignment)⟩

/-- An entry that `book` makes. -/
structure Entry.Valid (e : Entry) (size_ : ℕ) : Prop where
  offset_dvd : minimalAlignment ∣ e.offset
  size_dvd : minimalAlignment ∣ e.size
  size_pos : 0 < e.size
  alignment_ge : minimalAlignment ≤ e.alignment
  alignment_pow : ∃ k, e.alignment = 2 ^ k
  stop_le : e.slot.stop ≤ size_

/-- The slots of the entries lie in front of the running size and do not overlap. -/
structure Registry.Valid (r : Registry) : Prop where
  size_dvd : minimalAlignment ∣ r.size_
  entry : ∀ k e, r.offsetMap k = some e → e.Valid r.size_
  apart : ∀ k k' e e', r.offsetMap k = some e → r.offsetMap k' = some e' → k ≠ k' →
    e.slot.Apart e'.slot

theorem Registry.valid_empty : Registry.empty.Valid where
  size_dvd := Nat.dvd_zero _
  entry k e h := by cases h
  apart k k' e e' h := by cases h

theorem max_alignment_pow {alignment : ℕ} (h : ∃ k, alignment = 2 ^ k) :
    ∃ k, max alignment minimalAlignment = 2 ^ k := by
  obtain ⟨k, rfl⟩ := h
  rcases le_total (2 ^ k) minimalAlignment with hle | hle
  · exact ⟨6, max_eq_right hle⟩
  · exact ⟨k, max_eq_left hle⟩

theorem minimalAlignment_dvd_pow {k : ℕ} (h : minimalAlignment ≤ 2 ^ k) : minimalAlignment ∣ 2 ^ k := by
  have hk : 6 ≤ k := (Nat.pow_le_pow_iff_right (a := 2) (by decide)).mp h
  exact Nat.pow_dvd_pow 2 hk

/-- The entry of a booking. -/
def bookedEntry (r : Registry) (size alignment : ℕ) : Entry :=
  ⟨r.size_, rndUp size minimalAlignment, max alignment minimalAlignment⟩

theorem Registry.book_size_ (r : Registry) (key : ℕ) {size : ℕ} (alignment : ℕ) (h : size ≠ 0) :
    (r.book key size alignment).size_ = (bookedEntry r size alignment).slot.stop := by
  unfold Registry.book
  rw [if_neg h]
  rfl

theorem Registry.book_self (r : Registry) (key : ℕ) {size : ℕ} (alignment : ℕ) (h : size ≠ 0) :
    (r.book key size alignment).offsetMap key = some (bookedEntry r size alignment) := by
  unfold Registry.book
  rw [if_neg h]
  exact Function.update_self ..

theorem Registry.book_of_ne (r : Registry) {key k : ℕ} (size alignment : ℕ) (hk : k ≠ key) :
    (r.book key size alignment).offsetMap k = r.offsetMap k := by
  unfold Registry.book
  by_cases h : size = 0
  · rw [if_pos h]
  · rw [if_neg h]
    exact Function.update_of_ne hk _ _

theorem Registry.book_zero (r : Registry) (key alignment : ℕ) : r.book key 0 alignment = r := rfl

theorem Registry.size_le_book (r : Registry) (key size alignment : ℕ) :
    r.size_ ≤ (r.book key size alignment).size_ := by
  by_cases h : size = 0
  · subst h
    exact le_rfl
  · rw [r.book_size_ key alignment h]
    exact Nat.le_add_right _ _

theorem Registry.Valid.bookedEntry {r : Registry} (hr : r.Valid) {size alignment : ℕ} (h : size ≠ 0)
    (hpow : ∃ k, alignment = 2 ^ k) :
    (bookedEntry r size alignment).Valid (bookedEntry r size alignment).slot.stop where
  offset_dvd := hr.size_dvd
  size_dvd := Nat.dvd_mul_left _ _
  size_pos := rndUp_pos (Nat.pos_of_ne_zero h) (by decide)
  alignment_ge := le_max_right _ _
  alignment_pow := max_alignment_pow hpow
  stop_le := le_rfl

/-- Booking keeps the slots apart. -/
theorem Registry.Valid.book {r : Registry} (hr : r.Valid) {key size alignment : ℕ}
    (hpow : ∃ k, alignment = 2 ^ k) (hnew : r.offsetMap key = none) :
    (r.book key size alignment).Valid := by
  by_cases h : size = 0
  · subst h
    exact hr
  have hentry := hr.bookedEntry h hpow
  have hgrow := r.size_le_book key size alignment
  have hself := r.book_self key alignment h
  have hother : ∀ k, k ≠ key → (r.book key size alignment).offsetMap k = r.offsetMap k :=
    fun k hk => r.book_of_ne size alignment hk
  have hbehind : ∀ k e, r.offsetMap k = some e → e.slot.stop ≤ (MklDnn.bookedEntry r size alignment).slot.start :=
    fun k e he => (hr.entry k e he).stop_le
  refine { size_dvd := ?_, entry := ?_, apart := ?_ }
  · obtain ⟨k, hk⟩ := hentry.alignment_pow
    have hdvd : minimalAlignment ∣ (MklDnn.bookedEntry r size alignment).alignment := by
      rw [hk]
      exact minimalAlignment_dvd_pow (hk ▸ hentry.alignment_ge)
    rw [r.book_size_ key alignment h]
    exact Nat.dvd_add hentry.offset_dvd
      (Nat.dvd_sub (Nat.dvd_add hentry.size_dvd hdvd) (Nat.dvd_refl _))
  · intro k e he
    by_cases hk : k = key
    · subst hk
      rw [hself, Option.some.injEq] at he
      subst he
      rw [r.book_size_ k alignment h]
      exact hentry
    · rw [hother k hk] at he
      have hold := hr.entry k e he
      exact { hold with stop_le := hold.stop_le.trans hgrow }
  · intro k k' e e' he he' hne
    by_cases hk : k = key
    · subst hk
      rw [hself, Option.some.injEq] at he
      rw [hother k' (Ne.symm hne)] at he'
      subst he
      exact Or.inr (hbehind k' e' he')
    · rw [hother k hk] at he
      by_cases hk' : k' = key
      · subst hk'
        rw [hself, Option.some.injEq] at he'
        subst he'
        exact Or.inl (hbehind k e he)
      · rw [hother k' hk'] at he'
        exact hr.apart k k' e e' he he' hne

/-! ## A sequence of bookings -/

namespace Booking

/-- The key under which the registry keeps the booking. -/
def globalKey (b : Booking) : ℕ := MklDnn.globalKey b.chain b.key

/-- A booking as a primitive may make it. -/
structure Valid (b : Booking) : Prop where
  key : ValidKey b.chain b.key
  alignment_pow : ∃ k, b.alignment = 2 ^ k

/-- The entry holds what was booked. -/
def HeldBy (b : Booking) (e : Entry) : Prop :=
  e.size = rndUp b.size minimalAlignment ∧ e.alignment = max b.alignment minimalAlignment

end Booking

theorem bookAll_cons (r : Registry) (b : Booking) (bs : List Booking) :
    bookAll r (b :: bs) = bookAll (r.book b.globalKey b.size b.alignment) bs := rfl

/-- Other keys are left alone. -/
theorem bookAll_of_notMem {r : Registry} {bs : List Booking} {k : ℕ}
    (hk : ∀ b ∈ bs, b.globalKey ≠ k) : (bookAll r bs).offsetMap k = r.offsetMap k := by
  induction bs generalizing r with
  | nil => rfl
  | cons b bs ih =>
    rw [bookAll_cons, ih fun b' hb' => hk b' (List.mem_cons_of_mem b hb')]
    exact r.book_of_ne _ _ (Ne.symm (hk b List.mem_cons_self))

/-- After a sequence of bookings under different keys every booking has its entry. -/
theorem bookAll_spec {r : Registry} (hr : r.Valid) {bs : List Booking}
    (hpow : ∀ b ∈ bs, ∃ k, b.alignment = 2 ^ k)
    (hkeys : bs.Pairwise fun b b' => b.globalKey ≠ b'.globalKey)
    (hnew : ∀ b ∈ bs, r.offsetMap b.globalKey = none) :
    (bookAll r bs).Valid ∧ ∀ b ∈ bs,
      if b.size = 0 then (bookAll r bs).offsetMap b.globalKey = none
      else ∃ e, (bookAll r bs).offsetMap b.globalKey = some e ∧ b.HeldBy e := by
  induction bs generalizing r with
  | nil => exact ⟨hr, by simp⟩
  | cons b bs ih =>
    rw [List.pairwise_cons] at hkeys
    have hbook : (r.book b.globalKey b.size b.alignment).Valid :=
      hr.book (hpow b List.mem_cons_self) (hnew b List.mem_cons_self)
    have hnew' : ∀ b' ∈ bs, (r.book b.globalKey b.size b.alignment).offsetMap b'.globalKey = none := by
      intro b' hb'
      rw [r.book_of_ne _ _ (Ne.symm (hkeys.1 b' hb'))]
      exact hnew b' (List.mem_cons_of_mem b hb')
    obtain ⟨hvalid, hentries⟩ := ih hbook (fun b' hb' => hpow b' (List.mem_cons_of_mem b hb'))
      hkeys.2 hnew'
    rw [bookAll_cons]
    refine ⟨hvalid, ?_⟩
    intro b' hb'
    rcases List.mem_cons.mp hb' with rfl | hb'
    · rw [bookAll_of_notMem fun b'' hb'' => Ne.symm (hkeys.1 b'' hb'')]
      by_cases h : b'.size = 0
      · rw [if_pos h, h, Registry.book_zero]
        exact hnew b' List.mem_cons_self
      · rw [if_neg h, r.book_self _ _ h]
        exact ⟨_, rfl, rfl, rfl⟩
    · exact hentries b' hb'

/-! ## What the grantor returns -/

/-- The buffer of the registry at `basePtr`. -/
def Registry.buffer (r : Registry) (basePtr : ℕ) : Region := ⟨basePtr, basePtr + r.size⟩

/-- The slot of an entry for a base pointer. -/
def Entry.slotAt (e : Entry) (basePtr : ℕ) : Region :=
  ⟨rndUp basePtr minimalAlignment + e.slot.start, rndUp basePtr minimalAlignment + e.slot.stop⟩

/-- The registry returns an aligned pointer into the slot, with the booked bytes behind it. -/
theorem Registry.Valid.get_spec {r : Registry} (hr : r.Valid) {k : ℕ} {e : Entry}
    (he : r.offsetMap k = some e) {basePtr : ℕ} (hnull : basePtr ≠ 0)
    (hbuf : basePtr + r.size ≤ 2 ^ 64) :
    e.alignment ∣ r.get k basePtr ∧
      (⟨r.get k basePtr, r.get k basePtr + e.size⟩ : Region).Within (e.slotAt basePtr) ∧
      (e.slotAt basePtr).Within (r.buffer basePtr) := by
  have hv := hr.entry k e he
  obtain ⟨n, hn⟩ := hv.alignment_pow
  have hge := hv.alignment_ge
  have hdvd : minimalAlignment ∣ e.alignment := hn ▸ minimalAlignment_dvd_pow (hn ▸ hge)
  have hsize : minimalAlignment ≤ e.size := Nat.le_of_dvd hv.size_pos hv.size_dvd
  have hstop : e.offset + (e.size + e.alignment - minimalAlignment) ≤ r.size_ := hv.stop_le
  have hmin : minimalAlignment = 64 := rfl
  have hbuffer : r.size = r.size_ + minimalAlignment - 1 := if_pos (by omega)
  have hlow : basePtr ≤ rndUp basePtr minimalAlignment := le_rndUp (by decide)
  have hup : rndUp basePtr minimalAlignment < basePtr + minimalAlignment := rndUp_lt (by decide)
  have hbase : alignPtr basePtr minimalAlignment = rndUp basePtr minimalAlignment :=
    alignPtr_eq (k := 6) (show basePtr + minimalAlignment ≤ 2 ^ 64 by omega)
  have hget : r.get k basePtr = rndUp (rndUp basePtr minimalAlignment + e.offset) e.alignment := by
    unfold Registry.get
    rw [if_neg hnull, he]
    dsimp only
    rw [hbase, hn]
    refine alignPtr_eq ?_
    rw [← hn]
    omega
  have hpos : 0 < e.alignment := by omega
  have hlow2 : rndUp basePtr minimalAlignment + e.offset ≤ r.get k basePtr := by
    rw [hget]
    exact le_rndUp hpos
  have hup2 : r.get k basePtr < rndUp basePtr minimalAlignment + e.offset + e.alignment := by
    rw [hget]
    exact rndUp_lt hpos
  have haligned : e.alignment ∣ r.get k basePtr := by
    rw [hget]
    exact Nat.dvd_mul_left _ _
  -- everything is a multiple of the minimal alignment
  have hbaseDvd : minimalAlignment ∣ rndUp basePtr minimalAlignment := Nat.dvd_mul_left _ _
  have hup3 : r.get k basePtr + minimalAlignment ≤
      rndUp basePtr minimalAlignment + e.offset + e.alignment := by
    obtain ⟨a, ha⟩ := hdvd.trans haligned
    obtain ⟨b, hb⟩ := Nat.dvd_add (Nat.dvd_add hbaseDvd hv.offset_dvd) hdvd
    rw [ha, hb] at hup2 ⊢
    have hlt : a < b := Nat.lt_of_mul_lt_mul_left hup2
    exact Nat.mul_le_mul_left minimalAlignment hlt
  refine ⟨haligned, { start_le := hlow2, le_stop := ?_ }, { start_le := ?_, le_stop := ?_ }⟩
  · show r.get k basePtr + e.size ≤
      rndUp basePtr minimalAlignment + (e.offset + (e.size + e.alignment - minimalAlignment))
    omega
  · show basePtr ≤ rndUp basePtr minimalAlignment + e.offset
    omega
  · show rndUp basePtr minimalAlignment + (e.offset + (e.size + e.alignment - minimalAlignment)) ≤
      basePtr + r.size
    omega

/-- The region that the grantor with the prefixes of the booking returns for its key. -/
def Booking.region (b : Booking) (r : Registry) (basePtr : ℕ) : Region :=
  ⟨(Grantor.ofChain r basePtr b.chain).get b.key,
    (Grantor.ofChain r basePtr b.chain).get b.key + b.size⟩

theorem Booking.region_eq (b : Booking) (r : Registry) (basePtr : ℕ) :
    b.region r basePtr = ⟨r.get b.globalKey basePtr, r.get b.globalKey basePtr + b.size⟩ := by
  unfold Booking.region
  rw [grantor_ofChain]
  rfl

/-- The region of a booking lies in its slot. A booking of nothing gets the null pointer. -/
theorem bookAll_region {bs : List Booking} (hvalid : ∀ b ∈ bs, b.Valid)
    (hkeys : bs.Pairwise fun b b' => b.globalKey ≠ b'.globalKey) {basePtr : ℕ}
    (hnull : (bookAll Registry.empty bs).size ≠ 0 → basePtr ≠ 0)
    (hbuf : basePtr + (bookAll Registry.empty bs).size ≤ 2 ^ 64) {b : Booking} (hb : b ∈ bs) :
    (b.size = 0 ∧ b.region (bookAll Registry.empty bs) basePtr = ⟨0, 0⟩) ∨
      ∃ e, (bookAll Registry.empty bs).offsetMap b.globalKey = some e ∧
        b.alignment ∣ (b.region (bookAll Registry.empty bs) basePtr).start ∧
        (b.region (bookAll Registry.empty bs) basePtr).Within (e.slotAt basePtr) ∧
        (e.slotAt basePtr).Within ((bookAll Registry.empty bs).buffer basePtr) := by
  obtain ⟨hr, hentries⟩ := bookAll_spec Registry.valid_empty
    (fun b' hb' => (hvalid b' hb').alignment_pow) hkeys fun _ _ => rfl
  have hentry := hentries b hb
  rw [Booking.region_eq]
  by_cases h : b.size = 0
  · rw [if_pos h] at hentry
    refine Or.inl ⟨h, ?_⟩
    have hget : (bookAll Registry.empty bs).get b.globalKey basePtr = 0 := by
      unfold Registry.get
      rw [hentry]
      split_ifs <;> rfl
    rw [hget, h]
  · rw [if_neg h] at hentry
    obtain ⟨e, he, hsize, halign⟩ := hentry
    have hpos : 0 < (bookAll Registry.empty bs).size_ := by
      have hstop := (hr.entry _ e he).stop_le
      have hpos := (hr.entry _ e he).size_pos
      have hge := (hr.entry _ e he).alignment_ge
      change e.offset + (e.size + e.alignment - minimalAlignment) ≤ _ at hstop
      omega
    have hne : basePtr ≠ 0 := by
      refine hnull ?_
      unfold Registry.size
      rw [if_pos hpos]
      unfold minimalAlignment
      omega
    obtain ⟨hdvd, hwithin, hbuffer⟩ := hr.get_spec he hne hbuf
    refine Or.inr ⟨e, he, ?_, { start_le := hwithin.start_le, le_stop := ?_ }, hbuffer⟩
    · -- a power of two divides the larger one of two
      obtain ⟨k, hk⟩ := (hvalid b hb).alignment_pow
      obtain ⟨k', hk'⟩ := max_alignment_pow (hvalid b hb).alignment_pow
      have hdvd' : b.alignment ∣ e.alignment := by
        rw [halign, hk', hk]
        refine Nat.pow_dvd_pow 2 ((Nat.pow_le_pow_iff_right (a := 2) (by decide)).mp ?_)
        rw [← hk, ← hk']
        exact le_max_left _ _
      exact hdvd'.trans hdvd
    · have hle : b.size ≤ e.size := by
        rw [hsize]
        exact le_rndUp (by decide)
      exact le_trans (Nat.add_le_add_left hle _) hwithin.le_stop

/-- After any sequence of bookings under different keys, the grantors return regions that are aligned as
booked, inside of the buffer and disjoint from each other. -/
theorem scratchpad_regions (bs : List Booking) (hvalid : ∀ b ∈ bs, b.Valid)
    (hdistinct : bs.Pairwise fun b b' => (b.chain, b.key) ≠ (b'.chain, b'.key)) {basePtr : ℕ}
    (hnull : (bookAll Registry.empty bs).size ≠ 0 → basePtr ≠ 0)
    (hbuf : basePtr + (bookAll Registry.empty bs).size ≤ 2 ^ 64) :
    (∀ b ∈ bs, b.alignment ∣ (b.region (bookAll Registry.empty bs) basePtr).start ∧
      (b.size ≠ 0 → (b.region (bookAll Registry.empty bs) basePtr).Within
        ((bookAll Registry.empty bs).buffer basePtr))) ∧
    bs.Pairwise fun b b' => (b.region (bookAll Registry.empty bs) basePtr).Apart
      (b'.region (bookAll Registry.empty bs) basePtr) := by
  have hkeys : bs.Pairwise fun b b' => b.globalKey ≠ b'.globalKey := by
    refine hdistinct.imp_of_mem ?_
    intro b b' hb hb' hne heq
    obtain ⟨hchain, hkey⟩ := globalKey_inj (hvalid b hb).key (hvalid b' hb').key heq
    exact hne (Prod.ext hchain hkey)
  have hregion := fun b hb => bookAll_region hvalid hkeys hnull hbuf (b := b) hb
  obtain ⟨hr, -⟩ := bookAll_spec Registry.valid_empty
    (fun b hb => (hvalid b hb).alignment_pow) hkeys fun _ _ => rfl
  constructor
  · intro b hb
    rcases hregion b hb with ⟨h, heq⟩ | ⟨e, -, hdvd, hwithin, hbuffer⟩
    · rw [heq]
      exact ⟨Nat.dvd_zero _, fun hne => absurd h hne⟩
    · exact ⟨hdvd, fun _ => hwithin.trans hbuffer⟩
  · refine hkeys.imp_of_mem ?_
    intro b b' hb hb' hne
    rcases hregion b hb with ⟨-, heq⟩ | ⟨e, he, -, hwithin, -⟩
    · rw [heq]
      exact Or.inl (Nat.zero_le _)
    · rcases hregion b' hb' with ⟨-, heq'⟩ | ⟨e', he', -, hwithin', -⟩
      · rw [heq']
        exact Or.inr (Nat.zero_le _)
      · have hslots := hr.apart _ _ e e' he he' hne
        have hslotsAt : (e.slotAt basePtr).Apart (e'.slotAt basePtr) := by
          rcases hslots with h | h
          · exact Or.inl (Nat.add_le_add_left h _)
          · exact Or.inr (Nat.add_le_add_left h _)
        exact hslotsAt.mono hwithin hwithin'

/-- A convolution that books with an alignment of a page, its reducer and a reducer inside of that. -/
theorem scratchpad_regions_reducer :
    let bs : List Booking := [⟨[], 19, 100, 64⟩, ⟨[1], 37, 1000, 4096⟩, ⟨[1, 2], 37, 0, 64⟩,
      ⟨[1, 2, 1], 1, 65, 16⟩]
    (bookAll Registry.empty bs).size = 5375 ∧
      bs.Pairwise fun b b' => (b.region (bookAll Registry.empty bs) 1000003).Apart
        (b'.region (bookAll Registry.empty bs) 1000003) := by
  refine ⟨by decide, (scratchpad_regions _ ?_ (by decide) ?_ ?_).2⟩
  · intro b hb
    simp only [List.mem_cons, List.not_mem_nil, or_false] at hb
    rcases hb with rfl | rfl | rfl | rfl
    · exact ⟨⟨by decide, by decide, by decide, by decide⟩, 6, rfl⟩
    · exact ⟨⟨by decide, by decide, by decide, by decide⟩, 12, rfl⟩
    · exact ⟨⟨by decide, by decide, by decide, by decide⟩, 6, rfl⟩
    · exact ⟨⟨by decide, by decide, by decide, by decide⟩, 4, rfl⟩
  · exact fun _ => by decide
  · decide

end MklDnn
