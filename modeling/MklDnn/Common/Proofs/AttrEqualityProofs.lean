import Mathlib.Tactic.Tauto
import MklDnn.Common.Proofs.PrimitiveAttrProofs
import MklDnn.Common.Proofs.PrimitiveHashingProofs

/-!
# Proofs: equality of attributes

`operator==` of attributes compares like an equality of numbers, apart from the scales of the parameters of
recurrent networks: these are compared only if the left attribute has some, without a look at whether the right
one has.
-/

namespace MklDnn.PrimitiveHashing

/-! ## Numbers and arrays -/

namespace F32

theorem beq_self_iff {x : F32} : (x == x) = true ↔ x.isNaN = false := by
  change F32.eq x x = true ↔ _
  simp [F32.eq]

instance : PartialEquivBEq F32 where
  symm {x y} h := by
    change F32.eq x y = true at h
    change F32.eq y x = true
    simp only [F32.eq, Bool.and_eq_true, Bool.not_eq_true', Bool.or_eq_true, decide_eq_true_eq] at h ⊢
    obtain ⟨⟨hx, hy⟩, hbits | ⟨hx0, hy0⟩⟩ := h
    · exact ⟨⟨hy, hx⟩, Or.inl hbits.symm⟩
    · exact ⟨⟨hy, hx⟩, Or.inr ⟨hy0, hx0⟩⟩
  trans {x y z} h h' := by
    change F32.eq x y = true at h
    change F32.eq y z = true at h'
    change F32.eq x z = true
    simp only [F32.eq, Bool.and_eq_true, Bool.not_eq_true', Bool.or_eq_true, decide_eq_true_eq] at h h' ⊢
    obtain ⟨⟨hx, -⟩, hxy⟩ := h
    obtain ⟨⟨-, hz⟩, hyz⟩ := h'
    refine ⟨⟨hx, hz⟩, ?_⟩
    rcases hxy with hxy | ⟨hx0, hy0⟩ <;> rcases hyz with hyz | ⟨hy0', hz0⟩
    · exact Or.inl (hxy.trans hyz)
    · exact Or.inr ⟨by rw [isZero, hxy]; exact hy0', hz0⟩
    · exact Or.inr ⟨hx0, by rw [isZero, ← hyz]; exact hy0⟩
    · exact Or.inr ⟨hx0, hz0⟩

end F32

section Arrays

variable {α : Type*} [BEq α] [PartialEquivBEq α] {a b c : ℕ → α} {n : ℤ}

theorem arrayCmp_symm (h : arrayCmp a b n = true) : arrayCmp b a n = true := by
  rw [arrayCmp_iff] at h ⊢
  exact fun i hi => BEq.symm (h i hi)

theorem arrayCmp_trans (h : arrayCmp a b n = true) (h' : arrayCmp b c n = true) : arrayCmp a c n = true := by
  rw [arrayCmp_iff] at h h' ⊢
  exact fun i hi => PartialEquivBEq.trans (h i hi) (h' i hi)

end Arrays

theorem arrayCmp_self_iff {a : ℕ → F32} {n : ℤ} :
    arrayCmp a a n = true ↔ ∀ i : ℕ, (i : ℤ) < n → (a i).isNaN = false := by
  rw [arrayCmp_iff]
  exact forall_congr' fun i => forall_congr' fun _ => F32.beq_self_iff

/-! ## Members -/

namespace Scales

variable {a b c : Scales}

theorem eq_iff : a.eq b = true ↔ a.count = b.count ∧ a.mask = b.mask ∧
    ∃ s ∈ a.scales, ∃ t ∈ b.scales, arrayCmp s t a.count = true := by
  unfold Scales.eq
  rcases a with ⟨count, mask, _ | s⟩ <;> rcases b with ⟨count', mask', _ | t⟩ <;> simp [and_assoc]

theorem eq_symm (h : a.eq b = true) : b.eq a = true := by
  rw [eq_iff] at h ⊢
  obtain ⟨hcount, hmask, s, hs, t, ht, hcmp⟩ := h
  exact ⟨hcount.symm, hmask.symm, t, ht, s, hs, hcount ▸ arrayCmp_symm hcmp⟩

theorem eq_trans (h : a.eq b = true) (h' : b.eq c = true) : a.eq c = true := by
  rw [eq_iff] at h h' ⊢
  obtain ⟨hcount, hmask, s, hs, t, ht, hcmp⟩ := h
  obtain ⟨hcount', hmask', t', ht', u, hu, hcmp'⟩ := h'
  obtain rfl : t = t' := Option.mem_unique ht ht'
  rw [← hcount] at hcmp'
  exact ⟨hcount.trans hcount', hmask.trans hmask', s, hs, u, hu, arrayCmp_trans hcmp hcmp'⟩

/-- There are scales, and they are numbers. -/
def IsNumber (s : Scales) : Prop := ∃ v ∈ s.scales, ∀ i : ℕ, (i : ℤ) < s.count → (v i).isNaN = false

theorem eq_self_iff : a.eq a = true ↔ a.IsNumber := by
  rw [eq_iff]
  constructor
  · rintro ⟨-, -, s, hs, t, ht, hcmp⟩
    obtain rfl : s = t := Option.mem_unique hs ht
    exact ⟨s, hs, arrayCmp_self_iff.mp hcmp⟩
  · rintro ⟨v, hv, hnum⟩
    exact ⟨rfl, rfl, v, hv, v, hv, arrayCmp_self_iff.mpr hnum⟩

end Scales

namespace PostOpsEntry

variable {a b c : PostOpsEntry}

theorem beq_iff : (a == b) = true ↔ a.kind = b.kind ∧
    (a.kind = .eltwise → a.eltwiseAlg = b.eltwiseAlg ∧ (a.eltwiseScale == b.eltwiseScale) = true ∧
      (a.eltwiseAlpha == b.eltwiseAlpha) = true ∧ (a.eltwiseBeta == b.eltwiseBeta) = true) ∧
    (a.kind = .sum → (a.sumScale == b.sumScale) = true) := by
  change PostOpsEntry.eq a b = true ↔ _
  unfold PostOpsEntry.eq
  cases hkind : a.kind <;> simp [and_assoc]

instance : PartialEquivBEq PostOpsEntry where
  symm {a b} h := by
    rw [beq_iff] at h ⊢
    obtain ⟨hkind, helt, hsum⟩ := h
    rw [← hkind]
    refine ⟨rfl, fun hk => ?_, fun hk => BEq.symm (hsum hk)⟩
    obtain ⟨halg, hscale, halpha, hbeta⟩ := helt hk
    exact ⟨halg.symm, BEq.symm hscale, BEq.symm halpha, BEq.symm hbeta⟩
  trans {a b c} h h' := by
    rw [beq_iff] at h h' ⊢
    obtain ⟨hkind, helt, hsum⟩ := h
    obtain ⟨hkind', helt', hsum'⟩ := h'
    rw [← hkind] at helt' hsum' hkind'
    refine ⟨hkind', fun hk => ?_, fun hk => PartialEquivBEq.trans (hsum hk) (hsum' hk)⟩
    obtain ⟨halg, hscale, halpha, hbeta⟩ := helt hk
    obtain ⟨halg', hscale', halpha', hbeta'⟩ := helt' hk
    exact ⟨halg.trans halg', PartialEquivBEq.trans hscale hscale', PartialEquivBEq.trans halpha halpha',
      PartialEquivBEq.trans hbeta hbeta'⟩

/-- The members of the operation of the entry are numbers. -/
def IsNumber (e : PostOpsEntry) : Prop :=
  (e.kind = .eltwise → e.eltwiseScale.isNaN = false ∧ e.eltwiseAlpha.isNaN = false ∧ e.eltwiseBeta.isNaN = false) ∧
    (e.kind = .sum → e.sumScale.isNaN = false)

theorem beq_self_iff : (a == a) = true ↔ a.IsNumber := by
  rw [beq_iff]
  simp [IsNumber, F32.beq_self_iff]

end PostOpsEntry

namespace RnnTparams

variable {a b c : RnnTparams}

theorem agree_iff : a.agree b = true ↔ a.testMode = b.testMode ∧ a.ngates = b.ngates ∧ (a.cscale == b.cscale) = true := by
  simp [agree, and_assoc]

theorem agree_symm (h : a.agree b = true) : b.agree a = true := by
  rw [agree_iff] at h ⊢
  exact ⟨h.1.symm, h.2.1.symm, BEq.symm h.2.2⟩

theorem agree_trans (h : a.agree b = true) (h' : b.agree c = true) : a.agree c = true := by
  rw [agree_iff] at h h' ⊢
  exact ⟨h.1.trans h'.1, h.2.1.trans h'.2.1, PartialEquivBEq.trans h.2.2 h'.2.2⟩

/-- The comparison succeeds on all gates for which the left side has scales. -/
theorem eq?_eq_true_iff : a.eq? b = some true ↔ a.agree b = true ∧
    ∀ s ∈ a.scales, 0 < a.ngates → ∃ t ∈ b.scales, arrayCmp s t a.ngates = true := by
  have hnone : ∀ s t : ℕ → F32, ¬ 0 < a.ngates → arrayCmp s t a.ngates = true := by
    intro s t hgates
    rw [arrayCmp_iff]
    omega
  unfold eq?
  by_cases hagree : a.agree b = true
  · rw [if_pos hagree]
    rcases hs : a.scales with _ | s
    · simp [hagree]
    · rcases ht : b.scales with _ | t
      · by_cases hgates : 0 < a.ngates <;> simp [hagree, hgates]
      · by_cases hgates : 0 < a.ngates
        · simp [hagree, hgates]
        · simp [hagree, hgates, hnone s t hgates]
  · rw [if_neg hagree]
    simp [hagree]

theorem eq?_eq_none_iff : a.eq? b = none ↔ a.agree b = true ∧ 0 < a.ngates ∧ a.scales.isSome ∧ b.scales = none := by
  unfold eq?
  by_cases hagree : a.agree b = true
  · rw [if_pos hagree]
    rcases hs : a.scales with _ | s
    · simp
    · rcases ht : b.scales with _ | t
      · by_cases hgates : 0 < a.ngates <;> simp [hagree, hgates]
      · simp
  · rw [if_neg hagree]
    simp [hagree]

/-- The comparison as a function without missing results. -/
theorem eq?_eq_eq {r : Bool} (h : a.eq? b = some r) : a.eq b = r := by
  unfold eq? at h
  unfold RnnTparams.eq
  change (a.agree b && _) = r
  by_cases hagree : a.agree b = true
  · rw [if_pos hagree] at h
    rw [hagree, Bool.true_and]
    rcases hs : a.scales with _ | s
    · rw [hs] at h
      exact Option.some_injective _ h
    · rw [hs] at h
      rcases ht : b.scales with _ | t
      · rw [ht] at h
        dsimp only at h ⊢
        split_ifs at h
        exact Option.some_injective _ h
      · rw [ht] at h
        exact Option.some_injective _ h
  · rw [if_neg hagree] at h
    rw [Bool.eq_false_of_not_eq_true hagree, Bool.false_and]
    exact Option.some_injective _ h

/-- The members are numbers. -/
def IsNumber (t : RnnTparams) : Prop :=
  t.cscale.isNaN = false ∧ ∀ s ∈ t.scales, ∀ i : ℕ, (i : ℤ) < t.ngates → (s i).isNaN = false

theorem eq?_self_iff : a.eq? a = some true ↔ a.IsNumber := by
  rw [eq?_eq_true_iff, agree_iff, F32.beq_self_iff]
  constructor
  · rintro ⟨⟨-, -, hcscale⟩, hscales⟩
    refine ⟨hcscale, fun s hs i hi => ?_⟩
    obtain ⟨t, ht, hcmp⟩ := hscales s hs (by omega)
    obtain rfl : s = t := Option.mem_unique hs ht
    exact arrayCmp_self_iff.mp hcmp i hi
  · rintro ⟨hcscale, hscales⟩
    exact ⟨⟨rfl, rfl, hcscale⟩, fun s hs _ => ⟨s, hs, arrayCmp_self_iff.mpr (hscales s hs)⟩⟩

theorem eq?_trans (h : a.eq? b = some true) (h' : b.eq? c = some true) : a.eq? c = some true := by
  rw [eq?_eq_true_iff] at h h' ⊢
  refine ⟨agree_trans h.1 h'.1, fun s hs hgates => ?_⟩
  have hngates : a.ngates = b.ngates := (agree_iff.mp h.1).2.1
  obtain ⟨t, ht, hcmp⟩ := h.2 s hs hgates
  obtain ⟨u, hu, hcmp'⟩ := h'.2 t ht (hngates ▸ hgates)
  rw [← hngates] at hcmp'
  exact ⟨u, hu, arrayCmp_trans hcmp hcmp'⟩

/-- Both sides have scales, or none of them. -/
def SameNull (a b : RnnTparams) : Prop := a.agree b = true → 0 < a.ngates → (a.scales = none ↔ b.scales = none)

theorem SameNull.symm (h : a.SameNull b) : b.SameNull a := by
  intro hagree hgates
  have hngates : b.ngates = a.ngates := (agree_iff.mp hagree).2.1
  exact (h (agree_symm hagree) (hngates ▸ hgates)).symm

theorem SameNull.eq?_ne_none (h : a.SameNull b) : a.eq? b ≠ none := by
  rw [Ne, eq?_eq_none_iff]
  rintro ⟨hagree, hgates, ha, hb⟩
  rw [(h hagree hgates).mpr hb] at ha
  exact Bool.false_ne_true ha

theorem SameNull.eq?_symm (h : a.SameNull b) (heq : a.eq? b = some true) : b.eq? a = some true := by
  rw [eq?_eq_true_iff] at heq ⊢
  obtain ⟨hagree, hscales⟩ := heq
  have hngates : a.ngates = b.ngates := (agree_iff.mp hagree).2.1
  refine ⟨agree_symm hagree, fun t ht hgates => ?_⟩
  rw [← hngates] at hgates ⊢
  rcases hs : a.scales with _ | s
  · have hb := (h hagree hgates).mp hs
    rw [Option.mem_def, hb] at ht
    exact absurd ht (by simp)
  · obtain ⟨t', ht', hcmp⟩ := hscales s hs hgates
    obtain rfl : t = t' := Option.mem_unique ht ht'
    exact ⟨s, rfl, arrayCmp_symm hcmp⟩

/-- The two comparisons have a result, and the same one, exactly if there are scales on both sides or on none. -/
theorem eq?_comm_iff : (∃ r, a.eq? b = some r ∧ b.eq? a = some r) ↔ a.SameNull b := by
  constructor
  · rintro ⟨r, hab, hba⟩ hagree hgates
    have hngates : a.ngates = b.ngates := (agree_iff.mp hagree).2.1
    have hna : ¬ a.eq? b = none := by rw [hab]; exact Option.some_ne_none r
    have hnb : ¬ b.eq? a = none := by rw [hba]; exact Option.some_ne_none r
    rw [eq?_eq_none_iff] at hna hnb
    constructor
    · intro ha
      by_contra hb
      exact hnb ⟨agree_symm hagree, hngates ▸ hgates, Option.isSome_iff_ne_none.mpr hb, ha⟩
    · intro hb
      by_contra ha
      exact hna ⟨hagree, hgates, Option.isSome_iff_ne_none.mpr ha, hb⟩
  · intro h
    obtain ⟨r, hab⟩ := Option.ne_none_iff_exists'.mp h.eq?_ne_none
    obtain ⟨r', hba⟩ := Option.ne_none_iff_exists'.mp h.symm.eq?_ne_none
    have hiff : a.eq? b = some true ↔ b.eq? a = some true := ⟨h.eq?_symm, h.symm.eq?_symm⟩
    rw [hab, hba, Option.some_inj, Option.some_inj] at hiff
    exact ⟨r, hab, hba.trans (congrArg some (Bool.eq_iff_iff.mpr hiff).symm)⟩

end RnnTparams

/-! ## Attributes -/

namespace PrimitiveAttr

variable {a b c : PrimitiveAttr}

theorem agree_iff : a.agree b = true ↔ a.scratchpadMode = b.scratchpadMode ∧ a.outputScales.eq b.outputScales = true ∧
    (a.postOps.len = b.postOps.len ∧ arrayCmp a.postOps.entry b.postOps.entry a.postOps.len = true) ∧
    ((a.rnnDataQparamsScale == b.rnnDataQparamsScale) = true ∧
      (a.rnnDataQparamsShift == b.rnnDataQparamsShift) = true) ∧
    a.rnnWeightsQparams.eq b.rnnWeightsQparams = true := by
  simp [agree, and_assoc]

theorem agree_symm (h : a.agree b = true) : b.agree a = true := by
  rw [agree_iff] at h ⊢
  obtain ⟨hmode, hout, ⟨hlen, hops⟩, ⟨hscale, hshift⟩, hweights⟩ := h
  rw [← hlen]
  exact ⟨hmode.symm, Scales.eq_symm hout, ⟨rfl, arrayCmp_symm hops⟩, ⟨BEq.symm hscale, BEq.symm hshift⟩,
    Scales.eq_symm hweights⟩

theorem agree_trans (h : a.agree b = true) (h' : b.agree c = true) : a.agree c = true := by
  rw [agree_iff] at h h' ⊢
  obtain ⟨hmode, hout, ⟨hlen, hops⟩, ⟨hscale, hshift⟩, hweights⟩ := h
  obtain ⟨hmode', hout', ⟨hlen', hops'⟩, ⟨hscale', hshift'⟩, hweights'⟩ := h'
  rw [← hlen] at hops' hlen'
  exact ⟨hmode.trans hmode', Scales.eq_trans hout hout', ⟨hlen', arrayCmp_trans hops hops'⟩,
    ⟨PartialEquivBEq.trans hscale hscale', PartialEquivBEq.trans hshift hshift'⟩, Scales.eq_trans hweights hweights'⟩

theorem eq?_eq_true_iff : a.eq? b = some true ↔ a.agree b = true ∧ a.rnnTparams.eq? b.rnnTparams = some true := by
  unfold eq?
  split_ifs with hagree <;> simp [hagree]

/-- The comparison as a function without missing results. -/
theorem eq?_eq_eq {r : Bool} (h : a.eq? b = some r) : a.eq b = r := by
  unfold eq? at h
  change (a.agree b && a.rnnTparams.eq b.rnnTparams) = r
  split_ifs at h with hagree
  · rw [hagree, Bool.true_and, RnnTparams.eq?_eq_eq h]
  · rw [Bool.eq_false_of_not_eq_true hagree, Bool.false_and]
    exact Option.some_injective _ h

/-- No float that `operator==` compares is a NaN, and the scales of outputs and weights are there. -/
structure IsNumber (a : PrimitiveAttr) : Prop where
  outputScales : a.outputScales.IsNumber
  postOps : ∀ i : ℕ, (i : ℤ) < a.postOps.len → (a.postOps.entry i).IsNumber
  dataScale : a.rnnDataQparamsScale.isNaN = false
  dataShift : a.rnnDataQparamsShift.isNaN = false
  rnnWeightsQparams : a.rnnWeightsQparams.IsNumber
  rnnTparams : a.rnnTparams.IsNumber

theorem eq?_self_iff : a.eq? a = some true ↔ a.IsNumber := by
  rw [eq?_eq_true_iff, agree_iff, RnnTparams.eq?_self_iff, Scales.eq_self_iff, Scales.eq_self_iff, arrayCmp_iff,
    F32.beq_self_iff, F32.beq_self_iff]
  simp only [PostOpsEntry.beq_self_iff, true_and]
  constructor
  · rintro ⟨⟨hout, hops, ⟨hscale, hshift⟩, hweights⟩, htparams⟩
    exact ⟨hout, hops, hscale, hshift, hweights, htparams⟩
  · rintro ⟨hout, hops, hscale, hshift, hweights, htparams⟩
    exact ⟨⟨hout, hops, ⟨hscale, hshift⟩, hweights⟩, htparams⟩

/-- Where everything else is the same, the parameters of recurrent networks have scales on both sides or on none. -/
def SameNull (a b : PrimitiveAttr) : Prop := a.agree b = true → a.rnnTparams.SameNull b.rnnTparams

theorem eq?_comm_iff : (∃ r, a.eq? b = some r ∧ b.eq? a = some r) ↔ a.SameNull b := by
  unfold eq? SameNull
  by_cases hagree : a.agree b = true
  · rw [if_pos hagree, if_pos (agree_symm hagree), RnnTparams.eq?_comm_iff]
    exact ⟨fun h _ => h, fun h => h hagree⟩
  · have hagree' : ¬ b.agree a = true := fun h => hagree (agree_symm h)
    rw [if_neg hagree, if_neg hagree']
    exact iff_of_true ⟨false, rfl, rfl⟩ fun h => absurd h hagree

theorem eq?_trans (h : a.eq? b = some true) (h' : b.eq? c = some true) : a.eq? c = some true := by
  rw [eq?_eq_true_iff] at h h' ⊢
  exact ⟨agree_trans h.1 h'.1, RnnTparams.eq?_trans h.2 h'.2⟩

end PrimitiveAttr

/-! ## What the setters make -/

/-- A single scale fills the buffer. -/
def Scales.Filled (s : Scales) : Prop := s.count = 1 → ∀ v ∈ s.scales, ∀ i, v i = v 0

/-- The entries are within the capacity, and they are sums and element-wise operations. -/
structure PostOps.Known (p : PostOps) : Prop where
  nonneg : 0 ≤ p.len
  le_capacity : p.len ≤ capacity
  kind : ∀ i : ℕ, (i : ℤ) < p.len → (p.entry i).kind = .sum ∨ (p.entry i).kind = .eltwise

structure PrimitiveAttr.WellFormed (a : PrimitiveAttr) : Prop where
  outputScales : a.outputScales.Filled
  postOps : a.postOps.Known
  rnnWeightsQparams : a.rnnWeightsQparams.Filled

structure AttrState.WellFormed (st : AttrState) : Prop where
  attr : ∀ i, (st.attr i).WellFormed
  postOps : ∀ i, (st.postOps i).Known

theorem Scales.set_filled (count mask : ℤ) (scales : ℕ → F32) (allocated : Bool) :
    (Scales.set count mask scales allocated).1.Filled := by
  unfold Scales.set Filled
  split_ifs with hone halloc
  · rintro - v hv i
    obtain rfl : (fun _ => scales 0) = v := Option.some_injective _ hv
    rfl
  · exact fun h => absurd h hone
  · exact fun h => absurd h hone

namespace PostOps

variable {p : PostOps}

theorem Known.append (h : p.Known) (hlen : p.len ≠ capacity) {e : PostOpsEntry} (he : e.kind = .sum ∨ e.kind = .eltwise) :
    (⟨p.len + 1, Function.update p.entry p.len.toNat e⟩ : PostOps).Known := by
  have hnonneg := h.nonneg
  have hle := h.le_capacity
  refine ⟨by show 0 ≤ p.len + 1; omega, by show p.len + 1 ≤ capacity; omega, fun i hi => ?_⟩
  change (i : ℤ) < p.len + 1 at hi
  show (Function.update p.entry p.len.toNat e i).kind = .sum ∨ (Function.update p.entry p.len.toNat e i).kind = .eltwise
  by_cases hlast : i = p.len.toNat
  · rw [hlast, Function.update_self]
    exact he
  · rw [Function.update_of_ne hlast]
    exact h.kind i (by omega)

theorem Known.appendSum (h : p.Known) (scale : F32) : (p.appendSum scale).1.Known := by
  unfold PostOps.appendSum
  split_ifs with hfull
  · exact h
  · exact h.append hfull (Or.inl rfl)

theorem Known.appendEltwise (h : p.Known) (scale : F32) (alg : AlgKind) (alpha beta : F32) :
    (p.appendEltwise scale alg alpha beta).1.Known := by
  unfold PostOps.appendEltwise
  split_ifs with halg hfull
  · exact h
  · exact h
  · exact h.append hfull (Or.inr rfl)

end PostOps

/-- A setter of scales keeps an attribute well formed if the write of filled scales does. -/
theorem PrimitiveAttr.WellFormed.setScales {a : PrimitiveAttr} (h : a.WellFormed) {put : Scales → PrimitiveAttr}
    (hput : ∀ s : Scales, s.Filled → (put s).WellFormed) (count mask : ℤ) (scales : Option (ℕ → F32)) (allocated : Bool) :
    (a.setScales put count mask scales allocated).1.WellFormed := by
  unfold PrimitiveAttr.setScales
  rcases scales with _ | scales
  · exact h
  · dsimp only
    split_ifs with hvalid
    · exact hput _ (Scales.set_filled count mask scales allocated)
    · exact h

namespace AttrState

variable {st : AttrState}

theorem WellFormed.onAttr (h : st.WellFormed) (attr : Option ℕ) {f : PrimitiveAttr → PrimitiveAttr × Result}
    (hf : ∀ a : PrimitiveAttr, a.WellFormed → (f a).1.WellFormed) : (st.onAttr attr f).1.WellFormed := by
  rcases attr with _ | i
  · exact h
  · refine ⟨fun j => ?_, h.postOps⟩
    show (Function.update st.attr i (f (st.attr i)).1 j).WellFormed
    by_cases hj : j = i
    · rw [hj, Function.update_self]
      exact hf _ (h.attr i)
    · rw [Function.update_of_ne hj]
      exact h.attr j

theorem WellFormed.onPostOps (h : st.WellFormed) (postOps : Option ℕ) {f : PostOps → PostOps × Result}
    (hf : ∀ p : PostOps, p.Known → (f p).1.Known) : (st.onPostOps postOps f).1.WellFormed := by
  rcases postOps with _ | i
  · exact h
  · refine ⟨h.attr, fun j => ?_⟩
    show (Function.update st.postOps i (f (st.postOps i)).1 j).Known
    by_cases hj : j = i
    · rw [hj, Function.update_self]
      exact hf _ (h.postOps i)
    · rw [Function.update_of_ne hj]
      exact h.postOps j

theorem WellFormed.step (h : st.WellFormed) (call : AttrCall) : (st.step call).1.WellFormed := by
  cases call with
  | setScratchpadMode attr mode =>
    refine h.onAttr attr fun a ha => ?_
    cases mode with
    | none => exact ha
    | some mode => exact ⟨ha.outputScales, ha.postOps, ha.rnnWeightsQparams⟩
  | setOutputScales attr count mask scales allocated =>
    refine h.onAttr attr fun a ha => ha.setScales (fun s hs => ?_) count mask scales allocated
    exact ⟨hs, ha.postOps, ha.rnnWeightsQparams⟩
  | setPostOps attr postOps =>
    cases postOps with
    | none => exact h
    | some i => exact h.onAttr attr fun a ha => ⟨ha.outputScales, h.postOps i, ha.rnnWeightsQparams⟩
  | setRnnDataQparams attr scale shift =>
    exact h.onAttr attr fun a ha => ⟨ha.outputScales, ha.postOps, ha.rnnWeightsQparams⟩
  | setRnnWeightsQparams attr count mask scales allocated =>
    refine h.onAttr attr fun a ha => ha.setScales (fun s hs => ?_) count mask scales allocated
    exact ⟨ha.outputScales, ha.postOps, hs⟩
  | setRnnTparams attr mode ngates scales cscale allocated =>
    exact h.onAttr attr fun a ha => ⟨ha.outputScales, ha.postOps, ha.rnnWeightsQparams⟩
  | appendSum postOps scale => exact h.onPostOps postOps fun p hp => hp.appendSum scale
  | appendEltwise postOps scale alg alpha beta =>
    exact h.onPostOps postOps fun p hp => hp.appendEltwise scale alg alpha beta

theorem WellFormed.run (h : st.WellFormed) (calls : List AttrCall) : (st.run calls).WellFormed := by
  induction calls generalizing st with
  | nil => exact h
  | cons call calls ih => exact ih (h.step call)

theorem created_wellFormed (entry : ℕ → PostOpsEntry) : (created entry).WellFormed := by
  have hdefault : Scales.default.Filled := fun _ v hv i => by
    obtain rfl : (fun _ => F32.one) = v := Option.some_injective _ hv
    rfl
  have hempty : (⟨0, entry⟩ : PostOps).Known := by
    refine ⟨Int.le_refl 0, ?_, fun i hi => ?_⟩
    · show (0 : ℤ) ≤ 4
      omega
    · change (i : ℤ) < 0 at hi
      omega
  exact ⟨fun _ => ⟨hdefault, hempty, hdefault⟩, fun _ => hempty⟩

theorem Reachable.wellFormed {a : PrimitiveAttr} (h : Reachable a) : a.WellFormed := by
  obtain ⟨entry, calls, i, rfl⟩ := h
  exact ((created_wellFormed entry).run calls).attr i

end AttrState

/-! ## What equal attributes give -/

/-- `scales_buf_size` -/
def scalesBufSize : ℕ := 16

/-- The same scales, in the whole buffer if there is only one. -/
def Scales.Same (a b : Scales) : Prop :=
  a.count = b.count ∧ a.mask = b.mask ∧ ∃ s ∈ a.scales, ∃ t ∈ b.scales,
    ∀ i : ℕ, (i : ℤ) < a.count ∨ a.count = 1 ∧ i < scalesBufSize → (s i == t i) = true

/-- The same operation. -/
inductive PostOpsEntry.Same (a b : PostOpsEntry) : Prop where
  | sum (ha : a.kind = .sum) (hb : b.kind = .sum) (scale : (a.sumScale == b.sumScale) = true)
  | eltwise (ha : a.kind = .eltwise) (hb : b.kind = .eltwise) (alg : a.eltwiseAlg = b.eltwiseAlg)
      (scale : (a.eltwiseScale == b.eltwiseScale) = true) (alpha : (a.eltwiseAlpha == b.eltwiseAlpha) = true)
      (beta : (a.eltwiseBeta == b.eltwiseBeta) = true)

/-- The same modes and the same scales of the gates. -/
structure RnnTparams.Same (a b : RnnTparams) : Prop where
  testMode : a.testMode = b.testMode
  ngates : a.ngates = b.ngates
  cscale : (a.cscale == b.cscale) = true
  scales : 0 < a.ngates → a.scales = none ∧ b.scales = none ∨
    ∃ s ∈ a.scales, ∃ t ∈ b.scales, ∀ i : ℕ, (i : ℤ) < a.ngates → (s i == t i) = true

namespace PrimitiveAttr

/-- Two attributes give an implementation the same. -/
structure Same (a b : PrimitiveAttr) : Prop where
  scratchpadMode : a.scratchpadMode = b.scratchpadMode
  outputScales : a.outputScales.Same b.outputScales
  postOpsLen : a.postOps.len = b.postOps.len
  postOps : ∀ i : ℕ, (i : ℤ) < a.postOps.len → (a.postOps.entry i).Same (b.postOps.entry i)
  dataScale : (a.rnnDataQparamsScale == b.rnnDataQparamsScale) = true
  dataShift : (a.rnnDataQparamsShift == b.rnnDataQparamsShift) = true
  rnnWeightsQparams : a.rnnWeightsQparams.Same b.rnnWeightsQparams
  rnnTparams : a.rnnTparams.Same b.rnnTparams

/-- `operator==` is an equality of `a`, `b` and `c` that no implementation can tell from the equality of their values. -/
structure Equality (a b c : PrimitiveAttr) : Prop where
  refl : a.eq? a = some true
  symm : ∃ r, a.eq? b = some r ∧ b.eq? a = some r
  trans : a.eq? b = some true → b.eq? c = some true → a.eq? c = some true
  same : a.eq? b = some true → a.Same b

end PrimitiveAttr

theorem Scales.same_of_eq {a b : Scales} (ha : a.Filled) (hb : b.Filled) (h : a.eq b = true) : a.Same b := by
  obtain ⟨hcount, hmask, s, hs, t, ht, hcmp⟩ := Scales.eq_iff.mp h
  refine ⟨hcount, hmask, s, hs, t, ht, fun i hi => ?_⟩
  rw [arrayCmp_iff] at hcmp
  rcases hi with hi | ⟨hone, -⟩
  · exact hcmp i hi
  · rw [ha hone s hs i, hb (hcount ▸ hone) t ht i]
    exact hcmp 0 (by omega)

theorem PostOpsEntry.same_of_beq {a b : PostOpsEntry} (ha : a.kind = .sum ∨ a.kind = .eltwise) (h : (a == b) = true) :
    a.Same b := by
  obtain ⟨hkind, helt, hsum⟩ := PostOpsEntry.beq_iff.mp h
  rcases ha with ha | ha
  · exact .sum ha (hkind ▸ ha) (hsum ha)
  · obtain ⟨halg, hscale, halpha, hbeta⟩ := helt ha
    exact .eltwise ha (hkind ▸ ha) halg hscale halpha hbeta

theorem RnnTparams.same_of_eq? {a b : RnnTparams} (hnull : a.SameNull b) (h : a.eq? b = some true) : a.Same b := by
  obtain ⟨hagree, hscales⟩ := RnnTparams.eq?_eq_true_iff.mp h
  obtain ⟨htest, hgates, hcscale⟩ := RnnTparams.agree_iff.mp hagree
  refine ⟨htest, hgates, hcscale, fun hpos => ?_⟩
  rcases hs : a.scales with _ | s
  · exact Or.inl ⟨rfl, (hnull hagree hpos).mp hs⟩
  · obtain ⟨t, ht, hcmp⟩ := hscales s hs hpos
    exact Or.inr ⟨s, rfl, t, ht, arrayCmp_iff.mp hcmp⟩

namespace PrimitiveAttr

variable {a b c : PrimitiveAttr}

theorem same_of_eq? (ha : a.WellFormed) (hb : b.WellFormed) (hnull : a.SameNull b) (h : a.eq? b = some true) :
    a.Same b := by
  obtain ⟨hagree, htparams⟩ := eq?_eq_true_iff.mp h
  obtain ⟨hmode, hout, ⟨hlen, hops⟩, ⟨hscale, hshift⟩, hweights⟩ := agree_iff.mp hagree
  refine ⟨hmode, Scales.same_of_eq ha.outputScales hb.outputScales hout, hlen, fun i hi => ?_, hscale, hshift,
    Scales.same_of_eq ha.rnnWeightsQparams hb.rnnWeightsQparams hweights,
    RnnTparams.same_of_eq? (hnull hagree) htparams⟩
  exact PostOpsEntry.same_of_beq (ha.postOps.kind i hi) (arrayCmp_iff.mp hops i hi)

/-- `operator==` is an equality of attributes that the setters have made, exactly if they hold numbers, and scales of
the gates on both sides or on none where it comes to these. -/
theorem equality_iff (ha : AttrState.Reachable a) (hb : AttrState.Reachable b) :
    Equality a b c ↔ a.IsNumber ∧ a.SameNull b := by
  constructor
  · intro h
    exact ⟨eq?_self_iff.mp h.refl, eq?_comm_iff.mp h.symm⟩
  · rintro ⟨hnum, hnull⟩
    exact ⟨eq?_self_iff.mpr hnum, eq?_comm_iff.mpr hnull, eq?_trans, same_of_eq? ha.wellFormed hb.wellFormed hnull⟩

/-- The attribute of a new program. -/
theorem equality_iff_default :
    let entry : ℕ → PostOpsEntry := fun _ => ⟨.undefined, .undef, .zero, .zero, .zero, .zero⟩
    Equality (default entry) (default entry) (default entry) ↔
      (default entry).IsNumber ∧ (default entry).SameNull (default entry) :=
  equality_iff ⟨_, [], 0, rfl⟩ ⟨_, [], 0, rfl⟩

/-- One gate in test mode, without scales on the left and with a scale on the right. -/
theorem equality_asymmetric :
    ¬ ∀ a b c, AttrState.Reachable a → AttrState.Reachable b → AttrState.Reachable c → Equality a b c := by
  intro h
  obtain ⟨r, hab, hba⟩ := (h _ _ _
    ⟨fun _ => ⟨.undefined, .undef, .zero, .zero, .zero, .zero⟩, [.setRnnTparams (some 0) true 1 none .zero true], 0, rfl⟩
    ⟨fun _ => ⟨.undefined, .undef, .zero, .zero, .zero, .zero⟩,
      [.setRnnTparams (some 0) true 1 (some fun _ => .one) .zero true], 0, rfl⟩
    ⟨fun _ => ⟨.undefined, .undef, .zero, .zero, .zero, .zero⟩, [], 0, rfl⟩).symm
  have hnull : SameNull _ _ := eq?_comm_iff.mp ⟨r, hab, hba⟩
  exact absurd ((hnull (by decide) (by decide) (by decide)).mp rfl) (by decide)

end PrimitiveAttr

end MklDnn.PrimitiveHashing
