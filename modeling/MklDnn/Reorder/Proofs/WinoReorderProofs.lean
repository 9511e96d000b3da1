import Mathlib.Tactic.Ring
import MklDnn.Common.Proofs.ParallelLoopsProofs
import MklDnn.Lib.Sums
import MklDnn.Reorder.WinoReorder

/-!
# Proofs: the reorder of weights to the Winograd domain

Every layout is a number in mixed radix, the digits of which are the coordinates of the transformed weight. The copies are
independent, whatever order the threads execute them in, and the bias is summed up by one thread for each output channel.
-/

open Interleaving MixedRadix

namespace MklDnn.WinoReorder

open PrimitiveHashing

/-- A transformed weight. -/
structure Position where
  uH : ℕ
  uW : ℕ
  ic : ℕ
  oc : ℕ

variable {c : Conf} {input : ℕ → ℚ} {m m' : Cell → ℚ}

namespace Conf

variable (c : Conf) (p : Position)

def Inside : Prop := p.uH < c.wAlpha ∧ p.uW < c.wAlpha ∧ p.ic < c.ic ∧ p.oc < c.oc

/-! ## The layouts -/

/-- The place in the plain buffer. -/
def tmpOff : ℕ := value [p.uH, p.uW, p.ic, p.oc] [c.wAlpha, c.wAlpha, c.ic, c.oc]

/-- The extents of a layout, from the outermost one to the innermost one. -/
def radices : List ℕ :=
  match c.winoFormat with
  | .weiAaOIoi => [c.wAlpha, c.wAlpha, c.nbOc, c.nbIc, c.ocBlock, c.icBlock]
  | .weiAaOio => [c.wAlpha, c.wAlpha, c.nbOc, c.nbIc, c.icBlock, c.ocBlock]
  | .weiAaOBiOo => [c.wAlpha, c.wAlpha, c.ocChunks, c.nbIc, c.icBlock, c.oc2Block, c.ocBlock]
  | .weiOBaaIBOIio => [c.ocChunks, c.wAlpha, c.wAlpha, c.icChunks, c.oc2Block, c.ic2Block, c.icBlock, c.ocBlock]
  | .undef => []

/-- The coordinates of a transformed weight in a layout. -/
def coords : List ℕ :=
  let ob := p.oc / c.ocBlock
  let o := p.oc % c.ocBlock
  let ib := p.ic / c.icBlock
  let i := p.ic % c.icBlock
  match c.winoFormat with
  | .weiAaOIoi => [p.uH, p.uW, ob, ib, o, i]
  | .weiAaOio => [p.uH, p.uW, ob, ib, i, o]
  | .weiAaOBiOo => [p.uH, p.uW, ob / c.oc2Block, ib, i, ob % c.oc2Block, o]
  | .weiOBaaIBOIio => [ob / c.oc2Block, p.uH, p.uW, ib / c.ic2Block, ob % c.oc2Block, ib % c.ic2Block, i, o]
  | .undef => []

/-- The place in the destination. -/
def place : ℕ := value (c.coords p) c.radices

variable {c p}

theorem injOn_tmpOff : Set.InjOn c.tmpOff {p | c.Inside p} := by
  rintro ⟨uH, uW, ic, oc⟩ ⟨huH, huW, hic, hoc⟩ ⟨uH', uW', ic', oc'⟩ ⟨huH', huW', hic', hoc'⟩ heq
  have hmem : ∀ {a b d e : ℕ}, a < c.wAlpha → b < c.wAlpha → d < c.ic → e < c.oc →
      [a, b, d, e] ∈ digits [c.wAlpha, c.wAlpha, c.ic, c.oc] :=
    fun ha hb hd he => .cons ha (.cons hb (.cons hd (.cons he .nil)))
  have hlist := injOn_value _ (hmem huH huW hic hoc) (hmem huH' huW' hic' hoc') heq
  simp only [List.cons.injEq, and_true] at hlist
  obtain ⟨rfl, rfl, rfl, rfl⟩ := hlist
  rfl

theorem nbOc_mul (h : c.Asserted) : c.nbOc * c.ocBlock = c.oc := Nat.div_mul_cancel (Nat.dvd_of_mod_eq_zero h.oc)

theorem nbIc_mul (h : c.Asserted) : c.nbIc * c.icBlock = c.ic := Nat.div_mul_cancel (Nat.dvd_of_mod_eq_zero h.ic)

theorem ocChunks_mul (h : c.Asserted) : c.ocChunks * c.oc2Block = c.nbOc :=
  Nat.div_mul_cancel (Nat.dvd_of_mod_eq_zero h.oc2)

theorem icChunks_mul (h : c.Asserted) : c.icChunks * c.ic2Block = c.nbIc :=
  Nat.div_mul_cancel (Nat.dvd_of_mod_eq_zero h.ic2)

theorem prod_radices (h : c.Asserted) (hformat : c.winoFormat ≠ .undef) :
    c.radices.prod = c.wAlpha * c.wAlpha * c.oc * c.ic := by
  have hoc := nbOc_mul h
  have hic := nbIc_mul h
  have hoc2 := ocChunks_mul h
  have hic2 := icChunks_mul h
  unfold radices
  cases hf : c.winoFormat with
  | undef => exact absurd hf hformat
  | weiAaOIoi =>
    rw [← hoc, ← hic]
    simp only [List.prod_cons, List.prod_nil]
    ring
  | weiAaOio =>
    rw [← hoc, ← hic]
    simp only [List.prod_cons, List.prod_nil]
    ring
  | weiAaOBiOo =>
    rw [← hoc, ← hic, ← hoc2]
    simp only [List.prod_cons, List.prod_nil]
    ring
  | weiOBaaIBOIio =>
    rw [← hoc, ← hic, ← hoc2, ← hic2]
    simp only [List.prod_cons, List.prod_nil]
    ring

theorem coords_mem (h : c.Asserted) (hp : c.Inside p) : c.coords p ∈ digits c.radices := by
  obtain ⟨huH, huW, hic, hoc⟩ := hp
  have hob : p.oc / c.ocBlock < c.nbOc := div_lt_of_dvd (Nat.dvd_of_mod_eq_zero h.oc) hoc
  have ho : p.oc % c.ocBlock < c.ocBlock := mod_lt_of_dvd (Nat.dvd_of_mod_eq_zero h.oc) hoc
  have hib : p.ic / c.icBlock < c.nbIc := div_lt_of_dvd (Nat.dvd_of_mod_eq_zero h.ic) hic
  have hi : p.ic % c.icBlock < c.icBlock := mod_lt_of_dvd (Nat.dvd_of_mod_eq_zero h.ic) hic
  have hocc : p.oc / c.ocBlock / c.oc2Block < c.ocChunks := div_lt_of_dvd (Nat.dvd_of_mod_eq_zero h.oc2) hob
  have hob2 : p.oc / c.ocBlock % c.oc2Block < c.oc2Block := mod_lt_of_dvd (Nat.dvd_of_mod_eq_zero h.oc2) hob
  have hicc : p.ic / c.icBlock / c.ic2Block < c.icChunks := div_lt_of_dvd (Nat.dvd_of_mod_eq_zero h.ic2) hib
  have hib2 : p.ic / c.icBlock % c.ic2Block < c.ic2Block := mod_lt_of_dvd (Nat.dvd_of_mod_eq_zero h.ic2) hib
  unfold coords radices
  cases c.winoFormat with
  | undef => exact .nil
  | weiAaOIoi => exact .cons huH (.cons huW (.cons hob (.cons hib (.cons ho (.cons hi .nil)))))
  | weiAaOio => exact .cons huH (.cons huW (.cons hob (.cons hib (.cons hi (.cons ho .nil)))))
  | weiAaOBiOo => exact .cons huH (.cons huW (.cons hocc (.cons hib (.cons hi (.cons hob2 (.cons ho .nil))))))
  | weiOBaaIBOIio =>
    exact .cons hocc (.cons huH (.cons huW (.cons hicc (.cons hob2 (.cons hib2 (.cons hi (.cons ho .nil)))))))

theorem coords_inj (hformat : c.winoFormat ≠ .undef) {p q : Position} (heq : c.coords p = c.coords q) : p = q := by
  have hdigits : ∀ {x y b : ℕ}, x / b = y / b → x % b = y % b → x = y := by
    intro x y b hdiv hmod
    rw [← Nat.div_add_mod' x b, ← Nat.div_add_mod' y b, hdiv, hmod]
  obtain ⟨uH, uW, ic, oc⟩ := p
  obtain ⟨uH', uW', ic', oc'⟩ := q
  unfold coords at heq
  cases hf : c.winoFormat with
  | undef => exact absurd hf hformat
  | weiAaOIoi =>
    simp only [hf, List.cons.injEq, and_true] at heq
    obtain ⟨rfl, rfl, hob, hib, ho, hi⟩ := heq
    rw [hdigits hob ho, hdigits hib hi]
  | weiAaOio =>
    simp only [hf, List.cons.injEq, and_true] at heq
    obtain ⟨rfl, rfl, hob, hib, hi, ho⟩ := heq
    rw [hdigits hob ho, hdigits hib hi]
  | weiAaOBiOo =>
    simp only [hf, List.cons.injEq, and_true] at heq
    obtain ⟨rfl, rfl, hocc, hib, hi, hob2, ho⟩ := heq
    rw [hdigits (hdigits hocc hob2) ho, hdigits hib hi]
  | weiOBaaIBOIio =>
    simp only [hf, List.cons.injEq, and_true] at heq
    obtain ⟨hocc, rfl, rfl, hicc, hob2, hib2, hi, ho⟩ := heq
    rw [hdigits (hdigits hocc hob2) ho, hdigits (hdigits hicc hib2) hi]

theorem place_inj (h : c.Asserted) (hformat : c.winoFormat ≠ .undef) : Set.InjOn c.place {p | c.Inside p} := by
  intro p hp q hq heq
  exact coords_inj hformat (injOn_value _ (coords_mem h hp) (coords_mem h hq) heq)

/-- The places are those of the whole buffer: no two of them are equal, and there are as many as elements. -/
theorem bijOn_place (h : c.Asserted) (hformat : c.winoFormat ≠ .undef) :
    Set.BijOn c.place {p | c.Inside p} {n | n < c.wAlpha * c.wAlpha * c.oc * c.ic} := by
  have hmaps : Set.MapsTo c.place {p | c.Inside p} {n | n < c.wAlpha * c.wAlpha * c.oc * c.ic} := by
    intro p hp
    have hlt := value_lt (coords_mem h hp)
    rwa [prod_radices h hformat] at hlt
  refine ⟨hmaps, place_inj h hformat, ?_⟩
  intro n hn
  let box := Finset.range c.wAlpha ×ˢ Finset.range c.wAlpha ×ˢ Finset.range c.ic ×ˢ Finset.range c.oc
  let pos : ℕ × ℕ × ℕ × ℕ → Position := fun t => ⟨t.1, t.2.1, t.2.2.1, t.2.2.2⟩
  have hbox : ∀ t ∈ box, c.Inside (pos t) := by
    intro t ht
    simpa [box, Conf.Inside, pos] using ht
  have hsurj : Set.SurjOn (c.place ∘ pos) box (Finset.range (c.wAlpha * c.wAlpha * c.oc * c.ic)) := by
    apply Finset.surjOn_of_injOn_of_card_le
    · intro t ht
      exact Finset.mem_coe.mpr (Finset.mem_range.mpr (hmaps (hbox t ht)))
    · intro t ht t' ht' heq
      have hpos := place_inj h hformat (hbox t ht) (hbox t' ht') heq
      injection hpos with h1 h2 h3 h4
      exact Prod.ext h1 (Prod.ext h2 (Prod.ext h3 h4))
    · simp only [box, Finset.card_range, Finset.card_product]
      exact le_of_eq (by ring)
  obtain ⟨t, ht, hplace⟩ := hsurj (Finset.mem_coe.mpr (Finset.mem_range.mpr hn))
  exact ⟨pos t, hbox t ht, hplace⟩

end Conf

/-! ## The transformation -/

/-- The weight of the tensor that is reordered; padded channels are zero. -/
def weight (c : Conf) (input : ℕ → ℚ) (ic oc kh kw : ℕ) : ℚ :=
  if ic < c.orIc ∧ oc < c.orOc then
    input (if c.hasOihwFormat then ((oc * c.orIc + ic) * c.kh + kh) * c.kw + kw
      else ((kh * c.kw + kw) * c.orIc + ic) * c.orOc + oc)
  else 0

/-- A row of a kernel, transformed. -/
def transformedRow (c : Conf) (input : ℕ → ℚ) (ic oc ih j : ℕ) : ℚ :=
  ∑ iw ∈ Finset.range c.r, weight c input ic oc ih iw * c.g (j * c.r + iw)

/-- What is stored of a transformed weight. -/
def stored (c : Conf) (input : ℕ → ℚ) (p : Position) : ℚ :=
  store c p.oc (∑ k ∈ Finset.range c.r, c.g (p.uH * c.r + k) * transformedRow c input p.ic p.oc k p.uW)

theorem inpV_eq (iic ob ih iw ioc : ℕ) :
    inpV c input iic ob ih iw ioc = weight c input iic (ob * c.ocBlock + ioc) ih iw := by
  unfold inpV weight
  dsimp only
  by_cases hin : iic < c.orIc ∧ ob * c.ocBlock + ioc < c.orOc
  · rw [if_pos hin, if_pos hin]
    split_ifs
    · congr 1
      ring
    · congr 1
      ring
  · rw [if_neg hin, if_neg hin]

theorem store_zero (oc : ℕ) : store c oc 0 = 0 := by
  unfold store qzB0
  have hround : roundAndSaturate 0 = 0 := by simp [roundAndSaturate, Rounding.nearestEven]
  simp only [mul_zero, hround, ite_self]

/-- Padded channels are zero. -/
theorem stored_of_padded {p : Position} (hp : ¬ (p.ic < c.orIc ∧ p.oc < c.orOc)) : stored c input p = 0 := by
  have hrow : ∀ k, transformedRow c input p.ic p.oc k p.uW = 0 := by
    intro k
    apply Finset.sum_eq_zero
    intro iw _
    rw [weight, if_neg hp, zero_mul]
  unfold stored
  rw [Finset.sum_eq_zero, store_zero]
  intro k _
  rw [hrow, mul_zero]

/-- The address of an element of `wspace`. -/
def wspaceOff (c : Conf) (idx : List ℕ) : ℕ := value idx [c.r, c.wAlpha, c.ocBlock]

theorem step_zeroWspace (h : (zeroWspace c).Step m m') {i : ℕ} (hi : i < c.r * c.wAlpha * c.ocBlock) :
    m' (.wspace i) = 0 := by
  have hind : Independent (digits (zeroWspace c).dims) (fun idx => {a | a = Cell.wspace (idx.getD 0 0)})
      (zeroWspace c).body := by
    apply Independent.of_disjoint
    · rintro _ (_ | ⟨_, ⟨⟩⟩) _ (_ | ⟨_, ⟨⟩⟩) hne a rfl heq
      injection heq with heq
      exact hne (congrArg (fun i => [i]) heq)
    · rintro _ (_ | ⟨_, ⟨⟩⟩) e he
      obtain rfl := List.mem_singleton.mp he
      rfl
    · rintro _ (_ | ⟨_, ⟨⟩⟩) e he m m' hm
      obtain rfl := List.mem_singleton.mp he
      rfl
  have hidx : [i] ∈ digits (zeroWspace c).dims := .cons hi .nil
  exact (h.of_independent hind hidx (a := .wspace i) rfl).trans (Assign.exec_self m (Assign.set (Cell.wspace i) 0))

theorem wspaceOff_eq (ih j ioc : ℕ) : wspaceOff c [ih, j, ioc] = (ih * c.wAlpha + j) * c.ocBlock + ioc := by
  simp only [wspaceOff, value_cons, value_nil, List.prod_cons, List.prod_nil]
  ring

theorem wspaceOff_inj {idx idx' : List ℕ} (h : idx ∈ digits [c.r, c.wAlpha, c.ocBlock])
    (h' : idx' ∈ digits [c.r, c.wAlpha, c.ocBlock]) (heq : Cell.wspace (wspaceOff c idx) = .wspace (wspaceOff c idx')) :
    idx = idx' := by
  injection heq with heq
  exact injOn_value _ h h' heq

/-- Additions to cells that belong to the iteration. -/
theorem independent_add {I : Set (List ℕ)} {own : List ℕ → Set Cell} {body : List ℕ → List (Assign Cell ℚ)}
    (hdisj : ∀ i ∈ I, ∀ j ∈ I, i ≠ j → ∀ a ∈ own i, a ∉ own j)
    (hbody : ∀ i ∈ I, ∀ e ∈ body i, ∃ a ∈ own i, ∃ v, e = Assign.add a v) : Independent I own body := by
  apply Independent.of_disjoint hdisj
  · intro i hi e he
    obtain ⟨a, ha, v, rfl⟩ := hbody i hi e he
    exact ha
  · intro i hi e he m m' hm
    obtain ⟨a, ha, v, rfl⟩ := hbody i hi e he
    exact congrArg (· + v) (hm a (Or.inl ha))

/-- An iteration for `oihw` has an element of `wspace`. -/
theorem step_rows_oihw {iic ob : ℕ} (h : (transformRowsOihw c input iic ob).Step m m') {ih j ioc : ℕ} (hih : ih < c.r)
    (hj : j < c.wAlpha) (hioc : ioc < c.ocBlock) :
    m' (.wspace (wspaceOff c [ih, j, ioc])) =
      m (.wspace (wspaceOff c [ih, j, ioc])) + transformedRow c input iic (ob * c.ocBlock + ioc) ih j := by
  have hidx : [ih, j, ioc] ∈ digits [c.r, c.wAlpha, c.ocBlock] := .cons hih (.cons hj (.cons hioc .nil))
  have hind : Independent (digits [c.r, c.wAlpha, c.ocBlock]) (fun idx => {a | a = Cell.wspace (wspaceOff c idx)})
      (transformRowsOihw c input iic ob).body := by
    apply independent_add
    · rintro idx hidx idx' hidx' hne a rfl heq
      exact hne (wspaceOff_inj hidx hidx' heq)
    · rintro _ (_ | ⟨_, _ | ⟨_, _ | ⟨_, ⟨⟩⟩⟩⟩) e he
      obtain ⟨iw, _, rfl⟩ := List.mem_map.mp he
      exact ⟨_, congrArg Cell.wspace (wspaceOff_eq ..).symm, _, rfl⟩
  have hbody : (transformRowsOihw c input iic ob).body [ih, j, ioc] =
      ((List.range c.r).map fun iw => (Cell.wspace (wspaceOff c [ih, j, ioc]),
        weight c input iic (ob * c.ocBlock + ioc) ih iw * c.g (j * c.r + iw))).map fun w => Assign.add w.1 w.2 := by
    rw [List.map_map]
    apply List.map_congr_left
    intro iw _
    simp only [Function.comp_apply, inpV_eq, wspaceOff_eq]
  rw [h.of_independent hind hidx rfl, hbody, execAll_add, LoopNest.sum_map_range]
  simp only [if_true]
  rfl

/-- An iteration for `hwio` has a row of elements of `wspace`. -/
theorem step_rows_hwio (hc : c.Asserted) {iic ob : ℕ} (h : (transformRowsHwio c input iic ob).Step m m') {ih j ioc : ℕ}
    (hih : ih < c.r) (hj : j < c.wAlpha) (hioc : ioc < c.ocBlock) :
    m' (.wspace (wspaceOff c [ih, j, ioc])) =
      m (.wspace (wspaceOff c [ih, j, ioc])) + transformedRow c input iic (ob * c.ocBlock + ioc) ih j := by
  have hidx : [ih, j] ∈ digits [c.r, c.wAlpha] := .cons hih (.cons hj .nil)
  have hmem : ∀ idx ∈ digits [c.r, c.wAlpha], ∀ ioc < c.ocBlock, idx ++ [ioc] ∈ digits [c.r, c.wAlpha, c.ocBlock] := by
    rintro _ (_ | ⟨hih, _ | ⟨hj, ⟨⟩⟩⟩) ioc hioc
    exact .cons hih (.cons hj (.cons hioc .nil))
  have hind : Independent (digits [c.r, c.wAlpha])
      (fun idx => {a | ∃ ioc < c.ocBlock, a = Cell.wspace (wspaceOff c (idx ++ [ioc]))})
      (transformRowsHwio c input iic ob).body := by
    apply independent_add
    · rintro idx hidx idx' hidx' hne a ⟨ioc, hioc, rfl⟩ ⟨ioc', hioc', heq⟩
      have hlist := wspaceOff_inj (hmem idx hidx ioc hioc) (hmem idx' hidx' ioc' hioc') heq
      exact hne (List.append_inj_left' hlist rfl)
    · rintro _ (_ | ⟨_, _ | ⟨_, ⟨⟩⟩⟩) e he
      obtain ⟨iw, _, he⟩ := List.mem_flatMap.mp he
      obtain ⟨ioc, hioc, rfl⟩ := List.mem_map.mp he
      exact ⟨_, ⟨ioc, List.mem_range.mp hioc, congrArg Cell.wspace (wspaceOff_eq ..).symm⟩, _, rfl⟩
  have hbody : (transformRowsHwio c input iic ob).body [ih, j] =
      ((List.range c.r).flatMap fun iw => (List.range c.ocBlock).map fun ioc => (Cell.wspace (wspaceOff c [ih, j, ioc]),
        weight c input iic (ob * c.ocBlock + ioc) ih iw * c.g (j * c.r + iw))).map fun w => Assign.add w.1 w.2 := by
    rw [List.map_flatMap, hc.kw]
    apply List.flatMap_congr
    intro iw _
    rw [List.map_map]
    apply List.map_congr_left
    intro ioc _
    simp only [Function.comp_apply, inpV_eq, wspaceOff_eq, hc.kw]
  have hown : ∀ ioc', Cell.wspace (wspaceOff c [ih, j, ioc']) = .wspace (wspaceOff c [ih, j, ioc]) ↔ ioc' = ioc := by
    intro ioc'
    rw [wspaceOff_eq, wspaceOff_eq, Cell.wspace.injEq]
    omega
  have hstep := h.of_independent hind hidx (a := .wspace (wspaceOff c [ih, j, ioc])) ⟨ioc, hioc, rfl⟩
  rw [hstep, hbody, execAll_add, LoopNest.sum_map_flatMap]
  congr 1
  apply Finset.sum_congr rfl
  intro iw _
  rw [LoopNest.sum_map_range]
  simp only [hown]
  rw [Finset.sum_ite_eq', if_pos (Finset.mem_range.mpr hioc)]

/-- The transformed weight that an iteration of the loop over the columns stores. -/
def columnPos (c : Conf) (iic ob : ℕ) (idx : List ℕ) : Position :=
  ⟨idx.getD 0 0, idx.getD 1 0, iic, ob * c.ocBlock + idx.getD 2 0⟩

theorem tmpOff_columnPos (hc : c.Asserted) (iic ob i j ioc : ℕ) :
    c.tmpOff (columnPos c iic ob [i, j, ioc]) =
      (iic * c.nbOc + ob) * c.ocBlock + ((i * c.wAlpha + j) * (c.oc * c.ic) + ioc) := by
  have hoc := Conf.nbOc_mul hc
  simp only [Conf.tmpOff, columnPos, value_cons, value_nil, List.prod_cons, List.prod_nil, List.getD_cons_zero,
    List.getD_cons_succ]
  rw [← hoc]
  ring

theorem inside_columnPos (hc : c.Asserted) {iic ob : ℕ} (hiic : iic < c.ic) (hob : ob < c.nbOc) {idx : List ℕ}
    (hidx : idx ∈ digits [c.wAlpha, c.wAlpha, c.ocBlock]) : c.Inside (columnPos c iic ob idx) := by
  rcases hidx with _ | ⟨hi, _ | ⟨hj, _ | ⟨hioc, ⟨⟩⟩⟩⟩
  exact ⟨hi, hj, hiic, mul_add_lt (Nat.dvd_of_mod_eq_zero hc.oc) hob hioc⟩

theorem columnPos_inj {iic ob : ℕ} {idx idx' : List ℕ} (hidx : idx ∈ digits [c.wAlpha, c.wAlpha, c.ocBlock])
    (hidx' : idx' ∈ digits [c.wAlpha, c.wAlpha, c.ocBlock]) (heq : columnPos c iic ob idx = columnPos c iic ob idx') :
    idx = idx' := by
  rcases hidx with _ | ⟨hi, _ | ⟨hj, _ | ⟨hioc, ⟨⟩⟩⟩⟩
  rcases hidx' with _ | ⟨hi', _ | ⟨hj', _ | ⟨hioc', ⟨⟩⟩⟩⟩
  simp only [columnPos, Position.mk.injEq, List.getD_cons_zero, List.getD_cons_succ, Nat.add_left_cancel_iff,
    true_and] at heq
  obtain ⟨rfl, rfl, rfl⟩ := heq
  rfl

/-- The loop over the columns. -/
theorem step_columns (hc : c.Asserted) {iic ob : ℕ} (hiic : iic < c.ic) (hob : ob < c.nbOc)
    (h : (transformColumns c iic ob).Step m m') {idx : List ℕ} (hidx : idx ∈ digits [c.wAlpha, c.wAlpha, c.ocBlock]) :
    m' (.tmpWei (c.tmpOff (columnPos c iic ob idx))) = store c (columnPos c iic ob idx).oc
      (∑ k ∈ Finset.range c.r, c.g (idx.getD 0 0 * c.r + k) * m (.wspace (wspaceOff c [k, idx.getD 1 0, idx.getD 2 0]))) := by
  have hind : Independent (digits [c.wAlpha, c.wAlpha, c.ocBlock])
      (fun idx => {a | a = Cell.tmpWei (c.tmpOff (columnPos c iic ob idx))}) (transformColumns c iic ob).body := by
    apply Independent.of_disjoint
    · rintro idx hidx idx' hidx' hne a rfl heq
      injection heq with heq
      exact hne (columnPos_inj hidx hidx'
        (Conf.injOn_tmpOff (inside_columnPos hc hiic hob hidx) (inside_columnPos hc hiic hob hidx') heq))
    · rintro _ (_ | ⟨_, _ | ⟨_, _ | ⟨_, ⟨⟩⟩⟩⟩) e he
      obtain rfl := List.mem_singleton.mp he
      exact congrArg Cell.tmpWei (tmpOff_columnPos hc ..).symm
    · rintro _ (_ | ⟨_, _ | ⟨_, _ | ⟨_, ⟨⟩⟩⟩⟩) e he m m' hm
      obtain rfl := List.mem_singleton.mp he
      have hwspace : ∀ n, m (.wspace n) = m' (.wspace n) := by
        intro n
        apply hm
        right
        rintro idx _ ⟨⟩
      simp only [hwspace]
  rw [h.of_independent hind hidx rfl]
  rcases hidx with _ | ⟨hi, _ | ⟨hj, _ | ⟨hioc, ⟨⟩⟩⟩⟩
  rw [tmpOff_columnPos hc]
  simp only [wspaceOff_eq]
  exact Function.update_self ..

/-- The loop over the columns leaves the transformed weights of other blocks. -/
theorem step_columns_of_ne (hc : c.Asserted) {iic ob : ℕ} (hiic : iic < c.ic) (hob : ob < c.nbOc)
    (h : (transformColumns c iic ob).Step m m') {p : Position} (hp : c.Inside p)
    (hne : (p.ic, p.oc / c.ocBlock) ≠ (iic, ob)) : m' (.tmpWei (c.tmpOff p)) = m (.tmpWei (c.tmpOff p)) := by
  apply h.of_ne
  intro idx hidx e he heq
  have hin := inside_columnPos hc hiic hob hidx
  rcases hidx with _ | ⟨hi, _ | ⟨hj, _ | ⟨hioc, ⟨⟩⟩⟩⟩
  obtain rfl := List.mem_singleton.mp he
  rw [← tmpOff_columnPos hc] at heq
  injection heq with heq
  obtain rfl := Conf.injOn_tmpOff hin hp heq
  exact hne (Prod.ext rfl (mul_add_div hioc))

/-- The loops over the rows assign to `wspace` only. -/
theorem rows_dst {iic ob : ℕ} {idx : List ℕ} {e : Assign Cell ℚ}
    (hidx : idx ∈ digits (if c.hasOihwFormat then transformRowsOihw c input iic ob
      else transformRowsHwio c input iic ob).dims)
    (he : e ∈ (if c.hasOihwFormat then transformRowsOihw c input iic ob else transformRowsHwio c input iic ob).body idx) :
    ∃ n, e.dst = .wspace n := by
  split_ifs at hidx he with hformat
  · rcases hidx with _ | ⟨_, _ | ⟨_, _ | ⟨_, ⟨⟩⟩⟩⟩
    obtain ⟨iw, _, rfl⟩ := List.mem_map.mp he
    exact ⟨_, rfl⟩
  · rcases hidx with _ | ⟨_, _ | ⟨_, ⟨⟩⟩⟩
    obtain ⟨iw, _, he⟩ := List.mem_flatMap.mp he
    obtain ⟨ioc, _, rfl⟩ := List.mem_map.mp he
    exact ⟨_, rfl⟩

/-- A block of the transformation stores its transformed weights, and leaves the others. -/
theorem runs_transformBlock (hc : c.Asserted) {iic ob : ℕ} (hiic : iic < c.ic) (hob : ob < c.nbOc)
    (h : Runs (transformBlock c input iic ob) m m') {p : Position} (hp : c.Inside p) :
    m' (.tmpWei (c.tmpOff p)) =
      if (p.ic, p.oc / c.ocBlock) = (iic, ob) then stored c input p else m (.tmpWei (c.tmpOff p)) := by
  obtain ⟨m₁, hzero, m₂, hrows, m₃, hcolumns, rfl⟩ := h
  split_ifs with hpos
  · obtain ⟨rfl, rfl⟩ := Prod.mk.inj hpos
    obtain ⟨huH, huW, hic, hoc⟩ := hp
    have hioc : p.oc % c.ocBlock < c.ocBlock := mod_lt_of_dvd (Nat.dvd_of_mod_eq_zero hc.oc) hoc
    have hidx : [p.uH, p.uW, p.oc % c.ocBlock] ∈ digits [c.wAlpha, c.wAlpha, c.ocBlock] :=
      .cons huH (.cons huW (.cons hioc .nil))
    have hp : columnPos c p.ic (p.oc / c.ocBlock) [p.uH, p.uW, p.oc % c.ocBlock] = p := by
      simp only [columnPos, List.getD_cons_zero, List.getD_cons_succ, Nat.div_add_mod']
    have hstep := step_columns hc hiic hob hcolumns hidx
    rw [hp] at hstep
    rw [hstep, stored]
    congr 1
    apply Finset.sum_congr rfl
    intro k hk
    simp only [List.getD_cons_zero, List.getD_cons_succ]
    rw [Finset.mem_range] at hk
    have hlt : wspaceOff c [k, p.uW, p.oc % c.ocBlock] < c.r * c.wAlpha * c.ocBlock := by
      have hk' : [k, p.uW, p.oc % c.ocBlock] ∈ digits [c.r, c.wAlpha, c.ocBlock] := .cons hk (.cons huW (.cons hioc .nil))
      simpa [wspaceOff, Nat.mul_assoc] using value_lt hk'
    have hrow : m₂ (.wspace (wspaceOff c [k, p.uW, p.oc % c.ocBlock])) =
        m₁ (.wspace (wspaceOff c [k, p.uW, p.oc % c.ocBlock])) +
          transformedRow c input p.ic (p.oc / c.ocBlock * c.ocBlock + p.oc % c.ocBlock) k p.uW := by
      split_ifs at hrows
      · exact step_rows_oihw hrows hk huW hioc
      · exact step_rows_hwio hc hrows hk huW hioc
    rw [hrow, step_zeroWspace hzero hlt, zero_add, Nat.div_add_mod']
  · rw [step_columns_of_ne hc hiic hob hcolumns hp hpos]
    have hrows' : m₂ (.tmpWei (c.tmpOff p)) = m₁ (.tmpWei (c.tmpOff p)) := by
      apply hrows.of_ne
      intro idx hidx e he heq
      obtain ⟨n, hn⟩ := rows_dst hidx he
      rw [hn] at heq
      cases heq
    rw [hrows']
    apply hzero.of_ne
    rintro _ (_ | ⟨_, ⟨⟩⟩) e he heq
    obtain rfl := List.mem_singleton.mp he
    cases heq

/-- The blocks in `done` are transformed. -/
def Transformed (c : Conf) (input : ℕ → ℚ) (done : List (ℕ × ℕ)) (m : Cell → ℚ) : Prop :=
  ∀ p, c.Inside p → (p.ic, p.oc / c.ocBlock) ∈ done → m (.tmpWei (c.tmpOff p)) = stored c input p

/-- The transformation fills the plain buffer. -/
theorem runs_transform (hc : c.Asserted) (hformat : c.winoFormat ≠ .undef) (h : Runs (transform c input) m m')
    {p : Position} (hp : c.Inside p) : m' (.tmpWei (c.tmpOff p)) = stored c input p := by
  unfold transform at h
  rw [if_neg hformat] at h
  have hinv : Transformed c input (List.range c.ic ×ˢ List.range c.nbOc) m' := by
    apply h.invariant₂ (Transformed c input)
    · intro p _ hmem
      cases hmem
    · intro done iic ob rest hsplit m m' hdone hrun p hp hmem
      have hin : (iic, ob) ∈ List.range c.ic ×ˢ List.range c.nbOc := by
        rw [hsplit]
        exact List.mem_append_right done List.mem_cons_self
      rw [List.mem_product, List.mem_range, List.mem_range] at hin
      rw [runs_transformBlock hc hin.1 hin.2 hrun hp]
      split_ifs with hpos
      · rfl
      · apply hdone p hp
        exact (List.mem_append.mp hmem).resolve_right fun hlast => hpos (List.mem_singleton.mp hlast)
  obtain ⟨huH, huW, hic, hoc⟩ := hp
  apply hinv p ⟨huH, huW, hic, hoc⟩
  rw [List.mem_product, List.mem_range, List.mem_range]
  exact ⟨hic, div_lt_of_dvd (Nat.dvd_of_mod_eq_zero hc.oc) hoc⟩

/-! ## The copies -/

/-- The iterations of a loop copy the weights `B`, each of them in the iteration `iter`, and change biases of their own. -/
structure CopyLoop (c : Conf) (ph : Phase Cell ℚ) (B : Set Position) (iter : Position → List ℕ) (biases : List ℕ → Set ℕ) :
    Prop where
  inj : Set.InjOn c.place B
  sound : ∀ idx ∈ digits ph.dims, ∀ e ∈ ph.body idx,
    (∃ p ∈ B, iter p = idx ∧ e = copy (c.place p) (c.tmpOff p)) ∨
      ∃ b ∈ biases idx, e.dst = .dstBias b ∧ ∀ m m' : Cell → ℚ, m (.dstBias b) = m' (.dstBias b) →
        (∀ p ∈ B, iter p = idx → m (.output (c.place p)) = m' (.output (c.place p))) → e.value m = e.value m'
  complete : ∀ p ∈ B, iter p ∈ digits ph.dims ∧ copy (c.place p) (c.tmpOff p) ∈ ph.body (iter p)
  bias_unique : ∀ idx ∈ digits ph.dims, ∀ idx' ∈ digits ph.dims, idx ≠ idx' → ∀ b ∈ biases idx, b ∉ biases idx'

namespace CopyLoop

variable {ph : Phase Cell ℚ} {B : Set Position} {iter : Position → List ℕ} {biases : List ℕ → Set ℕ}

/-- What an iteration assigns to. -/
def own (c : Conf) (B : Set Position) (iter : Position → List ℕ) (biases : List ℕ → Set ℕ) (idx : List ℕ) : Set Cell :=
  {a | (∃ p ∈ B, iter p = idx ∧ a = .output (c.place p)) ∨ ∃ b ∈ biases idx, a = .dstBias b}

theorem independent (h : CopyLoop c ph B iter biases) :
    Independent (digits ph.dims) (own c B iter biases) ph.body := by
  apply Independent.of_disjoint
  · rintro idx hidx idx' hidx' hne a (⟨p, hp, hiter, rfl⟩ | ⟨b, hb, rfl⟩)
    · rintro (⟨q, hq, hiter', heq⟩ | ⟨b, hb, heq⟩)
      · injection heq with heq
        obtain rfl := h.inj hp hq heq
        exact hne (hiter.symm.trans hiter')
      · cases heq
    · rintro (⟨q, hq, hiter', heq⟩ | ⟨b', hb', heq⟩)
      · cases heq
      · injection heq with heq
        subst heq
        exact h.bias_unique idx hidx idx' hidx' hne b hb hb'
  · intro idx hidx e he
    rcases h.sound idx hidx e he with ⟨p, hp, hiter, rfl⟩ | ⟨b, hb, hdst, _⟩
    · exact Or.inl ⟨p, hp, hiter, rfl⟩
    · exact Or.inr ⟨b, hb, hdst⟩
  · intro idx hidx e he m m' hm
    rcases h.sound idx hidx e he with ⟨p, hp, hiter, rfl⟩ | ⟨b, hb, hdst, hvalue⟩
    · apply hm
      right
      rintro idx' _ (⟨q, _, _, heq⟩ | ⟨b, _, heq⟩)
      · cases heq
      · cases heq
    · apply hvalue
      · exact hm _ (Or.inl (Or.inr ⟨b, hb, rfl⟩))
      · intro p hp hiter
        exact hm _ (Or.inl (Or.inl ⟨p, hp, hiter, rfl⟩))

/-- A weight is copied to its place. -/
theorem output_eq (h : CopyLoop c ph B iter biases) (hstep : ph.Step m m') {p : Position} (hp : p ∈ B) :
    m' (.output (c.place p)) = m (.tmpWei (c.tmpOff p)) := by
  obtain ⟨hidx, hmem⟩ := h.complete p hp
  rw [hstep.of_independent h.independent hidx (Or.inl ⟨p, hp, rfl, rfl⟩)]
  apply execAll_of_mem hmem
  · intro x hx heq
    rcases h.sound _ hidx x hx with ⟨q, hq, _, rfl⟩ | ⟨b, _, hdst, _⟩
    · injection heq with heq
      rw [h.inj hq hp heq]
    · rw [hdst] at heq
      cases heq
  · intro x hx m
    apply Assign.exec_of_ne
    rcases h.sound _ hidx x hx with ⟨q, hq, _, rfl⟩ | ⟨b, _, hdst, _⟩
    · rintro ⟨⟩
    · rw [hdst]
      rintro ⟨⟩

/-- A bias is what its iteration leaves. -/
theorem bias_eq (h : CopyLoop c ph B iter biases) (hstep : ph.Step m m') {idx : List ℕ} (hidx : idx ∈ digits ph.dims)
    {b : ℕ} (hb : b ∈ biases idx) : m' (.dstBias b) = execAll (ph.body idx) m (.dstBias b) :=
  hstep.of_independent h.independent hidx (Or.inr ⟨b, hb, rfl⟩)

/-- What the loop does not assign to. -/
theorem eq_of_notMem (h : CopyLoop c ph B iter biases) (hstep : ph.Step m m') {a : Cell}
    (hplace : ∀ p ∈ B, a ≠ .output (c.place p)) (hbias : ∀ idx ∈ digits ph.dims, ∀ b ∈ biases idx, a ≠ .dstBias b) :
    m' a = m a := by
  apply hstep.of_ne
  intro idx hidx e he heq
  rcases h.sound idx hidx e he with ⟨p, hp, _, rfl⟩ | ⟨b, hb, hdst, _⟩
  · exact hplace p hp heq.symm
  · exact hbias idx hidx b hb (heq.symm.trans hdst)

end CopyLoop

/-! ## The layouts without bias -/

theorem tmpOff_eq (uH uW icp ocp : ℕ) :
    c.tmpOff ⟨uH, uW, icp, ocp⟩ = uH * c.wAlpha * c.ic * c.oc + uW * c.ic * c.oc + icp * c.oc + ocp := by
  simp only [Conf.tmpOff, value_cons, value_nil, List.prod_cons, List.prod_nil]
  ring

/-- The blocks of the channels, and the channels inside. -/
theorem exists_blocks (hc : c.Asserted) {p : Position} (hp : c.Inside p) :
    ∃ uH < c.wAlpha, ∃ uW < c.wAlpha, ∃ ib < c.nbIc, ∃ i < c.icBlock, ∃ ob < c.nbOc, ∃ o < c.ocBlock,
      p = ⟨uH, uW, ib * c.icBlock + i, ob * c.ocBlock + o⟩ := by
  obtain ⟨huH, huW, hic, hoc⟩ := hp
  have hdvdIc := Nat.dvd_of_mod_eq_zero hc.ic
  have hdvdOc := Nat.dvd_of_mod_eq_zero hc.oc
  refine ⟨p.uH, huH, p.uW, huW, p.ic / c.icBlock, div_lt_of_dvd hdvdIc hic, p.ic % c.icBlock, mod_lt_of_dvd hdvdIc hic,
    p.oc / c.ocBlock, div_lt_of_dvd hdvdOc hoc, p.oc % c.ocBlock, mod_lt_of_dvd hdvdOc hoc, ?_⟩
  rw [Nat.div_add_mod', Nat.div_add_mod']

theorem inside_blocks (hc : c.Asserted) {uH uW ib i ob o : ℕ} (huH : uH < c.wAlpha) (huW : uW < c.wAlpha)
    (hib : ib < c.nbIc) (hi : i < c.icBlock) (hob : ob < c.nbOc) (ho : o < c.ocBlock) :
    c.Inside ⟨uH, uW, ib * c.icBlock + i, ob * c.ocBlock + o⟩ :=
  ⟨huH, huW, mul_add_lt (Nat.dvd_of_mod_eq_zero hc.ic) hib hi, mul_add_lt (Nat.dvd_of_mod_eq_zero hc.oc) hob ho⟩

theorem place_aaOio (hformat : c.winoFormat = .weiAaOio) {i o : ℕ} (hi : i < c.icBlock) (ho : o < c.ocBlock)
    (uH uW ib ob : ℕ) :
    c.place ⟨uH, uW, ib * c.icBlock + i, ob * c.ocBlock + o⟩ =
      uH * c.wAlpha * c.nbOc * c.nbIc * c.icBlock * c.ocBlock + uW * c.nbOc * c.nbIc * c.icBlock * c.ocBlock +
        ob * c.nbIc * c.icBlock * c.ocBlock + ib * c.icBlock * c.ocBlock + i * c.ocBlock + o := by
  simp only [Conf.place, Conf.coords, Conf.radices, hformat, mul_add_div hi, mul_add_mod hi, mul_add_div ho,
    mul_add_mod ho, value_cons, value_nil, List.prod_cons, List.prod_nil]
  ring

theorem copyLoop_aaOio (hc : c.Asserted) (hformat : c.winoFormat = .weiAaOio) :
    CopyLoop c (reorderToAaOio c) {p | c.Inside p} (fun p => [p.uH, p.uW, p.oc / c.ocBlock]) fun _ => ∅ where
  inj := Conf.place_inj hc (by rw [hformat]; decide)
  sound := by
    rintro _ (_ | ⟨huH, _ | ⟨huW, _ | ⟨hob, ⟨⟩⟩⟩⟩) e he
    simp only [reorderToAaOio, List.mem_flatMap, List.mem_map, List.mem_range] at he
    obtain ⟨ib, hib, i, hi, o, ho, rfl⟩ := he
    refine Or.inl ⟨_, inside_blocks hc huH huW hib hi hob ho, ?_, ?_⟩
    · rw [mul_add_div ho]
    · rw [place_aaOio hformat hi ho, tmpOff_eq]
  complete := by
    intro p hp
    obtain ⟨uH, huH, uW, huW, ib, hib, i, hi, ob, hob, o, ho, rfl⟩ := exists_blocks hc hp
    rw [mul_add_div ho, place_aaOio hformat hi ho, tmpOff_eq]
    refine ⟨.cons huH (.cons huW (.cons hob .nil)), ?_⟩
    simp only [reorderToAaOio, List.mem_flatMap, List.mem_map, List.mem_range]
    exact ⟨ib, hib, i, hi, o, ho, rfl⟩
  bias_unique := fun _ _ _ _ _ _ hb => absurd hb (Set.notMem_empty _)

/-- A block of output channels lies in a chunk. -/
theorem exists_ocChunk (hc : c.Asserted) {ob : ℕ} (hob : ob < c.nbOc) :
    ∃ occ < c.ocChunks, ∃ ob2 < c.oc2Block, ob = occ * c.oc2Block + ob2 :=
  ⟨ob / c.oc2Block, div_lt_of_dvd (Nat.dvd_of_mod_eq_zero hc.oc2) hob, ob % c.oc2Block,
    mod_lt_of_dvd (Nat.dvd_of_mod_eq_zero hc.oc2) hob, (Nat.div_add_mod' ..).symm⟩

theorem ocChunk_lt (hc : c.Asserted) {occ ob2 : ℕ} (hocc : occ < c.ocChunks) (hob2 : ob2 < c.oc2Block) :
    occ * c.oc2Block + ob2 < c.nbOc :=
  mul_add_lt (Nat.dvd_of_mod_eq_zero hc.oc2) hocc hob2

/-- A block of input channels lies in a chunk. -/
theorem exists_icChunk (hc : c.Asserted) {ib : ℕ} (hib : ib < c.nbIc) :
    ∃ icc < c.icChunks, ∃ ib2 < c.ic2Block, ib = icc * c.ic2Block + ib2 :=
  ⟨ib / c.ic2Block, div_lt_of_dvd (Nat.dvd_of_mod_eq_zero hc.ic2) hib, ib % c.ic2Block,
    mod_lt_of_dvd (Nat.dvd_of_mod_eq_zero hc.ic2) hib, (Nat.div_add_mod' ..).symm⟩

theorem icChunk_lt (hc : c.Asserted) {icc ib2 : ℕ} (hicc : icc < c.icChunks) (hib2 : ib2 < c.ic2Block) :
    icc * c.ic2Block + ib2 < c.nbIc :=
  mul_add_lt (Nat.dvd_of_mod_eq_zero hc.ic2) hicc hib2

theorem place_aaOBiOo (hformat : c.winoFormat = .weiAaOBiOo) {i ob2 o : ℕ} (hi : i < c.icBlock) (hob2 : ob2 < c.oc2Block)
    (ho : o < c.ocBlock) (uH uW ib occ : ℕ) :
    c.place ⟨uH, uW, ib * c.icBlock + i, (occ * c.oc2Block + ob2) * c.ocBlock + o⟩ =
      (((uH * c.wAlpha + uW) * c.ocChunks + occ) * c.nbIc + ib) * c.oc2Block * c.icBlock * c.ocBlock +
        ((i * c.oc2Block + ob2) * c.ocBlock + o) := by
  simp only [Conf.place, Conf.coords, Conf.radices, hformat, mul_add_div hi, mul_add_mod hi, mul_add_div ho,
    mul_add_mod ho, mul_add_div hob2, mul_add_mod hob2, value_cons, value_nil, List.prod_cons, List.prod_nil]
  ring

theorem copyLoop_aaOBiOo (hc : c.Asserted) (hformat : c.winoFormat = .weiAaOBiOo) :
    CopyLoop c (reorderToAaOBiOo c) {p | c.Inside p} (fun p => [p.uH, p.uW, p.oc / c.ocBlock / c.oc2Block]) fun _ => ∅ where
  inj := Conf.place_inj hc (by rw [hformat]; decide)
  sound := by
    rintro _ (_ | ⟨huH, _ | ⟨huW, _ | ⟨hocc, ⟨⟩⟩⟩⟩) e he
    simp only [reorderToAaOBiOo, List.mem_flatMap, List.mem_map, List.mem_range] at he
    obtain ⟨ib, hib, i, hi, ob2, hob2, o, ho, rfl⟩ := he
    refine Or.inl ⟨_, inside_blocks hc huH huW hib hi (ocChunk_lt hc hocc hob2) ho, ?_, ?_⟩
    · rw [mul_add_div ho, mul_add_div hob2]
    · rw [place_aaOBiOo hformat hi hob2 ho, tmpOff_eq]
      congr 1
      ring
  complete := by
    intro p hp
    obtain ⟨uH, huH, uW, huW, ib, hib, i, hi, ob, hob, o, ho, rfl⟩ := exists_blocks hc hp
    obtain ⟨occ, hocc, ob2, hob2, rfl⟩ := exists_ocChunk hc hob
    rw [mul_add_div ho, mul_add_div hob2, place_aaOBiOo hformat hi hob2 ho, tmpOff_eq]
    refine ⟨.cons huH (.cons huW (.cons hocc .nil)), ?_⟩
    simp only [reorderToAaOBiOo, List.mem_flatMap, List.mem_map, List.mem_range]
    refine ⟨ib, hib, i, hi, ob2, hob2, o, ho, ?_⟩
    congr 1
    ring
  bias_unique := fun _ _ _ _ _ _ hb => absurd hb (Set.notMem_empty _)

theorem place_OBaaIBOIio (hformat : c.winoFormat = .weiOBaaIBOIio) {ob ib i o : ℕ} (hob : ob < c.oc2Block)
    (hib : ib < c.ic2Block) (hi : i < c.icBlock) (ho : o < c.ocBlock) (uH uW icc occ : ℕ) :
    c.place ⟨uH, uW, (icc * c.ic2Block + ib) * c.icBlock + i, (occ * c.oc2Block + ob) * c.ocBlock + o⟩ =
      ((((((occ * c.wAlpha + uH) * c.wAlpha + uW) * c.icChunks + icc) * c.oc2Block + ob) * c.ic2Block + ib) *
        c.icBlock + i) * c.ocBlock + o := by
  simp only [Conf.place, Conf.coords, Conf.radices, hformat, mul_add_div hi, mul_add_mod hi, mul_add_div ho,
    mul_add_mod ho, mul_add_div hob, mul_add_mod hob, mul_add_div hib, mul_add_mod hib, value_cons, value_nil,
    List.prod_cons, List.prod_nil]
  ring

theorem copyLoop_OBaaIBOIio (hc : c.Asserted) (hformat : c.winoFormat = .weiOBaaIBOIio) :
    CopyLoop c (reorderToOBaaIBOIio c) {p | c.Inside p} (fun p => [p.oc / c.ocBlock / c.oc2Block, p.uH, p.uW])
      fun _ => ∅ where
  inj := Conf.place_inj hc (by rw [hformat]; decide)
  sound := by
    rintro _ (_ | ⟨hocc, _ | ⟨huH, _ | ⟨huW, ⟨⟩⟩⟩⟩) e he
    simp only [reorderToOBaaIBOIio, List.mem_flatMap, List.mem_map, List.mem_range] at he
    obtain ⟨icc, hicc, ob, hob, ib, hib, i, hi, o, ho, rfl⟩ := he
    refine Or.inl ⟨_, inside_blocks hc huH huW (icChunk_lt hc hicc hib) hi (ocChunk_lt hc hocc hob) ho, ?_, ?_⟩
    · rw [mul_add_div ho, mul_add_div hob]
    · rw [place_OBaaIBOIio hformat hob hib hi ho, tmpOff_eq, Nat.add_assoc (_ + _)]
  complete := by
    intro p hp
    obtain ⟨uH, huH, uW, huW, ib, hib, i, hi, ob, hob, o, ho, rfl⟩ := exists_blocks hc hp
    obtain ⟨occ, hocc, ob2, hob2, rfl⟩ := exists_ocChunk hc hob
    obtain ⟨icc, hicc, ib2, hib2, rfl⟩ := exists_icChunk hc hib
    rw [mul_add_div ho, mul_add_div hob2, place_OBaaIBOIio hformat hob2 hib2 hi ho, tmpOff_eq]
    refine ⟨.cons hocc (.cons huH (.cons huW .nil)), ?_⟩
    simp only [reorderToOBaaIBOIio, List.mem_flatMap, List.mem_map, List.mem_range]
    exact ⟨icc, hicc, ob2, hob2, ib2, hib2, i, hi, o, ho, by rw [Nat.add_assoc (_ + _)]⟩
  bias_unique := fun _ _ _ _ _ _ hb => absurd hb (Set.notMem_empty _)

/-! ## The layout with bias -/

/-- The place of a bias. -/
def biasOff (c : Conf) (uH uW ocp : ℕ) : ℕ := value [uH, uW, ocp] [c.wAlpha, c.wAlpha, c.oc]

theorem biasOff_eq (uH uW ocp : ℕ) : biasOff c uH uW ocp = uH * c.wAlpha * c.oc + uW * c.oc + ocp := by
  simp only [biasOff, value_cons, value_nil, List.prod_cons, List.prod_nil]
  ring

theorem biasOff_inj {uH uW ocp uH' uW' ocp' : ℕ} (huH : uH < c.wAlpha) (huW : uW < c.wAlpha) (hocp : ocp < c.oc)
    (huH' : uH' < c.wAlpha) (huW' : uW' < c.wAlpha) (hocp' : ocp' < c.oc)
    (heq : biasOff c uH uW ocp = biasOff c uH' uW' ocp') : uH = uH' ∧ uW = uW' ∧ ocp = ocp' := by
  have hlist := injOn_value [c.wAlpha, c.wAlpha, c.oc] (.cons huH (.cons huW (.cons hocp .nil)))
    (.cons huH' (.cons huW' (.cons hocp' .nil))) heq
  simpa using hlist

theorem place_aaOIoi (hc : c.Asserted) (hformat : c.winoFormat = .weiAaOIoi) {i o : ℕ} (hi : i < c.icBlock)
    (ho : o < c.ocBlock) (uH uW ib ob : ℕ) :
    c.place ⟨uH, uW, ib * c.icBlock + i, ob * c.ocBlock + o⟩ =
      uH * c.wAlpha * c.ic * c.oc + uW * c.ic * c.oc + (ob * c.ocBlock * c.ic + o * c.icBlock) +
        (ib * c.ocBlock * c.icBlock + i) := by
  have hoc := Conf.nbOc_mul hc
  have hic := Conf.nbIc_mul hc
  simp only [Conf.place, Conf.coords, Conf.radices, hformat, mul_add_div hi, mul_add_mod hi, mul_add_div ho,
    mul_add_mod ho, value_cons, value_nil, List.prod_cons, List.prod_nil]
  rw [← hoc, ← hic]
  ring

/-- The weights that the loop for `u_h` and `u_w` copies. -/
def slice (c : Conf) (uH uW : ℕ) : Set Position := {p | c.Inside p ∧ p.uH = uH ∧ p.uW = uW}

theorem copyLoop_aaOIoi (hc : c.Asserted) (hformat : c.winoFormat = .weiAaOIoi) {uH uW : ℕ} (huH : uH < c.wAlpha)
    (huW : uW < c.wAlpha) :
    CopyLoop c (reorderToAaOIoiLoop c uH uW) (slice c uH uW) (fun p => [p.oc / c.ocBlock, p.oc % c.ocBlock])
      fun idx => {b | c.toS8 = true ∧ b = biasOff c uH uW (idx.getD 0 0 * c.ocBlock + idx.getD 1 0)} where
  inj := (Conf.place_inj hc (by rw [hformat]; decide)).mono fun p hp => hp.1
  sound := by
    rintro _ (_ | ⟨hob, _ | ⟨ho, ⟨⟩⟩⟩) e he
    simp only [reorderToAaOIoiLoop, List.mem_flatMap, List.mem_range, List.mem_cons] at he
    obtain ⟨ib, hib, i, hi, he⟩ := he
    have hp := inside_blocks hc huH huW hib hi hob ho
    rw [← place_aaOIoi hc hformat hi ho, ← tmpOff_eq, ← biasOff_eq] at he
    rcases he with rfl | he
    · refine Or.inl ⟨_, ⟨hp, rfl, rfl⟩, ?_, rfl⟩
      rw [mul_add_div ho, mul_add_mod ho]
    · right
      split_ifs at he with hs8 hindex
      · obtain rfl := List.mem_singleton.mp he
        refine ⟨_, ⟨hs8, rfl⟩, rfl, ?_⟩
        intro m m' hbias hout
        have hread := hout _ ⟨hp, rfl, rfl⟩ (by rw [mul_add_div ho, mul_add_mod ho])
        exact congrArg₂ (fun x y => x - 128 * y) hbias hread
      · obtain rfl := List.mem_singleton.mp he
        exact ⟨_, ⟨hs8, rfl⟩, rfl, fun _ _ _ _ => rfl⟩
      · cases he
  complete := by
    rintro p ⟨hp, huH', huW'⟩
    obtain ⟨uH, huH, uW, huW, ib, hib, i, hi, ob, hob, o, ho, rfl⟩ := exists_blocks hc hp
    subst huH' huW'
    rw [mul_add_div ho, mul_add_mod ho, place_aaOIoi hc hformat hi ho, tmpOff_eq]
    refine ⟨.cons hob (.cons ho .nil), ?_⟩
    simp only [reorderToAaOIoiLoop, List.mem_flatMap, List.mem_range, List.mem_cons]
    exact ⟨ib, hib, i, hi, Or.inl rfl⟩
  bias_unique := by
    rintro _ (_ | ⟨hob, _ | ⟨ho, ⟨⟩⟩⟩) _ (_ | ⟨hob', _ | ⟨ho', ⟨⟩⟩⟩) hne b ⟨_, rfl⟩ ⟨_, heq⟩
    have hdvd := Nat.dvd_of_mod_eq_zero hc.oc
    have hocp := (biasOff_inj huH huW (mul_add_lt hdvd hob ho) huH huW (mul_add_lt hdvd hob' ho') heq).2.2
    have hdiv := congrArg (· / c.ocBlock) hocp
    have hmod := congrArg (· % c.ocBlock) hocp
    simp only [mul_add_div ho, mul_add_div ho'] at hdiv
    simp only [mul_add_mod ho, mul_add_mod ho'] at hmod
    exact hne (by rw [hdiv, hmod])

/-- Copies of one thread that subtract what they have copied from a bias. -/
theorem execAll_subBias (l : List (ℕ × ℕ)) (b : ℕ) (m : Cell → ℚ) :
    execAll (l.flatMap fun x => [copy x.1 x.2, subBias b x.1]) m (.dstBias b) =
      m (.dstBias b) - (l.map fun x => 128 * m (.tmpWei x.2)).sum := by
  induction l generalizing m with
  | nil => exact (sub_zero _).symm
  | cons x l ih =>
    have htmp : ∀ n, (subBias b x.1).exec ((copy x.1 x.2).exec m) (.tmpWei n) = m (.tmpWei n) := by
      intro n
      rw [Assign.exec_of_ne (by rintro ⟨⟩), Assign.exec_of_ne (by rintro ⟨⟩)]
    have hbias : (subBias b x.1).exec ((copy x.1 x.2).exec m) (.dstBias b) = m (.dstBias b) - 128 * m (.tmpWei x.2) := by
      have hold : (copy x.1 x.2).exec m (.dstBias b) = m (.dstBias b) := Assign.exec_of_ne (by rintro ⟨⟩)
      have hnew : (copy x.1 x.2).exec m (.output x.1) = m (.tmpWei x.2) := Assign.exec_self m (copy x.1 x.2)
      exact (Assign.exec_self _ (subBias b x.1)).trans (congrArg₂ (fun y z => y - 128 * z) hold hnew)
    rw [List.flatMap_cons, List.cons_append, List.cons_append, List.nil_append, execAll_cons, execAll_cons, ih, hbias,
      List.map_cons, List.sum_cons, ← sub_sub]
    simp only [htmp]

/-- Copies of one thread that set a bias to zero. -/
theorem execAll_bias_zero (l : List (ℕ × ℕ)) (b : ℕ) {m : Cell → ℚ} (hm : m (.dstBias b) = 0) :
    execAll (l.flatMap fun x => [copy x.1 x.2, Assign.set (.dstBias b) 0]) m (.dstBias b) = 0 := by
  induction l generalizing m with
  | nil => exact hm
  | cons x l ih =>
    rw [List.flatMap_cons, List.cons_append, List.cons_append, List.nil_append, execAll_cons, execAll_cons]
    exact ih (Assign.exec_self _ (Assign.set (Cell.dstBias b) 0))

/-- The bias that the loop for `u_h` and `u_w` leaves. -/
theorem step_bias (hc : c.Asserted) (hformat : c.winoFormat = .weiAaOIoi) (hs8 : c.toS8 = true) {uH uW ocp : ℕ}
    (huH : uH < c.wAlpha) (huW : uW < c.wAlpha) (hocp : ocp < c.oc) (h : (reorderToAaOIoiLoop c uH uW).Step m m')
    (hm : m (.dstBias (biasOff c uH uW ocp)) = 0) :
    m' (.dstBias (biasOff c uH uW ocp)) =
      if uH * c.wAlpha + uW = unsignValInWinoDomain then 0
      else -(128 * ∑ icp ∈ Finset.range c.ic, m (.tmpWei (c.tmpOff ⟨uH, uW, icp, ocp⟩))) := by
  have hdvd := Nat.dvd_of_mod_eq_zero hc.oc
  have hidx : [ocp / c.ocBlock, ocp % c.ocBlock] ∈ digits [c.nbOc, c.ocBlock] :=
    .cons (div_lt_of_dvd hdvd hocp) (.cons (mod_lt_of_dvd hdvd hocp) .nil)
  have hloop := copyLoop_aaOIoi hc hformat huH huW
  let l := (List.range c.nbIc).flatMap fun ib => (List.range c.icBlock).map fun i =>
    (c.place ⟨uH, uW, ib * c.icBlock + i, ocp⟩, c.tmpOff ⟨uH, uW, ib * c.icBlock + i, ocp⟩)
  let bias := fun d => if uH * c.wAlpha + uW ≠ unsignValInWinoDomain then subBias (biasOff c uH uW ocp) d
    else Assign.set (.dstBias (biasOff c uH uW ocp)) 0
  have hbody : (reorderToAaOIoiLoop c uH uW).body [ocp / c.ocBlock, ocp % c.ocBlock] =
      l.flatMap fun x => [copy x.1 x.2, bias x.1] := by
    simp only [reorderToAaOIoiLoop, hs8, if_true, l, List.flatMap_assoc, List.flatMap_map, ← biasOff_eq, ← tmpOff_eq,
      Nat.div_add_mod']
    apply List.flatMap_congr
    intro ib hib
    apply List.flatMap_congr
    intro i hi
    have hplace := place_aaOIoi hc hformat (List.mem_range.mp hi) (mod_lt_of_dvd hdvd hocp) uH uW ib (ocp / c.ocBlock)
    rw [Nat.div_add_mod'] at hplace
    rw [← hplace]
  rw [hloop.bias_eq h hidx ⟨hs8, by rw [List.getD_cons_zero, List.getD_cons_succ, List.getD_cons_zero, Nat.div_add_mod']⟩,
    hbody]
  by_cases hindex : uH * c.wAlpha + uW = unsignValInWinoDomain
  · simp only [bias, ne_eq, hindex, not_true_eq_false, if_false, if_true]
    exact execAll_bias_zero l _ hm
  · simp only [bias, ne_eq, hindex, not_false_eq_true, if_false, if_true]
    rw [execAll_subBias, hm, zero_sub, LoopNest.sum_map_flatMap, ← Conf.nbIc_mul hc, LoopNest.sum_range_blocks,
      Finset.mul_sum]
    congr 1
    apply Finset.sum_congr rfl
    intro ib _
    rw [LoopNest.sum_map_range, Finset.mul_sum]

theorem step_clearBias (h : (clearBias c).Step m m') {b : ℕ} (hb : b < c.wAlpha * c.wAlpha * c.oc) :
    m' (.dstBias b) = 0 := by
  have hind : Independent (digits (clearBias c).dims) (fun _ => Set.univ) (clearBias c).body := by
    apply Independent.of_disjoint
    · rintro _ ⟨⟩ _ ⟨⟩ hne
      exact absurd rfl hne
    · intro idx _ e _
      exact Set.mem_univ _
    · intro idx _ e he m m' _
      obtain ⟨i, _, rfl⟩ := List.mem_map.mp he
      rfl
  have hstep := h.of_independent hind (a := .dstBias b) .nil (Set.mem_univ _)
  have hmem : Assign.set (.dstBias b) 0 ∈ (clearBias c).body [] := List.mem_map_of_mem (List.mem_range.mpr hb)
  rw [hstep]
  apply execAll_of_mem hmem
  · intro x hx heq
    obtain ⟨i, _, rfl⟩ := List.mem_map.mp hx
    injection heq with heq
    rw [heq]
  · intro x _ m
    rfl

theorem step_clearBias_of_ne (h : (clearBias c).Step m m') {a : Cell} (ha : ∀ b, a ≠ .dstBias b) : m' a = m a := by
  apply h.of_ne
  intro idx _ e he heq
  obtain ⟨i, _, rfl⟩ := List.mem_map.mp he
  exact ha i heq.symm

/-- The copies for the pairs `u_h` and `u_w` in `done` are made from the plain buffer in `m₀`. -/
structure Copied (c : Conf) (m₀ : Cell → ℚ) (done : List (ℕ × ℕ)) (m : Cell → ℚ) : Prop where
  tmp : ∀ n, m (.tmpWei n) = m₀ (.tmpWei n)
  output : ∀ p, c.Inside p → (p.uH, p.uW) ∈ done → m (.output (c.place p)) = m₀ (.tmpWei (c.tmpOff p))
  bias : c.toS8 = true → ∀ uH < c.wAlpha, ∀ uW < c.wAlpha, ∀ ocp < c.oc, m (.dstBias (biasOff c uH uW ocp)) =
    if (uH, uW) ∉ done ∨ uH * c.wAlpha + uW = unsignValInWinoDomain then 0
    else -(128 * ∑ icp ∈ Finset.range c.ic, m₀ (.tmpWei (c.tmpOff ⟨uH, uW, icp, ocp⟩)))

/-- One more pair. -/
theorem Copied.step (hc : c.Asserted) (hformat : c.winoFormat = .weiAaOIoi) {m₀ : Cell → ℚ} {done : List (ℕ × ℕ)}
    {uH uW : ℕ} (huH : uH < c.wAlpha) (huW : uW < c.wAlpha) (hnew : (uH, uW) ∉ done) (hm : Copied c m₀ done m)
    (h : (reorderToAaOIoiLoop c uH uW).Step m m') : Copied c m₀ (done ++ [(uH, uW)]) m' := by
  have hloop := copyLoop_aaOIoi hc hformat huH huW
  have htmp : ∀ n, m' (.tmpWei n) = m (.tmpWei n) := by
    intro n
    apply hloop.eq_of_notMem h
    · rintro p _ ⟨⟩
    · rintro idx _ b _ ⟨⟩
  constructor
  · intro n
    rw [htmp, hm.tmp]
  · intro p hp hmem
    by_cases hpair : (p.uH, p.uW) = (uH, uW)
    · obtain ⟨hpH, hpW⟩ := Prod.mk.inj hpair
      rw [hloop.output_eq h ⟨hp, hpH, hpW⟩, hm.tmp]
    · have hold : (p.uH, p.uW) ∈ done :=
        (List.mem_append.mp hmem).resolve_right fun hlast => hpair (List.mem_singleton.mp hlast)
      rw [hloop.eq_of_notMem h, hm.output p hp hold]
      · rintro q ⟨hq, hqH, hqW⟩ heq
        injection heq with heq
        obtain rfl := Conf.place_inj hc (by rw [hformat]; decide) hp hq heq
        exact hpair (Prod.ext hqH hqW)
      · rintro idx _ b _ ⟨⟩
  · intro hs8 uH' huH' uW' huW' ocp hocp
    by_cases hpair : (uH', uW') = (uH, uW)
    · obtain ⟨rfl, rfl⟩ := Prod.mk.inj hpair
      have hzero := hm.bias hs8 uH' huH' uW' huW' ocp hocp
      rw [if_pos (Or.inl hnew)] at hzero
      rw [step_bias hc hformat hs8 huH huW hocp h hzero]
      simp only [List.mem_append, List.mem_singleton, or_true, not_true_eq_false, false_or, hm.tmp]
    · have hsame : m' (.dstBias (biasOff c uH' uW' ocp)) = m (.dstBias (biasOff c uH' uW' ocp)) := by
        apply hloop.eq_of_notMem h
        · rintro p _ ⟨⟩
        · rintro _ (_ | ⟨hob, _ | ⟨ho, ⟨⟩⟩⟩) b ⟨_, rfl⟩ heq
          injection heq with heq
          have hlt := mul_add_lt (Nat.dvd_of_mod_eq_zero hc.oc) hob ho
          obtain ⟨rfl, rfl, _⟩ := biasOff_inj huH' huW' hocp huH huW hlt heq
          exact hpair rfl
      rw [hsame, hm.bias hs8 uH' huH' uW' huW' ocp hocp]
      simp only [List.mem_append, List.mem_singleton, hpair, or_false]

/-- `reorder_to_aaOIoi` -/
theorem runs_aaOIoi (hc : c.Asserted) (hformat : c.winoFormat = .weiAaOIoi) (h : Runs (reorderToAaOIoi c) m m') :
    Copied c m (List.range c.wAlpha ×ˢ List.range c.wAlpha) m' := by
  obtain ⟨m₁, hclear, hrun⟩ := runs_append.mp h
  have hstart : Copied c m [] m₁ := by
    by_cases hs8 : c.toS8 = true
    · rw [if_pos hs8, runs_singleton] at hclear
      constructor
      · intro n
        exact step_clearBias_of_ne hclear (by rintro b ⟨⟩)
      · intro p _ hmem
        cases hmem
      · intro _ uH huH uW huW ocp hocp
        have hmem : [uH, uW, ocp] ∈ digits [c.wAlpha, c.wAlpha, c.oc] := .cons huH (.cons huW (.cons hocp .nil))
        have hlt : biasOff c uH uW ocp < c.wAlpha * c.wAlpha * c.oc := by
          simpa [biasOff, Nat.mul_assoc] using value_lt hmem
        rw [step_clearBias hclear hlt, if_pos (Or.inl List.not_mem_nil)]
    · rw [if_neg hs8] at hclear
      obtain rfl : m₁ = m := hclear
      exact ⟨fun _ => rfl, fun p _ hmem => absurd hmem List.not_mem_nil, fun h => absurd h hs8⟩
  apply hrun.invariant₂ (Copied c m) hstart
  intro done uH uW rest hsplit m₂ m₃ hdone hstep
  have hnd : (List.range c.wAlpha ×ˢ List.range c.wAlpha).Nodup := List.nodup_range.product List.nodup_range
  have hin : (uH, uW) ∈ List.range c.wAlpha ×ˢ List.range c.wAlpha := by
    rw [hsplit]
    exact List.mem_append_right done List.mem_cons_self
  rw [List.mem_product, List.mem_range, List.mem_range] at hin
  rw [hsplit] at hnd
  have hnew : (uH, uW) ∉ done := fun hmem => (List.nodup_append.mp hnd).2.2 _ hmem _ List.mem_cons_self rfl
  exact hdone.step hc hformat hin.1 hin.2 hnew (runs_singleton.mp hstep)

/-! ## The reorder -/

/-- Every layout is a copy of the plain buffer. -/
theorem runs_reorder (hc : c.Asserted) (hformat : c.winoFormat ≠ .undef) (h : Runs (reorder c) m m') {p : Position}
    (hp : c.Inside p) : m' (.output (c.place p)) = m (.tmpWei (c.tmpOff p)) := by
  unfold reorder at h
  cases hf : c.winoFormat with
  | undef => exact absurd hf hformat
  | weiAaOIoi =>
    rw [hf] at h
    obtain ⟨huH, huW, _⟩ := id hp
    apply (runs_aaOIoi hc hf h).output p hp
    rw [List.mem_product, List.mem_range, List.mem_range]
    exact ⟨huH, huW⟩
  | weiAaOio =>
    rw [hf] at h
    exact (copyLoop_aaOio hc hf).output_eq (runs_singleton.mp h) hp
  | weiAaOBiOo =>
    rw [hf] at h
    exact (copyLoop_aaOBiOo hc hf).output_eq (runs_singleton.mp h) hp
  | weiOBaaIBOIio =>
    rw [hf] at h
    exact (copyLoop_OBaaIBOIio hc hf).output_eq (runs_singleton.mp h) hp

end MklDnn.WinoReorder
