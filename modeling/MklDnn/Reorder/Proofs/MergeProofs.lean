import MklDnn.Memory.Proofs.OffsetProofs
import MklDnn.Reorder.Proofs.PassesProofs

/-!
# Proofs: merging two layouts

The layout of a dimension is a mixed-radix system: its entries from the outermost one are the digits of a
coordinate. The loop of `prb_init` walks down the digits of the input and of the output at once and
splits the larger of two digits. It yields one loop nest for both layouts and for the scale strides of the
output, provided that of any two remaining blocks of a dimension one divides the other.
-/

open LoopNest Offsets

namespace MklDnn

/-! ## The digits of a coordinate -/

/-- The number of coordinates that the entries of a layout cover. -/
def chunkProd (cs : List Chunk) : ℕ := (cs.map Chunk.n).prod

@[simp] theorem chunkProd_nil : chunkProd [] = 1 := rfl

@[simp] theorem chunkProd_cons (c : Chunk) (cs : List Chunk) :
    chunkProd (c :: cs) = c.n * chunkProd cs := by
  simp [chunkProd]

/-- The offset of coordinate `x` in a layout. -/
def chunkVal : List Chunk → ℕ → ℤ
  | [], _ => 0
  | c :: cs, x => (x / chunkProd cs : ℕ) * c.stride + chunkVal cs (x % chunkProd cs)

theorem chunkVal_zero (cs : List Chunk) : chunkVal cs 0 = 0 := by
  induction cs with
  | nil => rfl
  | cons c cs ih => simp [chunkVal, ih]

theorem chunkVal_mul_add (c : Chunk) {cs : List Chunk} (k q r : ℕ) (h : 0 < chunkProd cs) :
    chunkVal (c :: cs) (q * (k * chunkProd cs) + r) =
      q * (c.stride * k) + chunkVal (c :: cs) r := by
  have hsum : q * (k * chunkProd cs) + r = chunkProd cs * (q * k) + r := by ring
  simp only [chunkVal]
  rw [hsum, Nat.mul_add_div h, Nat.mul_add_mod]
  push_cast
  ring

/-- Coordinates from a multiple of the later entries on. -/
theorem chunkVal_cons_add (c : Chunk) {cs : List Chunk} (q : ℕ) {r : ℕ} (hr : r < chunkProd cs) :
    chunkVal (c :: cs) (q * chunkProd cs + r) = q * c.stride + chunkVal cs r := by
  have hP : 0 < chunkProd cs := by omega
  simp only [chunkVal]
  rw [Nat.mul_comm q, Nat.mul_add_div hP, Nat.div_eq_of_lt hr, Nat.mul_add_mod, Nat.mod_eq_of_lt hr,
    Nat.add_zero]

/-- An entry of the output layout with its scale stride in the place of the stride. -/
def scaleChunk (x : Chunk × ℤ) : Chunk := { x.1 with stride := x.2 }

theorem chunkProd_scaleChunk (oc : List (Chunk × ℤ)) :
    chunkProd (oc.map scaleChunk) = chunkProd (oc.map Prod.fst) := by
  rw [chunkProd, chunkProd, List.map_map, List.map_map]
  rfl

/-- The input, output and scale offset of a coordinate. -/
def tripleVal (ic : List Chunk) (oc : List (Chunk × ℤ)) (x : ℕ) : ℤ × ℤ × ℤ :=
  (chunkVal ic x, chunkVal (oc.map Prod.fst) x, chunkVal (oc.map scaleChunk) x)

theorem tripleVal_zero (ic : List Chunk) (oc : List (Chunk × ℤ)) : tripleVal ic oc 0 = 0 := by
  rw [tripleVal, chunkVal_zero, chunkVal_zero, chunkVal_zero]
  rfl

/-- What is left of the larger of two outermost entries covers the rest of the other layout. -/
theorem chunkProd_split {a b : Chunk} {as bs : List Chunk} {factor : ℕ} (hfactor : b.n = a.n * factor)
    (hprod : chunkProd (a :: as) = chunkProd (b :: bs)) (hpos : 0 < chunkProd (a :: as)) :
    chunkProd as = factor * chunkProd bs := by
  rw [chunkProd_cons] at hpos
  rw [chunkProd_cons, chunkProd_cons, hfactor, Nat.mul_assoc] at hprod
  exact Nat.eq_of_mul_eq_mul_left (Nat.pos_of_mul_pos_right hpos) hprod

section Split

variable {i o : Chunk} {ss : ℤ} {ic : List Chunk} {oc : List (Chunk × ℤ)} {factor : ℕ}
  (hprod : chunkProd (i :: ic) = chunkProd (o :: oc.map Prod.fst)) (hpos : 0 < chunkProd (i :: ic))

include hprod hpos

/-- Equal outermost entries are one loop of both layouts. -/
theorem tripleVal_equal (hn : i.n = o.n) {q r : ℕ} (hr : r < chunkProd ic) :
    tripleVal (i :: ic) ((o, ss) :: oc) (q * chunkProd ic + r) =
      q • (i.stride, o.stride, ss) + tripleVal ic oc r := by
  rw [chunkProd_cons] at hpos
  rw [chunkProd_cons, chunkProd_cons, ← hn] at hprod
  have htail : chunkProd ic = chunkProd (oc.map Prod.fst) :=
    Nat.eq_of_mul_eq_mul_left (Nat.pos_of_mul_pos_right hpos) hprod
  have ho := chunkVal_cons_add o q (htail ▸ hr)
  have hs := chunkVal_cons_add (scaleChunk (o, ss)) q (chunkProd_scaleChunk oc ▸ htail ▸ hr)
  rw [← htail] at ho
  rw [chunkProd_scaleChunk, ← htail] at hs
  rw [tripleVal, tripleVal, List.map_cons, List.map_cons, chunkVal_cons_add i q hr, ho, hs]
  simp [scaleChunk]

/-- A smaller outermost entry of the input splits that of the output. -/
theorem tripleVal_split_output (hfactor : o.n = i.n * factor) {q r : ℕ} (hr : r < chunkProd ic) :
    tripleVal (i :: ic) ((o, ss) :: oc) (q * chunkProd ic + r) =
      q • (i.stride, o.stride * factor, ss * factor) +
        tripleVal ic (({ o with n := factor }, ss) :: oc) r := by
  have htail := chunkProd_split hfactor hprod hpos
  have hQ : 0 < chunkProd (oc.map Prod.fst) := by
    rw [htail] at hr
    exact Nat.pos_of_mul_pos_left (lt_of_le_of_lt (Nat.zero_le r) hr)
  have ho := chunkVal_mul_add o factor q r hQ
  have hs := chunkVal_mul_add (scaleChunk (o, ss)) factor q r (chunkProd_scaleChunk oc ▸ hQ)
  rw [← htail] at ho
  rw [chunkProd_scaleChunk, ← htail] at hs
  rw [tripleVal, tripleVal, List.map_cons, List.map_cons, List.map_cons, List.map_cons,
    chunkVal_cons_add i q hr, ho, hs, Prod.smul_mk, Prod.smul_mk, nsmul_eq_mul, nsmul_eq_mul, nsmul_eq_mul]
  rfl

/-- A smaller outermost entry of the output splits that of the input. -/
theorem tripleVal_split_input (hfactor : i.n = o.n * factor) {q r : ℕ}
    (hr : r < chunkProd (oc.map Prod.fst)) :
    tripleVal (i :: ic) ((o, ss) :: oc) (q * chunkProd (oc.map Prod.fst) + r) =
      q • (i.stride * factor, o.stride, ss) + tripleVal ({ i with n := factor } :: ic) oc r := by
  have htail := chunkProd_split hfactor hprod.symm (hprod ▸ hpos)
  have hP : 0 < chunkProd ic := by
    rw [htail] at hr
    exact Nat.pos_of_mul_pos_left (lt_of_le_of_lt (Nat.zero_le r) hr)
  have hi := chunkVal_mul_add i factor q r hP
  have hs := chunkVal_cons_add (scaleChunk (o, ss)) q (chunkProd_scaleChunk oc ▸ hr)
  rw [← htail] at hi
  rw [chunkProd_scaleChunk] at hs
  rw [tripleVal, tripleVal, List.map_cons, List.map_cons, hi, chunkVal_cons_add o q hr, hs, Prod.smul_mk,
    Prod.smul_mk, nsmul_eq_mul, nsmul_eq_mul, nsmul_eq_mul]
  rfl

end Split

/-! ## The merge loop -/

/-- Of any two later blocks of two layouts one divides the other. -/
def SuffixesDivide (ic oc : List Chunk) : Prop :=
  ∀ l1, l1 <:+ ic.tail → ∀ l2, l2 <:+ oc.tail →
    chunkProd l1 ∣ chunkProd l2 ∨ chunkProd l2 ∣ chunkProd l1

theorem SuffixesDivide.mono {ic oc ic' oc' : List Chunk} (h : SuffixesDivide ic oc)
    (hi : ic'.tail <:+ ic.tail) (ho : oc'.tail <:+ oc.tail) : SuffixesDivide ic' oc' :=
  fun l1 h1 l2 h2 => h l1 (h1.trans hi) l2 (h2.trans ho)

/-- The smaller of two outermost entries divides the larger one. -/
theorem SuffixesDivide.dvd_head {i o : Chunk} {ic oc : List Chunk}
    (h : SuffixesDivide (i :: ic) (o :: oc)) (hprod : i.n * chunkProd ic = o.n * chunkProd oc)
    (hpos : 0 < i.n * chunkProd ic) (hlt : i.n < o.n) : i.n ∣ o.n := by
  have hP : 0 < chunkProd ic := Nat.pos_of_mul_pos_left hpos
  have hQ : 0 < chunkProd oc := Nat.pos_of_mul_pos_left (hprod ▸ hpos)
  rcases h ic (List.suffix_refl _) oc (List.suffix_refl _) with ⟨k, hk⟩ | ⟨k, hk⟩
  · -- the rest of the output is the larger one, so its head would be the smaller one
    have heq : i.n = o.n * k := by
      refine Nat.eq_of_mul_eq_mul_right hP ?_
      rw [hprod, hk]
      ring
    have hk0 : 0 < k := by
      rcases Nat.eq_zero_or_pos k with rfl | hk0
      · rw [Nat.mul_zero] at hk
        omega
      · exact hk0
    have hle : o.n * 1 ≤ o.n * k := Nat.mul_le_mul_left _ hk0
    omega
  · refine ⟨k, Nat.eq_of_mul_eq_mul_right hQ ?_⟩
    rw [← hprod, hk]
    ring

theorem SuffixesDivide.symm {ic oc : List Chunk} (h : SuffixesDivide ic oc) :
    SuffixesDivide oc ic :=
  fun l1 h1 l2 h2 => (h l2 h2 l1 h1).symm

/-- The entries of dimension `d` in the two layouts. -/
structure DimLayouts (d : ℕ) (ic oc : List Chunk) : Prop where
  ids_input : ∀ c ∈ ic, c.id = d
  ids_output : ∀ c ∈ oc, c.id = d
  prod_eq : chunkProd ic = chunkProd oc
  prod_pos : 0 < chunkProd ic
  divide : SuffixesDivide ic oc

theorem DimLayouts.symm {d : ℕ} {ic oc : List Chunk} (h : DimLayouts d ic oc) :
    DimLayouts d oc ic where
  ids_input := h.ids_output
  ids_output := h.ids_input
  prod_eq := h.prod_eq.symm
  prod_pos := h.prod_eq ▸ h.prod_pos
  divide := h.divide.symm

/-- What is left of two layouts after equal outermost entries. -/
theorem DimLayouts.tails {d : ℕ} {i o : Chunk} {ic oc : List Chunk}
    (h : DimLayouts d (i :: ic) (o :: oc)) (hn : i.n = o.n) : DimLayouts d ic oc where
  ids_input := fun c hc => h.ids_input c (List.mem_cons_of_mem _ hc)
  ids_output := fun c hc => h.ids_output c (List.mem_cons_of_mem _ hc)
  prod_eq := by
    have hprod := h.prod_eq
    have hpos := h.prod_pos
    rw [chunkProd_cons] at hpos
    rw [chunkProd_cons, chunkProd_cons, ← hn] at hprod
    exact Nat.eq_of_mul_eq_mul_left (Nat.pos_of_mul_pos_right hpos) hprod
  prod_pos := by
    have hpos := h.prod_pos
    rw [chunkProd_cons] at hpos
    exact Nat.pos_of_mul_pos_left hpos
  divide := h.divide.mono (List.tail_suffix _) (List.tail_suffix _)

theorem DimLayouts.dvd_head {d : ℕ} {i o : Chunk} {ic oc : List Chunk}
    (h : DimLayouts d (i :: ic) (o :: oc)) (hlt : i.n < o.n) : o.n = i.n * (o.n / i.n) := by
  have hprod := h.prod_eq
  have hpos := h.prod_pos
  rw [chunkProd_cons] at hpos
  rw [chunkProd_cons, chunkProd_cons] at hprod
  exact (Nat.mul_div_cancel' (h.divide.dvd_head hprod hpos hlt)).symm

/-- What is left of two layouts after the outermost entry of the output is split. -/
theorem DimLayouts.splitOutput {d : ℕ} {i o : Chunk} {ic oc : List Chunk}
    (h : DimLayouts d (i :: ic) (o :: oc)) (hlt : i.n < o.n) :
    DimLayouts d ic ({ o with n := o.n / i.n } :: oc) where
  ids_input := fun c hc => h.ids_input c (List.mem_cons_of_mem _ hc)
  ids_output := by
    intro c hc
    rcases List.mem_cons.mp hc with rfl | hc
    · exact h.ids_output o List.mem_cons_self
    · exact h.ids_output c (List.mem_cons_of_mem _ hc)
  prod_eq := chunkProd_split (h.dvd_head hlt) h.prod_eq h.prod_pos
  prod_pos := by
    have hpos := h.prod_pos
    rw [chunkProd_cons] at hpos
    exact Nat.pos_of_mul_pos_left hpos
  divide := h.divide.mono (List.tail_suffix _) (List.suffix_refl _)

/-! ## The visits of the merged layouts -/

/-- The loop of one node around the others. -/
theorem loopVisits_cons (nd : Node) (nds : List Node) :
    loopVisits (nd :: nds) =
      nestVisits nd.n (fun i => i • (nd.is, nd.os, nd.ss)) (loopVisits nds) := by
  rw [loopVisits, nestVisits]
  refine List.flatMap_congr fun i _ => List.map_congr_left fun v _ => ?_
  rw [Prod.smul_mk, Prod.smul_mk, nsmul_eq_mul, nsmul_eq_mul, nsmul_eq_mul]
  rfl

/-- What the merge loop leaves out at the end of both layouts are entries of one iteration. -/
theorem mergeLayouts_nil_left (steps ndims : ℕ) (ol : List (Chunk × ℤ)) :
    mergeLayouts steps ndims [] ol = .ok [] := by
  cases steps <;> rfl

theorem mergeLayouts_nil_right (steps ndims : ℕ) (il : List Chunk) :
    mergeLayouts steps ndims il [] = .ok [] := by
  cases steps <;> cases il <;> rfl

/-- One step of the merge loop. -/
theorem mergeLayouts_cases {steps ndims : ℕ} {i o : Chunk} {ss : ℤ} {il : List Chunk}
    {ol : List (Chunk × ℤ)} {nodes : List Node}
    (h : mergeLayouts (steps + 1) ndims (i :: il) ((o, ss) :: ol) = .ok nodes) :
    i.id = o.id ∧
    ((i.n = o.n ∧ ∃ nodes', mergeLayouts steps (ndims + 1) il ol = .ok nodes' ∧
        nodes = ⟨i.n, i.stride, o.stride, ss⟩ :: nodes') ∨
      (i.n < o.n ∧ ∃ nodes', mergeLayouts steps (ndims + 1) il
          (({ o with n := o.n / i.n }, ss) :: ol) = .ok nodes' ∧
        nodes = ⟨i.n, i.stride, o.stride * (o.n / i.n : ℕ), ss * (o.n / i.n : ℕ)⟩ :: nodes') ∨
      (o.n < i.n ∧ ∃ nodes', mergeLayouts steps (ndims + 1) ({ i with n := i.n / o.n } :: il) ol =
          .ok nodes' ∧
        nodes = ⟨o.n, i.stride * (i.n / o.n : ℕ), o.stride, ss⟩ :: nodes')) := by
  have hbind : ∀ {x : Except PrbError (List Node)} {nd : Node},
      (do let nodes ← x; return nd :: nodes) = Except.ok nodes →
        ∃ nodes', x = .ok nodes' ∧ nodes = nd :: nodes' := by
    intro x nd hx
    cases x with
    | error e => cases hx
    | ok nodes' => exact ⟨nodes', rfl, (Except.ok.inj hx).symm⟩
  unfold mergeLayouts at h
  dsimp only at h
  split_ifs at h with hid hmax heq hlt
  · exact ⟨not_not.mp hid, Or.inl ⟨heq, hbind h⟩⟩
  · exact ⟨not_not.mp hid, Or.inr (Or.inl ⟨hlt, hbind h⟩)⟩
  · exact ⟨not_not.mp hid, Or.inr (Or.inr ⟨by omega, hbind h⟩)⟩

/-- The layouts of the dimensions `ds` that the merge loop has still to reach. -/
structure LayoutsAhead (I O : ℕ → List Chunk) (ds : List ℕ) : Prop where
  layouts : ∀ e ∈ ds, DimLayouts e (I e) (O e)
  input_ne_nil : ∀ e ∈ ds, I e ≠ []
  output_ne_nil : ∀ e ∈ ds, O e ≠ []

theorem LayoutsAhead.tail {I O : ℕ → List Chunk} {e : ℕ} {ds : List ℕ}
    (h : LayoutsAhead I O (e :: ds)) : LayoutsAhead I O ds where
  layouts := fun e he => h.layouts e (List.mem_cons_of_mem _ he)
  input_ne_nil := fun e he => h.input_ne_nil e (List.mem_cons_of_mem _ he)
  output_ne_nil := fun e he => h.output_ne_nil e (List.mem_cons_of_mem _ he)

/-- The next entry of the input belongs to one of the dimensions ahead. -/
theorem LayoutsAhead.next_input {I O : ℕ → List Chunk} {ds : List ℕ} (h : LayoutsAhead I O ds)
    (hne : ds ≠ []) : ∃ i il, ds.flatMap I = i :: il ∧ i.id ∈ ds := by
  cases ds with
  | nil => exact absurd rfl hne
  | cons e ds =>
    obtain ⟨i, ic, hI⟩ := List.exists_cons_of_ne_nil (h.input_ne_nil e List.mem_cons_self)
    refine ⟨i, ic ++ ds.flatMap I, by rw [List.flatMap_cons, hI, List.cons_append], ?_⟩
    have hid := (h.layouts e List.mem_cons_self).ids_input i (hI ▸ List.mem_cons_self)
    exact hid ▸ List.mem_cons_self

/-- The next entry of the output belongs to one of the dimensions ahead. -/
theorem LayoutsAhead.next_output {I O : ℕ → List Chunk} {ds : List ℕ} (h : LayoutsAhead I O ds)
    (hne : ds ≠ []) : ∃ o ol, ds.flatMap O = o :: ol ∧ o.id ∈ ds := by
  cases ds with
  | nil => exact absurd rfl hne
  | cons e ds =>
    obtain ⟨o, oc, hO⟩ := List.exists_cons_of_ne_nil (h.output_ne_nil e List.mem_cons_self)
    refine ⟨o, oc ++ ds.flatMap O, by rw [List.flatMap_cons, hO, List.cons_append], ?_⟩
    have hid := (h.layouts e List.mem_cons_self).ids_output o (hO ▸ List.mem_cons_self)
    exact hid ▸ List.mem_cons_self

/-- The merge loop inside of dimension `d`, with the entries `ic` and `oc` left of it: its nodes run
through the coordinates of these entries and inside of them through the dimensions ahead. -/
theorem mergeLayouts_dim {I : ℕ → List Chunk} {O : ℕ → List (Chunk × ℤ)} {ds : List ℕ} {d : ℕ}
    {R : List (ℤ × ℤ × ℤ)} (hahead : LayoutsAhead I (fun e => (O e).map Prod.fst) ds) (hd : d ∉ ds)
    (hnext : ∀ {steps ndims : ℕ} {nodes : List Node},
      (ds.flatMap I).length + (ds.flatMap O).length ≤ steps →
      mergeLayouts steps ndims (ds.flatMap I) (ds.flatMap O) = .ok nodes → loopVisits nodes = R)
    (hend : ds = [] → R = [0]) :
    ∀ {steps ndims : ℕ} {ic : List Chunk} {oc : List (Chunk × ℤ)} {nodes : List Node},
      DimLayouts d ic (oc.map Prod.fst) →
      (ic ++ ds.flatMap I).length + (oc ++ ds.flatMap O).length ≤ steps →
      mergeLayouts steps ndims (ic ++ ds.flatMap I) (oc ++ ds.flatMap O) = .ok nodes →
      loopVisits nodes = nestVisits (chunkProd ic) (tripleVal ic oc) R := by
  intro steps
  induction steps with
  | zero =>
    intro ndims ic oc nodes hdim hlen h
    have hic : ic = [] := List.eq_nil_of_length_eq_zero (by rw [List.length_append] at hlen; omega)
    have hoc : oc = [] := by
      refine List.eq_nil_of_length_eq_zero ?_
      rw [List.length_append, List.length_append] at hlen
      omega
    subst hic hoc
    rw [chunkProd_nil, nestVisits_one (tripleVal_zero _ _)]
    exact hnext hlen h
  | succ steps ih =>
    intro ndims ic oc nodes hdim hlen h
    match ic, oc with
    | [], [] =>
      rw [chunkProd_nil, nestVisits_one (tripleVal_zero _ _)]
      exact hnext hlen h
    | [], (o, ss) :: oc =>
      -- the output has entries of one iteration left, which is fine after the last dimension only
      rw [chunkProd_nil, nestVisits_one (tripleVal_zero _ _)]
      rcases eq_or_ne ds [] with hds | hds
      · subst hds
        rw [List.flatMap_nil, List.append_nil, mergeLayouts_nil_left] at h
        cases h
        exact (hend rfl).symm
      · obtain ⟨i, il, hil, hi⟩ := hahead.next_input hds
        rw [List.nil_append, hil, List.cons_append] at h
        have hid : i.id = o.id := (mergeLayouts_cases h).1
        have ho : o.id = d := hdim.ids_output o List.mem_cons_self
        exact absurd (ho ▸ hid ▸ hi) hd
    | i :: ic, [] =>
      rw [hdim.prod_eq, List.map_nil, chunkProd_nil, nestVisits_one (tripleVal_zero _ _)]
      rcases eq_or_ne ds [] with hds | hds
      · subst hds
        rw [List.flatMap_nil, List.flatMap_nil, List.nil_append, mergeLayouts_nil_right] at h
        cases h
        exact (hend rfl).symm
      · obtain ⟨o, ol, hol, ho⟩ := hahead.next_output hds
        rw [← List.map_flatMap] at hol
        obtain ⟨⟨o', ss⟩, ol', hol', rfl, -⟩ := List.map_eq_cons_iff.mp hol
        rw [List.nil_append, List.cons_append, hol'] at h
        have hid : i.id = o'.id := (mergeLayouts_cases h).1
        have hi : i.id = d := hdim.ids_input i List.mem_cons_self
        exact absurd (hi ▸ hid ▸ ho) hd
    | i :: ic, (o, ss) :: oc =>
      rw [List.cons_append, List.cons_append] at h
      simp only [List.cons_append, List.length_cons] at hlen
      obtain ⟨-, ⟨hn, nodes', h', rfl⟩ | ⟨hlt, nodes', h', rfl⟩ | ⟨hlt, nodes', h', rfl⟩⟩ :=
        mergeLayouts_cases h
      · have hrest := ih (hdim.tails hn) (by omega) h'
        rw [loopVisits_cons, hrest, chunkProd_cons]
        exact (nestVisits_mul fun q _ r hr =>
          tripleVal_equal hdim.prod_eq hdim.prod_pos hn hr).symm
      · have hdim' : DimLayouts d ic ((({ o with n := o.n / i.n }, ss) :: oc).map Prod.fst) :=
          hdim.splitOutput hlt
        have hrest := ih hdim' (by simp only [List.cons_append, List.length_cons]; omega) h'
        rw [loopVisits_cons, hrest, chunkProd_cons]
        exact (nestVisits_mul fun q _ r hr =>
          tripleVal_split_output hdim.prod_eq hdim.prod_pos (hdim.dvd_head hlt) hr).symm
      · have hdim' := (hdim.symm.splitOutput hlt).symm
        have hrest := ih hdim' (by simp only [List.cons_append, List.length_cons]; omega) h'
        rw [loopVisits_cons, hrest, hdim'.prod_eq, hdim.prod_eq, List.map_cons, chunkProd_cons]
        exact (nestVisits_mul fun q _ r hr =>
          tripleVal_split_input hdim.prod_eq hdim.prod_pos (hdim.symm.dvd_head hlt) hr).symm

/-- The nest of one loop over the coordinates of each of the dimensions `ds`. -/
def dimVisits (I : ℕ → List Chunk) (O : ℕ → List (Chunk × ℤ)) (ds : List ℕ) : List (ℤ × ℤ × ℤ) :=
  ds.foldr (fun d => nestVisits (chunkProd (I d)) (tripleVal (I d) (O d))) [0]

/-- The merge loop on the layouts of the dimensions `ds`: its nodes run through their coordinates. -/
theorem mergeLayouts_visits {I : ℕ → List Chunk} {O : ℕ → List (Chunk × ℤ)} {ds : List ℕ}
    (hahead : LayoutsAhead I (fun e => (O e).map Prod.fst) ds) (hnd : ds.Nodup) :
    ∀ {steps ndims : ℕ} {nodes : List Node},
      (ds.flatMap I).length + (ds.flatMap O).length ≤ steps →
      mergeLayouts steps ndims (ds.flatMap I) (ds.flatMap O) = .ok nodes →
      loopVisits nodes = dimVisits I O ds := by
  induction ds with
  | nil =>
    intro steps ndims nodes _ h
    rw [List.flatMap_nil, mergeLayouts_nil_left] at h
    cases h
    rfl
  | cons d ds ih =>
    intro steps ndims nodes hlen h
    obtain ⟨hd, hnd⟩ := List.nodup_cons.mp hnd
    rw [List.flatMap_cons, List.flatMap_cons] at hlen h
    have hend : ds = [] → dimVisits I O ds = [0] := by
      rintro rfl
      rfl
    exact mergeLayouts_dim hahead.tail hd (ih hahead.tail hnd) hend
      (hahead.layouts d List.mem_cons_self) hlen h

end MklDnn
