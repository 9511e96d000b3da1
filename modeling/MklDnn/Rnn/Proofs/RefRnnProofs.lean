import MklDnn.Common.Proofs.ParallelLoopsProofs
import MklDnn.Common.Proofs.UtilsProofs
import MklDnn.Rnn.RefRnn

/-!
# Proofs: the cells of an RNN

Every cell computes the next states of the samples from the states below and from the states before, and changes nothing else
but its gates and its own part of the grid.
-/

open Interleaving MixedRadix

namespace MklDnn.RefRnn

/-! ## Leading dimensions -/

theorem le_getGoodLd {dim sizeofDt : ℕ} (h : 0 < 64 / sizeofDt) : dim ≤ getGoodLd dim sizeofDt := by
  have hle : dim ≤ rndUp dim (64 / sizeofDt) := le_rndUp h
  unfold getGoodLd
  dsimp only
  split_ifs
  · exact hle.trans (Nat.le_add_right _ _)
  · exact hle

namespace RnnConf

variable (rnn : RnnConf)

theorem slc_le_statesWsLd : rnn.slc ≤ rnn.statesWsLd :=
  (Nat.le_max_left _ _).trans (le_getGoodLd (by decide))

theorem sic_le_statesWsLd : rnn.sic ≤ rnn.statesWsLd :=
  ((Nat.le_max_left _ _).trans (Nat.le_max_right _ _)).trans (le_getGoodLd (by decide))

theorem dic_le_statesWsLd : rnn.dic ≤ rnn.statesWsLd :=
  ((Nat.le_max_right _ _).trans (Nat.le_max_right _ _)).trans (le_getGoodLd (by decide))

theorem le_gatesWsLd : rnn.nGates * rnn.dic ≤ rnn.gatesWsLd := by
  rw [Nat.mul_comm]
  exact le_getGoodLd (by decide)

theorem nGates_lstm {rnn : RnnConf} (hk : rnn.cellKind = .vanillaLstm) : rnn.nGates = 4 := by
  simp [nGates, hk]

theorem nGates_gru {rnn : RnnConf} (hk : rnn.cellKind = .vanillaGru) : rnn.nGates = 3 := by
  simp [nGates, hk]

theorem nGates_lbrGru {rnn : RnnConf} (hk : rnn.cellKind = .lbrGru) : rnn.nGates = 3 := by
  simp [nGates, hk]

theorem gate_lt {g j : ℕ} (hg : g < rnn.nGates) (hj : j < rnn.dic) : g * rnn.dic + j < rnn.gatesWsLd := by
  have hlt : j + g * rnn.dic < rnn.nGates * rnn.dic := add_mul_lt hj hg
  have hle := rnn.le_gatesWsLd
  omega

end RnnConf

section Phases

variable {R : Type*} [CommRing R] {mem mem' : Elem → R}

/-- Nothing but `W` is changed. -/
def Kept (W : Elem → Prop) (mem mem' : Elem → R) : Prop := ∀ a, ¬ W a → mem' a = mem a

omit [CommRing R] in
theorem Kept.refl (W : Elem → Prop) (mem : Elem → R) : Kept W mem mem := fun _ _ => rfl

omit [CommRing R] in
theorem Kept.trans {W : Elem → Prop} {mem'' : Elem → R} (h : Kept W mem mem') (h' : Kept W mem' mem'') : Kept W mem mem'' :=
  fun a ha => (h' a ha).trans (h a ha)

omit [CommRing R] in
theorem Kept.mono {W W' : Elem → Prop} (h : Kept W mem mem') (hsub : ∀ a, W a → W' a) : Kept W' mem mem' :=
  fun a ha => h a fun hW => ha (hsub a hW)

/-! ## Products -/

/-- What a product leaves. -/
theorem gemm_step {m n k lda ldb ldc : ℕ} {a : ℕ → R} {b c : ℕ → Elem} {beta : R} (hm : m ≤ ldc) (hc : Function.Injective c)
    (hbc : ∀ x y, b x ≠ c y) (hstep : (gemm m n k a lda b ldb beta c ldc).Step mem mem') :
    (∀ j < n, ∀ i < m, mem' (c (j * ldc + i)) =
      beta * mem (c (j * ldc + i)) + ((List.range k).map fun p => a (i + p * lda) * mem (b (j * ldb + p))).sum) ∧
    Kept (fun e => ∃ j < n, ∃ i < m, e = c (j * ldc + i)) mem mem' := by
  set entry : ℕ × ℕ → Assign Elem R := fun x => ⟨c (x.2 + x.1 * ldc), fun mem => beta * mem (c (x.2 + x.1 * ldc)) +
    ((List.range k).map fun p => a (x.2 + p * lda) * mem (b (p + x.1 * ldb))).sum⟩ with hentry
  have hprog : (List.range n).flatMap (fun j => (List.range m).map fun i => entry (j, i)) = (List.range n ×ˢ List.range m).map entry := by
    simp only [SProd.sprod, List.product, List.map_flatMap, List.map_map, Function.comp_def]
  have hmem : ∀ {x : ℕ × ℕ}, x ∈ List.range n ×ˢ List.range m ↔ x.1 < n ∧ x.2 < m :=
    List.pair_mem_product.trans (and_congr List.mem_range List.mem_range)
  have hexec : mem' = execAll ((List.range n ×ˢ List.range m).map entry) mem := by
    rw [← hprog]
    exact hstep.of_serial
  have hnd : (((List.range n ×ˢ List.range m).map entry).map Assign.dst).Nodup := by
    rw [List.map_map]
    refine (List.nodup_range.product List.nodup_range).map_on fun x hx y hy heq => ?_
    have hxy := add_mul_inj (lt_of_lt_of_le (hmem.mp hx).2 hm) (lt_of_lt_of_le (hmem.mp hy).2 hm) (hc heq)
    exact Prod.ext hxy.2 hxy.1
  have hreads : ∀ e ∈ (List.range n ×ˢ List.range m).map entry, ∀ m₁ m₂ : Elem → R,
      (∀ e', (e' = e.dst ∨ ∀ x ∈ (List.range n ×ˢ List.range m).map entry, x.dst ≠ e') → m₁ e' = m₂ e') → e.value m₁ = e.value m₂ := by
    intro e he m₁ m₂ hm
    obtain ⟨x, hx, rfl⟩ := List.mem_map.mp he
    have hb : ∀ z, m₁ (b z) = m₂ (b z) := by
      intro z
      refine hm _ (Or.inr fun y hy heq => ?_)
      obtain ⟨y, hy, rfl⟩ := List.mem_map.mp hy
      exact hbc z _ heq.symm
    have hself : m₁ (c (x.2 + x.1 * ldc)) = m₂ (c (x.2 + x.1 * ldc)) := hm _ (Or.inl rfl)
    simp only [hentry, hself, hb]
  subst hexec
  constructor
  · intro j hj i hi
    have hx : (j, i) ∈ List.range n ×ˢ List.range m := hmem.mpr ⟨hj, hi⟩
    simp only [Nat.add_comm (j * ldc), Nat.add_comm (j * ldb)]
    exact execAll_of_nodup_of_reads hnd hreads (List.mem_map_of_mem hx) mem
  · intro e he
    apply execAll_of_ne
    intro x hx heq
    obtain ⟨y, hy, rfl⟩ := List.mem_map.mp hx
    refine he ⟨y.1, (hmem.mp hy).1, y.2, (hmem.mp hy).2, ?_⟩
    rw [Nat.add_comm]
    exact heq.symm

/-! ## Post-operations -/

section Postgemm

variable {args : ExecArgs R} {ptrs : CellPtrs R} {i j i' j' : ℕ} {a : Elem}

/-- What a post-operation assigns to for the element `j` of the sample `i`. -/
def Own (args : ExecArgs R) (ptrs : CellPtrs R) (i j : ℕ) : Elem → Prop
  | .wsGates x => ∃ g < args.rnn.nGates, x = ptrs.wsGates + (i * args.rnn.gatesWsLd + (g * args.rnn.dic + j))
  | .wsStates x => x = ptrs.statesTL + (i * args.rnn.statesWsLd + j)
  | .wsCStates x => args.rnn.cellKind = .vanillaLstm ∧ x = ptrs.cStatesTL + (i * args.rnn.statesWsLd + j)
  | .wsGrid x => (args.rnn.cellKind = .lbrGru ∧ args.rnn.isTraining = true) ∧ x = ptrs.wsGrid + (i * args.rnn.dic + j)
  | _ => False

/-- What a post-operation reads for the element but does not assign to. -/
def Reads (args : ExecArgs R) (ptrs : CellPtrs R) (i j : ℕ) (a : Elem) : Prop :=
  a = stateTm1L args ptrs i j ∨ (args.rnn.cellKind = .vanillaLstm ∧ a = cStateTm1L args ptrs i j) ∨
    (args.rnn.cellKind = .lbrGru ∧ ∃ g < args.rnn.nGates, a = gemmState args i g j)

/-- The states before the cell are not those that it computes. -/
structure Separate (args : ExecArgs R) (ptrs : CellPtrs R) : Prop where
  states : ∀ i < args.rnn.mb, ∀ j < args.rnn.dic, ∀ i' < args.rnn.mb, ∀ j' < args.rnn.dic,
    ptrs.statesTm1L + (i * args.rnn.statesWsLd + j) ≠ ptrs.statesTL + (i' * args.rnn.statesWsLd + j')
  cStates : ∀ i < args.rnn.mb, ∀ j < args.rnn.dic, ∀ i' < args.rnn.mb, ∀ j' < args.rnn.dic,
    ptrs.cStatesTm1L + (i * args.rnn.statesWsLd + j) ≠ ptrs.cStatesTL + (i' * args.rnn.statesWsLd + j')

/-- Two memories agree on what a post-operation accesses for the element. -/
def Agree (args : ExecArgs R) (ptrs : CellPtrs R) (i j : ℕ) (mem mem' : Elem → R) : Prop :=
  ∀ a, Own args ptrs i j a ∨ Reads args ptrs i j a → mem a = mem' a

/-- An assignment of a post-operation for one element. -/
structure PostOp (args : ExecArgs R) (ptrs : CellPtrs R) (i j : ℕ) (e : Assign Elem R) : Prop where
  dst : Own args ptrs i j e.dst
  reads : ∀ mem mem', Agree args ptrs i j mem mem' → e.value mem = e.value mem'

omit [CommRing R] in
theorem Own.inj (hj : j < args.rnn.dic) (hj' : j' < args.rnn.dic) (h : Own args ptrs i j a) (h' : Own args ptrs i' j' a) :
    i = i' ∧ j = j' := by
  have hld := args.rnn.dic_le_statesWsLd
  cases a with
  | wsGates x =>
    obtain ⟨g, hg, rfl⟩ := h
    obtain ⟨g', hg', heq⟩ := h'
    obtain ⟨hi, hrow⟩ := mul_add_inj (args.rnn.gate_lt hg hj) (args.rnn.gate_lt hg' hj') (Nat.add_left_cancel heq)
    exact ⟨hi, (mul_add_inj hj hj' hrow).2⟩
  | wsStates x => exact mul_add_inj (hj.trans_le hld) (hj'.trans_le hld) (Nat.add_left_cancel (h.symm.trans h'))
  | wsCStates x => exact mul_add_inj (hj.trans_le hld) (hj'.trans_le hld) (Nat.add_left_cancel (h.2.symm.trans h'.2))
  | wsGrid x => exact mul_add_inj hj hj' (Nat.add_left_cancel (h.2.symm.trans h'.2))
  | _ => cases h

omit [CommRing R] in
theorem Separate.not_own (hsep : Separate args ptrs) (hi : i < args.rnn.mb) (hj : j < args.rnn.dic) (hi' : i' < args.rnn.mb)
    (hj' : j' < args.rnn.dic) (h : Reads args ptrs i j a) : ¬ Own args ptrs i' j' a := by
  rcases h with rfl | ⟨-, rfl⟩ | ⟨-, g, -, rfl⟩
  · exact hsep.states i hi j hj i' hi' j' hj'
  · exact fun h => hsep.cStates i hi j hj i' hi' j' hj' h.2
  · exact id

omit [CommRing R] in
/-- What a post-operation leaves. -/
theorem postgemm_step {body : ℕ → ℕ → List (Assign Elem R)} (hsep : Separate args ptrs)
    (hbody : ∀ i j, ∀ e ∈ body i j, PostOp args ptrs i j e) (hstep : (postgemm args body).Step mem mem') :
    (∀ i < args.rnn.mb, ∀ j < args.rnn.dic, ∀ a, Own args ptrs i j a → mem' a = execAll (body i j) mem a) ∧
    Kept (fun a => ∃ i < args.rnn.mb, ∃ j < args.rnn.dic, Own args ptrs i j a) mem mem' := by
  have hind : Independent {x : List ℕ × ℕ | x.1 ∈ digits [args.rnn.mb] ∧ x.2 < args.rnn.dic}
      (fun x => {a | Own args ptrs (x.1.getD 0 0) x.2 a}) fun x => body (x.1.getD 0 0) x.2 := by
    constructor
    · rintro ⟨idx, j⟩ ⟨hidx, hj⟩ ⟨idx', j'⟩ ⟨hidx', hj'⟩ hne a ha ha'
      obtain ⟨i, -, rfl⟩ := digits_singleton.mp hidx
      obtain ⟨i', -, rfl⟩ := digits_singleton.mp hidx'
      obtain ⟨hi, hjj⟩ := Own.inj hj hj' ha ha'
      exact hne (Prod.ext (congrArg (fun i => [i]) hi) hjj)
    · exact fun x _ e he => (hbody _ _ e he).dst
    · rintro ⟨idx, j⟩ ⟨hidx, hj⟩ e he m m' hm
      obtain ⟨i, hi, rfl⟩ := digits_singleton.mp hidx
      refine (hbody i j e he).reads m m' fun a ha => hm a ?_
      rintro ⟨idx', j'⟩ ⟨hidx', hj'⟩ hne hown
      obtain ⟨i', hi', rfl⟩ := digits_singleton.mp hidx'
      rcases ha with ha | ha
      · obtain ⟨hi, hjj⟩ := Own.inj hj hj' ha hown
        exact hne (Prod.ext (congrArg (fun i => [i]) hi.symm) hjj.symm)
      · exact hsep.not_own hi hj hi' hj' ha hown
  constructor
  · intro i hi j hj a ha
    have hx : [i] ∈ digits [args.rnn.mb] ∧ j < args.rnn.dic := ⟨digits_singleton.mpr ⟨i, hi, rfl⟩, hj⟩
    exact hstep.of_nested hind (x := ([i], j)) hx ha
  · intro a ha
    apply hstep.of_ne
    intro idx hidx e he heq
    obtain ⟨i, hi, rfl⟩ := digits_singleton.mp hidx
    obtain ⟨j, hj, he⟩ := List.mem_flatMap.mp he
    exact ha ⟨i, hi, j, List.mem_range.mp hj, heq ▸ (hbody i j e he).dst⟩

omit [CommRing R] in
theorem own_gate {g : ℕ} (hg : g < args.rnn.nGates) : Own args ptrs i j (gate args ptrs i g j) := ⟨g, hg, rfl⟩

omit [CommRing R] in
theorem own_stateTL : Own args ptrs i j (stateTL args ptrs i j) := rfl

omit [CommRing R] in
theorem own_cStateTL (hk : args.rnn.cellKind = .vanillaLstm) : Own args ptrs i j (cStateTL args ptrs i j) := ⟨hk, rfl⟩

omit [CommRing R] in
/-- The gates of an element are different. -/
theorem gate_inj (hdic : 0 < args.rnn.dic) {g g' : ℕ} : gate args ptrs i g j = gate args ptrs i g' j ↔ g = g' := by
  constructor
  · intro h
    have hrow := Nat.add_left_cancel (Nat.add_left_cancel (Elem.wsGates.inj h))
    exact Nat.eq_of_mul_eq_mul_right hdic (Nat.add_right_cancel hrow)
  · rintro rfl
    rfl

section Agree

variable (h : Agree args ptrs i j mem mem')
include h

omit [CommRing R] in
theorem Agree.gate {g : ℕ} (hg : g < args.rnn.nGates) : mem (gate args ptrs i g j) = mem' (gate args ptrs i g j) :=
  h _ (Or.inl (own_gate hg))

omit [CommRing R] in
theorem Agree.stateTL : mem (stateTL args ptrs i j) = mem' (stateTL args ptrs i j) := h _ (Or.inl own_stateTL)

omit [CommRing R] in
theorem Agree.stateTm1L : mem (stateTm1L args ptrs i j) = mem' (stateTm1L args ptrs i j) := h _ (Or.inr (Or.inl rfl))

omit [CommRing R] in
theorem Agree.cStateTm1L (hk : args.rnn.cellKind = .vanillaLstm) :
    mem (cStateTm1L args ptrs i j) = mem' (cStateTm1L args ptrs i j) :=
  h _ (Or.inr (Or.inr (Or.inl ⟨hk, rfl⟩)))

omit [CommRing R] in
theorem Agree.gemmState (hk : args.rnn.cellKind = .lbrGru) {g : ℕ} (hg : g < args.rnn.nGates) :
    mem (gemmState args i g j) = mem' (gemmState args i g j) :=
  h _ (Or.inr (Or.inr (Or.inr ⟨hk, g, hg, rfl⟩)))

end Agree

theorem activate_postOp {g : ℕ} (hg : g < args.rnn.nGates) : PostOp args ptrs i j (activate args ptrs i g j) where
  dst := own_gate hg
  reads := by
    intro m m' hm
    dsimp only [activate]
    rw [hm.gate hg]

theorem gruState_postOp (hgates : args.rnn.nGates = 3) : PostOp args ptrs i j (gruState args ptrs i j) where
  dst := rfl
  reads := by
    intro m m' hm
    dsimp only [gruState]
    rw [hm.gate (by omega : 0 < args.rnn.nGates), hm.gate (by omega : 2 < args.rnn.nGates), hm.stateTm1L]

theorem rnnPostgemm_postOp (hgates : args.rnn.nGates = 1) (i j : ℕ) : ∀ e ∈ rnnPostgemm args ptrs i j, PostOp args ptrs i j e := by
  have hgate : 0 < args.rnn.nGates := by omega
  simp only [rnnPostgemm, List.forall_mem_cons]
  refine ⟨⟨rfl, fun m m' hm => ?_⟩, ⟨own_gate hgate, fun m m' hm => hm.stateTL⟩, nofun⟩
  dsimp only
  rw [hm.gate hgate]

theorem lstmPostgemm_postOp (hk : args.rnn.cellKind = .vanillaLstm) (i j : ℕ) :
    ∀ e ∈ lstmPostgemm args ptrs i j, PostOp args ptrs i j e := by
  have hgate : ∀ g < 4, g < args.rnn.nGates := fun g hg => RnnConf.nGates_lstm hk ▸ hg
  simp only [lstmPostgemm, List.forall_mem_cons]
  refine ⟨activate_postOp (hgate 0 (by omega)), activate_postOp (hgate 1 (by omega)), activate_postOp (hgate 2 (by omega)),
    activate_postOp (hgate 3 (by omega)), ⟨rfl, fun m m' hm => ?_⟩, ⟨own_cStateTL hk, fun m m' hm => ?_⟩, nofun⟩
  · dsimp only
    rw [hm.gate (hgate 0 (by omega)), hm.gate (hgate 1 (by omega)), hm.gate (hgate 2 (by omega)), hm.gate (hgate 3 (by omega)),
      hm.cStateTm1L hk]
  · dsimp only
    rw [hm.gate (hgate 0 (by omega)), hm.gate (hgate 1 (by omega)), hm.gate (hgate 2 (by omega)), hm.cStateTm1L hk]

theorem gruPart1Postgemm_postOp (hgates : args.rnn.nGates = 3) (i j : ℕ) :
    ∀ e ∈ gruPart1Postgemm args ptrs i j, PostOp args ptrs i j e := by
  simp only [gruPart1Postgemm, List.forall_mem_cons]
  refine ⟨activate_postOp (by omega), activate_postOp (by omega), ⟨rfl, fun m m' hm => ?_⟩, nofun⟩
  dsimp only
  rw [hm.stateTm1L, hm.gate (by omega : 1 < args.rnn.nGates)]

theorem gruPart2Postgemm_postOp (hgates : args.rnn.nGates = 3) (i j : ℕ) :
    ∀ e ∈ gruPart2Postgemm args ptrs i j, PostOp args ptrs i j e := by
  simp only [gruPart2Postgemm, List.forall_mem_cons]
  exact ⟨activate_postOp (by omega), gruState_postOp hgates, nofun⟩

theorem gruLbrPostgemm_postOp (hk : args.rnn.cellKind = .lbrGru) (i j : ℕ) :
    ∀ e ∈ gruLbrPostgemm args ptrs i j, PostOp args ptrs i j e := by
  have hgate : ∀ g < 3, g < args.rnn.nGates := fun g hg => RnnConf.nGates_lbrGru hk ▸ hg
  simp only [gruLbrPostgemm, List.forall_mem_append, List.forall_mem_cons]
  refine ⟨⟨⟨own_gate (hgate 0 (by omega)), fun m m' hm => ?_⟩, ⟨own_gate (hgate 1 (by omega)), fun m m' hm => ?_⟩,
    ⟨own_gate (hgate 2 (by omega)), fun m m' hm => ?_⟩, gruState_postOp (RnnConf.nGates_lbrGru hk), nofun⟩, fun e he => ?_⟩
  · dsimp only
    rw [hm.gate (hgate 0 (by omega)), hm.gemmState hk (hgate 0 (by omega))]
  · dsimp only
    rw [hm.gate (hgate 1 (by omega)), hm.gemmState hk (hgate 1 (by omega))]
  · dsimp only
    rw [hm.gate (hgate 1 (by omega)), hm.gate (hgate 2 (by omega)), hm.gemmState hk (hgate 2 (by omega))]
  · split_ifs at he with htraining
    · obtain rfl := List.mem_singleton.mp he
      refine ⟨⟨⟨hk, htraining⟩, rfl⟩, fun m m' hm => ?_⟩
      dsimp only
      rw [hm.gemmState hk (hgate 2 (by omega))]
    · cases he

/-! The states that the post-operations leave -/

omit [CommRing R] in
@[simp] theorem gate_ne_wsStates {g x : ℕ} : gate args ptrs i g j ≠ .wsStates x := nofun

omit [CommRing R] in
@[simp] theorem wsStates_ne_gate {g x : ℕ} : .wsStates x ≠ gate args ptrs i g j := nofun

omit [CommRing R] in
@[simp] theorem wsCStates_ne_gate {g x : ℕ} : .wsCStates x ≠ gate args ptrs i g j := nofun

omit [CommRing R] in
@[simp] theorem wsCell_ne_gate {g x : ℕ} : .wsCell x ≠ gate args ptrs i g j := nofun

theorem execAll_rnnPostgemm : execAll (rnnPostgemm args ptrs i j) mem (stateTL args ptrs i j) =
    args.gateAct 0 (mem (gate args ptrs i 0 j) + biasOf args ptrs 0 j) := by
  simp [rnnPostgemm, Assign.exec, stateTL]

theorem execAll_lstmPostgemm (hdic : 0 < args.rnn.dic) :
    let G := fun g => args.gateAct g (mem (gate args ptrs i g j) + biasOf args ptrs g j)
    let c := G 1 * mem (cStateTm1L args ptrs i j) + G 0 * G 2
    execAll (lstmPostgemm args ptrs i j) mem (stateTL args ptrs i j) = G 3 * args.cellAct c ∧
      execAll (lstmPostgemm args ptrs i j) mem (cStateTL args ptrs i j) = c := by
  constructor <;>
    simp [lstmPostgemm, activate, Assign.exec, gate_inj hdic, stateTL, cStateTL, cStateTm1L]

theorem execAll_gruPart1Postgemm (hdic : 0 < args.rnn.dic) :
    let G := fun g => args.gateAct g (mem (gate args ptrs i g j) + biasOf args ptrs g j)
    execAll (gruPart1Postgemm args ptrs i j) mem (gate args ptrs i 0 j) = G 0 ∧
      execAll (gruPart1Postgemm args ptrs i j) mem (gate args ptrs i 2 j) = mem (gate args ptrs i 2 j) ∧
      execAll (gruPart1Postgemm args ptrs i j) mem (stateTL args ptrs i j) = mem (stateTm1L args ptrs i j) * G 1 := by
  refine ⟨?_, ?_, ?_⟩ <;>
    simp [gruPart1Postgemm, activate, Assign.exec, gate_inj hdic, stateTL, stateTm1L]

theorem execAll_gruPart2Postgemm (hdic : 0 < args.rnn.dic) :
    execAll (gruPart2Postgemm args ptrs i j) mem (stateTL args ptrs i j) =
      mem (stateTm1L args ptrs i j) * mem (gate args ptrs i 0 j) + (1 - mem (gate args ptrs i 0 j)) *
        args.gateAct 2 (mem (gate args ptrs i 2 j) + biasOf args ptrs 2 j) := by
  simp [gruPart2Postgemm, gruState, activate, Assign.exec, gate_inj hdic, stateTL, stateTm1L]

theorem execAll_gruLbrPostgemm (hdic : 0 < args.rnn.dic) :
    let G := fun g => args.gateAct g (mem (gate args ptrs i g j) + mem (gemmState args i g j) + biasOf args ptrs g j)
    let c := args.gateAct 2 (mem (gate args ptrs i 2 j) + G 1 * (mem (gemmState args i 2 j) + biasOf args ptrs 3 j) +
      biasOf args ptrs 2 j)
    execAll (gruLbrPostgemm args ptrs i j) mem (stateTL args ptrs i j) =
      mem (stateTm1L args ptrs i j) * G 0 + (1 - G 0) * c := by
  have hlast : execAll (gruLbrPostgemm args ptrs i j) mem (stateTL args ptrs i j) =
      execAll ((gruLbrPostgemm args ptrs i j).take 4) mem (stateTL args ptrs i j) := by
    unfold gruLbrPostgemm
    split_ifs <;> simp [Assign.exec, Function.update_apply, stateTL, whB]
  rw [hlast]
  simp [gruLbrPostgemm, gruState, Assign.exec, gate_inj hdic, stateTL, stateTm1L, gemmState]

end Postgemm

/-! ## Cells -/

/-- The states of a sample. -/
structure State (R : Type*) where
  h : ℕ → R
  c : ℕ → R

section Next

variable (args : ExecArgs R) (ptrs : CellPtrs R)

/-- A row of the weights of the layer, multiplied by the state below. -/
def layerGate (x : ℕ → R) (r : ℕ) : R := ((List.range args.rnn.slc).map fun p => ptrs.wLayer (r + p * args.rnn.weightsLayerLd) * x p).sum

/-- A row of a part of the weights of the iteration, multiplied by a state. -/
def iterGate (part : ℕ) (h : ℕ → R) (r : ℕ) : R :=
  ((List.range args.rnn.sic).map fun p => ptrs.wIter part (r + p * args.rnn.weightsIterLd) * h p).sum

/-- The next states of a sample, from the state `x` of the layer below and the states before. -/
def cellNext (x : ℕ → R) (s : State R) : State R :=
  let G := fun g j => args.gateAct g
    (layerGate args ptrs x (g * args.rnn.dic + j) + iterGate args ptrs 0 s.h (g * args.rnn.dic + j) + biasOf args ptrs g j)
  let mix := fun (u c : ℕ → R) j => s.h j * u j + (1 - u j) * c j
  match args.rnn.cellKind with
  | .vanillaRnn => ⟨G 0, s.c⟩
  | .vanillaLstm =>
    let c := fun j => G 1 j * s.c j + G 0 j * G 2 j
    ⟨fun j => G 3 j * args.cellAct (c j), c⟩
  | .vanillaGru =>
    ⟨mix (G 0) fun j => args.gateAct 2 (layerGate args ptrs x (2 * args.rnn.dic + j) +
      iterGate args ptrs 1 (fun p => s.h p * G 1 p) j + biasOf args ptrs 2 j), s.c⟩
  | .lbrGru =>
    ⟨mix (G 0) fun j => args.gateAct 2 (layerGate args ptrs x (2 * args.rnn.dic + j) +
      G 1 j * (iterGate args ptrs 0 s.h (2 * args.rnn.dic + j) + biasOf args ptrs 3 j) + biasOf args ptrs 2 j), s.c⟩

/-- Row `r` of the gates of the sample `i`. -/
def gateRow (i r : ℕ) : Elem := .wsGates (ptrs.wsGates + (i * args.rnn.gatesWsLd + r))

/-- The gates of the cell. -/
def GateRows (a : Elem) : Prop := ∃ i < args.rnn.mb, ∃ r < args.rnn.nGates * args.rnn.dic, a = gateRow args ptrs i r

/-- What a cell assigns to. -/
def CellDst : Elem → Prop
  | .wsStates x => ∃ i < args.rnn.mb, ∃ j < args.rnn.dic, x = ptrs.statesTL + (i * args.rnn.statesWsLd + j)
  | .wsCStates x => ∃ i < args.rnn.mb, ∃ j < args.rnn.dic, x = ptrs.cStatesTL + (i * args.rnn.statesWsLd + j)
  | .wsGates x => ∃ i < args.rnn.mb, ∃ r < args.rnn.nGates * args.rnn.dic, x = ptrs.wsGates + (i * args.rnn.gatesWsLd + r)
  | .wsGrid _ => True
  | .wsCell _ => True
  | _ => False

/-- The memory in front of a cell holds the state `x i` below and the states `s i` before, for every sample. If the products of the
layer are merged, then the one with `x i` is there instead. -/
structure Ready (x : ℕ → ℕ → R) (s : ℕ → State R) (mem : Elem → R) : Prop where
  layer : args.rnn.mergeGemmLayer = false → ∀ i < args.rnn.mb, ∀ p < args.rnn.slc,
    mem (.wsStates (ptrs.statesTLm1 + (i * args.rnn.statesWsLd + p))) = x i p
  merged : args.rnn.mergeGemmLayer = true → ∀ i < args.rnn.mb, ∀ r < args.rnn.nGates * args.rnn.dic,
    mem (gateRow args ptrs i r) = layerGate args ptrs (x i) r
  iter : ∀ i < args.rnn.mb, ∀ p < args.rnn.sic, mem (stateTm1L args ptrs i p) = (s i).h p
  cell : args.rnn.cellKind = .vanillaLstm → ∀ i < args.rnn.mb, ∀ j < args.rnn.dic, mem (cStateTm1L args ptrs i j) = (s i).c j

/-- The states that a cell leaves. -/
def Computed (s : ℕ → State R) (mem : Elem → R) : Prop := ∀ i < args.rnn.mb, ∀ j < args.rnn.dic,
  mem (stateTL args ptrs i j) = (s i).h j ∧ (args.rnn.cellKind = .vanillaLstm → mem (cStateTL args ptrs i j) = (s i).c j)

end Next

section Cell

variable {args : ExecArgs R} {ptrs : CellPtrs R} {x : ℕ → ℕ → R} {s : ℕ → State R} {i j : ℕ} {a : Elem}

omit [CommRing R] in
theorem not_gateRows_wsStates {x : ℕ} : ¬ GateRows args ptrs (.wsStates x) := by
  rintro ⟨_, _, _, _, h⟩
  cases h

omit [CommRing R] in
theorem not_gateRows_wsCStates {x : ℕ} : ¬ GateRows args ptrs (.wsCStates x) := by
  rintro ⟨_, _, _, _, h⟩
  cases h

omit [CommRing R] in
theorem GateRows.cellDst (h : GateRows args ptrs a) : CellDst args ptrs a := by
  obtain ⟨i, hi, r, hr, rfl⟩ := h
  exact ⟨i, hi, r, hr, rfl⟩

omit [CommRing R] in
theorem Own.cellDst (hi : i < args.rnn.mb) (hj : j < args.rnn.dic) (h : Own args ptrs i j a) : CellDst args ptrs a := by
  cases a with
  | wsGates x =>
    obtain ⟨g, hg, rfl⟩ := h
    refine ⟨i, hi, g * args.rnn.dic + j, ?_, rfl⟩
    have hlt : j + g * args.rnn.dic < args.rnn.nGates * args.rnn.dic := add_mul_lt hj hg
    omega
  | wsStates x => exact ⟨i, hi, j, hj, h⟩
  | wsCStates x => exact ⟨i, hi, j, hj, h.2⟩
  | wsGrid x => trivial
  | _ => cases h

/-- The product of the layer, for `n` samples. -/
theorem gemmLayer_step {n states wsGates : ℕ} {wLayer : ℕ → R} (hstep : (gemmLayer args n wLayer states wsGates).Step mem mem') :
    (∀ i < n, ∀ r < args.rnn.nGates * args.rnn.dic, mem' (.wsGates (wsGates + (i * args.rnn.gatesWsLd + r))) =
      ((List.range args.rnn.slc).map fun p => wLayer (r + p * args.rnn.weightsLayerLd) *
        mem (.wsStates (states + (i * args.rnn.statesWsLd + p)))).sum) ∧
    Kept (fun a => ∃ i < n, ∃ r < args.rnn.nGates * args.rnn.dic, a = .wsGates (wsGates + (i * args.rnn.gatesWsLd + r))) mem mem' := by
  obtain ⟨hvalue, hkept⟩ := gemm_step args.rnn.le_gatesWsLd (fun x y h => Nat.add_left_cancel (Elem.wsGates.inj h))
    (fun x y h => by cases h) hstep
  refine ⟨fun i hi r hr => ?_, hkept⟩
  rw [hvalue i hi r hr, zero_mul, zero_add]

/-- The product of a part of the weights with the states before, which are `h` for every sample. -/
theorem gemmIter_step {m p states : ℕ} {beta : R} {c : ℕ → Elem} {h : ℕ → ℕ → R} (hm : m ≤ args.rnn.gatesWsLd)
    (hc : Function.Injective c) (hne : ∀ x y, .wsStates x ≠ c y)
    (hstates : ∀ i < args.rnn.mb, ∀ p < args.rnn.sic, mem (.wsStates (states + (i * args.rnn.statesWsLd + p))) = h i p)
    (hstep : (gemmIter args ptrs m p states beta c).Step mem mem') :
    (∀ i < args.rnn.mb, ∀ r < m, mem' (c (i * args.rnn.gatesWsLd + r)) =
      beta * mem (c (i * args.rnn.gatesWsLd + r)) + iterGate args ptrs p (h i) r) ∧
    Kept (fun a => ∃ i < args.rnn.mb, ∃ r < m, a = c (i * args.rnn.gatesWsLd + r)) mem mem' := by
  obtain ⟨hvalue, hkept⟩ := gemm_step hm hc (fun x y => hne _ y) hstep
  refine ⟨fun i hi r hr => ?_, hkept⟩
  rw [hvalue i hi r hr]
  congr 2
  refine List.map_congr_left fun q hq => ?_
  rw [hstates i hi q (List.mem_range.mp hq)]

/-- The gates with the product of the layer only. -/
theorem cellGemmLayer_spec (h : Ready args ptrs x s mem) (hrun : Runs (cellGemmLayer args ptrs) mem mem') :
    (∀ i < args.rnn.mb, ∀ r < args.rnn.nGates * args.rnn.dic, mem' (gateRow args ptrs i r) = layerGate args ptrs (x i) r) ∧
    Kept (GateRows args ptrs) mem mem' := by
  unfold cellGemmLayer at hrun
  split_ifs at hrun with hmerge
  · cases hrun
    exact ⟨h.merged hmerge, Kept.refl _ _⟩
  · obtain ⟨hvalue, hkept⟩ := gemmLayer_step (runs_singleton.mp hrun)
    refine ⟨fun i hi r hr => ?_, hkept⟩
    refine (hvalue i hi r hr).trans (congrArg List.sum (List.map_congr_left fun p hp => ?_))
    rw [h.layer (Bool.eq_false_iff.mpr hmerge) i hi p (List.mem_range.mp hp)]

/-- The first `m` rows of the gates get the product of the iteration, too. -/
theorem gates_spec {m : ℕ} (hm : m ≤ args.rnn.nGates * args.rnn.dic) (h : Ready args ptrs x s mem) {mem₁ : Elem → R}
    (hlayer : Runs (cellGemmLayer args ptrs) mem mem₁)
    (hstep : (gemmIter args ptrs m 0 ptrs.statesTm1L 1 fun x => .wsGates (ptrs.wsGates + x)).Step mem₁ mem') :
    (∀ i < args.rnn.mb, ∀ r < m, mem' (gateRow args ptrs i r) = layerGate args ptrs (x i) r + iterGate args ptrs 0 (s i).h r) ∧
    (∀ i < args.rnn.mb, ∀ r < args.rnn.nGates * args.rnn.dic, m ≤ r → mem' (gateRow args ptrs i r) = layerGate args ptrs (x i) r) ∧
    Kept (GateRows args ptrs) mem mem' := by
  obtain ⟨hgates, hkept⟩ := cellGemmLayer_spec h hlayer
  have hstates : ∀ i < args.rnn.mb, ∀ p < args.rnn.sic, mem₁ (stateTm1L args ptrs i p) = (s i).h p := by
    intro i hi p hp
    exact (hkept _ not_gateRows_wsStates).trans (h.iter i hi p hp)
  obtain ⟨hvalue, hkept'⟩ := gemmIter_step (hm.trans args.rnn.le_gatesWsLd)
    (fun x y h => Nat.add_left_cancel (Elem.wsGates.inj h)) (fun x y h => by cases h) hstates hstep
  refine ⟨fun i hi r hr => ?_, fun i hi r hr hle => ?_, hkept.trans (hkept'.mono ?_)⟩
  · refine (hvalue i hi r hr).trans ?_
    rw [one_mul]
    exact congrArg (· + _) (hgates i hi r (hr.trans_le hm))
  · rw [hkept' _ ?_, hgates i hi r hr]
    rintro ⟨i', hi', r', hr', heq⟩
    have hld := args.rnn.le_gatesWsLd
    have hrow := mul_add_inj (by omega) (by omega) (Nat.add_left_cancel (Elem.wsGates.inj heq))
    omega
  · rintro a ⟨i, hi, r, hr, rfl⟩
    exact ⟨i, hi, r, hr.trans_le hm, rfl⟩

omit [CommRing R] in
theorem gate_row_lt {g : ℕ} (hg : g < args.rnn.nGates) (hj : j < args.rnn.dic) :
    g * args.rnn.dic + j < args.rnn.nGates * args.rnn.dic := by
  have hlt : j + g * args.rnn.dic < args.rnn.nGates * args.rnn.dic := add_mul_lt hj hg
  omega

/-- The cells of `cell_execution` in front of the post-operation. -/
theorem cellExecution_spec {post : ℕ → ℕ → List (Assign Elem R)} (hsep : Separate args ptrs) (h : Ready args ptrs x s mem)
    (hpost : ∀ i j, ∀ e ∈ post i j, PostOp args ptrs i j e) (hrun : Runs (cellExecution args ptrs post) mem mem') :
    ∃ mem₁ : Elem → R, (∀ i < args.rnn.mb, ∀ g < args.rnn.nGates, ∀ j < args.rnn.dic, mem₁ (gate args ptrs i g j) =
        layerGate args ptrs (x i) (g * args.rnn.dic + j) + iterGate args ptrs 0 (s i).h (g * args.rnn.dic + j)) ∧
      (∀ z, mem₁ (.wsCStates z) = mem (.wsCStates z)) ∧ Kept (CellDst args ptrs) mem mem' ∧
      ∀ i < args.rnn.mb, ∀ j < args.rnn.dic, ∀ a, Own args ptrs i j a → mem' a = execAll (post i j) mem₁ a := by
  obtain ⟨mem₀, hlayer, mem₁, hiter, hrest⟩ := runs_append.mp hrun
  obtain ⟨hgates, -, hkept⟩ := gates_spec le_rfl h hlayer hiter
  obtain ⟨hvalue, hkept'⟩ := postgemm_step hsep hpost (runs_singleton.mp hrest)
  refine ⟨mem₁, fun i hi g hg j hj => hgates i hi _ (gate_row_lt hg hj), fun z => hkept _ not_gateRows_wsCStates, ?_, hvalue⟩
  refine (hkept.mono fun a => GateRows.cellDst).trans (hkept'.mono ?_)
  rintro a ⟨i, hi, j, hj, hown⟩
  exact hown.cellDst hi hj

theorem rnnCell_spec (hk : args.rnn.cellKind = .vanillaRnn) (hsep : Separate args ptrs) (h : Ready args ptrs x s mem)
    (hrun : Runs (cellFunc args ptrs) mem mem') :
    Computed args ptrs (fun i => cellNext args ptrs (x i) (s i)) mem' ∧ Kept (CellDst args ptrs) mem mem' := by
  have hgates : args.rnn.nGates = 1 := by simp [RnnConf.nGates, hk]
  simp only [cellFunc, hk] at hrun
  obtain ⟨mem₁, hgate, -, hkept, hvalue⟩ := cellExecution_spec hsep h (rnnPostgemm_postOp hgates) hrun
  refine ⟨fun i hi j hj => ⟨?_, fun hlstm => by simp [hk] at hlstm⟩, hkept⟩
  rw [hvalue i hi j hj _ own_stateTL, execAll_rnnPostgemm, hgate i hi 0 (by omega) j hj]
  simp [cellNext, hk]

theorem lstmCell_spec (hk : args.rnn.cellKind = .vanillaLstm) (hdic : 0 < args.rnn.dic) (hsep : Separate args ptrs)
    (h : Ready args ptrs x s mem) (hrun : Runs (cellFunc args ptrs) mem mem') :
    Computed args ptrs (fun i => cellNext args ptrs (x i) (s i)) mem' ∧ Kept (CellDst args ptrs) mem mem' := by
  have hgates : args.rnn.nGates = 4 := RnnConf.nGates_lstm hk
  simp only [cellFunc, hk] at hrun
  obtain ⟨mem₁, hgate, hc, hkept, hvalue⟩ := cellExecution_spec hsep h (lstmPostgemm_postOp hk) hrun
  refine ⟨fun i hi j hj => ?_, hkept⟩
  have hG : ∀ g < 4, mem₁ (gate args ptrs i g j) =
      layerGate args ptrs (x i) (g * args.rnn.dic + j) + iterGate args ptrs 0 (s i).h (g * args.rnn.dic + j) :=
    fun g hg => hgate i hi g (hgates ▸ hg) j hj
  have hcell : mem₁ (cStateTm1L args ptrs i j) = (s i).c j := (hc _).trans (h.cell hk i hi j hj)
  rw [hvalue i hi j hj _ own_stateTL, hvalue i hi j hj _ (own_cStateTL hk), (execAll_lstmPostgemm hdic).1, (execAll_lstmPostgemm hdic).2]
  dsimp only
  rw [hG 0 (by decide), hG 1 (by decide), hG 2 (by decide), hG 3 (by decide), hcell]
  simp [cellNext, hk]

omit [CommRing R] in
/-- A post-operation leaves the states before the cell. -/
theorem Separate.stateTm1L_eq (hsep : Separate args ptrs)
    (hkept : Kept (fun a => ∃ i < args.rnn.mb, ∃ j < args.rnn.dic, Own args ptrs i j a) mem mem') (hi : i < args.rnn.mb)
    (hj : j < args.rnn.dic) : mem' (stateTm1L args ptrs i j) = mem (stateTm1L args ptrs i j) := by
  apply hkept
  rintro ⟨i', hi', j', hj', hown⟩
  exact hsep.not_own hi hj hi' hj' (Or.inl rfl) hown

/-- The state of a GRU is multiplied by the reset gate before it goes through the weights of the last gate. -/
theorem gruCell_spec (hk : args.rnn.cellKind = .vanillaGru) (hsic : args.rnn.sic = args.rnn.dic) (hdic : 0 < args.rnn.dic)
    (hsep : Separate args ptrs) (h : Ready args ptrs x s mem) (hrun : Runs (cellFunc args ptrs) mem mem') :
    Computed args ptrs (fun i => cellNext args ptrs (x i) (s i)) mem' ∧ Kept (CellDst args ptrs) mem mem' := by
  have hgates : args.rnn.nGates = 3 := RnnConf.nGates_gru hk
  have hld : 3 * args.rnn.dic ≤ args.rnn.gatesWsLd := hgates ▸ args.rnn.le_gatesWsLd
  simp only [cellFunc, hk] at hrun
  obtain ⟨mem₀, hlayer, mem₁, hiter, mem₂, hpart1, mem₃, hlast, hrest⟩ := runs_append.mp hrun
  have hrows : (args.rnn.nGates - 1) * args.rnn.dic ≤ args.rnn.nGates * args.rnn.dic := Nat.mul_le_mul_right _ (Nat.sub_le _ _)
  obtain ⟨hboth, honly, hkept₁⟩ := gates_spec hrows h hlayer hiter
  obtain ⟨hvalue₂, hkept₂⟩ := postgemm_step hsep (gruPart1Postgemm_postOp hgates) hpart1
  obtain ⟨hvalue', hkept'⟩ := postgemm_step hsep (gruPart2Postgemm_postOp hgates) (runs_singleton.mp hrest)
  -- the gates that the first part activates
  set G : ℕ → ℕ → ℕ → R := fun i g j => args.gateAct g (layerGate args ptrs (x i) (g * args.rnn.dic + j) +
    iterGate args ptrs 0 (s i).h (g * args.rnn.dic + j) + biasOf args ptrs g j) with hG
  have hgate₁ : ∀ i < args.rnn.mb, ∀ g < 2, ∀ j < args.rnn.dic,
      args.gateAct g (mem₁ (gate args ptrs i g j) + biasOf args ptrs g j) = G i g j := by
    intro i hi g hg j hj
    have hrow : g * args.rnn.dic + j < (args.rnn.nGates - 1) * args.rnn.dic := by
      have hlt : j + g * args.rnn.dic < 2 * args.rnn.dic := add_mul_lt hj hg
      rw [hgates]
      omega
    exact congrArg (fun v => args.gateAct g (v + _)) (hboth i hi _ hrow)
  have hold : ∀ i < args.rnn.mb, ∀ j < args.rnn.dic, mem₁ (stateTm1L args ptrs i j) = (s i).h j :=
    fun i hi j hj => (hkept₁ _ not_gateRows_wsStates).trans (h.iter i hi j (hsic ▸ hj))
  have hreset : ∀ i < args.rnn.mb, ∀ p < args.rnn.sic,
      mem₂ (.wsStates (ptrs.statesTL + (i * args.rnn.statesWsLd + p))) = (s i).h p * G i 1 p := by
    intro i hi p hp
    have hp' : p < args.rnn.dic := hsic ▸ hp
    refine (hvalue₂ i hi p hp' _ own_stateTL).trans ((execAll_gruPart1Postgemm hdic).2.2.trans ?_)
    dsimp only
    rw [hold i hi p hp', hgate₁ i hi 1 (by decide) p hp']
  obtain ⟨hvalue₃, hkept₃⟩ := gemmIter_step (h := fun i p => (s i).h p * G i 1 p) (by omega)
    (fun x y h => Nat.add_left_cancel (Elem.wsGates.inj h)) (fun x y h => by cases h) hreset hlast
  have hrow₃ : ∀ i j, Elem.wsGates (ptrs.wsGates + 2 * args.rnn.dic + (i * args.rnn.gatesWsLd + j)) = gate args ptrs i 2 j :=
    fun i j => congrArg Elem.wsGates (by omega)
  refine ⟨fun i hi j hj => ⟨?_, fun hlstm => by simp [hk] at hlstm⟩, ?_⟩
  · have hstate : mem₃ (stateTm1L args ptrs i j) = (s i).h j := by
      rw [hkept₃ _ (by rintro ⟨_, _, _, _, heq⟩; cases heq), hsep.stateTm1L_eq hkept₂ hi hj, hold i hi j hj]
    have hupdate : mem₃ (gate args ptrs i 0 j) = G i 0 j := by
      have hne : ¬ ∃ i' < args.rnn.mb, ∃ r < args.rnn.dic,
          gate args ptrs i 0 j = .wsGates (ptrs.wsGates + 2 * args.rnn.dic + (i' * args.rnn.gatesWsLd + r)) := by
        rintro ⟨i', hi', r, hr, heq⟩
        rw [hrow₃] at heq
        have hrow := mul_add_inj (args.rnn.gate_lt (hgates ▸ by decide) hj) (args.rnn.gate_lt (hgates ▸ by decide) hr)
          (Nat.add_left_cancel (Elem.wsGates.inj heq))
        omega
      refine (hkept₃ _ hne).trans ((hvalue₂ i hi j hj _ (own_gate (hgates ▸ by decide))).trans ?_)
      exact (execAll_gruPart1Postgemm hdic).1.trans (hgate₁ i hi 0 (by decide) j hj)
    have hcandidate : mem₃ (gate args ptrs i 2 j) =
        layerGate args ptrs (x i) (2 * args.rnn.dic + j) + iterGate args ptrs 1 (fun p => (s i).h p * G i 1 p) j := by
      have hrow : 2 * args.rnn.dic + j < args.rnn.nGates * args.rnn.dic := gate_row_lt (hgates ▸ by decide) hj
      have hkeep : mem₂ (gate args ptrs i 2 j) = mem₁ (gate args ptrs i 2 j) :=
        (hvalue₂ i hi j hj _ (own_gate (hgates ▸ by decide))).trans (execAll_gruPart1Postgemm hdic).2.1
      have hvalue := hvalue₃ i hi j hj
      rw [hrow₃, one_mul, hkeep] at hvalue
      rw [hvalue]
      exact congrArg (· + _) (honly i hi _ hrow (by rw [hgates]; omega))
    rw [hvalue' i hi j hj _ own_stateTL, execAll_gruPart2Postgemm hdic, hstate, hupdate, hcandidate]
    simp [cellNext, hk, hG]
  · have hpost : ∀ a, (∃ i < args.rnn.mb, ∃ j < args.rnn.dic, Own args ptrs i j a) → CellDst args ptrs a := by
      rintro a ⟨i, hi, j, hj, hown⟩
      exact hown.cellDst hi hj
    refine (((hkept₁.mono fun a => GateRows.cellDst).trans (hkept₂.mono hpost)).trans (hkept₃.mono ?_)).trans (hkept'.mono hpost)
    rintro a ⟨i, hi, r, hr, rfl⟩
    rw [hrow₃]
    exact (own_gate (hgates ▸ by decide)).cellDst hi hr

/-- The products of the two weights of a linear-before-reset GRU stay apart. -/
theorem gruLbrCell_spec (hk : args.rnn.cellKind = .lbrGru) (hsic : args.rnn.sic = args.rnn.dic) (hdic : 0 < args.rnn.dic)
    (hsep : Separate args ptrs) (h : Ready args ptrs x s mem) (hrun : Runs (cellFunc args ptrs) mem mem') :
    Computed args ptrs (fun i => cellNext args ptrs (x i) (s i)) mem' ∧ Kept (CellDst args ptrs) mem mem' := by
  have hgates : args.rnn.nGates = 3 := RnnConf.nGates_lbrGru hk
  simp only [cellFunc, hk] at hrun
  obtain ⟨mem₀, hlayer, mem₁, hiter, hrest⟩ := runs_append.mp hrun
  obtain ⟨hgate, hkept₀⟩ := cellGemmLayer_spec h hlayer
  have hstates : ∀ i < args.rnn.mb, ∀ p < args.rnn.sic, mem₀ (stateTm1L args ptrs i p) = (s i).h p :=
    fun i hi p hp => (hkept₀ _ not_gateRows_wsStates).trans (h.iter i hi p hp)
  obtain ⟨hvalue₁, hkept₁⟩ := gemmIter_step args.rnn.le_gatesWsLd (fun x y => Elem.wsCell.inj) (fun x y h => by cases h) hstates hiter
  obtain ⟨hvalue', hkept'⟩ := postgemm_step hsep (gruLbrPostgemm_postOp hk) (runs_singleton.mp hrest)
  refine ⟨fun i hi j hj => ⟨?_, fun hlstm => by simp [hk] at hlstm⟩, ?_⟩
  · have hG : ∀ g < 3, mem₁ (gate args ptrs i g j) = layerGate args ptrs (x i) (g * args.rnn.dic + j) := by
      intro g hg
      rw [hkept₁ _ (by rintro ⟨_, _, _, _, heq⟩; cases heq)]
      exact hgate i hi _ (gate_row_lt (hgates ▸ hg) hj)
    have hC : ∀ g < 3, mem₁ (gemmState args i g j) = iterGate args ptrs 0 (s i).h (g * args.rnn.dic + j) := by
      intro g hg
      refine (hvalue₁ i hi _ (gate_row_lt (hgates ▸ hg) hj)).trans ?_
      rw [zero_mul, zero_add]
    have hstate : mem₁ (stateTm1L args ptrs i j) = (s i).h j := by
      rw [hkept₁ _ (by rintro ⟨_, _, _, _, heq⟩; cases heq), hstates i hi j (hsic ▸ hj)]
    rw [hvalue' i hi j hj _ own_stateTL, execAll_gruLbrPostgemm hdic]
    dsimp only
    rw [hG 0 (by decide), hG 1 (by decide), hG 2 (by decide), hC 0 (by decide), hC 1 (by decide), hC 2 (by decide), hstate]
    simp [cellNext, hk]
  · refine ((hkept₀.mono fun a => GateRows.cellDst).trans (hkept₁.mono ?_)).trans (hkept'.mono ?_)
    · rintro a ⟨i, hi, r, hr, rfl⟩
      trivial
    · rintro a ⟨i, hi, j, hj, hown⟩
      exact hown.cellDst hi hj

/-- Every cell computes the next states, and changes nothing but its own part of the workspace. -/
theorem cellFunc_spec (hdic : 0 < args.rnn.dic)
    (hgru : args.rnn.cellKind = .vanillaGru ∨ args.rnn.cellKind = .lbrGru → args.rnn.sic = args.rnn.dic) (hsep : Separate args ptrs)
    (h : Ready args ptrs x s mem) (hrun : Runs (cellFunc args ptrs) mem mem') :
    Computed args ptrs (fun i => cellNext args ptrs (x i) (s i)) mem' ∧ Kept (CellDst args ptrs) mem mem' := by
  rcases hk : args.rnn.cellKind with _ | _ | _ | _
  · exact rnnCell_spec hk hsep h hrun
  · exact lstmCell_spec hk hdic hsep h hrun
  · exact gruCell_spec hk (hgru (Or.inl hk)) hdic hsep h hrun
  · exact gruLbrCell_spec hk (hgru (Or.inr hk)) hdic hsep h hrun

end Cell

end Phases

end MklDnn.RefRnn
