import Mathlib.Data.List.Perm.Basic
import MklDnn.Common.Proofs.UtilsProofs
import MklDnn.Lib.Offsets
import MklDnn.Reorder.Prb

/-!
# Proofs: the passes on a reorder problem

The offsets of a problem are those of its loop nest, moved by the initial offsets. Sorting and moving
nodes permutes the loops, folding and splitting nodes is `strided_mul`, so every pass that does not run
out of nodes keeps the offsets.
-/

open LoopNest Offsets

namespace MklDnn

/-! ## The loop nest of a problem -/

/-- The loop of a node. -/
def Node.loop (nd : Node) : ℕ × (ℤ × ℤ × ℤ) := (nd.n, (nd.is, nd.os, nd.ss))

/-- The offsets of the loops of a problem. -/
def Prb.nest (p : Prb) : Offsets (ℤ × ℤ × ℤ) := Offsets.nest (p.nodes.map Node.loop)

/-- The number of elements that a problem reorders. -/
def Prb.total (p : Prb) : ℕ := (p.nodes.map Node.n).prod

theorem Prb.card_nest (p : Prb) : p.nest.visits.card = p.total := by
  rw [Prb.nest, Offsets.card_nest, List.map_map]
  rfl

theorem ofList_loopVisits (nds : List Node) :
    ofList (loopVisits nds) id = Offsets.nest (nds.map Node.loop) := by
  induction nds with
  | nil => rfl
  | cons nd nds ih =>
    rw [loopVisits, List.map_cons, nest_cons, ← ih]
    refine ofList_flatMap _ _ (fun (i : ℕ) (v : ℤ × ℤ × ℤ) =>
      (i * nd.is + v.1, i * nd.os + v.2.1, i * nd.ss + v.2.2)) _ _ _ ?_
    rintro i _ ⟨a, b, c⟩ _
    simp [Node.loop]

/-- Whether the first node is the innermost or the outermost loop only changes the order of the
iterations. -/
theorem loopOffsets_perm (nds : List Node) :
    (loopOffsets nds).Perm ((loopVisits nds).map fun v => (v.1, v.2.1)) := by
  rw [← List.map_id (loopOffsets nds), ← ofList_eq_iff]
  induction nds with
  | nil => rfl
  | cons nd nds ih =>
    have hinner : ofList (loopOffsets (nd :: nds)) id =
        ofList (loopOffsets nds) id * strided nd.n (nd.is, nd.os) := by
      refine ofList_flatMap _ _ (fun (off : ℤ × ℤ) (i : ℕ) => (off.1 + i * nd.is, off.2 + i * nd.os)) _ _ _ ?_
      rintro ⟨a, b⟩ _ i _
      simp
    have houter : ofList (loopVisits (nd :: nds)) (fun v => (v.1, v.2.1)) =
        strided nd.n (nd.is, nd.os) * ofList (loopVisits nds) fun v => (v.1, v.2.1) := by
      refine ofList_flatMap _ _ (fun (i : ℕ) (v : ℤ × ℤ × ℤ) =>
        (i * nd.is + v.1, i * nd.os + v.2.1, i * nd.ss + v.2.2)) _ _ _ ?_
      rintro i _ ⟨a, b, c⟩ _
      simp
    rw [hinner, houter, ih, mul_comm]

/-- `q` runs through the same offsets as `p`. -/
structure Prb.SameOffsets (p q : Prb) : Prop where
  nest : q.nest = p.nest
  ioff : q.ioff = p.ioff
  ooff : q.ooff = p.ooff

theorem Prb.SameOffsets.refl (p : Prb) : p.SameOffsets p := ⟨rfl, rfl, rfl⟩

theorem Prb.SameOffsets.trans {p q r : Prb} (h : p.SameOffsets q) (h' : q.SameOffsets r) :
    p.SameOffsets r :=
  ⟨h'.nest.trans h.nest, h'.ioff.trans h.ioff, h'.ooff.trans h.ooff⟩

theorem Prb.SameOffsets.total {p q : Prb} (h : p.SameOffsets q) : q.total = p.total := by
  rw [← card_nest, ← card_nest, h.nest]

theorem Prb.SameOffsets.loopVisits_perm {p q : Prb} (h : p.SameOffsets q) :
    (loopVisits q.nodes).Perm (loopVisits p.nodes) := by
  rw [← List.map_id (loopVisits q.nodes), ← List.map_id (loopVisits p.nodes), ← ofList_eq_iff,
    ofList_loopVisits, ofList_loopVisits]
  exact h.nest

theorem Prb.SameOffsets.offsets_perm {p q : Prb} (h : p.SameOffsets q) :
    q.offsets.Perm p.offsets := by
  rw [offsets, offsets, h.ioff, h.ooff]
  have hpairs := h.loopVisits_perm.map fun v => (v.1, v.2.1)
  exact (((loopOffsets_perm q.nodes).trans hpairs).trans (loopOffsets_perm p.nodes).symm).map _

/-- A problem with the same nodes in a different order. -/
theorem Prb.SameOffsets.of_perm {p : Prb} {nodes : List Node} (h : nodes.Perm p.nodes) :
    p.SameOffsets { p with nodes := nodes } :=
  ⟨nest_perm (h.map _), rfl, rfl⟩

/-! ## `prb_normalize` and `prb_simplify` -/

theorem normalizeNodes_perm (len : ℕ) (nds : List Node) : (normalizeNodes len nds).Perm nds := by
  induction len generalizing nds with
  | zero => simp [normalizeNodes]
  | succ len ih =>
    cases nds with
    | nil => exact List.Perm.refl _
    | cons nd nds =>
      rw [normalizeNodes]
      cases minPos nd nds with
      | zero => exact (ih nds).cons nd
      | succ k => exact ((ih _).cons _).trans (List.getD_set_perm_cons nds k nd)

theorem prbNormalize_sameOffsets (p : Prb) : p.SameOffsets (prbNormalize p) :=
  Prb.SameOffsets.of_perm (normalizeNodes_perm _ _)

/-- Two neighbouring loops that fold are one loop. -/
theorem strided_mul_of_canFold {thisNode nextNode : Node} (h : canFold thisNode nextNode = true) :
    strided (thisNode.n * nextNode.n) (thisNode.is, thisNode.os, thisNode.ss) =
      strided thisNode.n (thisNode.is, thisNode.os, thisNode.ss) *
        strided nextNode.n (nextNode.is, nextNode.os, nextNode.ss) := by
  simp only [canFold, decide_eq_true_eq] at h
  rcases h with hone | ⟨his, hos, hss⟩
  · rw [hone, Nat.mul_one, strided_one, mul_one]
  · rw [Nat.mul_comm, strided_mul, mul_comm, his, hos, hss]
    simp

theorem nest_simplifyNodes (nd : Node) (nds : List Node) :
    Offsets.nest ((simplifyNodes nd nds).map Node.loop) =
      Offsets.nest ((nd :: nds).map Node.loop) := by
  induction nds generalizing nd with
  | nil => rfl
  | cons nextNode nds ih =>
    rw [simplifyNodes]
    split_ifs with hfold
    · rw [ih]
      simp only [List.map_cons, nest_cons, Node.loop]
      rw [strided_mul_of_canFold hfold, mul_assoc]
    · rw [List.map_cons, nest_cons, ih, List.map_cons, nest_cons]
      rfl

theorem prbSimplify_sameOffsets (p : Prb) : p.SameOffsets (prbSimplify p) := by
  unfold prbSimplify
  split
  · exact Prb.SameOffsets.refl p
  · next nd nds hnodes =>
    refine ⟨?_, rfl, rfl⟩
    rw [Prb.nest, Prb.nest, hnodes]
    exact nest_simplifyNodes nd nds

/-! ## Splitting and moving -/

theorem Prb.node_eq {p : Prb} {d : ℕ} (h : d < p.nodes.length) : p.node d = p.nodes[d] := by
  rw [Prb.node, List.getD_eq_getElem?_getD, List.getElem?_eq_getElem h, Option.getD_some]

/-- The nodes around node `d`. -/
theorem Prb.nodes_eq {p : Prb} {d : ℕ} (h : d < p.ndims) :
    p.nodes = p.nodes.take d ++ p.node d :: p.nodes.drop (d + 1) := by
  rw [Prb.node_eq h, ← List.drop_eq_getElem_cons h, List.take_append_drop]

theorem prbNodeSplit_isSome {p : Prb} {dim n1 : ℕ} :
    (prbNodeSplit p dim n1).isSome ↔ p.ndims + 1 < maxNdims := by
  unfold prbNodeSplit
  split_ifs with h <;> simp [h]

theorem prbNodeSplit_spec {p q : Prb} {dim n1 : ℕ} (hdim : dim < p.ndims)
    (hdvd : n1 ∣ (p.node dim).n) (h : prbNodeSplit p dim n1 = some q) :
    p.SameOffsets q ∧ q.ndims = p.ndims + 1 := by
  unfold prbNodeSplit at h
  split_ifs at h
  obtain rfl := Option.some.inj h
  refine ⟨⟨?_, rfl, rfl⟩, ?_⟩
  · have hloop : strided (p.node dim).n ((p.node dim).is, (p.node dim).os, (p.node dim).ss) =
        strided n1 ((p.node dim).is, (p.node dim).os, (p.node dim).ss) *
          strided ((p.node dim).n / n1)
            ((p.node dim).is * n1, (p.node dim).os * n1, (p.node dim).ss * n1) := by
      conv_lhs => rw [← Nat.div_mul_cancel hdvd]
      rw [strided_mul, mul_comm]
      simp [mul_comm]
    conv_rhs => rw [Prb.nest, Prb.nodes_eq hdim]
    simp only [Prb.nest, List.map_append, List.map_cons, nest_append, nest_cons, Node.loop]
    rw [hloop, mul_assoc]
  · conv_rhs => rw [Prb.ndims, Prb.nodes_eq hdim]
    simp only [Prb.ndims, List.length_append, List.length_cons]
    omega

theorem prbNodeMove_sameOffsets {p : Prb} {d0 d1 : ℕ} (h0 : d0 < p.ndims) (h1 : d1 < p.ndims) :
    p.SameOffsets (prbNodeMove p d0 d1) := by
  unfold prbNodeMove
  split_ifs with heq
  · exact Prb.SameOffsets.refl p
  · refine Prb.SameOffsets.of_perm ?_
    have hlen : d1 ≤ (p.nodes.eraseIdx d0).length := by
      rw [List.length_eraseIdx_of_lt h0]
      exact Nat.le_sub_one_of_lt h1
    refine (List.perm_insertIdx _ _ hlen).trans ?_
    rw [Prb.node_eq h0]
    exact List.getElem_cons_eraseIdx_perm h0

/-! ## `prb_block_for_cache` -/

theorem unitInputStrideIdx_spec {p : Prb} {idx : ℕ} (h : unitInputStrideIdx p = some idx) :
    idx < p.ndims ∧ (p.node idx).is = 1 := by
  unfold unitInputStrideIdx at h
  generalize p.ndims = n at h
  induction n with
  | zero => cases h
  | succ n ih =>
    rw [List.range_succ, List.foldl_append, List.foldl_cons, List.foldl_nil] at h
    split_ifs at h with hone
    · obtain rfl := Option.some.inj h
      exact ⟨Nat.lt_succ_self n, hone⟩
    · obtain ⟨hlt, his⟩ := ih h
      exact ⟨Nat.lt_succ_of_lt hlt, his⟩

/-- A node with unit input stride that cache blocking moves is not the only one. -/
theorem one_lt_ndims {p : Prb} {idx : ℕ} (hneeded : cacheBlockingNeeded p = true)
    (h : unitInputStrideIdx p = some idx) : 1 < p.ndims := by
  obtain ⟨hlt, his⟩ := unitInputStrideIdx_spec h
  by_contra hle
  have h0 : idx = 0 := by omega
  subst h0
  simp only [cacheBlockingNeeded, decide_eq_true_eq, his] at hneeded
  omega

/-- There is room for one more node. -/
def Prb.HasRoom (p : Prb) : Prop := p.ndims + 1 < maxNdims

instance (p : Prb) : Decidable p.HasRoom := inferInstanceAs (Decidable (_ < _))

/-- The split of the node with unit input stride, if one is due, has room. -/
def UnitSplitFits (p : Prb) : Prop :=
  ∀ idx, unitInputStrideIdx p = some idx → unitSplitNeeded (p.node idx) = true → p.HasRoom

/-- With a node of unit input stride, the pass splits it if this is due and moves it to one of the
first two places. -/
theorem moveUnitInputStride_eq {p : Prb} {idx : ℕ} (hidx : unitInputStrideIdx p = some idx) :
    ∃ loc < 2, moveUnitInputStride p =
      (if unitSplitNeeded (p.node idx) then prbNodeSplit p idx 16 else some p).map
        fun p => prbNodeMove p idx loc := by
  have hloc : (if (p.node idx).os % 4 ≠ 0 then 0 else 1) < 2 := by split_ifs <;> omega
  refine ⟨_, hloc, ?_⟩
  unfold moveUnitInputStride
  rw [hidx]
  dsimp only
  generalize (if (p.node idx).os % 4 ≠ 0 then 0 else 1) = loc
  split_ifs
  · cases prbNodeSplit p idx 16 <;> rfl
  · rfl

theorem moveUnitInputStride_isSome {p : Prb} :
    (moveUnitInputStride p).isSome ↔ UnitSplitFits p := by
  unfold UnitSplitFits
  cases hidx : unitInputStrideIdx p with
  | none => simp [moveUnitInputStride, hidx]
  | some idx =>
    obtain ⟨loc, -, heq⟩ := moveUnitInputStride_eq hidx
    rw [heq, Option.isSome_map]
    by_cases hsplit : unitSplitNeeded (p.node idx) = true
    · rw [if_pos hsplit, prbNodeSplit_isSome]
      simp [hsplit, Prb.HasRoom]
    · simp [hsplit]

theorem moveUnitInputStride_sameOffsets {p q : Prb} (hneeded : cacheBlockingNeeded p = true)
    (h : moveUnitInputStride p = some q) : p.SameOffsets q := by
  cases hidx : unitInputStrideIdx p with
  | none =>
    rw [moveUnitInputStride, hidx] at h
    obtain rfl := Option.some.inj h
    exact Prb.SameOffsets.refl p
  | some idx =>
    have hlt := (unitInputStrideIdx_spec hidx).1
    have hone := one_lt_ndims hneeded hidx
    obtain ⟨loc, hloc, heq⟩ := moveUnitInputStride_eq hidx
    rw [heq] at h
    obtain ⟨p', hp', rfl⟩ := Option.map_eq_some_iff.mp h
    split_ifs at hp' with hsplit
    · simp only [unitSplitNeeded, decide_eq_true_eq] at hsplit
      obtain ⟨hsame, hndims⟩ := prbNodeSplit_spec hlt (Nat.dvd_of_mod_eq_zero hsplit.2) hp'
      exact hsame.trans (prbNodeMove_sameOffsets (by omega) (by omega))
    · obtain rfl := Option.some.inj hp'
      exact prbNodeMove_sameOffsets hlt (by omega)

/-- The split of the first node, if one is due, has room. -/
def ReuseSplitFits (p : Prb) : Prop := reuseSplitNeeded p = true → p.HasRoom

theorem splitForReuse_eq (p : Prb) : splitForReuse p =
    if reuseSplitNeeded p then (prbNodeSplit p 0 16).map fun p => prbNodeMove p 1 2 else some p := by
  unfold splitForReuse
  split_ifs
  · cases prbNodeSplit p 0 16 <;> rfl
  · rfl

theorem splitForReuse_isSome {p : Prb} : (splitForReuse p).isSome ↔ ReuseSplitFits p := by
  rw [splitForReuse_eq, ReuseSplitFits]
  split_ifs with hsplit
  · rw [Option.isSome_map, prbNodeSplit_isSome]
    exact ⟨fun h _ => h, fun h => h hsplit⟩
  · exact iff_of_true rfl fun h => absurd h hsplit

theorem splitForReuse_sameOffsets {p q : Prb} (h : splitForReuse p = some q) : p.SameOffsets q := by
  rw [splitForReuse_eq] at h
  split_ifs at h with hsplit
  · obtain ⟨p', hp', rfl⟩ := Option.map_eq_some_iff.mp h
    simp only [reuseSplitNeeded, decide_eq_true_eq] at hsplit
    obtain ⟨hndims, -, -, -, hmod, -, -⟩ := hsplit
    obtain ⟨hsame, hndims'⟩ := prbNodeSplit_spec (by omega) (Nat.dvd_of_mod_eq_zero hmod) hp'
    exact hsame.trans (prbNodeMove_sameOffsets (by omega) (by omega))
  · obtain rfl := Option.some.inj h
    exact Prb.SameOffsets.refl p

/-- Every split that is due in `prb_block_for_cache` has room. -/
def CacheSplitsFit (p : Prb) : Prop :=
  cacheBlockingNeeded p = true →
    UnitSplitFits p ∧ ∀ p', moveUnitInputStride p = some p' → ReuseSplitFits p'

theorem prbBlockForCache_isSome {p : Prb} : (prbBlockForCache p).isSome ↔ CacheSplitsFit p := by
  unfold prbBlockForCache CacheSplitsFit
  by_cases hneeded : cacheBlockingNeeded p = true
  · rw [if_pos hneeded, ← moveUnitInputStride_isSome]
    cases moveUnitInputStride p with
    | none => exact iff_of_false (by simp) fun h => by simpa using (h hneeded).1
    | some p' => simp [hneeded, splitForReuse_isSome]
  · simp [hneeded]

theorem prbBlockForCache_sameOffsets {p q : Prb} (h : prbBlockForCache p = some q) :
    p.SameOffsets q := by
  unfold prbBlockForCache at h
  split_ifs at h with hneeded
  · obtain ⟨p', hp', hq⟩ := Option.bind_eq_some_iff.mp h
    exact (moveUnitInputStride_sameOffsets hneeded hp').trans (splitForReuse_sameOffsets hq)
  · obtain rfl := Option.some.inj h
    exact Prb.SameOffsets.refl p

end MklDnn
