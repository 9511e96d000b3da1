import MklDnn.Reorder.NodeArray
import MklDnn.Reorder.Proofs.ReorderProofs

/-!
# Proofs: splitting and moving nodes in memory

In memory the passes do what they do on the list of the nodes, as long as there is room for one more node than a split adds.
-/

namespace MklDnn

namespace PrbT

variable {p : PrbT}

/-! ## Shifting nodes -/

theorem prb_ndims (p : PrbT) : p.prb.ndims = p.ndims := by
  unfold Prb.ndims prb
  rw [List.length_map, List.length_range]

theorem prb_node {d : ℕ} (hd : d < p.ndims) : p.prb.node d = p.nodes d := by
  unfold Prb.node prb
  rw [List.getD_eq_getElem?_getD, List.getElem?_map, List.getElem?_range hd]
  rfl

theorem copyNode_eq {d e : ℕ} (hd : d < maxNdims) (he : e < maxNdims) :
    p.copyNode d e = some { p with nodes := Function.update p.nodes d (p.nodes e) } := by
  unfold copyNode load store
  rw [if_pos he]
  exact if_pos hd

theorem copyNode_eq_none {d : ℕ} (hd : maxNdims ≤ d) (e : ℕ) : p.copyNode d e = none := by
  unfold copyNode store
  rw [Option.bind_eq_bind]
  cases p.load e with
  | none => rfl
  | some nd => exact if_neg (Nat.not_lt.mpr hd)

theorem shiftUp_eq {lo len : ℕ} (h : lo + len < maxNdims) : p.shiftUp lo len =
    some { p with nodes := fun i => if lo < i ∧ i ≤ lo + len then p.nodes (i - 1) else p.nodes i } := by
  induction len generalizing p with
  | zero =>
    have hsame : (fun i => if lo < i ∧ i ≤ lo + 0 then p.nodes (i - 1) else p.nodes i) = p.nodes :=
      funext fun i => if_neg (by omega)
    rw [hsame]
    rfl
  | succ len ih =>
    rw [shiftUp, copyNode_eq (by omega) (by omega)]
    dsimp only [Option.bind_eq_bind, Option.bind_some]
    rw [ih (by omega)]
    dsimp only
    congr 2
    funext i
    rcases Nat.lt_trichotomy i (lo + len + 1) with hi | rfl | hi
    · rw [Function.update_of_ne (by omega : i - 1 ≠ lo + len + 1), Function.update_of_ne (Nat.ne_of_lt hi)]
      exact if_congr (by omega) rfl rfl
    · rw [if_neg (by omega), if_pos (by omega), Function.update_self, Nat.add_sub_cancel]
    · rw [if_neg (by omega), if_neg (by omega), Function.update_of_ne (Nat.ne_of_gt hi)]

/-- The loop starts with a store behind the array. -/
theorem shiftUp_eq_none {lo len : ℕ} (h : maxNdims ≤ lo + (len + 1)) : p.shiftUp lo (len + 1) = none := by
  rw [shiftUp, copyNode_eq_none (by omega)]
  rfl

theorem shiftDown_eq {lo len : ℕ} (h : lo + len < maxNdims) : p.shiftDown lo len =
    some { p with nodes := fun i => if lo ≤ i ∧ i < lo + len then p.nodes (i + 1) else p.nodes i } := by
  induction len generalizing p lo with
  | zero =>
    have hsame : (fun i => if lo ≤ i ∧ i < lo + 0 then p.nodes (i + 1) else p.nodes i) = p.nodes :=
      funext fun i => if_neg (by omega)
    rw [hsame]
    rfl
  | succ len ih =>
    rw [shiftDown, copyNode_eq (by omega) (by omega)]
    dsimp only [Option.bind_eq_bind, Option.bind_some]
    rw [ih (by omega)]
    dsimp only
    congr 2
    funext i
    rcases Nat.lt_trichotomy i lo with hi | rfl | hi
    · rw [if_neg (by omega), if_neg (by omega), Function.update_of_ne (Nat.ne_of_lt hi)]
    · rw [if_neg (by omega), if_pos (by omega), Function.update_self]
    · rw [Function.update_of_ne (by omega : i + 1 ≠ lo), Function.update_of_ne (Nat.ne_of_gt hi)]
      exact if_congr (by omega) rfl rfl

/-! ## Splits and moves -/

/-- Another state of the same problem: it fits into the array, and the fields behind the array are the same. -/
structure Keeps (p q : PrbT) : Prop where
  ndims : q.ndims ≤ maxNdims
  ioff : q.ioff = p.ioff
  ooff : q.ooff = p.ooff
  scaleType : q.scaleType = p.scaleType
  beta : q.beta = p.beta

theorem Keeps.refl (h : p.ndims ≤ maxNdims) : p.Keeps p := ⟨h, rfl, rfl, rfl, rfl⟩

theorem Keeps.trans {q r : PrbT} (h : p.Keeps q) (h' : q.Keeps r) : p.Keeps r :=
  ⟨h'.ndims, h'.ioff.trans h.ioff, h'.ooff.trans h.ooff, h'.scaleType.trans h.scaleType, h'.beta.trans h.beta⟩

/-- A step in memory does what a step on the list of the nodes does, and keeps the other fields. -/
structure Refines (p : PrbT) (x : Option PrbT) (y : Option Prb) : Prop where
  prb : x.map PrbT.prb = y
  keeps : ∀ q, x = some q → p.Keeps q

theorem Refines.same (h : p.ndims ≤ maxNdims) : p.Refines (some p) (some p.prb) :=
  ⟨rfl, fun _ hq => Option.some.inj hq ▸ Keeps.refl h⟩

theorem Refines.bind {x : Option PrbT} {y : Option Prb} {f : PrbT → Option PrbT} {g : Prb → Option Prb}
    (h : p.Refines x y) (hfg : ∀ q : PrbT, q.ndims ≤ maxNdims → y = some q.prb → q.Refines (f q) (g q.prb)) :
    p.Refines (x.bind f) (y.bind g) := by
  cases x with
  | none =>
    rw [← h.prb]
    exact ⟨rfl, fun q hq => by cases hq⟩
  | some q =>
    have hkeeps := h.keeps q rfl
    have hy : y = some q.prb := h.prb.symm
    have hq := hfg q hkeeps.ndims hy
    rw [hy]
    exact ⟨hq.prb, fun r hr => hkeeps.trans (hq.keeps r hr)⟩

/-- The nodes of a problem, as a list. -/
theorem prb_nodes_getElem? (p : PrbT) {i : ℕ} (hi : i < p.ndims) : p.prb.nodes[i]? = some (p.nodes i) := by
  unfold prb
  rw [List.getElem?_map, List.getElem?_range hi]
  rfl

/-- A problem with `nodes` as the nodes in use. -/
theorem prb_eq {nodes : List Node} (hlen : nodes.length = p.ndims) (h : ∀ i < p.ndims, nodes[i]? = some (p.nodes i)) :
    p.prb = { p.prb with nodes := nodes } := by
  have hnodes : (List.range p.ndims).map p.nodes = nodes := by
    refine List.ext_getElem? fun i => ?_
    rw [List.getElem?_map]
    by_cases hi : i < p.ndims
    · rw [List.getElem?_range hi, h i hi]
      rfl
    · rw [List.getElem?_eq_none (by rw [List.length_range]; omega), List.getElem?_eq_none (by omega)]
      rfl
  rw [← hnodes]
  rfl

theorem length_prb_nodes (p : PrbT) : p.prb.nodes.length = p.ndims := p.prb_ndims

/-- In a list with `x` and `y` in place of entry `dim`, the entries behind are one further. -/
theorem getElem?_replace_two {α : Type} (l : List α) {dim : ℕ} (hdim : dim < l.length) (x y : α) (i : ℕ) :
    (l.take dim ++ x :: y :: l.drop (dim + 1))[i]? =
      if i < dim then l[i]? else if i = dim then some x else if i = dim + 1 then some y else l[i - 1]? := by
  have hlen : (l.take dim).length = dim := List.length_take_of_le (by omega)
  split_ifs with hlt heq heq'
  · rw [List.getElem?_append_left (by omega), List.getElem?_take_of_lt hlt]
  · rw [List.getElem?_append_right (by omega), hlen, heq, Nat.sub_self]
    rfl
  · rw [List.getElem?_append_right (by omega), hlen, heq', Nat.add_sub_cancel_left]
    rfl
  · obtain ⟨k, rfl⟩ : ∃ k, i = dim + 2 + k := ⟨i - dim - 2, by omega⟩
    rw [List.getElem?_append_right (by omega), hlen, show dim + 2 + k - dim = k + 2 by omega,
      List.getElem?_cons_succ, List.getElem?_cons_succ, List.getElem?_drop]
    congr 1
    omega

theorem nodeSplit_refines {dim : ℕ} (hdim : dim < p.ndims) (n1 : ℕ) :
    p.Refines (p.nodeSplit dim n1) (prbNodeSplit p.prb dim n1) := by
  unfold nodeSplit prbNodeSplit
  dsimp only
  rw [prb_ndims]
  obtain ⟨len, hlen⟩ : ∃ len, p.ndims + 1 - (dim + 1) = len + 1 := ⟨p.ndims - dim - 1, by omega⟩
  split_ifs with hroom
  · have hload : ∀ q : PrbT, q.load dim = some (q.nodes dim) := fun q => if_pos (by omega)
    have hstore : ∀ (q : PrbT) (d : ℕ) (nd : Node), d ≤ p.ndims →
        q.store d nd = some { q with nodes := Function.update q.nodes d nd } := fun q d nd hd => if_pos (by omega)
    rw [shiftUp_eq (by omega)]
    dsimp only [Option.bind_eq_bind, Option.bind_some]
    rw [hload]
    dsimp only [Option.bind_some]
    rw [hstore _ _ _ (by omega)]
    dsimp only [Option.bind_some]
    rw [hstore _ _ _ (by omega)]
    refine ⟨?_, ?_⟩
    · rw [Option.map_some, prb_node hdim]
      have hlen' := p.length_prb_nodes
      refine congrArg some (prb_eq ?_ fun i hi => ?_)
      · simp only [List.length_append, List.length_cons, List.length_drop, List.length_take, hlen']
        omega
      · rw [getElem?_replace_two _ (by omega)]
        dsimp only at hi ⊢
        rcases Nat.lt_trichotomy i dim with hlt | rfl | hgt
        · rw [if_pos hlt, Function.update_of_ne (by omega), Function.update_of_ne (by omega), if_neg (by omega),
            prb_nodes_getElem? p (by omega)]
        · rw [if_neg (by omega), if_pos rfl, Function.update_self, if_neg (by omega)]
        · rw [if_neg (by omega), if_neg (by omega), Function.update_of_ne (by omega)]
          by_cases hnext : i = dim + 1
          · rw [if_pos hnext, hnext, Function.update_self, if_neg (by omega)]
          · rw [if_neg hnext, Function.update_of_ne hnext, if_pos (by omega), prb_nodes_getElem? p (by omega)]
    · rintro q hq
      obtain rfl := Option.some.inj hq
      exact ⟨by show p.ndims + 1 ≤ maxNdims; omega, rfl, rfl, rfl, rfl⟩
  · rw [hlen, shiftUp_eq_none (by omega)]
    exact ⟨rfl, fun q hq => by cases hq⟩




/-- A node that moves back to place `d1` moves the nodes in between one place to the front. -/
theorem getElem?_move_back {α : Type} (l : List α) {d0 d1 : ℕ} (hlt : d0 < d1) (h1 : d1 < l.length) (x : α) (i : ℕ) :
    ((l.eraseIdx d0).insertIdx d1 x)[i]? =
      if i = d1 then some x else if d0 ≤ i ∧ i < d1 then l[i + 1]? else l[i]? := by
  have hlen : (l.eraseIdx d0).length = l.length - 1 := List.length_eraseIdx_of_lt (by omega)
  rcases Nat.lt_trichotomy i d1 with hi | rfl | hi
  · rw [List.getElem?_insertIdx_of_lt hi, List.getElem?_eraseIdx, if_neg (Nat.ne_of_lt hi)]
    by_cases hi0 : i < d0
    · rw [if_pos hi0, if_neg (by omega)]
    · rw [if_neg hi0, if_pos (by omega)]
  · rw [List.getElem?_insertIdx_self, if_pos (by omega), if_pos rfl]
  · rw [List.getElem?_insertIdx_of_gt hi, List.getElem?_eraseIdx, if_neg (by omega), if_neg (Nat.ne_of_gt hi),
      if_neg (by omega), Nat.sub_add_cancel (by omega)]

/-- A node that moves to place `d1` in front moves the nodes in between one place back. -/
theorem getElem?_move_front {α : Type} (l : List α) {d0 d1 : ℕ} (hlt : d1 < d0) (h0 : d0 < l.length) (x : α) (i : ℕ) :
    ((l.eraseIdx d0).insertIdx d1 x)[i]? =
      if i = d1 then some x else if d1 < i ∧ i ≤ d0 then l[i - 1]? else l[i]? := by
  have hlen : (l.eraseIdx d0).length = l.length - 1 := List.length_eraseIdx_of_lt h0
  rcases Nat.lt_trichotomy i d1 with hi | rfl | hi
  · rw [List.getElem?_insertIdx_of_lt hi, List.getElem?_eraseIdx, if_pos (by omega), if_neg (Nat.ne_of_lt hi),
      if_neg (by omega)]
  · rw [List.getElem?_insertIdx_self, if_pos (by omega), if_pos rfl]
  · rw [List.getElem?_insertIdx_of_gt hi, List.getElem?_eraseIdx, if_neg (Nat.ne_of_gt hi)]
    by_cases hi0 : i ≤ d0
    · rw [if_pos (by omega), if_pos (by omega)]
    · rw [if_neg (by omega), if_neg (by omega), Nat.sub_add_cancel (by omega)]

/-- A move of node `d0` to place `d1` shifts the nodes in between by one place. -/
theorem nodeMove_refines {d0 d1 : ℕ} (hndims : p.ndims ≤ maxNdims) (h0 : d0 < p.ndims) (h1 : d1 < p.ndims) :
    p.Refines (p.nodeMove d0 d1) (some (prbNodeMove p.prb d0 d1)) := by
  unfold nodeMove prbNodeMove
  split_ifs with heq hlt
  · exact Refines.same hndims
  all_goals
    have hload : p.load d0 = some (p.nodes d0) := if_pos (by omega)
    have hstore : ∀ (q : PrbT) (nd : Node), q.store d1 nd = some { q with nodes := Function.update q.nodes d1 nd } :=
      fun q nd => if_pos (by omega)
    have hlen := p.length_prb_nodes
    have hlen' : ((p.prb.nodes.eraseIdx d0).insertIdx d1 (p.nodes d0)).length = p.ndims := by
      rw [List.length_insertIdx, List.length_eraseIdx_of_lt (by omega), if_pos (by omega)]
      omega
    rw [hload, prb_node h0]
    dsimp only [Option.bind_eq_bind, Option.bind_some]
  · rw [shiftDown_eq (by omega)]
    dsimp only [Option.bind_some]
    rw [hstore]
    refine ⟨congrArg some (prb_eq hlen' fun i hi => ?_), fun q hq => ?_⟩
    · rw [getElem?_move_back _ hlt (by omega)]
      dsimp only at hi ⊢
      by_cases hi1 : i = d1
      · rw [if_pos hi1, hi1, Function.update_self]
      · rw [if_neg hi1, Function.update_of_ne hi1]
        split_ifs with hmid hmid' hmid'
        · exact prb_nodes_getElem? p (by omega)
        · omega
        · omega
        · exact prb_nodes_getElem? p hi
    · obtain rfl := Option.some.inj hq
      exact ⟨hndims, rfl, rfl, rfl, rfl⟩
  · rw [shiftUp_eq (by omega)]
    dsimp only [Option.bind_some]
    rw [hstore]
    refine ⟨congrArg some (prb_eq hlen' fun i hi => ?_), fun q hq => ?_⟩
    · rw [getElem?_move_front _ (by omega) (by omega)]
      dsimp only at hi ⊢
      by_cases hi1 : i = d1
      · rw [if_pos hi1, hi1, Function.update_self]
      · rw [if_neg hi1, Function.update_of_ne hi1]
        split_ifs with hmid hmid' hmid'
        · exact prb_nodes_getElem? p (by omega)
        · omega
        · omega
        · exact prb_nodes_getElem? p hi
    · obtain rfl := Option.some.inj hq
      exact ⟨hndims, rfl, rfl, rfl, rfl⟩

/-! ## The passes -/

theorem ndims_of_nodeSplit {q : PrbT} {dim n1 : ℕ} (h : prbNodeSplit p.prb dim n1 = some q.prb) (hdim : dim < p.ndims)
    (hdvd : n1 ∣ (p.prb.node dim).n) : q.ndims = p.ndims + 1 := by
  rw [← prb_ndims, ← p.prb_ndims]
  exact (prbNodeSplit_spec (by rw [prb_ndims]; exact hdim) hdvd h).2

theorem moveUnitInputStride_refines (hndims : p.ndims ≤ maxNdims) (hneeded : cacheBlockingNeeded p.prb = true) :
    p.Refines p.moveUnitInputStride (MklDnn.moveUnitInputStride p.prb) := by
  unfold moveUnitInputStride MklDnn.moveUnitInputStride
  cases hidx : unitInputStrideIdx p.prb with
  | none => exact Refines.same hndims
  | some idx =>
    have hlt := (unitInputStrideIdx_spec hidx).1
    have hone := one_lt_ndims hneeded hidx
    rw [prb_ndims] at hlt hone
    have hloc : (if (p.prb.node idx).os % 4 ≠ 0 then 0 else 1) < 2 := by split_ifs <;> omega
    dsimp only
    generalize (if (p.prb.node idx).os % 4 ≠ 0 then 0 else 1) = loc at hloc ⊢
    split_ifs with hsplit
    · simp only [unitSplitNeeded, decide_eq_true_eq] at hsplit
      refine Refines.bind (nodeSplit_refines hlt 16) fun q hq hprb => ?_
      have hq' := ndims_of_nodeSplit hprb hlt (Nat.dvd_of_mod_eq_zero hsplit.2)
      exact nodeMove_refines hq (by omega) (by omega)
    · exact nodeMove_refines hndims hlt (by omega)

theorem splitForReuse_refines (hndims : p.ndims ≤ maxNdims) :
    p.Refines p.splitForReuse (MklDnn.splitForReuse p.prb) := by
  unfold splitForReuse MklDnn.splitForReuse
  split_ifs with hsplit
  · simp only [reuseSplitNeeded, decide_eq_true_eq, prb_ndims] at hsplit
    obtain ⟨htwo, -, -, -, hmod, -, -⟩ := hsplit
    refine Refines.bind (nodeSplit_refines (by omega) 16) fun q hq hprb => ?_
    have hq' := ndims_of_nodeSplit hprb (by omega) (Nat.dvd_of_mod_eq_zero hmod)
    exact nodeMove_refines hq (by omega) (by omega)
  · exact Refines.same hndims

theorem blockForCache_refines (hndims : p.ndims ≤ maxNdims) :
    p.Refines p.blockForCache (prbBlockForCache p.prb) := by
  unfold blockForCache prbBlockForCache
  split_ifs with hneeded
  · exact Refines.bind (moveUnitInputStride_refines hndims hneeded) fun q hq _ => splitForReuse_refines hq
  · exact Refines.same hndims

theorem borrowKerFromDrv_refines (hndims : p.ndims ≤ maxNdims) (b : Balance) :
    p.Refines ((p.borrowKerFromDrv b).map Prod.fst) ((MklDnn.borrowKerFromDrv b p.prb).map Prod.fst) := by
  unfold borrowKerFromDrv MklDnn.borrowKerFromDrv
  split_ifs with hwant
  · simp only [Balance.wantBorrowKerFromDrv, decide_eq_true_eq, prb_ndims] at hwant
    dsimp only [Option.bind_eq_bind]
    cases findDivisor (p.prb.node b.kdims).n (divUp kerPrbSizeMin b.szKerCur) with
    | none => exact ⟨rfl, fun q hq => by cases hq⟩
    | some w =>
      dsimp only [Option.bind_some]
      split_ifs
      · rw [Option.map_bind, Option.map_bind]
        exact Refines.bind (nodeSplit_refines hwant.1 w) fun q hq _ => Refines.same hq
      · exact Refines.same hndims
  · exact Refines.same hndims

theorem borrowDrvFromKer_refines (hndims : p.ndims ≤ maxNdims) {nthr : ℕ}
    (hwant : (MklDnn.balance nthr p.prb).wantBorrowDrvFromKer = true) :
    p.Refines (p.borrowDrvFromKer (MklDnn.balance nthr p.prb) (MklDnn.balance nthr p.prb).kdims)
      (MklDnn.borrowDrvFromKer (MklDnn.balance nthr p.prb) p.prb (MklDnn.balance nthr p.prb).kdims) := by
  obtain ⟨hk, hpos⟩ := kdims_of_wantDrv hwant
  rw [prb_ndims] at hpos
  unfold borrowDrvFromKer MklDnn.borrowDrvFromKer
  rw [if_pos hwant, if_pos hwant]
  dsimp only [Option.bind_eq_bind]
  cases findDivisor (p.prb.node ((MklDnn.balance nthr p.prb).kdims - 1)).n
      (divUp (MklDnn.balance nthr p.prb).szDrvMin (MklDnn.balance nthr p.prb).szDrvCur) with
  | none => exact ⟨rfl, fun q hq => by cases hq⟩
  | some w =>
    dsimp only [Option.bind_some]
    split_ifs
    · exact nodeSplit_refines (by omega) _
    · exact Refines.same hndims

theorem threadKernelBalance_fst (nthr : ℕ) (p : PrbT) : (p.threadKernelBalance nthr).map Prod.fst =
    (p.borrowKerFromDrv (MklDnn.balance nthr p.prb)).bind fun r =>
      r.1.borrowDrvFromKer (MklDnn.balance nthr p.prb) r.2 := by
  unfold threadKernelBalance
  dsimp only [Option.bind_eq_bind]
  rw [Option.map_bind]
  refine congrArg _ (funext fun r => ?_)
  rw [Function.comp]
  cases r.1.borrowDrvFromKer (MklDnn.balance nthr p.prb) r.2 <;> rfl

theorem threadKernelBalance_refines (hndims : p.ndims ≤ maxNdims) (nthr : ℕ) :
    p.Refines ((p.threadKernelBalance nthr).map Prod.fst) ((prbThreadKernelBalance nthr p.prb).map Prod.fst) := by
  have hlist : (prbThreadKernelBalance nthr p.prb).map Prod.fst =
      (MklDnn.borrowKerFromDrv (MklDnn.balance nthr p.prb) p.prb).bind fun r =>
        MklDnn.borrowDrvFromKer (MklDnn.balance nthr p.prb) r.1 r.2 := by
    rw [prbThreadKernelBalance_eq, Option.map_bind]
    refine congrArg _ (funext fun r => ?_)
    rw [Function.comp, Option.map_map]
    exact Option.map_id_apply
  rw [threadKernelBalance_fst, hlist]
  by_cases hwant : (MklDnn.balance nthr p.prb).wantBorrowDrvFromKer = true
  · -- then the kernel does not borrow
    have hker : p.borrowKerFromDrv (MklDnn.balance nthr p.prb) = some (p, (MklDnn.balance nthr p.prb).kdims) :=
      if_neg (not_wantKer_of_wantDrv hwant)
    rw [hker, borrowKerFromDrv_of_not_want (not_wantKer_of_wantDrv hwant), Option.bind_some, Option.bind_some]
    exact borrowDrvFromKer_refines hndims hwant
  · have hdrv : ∀ (q : PrbT) k, q.borrowDrvFromKer (MklDnn.balance nthr p.prb) k = some q := fun q k => if_neg hwant
    have hdrv' : ∀ (q : Prb) k, MklDnn.borrowDrvFromKer (MklDnn.balance nthr p.prb) q k = some q :=
      fun q k => if_neg hwant
    have hker := borrowKerFromDrv_refines hndims (MklDnn.balance nthr p.prb)
    rw [Option.map_eq_bind, Option.map_eq_bind] at hker
    simp only [hdrv, hdrv']
    exact hker

theorem splitPasses_refines (hndims : p.ndims ≤ maxNdims) (nthr : ℕ) :
    p.Refines ((p.splitPasses nthr).map Prod.fst)
      (((prbBlockForCache p.prb).bind (prbThreadKernelBalance nthr)).map Prod.fst) := by
  unfold splitPasses
  rw [Option.bind_eq_bind, Option.map_bind, Option.map_bind]
  exact Refines.bind (blockForCache_refines hndims) fun q hq _ => threadKernelBalance_refines hq nthr

/-- A problem in memory with the nodes of `q`. -/
def ofPrb (q : Prb) (beta : UInt32) : PrbT where
  itype := q.itype
  otype := q.otype
  ndims := q.ndims
  nodes := q.node
  ioff := q.ioff
  ooff := q.ooff
  scaleType := q.scaleType
  beta := beta

theorem prb_ofPrb (q : Prb) (beta : UInt32) : (ofPrb q beta).prb = q := by
  have hnodes : (List.range q.ndims).map q.node = q.nodes := by
    refine List.ext_getElem (by rw [List.length_map, List.length_range]; rfl) fun d hd hd' => ?_
    rw [List.getElem_map, List.getElem_range, Prb.node_eq hd']
  unfold prb ofPrb
  dsimp only
  rw [hnodes]

end PrbT

/-! ## The problems that reach the passes -/

theorem mergeLayouts_ne_full {steps ndims : ℕ} {i o : Chunk} {ss : ℤ} {il : List Chunk} {ol : List (Chunk × ℤ)}
    {nodes : List Node} (h : mergeLayouts (steps + 1) ndims (i :: il) ((o, ss) :: ol) = .ok nodes) :
    ndims ≠ maxNdims := by
  unfold mergeLayouts at h
  dsimp only at h
  split_ifs at h with hid hfull
  all_goals exact hfull

/-- The merge loop stops before the array is full. -/
theorem mergeLayouts_length {steps ndims : ℕ} (hndims : ndims ≤ maxNdims) {il : List Chunk} {ol : List (Chunk × ℤ)}
    {nodes : List Node} (h : mergeLayouts steps ndims il ol = .ok nodes) : ndims + nodes.length ≤ maxNdims := by
  induction steps generalizing ndims il ol nodes with
  | zero =>
    obtain rfl := Except.ok.inj h
    exact hndims
  | succ steps ih =>
    rcases il with _ | ⟨i, il⟩
    · rw [mergeLayouts_nil_left] at h
      obtain rfl := Except.ok.inj h
      exact hndims
    rcases ol with _ | ⟨⟨o, ss⟩, ol⟩
    · rw [mergeLayouts_nil_right] at h
      obtain rfl := Except.ok.inj h
      exact hndims
    have hne := mergeLayouts_ne_full h
    obtain ⟨-, ⟨-, nodes', h', rfl⟩ | ⟨-, nodes', h', rfl⟩ | ⟨-, nodes', h', rfl⟩⟩ := mergeLayouts_cases h
    all_goals
      have hlen := ih (by omega) h'
      rw [List.length_cons]
      omega

/-- Layouts without empty entries have no empty node. -/
theorem mergeLayouts_pos {steps ndims : ℕ} {il : List Chunk} {ol : List (Chunk × ℤ)} {nodes : List Node}
    (hil : ∀ c ∈ il, 0 < c.n) (hol : ∀ c ∈ ol, 0 < c.1.n) (h : mergeLayouts steps ndims il ol = .ok nodes) :
    ∀ nd ∈ nodes, 0 < nd.n := by
  induction steps generalizing ndims il ol nodes with
  | zero =>
    obtain rfl := Except.ok.inj h
    exact fun nd hnd => by cases hnd
  | succ steps ih =>
    rcases il with _ | ⟨i, il⟩
    · rw [mergeLayouts_nil_left] at h
      obtain rfl := Except.ok.inj h
      exact fun nd hnd => by cases hnd
    rcases ol with _ | ⟨⟨o, ss⟩, ol⟩
    · rw [mergeLayouts_nil_right] at h
      obtain rfl := Except.ok.inj h
      exact fun nd hnd => by cases hnd
    obtain ⟨hi, hil⟩ := List.forall_mem_cons.mp hil
    obtain ⟨ho, hol⟩ := List.forall_mem_cons.mp hol
    obtain ⟨-, ⟨-, nodes', h', rfl⟩ | ⟨hlt, nodes', h', rfl⟩ | ⟨hlt, nodes', h', rfl⟩⟩ := mergeLayouts_cases h
    · exact List.forall_mem_cons.mpr ⟨hi, ih hil hol h'⟩
    · have hfactor : 0 < o.n / i.n := Nat.div_pos (Nat.le_of_lt hlt) hi
      exact List.forall_mem_cons.mpr ⟨hi, ih hil (List.forall_mem_cons.mpr ⟨hfactor, hol⟩) h'⟩
    · have hfactor : 0 < i.n / o.n := Nat.div_pos (Nat.le_of_lt hlt) ho
      exact List.forall_mem_cons.mpr ⟨ho, ih (List.forall_mem_cons.mpr ⟨hfactor, hil⟩) hol h'⟩

section Accepted

variable {imd omd : MemoryDesc} {scales : OutputScales} {p : Prb} (h : Accepted imd omd scales p)
  (hi : imd.WellFormed) (hndims : omd.ndims = imd.ndims)

include h

theorem Accepted.ndims_le : p.ndims ≤ maxNdims := by
  have hlen := mergeLayouts_length (Nat.zero_le _) h.nodes
  rwa [Nat.zero_add] at hlen

include hi hndims

theorem Accepted.total_pos_of_nodes : 0 < p.total := by
  have hchunks : ∀ md : MemoryDesc, md.isBlockingDesc = true → md.ndims = imd.ndims →
      (∀ d < imd.ndims, md.paddedDims d = imd.paddedDims d) →
      (∀ d < imd.ndims, imd.paddedDims d % innerBlocks md.blocking.inner d = 0) →
      ∀ c ∈ (List.range md.ndims).flatMap (dimChunks md), 0 < c.n := by
    intro md hk hn hpadded hmod c hc
    obtain ⟨d, hd, hcd⟩ := List.mem_flatMap.mp hc
    rw [List.mem_range, hn] at hd
    have hprod := chunkProd_dimChunks hk (by rw [hpadded d hd]; exact hmod d hd)
    have hdvd : c.n ∣ chunkProd (dimChunks md d) := List.dvd_prod (List.mem_map_of_mem hcd)
    rw [hprod, hpadded d hd] at hdvd
    exact Nat.pos_of_dvd_of_pos hdvd (hi.paddedDims_pos h.nonzero_input hd)
  have hpos := mergeLayouts_pos (hchunks imd h.blocking_input rfl (fun _ _ => rfl) h.mod_input) ?_ h.nodes
  · refine Nat.pos_of_ne_zero (List.prod_ne_zero fun hzero => ?_)
    obtain ⟨nd, hnd, hn⟩ := List.mem_map.mp hzero
    exact absurd (hpos nd hnd) (by omega)
  · intro c hc
    have hids : ∀ d, ∀ c ∈ dimChunks omd d, c.id = d := fun d c => dimChunks_ids h.blocking_output
    rw [scaleStrides_flatMap _ _ _ hids] at hc
    refine hchunks omd h.blocking_output hndims (fun d hd => (h.paddedDims_eq d hd).symm) h.mod_output c.1 ?_
    obtain ⟨d, hd, hcd⟩ := List.mem_flatMap.mp hc
    have hmem := List.mem_map_of_mem (f := Prod.fst) hcd
    rw [scaledChunks_chunks] at hmem
    exact List.mem_flatMap.mpr ⟨d, hd, hmem⟩

end Accepted

theorem length_simplifyNodes_le (nd : Node) (nds : List Node) : (simplifyNodes nd nds).length ≤ nds.length + 1 := by
  induction nds generalizing nd with
  | nil => exact le_rfl
  | cons nextNode nds ih =>
    rw [simplifyNodes, List.length_cons]
    split_ifs
    · exact Nat.le_succ_of_le (ih _)
    · rw [List.length_cons]
      exact Nat.succ_le_succ (ih _)

theorem ndims_prbSimplify_le (p : Prb) : (prbSimplify p).ndims ≤ p.ndims := by
  unfold prbSimplify
  split
  · exact le_rfl
  · next nd nds hnodes =>
    rw [Prb.ndims, Prb.ndims, hnodes]
    exact length_simplifyNodes_le nd nds

theorem ndims_prbNormalize (p : Prb) : (prbNormalize p).ndims = p.ndims :=
  (normalizeNodes_perm p.ndims p.nodes).length_eq

/-- For the problems that `prb_init` and `prb_simplify` make, all accesses of the splits and moves are inside of the array,
and the fields behind it keep their values, if and only if no split is due without room for it. -/
theorem splitPasses_inBounds_iff {imd omd : MemoryDesc} {scales : OutputScales} {p : Prb} (nthr : ℕ) {a : PrbT}
    (hi : imd.WellFormed) (hndims : omd.ndims = imd.ndims) (h : prbInit imd omd scales = .ok p)
    (ha : a.prb = prbSimplify (prbNormalize p)) :
    (∃ b ndimsKerMax, a.splitPasses nthr = some (b, ndimsKerMax) ∧
        b.ioff = a.ioff ∧ b.ooff = a.ooff ∧ b.scaleType = a.scaleType ∧ b.beta = a.beta) ↔
      SplitsFit nthr a.prb := by
  have hacc := prbInit_accepted h
  have hle : a.ndims ≤ maxNdims := by
    rw [← a.prb_ndims, ha]
    exact (ndims_prbSimplify_le _).trans ((ndims_prbNormalize p).trans_le hacc.ndims_le)
  have hrefines := PrbT.splitPasses_refines hle nthr
  have hsome : (a.splitPasses nthr).isSome ↔ SplitsFit nthr a.prb := by
    rw [ha, ← prbPasses_isSome (hacc.total_pos_of_nodes hi hndims)]
    have hmap := congrArg Option.isSome hrefines.prb
    rw [Option.isSome_map, Option.isSome_map, Option.isSome_map, ha] at hmap
    rw [hmap]
    exact Iff.rfl
  rw [← hsome]
  constructor
  · rintro ⟨b, k, hb, -⟩
    rw [hb]
    rfl
  · intro hb
    obtain ⟨⟨b, k⟩, hb⟩ := Option.isSome_iff_exists.mp hb
    have hkeeps := hrefines.keeps b (by rw [hb]; rfl)
    exact ⟨b, k, hb, hkeeps.ioff, hkeeps.ooff, hkeeps.scaleType, hkeeps.beta⟩

theorem splitPasses_inBounds_iff_aBcd8b :
    ∃ imd omd p, ∃ a : PrbT,
      memoryDescInitByTag 4 (fun d => [2, 16, 3, 5].getD d 0) .f32 .abcd = .ok imd ∧
      memoryDescInitByTag 4 (fun d => [2, 16, 3, 5].getD d 0) .f32 .aBcd8b = .ok omd ∧
      prbInit imd omd ⟨true, 0⟩ = .ok p ∧ a.prb = prbSimplify (prbNormalize p) ∧
      ((∃ b ndimsKerMax, a.splitPasses 4 = some (b, ndimsKerMax) ∧
          b.ioff = a.ioff ∧ b.ooff = a.ooff ∧ b.scaleType = a.scaleType ∧ b.beta = a.beta) ↔
        SplitsFit 4 a.prb) := by
  have hall : (memoryDescInitByTag 4 (fun d => [2, 16, 3, 5].getD d 0) .f32 .abcd).toOption.any
      (fun imd => (memoryDescInitByTag 4 (fun d => [2, 16, 3, 5].getD d 0) .f32
        .aBcd8b).toOption.any fun omd =>
          decide (imd.formatKind = .blocked ∧ omd.ndims = imd.ndims) &&
            (prbInit imd omd ⟨true, 0⟩).toOption.any fun _ => true) = true := by
    decide +kernel
  obtain ⟨imd, himd, hrest⟩ := Checks.exists_ok_of_any hall
  obtain ⟨omd, homd, hrest⟩ := Checks.exists_ok_of_any hrest
  rw [Bool.and_eq_true, decide_eq_true_eq] at hrest
  obtain ⟨⟨hik, hndims⟩, hinit⟩ := hrest
  obtain ⟨p, hp, -⟩ := Checks.exists_ok_of_any hinit
  have hi := memoryDescInitByTag_wellFormed himd hik
  have ha := PrbT.prb_ofPrb (prbSimplify (prbNormalize p)) 0
  exact ⟨imd, omd, p, _, himd, homd, hp, ha, splitPasses_inBounds_iff 4 hi hndims hp ha⟩

/-- The transposition of twelve dimensions with eleven nodes left after `prb_simplify`: the split of the balance stores
the node behind the last one to `nodes[max_ndims]`. -/
theorem splitPasses_leaves_array :
    ∃ imd omd p, ∃ a : PrbT,
      memoryDescInitByStrides 12 (fun d => [2, 2, 2, 2, 2, 64, 1, 2, 2, 2, 2, 2].getD d 0) .f32
        (some fun d => [1, 2, 4, 8, 16, 32, 2048, 2048, 4096, 8192, 16384, 32768].getD d 0) =
          .ok imd ∧
      memoryDescInitByStrides 12 (fun d => [2, 2, 2, 2, 2, 64, 1, 2, 2, 2, 2, 2].getD d 0) .f32 none =
          .ok omd ∧
      prbInit imd omd ⟨true, 0⟩ = .ok p ∧ a.prb = prbSimplify (prbNormalize p) ∧ a.ndims + 1 = maxNdims ∧
      ¬ ∃ b ndimsKerMax, a.splitPasses 4 = some (b, ndimsKerMax) ∧
        b.ioff = a.ioff ∧ b.ooff = a.ooff ∧ b.scaleType = a.scaleType ∧ b.beta = a.beta := by
  have hall : (memoryDescInitByStrides 12
      (fun d => [2, 2, 2, 2, 2, 64, 1, 2, 2, 2, 2, 2].getD d 0) .f32
      (some fun d =>
        [1, 2, 4, 8, 16, 32, 2048, 2048, 4096, 8192, 16384, 32768].getD d 0)).toOption.any
      (fun imd => (memoryDescInitByStrides 12
        (fun d => [2, 2, 2, 2, 2, 64, 1, 2, 2, 2, 2, 2].getD d 0) .f32 none).toOption.any
        fun omd => (prbInit imd omd ⟨true, 0⟩).toOption.any fun p =>
            decide ((prbSimplify (prbNormalize p)).ndims + 1 = maxNdims) &&
              ((PrbT.ofPrb (prbSimplify (prbNormalize p)) 0).splitPasses 4).isNone) = true := by
    decide +kernel
  obtain ⟨imd, himd, hrest⟩ := Checks.exists_ok_of_any hall
  obtain ⟨omd, homd, hrest⟩ := Checks.exists_ok_of_any hrest
  obtain ⟨p, hp, hpasses⟩ := Checks.exists_ok_of_any hrest
  rw [Bool.and_eq_true, decide_eq_true_eq] at hpasses
  refine ⟨imd, omd, p, _, himd, homd, hp, PrbT.prb_ofPrb _ 0, hpasses.1, ?_⟩
  rintro ⟨b, k, hb, -⟩
  rw [hb] at hpasses
  cases hpasses.2

end MklDnn
