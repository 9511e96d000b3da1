import MklDnn.Rnn.Proofs.RnnGridProofs

/-!
# Proofs: the workspace of an RNN

Which accesses of the forward pass stay in their part of the workspace. Without initial states the cell states are set to zero for
every cell, but only an LSTM has a part of the workspace for them.
-/

open Interleaving MixedRadix

namespace MklDnn.RefRnn

/-! ## The parts of the workspace -/

/-- The part of the workspace in which an element is, in bytes, and the number of the element there. -/
structure Place where
  offset : ℕ
  size : ℕ
  index : ℕ

/-- The first byte of the element. -/
def Place.address (p : Place) : ℕ := p.offset + p.index * 4

/-- The pointers of `execute_`. The tensors of the user are not in the workspace. -/
def place (rnn : RnnConf) : Elem → Option Place
  | .wsStates x => some ⟨(setOffsets rnn).wsStates, rnn.wsStatesSize, x⟩
  | .wsCStates x => some ⟨(setOffsets rnn).wsCStates, rnn.wsCStatesSize, x⟩
  | .wsGates x => some ⟨(setOffsets rnn).wsGates, rnn.wsGatesSize, x⟩
  | .wsGrid x => some ⟨(setOffsets rnn).wsGridComp, rnn.wsGridCompSize, x⟩
  | .wsCell x => some ⟨(setOffsets rnn).wsCellComp, rnn.wsCellCompSize, x⟩
  | _ => none

/-- An element of the workspace is inside its part. -/
def Fits (rnn : RnnConf) (e : Elem) : Prop := ∀ p, place rnn e = some p → p.index * 4 + 4 ≤ p.size

theorem fits_user {rnn : RnnConf} {e : Elem} (h : place rnn e = none) : Fits rnn e := by
  intro p hp
  rw [h] at hp
  cases hp

section Layout

variable {rnn : RnnConf} {e e' : Elem} {p p' : Place}

/-- The parts follow each other. -/
theorem setOffsets_le (rnn : RnnConf) :
    (setOffsets rnn).wsGates + rnn.wsGatesSize ≤ (setOffsets rnn).wsStates ∧
    (setOffsets rnn).wsStates + rnn.wsStatesSize ≤ (setOffsets rnn).wsCStates ∧
    (setOffsets rnn).wsCStates + rnn.wsCStatesSize ≤ (setOffsets rnn).wsDiffStates ∧
    (setOffsets rnn).wsDiffStates + rnn.wsDiffStatesSize ≤ (setOffsets rnn).wsGridComp ∧
    (setOffsets rnn).wsGridComp + rnn.wsGridCompSize ≤ (setOffsets rnn).wsCellComp ∧
    (setOffsets rnn).wsCellComp + rnn.wsCellCompSize =
      if rnn.isTraining then (setOffsets rnn).workspaceSize else (setOffsets rnn).scratchpadSize := by
  have hpage : 0 < 4096 := by decide
  refine ⟨le_rndUp hpage, le_rndUp hpage, le_rndUp hpage, le_rndUp hpage, le_rndUp hpage, ?_⟩
  simp only [setOffsets]
  split_ifs <;> rfl

/-- No two elements share a byte. -/
theorem Fits.apart (h : Fits rnn e) (h' : Fits rnn e') (hne : e ≠ e') (hp : place rnn e = some p) (hp' : place rnn e' = some p') :
    p.address + 4 ≤ p'.address ∨ p'.address + 4 ≤ p.address := by
  obtain ⟨hgates, hstates, hcStates, hdiff, hgrid, -⟩ := setOffsets_le rnn
  have hfit := h p hp
  have hfit' := h' p' hp'
  unfold Place.address
  cases e <;> cases e' <;> simp only [place, Option.some.injEq, reduceCtorEq] at hp hp' <;> subst hp hp' <;>
    simp only [ne_eq, Elem.wsStates.injEq, Elem.wsCStates.injEq, Elem.wsGates.injEq, Elem.wsGrid.injEq, Elem.wsCell.injEq] at * <;>
    omega

/-- All elements are inside the buffer. -/
theorem Fits.le_size (h : Fits rnn e) (hp : place rnn e = some p) :
    p.address + 4 ≤ if rnn.isTraining then (setOffsets rnn).workspaceSize else (setOffsets rnn).scratchpadSize := by
  obtain ⟨hgates, hstates, hcStates, hdiff, hgrid, hend⟩ := setOffsets_le rnn
  have hfit := h p hp
  rw [← hend]
  unfold Place.address
  cases e <;> simp only [place, Option.some.injEq, reduceCtorEq] at hp <;> subst hp <;> dsimp only at hfit ⊢ <;> omega

end Layout

/-! ## The elements of a cell -/

section Elements

variable {R : Type*} {args : ExecArgs R} {lay dir iter b s r : ℕ}

/-- A place in a block, and the block in the grid. -/
theorem block_lt {rows q b s n m k : ℕ} (hq : q < rows) (hb : b < n) (hs : s < m) (hk : n * m ≤ k) : q * k + (b * m + s) < rows * k := by
  have hrow : s + b * m < n * m := add_mul_lt hs hb
  have hlt : b * m + s < k := by omega
  rw [Nat.add_comm]
  exact add_mul_lt hlt hq

/-- A cell of the grid. -/
theorem cell_lt {layers iters dirs : ℕ} (hlay : lay < layers) (hdir : dir < dirs) (hiter : iter < iters) :
    (lay * dirs + dir) * iters + iter < layers * dirs * iters := by
  rw [Nat.add_comm]
  apply add_mul_lt hiter
  rw [Nat.add_comm]
  exact add_mul_lt hdir hlay

theorem fits_of_lt {e : Elem} {p : Place} {count : ℕ} (hp : place args.rnn e = some p) (hsize : p.size = count * 4)
    (hlt : p.index < count) : Fits args.rnn e := by
  intro p' hp'
  rw [hp] at hp'
  obtain rfl := Option.some.inj hp'
  omega

theorem wsStates_lt (hlay : lay ≤ args.rnn.nLayer) (hdir : dir < args.rnn.nDir) (hiter : iter ≤ args.rnn.nIter) (hb : b < args.rnn.mb)
    (hs : s < args.rnn.statesWsLd) : args.rnn.wsStates lay dir iter + (b * args.rnn.statesWsLd + s) <
      (args.rnn.nLayer + 1) * args.rnn.nDir * (args.rnn.nIter + 1) * args.rnn.mb * args.rnn.statesWsLd := by
  rw [Nat.mul_assoc _ args.rnn.mb]
  exact block_lt (cell_lt (Nat.lt_succ_of_le hlay) hdir (Nat.lt_succ_of_le hiter)) hb hs le_rfl

theorem fits_st (hlay : lay ≤ args.rnn.nLayer) (hdir : dir < args.rnn.nDir) (hiter : iter ≤ args.rnn.nIter) (hb : b < args.rnn.mb)
    (hs : s < args.rnn.statesWsLd) : Fits args.rnn (st args lay dir iter b s) :=
  fits_of_lt rfl rfl (wsStates_lt hlay hdir hiter hb hs)

theorem fits_cst (hk : args.rnn.cellKind = .vanillaLstm) (hlay : lay ≤ args.rnn.nLayer) (hdir : dir < args.rnn.nDir)
    (hiter : iter ≤ args.rnn.nIter) (hb : b < args.rnn.mb) (hs : s < args.rnn.statesWsLd) : Fits args.rnn (cst args lay dir iter b s) :=
  fits_of_lt rfl (if_pos hk) (wsStates_lt hlay hdir hiter hb hs)

theorem fits_gateRow (hlay : lay < args.rnn.nLayer) (hdir : dir < args.rnn.nDir) (hiter : iter < args.rnn.nIter) (hb : b < args.rnn.mb)
    (hr : r < args.rnn.gatesWsLd) : Fits args.rnn (gateRow args (cellPtrs args lay dir iter) b r) := by
  refine fits_of_lt rfl rfl ?_
  show _ < args.rnn.nLayer * args.rnn.nDir * args.rnn.nIter * args.rnn.mb * args.rnn.gatesWsLd
  rw [Nat.mul_assoc _ args.rnn.mb]
  exact block_lt (cell_lt hlay hdir hiter) hb hr le_rfl

theorem fits_wsCell (hk : args.rnn.cellKind = .lbrGru) (hb : b < args.rnn.mb) (hr : r < args.rnn.gatesWsLd) :
    Fits args.rnn (.wsCell (b * args.rnn.gatesWsLd + r)) := by
  refine fits_of_lt rfl (if_pos hk) ?_
  have hlt : r + b * args.rnn.gatesWsLd < args.rnn.mb * args.rnn.gatesWsLd := add_mul_lt hr hb
  show b * args.rnn.gatesWsLd + r < _
  omega

theorem fits_whB (hk : args.rnn.cellKind = .lbrGru) (htraining : args.rnn.isTraining = true) (hlay : lay < args.rnn.nLayer)
    (hdir : dir < args.rnn.nDir) (hiter : iter < args.rnn.nIter) (hb : b < args.rnn.mb) (hs : s < args.rnn.dic) :
    Fits args.rnn (whB args (cellPtrs args lay dir iter) b s) := by
  have hsize : args.rnn.wsGridCompSize = args.rnn.nLayer * args.rnn.nDir * args.rnn.nIter * args.rnn.wsPerCell * 4 := by
    simp [RnnConf.wsGridCompSize, hk, htraining]
  refine fits_of_lt rfl hsize (block_lt (cell_lt hlay hdir hiter) hb hs ?_)
  simp only [RnnConf.wsPerCell, if_pos hk, Nat.one_mul]
  omega

end Elements

/-! ## The accesses -/

section Accesses

variable {R : Type*} [CommRing R] {args : ExecArgs R} {lay dir iter : ℕ} {P : Elem → Prop}

/-- What a product accesses. -/
theorem gemm_within {m n k lda ldb ldc : ℕ} {a : ℕ → R} {b c : ℕ → Elem} {beta : R} (hb : ∀ j < n, ∀ p < k, P (b (j * ldb + p)))
    (hc : ∀ j < n, ∀ i < m, P (c (j * ldc + i))) : (gemm m n k a lda b ldb beta c ldc).Within P := by
  intro idx _ e he
  obtain ⟨j, hj, he⟩ := List.mem_flatMap.mp he
  obtain ⟨i, hi, rfl⟩ := List.mem_map.mp he
  rw [List.mem_range] at hi hj
  have hdst : P (c (i + j * ldc)) := Nat.add_comm (j * ldc) i ▸ hc j hj i hi
  refine ⟨hdst, fun mem mem' h => ?_⟩
  have hsum : ((List.range k).map fun p => a (i + p * lda) * mem (b (p + j * ldb))) =
      (List.range k).map fun p => a (i + p * lda) * mem' (b (p + j * ldb)) := by
    refine List.map_congr_left fun p hp => ?_
    rw [h _ (Nat.add_comm (j * ldb) p ▸ hb j hj p (List.mem_range.mp hp))]
  dsimp only
  rw [h _ hdst, hsum]

omit [CommRing R] in
/-- What a post-operation accesses. -/
theorem postgemm_within {ptrs : CellPtrs R} {body : ℕ → ℕ → List (Assign Elem R)} (hbody : ∀ i j, ∀ e ∈ body i j, PostOp args ptrs i j e)
    (hP : ∀ i < args.rnn.mb, ∀ j < args.rnn.dic, ∀ a, Own args ptrs i j a ∨ Reads args ptrs i j a → P a) :
    (postgemm args body).Within P := by
  intro idx hidx e he
  obtain ⟨i, hi, rfl⟩ := digits_singleton.mp hidx
  obtain ⟨j, hj, he⟩ := List.mem_flatMap.mp he
  have hop := hbody i j e he
  have hacc := hP i hi j (List.mem_range.mp hj)
  exact ⟨hacc _ (Or.inl hop.dst), fun mem mem' h => hop.reads mem mem' fun a ha => h a (hacc a ha)⟩

omit [CommRing R] in
theorem fits_postgemm (hlay : lay < args.rnn.nLayer) (hdir : dir < args.rnn.nDir) (hiter : iter < args.rnn.nIter) {i j : ℕ}
    (hi : i < args.rnn.mb) (hj : j < args.rnn.dic) {a : Elem}
    (ha : Own args (cellPtrs args lay dir iter) i j a ∨ Reads args (cellPtrs args lay dir iter) i j a) : Fits args.rnn a := by
  have hld : j < args.rnn.statesWsLd := hj.trans_le args.rnn.dic_le_statesWsLd
  rcases ha with ha | rfl | ⟨hk, rfl⟩ | ⟨hk, g, hg, rfl⟩
  · cases a with
    | wsGates x =>
      obtain ⟨g, hg, rfl⟩ := ha
      exact fits_gateRow hlay hdir hiter hi (args.rnn.gate_lt hg hj)
    | wsStates x =>
      obtain rfl := ha
      exact fits_st hlay hdir hiter hi hld
    | wsCStates x =>
      obtain ⟨hk, rfl⟩ := ha
      exact fits_cst hk hlay hdir hiter hi hld
    | wsGrid x =>
      obtain ⟨⟨hk, htraining⟩, rfl⟩ := ha
      exact fits_whB hk htraining hlay hdir hiter hi hj
    | _ => cases ha
  · exact fits_st hlay hdir hiter.le hi hld
  · exact fits_cst hk hlay hdir hiter.le hi hld
  · exact fits_wsCell hk hi (args.rnn.gate_lt hg hj)

/-- A cell stays in its part of the workspace. -/
theorem cellFunc_within (hlay : lay < args.rnn.nLayer) (hdir : dir < args.rnn.nDir) (hiter : iter < args.rnn.nIter) :
    ∀ ph ∈ cellFunc args (cellPtrs args lay dir iter), ph.Within (Fits args.rnn) := by
  set ptrs := cellPtrs args lay dir iter with hptrs
  have hslc := args.rnn.slc_le_statesWsLd
  have hsic := args.rnn.sic_le_statesWsLd
  have hgates := args.rnn.le_gatesWsLd
  have hrows : ∀ j < args.rnn.mb, ∀ r < args.rnn.gatesWsLd, Fits args.rnn (.wsGates (ptrs.wsGates + (j * args.rnn.gatesWsLd + r))) :=
    fun j hj r hr => fits_gateRow hlay hdir hiter hj hr
  have hlayer : ∀ ph ∈ cellGemmLayer args ptrs, ph.Within (Fits args.rnn) := by
    intro ph hph
    unfold cellGemmLayer at hph
    split_ifs at hph
    · cases hph
    · obtain rfl := List.mem_singleton.mp hph
      exact gemm_within (fun j hj p hp => fits_st hlay.le hdir hiter hj (hp.trans_le hslc))
        fun j hj r hr => hrows j hj r (hr.trans_le hgates)
  have hbefore : ∀ j < args.rnn.mb, ∀ p < args.rnn.sic, Fits args.rnn (.wsStates (ptrs.statesTm1L + (j * args.rnn.statesWsLd + p))) :=
    fun j hj p hp => fits_st hlay hdir hiter.le hj (hp.trans_le hsic)
  have hafter : ∀ j < args.rnn.mb, ∀ p < args.rnn.sic, Fits args.rnn (.wsStates (ptrs.statesTL + (j * args.rnn.statesWsLd + p))) :=
    fun j hj p hp => fits_st hlay hdir hiter hj (hp.trans_le hsic)
  have hpost : ∀ i < args.rnn.mb, ∀ j < args.rnn.dic, ∀ a, Own args ptrs i j a ∨ Reads args ptrs i j a → Fits args.rnn a :=
    fun i hi j hj a ha => fits_postgemm hlay hdir hiter hi hj ha
  rcases hk : args.rnn.cellKind with _ | _ | _ | _ <;>
    simp only [cellFunc, hk, cellExecution, cellExecutionGru, cellExecutionGruLbr, List.forall_mem_append, List.forall_mem_cons]
  · refine ⟨hlayer, gemm_within hbefore fun j hj r hr => hrows j hj r (hr.trans_le hgates), ?_, List.forall_mem_nil _⟩
    exact postgemm_within (rnnPostgemm_postOp (by simp [RnnConf.nGates, hk])) hpost
  · refine ⟨hlayer, gemm_within hbefore fun j hj r hr => hrows j hj r (hr.trans_le hgates), ?_, List.forall_mem_nil _⟩
    exact postgemm_within (lstmPostgemm_postOp hk) hpost
  · have hthree := RnnConf.nGates_gru hk
    rw [hthree] at hgates
    refine ⟨hlayer, gemm_within hbefore fun j hj r hr => hrows j hj r ?_, postgemm_within (gruPart1Postgemm_postOp hthree) hpost,
      gemm_within hafter fun j hj r hr => ?_, postgemm_within (gruPart2Postgemm_postOp hthree) hpost, List.forall_mem_nil _⟩
    · rw [hthree] at hr
      omega
    · have hrow := hrows j hj (2 * args.rnn.dic + r) (by omega)
      have heq : ptrs.wsGates + 2 * args.rnn.dic + (j * args.rnn.gatesWsLd + r) =
          ptrs.wsGates + (j * args.rnn.gatesWsLd + (2 * args.rnn.dic + r)) := by omega
      rwa [heq]
  · refine ⟨hlayer, gemm_within hbefore fun j hj r hr => fits_wsCell hk hj (hr.trans_le hgates), ?_, List.forall_mem_nil _⟩
    exact postgemm_within (gruLbrPostgemm_postOp hk) hpost

/-- The grid stays in its parts of the workspace. -/
theorem linearExecution_within : ∀ ph ∈ linearExecution args, ph.Within (Fits args.rnn) := by
  intro ph hph
  obtain ⟨dir, hdir, hph⟩ := List.mem_flatMap.mp hph
  obtain ⟨lay, hlay, hph⟩ := List.mem_flatMap.mp hph
  rw [List.mem_range] at hdir hlay
  rcases List.mem_append.mp hph with hph | hph
  · unfold mergedGemmLayer at hph
    split_ifs at hph
    · obtain rfl := List.mem_singleton.mp hph
      have hcol : ∀ j < args.rnn.mb * args.rnn.nIter, ∃ t < args.rnn.nIter, ∃ b < args.rnn.mb, j = b + t * args.rnn.mb := by
        intro j hj
        have hmb : 0 < args.rnn.mb := Nat.pos_of_mul_pos_right (Nat.zero_lt_of_lt hj)
        refine ⟨j / args.rnn.mb, Nat.div_lt_of_lt_mul hj, j % args.rnn.mb, Nat.mod_lt _ hmb, ?_⟩
        rw [Nat.mul_comm, Nat.mod_add_div]
      refine gemm_within (fun j hj p hp => ?_) fun j hj r hr => ?_
      · obtain ⟨t, ht, b, hb, rfl⟩ := hcol j hj
        rw [RnnConf.wsStates_column]
        exact fits_st hlay.le hdir ht hb (hp.trans_le args.rnn.slc_le_statesWsLd)
      · obtain ⟨t, ht, b, hb, rfl⟩ := hcol j hj
        rw [RnnConf.wsGates_column]
        exact fits_gateRow hlay hdir ht hb (hr.trans_le args.rnn.le_gatesWsLd)
    · cases hph
  · obtain ⟨iter, hiter, hph⟩ := List.mem_flatMap.mp hph
    exact cellFunc_within hlay hdir (List.mem_range.mp hiter) ph hph

omit [CommRing R] in
theorem copyInitLayer_within : (copyInitLayer args).Within (Fits args.rnn) := by
  intro idx hidx e he
  obtain ⟨it, hit, b, hb, dir, hdir, c, hc, rfl⟩ := mem_copyInitLayer hidx he
  exact ⟨fits_st (Nat.zero_le _) hdir (iterOf_spec hit dir).2 hb (hc.trans_le args.rnn.slc_le_statesWsLd), fun _ _ _ => rfl⟩

/-- `copy_init_iter` stays in the workspace if and only if there are states, or the cells have states of their own. -/
theorem copyInitIter_within (hlayers : 0 < args.rnn.nLayer) (hiters : 0 < args.rnn.nIter) (hmb : 0 < args.rnn.mb)
    (hdic : 0 < args.rnn.dic) :
    (copyInitIter args).Within (Fits args.rnn) ↔ args.srcIter ≠ none ∨ args.rnn.cellKind = .vanillaLstm := by
  have hld := args.rnn.dic_le_statesWsLd
  constructor
  · intro h
    by_contra hnot
    rw [not_or, not_not] at hnot
    obtain ⟨hnone, hk⟩ := hnot
    have hdirs : 0 < args.rnn.nDir := by
      unfold RnnConf.nDir
      split <;> decide
    have hidx : [0, 0, 0] ∈ digits (copyInitIter args).dims :=
      digits_triple.mpr ⟨0, hlayers, 0, hdirs, 0, hmb, rfl⟩
    have hmem : Assign.set (cst args 1 0 1 0 0) 0 ∈ (copyInitIter args).body [0, 0, 0] := by
      unfold copyInitIter
      dsimp only
      rw [hnone]
      exact List.mem_append_right _ (List.mem_map_of_mem (List.mem_range.mpr hdic))
    have hfits := (h _ hidx _ hmem).1 _ rfl
    have hsize : args.rnn.wsCStatesSize = 0 := if_neg hk
    dsimp only at hfits
    omega
  · intro hcond idx hidx e he
    obtain ⟨lay, hlay, dir, hdir, b, hb, rfl⟩ := digits_triple.mp hidx
    rcases mem_copyInitIter (fun _ => 0) he with ⟨s, hs, rfl⟩ | ⟨⟨-, hk⟩, s, hs, rfl⟩ | ⟨hnone, s, hs, rfl⟩
    · exact ⟨fits_st hlay hdir (Nat.zero_le _) hb (hs.trans_le args.rnn.sic_le_statesWsLd), fun _ _ _ => rfl⟩
    · exact ⟨fits_cst hk hlay hdir (Nat.zero_le _) hb (hs.trans_le hld), fun _ _ _ => rfl⟩
    · have hk := hcond.resolve_left fun h => h hnone
      exact ⟨fits_cst hk hlay hdir hiters hb (hs.trans_le hld), fun _ _ _ => rfl⟩

theorem copyResLayer_within : (copyResLayer args).Within (Fits args.rnn) := by
  have hres : ∀ it b dir d iter, b < args.rnn.mb → dir < args.rnn.nDir → iter ≤ args.rnn.nIter → ∀ e ∈ resRow args it b dir d iter,
      Fits args.rnn e.dst ∧ ∀ m m' : Elem → R, (∀ a, Fits args.rnn a → m a = m' a) → e.value m = e.value m' := by
    intro it b dir d iter hb hdir hiter e he
    obtain ⟨s, hs, rfl⟩ := List.mem_map.mp he
    refine ⟨fits_user rfl, fun m m' h => ?_⟩
    exact h _ (fits_st le_rfl hdir hiter hb ((List.mem_range.mp hs).trans_le args.rnn.dic_le_statesWsLd))
  have hsum : ∀ it b dir iter, b < args.rnn.mb → dir < args.rnn.nDir → iter ≤ args.rnn.nIter → ∀ e ∈ sumRow args it b dir iter,
      Fits args.rnn e.dst ∧ ∀ m m' : Elem → R, (∀ a, Fits args.rnn a → m a = m' a) → e.value m = e.value m' := by
    intro it b dir iter hb hdir hiter e he
    obtain ⟨s, hs, rfl⟩ := List.mem_map.mp he
    have hdst : Fits args.rnn (.dstLayer (dstAt args it b 0 s)) := fits_user rfl
    refine ⟨hdst, fun m m' h => congrArg₂ (· + ·) (h _ hdst) ?_⟩
    exact h _ (fits_st le_rfl hdir hiter hb ((List.mem_range.mp hs).trans_le args.rnn.dic_le_statesWsLd))
  intro idx hidx e he
  obtain ⟨it, hit, b, hb, rfl⟩ := digits_pair.mp hidx
  rw [copyResLayer_body] at he
  have hback : args.rnn.nIter - it ≤ args.rnn.nIter := Nat.sub_le _ _
  rcases nDir_cases args with ⟨hexec, hdir, -⟩ | ⟨hexec, hdir, -⟩ | ⟨hexec, hdir, -⟩ | ⟨hexec, hdir, -⟩ <;> rw [hexec] at he
  · exact hres _ _ _ _ _ hb (by omega) hit e he
  · exact hres _ _ _ _ _ hb (by omega) hback e he
  · exact (List.mem_append.mp he).elim (hres _ _ _ _ _ hb (by omega) hit e) (hres _ _ _ _ _ hb (by omega) hback e)
  · exact (List.mem_append.mp he).elim (hres _ _ _ _ _ hb (by omega) hit e) (hsum _ _ _ _ hb (by omega) hback e)

omit [CommRing R] in
theorem copyResIter_within : ∀ ph ∈ copyResIter args, ph.Within (Fits args.rnn) := by
  have hld := args.rnn.dic_le_statesWsLd
  rcases hmd : args.dstIterMd with _ | md
  · simp only [copyResIter, hmd]
    exact List.forall_mem_nil _
  · obtain ⟨ph, heq, hdims, hmem⟩ := copyResIter_eq hmd
    rw [heq, List.forall_mem_singleton]
    intro idx hidx e he
    rw [hdims] at hidx
    obtain ⟨lay, hlay, dir, hdir, b, hb, rfl⟩ := digits_triple.mp hidx
    rcases (hmem lay dir b e).mp he with ⟨s, hs, rfl⟩ | ⟨hk, s, hs, rfl⟩
    · exact ⟨fits_user rfl, fun m m' h => h _ (fits_st hlay hdir le_rfl hb (hs.trans_le hld))⟩
    · exact ⟨fits_user rfl, fun m m' h => h _ (fits_cst hk hlay hdir le_rfl hb (hs.trans_le hld))⟩

/-- The forward pass of an RNN accesses nothing outside the parts of its workspace if and only if the user gives it initial states
or the cell is an LSTM: without them `copy_init_iter` sets cell states to zero that there is no room for. The parts do not overlap,
and they are inside the buffer that the primitive asks for. -/
theorem execute_within (hlayers : 0 < args.rnn.nLayer) (hiters : 0 < args.rnn.nIter) (hmb : 0 < args.rnn.mb) (hdic : 0 < args.rnn.dic) :
    ((∀ ph ∈ execute args, ph.Within (Fits args.rnn)) ↔ args.srcIter ≠ none ∨ args.rnn.cellKind = .vanillaLstm) ∧
    ∀ e, Fits args.rnn e → ∀ p, place args.rnn e = some p →
      p.address + 4 ≤ (if args.rnn.isTraining then (setOffsets args.rnn).workspaceSize else (setOffsets args.rnn).scratchpadSize) ∧
      ∀ e', Fits args.rnn e' → e ≠ e' → ∀ p', place args.rnn e' = some p' → p.address + 4 ≤ p'.address ∨ p'.address + 4 ≤ p.address := by
  constructor
  · rw [← copyInitIter_within hlayers hiters hmb hdic]
    unfold execute
    simp only [List.forall_mem_append, List.forall_mem_cons]
    constructor
    · intro h
      exact h.1.1.1.2.1
    · intro h
      exact ⟨⟨⟨⟨copyInitLayer_within, h, List.forall_mem_nil _⟩, linearExecution_within⟩, copyResLayer_within, List.forall_mem_nil _⟩, copyResIter_within⟩
  · intro e he p hp
    exact ⟨he.le_size hp, fun e' he' hne p' hp' => he.apart he' hne hp hp'⟩

end Accesses

/-- The cells of an LSTM need no initial states, but others do. -/
theorem execute_within_bidirectional :
    let biRnn := { biLstm with rnn := { biLstm.rnn with cellKind := .vanillaRnn } }
    (∀ ph ∈ execute biLstm, ph.Within (Fits biLstm.rnn)) ∧ ¬ ∀ ph ∈ execute biRnn, ph.Within (Fits biRnn.rnn) := by
  constructor
  · refine (execute_within ?_ ?_ ?_ ?_).1.mpr (Or.inr rfl) <;> decide
  · intro h
    have hcond := (execute_within (by decide) (by decide) (by decide) (by decide)).1.mp h
    rcases hcond with hiter | hk
    · exact hiter rfl
    · cases hk

end MklDnn.RefRnn
