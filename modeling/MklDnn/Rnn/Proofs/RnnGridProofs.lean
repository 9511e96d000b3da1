import MklDnn.Rnn.Proofs.RefRnnProofs

/-!
# Proofs: the grid of an RNN

The forward pass computes the recurrence: the states of every cell are the next ones after those of the layer below in the same iteration
and those of the iteration before in the same layer.
-/

open Interleaving MixedRadix

namespace MklDnn.RefRnn

/-! ## The workspace -/

namespace RnnConf

variable {rnn : RnnConf} {lay dir iter b s r lay' dir' iter' b' s' r' : ℕ}

/-- The states of the workspace are different elements. -/
theorem states_inj (hdir : dir < rnn.nDir) (hdir' : dir' < rnn.nDir) (hiter : iter ≤ rnn.nIter) (hiter' : iter' ≤ rnn.nIter)
    (hb : b < rnn.mb) (hb' : b' < rnn.mb) (hs : s < rnn.statesWsLd) (hs' : s' < rnn.statesWsLd)
    (h : rnn.wsStates lay dir iter + (b * rnn.statesWsLd + s) = rnn.wsStates lay' dir' iter' + (b' * rnn.statesWsLd + s')) :
    (lay = lay' ∧ dir = dir' ∧ iter = iter') ∧ b = b' ∧ s = s' := by
  have hrow : b * rnn.statesWsLd + s < rnn.mb * rnn.statesWsLd := by
    rw [Nat.add_comm]
    exact add_mul_lt hs hb
  have hrow' : b' * rnn.statesWsLd + s' < rnn.mb * rnn.statesWsLd := by
    rw [Nat.add_comm]
    exact add_mul_lt hs' hb'
  obtain ⟨hblock, hplace⟩ := mul_add_inj hrow hrow' h
  obtain ⟨hcell, hiters⟩ := mul_add_inj (Nat.lt_succ_of_le hiter) (Nat.lt_succ_of_le hiter') hblock
  obtain ⟨hlay, hdirs⟩ := mul_add_inj hdir hdir' hcell
  exact ⟨⟨hlay, hdirs, hiters⟩, mul_add_inj hs hs' hplace⟩

/-- The gates of the workspace are different elements. -/
theorem gates_inj (hdir : dir < rnn.nDir) (hdir' : dir' < rnn.nDir) (hiter : iter < rnn.nIter) (hiter' : iter' < rnn.nIter)
    (hb : b < rnn.mb) (hb' : b' < rnn.mb) (hr : r < rnn.gatesWsLd) (hr' : r' < rnn.gatesWsLd)
    (h : rnn.wsGates lay dir iter + (b * rnn.gatesWsLd + r) = rnn.wsGates lay' dir' iter' + (b' * rnn.gatesWsLd + r')) :
    (lay = lay' ∧ dir = dir' ∧ iter = iter') ∧ b = b' ∧ r = r' := by
  have hrow : b * rnn.gatesWsLd + r < rnn.mb * rnn.gatesWsLd := by
    rw [Nat.add_comm]
    exact add_mul_lt hr hb
  have hrow' : b' * rnn.gatesWsLd + r' < rnn.mb * rnn.gatesWsLd := by
    rw [Nat.add_comm]
    exact add_mul_lt hr' hb'
  obtain ⟨hblock, hplace⟩ := mul_add_inj hrow hrow' h
  obtain ⟨hcell, hiters⟩ := mul_add_inj hiter hiter' hblock
  obtain ⟨hlay, hdirs⟩ := mul_add_inj hdir hdir' hcell
  exact ⟨⟨hlay, hdirs, hiters⟩, mul_add_inj hr hr' hplace⟩

/-- The columns of a merged product are the samples of the iterations, one after the other. -/
theorem wsStates_column (lay dir t b p : ℕ) : rnn.wsStates lay dir 1 + ((b + t * rnn.mb) * rnn.statesWsLd + p) =
    rnn.wsStates lay dir (t + 1) + (b * rnn.statesWsLd + p) := by
  unfold wsStates
  ring

theorem wsGates_column (lay dir t b r : ℕ) : rnn.wsGates lay dir 0 + ((b + t * rnn.mb) * rnn.gatesWsLd + r) =
    rnn.wsGates lay dir t + (b * rnn.gatesWsLd + r) := by
  unfold wsGates
  ring

end RnnConf

/-! ## The recurrence -/

section Grid

variable {R : Type*} [CommRing R]

section States

variable (args : ExecArgs R) (mem₀ : Elem → R)

/-- The state of the workspace. -/
def st (lay dir iter b s : ℕ) : Elem := .wsStates (args.rnn.wsStates lay dir iter + (b * args.rnn.statesWsLd + s))

/-- The state of a cell in the workspace. -/
def cst (lay dir iter b s : ℕ) : Elem := .wsCStates (args.rnn.wsStates lay dir iter + (b * args.rnn.statesWsLd + s))

/-- Whether the iterations of a direction go backwards. -/
def reversed (dir : ℕ) : Bool := args.rnn.execDir = .r2l ∨ dir = 1

/-- What a direction reads of the source in an iteration. The iterations begin with `1`. -/
def inputOf (dir b iter : ℕ) (c : ℕ) : R :=
  let it := if reversed args dir then args.rnn.nIter - iter else iter - 1
  args.srcLayer.data (args.srcLayer.md.blkOff [(it : ℤ), b] + c)

/-- The states in front of the first iteration. Without states of the user those of the cells are what the workspace holds. -/
def initState (lay dir b : ℕ) : State R :=
  match args.srcIter with
  | some srcIter => {
    h := fun s => srcIter.data (srcIter.md.blkOff [(lay : ℤ), dir, b, 0] + s)
    c := fun s => args.srcIterC.data (args.srcIterC.md.blkOff [(lay : ℤ), dir, b, 0] + s) }
  | none => {
    h := fun _ => 0
    c := fun s => mem₀ (cst args (lay + 1) dir 0 b s) }

/-- The states of a sample. -/
def stateAt (dir b : ℕ) : ℕ → ℕ → State R
  | 0, iter => ⟨inputOf args dir b iter, fun _ => 0⟩
  | lay + 1, 0 => initState args mem₀ lay dir b
  | lay + 1, iter + 1 => cellNext args (cellPtrs args lay dir iter) (stateAt dir b lay (iter + 1)).h (stateAt dir b (lay + 1) iter)

/-- Where `copy_res_layer` puts the output of a direction. -/
def dstAt (it b dir s : ℕ) : ℤ := args.dstLayerMd.blkOff [(it : ℤ), b, (dir * args.rnn.dic : ℕ)] + s

/-- The number of outputs that the directions have. -/
def nDst : ℕ := if args.rnn.execDir = .biConcat then 2 else 1

/-- What the descriptor and the memory of the user provide. -/
structure Valid : Prop where
  nLayer_pos : 0 < args.rnn.nLayer
  nIter_pos : 0 < args.rnn.nIter
  dic_pos : 0 < args.rnn.dic
  slc : 1 < args.rnn.nLayer → args.rnn.slc = args.rnn.dic
  sic : 1 < args.rnn.nIter → args.rnn.sic = args.rnn.dic
  gru : args.rnn.cellKind = .vanillaGru ∨ args.rnn.cellKind = .lbrGru → args.rnn.sic = args.rnn.dic
  dstLayer : ∀ it < args.rnn.nIter, ∀ b < args.rnn.mb, ∀ d < nDst args, ∀ s < args.rnn.dic, ∀ it' < args.rnn.nIter,
    ∀ b' < args.rnn.mb, ∀ d' < nDst args, ∀ s' < args.rnn.dic, dstAt args it b d s = dstAt args it' b' d' s' →
    (it = it' ∧ b = b') ∧ d = d' ∧ s = s'
  dstIter : ∀ md, args.dstIterMd = some md ∨ (args.dstIterMd ≠ none ∧ args.rnn.cellKind = .vanillaLstm ∧ md = args.dstIterCMd) →
    ∀ lay < args.rnn.nLayer, ∀ dir < args.rnn.nDir, ∀ b < args.rnn.mb, ∀ s < args.rnn.dic, ∀ lay' < args.rnn.nLayer,
    ∀ dir' < args.rnn.nDir, ∀ b' < args.rnn.mb, ∀ s' < args.rnn.dic, md.blkOff [(lay : ℤ), dir, b, 0] + s = md.blkOff [(lay' : ℤ), dir', b', 0] + s' → lay = lay' ∧ dir = dir' ∧ b = b' ∧ s = s'

/-- The outputs are the states of the recurrence. -/
structure Outputs (mem' : Elem → R) : Prop where
  layer : ∀ it < args.rnn.nIter, ∀ b < args.rnn.mb, ∀ s < args.rnn.dic,
    let fwd := (stateAt args mem₀ 0 b args.rnn.nLayer (it + 1)).h s
    let bwd := fun dir => (stateAt args mem₀ dir b args.rnn.nLayer (args.rnn.nIter - it)).h s
    match args.rnn.execDir with
    | .l2r => mem' (.dstLayer (dstAt args it b 0 s)) = fwd
    | .r2l => mem' (.dstLayer (dstAt args it b 0 s)) = bwd 0
    | .biConcat => mem' (.dstLayer (dstAt args it b 0 s)) = fwd ∧ mem' (.dstLayer (dstAt args it b 1 s)) = bwd 1
    | .biSum => mem' (.dstLayer (dstAt args it b 0 s)) = fwd + bwd 1
  iter : ∀ md, args.dstIterMd = some md → ∀ lay < args.rnn.nLayer, ∀ dir < args.rnn.nDir, ∀ b < args.rnn.mb, ∀ s < args.rnn.dic,
    mem' (.dstIter (md.blkOff [(lay : ℤ), dir, b, 0] + s)) = (stateAt args mem₀ dir b (lay + 1) args.rnn.nIter).h s ∧
      (args.rnn.cellKind = .vanillaLstm → mem' (.dstIterC (args.dstIterCMd.blkOff [(lay : ℤ), dir, b, 0] + s)) =
        (stateAt args mem₀ dir b (lay + 1) args.rnn.nIter).c s)

/-- The workspace while the grid is executed: the cells `D` are done. -/
structure Holds (D : ℕ → ℕ → ℕ → Prop) (mem : Elem → R) : Prop where
  input : ∀ dir < args.rnn.nDir, ∀ iter < args.rnn.nIter, ∀ b < args.rnn.mb, ∀ c < args.rnn.slc,
    mem (st args 0 dir (iter + 1) b c) = inputOf args dir b (iter + 1) c
  init : ∀ lay < args.rnn.nLayer, ∀ dir < args.rnn.nDir, ∀ b < args.rnn.mb, ∀ s < args.rnn.sic,
    mem (st args (lay + 1) dir 0 b s) = (initState args mem₀ lay dir b).h s
  initC : args.rnn.cellKind = .vanillaLstm → ∀ lay < args.rnn.nLayer, ∀ dir < args.rnn.nDir, ∀ b < args.rnn.mb, ∀ s < args.rnn.dic,
    mem (cst args (lay + 1) dir 0 b s) = (initState args mem₀ lay dir b).c s
  done : ∀ dir < args.rnn.nDir, ∀ lay < args.rnn.nLayer, ∀ iter < args.rnn.nIter, D dir lay iter →
    ∀ b < args.rnn.mb, ∀ j < args.rnn.dic,
    mem (st args (lay + 1) dir (iter + 1) b j) = (stateAt args mem₀ dir b (lay + 1) (iter + 1)).h j ∧
      (args.rnn.cellKind = .vanillaLstm →
        mem (cst args (lay + 1) dir (iter + 1) b j) = (stateAt args mem₀ dir b (lay + 1) (iter + 1)).c j)

/-- The cells in front of one, in the order of the grid. -/
def Before (dir lay iter dir' lay' iter' : ℕ) : Prop := dir' < dir ∨ dir' = dir ∧ (lay' < lay ∨ lay' = lay ∧ iter' < iter)

end States

section Cells

variable {args : ExecArgs R} {mem₀ mem mem' : Elem → R} {D : ℕ → ℕ → ℕ → Prop} {dir lay iter : ℕ}

theorem Holds.congr (h : Holds args mem₀ D mem) (hst : ∀ x, mem' (.wsStates x) = mem (.wsStates x))
    (hcst : ∀ x, mem' (.wsCStates x) = mem (.wsCStates x)) : Holds args mem₀ D mem' where
  input := by
    intro dir hdir iter hiter b hb c hc
    exact (hst _).trans (h.input dir hdir iter hiter b hb c hc)
  init := by
    intro lay hlay dir hdir b hb s hs
    exact (hst _).trans (h.init lay hlay dir hdir b hb s hs)
  initC := by
    intro hk lay hlay dir hdir b hb s hs
    exact (hcst _).trans (h.initC hk lay hlay dir hdir b hb s hs)
  done := by
    intro dir hdir lay hlay iter hiter hD b hb j hj
    obtain ⟨hstate, hcell⟩ := h.done dir hdir lay hlay iter hiter hD b hb j hj
    exact ⟨(hst _).trans hstate, fun hk => (hcst _).trans (hcell hk)⟩

theorem Holds.mono {D' : ℕ → ℕ → ℕ → Prop} (h : Holds args mem₀ D mem)
    (hsub : ∀ dir < args.rnn.nDir, ∀ lay < args.rnn.nLayer, ∀ iter < args.rnn.nIter, D' dir lay iter → D dir lay iter) :
    Holds args mem₀ D' mem where
  input := h.input
  init := h.init
  initC := h.initC
  done := fun dir hdir lay hlay iter hiter hD => h.done dir hdir lay hlay iter hiter (hsub dir hdir lay hlay iter hiter hD)

/-- The states that a cell gets from the layer below. -/
theorem Holds.below (hv : Valid args) (h : Holds args mem₀ (Before dir lay iter) mem) (hdir : dir < args.rnn.nDir)
    (hlay : lay < args.rnn.nLayer) {t : ℕ} (ht : t < args.rnn.nIter) {b p : ℕ} (hb : b < args.rnn.mb) (hp : p < args.rnn.slc) :
    mem (st args lay dir (t + 1) b p) = (stateAt args mem₀ dir b lay (t + 1)).h p := by
  cases lay with
  | zero =>
    rw [stateAt]
    exact h.input dir hdir t ht b hb p hp
  | succ lay =>
    have hslc : args.rnn.slc = args.rnn.dic := hv.slc (by omega)
    exact (h.done dir hdir lay (by omega) t ht (Or.inr ⟨rfl, Or.inl lay.lt_succ_self⟩) b hb p (hslc ▸ hp)).1

/-- The states that a cell gets from the iteration before. -/
theorem Holds.before (hv : Valid args) (h : Holds args mem₀ (Before dir lay iter) mem) (hdir : dir < args.rnn.nDir)
    (hlay : lay < args.rnn.nLayer) (hiter : iter < args.rnn.nIter) {b p : ℕ} (hb : b < args.rnn.mb) (hp : p < args.rnn.sic) :
    mem (st args (lay + 1) dir iter b p) = (stateAt args mem₀ dir b (lay + 1) iter).h p := by
  cases iter with
  | zero =>
    rw [stateAt]
    exact h.init lay hlay dir hdir b hb p hp
  | succ iter =>
    have hsic : args.rnn.sic = args.rnn.dic := hv.sic (by omega)
    exact (h.done dir hdir lay hlay iter (by omega) (Or.inr ⟨rfl, Or.inr ⟨rfl, iter.lt_succ_self⟩⟩) b hb p (hsic ▸ hp)).1

theorem Holds.beforeC (h : Holds args mem₀ (Before dir lay iter) mem) (hk : args.rnn.cellKind = .vanillaLstm)
    (hdir : dir < args.rnn.nDir) (hlay : lay < args.rnn.nLayer) (hiter : iter < args.rnn.nIter) {b j : ℕ} (hb : b < args.rnn.mb)
    (hj : j < args.rnn.dic) : mem (cst args (lay + 1) dir iter b j) = (stateAt args mem₀ dir b (lay + 1) iter).c j := by
  cases iter with
  | zero =>
    rw [stateAt]
    exact h.initC hk lay hlay dir hdir b hb j hj
  | succ iter =>
    exact (h.done dir hdir lay hlay iter (by omega) (Or.inr ⟨rfl, Or.inr ⟨rfl, iter.lt_succ_self⟩⟩) b hb j hj).2 hk

omit [CommRing R] in
theorem separate_cellPtrs (hdir : dir < args.rnn.nDir) (hiter : iter < args.rnn.nIter) : Separate args (cellPtrs args lay dir iter) := by
  have hne : ∀ i < args.rnn.mb, ∀ j < args.rnn.dic, ∀ i' < args.rnn.mb, ∀ j' < args.rnn.dic,
      args.rnn.wsStates (lay + 1) dir iter + (i * args.rnn.statesWsLd + j) ≠
        args.rnn.wsStates (lay + 1) dir (iter + 1) + (i' * args.rnn.statesWsLd + j') := by
    intro i hi j hj i' hi' j' hj' heq
    have hld := args.rnn.dic_le_statesWsLd
    have hiters := (RnnConf.states_inj hdir hdir hiter.le hiter hi hi' (hj.trans_le hld) (hj'.trans_le hld) heq).1.2.2
    omega
  exact ⟨hne, hne⟩

omit [CommRing R] in
/-- A cell leaves the states of the other cells. -/
theorem not_cellDst_st {dir' lay' iter' b s : ℕ} (hdir : dir < args.rnn.nDir) (hdir' : dir' < args.rnn.nDir)
    (hiter : iter < args.rnn.nIter) (hiter' : iter' ≤ args.rnn.nIter) (hb : b < args.rnn.mb) (hs : s < args.rnn.statesWsLd)
    (hne : ¬ (lay' = lay + 1 ∧ dir' = dir ∧ iter' = iter + 1)) :
    ¬ CellDst args (cellPtrs args lay dir iter) (st args lay' dir' iter' b s) ∧
      ¬ CellDst args (cellPtrs args lay dir iter) (cst args lay' dir' iter' b s) := by
  have hother : ¬ ∃ i < args.rnn.mb, ∃ j < args.rnn.dic, args.rnn.wsStates lay' dir' iter' + (b * args.rnn.statesWsLd + s) =
      args.rnn.wsStates (lay + 1) dir (iter + 1) + (i * args.rnn.statesWsLd + j) := by
    rintro ⟨i, hi, j, hj, heq⟩
    exact hne (RnnConf.states_inj hdir' hdir hiter' hiter hb hi hs (hj.trans_le args.rnn.dic_le_statesWsLd) heq).1
  exact ⟨hother, hother⟩

/-- The gates of the iterations from `iter` on hold the products of the layer. -/
def Merged (args : ExecArgs R) (mem₀ : Elem → R) (lay dir iter : ℕ) (mem : Elem → R) : Prop :=
  args.rnn.mergeGemmLayer = true → ∀ t < args.rnn.nIter, iter ≤ t → ∀ b < args.rnn.mb, ∀ r < args.rnn.nGates * args.rnn.dic,
    mem (gateRow args (cellPtrs args lay dir t) b r) =
      layerGate args (cellPtrs args lay dir t) (stateAt args mem₀ dir b lay (t + 1)).h r

theorem Holds.ready (hv : Valid args) (h : Holds args mem₀ (Before dir lay iter) mem) (hmerged : Merged args mem₀ lay dir iter mem)
    (hdir : dir < args.rnn.nDir) (hlay : lay < args.rnn.nLayer) (hiter : iter < args.rnn.nIter) :
    Ready args (cellPtrs args lay dir iter) (fun b => (stateAt args mem₀ dir b lay (iter + 1)).h)
      (fun b => stateAt args mem₀ dir b (lay + 1) iter) mem where
  layer := fun _ _ hb _ hp => h.below hv hdir hlay hiter hb hp
  merged := fun hmerge b hb r hr => hmerged hmerge iter hiter le_rfl b hb r hr
  iter := fun _ hb _ hp => h.before hv hdir hlay hiter hb hp
  cell := fun hk _ hb _ hj => h.beforeC hk hdir hlay hiter hb hj

/-- One cell of the grid. -/
theorem Holds.cell (hv : Valid args) (h : Holds args mem₀ (Before dir lay iter) mem) (hmerged : Merged args mem₀ lay dir iter mem)
    (hdir : dir < args.rnn.nDir) (hlay : lay < args.rnn.nLayer) (hiter : iter < args.rnn.nIter)
    (hrun : Runs (cellFunc args (cellPtrs args lay dir iter)) mem mem') :
    Holds args mem₀ (Before dir lay (iter + 1)) mem' ∧ Merged args mem₀ lay dir (iter + 1) mem' := by
  obtain ⟨hcomputed, hkept⟩ := cellFunc_spec hv.dic_pos hv.gru (separate_cellPtrs hdir hiter) (h.ready hv hmerged hdir hlay hiter) hrun
  have hld := args.rnn.dic_le_statesWsLd
  have hother : ∀ dir' < args.rnn.nDir, ∀ lay' iter', iter' ≤ args.rnn.nIter → ¬ (lay' = lay + 1 ∧ dir' = dir ∧ iter' = iter + 1) →
      ∀ b < args.rnn.mb, ∀ s < args.rnn.statesWsLd, mem' (st args lay' dir' iter' b s) = mem (st args lay' dir' iter' b s) ∧
        mem' (cst args lay' dir' iter' b s) = mem (cst args lay' dir' iter' b s) := by
    intro dir' hdir' lay' iter' hiter' hne b hb s hs
    obtain ⟨hst, hcst⟩ := not_cellDst_st hdir hdir' hiter hiter' hb hs hne
    exact ⟨hkept _ hst, hkept _ hcst⟩
  refine ⟨⟨?_, ?_, ?_, ?_⟩, ?_⟩
  · intro dir' hdir' iter' hiter' b hb c hc
    rw [(hother dir' hdir' 0 (iter' + 1) hiter' (by omega) b hb c (hc.trans_le args.rnn.slc_le_statesWsLd)).1]
    exact h.input dir' hdir' iter' hiter' b hb c hc
  · intro lay' hlay' dir' hdir' b hb s hs
    rw [(hother dir' hdir' (lay' + 1) 0 (Nat.zero_le _) (by omega) b hb s (hs.trans_le args.rnn.sic_le_statesWsLd)).1]
    exact h.init lay' hlay' dir' hdir' b hb s hs
  · intro hk lay' hlay' dir' hdir' b hb s hs
    rw [(hother dir' hdir' (lay' + 1) 0 (Nat.zero_le _) (by omega) b hb s (hs.trans_le hld)).2]
    exact h.initC hk lay' hlay' dir' hdir' b hb s hs
  · intro dir' hdir' lay' hlay' iter' hiter' hD b hb j hj
    by_cases hsame : lay' = lay ∧ dir' = dir ∧ iter' = iter
    · obtain ⟨rfl, rfl, rfl⟩ := hsame
      rw [stateAt]
      exact hcomputed b hb j hj
    · have hbefore : Before dir lay iter dir' lay' iter' := by
        unfold Before at hD ⊢
        omega
      have hkeep := hother dir' hdir' (lay' + 1) (iter' + 1) hiter' (by omega) b hb j (hj.trans_le hld)
      rw [hkeep.1, hkeep.2]
      exact h.done dir' hdir' lay' hlay' iter' hiter' hbefore b hb j hj
  · intro hmerge t ht hle b hb r hr
    have hgates := args.rnn.le_gatesWsLd
    rw [hkept, hmerged hmerge t ht (by omega) b hb r hr]
    rintro ⟨i, hi, r', hr', heq⟩
    have hiters := (RnnConf.gates_inj hdir hdir ht hiter hb hi (hr.trans_le hgates) (hr'.trans_le hgates) heq).1.2.2
    omega

/-- The products of a layer for all iterations. -/
theorem Holds.mergedGemmLayer (hv : Valid args) (h : Holds args mem₀ (Before dir lay 0) mem) (hdir : dir < args.rnn.nDir)
    (hlay : lay < args.rnn.nLayer) (hrun : Runs (mergedGemmLayer args lay dir) mem mem') :
    Holds args mem₀ (Before dir lay 0) mem' ∧ Merged args mem₀ lay dir 0 mem' := by
  unfold RefRnn.mergedGemmLayer at hrun
  split_ifs at hrun with hmerge
  · obtain ⟨hvalue, hkept⟩ := gemmLayer_step (runs_singleton.mp hrun)
    have hstates : ∀ a, (∀ x, a ≠ .wsGates x) → mem' a = mem a := by
      intro a ha
      apply hkept
      rintro ⟨i, hi, r, hr, rfl⟩
      exact ha _ rfl
    have hkeeps : Holds args mem₀ (Before dir lay 0) mem' :=
      h.congr (fun x => hstates _ fun _ heq => by cases heq) fun x => hstates _ fun _ heq => by cases heq
    refine ⟨hkeeps, fun _ t ht _ b hb r hr => ?_⟩
    have hcol : b + t * args.rnn.mb < args.rnn.mb * args.rnn.nIter := by
      rw [Nat.mul_comm args.rnn.mb]
      exact add_mul_lt hb ht
    have hval := hvalue (b + t * args.rnn.mb) hcol r hr
    rw [RnnConf.wsGates_column] at hval
    refine hval.trans (congrArg List.sum (List.map_congr_left fun p hp => ?_))
    rw [RnnConf.wsStates_column]
    exact congrArg _ (h.below hv hdir hlay ht hb (List.mem_range.mp hp))
  · cases hrun
    exact ⟨h, fun hmerge' => absurd hmerge' hmerge⟩

/-- The grid computes all cells. -/
theorem Holds.linearExecution (hv : Valid args) (h : Holds args mem₀ (fun _ _ _ => False) mem)
    (hrun : Runs (linearExecution args) mem mem') : Holds args mem₀ (fun _ _ _ => True) mem' := by
  have hdirs : Holds args mem₀ (Before args.rnn.nDir 0 0) mem' := by
    refine runs_range (fun dir => Holds args mem₀ (Before dir 0 0)) ?_ (h.mono ?_) hrun
    · intro dir hdir m₁ m₂ h₁ hrun₁
      have hlayers : Holds args mem₀ (Before dir args.rnn.nLayer 0) m₂ := by
        refine runs_range (fun lay => Holds args mem₀ (Before dir lay 0)) ?_ h₁ hrun₁
        intro lay hlay m₃ m₄ h₃ hrun₃
        obtain ⟨m₅, hmerged, hcells⟩ := runs_append.mp hrun₃
        have hiters := runs_range (fun iter m => Holds args mem₀ (Before dir lay iter) m ∧ Merged args mem₀ lay dir iter m)
          (fun iter hiter m m' hm hcell => hm.1.cell hv hm.2 hdir hlay hiter hcell) (h₃.mergedGemmLayer hv hdir hlay hmerged) hcells
        refine hiters.1.mono ?_
        intro dir' _ lay' _ iter' hiter' hD
        unfold Before at hD ⊢
        omega
      refine hlayers.mono ?_
      intro dir' _ lay' hlay' iter' _ hD
      unfold Before at hD ⊢
      omega
    · intro dir' _ lay' _ iter' _ hD
      unfold Before at hD
      omega
  refine hdirs.mono ?_
  intro dir' hdir' lay' _ iter' _ _
  exact Or.inl hdir'

end Cells

/-! ## Copies -/

section Copies

variable {args : ExecArgs R} {mem mem' : Elem → R} {dir lay iter it b s : ℕ}

/-- The iteration of a direction that gets the source at `it`. -/
def iterOf (args : ExecArgs R) (dir it : ℕ) : ℕ := if reversed args dir then args.rnn.nIter - it else it + 1

omit [CommRing R] in
/-- Every direction gets the source in its own order. -/
theorem copyInitLayer_body (hit : it < args.rnn.nIter) (b : ℕ) : (copyInitLayer args).body [it, b] =
    (List.range args.rnn.nDir).flatMap fun dir => (List.range args.rnn.slc).map fun c =>
      Assign.set (st args 0 dir (iterOf args dir it) b c) (inputOf args dir b (iterOf args dir it) c) := by
  have hsub : args.rnn.nIter - (args.rnn.nIter - it) = it := Nat.sub_sub_self hit.le
  rcases hexec : args.rnn.execDir with _ | _ | _ | _ <;>
    simp [copyInitLayer, RnnConf.nDir, hexec, st, iterOf, inputOf, reversed, hsub, List.range_succ]

omit [CommRing R] in
theorem iterOf_spec (hit : it < args.rnn.nIter) (dir : ℕ) : 0 < iterOf args dir it ∧ iterOf args dir it ≤ args.rnn.nIter := by
  unfold iterOf
  split_ifs <;> omega

omit [CommRing R] in
theorem exists_iterOf (hiter : iter < args.rnn.nIter) (dir : ℕ) : ∃ it < args.rnn.nIter, iterOf args dir it = iter + 1 := by
  unfold iterOf
  split_ifs
  · exact ⟨args.rnn.nIter - (iter + 1), by omega, by omega⟩
  · exact ⟨iter, hiter, rfl⟩

omit [CommRing R] in
/-- What `copy_init_layer` assigns. -/
theorem mem_copyInitLayer {idx : List ℕ} (hidx : idx ∈ digits (copyInitLayer args).dims) {e : Assign Elem R}
    (he : e ∈ (copyInitLayer args).body idx) : ∃ it < args.rnn.nIter, ∃ b < args.rnn.mb, ∃ dir < args.rnn.nDir,
      ∃ c < args.rnn.slc, e = Assign.set (st args 0 dir (iterOf args dir it) b c) (inputOf args dir b (iterOf args dir it) c) := by
  obtain ⟨it, hit, b, hb, rfl⟩ := digits_pair.mp hidx
  rw [copyInitLayer_body hit, List.mem_flatMap] at he
  obtain ⟨dir, hdir, he⟩ := he
  obtain ⟨c, hc, rfl⟩ := List.mem_map.mp he
  exact ⟨it, hit, b, hb, dir, List.mem_range.mp hdir, c, List.mem_range.mp hc, rfl⟩

omit [CommRing R] in
theorem copyInitLayer_spec (hstep : (copyInitLayer args).Step mem mem') :
    (∀ dir < args.rnn.nDir, ∀ iter < args.rnn.nIter, ∀ b < args.rnn.mb, ∀ c < args.rnn.slc,
      mem' (st args 0 dir (iter + 1) b c) = inputOf args dir b (iter + 1) c) ∧
    ∀ x, mem' (.wsCStates x) = mem (.wsCStates x) := by
  have hld := args.rnn.slc_le_statesWsLd
  constructor
  · intro dir hdir iter hiter b hb c hc
    refine hstep.of_const (fun idx hidx e he heq m => ?_) ?_
    · obtain ⟨it, hit, b', hb', dir', hdir', c', hc', rfl⟩ := mem_copyInitLayer hidx he
      obtain ⟨⟨-, rfl, hiters⟩, rfl, rfl⟩ := RnnConf.states_inj hdir' hdir (iterOf_spec hit dir').2 hiter hb' hb
        (hc'.trans_le hld) (hc.trans_le hld) (Elem.wsStates.inj heq)
      rw [hiters]
      rfl
    · obtain ⟨it, hit, heq⟩ := exists_iterOf hiter dir
      refine ⟨[it, b], digits_pair.mpr ⟨it, hit, b, hb, rfl⟩, ?_⟩
      rw [copyInitLayer_body hit]
      refine ⟨_, List.mem_flatMap.mpr ⟨dir, List.mem_range.mpr hdir, List.mem_map_of_mem (List.mem_range.mpr hc)⟩, ?_⟩
      rw [heq]
      rfl
  · intro x
    apply hstep.of_ne
    intro idx hidx e he heq
    obtain ⟨it, hit, b', hb', dir', hdir', c', hc', rfl⟩ := mem_copyInitLayer hidx he
    cases heq

/-- What `copy_init_iter` assigns. -/
theorem mem_copyInitIter {e : Assign Elem R} (mem₀ : Elem → R) (he : e ∈ (copyInitIter args).body [lay, dir, b]) :
    (∃ s < args.rnn.sic, e = Assign.set (st args (lay + 1) dir 0 b s) ((initState args mem₀ lay dir b).h s)) ∨
    ((args.srcIter ≠ none ∧ args.rnn.cellKind = .vanillaLstm) ∧
      ∃ s < args.rnn.dic, e = Assign.set (cst args (lay + 1) dir 0 b s) ((initState args mem₀ lay dir b).c s)) ∨
    (args.srcIter = none ∧ ∃ s < args.rnn.dic, e = Assign.set (cst args (lay + 1) dir 1 b s) 0) := by
  unfold copyInitIter at he
  dsimp only [List.getD_cons_zero, List.getD_cons_succ] at he
  rcases hiter : args.srcIter with _ | srcIter
  · rw [hiter] at he
    dsimp only at he
    rcases List.mem_append.mp he with he | he
    · obtain ⟨s, hs, rfl⟩ := List.mem_map.mp he
      exact Or.inl ⟨s, List.mem_range.mp hs, by simp only [initState, hiter]; rfl⟩
    · obtain ⟨s, hs, rfl⟩ := List.mem_map.mp he
      exact Or.inr (Or.inr ⟨rfl, s, List.mem_range.mp hs, rfl⟩)
  · rw [hiter] at he
    dsimp only at he
    rcases List.mem_append.mp he with he | he
    · obtain ⟨s, hs, rfl⟩ := List.mem_map.mp he
      exact Or.inl ⟨s, List.mem_range.mp hs, by simp only [initState, hiter]; rfl⟩
    · split_ifs at he with hk
      · obtain ⟨s, hs, rfl⟩ := List.mem_map.mp he
        exact Or.inr (Or.inl ⟨⟨(fun heq => by cases heq), hk⟩, s, List.mem_range.mp hs, by simp only [initState, hiter]; rfl⟩)
      · cases he

/-- What the copies of the states leave, and the layer below. -/
theorem copyInitIter_spec {mem₀ : Elem → R} (hpos : 0 < args.rnn.nIter)
    (hcst : ∀ x, mem (.wsCStates x) = mem₀ (.wsCStates x)) (hstep : (copyInitIter args).Step mem mem') :
    (∀ lay < args.rnn.nLayer, ∀ dir < args.rnn.nDir, ∀ b < args.rnn.mb, ∀ s < args.rnn.sic,
      mem' (st args (lay + 1) dir 0 b s) = (initState args mem₀ lay dir b).h s) ∧
    (args.rnn.cellKind = .vanillaLstm → ∀ lay < args.rnn.nLayer, ∀ dir < args.rnn.nDir, ∀ b < args.rnn.mb, ∀ s < args.rnn.dic,
      mem' (cst args (lay + 1) dir 0 b s) = (initState args mem₀ lay dir b).c s) ∧
    ∀ dir < args.rnn.nDir, ∀ iter ≤ args.rnn.nIter, ∀ b < args.rnn.mb, ∀ s < args.rnn.statesWsLd,
      mem' (st args 0 dir iter b s) = mem (st args 0 dir iter b s) := by
  have hld := args.rnn.dic_le_statesWsLd
  have hlds := args.rnn.sic_le_statesWsLd
  refine ⟨fun lay hlay dir hdir b hb s hs => ?_, fun hk lay hlay dir hdir b hb s hs => ?_, fun dir hdir iter hiter b hb s hs => ?_⟩
  · refine hstep.of_const (fun idx hidx e he heq m => ?_) ?_
    · obtain ⟨lay', hlay', dir', hdir', b', hb', rfl⟩ := digits_triple.mp hidx
      rcases mem_copyInitIter mem₀ he with ⟨s', hs', rfl⟩ | ⟨-, s', hs', rfl⟩ | ⟨-, s', hs', rfl⟩
      · obtain ⟨⟨hlays, rfl, -⟩, rfl, rfl⟩ := RnnConf.states_inj hdir' hdir (Nat.zero_le _) (Nat.zero_le _) hb' hb
          (hs'.trans_le hlds) (hs.trans_le hlds) (Elem.wsStates.inj heq)
        obtain rfl : lay' = lay := Nat.succ.inj hlays
        rfl
      · cases heq
      · cases heq
    · refine ⟨[lay, dir, b], digits_triple.mpr ⟨lay, hlay, dir, hdir, b, hb, rfl⟩, ?_⟩
      unfold copyInitIter
      dsimp only
      split
      · exact ⟨_, List.mem_append_left _ (List.mem_map_of_mem (List.mem_range.mpr hs)), rfl⟩
      · exact ⟨_, List.mem_append_left _ (List.mem_map_of_mem (List.mem_range.mpr hs)), rfl⟩
  · rcases hiter : args.srcIter with _ | srcIter
    · -- without states nothing is assigned in front of the first iteration
      have hkeep : mem' (cst args (lay + 1) dir 0 b s) = mem (cst args (lay + 1) dir 0 b s) := by
        apply hstep.of_ne
        intro idx hidx e he heq
        obtain ⟨lay', hlay', dir', hdir', b', hb', rfl⟩ := digits_triple.mp hidx
        rcases mem_copyInitIter mem₀ he with ⟨s', hs', rfl⟩ | ⟨hsome, -⟩ | ⟨-, s', hs', rfl⟩
        · cases heq
        · exact hsome.1 hiter
        · have hiters := (RnnConf.states_inj hdir' hdir hpos (Nat.zero_le _) hb' hb (hs'.trans_le hld) (hs.trans_le hld)
            (Elem.wsCStates.inj heq)).1.2.2
          cases hiters
      rw [hkeep]
      simp only [initState, hiter]
      exact hcst _
    · refine hstep.of_const (fun idx hidx e he heq m => ?_) ?_
      · obtain ⟨lay', hlay', dir', hdir', b', hb', rfl⟩ := digits_triple.mp hidx
        rcases mem_copyInitIter mem₀ he with ⟨s', hs', rfl⟩ | ⟨-, s', hs', rfl⟩ | ⟨hnone, -⟩
        · cases heq
        · obtain ⟨⟨hlays, rfl, -⟩, rfl, rfl⟩ := RnnConf.states_inj hdir' hdir (Nat.zero_le _) (Nat.zero_le _) hb' hb
            (hs'.trans_le hld) (hs.trans_le hld) (Elem.wsCStates.inj heq)
          obtain rfl : lay' = lay := Nat.succ.inj hlays
          rfl
        · rw [hiter] at hnone
          cases hnone
      · refine ⟨[lay, dir, b], digits_triple.mpr ⟨lay, hlay, dir, hdir, b, hb, rfl⟩, ?_⟩
        unfold copyInitIter
        dsimp only
        rw [hiter]
        dsimp only
        rw [if_pos hk]
        exact ⟨_, List.mem_append_right _ (List.mem_map_of_mem (List.mem_range.mpr hs)), rfl⟩
  · apply hstep.of_ne
    intro idx hidx e he heq
    obtain ⟨lay', hlay', dir', hdir', b', hb', rfl⟩ := digits_triple.mp hidx
    rcases mem_copyInitIter mem he with ⟨s', hs', rfl⟩ | ⟨-, s', hs', rfl⟩ | ⟨-, s', hs', rfl⟩
    · have hlays := (RnnConf.states_inj hdir' hdir (Nat.zero_le _) hiter hb' hb (hs'.trans_le hlds) hs (Elem.wsStates.inj heq)).1.1
      omega
    · cases heq
    · cases heq

/-- Behind the copies no cell is done. -/
theorem holds_copyInit (hpos : 0 < args.rnn.nIter) (hrun : Runs [copyInitLayer args, copyInitIter args] mem mem') :
    Holds args mem (fun _ _ _ => False) mem' := by
  obtain ⟨mem₁, hlayer, hrest⟩ := hrun
  obtain ⟨hinput, hcst⟩ := copyInitLayer_spec hlayer
  obtain ⟨hinit, hinitC, hkept⟩ := copyInitIter_spec hpos hcst (runs_singleton.mp hrest)
  refine ⟨fun dir hdir iter hiter b hb c hc => ?_, hinit, hinitC, fun _ _ _ _ _ _ hfalse => hfalse.elim⟩
  rw [hkept dir hdir (iter + 1) hiter b hb c (hc.trans_le args.rnn.slc_le_statesWsLd), hinput dir hdir iter hiter b hb c hc]

omit [CommRing R] in
theorem nDir_cases (args : ExecArgs R) : (args.rnn.execDir = .l2r ∧ args.rnn.nDir = 1 ∧ nDst args = 1) ∨
    (args.rnn.execDir = .r2l ∧ args.rnn.nDir = 1 ∧ nDst args = 1) ∨ (args.rnn.execDir = .biConcat ∧ args.rnn.nDir = 2 ∧ nDst args = 2) ∨
    (args.rnn.execDir = .biSum ∧ args.rnn.nDir = 2 ∧ nDst args = 1) := by
  rcases hexec : args.rnn.execDir with _ | _ | _ | _ <;> simp [RnnConf.nDir, nDst, hexec]

/-- A row that is copied from the workspace. -/
def resRow (args : ExecArgs R) (it b dir d iter : ℕ) : List (Assign Elem R) :=
  (List.range args.rnn.dic).map fun s => ⟨.dstLayer (dstAt args it b d s), fun mem => mem (st args args.rnn.nLayer dir iter b s)⟩

/-- A row that is added to the output. -/
def sumRow (args : ExecArgs R) (it b dir iter : ℕ) : List (Assign Elem R) :=
  (List.range args.rnn.dic).map fun s => ⟨.dstLayer (dstAt args it b 0 s),
    fun mem => mem (.dstLayer (dstAt args it b 0 s)) + mem (st args args.rnn.nLayer dir iter b s)⟩

theorem copyResLayer_body (it b : ℕ) : (copyResLayer args).body [it, b] =
    match args.rnn.execDir with
    | .l2r => resRow args it b 0 0 (it + 1)
    | .r2l => resRow args it b 0 0 (args.rnn.nIter - it)
    | .biConcat => resRow args it b 0 0 (it + 1) ++ resRow args it b 1 1 (args.rnn.nIter - it)
    | .biSum => resRow args it b 0 0 (it + 1) ++ sumRow args it b 1 (args.rnn.nIter - it) := by
  rcases hexec : args.rnn.execDir with _ | _ | _ | _ <;> simp [copyResLayer, hexec, resRow, sumRow, st, dstAt]

omit [CommRing R] in
theorem dstAt_inj {it b d s s' : ℕ} (h : Elem.dstLayer (dstAt args it b d s) = .dstLayer (dstAt args it b d s')) : s = s' :=
  Int.ofNat.inj (add_left_cancel (Elem.dstLayer.inj h))

omit [CommRing R] in
theorem execAll_resRow {it b dir d iter s : ℕ} (hs : s < args.rnn.dic) :
    execAll (resRow args it b dir d iter) mem (.dstLayer (dstAt args it b d s)) = mem (st args args.rnn.nLayer dir iter b s) :=
  execAll_copy (fun _ _ => dstAt_inj) (fun _ _ h => by cases h) mem hs

theorem execAll_sumRow {it b dir iter s : ℕ} (hs : s < args.rnn.dic) :
    execAll (sumRow args it b dir iter) mem (.dstLayer (dstAt args it b 0 s)) =
      mem (.dstLayer (dstAt args it b 0 s)) + mem (st args args.rnn.nLayer dir iter b s) := by
  refine execAll_map_range (fun _ _ => dstAt_inj) (fun s m m' hm => ?_) mem hs
  rw [hm _ fun s' hne heq => hne (dstAt_inj heq), hm _ fun s' _ h => by cases h]

omit [CommRing R] in
/-- A row leaves what is not in it. -/
theorem execAll_resRow_of_ne {it b dir d iter : ℕ} {a : Elem} (ha : ∀ s < args.rnn.dic, .dstLayer (dstAt args it b d s) ≠ a) :
    execAll (resRow args it b dir d iter) mem a = mem a := by
  apply execAll_of_ne
  intro e he
  obtain ⟨s, hs, rfl⟩ := List.mem_map.mp he
  exact ha s (List.mem_range.mp hs)

/-- What an iteration of `copy_res_layer` assigns to, and what it reads. -/
theorem mem_copyResLayer {e : Assign Elem R} (he : e ∈ (copyResLayer args).body [it, b]) :
    (∃ d < nDst args, ∃ s < args.rnn.dic, e.dst = .dstLayer (dstAt args it b d s)) ∧
    ∀ m m' : Elem → R, m e.dst = m' e.dst → (∀ x, m (.wsStates x) = m' (.wsStates x)) → e.value m = e.value m' := by
  have hres : ∀ dir d iter, d < nDst args → e ∈ resRow args it b dir d iter →
      (∃ d < nDst args, ∃ s < args.rnn.dic, e.dst = .dstLayer (dstAt args it b d s)) ∧
      ∀ m m' : Elem → R, m e.dst = m' e.dst → (∀ x, m (.wsStates x) = m' (.wsStates x)) → e.value m = e.value m' := by
    intro dir d iter hd he
    obtain ⟨s, hs, rfl⟩ := List.mem_map.mp he
    exact ⟨⟨d, hd, s, List.mem_range.mp hs, rfl⟩, fun m m' _ hst => hst _⟩
  have hsum : ∀ dir iter, 0 < nDst args → e ∈ sumRow args it b dir iter →
      (∃ d < nDst args, ∃ s < args.rnn.dic, e.dst = .dstLayer (dstAt args it b d s)) ∧
      ∀ m m' : Elem → R, m e.dst = m' e.dst → (∀ x, m (.wsStates x) = m' (.wsStates x)) → e.value m = e.value m' := by
    intro dir iter hd he
    obtain ⟨s, hs, rfl⟩ := List.mem_map.mp he
    exact ⟨⟨0, hd, s, List.mem_range.mp hs, rfl⟩, fun m m' hdst hst => congrArg₂ (· + ·) hdst (hst _)⟩
  rw [copyResLayer_body] at he
  rcases nDir_cases args with ⟨hexec, -, hn⟩ | ⟨hexec, -, hn⟩ | ⟨hexec, -, hn⟩ | ⟨hexec, -, hn⟩ <;> rw [hexec] at he
  · exact hres _ _ _ (by omega) he
  · exact hres _ _ _ (by omega) he
  · exact (List.mem_append.mp he).elim (hres _ _ _ (by omega)) (hres _ _ _ (by omega))
  · exact (List.mem_append.mp he).elim (hres _ _ _ (by omega)) (hsum _ _ (by omega))

/-- The iterations of `copy_res_layer` are independent. -/
theorem copyResLayer_eq (hv : Valid args) (hstep : (copyResLayer args).Step mem mem') (hit : it < args.rnn.nIter)
    (hb : b < args.rnn.mb) {d : ℕ} (hd : d < nDst args) (hs : s < args.rnn.dic) :
    mem' (.dstLayer (dstAt args it b d s)) = execAll ((copyResLayer args).body [it, b]) mem (.dstLayer (dstAt args it b d s)) := by
  have hind : Independent (digits (copyResLayer args).dims)
      (fun idx => {a | ∃ d < nDst args, ∃ s < args.rnn.dic, a = .dstLayer (dstAt args (idx.getD 0 0) (idx.getD 1 0) d s)})
      (copyResLayer args).body := by
    apply Independent.of_disjoint
    · rintro idx hidx idx' hidx' hne a ⟨d, hd, s, hs, rfl⟩ ⟨d', hd', s', hs', heq⟩
      obtain ⟨it, hit, b, hb, rfl⟩ := digits_pair.mp hidx
      obtain ⟨it', hit', b', hb', rfl⟩ := digits_pair.mp hidx'
      obtain ⟨⟨rfl, rfl⟩, -⟩ := hv.dstLayer it hit b hb d hd s hs it' hit' b' hb' d' hd' s' hs' (Elem.dstLayer.inj heq)
      exact hne rfl
    · intro idx hidx e he
      obtain ⟨it, hit, b, hb, rfl⟩ := digits_pair.mp hidx
      exact (mem_copyResLayer he).1
    · intro idx hidx e he m m' hm
      obtain ⟨it, hit, b, hb, rfl⟩ := digits_pair.mp hidx
      obtain ⟨hdst, hvalue⟩ := mem_copyResLayer he
      refine hvalue m m' (hm _ (Or.inl hdst)) fun x => hm _ (Or.inr ?_)
      rintro idx' hidx' ⟨_, _, _, _, heq⟩
      cases heq
  exact hstep.of_independent hind (digits_pair.mpr ⟨it, hit, b, hb, rfl⟩) ⟨d, hd, s, hs, rfl⟩

/-- `copy_res_layer` puts the last states where the output belongs, whatever the direction. -/
theorem copyResLayer_spec {f : ℕ → ℕ → ℕ → ℕ → R} (hv : Valid args)
    (hdone : ∀ dir < args.rnn.nDir, ∀ iter < args.rnn.nIter, ∀ b < args.rnn.mb, ∀ s < args.rnn.dic,
      mem (st args args.rnn.nLayer dir (iter + 1) b s) = f dir b (iter + 1) s)
    (hstep : (copyResLayer args).Step mem mem') (hit : it < args.rnn.nIter) (hb : b < args.rnn.mb) (hs : s < args.rnn.dic) :
    match args.rnn.execDir with
    | .l2r => mem' (.dstLayer (dstAt args it b 0 s)) = f 0 b (it + 1) s
    | .r2l => mem' (.dstLayer (dstAt args it b 0 s)) = f 0 b (args.rnn.nIter - it) s
    | .biConcat => mem' (.dstLayer (dstAt args it b 0 s)) = f 0 b (it + 1) s ∧
        mem' (.dstLayer (dstAt args it b 1 s)) = f 1 b (args.rnn.nIter - it) s
    | .biSum => mem' (.dstLayer (dstAt args it b 0 s)) = f 0 b (it + 1) s + f 1 b (args.rnn.nIter - it) s := by
  have hfwd : 0 < args.rnn.nDir → mem (st args args.rnn.nLayer 0 (it + 1) b s) = f 0 b (it + 1) s :=
    fun hdir => hdone 0 hdir it hit b hb s hs
  have hbwd : ∀ dir < args.rnn.nDir, mem (st args args.rnn.nLayer dir (args.rnn.nIter - it) b s) = f dir b (args.rnn.nIter - it) s := by
    intro dir hdir
    obtain ⟨iter, hiter⟩ : ∃ iter, args.rnn.nIter - it = iter + 1 := ⟨args.rnn.nIter - it - 1, by omega⟩
    rw [hiter]
    exact hdone dir hdir iter (by omega) b hb s hs
  have heq : ∀ d < nDst args, mem' (.dstLayer (dstAt args it b d s)) = _ := fun d hd => copyResLayer_eq hv hstep hit hb hd hs
  simp only [copyResLayer_body] at heq
  rcases nDir_cases args with ⟨hexec, hdir, hn⟩ | ⟨hexec, hdir, hn⟩ | ⟨hexec, hdir, hn⟩ | ⟨hexec, hdir, hn⟩ <;>
    simp only [hexec] at heq ⊢
  · rw [heq 0 (by omega), execAll_resRow hs, hfwd (by omega)]
  · rw [heq 0 (by omega), execAll_resRow hs, hbwd 0 (by omega)]
  · have hne : ∀ s' < args.rnn.dic, Elem.dstLayer (dstAt args it b 1 s') ≠ .dstLayer (dstAt args it b 0 s) := by
      intro s' hs' h
      have hd := (hv.dstLayer it hit b hb 1 (by omega) s' hs' it hit b hb 0 (by omega) s hs (Elem.dstLayer.inj h)).2.1
      cases hd
    constructor
    · rw [heq 0 (by omega), execAll_append, execAll_resRow_of_ne hne, execAll_resRow hs, hfwd (by omega)]
    · rw [heq 1 (by omega), execAll_append, execAll_resRow hs, execAll_resRow_of_ne (fun _ _ h => by cases h), hbwd 1 (by omega)]
  · rw [heq 0 (by omega), execAll_append, execAll_sumRow hs, execAll_resRow hs, execAll_resRow_of_ne (fun _ _ h => by cases h),
      hfwd (by omega), hbwd 1 (by omega)]

/-- `copy_res_layer` changes nothing but its output. -/
theorem copyResLayer_kept (hstep : (copyResLayer args).Step mem mem') {a : Elem} (ha : ∀ z, a ≠ .dstLayer z) : mem' a = mem a := by
  apply hstep.of_ne
  intro idx hidx e he heq
  obtain ⟨it, hit, b, hb, rfl⟩ := digits_pair.mp hidx
  obtain ⟨d, hd, s, hs, hdst⟩ := (mem_copyResLayer he).1
  exact ha _ (heq.symm.trans hdst)

/-- The elements of the states in the workspace. -/
def isState : Elem → Bool
  | .wsStates _ => true
  | .wsCStates _ => true
  | _ => false

/-- The copy of a state. -/
def iterCopy (args : ExecArgs R) (md : MemoryDesc) (lay dir b s : ℕ) : Assign Elem R :=
  ⟨.dstIter (md.blkOff [(lay : ℤ), dir, b, 0] + s), fun mem => mem (st args (lay + 1) dir args.rnn.nIter b s)⟩

/-- The copy of a state of a cell. -/
def iterCopyC (args : ExecArgs R) (lay dir b s : ℕ) : Assign Elem R :=
  ⟨.dstIterC (args.dstIterCMd.blkOff [(lay : ℤ), dir, b, 0] + s), fun mem => mem (cst args (lay + 1) dir args.rnn.nIter b s)⟩

omit [CommRing R] in
/-- What `copy_res_iter` assigns. -/
theorem copyResIter_eq {md : MemoryDesc} (hmd : args.dstIterMd = some md) : ∃ ph : Phase Elem R, copyResIter args = [ph] ∧
    ph.dims = [args.rnn.nLayer, args.rnn.nDir, args.rnn.mb] ∧ ∀ lay dir b e, e ∈ ph.body [lay, dir, b] ↔
      (∃ s < args.rnn.dic, e = iterCopy args md lay dir b s) ∨
        (args.rnn.cellKind = .vanillaLstm ∧ ∃ s < args.rnn.dic, e = iterCopyC args lay dir b s) := by
  unfold copyResIter
  rw [hmd]
  refine ⟨_, rfl, rfl, fun lay dir b e => ?_⟩
  dsimp only [List.getD_cons_zero, List.getD_cons_succ]
  rw [List.mem_append]
  refine or_congr ?_ ?_
  · rw [List.mem_map]
    exact exists_congr fun s => and_congr List.mem_range eq_comm
  · split_ifs with hk
    · rw [List.mem_map]
      exact (exists_congr fun s => and_congr List.mem_range eq_comm).trans (and_iff_right hk).symm
    · simp [hk]

omit [CommRing R] in
/-- What `copy_res_iter` leaves. -/
theorem copyResIter_spec {f : ℕ → ℕ → ℕ → State R} {md : MemoryDesc} (hv : Valid args) (hmd : args.dstIterMd = some md)
    (hdone : ∀ dir < args.rnn.nDir, ∀ lay < args.rnn.nLayer, ∀ b < args.rnn.mb, ∀ s < args.rnn.dic,
      mem (st args (lay + 1) dir args.rnn.nIter b s) = (f dir b lay).h s ∧
        (args.rnn.cellKind = .vanillaLstm → mem (cst args (lay + 1) dir args.rnn.nIter b s) = (f dir b lay).c s))
    (hrun : Runs (copyResIter args) mem mem') (hlay : lay < args.rnn.nLayer) (hdir : dir < args.rnn.nDir) (hb : b < args.rnn.mb)
    (hs : s < args.rnn.dic) :
    mem' (.dstIter (md.blkOff [(lay : ℤ), dir, b, 0] + s)) = (f dir b lay).h s ∧
      (args.rnn.cellKind = .vanillaLstm → mem' (.dstIterC (args.dstIterCMd.blkOff [(lay : ℤ), dir, b, 0] + s)) = (f dir b lay).c s) := by
  obtain ⟨ph, heq, hdims, hmem⟩ := copyResIter_eq hmd
  rw [heq] at hrun
  have hstep := runs_singleton.mp hrun
  have hcopy : ∀ idx ∈ digits ph.dims, ∀ e ∈ ph.body idx, ∃ lay < args.rnn.nLayer, ∃ dir < args.rnn.nDir, ∃ b < args.rnn.mb,
      ∃ s < args.rnn.dic, e = iterCopy args md lay dir b s ∨ (args.rnn.cellKind = .vanillaLstm ∧ e = iterCopyC args lay dir b s) := by
    intro idx hidx e he
    rw [hdims] at hidx
    obtain ⟨lay, hlay, dir, hdir, b, hb, rfl⟩ := digits_triple.mp hidx
    rcases (hmem lay dir b e).mp he with ⟨s, hs, rfl⟩ | ⟨hk, s, hs, rfl⟩
    · exact ⟨lay, hlay, dir, hdir, b, hb, s, hs, Or.inl rfl⟩
    · exact ⟨lay, hlay, dir, hdir, b, hb, s, hs, Or.inr ⟨hk, rfl⟩⟩
  have hfixed : ∀ idx ∈ digits ph.dims, ∀ e ∈ ph.body idx, isState e.dst = false := by
    intro idx hidx e he
    obtain ⟨_, _, _, _, _, _, _, _, rfl | ⟨_, rfl⟩⟩ := hcopy idx hidx e he
    · rfl
    · rfl
  have hidx : [lay, dir, b] ∈ digits ph.dims := hdims ▸ digits_triple.mpr ⟨lay, hlay, dir, hdir, b, hb, rfl⟩
  constructor
  · refine hstep.of_fixed isState hfixed (fun idx hidx e he heq m hm => ?_)
      ⟨_, hidx, _, (hmem lay dir b _).mpr (Or.inl ⟨s, hs, rfl⟩), rfl⟩
    obtain ⟨lay', hlay', dir', hdir', b', hb', s', hs', rfl | ⟨_, rfl⟩⟩ := hcopy idx hidx e he
    · obtain ⟨rfl, rfl, rfl, rfl⟩ := hv.dstIter md (Or.inl hmd) lay' hlay' dir' hdir' b' hb' s' hs' lay hlay dir hdir b hb s hs
        (Elem.dstIter.inj heq)
      exact (hm _ rfl).trans (hdone dir' hdir' lay' hlay' b' hb' s' hs').1
    · cases heq
  · intro hk
    refine hstep.of_fixed isState hfixed (fun idx hidx e he heq m hm => ?_)
      ⟨_, hidx, _, (hmem lay dir b _).mpr (Or.inr ⟨hk, s, hs, rfl⟩), rfl⟩
    obtain ⟨lay', hlay', dir', hdir', b', hb', s', hs', rfl | ⟨_, rfl⟩⟩ := hcopy idx hidx e he
    · cases heq
    · obtain ⟨rfl, rfl, rfl, rfl⟩ := hv.dstIter args.dstIterCMd (Or.inr ⟨by rw [hmd]; exact Option.some_ne_none _, hk, rfl⟩) lay' hlay' dir' hdir' b' hb' s' hs'
        lay hlay dir hdir b hb s hs (Elem.dstIterC.inj heq)
      exact (hm _ rfl).trans ((hdone dir' hdir' lay' hlay' b' hb' s' hs').2 hk)

omit [CommRing R] in
/-- `copy_res_iter` leaves the output of the last layer. -/
theorem copyResIter_kept (hrun : Runs (copyResIter args) mem mem') (z : ℤ) : mem' (.dstLayer z) = mem (.dstLayer z) := by
  rcases hmd : args.dstIterMd with _ | md
  · simp only [copyResIter, hmd] at hrun
    cases hrun
    rfl
  · obtain ⟨ph, heq, hdims, hmem⟩ := copyResIter_eq hmd
    rw [heq] at hrun
    apply (runs_singleton.mp hrun).of_ne
    intro idx hidx e he hdst
    rw [hdims] at hidx
    obtain ⟨lay, hlay, dir, hdir, b, hb, rfl⟩ := digits_triple.mp hidx
    rcases (hmem lay dir b e).mp he with ⟨s, hs, rfl⟩ | ⟨hk, s, hs, rfl⟩
    · cases hdst
    · cases hdst

end Copies

end Grid

/-- A tensor with the given strides. -/
def strided (strides : List ℤ) : MemoryDesc := { zeroMd with blocking := ⟨fun d => strides.getD d 0, []⟩ }

/-- A bidirectional LSTM with two iterations. All sizes and all weights are one. -/
def biLstm : ExecArgs ℤ where
  rnn := {
    cellKind := .vanillaLstm, execDir := .biConcat, nLayer := 1, nIter := 2, mb := 1, slc := 1, sic := 1, dic := 1,
    weightsLayerLd := 4, weightsIterLd := 4, isTraining := false }
  srcLayer := ⟨strided [1, 1, 1], fun z => z + 1⟩
  srcIter := none
  srcIterC := ⟨strided [], fun _ => 0⟩
  weightsLayer := fun _ => 1
  weightsIter := fun _ => 1
  bias := fun _ => 0
  dstLayerMd := strided [2, 2, 1]
  dstIterMd := some (strided [2, 1, 1, 1])
  dstIterCMd := strided [2, 1, 1, 1]
  gateAct := fun _ v => v
  cellAct := fun v => v

theorem biLstm_valid : Valid biLstm where
  nLayer_pos := by decide
  nIter_pos := by decide
  dic_pos := by decide
  slc := by decide
  sic := by decide
  gru := by decide
  dstLayer := by
    intro it hit b hb d hd s hs it' hit' b' hb' d' hd' s' hs' heq
    have hlt : d < 2 ∧ d' < 2 := ⟨hd, hd'⟩
    obtain ⟨rfl, rfl⟩ : b = 0 ∧ b' = 0 := ⟨Nat.lt_one_iff.mp hb, Nat.lt_one_iff.mp hb'⟩
    obtain ⟨rfl, rfl⟩ : s = 0 ∧ s' = 0 := ⟨Nat.lt_one_iff.mp hs, Nat.lt_one_iff.mp hs'⟩
    simp [dstAt, biLstm, strided, MemoryDesc.blkOff] at heq
    omega
  dstIter := by
    intro md hmd lay hlay dir hdir b hb s hs lay' hlay' dir' hdir' b' hb' s' hs' heq
    obtain rfl : md = strided [2, 1, 1, 1] := by
      rcases hmd with hmd | ⟨-, -, rfl⟩
      · exact (Option.some.inj hmd).symm
      · rfl
    obtain ⟨rfl, rfl⟩ : lay = 0 ∧ lay' = 0 := ⟨Nat.lt_one_iff.mp hlay, Nat.lt_one_iff.mp hlay'⟩
    obtain ⟨rfl, rfl⟩ : b = 0 ∧ b' = 0 := ⟨Nat.lt_one_iff.mp hb, Nat.lt_one_iff.mp hb'⟩
    obtain ⟨rfl, rfl⟩ : s = 0 ∧ s' = 0 := ⟨Nat.lt_one_iff.mp hs, Nat.lt_one_iff.mp hs'⟩
    simp [strided, MemoryDesc.blkOff] at heq
    omega

end MklDnn.RefRnn
