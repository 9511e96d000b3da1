import Mathlib.Algebra.BigOperators.Group.List.Defs
import Mathlib.Algebra.Ring.Defs
import MklDnn.Common.Threading
import MklDnn.Common.Utils
import MklDnn.Memory.Offset

/-!
# The forward pass of an RNN

`ref_rnn.cpp`, the cells and the reference post-operations, for the type `float` and weights that are not packed. The arithmetic is
exact, and the activations are arbitrary functions: what they are depends on the cell and on the test mode.
-/

open Interleaving

namespace MklDnn.RefRnn

/-! ## Configuration -/

/-- `cell_kind` -/
inductive CellKind where
  | vanillaRnn | vanillaLstm | vanillaGru | lbrGru
  deriving DecidableEq

/-- `execution_direction_t` -/
inductive ExecDir where
  | l2r | r2l | biConcat | biSum
  deriving DecidableEq

/-- `rnn_conf_t` -/
structure RnnConf where
  cellKind : CellKind
  execDir : ExecDir
  nLayer : ℕ
  nIter : ℕ
  mb : ℕ
  slc : ℕ
  sic : ℕ
  dic : ℕ
  weightsLayerLd : ℕ
  weightsIterLd : ℕ
  isTraining : Bool

/-- `get_good_ld` -/
def getGoodLd (dim sizeofDt : ℕ) : ℕ :=
  let ld := rndUp dim (64 / sizeofDt)
  if ld % 256 = 0 then ld + 64 / sizeofDt else ld

namespace RnnConf

variable (rnn : RnnConf)

/-- `n_dir`, which `rnn_common_fwd_desc_init` checks against the weights. -/
def nDir : ℕ :=
  match rnn.execDir with
  | .l2r => 1
  | .r2l => 1
  | .biConcat => 2
  | .biSum => 2

/-- `get_gates_count` -/
def nGates : ℕ :=
  match rnn.cellKind with
  | .vanillaRnn => 1
  | .vanillaLstm => 4
  | .vanillaGru => 3
  | .lbrGru => 3

def nBias : ℕ := rnn.nGates + if rnn.cellKind = .lbrGru then 1 else 0

def mergeGemmLayer : Bool := rnn.mb < 128

def statesWsLd : ℕ := getGoodLd (max rnn.slc (max rnn.sic rnn.dic)) 4

def gatesWsLd : ℕ := getGoodLd (rnn.dic * rnn.nGates) 4

def wsPerCell : ℕ := (if rnn.cellKind = .lbrGru then 1 else 0) * rnn.mb * rnn.dic * 4

/-- `ws_states(lay, dir, iter, 0)`, and the same for `ws_c_states`. -/
def wsStates (lay dir iter : ℕ) : ℕ := ((lay * rnn.nDir + dir) * (rnn.nIter + 1) + iter) * (rnn.mb * rnn.statesWsLd)

/-- `ws_gates(lay, dir, iter, 0)` -/
def wsGates (lay dir iter : ℕ) : ℕ := ((lay * rnn.nDir + dir) * rnn.nIter + iter) * (rnn.mb * rnn.gatesWsLd)

/-- `ws_grid(lay, dir, iter, 0)` -/
def wsGrid (lay dir iter : ℕ) : ℕ := ((lay * rnn.nDir + dir) * rnn.nIter + iter) * rnn.wsPerCell

def nStates : ℕ := if rnn.cellKind = .vanillaLstm then 2 else 1

/-! The sizes in bytes -/

def wsStatesSize : ℕ := (rnn.nLayer + 1) * rnn.nDir * (rnn.nIter + 1) * rnn.mb * rnn.statesWsLd * 4

def wsCStatesSize : ℕ :=
  if rnn.cellKind = .vanillaLstm then (rnn.nLayer + 1) * rnn.nDir * (rnn.nIter + 1) * rnn.mb * rnn.statesWsLd * 4 else 0

def wsDiffStatesSize : ℕ :=
  if rnn.isTraining then
    (rnn.nLayer + 1) * rnn.nDir * (rnn.nIter + 1) * (rnn.nStates + 1) * rnn.mb * rnn.statesWsLd * 4
  else 0

def wsGatesSize : ℕ := rnn.nLayer * rnn.nDir * rnn.nIter * rnn.mb * rnn.gatesWsLd * 4

def wsCellCompSize : ℕ := if rnn.cellKind = .lbrGru then rnn.mb * rnn.gatesWsLd * 4 else 0

def wsGridCompSize : ℕ :=
  (if rnn.cellKind = .lbrGru then 1 else 0) * (if rnn.isTraining then 1 else 0) * rnn.nLayer * rnn.nDir * rnn.nIter * rnn.wsPerCell * 4

end RnnConf

/-- The results of `set_offsets`. For `float` there is no copy of the bias. -/
structure Offsets where
  wsGates : ℕ
  wsStates : ℕ
  wsCStates : ℕ
  wsDiffStates : ℕ
  wsGridComp : ℕ
  wsCellComp : ℕ
  scratchpadSize : ℕ
  workspaceSize : ℕ

/-- `set_offsets` -/
def setOffsets (rnn : RnnConf) : Offsets :=
  let pageSize := 4096
  let wsGates := 0
  let wsStates := rndUp (wsGates + rnn.wsGatesSize) pageSize
  let wsCStates := rndUp (wsStates + rnn.wsStatesSize) pageSize
  let wsDiffStates := rndUp (wsCStates + rnn.wsCStatesSize) pageSize
  let wsGridComp := rndUp (wsDiffStates + rnn.wsDiffStatesSize) pageSize
  let wsCellComp := rndUp (wsGridComp + rnn.wsGridCompSize) pageSize
  let currentOffset := wsCellComp + rnn.wsCellCompSize
  { wsGates, wsStates, wsCStates, wsDiffStates, wsGridComp, wsCellComp
    scratchpadSize := if rnn.isTraining then 0 else currentOffset
    workspaceSize := if rnn.isTraining then currentOffset else 0 }

/-- An element of a part of the workspace, or of a tensor of the user. -/
inductive Elem where
  | wsStates (x : ℕ)
  | wsCStates (x : ℕ)
  | wsGates (x : ℕ)
  | wsGrid (x : ℕ)
  | wsCell (x : ℕ)
  | dstLayer (z : ℤ)
  | dstIter (z : ℤ)
  | dstIterC (z : ℤ)
  deriving DecidableEq

/-- An input of the user. -/
structure Tensor (R : Type*) where
  md : MemoryDesc
  data : ℤ → R

/-- What `execute_` gets. The states are absent if the pointers are null; those of the cells are there for an LSTM only. -/
structure ExecArgs (R : Type*) where
  rnn : RnnConf
  srcLayer : Tensor R
  srcIter : Option (Tensor R)
  srcIterC : Tensor R
  weightsLayer : ℕ → R
  weightsIter : ℕ → R
  bias : ℕ → R
  dstLayerMd : MemoryDesc
  dstIterMd : Option MemoryDesc
  dstIterCMd : MemoryDesc
  /-- `func1` or `func2` with the scale of the gate, or `activation_func` with `alpha`. -/
  gateAct : ℕ → R → R
  /-- `func2` with `cscale`. -/
  cellAct : R → R

/-- The pointers that a cell gets. -/
structure CellPtrs (R : Type*) where
  statesTL : ℕ
  cStatesTL : ℕ
  statesTLm1 : ℕ
  statesTm1L : ℕ
  cStatesTm1L : ℕ
  wsGates : ℕ
  wsGrid : ℕ
  wLayer : ℕ → R
  /-- `w_iter_[p]` -/
  wIter : ℕ → ℕ → R
  bias : ℕ → R

section Exec

variable {R : Type*} [CommRing R]

/-- Serial code. -/
def serial (prog : List (Assign Elem R)) : Phase Elem R := ⟨[1], fun _ => prog⟩

/-- `gemm`, for matrices that are not transposed and `alpha` equal to one. The first one is constant. -/
def gemm (m n k : ℕ) (a : ℕ → R) (lda : ℕ) (b : ℕ → Elem) (ldb : ℕ) (beta : R) (c : ℕ → Elem) (ldc : ℕ) : Phase Elem R :=
  serial ((List.range n).flatMap fun j => (List.range m).map fun i =>
    ⟨c (i + j * ldc), fun mem => beta * mem (c (i + j * ldc)) + ((List.range k).map fun p => a (i + p * lda) * mem (b (p + j * ldb))).sum⟩)

/-! ## Post-operations -/

section Postgemm

variable (args : ExecArgs R) (ptrs : CellPtrs R)

/-- `ws_gates(i, gate, j)` -/
def gate (i g j : ℕ) : Elem := .wsGates (ptrs.wsGates + (i * args.rnn.gatesWsLd + (g * args.rnn.dic + j)))

/-- `ws_gemm_state(i, gate, j)` -/
def gemmState (i g j : ℕ) : Elem := .wsCell (i * args.rnn.gatesWsLd + (g * args.rnn.dic + j))

/-- `bias(gate, j)` -/
def biasOf (g j : ℕ) : R := ptrs.bias (g * args.rnn.dic + j)

/-- `states_t_l(i, j)` -/
def stateTL (i j : ℕ) : Elem := .wsStates (ptrs.statesTL + (i * args.rnn.statesWsLd + j))

/-- `states_tm1_l(i, j)` -/
def stateTm1L (i j : ℕ) : Elem := .wsStates (ptrs.statesTm1L + (i * args.rnn.statesWsLd + j))

/-- `c_states_t_l(i, j)` -/
def cStateTL (i j : ℕ) : Elem := .wsCStates (ptrs.cStatesTL + (i * args.rnn.statesWsLd + j))

/-- `c_states_tm1_l(i, j)` -/
def cStateTm1L (i j : ℕ) : Elem := .wsCStates (ptrs.cStatesTm1L + (i * args.rnn.statesWsLd + j))

/-- `ws_Wh_b(i, j)` -/
def whB (i j : ℕ) : Elem := .wsGrid (ptrs.wsGrid + (i * args.rnn.dic + j))

/-- The loops of a post-operation, with the assignments for the element `j` of the sample `i`. -/
def postgemm (body : ℕ → ℕ → List (Assign Elem R)) : Phase Elem R :=
  ⟨[args.rnn.mb], fun idx => (List.range args.rnn.dic).flatMap fun j => body (idx.getD 0 0) j⟩

/-- A gate is activated in place. -/
def activate (i g j : ℕ) : Assign Elem R :=
  ⟨gate args ptrs i g j, fun mem => args.gateAct g (mem (gate args ptrs i g j) + biasOf args ptrs g j)⟩

/-- `rnn_postgemm` -/
def rnnPostgemm (i j : ℕ) : List (Assign Elem R) :=
  [⟨stateTL args ptrs i j, fun mem => args.gateAct 0 (mem (gate args ptrs i 0 j) + biasOf args ptrs 0 j)⟩,
    ⟨gate args ptrs i 0 j, fun mem => mem (stateTL args ptrs i j)⟩]

/-- `lstm_postgemm`. The value `tmp` is computed before `c_states_t_l` is assigned to. -/
def lstmPostgemm (i j : ℕ) : List (Assign Elem R) :=
  let G := fun g => gate args ptrs i g j
  let tmp := fun (mem : Elem → R) => mem (G 1) * mem (cStateTm1L args ptrs i j) + mem (G 0) * mem (G 2)
  [activate args ptrs i 0 j, activate args ptrs i 1 j, activate args ptrs i 2 j, activate args ptrs i 3 j,
    ⟨stateTL args ptrs i j, fun mem => mem (G 3) * args.cellAct (tmp mem)⟩, ⟨cStateTL args ptrs i j, tmp⟩]

/-- `gru_part1_postgemm` -/
def gruPart1Postgemm (i j : ℕ) : List (Assign Elem R) :=
  [activate args ptrs i 0 j, activate args ptrs i 1 j,
    ⟨stateTL args ptrs i j, fun mem => mem (stateTm1L args ptrs i j) * mem (gate args ptrs i 1 j)⟩]

/-- The state of a GRU, from the activated gates. -/
def gruState (i j : ℕ) : Assign Elem R :=
  let G := fun g => gate args ptrs i g j
  ⟨stateTL args ptrs i j, fun mem => mem (stateTm1L args ptrs i j) * mem (G 0) + (1 - mem (G 0)) * mem (G 2)⟩

/-- `gru_part2_postgemm` -/
def gruPart2Postgemm (i j : ℕ) : List (Assign Elem R) := [activate args ptrs i 2 j, gruState args ptrs i j]

/-- `gru_lbr_postgemm`. The value `Wh_b` is kept for the backward pass. -/
def gruLbrPostgemm (i j : ℕ) : List (Assign Elem R) :=
  let G := fun g => gate args ptrs i g j
  let C := fun g => gemmState args i g j
  let WhB := fun (mem : Elem → R) => mem (C 2) + biasOf args ptrs 3 j
  [⟨G 0, fun mem => args.gateAct 0 (mem (G 0) + mem (C 0) + biasOf args ptrs 0 j)⟩,
    ⟨G 1, fun mem => args.gateAct 1 (mem (G 1) + mem (C 1) + biasOf args ptrs 1 j)⟩,
    ⟨G 2, fun mem => args.gateAct 2 (mem (G 2) + mem (G 1) * WhB mem + biasOf args ptrs 2 j)⟩,
    gruState args ptrs i j] ++ if args.rnn.isTraining then [⟨whB args ptrs i j, WhB⟩] else []

end Postgemm

/-! ## Cells -/

section Cells

variable (args : ExecArgs R) (ptrs : CellPtrs R)

/-- The product of the weights of the layer with `n` columns of the states below. -/
def gemmLayer (n : ℕ) (wLayer : ℕ → R) (states wsGates : ℕ) : Phase Elem R :=
  gemm (args.rnn.nGates * args.rnn.dic) n args.rnn.slc wLayer args.rnn.weightsLayerLd (fun x => .wsStates (states + x))
    args.rnn.statesWsLd 0 (fun x => .wsGates (wsGates + x)) args.rnn.gatesWsLd

/-- The product of the layer for one cell, unless it is merged. -/
def cellGemmLayer : List (Phase Elem R) :=
  if args.rnn.mergeGemmLayer then [] else [gemmLayer args args.rnn.mb ptrs.wLayer ptrs.statesTLm1 ptrs.wsGates]

/-- `gemm_iter_func`, for `m` rows of a part of the weights. -/
def gemmIter (m p : ℕ) (states : ℕ) (beta : R) (c : ℕ → Elem) : Phase Elem R :=
  gemm m args.rnn.mb args.rnn.sic (ptrs.wIter p) args.rnn.weightsIterLd (fun x => .wsStates (states + x)) args.rnn.statesWsLd beta c
    args.rnn.gatesWsLd

/-- `cell_execution` -/
def cellExecution (post : ℕ → ℕ → List (Assign Elem R)) : List (Phase Elem R) :=
  cellGemmLayer args ptrs ++
    [gemmIter args ptrs (args.rnn.nGates * args.rnn.dic) 0 ptrs.statesTm1L 1 (fun x => .wsGates (ptrs.wsGates + x)), postgemm args post]

/-- `cell_execution_gru` -/
def cellExecutionGru : List (Phase Elem R) :=
  cellGemmLayer args ptrs ++
    [gemmIter args ptrs ((args.rnn.nGates - 1) * args.rnn.dic) 0 ptrs.statesTm1L 1 (fun x => .wsGates (ptrs.wsGates + x)),
      postgemm args (gruPart1Postgemm args ptrs),
      gemmIter args ptrs args.rnn.dic 1 ptrs.statesTL 1 (fun x => .wsGates (ptrs.wsGates + 2 * args.rnn.dic + x)),
      postgemm args (gruPart2Postgemm args ptrs)]

/-- `cell_execution_gru_lbr` -/
def cellExecutionGruLbr : List (Phase Elem R) :=
  cellGemmLayer args ptrs ++
    [gemmIter args ptrs (args.rnn.nGates * args.rnn.dic) 0 ptrs.statesTm1L 0 .wsCell, postgemm args (gruLbrPostgemm args ptrs)]

/-- `cell_func` -/
def cellFunc : List (Phase Elem R) :=
  match args.rnn.cellKind with
  | .vanillaRnn => cellExecution args ptrs (rnnPostgemm args ptrs)
  | .vanillaLstm => cellExecution args ptrs (lstmPostgemm args ptrs)
  | .vanillaGru => cellExecutionGru args ptrs
  | .lbrGru => cellExecutionGruLbr args ptrs

end Cells

/-! ## The grid -/

section Grid

variable (args : ExecArgs R)

/-- `weights(lay, dir, part)`, as `assign_weights` sets it: `strides[1]` of the weights is `ic * ld`, and `strides[3]` is `dic`. -/
def assignWeights (w : ℕ → R) (ld ic lay dir gates x : ℕ) : R :=
  w ((lay * args.rnn.nDir + dir) * (ic * ld) + gates * args.rnn.dic + x)

/-- The weights of the layer. -/
def weightsInput (lay dir : ℕ) : ℕ → R := assignWeights args args.weightsLayer args.rnn.weightsLayerLd args.rnn.slc lay dir 0

/-- The parts of the weights of the iteration: those of a GRU are two gates and one. -/
def weightsStates (lay dir part : ℕ) : ℕ → R :=
  assignWeights args args.weightsIter args.rnn.weightsIterLd args.rnn.sic lay dir (if part = 0 then 0 else 2)

/-- `bias(lay, dir, 0)` -/
def biasPtr (lay dir x : ℕ) : R := args.bias ((lay * args.rnn.nDir + dir) * (args.rnn.nBias * args.rnn.dic) + x)

/-- The arguments of `cell_func` in the grid. -/
def cellPtrs (lay dir iter : ℕ) : CellPtrs R where
  statesTL := args.rnn.wsStates (lay + 1) dir (iter + 1)
  cStatesTL := args.rnn.wsStates (lay + 1) dir (iter + 1)
  statesTLm1 := args.rnn.wsStates lay dir (iter + 1)
  statesTm1L := args.rnn.wsStates (lay + 1) dir iter
  cStatesTm1L := args.rnn.wsStates (lay + 1) dir iter
  wsGates := args.rnn.wsGates lay dir iter
  wsGrid := args.rnn.wsGrid lay dir iter
  wLayer := weightsInput args lay dir
  wIter := weightsStates args lay dir
  bias := biasPtr args lay dir

/-- The product of the layer for all iterations, if it is merged. -/
def mergedGemmLayer (lay dir : ℕ) : List (Phase Elem R) :=
  if args.rnn.mergeGemmLayer then
    [gemmLayer args (args.rnn.mb * args.rnn.nIter) (weightsInput args lay dir) (args.rnn.wsStates lay dir 1) (args.rnn.wsGates lay dir 0)]
  else []

/-- `linear_execution` -/
def linearExecution : List (Phase Elem R) :=
  (List.range args.rnn.nDir).flatMap fun dir => (List.range args.rnn.nLayer).flatMap fun lay =>
    mergedGemmLayer args lay dir ++ (List.range args.rnn.nIter).flatMap fun iter => cellFunc args (cellPtrs args lay dir iter)

/-! ## Copies -/

/-- `copy_init_layer` -/
def copyInitLayer : Phase Elem R :=
  ⟨[args.rnn.nIter, args.rnn.mb], fun idx =>
    let it := idx.getD 0 0
    let b := idx.getD 1 0
    let xxt := args.srcLayer.md.blkOff [(it : ℤ), b]
    (if args.rnn.execDir ≠ .r2l then
      (List.range args.rnn.slc).map fun (c : ℕ) =>
        Assign.set (.wsStates (args.rnn.wsStates 0 0 (it + 1) + (b * args.rnn.statesWsLd + c))) (args.srcLayer.data (xxt + c))
    else []) ++
    if args.rnn.execDir ≠ .l2r then
      (List.range args.rnn.slc).map fun (c : ℕ) =>
        Assign.set (.wsStates (args.rnn.wsStates 0 (args.rnn.nDir - 1) (args.rnn.nIter - it) + (b * args.rnn.statesWsLd + c)))
          (args.srcLayer.data (xxt + c))
    else []⟩

/-- `copy_init_iter`. Without states, the states of the cells are set to zero in the iteration `1`. -/
def copyInitIter : Phase Elem R :=
  ⟨[args.rnn.nLayer, args.rnn.nDir, args.rnn.mb], fun idx =>
    let lay := idx.getD 0 0
    let dir := idx.getD 1 0
    let b := idx.getD 2 0
    let dd := fun iter s => args.rnn.wsStates (lay + 1) dir iter + (b * args.rnn.statesWsLd + s)
    match args.srcIter with
    | some srcIter =>
      ((List.range args.rnn.sic).map fun (s : ℕ) =>
        Assign.set (.wsStates (dd 0 s)) (srcIter.data (srcIter.md.blkOff [(lay : ℤ), dir, b, 0] + s))) ++
      if args.rnn.cellKind = .vanillaLstm then
        (List.range args.rnn.dic).map fun (s : ℕ) =>
          Assign.set (.wsCStates (dd 0 s)) (args.srcIterC.data (args.srcIterC.md.blkOff [(lay : ℤ), dir, b, 0] + s))
      else []
    | none =>
      ((List.range args.rnn.sic).map fun j => Assign.set (.wsStates (dd 0 j)) 0) ++
        (List.range args.rnn.dic).map fun j => Assign.set (.wsCStates (dd 1 j)) 0⟩

/-- `copy_res_layer` -/
def copyResLayer : Phase Elem R :=
  ⟨[args.rnn.nIter, args.rnn.mb], fun idx =>
    let it := idx.getD 0 0
    let b := idx.getD 1 0
    let dst := fun (c s : ℕ) => Elem.dstLayer (args.dstLayerMd.blkOff [(it : ℤ), b, c] + s)
    let ws := fun dir iter s => Elem.wsStates (args.rnn.wsStates args.rnn.nLayer dir iter + (b * args.rnn.statesWsLd + s))
    (if args.rnn.execDir ≠ .r2l then
      (List.range args.rnn.dic).map fun s => ⟨dst 0 s, fun mem => mem (ws 0 (it + 1) s)⟩
    else []) ++
    if args.rnn.execDir ≠ .l2r then
      let dir := if args.rnn.execDir ≠ .r2l then 1 else 0
      if args.rnn.execDir = .biSum then
        (List.range args.rnn.dic).map fun s => ⟨dst 0 s, fun mem => mem (dst 0 s) + mem (ws dir (args.rnn.nIter - it) s)⟩
      else
        (List.range args.rnn.dic).map fun s => ⟨dst (dir * args.rnn.dic) s, fun mem => mem (ws dir (args.rnn.nIter - it) s)⟩
    else []⟩

/-- `copy_res_iter` -/
def copyResIter : List (Phase Elem R) :=
  match args.dstIterMd with
  | none => []
  | some dstIterMd =>
    [⟨[args.rnn.nLayer, args.rnn.nDir, args.rnn.mb], fun idx =>
      let lay := idx.getD 0 0
      let dir := idx.getD 1 0
      let b := idx.getD 2 0
      let ss := fun s => args.rnn.wsStates (lay + 1) dir args.rnn.nIter + (b * args.rnn.statesWsLd + s)
      ((List.range args.rnn.dic).map fun (s : ℕ) =>
        ⟨.dstIter (dstIterMd.blkOff [(lay : ℤ), dir, b, 0] + s), fun mem => mem (.wsStates (ss s))⟩) ++
      if args.rnn.cellKind = .vanillaLstm then
        (List.range args.rnn.dic).map fun (s : ℕ) =>
          ⟨.dstIterC (args.dstIterCMd.blkOff [(lay : ℤ), dir, b, 0] + s), fun mem => mem (.wsCStates (ss s))⟩
      else []⟩]

/-- `execute_` -/
def execute : List (Phase Elem R) :=
  [copyInitLayer args, copyInitIter args] ++ linearExecution args ++ [copyResLayer args] ++ copyResIter args

end Grid

end Exec

end MklDnn.RefRnn
