import Mathlib.Tactic.Ring
import MklDnn.Bnorm.Proofs.UtilsProofs
import MklDnn.Common.Proofs.UtilsProofs
import MklDnn.Lib.Offsets

/-!
# Batch normalization: the iterations of a driver

The drivers that use `cache_balance` and `thread_balance` go over the channel blocks in iterations, and compute
the grid of the threads before the loop and once more for the last iteration. So the grid of an iteration
depends on the number of its channel blocks only, and a thread of the grid has a range of channel blocks, of
images and of points, which together tile the work of the iteration.
-/

namespace MklDnn.BnormUtils

open LoopNest

/-- A range that is not longer than the team has no empty part. -/
theorem balance211_lt {n team tid : ℕ} (hle : team ≤ n) (htid : tid < team) :
    (balance211 n team tid).1 < (balance211 n team tid).2 := by
  have hn : n ≠ 0 := by omega
  rcases Nat.lt_or_ge 1 team with h1 | h1
  · rw [balance211_snd_eq h1 hn, balance211_fst_eq h1 hn, balance211_fst_eq h1 hn, Nat.succ_mul]
    have hup : 0 < divUp n team := divUp_pos (Nat.pos_of_ne_zero hn) (by omega)
    by_cases hone : divUp n team = 1
    · rw [hone]
      simp only [Nat.sub_self, Nat.zero_mul, Nat.mul_zero, Nat.add_zero, Nat.sub_zero]
      omega
    · have hmin : min tid (n - (divUp n team - 1) * team) ≤ min (tid + 1) (n - (divUp n team - 1) * team) :=
        min_le_min_right _ (Nat.le_succ tid)
      omega
  · rw [balance211, if_pos (Or.inl h1)]
    omega

/-- The work of a driver: `blks` channel blocks, of which an iteration takes `full`, `N` images and `SP` points. -/
structure Plan where
  syncable : Bool
  doBlocking : Bool
  nthr : ℕ
  N : ℕ
  blks : ℕ
  full : ℕ
  SP : ℕ
  N_pos : 0 < N
  full_pos : 0 < full
  full_le : full ≤ blks
  SP_pos : 0 < SP

/-- The coordinates of a thread of the grid: channel blocks, minibatch and points. -/
structure Coord where
  ci : ℕ
  ni : ℕ
  si : ℕ

namespace Plan

variable (P : Plan)

/-! ## The blocks of an iteration -/

def iters : ℕ := divUp P.blks P.full

/-- The number of channel blocks of iteration `it`. -/
def iterBlks (it : ℕ) : ℕ := min P.full (P.blks - it * P.full)

theorem blks_pos : 0 < P.blks := P.full_pos.trans_le P.full_le

theorem iters_pos : 0 < P.iters := divUp_pos P.blks_pos P.full_pos

theorem le_iters_mul : P.blks ≤ P.iters * P.full := le_rndUp P.full_pos

variable {P} {it ithr : ℕ}

theorem mul_full_lt (hit : it < P.iters) : it * P.full < P.blks := by
  by_contra hle
  have := (divUp_le_iff P.full_pos).mpr (Nat.le_of_not_lt hle)
  unfold iters at hit
  omega

theorem iterBlks_pos (hit : it < P.iters) : 0 < P.iterBlks it :=
  lt_min P.full_pos (Nat.sub_pos_of_lt (mul_full_lt hit))

theorem add_iterBlks_le (hit : it < P.iters) : it * P.full + P.iterBlks it ≤ P.blks := by
  have hlt := mul_full_lt hit
  have hle : P.iterBlks it ≤ P.blks - it * P.full := min_le_right _ _
  omega

/-- An iteration before the last one takes all blocks of an iteration. -/
theorem iterBlks_of_lt (hit : it + 1 < P.iters) : P.iterBlks it = P.full := by
  have hlt := mul_full_lt hit
  rw [Nat.succ_mul] at hlt
  exact min_eq_left (by omega)

theorem iterBlks_zero (P : Plan) : P.iterBlks 0 = P.full := by
  rw [iterBlks, Nat.zero_mul, Nat.sub_zero]
  exact min_eq_left P.full_le

/-- The last iteration takes what the others leave. -/
theorem iterBlks_last (P : Plan) : P.iterBlks (P.iters - 1) = P.blks - (P.iters - 1) * P.full := by
  have hle := P.le_iters_mul
  have hsplit : P.iters * P.full = (P.iters - 1) * P.full + P.full := by
    rw [← Nat.succ_mul]
    congr 1
    have := P.iters_pos
    omega
  exact min_eq_right (by omega)

/-! ## The grid of an iteration -/

variable (P)

/-- The grid before the loop. -/
def dims0 : Dims := gridDims P.syncable P.doBlocking true P.nthr P.N P.full P.SP

/-- Whether the grid is computed anew in iteration `it`. -/
def Rebalances (it : ℕ) : Prop := it = P.iters - 1 ∧ P.iters > 1

instance (it : ℕ) : Decidable (P.Rebalances it) := inferInstanceAs (Decidable (_ ∧ _))

/-- The grid of iteration `it`. -/
def dims (it : ℕ) : Dims :=
  if P.Rebalances it then
    gridDims P.syncable P.doBlocking (decide (P.dims0.S ≠ 1)) P.nthr P.N (P.iterBlks it) P.SP
  else P.dims0

/-- What `thread_balance` gives thread `ithr` in iteration `it`. -/
def gridAt (ithr it : ℕ) : Grid := (P.dims it).place ithr P.N (P.iterBlks it) P.SP

/-- The coordinates of thread `ithr`. -/
def coord (it ithr : ℕ) : Coord :=
  ⟨ithr / ((P.dims it).N * (P.dims it).S), ithr / (P.dims it).S % (P.dims it).N, ithr % (P.dims it).S⟩

/-- `C_blk_s` and `C_blk_e` -/
def blkRange (it ci : ℕ) : ℕ × ℕ := balance211 (P.iterBlks it) (P.dims it).C ci

/-- `N_s` and `N_e` -/
def imageRange (it ni : ℕ) : ℕ × ℕ := balance211 P.N (P.dims it).N ni

/-- `S_s` and `S_e` -/
def pointRange (it si : ℕ) : ℕ × ℕ := balance211 P.SP (P.dims it).S si

/-- The channel blocks of thread `ithr`. -/
def blksOf (it ithr : ℕ) : ℕ × ℕ := P.blkRange it (P.coord it ithr).ci

/-- The images of thread `ithr`. -/
def imagesOf (it ithr : ℕ) : ℕ × ℕ := P.imageRange it (P.coord it ithr).ni

/-- The points of thread `ithr`. -/
def pointsOf (it ithr : ℕ) : ℕ × ℕ := P.pointRange it (P.coord it ithr).si

/-- The number of threads that share the channel blocks of a thread. -/
def ranks (it : ℕ) : ℕ := (P.dims it).N * (P.dims it).S

variable {P}

theorem dims_of_not (h : ¬ P.Rebalances it) : P.dims it = P.dims0 := if_neg h

theorem iterBlks_of_not (hit : it < P.iters) (h : ¬ P.Rebalances it) : P.iterBlks it = P.full := by
  by_cases hlast : it = P.iters - 1
  · have hone : ¬ P.iters > 1 := fun hgt => h ⟨hlast, hgt⟩
    have h0 : it = 0 := by omega
    rw [h0, P.iterBlks_zero]
  · exact iterBlks_of_lt (by omega)

theorem dims0_fits (hnthr : 0 < P.nthr) : P.dims0.Fits P.nthr P.N P.SP :=
  gridDims_fits _ _ _ hnthr P.N_pos P.full_pos P.SP_pos

theorem dims_fits (hnthr : 0 < P.nthr) (hit : it < P.iters) : (P.dims it).Fits P.nthr P.N P.SP := by
  unfold dims
  split_ifs with hre
  · exact gridDims_fits _ _ _ hnthr P.N_pos (iterBlks_pos hit) P.SP_pos
  · exact dims0_fits hnthr

theorem dims_C_le (hit : it < P.iters) :
    (P.dims it).C ≤ P.iterBlks it ∨ P.syncable = false ∧ P.dims it = ⟨P.nthr, 1, 1⟩ := by
  unfold dims
  split_ifs with hre
  · exact gridDims_C_le _ _ _ _ _ _ (iterBlks_pos hit)
  · rw [iterBlks_of_not hit hre]
    exact gridDims_C_le _ _ _ _ _ _ P.full_pos

/-- No iteration has spatial threads if the grid before the loop has none. -/
theorem dims_S_eq_one (h : P.dims0.S = 1) (it : ℕ) : (P.dims it).S = 1 := by
  unfold dims
  split_ifs with hre
  · rw [h]
    exact gridDims_not_allowed _ _ _ _ _ _
  · exact h

theorem ranks_pos (hnthr : 0 < P.nthr) (hit : it < P.iters) : 0 < P.ranks it :=
  Nat.mul_pos (dims_fits hnthr hit).N_pos (dims_fits hnthr hit).S_pos

theorem size_eq (P : Plan) (it : ℕ) : (P.dims it).size = (P.dims it).C * P.ranks it := Nat.mul_assoc _ _ _

theorem ranks_le (hnthr : 0 < P.nthr) (hit : it < P.iters) : P.ranks it ≤ P.nthr := by
  have hfits := dims_fits hnthr hit
  have hsize := hfits.size_le
  rw [P.size_eq] at hsize
  exact (Nat.le_mul_of_pos_left _ hfits.C_pos).trans hsize

/-- A runtime that cannot synchronize has no ranks. -/
theorem dims_of_not_syncable (hsync : P.syncable = false) (it : ℕ) : P.dims it = ⟨P.nthr, 1, 1⟩ := by
  unfold dims dims0
  rw [hsync]
  simp [gridDims]

/-- The grid fits into the team. -/
theorem dims0_ranks_le (hnthr : 0 < P.nthr) : P.dims0.N * P.dims0.S ≤ P.nthr := by
  have hfits := dims0_fits hnthr
  refine le_trans ?_ hfits.size_le
  rw [Dims.size, Nat.mul_assoc]
  exact Nat.le_mul_of_pos_left _ hfits.C_pos

theorem ranks_of_not_syncable (hsync : P.syncable = false) (it : ℕ) : P.ranks it = 1 := by
  simp [ranks, dims_of_not_syncable hsync]

/-! ## A thread of the grid -/

theorem coord_ci_lt (hin : ithr < (P.dims it).size) : (P.coord it ithr).ci < (P.dims it).C := by
  rw [P.size_eq, Nat.mul_comm] at hin
  exact Nat.div_lt_of_lt_mul hin

theorem coord_ni_lt (hnthr : 0 < P.nthr) (hit : it < P.iters) : (P.coord it ithr).ni < (P.dims it).N :=
  Nat.mod_lt _ (dims_fits hnthr hit).N_pos

theorem coord_si_lt (hnthr : 0 < P.nthr) (hit : it < P.iters) : (P.coord it ithr).si < (P.dims it).S :=
  Nat.mod_lt _ (dims_fits hnthr hit).S_pos

/-- The rank of a thread among those with its channel blocks is what is left of its number. -/
theorem rank_eq (P : Plan) (it ithr : ℕ) :
    (P.coord it ithr).ni * (P.dims it).S + (P.coord it ithr).si = ithr % P.ranks it := by
  unfold coord ranks
  rw [Nat.mul_comm (P.dims it).N, Nat.mod_mul]
  ring

theorem rank_lt (hnthr : 0 < P.nthr) (hit : it < P.iters) (ithr : ℕ) : ithr % P.ranks it < P.ranks it :=
  Nat.mod_lt _ (ranks_pos hnthr hit)

/-- A thread is given by its channel blocks and its rank. -/
theorem eq_of_ci_of_rank {i j : ℕ} (hci : (P.coord it i).ci = (P.coord it j).ci)
    (hrank : i % P.ranks it = j % P.ranks it) : i = j := by
  have hi := Nat.div_add_mod i (P.ranks it)
  have hj := Nat.div_add_mod j (P.ranks it)
  have hdiv : i / P.ranks it = j / P.ranks it := hci
  rw [hdiv, hrank] at hi
  exact hi.symm.trans hj

/-- Whether thread `i` shares the channel blocks of thread `ithr`. -/
theorem coord_ci_eq_iff (hnthr : 0 < P.nthr) (hit : it < P.iters) (i : ℕ) :
    (P.coord it i).ci = (P.coord it ithr).ci ↔
      (P.coord it ithr).ci * P.ranks it ≤ i ∧ i < (P.coord it ithr).ci * P.ranks it + P.ranks it := by
  rw [show (P.coord it i).ci = i / P.ranks it from rfl, Nat.div_eq_iff (ranks_pos hnthr hit)]
  have := ranks_pos hnthr hit
  omega

/-- The place of a thread of the grid. -/
theorem gridAt_eq (hin : ithr < (P.dims it).size) :
    P.gridAt ithr it =
      { C_ithr := (P.coord it ithr).ci, C_nthr := (P.dims it).C
        C_blk_s := (P.blksOf it ithr).1, C_blk_e := (P.blksOf it ithr).2
        N_ithr := (P.coord it ithr).ni, N_nthr := (P.dims it).N
        N_s := (P.imagesOf it ithr).1, N_e := (P.imagesOf it ithr).2
        S_ithr := (P.coord it ithr).si, S_nthr := (P.dims it).S
        S_s := (P.pointsOf it ithr).1, S_e := (P.pointsOf it ithr).2 } := by
  rw [gridAt, Dims.place, if_pos hin]
  rfl

/-- The place of a thread outside of the grid. -/
theorem gridAt_of_le (hout : (P.dims it).size ≤ ithr) :
    P.gridAt ithr it =
      { C_ithr := -ithr, C_nthr := (P.dims it).C, C_blk_s := -1, C_blk_e := -1
        N_ithr := -ithr, N_nthr := (P.dims it).N, N_s := -1, N_e := -1
        S_ithr := -ithr, S_nthr := (P.dims it).S, S_s := -1, S_e := -1 } := by
  rw [gridAt, Dims.place, if_neg (Nat.not_lt.mpr hout)]

@[simp] theorem gridAt_N_nthr (P : Plan) (ithr it : ℕ) : (P.gridAt ithr it).N_nthr = (P.dims it).N :=
  Dims.place_N_nthr ..

@[simp] theorem gridAt_S_nthr (P : Plan) (ithr it : ℕ) : (P.gridAt ithr it).S_nthr = (P.dims it).S :=
  Dims.place_S_nthr ..

theorem blksOf_le (P : Plan) (it ithr : ℕ) : (P.blksOf it ithr).1 ≤ (P.blksOf it ithr).2 :=
  balance211_fst_le_snd _ _ _

theorem blksOf_snd_le (hin : ithr < (P.dims it).size) : (P.blksOf it ithr).2 ≤ P.iterBlks it :=
  balance211_snd_le (coord_ci_lt hin)

theorem imagesOf_lt (hnthr : 0 < P.nthr) (hit : it < P.iters) (ithr : ℕ) :
    (P.imagesOf it ithr).1 < (P.imagesOf it ithr).2 :=
  balance211_lt (dims_fits hnthr hit).N_le (coord_ni_lt hnthr hit)

theorem pointsOf_lt (hnthr : 0 < P.nthr) (hit : it < P.iters) (ithr : ℕ) :
    (P.pointsOf it ithr).1 < (P.pointsOf it ithr).2 :=
  balance211_lt (dims_fits hnthr hit).S_le (coord_si_lt hnthr hit)

theorem imagesOf_snd_le (hnthr : 0 < P.nthr) (hit : it < P.iters) (ithr : ℕ) : (P.imagesOf it ithr).2 ≤ P.N :=
  balance211_snd_le (coord_ni_lt hnthr hit)

theorem blksOf_congr {i j : ℕ} (h : (P.coord it i).ci = (P.coord it j).ci) : P.blksOf it i = P.blksOf it j :=
  congrArg (P.blkRange it) h

/-- Threads with different channel blocks have ranges one behind the other. -/
theorem blksOf_snd_le_fst (hit : it < P.iters) {i j : ℕ} (hj : j < (P.dims it).size)
    (hlt : (P.coord it i).ci < (P.coord it j).ci) : (P.blksOf it i).2 ≤ (P.blksOf it j).1 :=
  balance211_snd_le_fst (coord_ci_lt hj) hlt (iterBlks_pos hit).ne'

/-! ## The tiles -/

section Tiles

variable {β : Type*}

/-- A loop over the images, channel blocks and points of the thread at `x`. -/
def box (P : Plan) (it : ℕ) (x : Coord) (f : ℕ → ℕ → ℕ → List β) : List β :=
  (List.range' (P.imageRange it x.ni).1 ((P.imageRange it x.ni).2 - (P.imageRange it x.ni).1)).flatMap fun n : ℕ =>
    (List.range' (P.blkRange it x.ci).1 ((P.blkRange it x.ci).2 - (P.blkRange it x.ci).1)).flatMap fun cb : ℕ =>
      (List.range' (P.pointRange it x.si).1 ((P.pointRange it x.si).2 - (P.pointRange it x.si).1)).flatMap fun sp : ℕ =>
        f n cb sp

/-- The threads of the grid are its places. -/
theorem flatMap_grid (hnthr : 0 < P.nthr) (hit : it < P.iters) (f : Coord → List β) :
    ((List.range (P.dims it).size).flatMap fun ithr => f (P.coord it ithr)) =
      (List.range (P.dims it).C).flatMap fun ci => (List.range (P.dims it).N).flatMap fun ni =>
        (List.range (P.dims it).S).flatMap fun si => f ⟨ci, ni, si⟩ := by
  have hS := (dims_fits hnthr hit).S_pos
  have hR : 0 < (P.dims it).N * (P.dims it).S := ranks_pos hnthr hit
  rw [P.size_eq, flatMap_range_mul]
  refine List.flatMap_congr fun ci _ => ?_
  rw [ranks, flatMap_range_mul]
  refine List.flatMap_congr fun ni hni => List.flatMap_congr fun si hsi => ?_
  have hni := List.mem_range.mp hni
  have hsi := List.mem_range.mp hsi
  have hrank : ni * (P.dims it).S + si < (P.dims it).N * (P.dims it).S := by
    rw [Nat.add_comm]
    exact add_mul_lt hsi hni
  have hsplit : ci * ((P.dims it).N * (P.dims it).S) + (ni * (P.dims it).S + si) =
      (P.dims it).S * (ci * (P.dims it).N + ni) + si := by ring
  congr 1
  simp only [coord, Coord.mk.injEq]
  refine ⟨?_, ?_, ?_⟩
  · rw [Nat.mul_comm ci, Nat.mul_add_div hR, Nat.div_eq_of_lt hrank, Nat.add_zero]
  · rw [hsplit, Nat.mul_add_div hS, Nat.div_eq_of_lt hsi, Nat.add_zero, Nat.mul_comm ci, Nat.mul_add_mod,
      Nat.mod_eq_of_lt hni]
  · rw [hsplit, Nat.mul_add_mod, Nat.mod_eq_of_lt hsi]

/-- The boxes of the threads tile the work of the iteration. -/
theorem box_perm (hnthr : 0 < P.nthr) (hit : it < P.iters) (f : ℕ → ℕ → ℕ → List β) :
    ((List.range (P.dims it).size).flatMap fun ithr => P.box it (P.coord it ithr) f).Perm
      ((List.range P.N).flatMap fun n : ℕ => (List.range (P.iterBlks it)).flatMap fun cb : ℕ =>
        (List.range P.SP).flatMap fun sp : ℕ => f n cb sp) := by
  obtain ⟨hC, hN, hS, -⟩ := dims_fits hnthr hit
  rw [flatMap_grid hnthr hit fun x => P.box it x f]
  -- the points of a box, then its images, then its channel blocks
  have hpoints : ∀ ci ni : ℕ,
      ((List.range (P.dims it).S).flatMap fun si => P.box it ⟨ci, ni, si⟩ f).Perm
        ((List.range' (P.imageRange it ni).1 ((P.imageRange it ni).2 - (P.imageRange it ni).1)).flatMap fun n : ℕ =>
          (List.range' (P.blkRange it ci).1 ((P.blkRange it ci).2 - (P.blkRange it ci).1)).flatMap fun cb : ℕ =>
            (List.range P.SP).flatMap fun sp : ℕ => f n cb sp) := by
    intro ci ni
    simp only [box]
    refine (flatMap_comm_perm (List.range (P.dims it).S) (List.range' _ _) fun si n =>
      (List.range' (P.blkRange it ci).1 _).flatMap fun cb => (List.range' (P.pointRange it si).1 _).flatMap
        fun sp => f n cb sp).trans (List.Perm.flatMap_left _ fun n _ => ?_)
    exact flatMap_pieces_perm (flatMap_balance211 P.SP hS) _ _
  have himages : ∀ ci : ℕ,
      ((List.range (P.dims it).N).flatMap fun ni =>
        (List.range (P.dims it).S).flatMap fun si => P.box it ⟨ci, ni, si⟩ f).Perm
        ((List.range P.N).flatMap fun n : ℕ =>
          (List.range' (P.blkRange it ci).1 ((P.blkRange it ci).2 - (P.blkRange it ci).1)).flatMap fun cb : ℕ =>
            (List.range P.SP).flatMap fun sp : ℕ => f n cb sp) := by
    intro ci
    refine (List.Perm.flatMap_left _ fun ni _ => hpoints ci ni).trans (List.Perm.of_eq ?_)
    rw [← List.flatMap_assoc, show ((List.range (P.dims it).N).flatMap fun ni =>
      List.range' (P.imageRange it ni).1 ((P.imageRange it ni).2 - (P.imageRange it ni).1)) =
        List.range P.N from flatMap_balance211 P.N hN]
  refine (List.Perm.flatMap_left _ fun ci _ => himages ci).trans ?_
  exact flatMap_pieces_perm (flatMap_balance211 (P.iterBlks it) hC) _ _

/-- The iterations tile the channel blocks. -/
theorem iters_perm (P : Plan) (f : ℕ → ℕ → ℕ → List β) :
    ((List.range P.iters).flatMap fun it : ℕ => (List.range P.N).flatMap fun n : ℕ =>
        (List.range (P.iterBlks it)).flatMap fun cb : ℕ => (List.range P.SP).flatMap fun sp : ℕ =>
          f n (it * P.full + cb) sp).Perm
      ((List.range P.N).flatMap fun n : ℕ => (List.range P.blks).flatMap fun cb : ℕ =>
        (List.range P.SP).flatMap fun sp : ℕ => f n cb sp) := by
  have hblocks : ((List.range P.iters).flatMap fun it => (List.range (P.iterBlks it)).map (it * P.full + ·)) =
      List.range P.blks := (range_eq_blocks P.le_iters_mul).symm
  refine (List.Perm.of_eq ?_).trans (flatMap_pieces_perm hblocks (List.range P.N)
    fun n cb => (List.range P.SP).flatMap fun sp => f n cb sp)
  refine List.flatMap_congr fun it _ => List.flatMap_congr fun n _ => ?_
  rw [List.flatMap_map]

/-- A loop over the team in which the threads outside of the grid do nothing. -/
theorem flatMap_team (hnthr : 0 < P.nthr) (hit : it < P.iters) {f g : ℕ → List β}
    (hidle : ∀ ithr, (P.dims it).size ≤ ithr → f ithr = [])
    (hgrid : ∀ ithr < (P.dims it).size, f ithr = g ithr) :
    (List.range P.nthr).flatMap f = (List.range (P.dims it).size).flatMap g := by
  have hsize := (dims_fits hnthr hit).size_le
  obtain ⟨idle, hsplit⟩ : ∃ idle, P.nthr = (P.dims it).size + idle := ⟨P.nthr - (P.dims it).size, by omega⟩
  rw [hsplit, List.range_add, List.flatMap_append, List.flatMap_map]
  have hnone : ((List.range idle).flatMap fun i => f ((P.dims it).size + i)) = [] :=
    List.flatMap_eq_nil_iff.mpr fun i _ => hidle _ (Nat.le_add_right _ _)
  rw [hnone, List.append_nil]
  exact List.flatMap_congr fun ithr h => hgrid ithr (List.mem_range.mp h)

end Tiles

end Plan

end MklDnn.BnormUtils
