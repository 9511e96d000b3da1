import Mathlib.Tactic.Linarith
import Mathlib.Tactic.Ring
import MklDnn.Bnorm.JitDriver
import MklDnn.Bnorm.Proofs.PlanProofs

/-!
# JIT batch normalization: the walk of the kernel

The kernel moves `reg_soff` by the sizes in the call and stops when it meets `soff_max`. If the sizes come
from a box of images, channel blocks and points, it stops, and it has visited the box.
-/

namespace MklDnn.BnormJit

/-- The box of a call: `nImages` images, `nBlks` channel blocks and the points from `point` on. -/
structure Box where
  nImages : ℕ
  nBlks : ℕ
  point : ℕ
  nPoints : ℕ

namespace Box

/-- The sizes that a call for the box hands to the kernel. -/
structure SizesOf (b : Box) (d : Driver) (k : Call) : Prop where
  coffMax : k.coffMax = b.nBlks * d.simdW
  soffMax : k.soffMax = b.nImages * (d.dtSize * (d.C_PADDED * d.SP))
  mbStrideBc : k.mbStrideBc = d.dtSize * (d.C_PADDED * d.SP - b.nBlks * d.simdW * d.SP)
  spatSize : k.spatSize = d.SP
  spatSizeLoc : k.spatSizeLoc = b.nPoints
  S_s : k.S_s = b.point * d.vlenSpatData
  S_tail : k.S_tail = (d.SP - (b.point + b.nPoints)) * d.vlenSpatData

/-- The kernel walks over the points of the box: it knows about spatial threading, or there is none. -/
def WalkedWith (b : Box) (d : Driver) (isSpatialThr : Bool) : Prop :=
  isSpatialThr = true ∨ b.point = 0 ∧ b.nPoints = d.SP

/-- The offsets of an image of the box, from `soff` on. -/
def image (b : Box) (d : Driver) (soff : ℤ) : List ℤ :=
  (List.range b.nBlks).flatMap fun cb : ℕ => (List.range b.nPoints).map fun sp : ℕ =>
    soff + (cb * d.SP + (b.point + sp)) * d.vlenSpatData

variable {b : Box} {d : Driver} {k : Call} {isSpatialThr : Bool}

theorem SizesOf.spatLoop (h : b.SizesOf d k) (hw : b.WalkedWith d isSpatialThr) (soff : ℤ) :
    k.spatLoop isSpatialThr d.vlenSpatData soff =
      ((List.range b.nPoints).map fun sp : ℕ => soff + (b.point + sp) * d.vlenSpatData,
        soff + d.SP * d.vlenSpatData) := by
  cases isSpatialThr with
  | true =>
    simp only [Call.spatLoop, if_true, h.spatSizeLoc, h.S_s, h.S_tail, Int.toNat_natCast]
    refine Prod.ext ?_ ?_
    · exact List.map_congr_left fun i _ => by ring
    · show soff + b.point * d.vlenSpatData + b.nPoints * d.vlenSpatData
          + (d.SP - (b.point + b.nPoints)) * d.vlenSpatData = soff + d.SP * d.vlenSpatData
      ring
  | false =>
    obtain ⟨hpoint, hpoints⟩ : b.point = 0 ∧ b.nPoints = d.SP := by simpa [WalkedWith] using hw
    simp only [Call.spatLoop, Bool.false_eq_true, if_false, h.spatSize, Int.toNat_natCast, hpoint, hpoints]
    refine Prod.ext ?_ rfl
    exact List.map_congr_left fun i _ => by rw [Nat.cast_zero, zero_add]

theorem SizesOf.channels (h : b.SizesOf d k) (hw : b.WalkedWith d isSpatialThr) (soff : ℤ) :
    k.channels isSpatialThr d.simdW d.vlenSpatData soff =
      (b.image d soff, soff + b.nBlks * d.SP * d.vlenSpatData) := by
  have hblks : k.coffMax.toNat / d.simdW = b.nBlks := by
    rw [h.coffMax, ← Nat.cast_mul, Int.toNat_natCast, Nat.mul_div_cancel _ d.simdW_pos]
  -- one channel block after the other
  have hstep : ∀ n : ℕ, (List.range n).foldl
      (fun acc (_ : ℕ) =>
        let loop := k.spatLoop isSpatialThr d.vlenSpatData acc.2
        (acc.1 ++ loop.1, loop.2)) (([], soff) : List ℤ × ℤ) =
      ((List.range n).flatMap fun cb : ℕ => (List.range b.nPoints).map fun sp : ℕ =>
        soff + (cb * d.SP + (b.point + sp)) * d.vlenSpatData, soff + n * d.SP * d.vlenSpatData) := by
    intro n
    induction n with
    | zero => simp
    | succ n ih =>
      rw [List.range_succ, List.foldl_append, ih, List.foldl_cons, List.foldl_nil, List.flatMap_append]
      simp only [h.spatLoop hw]
      refine Prod.ext ?_ ?_
      · simp only [List.flatMap_cons, List.flatMap_nil, List.append_nil]
        refine congrArg _ (List.map_congr_left fun sp _ => ?_)
        ring
      · show soff + n * d.SP * d.vlenSpatData + d.SP * d.vlenSpatData
          = soff + ((n + 1 : ℕ) : ℤ) * d.SP * d.vlenSpatData
        push_cast
        ring
  rw [Call.channels, hblks, hstep]
  rfl

/-- The walk from image `m` of the box on. -/
theorem SizesOf.walk_from (h : b.SizesOf d k) (hw : b.WalkedWith d isSpatialThr) (fuel : ℕ) :
    ∀ m < b.nImages, b.nImages ≤ m + fuel →
      k.walk isSpatialThr d.simdW d.vlenSpatData fuel (m * (d.dtSize * (d.C_PADDED * d.SP))) =
        some ((List.range' m (b.nImages - m)).flatMap fun n : ℕ =>
          b.image d (k.src + n * (d.dtSize * (d.C_PADDED * d.SP)))) := by
  induction fuel with
  | zero =>
    intro m hm hfuel
    omega
  | succ fuel ih =>
    intro m hm hfuel
    have hpos : (0 : ℤ) < d.dtSize * (d.C_PADDED * d.SP) := by
      have := d.dtSize_pos
      have := d.C_PADDED_pos
      have : 0 < d.SP := d.spatial_pos
      positivity
    have hvisited : (b.image d (m * (d.dtSize * (d.C_PADDED * d.SP)))).map (k.src + ·) =
        b.image d (k.src + m * (d.dtSize * (d.C_PADDED * d.SP))) := by
      simp only [image, List.map_flatMap, List.map_map]
      refine List.flatMap_congr fun cb _ => List.map_congr_left fun sp _ => ?_
      show k.src + (_ + _) = _
      ring
    have hnext : (m : ℤ) * (d.dtSize * (d.C_PADDED * d.SP)) + b.nBlks * d.SP * d.vlenSpatData + k.mbStrideBc =
        ((m + 1 : ℕ) : ℤ) * (d.dtSize * (d.C_PADDED * d.SP)) := by
      rw [h.mbStrideBc, Driver.vlenSpatData]
      push_cast
      ring
    rw [Call.walk, h.channels hw]
    simp only [hvisited, hnext, h.soffMax]
    by_cases hlast : m + 1 = b.nImages
    · rw [if_pos (by rw [hlast])]
      have hone : b.nImages - m = 1 := by omega
      simp [hone]
    · have hne : ¬ ((m + 1 : ℕ) : ℤ) * (d.dtSize * (d.C_PADDED * d.SP)) =
          b.nImages * (d.dtSize * (d.C_PADDED * d.SP)) := by
        intro heq
        exact hlast (Nat.cast_injective (mul_right_cancel₀ hpos.ne' heq))
      rw [if_neg hne, ih (m + 1) (by omega) (by omega), Option.map_some]
      have hsplit : b.nImages - m = (b.nImages - (m + 1)) + 1 := by omega
      rw [hsplit, List.range'_succ, List.flatMap_cons]

/-- The walk ends, and it visits the box. -/
theorem SizesOf.walk (h : b.SizesOf d k) (hw : b.WalkedWith d isSpatialThr) (hpos : 0 < b.nImages) {fuel : ℕ}
    (hfuel : b.nImages ≤ fuel) :
    k.walk isSpatialThr d.simdW d.vlenSpatData fuel 0 =
      some ((List.range b.nImages).flatMap fun n : ℕ =>
        b.image d (k.src + n * (d.dtSize * (d.C_PADDED * d.SP)))) := by
  have hfrom := h.walk_from hw fuel 0 hpos (by omega)
  rwa [Nat.cast_zero, zero_mul, Nat.sub_zero, ← List.range_eq_range'] at hfrom

end Box

end MklDnn.BnormJit

/-!
## JIT batch normalization: the iterations of the driver

The loop of `exec` changes the grid once, before the last iteration. So the calls of a thread are those of
the single iterations, each with the grid of its plan.
-/

namespace MklDnn.BnormJit

open BnormUtils

namespace Driver

variable (d : Driver)

theorem SP_pos : 0 < d.SP := d.spatial_pos

theorem C_blks_mul : d.C_blks * d.simdW = d.C_PADDED := Nat.div_mul_cancel d.simdW_dvd

theorem C_blks_pos : 0 < d.C_blks :=
  Nat.div_pos (Nat.le_of_dvd d.C_PADDED_pos d.simdW_dvd) d.simdW_pos

theorem vlenSpatData_pos : 0 < d.vlenSpatData := Nat.mul_pos d.simdW_pos d.dtSize_pos

/-! ## The plan -/

theorem blocking_of_not (h : ¬ d.doBlocking_) : d.blocking = (1, 1) := by
  unfold blocking
  rw [if_neg h]

/-- The blocking is one of `cache_balance`. -/
theorem blocking_eq (h : d.doBlocking_) :
    ∃ workingSetSize, d.blocking = cacheBalance d.cacheSize d.nthrs workingSetSize d.C_blks := by
  unfold blocking
  rw [if_pos h]
  exact ⟨_, rfl⟩

/-- The number of channel blocks of an iteration that is not the last one. -/
def fullBlks : ℕ := if d.doBlocking_ then d.blocking.1 else d.C_blks

theorem fullBlks_pos : 0 < d.fullBlks := by
  unfold fullBlks
  by_cases h : d.doBlocking_
  · obtain ⟨size, hsize⟩ := d.blocking_eq h
    rw [if_pos h, hsize]
    exact cacheBalance_pos _ _ _ d.C_blks_pos
  · rw [if_neg h]
    exact d.C_blks_pos

theorem fullBlks_le : d.fullBlks ≤ d.C_blks := by
  unfold fullBlks
  by_cases h : d.doBlocking_
  · obtain ⟨size, hsize⟩ := d.blocking_eq h
    rw [if_pos h, hsize]
    exact cacheBalance_le _ _ _ _
  · rw [if_neg h]

/-- The work of a team of `nthr` threads. -/
def plan (nthr : ℕ) : Plan where
  syncable := d.syncable
  doBlocking := d.doBlocking_
  nthr := nthr
  N := d.MB
  blks := d.C_blks
  full := d.fullBlks
  SP := d.SP
  N_pos := d.MB_pos
  full_pos := d.fullBlks_pos
  full_le := d.fullBlks_le
  SP_pos := d.SP_pos

/-- The number of iterations, which does not depend on the team. -/
def iters : ℕ := d.blocking.2

theorem plan_iters (nthr : ℕ) : (d.plan nthr).iters = d.iters := by
  show divUp d.C_blks d.fullBlks = d.blocking.2
  unfold fullBlks
  by_cases h : d.doBlocking_
  · obtain ⟨size, hsize⟩ := d.blocking_eq h
    rw [if_pos h, hsize]
    exact (cacheBalance_snd _ _ _ _).symm
  · rw [if_neg h, d.blocking_of_not h]
    have hone := divUp_mul 1 d.C_blks_pos
    rwa [mul_one] at hone

theorem lt_iters {it : ℕ} (hit : it < d.iters) (nthr : ℕ) : it < (d.plan nthr).iters := by rwa [d.plan_iters]

theorem rebalances_iff (nthr it : ℕ) :
    (d.plan nthr).Rebalances it ↔ it = d.blocking.2 - 1 ∧ d.blocking.2 > 1 := by
  show it = (d.plan nthr).iters - 1 ∧ (d.plan nthr).iters > 1 ↔ _
  rw [d.plan_iters]
  rfl

/-- Without blocking there is one iteration. -/
theorem eq_zero_of_not {it : ℕ} (h : ¬ d.doBlocking_) (hit : it < d.iters) : it = 0 := by
  rw [iters, d.blocking_of_not h] at hit
  exact Nat.lt_one_iff.mp hit

/-- Without blocking the source does not count blocks. -/
theorem mul_blocking {it : ℕ} (hit : it < d.iters) : it * d.blocking.1 = it * d.fullBlks := by
  unfold fullBlks
  split_ifs with h
  · rfl
  · rw [d.eq_zero_of_not h hit, Nat.zero_mul, Nat.zero_mul]

/-- The arguments of the kernel for thread `ithr` in iteration `it`. -/
def paramsAt (ithr nthr it : ℕ) : Call :=
  let g := (d.plan nthr).gridAt ithr it
  d.params nthr ((d.plan nthr).dims0.N * (d.plan nthr).dims0.S) (d.plan nthr).dims0.C g
    (g.N_ithr * g.S_nthr + g.S_ithr) (g.N_nthr * g.S_nthr) it

/-- The call of thread `ithr` in iteration `it`. -/
def callAt (ithr nthr it : ℕ) : Option (ℕ × Call) :=
  if (d.paramsAt ithr nthr it).soffMax ≠ 0 ∧ (d.paramsAt ithr nthr it).coffMax ≠ 0 then
    some (it, d.paramsAt ithr nthr it)
  else none

/-! ## The loop of `exec` -/

/-- The variables of `exec` before a new grid. -/
structure Unchanged (ithr nthr : ℕ) (s : ExecState) : Prop where
  grid : s.grid = (d.plan nthr).dims0.place ithr d.MB d.fullBlks d.SP
  allowed : s.spatialThrAllowed = decide ((d.plan nthr).dims0.S ≠ 1)
  N_ithr : s.N_ithr = s.grid.N_ithr * s.grid.S_nthr + s.grid.S_ithr
  N_nthr : s.N_nthr = s.grid.N_nthr * s.grid.S_nthr

section Loop

variable {d} {ithr nthr : ℕ}

/-- An iteration adds its call, and it runs on its own grid. -/
theorem iteration_eq (hithr : ithr < nthr) {s : ExecState} (hs : d.Unchanged ithr nthr s) {it : ℕ}
    (hit : it < d.iters) :
    (d.iteration ithr nthr ((d.plan nthr).dims0.N * (d.plan nthr).dims0.S) (d.plan nthr).dims0.C s it).calls =
      s.calls ++ (d.callAt ithr nthr it).toList ∧
    (d.iteration ithr nthr ((d.plan nthr).dims0.N * (d.plan nthr).dims0.S) (d.plan nthr).dims0.C s it).grid =
      (d.plan nthr).gridAt ithr it := by
  by_cases hre : (d.plan nthr).Rebalances it
  · have hcond := (d.rebalances_iff nthr it).mp hre
    have hblocking : d.doBlocking_ = true := by
      by_contra hno
      rw [d.blocking_of_not hno] at hcond
      omega
    have hfull : d.blocking.1 = d.fullBlks := by rw [fullBlks, if_pos hblocking]
    have hblks : d.C_blks - (d.blocking.2 - 1) * d.blocking.1 = (d.plan nthr).iterBlks it := by
      have hlast := (d.plan nthr).iterBlks_last
      rw [d.plan_iters] at hlast
      rw [hcond.1, hfull]
      exact hlast.symm
    have hgrid : (d.plan nthr).gridAt ithr it =
        (gridDims d.syncable d.doBlocking_ (decide ((d.plan nthr).dims0.S ≠ 1)) nthr d.MB
          ((d.plan nthr).iterBlks it) d.SP).place ithr d.MB ((d.plan nthr).iterBlks it) d.SP := by
      rw [Plan.gridAt, Plan.dims, if_pos hre]
      rfl
    unfold iteration callAt paramsAt
    simp only [if_pos hcond, hblks, hs.allowed, threadBalance_eq _ _ _ hithr, hgrid]
    split_ifs with hcall
    · simp
    · simp
  · have hcond : ¬ (it = d.blocking.2 - 1 ∧ d.blocking.2 > 1) := fun h => hre ((d.rebalances_iff nthr it).mpr h)
    have hgrid : s.grid = (d.plan nthr).gridAt ithr it := by
      rw [hs.grid, Plan.gridAt, Plan.dims_of_not hre, Plan.iterBlks_of_not (d.lt_iters hit nthr) hre]
      rfl
    unfold iteration callAt paramsAt
    simp only [if_neg hcond, hs.N_ithr, hs.N_nthr, hgrid]
    split_ifs with hcall
    · simp
    · simp [hgrid]

/-- An iteration without a new grid leaves the grid as it is. -/
theorem iteration_unchanged {s : ExecState} (hs : d.Unchanged ithr nthr s) {it : ℕ} (hre : ¬ (d.plan nthr).Rebalances it)
    (SP_N_nthr barriers : ℤ) : d.Unchanged ithr nthr (d.iteration ithr nthr SP_N_nthr barriers s it) := by
  have hcond : ¬ (it = d.blocking.2 - 1 ∧ d.blocking.2 > 1) := fun h => hre ((d.rebalances_iff nthr it).mpr h)
  obtain ⟨hgrid, hallowed, hN_ithr, hN_nthr⟩ := hs
  unfold iteration
  simp only [if_neg hcond]
  split_ifs with hcall
  · exact ⟨hgrid, hallowed, hN_ithr, hN_nthr⟩
  · exact ⟨hgrid, hallowed, hN_ithr, hN_nthr⟩

theorem execState_zero (hithr : ithr < nthr) :
    d.Unchanged ithr nthr (d.execState ithr nthr 0) ∧ (d.execState ithr nthr 0).calls = [] := by
  have hfirst : (if d.doBlocking_ = true then d.blocking.1 else d.C_blks) = d.fullBlks := rfl
  unfold execState
  simp only [hfirst, threadBalance_eq _ _ _ hithr, Bool.true_and, List.range_zero, List.foldl_nil, and_true]
  exact ⟨rfl, rfl, rfl, rfl⟩

theorem execState_succ (hithr : ithr < nthr) (k : ℕ) :
    d.execState ithr nthr (k + 1) =
      d.iteration ithr nthr ((d.plan nthr).dims0.N * (d.plan nthr).dims0.S) (d.plan nthr).dims0.C
        (d.execState ithr nthr k) k := by
  have hfirst : (if d.doBlocking_ = true then d.blocking.1 else d.C_blks) = d.fullBlks := rfl
  have hdims : (d.plan nthr).dims0 = gridDims d.syncable d.doBlocking_ true nthr d.MB d.fullBlks d.SP := rfl
  unfold execState
  simp only [hfirst, threadBalance_eq _ _ _ hithr, List.range_succ, List.foldl_append, List.foldl_cons,
    List.foldl_nil, Dims.place_C_nthr, Dims.place_N_nthr, Dims.place_S_nthr, hdims]

/-- Only the last iteration can change the grid. -/
theorem execState_unchanged (hithr : ithr < nthr) {k : ℕ} (hk : k < d.iters) :
    d.Unchanged ithr nthr (d.execState ithr nthr k) := by
  induction k with
  | zero => exact (execState_zero hithr).1
  | succ k ih =>
    have hre : ¬ (d.plan nthr).Rebalances k := fun h => by
      have := h.1
      rw [d.plan_iters] at this
      omega
    rw [execState_succ hithr]
    exact iteration_unchanged (ih (by omega)) hre _ _

theorem execState_calls (hithr : ithr < nthr) {k : ℕ} (hk : k ≤ d.iters) :
    (d.execState ithr nthr k).calls = (List.range k).flatMap fun it => (d.callAt ithr nthr it).toList := by
  induction k with
  | zero => exact (execState_zero hithr).2
  | succ k ih =>
    have hcalls := (iteration_eq hithr (execState_unchanged hithr (Nat.lt_of_succ_le hk)) (Nat.lt_of_succ_le hk)).1
    rw [execState_succ hithr, hcalls, ih (by omega), List.range_succ, List.flatMap_append]
    simp

/-- The grid of an iteration. -/
theorem execState_grid (hithr : ithr < nthr) {it : ℕ} (hit : it < d.iters) :
    (d.execState ithr nthr (it + 1)).grid = (d.plan nthr).gridAt ithr it := by
  rw [execState_succ hithr]
  exact (iteration_eq hithr (execState_unchanged hithr hit) hit).2

/-- The calls of a thread are those of the iterations. -/
theorem exec_eq (hithr : ithr < nthr) :
    d.exec ithr nthr = (List.range d.iters).flatMap fun it => (d.callAt ithr nthr it).toList :=
  execState_calls hithr (le_refl d.iters)

end Loop

end Driver

end MklDnn.BnormJit
