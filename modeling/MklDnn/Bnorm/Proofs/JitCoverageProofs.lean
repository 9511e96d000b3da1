import Mathlib.Tactic.Push
import MklDnn.Bnorm.Proofs.JitDriverProofs

/-!
# JIT batch normalization: the calls of an iteration

A thread of the grid gets a range of channel blocks, of images and of points, and a rank among the threads
that share its channel blocks. The sizes, the parts of the reduction buffers and the barrier of its call
follow from these.
-/

namespace MklDnn.BnormJit

open BnormUtils

namespace Driver

variable (d : Driver) (nthr : ℕ)

/-- The box of the call of thread `ithr`. -/
def box (it ithr : ℕ) : Box :=
  { nImages := ((d.plan nthr).imagesOf it ithr).2 - ((d.plan nthr).imagesOf it ithr).1
    nBlks := ((d.plan nthr).blksOf it ithr).2 - ((d.plan nthr).blksOf it ithr).1
    point := ((d.plan nthr).pointsOf it ithr).1
    nPoints := ((d.plan nthr).pointsOf it ithr).2 - ((d.plan nthr).pointsOf it ithr).1 }

variable {d} {nthr}

section InGrid

variable {it ithr : ℕ}

/-- A thread outside of the grid has no call. -/
theorem callAt_of_le (hout : ((d.plan nthr).dims it).size ≤ ithr) : d.callAt ithr nthr it = none := by
  have hsoff : (d.paramsAt ithr nthr it).soffMax = 0 := by
    unfold paramsAt
    rw [Plan.gridAt_of_le hout]
    simp [params]
  rw [callAt, if_neg]
  exact fun h => h.1 hsoff

/-- The sizes of a call are those of its box. -/
theorem paramsAt_sizes (hnthr : 0 < nthr) (hit : it < d.iters) (hin : ithr < ((d.plan nthr).dims it).size) :
    (d.box nthr it ithr).SizesOf d (d.paramsAt ithr nthr it) := by
  have hblk := (d.plan nthr).blksOf_le it ithr
  have himg := (Plan.imagesOf_lt (P := d.plan nthr) hnthr (d.lt_iters hit nthr) ithr).le
  have hpt := (Plan.pointsOf_lt (P := d.plan nthr) hnthr (d.lt_iters hit nthr) ithr).le
  have hSP : ((d.D : ℤ) * d.H * d.W) = (d.SP : ℕ) := by
    unfold SP
    push_cast
    rfl
  unfold paramsAt box
  simp only [Plan.gridAt_eq hin]
  constructor
  · simp only [params]
    push_cast [Nat.cast_sub hblk]
    rfl
  · simp only [params, mul_assoc, ← hSP]
    push_cast [Nat.cast_sub himg]
    ring
  · simp only [params, ← hSP]
    push_cast [Nat.cast_sub hblk]
    ring
  · exact hSP
  · simp only [params]
    push_cast [Nat.cast_sub hpt]
    rfl
  · rfl
  · simp only [params, hSP]
    push_cast [Nat.cast_sub hpt]
    ring

/-- The data of a call starts at the first image, channel block and point of its box. -/
theorem paramsAt_src (hit : it < d.iters) (hin : ithr < ((d.plan nthr).dims it).size) :
    (d.paramsAt ithr nthr it).src =
      ((d.plan nthr).imagesOf it ithr).1 * (d.dtSize * (d.C_PADDED * d.SP)) +
        (it * d.fullBlks + ((d.plan nthr).blksOf it ithr).1 : ℕ) * d.SP * d.vlenSpatData := by
  have hSP : ((d.D : ℤ) * d.H * d.W) = (d.SP : ℕ) := by
    unfold SP
    push_cast
    rfl
  have hfirst : ¬ ((((d.plan nthr).blksOf it ithr).1 : ℕ) : ℤ) = -1 := by omega
  have hmul : (it : ℤ) * (d.blocking.1 : ℕ) = ((it * d.fullBlks : ℕ) : ℤ) := by
    rw [← d.mul_blocking hit]
    push_cast
    rfl
  unfold paramsAt
  simp only [Plan.gridAt_eq hin, params, if_neg hfirst, hmul, hSP]
  by_cases hblocking : d.doBlocking_
  · simp only [if_pos hblocking, vlenSpatData]
    push_cast
    rw [← hSP]
    ring
  · have h0 : it * d.fullBlks = 0 := by
      rw [d.eq_zero_of_not hblocking hit, Nat.zero_mul]
    simp only [if_neg hblocking, vlenSpatData, h0, zero_add]
    push_cast
    rw [← hSP]
    ring

@[simp] theorem paramsAt_N_nthr (ithr it : ℕ) :
    (d.paramsAt ithr nthr it).N_nthr = ((d.plan nthr).ranks it : ℕ) := by
  simp [paramsAt, params, Plan.ranks]

theorem paramsAt_coffMax (hin : ithr < ((d.plan nthr).dims it).size) :
    (d.paramsAt ithr nthr it).coffMax =
      (((d.plan nthr).blksOf it ithr).2 - ((d.plan nthr).blksOf it ithr).1) *
        d.simdW := by
  unfold paramsAt
  simp only [Plan.gridAt_eq hin, params]

theorem paramsAt_barrier (hit : it < d.iters) (hin : ithr < ((d.plan nthr).dims it).size) :
    (d.paramsAt ithr nthr it).barrier = ((it * (d.plan nthr).dims0.C + ((d.plan nthr).coord it ithr).ci : ℕ) : ℤ) := by
  unfold paramsAt
  simp only [Plan.gridAt_eq hin, params]
  by_cases hblocking : d.doBlocking_
  · simp only [if_pos hblocking]
    push_cast
    ring
  · simp [d.eq_zero_of_not hblocking hit]

/-- The first part of the reduction buffer of a call. -/
theorem paramsAt_rbuf1 (hit : it < d.iters) (hin : ithr < ((d.plan nthr).dims it).size) :
    (d.paramsAt ithr nthr it).rbuf1 =
      (it * d.fullBlks * ((d.plan nthr).dims0.N * (d.plan nthr).dims0.S) +
        ((d.plan nthr).blksOf it ithr).1 * (d.plan nthr).ranks it +
        (ithr % (d.plan nthr).ranks it) *
          (((d.plan nthr).blksOf it ithr).2 - ((d.plan nthr).blksOf it ithr).1) : ℤ) *
        d.simdW := by
  have hmul : (it : ℤ) * (d.blocking.1 : ℕ) = it * d.fullBlks := by
    have := d.mul_blocking hit
    exact_mod_cast this
  have hrank : (((d.plan nthr).coord it ithr).ni : ℤ) * ((d.plan nthr).dims it).S + ((d.plan nthr).coord it ithr).si =
      ((ithr % (d.plan nthr).ranks it : ℕ) : ℤ) := by
    rw [← Plan.rank_eq]
    push_cast
    rfl
  unfold paramsAt
  simp only [Plan.gridAt_eq hin, params, hmul, hrank, Plan.ranks]
  push_cast
  rfl

theorem paramsAt_rbuf2 (ithr it : ℕ) :
    (d.paramsAt ithr nthr it).rbuf2 = (d.paramsAt ithr nthr it).rbuf1 + d.C_PADDED * nthr := rfl

/-- A thread of the grid has a call if it has channel blocks. -/
theorem callAt_eq (hnthr : 0 < nthr) (hit : it < d.iters) (hin : ithr < ((d.plan nthr).dims it).size) :
    d.callAt ithr nthr it =
      if ((d.plan nthr).blksOf it ithr).1 < ((d.plan nthr).blksOf it ithr).2 then
        some (it, d.paramsAt ithr nthr it)
      else none := by
  have hsizes := paramsAt_sizes hnthr hit hin
  have himg := Plan.imagesOf_lt (P := d.plan nthr) hnthr (d.lt_iters hit nthr) ithr
  have hblk := (d.plan nthr).blksOf_le it ithr
  have hsoff : (d.paramsAt ithr nthr it).soffMax ≠ 0 := by
    rw [hsizes.soffMax]
    have h1 : (d.box nthr it ithr).nImages ≠ 0 := by
      simp only [box]
      omega
    have h2 := d.dtSize_pos
    have h3 := d.C_PADDED_pos
    have h4 := d.SP_pos
    have h5 : (d.box nthr it ithr).nImages * (d.dtSize * (d.C_PADDED * d.SP)) ≠ 0 := by
      simp only [ne_eq, Nat.mul_eq_zero]
      omega
    exact_mod_cast h5
  have hcoff : (d.paramsAt ithr nthr it).coffMax ≠ 0 ↔
      ((d.plan nthr).blksOf it ithr).1 < ((d.plan nthr).blksOf it ithr).2 := by
    rw [paramsAt_coffMax hin, ne_eq, mul_eq_zero]
    have hsimd := d.simdW_pos
    omega
  rw [callAt]
  by_cases h : ((d.plan nthr).blksOf it ithr).1 < ((d.plan nthr).blksOf it ithr).2
  · rw [if_pos h, if_pos ⟨hsoff, hcoff.mpr h⟩]
  · rw [if_neg h, if_neg fun hc => h (hcoff.mp hc.2)]

end InGrid

end Driver

end MklDnn.BnormJit

/-!
## JIT batch normalization: the calls cover the data

The boxes of the threads of an iteration tile the images, the channel blocks of the iteration and the points,
and the iterations tile the channel blocks.
-/

namespace MklDnn.BnormJit

open BnormUtils

namespace Driver

variable (d : Driver) (nthr : ℕ)

/-- The calls of all threads. -/
def calls : List (ℕ × Call) := (List.range nthr).flatMap fun ithr => d.exec ithr nthr

/-- The byte offset of the vector of channel block `cb` of image `n` at point `sp`. -/
def pointOffset (n cb sp : ℕ) : ℤ := ((n * d.C_PADDED + cb * d.simdW) * d.SP + sp * d.simdW) * d.dtSize

/-- The vectors of the data. -/
def pointOffsets : List ℤ :=
  (List.range d.MB).flatMap fun n : ℕ => (List.range d.C_blks).flatMap fun cb : ℕ =>
    (List.range d.SP).flatMap fun sp : ℕ => [d.pointOffset n cb sp]

/-- The vectors that the kernel visits in a call. -/
def visited (isSpatialThr : Bool) (k : Call) : List ℤ :=
  (k.walk isSpatialThr d.simdW d.vlenSpatData d.MB 0).getD []

/-- The kernel ends in every call, and all calls together visit every vector of the data once. -/
structure Covers (isSpatialThr : Bool) : Prop where
  ends : ∀ p ∈ d.calls nthr, ∀ fuel ≥ d.MB,
    p.2.walk isSpatialThr d.simdW d.vlenSpatData fuel 0 = some (d.visited isSpatialThr p.2)
  perm : ((d.calls nthr).flatMap fun p => d.visited isSpatialThr p.2).Perm d.pointOffsets

/-- The vectors have different offsets. -/
theorem pointOffsets_nodup : d.pointOffsets.Nodup := by
  have hvlen := d.vlenSpatData_pos
  have hflat : d.pointOffsets =
      (List.range (d.MB * (d.C_blks * d.SP))).flatMap fun l : ℕ => [(l : ℤ) * d.vlenSpatData] := by
    rw [LoopNest.flatMap_range_mul, pointOffsets]
    refine List.flatMap_congr fun n _ => ?_
    rw [LoopNest.flatMap_range_mul]
    refine List.flatMap_congr fun cb _ => List.flatMap_congr fun sp _ => ?_
    rw [pointOffset, vlenSpatData, ← d.C_blks_mul]
    push_cast
    ring_nf
  rw [hflat, ← List.map_eq_flatMap]
  refine List.nodup_range.map fun a b hab => ?_
  have heq : (a : ℤ) * d.vlenSpatData = b * d.vlenSpatData := hab
  exact Nat.cast_injective (mul_right_cancel₀ (by exact_mod_cast hvlen.ne') heq)

/-- The vectors of the box of thread `ithr`. -/
def boxOffsets (it ithr : ℕ) : List ℤ :=
  (d.plan nthr).box it ((d.plan nthr).coord it ithr) fun n cb sp => [d.pointOffset n (it * d.fullBlks + cb) sp]

variable {d} {nthr} {it ithr : ℕ} {isSpatialThr : Bool}

theorem walk_paramsAt (hnthr : 0 < nthr) (hit : it < d.iters) (hin : ithr < ((d.plan nthr).dims it).size)
    (hw : isSpatialThr = true ∨ ((d.plan nthr).dims it).S = 1) {fuel : ℕ} (hfuel : d.MB ≤ fuel) :
    (d.paramsAt ithr nthr it).walk isSpatialThr d.simdW d.vlenSpatData fuel 0 =
      some (d.boxOffsets nthr it ithr) := by
  have hit' := d.lt_iters hit nthr
  have hsi : ((d.plan nthr).coord it ithr).si < ((d.plan nthr).dims it).S := Plan.coord_si_lt hnthr hit'
  have himg := Plan.imagesOf_lt (P := d.plan nthr) hnthr hit' ithr
  have himgle : ((d.plan nthr).imagesOf it ithr).2 ≤ d.MB := Plan.imagesOf_snd_le (P := d.plan nthr) hnthr hit' ithr
  have hwalked : (d.box nthr it ithr).WalkedWith d isSpatialThr := by
    rcases hw with hw | hw
    · exact Or.inl hw
    · have h0 : ((d.plan nthr).coord it ithr).si = 0 := by omega
      have hpoints : (d.plan nthr).pointsOf it ithr = (0, d.SP) := by
        rw [Plan.pointsOf, Plan.pointRange, hw, h0]
        exact balance211_one d.SP
      right
      simp [box, hpoints]
  have hpos : 0 < (d.box nthr it ithr).nImages := by
    simp only [box]
    omega
  have hle : (d.box nthr it ithr).nImages ≤ fuel := by
    simp only [box]
    omega
  rw [(paramsAt_sizes hnthr hit hin).walk hwalked hpos hle, boxOffsets, Plan.box]
  simp only [List.range'_eq_map_range, List.flatMap_map, Box.image, box, Plan.imagesOf, Plan.blksOf, Plan.pointsOf]
  refine congrArg some (List.flatMap_congr fun n _ => List.flatMap_congr fun cb _ => ?_)
  rw [List.map_eq_flatMap]
  refine List.flatMap_congr fun sp _ => ?_
  rw [paramsAt_src hit hin, pointOffset, vlenSpatData]
  simp only [Plan.imagesOf, Plan.blksOf]
  push_cast
  ring_nf

theorem mem_callAt {p : ℕ × Call} (hnthr : 0 < nthr) (hit : it < d.iters)
    (h : p ∈ (d.callAt ithr nthr it).toList) :
    ithr < ((d.plan nthr).dims it).size ∧ p = (it, d.paramsAt ithr nthr it) ∧
      ((d.plan nthr).blksOf it ithr).1 < ((d.plan nthr).blksOf it ithr).2 := by
  by_cases hin : ithr < ((d.plan nthr).dims it).size
  · rw [callAt_eq hnthr hit hin] at h
    split_ifs at h with hblk
    · exact ⟨hin, by simpa using h, hblk⟩
    · simp at h
  · rw [callAt_of_le (Nat.not_lt.mp hin)] at h
    simp at h

theorem calls_eq (d : Driver) (nthr : ℕ) :
    d.calls nthr = (List.range nthr).flatMap fun ithr =>
      (List.range d.iters).flatMap fun it => (d.callAt ithr nthr it).toList :=
  List.flatMap_congr fun _ h => exec_eq (List.mem_range.mp h)

/-- The calls, each with its thread and its iteration. -/
theorem mem_calls {p : ℕ × Call} (hnthr : 0 < nthr) (h : p ∈ d.calls nthr) :
    p.1 < d.iters ∧ ∃ ithr < nthr, ithr < ((d.plan nthr).dims p.1).size ∧ p = (p.1, d.paramsAt ithr nthr p.1) ∧
      ((d.plan nthr).blksOf p.1 ithr).1 < ((d.plan nthr).blksOf p.1 ithr).2 := by
  rw [calls_eq, List.mem_flatMap] at h
  obtain ⟨ithr, hithr, h⟩ := h
  obtain ⟨it, hit, h⟩ := List.mem_flatMap.mp h
  have hit := List.mem_range.mp hit
  obtain ⟨hin, hp, hblk⟩ := mem_callAt hnthr hit h
  have hp1 : p.1 = it := by rw [hp]
  rw [hp1]
  exact ⟨hit, ithr, List.mem_range.mp hithr, hin, hp, hblk⟩

/-- What thread `ithr` visits in an iteration. -/
theorem callAt_visited (hnthr : 0 < nthr) (hit : it < d.iters) (hin : ithr < ((d.plan nthr).dims it).size)
    (hw : isSpatialThr = true ∨ ((d.plan nthr).dims it).S = 1) :
    ((d.callAt ithr nthr it).toList.flatMap fun p => d.visited isSpatialThr p.2) = d.boxOffsets nthr it ithr := by
  rw [callAt_eq hnthr hit hin]
  split_ifs with hblk
  · show [(it, d.paramsAt ithr nthr it)].flatMap _ = _
    rw [List.flatMap_singleton, visited, walk_paramsAt hnthr hit hin hw (le_refl _), Option.getD_some]
  · have hzero : ((d.plan nthr).blkRange it ((d.plan nthr).coord it ithr).ci).2 -
        ((d.plan nthr).blkRange it ((d.plan nthr).coord it ithr).ci).1 = 0 := by
      unfold Plan.blksOf at hblk
      omega
    simp [boxOffsets, Plan.box, hzero]

/-- The threads visit the data of an iteration. -/
theorem iteration_perm (hnthr : 0 < nthr) (hit : it < d.iters)
    (hw : isSpatialThr = true ∨ ((d.plan nthr).dims it).S = 1) :
    ((List.range nthr).flatMap fun ithr =>
        (d.callAt ithr nthr it).toList.flatMap fun p => d.visited isSpatialThr p.2).Perm
      ((List.range d.MB).flatMap fun n : ℕ => (List.range ((d.plan nthr).iterBlks it)).flatMap fun cb : ℕ =>
        (List.range d.SP).flatMap fun sp : ℕ => [d.pointOffset n (it * d.fullBlks + cb) sp]) := by
  have hit' := d.lt_iters hit nthr
  have hidle := Plan.flatMap_team (P := d.plan nthr) (f := fun ithr =>
      (d.callAt ithr nthr it).toList.flatMap fun p => d.visited isSpatialThr p.2) (g := d.boxOffsets nthr it) hnthr hit'
    (fun ithr hout => by simp [callAt_of_le hout]) fun ithr hin => callAt_visited hnthr hit hin hw
  refine (List.Perm.of_eq hidle).trans ?_
  exact Plan.box_perm (P := d.plan nthr) hnthr hit' fun n cb sp => [d.pointOffset n (it * d.fullBlks + cb) sp]

/-- The calls cover the data if the kernel knows about spatial threading, or there is none. -/
theorem covers (hnthr : 0 < nthr) (hw : ∀ it < d.iters, isSpatialThr = true ∨ ((d.plan nthr).dims it).S = 1) :
    d.Covers nthr isSpatialThr where
  ends := by
    intro p hp fuel hfuel
    obtain ⟨hit, ithr, -, hin, hcall, -⟩ := mem_calls hnthr hp
    rw [hcall, visited, walk_paramsAt hnthr hit hin (hw _ hit) hfuel,
      walk_paramsAt hnthr hit hin (hw _ hit) (le_refl _), Option.getD_some]
  perm := by
    have hcalls : ((d.calls nthr).flatMap fun p => d.visited isSpatialThr p.2) =
        (List.range nthr).flatMap fun ithr => (List.range d.iters).flatMap fun it =>
          (d.callAt ithr nthr it).toList.flatMap fun p => d.visited isSpatialThr p.2 := by
      rw [calls_eq, List.flatMap_assoc]
      simp only [List.flatMap_assoc]
    rw [hcalls]
    refine (LoopNest.flatMap_comm_perm _ _ _).trans ?_
    refine (List.Perm.flatMap_left _ fun it hit => iteration_perm hnthr (List.mem_range.mp hit)
      (hw it (List.mem_range.mp hit))).trans ?_
    have hiters := (d.plan nthr).iters_perm fun n cb sp => [d.pointOffset n cb sp]
    rwa [d.plan_iters] at hiters

end Driver

end MklDnn.BnormJit
