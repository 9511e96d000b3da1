import MklDnn.Bnorm.Proofs.JitCoverageProofs
import MklDnn.Lib.SteppedLoops
import MklDnn.Lib.Sums

/-!
# JIT batch normalization: what the threads share

The parts of the reduction buffers that the threads of an iteration use, the barriers that they enter, and
whether they divide the points among themselves.
-/

namespace MklDnn.BnormJit

open BnormUtils

namespace Driver

variable (d : Driver) (nthr : ℕ)

/-- The calls of an iteration. -/
def iterCalls (it : ℕ) : List Call := ((d.calls nthr).filter fun p => p.1 = it).map Prod.snd

/-- The parts of the reduction buffers that the calls of an iteration use. -/
def partsOf (it : ℕ) : List (ℤ × ℤ) := (d.iterCalls nthr it).flatMap fun k => k.parts d.isFwd

/-- The calls that enter barrier `b`. -/
def entering (b : ℤ) : List (ℕ × Call) := (d.calls nthr).filter fun p => p.2.barrier = b

variable {d} {nthr}

theorem iterCalls_eq (hnthr : 0 < nthr) {it : ℕ} (hit : it < d.iters) :
    d.iterCalls nthr it =
      (List.range nthr).flatMap fun ithr => ((d.callAt ithr nthr it).toList).map Prod.snd := by
  rw [iterCalls, calls_eq, List.filter_flatMap, List.map_flatMap]
  refine List.flatMap_congr fun ithr _ => ?_
  rw [List.filter_flatMap]
  congr 1
  -- the calls of another iteration are left out
  have hother : ∀ it' ∈ List.range d.iters, it' ≠ it →
      (d.callAt ithr nthr it').toList.filter (fun p => decide (p.1 = it)) = [] := by
    intro it' hit' hne
    refine List.filter_eq_nil_iff.mpr fun p hp => ?_
    simp [(mem_callAt hnthr (List.mem_range.mp hit') hp).2.1, hne]
  rw [LoopNest.flatMap_eq_of_unique List.nodup_range (List.mem_range.mpr hit) hother]
  refine List.filter_eq_self.mpr fun p hp => ?_
  simp [(mem_callAt hnthr hit hp).2.1]

/-! ## The reduction buffers -/

/-- The part of a call, in vectors from the start of its buffer. -/
def partStart (d : Driver) (nthr it ithr : ℕ) : ℕ :=
  it * d.fullBlks * ((d.plan nthr).dims0.N * (d.plan nthr).dims0.S) +
    (((d.plan nthr).blksOf it ithr).1 * (d.plan nthr).ranks it +
      (ithr % (d.plan nthr).ranks it) *
        (((d.plan nthr).blksOf it ithr).2 - ((d.plan nthr).blksOf it ithr).1))

def partSize (d : Driver) (nthr it ithr : ℕ) : ℕ :=
  ((d.plan nthr).blksOf it ithr).2 - ((d.plan nthr).blksOf it ithr).1

section Parts

variable {it ithr : ℕ}

theorem rbuf1_eq (hit : it < d.iters) (hin : ithr < ((d.plan nthr).dims it).size) :
    (d.paramsAt ithr nthr it).rbuf1 = ((partStart d nthr it ithr * d.simdW : ℕ) : ℤ) := by
  have hle := (d.plan nthr).blksOf_le it ithr
  rw [paramsAt_rbuf1 hit hin, partStart]
  push_cast [Nat.cast_sub hle]
  ring

theorem coffMax_eq (hin : ithr < ((d.plan nthr).dims it).size) :
    (d.paramsAt ithr nthr it).coffMax = ((partSize d nthr it ithr * d.simdW : ℕ) : ℤ) := by
  have hle := (d.plan nthr).blksOf_le it ithr
  rw [paramsAt_coffMax hin, partSize]
  push_cast [Nat.cast_sub hle]
  rfl

theorem blksOf_add (it ithr : ℕ) :
    ((d.plan nthr).blksOf it ithr).1 + partSize d nthr it ithr =
      ((d.plan nthr).blksOf it ithr).2 := by
  have hle := (d.plan nthr).blksOf_le it ithr
  unfold partSize
  omega

/-- The part of a thread lies in the block of its channel blocks. -/
theorem part_within (hnthr : 0 < nthr) (hit : it < d.iters) (ithr : ℕ) :
    it * d.fullBlks * ((d.plan nthr).dims0.N * (d.plan nthr).dims0.S) +
        ((d.plan nthr).blksOf it ithr).1 * (d.plan nthr).ranks it ≤ partStart d nthr it ithr ∧
      partStart d nthr it ithr + partSize d nthr it ithr ≤
        it * d.fullBlks * ((d.plan nthr).dims0.N * (d.plan nthr).dims0.S) +
          ((d.plan nthr).blksOf it ithr).2 * (d.plan nthr).ranks it := by
  have hrank := Plan.rank_lt (P := d.plan nthr) hnthr (d.lt_iters hit nthr) ithr
  have hmul : (ithr % (d.plan nthr).ranks it + 1) * partSize d nthr it ithr ≤ (d.plan nthr).ranks it * partSize d nthr it ithr :=
    Nat.mul_le_mul_right _ hrank
  rw [Nat.succ_mul] at hmul
  have hsplit : ((d.plan nthr).blksOf it ithr).2 * (d.plan nthr).ranks it =
      ((d.plan nthr).blksOf it ithr).1 * (d.plan nthr).ranks it +
        (d.plan nthr).ranks it * partSize d nthr it ithr := by
    rw [← blksOf_add, Nat.add_mul, Nat.mul_comm ((d.plan nthr).ranks it)]
  rw [hsplit]
  unfold partStart
  rw [show ((d.plan nthr).blksOf it ithr).2 - ((d.plan nthr).blksOf it ithr).1 =
    partSize d nthr it ithr from rfl]
  constructor <;> omega

/-- Two threads of the grid have parts apart from each other. -/
theorem part_apart (hnthr : 0 < nthr) (hit : it < d.iters) {i j : ℕ} (hi : i < ((d.plan nthr).dims it).size)
    (hj : j < ((d.plan nthr).dims it).size) (hij : i ≠ j) :
    partStart d nthr it i + partSize d nthr it i ≤ partStart d nthr it j ∨
      partStart d nthr it j + partSize d nthr it j ≤ partStart d nthr it i := by
  have hwi := part_within (d := d) hnthr hit i
  have hwj := part_within (d := d) hnthr hit j
  rcases Nat.lt_trichotomy ((d.plan nthr).coord it i).ci ((d.plan nthr).coord it j).ci with hlt | heq | hgt
  · have hle : ((d.plan nthr).blksOf it i).2 ≤ ((d.plan nthr).blksOf it j).1 :=
      Plan.blksOf_snd_le_fst (d.lt_iters hit nthr) hj hlt
    have hmul := Nat.mul_le_mul_right ((d.plan nthr).ranks it) hle
    left
    omega
  · -- the same channel blocks, so the ranks differ
    have hrank : i % (d.plan nthr).ranks it ≠ j % (d.plan nthr).ranks it := fun hr =>
      hij (Plan.eq_of_ci_of_rank heq hr)
    have hsize : partSize d nthr it i = partSize d nthr it j := by
      unfold partSize
      rw [Plan.blksOf_congr heq]
    have hstart : ∀ k, ((d.plan nthr).coord it k).ci = ((d.plan nthr).coord it j).ci → partStart d nthr it k =
        it * d.fullBlks * ((d.plan nthr).dims0.N * (d.plan nthr).dims0.S) +
          (((d.plan nthr).blksOf it j).1 * (d.plan nthr).ranks it +
            (k % (d.plan nthr).ranks it) * partSize d nthr it j) := by
      intro k hk
      unfold partStart partSize
      rw [Plan.blksOf_congr hk]
    rw [hstart i heq, hstart j rfl, hsize]
    rcases Nat.lt_or_gt_of_ne hrank with hlt | hgt
    · have hmul := Nat.mul_le_mul_right (partSize d nthr it j) (Nat.succ_le_of_lt hlt)
      rw [Nat.succ_mul] at hmul
      left
      omega
    · have hmul := Nat.mul_le_mul_right (partSize d nthr it j) (Nat.succ_le_of_lt hgt)
      rw [Nat.succ_mul] at hmul
      right
      omega
  · have hle : ((d.plan nthr).blksOf it j).2 ≤ ((d.plan nthr).blksOf it i).1 :=
      Plan.blksOf_snd_le_fst (d.lt_iters hit nthr) hi hgt
    have hmul := Nat.mul_le_mul_right ((d.plan nthr).ranks it) hle
    right
    omega

/-- A part ends inside of its buffer. -/
theorem part_le (hnthr : 0 < nthr) (hit : it < d.iters) (hin : ithr < ((d.plan nthr).dims it).size) :
    (partStart d nthr it ithr + partSize d nthr it ithr) * d.simdW ≤ d.C_PADDED * nthr := by
  have hranks0 : (d.plan nthr).dims0.N * (d.plan nthr).dims0.S ≤ nthr :=
    Plan.dims0_ranks_le (P := d.plan nthr) hnthr
  have hit' := d.lt_iters hit nthr
  have hranks : (d.plan nthr).ranks it ≤ nthr := Plan.ranks_le (P := d.plan nthr) hnthr hit'
  have hlast : it * d.fullBlks + (d.plan nthr).iterBlks it ≤ d.C_blks := Plan.add_iterBlks_le hit'
  have hend := (part_within (d := d) hnthr hit ithr).2
  have hblk := Plan.blksOf_snd_le hin
  have htotal : partStart d nthr it ithr + partSize d nthr it ithr ≤ d.C_blks * nthr := by
    calc partStart d nthr it ithr + partSize d nthr it ithr
        ≤ it * d.fullBlks * ((d.plan nthr).dims0.N * (d.plan nthr).dims0.S) +
            ((d.plan nthr).blksOf it ithr).2 * (d.plan nthr).ranks it := hend
      _ ≤ it * d.fullBlks * nthr + (d.plan nthr).iterBlks it * nthr :=
          Nat.add_le_add (Nat.mul_le_mul_left _ hranks0) (Nat.mul_le_mul hblk hranks)
      _ = (it * d.fullBlks + (d.plan nthr).iterBlks it) * nthr := (Nat.add_mul _ _ _).symm
      _ ≤ d.C_blks * nthr := Nat.mul_le_mul_right _ hlast
  calc (partStart d nthr it ithr + partSize d nthr it ithr) * d.simdW
      ≤ d.C_blks * nthr * d.simdW := Nat.mul_le_mul_right _ htotal
    _ = d.C_PADDED * nthr := by rw [Nat.mul_right_comm, d.C_blks_mul]

end Parts

/-- Where the parts of a call lie. -/
theorem mem_parts {it ithr : ℕ} (hit : it < d.iters) (hin : ithr < ((d.plan nthr).dims it).size) {r : ℤ × ℤ}
    (hr : r ∈ (d.paramsAt ithr nthr it).parts d.isFwd) :
    ∃ half : ℕ, half < (if d.isFwd then 1 else 2) ∧
      r.1 = ((half * (d.C_PADDED * nthr) + partStart d nthr it ithr * d.simdW : ℕ) : ℤ) ∧
      r.2 = ((half * (d.C_PADDED * nthr) +
        (partStart d nthr it ithr + partSize d nthr it ithr) * d.simdW : ℕ) : ℤ) := by
  rw [Call.parts, paramsAt_rbuf2, rbuf1_eq hit hin, coffMax_eq hin] at hr
  rcases List.mem_cons.mp hr with rfl | hr
  · refine ⟨0, by split_ifs <;> omega, ?_, ?_⟩ <;> push_cast <;> ring
  · cases hfwd : d.isFwd with
    | true => simp [hfwd] at hr
    | false =>
      simp only [hfwd, Bool.false_eq_true, if_false, List.mem_singleton] at hr
      subst hr
      refine ⟨1, by simp, ?_, ?_⟩ <;> push_cast <;> ring

/-- The parts of the threads of an iteration are apart. -/
theorem partsOf_pairwise (hnthr : 0 < nthr) {it : ℕ} (hit : it < d.iters) :
    (d.partsOf nthr it).Pairwise fun r s => r.2 ≤ s.1 ∨ s.2 ≤ r.1 := by
  -- the halves of the buffer hold the parts of `rbuf1` and of `rbuf2`
  have hhalves : ∀ {a b x y X Y : ℕ}, a ≠ b → x + X ≤ d.C_PADDED * nthr → y + Y ≤ d.C_PADDED * nthr →
      a * (d.C_PADDED * nthr) + (x + X) ≤ b * (d.C_PADDED * nthr) + y ∨
        b * (d.C_PADDED * nthr) + (y + Y) ≤ a * (d.C_PADDED * nthr) + x := by
    intro a b x y X Y hab hx hy
    rcases Nat.lt_or_gt_of_ne hab with hlt | hgt
    · have hmul := Nat.mul_le_mul_right (d.C_PADDED * nthr) (Nat.succ_le_of_lt hlt)
      rw [Nat.succ_mul] at hmul
      left
      omega
    · have hmul := Nat.mul_le_mul_right (d.C_PADDED * nthr) (Nat.succ_le_of_lt hgt)
      rw [Nat.succ_mul] at hmul
      right
      omega
  rw [partsOf, iterCalls_eq hnthr hit, List.flatMap_assoc, List.pairwise_flatMap]
  constructor
  · -- the two parts of one thread
    intro ithr _
    rw [List.flatMap_map]
    by_cases hsome : ∃ p, p ∈ (d.callAt ithr nthr it).toList
    · obtain ⟨p, hp⟩ := hsome
      obtain ⟨hin, hpar, hblk⟩ := mem_callAt hnthr hit hp
      have hle := part_le (d := d) hnthr hit hin
      rw [callAt_eq hnthr hit hin, if_pos hblk]
      simp only [Option.toList_some, List.flatMap_cons, List.flatMap_nil, List.append_nil, Call.parts,
        paramsAt_rbuf2, rbuf1_eq hit hin, coffMax_eq hin]
      cases d.isFwd with
      | true => simp
      | false =>
        simp only [Bool.false_eq_true, if_false, List.pairwise_cons, List.mem_singleton, forall_eq,
          List.not_mem_nil, false_implies, implies_true, List.Pairwise.nil, and_true]
        left
        rw [Nat.add_mul] at hle
        have hle' : ((partStart d nthr it ithr * d.simdW : ℕ) : ℤ) + (partSize d nthr it ithr * d.simdW : ℕ) ≤
            d.C_PADDED * nthr := by exact_mod_cast hle
        omega
    · have hnone : d.callAt ithr nthr it = none := by
        cases hc : d.callAt ithr nthr it with
        | none => rfl
        | some p => exact absurd ⟨p, by rw [hc]; exact List.mem_singleton_self p⟩ hsome
      rw [hnone]
      exact List.Pairwise.nil
  · -- the parts of two threads
    refine List.Nodup.pairwise_of_forall_ne List.nodup_range fun i _ j _ hij r hr s hs => ?_
    obtain ⟨k, hk, hr⟩ := List.mem_flatMap.mp hr
    obtain ⟨l, hl, hs⟩ := List.mem_flatMap.mp hs
    obtain ⟨p, hp, rfl⟩ := List.mem_map.mp hk
    obtain ⟨q, hq, rfl⟩ := List.mem_map.mp hl
    obtain ⟨hi, hpi, -⟩ := mem_callAt hnthr hit hp
    obtain ⟨hj, hqj, -⟩ := mem_callAt hnthr hit hq
    rw [hpi] at hr
    rw [hqj] at hs
    obtain ⟨a, -, hr1, hr2⟩ := mem_parts hit hi hr
    obtain ⟨b, -, hs1, hs2⟩ := mem_parts hit hj hs
    have hlei := part_le (d := d) hnthr hit hi
    have hlej := part_le (d := d) hnthr hit hj
    rw [hr1, hr2, hs1, hs2, Nat.cast_le, Nat.cast_le]
    rw [Nat.add_mul] at hlei hlej
    by_cases hab : a = b
    · subst hab
      rcases part_apart hnthr hit hi hj hij with h | h
      · exact Or.inl (Nat.add_le_add_left (Nat.mul_le_mul_right _ h) _)
      · exact Or.inr (Nat.add_le_add_left (Nat.mul_le_mul_right _ h) _)
    · rw [Nat.add_mul, Nat.add_mul]
      exact hhalves hab hlei hlej

/-- The parts lie in the booked buffer. -/
theorem partsOf_within (hnthr : 0 < nthr) (hle : nthr ≤ d.nthrs) {it : ℕ} (hit : it < d.iters) :
    ∀ r ∈ d.partsOf nthr it, 0 ≤ r.1 ∧ r.2 ≤ (d.rbufSz : ℤ) := by
  intro r hr
  rw [partsOf, iterCalls_eq hnthr hit, List.flatMap_assoc] at hr
  obtain ⟨ithr, -, hr⟩ := List.mem_flatMap.mp hr
  obtain ⟨k, hk, hr⟩ := List.mem_flatMap.mp hr
  obtain ⟨p, hp, rfl⟩ := List.mem_map.mp hk
  obtain ⟨hin, hpar, -⟩ := mem_callAt hnthr hit hp
  rw [hpar] at hr
  obtain ⟨half, hhalf, hr1, hr2⟩ := mem_parts hit hin hr
  have hend := part_le (d := d) hnthr hit hin
  rw [hr1, hr2]
  refine ⟨Int.natCast_nonneg _, Nat.cast_le.mpr ?_⟩
  calc half * (d.C_PADDED * nthr) + (partStart d nthr it ithr + partSize d nthr it ithr) * d.simdW
      ≤ half * (d.C_PADDED * nthr) + d.C_PADDED * nthr := Nat.add_le_add_left hend _
    _ = (half + 1) * (d.C_PADDED * nthr) := (Nat.succ_mul _ _).symm
    _ ≤ (if d.isFwd then 1 else 2) * (d.C_PADDED * d.nthrs) :=
        Nat.mul_le_mul hhalf (Nat.mul_le_mul_left _ hle)
    _ = d.rbufSz := by rw [rbufSz, Nat.mul_assoc]

/-! ## The barriers -/

section Barriers

variable {it ithr : ℕ}

/-- Iterations do not share barriers: an iteration before the last one has the grid of before the loop. -/
theorem barrier_inj (hit : it < d.iters) {it' ithr' : ℕ} (hit' : it' < d.iters) (hin : ithr < ((d.plan nthr).dims it).size)
    (hin' : ithr' < ((d.plan nthr).dims it').size)
    (h : (d.paramsAt ithr nthr it).barrier = (d.paramsAt ithr' nthr it').barrier) :
    it = it' ∧ ((d.plan nthr).coord it ithr).ci = ((d.plan nthr).coord it' ithr').ci := by
  rw [paramsAt_barrier hit hin, paramsAt_barrier hit' hin', Nat.cast_inj] at h
  have hbefore : ∀ {k k' l : ℕ}, k < k' → k' < d.iters → l < ((d.plan nthr).dims k).size →
      k * (d.plan nthr).dims0.C + ((d.plan nthr).coord k l).ci < k' * (d.plan nthr).dims0.C := by
    intro k k' l hk hk' hl
    have hre : ¬ (d.plan nthr).Rebalances k := fun hre => by
      have := hre.1
      rw [d.plan_iters] at this
      omega
    have hci := Plan.coord_ci_lt hl
    rw [Plan.dims_of_not hre] at hci
    have hmul := Nat.mul_le_mul_right (d.plan nthr).dims0.C (Nat.succ_le_of_lt hk)
    rw [Nat.succ_mul] at hmul
    omega
  rcases Nat.lt_trichotomy it it' with hlt | rfl | hgt
  · have := hbefore hlt hit' hin
    omega
  · exact ⟨rfl, by omega⟩
  · have := hbefore hgt hit hin'
    omega

/-- The index of a barrier is below the number of contexts. -/
theorem barrier_lt (hsync : d.syncable = true) (hit : it < d.iters) (hin : ithr < ((d.plan nthr).dims it).size) :
    0 ≤ (d.paramsAt ithr nthr it).barrier ∧ (d.paramsAt ithr nthr it).barrier < (d.nBarriers : ℤ) := by
  have hC : ((d.plan nthr).dims it).C ≤ (d.plan nthr).iterBlks it := by
    rcases Plan.dims_C_le (P := d.plan nthr) (d.lt_iters hit nthr) with h | h
    · exact h
    · have hno := h.1
      rw [show (d.plan nthr).syncable = true from hsync] at hno
      exact absurd hno (by simp)
  have hC0 : (d.plan nthr).dims0.C ≤ d.fullBlks := by
    rcases gridDims_C_le d.syncable d.doBlocking_ true nthr d.MB d.SP d.fullBlks_pos with h | h
    · exact h
    · rw [hsync] at h
      exact absurd h.1 (by simp)
  have hci := Plan.coord_ci_lt hin
  have hmul := Nat.mul_le_mul_left it hC0
  have hlast : it * d.fullBlks + (d.plan nthr).iterBlks it ≤ d.C_blks := Plan.add_iterBlks_le (d.lt_iters hit nthr)
  rw [paramsAt_barrier hit hin]
  refine ⟨Int.natCast_nonneg _, ?_⟩
  rw [Nat.cast_lt, nBarriers, if_pos hsync]
  show _ < d.C_blks
  omega

/-- A barrier is entered by the threads that share the channel blocks of the call. -/
theorem entering_length (hnthr : 0 < nthr) (hit : it < d.iters) (hin : ithr < ((d.plan nthr).dims it).size)
    (hblk : ((d.plan nthr).blksOf it ithr).1 < ((d.plan nthr).blksOf it ithr).2) :
    (d.entering nthr (d.paramsAt ithr nthr it).barrier).length = (d.plan nthr).ranks it := by
  have hit' := d.lt_iters hit nthr
  have hci := Plan.coord_ci_lt hin
  have hsize : ((d.plan nthr).dims it).size ≤ nthr := (Plan.dims_fits (P := d.plan nthr) hnthr hit').size_le
  rw [Plan.size_eq] at hsize
  have hlast : ((d.plan nthr).coord it ithr).ci * (d.plan nthr).ranks it + (d.plan nthr).ranks it ≤ nthr := by
    rw [← Nat.succ_mul]
    exact (Nat.mul_le_mul_right _ hci).trans hsize
  -- the calls of a thread that enter the barrier
  have hthread : ∀ i ∈ List.range nthr,
      (((List.range d.iters).flatMap fun it' => (d.callAt i nthr it').toList).filter
        fun p => decide (p.2.barrier = (d.paramsAt ithr nthr it).barrier)).length =
      if ((d.plan nthr).coord it i).ci = ((d.plan nthr).coord it ithr).ci then 1 else 0 := by
    intro i hi
    rw [List.filter_flatMap]
    -- those of the iteration, if the thread shares the channel blocks
    have hother : ∀ it' ∈ List.range d.iters, it' ≠ it →
        ((d.callAt i nthr it').toList.filter fun p =>
          decide (p.2.barrier = (d.paramsAt ithr nthr it).barrier)) = [] := by
      intro it' hit' hne
      have hit' := List.mem_range.mp hit'
      refine List.filter_eq_nil_iff.mpr fun p hp => ?_
      obtain ⟨hin', hpar, -⟩ := mem_callAt hnthr hit' hp
      rw [hpar, decide_eq_true_eq]
      exact fun hbar => hne (barrier_inj hit' hit hin' hin hbar).1
    rw [LoopNest.flatMap_eq_of_unique List.nodup_range (List.mem_range.mpr hit) hother]
    split_ifs with hcoord
    · have hin' : i < ((d.plan nthr).dims it).size := by
        rw [Plan.size_eq]
        refine ((Plan.coord_ci_eq_iff (P := d.plan nthr) hnthr hit' i).mp hcoord).2.trans_le ?_
        rw [← Nat.succ_mul]
        exact Nat.mul_le_mul_right _ hci
      rw [callAt_eq hnthr hit hin', Plan.blksOf_congr hcoord, if_pos hblk]
      simp [paramsAt_barrier hit hin', paramsAt_barrier hit hin, hcoord]
    · refine List.length_eq_zero_iff.mpr (List.filter_eq_nil_iff.mpr fun p hp => ?_)
      obtain ⟨hin', hpar, -⟩ := mem_callAt hnthr hit hp
      rw [hpar, decide_eq_true_eq]
      exact fun hbar => hcoord (barrier_inj hit hit hin' hin hbar).2
  rw [entering, calls_eq, List.filter_flatMap, List.length_flatMap, List.map_congr_left hthread]
  have hsum := LoopNest.sum_map_range nthr
    (fun i => if ((d.plan nthr).coord it i).ci = ((d.plan nthr).coord it ithr).ci then 1 else 0) (id : ℕ → ℕ)
  rw [List.map_id] at hsum
  rw [hsum]
  simp only [id_eq, Plan.coord_ci_eq_iff (P := d.plan nthr) hnthr hit']
  rw [LoopNest.sum_range_window hlast fun _ => 1]
  simp

end Barriers

/-! ## Spatial threading -/

/-- `thread_balance` reports that there are no spatial threads. -/
theorem dims0_S_of_report {ithr : ℕ} (hithr : ithr < nthr)
    (h : (threadBalance d.syncable d.doBlocking_ true ithr nthr d.MB d.fullBlks d.SP).1 = false) :
    (d.plan nthr).dims0.S = 1 := by
  rw [threadBalance_eq _ _ _ hithr] at h
  show (gridDims d.syncable d.doBlocking_ true nthr d.MB d.fullBlks d.SP).S = 1
  simpa using h

/-- The kernel and the driver decide about the blocking in the same way. -/
theorem isSpatialThr_eq (d : Driver) :
    d.isSpatialThr_ =
      (d.syncable && decide (¬ d.nthrs ≤ d.fullBlks) &&
        decide ((gridOf d.doBlocking_ d.nthrs d.MB d.fullBlks d.SP).2.2 > 1)) := by
  have hSP : d.W * d.D * d.H = d.SP := by
    unfold SP
    ring
  have hdata : d.MB * d.C_PADDED * d.SP * d.dtSize = d.dtSize * d.MB * d.C_PADDED * d.D * d.H * d.W := by
    unfold SP
    ring
  have hset : ∀ t, d.MB * d.SP * d.simdW * d.dtSize * t = d.dtSize * (d.MB * d.D * d.H * d.W * d.simdW) * t := by
    intro t
    unfold SP
    ring
  have hfull : (if d.doBlocking_ = true then
      (if d.doBlocking_ = true then
        (cacheBalance d.cacheSize d.nthrs
          (d.dtSize * (d.MB * d.D * d.H * d.W * d.simdW) * if d.isFwd = true then 1 else 2)
          (d.C_PADDED / d.simdW)).1
      else 1)
      else d.C_PADDED / d.simdW) = d.fullBlks := by
    unfold fullBlks
    by_cases h : d.doBlocking_
    · rw [if_pos h, if_pos h, if_pos h]
      unfold blocking
      rw [if_pos h]
      rfl
    · rw [if_neg h, if_neg h]
      rfl
  unfold isSpatialThr_ isSpatialThr
  simp only [hSP, hdata, show doBlocking d.cacheSize d.nthrs (d.dtSize * d.MB * d.C_PADDED * d.D * d.H * d.W) =
    d.doBlocking_ from rfl, hset, hfull]
  cases d.syncable with
  | false => simp
  | true =>
    by_cases hle : d.nthrs ≤ d.fullBlks
    · simp [hle]
    · simp [hle]

/-- `is_spatial_thr` reports that there are no spatial threads. -/
theorem dims0_S_of_isSpatialThr (hnthr : 0 < nthr) (hteam : nthr = d.nthrs ∨ nthr = 1) (h : d.isSpatialThr_ = false) :
    (d.plan nthr).dims0.S = 1 := by
  have hfits := Plan.dims0_fits (P := d.plan nthr) hnthr
  rcases hteam with rfl | rfl
  · rw [isSpatialThr_eq] at h
    show (gridDims d.syncable d.doBlocking_ true d.nthrs d.MB d.fullBlks d.SP).S = 1
    by_cases hall : d.nthrs ≤ d.fullBlks ∨ ¬ d.syncable
    · rw [gridDims, if_pos hall]
    · have hsync : d.syncable = true := by
        by_contra hno
        exact hall (Or.inr hno)
      have hle : ¬ d.nthrs ≤ d.fullBlks := fun hle => hall (Or.inl hle)
      have hS : ¬ (gridOf d.doBlocking_ d.nthrs d.MB d.fullBlks d.SP).2.2 > 1 := by simpa [hsync, hle] using h
      rw [gridDims, if_neg hall]
      simp only [if_true]
      omega
  · -- a team of one thread
    have hsize : (d.plan 1).dims0.C * (d.plan 1).dims0.N * (d.plan 1).dims0.S ≤ 1 := hfits.size_le
    have hle : (d.plan 1).dims0.S ≤ (d.plan 1).dims0.C * (d.plan 1).dims0.N * (d.plan 1).dims0.S :=
      Nat.le_mul_of_pos_left _ (Nat.mul_pos hfits.C_pos hfits.N_pos)
    have := hfits.S_pos
    omega

/-! ## The driver -/

/-- How the calls of a team of `nthr` threads divide the work, the reduction buffer and the barriers. -/
structure Divides (d : Driver) (nthr : ℕ) : Prop where
  nodup : d.pointOffsets.Nodup
  covers : d.Covers nthr true
  covers_kernel : nthr = d.nthrs ∨ nthr = 1 → d.Covers nthr d.isSpatialThr_
  parts_apart : ∀ it < d.iters, (d.partsOf nthr it).Pairwise fun r s => r.2 ≤ s.1 ∨ s.2 ≤ r.1
  parts_within : ∀ it < d.iters, ∀ r ∈ d.partsOf nthr it, 0 ≤ r.1 ∧ r.2 ≤ (d.rbufSz : ℤ)
  barrier_lt : d.syncable = true → ∀ p ∈ d.calls nthr, 0 ≤ p.2.barrier ∧ p.2.barrier < (d.nBarriers : ℤ)
  /-- Without contexts of barriers the kernel skips the barriers. -/
  barrier_skipped : d.syncable = false → ∀ p ∈ d.calls nthr, p.2.N_nthr = 1
  /-- The calls that enter a barrier belong to one iteration, they expect the same count, and they are as many. -/
  barrier_count : ∀ p ∈ d.calls nthr,
    ((d.entering nthr p.2.barrier).length : ℤ) = p.2.N_nthr ∧
      ∀ q ∈ d.entering nthr p.2.barrier, q.1 = p.1 ∧ q.2.N_nthr = p.2.N_nthr
  reported_off : ∀ ithr < nthr,
    (threadBalance d.syncable d.doBlocking_ true ithr nthr d.MB d.fullBlks d.SP).1 = false →
      ∀ it < d.iters, (d.execState ithr nthr (it + 1)).grid.S_nthr = 1
  kernel_off : nthr = d.nthrs ∨ nthr = 1 → d.isSpatialThr_ = false →
    ∀ ithr < nthr, ∀ it < d.iters, (d.execState ithr nthr (it + 1)).grid.S_nthr = 1

theorem execState_S_nthr {ithr : ℕ} (hithr : ithr < nthr) {it : ℕ} (hit : it < d.iters) (h : (d.plan nthr).dims0.S = 1) :
    (d.execState ithr nthr (it + 1)).grid.S_nthr = 1 := by
  rw [execState_grid hithr hit, Plan.gridAt_S_nthr, Plan.dims_S_eq_one h]
  rfl

/-- Three images of 40 channels with 3 points each, in vectors of 8, on 5 threads whose cache holds two channel
blocks: the last iteration has a block less than the others, and a grid of its own. -/
def sample : Driver where
  isFwd := false
  MB := 3
  C := 37
  C_PADDED := 40
  D := 1
  H := 1
  W := 3
  simdW := 8
  dtSize := 4
  nthrs := 5
  syncable := true
  cacheSize := 500
  MB_pos := by decide
  C_PADDED_pos := by decide
  spatial_pos := by decide
  simdW_pos := by decide
  dtSize_pos := by decide
  nthrs_pos := by decide
  simdW_dvd := by decide

end Driver

end MklDnn.BnormJit
