import Mathlib.Tactic.Linarith
import MklDnn.Common.Proofs.UtilsProofs
import MklDnn.Reorder.JitUniReorder

/-!
# Proofs: the addresses of the reorder kernel

The ring of offsets holds the exact offsets modulo `2 ^ 32`, and every loop adds what the loops inside of it leave in the
registers. So the kernel runs through the iterations of the nodes exactly if the extensions to 64 bits lose nothing.
-/

open LoopNest RegisterLoops

namespace MklDnn.JitUniReorder

/-! ## `simple_impl_desc_init` -/

theorem lastDimUnroll_spec (n : ℕ) {k : ℕ} (hk : 0 < k) :
    0 < lastDimUnroll n k ∧ lastDimUnroll n k ≤ k ∧ lastDimUnroll n k ∣ n := by
  induction k with
  | zero => omega
  | succ k ih =>
    unfold lastDimUnroll
    by_cases hmod : n % (k + 1) = 0
    · rw [if_pos hmod]
      exact ⟨hk, le_rfl, Nat.dvd_of_mod_eq_zero hmod⟩
    · rw [if_neg hmod]
      rcases Nat.eq_zero_or_pos k with rfl | hpos
      · omega
      · obtain ⟨h0, hle, hdvd⟩ := ih hpos
        exact ⟨h0, by omega, hdvd⟩

/-- What a description says of the nodes `pre`, which are unrolled, and of the nodes `post` behind them. -/
structure Describes (d : SimpleImplDesc) (len : ℕ) (pre post : List Node) : Prop where
  lenUnroll : d.lenUnroll = len * (pre.map Node.n).prod * d.lenLastDimUnroll
  lenUnroll_le : d.lenUnroll ≤ lenUnrollMax
  ldu_pos : 0 < d.lenLastDimUnroll
  dvd : ∀ nd nds, post = nd :: nds → d.lenLastDimUnroll ∣ nd.n
  one : post = [] → d.lenLastDimUnroll = 1

theorem descLoop_spec {nodes : List Node} {nfu len : ℕ} (hlen : 0 < len) (hle : len ≤ lenUnrollMax)
    (hpos : ∀ nd ∈ nodes, 0 < nd.n) (hlt : len * (nodes.map Node.n).prod < 2 ^ 64) :
    ∃ pre post, nodes = pre ++ post ∧ (descLoop nodes nfu len).ndimsFullUnroll = nfu + pre.length ∧
      Describes (descLoop nodes nfu len) len pre post := by
  induction nodes generalizing nfu len with
  | nil => exact ⟨[], [], rfl, rfl, ⟨by simp [descLoop], hle, Nat.one_pos, by simp, fun _ => rfl⟩⟩
  | cons nd nds ih =>
    have hn : 0 < nd.n := hpos nd List.mem_cons_self
    have hnds : 0 < (nds.map Node.n).prod := List.prod_pos (by
      intro x hx
      obtain ⟨y, hy, rfl⟩ := List.mem_map.mp hx
      exact hpos y (List.mem_cons_of_mem nd hy))
    rw [List.map_cons, List.prod_cons, ← Nat.mul_assoc] at hlt
    have hwrap : len * nd.n % 2 ^ 64 = len * nd.n :=
      Nat.mod_eq_of_lt (lt_of_le_of_lt (Nat.le_mul_of_pos_right _ hnds) hlt)
    unfold descLoop
    dsimp only
    rw [hwrap]
    by_cases hfits : len * nd.n ≤ lenUnrollMax
    · rw [if_pos hfits]
      obtain ⟨pre, post, rfl, hnfu, hd⟩ := @ih (nfu + 1) (len * nd.n) (Nat.mul_pos hlen hn) hfits
        (fun x hx => hpos x (List.mem_cons_of_mem nd hx)) hlt
      refine ⟨nd :: pre, post, rfl, ?_, ⟨?_, hd.lenUnroll_le, hd.ldu_pos, hd.dvd, hd.one⟩⟩
      · rw [hnfu, List.length_cons]
        omega
      · rw [hd.lenUnroll, List.map_cons, List.prod_cons, ← Nat.mul_assoc len]
    · rw [if_neg hfits]
      have hquot : 0 < lenUnrollMax / len := Nat.div_pos hle hlen
      obtain ⟨h0, hldu, hdvd⟩ := lastDimUnroll_spec nd.n hquot
      refine ⟨[], nd :: nds, rfl, rfl, ⟨by simp, ?_, h0, ?_, by simp⟩⟩
      · exact (Nat.mul_le_mul_left len hldu).trans (Nat.mul_div_le _ _)
      · rintro _ _ ⟨⟩
        exact hdvd

/-! ## The ring of offsets -/

/-- The loops of the nodes in `int`. -/
def intLoops (nodes : List Node) : List (ℕ × Offsets) := nodes.map fun nd => (nd.n, intStride nd)

theorem toInt_intN {nd : Node} (hlt : nd.n < 2 ^ 31) : (intN nd).toInt = nd.n := by
  unfold intN
  rw [BitVec.toInt_ofNat']
  exact Int.bmod_eq_of_le (by omega) (by omega)

/-- The next iteration of the nodes carries from node to node. -/
theorem stepNodes_spec {nodes : List Node} (hnodes : ∀ nd ∈ nodes, 0 < nd.n ∧ nd.n < 2 ^ 31) (j : ℕ) (offs : Offsets) :
    stepNodes nodes ((j + 1 : ℕ) : ℤ) (offs + nestOff (intLoops nodes) j) =
      some (offs + nestOff (intLoops nodes) (j + 1)) := by
  induction nodes generalizing j offs with
  | nil => rfl
  | cons nd nodes ih =>
    obtain ⟨hpos, hlt⟩ := hnodes nd List.mem_cons_self
    have hn := toInt_intN hlt
    have hoff : ∀ i, nestOff (intLoops (nd :: nodes)) i =
        (i % nd.n) • intStride nd + nestOff (intLoops nodes) (i / nd.n) := fun i => rfl
    unfold stepNodes
    dsimp only
    rw [hn, if_neg (by omega), ← Int.ofNat_tmod, ← Int.ofNat_tdiv, hoff, hoff]
    obtain ⟨q, r, hr, rfl⟩ : ∃ q r, r < nd.n ∧ j = q * nd.n + r :=
      ⟨j / nd.n, j % nd.n, Nat.mod_lt j hpos, (Nat.div_add_mod' j nd.n).symm⟩
    have hdiv : ∀ x < nd.n, (q * nd.n + x) / nd.n = q := fun x hx => by
      rw [Nat.mul_comm, Nat.mul_add_div hpos, Nat.div_eq_of_lt hx, Nat.add_zero]
    have hmod : ∀ x < nd.n, (q * nd.n + x) % nd.n = x := fun x hx => by
      rw [Nat.mul_comm, Nat.mul_add_mod, Nat.mod_eq_of_lt hx]
    rw [hdiv r hr, hmod r hr, Nat.add_assoc]
    rcases Nat.lt_or_ge (r + 1) nd.n with hlast | hlast
    · -- the counter of this node goes up
      have hne : ¬ ((r + 1 : ℕ) : ℤ) = 0 := by omega
      rw [hdiv _ hlast, hmod _ hlast, if_pos hne, succ_nsmul]
      congr 1
      abel
    · -- the counter of this node starts again
      have hfull : q * nd.n + (r + 1) = (q + 1) * nd.n := by rw [Nat.succ_mul]; omega
      have hne : ¬ ((q + 1 : ℕ) : ℤ) = 0 := by omega
      have hback : (fun s => -intN nd * intStride nd s) = -(nd.n • intStride nd) := by
        funext s
        show -intN nd * intStride nd s = -(nd.n • intStride nd s)
        rw [nsmul_eq_mul, neg_mul]
        rfl
      have hoffs : offs + (r • intStride nd + nestOff (intLoops nodes) q) + intStride nd + -(nd.n • intStride nd) =
          offs + nestOff (intLoops nodes) q := by
        rw [show nd.n = r + 1 by omega, succ_nsmul]
        abel
      rw [hfull, Nat.mul_div_cancel _ hpos, Nat.mul_mod_left, Nat.cast_zero, if_neg (by simp), if_neg hne, hback, hoffs,
        zero_nsmul, zero_add]
      exact ih (fun x hx => hnodes x (List.mem_cons_of_mem nd hx)) q offs

/-- The offsets of the elements from `off` on. -/
def groupOf (nodes : List Node) (off count : ℕ) : List Offsets :=
  (List.range count).map fun ur => nestOff (intLoops nodes) (off + ur)

section Ring

variable {nodes : List Node} (hnodes : ∀ nd ∈ nodes, 0 < nd.n ∧ nd.n < 2 ^ 31)

include hnodes

theorem step_spec {j : ℕ} (hj : 0 < j) :
    step nodes (j : ℤ) (nestOff (intLoops nodes) (j - 1)) 1 = some (nestOff (intLoops nodes) j) := by
  obtain ⟨j, rfl⟩ : ∃ i, j = i + 1 := ⟨j - 1, by omega⟩
  have hstart : startNodes 1 1 nodes = nodes := by cases nodes <;> simp [startNodes]
  have hone : (1 : BitVec 32).toInt = 1 := by decide
  have hnext := stepNodes_spec hnodes j 0
  rw [zero_add, zero_add] at hnext
  unfold step
  rw [if_neg (by omega), hone, if_neg (by omega), hstart, Int.tdiv_one, Nat.add_sub_cancel]
  exact hnext

/-- A group is computed from the last offset of the group before, or from the first offset. -/
theorem computeOffsets_spec {off curr count : ℕ} {ring : ℕ → Offsets} (hcurr : curr ≤ 1) (hcount : count ≤ blk)
    (hfirst : off = 0 → 0 < count ∧ ring (curr * blk) = 0)
    (hprev : off ≠ 0 → ring ((curr * blk + (2 * blk - 1)) % (2 * blk)) = nestOff (intLoops nodes) (off - 1)) :
    ∃ ring', computeOffsets nodes off curr count ring = some ring' ∧
      ∀ ur < count, ring' (curr * blk + ur) = nestOff (intLoops nodes) (off + ur) := by
  unfold blk at hcount hfirst hprev
  unfold computeOffsets blk
  dsimp only
  generalize hf : (if off ≠ 0 then 0 else 1) = first
  have hle : first ≤ count := by
    by_cases hoff : off = 0
    · rw [if_neg (not_not.mpr hoff)] at hf
      have := (hfirst hoff).1
      omega
    · rw [if_pos hoff] at hf
      omega
  -- the invariant after `k` elements
  have hrun : ∀ k, first + k ≤ count → ∃ ring', (List.range' first k).foldlM (fun ring ur =>
        (step nodes ((off + ur : ℕ) : ℤ) (ring ((curr * 8 + ur + 2 * 8 - 1) % (2 * 8))) 1).map
          (Function.update ring (curr * 8 + ur))) ring = some ring' ∧
      (∀ ur < first + k, ring' (curr * 8 + ur) = nestOff (intLoops nodes) (off + ur)) ∧ (k = 0 → ring' = ring) := by
    intro k
    induction k with
    | zero =>
      intro _
      refine ⟨ring, rfl, fun ur hur => ?_, fun _ => rfl⟩
      by_cases hoff : off = 0
      · rw [if_neg (not_not.mpr hoff)] at hf
        obtain rfl : ur = 0 := by omega
        rw [hoff, Nat.add_zero, Nat.add_zero, nestOff_zero]
        exact (hfirst hoff).2
      · rw [if_pos hoff] at hf
        omega
    | succ k ih =>
      intro hk
      obtain ⟨ring', hfold, hdone, hstart⟩ := ih (by omega)
      have hbefore : ring' ((curr * 8 + (first + k) + 2 * 8 - 1) % (2 * 8)) =
          nestOff (intLoops nodes) (off + (first + k) - 1) := by
        rcases Nat.eq_zero_or_pos (first + k) with hzero | hpos
        · have hoff : off ≠ 0 := by
            intro hoff
            rw [if_neg (not_not.mpr hoff)] at hf
            omega
          rw [hstart (by omega), hzero]
          exact hprev hoff
        · rw [show (curr * 8 + (first + k) + 2 * 8 - 1) % (2 * 8) = curr * 8 + (first + k - 1) by omega, hdone _ (by omega)]
          congr 1
          omega
      have hpos : 0 < off + (first + k) := by
        by_cases hoff : off = 0
        · rw [if_neg (not_not.mpr hoff)] at hf
          omega
        · omega
      refine ⟨Function.update ring' (curr * 8 + (first + k)) (nestOff (intLoops nodes) (off + (first + k))), ?_, ?_, by omega⟩
      · rw [List.range'_1_concat, List.foldlM_append, hfold, Option.bind_eq_bind, Option.bind_some, List.foldlM_cons]
        rw [hbefore, step_spec hnodes hpos]
        rfl
      · intro ur hur
        by_cases hlast : ur = first + k
        · rw [hlast, Function.update_self]
        · rw [Function.update_of_ne (by omega), hdone ur (by omega)]
  obtain ⟨ring', hfold, hdone, -⟩ := hrun (count - first) (by omega)
  exact ⟨ring', hfold, fun ur hur => hdone ur (by omega)⟩

theorem unrollGroups_spec {len left off curr : ℕ} {ring : ℕ → Offsets} (hcurr : curr ≤ 1)
    (hlen : left ≠ 0 → off + (left - 1) * blk < len) (hfirst : off = 0 → ring (curr * blk) = 0)
    (hprev : left ≠ 0 → off ≠ 0 →
      ring ((curr * blk + (2 * blk - 1)) % (2 * blk)) = nestOff (intLoops nodes) (off - 1)) :
    unrollGroups nodes len left off curr ring =
      some ((List.range left).map fun g => groupOf nodes (off + g * blk) (min blk (len - (off + g * blk)))) := by
  induction left generalizing off curr ring with
  | zero => rfl
  | succ left ih =>
    have hlt := hlen (Nat.succ_ne_zero left)
    rw [Nat.add_sub_cancel] at hlt
    have hcount : min (off + blk) len - off = min blk (len - off) := by omega
    obtain ⟨ring', hring, hdone⟩ := computeOffsets_spec hnodes hcurr (Nat.min_le_left blk (len - off))
      (fun hoff => ⟨by unfold blk; omega, hfirst hoff⟩) (hprev (Nat.succ_ne_zero left))
    have hrest := @ih (off + blk) (1 - curr) ring' (by omega)
      (fun hleft => by
        have hmul : (left - 1) * blk + blk = left * blk := by
          rw [← Nat.succ_mul, Nat.succ_eq_add_one, Nat.sub_add_cancel (by omega)]
        omega)
      (fun hoff => absurd hoff (by unfold blk; omega))
      (fun hleft _ => by
        have hmul : blk ≤ left * blk := Nat.le_mul_of_pos_left _ (by omega)
        have hslot : ((1 - curr) * blk + (2 * blk - 1)) % (2 * blk) = curr * blk + 7 := by unfold blk; omega
        rw [hslot, hdone 7 (by unfold blk at *; omega)]
        congr 1)
    unfold unrollGroups
    dsimp only
    rw [hcount, hring]
    show (unrollGroups nodes len left (off + blk) (1 - curr) ring').bind _ = _
    rw [hrest, Option.bind_some, List.range_succ_eq_map, List.map_cons, List.map_map]
    refine congrArg some (congrArg₂ List.cons ?_ (List.map_congr_left fun g _ => ?_))
    · unfold groupOf
      rw [Nat.zero_mul, Nat.add_zero]
      exact List.map_congr_left fun ur hur => hdone ur (List.mem_range.mp hur)
    · show groupOf nodes (off + blk + g * blk) _ = groupOf nodes (off + (g + 1) * blk) _
      rw [Nat.succ_mul, Nat.add_assoc off, Nat.add_comm blk]

theorem processUnrollGeneric_spec (len : ℕ) : processUnrollGeneric nodes len =
    some ((List.range (divUp len blk)).map fun g => groupOf nodes (g * blk) (min blk (len - g * blk))) := by
  unfold processUnrollGeneric
  rw [unrollGroups_spec hnodes (Nat.zero_le 1) ?_ (fun _ => rfl) fun _ h => absurd rfl h]
  · simp only [Nat.zero_add]
  · intro hpos
    unfold divUp blk at *
    omega

end Ring

end MklDnn.JitUniReorder
