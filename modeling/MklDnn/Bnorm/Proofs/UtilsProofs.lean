import MklDnn.Bnorm.JitDriver
import MklDnn.Common.Proofs.ThreadingProofs

/-!
# Batch normalization: the grid of the threads

`thread_balance` puts every thread either at a place of a grid or outside of it. What the callers need is the
size of the grid: it fits into the team, and no direction has more threads than work.
-/

namespace MklDnn.BnormUtils

/-! ## The blocks of an iteration -/

theorem cacheBalance_pos (cacheSize nthrs workingSetSize : ℕ) {C_blks : ℕ} (h : 0 < C_blks) :
    0 < (cacheBalance cacheSize nthrs workingSetSize C_blks).1 := by
  simp only [cacheBalance]
  generalize cacheSize * nthrs / 2 / workingSetSize = blks
  split_ifs <;> omega

theorem cacheBalance_le (cacheSize nthrs workingSetSize C_blks : ℕ) :
    (cacheBalance cacheSize nthrs workingSetSize C_blks).1 ≤ C_blks := by
  simp only [cacheBalance]
  split_ifs <;> omega

theorem cacheBalance_snd (cacheSize nthrs workingSetSize C_blks : ℕ) :
    (cacheBalance cacheSize nthrs workingSetSize C_blks).2 =
      divUp C_blks (cacheBalance cacheSize nthrs workingSetSize C_blks).1 := rfl

/-! ## The grid -/

/-- The numbers of threads along channel blocks, minibatch and spatial points. -/
structure Dims where
  C : ℕ
  N : ℕ
  S : ℕ

namespace Dims

/-- The number of threads of the grid. -/
def size (g : Dims) : ℕ := g.C * g.N * g.S

/-- Every direction has a thread, the grid fits into the team, and no thread along minibatch or spatial points
is without work. -/
structure Fits (g : Dims) (nthr N SP : ℕ) : Prop where
  C_pos : 0 < g.C
  N_pos : 0 < g.N
  S_pos : 0 < g.S
  size_le : g.size ≤ nthr
  N_le : g.N ≤ N
  S_le : g.S ≤ SP

/-- The place of thread `ithr` in the grid. -/
def place (g : Dims) (ithr N C_blks SP : ℕ) : Grid :=
  if ithr < g.size then
    let C_ithr := ithr / (g.N * g.S)
    let N_ithr := ithr / g.S % g.N
    let S_ithr := ithr % g.S
    { C_ithr := C_ithr, C_nthr := g.C
      C_blk_s := (balance211 C_blks g.C C_ithr).1, C_blk_e := (balance211 C_blks g.C C_ithr).2
      N_ithr := N_ithr, N_nthr := g.N
      N_s := (balance211 N g.N N_ithr).1, N_e := (balance211 N g.N N_ithr).2
      S_ithr := S_ithr, S_nthr := g.S
      S_s := (balance211 SP g.S S_ithr).1, S_e := (balance211 SP g.S S_ithr).2 }
  else
    { C_ithr := -ithr, C_nthr := g.C, C_blk_s := -1, C_blk_e := -1
      N_ithr := -ithr, N_nthr := g.N, N_s := -1, N_e := -1
      S_ithr := -ithr, S_nthr := g.S, S_s := -1, S_e := -1 }

@[simp] theorem place_C_nthr (g : Dims) (ithr N C_blks SP : ℕ) : (g.place ithr N C_blks SP).C_nthr = g.C := by
  unfold place
  split_ifs <;> rfl

@[simp] theorem place_N_nthr (g : Dims) (ithr N C_blks SP : ℕ) : (g.place ithr N C_blks SP).N_nthr = g.N := by
  unfold place
  split_ifs <;> rfl

@[simp] theorem place_S_nthr (g : Dims) (ithr N C_blks SP : ℕ) : (g.place ithr N C_blks SP).S_nthr = g.S := by
  unfold place
  split_ifs <;> rfl

end Dims

/-- The grid of `thread_balance`. -/
def gridDims (syncable doBlocking spatialThrAllowed : Bool) (nthr N C_blks SP : ℕ) : Dims :=
  if nthr ≤ C_blks ∨ ¬ syncable then ⟨nthr, 1, 1⟩
  else
    let g := gridOf doBlocking nthr N C_blks SP
    ⟨g.1, g.2.1, if spatialThrAllowed then max 1 g.2.2 else 1⟩

theorem balance211_one (n : ℕ) : balance211 n 1 0 = (0, n) := by
  simp [balance211]

theorem threadBalance_eq (syncable doBlocking spatialThrAllowed : Bool) {ithr nthr : ℕ} (hithr : ithr < nthr)
    (N C_blks SP : ℕ) :
    threadBalance syncable doBlocking spatialThrAllowed ithr nthr N C_blks SP =
      (spatialThrAllowed && decide ((gridDims syncable doBlocking spatialThrAllowed nthr N C_blks SP).S ≠ 1),
        (gridDims syncable doBlocking spatialThrAllowed nthr N C_blks SP).place ithr N C_blks SP) := by
  unfold threadBalance gridDims
  by_cases h : nthr ≤ C_blks ∨ ¬ syncable
  · simp only [if_pos h]
    have hsize : ithr < Dims.size ⟨nthr, 1, 1⟩ := by simpa [Dims.size] using hithr
    simp [Dims.place, if_pos hsize, Nat.mod_one, balance211_one]
  · simp only [if_neg h]
    obtain ⟨Cn, Nn, Sn⟩ := gridOf doBlocking nthr N C_blks SP
    have hS : (if (if ¬ spatialThrAllowed = true then 1 else Sn) < 1 then 1
        else if ¬ spatialThrAllowed = true then 1 else Sn) = if spatialThrAllowed then max 1 Sn else 1 := by
      cases spatialThrAllowed
      · simp
      · simp only [not_true, if_true, if_false]
        split_ifs <;> omega
    simp only [hS]
    generalize (if spatialThrAllowed = true then max 1 Sn else 1) = S
    have hS1 : ((S : ℤ) = 1) ↔ S = 1 := Nat.cast_eq_one
    have hallowed : (if (S : ℤ) = 1 then false else spatialThrAllowed) = (spatialThrAllowed && decide (S ≠ 1)) := by
      by_cases h1 : S = 1 <;> simp [h1]
    by_cases hin : ithr < Cn * Nn * S
    · simp only [if_pos hin, hallowed]
      simp [Dims.place, Dims.size, hin]
    · simp only [if_neg hin, hallowed]
      simp [Dims.place, Dims.size, hin]

section Fits

variable {nthr N C_blks SP : ℕ}

/-- What is left of the team after channel blocks and minibatch goes to the spatial points. -/
theorem fits_of_mul_le {C_nthr N_nthr : ℕ} (hC : 0 < C_nthr) (hN : 0 < N_nthr) (hle : C_nthr * N_nthr ≤ nthr)
    (hNle : N_nthr ≤ N) (hSP : 0 < SP) :
    Dims.Fits ⟨C_nthr, N_nthr, min SP (nthr / (C_nthr * N_nthr))⟩ nthr N SP := by
  have hpos : 0 < C_nthr * N_nthr := Nat.mul_pos hC hN
  have hdiv : 0 < nthr / (C_nthr * N_nthr) := Nat.div_pos hle hpos
  refine ⟨hC, hN, lt_min hSP hdiv, ?_, hNle, min_le_left _ _⟩
  calc C_nthr * N_nthr * min SP (nthr / (C_nthr * N_nthr))
      ≤ C_nthr * N_nthr * (nthr / (C_nthr * N_nthr)) := Nat.mul_le_mul_left _ (min_le_right _ _)
    _ ≤ nthr := Nat.mul_div_le nthr _

theorem gridOf_fits (doBlocking : Bool) (hnthr : 0 < nthr) (hN : 0 < N) (hC : 0 < C_blks) (hSP : 0 < SP) :
    Dims.Fits ⟨(gridOf doBlocking nthr N C_blks SP).1, (gridOf doBlocking nthr N C_blks SP).2.1,
      (gridOf doBlocking nthr N C_blks SP).2.2⟩ nthr N SP := by
  cases doBlocking with
  | true =>
    have hN_nthr : 0 < min N nthr := lt_min hN hnthr
    have hdiv : 0 < nthr / min N nthr := Nat.div_pos (min_le_right _ _) hN_nthr
    refine fits_of_mul_le (lt_min hC hdiv) hN_nthr ?_ (min_le_left _ _) hSP
    calc min C_blks (nthr / min N nthr) * min N nthr
        ≤ nthr / min N nthr * min N nthr := Nat.mul_le_mul_right _ (min_le_right _ _)
      _ ≤ nthr := Nat.div_mul_le_self _ _
  | false =>
    have hgcd : 0 < Nat.gcd nthr C_blks := Nat.gcd_pos_of_pos_left _ hnthr
    have hdiv : 0 < nthr / Nat.gcd nthr C_blks := Nat.div_pos (Nat.gcd_le_left _ hnthr) hgcd
    refine fits_of_mul_le hgcd (lt_min hN hdiv) ?_ (min_le_left _ _) hSP
    calc Nat.gcd nthr C_blks * min N (nthr / Nat.gcd nthr C_blks)
        ≤ Nat.gcd nthr C_blks * (nthr / Nat.gcd nthr C_blks) := Nat.mul_le_mul_left _ (min_le_right _ _)
      _ ≤ nthr := Nat.mul_div_le _ _

theorem gridOf_C_le (doBlocking : Bool) (nthr N SP : ℕ) (hC : 0 < C_blks) :
    (gridOf doBlocking nthr N C_blks SP).1 ≤ C_blks := by
  cases doBlocking with
  | true => exact min_le_left _ _
  | false => exact Nat.gcd_le_right _ hC

theorem gridDims_fits (syncable doBlocking spatialThrAllowed : Bool) (hnthr : 0 < nthr) (hN : 0 < N)
    (hC : 0 < C_blks) (hSP : 0 < SP) :
    (gridDims syncable doBlocking spatialThrAllowed nthr N C_blks SP).Fits nthr N SP := by
  unfold gridDims
  split_ifs with h hallowed
  · exact ⟨hnthr, Nat.one_pos, Nat.one_pos, by simp [Dims.size], hN, hSP⟩
  · have hfits := gridOf_fits doBlocking hnthr hN hC hSP
    have hmax : max 1 (gridOf doBlocking nthr N C_blks SP).2.2 = (gridOf doBlocking nthr N C_blks SP).2.2 :=
      max_eq_right hfits.S_pos
    simp only [hmax]
    exact hfits
  · obtain ⟨hCp, hNp, hSp, hsize, hNle, -⟩ := gridOf_fits doBlocking hnthr hN hC hSP
    refine ⟨hCp, hNp, Nat.one_pos, ?_, hNle, hSP⟩
    exact (Nat.mul_le_mul_left _ hSp).trans hsize

/-- Either every thread along the channel blocks has work, or there is no other direction. -/
theorem gridDims_C_le (syncable doBlocking spatialThrAllowed : Bool) (nthr N SP : ℕ) (hC : 0 < C_blks) :
    (gridDims syncable doBlocking spatialThrAllowed nthr N C_blks SP).C ≤ C_blks ∨
      syncable = false ∧ gridDims syncable doBlocking spatialThrAllowed nthr N C_blks SP = ⟨nthr, 1, 1⟩ := by
  unfold gridDims
  split_ifs with h hallowed
  · rcases h with h | h
    · exact Or.inl h
    · exact Or.inr ⟨by simpa using h, rfl⟩
  · exact Or.inl (gridOf_C_le doBlocking nthr N SP hC)
  · exact Or.inl (gridOf_C_le doBlocking nthr N SP hC)

theorem gridDims_not_allowed (syncable doBlocking : Bool) (nthr N C_blks SP : ℕ) :
    (gridDims syncable doBlocking false nthr N C_blks SP).S = 1 := by
  unfold gridDims
  by_cases h : nthr ≤ C_blks ∨ ¬ syncable
  · rw [if_pos h]
  · rw [if_neg h]
    rfl

end Fits

end MklDnn.BnormUtils
