import Mathlib.Algebra.Order.Ring.Nat
import Mathlib.Data.Set.Lattice
import Mathlib.Order.CompletePartialOrder
import Mathlib.Tactic.Ring
import MklDnn.Common.Proofs.UtilsProofs
import MklDnn.Gemm.Threading

/-!
# Proofs: the grid of threads

The number of a thread consists of its coordinates in the grid, and `partition_1d` gives every element to
one thread.
-/

namespace MklDnn

namespace GemmThreading

/-- The coordinates of a thread in the grid. -/
theorem exists_coords (t : GemmThreading) {ithr : ℕ} (h : ithr < t.nthrs) :
    ∃ i < t.nthrsM, ∃ j < t.nthrsN, ∃ k < t.nthrsK, ithr = i + (j + k * t.nthrsN) * t.nthrsM := by
  have hM : 0 < t.nthrsM := Nat.pos_of_ne_zero fun h0 => by simp [GemmThreading.nthrs, h0] at h
  have hN : 0 < t.nthrsN := Nat.pos_of_ne_zero fun h0 => by simp [GemmThreading.nthrs, h0] at h
  have hk : ithr / t.nthrsM / t.nthrsN < t.nthrsK := by
    rw [Nat.div_div_eq_div_mul]
    exact Nat.div_lt_of_lt_mul h
  refine ⟨_, Nat.mod_lt ithr hM, _, Nat.mod_lt (ithr / t.nthrsM) hN, _, hk, ?_⟩
  rw [Nat.mod_add_div', Nat.mod_add_div']

theorem coords_lt_nthrs (t : GemmThreading) {i j k : ℕ} (hi : i < t.nthrsM) (hj : j < t.nthrsN)
    (hk : k < t.nthrsK) : i + (j + k * t.nthrsN) * t.nthrsM < t.nthrs := by
  have hjk := add_mul_lt hj hk
  rw [GemmThreading.nthrs, Nat.mul_assoc, Nat.mul_comm t.nthrsM, Nat.mul_comm t.nthrsN]
  exact add_mul_lt hi hjk

/-- The coordinates of a thread from its number. -/
theorem coords_mod (t : GemmThreading) {i : ℕ} (jk : ℕ) (hi : i < t.nthrsM) :
    (i + jk * t.nthrsM) % t.nthrsM = i := by
  rw [Nat.add_mul_mod_self_right, Nat.mod_eq_of_lt hi]

theorem coords_div (t : GemmThreading) {i : ℕ} (jk : ℕ) (hi : i < t.nthrsM) :
    (i + jk * t.nthrsM) / t.nthrsM = jk := by
  rw [Nat.add_mul_div_right _ _ (by omega), Nat.div_eq_of_lt hi, Nat.zero_add]

/-- The slice of the thread with coordinates `i`, `j` and `kk`. -/
theorem getThreadSlice_coords (t : GemmThreading) (hpart : t.partition = .mnk3d) {i j : ℕ} (kk : ℕ)
    (hi : i < t.nthrsM) (hj : j < t.nthrsN) (m n k : ℕ) :
    t.getThreadSlice (i + (j + kk * t.nthrsN) * t.nthrsM) m n k =
      ⟨i * t.threadM.toNat, j * t.threadN.toNat, kk * t.threadK.toNat,
        min t.threadM.toNat (m - i * t.threadM.toNat), min t.threadN.toNat (n - j * t.threadN.toNat),
        min t.threadK.toNat (k - kk * t.threadK.toNat), i, j, kk⟩ := by
  have hdiv : (j + kk * t.nthrsN) / t.nthrsN = kk := by
    rw [Nat.add_mul_div_right _ _ (by omega), Nat.div_eq_of_lt hj, Nat.zero_add]
  have hmod : (j + kk * t.nthrsN) % t.nthrsN = j := by
    rw [Nat.add_mul_mod_self_right, Nat.mod_eq_of_lt hj]
  unfold getThreadSlice
  rw [hpart]
  simp only [coords_mod t _ hi, coords_div t _ hi, hdiv, hmod]

end GemmThreading

/-! ## `partition_1d` -/

/-- The size of the bands of `partition_1d` but the last. -/
def bandSize (nthrs n : ℕ) : ℕ :=
  if n - (nthrs - 1) * (n / nthrs) > n / nthrs + 1 then n / nthrs + 1 else n / nthrs

/-- The thread that has element `x`. -/
def bandOf (nthrs n x : ℕ) : ℕ :=
  if x < (nthrs - 1) * bandSize nthrs n then x / bandSize nthrs n else nthrs - 1

theorem bandOf_lt {nthrs : ℕ} (h : 0 < nthrs) (n x : ℕ) : bandOf nthrs n x < nthrs := by
  unfold bandOf
  split_ifs with hx
  · have hlt : x / bandSize nthrs n < nthrs - 1 := by
      refine Nat.div_lt_of_lt_mul ?_
      rwa [Nat.mul_comm]
    omega
  · omega

/-- The bands lie one behind the other. -/
theorem mem_partition1d {ithr nthrs n x : ℕ} (hithr : ithr < nthrs) :
    ((partition1d ithr nthrs n).1 ≤ x ∧
        x < (partition1d ithr nthrs n).1 + (partition1d ithr nthrs n).2) ↔
      x < n ∧ ithr = bandOf nthrs n x := by
  have hdef : partition1d ithr nthrs n =
      if ithr * bandSize nthrs n ≥ n then (0, 0)
      else if ithr * bandSize nthrs n + (if ithr < nthrs - 1 then bandSize nthrs n
          else n - (nthrs - 1) * bandSize nthrs n) > n then
        (ithr * bandSize nthrs n, n - ithr * bandSize nthrs n)
      else (ithr * bandSize nthrs n, if ithr < nthrs - 1 then bandSize nthrs n
          else n - (nthrs - 1) * bandSize nthrs n) := rfl
  rw [hdef]
  unfold bandOf
  generalize bandSize nthrs n = b
  by_cases hlast : ithr < nthrs - 1
  · -- a band in front of the last one
    have hle : (ithr + 1) * b ≤ (nthrs - 1) * b := Nat.mul_le_mul_right b hlast
    rw [Nat.succ_mul] at hle
    rw [if_pos hlast]
    by_cases hx : x < (nthrs - 1) * b
    · have hb : 0 < b := by
        rcases Nat.eq_zero_or_pos b with rfl | hb
        · simp at hx
        · exact hb
      rw [if_pos hx, eq_comm (a := ithr), Nat.div_eq_iff hb]
      split_ifs <;> dsimp only <;> omega
    · rw [if_neg hx]
      split_ifs <;> dsimp only <;> omega
  · have hithr' : ithr = nthrs - 1 := by omega
    rw [if_neg hlast, hithr']
    by_cases hx : x < (nthrs - 1) * b
    · have hlt : x / b < nthrs - 1 := by
        refine Nat.div_lt_of_lt_mul ?_
        rwa [Nat.mul_comm]
      rw [if_pos hx]
      split_ifs <;> dsimp only <;> omega
    · rw [if_neg hx]
      split_ifs <;> dsimp only <;> omega

end MklDnn

/-!
## Proofs: slices tile the iteration space

Every partition gives each point of the `m x n x k` iteration space to one thread. Bands of one size lie one
behind the other, the last one takes what is left. `partition_2d` may use fewer bands than there are threads
along a dimension, which is only sound along `n`.
-/

namespace MklDnn

/-- The point `(x, y, z)` lies in the slice. -/
def GemmSlice.Mem (s : GemmSlice) (x y z : ℕ) : Prop :=
  (s.offM ≤ x ∧ x < s.offM + s.m) ∧ (s.offN ≤ y ∧ y < s.offN + s.n) ∧ (s.offK ≤ z ∧ z < s.offK + s.k)

/-- The slice lies in the iteration space. -/
def GemmSlice.Inside (s : GemmSlice) (m n k : ℕ) : Prop :=
  s.offM + s.m ≤ m ∧ s.offN + s.n ≤ n ∧ s.offK + s.k ≤ k

/-- The slices of the threads tile the iteration space. -/
structure GemmThreading.Tiles (t : GemmThreading) (m n k : ℕ) : Prop where
  inside : ∀ ithr < t.nthrs, (t.getThreadSlice ithr m n k).Inside m n k
  once : ∀ x < m, ∀ y < n, ∀ z < k,
    ∃! ithr, ithr < t.nthrs ∧ (t.getThreadSlice ithr m n k).Mem x y z

/-! ## Bands -/

theorem partition1d_inside {ithr nthrs n : ℕ} :
    (partition1d ithr nthrs n).1 + (partition1d ithr nthrs n).2 ≤ n := by
  unfold partition1d
  dsimp only
  split_ifs <;> dsimp only <;> omega

/-- The band of size `b` that has element `x`, if the last of `used` bands takes the rest. -/
def bandIndex (used b x : ℕ) : ℕ := if x < (used - 1) * b then x / b else used - 1

theorem bandIndex_lt {used : ℕ} (h : 0 < used) (b x : ℕ) : bandIndex used b x < used := by
  unfold bandIndex
  split_ifs with hx
  · have hlt : x / b < used - 1 := Nat.div_lt_of_lt_mul (by rwa [Nat.mul_comm])
    omega
  · omega

/-- The element `x` lies in band `i`. -/
theorem mem_band_iff {used b m i x : ℕ} (hi : i < used) (hlast : (used - 1) * b < m) :
    (i * b ≤ x ∧ x < i * b + (if i + 1 < used then b else m - i * b)) ↔
      x < m ∧ i = bandIndex used b x := by
  unfold bandIndex
  by_cases hnext : i + 1 < used
  · have hle : (i + 1) * b ≤ (used - 1) * b := Nat.mul_le_mul_right b (by omega)
    rw [Nat.succ_mul] at hle
    rw [if_pos hnext]
    by_cases hx : x < (used - 1) * b
    · have hb : 0 < b := by
        rcases Nat.eq_zero_or_pos b with rfl | hb
        · rw [Nat.mul_zero] at hx
          omega
        · exact hb
      rw [if_pos hx, eq_comm, Nat.div_eq_iff hb]
      omega
    · rw [if_neg hx]
      omega
  · obtain rfl : i = used - 1 := by omega
    rw [if_neg hnext]
    by_cases hx : x < (used - 1) * b
    · have hlt : x / b < used - 1 := Nat.div_lt_of_lt_mul (by rwa [Nat.mul_comm])
      rw [if_pos hx]
      omega
    · rw [if_neg hx]
      omega

theorem band_inside {used b m i : ℕ} (hi : i < used) (hlast : (used - 1) * b < m) :
    i * b + (if i + 1 < used then b else m - i * b) ≤ m := by
  have hle : i * b ≤ (used - 1) * b := Nat.mul_le_mul_right b (by omega)
  split_ifs with hnext
  · have hle' : (i + 1) * b ≤ (used - 1) * b := Nat.mul_le_mul_right b (by omega)
    rw [Nat.succ_mul] at hle'
    omega
  · omega

/-! ## `partition_2d` -/

/-- The bands of a dimension: all but the last have the size `firstval`. -/
structure Banding.Lays (b : Banding) (m : ℕ) : Prop where
  used_pos : 0 < b.used
  firstgroup : b.firstgroup = b.used - 1
  last_lt : (b.used - 1) * b.firstval < m

theorem Banding.Lays.band_eq {b : Banding} {m i : ℕ} (h : b.Lays m) (hi : i < b.used) :
    b.band m i = (i * b.firstval, if i + 1 < b.used then b.firstval else m - i * b.firstval) := by
  have hle : i * b.firstval ≤ (b.used - 1) * b.firstval := Nat.mul_le_mul_right _ (by omega)
  have hlast := h.last_lt
  have hpos := h.used_pos
  unfold Banding.band
  rw [h.firstgroup]
  by_cases hnext : i + 1 < b.used
  · rw [if_pos (by omega), if_pos hnext]
    exact Prod.ext (min_eq_left (by dsimp only; omega)) rfl
  · obtain rfl : i = b.used - 1 := by omega
    rw [if_neg (by omega), if_neg (by omega), if_neg hnext]
    simp only [Nat.sub_self, Nat.zero_mul, Nat.add_zero]
    exact Prod.ext (min_eq_left (by omega)) rfl

/-- The number of bands of size `firstval` needed. -/
theorem bandsUsed_spec {m : ℕ} (firstval : ℕ) (hm : 0 < m) (hf : 0 < firstval) :
    0 < bandsUsed m firstval ∧ (bandsUsed m firstval - 1) * firstval < m ∧
      m ≤ bandsUsed m firstval * firstval := by
  have hdiv := Nat.div_add_mod m firstval
  have hmod := Nat.mod_lt m hf
  rw [Nat.mul_comm] at hdiv
  unfold bandsUsed
  dsimp only
  split_ifs with hlt
  · rw [Nat.add_sub_cancel, Nat.succ_mul]
    exact ⟨Nat.succ_pos _, by omega, by omega⟩
  · have hq : 0 < m / firstval := by
      rcases Nat.eq_zero_or_pos (m / firstval) with h0 | hq
      · rw [h0, Nat.zero_mul] at hlt
        omega
      · exact hq
    have hpred : (m / firstval - 1) * firstval + firstval = m / firstval * firstval := by
      rw [← Nat.succ_mul, Nat.succ_eq_add_one, Nat.sub_add_cancel hq]
    omega

/-- No more than `mdiv` bands are used if they cover `m`. -/
theorem bandsUsed_le {m firstval mdiv : ℕ} (hm : 0 < m) (hf : 0 < firstval) (hcover : m ≤ mdiv * firstval) :
    bandsUsed m firstval ≤ mdiv := by
  obtain ⟨hpos, hlt, -⟩ := bandsUsed_spec firstval hm hf
  by_contra hgt
  have hle : mdiv * firstval ≤ (bandsUsed m firstval - 1) * firstval := Nat.mul_le_mul_right _ (by omega)
  omega

/-- All `mdiv` bands are used if fewer do not cover `m`. -/
theorem le_bandsUsed {m firstval mdiv : ℕ} (hm : 0 < m) (hf : 0 < firstval)
    (hless : (mdiv - 1) * firstval < m) : mdiv ≤ bandsUsed m firstval := by
  obtain ⟨-, -, hcover⟩ := bandsUsed_spec firstval hm hf
  by_contra hlt
  have hle : bandsUsed m firstval * firstval ≤ (mdiv - 1) * firstval := Nat.mul_le_mul_right _ (by omega)
  omega

theorem last_lt_of_div {m mdiv : ℕ} (hm : 0 < m) (hdiv : 0 < mdiv) : (mdiv - 1) * (m / mdiv) < m := by
  have hle : mdiv * (m / mdiv) ≤ m := Nat.mul_div_le m mdiv
  rw [Nat.sub_one_mul]
  rcases Nat.eq_zero_or_pos (m / mdiv) with h0 | hpos
  · rw [h0, Nat.mul_zero]
    omega
  · have hself : m / mdiv ≤ mdiv * (m / mdiv) := Nat.le_mul_of_pos_left _ hdiv
    omega

theorem bandingN_lays {n ndiv : ℕ} (hn : 0 < n) (hdiv : 0 < ndiv) :
    (bandingN n ndiv).Lays n ∧ (bandingN n ndiv).used ≤ ndiv := by
  have hmod := Nat.mod_lt n hdiv
  have heq := Nat.div_add_mod n ndiv
  unfold bandingN
  dsimp only
  split_ifs
  · obtain ⟨hpos, hlt, -⟩ := bandsUsed_spec (n / ndiv + 1) hn (Nat.succ_pos _)
    refine ⟨⟨hpos, rfl, hlt⟩, bandsUsed_le hn (Nat.succ_pos _) ?_⟩
    rw [Nat.mul_succ]
    omega
  · exact ⟨⟨hdiv, rfl, last_lt_of_div hn hdiv⟩, le_rfl⟩

/-- Along `m` the bands are as large as they need to be, but there may be fewer of them than threads. -/
theorem bandingM_lays {m mdiv : ℕ} (hm : 0 < m) (hdiv : 0 < mdiv) :
    (bandingM m mdiv).Lays m ∧ (bandingM m mdiv).used ≤ mdiv := by
  have hmod := Nat.mod_lt m hdiv
  have heq := Nat.div_add_mod m mdiv
  unfold bandingM
  dsimp only
  split_ifs with htail hmore
  · obtain ⟨hpos, hlt, -⟩ := bandsUsed_spec (m / mdiv + 1 + 1) hm (Nat.succ_pos _)
    refine ⟨⟨hpos, rfl, hlt⟩, bandsUsed_le hm (Nat.succ_pos _) ?_⟩
    rw [Nat.mul_add, Nat.mul_add]
    omega
  · obtain ⟨hpos, hlt, -⟩ := bandsUsed_spec (m / mdiv + 1) hm (Nat.succ_pos _)
    refine ⟨⟨hpos, rfl, hlt⟩, bandsUsed_le hm (Nat.succ_pos _) ?_⟩
    rw [Nat.mul_succ]
    omega
  · exact ⟨⟨hdiv, rfl, last_lt_of_div hm hdiv⟩, le_rfl⟩

/-- All `mdiv` bands of size `firstval` are used exactly if one band less does not cover `m`. -/
theorem bandsUsed_eq_iff {m firstval mdiv : ℕ} (hm : 0 < m) (hf : 0 < firstval)
    (hcover : m ≤ mdiv * firstval) : bandsUsed m firstval = mdiv ↔ (mdiv - 1) * firstval < m := by
  obtain ⟨-, hlt, -⟩ := bandsUsed_spec firstval hm hf
  constructor
  · intro heq
    rwa [heq] at hlt
  · intro hless
    exact le_antisymm (bandsUsed_le hm hf hcover) (le_bandsUsed hm hf hless)

/-- Along `m` every thread gets a band exactly if at most one row is left over, or if enlarging the bands takes no more
rows than the last thread can spare. -/
theorem bandingM_used_iff {m mdiv : ℕ} (hm : 0 < m) (hdiv : 0 < mdiv) :
    (bandingM m mdiv).used = mdiv ↔
      m % mdiv ≤ 1 ∨ m / mdiv + m % mdiv = mdiv ∨ 2 * mdiv ≤ m / mdiv + m % mdiv + 1 := by
  have hmod := Nat.mod_lt m hdiv
  have heq := Nat.div_add_mod m mdiv
  obtain ⟨d, rfl⟩ : ∃ d, mdiv = d + 1 := ⟨mdiv - 1, by omega⟩
  unfold bandingM
  dsimp only
  generalize m / (d + 1) = q at heq ⊢
  generalize m % (d + 1) = r at hmod heq ⊢
  rw [Nat.succ_mul] at heq
  have htail : m - (d + 1 - 1) * q = q + r := by
    rw [Nat.add_sub_cancel]
    omega
  rw [htail]
  split_ifs with hmore hlarge
  · have hrows : d * (q + 1 + 1) = d * q + 2 * d := by ring
    have hcover : (d + 1) * (q + 1 + 1) = d * q + 2 * d + (q + 2) := by ring
    show bandsUsed m (q + 1 + 1) = d + 1 ↔ _
    rw [bandsUsed_eq_iff hm (Nat.succ_pos _) (by rw [hcover]; omega), Nat.add_sub_cancel, hrows]
    omega
  · have hrows : d * (q + 1) = d * q + d := by ring
    have hcover : (d + 1) * (q + 1) = d * q + d + (q + 1) := by ring
    show bandsUsed m (q + 1) = d + 1 ↔ _
    rw [bandsUsed_eq_iff hm (Nat.succ_pos _) (by rw [hcover]; omega), Nat.add_sub_cancel, hrows]
    omega
  · exact iff_of_true rfl (Or.inl (by omega))

/-- Bands that are larger than the number of threads. -/
theorem bandingM_used_of_large {m mdiv : ℕ} (hm : 0 < m) (hdiv : 0 < mdiv) (hlarge : (mdiv - 1) * (m / mdiv + 2) < m) :
    (bandingM m mdiv).used = mdiv := by
  have heq := Nat.div_add_mod m mdiv
  rw [bandingM_used_iff hm hdiv]
  obtain ⟨d, rfl⟩ : ∃ d, mdiv = d + 1 := ⟨mdiv - 1, by omega⟩
  generalize m / (d + 1) = q at heq hlarge ⊢
  generalize m % (d + 1) = r at heq ⊢
  have hrows : d * (q + 2) = d * q + 2 * d := by ring
  rw [Nat.succ_mul] at heq
  rw [Nat.add_sub_cancel, hrows] at hlarge
  omega

/-- Along `n` a single band is used only if there is a single thread. -/
theorem bandingN_used_eq_one_iff {n ndiv : ℕ} (hn : 0 < n) (hdiv : 0 < ndiv) :
    (bandingN n ndiv).used = 1 ↔ ndiv = 1 := by
  have hmod := Nat.mod_lt n hdiv
  have heq := Nat.div_add_mod n ndiv
  obtain ⟨d, rfl⟩ : ∃ d, ndiv = d + 1 := ⟨ndiv - 1, by omega⟩
  unfold bandingN
  dsimp only
  generalize n / (d + 1) = q at heq ⊢
  generalize n % (d + 1) = r at hmod heq ⊢
  rw [Nat.succ_mul] at heq
  have htail : n - (d + 1 - 1) * q = q + r := by
    rw [Nat.add_sub_cancel]
    omega
  rw [htail]
  split_ifs with hmore
  · -- at least two of three or more threads have a column more
    obtain ⟨-, -, hcover⟩ := bandsUsed_spec (q + 1) hn (Nat.succ_pos _)
    show bandsUsed n (q + 1) = 1 ↔ _
    constructor
    · intro hone
      rw [hone, Nat.one_mul] at hcover
      have hrows : 2 * q ≤ d * q := Nat.mul_le_mul_right _ (by omega)
      omega
    · intro hone
      omega
  · rfl

/-- A thread behind the last band gets the last band once more. -/
theorem Banding.Lays.mem_last_iff {b : Banding} {m i : ℕ} (h : b.Lays m) (hm : 0 < m) :
    ((b.band m i).1 ≤ m - 1 ∧ m - 1 < (b.band m i).1 + (b.band m i).2) ↔ b.used - 1 ≤ i := by
  have hpos := h.used_pos
  have hlast := h.last_lt
  rcases Nat.lt_or_ge i b.used with hi | hi
  · rw [h.band_eq hi, mem_band_iff hi hlast]
    unfold bandIndex
    rw [if_neg (by omega)]
    omega
  · have hsame : b.band m i = b.band m (b.used - 1) := by
      unfold Banding.band
      rw [h.firstgroup, if_neg (by omega), if_neg (by omega), if_neg (by omega), if_neg (by omega)]
    rw [hsame, h.band_eq (by omega), mem_band_iff (by omega) hlast]
    unfold bandIndex
    rw [if_neg (by omega)]
    omega

/-! ## Tilings -/

namespace GemmThreading

section Tiles

variable {t : GemmThreading} {m n k : ℕ}

/-- A tiling is given by the thread that each point belongs to. -/
theorem Tiles.of_owner (owner : ℕ → ℕ → ℕ → ℕ)
    (hinside : ∀ ithr < t.nthrs, (t.getThreadSlice ithr m n k).Inside m n k)
    (hlt : ∀ x < m, ∀ y < n, ∀ z < k, owner x y z < t.nthrs)
    (hmem : ∀ ithr < t.nthrs, ∀ x < m, ∀ y < n, ∀ z < k,
      (t.getThreadSlice ithr m n k).Mem x y z ↔ ithr = owner x y z) : t.Tiles m n k where
  inside := hinside
  once := by
    intro x hx y hy z hz
    have howner := hlt x hx y hy z hz
    refine ⟨owner x y z, ⟨howner, (hmem _ howner x hx y hy z hz).mpr rfl⟩, ?_⟩
    rintro ithr ⟨hithr, h⟩
    exact (hmem ithr hithr x hx y hy z hz).mp h

theorem tiles_row1d (hpart : t.partition = .row1d) (hpos : 0 < t.nthrs) : t.Tiles m n k := by
  refine Tiles.of_owner (fun x _ _ => bandOf t.nthrs m x) ?_ (fun x _ _ _ _ _ => bandOf_lt hpos m x) ?_
  · intro ithr _
    rw [getThreadSlice, hpart]
    exact ⟨partition1d_inside, by simp, by simp⟩
  · intro ithr hithr x hx y hy z hz
    rw [getThreadSlice, hpart]
    dsimp only [GemmSlice.Mem]
    rw [mem_partition1d hithr]
    omega

theorem tiles_col1d (hpart : t.partition = .col1d) (hpos : 0 < t.nthrs) : t.Tiles m n k := by
  refine Tiles.of_owner (fun _ y _ => bandOf t.nthrs n y) ?_ (fun _ _ y _ _ _ => bandOf_lt hpos n y) ?_
  · intro ithr _
    rw [getThreadSlice, hpart]
    exact ⟨by simp, partition1d_inside, by simp⟩
  · intro ithr hithr x hx y hy z hz
    rw [getThreadSlice, hpart]
    dsimp only [GemmSlice.Mem]
    rw [mem_partition1d hithr]
    omega

/-- The thread with coordinates `i` and `j` in a two-dimensional grid. -/
theorem ithr_eq_iff {ithr M i j : ℕ} (hi : i < M) :
    ithr = i + j * M ↔ ithr % M = i ∧ ithr / M = j := by
  constructor
  · rintro rfl
    rw [Nat.add_mul_mod_self_right, Nat.mod_eq_of_lt hi, Nat.add_mul_div_right _ _ (by omega),
      Nat.div_eq_of_lt hi, Nat.zero_add]
    exact ⟨rfl, rfl⟩
  · rintro ⟨rfl, rfl⟩
    rw [Nat.mod_add_div']

/-- The threads with a slice are those with a band in both directions. -/
theorem active_iff {M U V i : ℕ} (hUM : U ≤ M) (hM : 0 < M) (hgrid : U = M ∨ V = 1) :
    i < U * V ↔ i % M < U ∧ i / M < V := by
  rcases hgrid with rfl | rfl
  · rw [Nat.div_lt_iff_lt_mul hM, Nat.mul_comm]
    exact ⟨fun h => ⟨Nat.mod_lt i hM, h⟩, fun h => h.2⟩
  · rw [Nat.mul_one, Nat.lt_one_iff, Nat.div_eq_zero_iff]
    constructor
    · intro h
      exact ⟨(Nat.mod_le i M).trans_lt h, Or.inr (h.trans_le hUM)⟩
    · rintro ⟨hmod, hdiv⟩
      rwa [Nat.mod_eq_of_lt (hdiv.resolve_left (by omega))] at hmod

theorem tiles_colMajor2d (hpart : t.partition = .colMajor2d) (hk : t.nthrsK = 1) (hm : 0 < m) (hn : 0 < n)
    (hM : 0 < t.nthrsM) (hN : 0 < t.nthrsN)
    (hgrid : (bandingM m t.nthrsM).used = t.nthrsM ∨ (bandingN n t.nthrsN).used = 1) : t.Tiles m n k := by
  obtain ⟨hlays, hused⟩ := bandingM_lays hm hM
  obtain ⟨hlaysN, husedN⟩ := bandingN_lays hn hN
  have hnthrs : t.nthrs = t.nthrsM * t.nthrsN := by rw [nthrs, hk, Nat.mul_one]
  have hactive := fun ithr : ℕ => active_iff (i := ithr) hused hM hgrid
  have hi : ∀ x, bandIndex (bandingM m t.nthrsM).used (bandingM m t.nthrsM).firstval x < (bandingM m t.nthrsM).used :=
    fun x => bandIndex_lt hlays.used_pos _ x
  have hj := fun y => bandIndex_lt hlaysN.used_pos (bandingN n t.nthrsN).firstval y
  refine Tiles.of_owner (fun x y _ =>
    bandIndex (bandingM m t.nthrsM).used (bandingM m t.nthrsM).firstval x +
      bandIndex (bandingN n t.nthrsN).used (bandingN n t.nthrsN).firstval y * t.nthrsM) ?_ ?_ ?_
  · intro ithr _
    rw [getThreadSlice, hpart]
    dsimp only [GemmSlice.Inside, partition2d]
    by_cases hact : ithr % t.nthrsM < (bandingM m t.nthrsM).used ∧ ithr / t.nthrsM < (bandingN n t.nthrsN).used
    · rw [if_pos ((hactive ithr).mpr hact), hlays.band_eq hact.1, hlaysN.band_eq hact.2]
      exact ⟨band_inside hact.1 hlays.last_lt, band_inside hact.2 hlaysN.last_lt, by simp⟩
    · rw [if_neg (mt (hactive ithr).mp hact)]
      simp
  · intro x _ y _ z _
    rw [hnthrs, Nat.mul_comm t.nthrsM]
    exact add_mul_lt ((hi x).trans_le hused) ((hj y).trans_le husedN)
  · intro ithr hithr x hx y hy z hz
    rw [ithr_eq_iff ((hi x).trans_le hused), getThreadSlice, hpart]
    dsimp only [GemmSlice.Mem, partition2d]
    by_cases hact : ithr % t.nthrsM < (bandingM m t.nthrsM).used ∧ ithr / t.nthrsM < (bandingN n t.nthrsN).used
    · rw [if_pos ((hactive ithr).mpr hact), hlays.band_eq hact.1, hlaysN.band_eq hact.2,
        mem_band_iff hact.1 hlays.last_lt, mem_band_iff hact.2 hlaysN.last_lt]
      omega
    · rw [if_neg (mt (hactive ithr).mp hact)]
      have hnei := hi x
      have hnej := hj y
      dsimp only
      omega

/-- The part of the `m x n` matrix that thread `ithr` computes. -/
def area (t : GemmThreading) (m n k ithr : ℕ) : Set (ℕ × ℕ) :=
  let s := t.getThreadSlice ithr m n k
  Set.Ico s.offM (s.offM + s.m) ×ˢ Set.Ico s.offN (s.offN + s.n)

/-- With fewer bands than threads along `m` and several bands along `n` the last element of the matrix is left out. -/
theorem not_mem_area (hpart : t.partition = .colMajor2d) (hm : 0 < m) (hn : 0 < n) (hM : 0 < t.nthrsM) (hN : 0 < t.nthrsN)
    (hfewer : (bandingM m t.nthrsM).used < t.nthrsM) (hmore : 1 < (bandingN n t.nthrsN).used) (ithr : ℕ) :
    (m - 1, n - 1) ∉ t.area m n k ithr := by
  obtain ⟨hlays, -⟩ := bandingM_lays hm hM
  obtain ⟨hlaysN, -⟩ := bandingN_lays hn hN
  unfold area
  rw [getThreadSlice, hpart]
  dsimp only [partition2d]
  split_ifs with hact
  · rintro ⟨hx, hy⟩
    have hi := (hlays.mem_last_iff hm).mp hx
    have hj := (hlaysN.mem_last_iff hn).mp hy
    -- such a thread comes after the last one that is used
    have hdiv := Nat.div_add_mod ithr t.nthrsM
    have hcol : t.nthrsM * ((bandingN n t.nthrsN).used - 1) ≤ t.nthrsM * (ithr / t.nthrsM) := Nat.mul_le_mul_left _ hj
    have hrow : ((bandingM m t.nthrsM).used + 1) * ((bandingN n t.nthrsN).used - 1) ≤
        t.nthrsM * ((bandingN n t.nthrsN).used - 1) := Nat.mul_le_mul_right _ hfewer
    obtain ⟨v, hv⟩ : ∃ v, (bandingN n t.nthrsN).used = v + 1 := ⟨_, (Nat.sub_add_cancel hmore.le).symm⟩
    rw [hv, Nat.add_sub_cancel] at hcol hrow
    rw [hv, Nat.mul_succ] at hact
    rw [Nat.succ_mul] at hrow
    omega
  · rintro ⟨hx, -⟩
    exact absurd hx.2 (by simp)

/-- The slices of a two-dimensional grid tile the matrix exactly if there is a single thread along `n` or every thread along
`m` gets a band. -/
theorem getThreadSlice_colMajor2d_tiles_iff (hpart : t.partition = .colMajor2d) (hk : t.nthrsK = 1) (hm : 1 ≤ m)
    (hn : 1 ≤ n) (hM : 1 ≤ t.nthrsM) (hN : 1 ≤ t.nthrsN) :
    ((∀ i < t.nthrsM * t.nthrsN, ∀ j < t.nthrsM * t.nthrsN, i ≠ j → Disjoint (t.area m n k i) (t.area m n k j)) ∧
        (⋃ i ∈ Set.Iio (t.nthrsM * t.nthrsN), t.area m n k i) = Set.Ico 0 m ×ˢ Set.Ico 0 n) ↔
      t.nthrsN = 1 ∨ m % t.nthrsM ≤ 1 ∨ m / t.nthrsM + m % t.nthrsM = t.nthrsM ∨
        2 * t.nthrsM ≤ m / t.nthrsM + m % t.nthrsM + 1 := by
  have hnthrs : t.nthrs = t.nthrsM * t.nthrsN := by rw [nthrs, hk, Nat.mul_one]
  rw [← bandingM_used_iff hm hM, ← bandingN_used_eq_one_iff hn hN]
  constructor
  · rintro ⟨-, hcover⟩
    by_contra hnot
    obtain ⟨hmore, hfewer⟩ := not_or.mp hnot
    have hused := (bandingM_lays hm hM).2
    have hpos := (bandingN_lays hn hN).1.used_pos
    have hmem : (m - 1, n - 1) ∈ ⋃ i ∈ Set.Iio (t.nthrsM * t.nthrsN), t.area m n k i := by
      rw [hcover]
      exact ⟨⟨Nat.zero_le _, Nat.sub_one_lt_of_lt hm⟩, ⟨Nat.zero_le _, Nat.sub_one_lt_of_lt hn⟩⟩
    simp only [Set.mem_iUnion, Set.mem_Iio, exists_prop] at hmem
    obtain ⟨i, -, hi⟩ := hmem
    exact not_mem_area hpart hm hn hM hN (by omega) (by omega) i hi
  · intro hgrid
    -- the third dimension is not divided
    have htiles : t.Tiles m n 1 := tiles_colMajor2d hpart hk hm hn hM hN hgrid.symm
    have harea : ∀ i p, p ∈ t.area m n k i ↔ (t.getThreadSlice i m n 1).Mem p.1 p.2 0 := by
      intro i p
      unfold area GemmSlice.Mem
      rw [getThreadSlice, getThreadSlice, hpart]
      dsimp only
      rw [Set.mem_prod, Set.mem_Ico, Set.mem_Ico]
      omega
    have hinside : ∀ i < t.nthrsM * t.nthrsN, ∀ p ∈ t.area m n k i, p.1 < m ∧ p.2 < n := by
      intro i hi p hp
      obtain ⟨hx, hy, -⟩ := (harea i p).mp hp
      obtain ⟨hxm, hyn, -⟩ := htiles.inside i (hnthrs ▸ hi)
      omega
    constructor
    · intro i hi j hj hne
      rw [Set.disjoint_left]
      intro p hpi hpj
      obtain ⟨hx, hy⟩ := hinside i hi p hpi
      exact hne ((htiles.once p.1 hx p.2 hy 0 Nat.one_pos).unique ⟨hnthrs ▸ hi, (harea i p).mp hpi⟩
        ⟨hnthrs ▸ hj, (harea j p).mp hpj⟩)
    · ext p
      simp only [Set.mem_iUnion, Set.mem_Iio, exists_prop, Set.mem_prod, Set.mem_Ico, Nat.zero_le, true_and]
      constructor
      · rintro ⟨i, hi, hp⟩
        exact hinside i hi p hp
      · rintro ⟨hx, hy⟩
        obtain ⟨i, ⟨hi, hp⟩, -⟩ := htiles.once p.1 hx p.2 hy 0 Nat.one_pos
        exact ⟨i, hnthrs ▸ hi, (harea i p).mpr hp⟩

/-- A grid of three threads along `m` and two along `n`. -/
def grid3x2 : GemmThreading where
  nthrsM := 3
  nthrsN := 2
  nthrsK := 1
  blockM := -1
  blockN := -1
  blockK := -1
  threadM := -1
  threadN := -1
  threadK := -1
  partition := .colMajor2d
  copy := .nonshared

/-- For 101 rows the last thread along `m` can spare the rows. -/
theorem getThreadSlice_colMajor2d_tiles_101x7 :
    (∀ i < 3 * 2, ∀ j < 3 * 2, i ≠ j → Disjoint (grid3x2.area 101 7 5 i) (grid3x2.area 101 7 5 j)) ∧
      (⋃ i ∈ Set.Iio (3 * 2), grid3x2.area 101 7 5 i) = Set.Ico 0 101 ×ˢ Set.Ico 0 7 :=
  (getThreadSlice_colMajor2d_tiles_iff (t := grid3x2) rfl rfl (by decide) (by decide) (by decide) (by decide)).mpr
    (by decide)

/-- For eight rows two bands of four rows are used: no thread computes the last element of the matrix. -/
theorem getThreadSlice_colMajor2d_leaves_out :
    ¬ ((∀ i < 3 * 2, ∀ j < 3 * 2, i ≠ j → Disjoint (grid3x2.area 8 2 1 i) (grid3x2.area 8 2 1 j)) ∧
      (⋃ i ∈ Set.Iio (3 * 2), grid3x2.area 8 2 1 i) = Set.Ico 0 8 ×ˢ Set.Ico 0 2) := by
  rintro ⟨-, hcover⟩
  have hmem : (7, 1) ∈ ⋃ i ∈ Set.Iio (3 * 2), grid3x2.area 8 2 1 i := by
    rw [hcover]
    exact ⟨⟨by decide, by decide⟩, ⟨by decide, by decide⟩⟩
  simp only [Set.mem_iUnion, Set.mem_Iio, exists_prop] at hmem
  obtain ⟨i, -, hi⟩ := hmem
  exact not_mem_area (t := grid3x2) (m := 8) (n := 2) rfl (by decide) (by decide) (by decide) (by decide) (by decide)
    (by decide) i hi

/-- The slices of size `thread` of `nthr` threads cover `size`, and none lies outside. -/
structure Covers (size nthr thread : ℕ) : Prop where
  thread_pos : 0 < thread
  last_lt : (nthr - 1) * thread < size
  le : size ≤ nthr * thread

theorem Covers.nthr_pos {size nthr thread : ℕ} (h : Covers size nthr thread) : 0 < nthr := by
  have hlt := h.last_lt
  have hle := h.le
  rcases Nat.eq_zero_or_pos nthr with rfl | hpos
  · omega
  · exact hpos

theorem Covers.div_lt {size nthr thread x : ℕ} (h : Covers size nthr thread) (hx : x < size) :
    x / thread < nthr :=
  Nat.div_lt_of_lt_mul (hx.trans_le (Nat.mul_comm nthr thread ▸ h.le))

theorem Covers.start_lt {size nthr thread i : ℕ} (h : Covers size nthr thread) (hi : i < nthr) :
    i * thread < size :=
  lt_of_le_of_lt (Nat.mul_le_mul_right thread (by omega)) h.last_lt

theorem Covers.mem_iff {size nthr thread i x : ℕ} (h : Covers size nthr thread) (hi : i < nthr)
    (hx : x < size) :
    (i * thread ≤ x ∧ x < i * thread + min thread (size - i * thread)) ↔ i = x / thread := by
  have hstart := h.start_lt hi
  rw [eq_comm, Nat.div_eq_iff h.thread_pos]
  have hpos := h.thread_pos
  omega

theorem tiles_mnk3d (hpart : t.partition = .mnk3d) (hm : Covers m t.nthrsM t.threadM.toNat)
    (hn : Covers n t.nthrsN t.threadN.toNat) (hk : Covers k t.nthrsK t.threadK.toNat) : t.Tiles m n k := by
  refine Tiles.of_owner (fun x y z =>
    x / t.threadM.toNat + (y / t.threadN.toNat + z / t.threadK.toNat * t.nthrsN) * t.nthrsM) ?_ ?_ ?_
  · intro ithr hithr
    obtain ⟨i, hi, j, hj, l, hl, rfl⟩ := t.exists_coords hithr
    have hsi := hm.start_lt hi
    have hsj := hn.start_lt hj
    have hsl := hk.start_lt hl
    rw [t.getThreadSlice_coords hpart l hi hj]
    dsimp only [GemmSlice.Inside]
    omega
  · intro x hx y hy z hz
    exact t.coords_lt_nthrs (hm.div_lt hx) (hn.div_lt hy) (hk.div_lt hz)
  · intro ithr hithr x hx y hy z hz
    obtain ⟨i, hi, j, hj, l, hl, rfl⟩ := t.exists_coords hithr
    rw [t.getThreadSlice_coords hpart l hi hj]
    dsimp only [GemmSlice.Mem]
    rw [hm.mem_iff hi hx, hn.mem_iff hj hy, hk.mem_iff hl hz]
    constructor
    · rintro ⟨rfl, rfl, rfl⟩
      rfl
    · intro heq
      obtain ⟨hx', hyz⟩ := add_mul_inj hi (hm.div_lt hx) heq
      obtain ⟨hy', hz'⟩ := add_mul_inj hj (hn.div_lt hy) hyz
      exact ⟨hx', hy', hz'⟩

end Tiles

end GemmThreading

end MklDnn
