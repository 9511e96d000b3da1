import Mathlib.Algebra.BigOperators.Intervals
import MklDnn.Common.Proofs.UtilsProofs
import MklDnn.Gemm.GemvS8u8s32

/-!
# Proofs: the grid of the threads of a product with a vector

The bands of the rows and of the columns follow one another up to the end of the matrix. The last band is larger than
the block that the buffers are sized for exactly if the number of threads keeps the blocks from being one more.
-/

namespace MklDnn.GemvS8u8s32

/-! ## Blocks -/

theorem le_roundUp {u : ℕ} (hu : 0 < u) (x : ℕ) : x ≤ roundUp u x := by
  have hsplit := Nat.div_add_mod' x u
  have hmod := Nat.mod_lt x hu
  unfold roundUp
  split_ifs <;> omega

theorem roundUp_of_dvd {u x : ℕ} (h : u ∣ x) : roundUp u x = x := if_pos (Nat.div_mul_cancel h)

theorem lt_roundUp {u x : ℕ} (hu : 0 < u) (h : ¬ u ∣ x) : x < roundUp u x := by
  have hsplit := Nat.div_add_mod' x u
  have hmod := Nat.mod_lt x hu
  unfold roundUp
  rw [if_neg fun heq => h ⟨x / u, by rw [Nat.mul_comm, heq]⟩]
  omega

/-- The blocks are as many as are needed. -/
theorem parts_spec {n b : ℕ} (hn : 0 < n) (hb : 0 < b) :
    0 < parts n b ∧ b * (parts n b - 1) < n ∧ n ≤ b * parts n b := by
  have hsplit := Nat.div_add_mod n b
  have hmod := Nat.mod_lt n hb
  unfold parts
  split_ifs with hall
  · have hpos : 0 < n / b := by
      rcases Nat.eq_zero_or_pos (n / b) with hzero | hpos
      · rw [hzero] at hall
        omega
      · exact hpos
    rw [Nat.mul_comm] at hall
    rw [Nat.mul_sub, Nat.mul_one]
    have := Nat.le_mul_of_pos_right b hpos
    omega
  · rw [Nat.mul_comm] at hall
    rw [Nat.add_sub_cancel, Nat.mul_succ]
    exact ⟨Nat.succ_pos _, by omega, by omega⟩

/-! ## Bands -/

section Band

variable {b nthr n id i : ℕ}

/-- No band but the last one ends at the end. -/
theorem band_snd (hlast : b * (nthr - 1) < n) (hid : id < nthr) :
    (band b nthr n id).2 = if id = nthr - 1 then n else b * (id + 1) := by
  unfold band
  by_cases hend : id = nthr - 1
  · rw [if_pos (Or.inr hend), if_pos hend]
  · have hle : b * (id + 1) ≤ b * (nthr - 1) := Nat.mul_le_mul_left _ (by omega)
    rw [if_neg (by omega), if_neg hend]

theorem band_le (hlast : b * (nthr - 1) < n) (hid : id < nthr) :
    (band b nthr n id).1 ≤ (band b nthr n id).2 ∧ (band b nthr n id).2 ≤ n := by
  rw [band_snd hlast hid]
  show b * id ≤ _ ∧ _
  split_ifs with hend
  · rw [hend]
    omega
  · have hle : b * (id + 1) ≤ b * (nthr - 1) := Nat.mul_le_mul_left _ (by omega)
    rw [Nat.mul_succ] at hle ⊢
    omega

/-- Every element is in one band. -/
theorem existsUnique_band (hb : 0 < b) (hnthr : 0 < nthr) (hlast : b * (nthr - 1) < n) (hi : i < n) :
    ∃! id, id < nthr ∧ (band b nthr n id).1 ≤ i ∧ i < (band b nthr n id).2 := by
  have hmem : ∀ id < nthr, ((band b nthr n id).1 ≤ i ∧ i < (band b nthr n id).2) ↔ id = min (i / b) (nthr - 1) := by
    intro id hid
    rw [band_snd hlast hid]
    show (b * id ≤ i ∧ _) ↔ _
    have hlow : b * id ≤ i ↔ id ≤ i / b := by rw [Nat.le_div_iff_mul_le hb, Nat.mul_comm]
    have hhigh : i < b * (id + 1) ↔ i / b < id + 1 := by rw [Nat.div_lt_iff_lt_mul hb, Nat.mul_comm]
    split_ifs with hend
    · rw [hlow]
      omega
    · rw [hlow, hhigh]
      omega
  have howner : min (i / b) (nthr - 1) < nthr := by omega
  refine ⟨min (i / b) (nthr - 1), ⟨howner, (hmem _ howner).mpr rfl⟩, ?_⟩
  rintro id ⟨hid, hin⟩
  exact (hmem id hid).mp hin

/-- A sum over the bands. -/
theorem sum_bands {M : Type*} [AddCommMonoid M] (hnthr : 0 < nthr) (hlast : b * (nthr - 1) < n) (f : ℕ → M) :
    ∑ id ∈ Finset.range nthr, ∑ j ∈ Finset.range ((band b nthr n id).2 - (band b nthr n id).1),
      f ((band b nthr n id).1 + j) = ∑ j ∈ Finset.range n, f j := by
  have hfirst : ∀ k ≤ nthr - 1, ∑ id ∈ Finset.range k,
      ∑ j ∈ Finset.range ((band b nthr n id).2 - (band b nthr n id).1), f ((band b nthr n id).1 + j) =
        ∑ j ∈ Finset.range (b * k), f j := by
    intro k
    induction k with
    | zero =>
      intro _
      rfl
    | succ k ih =>
      intro hk
      rw [Finset.sum_range_succ, ih (by omega), band_snd hlast (by omega), if_neg (by omega), Nat.mul_succ,
        Finset.sum_range_add]
      show _ + ∑ j ∈ Finset.range (b * k + b - b * k), f (b * k + j) = _
      rw [Nat.add_sub_cancel_left]
  obtain ⟨k, rfl⟩ : ∃ k, nthr = k + 1 := ⟨nthr - 1, by omega⟩
  have hsnd : (band b (k + 1) n k).2 = n := by
    rw [band_snd hlast (Nat.lt_succ_self k)]
    exact if_pos rfl
  rw [Nat.add_sub_cancel] at hlast hfirst
  rw [Finset.sum_range_succ, hfirst k (Nat.le_refl k), hsnd]
  show _ + ∑ j ∈ Finset.range (n - b * k), f (b * k + j) = _
  rw [← Finset.sum_range_add, Nat.add_sub_cancel' hlast.le]

end Band

/-! ## The grid -/

/-- What holds of a grid. -/
structure Grid.Valid (G : Grid) (m n nthr : ℕ) : Prop where
  MB_pos : 0 < G.MB
  NB_pos : 0 < G.NB
  nthrM_pos : 0 < G.nthrM
  nthrN_pos : 0 < G.nthrN
  threads_le : G.nthrM * G.nthrN ≤ nthr
  rows_lt : G.MB * (G.nthrM - 1) < m
  cols_lt : G.NB * (G.nthrN - 1) < n
  whole : 1 < G.nthrN → m ≤ G.MB * G.nthrM

section Rows

variable {m nthr : ℕ}

theorem firstNthrM_spec (hm : 0 < m) (hnthr : 0 < nthr) :
    0 < firstNthrM m nthr ∧ firstNthrM m nthr ≤ nthr ∧ firstNthrM m nthr ≤ m := by
  have hdiv := Nat.div_le_self m blockM
  unfold firstNthrM
  omega

theorem MB_pos (hm : 0 < m) (hnthr : 0 < nthr) : 0 < roundUp um (m / firstNthrM m nthr) := by
  obtain ⟨hpos, -, hle⟩ := firstNthrM_spec hm hnthr
  exact (Nat.div_pos hle hpos).trans_le (le_roundUp (by decide) _)

/-- The blocks reach the end, unless all threads have a block that is not enlarged. -/
theorem rows_cover (hm : 0 < m) (hnthr : 0 < nthr)
    (hmore : nthr < parts m (roundUp um (m / firstNthrM m nthr))) :
    nthr ≤ max (m / blockM) 1 ∧ um ∣ m / nthr := by
  obtain ⟨hpos, -, hle⟩ := firstNthrM_spec hm hnthr
  obtain ⟨-, hlast, -⟩ := parts_spec hm (MB_pos hm hnthr)
  have hbefore : roundUp um (m / firstNthrM m nthr) * nthr < m :=
    (Nat.mul_le_mul_left _ (by omega)).trans_lt hlast
  have hround := le_roundUp (u := um) (by decide) (m / firstNthrM m nthr)
  have hall : nthr ≤ max (m / blockM) 1 := by
    by_contra hfew
    have hfirst : firstNthrM m nthr = max (m / blockM) 1 := by
      unfold firstNthrM
      omega
    have hsucc : max (m / blockM) 1 + 1 ≤ nthr := by omega
    have hblocks : roundUp um (m / firstNthrM m nthr) * (max (m / blockM) 1 + 1) < m :=
      (Nat.mul_le_mul_left _ hsucc).trans_lt hbefore
    have hrow := Nat.div_add_mod m blockM
    have hmod := Nat.mod_lt m (show 0 < blockM by decide)
    rcases Nat.eq_zero_or_pos (m / blockM) with hzero | hone
    · rw [hfirst, hzero, Nat.max_eq_right (Nat.zero_le 1), Nat.div_one] at hblocks hround
      omega
    · rw [Nat.max_eq_left hone] at hfirst hblocks
      have hbig : blockM ≤ m / firstNthrM m nthr := by
        rw [hfirst, Nat.le_div_iff_mul_le hone, Nat.mul_comm]
        exact Nat.div_mul_le_self m blockM
      have hmul : blockM * (m / blockM + 1) ≤ roundUp um (m / firstNthrM m nthr) * (m / blockM + 1) :=
        Nat.mul_le_mul_right _ (hbig.trans hround)
      rw [Nat.mul_succ] at hmul
      omega
  refine ⟨hall, ?_⟩
  have hfirst : firstNthrM m nthr = nthr := by
    unfold firstNthrM
    omega
  by_contra hdvd
  rw [hfirst] at hbefore
  have hlarger := lt_roundUp (by decide) hdvd
  have hmul : (m / nthr + 1) * nthr ≤ roundUp um (m / nthr) * nthr := Nat.mul_le_mul_right _ hlarger
  have hsplit := Nat.div_add_mod' m nthr
  have hmod := Nat.mod_lt m hnthr
  rw [Nat.succ_mul] at hmul
  omega

theorem firstNthrM_eq (h : nthr ≤ max (m / blockM) 1) : firstNthrM m nthr = nthr := Nat.min_eq_right h

/-- The loop that raises `nthr_n` ends. -/
theorem exists_nthrN {n nthrM : ℕ} (hn : 0 < n) (hnthrM : 0 < nthrM) (hle : nthrM ≤ nthr) : ∃ nthrN,
    WhileLoops.loop (raises n nthr nthrM) (fun nthrN => some (nthrN + 1)) (nthr + 1) 1 = some nthrN ∧
      0 < nthrN ∧ 0 < n / nthrN := by
  have hbody : ∀ k, (0 < k ∧ nthrM * k ≤ nthr ∧ 0 < n / k) → raises n nthr nthrM k = true →
      ∃ k', some (k + 1) = some k' ∧ (0 < k' ∧ nthrM * k' ≤ nthr ∧ 0 < n / k') ∧ nthr - k' < nthr - k := by
    rintro k - hraise
    unfold raises blockN at hraise
    rw [decide_eq_true_iff] at hraise
    have hmul := Nat.le_mul_of_pos_left (k + 1) hnthrM
    exact ⟨k + 1, rfl, ⟨Nat.succ_pos k, hraise.1, by omega⟩, by omega⟩
  obtain ⟨nthrN, hloop, ⟨hpos, -, hdiv⟩, -⟩ := WhileLoops.loop_spec
    (fun k => 0 < k ∧ nthrM * k ≤ nthr ∧ 0 < n / k) (fun k => nthr - k) hbody
    (s := 1) ⟨Nat.one_pos, by rwa [Nat.mul_one], by rwa [Nat.div_one]⟩ (by omega : nthr - 1 < nthr + 1)
  exact ⟨nthrN, hloop, hpos, hdiv⟩

/-- There is a grid for every matrix and every number of threads. -/
theorem grid_spec {n : ℕ} (hm : 0 < m) (hn : 0 < n) (hnthr : 0 < nthr) : ∃ G, grid m n nthr = some G ∧
    G.Valid m n nthr ∧ G.MB = roundUp um (m / firstNthrM m nthr) ∧ G.nthrM = min (parts m G.MB) nthr := by
  have hall := MB_pos hm hnthr
  obtain ⟨hparts, hlast, hcover⟩ := parts_spec hm (MB_pos hm hnthr)
  obtain ⟨MB, hMB⟩ : ∃ MB, MB = roundUp um (m / firstNthrM m nthr) := ⟨_, rfl⟩
  rw [← hMB] at hparts hlast hcover
  have hnthrM : min (max (parts m MB) 1) nthr = min (parts m MB) nthr := by
    rw [Nat.max_eq_left hparts]
  have hposM : 0 < min (parts m MB) nthr := Nat.lt_min.mpr ⟨hparts, hnthr⟩
  obtain ⟨nthrN, hloop, -, hdiv⟩ := exists_nthrN hn hposM (Nat.min_le_right (parts m MB) nthr)
  have hNB : 0 < roundUp un (n / nthrN) := hdiv.trans_le (le_roundUp (by decide) _)
  obtain ⟨hpartsN, hlastN, -⟩ := parts_spec hn hNB
  have hshare : 0 < nthr / min (parts m MB) nthr := Nat.div_pos (Nat.min_le_right _ _) hposM
  unfold grid
  dsimp only
  rw [← hMB] at hall ⊢
  rw [hnthrM, hloop]
  refine ⟨_, rfl, ?_, rfl, rfl⟩
  constructor
  · exact hall
  · exact hNB
  · exact hposM
  · exact Nat.lt_min.mpr ⟨by omega, hshare⟩
  · calc min (parts m MB) nthr * min (max (parts n (roundUp un (n / nthrN))) 1) (nthr / min (parts m MB) nthr)
        ≤ min (parts m MB) nthr * (nthr / min (parts m MB) nthr) := Nat.mul_le_mul_left _ (Nat.min_le_right _ _)
      _ ≤ nthr := Nat.mul_div_le _ _
  · have hle : MB * (min (parts m MB) nthr - 1) ≤ MB * (parts m MB - 1) := Nat.mul_le_mul_left _ (by omega)
    exact hle.trans_lt hlast
  · refine (Nat.mul_le_mul_left _ ?_).trans_lt hlastN
    rw [Nat.max_eq_left hpartsN]
    exact Nat.sub_le_sub_right (Nat.min_le_left _ _) 1
  · intro hmore
    dsimp only at hmore ⊢
    have htwo : 2 ≤ nthr / min (parts m MB) nthr := hmore.trans_le (Nat.min_le_right _ _)
    rw [Nat.le_div_iff_mul_le hposM] at htwo
    have hall : min (parts m MB) nthr = parts m MB := by omega
    rw [hall]
    exact hcover

end Rows

/-! ## The buffers -/

theorem le_nextThrStride (x : ℕ) : x ≤ nextThrStride x := by
  unfold nextThrStride paddBytesizeOnpage
  omega

/-- All threads have a block of rows that is not enlarged, and the rows that are left do not fit what the pages of a
block leave. -/
def Overruns (m nthr : ℕ) : Prop :=
  nthr ≤ max (m / blockM) 1 ∧ um ∣ m / nthr ∧ nextThrStride (m / nthr) < m / nthr + m % nthr

/-- The bands of the rows fit the pages of a block, unless the last one overruns them. -/
theorem bands_fit_iff {G : Grid} {m n nthr : ℕ} (h : G.Valid m n nthr) (hm : 0 < m) (hnthr : 0 < nthr)
    (hMB : G.MB = roundUp um (m / firstNthrM m nthr)) (hnthrM : G.nthrM = min (parts m G.MB) nthr) :
    (∀ id < G.nthrM, (band G.MB G.nthrM m id).2 - (band G.MB G.nthrM m id).1 ≤ nextThrStride G.MB) ↔
      ¬ Overruns m nthr := by
  have hpos := h.nthrM_pos
  -- the last band decides
  have hlast : (∀ id < G.nthrM, (band G.MB G.nthrM m id).2 - (band G.MB G.nthrM m id).1 ≤ nextThrStride G.MB) ↔
      m - G.MB * (G.nthrM - 1) ≤ nextThrStride G.MB := by
    constructor
    · intro hall
      have hend := hall (G.nthrM - 1) (by omega)
      rw [band_snd h.rows_lt (by omega), if_pos rfl] at hend
      exact hend
    · intro hend id hid
      rw [band_snd h.rows_lt hid]
      split_ifs with hid'
      · rw [hid']
        exact hend
      · show G.MB * (id + 1) - G.MB * id ≤ _
        rw [Nat.mul_succ, Nat.add_sub_cancel_left]
        exact le_nextThrStride _
  have hblock := le_nextThrStride G.MB
  obtain ⟨-, -, hcover⟩ := parts_spec hm h.MB_pos
  rw [hlast]
  -- the blocks where every thread has one that is not enlarged
  have heven : nthr ≤ max (m / blockM) 1 → um ∣ m / nthr → G.MB = m / nthr := by
    intro hall hdvd
    rw [hMB, firstNthrM_eq hall, roundUp_of_dvd hdvd]
  have hsplit := Nat.div_add_mod' m nthr
  rcases Nat.lt_or_ge nthr (parts m G.MB) with hmore | hfew
  · have hmore' := hmore
    rw [hMB] at hmore'
    obtain ⟨hall, hdvd⟩ := rows_cover hm hnthr hmore'
    have hsize := heven hall hdvd
    have hthreads : G.nthrM = nthr := by omega
    have hexcess : m - G.MB * (G.nthrM - 1) = m / nthr + m % nthr := by
      rw [hthreads, hsize]
      have hprev : m / nthr * nthr = m / nthr * (nthr - 1) + m / nthr := by
        rw [← Nat.mul_succ]
        congr 1
        omega
      omega
    rw [hexcess, hsize]
    constructor
    · rintro hle ⟨-, -, hlt⟩
      omega
    · intro hnot
      by_contra hlt
      exact hnot ⟨hall, hdvd, by omega⟩
  · have hthreads : G.nthrM = parts m G.MB := by omega
    have hprev : G.MB * parts m G.MB = G.MB * (parts m G.MB - 1) + G.MB := by
      rw [← Nat.mul_succ]
      congr 1
      omega
    constructor
    · rintro - ⟨hall, hdvd, hlt⟩
      have hsize := heven hall hdvd
      have hle : G.MB * parts m G.MB ≤ m / nthr * nthr := by
        rw [← hsize]
        exact Nat.mul_le_mul_left _ hfew
      rw [hsize] at hblock
      omega
    · intro _
      rw [hthreads]
      omega

end MklDnn.GemvS8u8s32
