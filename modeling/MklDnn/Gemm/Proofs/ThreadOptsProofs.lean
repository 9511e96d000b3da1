import MklDnn.Gemm.Proofs.PartitionProofs
import MklDnn.Gemm.ThreadOpts

/-!
# Proofs: the chosen grid tiles the iteration space

Along each dimension `choose_blocking` gives up the threads that would get no slice. The searches for a grid
never give out more threads than there are, and the grids for `partition_2d` have large bands along `m`. The
only way to get no grid is a product of numbers of parts that overflows.
-/

namespace MklDnn

open GemmThreading (Covers)

/-! ## `choose_blocking` -/

theorem le_divUp_mul (a : ℕ) {b : ℕ} (hb : 0 < b) : a ≤ divUp a b * b := le_rndUp hb

theorem pred_divUp_mul_lt {a b : ℕ} (ha : 0 < a) (hb : 0 < b) : (divUp a b - 1) * b < a := by
  have hlt := rndUp_lt (a := a) hb
  rw [rndUp_eq] at hlt
  have hpos := divUp_pos ha hb
  have hsucc : (divUp a b - 1) * b + b = divUp a b * b := by
    rw [← Nat.succ_mul, Nat.succ_eq_add_one, Nat.sub_add_cancel hpos]
  omega

section ChooseBlocking

variable {sizeZ nthrZ blockZInit blockAlign : ℕ} (hsize : 0 < sizeZ) (hinit : 0 < blockZInit)
  (halign : 0 < blockAlign)

/-- The size of a slice: so many blocks of an aligned size that they cover the share of a thread. -/
def sliceSize (sizeZ nthrZ blockZInit blockAlign : ℕ) : ℕ :=
  divUp (divUp sizeZ nthrZ) blockZInit *
    rndUp (divUp (divUp sizeZ nthrZ) (divUp (divUp sizeZ nthrZ) blockZInit)) blockAlign

include hsize hinit halign

theorem divUp_le_sliceSize (hnthr : 0 < nthrZ) :
    divUp sizeZ nthrZ ≤ sliceSize sizeZ nthrZ blockZInit blockAlign := by
  have hblk := divUp_pos (divUp_pos hsize hnthr) hinit
  have hle := le_divUp_mul (divUp sizeZ nthrZ) hblk
  rw [Nat.mul_comm] at hle
  exact hle.trans (Nat.mul_le_mul_left _ (le_rndUp halign))

/-- What `choose_blocking` achieves. -/
theorem chooseBlocking_spec {z : DimBlocking} (h : chooseBlocking sizeZ nthrZ blockZInit blockAlign = some z) :
    z.nthr ≤ nthrZ ∧ Covers sizeZ z.nthr z.thread := by
  unfold chooseBlocking at h
  split_ifs at h with h0
  have hnthr : 0 < nthrZ := Nat.pos_of_ne_zero h0
  obtain rfl := Option.some.inj h
  dsimp only
  rw [← sliceSize]
  have hle := divUp_le_sliceSize hsize hinit halign hnthr
  generalize sliceSize sizeZ nthrZ blockZInit blockAlign = thread at *
  have hpos : 0 < thread := (divUp_pos hsize hnthr).trans_le hle
  have hcover : sizeZ ≤ nthrZ * thread :=
    (le_divUp_mul sizeZ hnthr).trans (Nat.mul_comm nthrZ thread ▸ Nat.mul_le_mul_right nthrZ hle)
  split_ifs with hlost
  · exact ⟨(divUp_le_iff hpos).mpr hcover, hpos, pred_divUp_mul_lt hsize hpos, le_divUp_mul sizeZ hpos⟩
  · refine ⟨le_rfl, hpos, ?_, hcover⟩
    rw [Nat.mul_comm] at hlost
    have hsucc : (nthrZ - 1) * thread + thread = nthrZ * thread := by
      rw [← Nat.succ_mul, Nat.succ_eq_add_one, Nat.sub_add_cancel hnthr]
    omega

omit hsize hinit halign in
theorem chooseBlocking_isSome : (chooseBlocking sizeZ nthrZ blockZInit blockAlign).isSome ↔ 0 < nthrZ := by
  unfold chooseBlocking
  split_ifs with h0
  · simp [h0]
  · simpa using Nat.pos_of_ne_zero h0

end ChooseBlocking

/-! ## `partition_2d_minblk` -/

/-- The grid has at most `nthr` threads, and at least one. -/
structure GridWithin (grid : ℕ × ℕ) (nthr : ℕ) : Prop where
  pos_m : 0 < grid.1
  pos_n : 0 < grid.2
  le : grid.1 * grid.2 ≤ nthr

/-- The threads that the loop over the primes has still to distribute fit. -/
structure PrimeState.Within (st : PrimeState) (nthr : ℕ) : Prop where
  pos_m : 0 < st.nthrM
  pos_n : 0 < st.nthrN
  pos_ite : 0 < st.nthrIte
  le : st.nthrM * st.nthrN * st.nthrIte ≤ nthr

theorem tryPartition_spec {st st' : PrimeState} {p bm bn : ℕ} {pickSmall : Bool}
    (h : tryPartition st p bm bn pickSmall = some st') :
    st'.nthrIte = st.nthrIte ∧
      (st'.nthrM = st.nthrM * p ∧ st'.nthrN = st.nthrN ∨ st'.nthrM = st.nthrM ∧ st'.nthrN = st.nthrN * p) := by
  unfold tryPartition at h
  dsimp only at h
  split_ifs at h
  · obtain rfl := Option.some.inj h
    exact ⟨rfl, Or.inl ⟨rfl, rfl⟩⟩
  · obtain rfl := Option.some.inj h
    exact ⟨rfl, Or.inr ⟨rfl, rfl⟩⟩

/-- A step multiplies at most one side of the grid by `p`. -/
theorem primeStep_spec (blockM blockN minM minN nthr p : ℕ) (st : PrimeState) :
    let st' := (primeStep blockM blockN minM minN nthr p st).1
    st'.nthrIte = st.nthrIte ∧
      (st'.nthrM = st.nthrM ∧ st'.nthrN = st.nthrN ∨
        st'.nthrM = st.nthrM * p ∧ st'.nthrN = st.nthrN ∨
        st'.nthrM = st.nthrM ∧ st'.nthrN = st.nthrN * p) := by
  have hset : ∀ c : Prop, ∀ _ : Decidable c,
      (if c then { st with numParts := wrapInt (st.numParts * p) } else st).nthrIte = st.nthrIte ∧
      (if c then { st with numParts := wrapInt (st.numParts * p) } else st).nthrM = st.nthrM ∧
      (if c then { st with numParts := wrapInt (st.numParts * p) } else st).nthrN = st.nthrN := by
    intro c _
    split_ifs <;> exact ⟨rfl, rfl, rfl⟩
  unfold primeStep
  dsimp only
  obtain ⟨hite, hM, hN⟩ := hset (st.numParts < nthr) inferInstance
  generalize (if st.numParts < nthr then { st with numParts := wrapInt (st.numParts * p) } else st) = st1 at *
  rw [← hite, ← hM, ← hN]
  split
  · next st' h =>
    split_ifs at h
    obtain ⟨hite', hgrid⟩ := tryPartition_spec h
    exact ⟨hite', Or.inr hgrid⟩
  · split
    · next st' h =>
      obtain ⟨hite', hgrid⟩ := tryPartition_spec h
      exact ⟨hite', Or.inr hgrid⟩
    · split
      · next st' h =>
        obtain ⟨hite', hgrid⟩ := tryPartition_spec h
        exact ⟨hite', Or.inr hgrid⟩
      · exact ⟨rfl, Or.inl ⟨rfl, rfl⟩⟩

theorem PrimeState.Within.step {st : PrimeState} {nthr p : ℕ} (h : st.Within nthr) (hp : 0 < p)
    (hdvd : st.nthrIte % p = 0) (blockM blockN minM minN : ℕ) :
    (primeStep blockM blockN minM minN nthr p { st with nthrIte := st.nthrIte / p }).1.Within nthr := by
  obtain ⟨hite, hgrid⟩ :=
    primeStep_spec blockM blockN minM minN nthr p { st with nthrIte := st.nthrIte / p }
  have hmul : st.nthrIte / p * p = st.nthrIte := Nat.div_mul_cancel (Nat.dvd_of_mod_eq_zero hdvd)
  have hpos : 0 < st.nthrIte / p := Nat.pos_of_mul_pos_right (hmul ▸ h.pos_ite)
  have hle : st.nthrM * st.nthrN * p * (st.nthrIte / p) ≤ nthr := by
    rw [Nat.mul_assoc _ p, Nat.mul_comm p, hmul]
    exact h.le
  dsimp only at hite hgrid
  generalize (primeStep blockM blockN minM minN nthr p { st with nthrIte := st.nthrIte / p }).1 = st' at *
  rcases hgrid with ⟨hM, hN⟩ | ⟨hM, hN⟩ | ⟨hM, hN⟩
  · refine ⟨hM ▸ h.pos_m, hN ▸ h.pos_n, hite ▸ hpos, ?_⟩
    rw [hM, hN, hite]
    exact (Nat.mul_le_mul_left _ (Nat.div_le_self _ p)).trans h.le
  · refine ⟨hM ▸ Nat.mul_pos h.pos_m hp, hN ▸ h.pos_n, hite ▸ hpos, ?_⟩
    rwa [hM, hN, hite, Nat.mul_right_comm st.nthrM]
  · refine ⟨hM ▸ h.pos_m, hN ▸ Nat.mul_pos h.pos_n hp, hite ▸ hpos, ?_⟩
    rwa [hM, hN, hite, ← Nat.mul_assoc st.nthrM]

theorem PrimeState.Within.loop {st : PrimeState} {nthr p : ℕ} (hp : 0 < p) (blockM blockN minM minN fuel : ℕ)
    (h : st.Within nthr) : (primeLoop blockM blockN minM minN nthr p fuel st).1.Within nthr := by
  induction fuel generalizing st with
  | zero => exact h
  | succ fuel ih =>
    rw [primeLoop]
    split_ifs with hmod
    · have hstep := h.step hp hmod blockM blockN minM minN
      dsimp only
      split_ifs
      · exact hstep
      · exact ih hstep
    · exact h

theorem PrimeState.Within.primes {st : PrimeState} {nthr : ℕ} (blockM blockN minM minN : ℕ) {ps : List ℕ}
    (hps : ∀ p ∈ ps, 0 < p) (h : st.Within nthr) :
    (primesLoop blockM blockN minM minN nthr ps st).Within nthr := by
  induction ps generalizing st with
  | nil => exact h
  | cons p ps ih =>
    have hloop := h.loop (hps p List.mem_cons_self) blockM blockN minM minN nthr
    rw [primesLoop]
    split_ifs
    · exact hloop
    · exact ih (fun q hq => hps q (List.mem_cons_of_mem p hq)) hloop

theorem partition2dMinblkWithPrimes_within {m n blockM blockN minM minN nthr : ℕ} (hnthr : 0 < nthr) :
    GridWithin (partition2dMinblkWithPrimes m n blockM blockN minM minN nthr) nthr := by
  unfold partition2dMinblkWithPrimes
  dsimp only
  split_ifs
  · exact ⟨Nat.one_pos, by dsimp only; omega, by dsimp only; omega⟩
  · exact ⟨by dsimp only; omega, Nat.one_pos, by dsimp only; omega⟩
  · have hinit : (⟨nthr, 1, 1, m, n, wrapInt ((max 1 (m / blockM) : ℕ) * (max 1 (n / blockN) : ℕ))⟩ :
        PrimeState).Within nthr := ⟨Nat.one_pos, Nat.one_pos, hnthr, by simp⟩
    have hprimes : ∀ p ∈ [2, 3, 5, 7, 11, 13, 17, 19, 23, 29], 0 < p := by decide
    have hloop := hinit.primes blockM blockN minM minN hprimes
    refine ⟨hloop.pos_m, hloop.pos_n, le_trans ?_ hloop.le⟩
    exact Nat.le_mul_of_pos_right _ hloop.pos_ite

theorem GridWithin.mono {grid : ℕ × ℕ} {nthr nthr' : ℕ} (h : GridWithin grid nthr) (hle : nthr ≤ nthr') :
    GridWithin grid nthr' :=
  ⟨h.pos_m, h.pos_n, h.le.trans hle⟩

/-- The loop keeps a grid that it has found. -/
theorem minblkLoop_within {m n blockM blockN minM minN nthr : ℕ} (thresh : ℚ) (len : ℕ) {nthrNew : ℕ}
    {grid : ℕ × ℕ} (hlen : len ≤ nthrNew) (hnew : nthrNew ≤ nthr) (h : GridWithin grid nthr) :
    GridWithin (minblkLoop m n blockM blockN minM minN thresh len nthrNew grid) nthr := by
  induction len generalizing nthrNew grid with
  | zero => exact h
  | succ len ih =>
    rw [minblkLoop]
    split_ifs
    · exact h
    · refine ih (by omega) (by omega) ?_
      exact (partition2dMinblkWithPrimes_within (by omega)).mono hnew

/-- The product of the numbers of parts leaves the range of positive `int` values. -/
def PartsOverflow (m n minM minN : ℕ) : Prop :=
  1 < m / minM ∧ 1 < n / minN ∧ wrapInt ((m / minM : ℕ) * (n / minN : ℕ)) ≤ 0

instance (m n minM minN : ℕ) : Decidable (PartsOverflow m n minM minN) :=
  inferInstanceAs (Decidable (_ ∧ _ ∧ _))

theorem double095_pos : 0 < double095 := Rounding.toPrec_pos (by norm_num) (by norm_num)

theorem partition2dMinblk_within {m n blockM blockN minM minN nthr : ℕ} (hnthr : 0 < nthr)
    (h : ¬ PartsOverflow m n minM minN) :
    GridWithin (partition2dMinblk m n blockM blockN minM minN nthr) nthr := by
  unfold partition2dMinblk
  dsimp only
  split_ifs with hM hN
  · exact ⟨Nat.one_pos, by dsimp only; omega, by dsimp only; omega⟩
  · exact ⟨by dsimp only; omega, Nat.one_pos, by dsimp only; omega⟩
  · have hmaxM : max 1 (m / minM) = m / minM := by omega
    have hmaxN : max 1 (n / minN) = n / minN := by omega
    have hwrap : 0 < wrapInt ((m / minM : ℕ) * (n / minN : ℕ)) := by
      by_contra hle
      exact h ⟨by omega, by omega, by omega⟩
    have hthresh : 0 < nthrThresh (m / minM) (n / minN) nthr := by
      have hnthrQ : (0 : ℚ) < nthr := by exact_mod_cast hnthr
      exact lt_min (Rounding.toPrec_pos (by norm_num) (mul_pos double095_pos hnthrQ))
        (by exact_mod_cast hwrap)
    rw [hmaxM, hmaxN]
    obtain ⟨len, hlen⟩ := Nat.exists_eq_add_of_lt (show 0 < nthr - nthr / 2 by omega)
    rw [hlen, Nat.zero_add, minblkLoop, if_neg]
    · refine minblkLoop_within _ len (by omega) (by omega) ?_
      exact partition2dMinblkWithPrimes_within hnthr
    · simpa using hthresh

/-- With an overflow the loop ends before its first iteration. -/
theorem partition2dMinblk_of_overflow {m n blockM blockN minM minN nthr : ℕ}
    (h : PartsOverflow m n minM minN) :
    partition2dMinblk m n blockM blockN minM minN nthr = (0, 0) := by
  obtain ⟨hM, hN, hwrap⟩ := h
  have hmaxM : max 1 (m / minM) = m / minM := by omega
  have hmaxN : max 1 (n / minN) = n / minN := by omega
  have hthresh : nthrThresh (m / minM) (n / minN) nthr ≤ 0 :=
    (min_le_right _ _).trans (by exact_mod_cast hwrap)
  unfold partition2dMinblk
  dsimp only
  rw [hmaxM, hmaxN, if_neg (by omega), if_neg (by omega)]
  cases nthr - nthr / 2 with
  | zero => rfl
  | succ len =>
    rw [minblkLoop, if_pos]
    simpa using hthresh

/-! ## `set_thread_opts_pack` -/

/-- The alignment of the blocks along `m`. -/
def alignM (aType : AType) (isa : Isa) : ℕ :=
  if decide (aType = .s8) then 16 else getVectorLength isa aType.size

/-- What `jit_init` guarantees of the sizes. -/
structure KernelParams.Sound (params : KernelParams) (aType : AType) (isa : Isa) : Prop where
  um_pos : 0 < params.um
  un_pos : 0 < params.un
  bm_pos : 0 < params.bm
  bn_pos : 0 < params.bn
  bk_pos : 0 < params.bk
  alignM_pos : 0 < alignM aType isa
  alignM_dvd : alignM aType isa ∣ params.bm
  alignN_dvd : params.un ∣ params.bn
  alignK_dvd : max params.uk 4 ∣ params.bk
  -- the kernels for other types than `float` are those of one instruction set
  not_f32 : aType ≠ .f32 → params.um = 48 ∧ params.un = 8 ∧ isa.mayUseAvx512Core = true

theorem jitInit_sound {aType : AType} {isa : Isa} {params : KernelParams}
    (h : jitInit aType isa = some params) : params.Sound aType isa := by
  cases aType <;> cases isa <;> cases h <;>
    exact ⟨by decide, by decide, by decide, by decide, by decide, by decide, by decide, by decide,
      by decide, by decide⟩

/-- A matrix multiplication with elements whose kernels were set up. -/
structure GemmInfo.Initialised (arg : GemmInfo) : Prop where
  m_pos : 0 < arg.m
  n_pos : 0 < arg.n
  k_pos : 0 < arg.k
  sound : arg.params.Sound arg.aType arg.isa

section Pack

variable {arg : GemmInfo} (h : arg.Initialised)

include h

theorem chooseMBlocking_spec {nthrM : ℕ} {z : DimBlocking} (hz : arg.chooseMBlocking nthrM = some z) :
    z.nthr ≤ nthrM ∧ Covers arg.m z.nthr z.thread :=
  chooseBlocking_spec h.m_pos h.sound.bm_pos h.sound.alignM_pos hz

theorem chooseNBlocking_spec {nthrN : ℕ} {z : DimBlocking} (hz : arg.chooseNBlocking nthrN = some z) :
    z.nthr ≤ nthrN ∧ Covers arg.n z.nthr z.thread :=
  chooseBlocking_spec h.n_pos h.sound.bn_pos h.sound.un_pos hz

theorem chooseKBlocking_spec {nthrK : ℕ} {z : DimBlocking} (hz : arg.chooseKBlocking nthrK = some z) :
    z.nthr ≤ nthrK ∧ Covers arg.k z.nthr z.thread :=
  chooseBlocking_spec h.k_pos h.sound.bk_pos (by omega) hz

omit h in
/-- There are at least as many threads as slices along `k` are tried. -/
theorem nthrKInit_spec {nthrs : ℕ} (hnthrs : 0 < nthrs) (doKBlocking : Bool) :
    0 < arg.nthrKInit nthrs doKBlocking ∧ arg.nthrKInit nthrs doKBlocking ≤ nthrs := by
  unfold GemmInfo.nthrKInit
  dsimp only
  generalize (if arg.isInt8 = true then 3072 else 256) = kblk
  split_ifs
  · have hstep : ∀ nthrK : ℕ, 0 < nthrK ∧ nthrK ≤ nthrs → ∀ nk ∈ List.range' 1 4,
        0 < (if arg.k ≥ (kblk + 1) * nk ∧ nthrs % nk = 0 then nk else nthrK) ∧
          (if arg.k ≥ (kblk + 1) * nk ∧ nthrs % nk = 0 then nk else nthrK) ≤ nthrs := by
      intro nthrK hle nk hnk
      split_ifs with hcond
      · exact ⟨(List.mem_range'_1.mp hnk).1, Nat.le_of_dvd hnthrs (Nat.dvd_of_mod_eq_zero hcond.2)⟩
      · exact hle
    exact List.foldlRecOn (List.range' 1 4) _ ⟨Nat.one_pos, hnthrs⟩ hstep
  · exact ⟨Nat.one_pos, hnthrs⟩

omit h in
/-- Rebalancing keeps the threads within their number and the slices covering. -/
theorem rebalance_spec {size nthrOther nthrs : ℕ} {choose : ℕ → Option DimBlocking} {z : DimBlocking}
    (nthrLost nthrInit : ℕ) (hsome : ∀ nthr, 0 < nthr → (choose nthr).isSome)
    (hchoose : ∀ nthr z, choose nthr = some z → z.nthr ≤ nthr ∧ Covers size z.nthr z.thread)
    (hz : Covers size z.nthr z.thread) (hle : z.nthr * nthrOther ≤ nthrs) :
    ∃ z', GemmInfo.rebalance nthrLost nthrInit nthrOther nthrs choose z = some z' ∧
      Covers size z'.nthr z'.thread ∧ z'.nthr * nthrOther ≤ nthrs := by
  unfold GemmInfo.rebalance
  split_ifs with hcond
  · obtain ⟨z', hz'⟩ := Option.isSome_iff_exists.mp (hsome _ (Nat.succ_pos z.nthr))
    obtain ⟨hnthr, hcovers⟩ := hchoose _ _ hz'
    exact ⟨z', hz', hcovers, (Nat.mul_le_mul_right _ hnthr).trans hcond.2⟩
  · exact ⟨z, rfl, hz, hle⟩

omit h in
theorem mnk3d_tiles {m n k : DimBlocking} (hm : Covers arg.m m.nthr m.thread)
    (hn : Covers arg.n n.nthr n.thread) (hk : Covers arg.k k.nthr k.thread) :
    (GemmInfo.mnk3d m n k).Tiles arg.m arg.n arg.k :=
  GemmThreading.tiles_mnk3d rfl hm hn hk

/-- The grid has at most `nthrs` threads, whose slices tile the iteration space. -/
def GemmThreading.Partitions (t : GemmThreading) (arg : GemmInfo) (nthrs : ℕ) : Prop :=
  t.nthrs ≤ nthrs ∧ t.Tiles arg.m arg.n arg.k

theorem setThreadOptsPack_partitions {nthrs : ℕ} (hnthrs : 0 < nthrs) (doKBlocking : Bool)
    (hparts : ¬ PartsOverflow arg.m arg.n arg.minMblk 32) :
    ∃ t, arg.setThreadOptsPack nthrs doKBlocking = some t ∧ t.Partitions arg nthrs := by
  obtain ⟨hkinit, hkle⟩ : 0 < arg.nthrKInit nthrs doKBlocking ∧ _ := nthrKInit_spec hnthrs doKBlocking
  have hsomeM : ∀ nthr, 0 < nthr → (arg.chooseMBlocking nthr).isSome := fun _ => chooseBlocking_isSome.mpr
  have hsomeN : ∀ nthr, 0 < nthr → (arg.chooseNBlocking nthr).isSome := fun _ => chooseBlocking_isSome.mpr
  have hsomeK : (arg.chooseKBlocking (arg.nthrKInit nthrs doKBlocking)).isSome :=
    chooseBlocking_isSome.mpr hkinit
  obtain ⟨k, hk⟩ := Option.isSome_iff_exists.mp hsomeK
  obtain ⟨hknthr, hkcovers⟩ := chooseKBlocking_spec h hk
  have hinit : 0 < nthrs / k.nthr := Nat.div_pos (hknthr.trans hkle) hkcovers.nthr_pos
  have hgrid : GridWithin (partition2dMinblk arg.m arg.n 64 64 arg.minMblk 32 (nthrs / k.nthr)) _ :=
    partition2dMinblk_within hinit hparts
  unfold GemmInfo.setThreadOptsPack
  rw [hk]
  simp only [Option.bind_eq_bind, Option.bind_some]
  generalize partition2dMinblk arg.m arg.n 64 64 arg.minMblk 32 (nthrs / k.nthr) = init at *
  obtain ⟨m, hm⟩ := Option.isSome_iff_exists.mp (hsomeM _ hgrid.pos_m)
  obtain ⟨n, hn⟩ := Option.isSome_iff_exists.mp (hsomeN _ hgrid.pos_n)
  obtain ⟨hmnthr, hmcovers⟩ := chooseMBlocking_spec h hm
  obtain ⟨hnnthr, hncovers⟩ := chooseNBlocking_spec h hn
  have hle : m.nthr * (n.nthr * k.nthr) ≤ nthrs := by
    have hmul := (Nat.mul_le_mul hmnthr hnnthr).trans hgrid.le
    rw [← Nat.mul_assoc]
    exact (Nat.mul_le_mul_right _ hmul).trans (Nat.div_mul_le_self _ _)
  rw [hm, hn, Option.bind_some, Option.bind_some]
  split_ifs
  · obtain ⟨m', hm', hmcovers', hle'⟩ := rebalance_spec n.nthr init.2 hsomeM
      (fun _ _ => chooseMBlocking_spec h) hmcovers hle
    rw [Nat.mul_left_comm] at hle'
    obtain ⟨n', hn', hncovers', hle''⟩ := rebalance_spec m'.nthr init.1 hsomeN
      (fun _ _ => chooseNBlocking_spec h) hncovers hle'
    rw [hm', Option.bind_some, hn']
    refine ⟨_, rfl, ?_, mnk3d_tiles hmcovers' hncovers' hkcovers⟩
    rw [GemmThreading.nthrs]
    dsimp only [GemmInfo.mnk3d]
    rwa [Nat.mul_comm m'.nthr, Nat.mul_assoc]
  · refine ⟨_, rfl, ?_, mnk3d_tiles hmcovers hncovers hkcovers⟩
    rw [GemmThreading.nthrs]
    dsimp only [GemmInfo.mnk3d]
    rwa [Nat.mul_assoc]

omit h in
/-- With an overflow there is a division by zero. -/
theorem setThreadOptsPack_of_overflow {nthrs : ℕ} (doKBlocking : Bool)
    (hparts : PartsOverflow arg.m arg.n arg.minMblk 32) :
    arg.setThreadOptsPack nthrs doKBlocking = none := by
  unfold GemmInfo.setThreadOptsPack
  cases arg.chooseKBlocking (arg.nthrKInit nthrs doKBlocking) with
  | none => rfl
  | some k =>
    simp only [Option.bind_eq_bind, Option.bind_some, partition2dMinblk_of_overflow hparts]
    rfl

end Pack

/-! ## `set_thread_opts_nopack` -/

theorem wrapInt_eq {x : ℤ} (hlo : -2 ^ 31 ≤ x) (hhi : x < 2 ^ 31) : wrapInt x = x := by
  unfold wrapInt
  omega

/-- What the loops that split a grid keep: the bands along `m` stay large and their number small. -/
structure GridShape (m nthrs nthrsM nthrsN : ℕ) : Prop where
  pos_m : 0 < nthrsM
  pos_n : 0 < nthrsN
  le : nthrsM * nthrsN ≤ nthrs
  few : nthrsM ≤ 8
  large : nthrsM = 1 ∨ 48 * nthrsM ≤ m

theorem splitGrid_inv {P : ℕ → ℕ → Prop} {cond : ℕ → ℕ → Bool}
    (hstep : ∀ a b, P a b → cond a b = true → P (a * 2) (b / 2)) (fuel : ℕ) {a b : ℕ} (h : P a b) :
    P (GemmInfo.splitGrid cond fuel a b).1 (GemmInfo.splitGrid cond fuel a b).2 := by
  induction fuel generalizing a b with
  | zero => exact h
  | succ fuel ih =>
    rw [GemmInfo.splitGrid]
    split_ifs with hcond
    · exact ih (hstep a b h hcond)
    · exact h

theorem GridShape.split {m nthrs a b : ℕ} (h : GridShape m nthrs a b) (hb : 1 < b) (ha : a ≤ 4)
    (hlarge : 96 * a ≤ m) : GridShape m nthrs (a * 2) (b / 2) where
  pos_m := Nat.mul_pos h.pos_m Nat.two_pos
  pos_n := Nat.div_pos hb Nat.two_pos
  le := by
    rw [Nat.mul_assoc]
    exact (Nat.mul_le_mul_left a (Nat.mul_div_le b 2)).trans h.le
  few := by omega
  large := Or.inr (by omega)

theorem GridShape.splitLarge {arg : GemmInfo} {nthrs a b : ℕ} (h : GridShape arg.m nthrs a b)
    (hcond : arg.splitLarge nthrs a b = true) : GridShape arg.m nthrs (a * 2) (b / 2) := by
  simp only [GemmInfo.splitLarge, decide_eq_true_eq] at hcond
  obtain ⟨heven, -, hm, ha⟩ := hcond
  have hpos := h.pos_n
  have hle := (Nat.le_div_iff_mul_le h.pos_m).mp hm
  exact h.split (by omega) (by omega) (by omega)

/-- As `m` is not much larger than `n`, a small `n` cannot be split often. -/
theorem GridShape.splitSmall {arg : GemmInfo} {nthrs a b : ℕ} (h : GridShape arg.m nthrs a b)
    (hum : arg.params.um = 48) (hun : arg.params.un = 8) (hmn : nthrs * arg.m < 256 * arg.n)
    (hcond : arg.splitSmall a b = true) : GridShape arg.m nthrs (a * 2) (b / 2) := by
  simp only [GemmInfo.splitSmall, decide_eq_true_eq, hum, hun] at hcond
  obtain ⟨hb, hn, hm⟩ := hcond
  have hle := (Nat.le_div_iff_mul_le h.pos_m).mp hm
  have hn : arg.n < 8 * b := (Nat.div_lt_iff_lt_mul h.pos_n).mp hn
  refine h.split hb ?_ (by omega)
  by_contra ha
  have hthreads : 5 * b ≤ nthrs := (Nat.mul_le_mul_right b (by omega)).trans h.le
  have hprod : 5 * b * 480 ≤ nthrs * arg.m := Nat.mul_le_mul hthreads (by omega)
  omega

theorem GridShape.pred_mul_lt {m nthrs a b : ℕ} (h : GridShape m nthrs a b) (hm : 0 < m) :
    (a - 1) * (m / a + 2) < m := by
  rcases h.large with rfl | hlarge
  · rwa [Nat.sub_self, Nat.zero_mul]
  · have hq : 48 ≤ m / a := (Nat.le_div_iff_mul_le h.pos_m).mpr hlarge
    have hle : a * (m / a) ≤ m := Nat.mul_div_le m a
    have hself : m / a ≤ a * (m / a) := Nat.le_mul_of_pos_left _ h.pos_m
    have hfew := h.few
    rw [Nat.mul_add, Nat.sub_one_mul]
    omega

section Nopack

variable {arg : GemmInfo} (h : arg.Initialised)

theorem unblocked_nthrs (a b : ℕ) (partition : PartitionType) (copy : CopyType) :
    (GemmInfo.unblocked a b partition copy).nthrs = a * b := Nat.mul_one _

include h

theorem GridShape.partitions {nthrs : ℕ} {grid : ℕ × ℕ} (hshape : GridShape arg.m nthrs grid.1 grid.2) :
    (GemmInfo.unblocked grid.1 grid.2 .colMajor2d .nonshared).Partitions arg nthrs :=
  ⟨(unblocked_nthrs _ _ _ _).trans_le hshape.le,
    GemmThreading.tiles_colMajor2d rfl rfl h.m_pos h.n_pos hshape.pos_m hshape.pos_n
      (Or.inl (bandingM_used_of_large h.m_pos hshape.pos_m (hshape.pred_mul_lt h.m_pos)))⟩

omit h in
/-- With few columns the product of the numbers of parts does not overflow. -/
theorem not_partsOverflow_of_few (hm : arg.m < 2 ^ 31) (hn : arg.n < 256)
    (hmin : arg.minMblk = 32) : ¬ PartsOverflow arg.m arg.n arg.minMblk 32 := by
  rw [hmin]
  rintro ⟨hM, hN, hwrap⟩
  have hle : arg.m / 32 * (arg.n / 32) ≤ arg.m / 32 * 7 := Nat.mul_le_mul_left _ (by omega)
  have hpos : 0 < arg.m / 32 * (arg.n / 32) := Nat.mul_pos (by omega) (by omega)
  rw [← Nat.cast_mul, wrapInt_eq (by omega) (by omega)] at hwrap
  omega

theorem setThreadOptsNopack_partitions (hm : arg.m < 2 ^ 31) {nthrs : ℕ} (hnthrs : 0 < nthrs)
    (syncable : Bool) :
    ∃ t, arg.setThreadOptsNopack nthrs syncable = some t ∧ t.Partitions arg nthrs := by
  have hinit : GridShape arg.m nthrs 1 nthrs :=
    ⟨Nat.one_pos, hnthrs, by omega, by omega, Or.inl rfl⟩
  unfold GemmInfo.setThreadOptsNopack
  dsimp only
  split_ifs with hbsrc hf32 hsmall hcopya hrow
  · exact ⟨_, rfl, GridShape.partitions h (splitGrid_inv (fun _ _ => GridShape.splitLarge) nthrs hinit)⟩
  · obtain ⟨hum, hun, -⟩ := h.sound.not_f32 hf32
    rw [Bool.and_eq_true, GemmInfo.condition2dBsrc, if_neg hf32, decide_eq_true_eq] at hbsrc
    refine ⟨_, rfl, GridShape.partitions h (splitGrid_inv (fun a b hshape hcond => ?_) nthrs hinit)⟩
    rcases Bool.or_eq_true_iff.mp hcond with hcond | hcond
    · exact hshape.splitSmall hum hun hbsrc.1.2 hcond
    · exact hshape.splitLarge hcond
  · have hmin : arg.minMblk = 32 := if_pos (h.sound.not_f32 hf32).2.2
    exact setThreadOptsPack_partitions h hnthrs false (not_partsOverflow_of_few hm (by omega) hmin)
  · refine ⟨_, rfl, by rw [unblocked_nthrs, Nat.one_mul], GemmThreading.tiles_col1d rfl ?_⟩
    rwa [unblocked_nthrs, Nat.one_mul]
  · refine ⟨_, rfl, by rw [unblocked_nthrs, Nat.mul_one], GemmThreading.tiles_row1d rfl ?_⟩
    rwa [unblocked_nthrs, Nat.mul_one]
  · refine ⟨_, rfl, by rw [unblocked_nthrs, Nat.one_mul], GemmThreading.tiles_col1d rfl ?_⟩
    rwa [unblocked_nthrs, Nat.one_mul]

end Nopack

/-! ## The chosen grids -/

/-- The grids that are chosen for `nthrs` threads have at most as many threads, and their slices tile the
iteration space. -/
def ChoosesPartitions (arg : GemmInfo) (nthrs : ℕ) (syncable : Bool) : Prop :=
  (∃ t, arg.setThreadOptsNopack nthrs syncable = some t ∧ t.Partitions arg nthrs) ∧
    ∀ doKBlocking, ∃ t, arg.setThreadOptsPack nthrs doKBlocking = some t ∧ t.Partitions arg nthrs

/-- The grids are sound if and only if the number of parts of a packed matrix does not overflow. -/
theorem choosesPartitions_iff {arg : GemmInfo} {nthrs : ℕ} (hm : 0 < arg.m ∧ arg.m < 2 ^ 31)
    (hn : 0 < arg.n ∧ arg.n < 2 ^ 31) (hk : 0 < arg.k ∧ arg.k < 2 ^ 31) (hnthrs : 0 < nthrs)
    (syncable : Bool) (hparams : jitInit arg.aType arg.isa = some arg.params) :
    ChoosesPartitions arg nthrs syncable ↔ ¬ PartsOverflow arg.m arg.n arg.minMblk 32 := by
  have h : arg.Initialised := ⟨hm.1, hn.1, hk.1, jitInit_sound hparams⟩
  constructor
  · rintro ⟨-, hpack⟩ hparts
    obtain ⟨t, ht, -⟩ := hpack true
    rw [setThreadOptsPack_of_overflow true hparts] at ht
    cases ht
  · intro hparts
    exact ⟨setThreadOptsNopack_partitions h hm.2 hnthrs syncable,
      fun doKBlocking => setThreadOptsPack_partitions h hnthrs doKBlocking hparts⟩

theorem choosesPartitions_iff_1000x300x5000 :
    ChoosesPartitions ⟨.s8, .avx512CoreVnni, 1000, 300, 5000, 0, ⟨48, 8, 1, 9984, 384, 1536⟩⟩ 28 true ↔
      ¬ PartsOverflow 1000 300 32 32 :=
  choosesPartitions_iff ⟨by decide, by decide⟩ ⟨by decide, by decide⟩ ⟨by decide, by decide⟩ (by decide) true
    rfl

/-- Packing a square matrix of `2 ^ 21` rows: both dimensions have `2 ^ 16` parts, whose product is zero
in an `int`. -/
theorem setThreadOptsPack_divides_by_zero :
    ¬ ChoosesPartitions
      ⟨.s8, .avx512CoreVnni, 2097152, 2097152, 1, 0, ⟨48, 8, 1, 9984, 384, 1536⟩⟩ 28 true := by
  rintro ⟨-, hpack⟩
  obtain ⟨t, ht, -⟩ := hpack true
  rw [setThreadOptsPack_of_overflow true (by decide)] at ht
  cases ht

end MklDnn

/-!
## Proofs: the grid determines the sizes

Operands that are packed for different numbers of threads can be used together if their grids are equal.
`choose_blocking` is idempotent: started from the number of threads that it has chosen it chooses the same
sizes. So the sizes depend on the final grid only, whatever grid the search has started from.
-/

namespace MklDnn

/-! ## Rounding up -/

theorem divUp_le_divUp {a a' b : ℕ} (hb : 0 < b) (h : a ≤ a') : divUp a b ≤ divUp a' b :=
  (divUp_le_iff hb).mpr (h.trans (le_divUp_mul a' hb))

theorem divUp_le_divUp_left {a b b' : ℕ} (hb : 0 < b) (h : b ≤ b') : divUp a b' ≤ divUp a b :=
  (divUp_le_iff (hb.trans_le h)).mpr ((le_divUp_mul a hb).trans (Nat.mul_le_mul_left _ h))

theorem rndUp_le_rndUp {a a' b : ℕ} (hb : 0 < b) (h : a ≤ a') : rndUp a b ≤ rndUp a' b :=
  Nat.mul_le_mul_right b (divUp_le_divUp hb h)

/-- A multiple is the least one above everything that it is above of. -/
theorem rndUp_le_of_dvd {a b c : ℕ} (hb : 0 < b) (hdvd : b ∣ c) (h : a ≤ c) : rndUp a b ≤ c := by
  obtain ⟨q, rfl⟩ := hdvd
  rw [rndUp_eq, Nat.mul_comm b]
  exact Nat.mul_le_mul_right b ((divUp_le_iff hb).mpr (Nat.mul_comm b q ▸ h))

/-! ## `choose_blocking` -/

section ChooseBlocking

variable {sizeZ nthrZ blockZInit blockAlign : ℕ} (hsize : 0 < sizeZ) (hinit : 0 < blockZInit)
  (halign : 0 < blockAlign) (hdvd : blockAlign ∣ blockZInit)

include hsize hinit halign hdvd

omit hsize in
/-- A share between that of a thread and the size of its slice has the same blocks. -/
theorem blocks_eq {y x : ℕ} (hy : 0 < y) (hyx : y ≤ x)
    (hx : x ≤ divUp y blockZInit * rndUp (divUp y (divUp y blockZInit)) blockAlign) :
    divUp x blockZInit = divUp y blockZInit ∧
      rndUp (divUp x (divUp x blockZInit)) blockAlign =
        rndUp (divUp y (divUp y blockZInit)) blockAlign := by
  have hnum : 0 < divUp y blockZInit := divUp_pos hy hinit
  have hblock : rndUp (divUp y (divUp y blockZInit)) blockAlign ≤ blockZInit := by
    refine rndUp_le_of_dvd halign hdvd ((divUp_le_iff hnum).mpr ?_)
    rw [Nat.mul_comm]
    exact le_divUp_mul y hinit
  have heq : divUp x blockZInit = divUp y blockZInit := by
    refine le_antisymm ((divUp_le_iff hinit).mpr ?_) (divUp_le_divUp hinit hyx)
    exact hx.trans (Nat.mul_le_mul_left _ hblock)
  refine ⟨heq, le_antisymm ?_ ?_⟩
  · rw [heq]
    refine rndUp_le_of_dvd halign (Dvd.intro_left _ rfl) ((divUp_le_iff hnum).mpr ?_)
    rwa [Nat.mul_comm]
  · rw [heq]
    exact rndUp_le_rndUp halign (divUp_le_divUp hnum hyx)

/-- Started from the number of threads it has chosen, `choose_blocking` chooses the same. -/
theorem chooseBlocking_idem {z : DimBlocking}
    (h : chooseBlocking sizeZ nthrZ blockZInit blockAlign = some z) :
    chooseBlocking sizeZ z.nthr blockZInit blockAlign = some z := by
  obtain ⟨hle, hcovers⟩ := chooseBlocking_spec hsize hinit halign h
  have hnthr := hcovers.nthr_pos
  have hshare : divUp sizeZ nthrZ ≤ divUp sizeZ z.nthr := divUp_le_divUp_left hnthr hle
  have hslice : divUp sizeZ z.nthr ≤ z.thread :=
    (divUp_le_iff hnthr).mpr (Nat.mul_comm z.nthr z.thread ▸ hcovers.le)
  have hlost : divUp sizeZ z.thread = z.nthr := by
    refine le_antisymm ((divUp_le_iff hcovers.thread_pos).mpr hcovers.le) ?_
    by_contra hlt
    have hmul : divUp sizeZ z.thread * z.thread ≤ (z.nthr - 1) * z.thread :=
      Nat.mul_le_mul_right _ (by omega)
    have hcover := le_divUp_mul sizeZ hcovers.thread_pos
    have hlast := hcovers.last_lt
    omega
  unfold chooseBlocking at h ⊢
  split_ifs at h with h0
  obtain rfl := Option.some.inj h
  dsimp only at hnthr hshare hslice hlost ⊢
  obtain ⟨hnum, hblock⟩ := blocks_eq hinit halign hdvd
    (divUp_pos hsize (Nat.pos_of_ne_zero h0)) hshare hslice
  rw [if_neg (Nat.pos_iff_ne_zero.mp hnthr), hblock, hnum]
  refine congrArg some ?_
  rw [DimBlocking.mk.injEq]
  refine ⟨?_, rfl, rfl⟩
  rw [ite_eq_right_iff]
  exact fun _ => hlost

end ChooseBlocking

/-! ## `set_thread_opts_pack` -/

section Pack

variable {arg : GemmInfo} (h : arg.Initialised)

/-- The sizes along a dimension are those chosen for the final number of threads. -/
def Settled (choose : ℕ → Option DimBlocking) (z : DimBlocking) : Prop := choose z.nthr = some z

include h

theorem settled_m {nthrM : ℕ} {z : DimBlocking} (hz : arg.chooseMBlocking nthrM = some z) :
    Settled arg.chooseMBlocking z :=
  chooseBlocking_idem h.m_pos h.sound.bm_pos h.sound.alignM_pos h.sound.alignM_dvd hz

theorem settled_n {nthrN : ℕ} {z : DimBlocking} (hz : arg.chooseNBlocking nthrN = some z) :
    Settled arg.chooseNBlocking z :=
  chooseBlocking_idem h.n_pos h.sound.bn_pos h.sound.un_pos h.sound.alignN_dvd hz

theorem settled_k {nthrK : ℕ} {z : DimBlocking} (hz : arg.chooseKBlocking nthrK = some z) :
    Settled arg.chooseKBlocking z :=
  chooseBlocking_idem h.k_pos h.sound.bk_pos (by omega) h.sound.alignK_dvd hz

omit h in
theorem rebalance_settled {nthrLost nthrInit nthrOther nthrs : ℕ} {choose : ℕ → Option DimBlocking}
    {z z' : DimBlocking} (hchoose : ∀ nthr z, choose nthr = some z → Settled choose z)
    (hz : Settled choose z) (hz' : GemmInfo.rebalance nthrLost nthrInit nthrOther nthrs choose z = some z') :
    Settled choose z' := by
  unfold GemmInfo.rebalance at hz'
  split_ifs at hz'
  · exact hchoose _ _ hz'
  · exact Option.some.inj hz' ▸ hz

/-- The sizes of a chosen grid are settled in every dimension. -/
theorem setThreadOptsPack_settled {nthrs : ℕ} {doKBlocking : Bool} {t : GemmThreading}
    (ht : arg.setThreadOptsPack nthrs doKBlocking = some t) :
    ∃ m n k, t = GemmInfo.mnk3d m n k ∧ Settled arg.chooseMBlocking m ∧ Settled arg.chooseNBlocking n ∧
      Settled arg.chooseKBlocking k := by
  unfold GemmInfo.setThreadOptsPack at ht
  obtain ⟨k, hk, ht⟩ := Option.bind_eq_some_iff.mp ht
  obtain ⟨m, hm, ht⟩ := Option.bind_eq_some_iff.mp ht
  obtain ⟨n, hn, ht⟩ := Option.bind_eq_some_iff.mp ht
  split_ifs at ht
  · obtain ⟨m', hm', ht⟩ := Option.bind_eq_some_iff.mp ht
    obtain ⟨n', hn', ht⟩ := Option.bind_eq_some_iff.mp ht
    exact ⟨m', n', k, (Option.some.inj ht).symm,
      rebalance_settled (fun _ _ => settled_m h) (settled_m h hm) hm',
      rebalance_settled (fun _ _ => settled_n h) (settled_n h hn) hn', settled_k h hk⟩
  · exact ⟨m, n, k, (Option.some.inj ht).symm, settled_m h hm, settled_n h hn, settled_k h hk⟩

omit h in
theorem Settled.ext {choose : ℕ → Option DimBlocking} {z z' : DimBlocking} (hz : Settled choose z)
    (hz' : Settled choose z') (hnthr : z.nthr = z'.nthr) : z = z' := by
  unfold Settled at hz hz'
  rw [hnthr, hz'] at hz
  exact (Option.some.inj hz).symm

end Pack

/-- Equal grids that are chosen for the same matrices and different numbers of threads have the same sizes,
and so the same slices. -/
theorem setThreadOptsPack_eq_sound {arg : GemmInfo} {nthrs1 nthrs2 : ℕ} {t1 t2 : GemmThreading}
    (hm : 0 < arg.m) (hn : 0 < arg.n) (hk : 0 < arg.k)
    (hparams : jitInit arg.aType arg.isa = some arg.params)
    (h1 : arg.setThreadOptsPack nthrs1 true = some t1) (h2 : arg.setThreadOptsPack nthrs2 true = some t2)
    (heq : t1.eq t2 = true) :
    (t1.threadM = t2.threadM ∧ t1.threadN = t2.threadN ∧ t1.threadK = t2.threadK) ∧
      (t1.blockM = t2.blockM ∧ t1.blockN = t2.blockN ∧ t1.blockK = t2.blockK) ∧
      ∀ ithr, t1.getThreadSlice ithr arg.m arg.n arg.k = t2.getThreadSlice ithr arg.m arg.n arg.k := by
  have h : arg.Initialised := ⟨hm, hn, hk, jitInit_sound hparams⟩
  obtain ⟨m1, n1, k1, rfl, hm1, hn1, hk1⟩ := setThreadOptsPack_settled h h1
  obtain ⟨m2, n2, k2, rfl, hm2, hn2, hk2⟩ := setThreadOptsPack_settled h h2
  simp only [GemmThreading.eq, GemmInfo.mnk3d, decide_eq_true_eq] at heq
  obtain ⟨hnm, hnn, hnk, -, -⟩ := heq
  obtain rfl := hm1.ext hm2 hnm
  obtain rfl := hn1.ext hn2 hnn
  obtain rfl := hk1.ext hk2 hnk
  exact ⟨⟨rfl, rfl, rfl⟩, ⟨rfl, rfl, rfl⟩, fun _ => rfl⟩

/-- Five and six threads: of the six slices that are asked for five are left. -/
theorem setThreadOptsPack_eq_sound_200x10x8 :
    let arg : GemmInfo := ⟨.s8, .avx512CoreVnni, 200, 10, 8, 0, ⟨48, 8, 1, 9984, 384, 1536⟩⟩
    ∃ t1 t2, arg.setThreadOptsPack 5 true = some t1 ∧ arg.setThreadOptsPack 6 true = some t2 ∧
      (t1.threadM = t2.threadM ∧ t1.threadN = t2.threadN ∧ t1.threadK = t2.threadK) ∧
      (t1.blockM = t2.blockM ∧ t1.blockN = t2.blockN ∧ t1.blockK = t2.blockK) ∧
      ∀ ithr, t1.getThreadSlice ithr arg.m arg.n arg.k = t2.getThreadSlice ithr arg.m arg.n arg.k := by
  intro arg
  have h5 : arg.setThreadOptsPack 5 true = some ⟨5, 1, 1, 48, 16, 8, 48, 16, 8, .mnk3d, .nonshared⟩ := by
    decide +kernel
  have h6 : arg.setThreadOptsPack 6 true = some ⟨5, 1, 1, 48, 16, 8, 48, 16, 8, .mnk3d, .nonshared⟩ := by
    decide +kernel
  exact ⟨_, _, h5, h6, setThreadOptsPack_eq_sound (by decide) (by decide) (by decide) rfl h5 h6 rfl⟩

end MklDnn
