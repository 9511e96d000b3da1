import MklDnn.Common.Proofs.ThreadingProofs
import MklDnn.Conv.BwdWeights
import MklDnn.Lib.Sums

/-!
# Proofs: weights of a convolution by GEMM, backward

The threads form a grid of `nthr_g` by `nthr_mb` threads. If there is more than one thread for a group, then
there is a row of threads for every group, and the threads of a row share the reduction.
-/

open LoopNest Interleaving

namespace MklDnn.GemmConvolutionBwdWeights

open JitGemmConvolutionUtils

variable {R : Type*} [AddCommMonoid R] {jcp : JitGemmConvConf} {nthr p g s : ℕ} {product : ℕ → ℕ → ℕ → ℕ → R}

/-! ## The grid of threads -/

/-- The number of rows of the grid. -/
def teamG (jcp : JitGemmConvConf) (nthr : ℕ) : ℕ := min jcp.ngroups nthr

/-- The number of threads in a row. -/
def teamMb (jcp : JitGemmConvConf) (nthr : ℕ) : ℕ :=
  min (if jcp.needWeiReduction then jcp.mb else 1) (nthr / teamG jcp nthr)

theorem balance_eq (p : ℕ) : balance jcp nthr p =
    if jcp.ngroups ≤ p / teamMb jcp nthr then ⟨-1, teamG jcp nthr, -1, teamMb jcp nthr⟩
    else ⟨(p / teamMb jcp nthr : ℕ), teamG jcp nthr, (p % teamMb jcp nthr : ℕ), teamMb jcp nthr⟩ := rfl

@[simp] theorem balance_nthrG (p : ℕ) : (balance jcp nthr p).nthrG = teamG jcp nthr := by
  rw [balance_eq]
  split_ifs <;> rfl

@[simp] theorem balance_nthrMb (p : ℕ) : (balance jcp nthr p).nthrMb = teamMb jcp nthr := by
  rw [balance_eq]
  split_ifs <;> rfl

theorem hasWork_iff : hasWork jcp nthr p = true ↔ p / teamMb jcp nthr < jcp.ngroups := by
  unfold hasWork
  rw [balance_eq, decide_eq_true_eq]
  generalize p / teamMb jcp nthr = i
  generalize p % teamMb jcp nthr = j
  split_ifs with h
  · constructor
    · intro hwork
      exact absurd rfl hwork.1
    · intro hlt
      omega
  · constructor
    · intro _
      omega
    · intro _
      constructor
      · show (i : ℤ) ≠ -1
        omega
      · show (j : ℤ) ≠ -1
        omega

theorem needReduction_eq (p : ℕ) : needReduction jcp nthr p = decide (teamMb jcp nthr ≠ 1) := by
  unfold needReduction
  rw [balance_nthrMb]

/-- The row of a thread with work. -/
theorem ithrG_eq (h : hasWork jcp nthr p = true) : (balance jcp nthr p).ithrG.toNat = p / teamMb jcp nthr := by
  rw [hasWork_iff] at h
  rw [balance_eq, if_neg (Nat.not_le.mpr h)]
  exact Int.toNat_natCast _

/-- The place of a thread with work in its row. -/
theorem ithrMb_eq (h : hasWork jcp nthr p = true) : (balance jcp nthr p).ithrMb.toNat = p % teamMb jcp nthr := by
  rw [hasWork_iff] at h
  rw [balance_eq, if_neg (Nat.not_le.mpr h)]
  exact Int.toNat_natCast _

theorem gRange_eq (h : hasWork jcp nthr p = true) :
    gRange jcp nthr p = balance211 jcp.ngroups (teamG jcp nthr) (p / teamMb jcp nthr) := by
  unfold gRange
  rw [balance_nthrG, ithrG_eq h]

theorem mbRange_eq (h : hasWork jcp nthr p = true) :
    mbRange jcp nthr p = balance211 jcp.mb (teamMb jcp nthr) (p % teamMb jcp nthr) := by
  unfold mbRange
  rw [balance_nthrMb, ithrMb_eq h]

theorem reduceBase_eq (h : hasWork jcp nthr p = true) :
    reduceBase jcp nthr p = p / teamMb jcp nthr * teamMb jcp nthr * weightsGSize jcp := by
  unfold reduceBase
  rw [balance_nthrMb, ithrG_eq h]

/-- A convolution with groups and images, and a team. -/
structure Shape (jcp : JitGemmConvConf) (nthr : ℕ) : Prop where
  ngroups : 0 < jcp.ngroups
  mb : 0 < jcp.mb
  od : 0 < jcp.od
  nthr : 0 < nthr

section Grid

variable (h : Shape jcp nthr)

include h

theorem Shape.teamG_pos : 0 < teamG jcp nthr := Nat.lt_min.mpr ⟨h.ngroups, h.nthr⟩

theorem Shape.teamMb_pos : 0 < teamMb jcp nthr := by
  apply Nat.lt_min.mpr
  constructor
  · split_ifs
    · exact h.mb
    · exact Nat.one_pos
  · exact Nat.div_pos (Nat.min_le_right _ _) h.teamG_pos

/-- Every thread of a row has an image. -/
theorem Shape.teamMb_le : teamMb jcp nthr ≤ jcp.mb := by
  refine (Nat.min_le_left _ _).trans ?_
  split_ifs
  · exact Nat.le_refl _
  · exact h.mb

omit h in
/-- The grid is in the team. -/
theorem grid_le : teamG jcp nthr * teamMb jcp nthr ≤ nthr := by
  have hle : teamMb jcp nthr ≤ nthr / teamG jcp nthr := Nat.min_le_right _ _
  calc teamG jcp nthr * teamMb jcp nthr ≤ teamG jcp nthr * (nthr / teamG jcp nthr) := Nat.mul_le_mul_left _ hle
    _ ≤ nthr := Nat.mul_div_le _ _

/-- If a row has more than one thread, then every group has a row. -/
theorem Shape.teamG_eq (hred : teamMb jcp nthr ≠ 1) : teamG jcp nthr = jcp.ngroups := by
  have hpos := h.teamMb_pos
  have hgrid := @grid_le jcp nthr
  have htwo : teamG jcp nthr * 2 ≤ teamG jcp nthr * teamMb jcp nthr := Nat.mul_le_mul_left _ (by omega)
  have hG := h.teamG_pos
  unfold teamG at *
  omega

/-- A thread with work is in the grid. -/
theorem Shape.row_lt (hp : p < nthr) (hwork : hasWork jcp nthr p = true) : p / teamMb jcp nthr < teamG jcp nthr := by
  rw [hasWork_iff] at hwork
  by_cases hred : teamMb jcp nthr = 1
  · rw [hred, Nat.div_one] at hwork ⊢
    exact Nat.lt_min.mpr ⟨hwork, hp⟩
  · rw [h.teamG_eq hred]
    exact hwork

/-- The thread in row `i` and column `j` of the grid. -/
theorem Shape.thread {i j : ℕ} (hi : i < teamG jcp nthr) (hj : j < teamMb jcp nthr) :
    i * teamMb jcp nthr + j < nthr ∧ hasWork jcp nthr (i * teamMb jcp nthr + j) = true ∧
      (i * teamMb jcp nthr + j) / teamMb jcp nthr = i ∧ (i * teamMb jcp nthr + j) % teamMb jcp nthr = j := by
  have hdiv : (i * teamMb jcp nthr + j) / teamMb jcp nthr = i := by
    rw [Nat.mul_comm, Nat.mul_add_div h.teamMb_pos, Nat.div_eq_of_lt hj, Nat.add_zero]
  have hmod : (i * teamMb jcp nthr + j) % teamMb jcp nthr = j := by
    rw [Nat.mul_comm, Nat.mul_add_mod, Nat.mod_eq_of_lt hj]
  refine ⟨?_, ?_, hdiv, hmod⟩
  · have hrow : (i + 1) * teamMb jcp nthr ≤ teamG jcp nthr * teamMb jcp nthr := Nat.mul_le_mul_right _ hi
    have hgrid := @grid_le jcp nthr
    rw [Nat.succ_mul] at hrow
    omega
  · rw [hasWork_iff, hdiv]
    exact hi.trans_le (Nat.min_le_left _ _)

end Grid

/-! ## Groups and images -/

/-- The thread computes the product of image `mb` for group `g`. -/
def Owns (jcp : JitGemmConvConf) (nthr p g mb : ℕ) : Prop :=
  hasWork jcp nthr p = true ∧ ((gRange jcp nthr p).1 ≤ g ∧ g < (gRange jcp nthr p).2) ∧
    ((mbRange jcp nthr p).1 ≤ mb ∧ mb < (mbRange jcp nthr p).2)

theorem Shape.exists_owner (h : Shape jcp nthr) {mb : ℕ} (hg : g < jcp.ngroups) (hmb : mb < jcp.mb) :
    ∃ p < nthr, Owns jcp nthr p g mb := by
  obtain ⟨i, hi, hgi⟩ := exists_balance211 h.teamG_pos hg
  obtain ⟨j, hj, hmbj⟩ := exists_balance211 h.teamMb_pos hmb
  obtain ⟨hp, hwork, hdiv, hmod⟩ := h.thread hi hj
  refine ⟨i * teamMb jcp nthr + j, hp, hwork, ?_, ?_⟩
  · rw [gRange_eq hwork, hdiv]
    exact hgi
  · rw [mbRange_eq hwork, hmod]
    exact hmbj

theorem Shape.owner_unique (h : Shape jcp nthr) {mb q : ℕ} (hp : p < nthr) (hq : q < nthr) (hpo : Owns jcp nthr p g mb)
    (hqo : Owns jcp nthr q g mb) : p = q := by
  obtain ⟨hpw, hpg, hpm⟩ := hpo
  obtain ⟨hqw, hqg, hqm⟩ := hqo
  rw [gRange_eq hpw] at hpg
  rw [gRange_eq hqw] at hqg
  rw [mbRange_eq hpw] at hpm
  rw [mbRange_eq hqw] at hqm
  have hrow := balance211_unique (h.row_lt hp hpw) (h.row_lt hq hqw) hpg hqg
  have hcol := balance211_unique (Nat.mod_lt _ h.teamMb_pos) (Nat.mod_lt _ h.teamMb_pos) hpm hqm
  rw [← Nat.div_add_mod p (teamMb jcp nthr), hrow, hcol, Nat.div_add_mod]

/-- As many threads as iterations. -/
theorem balance211_self {n i : ℕ} (hi : i < n) : balance211 n n i = (i, i + 1) := by
  rcases Nat.lt_or_ge 1 n with hn | hn
  · have hup : divUp n n = 1 := by
      unfold divUp
      rw [Nat.div_eq_of_lt_le] <;> omega
    have hfst : ∀ i ≤ n, (balance211 n n i).1 = i := by
      intro i hi
      rw [balance211_fst_eq hn (by omega), hup]
      omega
    exact Prod.ext (hfst i hi.le) (by rw [balance211_snd_eq hn (by omega), hfst (i + 1) hi])
  · obtain rfl : n = 1 := by omega
    obtain rfl : i = 0 := by omega
    rfl

/-- No thread is left without work if there are not more threads than iterations. -/
theorem balance211_lt {n team i : ℕ} (hle : team ≤ n) (hi : i < team) :
    (balance211 n team i).1 < (balance211 n team i).2 := by
  rcases Nat.lt_or_ge 1 team with h1 | h1
  · have hmul : team * 1 ≤ team * (divUp n team - 1) ∨ divUp n team = 1 := by
      rcases Nat.lt_or_ge 1 (divUp n team) with hup | hup
      · exact Or.inl (Nat.mul_le_mul_left _ (by omega))
      · have hpos : 0 < divUp n team := divUp_pos (by omega) (by omega)
        exact Or.inr (by omega)
    rw [balance211_snd_eq h1 (by omega), balance211_fst_eq h1 (by omega), balance211_fst_eq h1 (by omega),
      Nat.add_mul, Nat.one_mul]
    rcases hmul with hmul | hup
    · have hpos : 0 < divUp n team - 1 := Nat.pos_of_ne_zero fun h0 => by
        rw [h0] at hmul
        omega
      omega
    · rw [hup]
      omega
  · unfold balance211
    rw [if_pos (Or.inl h1)]
    show 0 < n
    omega

theorem Shape.mbRange_lt (h : Shape jcp nthr) (hwork : hasWork jcp nthr p = true) :
    (mbRange jcp nthr p).1 < (mbRange jcp nthr p).2 := by
  rw [mbRange_eq hwork]
  exact balance211_lt h.teamMb_le (Nat.mod_lt _ h.teamMb_pos)

/-- A thread that reduces has one group. -/
theorem Shape.gRange_of_needReduction (h : Shape jcp nthr) (hwork : hasWork jcp nthr p = true)
    (hred : needReduction jcp nthr p = true) :
    gRange jcp nthr p = (p / teamMb jcp nthr, p / teamMb jcp nthr + 1) := by
  rw [needReduction_eq, decide_eq_true_eq] at hred
  rw [gRange_eq hwork, h.teamG_eq hred]
  exact balance211_self (hasWork_iff.mp hwork)

/-! ## Barriers -/

theorem barriers_eq (product : ℕ → ℕ → ℕ → ℕ → R) (syncable : Bool) (p : ℕ) :
    barriers jcp product syncable nthr p = if teamMb jcp nthr ≠ 1 ∧ syncable = true then 1 else 0 := by
  unfold barriers section1
  rw [needReduction_eq]
  by_cases hred : teamMb jcp nthr = 1 <;> cases syncable <;> split_ifs <;> simp_all

/-! ## The products -/

theorem weightsDst_inj : ∀ s s', weightsDst jcp nthr p g s = weightsDst jcp nthr p g s' → s = s' := by
  intro s s' heq
  unfold weightsDst at heq
  split_ifs at heq
  · injection heq with heq
    omega
  · injection heq with heq
    omega

/-- The products that a thread computes for a group, one after the other. -/
def steps (jcp : JitGemmConvConf) (a b : ℕ) : List (ℕ × ℕ) :=
  (List.range' a (b - a)).flatMap fun mb => (List.range jcp.od).map fun od => (mb, od)

theorem gemms_eq (product : ℕ → ℕ → ℕ → ℕ → R) (p g : ℕ) :
    gemms jcp product nthr p g = (steps jcp (mbRange jcp nthr p).1 (mbRange jcp nthr p).2).flatMap fun x =>
      accumulate (x.1 = (mbRange jcp nthr p).1 ∧ x.2 = 0) (weightsGSize jcp) (weightsDst jcp nthr p g) fun s _ =>
        product g x.1 x.2 s := by
  unfold gemms steps
  rw [List.flatMap_assoc]
  simp only [List.flatMap_map]

/-- The first product replaces what is there, the others add to it. -/
theorem steps_eq_cons {a b : ℕ} (hab : a < b) (hod : 0 < jcp.od) :
    ∃ rest, steps jcp a b = (a, 0) :: rest ∧ ∀ x ∈ rest, ¬ (x.1 = a ∧ x.2 = 0) := by
  obtain ⟨k, hk⟩ : ∃ k, b - a = k + 1 := ⟨b - a - 1, by omega⟩
  obtain ⟨d, hd⟩ : ∃ d, jcp.od = d + 1 := ⟨jcp.od - 1, by omega⟩
  refine ⟨(List.range' 1 d).map (fun od => (a, od)) ++
    (List.range' (a + 1) k).flatMap fun mb => (List.range jcp.od).map fun od => (mb, od), ?_, ?_⟩
  · unfold steps
    rw [hk, List.range'_succ, List.flatMap_cons, hd, List.range_eq_range', List.range'_succ, List.map_cons,
      List.cons_append]
  · intro x hx
    rw [List.mem_append, List.mem_map, List.mem_flatMap] at hx
    rcases hx with ⟨od, hod, rfl⟩ | ⟨mb, hmb, hx⟩
    · rw [List.mem_range'_1] at hod
      dsimp only
      omega
    · obtain ⟨od, -, rfl⟩ := List.mem_map.mp hx
      rw [List.mem_range'_1] at hmb
      dsimp only
      omega

/-- What a thread adds up for a group. -/
def partialSum (jcp : JitGemmConvConf) (product : ℕ → ℕ → ℕ → ℕ → R) (r : ℕ × ℕ) (g s : ℕ) : R :=
  ((List.range' r.1 (r.2 - r.1)).map fun mb => ∑ od ∈ Finset.range jcp.od, product g mb od s).sum

theorem sum_steps (r : ℕ × ℕ) (g s : ℕ) :
    ((steps jcp r.1 r.2).map fun x => product g x.1 x.2 s).sum = partialSum jcp product r g s := by
  unfold steps partialSum
  generalize List.range' r.1 (r.2 - r.1) = l
  induction l with
  | nil => rfl
  | cons mb l ih =>
    rw [List.flatMap_cons, List.map_append, List.sum_append, ih, sum_map_range, List.map_cons, List.sum_cons]

theorem execAll_gemms (hod : 0 < jcp.od) (hmb : (mbRange jcp nthr p).1 < (mbRange jcp nthr p).2) (m : Elem → R)
    (hs : s < weightsGSize jcp) :
    execAll (gemms jcp product nthr p g) m (weightsDst jcp nthr p g s) =
      partialSum jcp product (mbRange jcp nthr p) g s := by
  obtain ⟨rest, hsteps, hrest⟩ := steps_eq_cons hmb hod
  rw [← sum_steps, gemms_eq, hsteps]
  apply execAll_accumulate_cons weightsDst_inj
  · intro _ _ _ _ _
    rfl
  · rw [decide_eq_true_eq]
    exact ⟨rfl, rfl⟩
  · intro x hx
    rw [decide_eq_false_iff_not]
    exact hrest x hx
  · exact hs

/-- The products assign to the weights of the group, from what is there. -/
theorem mem_gemms {e : Assign Elem R} (he : e ∈ gemms jcp product nthr p g) :
    (∃ s < weightsGSize jcp, e.dst = weightsDst jcp nthr p g s) ∧ e.Local := by
  rw [gemms_eq, List.mem_flatMap] at he
  obtain ⟨x, -, he⟩ := he
  obtain ⟨s, hs, hdst, hvalue⟩ := mem_accumulate he
  refine ⟨⟨s, hs, hdst⟩, fun m m' hm => hvalue m m' ?_ rfl⟩
  rw [← hdst]
  exact hm

/-- The whole sum, over all images. -/
def totalSum (jcp : JitGemmConvConf) (product : ℕ → ℕ → ℕ → ℕ → R) (g s : ℕ) : R :=
  ∑ mb ∈ Finset.range jcp.mb, ∑ od ∈ Finset.range jcp.od, product g mb od s

/-- The partial sums of a row of threads add up to the whole sum. -/
theorem sum_partialSum {t : ℕ} (ht : 0 < t) (g s : ℕ) :
    ∑ k ∈ Finset.range t, partialSum jcp product (balance211 jcp.mb t k) g s = totalSum jcp product g s := by
  unfold partialSum totalSum
  rw [← sum_map_flatMap, flatMap_balance211 _ ht]
  have hwhole := sum_map_range jcp.mb id fun mb => ∑ od ∈ Finset.range jcp.od, product g mb od s
  rw [List.map_id] at hwhole
  exact hwhole

/-! ## One thread for a group -/

section NoReduction

variable (hred : teamMb jcp nthr = 1)

include hred

theorem weightsDst_eq_diffWeights (p g s : ℕ) : weightsDst jcp nthr p g s = .diffWeights (g * weightsGSize jcp + s) := by
  unfold weightsDst
  rw [needReduction_eq, hred]
  rfl

theorem mbRange_eq_all (hwork : hasWork jcp nthr p = true) : mbRange jcp nthr p = (0, jcp.mb) := by
  rw [mbRange_eq hwork, hred]
  rfl

theorem gemms_eq_gemms_zero (hwork : hasWork jcp nthr p = true) (h0 : hasWork jcp nthr 0 = true) (g : ℕ) :
    gemms jcp product nthr p g = gemms jcp product nthr 0 g := by
  have hdst : weightsDst jcp nthr p g = weightsDst jcp nthr 0 g := by
    funext s
    rw [weightsDst_eq_diffWeights hred, weightsDst_eq_diffWeights hred]
  rw [gemms_eq, gemms_eq, mbRange_eq_all hred hwork, mbRange_eq_all hred h0, hdst]

theorem raceFree_gemms : Interleaving.RaceFree (gemms jcp product nthr 0) := by
  apply Interleaving.RaceFree.of_local
  · intro g e he g' hne e' he' heq
    obtain ⟨⟨s, hs, hdst⟩, -⟩ := mem_gemms he
    obtain ⟨⟨s', hs', hdst'⟩, -⟩ := mem_gemms he'
    rw [hdst, hdst', weightsDst_eq_diffWeights hred, weightsDst_eq_diffWeights hred] at heq
    injection heq with heq
    exact hne (add_mul_inj hs' hs (by omega)).2
  · intro g e he
    exact (mem_gemms he).2

theorem Shape.execAll_products (h : Shape jcp nthr) {o : List (ℕ × Assign Elem R)}
    (ho : IsOrder (fun p => if p < nthr then products jcp product nthr p else []) o) (m : Elem → R)
    (hg : g < jcp.ngroups) (hs : s < weightsGSize jcp) :
    execAll (o.map Prod.snd) m (.diffWeights (g * weightsGSize jcp + s)) = totalSum jcp product g s := by
  have h0 : hasWork jcp nthr 0 = true := by
    rw [hasWork_iff, Nat.zero_div]
    exact h.ngroups
  -- the groups of a thread
  let iters (p : ℕ) : List ℕ := if p < nthr ∧ hasWork jcp nthr p = true then
    List.range' (gRange jcp nthr p).1 ((gRange jcp nthr p).2 - (gRange jcp nthr p).1) else []
  have hmem : ∀ p, ∀ g ∈ iters p, p < nthr ∧ Owns jcp nthr p g 0 := by
    intro p g hg
    dsimp only [iters] at hg
    split_ifs at hg with hp
    · rw [List.mem_range'_1] at hg
      refine ⟨hp.1, hp.2, ⟨hg.1, by omega⟩, ?_⟩
      rw [mbRange_eq_all hred hp.2]
      exact ⟨Nat.le_refl 0, h.mb⟩
    · cases hg
  have hprogs : (fun p => if p < nthr then products jcp product nthr p else []) =
      fun p => (iters p).flatMap (gemms jcp product nthr 0) := by
    funext p
    dsimp only [iters, products]
    by_cases hp : p < nthr
    · by_cases hwork : hasWork jcp nthr p = true
      · rw [if_pos hp, if_pos hwork, if_pos ⟨hp, hwork⟩]
        exact List.flatMap_congr fun g _ => gemms_eq_gemms_zero hred hwork h0 g
      · rw [if_pos hp, if_neg hwork, if_neg fun hboth => hwork hboth.2]
        rfl
    · rw [if_neg hp, if_neg fun hboth => hp hboth.1]
      rfl
  rw [hprogs] at ho
  obtain ⟨p, hp, hwork, hgp, -⟩ := h.exists_owner hg h.mb
  have hgmem : g ∈ iters p := by
    dsimp only [iters]
    rw [if_pos ⟨hp, hwork⟩, List.mem_range'_1]
    exact ⟨hgp.1, by omega⟩
  have hpriv : Private (gemms jcp product nthr 0) g (.diffWeights (g * weightsGSize jcp + s)) := by
    intro g' hne e he heq
    obtain ⟨⟨s', hs', hdst⟩, -⟩ := mem_gemms he
    rw [hdst, weightsDst_eq_diffWeights hred] at heq
    injection heq with heq
    exact hne (add_mul_inj hs' hs (by omega)).2
  have hnd : ∀ p, (iters p).Nodup := by
    intro p
    dsimp only [iters]
    split_ifs
    · exact List.nodup_range'
    · exact List.nodup_nil
  have hdisj : ∀ p q, p ≠ q → ∀ g ∈ iters p, g ∉ iters q := by
    intro p q hpq g hgp hgq
    obtain ⟨hp, hpo⟩ := hmem p g hgp
    obtain ⟨hq, hqo⟩ := hmem q g hgq
    exact hpq (h.owner_unique hp hq hpo hqo)
  have hmb : mbRange jcp nthr 0 = (0, jcp.mb) := mbRange_eq_all hred h0
  rw [(raceFree_gemms hred).execAll_threads hnd hdisj ho hgmem hpriv, ← weightsDst_eq_diffWeights hred 0,
    execAll_gemms h.od (by rw [hmb]; exact h.mb) m hs, hmb, ← sum_partialSum Nat.one_pos]
  exact (Finset.sum_range_one fun k => partialSum jcp product (balance211 jcp.mb 1 k) g s).symm

end NoReduction

/-! ## A row of threads for a group -/

section Reduction

variable (hred : teamMb jcp nthr ≠ 1)

include hred

/-- The partial results of the threads follow one another. -/
theorem weightsDst_eq_weiReduction (hwork : hasWork jcp nthr p = true) (g s : ℕ) :
    weightsDst jcp nthr p g s = .weiReduction (p * weightsGSize jcp + s) := by
  unfold weightsDst
  rw [needReduction_eq, decide_eq_true hred, if_pos rfl, reduceBase_eq hwork, ithrMb_eq hwork, ← Nat.add_mul,
    Nat.div_add_mod']

theorem Shape.products_eq (h : Shape jcp nthr) (hwork : hasWork jcp nthr p = true) :
    products jcp product nthr p = gemms jcp product nthr p (p / teamMb jcp nthr) := by
  have hrange := h.gRange_of_needReduction hwork (by rw [needReduction_eq, decide_eq_true hred])
  unfold products
  rw [if_pos hwork]
  dsimp only
  rw [hrange, Nat.add_sub_cancel_left, List.range'_one, List.flatMap_cons, List.flatMap_nil, List.append_nil]

/-- After the products, `wei_reduction` holds the partial sums of the threads. -/
theorem Shape.execAll_partial (h : Shape jcp nthr) {o : List (ℕ × Assign Elem R)}
    (ho : IsOrder (fun p => if p < nthr then products jcp product nthr p else []) o) (m : Elem → R)
    (hp : p < nthr) (hwork : hasWork jcp nthr p = true) (hs : s < weightsGSize jcp) :
    execAll (o.map Prod.snd) m (.weiReduction (p * weightsGSize jcp + s)) =
      partialSum jcp product (mbRange jcp nthr p) (p / teamMb jcp nthr) s := by
  have hmem : ∀ q, ∀ e ∈ (if q < nthr then products jcp product nthr q else []),
      (∃ s < weightsGSize jcp, e.dst = .weiReduction (q * weightsGSize jcp + s)) ∧ e.Local := by
    intro q e he
    split_ifs at he with hq
    · by_cases hqwork : hasWork jcp nthr q = true
      · rw [h.products_eq hred hqwork] at he
        obtain ⟨⟨s, hs, hdst⟩, hlocal⟩ := mem_gemms he
        rw [weightsDst_eq_weiReduction hred hqwork] at hdst
        exact ⟨⟨s, hs, hdst⟩, hlocal⟩
      · unfold products at he
        rw [if_neg hqwork] at he
        cases he
    · cases he
  have hpriv : ∀ q s, s < weightsGSize jcp →
      Private (fun p => if p < nthr then products jcp product nthr p else []) q
        (.weiReduction (q * weightsGSize jcp + s)) := by
    intro q s hs q' hne e he heq
    obtain ⟨⟨s', hs', hdst⟩, -⟩ := hmem q' e he
    rw [hdst] at heq
    injection heq with heq
    exact hne (add_mul_inj hs' hs (by omega)).2
  have hrace : Interleaving.RaceFree fun p => if p < nthr then products jcp product nthr p else [] := by
    apply Interleaving.RaceFree.of_local
    · intro q e he
      obtain ⟨⟨s, hs, hdst⟩, -⟩ := hmem q e he
      rw [hdst]
      exact hpriv q s hs
    · intro q e he
      exact (hmem q e he).2
  rw [hrace.execAll_order ho (hpriv p s hs), if_pos hp, h.products_eq hred hwork,
    ← weightsDst_eq_weiReduction hred hwork (p / teamMb jcp nthr)]
  exact execAll_gemms h.od (h.mbRange_lt hwork) m hs

omit hred in
/-- What the reduction of a thread assigns to, and what it reads. -/
theorem mem_reduction {e : Assign Elem R} (hwork : hasWork jcp nthr p = true)
    (hrange : (gRange jcp nthr p).1 = p / teamMb jcp nthr)
    (he : e ∈ reduction (R := R) jcp nthr p) :
    (∃ s, ((balance211 (weightsGSize jcp) (teamMb jcp nthr) (p % teamMb jcp nthr)).1 ≤ s ∧
        s < (balance211 (weightsGSize jcp) (teamMb jcp nthr) (p % teamMb jcp nthr)).2) ∧
      e.dst = .diffWeights (p / teamMb jcp nthr * weightsGSize jcp + s)) ∧
    ∀ m m' : Elem → R, m e.dst = m' e.dst → (∀ i, m (.weiReduction i) = m' (.weiReduction i)) →
      e.value m = e.value m' := by
  unfold reduction bwdWeightsReductionPar at he
  rw [balance_nthrMb, ithrMb_eq hwork, hrange] at he
  obtain ⟨i, -, he⟩ := List.mem_flatMap.mp he
  obtain ⟨s, hs, hdst, hvalue⟩ := mem_accumulate he
  refine ⟨⟨_, ⟨Nat.le_add_right _ s, by omega⟩, hdst⟩, fun m m' hm hread => hvalue m m' ?_ (hread _)⟩
  rw [← hdst]
  exact hm

omit hred in
/-- What the reduction of a thread leaves. -/
theorem Shape.execAll_reduction (h : Shape jcp nthr) (hwork : hasWork jcp nthr p = true)
    (hrange : (gRange jcp nthr p).1 = p / teamMb jcp nthr) (m : Elem → R)
    (hs : (balance211 (weightsGSize jcp) (teamMb jcp nthr) (p % teamMb jcp nthr)).1 ≤ s ∧
      s < (balance211 (weightsGSize jcp) (teamMb jcp nthr) (p % teamMb jcp nthr)).2) :
    execAll (reduction jcp nthr p) m (.diffWeights (p / teamMb jcp nthr * weightsGSize jcp + s)) =
      ∑ k ∈ Finset.range (teamMb jcp nthr),
        m (.weiReduction ((p / teamMb jcp nthr * teamMb jcp nthr + k) * weightsGSize jcp + s)) := by
  unfold reduction bwdWeightsReductionPar
  rw [balance_nthrMb, ithrMb_eq hwork, hrange, reduceBase_eq hwork]
  generalize p / teamMb jcp nthr = g at *
  dsimp only
  generalize balance211 (weightsGSize jcp) (teamMb jcp nthr) (p % teamMb jcp nthr) = w at *
  obtain ⟨t, ht⟩ : ∃ t, teamMb jcp nthr = t + 1 := ⟨teamMb jcp nthr - 1, by have := h.teamMb_pos; omega⟩
  obtain ⟨d, rfl⟩ : ∃ d, s = w.1 + d := ⟨s - w.1, by omega⟩
  have hsum := sum_map_range (t + 1) id fun k => m (.weiReduction ((g * (t + 1) + k) * weightsGSize jcp + (w.1 + d)))
  rw [List.map_id] at hsum
  rw [ht]
  refine Eq.trans ?_ hsum
  rw [List.range_eq_range', List.range'_succ]
  simp only [Nat.add_mul]
  have hinj : ∀ s s', Elem.diffWeights (g * weightsGSize jcp + (w.1 + s)) =
      .diffWeights (g * weightsGSize jcp + (w.1 + s')) → s = s' := by
    intro s s' heq
    injection heq with heq
    omega
  -- the reduction reads what it does not assign to
  have hread : ∀ i s, ∀ m m' : Elem → R,
      (∀ a, (∀ s, Elem.diffWeights (g * weightsGSize jcp + (w.1 + s)) ≠ a) → m a = m' a) →
        m (.weiReduction (g * (t + 1) * weightsGSize jcp + i * weightsGSize jcp + (w.1 + s))) =
          m' (.weiReduction (g * (t + 1) * weightsGSize jcp + i * weightsGSize jcp + (w.1 + s))) := by
    intro i s m m' hm
    apply hm
    intro s' heq
    cases heq
  apply execAll_accumulate_cons hinj hread
  · exact decide_eq_true rfl
  · intro j hj
    rw [List.mem_range'_1] at hj
    rw [decide_eq_false_iff_not]
    omega
  · omega

/-- After the reduction, `diff_weights` holds the whole sums. -/
theorem Shape.execAll_reductions (h : Shape jcp nthr) {o : List (ℕ × Assign Elem R)}
    (ho : IsOrder (fun p => if p < nthr ∧ hasWork jcp nthr p = true then reduction jcp nthr p else []) o)
    {m : Elem → R}
    (hm : ∀ p < nthr, hasWork jcp nthr p = true → ∀ s < weightsGSize jcp, m (.weiReduction (p * weightsGSize jcp + s)) =
      partialSum jcp product (mbRange jcp nthr p) (p / teamMb jcp nthr) s)
    (hg : g < jcp.ngroups) (hs : s < weightsGSize jcp) :
    execAll (o.map Prod.snd) m (.diffWeights (g * weightsGSize jcp + s)) = totalSum jcp product g s := by
  have hrange : ∀ p, hasWork jcp nthr p = true → (gRange jcp nthr p).1 = p / teamMb jcp nthr := by
    intro p hwork
    rw [h.gRange_of_needReduction hwork (by rw [needReduction_eq, decide_eq_true hred])]
  have hmem : ∀ q, ∀ e ∈ (if q < nthr ∧ hasWork jcp nthr q = true then reduction jcp nthr q else []),
      hasWork jcp nthr q = true ∧ e ∈ reduction (R := R) jcp nthr q := by
    intro q e he
    split_ifs at he with hq
    · exact ⟨hq.2, he⟩
    · cases he
  -- the threads of a row share the weights of the group
  have hpriv : ∀ q s, ((balance211 (weightsGSize jcp) (teamMb jcp nthr) (q % teamMb jcp nthr)).1 ≤ s ∧
        s < (balance211 (weightsGSize jcp) (teamMb jcp nthr) (q % teamMb jcp nthr)).2) →
      Private (fun p => if p < nthr ∧ hasWork jcp nthr p = true then reduction (R := R) jcp nthr p else []) q
        (.diffWeights (q / teamMb jcp nthr * weightsGSize jcp + s)) := by
    intro q s hs q' hne e he heq
    obtain ⟨hwork, he⟩ := hmem q' e he
    obtain ⟨⟨s', hs', hdst⟩, -⟩ := mem_reduction hwork (hrange q' hwork) he
    rw [hdst] at heq
    injection heq with heq
    have hlt : ∀ q s, s < (balance211 (weightsGSize jcp) (teamMb jcp nthr) (q % teamMb jcp nthr)).2 →
        s < weightsGSize jcp := fun q s hs => hs.trans_le (balance211_snd_le (Nat.mod_lt _ h.teamMb_pos))
    rw [Nat.add_comm, Nat.add_comm (_ * _) s] at heq
    obtain ⟨rfl, hrow⟩ := add_mul_inj (hlt q' s' hs'.2) (hlt q s hs.2) heq
    have hcol := balance211_unique (Nat.mod_lt _ h.teamMb_pos) (Nat.mod_lt _ h.teamMb_pos) hs' hs
    apply hne
    rw [← Nat.div_add_mod q' (teamMb jcp nthr), hrow, hcol, Nat.div_add_mod]
  have hrace : Interleaving.RaceFree fun p =>
      if p < nthr ∧ hasWork jcp nthr p = true then reduction (R := R) jcp nthr p else [] := by
    constructor
    · intro q e he
      obtain ⟨hwork, he⟩ := hmem q e he
      obtain ⟨⟨s, hs, hdst⟩, -⟩ := mem_reduction hwork (hrange q hwork) he
      rw [hdst]
      exact hpriv q s hs
    · intro q e he m m' hm
      obtain ⟨hwork, he⟩ := hmem q e he
      obtain ⟨⟨s, hs, hdst⟩, hvalue⟩ := mem_reduction hwork (hrange q hwork) he
      apply hvalue
      · apply hm
        rw [hdst]
        exact hpriv q s hs
      · intro i
        apply hm
        intro q' _ e' he' heq
        obtain ⟨hwork', he'⟩ := hmem q' e' he'
        obtain ⟨⟨s', -, hdst'⟩, -⟩ := mem_reduction hwork' (hrange q' hwork') he'
        rw [hdst'] at heq
        cases heq
  have hgG : g < teamG jcp nthr := by
    rw [h.teamG_eq hred]
    exact hg
  obtain ⟨j, hj, hsj⟩ := exists_balance211 h.teamMb_pos hs
  obtain ⟨hp, hwork, hdiv, hmod⟩ := h.thread hgG hj
  have hsum := h.execAll_reduction hwork (hrange _ hwork) m (s := s) (by rw [hmod]; exact hsj)
  have hpriv' := hpriv (g * teamMb jcp nthr + j) s (by rw [hmod]; exact hsj)
  rw [hdiv] at hsum hpriv'
  rw [hrace.execAll_order ho hpriv', if_pos ⟨hp, hwork⟩, hsum, ← sum_partialSum h.teamMb_pos]
  apply Finset.sum_congr rfl
  intro k hk
  rw [Finset.mem_range] at hk
  obtain ⟨hp, hwork, hdiv, hmod⟩ := h.thread hgG hk
  rw [hm _ hp hwork s hs, hdiv, mbRange_eq hwork, hmod]

end Reduction

/-! ## The phases -/

theorem Shape.needWeiReduction (h : Shape jcp nthr) (hred : teamMb jcp nthr ≠ 1) : jcp.needWeiReduction = true := by
  by_contra hneed
  apply hred
  have hle : teamMb jcp nthr ≤ 1 := by
    refine (Nat.min_le_left _ _).trans ?_
    rw [if_neg hneed]
  have hpos := h.teamMb_pos
  omega

/-- Without a reduction, there is nothing to do after the products. -/
theorem phases_of_one (hred : teamMb jcp nthr = 1) (product : ℕ → ℕ → ℕ → ℕ → R) (syncable : Bool) :
    phases jcp product syncable nthr = (fun p => if p < nthr then products jcp product nthr p else []) ::
      if jcp.needWeiReduction && !syncable then [fun _ => []] else [] := by
  unfold phases phasesOf
  rw [barriers_eq, if_neg fun hboth => hboth.1 hred]
  have hfirst : ∀ p, (if p < nthr then section1 jcp product syncable nthr p else []).getD 0 [] =
      if p < nthr then products jcp product nthr p else [] := by
    intro p
    unfold section1 products
    split_ifs <;> rfl
  have hsecond : (fun p => if p < nthr then section2 (R := R) jcp nthr p else []) = fun _ => [] := by
    funext p
    unfold section2
    rw [needReduction_eq, decide_eq_false fun hne => hne hred, Bool.false_and, if_neg Bool.false_ne_true, ite_self]
  rw [hsecond]
  show (fun p => _) :: _ = _
  simp only [hfirst]
  rfl

/-- With a reduction, both runtimes have the same two phases. -/
theorem Shape.phases_of_ne (h : Shape jcp nthr) (hred : teamMb jcp nthr ≠ 1) (product : ℕ → ℕ → ℕ → ℕ → R)
    (syncable : Bool) : phases jcp product syncable nthr =
      [fun p => if p < nthr then products jcp product nthr p else [],
        fun p => if p < nthr ∧ hasWork jcp nthr p = true then reduction jcp nthr p else []] := by
  have hfirst : ∀ p, (if p < nthr then section1 jcp product syncable nthr p else []).getD 0 [] =
      if p < nthr then products jcp product nthr p else [] := by
    intro p
    unfold section1 products
    split_ifs <;> rfl
  unfold phases phasesOf
  rw [barriers_eq, h.needWeiReduction hred]
  cases syncable
  · have hsecond : (fun p => if p < nthr then section2 (R := R) jcp nthr p else []) =
        fun p => if p < nthr ∧ hasWork jcp nthr p = true then reduction jcp nthr p else [] := by
      funext p
      unfold section2
      rw [needReduction_eq, decide_eq_true hred]
      by_cases hp : p < nthr <;> simp [hp]
    rw [hsecond, if_neg (by simp)]
    show [fun p => _, _] = _
    simp only [hfirst]
  · have hsecond : ∀ p, (if p < nthr then section1 jcp product true nthr p else []).getD 1 [] =
        if p < nthr ∧ hasWork jcp nthr p = true then reduction jcp nthr p else [] := by
      intro p
      unfold section1
      rw [needReduction_eq, decide_eq_true hred]
      by_cases hp : p < nthr
      · by_cases hwork : hasWork jcp nthr p = true <;> simp [hp, hwork]
      · simp [hp]
    rw [if_pos ⟨hred, rfl⟩]
    show [fun p => _, fun p => _] = _
    simp only [hfirst, hsecond]

/-- For any order of the threads between the barriers, `diff_weights` holds the whole sums. -/
theorem Shape.runPhases (h : Shape jcp nthr) {syncable : Bool} {m m' : Elem → R}
    (hrun : RunPhases (phases jcp product syncable nthr) m m') (hg : g < jcp.ngroups) (hs : s < weightsGSize jcp) :
    m' (.diffWeights (g * weightsGSize jcp + s)) = totalSum jcp product g s := by
  by_cases hred : teamMb jcp nthr = 1
  · rw [phases_of_one hred] at hrun
    obtain ⟨o, ho, hrun⟩ := hrun
    have hproducts := h.execAll_products hred ho m hg hs
    split_ifs at hrun
    · obtain ⟨o', ho', rfl⟩ := hrun
      rw [execAll_order_of_ne ho', hproducts]
      intro _ _ he
      cases he
    · obtain rfl := hrun
      exact hproducts
  · rw [h.phases_of_ne hred] at hrun
    obtain ⟨o, ho, o', ho', rfl⟩ := hrun
    exact h.execAll_reductions hred ho' (fun p hp hwork s hs => h.execAll_partial hred ho m hp hwork hs) hg hs

/-- Every product is computed by one thread, the threads pass the same number of barriers, a thread that reduces
has one group, and `diff_weights` is the sum of the products of all images. -/
theorem executeBackwardWeights_correct {R : Type*} [AddCommMonoid R] (jcp : JitGemmConvConf) (nthr : ℕ)
    (h : Shape jcp nthr) (product : ℕ → ℕ → ℕ → ℕ → R) (syncable : Bool) :
    (∀ g < jcp.ngroups, ∀ mb < jcp.mb, ∃! p, p < nthr ∧ Owns jcp nthr p g mb) ∧
      (∀ p < nthr, ∀ q < nthr,
        barriers jcp product syncable nthr p = barriers jcp product syncable nthr q) ∧
      (∀ p < nthr, hasWork jcp nthr p = true → needReduction jcp nthr p = true →
        ∃ g, gRange jcp nthr p = (g, g + 1)) ∧
      ∀ m m' : Elem → R, RunPhases (phases jcp product syncable nthr) m m' →
        ∀ g < jcp.ngroups, ∀ s < weightsGSize jcp, m' (.diffWeights (g * weightsGSize jcp + s)) =
          ∑ mb ∈ Finset.range jcp.mb, ∑ od ∈ Finset.range jcp.od, product g mb od s := by
  refine ⟨?_, ?_, ?_, ?_⟩
  · intro g hg mb hmb
    obtain ⟨p, hp, howns⟩ := h.exists_owner hg hmb
    refine ⟨p, ⟨hp, howns⟩, ?_⟩
    rintro q ⟨hq, hqowns⟩
    exact h.owner_unique hq hp hqowns howns
  · intro p _ q _
    rw [barriers_eq, barriers_eq]
  · intro p _ hwork hred
    exact ⟨_, h.gRange_of_needReduction hwork hred⟩
  · intro m m' hrun g hg s hs
    exact h.runPhases hrun hg hs

theorem shape_conv3x3 : Shape conv3x3 5 where
  ngroups := by decide
  mb := by decide
  od := by decide
  nthr := by decide

/-- Two groups, two images and a team of five threads, the last of which has no work. -/
theorem executeBackwardWeights_conv3x3 :
    hasWork conv3x3 5 4 = false ∧ ∀ m m' : Elem → ℕ,
      RunPhases (phases conv3x3 (fun g mb _ s => 100 * g + 10 * mb + s) true 5) m m' →
        m' (.diffWeights (1 * weightsGSize conv3x3 + 3)) = 216 := by
  refine ⟨by decide, fun m m' hrun => ?_⟩
  have hsum := (executeBackwardWeights_correct conv3x3 5 shape_conv3x3 _ true).2.2.2 m m' hrun 1 (by decide) 3
    (by decide)
  rw [hsum]
  decide

end MklDnn.GemmConvolutionBwdWeights
