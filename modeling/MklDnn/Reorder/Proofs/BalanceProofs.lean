import MklDnn.Reorder.Proofs.PassesProofs

/-!
# Proofs: balancing the driver and the kernel

`prb_thread_kernel_balance` splits at most one node. The search for the size of the split ends, because
the number of elements that one side has too many of is a multiple of what the other side needs.
-/

open LoopNest Offsets

namespace MklDnn

/-! ## The search for a divisor -/

/-- There is a divisor of `n` from `start` on other than `n`. -/
def HasProperDivisor (n start : ℕ) : Prop := ∃ w < n, start ≤ w ∧ w ∣ n

instance (n start : ℕ) : Decidable (HasProperDivisor n start) :=
  inferInstanceAs (Decidable (∃ w < n, start ≤ w ∧ w ∣ n))

theorem findDivisor_dvd {n start w : ℕ} (h : findDivisor n start = some w) : w ∣ n := by
  have hmod := List.find?_some h
  exact Nat.dvd_of_mod_eq_zero (of_decide_eq_true hmod)

theorem findDivisor_ne_iff {n start w : ℕ} (h : findDivisor n start = some w) :
    w ≠ n ↔ HasProperDivisor n start := by
  obtain ⟨-, hmem, hmin⟩ := List.find?_range'_eq_some.mp h
  obtain ⟨hstart, hw⟩ := List.mem_range'_1.mp hmem
  constructor
  · intro hne
    exact ⟨w, by omega, hstart, findDivisor_dvd h⟩
  · rintro ⟨w', hlt, hstart', hdvd⟩ rfl
    have hnot := hmin w' hstart' hlt
    simp [Nat.mod_eq_zero_of_dvd hdvd] at hnot

theorem exists_findDivisor {n start : ℕ} (h : start ≤ n) : ∃ w, findDivisor n start = some w := by
  refine Option.isSome_iff_exists.mp (List.find?_isSome.mpr ⟨n, ?_, ?_⟩)
  · exact List.mem_range'_1.mpr ⟨h, by omega⟩
  · simp

/-! ## The driver nodes -/

/-- The number of elements of the first `k` nodes. -/
def Prb.kernelSize (p : Prb) (k : ℕ) : ℕ := ((p.nodes.take k).map Node.n).prod

theorem Prb.kernelSize_succ {p : Prb} {k : ℕ} (h : k < p.ndims) :
    p.kernelSize (k + 1) = p.kernelSize k * (p.node k).n := by
  rw [kernelSize, kernelSize, Prb.node_eq h, List.take_add_one, List.getElem?_eq_getElem h]
  simp

theorem Prb.kernelSize_ndims (p : Prb) : p.kernelSize p.ndims = p.total := by
  rw [kernelSize, total, ndims, List.take_length]

/-- What the loop that leaves nodes to the driver ends with. -/
structure DriverSplit (p : Prb) (szDrvMin kdims szDrvCur : ℕ) (r : ℕ × ℕ) : Prop where
  le : r.1 ≤ kdims
  size : r.2 * p.kernelSize r.1 = szDrvCur * p.kernelSize kdims
  -- a driver that is still too small has taken all nodes but one
  small : r.2 < szDrvMin → r.1 ≤ 1
  -- the node taken last was needed
  last : r = (kdims, szDrvCur) ∨ r.1 < kdims ∧ ∃ szDrv < szDrvMin, r.2 = szDrv * (p.node r.1).n

theorem kernelDims_spec (p : Prb) (szDrvMin : ℕ) {kdims : ℕ} (h : kdims ≤ p.ndims) (szDrvCur : ℕ) :
    DriverSplit p szDrvMin kdims szDrvCur (kernelDims p szDrvMin kdims szDrvCur) := by
  induction kdims generalizing szDrvCur with
  | zero =>
    exact { le := le_rfl, size := rfl, small := fun _ => Nat.zero_le 1, last := Or.inl rfl }
  | succ kdims ih =>
    cases kdims with
    | zero => exact { le := le_rfl, size := rfl, small := fun _ => le_rfl, last := Or.inl rfl }
    | succ kdims =>
      rw [kernelDims]
      split_ifs with hlt
      · have hr := ih (by omega) (szDrvCur * (p.node (kdims + 1)).n)
        generalize kernelDims p szDrvMin (kdims + 1) (szDrvCur * (p.node (kdims + 1)).n) = r at hr
        refine { le := by have := hr.le; omega, size := ?_, small := hr.small, last := Or.inr ?_ }
        · rw [hr.size, Prb.kernelSize_succ (by omega : kdims + 1 < p.ndims)]
          ring
        · rcases hr.last with rfl | ⟨hlt', hneeded⟩
          · exact ⟨Nat.lt_succ_self _, szDrvCur, hlt, rfl⟩
          · exact ⟨by omega, hneeded⟩
      · exact { le := le_rfl, size := rfl, small := fun h => absurd h hlt, last := Or.inl rfl }

theorem balance_driverSplit (nthr : ℕ) (p : Prb) :
    DriverSplit p (balance nthr p).szDrvMin p.ndims 1
      ((balance nthr p).kdims, (balance nthr p).szDrvCur) :=
  kernelDims_spec p _ le_rfl 1

theorem balance_szKerCur (nthr : ℕ) (p : Prb) :
    (balance nthr p).szKerCur = p.kernelSize (balance nthr p).kdims := rfl

theorem balance_mul (nthr : ℕ) (p : Prb) :
    (balance nthr p).szDrvCur * (balance nthr p).szKerCur = p.total := by
  rw [balance_szKerCur, (balance_driverSplit nthr p).size, Nat.one_mul, Prb.kernelSize_ndims]

theorem balance_szDrvMin_le (nthr : ℕ) (p : Prb) :
    (balance nthr p).szDrvMin ≤ divUp p.total 1024 := min_le_right _ _

/-! ## The kernel borrows from the driver -/

/-- The node that the driver took last has more elements than the kernel needs. -/
theorem borrowKer_le {nthr : ℕ} {p : Prb} (hpos : 0 < p.total)
    (hwant : (balance nthr p).wantBorrowKerFromDrv p = true) :
    divUp kerPrbSizeMin (balance nthr p).szKerCur ≤ (p.node (balance nthr p).kdims).n := by
  simp only [Balance.wantBorrowKerFromDrv, decide_eq_true_eq] at hwant
  obtain ⟨hk, -, -⟩ := hwant
  have hmul := balance_mul nthr p
  have hmin := balance_szDrvMin_le nthr p
  obtain hlast | ⟨-, szDrv, hlt, hdrv⟩ := (balance_driverSplit nthr p).last
  · have := congrArg Prod.fst hlast
    dsimp only at this
    omega
  · dsimp only at hdrv
    have hker : 0 < (balance nthr p).szKerCur := Nat.pos_of_ne_zero fun h0 => by
      rw [h0, Nat.mul_zero] at hmul
      omega
    rw [divUp_le_iff hker]
    -- before it was taken the driver had less than a 1024th of the elements
    have htotal : szDrv * 1024 < p.total := by
      by_contra hle
      have : divUp p.total 1024 ≤ szDrv := (divUp_le_iff (by omega)).mpr (by omega)
      omega
    rw [← hmul, hdrv, Nat.mul_assoc] at htotal
    have hlt' := Nat.lt_of_mul_lt_mul_left htotal
    simp only [kerPrbSizeMin]
    omega

/-- The driver node that the kernel borrows from is split. -/
def KerSplitNeeded (nthr : ℕ) (p : Prb) : Prop :=
  (balance nthr p).wantBorrowKerFromDrv p = true ∧
    HasProperDivisor (p.node (balance nthr p).kdims).n
      (divUp kerPrbSizeMin (balance nthr p).szKerCur)

theorem borrowKerFromDrv_of_not_want {b : Balance} {p : Prb}
    (hwant : ¬ b.wantBorrowKerFromDrv p = true) : borrowKerFromDrv b p = some (p, b.kdims) := by
  rw [borrowKerFromDrv, if_neg hwant]

theorem borrowKerFromDrv_eq {b : Balance} {p : Prb} {w : ℕ}
    (hwant : b.wantBorrowKerFromDrv p = true)
    (hw : findDivisor (p.node b.kdims).n (divUp kerPrbSizeMin b.szKerCur) = some w) :
    borrowKerFromDrv b p = if w ≠ (p.node b.kdims).n then
      (prbNodeSplit p b.kdims w).map fun p => (p, b.kdims + 1) else some (p, b.kdims + 1) := by
  rw [borrowKerFromDrv, if_pos hwant, hw]
  by_cases hne : w ≠ (p.node b.kdims).n
  · rw [if_pos hne]
    simp only [Option.bind_eq_bind, Option.bind_some, if_pos hne]
    cases prbNodeSplit p b.kdims w <;> rfl
  · rw [if_neg hne]
    simp only [Option.bind_eq_bind, Option.bind_some, if_neg hne]
    rfl

theorem borrowKerFromDrv_isSome {nthr : ℕ} {p : Prb} (hpos : 0 < p.total) :
    (borrowKerFromDrv (balance nthr p) p).isSome ↔ (KerSplitNeeded nthr p → p.HasRoom) := by
  by_cases hwant : (balance nthr p).wantBorrowKerFromDrv p = true
  · obtain ⟨w, hw⟩ := exists_findDivisor (borrowKer_le hpos hwant)
    rw [borrowKerFromDrv_eq hwant hw, KerSplitNeeded, ← findDivisor_ne_iff hw]
    split_ifs with hne
    · rw [Option.isSome_map, prbNodeSplit_isSome]
      exact ⟨fun h _ => h, fun h => h ⟨hwant, hne⟩⟩
    · exact iff_of_true rfl fun h => absurd h.2 hne
  · rw [borrowKerFromDrv_of_not_want hwant]
    exact iff_of_true rfl fun h => absurd h.1 hwant

theorem borrowKerFromDrv_sameOffsets {b : Balance} {p q : Prb} {k : ℕ}
    (h : borrowKerFromDrv b p = some (q, k)) : p.SameOffsets q := by
  by_cases hwant : b.wantBorrowKerFromDrv p = true
  · cases hw : findDivisor (p.node b.kdims).n (divUp kerPrbSizeMin b.szKerCur) with
    | none => simp [borrowKerFromDrv, hwant, hw] at h
    | some w =>
      rw [borrowKerFromDrv_eq hwant hw] at h
      split_ifs at h with hne
      · obtain ⟨p', hp', hq⟩ := Option.map_eq_some_iff.mp h
        obtain rfl := congrArg Prod.fst hq
        simp only [Balance.wantBorrowKerFromDrv, decide_eq_true_eq] at hwant
        exact (prbNodeSplit_spec hwant.1 (findDivisor_dvd hw) hp').1
      · obtain rfl := congrArg Prod.fst (Option.some.inj h)
        exact Prb.SameOffsets.refl p
  · rw [borrowKerFromDrv_of_not_want hwant] at h
    obtain rfl := congrArg Prod.fst (Option.some.inj h)
    exact Prb.SameOffsets.refl p

/-! ## The driver borrows from the kernel -/

/-- A driver that is too small has left a single node to the kernel. -/
theorem kdims_of_wantDrv {nthr : ℕ} {p : Prb}
    (hwant : (balance nthr p).wantBorrowDrvFromKer = true) :
    (balance nthr p).kdims = 1 ∧ 0 < p.ndims := by
  simp only [Balance.wantBorrowDrvFromKer, decide_eq_true_eq] at hwant
  have hle := (balance_driverSplit nthr p).small hwant.2
  have hndims := (balance_driverSplit nthr p).le
  dsimp only at hle hndims
  have hne : (balance nthr p).kdims ≠ 0 := by
    intro h0
    have hker := hwant.1
    rw [balance_szKerCur, h0] at hker
    simp [Prb.kernelSize, kerPrbSizeMin] at hker
  omega

/-- The kernel node has more elements than the driver needs. -/
theorem borrowDrv_le {nthr : ℕ} {p : Prb} (hpos : 0 < p.total)
    (hwant : (balance nthr p).wantBorrowDrvFromKer = true) :
    divUp (balance nthr p).szDrvMin (balance nthr p).szDrvCur ≤
      (p.node ((balance nthr p).kdims - 1)).n := by
  obtain ⟨hk, hndims⟩ := kdims_of_wantDrv hwant
  have hmul := balance_mul nthr p
  have hmin := balance_szDrvMin_le nthr p
  have hker : (balance nthr p).szKerCur = (p.node 0).n := by
    rw [balance_szKerCur, hk, Prb.kernelSize_succ hndims]
    simp [Prb.kernelSize]
  have hdrv : 0 < (balance nthr p).szDrvCur := Nat.pos_of_ne_zero fun h0 => by
    rw [h0, Nat.zero_mul] at hmul
    omega
  have hle : divUp p.total 1024 ≤ p.total := (divUp_le_iff (by omega)).mpr (by omega)
  rw [divUp_le_iff hdrv, hk, Nat.sub_self, ← hker, Nat.mul_comm, hmul]
  omega

/-- The kernel node that the driver borrows from is split. -/
def DrvSplitNeeded (nthr : ℕ) (p : Prb) : Prop :=
  (balance nthr p).wantBorrowDrvFromKer = true ∧
    HasProperDivisor (p.node ((balance nthr p).kdims - 1)).n
      (divUp (balance nthr p).szDrvMin (balance nthr p).szDrvCur)

/-- Only one of the two sides can be too small. -/
theorem not_wantKer_of_wantDrv {b : Balance} {p : Prb} (h : b.wantBorrowDrvFromKer = true) :
    ¬ b.wantBorrowKerFromDrv p = true := by
  simp only [Balance.wantBorrowDrvFromKer, Balance.wantBorrowKerFromDrv, decide_eq_true_eq] at h ⊢
  omega

theorem borrowDrvFromKer_eq {b : Balance} {p : Prb} {w : ℕ} (hwant : b.wantBorrowDrvFromKer = true)
    (hw : findDivisor (p.node (b.kdims - 1)).n (divUp b.szDrvMin b.szDrvCur) = some w) :
    borrowDrvFromKer b p b.kdims = if w ≠ (p.node (b.kdims - 1)).n then
      prbNodeSplit p (b.kdims - 1) ((p.node (b.kdims - 1)).n / w) else some p := by
  rw [borrowDrvFromKer, if_pos hwant]
  dsimp only
  rw [hw]
  rfl

theorem borrowDrvFromKer_isSome {nthr : ℕ} {p : Prb} (hpos : 0 < p.total) :
    (borrowDrvFromKer (balance nthr p) p (balance nthr p).kdims).isSome ↔
      (DrvSplitNeeded nthr p → p.HasRoom) := by
  by_cases hwant : (balance nthr p).wantBorrowDrvFromKer = true
  · obtain ⟨w, hw⟩ := exists_findDivisor (borrowDrv_le hpos hwant)
    rw [borrowDrvFromKer_eq hwant hw, DrvSplitNeeded, ← findDivisor_ne_iff hw]
    split_ifs with hne
    · rw [prbNodeSplit_isSome]
      exact ⟨fun h _ => h, fun h => h ⟨hwant, hne⟩⟩
    · exact iff_of_true rfl fun h => absurd h.2 hne
  · rw [borrowDrvFromKer, if_neg hwant]
    exact iff_of_true rfl fun h => absurd h.1 hwant

theorem borrowDrvFromKer_sameOffsets {nthr : ℕ} {p q : Prb}
    (h : borrowDrvFromKer (balance nthr p) p (balance nthr p).kdims = some q) : p.SameOffsets q := by
  by_cases hwant : (balance nthr p).wantBorrowDrvFromKer = true
  · obtain ⟨hk, hndims⟩ := kdims_of_wantDrv hwant
    cases hw : findDivisor (p.node ((balance nthr p).kdims - 1)).n
      (divUp (balance nthr p).szDrvMin (balance nthr p).szDrvCur) with
    | none => simp [borrowDrvFromKer, hwant, hw] at h
    | some w =>
      rw [borrowDrvFromKer_eq hwant hw] at h
      split_ifs at h with hne
      · have hdvd := Nat.div_dvd_of_dvd (findDivisor_dvd hw)
        exact (prbNodeSplit_spec (by omega) hdvd h).1
      · obtain rfl := Option.some.inj h
        exact Prb.SameOffsets.refl p
  · rw [borrowDrvFromKer, if_neg hwant] at h
    obtain rfl := Option.some.inj h
    exact Prb.SameOffsets.refl p

/-! ## All passes -/

/-- `prb_thread_kernel_balance` splits a node. -/
def BalanceSplitNeeded (nthr : ℕ) (p : Prb) : Prop := KerSplitNeeded nthr p ∨ DrvSplitNeeded nthr p

theorem prbThreadKernelBalance_eq (nthr : ℕ) (p : Prb) : prbThreadKernelBalance nthr p =
    (borrowKerFromDrv (balance nthr p) p).bind fun r =>
      (borrowDrvFromKer (balance nthr p) r.1 r.2).map fun q => (q, r.2) := by
  unfold prbThreadKernelBalance
  dsimp only [Option.bind_eq_bind]
  refine congrArg _ (funext fun r => ?_)
  cases borrowDrvFromKer (balance nthr p) r.1 r.2 <;> rfl

theorem prbThreadKernelBalance_isSome {nthr : ℕ} {p : Prb} (hpos : 0 < p.total) :
    (prbThreadKernelBalance nthr p).isSome ↔ (BalanceSplitNeeded nthr p → p.HasRoom) := by
  rw [prbThreadKernelBalance_eq, BalanceSplitNeeded, or_imp, ← borrowKerFromDrv_isSome hpos,
    ← borrowDrvFromKer_isSome hpos]
  by_cases hwant : (balance nthr p).wantBorrowDrvFromKer = true
  · rw [borrowKerFromDrv_of_not_want (not_wantKer_of_wantDrv hwant), Option.bind_some,
      Option.isSome_map]
    exact ⟨fun h => ⟨rfl, h⟩, fun h => h.2⟩
  · have hdrv : ∀ q k, borrowDrvFromKer (balance nthr p) q k = some q := fun q k => by
      rw [borrowDrvFromKer, if_neg hwant]
    cases borrowKerFromDrv (balance nthr p) p with
    | none => simp
    | some r => simp [hdrv]

theorem prbThreadKernelBalance_sameOffsets {nthr : ℕ} {p q : Prb} {k : ℕ}
    (h : prbThreadKernelBalance nthr p = some (q, k)) : p.SameOffsets q := by
  rw [prbThreadKernelBalance_eq] at h
  obtain ⟨⟨p', k'⟩, hker, hdrv⟩ := Option.bind_eq_some_iff.mp h
  obtain ⟨q', hq, hpair⟩ := Option.map_eq_some_iff.mp hdrv
  obtain rfl := congrArg Prod.fst hpair
  by_cases hwant : (balance nthr p).wantBorrowDrvFromKer = true
  · rw [borrowKerFromDrv_of_not_want (not_wantKer_of_wantDrv hwant)] at hker
    obtain ⟨rfl, rfl⟩ := Prod.mk.inj (Option.some.inj hker)
    exact borrowDrvFromKer_sameOffsets hq
  · rw [borrowDrvFromKer, if_neg hwant] at hq
    obtain rfl := Option.some.inj hq
    exact borrowKerFromDrv_sameOffsets hker

/-- Every split that is due in the passes after `prb_simplify` has room: it starts with at most
`max_ndims - 2` nodes. -/
def SplitsFit (nthr : ℕ) (p : Prb) : Prop :=
  CacheSplitsFit p ∧
    ∀ p', prbBlockForCache p = some p' → BalanceSplitNeeded nthr p' → p'.HasRoom

theorem prbPasses_sameOffsets {nthr : ℕ} {p q : Prb} {k : ℕ}
    (h : prbPasses nthr p = some (q, k)) : p.SameOffsets q := by
  obtain ⟨p', hcache, hbalance⟩ := Option.bind_eq_some_iff.mp h
  have hsame := (prbNormalize_sameOffsets p).trans (prbSimplify_sameOffsets _)
  exact (hsame.trans (prbBlockForCache_sameOffsets hcache)).trans
    (prbThreadKernelBalance_sameOffsets hbalance)

theorem prbPasses_isSome {nthr : ℕ} {p : Prb} (hpos : 0 < p.total) :
    (prbPasses nthr p).isSome ↔ SplitsFit nthr (prbSimplify (prbNormalize p)) := by
  have hsame := (prbNormalize_sameOffsets p).trans (prbSimplify_sameOffsets _)
  have hpasses : prbPasses nthr p =
      (prbBlockForCache (prbSimplify (prbNormalize p))).bind (prbThreadKernelBalance nthr) := rfl
  rw [hpasses, SplitsFit, ← prbBlockForCache_isSome]
  cases hcache : prbBlockForCache (prbSimplify (prbNormalize p)) with
  | none => simp
  | some p' =>
    have hpos' : 0 < p'.total := by
      rw [(hsame.trans (prbBlockForCache_sameOffsets hcache)).total]
      exact hpos
    simp [prbThreadKernelBalance_isSome hpos']

end MklDnn
