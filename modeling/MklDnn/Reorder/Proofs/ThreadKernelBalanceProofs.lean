import Mathlib.Data.Nat.ModEq
import MklDnn.Reorder.NodeArray
import MklDnn.Reorder.Proofs.BalanceProofs

/-!
# Proofs: the searches of `prb_thread_kernel_balance` end

The sizes wrap around, but the product of the sizes of driver and kernel is that of all nodes modulo `2 ^ 64`. So a search
starts at a number that is neither zero nor larger than the size of the node.
-/

namespace MklDnn

namespace ThreadKernelBalance

/-! ## Products that wrap around -/

theorem wrap_lt (x : ℕ) : wrap x < 2 ^ 64 := Nat.mod_lt x (Nat.two_pow_pos 64)

theorem wrap_of_lt {x : ℕ} (h : x < 2 ^ 64) : wrap x = x := Nat.mod_eq_of_lt h

theorem wrap_modEq (x : ℕ) : wrap x ≡ x [MOD 2 ^ 64] := Nat.mod_modEq x _

theorem szProduct_eq (ns : List ℕ) : szProduct ns = ns.prod % 2 ^ 64 := by
  have hfold : ∀ sz, sz < 2 ^ 64 → ns.foldl (fun sz n => wrap (sz * n)) sz = sz * ns.prod % 2 ^ 64 := by
    induction ns with
    | nil =>
      intro sz hsz
      rw [List.prod_nil, Nat.mul_one, Nat.mod_eq_of_lt hsz]
      rfl
    | cons n ns ih =>
      intro sz _
      rw [List.foldl_cons, ih _ (wrap_lt _), List.prod_cons, ← Nat.mul_assoc]
      exact (wrap_modEq (sz * n)).mul_right ns.prod
  unfold szProduct
  rw [hfold 1 (by omega), Nat.one_mul]

theorem szProduct_lt (ns : List ℕ) : szProduct ns < 2 ^ 64 := by
  rw [szProduct_eq]
  exact Nat.mod_lt _ (Nat.two_pow_pos 64)

theorem prod_take_succ {ns : List ℕ} {k : ℕ} (h : k < ns.length) :
    (ns.take (k + 1)).prod = (ns.take k).prod * ns.getD k 0 := by
  rw [List.prod_take_succ ns k h, List.getD_eq_getElem?_getD, List.getElem?_eq_getElem h, Option.getD_some]

/-! ## The driver nodes -/

/-- What the loop that leaves nodes to the driver ends with. -/
structure DriverLoop (ns : List ℕ) (szDrvMin kdims szDrvCur : ℕ) (r : ℕ × ℕ) : Prop where
  le : r.1 ≤ kdims
  lt : szDrvCur < 2 ^ 64 → r.2 < 2 ^ 64
  size : r.2 * (ns.take r.1).prod ≡ szDrvCur * (ns.take kdims).prod [MOD 2 ^ 64]
  -- a driver that is still too small has taken all nodes but one
  small : r.2 < szDrvMin → r.1 ≤ 1
  -- the node taken last was needed
  last : r = (kdims, szDrvCur) ∨ r.1 < kdims ∧ ∃ szDrv < szDrvMin, r.2 = wrap (szDrv * ns.getD r.1 0)

theorem kernelDims_spec (ns : List ℕ) (szDrvMin : ℕ) {kdims : ℕ} (h : kdims ≤ ns.length) (szDrvCur : ℕ) :
    DriverLoop ns szDrvMin kdims szDrvCur (kernelDims ns szDrvMin kdims szDrvCur) := by
  induction kdims generalizing szDrvCur with
  | zero => exact { le := le_rfl, lt := id, size := rfl, small := fun _ => Nat.zero_le 1, last := Or.inl rfl }
  | succ kdims ih =>
    cases kdims with
    | zero => exact { le := le_rfl, lt := id, size := rfl, small := fun _ => le_rfl, last := Or.inl rfl }
    | succ kdims =>
      rw [kernelDims]
      split_ifs with hlt
      · have hr := ih (by omega) (wrap (szDrvCur * ns.getD (kdims + 1) 0))
        generalize kernelDims ns szDrvMin (kdims + 1) (wrap (szDrvCur * ns.getD (kdims + 1) 0)) = r at hr
        have hle := hr.le
        refine { le := by omega, lt := fun _ => hr.lt (wrap_lt _), size := ?_, small := hr.small, last := Or.inr ?_ }
        · refine hr.size.trans ?_
          rw [prod_take_succ (by omega : kdims + 1 < ns.length), Nat.mul_comm (ns.take (kdims + 1)).prod, ← Nat.mul_assoc]
          exact (wrap_modEq _).mul_right _
        · rcases hr.last with rfl | ⟨hlt', hneeded⟩
          · exact ⟨Nat.lt_succ_self _, szDrvCur, hlt, rfl⟩
          · exact ⟨by omega, hneeded⟩
      · exact { le := le_rfl, lt := id, size := rfl, small := fun h => absurd h hlt, last := Or.inl rfl }

section Balance

variable (nthr : ℕ) (ns : List ℕ)

theorem balance_driverLoop : DriverLoop ns (balance nthr ns).szDrvMin ns.length 1
    ((balance nthr ns).kdims, (balance nthr ns).szDrvCur) :=
  kernelDims_spec ns _ le_rfl 1

/-- The sizes of driver and kernel make up the size of the problem. -/
theorem balance_mul : (balance nthr ns).szDrvCur * (balance nthr ns).szKerCur ≡ szProduct ns [MOD 2 ^ 64] := by
  have hsize := (balance_driverLoop nthr ns).size
  rw [List.take_length, Nat.one_mul] at hsize
  have hker : (balance nthr ns).szKerCur ≡ (ns.take (balance nthr ns).kdims).prod [MOD 2 ^ 64] := by
    show szProduct _ ≡ _ [MOD 2 ^ 64]
    rw [szProduct_eq]
    exact Nat.mod_modEq _ _
  have htotal : szProduct ns ≡ ns.prod [MOD 2 ^ 64] := by
    rw [szProduct_eq]
    exact Nat.mod_modEq _ _
  exact ((Nat.ModEq.rfl.mul hker).trans hsize).trans htotal.symm

/-- The driver wants at most a 1024th of the elements. -/
theorem lt_szProduct_of_lt {x : ℕ} (h : x < (balance nthr ns).szDrvMin) : 1024 * x < szProduct ns ∧ x < 2 ^ 54 := by
  have hle : (balance nthr ns).szDrvMin ≤ wrap (szProduct ns + 1023) / 1024 := Nat.min_le_right _ _
  have hwrap : wrap (szProduct ns + 1023) ≤ szProduct ns + 1023 := Nat.mod_le _ _
  have hlt := wrap_lt (szProduct ns + 1023)
  omega

end Balance

/-! ## Problems whose sizes do not wrap around -/

section Exact

variable {nthr : ℕ} {p : Prb}

theorem szDrvWanted_of_lt (hnthr : 16 * nthr < 2 ^ 31) : szDrvWanted nthr = 16 * nthr := by
  have hmod : Int.bmod (16 * nthr) (2 ^ 32) = ((16 * nthr : ℕ) : ℤ) := by
    rw [Int.bmod_eq_of_le] <;> push_cast <;> omega
  unfold szDrvWanted
  rw [hmod, toSizeT, if_neg (by omega), Int.toNat_natCast]

/-- The kernel has some of the elements. -/
theorem kernelSize_bounds (hpos : 0 < p.total) (k : ℕ) : 0 < p.kernelSize k ∧ p.kernelSize k ≤ p.total := by
  have hprod : p.kernelSize k * ((p.nodes.drop k).map Node.n).prod = p.total := by
    unfold Prb.kernelSize Prb.total
    rw [← List.prod_append, ← List.map_append, List.take_append_drop]
  refine ⟨Nat.pos_of_mul_pos_right (hprod ▸ hpos), ?_⟩
  rw [← hprod]
  exact Nat.le_mul_of_pos_right _ (Nat.pos_of_mul_pos_left (hprod ▸ hpos))

theorem getD_sizes (k : ℕ) : (p.nodes.map Node.n).getD k 0 = (p.node k).n := by
  unfold Prb.node
  rw [List.getD_eq_getElem?_getD, List.getD_eq_getElem?_getD, List.getElem?_map]
  cases p.nodes[k]? <;> rfl

theorem kernelDims_eq (hpos : 0 < p.total) (htotal : p.total < 2 ^ 64) (szDrvMin : ℕ) {kdims : ℕ} (hk : kdims ≤ p.ndims)
    {szDrvCur : ℕ} (hsize : szDrvCur * p.kernelSize kdims = p.total) :
    kernelDims (p.nodes.map Node.n) szDrvMin kdims szDrvCur = MklDnn.kernelDims p szDrvMin kdims szDrvCur := by
  induction kdims generalizing szDrvCur with
  | zero => rfl
  | succ kdims ih =>
    cases kdims with
    | zero => rfl
    | succ kdims =>
      rw [kernelDims, MklDnn.kernelDims, getD_sizes]
      rw [Prb.kernelSize_succ (by omega : kdims + 1 < p.ndims), Nat.mul_comm (p.kernelSize (kdims + 1)), ← Nat.mul_assoc]
        at hsize
      have hle : szDrvCur * (p.node (kdims + 1)).n ≤ p.total := by
        rw [← hsize]
        exact Nat.le_mul_of_pos_right _ (kernelSize_bounds hpos _).1
      rw [wrap_of_lt (by omega), ih (by omega) hsize]

/-- Then the sizes are those of exact arithmetic. -/
theorem balance_eq (hpos : 0 < p.total) (htotal : p.total + 1023 < 2 ^ 64) (hnthr : 16 * nthr < 2 ^ 31) :
    balance nthr (p.nodes.map Node.n) = MklDnn.balance nthr p := by
  have hprod : szProduct (p.nodes.map Node.n) = p.total := by
    rw [szProduct_eq]
    exact Nat.mod_eq_of_lt (by unfold Prb.total at htotal; omega)
  have hmin : (balance nthr (p.nodes.map Node.n)).szDrvMin = (MklDnn.balance nthr p).szDrvMin := by
    show min (szDrvWanted nthr) (wrap (szProduct (p.nodes.map Node.n) + 1023) / 1024) =
      min (16 * nthr) (divUp p.total 1024)
    rw [szDrvWanted_of_lt hnthr, hprod, wrap_of_lt htotal]
    rfl
  have hdrv : kernelDims (p.nodes.map Node.n) (MklDnn.balance nthr p).szDrvMin p.ndims 1 =
      MklDnn.kernelDims p (MklDnn.balance nthr p).szDrvMin p.ndims 1 :=
    kernelDims_eq hpos (by omega) _ le_rfl (by rw [Nat.one_mul, Prb.kernelSize_ndims])
  have hlen : (p.nodes.map Node.n).length = p.ndims := List.length_map _
  have hker : ∀ k, szProduct ((p.nodes.map Node.n).take k) = p.kernelSize k := by
    intro k
    have hle := (kernelSize_bounds hpos k).2
    rw [szProduct_eq, ← List.map_take]
    exact Nat.mod_eq_of_lt (by unfold Prb.kernelSize at hle; omega)
  have heq : balance nthr (p.nodes.map Node.n) =
      { szDrvMin := (balance nthr (p.nodes.map Node.n)).szDrvMin
        kdims := (kernelDims (p.nodes.map Node.n) (balance nthr (p.nodes.map Node.n)).szDrvMin
          (p.nodes.map Node.n).length 1).1
        szDrvCur := (kernelDims (p.nodes.map Node.n) (balance nthr (p.nodes.map Node.n)).szDrvMin
          (p.nodes.map Node.n).length 1).2
        szKerCur := szProduct ((p.nodes.map Node.n).take (kernelDims (p.nodes.map Node.n)
          (balance nthr (p.nodes.map Node.n)).szDrvMin (p.nodes.map Node.n).length 1).1) } := rfl
  rw [heq, hmin, hlen, hdrv, hker]
  rfl

end Exact

/-! ## The searches -/

/-- A search ends at a divisor. -/
structure Search.Ends (s : Search) : Prop where
  start_pos : 0 < s.start
  start_le : s.start ≤ s.szWantBorrow
  le : s.szWantBorrow ≤ s.n
  dvd : s.szWantBorrow ∣ s.n

theorem searchDivisor_ends {n start : ℕ} (hpos : 0 < start) (hle : start ≤ n) (hn : n < 2 ^ 64) :
    ∃ w, (start ≤ w ∧ w ≤ n ∧ w ∣ n) ∧ ∀ fuel ≥ n + 1 - start, searchDivisor n fuel start = some w := by
  -- the induction is on the distance to `n`, which is a divisor
  obtain ⟨k, rfl⟩ := Nat.exists_eq_add_of_le hle
  induction k generalizing start with
  | zero =>
    refine ⟨start, ⟨le_rfl, le_rfl, dvd_rfl⟩, fun fuel hfuel => ?_⟩
    obtain ⟨fuel, rfl⟩ : ∃ f, fuel = f + 1 := ⟨fuel - 1, by omega⟩
    rw [searchDivisor, if_neg hpos.ne', Nat.add_zero, Nat.mod_self, if_pos rfl]
  | succ k ih =>
    by_cases hdvd : (start + (k + 1)) % start = 0
    · refine ⟨start, ⟨le_rfl, hle, Nat.dvd_of_mod_eq_zero hdvd⟩, fun fuel hfuel => ?_⟩
      obtain ⟨fuel, rfl⟩ : ∃ f, fuel = f + 1 := ⟨fuel - 1, by omega⟩
      rw [searchDivisor, if_neg hpos.ne', if_pos hdvd]
    · have hnext : start + 1 + k = start + (k + 1) := by omega
      obtain ⟨w, ⟨hstart, hw, hwdvd⟩, hfound⟩ := ih (Nat.succ_pos start) (by omega) (by omega)
      rw [hnext] at hw hwdvd hfound
      refine ⟨w, ⟨by omega, hw, hwdvd⟩, fun fuel hfuel => ?_⟩
      obtain ⟨fuel, rfl⟩ : ∃ f, fuel = f + 1 := ⟨fuel - 1, by omega⟩
      rw [searchDivisor, if_neg hpos.ne', if_neg hdvd, wrap_of_lt (by omega)]
      exact hfound fuel (by omega)

/-- A search ends if the node has what is wanted. -/
theorem search_ends {n wanted cur : ℕ} (hwanted : 0 < wanted) (hcur : 0 < cur) (hle : wanted ≤ n * cur) (hn : n < 2 ^ 64)
    (hsum : wanted + cur < 2 ^ 64) : ∃ s : Search, (s.n = n ∧ s.Ends) ∧ ∀ fuel ≥ n, search fuel n wanted cur = some s := by
  have hstart : divUpWrap wanted cur = some (divUp wanted cur) := by
    unfold divUpWrap divUp
    rw [if_neg hcur.ne', wrap_of_lt (by omega), Nat.add_sub_assoc hcur]
  have hpos : 0 < divUp wanted cur := divUp_pos hwanted hcur
  obtain ⟨w, ⟨hsw, hwn, hdvd⟩, hfound⟩ := searchDivisor_ends hpos ((divUp_le_iff hcur).mpr hle) hn
  refine ⟨⟨n, divUp wanted cur, w⟩, ⟨rfl, hpos, hsw, hwn, hdvd⟩, fun fuel hfuel => ?_⟩
  unfold search
  rw [hstart]
  dsimp only [Option.bind_eq_bind, Option.bind_some]
  rw [hfound fuel (by omega)]
  rfl

/-- The node that the kernel borrows from has more than the kernel needs. -/
theorem borrowKer_le {nthr : ℕ} {ns : List ℕ} (hk : (balance nthr ns).kdims < ns.length) :
    0 < (balance nthr ns).szKerCur ∧
      kerPrbSizeMin ≤ ns.getD (balance nthr ns).kdims 0 * (balance nthr ns).szKerCur := by
  have hmul := balance_mul nthr ns
  obtain hlast | ⟨-, szDrv, hlt, hdrv⟩ := (balance_driverLoop nthr ns).last
  · have heq : (balance nthr ns).kdims = ns.length := congrArg Prod.fst hlast
    omega
  · dsimp only at hdrv
    generalize ns.getD (balance nthr ns).kdims 0 = n at hdrv ⊢
    obtain ⟨htotal, hszDrv⟩ := lt_szProduct_of_lt nthr ns hlt
    have hprod := szProduct_lt ns
    have hsame : szDrv * (n * (balance nthr ns).szKerCur) ≡ szProduct ns [MOD 2 ^ 64] := by
      rw [← Nat.mul_assoc]
      refine Nat.ModEq.trans ?_ hmul
      rw [hdrv]
      exact (wrap_modEq _).symm.mul_right _
    -- the product of the rest is too small for the size of the problem
    have hsmall : kerPrbSizeMin ≤ n * (balance nthr ns).szKerCur := by
      by_contra hlt'
      have hle : szDrv * (n * (balance nthr ns).szKerCur) ≤ szDrv * 63 :=
        Nat.mul_le_mul_left _ (by unfold kerPrbSizeMin at hlt'; omega)
      have heq := Nat.ModEq.eq_of_lt_of_lt hsame (by omega) hprod
      omega
    refine ⟨Nat.pos_of_ne_zero fun h0 => ?_, hsmall⟩
    rw [h0, Nat.mul_zero] at hsmall
    exact absurd hsmall (by decide)

section Borrow

variable {nthr : ℕ} {ns : List ℕ} (hns : ∀ n ∈ ns, 1 ≤ n ∧ n < 2 ^ 64)

include hns

theorem getD_lt {k : ℕ} (hk : k < ns.length) : ns.getD k 0 < 2 ^ 64 := by
  rw [List.getD_eq_getElem?_getD, List.getElem?_eq_getElem hk, Option.getD_some]
  exact (hns _ (List.getElem_mem hk)).2

/-- The node that the driver borrows from has more than the driver needs. -/
theorem borrowDrv_le (hker : (balance nthr ns).szKerCur > kerPrbSizeMin)
    (hdrv : (balance nthr ns).szDrvCur < (balance nthr ns).szDrvMin) :
    (balance nthr ns).kdims = 1 ∧ 0 < ns.length ∧ 0 < (balance nthr ns).szDrvCur ∧
      (balance nthr ns).szDrvMin ≤ ns.getD 0 0 * (balance nthr ns).szDrvCur := by
  have hle := (balance_driverLoop nthr ns).le
  have hsmall := (balance_driverLoop nthr ns).small hdrv
  dsimp only at hle hsmall
  have hszKer : (balance nthr ns).szKerCur = szProduct (ns.take (balance nthr ns).kdims) := rfl
  have hk : (balance nthr ns).kdims = 1 := by
    by_contra hne
    have hzero : (balance nthr ns).kdims = 0 := by omega
    rw [hszKer, hzero, List.take_zero] at hker
    exact absurd hker (by decide)
  have hlen : 0 < ns.length := by omega
  have hnode : (balance nthr ns).szKerCur = ns.getD 0 0 := by
    rw [hszKer, hk, szProduct_eq, prod_take_succ hlen, List.take_zero, List.prod_nil, Nat.one_mul]
    exact Nat.mod_eq_of_lt (getD_lt hns hlen)
  have hmul := balance_mul nthr ns
  rw [hnode] at hmul
  have hprod := szProduct_lt ns
  obtain ⟨htotal, -⟩ := lt_szProduct_of_lt nthr ns hdrv
  have hmin : (balance nthr ns).szDrvMin ≤ szProduct ns ∧ (balance nthr ns).szDrvMin < 2 ^ 64 := by
    have hpred := lt_szProduct_of_lt nthr ns (Nat.sub_one_lt_of_lt hdrv)
    omega
  have hwanted : (balance nthr ns).szDrvMin ≤ ns.getD 0 0 * (balance nthr ns).szDrvCur := by
    by_contra hlt
    rw [Nat.mul_comm] at hlt
    have heq := Nat.ModEq.eq_of_lt_of_lt hmul (by omega) hprod
    omega
  refine ⟨hk, hlen, Nat.pos_of_ne_zero fun h0 => ?_, hwanted⟩
  rw [h0, Nat.mul_zero] at hwanted
  omega

/-! ## The function -/

/-- The kernel borrows, or nothing happens. -/
theorem borrowKerFromDrv_ends (nthr : ℕ) : ∃ fuel r, (∀ fuel' ≥ fuel, borrowKerFromDrv fuel' (balance nthr ns) ns = some r) ∧
    r.drv = none ∧ (∀ s, r.ker = some s → s.Ends) ∧
    (kerPrbSizeMin ≤ (balance nthr ns).szKerCur → r = ⟨ns, (balance nthr ns).kdims, none, none⟩) := by
  by_cases hwant : (balance nthr ns).kdims < ns.length ∧ (balance nthr ns).szKerCur < kerPrbSizeMin ∧
      (balance nthr ns).szDrvCur > (balance nthr ns).szDrvMin
  · obtain ⟨hpos, hle⟩ := borrowKer_le hwant.1
    obtain ⟨s, ⟨hn, hends⟩, hsearch⟩ := search_ends (by decide : 0 < kerPrbSizeMin) hpos hle (getD_lt hns hwant.1)
      (by have hker := hwant.2.1; unfold kerPrbSizeMin at hker ⊢; omega)
    have hw : s.szWantBorrow ≠ 0 := by
      have hstart := hends.start_pos
      have hle' := hends.start_le
      omega
    refine ⟨ns.getD (balance nthr ns).kdims 0, ⟨if s.szWantBorrow ≠ s.n then ns.take (balance nthr ns).kdims ++
      s.szWantBorrow :: ns.getD (balance nthr ns).kdims 0 / s.szWantBorrow :: ns.drop ((balance nthr ns).kdims + 1) else ns,
      (balance nthr ns).kdims + 1, some s, none⟩, fun fuel hfuel => ?_, rfl, ?_, ?_⟩
    · unfold borrowKerFromDrv
      rw [if_pos hwant, hsearch fuel hfuel]
      dsimp only [Option.bind_eq_bind, Option.bind_some]
      unfold nodeSplit
      rw [if_neg hw]
      split_ifs <;> rfl
    · rintro s' hs'
      obtain rfl := Option.some.inj hs'
      exact hends
    · intro hlarge
      omega
  · refine ⟨0, ⟨ns, (balance nthr ns).kdims, none, none⟩, fun fuel _ => ?_, rfl, ?_, fun _ => rfl⟩
    · unfold borrowKerFromDrv
      rw [if_neg hwant]
    · rintro s hs
      cases hs

/-- The driver borrows, or nothing happens. -/
theorem borrowDrvFromKer_ends (nthr : ℕ) {r : Result} (hdrv : r.drv = none)
    (hr : kerPrbSizeMin ≤ (balance nthr ns).szKerCur → r = ⟨ns, (balance nthr ns).kdims, none, none⟩) :
    ∃ fuel r', (∀ fuel' ≥ fuel, borrowDrvFromKer fuel' (balance nthr ns) r = some r') ∧ r'.ker = r.ker ∧
      ∀ s, r'.drv = some s → s.Ends := by
  by_cases hwant : (balance nthr ns).szKerCur > kerPrbSizeMin ∧ (balance nthr ns).szDrvCur < (balance nthr ns).szDrvMin
  · obtain ⟨hk, hlen, hpos, hle⟩ := borrowDrv_le hns hwant.1 hwant.2
    obtain rfl := hr hwant.1.le
    have hmin := (lt_szProduct_of_lt nthr ns (Nat.sub_one_lt_of_lt hwant.2)).2
    obtain ⟨s, ⟨hn, hends⟩, hsearch⟩ := search_ends (by omega) hpos hle (getD_lt hns hlen) (by omega)
    have hw : s.n / s.szWantBorrow ≠ 0 := by
      have hstart := hends.start_pos
      have hle' := hends.start_le
      exact (Nat.div_pos hends.le (by omega)).ne'
    refine ⟨ns.getD 0 0, ⟨if s.szWantBorrow ≠ s.n then ns.take 0 ++ s.n / s.szWantBorrow ::
      ns.getD 0 0 / (s.n / s.szWantBorrow) :: ns.drop (0 + 1) else ns, 1, none, some s⟩, fun fuel hfuel => ?_, rfl, ?_⟩
    · unfold borrowDrvFromKer
      rw [if_pos hwant]
      dsimp only
      rw [hk, Nat.sub_self, hsearch fuel hfuel]
      dsimp only [Option.bind_eq_bind, Option.bind_some]
      unfold nodeSplit
      rw [if_neg hw]
      split_ifs <;> rfl
    · rintro s' hs'
      obtain rfl := Option.some.inj hs'
      exact hends
  · refine ⟨0, r, fun fuel _ => ?_, rfl, ?_⟩
    · unfold borrowDrvFromKer
      rw [if_neg hwant]
    · rintro s hs
      rw [hdrv] at hs
      cases hs

end Borrow

end ThreadKernelBalance

open ThreadKernelBalance

/-- The function ends for every thread count: both searches reach a divisor of the size of the node, and neither part of a
node that is split becomes empty. -/
theorem threadKernelBalance_ends (nthr : ℕ) {ns : List ℕ} (hns : ∀ n ∈ ns, 1 ≤ n ∧ n < 2 ^ 64) :
    ∃ fuel r, (∀ fuel' ≥ fuel, threadKernelBalance fuel' nthr ns = some r) ∧
      ∀ s, r.ker = some s ∨ r.drv = some s →
        s.start ≤ s.szWantBorrow ∧ s.szWantBorrow ≤ s.n ∧ s.szWantBorrow ∣ s.n ∧
          0 < s.szWantBorrow ∧ 0 < s.n / s.szWantBorrow := by
  obtain ⟨fuel, r, hker, hdrv, hends, hkept⟩ := borrowKerFromDrv_ends hns nthr
  obtain ⟨fuel', r', hdrv', hsame, hends'⟩ := borrowDrvFromKer_ends hns nthr hdrv hkept
  refine ⟨max fuel fuel', r', fun f hf => ?_, fun s hs => ?_⟩
  · unfold threadKernelBalance
    dsimp only [Option.bind_eq_bind]
    rw [hker f (le_of_max_le_left hf)]
    exact hdrv' f (le_of_max_le_right hf)
  · have hs : s.Ends := by
      rcases hs with hs | hs
      · exact hends s (hsame ▸ hs)
      · exact hends' s hs
    have hstart := hs.start_pos
    have hle := hs.start_le
    exact ⟨hle, hs.le, hs.dvd, by omega, Nat.div_pos hs.le (by omega)⟩

/-- One node of 100000 elements and 100 threads: the driver borrows 100 of them. -/
theorem threadKernelBalance_ends_100000 :
    (∀ n ∈ [100000], 1 ≤ n ∧ n < 2 ^ 64) ∧
      ∃ fuel r, (∀ fuel' ≥ fuel, threadKernelBalance fuel' 100 [100000] = some r) ∧
        ∀ s, r.ker = some s ∨ r.drv = some s →
          s.start ≤ s.szWantBorrow ∧ s.szWantBorrow ≤ s.n ∧ s.szWantBorrow ∣ s.n ∧
            0 < s.szWantBorrow ∧ 0 < s.n / s.szWantBorrow :=
  ⟨by decide, threadKernelBalance_ends 100 (by decide)⟩

end MklDnn
