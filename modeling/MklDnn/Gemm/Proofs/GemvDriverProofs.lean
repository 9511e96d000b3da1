import Mathlib.Tactic.Ring
import MklDnn.Common.Proofs.ParallelLoopsProofs
import MklDnn.Gemm.GemvDriver
import MklDnn.Lib.Fills
import MklDnn.Lib.Sums

/-!
# Proofs: products of a matrix and a vector

The program of a thread scales every element of its band of `y` once, and adds to it the products of the blocks of `x`. The
bands of the threads are parts of `y` that follow one another.
-/

open Interleaving LoopNest MixedRadix

namespace MklDnn.GemvDriver

variable {R : Type*} [CommSemiring R]

/-- The generated code adds the product to `y`, if `y` is traversed forwards. -/
def Kernel.Adds (kernel : Kernel R) : Prop :=
  ∀ (m n : ℕ) (alpha : R) (a : ℤ → R) (lda : ℤ) (x : ℤ → R) (incy y : ℤ), 0 < incy →
    Updates {i | i < n} (fun i => y + i * incy) (fun i v => v + (∑ j ∈ Finset.range m, x j * a (j + i * lda)) * alpha)
      (kernel m n alpha a lda x incy y)

variable {kernel : Option (Kernel R)} {m n : ℕ} {alpha beta : R} {a x : ℤ → R} {lda incx incy y : ℤ}

/-! ## The product of one thread -/

theorem firstIndex_of_nonneg {inc : ℤ} (h : 0 ≤ inc) (dim : ℕ) : firstIndex dim inc = 0 := if_neg (not_lt.mpr h)

theorem dot_eq (m : ℕ) (x a : ℤ → R) : dot m x a = ∑ j ∈ Finset.range m, x j * a j := by
  rw [dot, foldl_add_range, zero_add]

theorem injective_address (hincy : 0 < incy) (y : ℤ) : Function.Injective fun i : ℕ => y + i * incy := by
  intro i j heq
  have hmul : (i : ℤ) * incy = j * incy := add_left_cancel heq
  exact Int.ofNat_inj.mp (Int.eq_of_mul_eq_mul_right hincy.ne' hmul)

theorem gemvTKernel_updates (hkernel : ∀ k, kernel = some k → k.Adds) (hincy : 0 < incy) :
    Updates {i | i < n} (fun i => y + i * incy) (fun i v => v + (∑ j ∈ Finset.range m, x j * a (j + i * lda)) * alpha)
      (gemvTKernel kernel m n alpha a lda x incy y) := by
  cases kernel with
  | some k => exact hkernel k rfl m n alpha a lda x incy y hincy
  | none =>
    unfold gemvTKernel
    simp only [firstIndex_of_nonneg hincy.le, zero_add, dot_eq]
    split_ifs with hone
    · subst hone
      refine updates_range (injective_address hincy y) (fun i => ?_) (fun i => Assign.local_add _ _) fun i v => rfl
      exact congrArg (fun z => y + z) (mul_one (i : ℤ)).symm
    · exact updates_range (injective_address hincy y) (fun i => rfl) (fun i => Assign.local_add _ _) fun i v => rfl

/-- The loop that goes without a block of `x`. -/
theorem gathered_updates (hincx : 0 < incx) (hincy : 0 < incy) :
    Updates {i | i < n} (fun i => y + i * incy) (fun i v => v + (∑ j ∈ Finset.range m, x (j * incx) * a (j + i * lda)) * alpha)
      ((List.range n).map fun (j : ℕ) => Assign.add (y + (firstIndex n incy + j * incy))
        (dot m (fun i => x (firstIndex m incx + i * incx)) (fun i => a (i + j * lda)) * alpha)) := by
  simp only [firstIndex_of_nonneg hincx.le, firstIndex_of_nonneg hincy.le, zero_add, dot_eq]
  exact updates_range (injective_address hincy y) (fun i => rfl) (fun i => Assign.local_add _ _) fun i v => rfl

/-- The blocks of `x` together. -/
theorem gemvTKernel_blocks (hkernel : ∀ k, kernel = some k → k.Adds) (hincx : 0 < incx) (hincy : 0 < incy) :
    Updates {i | i < n} (fun i => y + i * incy) (fun i v => v + (∑ j ∈ Finset.range m, x (j * incx) * a (j + i * lda)) * alpha)
      ((starts (fun i => min (m - i) mBlk) m m 0).flatMap fun (i : ℕ) =>
        gemvTKernel kernel (min (m - i) mBlk) n alpha (fun j => a (i + j)) lda
          (fun j => x (i * incx + (firstIndex m incx + j * incx))) incy y) := by
  have hlen : ∀ c < m, 0 < min (m - c) mBlk := by
    intro c hc
    exact lt_min (by omega) (by decide)
  simp only [firstIndex_of_nonneg hincx.le, zero_add]
  refine (updates_flatMap fun c _ => gemvTKernel_updates hkernel hincy).congr fun i _ v => ?_
  congr 1
  rw [List.sum_map_mul_right]
  congr 1
  rw [← sum_starts hlen fun j => x (j * incx) * a (j + i * lda)]
  congr 1
  refine List.map_congr_left fun c hc => ?_
  have hlt := (mem_starts hc).2
  have hsize : min m (c + min (m - c) mBlk) - c = min (m - c) mBlk := by omega
  rw [hsize]
  refine Finset.sum_congr rfl fun j _ => ?_
  push_cast
  rw [add_mul, add_assoc]

variable [DecidableEq R]

theorem scaleY_updates (hincy : 0 < incy) :
    Updates {i | i < n} (fun i => y + i * incy) (fun _ v => v * beta) (scaleY n beta y incy) := by
  have hzero : ∀ dst : ℕ → ℤ, (∀ i, dst i = y + i * incy) → beta = 0 →
      Updates {i | i < n} (fun i => y + i * incy) (fun _ v => v * beta) ((List.range n).map fun i => Assign.set (dst i) 0) := by
    intro dst hdst hbeta
    refine updates_range (injective_address hincy y) hdst (fun i => Assign.local_set _ _) fun i v => ?_
    rw [hbeta, mul_zero]
    rfl
  have hscale : ∀ dst : ℕ → ℤ, (∀ i, dst i = y + i * incy) →
      Updates {i | i < n} (fun i => y + i * incy) (fun _ v => v * beta)
        ((List.range n).map fun i => ⟨dst i, fun mem => mem (dst i) * beta⟩) := by
    intro dst hdst
    exact updates_range (injective_address hincy y) hdst (fun i m m' h => congrArg (fun v => v * beta) h) fun i v => rfl
  unfold scaleY
  simp only [firstIndex_of_nonneg hincy.le, zero_add]
  split_ifs with hone hunit hbeta hbeta
  · exact hzero _ (fun i => by rw [hunit, mul_one]) hbeta
  · exact hscale _ fun i => by rw [hunit, mul_one]
  · exact hzero _ (fun i => rfl) hbeta
  · exact hscale _ fun i => rfl
  · refine updates_nil.congr fun i _ v => ?_
    rw [not_not.mp hone, mul_one]

/-- Every element of `y` is scaled, and the product added to it. -/
theorem gemvKernelDriver_updates (hkernel : ∀ k, kernel = some k → k.Adds) (hm : 0 < m) (hincx : 0 < incx)
    (hincy : 0 < incy) (mallocFails : Bool) :
    Updates {i | i < n} (fun i => y + i * incy)
      (fun i v => v * beta + (∑ j ∈ Finset.range m, x (j * incx) * a (j + i * lda)) * alpha)
      (gemvKernelDriver kernel mallocFails m n alpha a lda x incx beta y incy) := by
  have hscale : Updates {i | i < n} (fun i => y + i * incy) (fun _ v => v * beta) (scaleY n beta y incy) := scaleY_updates hincy
  unfold gemvKernelDriver
  split_ifs with hquick halpha hunit hmalloc
  · rcases hquick with hzero | hzero | ⟨halpha, hbeta⟩
    · omega
    · subst hzero
      exact updates_nil.congr fun i hi v => absurd hi (Nat.not_lt_zero i)
    · refine updates_nil.congr fun i _ v => ?_
      rw [halpha, hbeta, mul_one, mul_zero, add_zero]
  · rw [List.append_nil]
    refine hscale.congr fun i _ v => ?_
    rw [halpha, mul_zero, add_zero]
  · subst hunit
    refine (hscale.append (gemvTKernel_updates hkernel hincy)).congr fun i _ v => ?_
    simp only [mul_one]
  · exact hscale.append (gathered_updates hincx hincy)
  · exact hscale.append (gemvTKernel_blocks hkernel hincx hincy)

/-- The band behind the first `off` elements of `y`. -/
theorem gemvKernelDriver_band (hkernel : ∀ k, kernel = some k → k.Adds) (hm : 0 < m) (hincx : 0 < incx)
    (hincy : 0 < incy) (mallocFails : Bool) (off : ℕ) :
    Updates {i | i < n} (fun i => y + (off + i : ℕ) * incy)
      (fun i v => v * beta + (∑ j ∈ Finset.range m, x (j * incx) * a (j + (off + i : ℕ) * lda)) * alpha)
      (gemvKernelDriver kernel mallocFails m n alpha (fun j => a (off * lda + j)) lda x incx beta (y + off * incy) incy) := by
  have hdst : (fun i : ℕ => y + off * incy + i * incy) = fun i => y + (off + i : ℕ) * incy := by
    funext i
    push_cast
    ring
  have ha : ∀ i j : ℕ, off * lda + (j + i * lda) = j + (off + i : ℕ) * lda := by
    intro i j
    push_cast
    ring
  have hband : Updates {i | i < n} (fun i : ℕ => y + off * incy + i * incy)
      (fun i v => v * beta + (∑ j ∈ Finset.range m, x (j * incx) * a (off * lda + (j + i * lda))) * alpha)
      (gemvKernelDriver kernel mallocFails m n alpha (fun j => a (off * lda + j)) lda x incx beta (y + off * incy) incy) :=
    gemvKernelDriver_updates (a := fun j => a (off * lda + j)) hkernel hm hincx hincy mallocFails
  rw [hdst] at hband
  simpa only [ha] using hband

/-! ## The bands -/

section Bands

variable {nthr t t' i : ℕ}

theorem decomposeVector_one (n : ℕ) : decomposeVector n 1 0 = (0, n) := by
  simp [decomposeVector, Nat.mod_one]

theorem decomposeVector_fst (ht : t ≤ nthr) : (decomposeVector n nthr t).1 = bandStart (n / nthr) (n % nthr) t := by
  have hsplit := Nat.div_add_mod n nthr
  have hmul : (nthr - t) * (n / nthr) = nthr * (n / nthr) - t * (n / nthr) := Nat.sub_mul _ _ _
  have hle : t * (n / nthr) ≤ nthr * (n / nthr) := Nat.mul_le_mul_right _ ht
  unfold decomposeVector bandStart
  dsimp only
  rw [Nat.mul_comm (n / nthr)]
  split_ifs with hlt
  · rw [Nat.min_eq_left hlt.le, Nat.mul_succ]
  · rw [Nat.min_eq_right (not_lt.mp hlt), hmul]
    omega

/-- A band ends where the next one begins. -/
theorem decomposeVector_end (ht : t ≤ nthr) :
    (decomposeVector n nthr t).1 + (decomposeVector n nthr t).2 = bandStart (n / nthr) (n % nthr) (t + 1) := by
  rw [bandStart_succ, decomposeVector_fst ht]
  unfold decomposeVector
  dsimp only
  split_ifs <;> rfl

theorem bandStart_last (hnthr : 0 < nthr) : bandStart (n / nthr) (n % nthr) nthr = n := by
  unfold bandStart
  rw [Nat.min_eq_right (Nat.mod_lt n hnthr).le, Nat.div_add_mod' n nthr]

/-- The element is in the band of the thread. -/
def InBand (n nthr t i : ℕ) : Prop :=
  (decomposeVector n nthr t).1 ≤ i ∧ i < (decomposeVector n nthr t).1 + (decomposeVector n nthr t).2

theorem inBand_iff (ht : t < nthr) :
    InBand n nthr t i ↔ bandStart (n / nthr) (n % nthr) t ≤ i ∧ i < bandStart (n / nthr) (n % nthr) (t + 1) := by
  unfold InBand
  rw [decomposeVector_end ht.le, decomposeVector_fst ht.le]

theorem InBand.lt (h : InBand n nthr t i) (ht : t < nthr) : i < n := by
  have hle := bandStart_mono (n / nthr) (n % nthr) (t + 1) nthr ht
  rw [bandStart_last (by omega)] at hle
  have hband := (inBand_iff ht).mp h
  omega

/-- The bands of two threads have no element in common. -/
theorem InBand.unique (h : InBand n nthr t i) (h' : InBand n nthr t' i) (ht : t < nthr) (ht' : t' < nthr) : t = t' :=
  band_unique (bandStart_mono _ _) ((inBand_iff ht).mp h) ((inBand_iff ht').mp h')

/-- Every element is in the band of a thread. -/
theorem exists_inBand (hnthr : 0 < nthr) (hi : i < n) : ∃ t < nthr, InBand n nthr t i := by
  have hfirst := bandStart_zero (n / nthr) (n % nthr)
  have hlast : i < bandStart (n / nthr) (n % nthr) nthr := by rwa [bandStart_last hnthr]
  obtain ⟨t, ht, hband⟩ := exists_band (by omega) hlast
  exact ⟨t, ht, (inBand_iff ht).mpr hband⟩

end Bands

/-! ## The threads -/

section Threads

variable {V : Type*}

/-- A parallel loop whose iterations update the bands of a vector. -/
theorem step_of_bands {nthr : ℕ} (hnthr : 0 < nthr) {ph : Phase ℤ V} {mem mem' : ℤ → V} (hdims : ph.dims = [nthr])
    {dst : ℕ → ℤ} (hdst : Function.Injective dst) {f : ℕ → V → V}
    (hbody : ∀ t < nthr, Updates {i | i < (decomposeVector n nthr t).2} (fun i => dst ((decomposeVector n nthr t).1 + i))
      (fun i => f ((decomposeVector n nthr t).1 + i)) (ph.body [t])) (h : ph.Step mem mem') :
    (∀ i < n, mem' (dst i) = f i (mem (dst i))) ∧ ∀ z, (∀ i < n, z ≠ dst i) → mem' z = mem z := by
  have hband : ∀ t < nthr, Updates {i | InBand n nthr t i} dst f (ph.body [t]) := by
    intro t ht
    have hset : {i | InBand n nthr t i} =
        Set.image (fun i => (decomposeVector n nthr t).1 + i) {i | i < (decomposeVector n nthr t).2} := by
      ext i
      constructor
      · rintro ⟨hlow, hhigh⟩
        exact ⟨i - (decomposeVector n nthr t).1, show i - (decomposeVector n nthr t).1 < _ by omega,
          Nat.add_sub_cancel' hlow⟩
      · rintro ⟨i, hi, rfl⟩
        exact ⟨Nat.le_add_right _ _, Nat.add_lt_add_left hi _⟩
    rw [hset]
    exact (hbody t ht).image
  have hown : ∀ idx ∈ digits ph.dims, ∃ t < nthr, idx = [t] := fun idx hidx => digits_singleton.mp (hdims ▸ hidx)
  constructor
  · intro i hi
    obtain ⟨t, ht, hi⟩ := exists_inBand hnthr hi
    refine Phase.Step.of_updates (fun idx => {i | InBand n nthr (idx.getD 0 0) i}) h hdst.injOn (fun _ _ => Set.subset_univ _)
      ?_ ?_ (hdims ▸ digits_singleton.mpr ⟨t, ht, rfl⟩ : [t] ∈ digits ph.dims) hi
    · intro idx hidx idx' hidx' hne i hi hi'
      obtain ⟨t, ht, rfl⟩ := hown idx hidx
      obtain ⟨t', ht', rfl⟩ := hown idx' hidx'
      exact hne (congrArg (fun t => [t]) (InBand.unique hi hi' ht ht'))
    · intro idx hidx
      obtain ⟨t, ht, rfl⟩ := hown idx hidx
      exact hband t ht
  · intro z hz
    apply h.of_ne
    intro idx hidx e he heq
    obtain ⟨t, ht, rfl⟩ := hown idx hidx
    obtain ⟨i, hi, hdst⟩ := (hband t ht).frame e he
    exact hz i (InBand.lt hi ht) (heq.symm.trans hdst)

theorem threadChecker_pos {env : Env V} (hmax : 0 < env.maxThreads) (m n : ℕ) : 0 < threadChecker env m n := by
  unfold threadChecker
  dsimp only
  split_ifs <;> omega

variable {env : Env R} {mem mem' : ℤ → R}

/-- The loop updates the vector. -/
theorem gemvThreadingDriver_runs (hmax : 0 < env.maxThreads) (hkernel : ∀ k, env.gemvKernel = some k → k.Adds) (hm : 0 < m)
    (hn : 0 < n) (hincx : 0 < incx) (hincy : 0 < incy)
    (hruns : Runs (gemvThreadingDriver env m n alpha a lda x incx beta y incy) mem mem') :
    (∀ i < n, mem' (y + (i : ℕ) * incy) =
      mem (y + i * incy) * beta + (∑ j ∈ Finset.range m, x (j * incx) * a (j + i * lda)) * alpha) ∧
    ∀ z, (∀ i < n, z ≠ y + (i : ℕ) * incy) → mem' z = mem z := by
  have hnthr := threadChecker_pos hmax m n
  have hstep : ∀ {nthr : ℕ} {ph : Phase ℤ R}, 0 < nthr → ph.dims = [nthr] →
      (∀ t < nthr, Updates {i | i < (decomposeVector n nthr t).2} (fun i => y + ((decomposeVector n nthr t).1 + i : ℕ) * incy)
        (fun i v => v * beta + (∑ j ∈ Finset.range m,
          x (j * incx) * a (j + ((decomposeVector n nthr t).1 + i : ℕ) * lda)) * alpha) (ph.body [t])) →
      Runs [ph] mem mem' → _ := fun hpos hdims hbody hrun =>
    step_of_bands hpos hdims (injective_address hincy y)
      (f := fun i v => v * beta + (∑ j ∈ Finset.range m, x (j * incx) * a (j + i * lda)) * alpha) hbody
      (runs_singleton.mp hrun)
  unfold gemvThreadingDriver at hruns
  rw [if_neg (by omega)] at hruns
  dsimp only at hruns
  rw [Int.toNat_natCast, Int.toNat_natCast] at hruns
  split_ifs at hruns with hone hneg
  · refine hstep Nat.one_pos rfl (fun t ht => ?_) hruns
    obtain rfl : t = 0 := by omega
    simpa only [decomposeVector_one, Nat.zero_add] using gemvKernelDriver_updates hkernel hm hincx hincy _
  · omega
  · simp only [add_zero] at hruns
    exact hstep hnthr rfl (fun t ht => gemvKernelDriver_band hkernel hm hincx hincy _ _) hruns

end Threads

/-! ## The product -/

section Product

/-- An element of `op(A)`. -/
def GemmInfo.opA (g : GemmInfo R) (i p : ℕ) : R :=
  if g.transa = .doTrans then g.a (p + i * g.lda) else g.a (i + p * g.lda)

/-- An element of `op(B)`. -/
def GemmInfo.opB (g : GemmInfo R) (p j : ℕ) : R :=
  if g.transb = .doTrans then g.b (j + p * g.ldb) else g.b (p + j * g.ldb)

/-- Where an element of the result is. -/
def GemmInfo.cOff (g : GemmInfo R) (i j : ℕ) : ℤ := g.c + (i + j * g.ldc)

/-- The product is in the window of `C`, added to what was there, and nothing else has changed. -/
structure GemmInfo.Multiplies (g : GemmInfo R) (mem mem' : ℤ → R) : Prop where
  window : ∀ i j : ℕ, i < g.m → j < g.n → mem' (g.cOff i j) =
    g.alpha * ∑ p ∈ Finset.range g.k.toNat, g.opA i p * g.opB p j + g.beta * mem (g.cOff i j)
  frame : ∀ z, (∀ i j : ℕ, i < g.m → j < g.n → z ≠ g.cOff i j) → mem' z = mem z

variable {env : Env R} {g : GemmInfo R} {mem mem' : ℤ → R}

/-- One column of `B`. -/
theorem multiplies_of_column (hmax : 0 < env.maxThreads) (hkernel : ∀ k, env.gemvKernel = some k → k.Adds)
    (hm : 0 < g.m) (hn : g.n = 1) (hk : 0 < g.k) (hldb : 0 < g.ldb) (htransa : g.transa = .doTrans)
    (htransb : g.transb ≠ .packed) (hruns : Runs (gemvThreadingDriver env g.k g.m g.alpha g.a g.lda g.b
      (if g.transb = .noTrans then 1 else g.ldb) g.beta g.c 1) mem mem') : g.Multiplies mem mem' := by
  obtain ⟨k, hk'⟩ := Int.eq_ofNat_of_zero_le hk.le
  obtain ⟨m, hm'⟩ := Int.eq_ofNat_of_zero_le hm.le
  rw [hk', hm'] at hruns
  have hincx : 0 < if g.transb = .noTrans then 1 else g.ldb := by
    split_ifs
    · exact Int.one_pos
    · exact hldb
  have hresult := gemvThreadingDriver_runs hmax hkernel (by omega) (by omega) hincx Int.one_pos hruns
  have hcOff : ∀ i, g.cOff i 0 = g.c + i * 1 := by
    intro i
    unfold GemmInfo.cOff
    push_cast
    ring
  constructor
  · intro i j hi hj
    obtain rfl : j = 0 := by omega
    have hterm : ∀ p : ℕ, g.b (p * if g.transb = .noTrans then 1 else g.ldb) * g.a (p + i * g.lda) =
        g.opA i p * g.opB p 0 := by
      intro p
      unfold GemmInfo.opA GemmInfo.opB
      rw [if_pos htransa, mul_comm]
      congr 1
      cases htrans : g.transb with
      | noTrans => simp
      | doTrans => simp
      | packed => exact absurd htrans htransb
    rw [hcOff, hresult.1 i (by omega), hk', Int.toNat_natCast]
    simp only [hterm]
    ring
  · intro z hz
    refine hresult.2 z fun i hi => ?_
    rw [← hcOff]
    exact hz i 0 (by omega) (by omega)

/-- One row of `A`. -/
theorem multiplies_of_row (hmax : 0 < env.maxThreads) (hkernel : ∀ k, env.gemvKernel = some k → k.Adds)
    (hm : g.m = 1) (hn : 0 < g.n) (hk : 0 < g.k) (hlda : 0 < g.lda) (hldc : 0 < g.ldc) (htransa : g.transa ≠ .packed)
    (htransb : g.transb = .noTrans) (hruns : Runs (gemvThreadingDriver env g.k g.n g.alpha g.b g.ldb g.a
      (if g.transa = .noTrans then g.lda else 1) g.beta g.c g.ldc) mem mem') : g.Multiplies mem mem' := by
  obtain ⟨k, hk'⟩ := Int.eq_ofNat_of_zero_le hk.le
  obtain ⟨n, hn'⟩ := Int.eq_ofNat_of_zero_le hn.le
  rw [hk', hn'] at hruns
  have hincx : 0 < if g.transa = .noTrans then g.lda else 1 := by
    split_ifs
    · exact hlda
    · exact Int.one_pos
  have hresult := gemvThreadingDriver_runs hmax hkernel (by omega) (by omega) hincx hldc hruns
  have hcOff : ∀ j, g.cOff 0 j = g.c + j * g.ldc := by
    intro j
    unfold GemmInfo.cOff
    push_cast
    ring
  constructor
  · intro i j hi hj
    obtain rfl : i = 0 := by omega
    have hterm : ∀ p : ℕ, g.a (p * if g.transa = .noTrans then g.lda else 1) * g.b (p + j * g.ldb) =
        g.opA 0 p * g.opB p j := by
      intro p
      unfold GemmInfo.opA GemmInfo.opB
      rw [htransb, if_neg (by decide : Trans.noTrans ≠ .doTrans)]
      congr 1
      cases htrans : g.transa with
      | noTrans => simp
      | doTrans => simp
      | packed => exact absurd htrans htransa
    rw [hcOff, hresult.1 j (by omega), hk', Int.toNat_natCast]
    simp only [hterm]
    ring
  · intro z hz
    refine hresult.2 z fun j hj => ?_
    rw [← hcOff]
    exact hz 0 j (by omega) (by omega)

end Product

/-! ## Accepted arguments -/

section Accepted

open GemmApi (Args checkGemmInput)

variable {args : Args 32} {withBias : Bool}

/-- The leading dimensions that `check_gemm_input` accepts for operands that are not packed are positive. -/
theorem ld_pos (hcheck : checkGemmInput args withBias = .ok ()) (hA : decodeTrans args.transa ≠ .packed)
    (hB : decodeTrans args.transb ≠ .packed) :
    0 < args.sizes.lda.toInt ∧ 0 < args.sizes.ldb.toInt ∧ 0 < args.sizes.ldc.toInt := by
  have hpacked : ∀ trans : Char, decodeTrans trans ≠ .packed → trans ∉ ['P', 'p'] := by
    intro trans hne hmem
    refine hne ?_
    unfold decodeTrans
    rw [if_neg, if_pos hmem]
    rintro hT
    simp only [List.mem_cons, List.not_mem_nil, or_false] at hmem hT
    rcases hmem with rfl | rfl <;> exact absurd hT (by decide)
  unfold checkGemmInput at hcheck
  dsimp only at hcheck
  generalize (if args.transa ∈ ['T', 't'] then args.sizes.K.toInt else args.sizes.M.toInt) = nrowA at hcheck
  generalize (if args.transb ∈ ['T', 't'] then args.sizes.N.toInt else args.sizes.K.toInt) = nrowB at hcheck
  split_ifs at hcheck with hbias hvalid hld
  obtain ⟨ha, hb, hc⟩ := hld
  have hlda := ha.resolve_left (hpacked _ hA)
  have hldb := hb.resolve_left (hpacked _ hB)
  exact ⟨by omega, by omega, by omega⟩

/-- Where `jump_to_gemv` computes the product of operands that are not packed, it does so for every number of threads and
every order of their assignments, whether its vectors are allocated or not. -/
theorem jumpToGemv_multiplies (env : Env R) (hmax : 0 < env.maxThreads) (hkernel : ∀ k, env.gemvKernel = some k → k.Adds)
    (hcheck : checkGemmInput args withBias = .ok ()) (hA : decodeTrans args.transa ≠ .packed)
    (hB : decodeTrans args.transb ≠ .packed) (hM : 1 ≤ args.sizes.M.toInt) (hN : 1 ≤ args.sizes.N.toInt)
    (hK : 1 ≤ args.sizes.K.toInt) (alpha : R) (a b : ℤ → R) (beta : R) (c : ℤ) {phs : List (Phase ℤ R)}
    (hjump : jumpToGemv env (GemmInfo.init args alpha a b beta c) = some phs) {mem mem' : ℤ → R}
    (hruns : Runs phs mem mem') : (GemmInfo.init args alpha a b beta c).Multiplies mem mem' := by
  obtain ⟨hlda, hldb, hldc⟩ := ld_pos hcheck hA hB
  unfold jumpToGemv at hjump
  split at hjump
  case isTrue hzero => exact absurd (show args.sizes.K.toInt = 0 from hzero) (by omega)
  case isFalse =>
    split at hjump
    case isTrue hcolumn =>
      obtain rfl := Option.some.inj hjump
      exact multiplies_of_column hmax hkernel hM hcolumn.1 hK hldb hcolumn.2 hB hruns
    case isFalse =>
      split at hjump
      case isTrue hrow =>
        obtain rfl := Option.some.inj hjump
        exact multiplies_of_row hmax hkernel hrow.1 hN hK hlda hldc hA hrow.2 hruns
      case isFalse => cases hjump

/-- Two transposed operands, with the column of `B` in a row of three elements. -/
def transposedColumn : Args 32 :=
  ⟨'T', 't', none, ⟨2, 1, 2, 2, 3, 2⟩, ⟨0x40000000⟩, 0, none, 0, none, ⟨0x40400000⟩, none⟩

/-- The loops of `gemv_t_kernel` in the place of the generated code, and one call of two without its vector. -/
def scalarEnv : Env ℤ := ⟨some (gemvTKernel none), true, false, 4, fun ithr => ithr % 2 = 0⟩

theorem jumpToGemv_multiplies_transposed : ∃ phs mem',
    jumpToGemv scalarEnv (GemmInfo.init transposedColumn 2 (fun z => z + 1) (fun z => z + 1) 3 0) = some phs ∧
      Runs phs (fun _ => 1) mem' ∧ mem' 0 = 21 ∧ mem' 1 = 41 ∧ mem' 2 = 1 := by
  obtain ⟨phs, hjump⟩ : ∃ phs, jumpToGemv scalarEnv
      (GemmInfo.init transposedColumn 2 (fun z => z + 1) (fun z => z + 1) 3 0) = some phs := ⟨_, rfl⟩
  obtain ⟨mem', hruns⟩ := exists_runs phs fun _ => 1
  have hkernel : ∀ k, scalarEnv.gemvKernel = some k → k.Adds := by
    intro k hk
    obtain rfl := Option.some.inj hk
    intro m n alpha a lda x incy y hincy
    exact gemvTKernel_updates (fun k hk => nomatch hk) hincy
  have h := jumpToGemv_multiplies scalarEnv (by decide) hkernel (show checkGemmInput transposedColumn false = .ok () from rfl)
    (by decide) (by decide) (by decide) (by decide) (by decide) 2 (fun z => z + 1) (fun z => z + 1) 3 0 hjump hruns
  refine ⟨phs, mem', hjump, hruns, ?_, ?_, ?_⟩
  · exact (h.window 0 0 (by decide) (by decide)).trans (by decide)
  · exact (h.window 1 0 (by decide) (by decide)).trans (by decide)
  · refine h.frame 2 fun i j hi hj heq => ?_
    have hm : (i : ℤ) < 2 := hi
    have hn : (j : ℤ) < 1 := hj
    have hoff : (2 : ℤ) = 0 + (i + j * 2) := heq
    omega

end Accepted

end MklDnn.GemvDriver
