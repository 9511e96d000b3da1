import MklDnn.Conv.Proofs.Avx512LayoutProofs

/-!
# Proofs: the kernels of the AVX-512 backward data convolution

Which loop of the generated code a configuration takes, and the steps of that loop.
-/

namespace MklDnn.Avx512BwdData

open Avx512

namespace Problem

variable {p : Problem} {isa : CpuIsa} {l1CacheSize : ℕ} {jcp : Jcp}

/-! ## The choices of the configuration -/

/-- The kernel with the instructions `4fma` takes two blocks of input channels at a time, and one is left over. -/
def LosesBlock (p : Problem) (isa : CpuIsa) : Prop :=
  isa = .avx512Mic4ops ∧ (p.width.stride = 1 ∧ p.height.stride = 1 ∧ p.depth.stride = 1) ∧
    (p.width.kernel = 3 ∧ p.height.kernel = 3 ∧ p.width.input = 7 ∧ p.height.input = 7) ∧ p.nbIc % 2 = 1

/-- The kernel for `avx512_core` takes two blocks of input channels at a time; its loop takes each filter depth although
there are strides in the depth. -/
def StepsByOne (p : Problem) (isa : CpuIsa) (l1CacheSize : ℕ) : Prop :=
  isa = .avx512Core ∧ p.depth.stride ≠ 1 ∧ p.height.stride = 1 ∧ p.nbIc % 2 = 0 ∧ p.prefersOneBlock l1CacheSize = false

/-- The first number downwards that satisfies a condition. -/
theorem find_down {n : ℕ} {P : ℕ → Bool} {i : ℕ} (h : ((List.range n).map (n - ·)).find? P = some i) :
    0 < i ∧ P i = true := by
  refine ⟨?_, List.find?_some h⟩
  obtain ⟨k, hk, rfl⟩ := List.mem_map.mp (List.mem_of_find?_eq_some h)
  have hk := List.mem_range.mp hk
  omega

theorem nbIcBlocking4fma_spec :
    0 < p.nbIcBlocking4fma ∧
      (¬ (p.width.kernel = 3 ∧ p.height.kernel = 3 ∧ p.width.input = 7 ∧ p.height.input = 7) →
        p.nbIcBlocking4fma ∣ p.nbIc) := by
  unfold nbIcBlocking4fma
  by_cases hspecial : p.width.kernel = 3 ∧ p.height.kernel = 3 ∧ p.width.input = 7 ∧ p.height.input = 7
  · rw [if_pos hspecial]
    exact ⟨by decide, fun hne => absurd hspecial hne⟩
  · rw [if_neg hspecial]
    cases hfind : ((List.range p.nbIc).map (p.nbIc - ·)).find? fun i => i * p.urW ≤ regs ∧ p.nbIc % i = 0 with
    | none => exact ⟨Nat.one_pos, fun _ => one_dvd _⟩
    | some i =>
      obtain ⟨hpos, hcond⟩ := find_down hfind
      have hcond := of_decide_eq_true hcond
      exact ⟨hpos, fun _ => Nat.dvd_of_mod_eq_zero hcond.2⟩

/-- The blocks of the kernel that loads the inputs first. -/
theorem explBlocking_spec (hnb : 0 < p.nbIc) (nb : ℕ) (hnb4 : nb = if p.nbIc < 4 then p.nbIc else 4) :
    let b := if p.nbIc % nb ≠ 0 then (((List.range nb).map (nb - ·)).find? fun i => p.nbIc % i = 0).getD nb else nb
    0 < b ∧ b ∣ p.nbIc := by
  have hpos : 0 < nb := by
    rw [hnb4]
    split_ifs <;> omega
  dsimp only
  by_cases hmod : p.nbIc % nb = 0
  · rw [if_neg (not_not.mpr hmod)]
    exact ⟨hpos, Nat.dvd_of_mod_eq_zero hmod⟩
  · rw [if_pos hmod]
    cases hfind : ((List.range nb).map (nb - ·)).find? fun i => p.nbIc % i = 0 with
    | none =>
      rw [List.find?_eq_none] at hfind
      refine absurd ?_ (hfind 1 (List.mem_map.mpr ⟨nb - 1, List.mem_range.mpr (by omega), by omega⟩))
      simp [Nat.mod_one]
    | some i =>
      obtain ⟨hipos, hcond⟩ := find_down hfind
      exact ⟨hipos, Nat.dvd_of_mod_eq_zero (of_decide_eq_true hcond)⟩

/-- What the drivers and the generated code rely on. -/
structure Choices (p : Problem) (isa : CpuIsa) (l1CacheSize : ℕ) (jcp : Jcp) : Prop where
  nbIcBlocking_pos : 0 < jcp.nbIcBlocking
  dvd_iff : jcp.nbIcBlocking ∣ p.nbIc ↔ ¬ p.LosesBlock isa
  one_block : jcp.computeLoop isa = .computeLoopFma → jcp.nbIcBlocking = 1
  height_steps : (jcp.computeLoop isa).steps p.height = (p.height.stride, p.height.dilate + 1)
  depth_steps : ¬ p.StepsByOne isa l1CacheSize →
    (jcp.computeLoop isa).steps p.depth = (p.depth.stride, p.depth.dilate + 1)
  depth_steps_one : p.StepsByOne isa l1CacheSize → (jcp.computeLoop isa).steps p.depth = (1, p.depth.dilate + 1)

/-- A processor without the special kernels: one block of input channels, and the loop that takes the steps of the axis. -/
theorem choices_of_fma (hloop : jcp.computeLoop isa = .computeLoopFma) (hnb : jcp.nbIcBlocking = 1)
    (hloses : ¬ p.LosesBlock isa) (hsteps : ¬ p.StepsByOne isa l1CacheSize) : p.Choices isa l1CacheSize jcp where
  nbIcBlocking_pos := by omega
  dvd_iff := by
    rw [hnb]
    exact iff_of_true (one_dvd _) hloses
  one_block _ := hnb
  height_steps := by rw [hloop]; rfl
  depth_steps _ := by rw [hloop]; rfl
  depth_steps_one h := absurd h hsteps

/-- The loops of `avx512_core` for several blocks of input channels. -/
theorem choices_of_core (hloop : jcp.computeLoop .avx512Core = .computeLoopFmaCore) (hpos : 0 < jcp.nbIcBlocking)
    (hdvd : jcp.nbIcBlocking ∣ p.nbIc) (hheight : p.height.stride = 1)
    (hdepth : ¬ p.StepsByOne .avx512Core l1CacheSize → p.depth.stride = 1) : p.Choices .avx512Core l1CacheSize jcp where
  nbIcBlocking_pos := hpos
  dvd_iff := iff_of_true hdvd fun hloses => by cases hloses.1
  one_block h := by rw [hloop] at h; cases h
  height_steps := by rw [hloop, hheight]; rfl
  depth_steps hsteps := by rw [hloop, hdepth hsteps]; rfl
  depth_steps_one _ := by rw [hloop]; rfl

namespace Accepted

variable (h : p.Accepted isa l1CacheSize jcp)

include h

theorem width_pos : 0 < p.width.stride ∧ 0 < p.height.stride ∧ 0 < p.depth.stride := by
  have hstrides := h.wellFormed.strides
  unfold width height depth
  rcases h.wellFormed.rank with hr | hr
  · have h0 := hstrides 0 (by omega)
    have h1 := hstrides 1 (by omega)
    simp only [hr, Nat.reduceEqDiff, if_false, Nat.reduceSub]
    omega
  · have h0 := hstrides 0 (by omega)
    have h1 := hstrides 1 (by omega)
    have h2 := hstrides 2 (by omega)
    simp only [hr, Nat.reduceEqDiff, if_false, if_true, Nat.reduceSub]
    omega

theorem choices : p.Choices isa l1CacheSize jcp := by
  have hc := h.configured
  obtain ⟨-, hheight, hdepth⟩ := h.width_pos
  have hver : jcp.ver = p.ver isa := by rw [hc.jcp_eq]
  have hkind : jcp.kernelKind = (p.blocking isa l1CacheSize).kernelKind := by rw [hc.jcp_eq]
  have hnb : jcp.nbIcBlocking = (p.blocking isa l1CacheSize).nbIcBlocking := by rw [hc.jcp_eq]
  have hloop : jcp.computeLoop isa = if p.ver isa = .ver4fma then .computeLoop4fma
      else if isa.isMic then .computeLoopFma
      else if jcp.kernelKind = .embdBcast ∧ jcp.nbIcBlocking = 1 then .computeLoopFma else .computeLoopFmaCore := by
    rw [Jcp.computeLoop, hver]
  cases isa with
  | avx512Common =>
    have hfma : p.ver .avx512Common = .verFma := rfl
    have hblocking : p.blocking .avx512Common l1CacheSize = ⟨1, .embdBcast, p.urWForCodeSize⟩ := by
      unfold blocking
      rw [if_neg (fun h => absurd h.2 (by decide)), hfma]
      rfl
    rw [hblocking] at hkind hnb
    refine choices_of_fma ?_ hnb (fun h => by cases h.1) fun h => by cases h.1
    rw [hloop, hfma, if_neg (by decide), if_neg (by decide), if_pos ⟨hkind, hnb⟩]
  | avx512Mic =>
    have hfma : p.ver .avx512Mic = .verFma := rfl
    have hblocking : p.blocking .avx512Mic l1CacheSize = ⟨1, .embdBcast, p.urWForCodeSize⟩ := by
      unfold blocking
      rw [if_neg (fun h => absurd h.2 (by decide)), hfma]
      rfl
    rw [hblocking] at hnb
    refine choices_of_fma ?_ hnb (fun h => by cases h.1) fun h => by cases h.1
    rw [hloop, hfma, if_neg (by decide), if_pos (by decide)]
  | avx512Mic4ops =>
    by_cases hunit : p.width.stride = 1 ∧ p.height.stride = 1 ∧ p.depth.stride = 1
    · have h4fma : p.ver .avx512Mic4ops = .ver4fma := if_pos ⟨rfl, hunit⟩
      have hblocking : p.blocking .avx512Mic4ops l1CacheSize = ⟨p.nbIcBlocking4fma, .embdBcast, p.urWForCodeSize⟩ := by
        unfold blocking
        rw [if_neg (fun h => absurd h.2 (by decide)), h4fma]
        rfl
      rw [hblocking] at hnb
      have hnb : jcp.nbIcBlocking = p.nbIcBlocking4fma := hnb
      rw [h4fma, if_pos rfl] at hloop
      obtain ⟨hpos, hdvd⟩ := p.nbIcBlocking4fma_spec
      obtain ⟨hddilate, hhdilate⟩ := hc.dilates h4fma
      refine ⟨by rw [hnb]; exact hpos, ?_, fun h => absurd (hloop.symm.trans h) (by decide), ?_, fun _ => ?_,
        fun h => absurd h.1 (by decide)⟩
      · by_cases hspecial : p.width.kernel = 3 ∧ p.height.kernel = 3 ∧ p.width.input = 7 ∧ p.height.input = 7
        · have htwo : p.nbIcBlocking4fma = 2 := if_pos hspecial
          rw [hnb, htwo, Nat.dvd_iff_mod_eq_zero]
          constructor
          · rintro hmod ⟨-, -, -, hodd⟩
            omega
          · intro hloses
            by_contra hodd
            exact hloses ⟨rfl, hunit, hspecial, by omega⟩
        · rw [hnb]
          exact iff_of_true (hdvd hspecial) fun hloses => hspecial hloses.2.2.1
      · rw [hloop, hunit.2.1, hhdilate]
        rfl
      · rw [hloop, hunit.2.2, hddilate]
        rfl
    · have hfma : p.ver .avx512Mic4ops = .verFma := if_neg fun h => hunit h.2
      have hblocking : p.blocking .avx512Mic4ops l1CacheSize = ⟨1, .embdBcast, p.urWForCodeSize⟩ := by
        unfold blocking
        rw [if_neg (fun h => absurd h.2 (by decide)), hfma]
        rfl
      rw [hblocking] at hnb
      refine choices_of_fma ?_ hnb (fun h => hunit h.2.1) fun h => by cases h.1
      rw [hloop, hfma, if_neg (by decide), if_pos (by decide)]
  | avx512Core =>
    have hfma : p.ver .avx512Core = .verFma := rfl
    have hblocking : p.blocking .avx512Core l1CacheSize = p.coreBlocking l1CacheSize := if_pos ⟨rfl, rfl⟩
    rw [hblocking] at hkind hnb
    rw [hfma, if_neg (by decide), if_neg (by decide)] at hloop
    by_cases hembd : p.wantsEmbdBcast l1CacheSize = true
    · by_cases htwo : (!p.prefersOneBlock l1CacheSize) = true ∧ p.height.stride = 1 ∧ p.nbIc % 2 = 0
      · have hcore : p.coreBlocking l1CacheSize = ⟨2, .embdBcast, min p.width.input (31 / (2 + 1))⟩ := by
          rw [coreBlocking, if_pos hembd, if_pos htwo]
        rw [hcore] at hnb
        have hnb : jcp.nbIcBlocking = 2 := hnb
        rw [if_neg fun h => by omega] at hloop
        refine choices_of_core hloop (by omega) (by rw [hnb]; exact Nat.dvd_of_mod_eq_zero htwo.2.2) htwo.2.1 ?_
        intro hsteps
        by_contra hstride
        exact hsteps ⟨rfl, hstride, htwo.2.1, htwo.2.2, by simpa using htwo.1⟩
      · have hcore : p.coreBlocking l1CacheSize = ⟨1, .embdBcast, min p.width.input regs⟩ := by
          rw [coreBlocking, if_pos hembd, if_neg htwo]
        rw [hcore] at hkind hnb
        refine choices_of_fma (by rw [hloop, if_pos ⟨hkind, hnb⟩]) hnb (fun h => by cases h.1) ?_
        rintro ⟨-, -, hheight1, heven, hprefers⟩
        exact htwo ⟨by rw [hprefers]; rfl, hheight1, heven⟩
    · have hspec := explBlocking_spec h.nbIc_pos _ rfl
      unfold coreBlocking at hkind hnb
      rw [if_neg hembd] at hkind hnb
      dsimp only at hkind hnb hspec
      have hsmall : p.height.stride = 1 ∧ p.depth.stride = 1 := by
        unfold wantsEmbdBcast at hembd
        dsimp only at hembd
        simp only [Bool.or_eq_true, decide_eq_true_eq, not_or] at hembd
        omega
      rw [if_neg fun h => by rw [hkind] at h; cases h.1] at hloop
      rw [← hnb] at hspec
      exact choices_of_core hloop hspec.1 hspec.2 hsmall.1 fun _ => hsmall.2

end Accepted

end Problem

end MklDnn.Avx512BwdData
