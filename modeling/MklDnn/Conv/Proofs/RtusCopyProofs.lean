import MklDnn.Conv.Proofs.RtusDriverProofs

/-!
# Proofs: the copies and the scatter of the reduction to unit strides

The copy of the forward pass is right for every problem. That of the backward weights pass takes the first blocks of
channels for the later ones when the loop over the blocks takes a second step. The scatter goes wrong exactly where rows
are not skipped although there are several.
-/

open LoopNest

namespace MklDnn.Rtus

/-! ## What the passes rely on -/

/-- The stores of a call that copies the source of each output position of its range, block by block. -/
def Problem.copyStores {V : Type} (p : Problem) (c : Call) (src : ℕ → V) : List (ℕ × V) :=
  (List.range c.params.icb).flatMap fun b => (List.range c.params.os).map fun k =>
    (c.params.ws + b * (p.oh * p.ow) + k,
      src (p.dataBlkOff c.n (c.cb + b) ((c.os + k) / p.ow * p.strideH) ((c.os + k) % p.ow * p.strideW)))

/-- Each call of the forward pass copies its range. -/
def Problem.FwdCopies (p : Problem) : Prop :=
  ∀ (V : Type) [Zero V] (src : ℕ → V), ∀ ur ∈ [3, 4], ∀ nthr ithr, ∀ c ∈ p.fwdCalls (p.fwdJcp ur) nthr ithr,
    (p.driver (p.fwdJcp ur).is true).ker src c.params = p.copyStores c src

/-- Each call of the backward weights pass copies its range. -/
def Problem.WeightsCopies (p : Problem) : Prop :=
  ∀ (V : Type) [Zero V] (src : ℕ → V), ∀ ithr img cb spStart spEnd, spEnd ≤ p.oh * p.ow →
    ∀ c ∈ p.bwdWeightsCalls p.bwdWeightsJcp ithr img cb spStart spEnd,
      (p.driver p.bwdWeightsJcp.is true).ker src c.params = p.copyStores c src

/-- If the workspace of each call of the backward data pass holds the results `out` of the positions of the call, then
the calls of all threads store each element of `diff_src` once: the result of a position at its place, and zero
elsewhere. -/
def Problem.DataScatters (p : Problem) : Prop :=
  ∀ (V : Type) [Zero V] (out : ℕ → ℕ → ℕ → V) (ws : ℕ → Call → ℕ → V), ∀ ur ∈ [3, 4], ∀ nthr, 0 < nthr →
    (∀ ithr < nthr, ∀ c ∈ p.bwdDataCalls (p.bwdDataJcp ur) nthr ithr, ∀ b < c.params.icb, ∀ k < c.params.os,
      ws ithr c (c.params.ws + b * (p.oh * p.ow) + k) = out c.n (c.cb + b) (c.os + k)) →
    ((List.range nthr).flatMap fun ithr => (p.bwdDataCalls (p.bwdDataJcp ur) nthr ithr).flatMap fun c =>
      (p.driver (p.bwdDataJcp ur).is false).ker (ws ithr c) c.params).Perm
    ((List.range (p.srcD.dims 0)).flatMap fun n => (List.range p.nbC).flatMap fun cb =>
      (List.range p.ih).flatMap fun y => (List.range p.iw).map fun x =>
        (p.dataBlkOff n cb y x, Driver.scattered p.strideH p.strideW p.ow (out n cb) y x))

/-! ## The configurations -/

theorem divUp_rndUp (a : ℕ) {b : ℕ} (hb : 0 < b) : divUp (rndUp a b) b = divUp a b := by
  rw [rndUp, Nat.mul_comm, divUp_mul _ hb]

theorem fwdJcp_valid (p : Problem) {ur : ℕ} (hur : ur ∈ [3, 4]) : (p.fwdJcp ur).Valid := by
  have hur : ur = 3 ∨ ur = 4 := by simpa using hur
  rcases hur with rfl | rfl
  · exact ⟨by show 0 < 3; decide, rfl, by show 0 < 128 / 3; decide, by show 128 / 3 ≤ 192 / 3; decide⟩
  · exact ⟨by show 0 < 4; decide, rfl, by show 0 < 128 / 4; decide, by show 128 / 4 ≤ 192 / 4; decide⟩

theorem bwdDataJcp_valid (p : Problem) {ur : ℕ} (hur : ur ∈ [3, 4]) : (p.bwdDataJcp ur).Valid := by
  have hur : ur = 3 ∨ ur = 4 := by simpa using hur
  rcases hur with rfl | rfl
  · exact ⟨by show 0 < 3; decide, rfl, by show 0 < 128 / 3; decide, by show 128 / 3 ≤ 196 / 3; decide⟩
  · exact ⟨by show 0 < 4; decide, rfl, by show 0 < 128 / 4; decide, by show 128 / 4 ≤ 196 / 4; decide⟩

theorem bwdDataJcp_loadValid (p : Problem) (ur : ℕ) : (p.bwdDataJcp ur).LoadValid := by
  refine ⟨by show 0 < 8; decide, ?_, by show 0 < 96 / 8; decide, by show 96 / 8 ≤ 144 / 8; decide⟩
  show rndUp _ 8 = divUp (rndUp _ 8) 8 * 8
  rw [divUp_rndUp _ (by decide)]
  rfl

/-- A loop that is shorter than the last step takes one step. -/
theorem fst_eq_zero_of_mem_stepLoop {defaultStep tailStep fin fuel : ℕ} (hlt : fin < tailStep) {l : ℕ × ℕ}
    (hl : l ∈ stepLoop defaultStep tailStep fin fuel 0) : l.1 = 0 := by
  cases fuel with
  | zero => cases hl
  | succ fuel =>
    rw [stepLoop] at hl
    split_ifs at hl
    · have hs : step defaultStep (fin - 0) tailStep = fin := if_pos hlt
      dsimp only at hl
      rw [hs, Nat.zero_add] at hl
      rcases List.mem_cons.mp hl with rfl | hl
      · rfl
      · cases fuel with
        | zero => cases hl
        | succ fuel =>
          rw [stepLoop, if_neg (Nat.lt_irrefl fin)] at hl
          cases hl
    · cases hl

/-- A longer loop over blocks of channels takes a second step. -/
theorem exists_second_step {fin : ℕ} (hge : 18 ≤ fin) : ∃ s, 0 < s ∧ (12, s) ∈ stepLoop 12 18 fin fin 0 := by
  obtain ⟨m, rfl⟩ : ∃ m, fin = m + 1 + 1 := ⟨fin - 2, by omega⟩
  refine ⟨step 12 (m + 1 + 1 - 12) 18, step_pos (by decide) (by omega), ?_⟩
  have hs : step 12 (m + 1 + 1 - 0) 18 = 12 := if_neg (by omega)
  rw [stepLoop, if_pos (by omega)]
  dsimp only
  rw [hs, Nat.zero_add, stepLoop, if_pos (by omega)]
  exact List.mem_cons_of_mem _ List.mem_cons_self

namespace Problem.Accepted

variable {p : Problem} (h : p.Accepted)

include h

/-- The image is laid out in blocks of eight channels. -/
theorem tagLayout :
    TagLayout p.srcD ⟨if p.ndims = 3 then [0, 1, 2] else [0, 1, 2, 3], [8], [1]⟩ := by
  obtain ⟨ndims, dims, dt, hmd⟩ := h.format
  set tag : FormatTag := if p.ndims = 3 then .aBc8b else .aBcd8b with htag
  have hargs : blockingArgs tag = some ⟨if p.ndims = 3 then [0, 1, 2] else [0, 1, 2, 3], [8], [1]⟩ ∧
      tag.kind = .blocked := by
    rw [htag]
    split_ifs
    · exact ⟨rfl, rfl⟩
    · exact ⟨rfl, rfl⟩
  obtain ⟨hargs, hkind⟩ := hargs
  have hk : p.srcD.formatKind = .blocked := by
    unfold memoryDescInitByTag at hmd
    split_ifs at hmd with h0 hsane hany
    · -- the image has dimensions
      have hzero : p.ndims = 0 := by rw [Problem.ndims, ← Except.ok.inj hmd, zeroMd]
      rcases h.rank with hr | hr <;> omega
    · rw [hany] at hkind
      cases hkind
    · rw [hkind] at hmd
      obtain ⟨-, _, -, -, -, hfill⟩ := computeBlocking_cases hmd
      exact (fillBlocked_fields hfill).2.2.2.1
  obtain ⟨args, hargs', hlayout⟩ := memoryDescInitByTag_tagLayout hmd hk
  obtain rfl := Option.some.inj (hargs.symm.trans hargs')
  exact hlayout

theorem nbC_eq : p.nbC = divUp (p.srcD.dims 1) 8 := by
  have hlayout := h.tagLayout
  have hinner : innerBlocks p.srcD.blocking.inner 1 = 8 := by
    rw [hlayout.inner]
    rfl
  have h1 : 1 < p.srcD.ndims := by
    have hnd : p.srcD.ndims = p.ndims := rfl
    rcases h.rank with hr | hr <;> omega
  rw [Problem.nbC, hlayout.paddedDims 1 h1, hinner, rndUp_div (by decide)]

theorem os_pos : 0 < p.oh * p.ow := Nat.mul_pos h.oh_pos h.ow_pos

/-! ## Copying -/

/-- A call that starts at the source of its range copies the range. -/
theorem ker_copy {V : Type} [Zero V] (src : ℕ → V) {c : Call} (hrange : c.os + c.params.os ≤ p.oh * p.ow) {cb : ℕ}
    (hsrc : c.params.src = p.dataBlkOff c.n cb (p.startH c.os) (p.startW c.os))
    (hiw : c.params.iwStart = p.startW c.os) :
    (p.driver (p.oh * p.ow) true).ker src c.params =
      (List.range c.params.icb).flatMap fun b => (List.range c.params.os).map fun k =>
        (c.params.ws + b * (p.oh * p.ow) + k,
          src (p.dataBlkOff c.n (cb + b) ((c.os + k) / p.ow * p.strideH) ((c.os + k) % p.ow * p.strideW))) := by
  rw [Driver.ker]
  refine List.flatMap_congr fun b _ => ?_
  rw [hsrc, hiw, h.regs_eq, Driver.loopIs_copy (h.fits _ true) rfl src _ hrange]
  refine List.map_congr_left fun k _ => ?_
  rw [srcOff_eq]
  rfl

theorem fwdCopies : p.FwdCopies := by
  intro V _ src ur hur nthr ithr c hc
  have hv := fwdJcp_valid p hur
  have hpos : 0 < (p.fwdJcp ur).nbBcast := by
    rw [hv.nbBcast]
    exact divUp_pos h.os_pos hv.bcastBlock_pos
  simp only [Problem.fwdCalls, List.mem_flatMap, List.mem_map] at hc
  obtain ⟨b, hb, i, -, rfl⟩ := hc
  exact h.ker_copy src (bcast_range hv hpos hb) rfl rfl

omit h in
/-- The calls of the backward weights pass read the blocks of channels from `cb` on. -/
theorem bwdWeights_src (img cb os : ℕ) :
    p.dataBlkOff img cb 0 0 + p.startH os * p.iw + p.startW os =
      p.dataBlkOff img cb (p.startH os) (p.startW os) := by
  unfold Problem.dataBlkOff
  ring

omit h in
/-- Different blocks of channels start at different offsets. -/
theorem dataBlkOff_inj (hih : 0 < p.ih) (hiw : 0 < p.iw) {n c c' y x : ℕ}
    (heq : p.dataBlkOff n c y x = p.dataBlkOff n c' y x) : c = c' := by
  unfold Problem.dataBlkOff at heq
  have hrow := Nat.eq_of_mul_eq_mul_right hiw (Nat.add_right_cancel heq)
  have hblk := Nat.eq_of_mul_eq_mul_right hih (Nat.add_right_cancel hrow)
  omega

omit h in
/-- The call for the second step of the loop over the blocks of channels reads the first blocks again. -/
theorem exists_second_call (hge : 18 ≤ p.bwdWeightsJcp.nbBcastBlocking) :
    ∃ c ∈ p.bwdWeightsCalls p.bwdWeightsJcp 0 0 0 0 1, c.cb = 12 ∧ c.params.icb ≠ 0 ∧ c.os + c.params.os = 1 ∧
      c.params.os = 1 ∧ c.params.src = p.dataBlkOff c.n 0 (p.startH c.os) (p.startW c.os) ∧
      c.params.iwStart = p.startW c.os := by
  obtain ⟨s, hs, hstep⟩ := exists_second_step hge
  have hsp : ((0, 1) : ℕ × ℕ) ∈ stepLoop (p.bwdWeightsJcp.nbReduceBlocking * p.bwdWeightsJcp.reduceBlock) 192 1 (1 - 0) 0 :=
    List.mem_singleton.mpr rfl
  refine ⟨_, List.mem_flatMap.mpr ⟨_, hstep, List.mem_map.mpr ⟨_, hsp, rfl⟩⟩, Nat.zero_add 12, ?_, rfl, rfl,
    bwdWeights_src 0 0 0, rfl⟩
  show s * 8 / 8 ≠ 0
  omega

theorem weightsCopies_iff : p.WeightsCopies ↔ p.bwdWeightsJcp.nbBcastBlocking < 18 := by
  constructor
  · intro hcopies
    by_contra hge
    obtain ⟨c, hc, hcb, hicb, hrange, hos, hsrc, hiw⟩ := exists_second_call (Nat.le_of_not_lt hge)
    have hcopy := hcopies ℕ id 0 0 0 0 1 h.os_pos c hc
    have hker := h.ker_copy id (le_of_eq_of_le hrange h.os_pos) hsrc hiw
    obtain ⟨m, hm⟩ : ∃ m, c.params.icb = m + 1 := ⟨c.params.icb - 1, by omega⟩
    have heq := hker.symm.trans hcopy
    simp only [Problem.copyStores, hm, hos, hcb, List.range_succ_eq_map, List.flatMap_cons, List.map_cons, List.range_zero,
      List.map_nil, List.cons_append, List.cons.injEq, Prod.mk.injEq, id_eq] at heq
    have hblk := dataBlkOff_inj (by rw [h.ih_eq]; exact Nat.mul_pos h.oh_pos h.strideH_pos)
      (by rw [h.iw_eq]; exact Nat.mul_pos h.ow_pos h.strideW_pos) heq.1.2
    omega
  · intro hlt V _ src ithr img cb spStart spEnd hend c hc
    simp only [Problem.bwdWeightsCalls, List.mem_flatMap, List.mem_map] at hc
    obtain ⟨icB, hicB, sp, hsp, rfl⟩ := hc
    have hfirst := fst_eq_zero_of_mem_stepLoop hlt hicB
    have hrange := mem_stepLoop (by show 128 * 1 ≤ 192; decide) hsp
    refine (h.ker_copy src (le_trans hrange hend) (bwdWeights_src img cb sp.1) rfl).trans ?_
    rw [Problem.copyStores, hfirst]
    rfl

/-! ## Scattering -/

omit h in
/-- The calls of the backward data pass. -/
theorem bwdDataCalls_mem {jcp : Jcp} (hv : jcp.Valid) (hpos : 0 < jcp.nbBcast) (hos : jcp.os = p.oh * p.ow)
    {nthr ithr : ℕ} {c : Call} (hc : c ∈ p.bwdDataCalls jcp nthr ithr) :
    c.os + c.params.os ≤ p.oh * p.ow ∧ c.params.src = p.dataBlkOff c.n c.cb (p.startH c.os) (p.startW c.os) ∧
      c.params.iwStart = p.startW c.os := by
  simp only [Problem.bwdDataCalls, List.mem_flatMap, List.mem_map] at hc
  obtain ⟨l, -, b, hb, rfl⟩ := hc
  exact ⟨hos ▸ bcast_range hv hpos hb, rfl, rfl⟩

theorem bwdData_nbBcast_pos {ur : ℕ} (hur : ur ∈ [3, 4]) : 0 < (p.bwdDataJcp ur).nbBcast := by
  have hv := bwdDataJcp_valid p hur
  rw [hv.nbBcast]
  exact divUp_pos h.os_pos hv.bcastBlock_pos

theorem nbLoad_eq (ur : ℕ) : (p.bwdDataJcp ur).ngroups * (p.bwdDataJcp ur).nbLoad = p.nbC := by
  show 1 * divUp (rndUp _ 8) 8 = _
  rw [divUp_rndUp _ (by decide), h.nbC_eq, Nat.one_mul]

theorem scatters (hgood : p.strideH = 1 → p.ih = 1) : p.DataScatters := by
  intro V _ out ws ur hur nthr hnthr hws
  have hv := bwdDataJcp_valid p hur
  have hpos := h.bwdData_nbBcast_pos hur
  have hrow : p.strideH = 1 → p.oh = 1 := by
    intro hsh
    have hih := hgood hsh
    rw [h.ih_eq, hsh, Nat.mul_one] at hih
    exact hih
  have hker : ∀ ithr < nthr, ∀ c ∈ p.bwdDataCalls (p.bwdDataJcp ur) nthr ithr,
      (p.driver (p.bwdDataJcp ur).is false).ker (ws ithr c) c.params =
        (List.range c.params.icb).flatMap fun b => (List.range c.params.os).flatMap fun k =>
          (p.driver (p.oh * p.ow) false).posStores p.strideH p.ow (p.dataBlkOff c.n (c.cb + b) 0 0) (c.os + k)
            (out c.n (c.cb + b) (c.os + k)) := by
    intro ithr hithr c hc
    obtain ⟨hrange, hsrc, hiw⟩ := bwdDataCalls_mem hv hpos rfl hc
    rw [Driver.ker]
    refine List.flatMap_congr fun b hb => ?_
    rw [hsrc, hiw, h.regs_eq]
    refine (Driver.loopIs_scatter (h.fits _ false) rfl hrow _ _ hrange).trans (List.flatMap_congr fun k hk => ?_)
    exact congrArg _ (hws ithr hithr c hc b (List.mem_range.mp hb) k (List.mem_range.mp hk))
  have hcalls : ((List.range nthr).flatMap fun ithr => (p.bwdDataCalls (p.bwdDataJcp ur) nthr ithr).flatMap fun c =>
      (p.driver (p.bwdDataJcp ur).is false).ker (ws ithr c) c.params) =
      (List.range nthr).flatMap fun ithr => (p.bwdDataCalls (p.bwdDataJcp ur) nthr ithr).flatMap fun c =>
        (List.range c.params.icb).flatMap fun b => (List.range c.params.os).flatMap fun k =>
          (p.driver (p.oh * p.ow) false).posStores p.strideH p.ow (p.dataBlkOff c.n (c.cb + b) 0 0) (c.os + k)
            (out c.n (c.cb + b) (c.os + k)) :=
    List.flatMap_congr fun ithr hithr => List.flatMap_congr fun c hc => hker ithr (List.mem_range.mp hithr) c hc
  rw [hcalls]
  refine (bwdDataCalls_perm p hv (bwdDataJcp_loadValid p ur) hpos hnthr fun n cb pos =>
    (p.driver (p.oh * p.ow) false).posStores p.strideH p.ow (p.dataBlkOff n cb 0 0) pos (out n cb pos)).trans
    (List.Perm.of_eq ?_)
  rw [h.nbLoad_eq]
  refine List.flatMap_congr fun n _ => List.flatMap_congr fun cb _ => ?_
  refine (Driver.block_stores (h.fits _ false) _ _).trans ?_
  rw [h.ih_eq]
  refine List.flatMap_congr fun y _ => List.map_congr_left fun x _ => ?_
  have hoff : p.dataBlkOff n cb 0 0 + y * (p.driver (p.oh * p.ow) false).iw + x = p.dataBlkOff n cb y x := by
    have hiw : (p.driver (p.oh * p.ow) false).iw = p.iw := rfl
    unfold Problem.dataBlkOff
    rw [hiw]
    ring
  rw [hoff]
  rfl

/-! ## Rows that are not skipped -/

omit h in
theorem length_flatMap_congr {α β γ : Type} {l : List α} {f : α → List β} {g : α → List γ}
    (hlen : ∀ x ∈ l, (f x).length = (g x).length) : (l.flatMap f).length = (l.flatMap g).length := by
  rw [List.length_flatMap, List.length_flatMap, List.map_congr_left hlen]

omit h in
theorem length_flatMap_range {β : Type} {k m : ℕ} {f : ℕ → List β} (hlen : ∀ i, (f i).length = m) :
    ((List.range k).flatMap f).length = k * m := by
  rw [List.length_flatMap, List.map_congr_left fun i _ => hlen i, List.map_const', List.length_range,
    List.sum_replicate, smul_eq_mul]

/-- The end of each row stores too much. -/
theorem sum_stepCount : p.oh * p.ow * p.strideW <
    ((List.range (p.oh * p.ow)).map fun pos => (p.driver (p.oh * p.ow) false).stepCount p.ow pos).sum := by
  have hsw := h.strideW_pos
  have how := h.ow_pos
  have hmem : p.ow - 1 ∈ List.range (p.oh * p.ow) := by
    have hle := Nat.le_mul_of_pos_left p.ow h.oh_pos
    exact List.mem_range.mpr (by omega)
  have hextra : p.strideW ≤ ((List.range (p.oh * p.ow)).map fun pos => if pos % p.ow + 1 = p.ow then p.strideW else 0).sum := by
    refine List.single_le_sum (fun _ _ => Nat.zero_le _) _ (List.mem_map.mpr ⟨p.ow - 1, hmem, ?_⟩)
    rw [Nat.mod_eq_of_lt (by omega), if_pos (by omega)]
  have hsum : ((List.range (p.oh * p.ow)).map fun pos => (p.driver (p.oh * p.ow) false).stepCount p.ow pos).sum =
      p.oh * p.ow * p.strideW +
        ((List.range (p.oh * p.ow)).map fun pos => if pos % p.ow + 1 = p.ow then p.strideW else 0).sum := by
    have hcount : (fun pos => (p.driver (p.oh * p.ow) false).stepCount p.ow pos) =
        fun pos => p.strideW + if pos % p.ow + 1 = p.ow then p.strideW else 0 := rfl
    rw [hcount, List.sum_map_add, List.map_const', List.length_range, List.sum_replicate, smul_eq_mul]
  omega

theorem not_scatters (hsh : p.strideH = 1) (hih : p.ih ≠ 1) : ¬ p.DataScatters := by
  intro hscatters
  have hoh : p.oh ≠ 1 := by
    rw [h.ih_eq, hsh, Nat.mul_one] at hih
    exact hih
  have hur : 4 ∈ [3, 4] := by decide
  have hv := bwdDataJcp_valid p hur
  have hpos := h.bwdData_nbBcast_pos hur
  have hlen := (hscatters ℕ (fun _ _ _ => 0) (fun _ _ _ => 0) 4 (by decide) 1 Nat.one_pos
    (fun _ _ _ _ _ _ _ _ => rfl)).length_eq
  -- the number of stores of a call
  have hker : ∀ ithr, ∀ c ∈ p.bwdDataCalls (p.bwdDataJcp 4) 1 ithr,
      ((p.driver (p.bwdDataJcp 4).is false).ker (fun _ => (0 : ℕ)) c.params).length =
        ((List.range c.params.icb).flatMap fun _ => (List.range c.params.os).flatMap fun k =>
          List.replicate ((p.driver (p.oh * p.ow) false).stepCount p.ow (c.os + k)) ()).length := by
    intro ithr c hc
    obtain ⟨-, -, hiw⟩ := bwdDataCalls_mem hv hpos rfl hc
    refine length_flatMap_congr fun b _ => ?_
    have hcur : p.startW c.os = c.os % p.ow * (p.driver (p.oh * p.ow) false).strideW := h.startW_eq c.os
    refine (Driver.loopIs_length (h.fits _ false) rfl hsh hoh _ _ (hiw.trans hcur)).trans ?_
    rw [List.length_flatMap]
    simp only [List.length_replicate]
    rfl
  rw [length_flatMap_congr fun ithr _ => length_flatMap_congr fun c hc => hker ithr c hc,
    (bwdDataCalls_perm p hv (bwdDataJcp_loadValid p 4) hpos Nat.one_pos fun _ _ pos =>
      List.replicate ((p.driver (p.oh * p.ow) false).stepCount p.ow pos) ()).length_eq, h.nbLoad_eq] at hlen
  rw [length_flatMap_range fun n => length_flatMap_range fun cb => List.length_flatMap,
    length_flatMap_range fun n => length_flatMap_range fun cb => length_flatMap_range fun y => by
      rw [List.length_map, List.length_range]] at hlen
  simp only [List.length_replicate] at hlen
  have hmb : 0 < p.srcD.dims 0 := h.src_pos 0 (by rcases h.rank with hr | hr <;> omega)
  have hnbC : 0 < p.nbC := by
    rw [h.nbC_eq]
    exact divUp_pos (h.src_pos 1 (by rcases h.rank with hr | hr <;> omega)) (by decide)
  have heq := Nat.eq_of_mul_eq_mul_left hnbC (Nat.eq_of_mul_eq_mul_left hmb hlen)
  have hsum := h.sum_stepCount
  have harea : p.ih * p.iw = p.oh * p.ow * p.strideW := by
    rw [h.ih_eq, hsh, Nat.mul_one, h.iw_eq, Nat.mul_assoc]
  rw [harea] at heq
  exact absurd heq hsum.ne'

end Problem.Accepted

/-- The tensor of `n` x `c` x `h` x `w` elements in the format `nChw8c`. -/
def nChw8c (n c h w : ℤ) : MemoryDesc :=
  match memoryDescInitByTag 4 (fun d => if d = 0 then n else if d = 1 then c else if d = 2 then h else w) .f32 .aBcd8b with
  | .ok md => md
  | .error _ => zeroMd

end MklDnn.Rtus
