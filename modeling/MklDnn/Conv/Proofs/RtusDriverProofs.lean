import MklDnn.Common.Proofs.ThreadingProofs
import MklDnn.Conv.Proofs.RtusProofs
import MklDnn.Memory.Proofs.FillBlockedProofs

/-!
# Proofs: the drivers of the reduction to unit strides

The passes of the threads over the output positions are the positions in their order, cut into ranges inside of one
image; each range becomes one call of the generated code for several blocks of channels.
-/

open LoopNest

namespace MklDnn.Rtus

/-! ## The ranges of output positions -/

/-- The blocks of output positions in the configuration. -/
structure Jcp.Valid (jcp : Jcp) : Prop where
  bcastBlock_pos : 0 < jcp.bcastBlock
  nbBcast : jcp.nbBcast = divUp jcp.os jcp.bcastBlock
  blocking_pos : 0 < jcp.nbBcastBlocking
  blocking_le : jcp.nbBcastBlocking ≤ jcp.nbBcastBlockingMax

theorem step_pos {defaultStep remaining tailStep : ℕ} (h : 0 < defaultStep) (hr : 0 < remaining) :
    0 < step defaultStep remaining tailStep := by
  unfold step
  split_ifs
  · exact hr
  · exact h

theorem step_le {defaultStep remaining tailStep : ℕ} (h : defaultStep ≤ tailStep) :
    step defaultStep remaining tailStep ≤ remaining := by
  unfold step
  split_ifs
  · exact Nat.le_refl _
  · omega

theorem thisBlockSize_eq {offset max blockSize : ℕ} :
    thisBlockSize offset max blockSize = min (max - offset) blockSize := by
  unfold thisBlockSize
  split_ifs <;> omega

/-- The output positions of an iteration of the loop over `iwork`, with the image and the group. -/
def workPositions (jcp : Jcp) (iwork : ℕ) : List (ℕ × ℕ × ℕ) :=
  (List.range (min jcp.bcastBlock (jcp.os - iwork % jcp.nbBcast * jcp.bcastBlock))).map fun k =>
    (iwork / (jcp.ngroups * jcp.nbBcast) % jcp.mb, iwork / jcp.nbBcast % jcp.ngroups,
      iwork % jcp.nbBcast * jcp.bcastBlock + k)

/-- The output positions of a pass. -/
def Bcast.positions (b : Bcast) (jcp : Jcp) : List (ℕ × ℕ × ℕ) :=
  (List.range (b.bcastDim jcp)).map fun k => (b.n, b.g, b.osb * jcp.bcastBlock + k)

/-- A pass inside of one image takes the positions of its iterations. -/
theorem positions_eq {jcp : Jcp} {iwork s : ℕ} (hs : iwork % jcp.nbBcast + s ≤ jcp.nbBcast) :
    (Bcast.mk (iwork / (jcp.ngroups * jcp.nbBcast) % jcp.mb) (iwork / jcp.nbBcast % jcp.ngroups)
      (iwork % jcp.nbBcast) s).positions jcp = (List.range' iwork s).flatMap (workPositions jcp) := by
  set osb := iwork % jcp.nbBcast with hosb
  have hcount : ∀ i < s, (iwork + i) % jcp.nbBcast = osb + i ∧ (iwork + i) / jcp.nbBcast = iwork / jcp.nbBcast := by
    intro i hi
    have hlt : osb + i < jcp.nbBcast := by omega
    have heq : iwork + i = jcp.nbBcast * (iwork / jcp.nbBcast) + (osb + i) := by
      have := Nat.div_add_mod iwork jcp.nbBcast
      omega
    rw [heq, Nat.mul_add_mod, Nat.mod_eq_of_lt hlt, Nat.mul_add_div (by omega), Nat.div_eq_of_lt hlt]
    exact ⟨rfl, Nat.add_zero _⟩
  rw [Bcast.positions, Bcast.bcastDim, thisBlockSize_eq,
    range_eq_blocks (m := jcp.bcastBlock) (k := s) (Nat.min_le_right _ _), List.map_flatMap,
    List.range'_eq_map_range, List.flatMap_map]
  refine List.flatMap_congr fun i hi => ?_
  have hi := List.mem_range.mp hi
  obtain ⟨hmod, hdiv⟩ := hcount i hi
  have hlen : min jcp.bcastBlock (min (jcp.os - osb * jcp.bcastBlock) (s * jcp.bcastBlock) - i * jcp.bcastBlock) =
      min jcp.bcastBlock (jcp.os - (osb + i) * jcp.bcastBlock) := by
    have hle : (i + 1) * jcp.bcastBlock ≤ s * jcp.bcastBlock := Nat.mul_le_mul_right _ hi
    rw [Nat.succ_mul] at hle
    rw [Nat.add_mul]
    omega
  have hdiv' : (iwork + i) / (jcp.ngroups * jcp.nbBcast) = iwork / (jcp.ngroups * jcp.nbBcast) := by
    rw [Nat.mul_comm, ← Nat.div_div_eq_div_mul, hdiv, Nat.div_div_eq_div_mul]
  rw [workPositions, hmod, hdiv, hdiv', List.map_map, hlen]
  refine List.map_congr_left fun k _ => ?_
  rw [Function.comp_apply, Nat.add_mul, Nat.add_assoc]

/-- The loop over `iwork` takes the positions of its iterations. -/
theorem bcastLoop_positions {jcp : Jcp} (hv : jcp.Valid) (hpos : 0 < jcp.nbBcast) {fin fuel iwork : ℕ}
    (hfuel : fin - iwork ≤ fuel) : ((bcastLoop jcp fin fuel iwork).flatMap fun b => b.positions jcp) =
      (List.range' iwork (fin - iwork)).flatMap (workPositions jcp) := by
  induction fuel generalizing iwork with
  | zero =>
    rw [Nat.le_zero.mp hfuel]
    rfl
  | succ fuel ih =>
    rw [bcastLoop]
    split_ifs with hlt
    · have hmod := Nat.mod_lt iwork hpos
      set s := min (step jcp.nbBcastBlocking (jcp.nbBcast - iwork % jcp.nbBcast) jcp.nbBcastBlockingMax) (fin - iwork)
        with hs
      have hstep : 0 < step jcp.nbBcastBlocking (jcp.nbBcast - iwork % jcp.nbBcast) jcp.nbBcastBlockingMax :=
        step_pos hv.blocking_pos (by omega)
      have hle : step jcp.nbBcastBlocking (jcp.nbBcast - iwork % jcp.nbBcast) jcp.nbBcastBlockingMax ≤
        jcp.nbBcast - iwork % jcp.nbBcast := step_le hv.blocking_le
      have hrange : List.range' iwork (fin - iwork) =
          List.range' iwork s ++ List.range' (iwork + s) (fin - (iwork + s)) := by
        rw [List.range'_append_1]
        congr 1
        omega
      have hit : (ndIteratorInit iwork [jcp.mb, jcp.ngroups, jcp.nbBcast]).2 =
          [iwork / (jcp.ngroups * jcp.nbBcast) % jcp.mb, iwork / jcp.nbBcast % jcp.ngroups, iwork % jcp.nbBcast] := by
        have hidx : (ndIteratorInit iwork [jcp.mb, jcp.ngroups, jcp.nbBcast]).2 =
          ndIndex [jcp.mb, jcp.ngroups, jcp.nbBcast] iwork := rfl
        rw [hidx]
        simp
      rw [hrange, List.flatMap_append, ← positions_eq (by omega), ← ih (by omega), hit]
      rfl
    · rw [Nat.sub_eq_zero_of_le (by omega)]
      rfl

/-- All output positions of all images and groups, in order. -/
def allPositions (jcp : Jcp) : List (ℕ × ℕ × ℕ) :=
  (List.range jcp.mb).flatMap fun n => (List.range jcp.ngroups).flatMap fun g =>
    (List.range jcp.os).map fun pos => (n, g, pos)

/-- The threads divide the positions among them. -/
theorem threadBcasts_positions {jcp : Jcp} (hv : jcp.Valid) (hpos : 0 < jcp.nbBcast) {nthr : ℕ} (hnthr : 0 < nthr) :
    ((List.range nthr).flatMap fun ithr => (threadBcasts jcp nthr ithr).flatMap fun b => b.positions jcp) =
      allPositions jcp := by
  have hthread : ∀ ithr, ((threadBcasts jcp nthr ithr).flatMap fun b => b.positions jcp) =
      (List.range' (balance211 (jcp.mb * jcp.ngroups * jcp.nbBcast) nthr ithr).1
        ((balance211 (jcp.mb * jcp.ngroups * jcp.nbBcast) nthr ithr).2 -
          (balance211 (jcp.mb * jcp.ngroups * jcp.nbBcast) nthr ithr).1)).flatMap (workPositions jcp) :=
    fun ithr => bcastLoop_positions hv hpos (Nat.le_refl _)
  simp only [hthread]
  rw [← List.flatMap_assoc, flatMap_balance211 _ hnthr, flatMap_range_mul, flatMap_range_mul, allPositions]
  refine List.flatMap_congr fun n hn => List.flatMap_congr fun g hg => ?_
  have hn := List.mem_range.mp hn
  have hg := List.mem_range.mp hg
  have hos : jcp.os ≤ jcp.nbBcast * jcp.bcastBlock := by
    rw [hv.nbBcast]
    exact le_rndUp hv.bcastBlock_pos
  rw [range_eq_blocks hos, List.map_flatMap]
  refine List.flatMap_congr fun osb hosb => ?_
  have hosb := List.mem_range.mp hosb
  have hmod : ((n * jcp.ngroups + g) * jcp.nbBcast + osb) % jcp.nbBcast = osb := by
    rw [Nat.mul_comm, Nat.mul_add_mod, Nat.mod_eq_of_lt hosb]
  have hdiv : ((n * jcp.ngroups + g) * jcp.nbBcast + osb) / jcp.nbBcast = n * jcp.ngroups + g := by
    rw [Nat.mul_comm, Nat.mul_add_div hpos, Nat.div_eq_of_lt hosb, Nat.add_zero]
  have hdiv' : (n * jcp.ngroups + g) / jcp.ngroups = n := by
    rw [Nat.mul_comm, Nat.mul_add_div (by omega), Nat.div_eq_of_lt hg, Nat.add_zero]
  have hmod' : (n * jcp.ngroups + g) % jcp.ngroups = g := by rw [Nat.mul_comm, Nat.mul_add_mod, Nat.mod_eq_of_lt hg]
  rw [workPositions, hmod, Nat.mul_comm jcp.ngroups, ← Nat.div_div_eq_div_mul, hdiv, hdiv', hmod',
    Nat.mod_eq_of_lt hn, List.map_map]
  rfl

/-! ## Loops with steps -/

theorem stepLoop_flatMap {defaultStep tailStep fin fuel start : ℕ} (hpos : 0 < defaultStep)
    (hle : defaultStep ≤ tailStep) (hfuel : fin - start ≤ fuel) :
    ((stepLoop defaultStep tailStep fin fuel start).flatMap fun l => List.range' l.1 l.2) =
      List.range' start (fin - start) := by
  induction fuel generalizing start with
  | zero =>
    rw [Nat.le_zero.mp hfuel]
    rfl
  | succ fuel ih =>
    rw [stepLoop]
    split_ifs with hlt
    · have hstep : 0 < step defaultStep (fin - start) tailStep := step_pos hpos (by omega)
      have hfin : step defaultStep (fin - start) tailStep ≤ fin - start := step_le hle
      rw [List.flatMap_cons, ih (by omega), List.range'_append_1]
      congr 1
      omega
    · rw [Nat.sub_eq_zero_of_le (by omega)]
      rfl

/-- A step stays inside of the loop. -/
theorem mem_stepLoop {defaultStep tailStep fin fuel start : ℕ} (hle : defaultStep ≤ tailStep) {l : ℕ × ℕ}
    (hl : l ∈ stepLoop defaultStep tailStep fin fuel start) : l.1 + l.2 ≤ fin := by
  induction fuel generalizing start with
  | zero => cases hl
  | succ fuel ih =>
    rw [stepLoop] at hl
    split_ifs at hl with hlt
    · rcases List.mem_cons.mp hl with rfl | hl
      · have hfin : step defaultStep (fin - start) tailStep ≤ fin - start := step_le hle
        dsimp only
        omega
      · exact ih hl
    · cases hl

theorem mem_bcastLoop {jcp : Jcp} (hpos : 0 < jcp.nbBcast) {fin fuel iwork : ℕ} {b : Bcast}
    (hb : b ∈ bcastLoop jcp fin fuel iwork) : b.osb < jcp.nbBcast := by
  induction fuel generalizing iwork with
  | zero => cases hb
  | succ fuel ih =>
    rw [bcastLoop] at hb
    split_ifs at hb with hlt
    · rcases List.mem_cons.mp hb with rfl | hb
      · have hit : (ndIteratorInit iwork [jcp.mb, jcp.ngroups, jcp.nbBcast]).2 =
          ndIndex [jcp.mb, jcp.ngroups, jcp.nbBcast] iwork := rfl
        dsimp only
        rw [hit]
        simpa using Nat.mod_lt iwork hpos
      · exact ih hb
    · cases hb

/-- The positions of a pass lie in the image. -/
theorem bcast_range {jcp : Jcp} (hv : jcp.Valid) (hpos : 0 < jcp.nbBcast) {nthr ithr : ℕ} {b : Bcast}
    (hb : b ∈ threadBcasts jcp nthr ithr) : b.osb * jcp.bcastBlock + b.bcastDim jcp ≤ jcp.os := by
  have hosb := mem_bcastLoop hpos hb
  have hlt : b.osb * jcp.bcastBlock < jcp.os := by
    by_contra hge
    have hle := (divUp_le_iff hv.bcastBlock_pos).mpr (Nat.le_of_not_lt hge)
    rw [← hv.nbBcast] at hle
    omega
  rw [Bcast.bcastDim, thisBlockSize_eq]
  omega

/-! ## The calls of the backward data pass -/

/-- The blocks of input channels in the configuration of the backward data pass. -/
structure Jcp.LoadValid (jcp : Jcp) : Prop where
  icBlock_pos : 0 < jcp.icBlock
  ic : jcp.ic = jcp.nbLoad * jcp.icBlock
  blocking_pos : 0 < jcp.nbLoadBlocking
  blocking_le : jcp.nbLoadBlocking ≤ jcp.nbLoadBlockingMax

/-- The calls of all threads together are made for each position of each block of channels once. -/
theorem bwdDataCalls_perm {β : Type} (p : Problem) {jcp : Jcp} (hv : jcp.Valid) (hl : jcp.LoadValid)
    (hpos : 0 < jcp.nbBcast) {nthr : ℕ} (hnthr : 0 < nthr) (f : ℕ → ℕ → ℕ → List β) :
    ((List.range nthr).flatMap fun ithr => (p.bwdDataCalls jcp nthr ithr).flatMap fun c =>
      (List.range c.params.icb).flatMap fun b => (List.range c.params.os).flatMap fun k =>
        f c.n (c.cb + b) (c.os + k)).Perm
    ((List.range jcp.mb).flatMap fun n => (List.range (jcp.ngroups * jcp.nbLoad)).flatMap fun cb =>
      (List.range jcp.os).flatMap fun pos => f n cb pos) := by
  -- one thread: its blocks of channels, and for each of them its positions
  have hthread : ∀ ithr, ((p.bwdDataCalls jcp nthr ithr).flatMap fun c =>
      (List.range c.params.icb).flatMap fun b => (List.range c.params.os).flatMap fun k =>
        f c.n (c.cb + b) (c.os + k)).Perm
      ((List.range jcp.nbLoad).flatMap fun c => ((threadBcasts jcp nthr ithr).flatMap fun b => b.positions jcp).flatMap
        fun x => f x.1 (x.2.1 * jcp.nbLoad + c) x.2.2) := by
    intro ithr
    have hfuel : jcp.nbLoad - 0 ≤ jcp.nbLoad := Nat.le_refl _
    have hcover := stepLoop_flatMap hl.blocking_pos hl.blocking_le hfuel
    rw [Nat.sub_zero, ← List.range_eq_range'] at hcover
    rw [← hcover, List.flatMap_assoc, Problem.bwdDataCalls, List.flatMap_assoc]
    refine List.Perm.flatMap_left _ fun l hmem => ?_
    have hend := mem_stepLoop hl.blocking_le hmem
    have hicb : thisBlockSize (l.1 * jcp.icBlock) jcp.ic (l.2 * jcp.icBlock) / jcp.icBlock = l.2 := by
      have hle : (l.1 + l.2) * jcp.icBlock ≤ jcp.nbLoad * jcp.icBlock := Nat.mul_le_mul_right _ hend
      rw [Nat.add_mul] at hle
      rw [thisBlockSize_eq, hl.ic, Nat.min_eq_right (by omega), Nat.mul_div_cancel _ hl.icBlock_pos]
    rw [List.flatMap_map, List.range'_eq_map_range, List.flatMap_map]
    simp only [hicb, List.flatMap_assoc]
    refine (flatMap_comm_perm (threadBcasts jcp nthr ithr) (List.range l.2) fun b j =>
      (List.range (b.bcastDim jcp)).flatMap fun k =>
        f b.n (b.g * jcp.nbLoad + l.1 + j) (b.osb * jcp.bcastBlock + k)).trans (List.Perm.of_eq ?_)
    refine List.flatMap_congr fun j _ => List.flatMap_congr fun b _ => ?_
    rw [Bcast.positions, List.flatMap_map]
    refine List.flatMap_congr fun k _ => ?_
    rw [Nat.add_assoc]
  refine (List.Perm.flatMap_left _ fun ithr _ => hthread ithr).trans ?_
  refine (flatMap_pieces_perm (threadBcasts_positions hv hpos hnthr) _ _).trans ?_
  have hall : ∀ c, ((allPositions jcp).flatMap fun x => f x.1 (x.2.1 * jcp.nbLoad + c) x.2.2) =
      (List.range jcp.mb).flatMap fun n => (List.range jcp.ngroups).flatMap fun g =>
        (List.range jcp.os).flatMap fun pos => f n (g * jcp.nbLoad + c) pos := by
    intro c
    simp only [allPositions, List.flatMap_assoc, List.flatMap_map]
  simp only [hall]
  refine (flatMap_comm_perm (List.range jcp.nbLoad) (List.range jcp.mb) _).trans ?_
  refine List.Perm.flatMap_left _ fun n _ => ?_
  rw [flatMap_range_mul]
  exact flatMap_comm_perm (List.range jcp.nbLoad) (List.range jcp.ngroups) _

/-! ## Accepted problems -/

/-- A problem that is accepted: the strides that a convolution can have, tensors that are not empty, and the image in
the format of the kernels. -/
structure Problem.Accepted (p : Problem) : Prop where
  rank : p.ndims = 3 ∨ p.ndims = 4
  applicable : p.rtusApplicable = true
  strides_pos : ∀ d < p.ndims - 2, 0 < p.strides d
  dst_pos : ∀ d < p.ndims, 0 < p.dstD.dims d
  src_pos : ∀ d < p.ndims, 0 < p.srcD.dims d
  format : ∃ ndims dims dt,
    memoryDescInitByTag ndims dims dt (if p.ndims = 3 then .aBc8b else .aBcd8b) = .ok p.srcD

namespace Problem.Accepted

variable {p : Problem} (h : p.Accepted)

include h

/-- What `rtus_prepare` checks of the spatial dimensions. -/
theorem spatial {d : ℕ} (hd : d < p.ndims) (h2 : 2 ≤ d) :
    p.paddingL (d - 2) = 0 ∧ p.dstD.dims d * (p.strides (d - 2)).toNat = p.srcD.dims d := by
  have happ := h.applicable
  simp only [Problem.rtusApplicable, decide_eq_true_eq] at happ
  obtain ⟨hpad, hdims⟩ := happ.2.2 d hd h2
  have hpos := h.strides_pos (d - 2) (by omega)
  refine ⟨hpad, ?_⟩
  have hcast : ((p.dstD.dims d * (p.strides (d - 2)).toNat : ℕ) : ℤ) = p.srcD.dims d := by
    rw [Nat.cast_mul, Int.toNat_of_nonneg (by omega), hdims]
  exact_mod_cast hcast

theorem strideW_pos : 0 < p.strideW := by
  have hpos := h.strides_pos (p.ndims - 3) (by rcases h.rank with hr | hr <;> omega)
  unfold Problem.strideW
  omega

theorem strideH_pos : 0 < p.strideH := by
  unfold Problem.strideH
  split_ifs with h3
  · exact Nat.one_pos
  · have hpos := h.strides_pos 0 (by rcases h.rank with hr | hr <;> omega)
    omega

theorem iw_eq : p.iw = p.ow * p.strideW := by
  obtain ⟨-, hdims⟩ := h.spatial (d := p.ndims - 1) (by rcases h.rank with hr | hr <;> omega)
    (by rcases h.rank with hr | hr <;> omega)
  have hidx : p.ndims - 1 - 2 = p.ndims - 3 := by omega
  rw [hidx] at hdims
  exact hdims.symm

theorem ih_eq : p.ih = p.oh * p.strideH := by
  unfold Problem.ih Problem.oh Problem.strideH
  split_ifs with h3
  · rfl
  · exact (h.spatial (d := 2) (by rcases h.rank with hr | hr <;> omega) (Nat.le_refl 2)).2.symm

theorem ow_pos : 0 < p.ow := h.dst_pos _ (by rcases h.rank with hr | hr <;> omega)

theorem oh_pos : 0 < p.oh := by
  unfold Problem.oh
  split_ifs with h3
  · exact Nat.one_pos
  · exact h.dst_pos 2 (by rcases h.rank with hr | hr <;> omega)

theorem startH_eq (os : ℕ) : p.startH os = os / p.ow * p.strideH := by
  have hpad : p.padT = 0 := by
    unfold Problem.padT
    split_ifs with h3
    · rfl
    · exact (h.spatial (d := 2) (by rcases h.rank with hr | hr <;> omega) (Nat.le_refl 2)).1
  rw [Problem.startH, hpad, sub_zero, ← Nat.cast_mul, max_eq_left (Int.natCast_nonneg _), Int.toNat_natCast]

theorem startW_eq (os : ℕ) : p.startW os = os % p.ow * p.strideW := by
  have hpad : p.padL = 0 := by
    obtain ⟨hpad, -⟩ := h.spatial (d := p.ndims - 1) (by rcases h.rank with hr | hr <;> omega)
      (by rcases h.rank with hr | hr <;> omega)
    have hidx : p.ndims - 1 - 2 = p.ndims - 3 := by omega
    rw [hidx] at hpad
    exact hpad
  rw [Problem.startW, hpad, sub_zero, ← Nat.cast_mul, max_eq_left (Int.natCast_nonneg _), Int.toNat_natCast]

theorem fits (is : ℕ) (srcToWs : Bool) : (p.driver is srcToWs).Fits p.strideH p.oh p.ow where
  iw := h.iw_eq
  srcStepH := rfl
  srcStepIcb := by
    show p.ih * p.iw = p.oh * p.strideH * p.iw
    rw [h.ih_eq]
  strideW_pos := h.strideW_pos
  sh_pos := h.strideH_pos
  oh_pos := h.oh_pos
  ow_pos := h.ow_pos

/-- The registers with which the code starts on a block of channels. -/
theorem regs_eq (is : ℕ) (srcToWs : Bool) (n cb os ws j : ℕ) :
    Regs.mk ws (p.dataBlkOff n cb (p.startH os) (p.startW os) + j * (p.driver is srcToWs).srcStepIcb) (p.startW os) =
      (p.driver is srcToWs).regsAt p.strideH p.ow ws (p.dataBlkOff n (cb + j) 0 0) os := by
  have hicb : (p.driver is srcToWs).srcStepIcb = p.ih * p.iw := rfl
  have hiw : (p.driver is srcToWs).iw = p.iw := rfl
  have hsw : (p.driver is srcToWs).strideW = p.strideW := rfl
  unfold Driver.regsAt Driver.srcOff Problem.dataBlkOff
  rw [h.startH_eq, h.startW_eq, hicb, hiw, hsw]
  congr 1
  ring

omit h in
/-- The offset of the source of an output position. -/
theorem srcOff_eq (is : ℕ) (srcToWs : Bool) (n cb pos : ℕ) :
    (p.driver is srcToWs).srcOff p.strideH p.ow (p.dataBlkOff n cb 0 0) pos =
      p.dataBlkOff n cb (pos / p.ow * p.strideH) (pos % p.ow * p.strideW) := by
  have hiw : (p.driver is srcToWs).iw = p.iw := rfl
  have hsw : (p.driver is srcToWs).strideW = p.strideW := rfl
  unfold Driver.srcOff Problem.dataBlkOff
  rw [hiw, hsw]
  ring

end Problem.Accepted

end MklDnn.Rtus
