import MklDnn.Conv.Proofs.Avx512BwdDataProofs

/-!
# Proofs: the AVX-512 backward data convolution

When each row of `diff_src` is computed once, from the filter rows and the rows of `diff_dst` that meet it.
-/

open LoopNest

namespace MklDnn.Avx512BwdData

open Avx512

/-- What a call does to a row of `diff_src`: the row, the block of output channels, and the rows of the filter and of
`diff_dst` that are multiplied. The first block initialises the row, the others are added to it. -/
structure Store where
  row : Option ℤ
  channel : ℤ
  rows : List (ℤ × ℤ)

namespace Problem

variable {p : Problem} {isa : CpuIsa} {l1CacheSize : ℕ} {jcp : Jcp}

/-- The stores of a call. -/
def callStores (p : Problem) (jcp : Jcp) (isa : CpuIsa) (c : KernelCall) : List Store :=
  (List.range jcp.nbIcBlocking).map fun k => ⟨p.storedRow c k, c.channel, p.walkedRows jcp isa c k⟩

/-- The stores of thread `ithr`, in their order. -/
def stores (p : Problem) (jcp : Jcp) (isa : CpuIsa) (nthr ithr : ℕ) : List Store :=
  (p.calls jcp nthr ithr).flatMap (p.callStores jcp isa)

/-- The stores that a row should get: one for each block of output channels, in their order, each with the pairs of depths
and the pairs of rows that meet. -/
def rowStores (p : Problem) (n g icb id ih : ℕ) : List Store :=
  (List.range p.nbOc).map fun ocb : ℕ =>
    ⟨some (p.srcRow n (g * p.nbIc + icb : ℕ) id ih), ocb,
      p.rowPairs n g ocb icb (p.depth.intTaps id) (p.height.intTaps ih)⟩

/-- Each row of `diff_src` is stored by one thread, and gets the stores that it should get. -/
def StoresRows (p : Problem) (jcp : Jcp) (isa : CpuIsa) : Prop :=
  ∀ nthr, 0 < nthr → ∀ n < p.mb, ∀ g < p.ngroups, ∀ icb < p.nbIc, ∀ id < p.depth.input, ∀ ih < p.height.input,
    ∃ ithr < nthr, ∀ t < nthr,
      (p.stores jcp isa nthr t).filter (fun s => s.row = some (p.srcRow n (g * p.nbIc + icb : ℕ) id ih)) =
        if t = ithr then p.rowStores n g icb id ih else []

/-- The walks from the windows take the pairs that meet, and the rows are stored. -/
structure Correct (p : Problem) (jcp : Jcp) (isa : CpuIsa) : Prop where
  rows : ∀ ih < p.height.input, p.height.walked ih ((jcp.computeLoop isa).steps p.height) = p.height.intTaps ih
  depths : ∀ id < p.depth.input, p.depth.walked id ((jcp.computeLoop isa).steps p.depth) = p.depth.intTaps id
  stores : p.StoresRows jcp isa

/-- Calls without a store of the kind do not matter. -/
theorem filter_flatMap_filter {α β : Type*} {F : α → List β} {P : α → Bool} {q : β → Bool} {l : List α}
    (h : ∀ c ∈ l, P c = false → (F c).filter q = []) :
    (l.flatMap F).filter q = ((l.filter P).flatMap F).filter q := by
  induction l with
  | nil => rfl
  | cons c l ih =>
    have ih := ih fun c' hc' => h c' (List.mem_cons_of_mem c hc')
    rw [List.flatMap_cons, List.filter_append, ih]
    cases hP : P c with
    | false =>
      rw [h c List.mem_cons_self hP, List.nil_append, List.filter_cons_of_neg (by rw [hP]; decide)]
    | true => rw [List.filter_cons_of_pos hP, List.flatMap_cons, List.filter_append]

/-- The call stores the row. -/
def storesRow (p : Problem) (jcp : Jcp) (row : ℤ) (c : KernelCall) : Bool :=
  (List.range jcp.nbIcBlocking).any fun k => p.storedRow c k = some row

theorem stores_filter (row : ℤ) (nthr ithr : ℕ) :
    (p.stores jcp isa nthr ithr).filter (fun s => s.row = some row) =
      (((p.calls jcp nthr ithr).filter (p.storesRow jcp row)).flatMap (p.callStores jcp isa)).filter
        fun s => s.row = some row := by
  refine filter_flatMap_filter fun c _ hP => ?_
  rw [List.filter_eq_nil_iff]
  intro s hs hrow
  obtain ⟨k, hk, rfl⟩ := List.mem_map.mp hs
  rw [storesRow, List.any_eq_false] at hP
  exact hP k hk hrow

theorem depth_input (hr : p.ndims = 4) : p.depth.input = 1 := by rw [depth_of_rank_four hr]

namespace Accepted

variable (h : p.Accepted isa l1CacheSize jcp)

include h

/-- The counters and the block of a row. -/
theorem storedRow_iff {c : Counters} (hc : c.InRange p jcp) {n g icb id ih : ℕ} (hg : g < p.ngroups) (hicb : icb < p.nbIc)
    (hid : id < p.depth.input) (hih : ih < p.height.input) (ocb : ℕ) {k : ℕ} (hk : k < jcp.nbIcBlocking) :
    p.storedRow (p.callAt jcp c ocb) k = some (p.srcRow n (g * p.nbIc + icb : ℕ) id ih) ↔
      c = ⟨n, g, icb / jcp.nbIcBlocking, id, ih⟩ ∧ k = icb % jcp.nbIcBlocking := by
  have hid' : p.ndims = 4 → c.id = 0 := fun hr => by
    have hlt := hc.id
    rw [depth_input hr] at hlt
    omega
  have hblock : c.icc * jcp.nbIcBlocking + k < p.nbIc := by
    have hlt := add_mul_lt hk hc.icc
    have hle := Nat.div_mul_le_self p.nbIc jcp.nbIcBlocking
    rw [← icChunks] at hle
    omega
  have hchan : ∀ {g icb}, g < p.ngroups → icb < p.nbIc → g * p.nbIc + icb < p.ngroups * p.nbIc := by
    intro g icb hg hicb
    have hlt := add_mul_lt hicb hg
    omega
  rw [h.storedRow_callAt hid', Option.some.injEq]
  constructor
  · intro heq
    obtain ⟨hn, hchannel, hidd, hihh⟩ := h.srcRow_inj (hchan hc.g hblock) (hchan hg hicb) hc.id hid hc.ih hih heq
    obtain ⟨hicb', hg'⟩ := add_mul_inj hblock hicb (by omega : _ + c.g * p.nbIc = _ + g * p.nbIc)
    have hpos := h.choices.nbIcBlocking_pos
    have hdiv : icb / jcp.nbIcBlocking = c.icc := by
      rw [← hicb', Nat.mul_comm, Nat.mul_add_div hpos, Nat.div_eq_of_lt hk, Nat.add_zero]
    have hmod : icb % jcp.nbIcBlocking = k := by
      rw [← hicb', Nat.mul_comm, Nat.mul_add_mod, Nat.mod_eq_of_lt hk]
    obtain ⟨n', g', icc', id', ih'⟩ := c
    dsimp only at hn hg' hidd hihh hdiv
    rw [hn, hg', hidd, hihh, hdiv, hmod]
    exact ⟨rfl, rfl⟩
  · rintro ⟨rfl, rfl⟩
    dsimp only
    rw [Nat.div_add_mod']

/-- If the walks are right and the blocks of input channels divide, the rows are stored. -/
theorem storesRows (hrows : ∀ ih < p.height.input,
      p.height.walked ih ((jcp.computeLoop isa).steps p.height) = p.height.intTaps ih)
    (hdepths : ∀ id < p.depth.input, p.depth.walked id ((jcp.computeLoop isa).steps p.depth) = p.depth.intTaps id)
    (hdvd : jcp.nbIcBlocking ∣ p.nbIc) : p.StoresRows jcp isa := by
  intro nthr hnthr n hn g hg icb hicb id hid ih hih
  have hpos := h.choices.nbIcBlocking_pos
  have hchunk : icb / jcp.nbIcBlocking < p.icChunks jcp := Nat.div_lt_div_of_lt_of_dvd hdvd hicb
  have hchunks : 0 < p.icChunks jcp := (Nat.zero_le _).trans_lt hchunk
  have hc : Counters.InRange p jcp ⟨n, g, icb / jcp.nbIcBlocking, id, ih⟩ := ⟨hn, hg, hchunk, hid, hih⟩
  obtain ⟨x, hx, hat⟩ := exists_countersAt depth_input hc
  obtain ⟨ithr, hithr, hrange⟩ := exists_balance211 hnthr hx
  refine ⟨ithr, hithr, fun t ht => ?_⟩
  have hid' : p.ndims = 4 → id = 0 := fun hr => by
    rw [depth_input hr] at hid
    omega
  have hP : ∀ w < (p.allExtents jcp).prod, ∀ ocb,
      p.storesRow jcp (p.srcRow n (g * p.nbIc + icb : ℕ) id ih) (p.callAt jcp (p.countersAt jcp w) ocb) =
        decide (w = x) := by
    intro w hw ocb
    obtain ⟨hrangeW, -⟩ := countersAt_inRange depth_input hw
    rw [Bool.eq_iff_iff, storesRow, List.any_eq_true, decide_eq_true_eq]
    simp only [List.mem_range, decide_eq_true_eq]
    constructor
    · rintro ⟨k, hk, hrow⟩
      refine countersAt_inj hw hx ?_
      rw [hat]
      exact ((h.storedRow_iff hrangeW hg hicb hid hih ocb hk).mp hrow).1
    · rintro rfl
      have hmod := Nat.mod_lt icb hpos
      exact ⟨icb % jcp.nbIcBlocking, hmod, (h.storedRow_iff hrangeW hg hicb hid hih ocb hmod).mpr ⟨hat, rfl⟩⟩
  rw [stores_filter, h.calls_eq, filter_threadArgs (h.allExtents_pos hchunks) h.nbOcL2_pos hP ht]
  by_cases htx : t = ithr
  · rw [if_pos htx, htx, if_pos hrange, hat, List.flatMap_map, rowStores, List.filter_flatMap,
      ← List.flatMap_singleton' ((List.range p.nbOc).map _), List.flatMap_map]
    refine List.flatMap_congr fun ocb _ => ?_
    have hmod := Nat.mod_lt icb hpos
    -- the one block of the call that is this row
    have hone : (List.range jcp.nbIcBlocking).filter
        (fun k => p.storedRow (p.callAt jcp ⟨n, g, icb / jcp.nbIcBlocking, id, ih⟩ ocb) k =
          some (p.srcRow n (g * p.nbIc + icb : ℕ) id ih)) = [icb % jcp.nbIcBlocking] := by
      have hsame : (List.range jcp.nbIcBlocking).filter
          (fun k => p.storedRow (p.callAt jcp ⟨n, g, icb / jcp.nbIcBlocking, id, ih⟩ ocb) k =
            some (p.srcRow n (g * p.nbIc + icb : ℕ) id ih)) =
          (List.range jcp.nbIcBlocking).filter fun k => k = icb % jcp.nbIcBlocking := by
        refine List.filter_congr fun k hk => ?_
        rw [decide_eq_decide, h.storedRow_iff hc hg hicb hid hih ocb (List.mem_range.mp hk)]
        exact and_iff_right rfl
      rw [hsame, List.filter_eq, List.count_eq_one_of_mem List.nodup_range (List.mem_range.mpr hmod)]
      rfl
    have hrow := (h.storedRow_iff hc hg hicb hid hih ocb hmod).mpr ⟨rfl, rfl⟩
    rw [callStores, List.filter_map]
    show ((List.range jcp.nbIcBlocking).filter
        (fun k => p.storedRow (p.callAt jcp ⟨n, g, icb / jcp.nbIcBlocking, id, ih⟩ ocb) k =
          some (p.srcRow n (g * p.nbIc + icb : ℕ) id ih))).map _ = _
    rw [hone, List.map_singleton, hrow, h.walkedRows_callAt hid' ocb hmod]
    dsimp only
    rw [hrows ih hih, hdepths id hid, Nat.div_add_mod']
    rfl
  · have hnot : ¬ ((balance211 (p.allExtents jcp).prod nthr t).1 ≤ x ∧ x < (balance211 (p.allExtents jcp).prod nthr t).2) :=
      fun hin => htx (balance211_unique ht hithr hin hrange)
    rw [if_neg htx, if_neg hnot]
    rfl

/-- A block of input channels that is left over is stored by no thread. -/
theorem not_storesRows (hdvd : ¬ jcp.nbIcBlocking ∣ p.nbIc) : ¬ p.StoresRows jcp isa := by
  intro hstores
  obtain ⟨hmb, hid, hih, -⟩ := h.extents_pos
  have hnb := h.nbIc_pos
  have hnoc := h.nbOc_pos
  have hpos := h.choices.nbIcBlocking_pos
  obtain ⟨ithr, hithr, hfilter⟩ := hstores 1 Nat.one_pos 0 hmb 0 h.ngroups_pos (p.nbIc - 1) (by omega) 0 hid 0 hih
  have hithr0 : ithr = 0 := by omega
  have hzero := hfilter 0 Nat.one_pos
  rw [if_pos hithr0.symm, stores_filter, h.calls_eq] at hzero
  have hnone : (p.threadArgs jcp (p.allExtents jcp) (counters jcp (if p.ndims = 4 then spatial2d else spatial3d))
      (fun _ => p.callAt jcp) 1 0).filter (p.storesRow jcp (p.srcRow (0 : ℕ) (0 * p.nbIc + (p.nbIc - 1) : ℕ) (0 : ℕ) (0 : ℕ))) = [] := by
    rcases Nat.eq_zero_or_pos (p.icChunks jcp) with hchunks | hchunks
    · have hprod : (p.allExtents jcp).prod = 0 := by
        refine List.prod_eq_zero ?_
        unfold allExtents outerExtents
        refine List.mem_append_left _ (List.mem_append_left _ ?_)
        rw [← hchunks]
        cases jcp.loopOrder <;> simp
      have hpasses : jumpPasses (p.allExtents jcp) 1 0 = [] := by
        rw [jumpPasses, hprod]
        rfl
      have hnil : p.threadArgs jcp (p.allExtents jcp) (counters jcp (if p.ndims = 4 then spatial2d else spatial3d))
          (fun _ => p.callAt jcp) 1 0 = [] := by
        unfold threadArgs
        rw [hpasses]
        exact List.flatMap_eq_nil_iff.mpr fun _ _ => rfl
      rw [hnil]
      rfl
    · rw [filter_threadArgs (h.allExtents_pos hchunks) h.nbOcL2_pos (x := (p.allExtents jcp).prod) ?_ Nat.one_pos]
      · have hle := balance211_snd_le (n := (p.allExtents jcp).prod) Nat.one_pos
        exact if_neg fun hin => by omega
      · intro w hw ocb
        obtain ⟨hrangeW, -⟩ := countersAt_inRange depth_input hw
        rw [decide_eq_false (by omega), storesRow, List.any_eq_false]
        intro k hk hrow
        have hk := List.mem_range.mp hk
        obtain ⟨hc, hmod⟩ := (h.storedRow_iff hrangeW h.ngroups_pos (by omega) hid hih ocb hk).mp (of_decide_eq_true hrow)
        -- the last block is in a chunk of its own
        have hchunk : (p.nbIc - 1) / jcp.nbIcBlocking < p.icChunks jcp := by
          have hicc := hrangeW.icc
          rw [hc] at hicc
          exact hicc
        have hlt := (Nat.div_lt_iff_lt_mul hpos).mp hchunk
        have hfloor := Nat.div_mul_le_self p.nbIc jcp.nbIcBlocking
        rw [← icChunks] at hfloor
        exact hdvd ⟨p.icChunks jcp, by rw [Nat.mul_comm]; omega⟩
  rw [hnone] at hzero
  have hlen := congrArg List.length hzero
  rw [rowStores, List.length_map, List.length_range] at hlen
  exact absurd hlen (by show 0 ≠ p.nbOc; omega)

/-! ## The axes -/

theorem height_valid : p.height.Valid := by
  have hsrc := h.wellFormed.src_pos
  have hdst := h.wellFormed.dst_pos
  have hwei := h.wellFormed.wei_pos
  have hstride := h.width_pos.2.1
  have hunit := h.configured.height_unit
  have hne : p.ndims ≠ 3 := by rcases h.wellFormed.rank with hr | hr <;> omega
  have hlt : p.ndims - 2 < p.ndims := by rcases h.wellFormed.rank with hr | hr <;> omega
  unfold height at hstride hunit ⊢
  rw [if_neg hne] at hstride hunit ⊢
  exact ⟨hsrc _ hlt, hdst _ hlt, hwei _ (by omega), hstride, hunit⟩

theorem depth_valid : p.depth.Valid := by
  have hsrc := h.wellFormed.src_pos
  have hdst := h.wellFormed.dst_pos
  have hwei := h.wellFormed.wei_pos
  have hstride := h.width_pos.2.2
  have hunit := h.configured.depth_unit
  rcases h.wellFormed.rank with hr | hr
  · rw [depth_of_rank_four hr]
    exact ⟨Nat.one_pos, Nat.one_pos, Nat.one_pos, Nat.one_pos, Or.inl rfl⟩
  · unfold depth at hstride hunit ⊢
    rw [if_pos hr] at hstride hunit ⊢
    exact ⟨hsrc 2 (by omega), hdst 2 (by omega), hwei _ (by omega), hstride, hunit⟩

theorem rows_iff (ih : ℕ) :
    p.height.walked ih ((jcp.computeLoop isa).steps p.height) = p.height.intTaps ih ↔ ¬ p.height.Beyond ih := by
  rw [h.choices.height_steps]
  exact Axis.walked_iff h.height_valid

theorem depths_iff (id : ℕ) :
    p.depth.walked id ((jcp.computeLoop isa).steps p.depth) = p.depth.intTaps id ↔
      ¬ p.depth.Beyond id ∧ ¬ (p.StepsByOne isa l1CacheSize ∧ p.depth.MeetsTwo id) := by
  by_cases hsteps : p.StepsByOne isa l1CacheSize
  · rw [h.choices.depth_steps_one hsteps, Axis.walked_unit_iff h.depth_valid, or_iff_right hsteps.2.1,
      and_iff_right hsteps]
  · rw [h.choices.depth_steps hsteps, Axis.walked_iff h.depth_valid]
    exact (and_iff_left fun hboth => hsteps hboth.1).symm

/-- The driver and the generated code compute the gradient unless a row or a depth lies behind the last filter position, a
loop without strides meets strides in the depth, or a block of input channels is left over. -/
theorem correct_iff : p.Correct jcp isa ↔
    (∀ ih < p.height.input, ¬ p.height.Beyond ih) ∧
      (∀ id < p.depth.input, ¬ p.depth.Beyond id ∧ ¬ (p.StepsByOne isa l1CacheSize ∧ p.depth.MeetsTwo id)) ∧
      ¬ p.LosesBlock isa := by
  constructor
  · rintro ⟨hrows, hdepths, hstores⟩
    refine ⟨fun ih hih => (h.rows_iff ih).mp (hrows ih hih), fun id hid => (h.depths_iff id).mp (hdepths id hid), ?_⟩
    rw [← h.choices.dvd_iff]
    by_contra hdvd
    exact h.not_storesRows hdvd hstores
  · rintro ⟨hrows, hdepths, hloses⟩
    have hrows : ∀ ih < p.height.input, p.height.walked ih ((jcp.computeLoop isa).steps p.height) = p.height.intTaps ih :=
      fun ih hih => (h.rows_iff ih).mpr (hrows ih hih)
    have hdepths : ∀ id < p.depth.input, p.depth.walked id ((jcp.computeLoop isa).steps p.depth) = p.depth.intTaps id :=
      fun id hid => (h.depths_iff id).mpr (hdepths id hid)
    exact ⟨hrows, hdepths, h.storesRows hrows hdepths (h.choices.dvd_iff.mpr hloses)⟩

end Accepted

/-- The tensor of the extents `dims` in the format `tag`. -/
def tensor (dims : List ℤ) (tag : FormatTag) : MemoryDesc :=
  match memoryDescInitByTag dims.length (fun d => dims.getD d 0) .f32 tag with
  | .ok md => md
  | .error _ => zeroMd

/-- A convolution of one column with 16 channels: `i` rows, a filter of `k` rows, and `o` rows after the stride `s`. -/
def column (i k o s : ℤ) : Problem :=
  ⟨fun d => if d = 0 then s else 1, fun _ => 0, fun _ => 0, tensor [1, 16, i, 1] .aBcd16b, tensor [16, 16, k, 1] .ABcd16a16b,
    tensor [1, 16, o, 1] .aBcd16b⟩

/-- Five rows, of which the filter of three rows takes every second one. -/
theorem Accepted.correct_iff_column :
    (column 5 3 2 2).Correct ⟨.verFma, .embdBcast, .cgn, 1, 1⟩ .avx512Core := by
  have h : (column 5 3 2 2).Accepted .avx512Core 32768 ⟨.verFma, .embdBcast, .cgn, 1, 1⟩ :=
    ⟨⟨Or.inl rfl, rfl, rfl, rfl, rfl, rfl, by decide, by decide, by decide, rfl, rfl, rfl, by decide⟩, rfl⟩
  refine h.correct_iff.mpr ⟨fun ih hih hbeyond => ?_, fun id hid => ⟨fun hbeyond => ?_, fun hboth => ?_⟩, fun hloses => ?_⟩
  · exact absurd hbeyond.1 (by decide)
  · exact absurd hbeyond.1 (by decide)
  · exact absurd hboth.1.2.1 (by decide)
  · exact absurd hloses.1 (by decide)

/-- Five rows, of which the filter of one row takes every third one: the last row gets a product. -/
theorem not_correct_column : ¬ ∀ (p : Problem) (isa : CpuIsa) (l1CacheSize : ℕ) (jcp : Jcp),
    p.Accepted isa l1CacheSize jcp → p.Correct jcp isa := by
  intro hall
  have h : (column 5 1 2 3).Accepted .avx512Core 32768 ⟨.verFma, .embdBcast, .cgn, 1, 1⟩ :=
    ⟨⟨Or.inl rfl, rfl, rfl, rfl, rfl, rfl, by decide, by decide, by decide, rfl, rfl, rfl, by decide⟩, rfl⟩
  have hrow := (hall _ _ _ _ h).rows 4 (by decide)
  have hbeyond : (column 5 1 2 3).height.Beyond 4 := ⟨by decide, by decide, by decide, by decide⟩
  exact (h.rows_iff 4).mp hrow hbeyond

end Problem

end MklDnn.Avx512BwdData
