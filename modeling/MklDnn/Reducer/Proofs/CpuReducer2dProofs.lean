import MklDnn.Common.Proofs.ThreadingProofs
import MklDnn.Lib.Checks
import MklDnn.Reducer.Proofs.BlocksProofs
import MklDnn.Reducer.Proofs.CpuReducerProofs

/-!
# Proofs: the elements that the threads of a group reduce

The jobs of a group are divided among the threads in the same way by every thread, so every element of every job
is in one block of one thread.
-/

namespace MklDnn.CpuReducer2d

variable {c : CpuReducer2d}

/-! ## The grid of the jobs -/

theorem mul_lt_of_lt_divUp {a n q : ℕ} (hn : 0 < n) (h : q < divUp a n) : q * n < a := by
  by_contra hle
  have := (divUp_le_iff hn).mpr (Nat.not_lt.mp hle)
  omega

namespace JobGrid

variable (h : c.JobGrid)

include h

theorem dstX_pos : 0 < c.dstX := Nat.lt_of_lt_of_le h.xBlock_pos h.dstX_le

theorem njobsX_pos : 0 < c.njobsX := divUp_pos h.dstX_pos h.jobSizeX_pos

theorem njobs_pos : 0 < c.balancer.njobs := by
  rw [h.njobs_eq]
  exact Nat.mul_pos h.njobsX_pos (divUp_pos h.dstY_pos h.jobSizeY_pos)

/-- A job begins inside of a row. -/
theorem startX_lt (gj : ℕ) : c.startX gj < c.dstX :=
  mul_lt_of_lt_divUp h.jobSizeX_pos (Nat.mod_lt gj h.njobsX_pos)

theorem startY_lt {gj : ℕ} (hgj : gj < c.balancer.njobs) : c.startY gj < c.dstY := by
  apply mul_lt_of_lt_divUp h.jobSizeY_pos
  rw [Nat.div_lt_iff_lt_mul h.njobsX_pos, Nat.mul_comm]
  rw [h.njobs_eq] at hgj
  exact hgj

theorem nx_pos (gj : ℕ) : 0 < c.nx gj :=
  Nat.lt_min.mpr ⟨Nat.sub_pos_of_lt (h.startX_lt gj), h.jobSizeX_pos⟩

theorem ny_pos {gj : ℕ} (hgj : gj < c.balancer.njobs) : 0 < c.ny gj :=
  Nat.lt_min.mpr ⟨Nat.sub_pos_of_lt (h.startY_lt hgj), h.jobSizeY_pos⟩

/-- Also at the right end of the destination the width of a job is a multiple of `x_block_`. -/
theorem xBlock_dvd_nx (hdvd : c.xBlock ∣ c.jobSizeX) (gj : ℕ) : c.xBlock ∣ c.nx gj := by
  unfold nx
  rcases Nat.le_total (c.dstX - c.startX gj) c.jobSizeX with hle | hle
  · rw [min_eq_left hle]
    exact Nat.dvd_sub h.dstX_dvd (hdvd.mul_left _)
  · rw [min_eq_right hle]
    exact hdvd

omit h in
theorem lt_of_lt_nx {gj x : ℕ} (hx : x < c.nx gj) : c.startX gj + x < c.dstX ∧ x < c.jobSizeX := by
  unfold nx at hx
  omega

omit h in
/-- Different elements of the jobs are at different places. -/
theorem place_inj {gj gj' y y' x x' : ℕ} (hy : y < c.jobSizeY) (hy' : y' < c.jobSizeY) (hx : x < c.nx gj)
    (hx' : x' < c.nx gj')
    (heq : (c.startY gj + y) * c.dstX + (c.startX gj + x) = (c.startY gj' + y') * c.dstX + (c.startX gj' + x')) :
    gj = gj' ∧ y = y' ∧ x = x' := by
  rw [Nat.add_comm, Nat.add_comm (_ * c.dstX)] at heq
  obtain ⟨hcol, hrow⟩ := add_mul_inj (lt_of_lt_nx hx).1 (lt_of_lt_nx hx').1 heq
  unfold startX at hcol
  unfold startY at hrow
  rw [Nat.add_comm, Nat.add_comm (_ * c.jobSizeX)] at hcol
  rw [Nat.add_comm, Nat.add_comm (_ * c.jobSizeY)] at hrow
  obtain ⟨hx, hjx⟩ := add_mul_inj (lt_of_lt_nx hx).2 (lt_of_lt_nx hx').2 hcol
  obtain ⟨hy, hjy⟩ := add_mul_inj hy hy' hrow
  refine ⟨?_, hy, hx⟩
  rw [← Nat.div_add_mod' gj c.njobsX, ← Nat.div_add_mod' gj' c.njobsX, hjx, hjy]

end JobGrid

/-! ## The blocks of a job -/

/-- The ranges of the threads, in elements. -/
theorem range_mul_iff {a b v n : ℕ} (hv : 0 < v) : a * v ≤ n ∧ n < b * v ↔ a ≤ n / v ∧ n / v < b := by
  rw [Nat.le_div_iff_mul_le hv, Nat.div_lt_iff_lt_mul hv]

section Grid

variable (h : c.JobGrid) (hdvd : c.xBlock ∣ c.jobSizeX) {fuel : ℕ} (hfuel : c.dstX < fuel)

include h hdvd hfuel

/-- The width of the blocks of a job. -/
theorem exists_xBlocking {gj : ℕ} (hgj : gj < c.balancer.njobs) (n : ℕ) :
    ∃ v, c.chooseXBlocking fuel (c.nx gj) (c.ny gj) n = some v ∧ 0 < v ∧ v ∣ c.nx gj := by
  have hwidth := h.xBlock_dvd_nx hdvd gj
  have hnx : c.nx gj ≤ c.dstX := (Nat.min_le_left _ _).trans (Nat.sub_le _ _)
  obtain ⟨v, hv, hpos, hvdvd⟩ := chooseXBlocking_spec h.xBlock_pos (Nat.le_of_dvd (h.nx_pos gj) hwidth)
    (h.ny_pos hgj) (hnx.trans_lt hfuel) n
  exact ⟨v, hv, hpos, hvdvd hwidth⟩

/-- The threads of a job have blocks inside of the job, and every element of the job is in one block of one thread. -/
theorem jobBlocks_spec {off j n : ℕ} (hgj : off + j < c.balancer.njobs) (hn : 0 < n) : ∃ share : ℕ → List Block,
    (∀ id < n, c.jobBlocks fuel off n id j = some (share id) ∧ ∀ k ∈ share id, k.job = j ∧
      k.startY = c.startY (off + j) ∧ k.startX = c.startX (off + j) ∧
        ∀ y x, k.Covers y x → y < c.ny (off + j) ∧ x < c.nx (off + j)) ∧
    ∀ y < c.ny (off + j), ∀ x < c.nx (off + j), ∃ owner < n, ∀ id < n,
      (share id).countP (fun k => k.Covers y x) = if id = owner then 1 else 0 := by
  obtain ⟨v, hv, hpos, hvdvd⟩ := exists_xBlocking h hdvd hfuel hgj n
  have hnx := h.nx_pos (off + j)
  have hall : c.ny (off + j) * c.nx (off + j) / v * v = c.ny (off + j) * c.nx (off + j) :=
    Nat.div_mul_cancel (hvdvd.mul_left _)
  set total := c.ny (off + j) * c.nx (off + j) / v with htotal
  have hle : ∀ id, (balance211 total n id).1 * v ≤ (balance211 total n id).2 * v :=
    fun id => Nat.mul_le_mul_right v (balance211_fst_le_snd _ _ _)
  obtain ⟨share, hshare⟩ : ∃ share : ℕ → List Block, ∀ id, share id =
      if (balance211 total n id).1 = (balance211 total n id).2 then []
      else blocks j (c.startY (off + j)) (c.startX (off + j)) (c.nx (off + j)) ((balance211 total n id).1 * v)
        ((balance211 total n id).2 * v) := ⟨_, fun _ => rfl⟩
  have hcount : ∀ id y x, x < c.nx (off + j) → (share id).countP (fun k => k.Covers y x) =
      if (balance211 total n id).1 ≤ (y * c.nx (off + j) + x) / v ∧
        (y * c.nx (off + j) + x) / v < (balance211 total n id).2 then 1 else 0 := by
    intro id y x hx
    rw [hshare]
    by_cases hempty : (balance211 total n id).1 = (balance211 total n id).2
    · rw [if_pos hempty, List.countP_nil, if_neg (by omega)]
    · rw [if_neg hempty, countP_blocks hx (hle id), if_congr (range_mul_iff hpos) rfl rfl]
  refine ⟨share, ?_, ?_⟩
  · intro id hid
    constructor
    · unfold jobBlocks
      dsimp only
      rw [hv, Option.map_some, hshare]
    · intro k hk
      have hk' := hk
      rw [hshare, List.mem_ite_nil_left] at hk'
      obtain ⟨hjob, hy, hx, hrow⟩ := mem_blocks hnx (hle id) hk'.2
      refine ⟨hjob, hy, hx, ?_⟩
      intro y x hcovers
      have hxlt : x < c.nx (off + j) := lt_of_lt_of_le hcovers.2.2 hrow
      refine ⟨?_, hxlt⟩
      have hone : 0 < (share id).countP fun k => k.Covers y x :=
        List.countP_pos_iff.mpr ⟨k, hk, decide_eq_true hcovers⟩
      rw [hcount id y x hxlt] at hone
      split_ifs at hone with hrange
      · have hlast : (balance211 total n id).2 ≤ total := balance211_snd_le hid
        have hlt := (Nat.div_lt_iff_lt_mul hpos).mp (hrange.2.trans_le hlast)
        rw [hall] at hlt
        by_contra hge
        have := Nat.mul_le_mul_right (c.nx (off + j)) (Nat.not_lt.mp hge)
        omega
      · omega
  · intro y hy x hx
    have hin : (y * c.nx (off + j) + x) / v < total := by
      rw [Nat.div_lt_iff_lt_mul hpos, hall]
      have := Nat.mul_le_mul_right (c.nx (off + j)) hy
      rw [Nat.succ_mul] at this
      omega
    obtain ⟨owner, howner, hrange⟩ := exists_balance211 hn hin
    refine ⟨owner, howner, ?_⟩
    intro id hid
    rw [hcount id y x hx]
    by_cases heq : id = owner
    · rw [if_pos heq, heq, if_pos hrange]
    · rw [if_neg heq, if_neg fun hother => heq (balance211_unique hid howner hother hrange)]

end Grid

/-! ## The blocks of a group -/

/-- An element of a job. -/
structure Cell where
  job : ℕ
  y : ℕ
  x : ℕ

/-- The elements of the jobs of a group. -/
def cells (c : CpuReducer2d) (grp : ℕ) : Set Cell := fun e =>
  e.job < c.balancer.grpNjobs grp ∧ e.y < c.ny (c.balancer.grpJobOff grp + e.job) ∧
    e.x < c.nx (c.balancer.grpJobOff grp + e.job)

/-- The element of a job is in a block. -/
def Block.Holds (k : Block) (e : Cell) : Prop := k.job = e.job ∧ k.Covers e.y e.x

instance (k : Block) (e : Cell) : Decidable (k.Holds e) := inferInstanceAs (Decidable (_ ∧ _))

/-- The elements of a job are in the blocks of the job. -/
theorem countP_jobs {l : List ℕ} (hnd : l.Nodup) {f : ℕ → List Block} (hjob : ∀ j ∈ l, ∀ k ∈ f j, k.job = j) (e : Cell) :
    (l.flatMap f).countP (fun k => k.Holds e) =
      if e.job ∈ l then (f e.job).countP (fun k => k.Covers e.y e.x) else 0 := by
  induction l with
  | nil => rfl
  | cons j l ih =>
    rw [List.nodup_cons] at hnd
    rw [List.flatMap_cons, List.countP_append, ih hnd.2 fun i hi => hjob i (List.mem_cons_of_mem j hi)]
    by_cases hj : e.job = j
    · have hhead : (f j).countP (fun k => k.Holds e) = (f j).countP fun k => k.Covers e.y e.x := by
        apply List.countP_congr
        intro k hk
        rw [decide_eq_true_iff, decide_eq_true_iff]
        exact and_iff_right ((hjob j List.mem_cons_self k hk).trans hj.symm)
      rw [hhead, hj, if_neg hnd.1, if_pos List.mem_cons_self, Nat.add_zero]
    · have hhead : (f j).countP (fun k => k.Holds e) = 0 := by
        rw [List.countP_eq_zero]
        intro k hk
        rw [decide_eq_true_iff]
        rintro ⟨heq, -⟩
        exact hj (heq.symm.trans (hjob j List.mem_cons_self k hk))
      rw [hhead, Nat.zero_add]
      apply if_congr _ rfl rfl
      rw [List.mem_cons, or_iff_right hj]

/-- Every group has a job. -/
theorem grpNjobs_pos (h : c.balancer.Valid) {grp : ℕ} (hgrp : grp < c.balancer.ngroups) : 0 < c.balancer.grpNjobs grp := by
  have hpos : 0 < c.balancer.njobs / c.balancer.ngroups := Nat.div_pos h.ngroups_le h.ngroups_pos
  unfold ReduceBalancer.grpNjobs
  rw [if_neg (by omega)]
  omega

section Group

variable (hv : c.balancer.Valid) {fuel grp n off id : ℕ} (hn : n = c.balancer.grpNjobs grp)
  (hoff : off = c.balancer.grpJobOff grp) (hthr : 0 < c.prNthrPerGrp n)

/-- The jobs of a thread. -/
def jobsOf (c : CpuReducer2d) (n id : ℕ) : List ℕ :=
  let prJob := balance211 n (c.prGrps n) (id / c.prNthrPerGrp n)
  List.range' prJob.1 (prJob.2 - prJob.1)

theorem mem_jobsOf {j : ℕ} : j ∈ jobsOf c n id ↔ (balance211 n (c.prGrps n) (id / c.prNthrPerGrp n)).1 ≤ j ∧
    j < (balance211 n (c.prGrps n) (id / c.prNthrPerGrp n)).2 := by
  have := balance211_fst_le_snd n (c.prGrps n) (id / c.prNthrPerGrp n)
  unfold jobsOf
  rw [List.mem_range'_1]
  omega

include hthr in
theorem lt_of_mem_jobsOf (hid : id < c.prGrps n * c.prNthrPerGrp n) {j : ℕ} (hj : j ∈ jobsOf c n id) : j < n := by
  have hle : (balance211 n (c.prGrps n) (id / c.prNthrPerGrp n)).2 ≤ n :=
    balance211_snd_le ((Nat.div_lt_iff_lt_mul hthr).mpr hid)
  exact (mem_jobsOf.mp hj).2.trans_le hle

/-- The blocks of a thread, by the blocks of the jobs. -/
def shareOf (c : CpuReducer2d) (n : ℕ) (jobShare : ℕ → ℕ → List Block) (id : ℕ) : List Block :=
  if id < c.prGrps n * c.prNthrPerGrp n then
    (jobsOf c n id).flatMap fun j => jobShare j (id % c.prNthrPerGrp n)
  else []

variable {jobShare : ℕ → ℕ → List Block}

include hv hn hoff hthr in
theorem threadBlocks_eq (hgrp : grp < c.balancer.ngroups) (hred : c.balancer.nthrPerGroup ≠ 1)
    (hid : id < c.balancer.nthrPerGroup) (hjobs : ∀ j < n, ∀ t < c.prNthrPerGrp n,
      c.jobBlocks fuel off (c.prNthrPerGrp n) t j = some (jobShare j t)) :
    c.threadBlocks fuel (grp * c.balancer.nthrPerGroup + id) = some (shareOf c n jobShare id) := by
  have hnot := CpuReducer.redundantReduction_eq_false hv hred hgrp hid
  unfold threadBlocks
  dsimp only
  rw [if_neg (by rw [hnot]; exact Bool.false_ne_true), ReduceBalancer.idInGroup_eq hid, ReduceBalancer.ithrNjobs,
    ReduceBalancer.ithrJobOff, hv.groupId_eq hid, ← hn, ← hoff]
  unfold shareOf
  by_cases hidle : id < c.prGrps n * c.prNthrPerGrp n
  · have hmap : (jobsOf c n id).mapM (c.jobBlocks fuel off (c.prNthrPerGrp n) (id % c.prNthrPerGrp n)) =
        some ((jobsOf c n id).map fun j => jobShare j (id % c.prNthrPerGrp n)) := by
      apply Checks.mapM_eq_some
      intro j hj
      exact hjobs j (lt_of_mem_jobsOf hthr hidle hj) _ (Nat.mod_lt id hthr)
    unfold jobsOf at hmap ⊢
    dsimp only at hmap ⊢
    rw [if_neg (by omega), if_pos hidle, hmap, Option.map_some, List.flatMap_def]
  · rw [if_pos (by omega), if_neg hidle]

include hthr in
/-- An element that one thread of its job has in a block is in one block of one thread of the group. -/
theorem exists_owner (hgrps : 0 < c.prGrps n) (hjob : ∀ j < n, ∀ t < c.prNthrPerGrp n, ∀ k ∈ jobShare j t, k.job = j)
    {e : Cell} (he : e.job < n) {t : ℕ} (ht : t < c.prNthrPerGrp n) (hone : ∀ id < c.prNthrPerGrp n,
      (jobShare e.job id).countP (fun k => k.Covers e.y e.x) = if id = t then 1 else 0) :
    ∃ owner < c.prGrps n * c.prNthrPerGrp n, ∀ id,
      (shareOf c n jobShare id).countP (fun k => k.Holds e) = if id = owner then 1 else 0 := by
  obtain ⟨g, hg, hrange⟩ := exists_balance211 hgrps he
  have hdiv : (g * c.prNthrPerGrp n + t) / c.prNthrPerGrp n = g := by
    rw [Nat.mul_comm, Nat.mul_add_div hthr, Nat.div_eq_of_lt ht, Nat.add_zero]
  have hmod : (g * c.prNthrPerGrp n + t) % c.prNthrPerGrp n = t := by
    rw [Nat.mul_comm, Nat.mul_add_mod, Nat.mod_eq_of_lt ht]
  have howner : g * c.prNthrPerGrp n + t < c.prGrps n * c.prNthrPerGrp n := by
    have := Nat.mul_le_mul_right (c.prNthrPerGrp n) hg
    rw [Nat.succ_mul] at this
    omega
  refine ⟨g * c.prNthrPerGrp n + t, howner, ?_⟩
  intro id
  unfold shareOf
  by_cases hlt : id < c.prGrps n * c.prNthrPerGrp n
  · have hnd : (jobsOf c n id).Nodup := List.nodup_range'
    rw [if_pos hlt, countP_jobs hnd fun j hj => hjob j (lt_of_mem_jobsOf hthr hlt hj) _ (Nat.mod_lt id hthr),
      hone _ (Nat.mod_lt id hthr)]
    by_cases heq : id = g * c.prNthrPerGrp n + t
    · have hmem : e.job ∈ jobsOf c n id := by
        rw [mem_jobsOf, heq, hdiv]
        exact hrange
      rw [if_pos hmem, if_pos heq, heq, hmod, if_pos rfl]
    · rw [if_neg heq]
      split_ifs with hin hsame
      · have hgeq := balance211_unique ((Nat.div_lt_iff_lt_mul hthr).mpr hlt) hg (mem_jobsOf.mp hin) hrange
        have hid := Nat.div_add_mod' id (c.prNthrPerGrp n)
        rw [hgeq, hsame] at hid
        exact absurd hid.symm heq
      · rfl
      · rfl
  · rw [if_neg hlt, List.countP_nil, if_neg (by omega)]

/-- The threads of a group have blocks of the jobs of the group, and every element of these jobs is in one block of one
thread. -/
theorem threadBlocks_spec (h : c.JobGrid) (hv : c.balancer.Valid) (hdvd : c.xBlock ∣ c.jobSizeX)
    (hfuel : c.dstX < fuel) (hgrp : grp < c.balancer.ngroups) (hred : c.balancer.nthrPerGroup ≠ 1) :
    ∃ share : ℕ → List Block,
      (∀ id < c.balancer.nthrPerGroup, c.threadBlocks fuel (grp * c.balancer.nthrPerGroup + id) = some (share id) ∧
        ∀ k ∈ share id, k.startY = c.startY (c.balancer.grpJobOff grp + k.job) ∧
          k.startX = c.startX (c.balancer.grpJobOff grp + k.job) ∧ ∀ e, k.Holds e → e ∈ c.cells grp) ∧
      ∀ e ∈ c.cells grp, ∃ owner < c.balancer.nthrPerGroup, ∀ id,
        (share id).countP (fun k => k.Holds e) = if id = owner then 1 else 0 := by
  obtain ⟨n, hn⟩ : ∃ n, n = c.balancer.grpNjobs grp := ⟨_, rfl⟩
  obtain ⟨off, hoff⟩ : ∃ off, off = c.balancer.grpJobOff grp := ⟨_, rfl⟩
  have hnpos : 0 < n := hn ▸ grpNjobs_pos hv hgrp
  have hgrps : 0 < c.prGrps n := Nat.lt_min.mpr ⟨hnpos, hv.nthrPerGroup_pos⟩
  have hthr : 0 < c.prNthrPerGrp n := Nat.div_pos (Nat.min_le_right _ _) hgrps
  have hlast : off + n ≤ c.balancer.njobs := by
    rw [hoff, hn]
    exact hv.grpJobOff_le hgrp
  have hjobs : ∀ j, ∃ share : ℕ → List Block, j < n →
      (∀ id < c.prNthrPerGrp n, c.jobBlocks fuel off (c.prNthrPerGrp n) id j = some (share id) ∧ ∀ k ∈ share id,
        k.job = j ∧ k.startY = c.startY (off + j) ∧ k.startX = c.startX (off + j) ∧
          ∀ y x, k.Covers y x → y < c.ny (off + j) ∧ x < c.nx (off + j)) ∧
      ∀ y < c.ny (off + j), ∀ x < c.nx (off + j), ∃ owner < c.prNthrPerGrp n, ∀ id < c.prNthrPerGrp n,
        (share id).countP (fun k => k.Covers y x) = if id = owner then 1 else 0 := by
    intro j
    by_cases hj : j < n
    · obtain ⟨share, hshare⟩ := jobBlocks_spec h hdvd hfuel (by omega : off + j < c.balancer.njobs) hthr
      exact ⟨share, fun _ => hshare⟩
    · exact ⟨fun _ => [], fun hlt => absurd hlt hj⟩
  choose jobShare hjobShare using hjobs
  refine ⟨shareOf c n jobShare, ?_, ?_⟩
  · intro id hid
    constructor
    · apply threadBlocks_eq hv hn hoff hthr hgrp hred hid
      intro j hj t ht
      exact ((hjobShare j hj).1 t ht).1
    · intro k hk
      unfold shareOf at hk
      rw [List.mem_ite_nil_right, List.mem_flatMap] at hk
      obtain ⟨hused, j, hj, hk⟩ := hk
      have hjn := lt_of_mem_jobsOf hthr hused hj
      obtain ⟨rfl, hy, hx, hin⟩ := ((hjobShare j hjn).1 _ (Nat.mod_lt id hthr)).2 k hk
      rw [← hoff]
      refine ⟨hy, hx, ?_⟩
      rintro ⟨job, y, x⟩ ⟨rfl, hcovers⟩
      subst hn hoff
      exact ⟨hjn, hin y x hcovers⟩
  · rintro e ⟨hj, hy, hx⟩
    rw [← hn] at hj
    rw [← hoff] at hy hx
    obtain ⟨t, ht, hone⟩ := (hjobShare e.job hj).2 e.y hy e.x hx
    obtain ⟨owner, howner, hcount⟩ := exists_owner hthr hgrps
      (fun j hj t ht k hk => (((hjobShare j hj).1 t ht).2 k hk).1) hj ht hone
    exact ⟨owner, howner.trans_le (Nat.mul_div_le _ _), hcount⟩

end Group

end MklDnn.CpuReducer2d
