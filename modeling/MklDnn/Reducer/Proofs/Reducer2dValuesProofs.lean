import MklDnn.Lib.Fills
import MklDnn.Reducer.Proofs.CpuReducer2dProofs

/-!
# Proofs: reduction in two dimensions

A block of a job fills its elements of the destination with the sums of the partial results of all threads of the
group. The threads of a group fill different elements, so in any order of the threads every job gets these sums.
-/

open Interleaving

namespace MklDnn.CpuReducer2d

open CpuReducer (Elem spacePerThread)
open Reducer2dDriver

variable {c : CpuReducer2d}

/-! ## The partial results of a group -/

/-- Where the scratchpad has an element of a job, from the partial results of a thread. -/
def spaceIdx (c : CpuReducer2d) (e : Cell) : ℕ := e.job * c.balancer.jobSize + e.y * c.jobSizeX + e.x

/-- Where the destination has an element of a job of a group. -/
def place (c : CpuReducer2d) (grp : ℕ) (e : Cell) : Elem :=
  let globalJob := c.balancer.grpJobOff grp + e.job
  .dst ((c.startY globalJob + e.y) * c.dstX + (c.startX globalJob + e.x))

/-- The partial results of all threads of a group, added up in the order of the threads. -/
def groupSum {V : Type*} [Add V] [Zero V] (c : CpuReducer2d) (grp : ℕ) (e : Cell) (m : Elem → V) : V :=
  (List.range c.balancer.nthrPerGroup).foldl
    (fun acc id => acc + m (.space (c.getLocalPtr (grp * c.balancer.nthrPerGroup + id) + c.spaceIdx e))) 0

/-- The local spaces of the threads of a group. -/
def spaces (c : CpuReducer2d) (grp : ℕ) : Set Elem := fun a =>
  ∃ id < c.balancer.nthrPerGroup, ∃ i < spacePerThread c.balancer,
    a = .space (c.getLocalPtr (grp * c.balancer.nthrPerGroup + id) + i)

theorem getLocalPtr_eq (hv : c.balancer.Valid) (grp : ℕ) {id : ℕ} (hid : id < c.balancer.nthrPerGroup) :
    c.getLocalPtr (grp * c.balancer.nthrPerGroup + id) =
      (grp * c.balancer.nthrPerGroup + id) * spacePerThread c.balancer := by
  unfold getLocalPtr
  dsimp only
  rw [hv.groupId_eq hid, ReduceBalancer.idInGroup_eq hid]

section Group

variable (h : c.JobGrid) (hv : c.balancer.Valid) {grp : ℕ} {V : Type*} [Add V] [Zero V]

include h in
/-- The partial results of the jobs of a group fit into the local spaces. -/
theorem spaceIdx_lt (hv : c.balancer.Valid) {e : Cell} (he : e ∈ c.cells grp) :
    c.spaceIdx e < spacePerThread c.balancer := by
  obtain ⟨hjob, hy, hx⟩ := he
  have hx' := (JobGrid.lt_of_lt_nx hx).2
  have hy' : e.y < c.jobSizeY := hy.trans_le (Nat.min_le_right _ _)
  have hin : e.y * c.jobSizeX + e.x < c.balancer.jobSize := by
    rw [h.jobSize_eq, Nat.add_comm, Nat.mul_comm c.jobSizeX]
    exact add_mul_lt hx' hy'
  have hjobs : (e.job + 1) * c.balancer.jobSize ≤ c.balancer.njobsPerGroupUb * c.balancer.jobSize :=
    Nat.mul_le_mul_right _ (Nat.lt_of_lt_of_le hjob (hv.grpNjobs_le grp))
  rw [Nat.succ_mul] at hjobs
  unfold spaceIdx spacePerThread
  omega

theorem place_inj : Set.InjOn (c.place grp) (c.cells grp) := by
  rintro ⟨j, y, x⟩ ⟨-, hy, hx⟩ ⟨j', y', x'⟩ ⟨-, hy', hx'⟩ heq
  injection heq with heq
  obtain ⟨hjob, rfl, rfl⟩ := JobGrid.place_inj (hy.trans_le (Nat.min_le_right _ _))
    (hy'.trans_le (Nat.min_le_right _ _)) hx hx' heq
  obtain rfl : j = j' := by
    dsimp only at hjob
    omega
  rfl

include h hv in
/-- The elements of the jobs are apart from the registers and from the local spaces. -/
theorem outputs (ithr : ℕ) : Outputs (Set.range (Elem.reg ithr)) (c.spaces grp) (c.place grp)
    (c.groupSum (V := V) grp) (c.cells grp) where
  inj := place_inj
  not_scratch := by
    rintro e - ⟨r, heq⟩
    cases heq
  not_input := by
    rintro e - ⟨id, -, i, -, heq⟩
    cases heq
  scratch_not_input := by
    rintro a ⟨r, rfl⟩ ⟨id, -, i, -, heq⟩
    cases heq
  congr := by
    intro e he m m' hm
    unfold groupSum
    apply List.foldl_ext
    intro acc id hid
    rw [List.mem_range] at hid
    rw [hm _ ⟨id, hid, _, spaceIdx_lt h hv he, rfl⟩]

/-! ## A block -/

/-- The elements of a row of a block. -/
def rowCells (k : Block) (y : ℕ) : Set Cell := fun e =>
  e.job = k.job ∧ e.y = k.nyStart + y ∧ k.nxStart ≤ e.x ∧ e.x < k.nxStart + k.nxStep

/-- The elements of a block are the elements of its rows. -/
theorem iUnion_rowCells (k : Block) : (⋃ y ∈ List.range k.nyStep, rowCells k y) = {e | k.Holds e} := by
  ext e
  simp only [Set.mem_iUnion, List.mem_range]
  constructor
  · rintro ⟨y, hy, hjob, hrow, hx⟩
    refine ⟨hjob.symm, ⟨?_, ?_⟩, hx⟩
    · omega
    · omega
  · rintro ⟨hjob, ⟨hlow, hhigh⟩, hx⟩
    exact ⟨e.y - k.nyStart, by omega, hjob.symm, by omega, hx⟩

/-- The destination of a row of a block. -/
def rowDst (c : CpuReducer2d) (k : Block) (y x : ℕ) : Elem :=
  .dst ((k.startY + k.nyStart) * c.dstX + k.startX + k.nxStart + (y * c.dstX + x))

/-- The sources of a row of a block. -/
def rowSrc (c : CpuReducer2d) (spaceBase : ℕ) (k : Block) (y x : ℕ) : Elem :=
  .space (spaceBase + k.job * c.balancer.jobSize + k.nyStart * c.jobSizeX + k.nxStart + (y * c.jobSizeX + x))

theorem row_separate (c : CpuReducer2d) (ithr spaceBase : ℕ) (k : Block) (y : ℕ) :
    Separate (.reg ithr) (c.rowDst k y) (c.rowSrc spaceBase k y) where
  reg_inj := by
    intro r r' heq
    injection heq
  dst_inj := by
    intro x x' heq
    injection heq with heq
    omega
  dst_ne_reg := by
    intro x r heq
    cases heq
  srcs_ne_reg := by
    intro x r heq
    cases heq
  srcs_ne_dst := by
    intro x y heq
    cases heq

theorem place_row {k : Block} (hstartY : k.startY = c.startY (c.balancer.grpJobOff grp + k.job))
    (hstartX : k.startX = c.startX (c.balancer.grpJobOff grp + k.job)) (y x : ℕ) :
    c.place grp ⟨k.job, k.nyStart + y, k.nxStart + x⟩ = c.rowDst k y x := by
  unfold place rowDst
  dsimp only
  rw [← hstartY, ← hstartX]
  congr 1
  ring

include hv in
theorem space_row (isa : IsaTraits) (k : Block) (y x : ℕ) {id : ℕ} (hid : id < c.balancer.nthrPerGroup) :
    c.rowSrc (c.getLocalPtr (grp * c.balancer.nthrPerGroup)) k y (id * (c.drv isa).srcLd + x) =
      .space (c.getLocalPtr (grp * c.balancer.nthrPerGroup + id) +
        c.spaceIdx ⟨k.job, k.nyStart + y, k.nxStart + x⟩) := by
  have hbase := @getLocalPtr_eq c hv grp 0 hv.nthrPerGroup_pos
  rw [Nat.add_zero] at hbase
  unfold rowSrc spaceIdx
  rw [hbase, getLocalPtr_eq hv grp hid]
  congr 1
  show _ + (y * c.jobSizeX + (id * spacePerThread c.balancer + x)) = _
  ring

include h hv in
/-- A row of a block gets the sums. -/
theorem row_fills (isa : IsaTraits) (ithr : ℕ) {k : Block}
    (hstartY : k.startY = c.startY (c.balancer.grpJobOff grp + k.job))
    (hstartX : k.startX = c.startX (c.balancer.grpJobOff grp + k.job)) {y : ℕ} (hin : rowCells k y ⊆ c.cells grp) :
    Fills (V := V) (Set.range (Elem.reg ithr)) (c.spaces grp) (c.place grp) (c.groupSum grp) (rowCells k y)
      ((c.drv isa).loopX (.reg ithr) (c.rowDst k y)
        (c.rowSrc (c.getLocalPtr (grp * c.balancer.nthrPerGroup)) k y) k.nxStep) := by
  have hloop : Reduces (V := V) (c.drv isa) _ _ _ 0 k.nxStep _ :=
    loopX_reduces (row_separate c ithr (c.getLocalPtr (grp * c.balancer.nthrPerGroup)) k y) k.nxStep
  have hplace := place_row (c := c) hstartY hstartX y
  have hcell : ∀ e ∈ rowCells k y, e = ⟨k.job, k.nyStart + y, k.nxStart + (e.x - k.nxStart)⟩ ∧
      e.x - k.nxStart < 0 + k.nxStep := by
    rintro ⟨j, y', x⟩ ⟨hj, hy, hlow, hhigh⟩
    dsimp only at *
    refine ⟨?_, by omega⟩
    rw [hj, hy, Nat.add_sub_cancel' hlow]
  have hrow : ∀ x < 0 + k.nxStep, (⟨k.job, k.nyStart + y, k.nxStart + x⟩ : Cell) ∈ rowCells k y := by
    intro x hx
    rw [Nat.zero_add] at hx
    exact ⟨rfl, rfl, Nat.le_add_right _ _, Nat.add_lt_add_left hx _⟩
  constructor
  · intro m e he
    obtain ⟨heq, hx⟩ := hcell e he
    rw [heq, hplace, hloop.value m _ (Nat.zero_le _) hx]
    unfold total groupSum
    apply List.foldl_ext
    intro acc id hid
    rw [space_row hv isa k y _ (List.mem_range.mp hid)]
  · intro e he
    rcases hloop.frame e he with ⟨r, hreg⟩ | ⟨x, -, hx, hout⟩
    · exact Or.inl ⟨r, hreg.symm⟩
    · exact Or.inr ⟨_, hrow x hx, hout.trans (hplace x).symm⟩
  · intro e he m m' hreg hout hin'
    apply hloop.reads e he
    · intro r
      exact hreg _ ⟨r, rfl⟩
    · intro x _ hx
      rw [← hplace]
      exact hout _ (hrow x hx)
    · intro id hid x _ hx
      rw [space_row hv isa k y x hid]
      exact hin' _ ⟨id, hid, _, spaceIdx_lt h hv (hin (hrow x hx)), rfl⟩

include h hv in
/-- A block gets the sums. -/
theorem reduceBlock_fills (isa : IsaTraits) (ithr : ℕ) {k : Block}
    (hstartY : k.startY = c.startY (c.balancer.grpJobOff grp + k.job))
    (hstartX : k.startX = c.startX (c.balancer.grpJobOff grp + k.job)) (hin : ∀ e, k.Holds e → e ∈ c.cells grp) :
    Fills (V := V) (Set.range (Elem.reg ithr)) (c.spaces grp) (c.place grp) (c.groupSum grp) {e | k.Holds e}
      (c.reduceBlock isa ithr (c.getLocalPtr (grp * c.balancer.nthrPerGroup)) k) := by
  have hcells : ∀ y ∈ List.range k.nyStep, rowCells k y ⊆ c.cells grp := by
    intro y hy e he
    have hmem : e ∈ ⋃ y ∈ List.range k.nyStep, rowCells k y := Set.mem_biUnion hy he
    rw [iUnion_rowCells] at hmem
    exact hin e hmem
  rw [← iUnion_rowCells k]
  apply Fills.flatMap (outputs h hv ithr) hcells
  · apply List.nodup_range.imp
    intro y y' hne
    rintro e ⟨-, hy, -⟩ ⟨-, hy', -⟩
    omega
  · intro y hy
    exact row_fills h hv isa ithr hstartY hstartX (hcells y hy)

/-! ## The threads of a group -/

/-- The element belongs to a group: to its jobs, to the local spaces of its threads, or to their registers. -/
def InGroup (c : CpuReducer2d) (grp : ℕ) (a : Elem) : Prop :=
  (∃ e ∈ c.cells grp, a = c.place grp e) ∨ a ∈ c.spaces grp ∨ ∃ ithr r, c.balancer.groupId ithr = grp ∧ a = .reg ithr r

/-- The threads of a group have passed the barrier of the group. The other threads do whatever they do to what does
not belong to the group. -/
structure GroupRuns (c : CpuReducer2d) (isa : IsaTraits) (fuel grp : ℕ) (progs : ℕ → List (Assign Elem V)) : Prop where
  reduces : ∀ ithr, c.balancer.groupId ithr = grp → c.reduceNolock isa fuel ithr = some (progs ithr)
  others : ∀ ithr, c.balancer.groupId ithr ≠ grp → ∀ e ∈ progs ithr, ¬ c.InGroup grp e.dst

variable {isa : IsaTraits} {fuel : ℕ}

include h hv in
/-- A thread of a group fills its share. -/
theorem reduceNolock_fills {id : ℕ} (hid : id < c.balancer.nthrPerGroup) {share : List Block}
    (hshare : c.threadBlocks fuel (grp * c.balancer.nthrPerGroup + id) = some share)
    (hblocks : ∀ k ∈ share, k.startY = c.startY (c.balancer.grpJobOff grp + k.job) ∧
      k.startX = c.startX (c.balancer.grpJobOff grp + k.job) ∧ ∀ e, k.Holds e → e ∈ c.cells grp)
    (hone : ∀ e, share.countP (fun k => k.Holds e) ≤ 1) :
    ∃ prog, c.reduceNolock isa fuel (grp * c.balancer.nthrPerGroup + id) = some prog ∧
      Fills (V := V) (Set.range (Elem.reg (grp * c.balancer.nthrPerGroup + id))) (c.spaces grp) (c.place grp)
        (c.groupSum grp) (⋃ k ∈ share, {e | k.Holds e}) prog := by
  unfold reduceNolock
  dsimp only
  rw [hshare, Option.map_some, ReduceBalancer.idInGroup_eq hid, Nat.add_sub_cancel]
  refine ⟨_, rfl, ?_⟩
  apply Fills.flatMap (outputs h hv _) (fun k hk e he => (hblocks k hk).2.2 e he)
  · exact pairwise_disjoint_of_countP (P := Block.Holds) hone
  · intro k hk
    obtain ⟨hstartY, hstartX, hin⟩ := hblocks k hk
    exact reduceBlock_fills h hv isa _ hstartY hstartX hin

include h hv in
/-- In any order of the threads, the jobs of a group get the sums of the partial results. -/
theorem execAll_reduceNolock (hdvd : c.xBlock ∣ c.jobSizeX) (hfuel : c.dstX < fuel) (hgrp : grp < c.balancer.ngroups)
    (hred : c.balancer.nthrPerGroup ≠ 1) {progs : ℕ → List (Assign Elem V)} {o : List (ℕ × Assign Elem V)}
    (hruns : GroupRuns c isa fuel grp progs) (ho : IsOrder progs o) (m : Elem → V) {e : Cell} (he : e ∈ c.cells grp) :
    execAll (o.map Prod.snd) m (c.place grp e) = c.groupSum grp e m := by
  obtain ⟨share, hshare, hcount⟩ := threadBlocks_spec h hv hdvd hfuel hgrp hred
  have hatMost : ∀ id < c.balancer.nthrPerGroup, ∀ e, (share id).countP (fun k => k.Holds e) ≤ 1 := by
    intro id hid e
    by_cases he : e ∈ c.cells grp
    · obtain ⟨owner, -, hone⟩ := hcount e he
      rw [hone]
      split_ifs
      · exact Nat.le_refl 1
      · exact Nat.zero_le 1
    · rw [List.countP_eq_zero.mpr]
      · exact Nat.zero_le 1
      · intro k hk
        rw [decide_eq_true_iff]
        exact fun hholds => he (((hshare id hid).2 k hk).2.2 e hholds)
  have hfills : ∀ id < c.balancer.nthrPerGroup,
      Fills (V := V) (Set.range (Elem.reg (grp * c.balancer.nthrPerGroup + id))) (c.spaces grp) (c.place grp)
        (c.groupSum grp) (⋃ k ∈ share id, {e | k.Holds e}) (progs (grp * c.balancer.nthrPerGroup + id)) := by
    intro id hid
    obtain ⟨prog, hprog, hfill⟩ :=
      reduceNolock_fills (V := V) h hv hid (hshare id hid).1 (hshare id hid).2 (hatMost id hid)
    rw [hruns.reduces _ (hv.groupId_eq hid)] at hprog
    injection hprog with hprog
    rw [hprog]
    exact hfill
  -- what a thread of the group assigns to
  have hframe : ∀ q, c.balancer.groupId q = grp → ∀ a ∈ progs q, (∃ r, a.dst = .reg q r) ∨
      ∃ e ∈ c.cells grp, ∃ k ∈ share (c.balancer.idInGroup q), k.Holds e ∧ a.dst = c.place grp e := by
    intro q hq a ha
    have hthread := ReduceBalancer.ithr_eq (b := c.balancer) q
    rw [hq] at hthread
    have hid := hv.idInGroup_lt q
    have hfill := hfills _ hid
    rw [← hthread] at hfill
    rcases hfill.frame a ha with ⟨r, hr⟩ | ⟨e, he, hdst⟩
    · exact Or.inl ⟨r, hr.symm⟩
    · obtain ⟨k, hk, hholds⟩ := Set.mem_iUnion₂.mp he
      exact Or.inr ⟨e, ((hshare _ hid).2 k hk).2.2 e hholds, k, hk, hholds, hdst⟩
  obtain ⟨owner, howner, hone⟩ := hcount e he
  have hprivate : ∀ a, c.InGroup grp a → (∀ q, q ≠ grp * c.balancer.nthrPerGroup + owner → c.balancer.groupId q = grp →
      ∀ x ∈ progs q, x.dst ≠ a) → Private progs (grp * c.balancer.nthrPerGroup + owner) a := by
    intro a ha hothers q hq x hx heq
    by_cases hgroup : c.balancer.groupId q = grp
    · exact hothers q hq hgroup x hx heq
    · exact hruns.others q hgroup x hx (heq ▸ ha)
  have hmem : e ∈ ⋃ k ∈ share owner, {e | k.Holds e} := by
    have hpos : 0 < (share owner).countP fun k => k.Holds e := by
      rw [hone, if_pos rfl]
      exact Nat.one_pos
    obtain ⟨k, hk, hholds⟩ := List.countP_pos_iff.mp hpos
    exact Set.mem_biUnion hk (of_decide_eq_true hholds)
  apply (hfills owner howner).execAll_order ho _ _ _ hmem
  · -- the blocks of another thread have other elements
    intro e' he'
    obtain ⟨k, hk, hholds⟩ := Set.mem_iUnion₂.mp he'
    have hin := ((hshare owner howner).2 k hk).2.2 e' hholds
    apply hprivate _ (Or.inl ⟨e', hin, rfl⟩)
    intro q hq hgroup x hx heq
    rcases hframe q hgroup x hx with ⟨r, hr⟩ | ⟨e'', hin', k', hk', hholds', hdst⟩
    · rw [hr] at heq
      cases heq
    · obtain rfl : e'' = e' := place_inj hin' hin (hdst.symm.trans heq)
      obtain ⟨owner', -, hone'⟩ := hcount e'' hin
      have howns : ∀ id k, k ∈ share id → k.Holds e'' → id = owner' := by
        intro id k hk hholds
        have hpos : 0 < (share id).countP fun k => k.Holds e'' :=
          List.countP_pos_iff.mpr ⟨k, hk, decide_eq_true hholds⟩
        rw [hone'] at hpos
        by_contra hne
        rw [if_neg hne] at hpos
        exact Nat.lt_irrefl 0 hpos
      have hthread := ReduceBalancer.ithr_eq (b := c.balancer) q
      rw [hgroup, howns _ k' hk' hholds', ← howns _ k hk hholds] at hthread
      exact hq hthread
  · -- a thread has its registers
    rintro a ⟨r, rfl⟩
    apply hprivate _ (Or.inr (Or.inr ⟨_, r, hv.groupId_eq howner, rfl⟩))
    intro q hq hgroup x hx heq
    rcases hframe q hgroup x hx with ⟨r', hr⟩ | ⟨e', -, k, -, -, hdst⟩
    · rw [hr] at heq
      injection heq with heq
      exact hq heq
    · rw [hdst] at heq
      cases heq
  · -- after the barrier nobody assigns to the local spaces
    intro a ha
    apply hprivate _ (Or.inr (Or.inl ha))
    obtain ⟨id, -, i, -, rfl⟩ := ha
    intro q hq hgroup x hx heq
    rcases hframe q hgroup x hx with ⟨r', hr⟩ | ⟨e', -, k, -, -, hdst⟩
    · rw [hr] at heq
      cases heq
    · rw [hdst] at heq
      cases heq

include h hv in
/-- Every element of the destination is an element of a job. -/
theorem exists_cell {y x : ℕ} (hy : y < c.dstY) (hx : x < c.dstX) :
    ∃ grp < c.balancer.ngroups, ∃ e ∈ c.cells grp, c.place grp e = .dst (y * c.dstX + x) := by
  have hjx : x / c.jobSizeX < c.njobsX := by
    by_contra hge
    have hle := (divUp_le_iff h.jobSizeX_pos).mp (Nat.not_lt.mp hge)
    have := Nat.div_mul_le_self x c.jobSizeX
    omega
  have hjy : y / c.jobSizeY < divUp c.dstY c.jobSizeY := by
    by_contra hge
    have hle := (divUp_le_iff h.jobSizeY_pos).mp (Nat.not_lt.mp hge)
    have := Nat.div_mul_le_self y c.jobSizeY
    omega
  obtain ⟨gj, hgj⟩ : ∃ gj, gj = y / c.jobSizeY * c.njobsX + x / c.jobSizeX := ⟨_, rfl⟩
  have hjob : gj < c.balancer.njobs := by
    rw [h.njobs_eq, hgj, Nat.add_comm, Nat.mul_comm (divUp c.dstX c.jobSizeX)]
    exact add_mul_lt hjx hjy
  have hdiv : gj / c.njobsX = y / c.jobSizeY := by
    rw [hgj, Nat.mul_comm, Nat.mul_add_div h.njobsX_pos, Nat.div_eq_of_lt hjx, Nat.add_zero]
  have hmod : gj % c.njobsX = x / c.jobSizeX := by
    rw [hgj, Nat.mul_comm, Nat.mul_add_mod, Nat.mod_eq_of_lt hjx]
  have hstartY : c.startY gj + y % c.jobSizeY = y := by
    unfold startY
    rw [hdiv, Nat.div_add_mod']
  have hstartX : c.startX gj + x % c.jobSizeX = x := by
    unfold startX
    rw [hmod, Nat.div_add_mod']
  obtain ⟨grp, hgrp, hlow, hhigh⟩ := hv.exists_group hjob
  have hoff : c.balancer.grpJobOff grp + (gj - c.balancer.grpJobOff grp) = gj := Nat.add_sub_cancel' hlow
  refine ⟨grp, hgrp, ⟨gj - c.balancer.grpJobOff grp, y % c.jobSizeY, x % c.jobSizeX⟩, ⟨?_, ?_, ?_⟩, ?_⟩
  · dsimp only
    omega
  · dsimp only
    rw [hoff]
    exact Nat.lt_min.mpr ⟨by omega, Nat.mod_lt y h.jobSizeY_pos⟩
  · dsimp only
    rw [hoff]
    exact Nat.lt_min.mpr ⟨by omega, Nat.mod_lt x h.jobSizeX_pos⟩
  · unfold place
    dsimp only
    rw [hoff, hstartY, hstartX]

end Group

/-- For every grid of jobs whose widths are multiples of `x_block_`, and for every balance: `choose_x_blocking` ends, the
blocks of the threads of a group have every element of every job of the group once, and nothing else, and in any order
of the threads after the barrier of the group every element gets the sum of the partial results of all threads. -/
theorem reduceNolock_covers {V : Type*} [Add V] [Zero V] (isa : IsaTraits) (c : CpuReducer2d) (h : c.JobGrid)
    (hdvd : c.xBlock ∣ c.jobSizeX) (allowNthrInGroup : Bool) (nthr reductionSize maxBufferSize : ℕ) (hnthr : 0 < nthr)
    (hreduction : 0 < reductionSize) (hb : c.balancer =
      .init allowNthrInGroup nthr c.balancer.jobSize c.balancer.njobs reductionSize maxBufferSize) (fuel : ℕ)
    (hfuel : c.dstX < fuel) :
    (∀ nx ny nthrPerGrp fuel, c.xBlock ≤ nx → 0 < ny → nx < fuel →
        ∃ xBlocking, c.chooseXBlocking fuel nx ny nthrPerGrp = some xBlocking) ∧
      (∀ y < c.dstY, ∀ x < c.dstX, ∃ grp < c.balancer.ngroups, ∃ e ∈ c.cells grp,
        c.place grp e = .dst (y * c.dstX + x)) ∧
      (c.balancer.nthrPerGroup ≠ 1 → ∀ grp < c.balancer.ngroups,
        (∃ share : ℕ → List Block,
          (∀ id < c.balancer.nthrPerGroup, c.threadBlocks fuel (grp * c.balancer.nthrPerGroup + id) = some (share id) ∧
            ∀ k ∈ share id, ∀ e, k.Holds e → e ∈ c.cells grp) ∧
          ∀ e ∈ c.cells grp, ∃ owner < c.balancer.nthrPerGroup, ∀ id,
            (share id).countP (fun k => k.Holds e) = if id = owner then 1 else 0) ∧
        ∀ (progs : ℕ → List (Assign Elem V)) (o : List (ℕ × Assign Elem V)) (m : Elem → V),
          GroupRuns c isa fuel grp progs → IsOrder progs o → ∀ e ∈ c.cells grp,
            execAll (o.map Prod.snd) m (c.place grp e) = c.groupSum grp e m) := by
  have hv : c.balancer.Valid := by
    rw [hb]
    exact ReduceBalancer.init_valid hnthr h.njobs_pos hreduction
  refine ⟨?_, ?_, ?_⟩
  · intro nx ny nthrPerGrp fuel hnx hny hfuel
    obtain ⟨v, hchoose, -⟩ := chooseXBlocking_spec h.xBlock_pos hnx hny hfuel nthrPerGrp
    exact ⟨v, hchoose⟩
  · intro y hy x hx
    exact exists_cell h hv hy hx
  · intro hred grp hgrp
    constructor
    · obtain ⟨share, hshare, hcount⟩ := threadBlocks_spec h hv hdvd hfuel hgrp hred
      exact ⟨share, fun id hid => ⟨(hshare id hid).1, fun k hk => ((hshare id hid).2 k hk).2.2⟩, hcount⟩
    · intro progs o m hruns ho e he
      exact execAll_reduceNolock h hv hdvd hfuel hgrp hred hruns ho m he

/-- Six jobs of 16x2 elements for 12 threads. The last jobs of a row have 8 columns, and those of the last row one row. -/
def ragged : CpuReducer2d := ⟨.init true 12 32 6 8 100000, 16, 2, 8, 40, 3⟩

theorem reduceNolock_covers_40x3 : ∃ grp < ragged.balancer.ngroups,
    ∀ (progs : ℕ → List (Assign Elem ℕ)) (o : List (ℕ × Assign Elem ℕ)) (m : Elem → ℕ),
      GroupRuns ragged .avx2 41 grp progs → IsOrder progs o → ∀ e ∈ ragged.cells grp,
        execAll (o.map Prod.snd) m (ragged.place grp e) = ragged.groupSum grp e m := by
  have hgrid : ragged.JobGrid :=
    ⟨by decide, by decide, by decide, by decide, by decide, by decide, by decide, by decide⟩
  refine ⟨0, by decide, ?_⟩
  exact ((reduceNolock_covers (V := ℕ) .avx2 ragged hgrid (by decide) true 12 8 100000 (by decide) (by decide) rfl 41
    (by decide)).2.2 (by decide) 0 (by decide)).2

/-- Two jobs of 24 columns, with blocks of 16 columns. -/
def unaligned : CpuReducer2d := ⟨.init true 4 24 2 8 100000, 24, 1, 16, 48, 1⟩

/-- If the width of the jobs is not a multiple of `x_block_`, then elements of the jobs are in no block. -/
theorem threadBlocks_unaligned : ¬ ∀ (c : CpuReducer2d) (nthr reductionSize maxBufferSize fuel : ℕ), c.JobGrid →
    0 < nthr → 0 < reductionSize →
    c.balancer = .init true nthr c.balancer.jobSize c.balancer.njobs reductionSize maxBufferSize → c.dstX < fuel →
      ∀ grp < c.balancer.ngroups, ∀ e ∈ c.cells grp, ∃ id < c.balancer.nthrPerGroup, ∃ share,
        c.threadBlocks fuel (grp * c.balancer.nthrPerGroup + id) = some share ∧ ∃ k ∈ share, k.Holds e := by
  intro h
  have hgrid : unaligned.JobGrid :=
    ⟨by decide, by decide, by decide, by decide, by decide, by decide, by decide, by decide⟩
  obtain ⟨id, hid, share, hshare, k, hk, hholds⟩ := h unaligned 4 8 100000 49 hgrid (by decide) (by decide) rfl
    (by decide) 0 (by decide) ⟨0, 0, 16⟩ ⟨by decide, by decide, by decide⟩
  have hfirst : unaligned.threadBlocks 49 0 = some [⟨0, 0, 0, 0, 0, 1, 16⟩] := by decide
  have hsecond : unaligned.threadBlocks 49 1 = some [] := by decide
  have hnthr : unaligned.balancer.nthrPerGroup = 2 := by decide
  rw [hnthr] at hid hshare
  rcases (by omega : id = 0 ∨ id = 1) with rfl | rfl
  · rw [hfirst] at hshare
    cases hshare
    rw [List.mem_singleton] at hk
    subst hk
    exact absurd hholds (by decide)
  · rw [hsecond] at hshare
    cases hshare
    cases hk

end MklDnn.CpuReducer2d
