import Mathlib.Data.Set.Function
import MklDnn.Common.Proofs.NdIteratorProofs
import MklDnn.Memory.Proofs.TagPartsProofs
import MklDnn.Reorder.PlainToBlocked

/-!
# Proofs: stores of elements

The stores of the threads are placed by the positions of the elements that they convert. If every element has its store, and
the stores go to different offsets and read no others, then the output does not depend on the order of the threads.
-/

open LoopNest Interleaving

namespace MklDnn

/-! ## Blocks along a dimension -/

/-- The loop over the blocks of a padded extent `P`, cut off at the extent `H`, runs through the coordinate `x`. -/
def BlockCovers (blksize P H x : ℕ) : Prop :=
  x / blksize < P / blksize ∧ ((x % blksize : ℕ) : ℤ) < blockLen blksize H (x / blksize)

instance (blksize P H x : ℕ) : Decidable (BlockCovers blksize P H x) := inferInstanceAs (Decidable (_ ∧ _))

section Blocks

variable {blksize P H x : ℕ}

/-- A block of the loop starts inside the extent. -/
theorem mul_lt_of_padded (hblk : 0 < blksize) (hP : P = H ∨ P = rndUp H blksize) {b : ℕ} (hb : b < P / blksize) :
    b * blksize < H := by
  have hmul : (b + 1) * blksize ≤ P := (Nat.mul_le_mul_right _ hb).trans (Nat.div_mul_le_self P blksize)
  rw [Nat.succ_mul] at hmul
  rcases hP with rfl | rfl
  · omega
  · have := rndUp_lt (a := H) hblk
    omega

theorem blockLen_le {b : ℕ} (hb : b * blksize < H) : blockLen blksize H b ≤ H - b * blksize := by
  refine (min_le_right _ _).trans ?_
  unfold DirectCopyExceptDim0.toInt
  omega

/-- The length of a block of an extent that the type `int` holds. -/
theorem blockLen_eq {b : ℕ} (hb : b * blksize < H) (hH : H < 2 ^ 31) :
    blockLen blksize H b = min (blksize : ℤ) (H - b * blksize) := by
  unfold blockLen DirectCopyExceptDim0.toInt
  congr 1
  omega

/-- The place `i` in the block `b` of the loop. -/
theorem blockCovers_mul_add {b i : ℕ} (hb : b < P / blksize) (hi : i < (blockLen blksize H b).toNat) :
    BlockCovers blksize P H (b * blksize + i) := by
  have hle : blockLen blksize H b ≤ blksize := min_le_left _ _
  have hlt : i < blksize := by omega
  unfold BlockCovers
  rw [Nat.mul_comm, Nat.mul_add_div (by omega), Nat.mul_add_mod, Nat.div_eq_of_lt hlt, Nat.mod_eq_of_lt hlt, Nat.add_zero]
  exact ⟨hb, by omega⟩

/-- The loop does not leave the extent. -/
theorem BlockCovers.lt (h : BlockCovers blksize P H x) (hblk : 0 < blksize) (hP : P = H ∨ P = rndUp H blksize) : x < H := by
  obtain ⟨hb, hlen⟩ := h
  have hle := blockLen_le (mul_lt_of_padded hblk hP hb)
  have hsplit := Nat.div_add_mod' x blksize
  generalize x / blksize = b at *
  generalize x % blksize = i at *
  omega

/-- The coordinates that the loop runs through are all those of the extent if and only if the padding makes whole blocks of
it and the type `int` holds it. -/
theorem forall_blockCovers_iff (hblk : 0 < blksize) (hle : blksize ≤ 2 ^ 31) (hH : 0 < H)
    (hP : P = H ∨ P = rndUp H blksize) : (∀ x < H, BlockCovers blksize P H x) ↔ H < 2 ^ 31 ∧ blksize ∣ P := by
  constructor
  · intro hall
    refine ⟨?_, ?_⟩
    · by_contra hbig
      -- the block at which the rest of the extent becomes a negative `int`
      have hb : (H - 2 ^ 31) / blksize * blksize ≤ H - 2 ^ 31 := Nat.div_mul_le_self _ _
      have hmod := Nat.mod_lt (H - 2 ^ 31) hblk
      have hsplit := Nat.div_add_mod' (H - 2 ^ 31) blksize
      obtain ⟨-, hlen⟩ := hall ((H - 2 ^ 31) / blksize * blksize) (by omega)
      rw [Nat.mul_mod_left, Nat.mul_div_cancel _ hblk] at hlen
      generalize (H - 2 ^ 31) / blksize = b at *
      unfold blockLen DirectCopyExceptDim0.toInt at hlen
      have hcast : ((b * blksize : ℕ) : ℤ) = b * blksize := Nat.cast_mul _ _
      omega
    · obtain ⟨hb, -⟩ := hall (H - 1) (by omega)
      rcases hP with rfl | rfl
      · by_contra hndvd
        obtain ⟨n, rfl⟩ : ∃ n, P = n + 1 := ⟨P - 1, by omega⟩
        rw [Nat.succ_div_of_not_dvd hndvd, Nat.add_sub_cancel] at hb
        exact lt_irrefl _ hb
      · exact ⟨_, (rndUp_eq _ _).trans (Nat.mul_comm _ _)⟩
  · rintro ⟨hint, hdvd⟩ x hx
    have hHP : H ≤ P := by
      rcases hP with rfl | rfl
      · exact le_rfl
      · exact le_rndUp hblk
    have hb : x / blksize < P / blksize := Nat.div_lt_div_of_lt_of_dvd hdvd (hx.trans_le hHP)
    refine ⟨hb, ?_⟩
    have hmod := Nat.mod_lt x hblk
    have hsplit := Nat.div_add_mod' x blksize
    rw [blockLen_eq (mul_lt_of_padded hblk hP hb) hint]
    have hcast : ((x / blksize * blksize : ℕ) : ℤ) = (x / blksize : ℕ) * blksize := Nat.cast_mul _ _
    generalize x / blksize = b at *
    generalize x % blksize = i at *
    omega

end Blocks

/-! ## Stores by position -/

theorem MemoryDesc.box_eq_of_consistentWith {lhs rhs : MemoryDesc} (h : lhs.consistentWith rhs = true) :
    box rhs.dims rhs.ndims = box lhs.dims lhs.ndims := by
  unfold MemoryDesc.consistentWith at h
  rw [decide_eq_true_eq] at h
  rw [← h.1]
  exact (box_congr h.2).symm

/-- The position with one coordinate that is not zero. -/
theorem update_mem_box {dims : ℕ → ℕ} {n d x : ℕ} (hpos : ∀ d < n, 0 < dims d) (hd : d < n) (hx : x < dims d) :
    Function.update (fun _ => 0) d x ∈ box dims n := by
  rw [mem_box]
  refine ⟨fun e he => ?_, fun e he => Function.update_of_ne (by omega) ..⟩
  by_cases hed : e = d
  · subst hed
    rw [Function.update_self]
    exact hx
  · rw [Function.update_of_ne hed]
    exact hpos e he

/-- A tensor without elements has no positions. -/
theorem MemoryDesc.hasZeroDim_iff {md : MemoryDesc} (hndims : 0 < md.ndims) :
    md.hasZeroDim = true ↔ box md.dims md.ndims = [] := by
  have hzero : md.isZero = false := decide_eq_false hndims.ne'
  rw [← List.length_eq_zero_iff, length_box]
  simp [MemoryDesc.hasZeroDim, MemoryDesc.nelems, hzero]

/-- The store of the element at `pos`, which reads the old value at `old pos` unless it replaces it. -/
def storeAt (inputD outputD : MemoryDesc) (replaces : Bool) (old : (ℕ → ℕ) → ℤ) (pos : ℕ → ℕ) : BlockStore :=
  ⟨outputD.offV pos false, inputD.offV pos false, if replaces then none else some (old pos)⟩

/-- The threads `ps` store the elements of `inputD` with `covers`, each of them once. -/
structure Places (inputD outputD : MemoryDesc) (nthr : ℕ) (replaces : Bool) (old : (ℕ → ℕ) → ℤ) (covers : (ℕ → ℕ) → Prop)
    [DecidablePred covers] (ps : ℕ → List BlockStore) : Prop where
  idle : ∀ ithr, nthr ≤ ithr → ps ithr = []
  perm : ((List.range nthr).flatMap ps).Perm
    (((box inputD.dims inputD.ndims).filter fun pos => covers pos).map (storeAt inputD outputD replaces old))

/-- Whatever the conversion, the tensors and the order of the threads, every element becomes its conversion. -/
def Converts (α β : Type*) (alphaIsOne betaIsZero : Bool) (inputD outputD : MemoryDesc) (ps : ℕ → List BlockStore) : Prop :=
  ∀ (c : Conversion α β betaIsZero) (input : ℤ → α) (output : ℤ → β) (o : List (ℕ × Assign ℤ β)),
    IsOrder (fun ithr => (ps ithr).map (BlockStore.assign c input)) o →
      ∀ pos ∈ box inputD.dims inputD.ndims, execAll (o.map Prod.snd) output (outputD.offV pos false) =
        c.value alphaIsOne (input (inputD.offV pos false)) (output (outputD.offV pos false))

/-- Every element is moved once, the old value that takes part is the one that the store replaces, and no store goes to the
padding of the output. -/
structure MovesOnce (inputD outputD : MemoryDesc) (replaces : Bool) (stores : List BlockStore) : Prop where
  perm : (stores.map fun s => (s.dst, s.src)).Perm
    ((box inputD.dims inputD.ndims).map fun pos => (outputD.offV pos false, inputD.offV pos false))
  old : ∀ s ∈ stores, s.old = if replaces then none else some s.dst
  padding : ∀ pos ∈ box outputD.paddedDims outputD.ndims, pos ∉ box outputD.dims outputD.ndims →
    ∀ s ∈ stores, s.dst ≠ outputD.offV pos true

section Places

variable {inputD outputD : MemoryDesc} {nthr : ℕ} {alphaIsOne betaIsZero : Bool} {old : (ℕ → ℕ) → ℤ}
  {covers : (ℕ → ℕ) → Prop} [DecidablePred covers] {ps : ℕ → List BlockStore}

theorem assign_storeAt {α β : Type*} (c : Conversion α β betaIsZero) (input : ℤ → α) (pos : ℕ → ℕ) :
    (storeAt inputD outputD (alphaIsOne && betaIsZero) old pos).assign c input =
      ⟨outputD.offV pos false, fun output => c.value alphaIsOne (input (inputD.offV pos false)) (output (old pos))⟩ := by
  unfold BlockStore.assign storeAt Conversion.value
  cases alphaIsOne && betaIsZero <;> rfl

variable (h : Places inputD outputD nthr (alphaIsOne && betaIsZero) old covers ps)

include h

/-- The assignments of an order of the threads. -/
theorem Places.perm_order {α β : Type*} {c : Conversion α β betaIsZero} {input : ℤ → α} {o : List (ℕ × Assign ℤ β)}
    (ho : IsOrder (fun ithr => (ps ithr).map (BlockStore.assign c input)) o) :
    (o.map Prod.snd).Perm (((box inputD.dims inputD.ndims).filter fun pos => covers pos).map fun pos =>
      ⟨outputD.offV pos false, fun output => c.value alphaIsOne (input (inputD.offV pos false)) (output (old pos))⟩) := by
  have hidle : ∀ ithr, nthr ≤ ithr → (ps ithr).map (BlockStore.assign c input) = [] := by
    intro ithr hithr
    rw [h.idle ithr hithr, List.map_nil]
  refine (ho.perm hidle).trans ?_
  rw [← List.map_flatMap]
  refine (h.perm.map _).trans ?_
  rw [List.map_map]
  exact List.Perm.of_eq (List.map_congr_left fun pos _ => assign_storeAt c input pos)

/-- If all elements have their stores, these are to different offsets and read no other old values, then every element is
converted. -/
theorem Places.converts (α β : Type*) (hcovers : ∀ pos ∈ box inputD.dims inputD.ndims, covers pos)
    (hdistinct : Set.InjOn (fun pos => outputD.offV pos false) {pos | pos ∈ box inputD.dims inputD.ndims})
    (hold : betaIsZero = true ∨ ∀ pos ∈ box inputD.dims inputD.ndims, old pos = outputD.offV pos false) :
    Converts α β alphaIsOne betaIsZero inputD outputD ps := by
  intro c input output o ho pos hpos
  have hperm := h.perm_order ho
  rw [List.filter_eq_self.mpr fun pos hpos => decide_eq_true (hcovers pos hpos)] at hperm
  have hvalue : ∀ pos ∈ box inputD.dims inputD.ndims, ∀ x (m : ℤ → β),
      c.value alphaIsOne x (m (old pos)) = c.value alphaIsOne x (m (outputD.offV pos false)) := by
    intro pos hpos x m
    rcases hold with hbeta | hold
    · unfold Conversion.value
      rw [c.qz_of_beta hbeta]
    · rw [hold pos hpos]
  have hnd : ((o.map Prod.snd).map Assign.dst).Nodup := by
    rw [(hperm.map Assign.dst).nodup_iff, List.map_map]
    exact (nodup_box _ _).map_on fun pos hpos pos' hpos' heq => hdistinct hpos hpos' heq
  have hlocal : ∀ e ∈ o.map Prod.snd, e.Local := by
    intro e he
    obtain ⟨pos, hpos, rfl⟩ := List.mem_map.mp (hperm.mem_iff.mp he)
    intro m m' hm
    dsimp only at hm ⊢
    rw [hvalue pos hpos, hvalue pos hpos, hm]
  have hmem := hperm.mem_iff.mpr (List.mem_map_of_mem hpos)
  rw [← hvalue pos hpos]
  exact execAll_of_nodup hnd hlocal hmem output

/-- The assignments of the threads one after the other are in an order of the threads. -/
theorem Places.exists_order {α β : Type*} (c : Conversion α β betaIsZero) (input : ℤ → α) :
    ∃ o, IsOrder (fun ithr => (ps ithr).map (BlockStore.assign c input)) o ∧
      o.map Prod.snd = ((List.range nthr).flatMap ps).map (BlockStore.assign c input) := by
  rw [List.map_flatMap]
  refine exists_isOrder fun ithr hithr => ?_
  rw [h.idle ithr hithr, List.map_nil]

variable {α β : Type*}

/-- A reorder that converts different elements of the input has different offsets in the output for them. -/
theorem Places.injOn_output [Nontrivial α] [Nontrivial β] (hconv : Converts α β alphaIsOne betaIsZero inputD outputD ps)
    (hinput : Set.InjOn (fun pos => inputD.offV pos false) {pos | pos ∈ box inputD.dims inputD.ndims}) :
    Set.InjOn (fun pos => outputD.offV pos false) {pos | pos ∈ box inputD.dims inputD.ndims} := by
  classical
  intro pos hpos pos' hpos' heq
  by_contra hne
  obtain ⟨x, x', hx⟩ := exists_pair_ne α
  obtain ⟨y, y', hy⟩ := exists_pair_ne β
  let c : Conversion α β betaIsZero := {
    qzA1B0 := fun z => if z = x then y else y'
    qz := fun z _ => if z = x then y else y'
    qz_of_beta := fun _ _ _ _ => rfl }
  have hvalue : ∀ z w, c.value alphaIsOne z w = if z = x then y else y' := by
    intro z w
    unfold Conversion.value
    split_ifs <;> simp_all [c]
  have hin : inputD.offV pos' false ≠ inputD.offV pos false := fun hin => hne (hinput hpos' hpos hin).symm
  let input : ℤ → α := Function.update (fun _ => x') (inputD.offV pos false) x
  have hx1 : input (inputD.offV pos false) = x := Function.update_self ..
  have hx2 : input (inputD.offV pos' false) = x' := Function.update_of_ne hin ..
  obtain ⟨o, ho, -⟩ := h.exists_order c input
  have hself := hconv c input (fun _ => y) o ho pos hpos
  have hother := hconv c input (fun _ => y) o ho pos' hpos'
  rw [hvalue, hx1, if_pos rfl] at hself
  rw [hvalue, hx2, if_neg hx.symm] at hother
  dsimp only at heq
  rw [heq, hother] at hself
  exact hy hself.symm

/-- A reorder that converts every element has a store for every element. -/
theorem Places.covers_of_converts [Nonempty α] [Nontrivial β]
    (hconv : Converts α β alphaIsOne betaIsZero inputD outputD ps)
    (houtput : Set.InjOn (fun pos => outputD.offV pos false) {pos | pos ∈ box inputD.dims inputD.ndims}) {pos : ℕ → ℕ}
    (hpos : pos ∈ box inputD.dims inputD.ndims) : covers pos := by
  by_contra hcovers
  obtain ⟨y, y', hy⟩ := exists_pair_ne β
  obtain ⟨x⟩ := ‹Nonempty α›
  let c : Conversion α β betaIsZero := ⟨fun _ => y, fun _ _ => y, fun _ _ _ _ => rfl⟩
  have hvalue : ∀ z w, c.value alphaIsOne z w = y := by
    intro z w
    unfold Conversion.value
    split_ifs <;> rfl
  obtain ⟨o, ho, -⟩ := h.exists_order c fun _ => x
  have hconverted := hconv c (fun _ => x) (fun _ => y') o ho pos hpos
  have hother : ∀ e ∈ o.map Prod.snd, e.dst ≠ outputD.offV pos false := by
    intro e he hdst
    obtain ⟨pos', hpos', rfl⟩ := List.mem_map.mp ((h.perm_order ho).mem_iff.mp he)
    obtain ⟨hpos', hcovers'⟩ := List.mem_filter.mp hpos'
    obtain rfl := houtput hpos' hpos hdst
    exact hcovers (of_decide_eq_true hcovers')
  rw [execAll_of_ne hother, hvalue] at hconverted
  exact hy hconverted.symm

/-- A reorder that converts every element and takes part of the old value reads it at the offset that it stores to. -/
theorem Places.old_of_converts [Nonempty α] [Nontrivial β]
    (hconv : Converts α β alphaIsOne betaIsZero inputD outputD ps)
    (houtput : Set.InjOn (fun pos => outputD.offV pos false) {pos | pos ∈ box inputD.dims inputD.ndims})
    (hbeta : betaIsZero = false) {pos : ℕ → ℕ} (hpos : pos ∈ box inputD.dims inputD.ndims) :
    old pos = outputD.offV pos false := by
  by_contra hne
  subst hbeta
  obtain ⟨x⟩ := ‹Nonempty α›
  let c : Conversion α β false := {
    qzA1B0 := fun _ => Classical.arbitrary β
    qz := fun _ y => y
    qz_of_beta := fun hzero => absurd hzero Bool.false_ne_true }
  have hvalue : ∀ z w, c.value alphaIsOne z w = w := by
    intro z w
    unfold Conversion.value
    rw [Bool.and_false, if_neg Bool.false_ne_true]
  have hperm := h.perm
  rw [List.filter_eq_self.mpr fun pos hpos => decide_eq_true (h.covers_of_converts hconv houtput hpos),
    Bool.and_false] at hperm
  have hmem : ∀ s, s ∈ (List.range nthr).flatMap ps ↔
      ∃ pos ∈ box inputD.dims inputD.ndims, storeAt inputD outputD false old pos = s := by
    intro s
    rw [hperm.mem_iff, List.mem_map]
  have hnd : (((List.range nthr).flatMap ps).map BlockStore.dst).Nodup := by
    rw [(hperm.map BlockStore.dst).nodup_iff, List.map_map]
    exact (nodup_box _ _).map_on fun pos hpos pos' hpos' heq => houtput hpos hpos' heq
  have hcopies : ((List.range nthr).flatMap ps).map (BlockStore.assign c fun _ => x) =
      ((List.range nthr).flatMap ps).map fun s => ⟨s.dst, fun m => m (s.old.getD 0)⟩ := by
    refine List.map_congr_left fun s hs => ?_
    obtain ⟨pos, -, rfl⟩ := (hmem s).mp hs
    rfl
  have hstore := (hmem _).mpr ⟨pos, hpos, rfl⟩
  obtain ⟨m, s, hs, hchange⟩ : ∃ m : ℤ → β, ∃ s ∈ (List.range nthr).flatMap ps, execAll
      (((List.range nthr).flatMap ps).map fun s => ⟨s.dst, fun m => m (s.old.getD 0)⟩) m s.dst ≠ m s.dst :=
    exists_execAll_ne hnd hstore hne
  obtain ⟨o, ho, hseq⟩ := h.exists_order c fun _ => x
  obtain ⟨pos', hpos', rfl⟩ := (hmem s).mp hs
  have hconverted := hconv c (fun _ => x) m o ho pos' hpos'
  rw [hseq, hcopies, hvalue] at hconverted
  exact hchange hconverted

end Places

section Moves

variable {inputD outputD : MemoryDesc} {nthr : ℕ} {replaces : Bool} {covers : (ℕ → ℕ) → Prop} [DecidablePred covers]
  {ps : ℕ → List BlockStore} (h : Places inputD outputD nthr replaces (fun pos => outputD.offV pos false) covers ps)

include h

/-- If all elements have their stores and the padding of the output has other offsets, then every element is moved once. -/
theorem Places.movesOnce (hcovers : ∀ pos ∈ box inputD.dims inputD.ndims, covers pos)
    (hpadding : ∀ pos ∈ box inputD.dims inputD.ndims, ∀ pos' ∈ box outputD.paddedDims outputD.ndims,
      pos' ∉ box outputD.dims outputD.ndims → outputD.offV pos false ≠ outputD.offV pos' true) :
    MovesOnce inputD outputD replaces ((List.range nthr).flatMap ps) := by
  have hperm := h.perm
  rw [List.filter_eq_self.mpr fun pos hpos => decide_eq_true (hcovers pos hpos)] at hperm
  have hmem : ∀ s ∈ (List.range nthr).flatMap ps, ∃ pos ∈ box inputD.dims inputD.ndims,
      storeAt inputD outputD replaces (fun pos => outputD.offV pos false) pos = s :=
    fun s hs => List.mem_map.mp (hperm.mem_iff.mp hs)
  refine { perm := ?_, old := fun s hs => ?_, padding := fun pos' hpos' hout s hs => ?_ }
  · refine (hperm.map _).trans ?_
    rw [List.map_map]
    exact List.Perm.refl _
  · obtain ⟨pos, -, rfl⟩ := hmem s hs
    rfl
  · obtain ⟨pos, hpos, rfl⟩ := hmem s hs
    exact hpadding pos hpos pos' hpos' hout

/-- If every element is moved, then it has its store. -/
theorem Places.covers_of_movesOnce (hmoves : MovesOnce inputD outputD replaces ((List.range nthr).flatMap ps))
    {pos : ℕ → ℕ} (hpos : pos ∈ box inputD.dims inputD.ndims) : covers pos := by
  have hlen := hmoves.perm.length_eq
  rw [List.length_map, h.perm.length_eq, List.length_map, List.length_map] at hlen
  exact of_decide_eq_true (List.length_filter_eq_length_iff.mp hlen pos hpos)

end Moves

end MklDnn
