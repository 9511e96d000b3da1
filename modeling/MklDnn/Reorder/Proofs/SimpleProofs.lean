import MklDnn.Common.Proofs.ThreadingProofs
import MklDnn.Lib.Checks
import MklDnn.Reorder.Simple

/-!
# Proofs: the simple reorders

The loops of the direct copies store the elements of a dense tensor in the order of their offsets. Those over
rows terminate without a division by zero exactly if there are rows to copy.
-/

open LoopNest

namespace MklDnn

/-! ## The loops of the direct copies -/

/-- The stores of a direct copy of `n` elements to and from consecutive offsets. -/
def copyMoves (inputD outputD : MemoryDesc) (n : ℕ) : List (ℤ × ℤ) :=
  (List.range n).map fun e : ℕ => (outputD.offset0 + e, inputD.offset0 + e)

theorem MemoryDesc.blkOff_zero (md : MemoryDesc) : md.blkOff [0] = md.offset0 := by
  simp [MemoryDesc.blkOff]

/-- The blocks of sixteen elements of a range of blocks are one range of elements. -/
theorem flatMap_blocks (start n : ℕ) :
    ((List.range' start n).flatMap fun b => List.range' (b * 16) 16) =
      List.range' (start * 16) (n * 16) := by
  induction n generalizing start with
  | zero => rfl
  | succ n ih =>
    rw [List.range'_succ, List.flatMap_cons, ih, Nat.succ_mul, Nat.succ_mul, Nat.add_comm (n * 16),
      ← List.range'_append_1]

/-- `direct_copy` stores the first `nelems` elements, each once. -/
theorem DirectCopy.execute_moves (inputD outputD : MemoryDesc) (alphaIsOne betaIsZero : Bool) {nthr : ℕ}
    (hnthr : 0 < nthr) :
    ((DirectCopy.execute inputD outputD alphaIsOne betaIsZero nthr).map ElemStore.move).Perm
      (copyMoves inputD outputD (inputD.nelems false)) := by
  set n := inputD.nelems false with hn
  set move := fun e : ℕ => (outputD.offset0 + (e : ℤ), inputD.offset0 + (e : ℤ)) with hmove
  set tail := (List.range' (n - n % 16) (n % 16)).map move with htail
  have hthread : ∀ ithr, (DirectCopy.thread inputD outputD
      (DirectCopy.quantization alphaIsOne betaIsZero) nthr ithr).map ElemStore.move =
        ((List.range' (balance211 (n / 16) nthr ithr).1 ((balance211 (n / 16) nthr ithr).2 -
          (balance211 (n / 16) nthr ithr).1)).flatMap fun b => (List.range' (b * 16) 16).map move) ++
        if n % 16 ≠ 0 ∧ ithr = nthr - 1 then tail else [] := by
    intro ithr
    rw [DirectCopy.thread, List.map_append, List.map_map]
    congr 1
    · rw [← Nat.sub_mul, ← flatMap_blocks, List.map_flatMap]
      refine List.flatMap_congr fun b _ => List.map_congr_left fun e _ => ?_
      simp [ElemStore.move, MemoryDesc.blkOff_zero, hmove]
    · rw [← hn]
      split_ifs
      · rw [List.map_map]
        refine List.map_congr_left fun e _ => ?_
        simp [ElemStore.move, MemoryDesc.blkOff_zero, hmove]
      · rfl
  have hlast : ((List.range nthr).flatMap fun ithr =>
      if n % 16 ≠ 0 ∧ ithr = nthr - 1 then tail else []) = tail := by
    obtain ⟨k, rfl⟩ : ∃ k, nthr = k + 1 := ⟨nthr - 1, by omega⟩
    rw [List.range_succ, List.flatMap_append, List.flatMap_singleton]
    have hnil : ((List.range k).flatMap fun ithr =>
        if n % 16 ≠ 0 ∧ ithr = k + 1 - 1 then tail else []) = [] := by
      refine List.flatMap_eq_nil_iff.mpr fun ithr hithr => if_neg ?_
      have := List.mem_range.mp hithr
      omega
    rw [hnil, List.nil_append]
    by_cases h : n % 16 = 0
    · rw [if_neg (by omega), htail, h]
      rfl
    · rw [if_pos ⟨h, by omega⟩]
  rw [DirectCopy.execute, List.map_flatMap]
  simp only [hthread]
  refine (List.flatMap_append_perm _ _ _).symm.trans ?_
  rw [hlast, ← List.flatMap_assoc, flatMap_balance211 _ hnthr, ← List.map_flatMap, copyMoves]
  rw [List.range_eq_range', flatMap_blocks, htail, ← List.map_append, Nat.zero_mul]
  have hsplit : List.range' 0 (n / 16 * 16) ++ List.range' (n - n % 16) (n % 16) = List.range' 0 n := by
    have hstart : n - n % 16 = 0 + n / 16 * 16 := by omega
    rw [hstart, List.range'_append_1]
    congr 1
    omega
  rw [hsplit, List.range_eq_range']

namespace DirectCopyExceptDim0

section Rows

variable {store : ℤ → ℤ → ElemStore} {stop N M : ℕ}

theorem remainder_natCast {a b : ℕ} (hb : 0 < b) : remainder a b = some ((a % b : ℕ) : ℤ) := by
  rw [remainder, if_neg (by omega), Int.tmod_eq_emod_of_nonneg (by omega)]
  rfl

/-- The counters when the work item `cur` is the next one. -/
def countersAt (N M cur : ℕ) : Counters := ⟨cur, (cur / M % N : ℕ), (cur % M : ℕ)⟩

theorem ndIteratorInit_eq (hN : 0 < N) (hM : 0 < M) (cur : ℕ) :
    ndIteratorInit cur N M = some (countersAt N M cur) := by
  have hdiv : (cur : ℤ).tdiv M = ((cur / M : ℕ) : ℤ) := by
    rw [Int.tdiv_eq_ediv_of_nonneg (by omega)]
    rfl
  rw [ndIteratorInit, remainder_natCast hM, hdiv, remainder_natCast hN]
  rfl

/-- The end of the row of `cur`, or of the work of the thread. -/
def rowEnd (stop M cur : ℕ) : ℕ := min (cur + (M - cur % M)) stop

theorem ndIteratorJump_eq (hN : 0 < N) (hM : 0 < M) {cur : ℕ} (hcur : cur < stop) (hstop : stop ≤ N * M) :
    ndIteratorJump stop N M (countersAt N M cur) = some (countersAt N M (rowEnd stop M cur)) := by
  have hmod : cur % M < M := Nat.mod_lt cur hM
  have hq : cur / M < N := Nat.div_lt_of_lt_mul (by rw [Nat.mul_comm]; omega)
  have hdm := Nat.div_add_mod cur M
  unfold ndIteratorJump
  by_cases h : cur + (M - cur % M) ≤ stop
  · have hend : rowEnd stop M cur = (cur / M + 1) * M := by
      rw [rowEnd, min_eq_left h, Nat.succ_mul, Nat.mul_comm]
      omega
    have hjump : (M : ℤ) - (countersAt N M cur).dim1S ≤ stop - (countersAt N M cur).start := by
      show (M : ℤ) - (cur % M : ℕ) ≤ stop - (cur : ℕ)
      omega
    rw [if_pos hjump]
    have hn : (countersAt N M cur).n + 1 = ((cur / M + 1 : ℕ) : ℤ) := by
      show ((cur / M % N : ℕ) : ℤ) + 1 = _
      rw [Nat.mod_eq_of_lt hq]
      rfl
    rw [hn, remainder_natCast hN, hend]
    show some (Counters.mk (cur + (M - (cur % M : ℕ))) _ 0) = _
    rw [countersAt, Nat.mul_div_cancel _ hM, Nat.mul_mod_left, ← hend, rowEnd, min_eq_left h]
    push_cast [Nat.cast_sub hmod.le]
    rfl
  · have hend : rowEnd stop M cur = stop := min_eq_right (by omega)
    have hjump : ¬ (M : ℤ) - (countersAt N M cur).dim1S ≤ stop - (countersAt N M cur).start := by
      show ¬ (M : ℤ) - (cur % M : ℕ) ≤ stop - (cur : ℕ)
      omega
    have hstopEq : stop = M * (cur / M) + (cur % M + (stop - cur)) := by omega
    have hrow : cur % M + (stop - cur) < M := by omega
    have hstopDiv : stop / M = cur / M := by
      rw [hstopEq, Nat.mul_add_div hM, Nat.div_eq_of_lt hrow, Nat.add_zero]
    have hstopMod : stop % M = cur % M + (stop - cur) := by
      rw [hstopEq, Nat.mul_add_mod, Nat.mod_eq_of_lt hrow, ← hstopEq]
    rw [if_neg hjump, hend, countersAt, countersAt, hstopDiv, hstopMod]
    show some (Counters.mk (cur + (stop - (cur : ℕ))) _ ((cur % M : ℕ) + (stop - (cur : ℕ)))) = _
    push_cast [Nat.cast_sub hcur.le]
    congr 2
    ring

variable (store) in
/-- The stores of one row. -/
theorem row_eq (hM : 0 < M) {cur : ℕ} (hcur : cur < stop) (hstop : stop ≤ N * M) :
    ((List.range (rowEnd stop M cur - cur)).map fun i : ℕ =>
      store (cur / M % N : ℕ) ((cur % M : ℕ) + i)) =
    (List.range' cur (rowEnd stop M cur - cur)).map fun l : ℕ => store (l / M : ℕ) (l % M : ℕ) := by
  have hq : cur / M < N := Nat.div_lt_of_lt_mul (by rw [Nat.mul_comm]; omega)
  have hdm := Nat.div_add_mod cur M
  have hmod : cur % M < M := Nat.mod_lt cur hM
  rw [List.range'_eq_map_range, List.map_map]
  refine List.map_congr_left fun i hi => ?_
  have hi : cur % M + i < M := by
    have := List.mem_range.mp hi
    rw [rowEnd] at this
    omega
  have hl : cur + i = M * (cur / M) + (cur % M + i) := by omega
  show _ = store ((cur + i) / M : ℕ) ((cur + i) % M : ℕ)
  rw [hl, Nat.mul_add_div hM, Nat.div_eq_of_lt hi, Nat.mul_add_mod, Nat.mod_eq_of_lt hi,
    Nat.mod_eq_of_lt hq]
  push_cast
  rfl

/-- The loop stores the work items from `cur` to `stop` in order. -/
theorem rows_eq (hN : 0 < N) (hM : 0 < M) (hstop : stop ≤ N * M) {fuel cur : ℕ} (hcur : cur ≤ stop)
    (hfuel : stop - cur ≤ fuel) :
    rows store stop N M fuel (countersAt N M cur) =
      some ((List.range' cur (stop - cur)).map fun l : ℕ => store (l / M : ℕ) (l % M : ℕ)) := by
  induction fuel generalizing cur with
  | zero =>
    have hlt : ¬ (countersAt N M cur).start < stop := by
      show ¬ (cur : ℤ) < stop
      omega
    rw [rows, if_neg hlt, Nat.sub_eq_zero_of_le (by omega)]
    rfl
  | succ fuel ih =>
    rw [rows]
    by_cases h : cur < stop
    · have hlt : (countersAt N M cur).start < stop := by
        show (cur : ℤ) < stop
        omega
      have hmod : cur % M < M := Nat.mod_lt cur hM
      have hend : cur < rowEnd stop M cur ∧ rowEnd stop M cur ≤ stop := by
        rw [rowEnd]
        omega
      have hlen : ((if (countersAt N M cur).dim1S + (stop - (countersAt N M cur).start) > M then (M : ℤ)
          else (countersAt N M cur).dim1S + (stop - (countersAt N M cur).start)) -
            (countersAt N M cur).dim1S).toNat = rowEnd stop M cur - cur := by
        show ((if ((cur % M : ℕ) : ℤ) + (stop - (cur : ℕ)) > M then (M : ℤ)
          else ((cur % M : ℕ) : ℤ) + (stop - (cur : ℕ))) - (cur % M : ℕ)).toNat = _
        rw [rowEnd]
        split_ifs <;> omega
      have hrest := ih hend.2 (by omega)
      rw [if_pos hlt]
      dsimp only
      rw [hlen, ndIteratorJump_eq hN hM h hstop]
      simp only [Option.bind_eq_bind, Option.bind_some, hrest]
      have hrow := row_eq store hM h hstop
      refine congrArg some ?_
      show ((List.range (rowEnd stop M cur - cur)).map fun i : ℕ =>
        store (cur / M % N : ℕ) ((cur % M : ℕ) + i)) ++ _ = _
      rw [hrow, ← List.map_append]
      congr 1
      have hadj : rowEnd stop M cur = cur + (rowEnd stop M cur - cur) := by omega
      have hsum : stop - cur = (rowEnd stop M cur - cur) + (stop - rowEnd stop M cur) := by omega
      rw [hsum, ← List.range'_append_1, ← hadj]
    · have hlt : ¬ (countersAt N M cur).start < stop := by
        show ¬ (cur : ℤ) < stop
        omega
      rw [if_neg hlt, Nat.sub_eq_zero_of_le (by omega)]
      rfl

end Rows

variable {inputD : MemoryDesc} (outputD : MemoryDesc) {N M nthr : ℕ}

/-- The moves of the copy of `N` rows of `M` elements. -/
def rowMoves (inputD outputD : MemoryDesc) (N M : ℕ) : List (ℤ × ℤ) :=
  (List.range (N * M)).map fun l : ℕ =>
    (outputD.offset0 + (outputD.blocking.strides 0 * (l / M : ℕ) + (l % M : ℕ)),
      inputD.offset0 + (inputD.blocking.strides 0 * (l / M : ℕ) + (l % M : ℕ)))

/-- With rows and columns to copy, the execution terminates and copies every row. -/
theorem execute_moves (hN : toInt (inputD.dims 0) = N) (hM : nelemsNoDim0 inputD = M) (hNpos : 0 < N)
    (hMpos : 0 < M) (alphaIsOne betaIsZero : Bool) (hnthr : 0 < nthr) :
    ∃ stores, (∀ fuel, N * M ≤ fuel →
        execute inputD outputD alphaIsOne betaIsZero nthr fuel = some stores) ∧
      stores.map ElemStore.move = rowMoves inputD outputD N M := by
  set qz := if alphaIsOne ∧ betaIsZero then Quantization.a1b0 else .full with hqz
  set store : ℤ → ℤ → ElemStore := fun n e =>
    ⟨outputD.blkOff [0] + (outputD.blocking.strides 0 * n + e),
      inputD.blkOff [0] + (inputD.blocking.strides 0 * n + e), qz⟩ with hstore
  have hthread : ∀ fuel, N * M ≤ fuel → ∀ ithr ∈ List.range nthr,
      thread inputD outputD qz nthr fuel ithr =
        some ((List.range' (balance211 (N * M) nthr ithr).1 ((balance211 (N * M) nthr ithr).2 -
          (balance211 (N * M) nthr ithr).1)).map fun l : ℕ => store (l / M : ℕ) (l % M : ℕ)) := by
    intro fuel hfuel ithr hithr
    have hend := balance211_snd_le (n := N * M) (List.mem_range.mp hithr)
    have hle := balance211_fst_le_snd (N * M) nthr ithr
    unfold thread
    simp only [hN, hM]
    rw [← Nat.cast_mul, balance211Int_natCast]
    simp only [ndIteratorInit_eq hNpos hMpos, Option.bind_eq_bind, Option.bind_some]
    exact rows_eq hNpos hMpos hend hle (by omega)
  refine ⟨(List.range (N * M)).map fun l : ℕ => store (l / M : ℕ) (l % M : ℕ), fun fuel hfuel => ?_, ?_⟩
  · unfold execute
    simp only [← hqz, Checks.mapM_eq_some (hthread fuel hfuel), Option.bind_eq_bind, Option.bind_some]
    refine congrArg some ?_
    rw [← List.flatMap_def, ← List.map_flatMap, flatMap_balance211 _ hnthr]
  · rw [List.map_map, rowMoves]
    refine List.map_congr_left fun l _ => ?_
    simp [hstore, ElemStore.move, MemoryDesc.blkOff_zero]

/-- Without rows the first division is by zero. -/
theorem execute_eq_none (hN : toInt (inputD.dims 0) = 0) (alphaIsOne betaIsZero : Bool) (hnthr : 0 < nthr)
    (fuel : ℕ) : execute inputD outputD alphaIsOne betaIsZero nthr fuel = none := by
  have hthread : ∀ qz, thread inputD outputD qz nthr fuel 0 = none := by
    intro qz
    unfold thread ndIteratorInit
    simp only [hN]
    have hzero : ∀ a, remainder a 0 = none := fun a => if_pos rfl
    simp [hzero]
  obtain ⟨k, rfl⟩ : ∃ k, nthr = k + 1 := ⟨nthr - 1, by omega⟩
  unfold execute
  dsimp only
  rw [List.range_succ_eq_map, List.mapM_cons, hthread]
  rfl

variable (nthr) in
/-- A number of rows that is negative as an `int` leaves all threads without work. -/
theorem execute_of_neg {n : ℤ} (hN : toInt (inputD.dims 0) = n) (hneg : n < 0)
    (hM : 0 < nelemsNoDim0 inputD) (alphaIsOne betaIsZero : Bool) (fuel : ℕ) :
    execute inputD outputD alphaIsOne betaIsZero nthr fuel = some [] := by
  have hMint : (nelemsNoDim0 inputD : ℤ) ≠ 0 := by omega
  have hthread : ∀ qz ithr, thread inputD outputD qz nthr fuel ithr = some [] := by
    intro qz ithr
    have hwork : n * (nelemsNoDim0 inputD : ℤ) < 0 :=
      mul_neg_of_neg_of_pos hneg (by omega)
    have hle := balance211Int_of_neg hwork nthr ithr
    unfold thread ndIteratorInit
    simp only [hN, remainder, if_neg hMint, if_neg hneg.ne, Option.bind_eq_bind, Option.bind_some]
    cases fuel with
    | zero => exact if_neg (not_lt.mpr hle)
    | succ fuel => exact if_neg (not_lt.mpr hle)
  unfold execute
  simp only [Checks.mapM_eq_some fun ithr _ => hthread _ ithr, Option.bind_eq_bind, Option.bind_some]
  refine congrArg some (List.flatten_eq_nil_iff.mpr fun l hl => ?_)
  obtain ⟨_, _, rfl⟩ := List.mem_map.mp hl
  rfl

end DirectCopyExceptDim0

end MklDnn
