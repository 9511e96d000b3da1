import Mathlib.Tactic.Ring
import MklDnn.Gemm.Proofs.GemvGridProofs
import MklDnn.Lib.Fills
import MklDnn.Lib.Sums

/-!
# Proofs: products of a matrix of bytes and a vector

The threads of the first section fill different elements with their parts of the product, and the second section adds
up the parts of a row.
-/

open Interleaving LoopNest

namespace MklDnn.GemvS8u8s32

variable {g : Args} {G : Grid} {kern : Kernel}

/-- What the generated code does: it multiplies a part of the matrix, and adds what was there unless `beta` is 0. -/
def Kernel.Computes (kern : Kernel) : Prop :=
  ∀ swap m n (A : ℕ → ℕ → BitVec 8) x beta (y : ℕ → Elem), Set.InjOn y {i | i < m} →
    Fills ∅ ∅ y (fun i mem => (if beta then mem (y i) else 0) + ∑ j ∈ Finset.range n, mulBytes swap (A i j) (x j))
      {i | i < m} (kern swap m n A x beta y)

/-! ## The program of a thread -/

/-- Where the result of a thread is left. -/
def target (g : Args) (G : Grid) (ithr i : ℕ) : Elem :=
  if nId G ithr = 0 then place g G ithr i else locY g G ithr i

/-- The copy of a block of `C`. -/
def scratch (g : Args) (G : Grid) (ithr : ℕ) : Set Elem := fun a =>
  nId G ithr = 0 ∧ g.ldc ≠ 1 ∧ ∃ i < myM g G ithr, a = locY g G ithr i

/-- The part of a row of the product that a band of columns gives. -/
def part (g : Args) (G : Grid) (row id : ℕ) : BitVec 32 :=
  ∑ j ∈ Finset.range ((band G.NB G.nthrN g.n id).2 - (band G.NB G.nthrN g.n id).1),
    mulBytes g.swap (g.a (row * g.lda + ((band G.NB G.nthrN g.n id).1 + j)))
      (newX g ((band G.NB G.nthrN g.n id).1 + j))

/-- What a thread leaves. -/
def left (g : Args) (G : Grid) (ithr i : ℕ) (mem : Elem → BitVec 32) : BitVec 32 :=
  (if nId G ithr = 0 ∧ g.beta then mem (target g G ithr i) else 0) + part g G ((rows g G ithr).1 + i) (nId G ithr)

section Thread

variable {ithr : ℕ}

theorem locY_inj (g : Args) (G : Grid) (ithr : ℕ) : Function.Injective (locY g G ithr) := by
  intro i i' heq
  unfold locY at heq
  split_ifs at heq <;> (injection heq with heq; omega)

theorem place_inj (hldc : 0 < g.ldc) (ithr : ℕ) : Function.Injective (place g G ithr) := by
  intro i i' heq
  injection heq with heq
  have := Nat.eq_of_mul_eq_mul_right hldc heq
  omega

theorem kernel_fills (h : kern.Computes) (ithr : ℕ) :
    Fills ∅ ∅ (locY g G ithr) (fun i mem => (if nId G ithr = 0 ∧ g.beta then mem (locY g G ithr i) else 0) +
      part g G ((rows g G ithr).1 + i) (nId G ithr)) {i | i < myM g G ithr} (callKernel g G kern ithr) := by
  have hval : ∀ i, (∑ j ∈ Finset.range (myN g G ithr),
      mulBytes g.swap (g.a ((rows g G ithr).1 * g.lda + (cols g G ithr).1 + i * g.lda + j))
        (newX g ((cols g G ithr).1 + j))) = part g G ((rows g G ithr).1 + i) (nId G ithr) := by
    intro i
    apply Finset.sum_congr rfl
    intro j _
    rw [show (rows g G ithr).1 * g.lda + (cols g G ithr).1 + i * g.lda + j =
      ((rows g G ithr).1 + i) * g.lda + ((cols g G ithr).1 + j) by ring]
    rfl
  have hfill := h g.swap (myM g G ithr) (myN g G ithr)
    (fun i j => g.a ((rows g G ithr).1 * g.lda + (cols g G ithr).1 + i * g.lda + j))
    (fun j => newX g ((cols g G ithr).1 + j)) (if nId G ithr ≠ 0 then false else g.beta) (locY g G ithr)
    (locY_inj g G ithr).injOn
  simp only [hval] at hfill
  have hbeta : ∀ v : BitVec 32, (if (if nId G ithr ≠ 0 then false else g.beta) then v else 0) =
      if nId G ithr = 0 ∧ g.beta then v else 0 := by
    intro v
    by_cases hid : nId G ithr = 0
    · simp [hid]
    · simp [hid]
  simp only [hbeta] at hfill
  exact hfill

theorem locY_ne_place (hid : nId G ithr = 0) (hldc : g.ldc ≠ 1) (i ithr' i' : ℕ) :
    locY g G ithr i ≠ place g G ithr' i' := by
  unfold locY
  rw [if_neg (not_not.mpr hid), if_neg hldc]
  rintro ⟨⟩

/-- The kernel writes where the result is left. -/
theorem compute_fills_direct (h : kern.Computes) (hdirect : nId G ithr = 0 → g.ldc = 1) :
    Fills (scratch g G ithr) ∅ (target g G ithr) (left g G ithr) {i | i < myM g G ithr} (compute g G kern ithr) := by
  have htarget : target g G ithr = locY g G ithr := by
    funext i
    unfold target
    split_ifs with hid
    · unfold locY place
      rw [if_neg (not_not.mpr hid), if_pos (hdirect hid), hdirect hid, Nat.mul_one]
    · rfl
  have hcopy : ¬ (nId G ithr = 0 ∧ g.ldc ≠ 1) := fun hcopy => hcopy.2 (hdirect hcopy.1)
  have hin : copyIn g G ithr = [] := if_neg fun hin => hcopy ⟨hin.1, hin.2.1⟩
  have hout : copyOut g G ithr = [] := if_neg hcopy
  have hleft : left g G ithr = fun i mem => (if nId G ithr = 0 ∧ g.beta then mem (locY g G ithr i) else 0) +
      part g G ((rows g G ithr).1 + i) (nId G ithr) := by
    unfold left
    rw [htarget]
  unfold compute
  rw [htarget, hin, hout, hleft, List.nil_append, List.append_nil]
  exact (kernel_fills h ithr).mono (Set.empty_subset _)

/-- The kernel writes to a copy of the block of `C`. -/
theorem compute_fills_copy (h : kern.Computes) (hpos : 0 < g.ldc) (hid : nId G ithr = 0) (hldc : g.ldc ≠ 1) :
    Fills (scratch g G ithr) ∅ (target g G ithr) (left g G ithr) {i | i < myM g G ithr} (compute g G kern ithr) := by
  have htarget : target g G ithr = place g G ithr := by
    funext i
    exact if_pos hid
  have hkernel := kernel_fills (g := g) (G := G) h ithr
  have hmem : ∀ i < myM g G ithr, locY g G ithr i ∈ scratch g G ithr := fun i hi => ⟨hid, hldc, i, hi, rfl⟩
  have hin : ∀ e ∈ copyIn g G ithr, ∃ i < myM g G ithr, e = ⟨locY g G ithr i, fun mem => mem (place g G ithr i)⟩ := by
    intro e he
    unfold copyIn at he
    split_ifs at he
    · obtain ⟨i, hi, rfl⟩ := List.mem_map.mp he
      exact ⟨i, List.mem_range.mp hi, rfl⟩
    · cases he
  have hout : copyOut g G ithr = (List.range (myM g G ithr)).map fun j =>
      ⟨place g G ithr j, fun mem => mem (locY g G ithr j)⟩ := if_pos ⟨hid, hldc⟩
  constructor
  · intro m i hi
    have hback := execAll_copy (fun s s' hs => place_inj (G := G) hpos ithr hs) (locY_ne_place hid hldc · ithr)
      (execAll (callKernel g G kern ithr) (execAll (copyIn g G ithr) m)) hi
    unfold compute left
    rw [execAll_append, execAll_append, hout, htarget, hback, hkernel.value _ i hi]
    congr 1
    by_cases hbeta : g.beta
    · rw [if_pos ⟨hid, hbeta⟩, if_pos ⟨hid, hbeta⟩]
      unfold copyIn
      rw [if_pos ⟨hid, hldc, hbeta⟩]
      exact execAll_copy (fun s s' hs => locY_inj g G ithr hs) (fun s s' => (locY_ne_place hid hldc s' ithr s).symm) m hi
    · rw [if_neg fun hcond => hbeta hcond.2, if_neg fun hcond => hbeta hcond.2]
  · intro e he
    rcases List.mem_append.mp he with he | he
    · rcases List.mem_append.mp he with he | he
      · obtain ⟨i, hi, rfl⟩ := hin e he
        exact Or.inl (hmem i hi)
      · rcases hkernel.frame e he with hempty | ⟨i, hi, hdst⟩
        · exact absurd hempty (Set.notMem_empty _)
        · exact Or.inl (hdst ▸ hmem i hi)
    · rw [hout] at he
      obtain ⟨i, hi, rfl⟩ := List.mem_map.mp he
      exact Or.inr ⟨i, List.mem_range.mp hi, congrFun htarget.symm i⟩
  · intro e he m m' hscratch hplace hempty
    rcases List.mem_append.mp he with he | he
    · rcases List.mem_append.mp he with he | he
      · obtain ⟨i, hi, rfl⟩ := hin e he
        have := hplace i hi
        rwa [htarget] at this
      · exact hkernel.reads e he m m' (fun a ha => absurd ha (Set.notMem_empty a))
          (fun i hi => hscratch _ (hmem i hi)) hempty
    · rw [hout] at he
      obtain ⟨i, hi, rfl⟩ := List.mem_map.mp he
      exact hscratch _ (hmem i (List.mem_range.mp hi))

/-- A thread leaves its part of the product, added to its part of `C` in the first band of columns. -/
theorem compute_fills (h : kern.Computes) (hpos : 0 < g.ldc) (ithr : ℕ) :
    Fills (scratch g G ithr) ∅ (target g G ithr) (left g G ithr) {i | i < myM g G ithr} (compute g G kern ithr) := by
  by_cases hcopy : nId G ithr = 0 ∧ g.ldc ≠ 1
  · exact compute_fills_copy h hpos hcopy.1 hcopy.2
  · exact compute_fills_direct h fun hid => by_contra fun hldc => hcopy ⟨hid, hldc⟩

end Thread

/-! ## The threads -/

section Team

variable {m n nthr ithr p q i i' row : ℕ}

theorem mId_lt (h : ithr < G.nthrM * G.nthrN) : mId G ithr < G.nthrM :=
  Nat.div_lt_of_lt_mul (by rwa [Nat.mul_comm] at h)

theorem nId_lt (hpos : 0 < G.nthrN) : nId G ithr < G.nthrN := Nat.mod_lt ithr hpos

/-- The thread of a band of rows and a band of columns. -/
theorem exists_thread {id id' : ℕ} (hid : id < G.nthrM) (hid' : id' < G.nthrN) :
    ∃ ithr < G.nthrM * G.nthrN, mId G ithr = id ∧ nId G ithr = id' := by
  have hpos : 0 < G.nthrN := by omega
  refine ⟨id' + G.nthrN * id, ?_, ?_, ?_⟩
  · have hmul : G.nthrN * (id + 1) ≤ G.nthrN * G.nthrM := Nat.mul_le_mul_left _ hid
    rw [Nat.mul_succ, Nat.mul_comm G.nthrN G.nthrM] at hmul
    omega
  · unfold mId
    rw [Nat.add_mul_div_left _ _ hpos, Nat.div_eq_of_lt hid', Nat.zero_add]
  · unfold nId
    rw [Nat.add_mul_mod_self_left, Nat.mod_eq_of_lt hid']

/-- Two threads differ in a band. -/
theorem thread_ext (hm : mId G p = mId G q) (hn : nId G p = nId G q) : p = q := by
  unfold mId at hm
  unfold nId at hn
  rw [← Nat.div_add_mod p G.nthrN, hm, hn, Nat.div_add_mod]

theorem row_lt (hG : G.Valid g.m n nthr) (hithr : ithr < G.nthrM * G.nthrN) (hi : i < myM g G ithr) :
    (rows g G ithr).1 + i < g.m := by
  have hband := band_le hG.rows_lt (mId_lt hithr)
  unfold myM rows at hi
  unfold rows
  omega

/-- A row is in one band of rows. -/
theorem row_inj (hG : G.Valid g.m n nthr) (hp : p < G.nthrM * G.nthrN) (hq : q < G.nthrM * G.nthrN)
    (hi : i < myM g G p) (hi' : i' < myM g G q) (heq : (rows g G p).1 + i = (rows g G q).1 + i') :
    mId G p = mId G q := by
  have hown := existsUnique_band hG.MB_pos hG.nthrM_pos hG.rows_lt (row_lt hG hp hi)
  unfold myM rows at hi hi'
  unfold rows at heq hown
  apply hown.unique
  · exact ⟨mId_lt hp, by omega, by omega⟩
  · exact ⟨mId_lt hq, by omega, by omega⟩

/-- The row of a band that a row of the matrix is. -/
theorem exists_row (hG : G.Valid g.m n nthr) (hrow : row < g.m) {id : ℕ} (hid : id < G.nthrN) :
    ∃ ithr < G.nthrM * G.nthrN, nId G ithr = id ∧ ∃ i < myM g G ithr, (rows g G ithr).1 + i = row := by
  obtain ⟨owner, ⟨howner, hlow, hhigh⟩, -⟩ := existsUnique_band hG.MB_pos hG.nthrM_pos hG.rows_lt hrow
  obtain ⟨ithr, hithr, hm, hn⟩ := exists_thread howner hid
  refine ⟨ithr, hithr, hn, row - (rows g G ithr).1, ?_, ?_⟩
  · unfold myM rows
    rw [hm]
    omega
  · unfold rows
    rw [hm]
    omega

/-- The buffers are large enough for the bands of the rows. -/
def Fits (g : Args) (G : Grid) : Prop :=
  g.ldc = 1 ∨ ∀ id < G.nthrM, (band G.MB G.nthrM g.m id).2 - (band G.MB G.nthrM g.m id).1 ≤ nextThrStride G.MB

theorem paddBytesizeOnpage_eq (k x : ℕ) : k * paddBytesizeOnpage x / 4 = k * nextThrStride x := by
  have hpage : paddBytesizeOnpage x = (x * 4 + 4096 - 1) / 4096 * 1024 * 4 := by
    unfold paddBytesizeOnpage
    omega
  unfold nextThrStride
  rw [hpage, Nat.mul_div_cancel _ (by decide), ← Nat.mul_assoc, Nat.mul_div_cancel _ (by decide)]

theorem locY_newY (hid : nId G ithr = 0) (hldc : g.ldc ≠ 1) (i : ℕ) :
    locY g G ithr i = .newY (i + mId G ithr * nextThrStride G.MB) := by
  unfold locY
  rw [if_neg (not_not.mpr hid), if_neg hldc, paddBytesizeOnpage_eq, Nat.add_comm]

theorem locY_tmpY (hid : nId G ithr ≠ 0) (i : ℕ) :
    locY g G ithr i = .tmpY ((rows g G ithr).1 + i + (nId G ithr - 1) * nextThrStride g.m) := by
  unfold locY
  rw [if_pos hid, Nat.mul_comm]
  congr 1
  omega

/-- The results of two threads are left in different places. -/
theorem target_ne (hG : G.Valid g.m n nthr) (hpos : 0 < g.ldc) (hp : p < G.nthrM * G.nthrN)
    (hq : q < G.nthrM * G.nthrN) (hne : p ≠ q) (hi : i < myM g G p) (hi' : i' < myM g G q) :
    target g G p i ≠ target g G q i' := by
  have hrow := row_lt hG hp hi
  have hrow' := row_lt hG hq hi'
  have hstride := le_nextThrStride g.m
  intro heq
  unfold target at heq
  split_ifs at heq with hidp hidq hidq
  · injection heq with heq
    exact hne (thread_ext (row_inj hG hp hq hi hi' (Nat.eq_of_mul_eq_mul_right hpos heq)) (hidp.trans hidq.symm))
  · rw [locY_tmpY hidq] at heq
    cases heq
  · rw [locY_tmpY hidp] at heq
    cases heq
  · rw [locY_tmpY hidp, locY_tmpY hidq] at heq
    injection heq with heq
    obtain ⟨hsame, hid⟩ := add_mul_inj (by omega) (by omega) heq
    exact hne (thread_ext (row_inj hG hp hq hi hi' hsame) (by omega))

/-- The copies of the blocks of two threads are apart. -/
theorem scratch_ne (hfits : Fits g G) (hp : p < G.nthrM * G.nthrN) (hq : q < G.nthrM * G.nthrN) (hne : p ≠ q)
    {a : Elem} (ha : a ∈ scratch g G p) : a ∉ scratch g G q := by
  obtain ⟨hidp, hldc, i, hi, rfl⟩ := ha
  rintro ⟨hidq, -, i', hi', heq⟩
  have hsize := hfits.resolve_left hldc
  rw [locY_newY hidp hldc, locY_newY hidq hldc] at heq
  injection heq with heq
  obtain ⟨-, hm⟩ := add_mul_inj (hi.trans_le (hsize _ (mId_lt hp))) (hi'.trans_le (hsize _ (mId_lt hq))) heq
  exact hne (thread_ext hm (hidp.trans hidq.symm))

theorem target_notMem_scratch (p q i : ℕ) : target g G p i ∉ scratch g G q := by
  rintro ⟨hidq, hldc, i', -, heq⟩
  rw [locY_newY hidq hldc] at heq
  unfold target at heq
  split_ifs at heq with hidp
  · cases heq
  · rw [locY_tmpY hidp] at heq
    cases heq

/-- In any order of the threads, every thread leaves what it leaves on its own. -/
theorem compute_order (h : kern.Computes) (hG : G.Valid g.m n nthr) (hpos : 0 < g.ldc) (hfits : Fits g G)
    {o : List (ℕ × Assign Elem (BitVec 32))} (ho : IsOrder (team (G.nthrM * G.nthrN) (compute g G kern)) o)
    (hithr : ithr < G.nthrM * G.nthrN) (hi : i < myM g G ithr) (m : Elem → BitVec 32) :
    execAll (o.map Prod.snd) m (target g G ithr i) = left g G ithr i m := by
  have hown : ∀ q, q ≠ ithr → ∀ e ∈ team (G.nthrM * G.nthrN) (compute g G kern) q,
      q < G.nthrM * G.nthrN ∧ (e.dst ∈ scratch g G q ∨ ∃ k < myM g G q, e.dst = target g G q k) := by
    intro q _ e he
    unfold team at he
    split_ifs at he with hq
    · exact ⟨hq, (compute_fills h hpos q).frame e he⟩
    · cases he
  have hprog := compute_fills (g := g) (G := G) h hpos ithr
  have hteam : team (G.nthrM * G.nthrN) (compute g G kern) ithr = compute g G kern ithr := if_pos hithr
  rw [← hteam] at hprog
  apply hprog.execAll_order ho _ _ _ hi
  · intro k hk q hne e he heq
    obtain ⟨hq, hscratch | ⟨k', hk', hdst⟩⟩ := hown q hne e he
    · rw [heq] at hscratch
      exact target_notMem_scratch _ _ _ hscratch
    · exact target_ne hG hpos hq hithr hne hk' hk (hdst.symm.trans heq)
  · intro a ha q hne e he heq
    obtain ⟨hq, hscratch | ⟨k', hk', hdst⟩⟩ := hown q hne e he
    · rw [heq] at hscratch
      exact scratch_ne hfits hithr hq hne.symm ha hscratch
    · rw [← heq, hdst] at ha
      exact target_notMem_scratch _ _ _ ha
  · intro a ha
    exact absurd ha (Set.notMem_empty a)

/-- The temporary vectors after the first section. -/
theorem compute_tmpY (h : kern.Computes) (hG : G.Valid g.m n nthr) (hpos : 0 < g.ldc) (hfits : Fits g G)
    {o : List (ℕ × Assign Elem (BitVec 32))} (ho : IsOrder (team (G.nthrM * G.nthrN) (compute g G kern)) o)
    (hrow : row < g.m) {id : ℕ} (hid : id + 1 < G.nthrN) (m : Elem → BitVec 32) :
    execAll (o.map Prod.snd) m (.tmpY (id * nextThrStride g.m + row)) = part g G row (id + 1) := by
  obtain ⟨ithr, hithr, hn, i, hi, rfl⟩ := exists_row hG hrow hid
  have hne : nId G ithr ≠ 0 := by omega
  have hleft := compute_order h hG hpos hfits ho hithr hi m
  unfold target left at hleft
  rw [if_neg hne, if_neg fun hcond => hne hcond.1, locY_tmpY hne, hn, zero_add, Nat.add_sub_cancel,
    Nat.add_comm] at hleft
  exact hleft

/-- `C` after the first section. -/
theorem compute_c (h : kern.Computes) (hG : G.Valid g.m n nthr) (hpos : 0 < g.ldc) (hfits : Fits g G)
    {o : List (ℕ × Assign Elem (BitVec 32))} (ho : IsOrder (team (G.nthrM * G.nthrN) (compute g G kern)) o)
    (hrow : row < g.m) (m : Elem → BitVec 32) :
    execAll (o.map Prod.snd) m (.c (row * g.ldc)) = (if g.beta then m (.c (row * g.ldc)) else 0) + part g G row 0 := by
  obtain ⟨ithr, hithr, hn, i, hi, rfl⟩ := exists_row hG hrow hG.nthrN_pos
  have hleft := compute_order h hG hpos hfits ho hithr hi m
  unfold left target at hleft
  rw [if_pos hn, hn] at hleft
  simp only [true_and] at hleft
  exact hleft

/-- The other elements of `C` after the first section. -/
theorem compute_other (h : kern.Computes) (hG : G.Valid g.m n nthr) (hpos : 0 < g.ldc)
    {o : List (ℕ × Assign Elem (BitVec 32))} (ho : IsOrder (team (G.nthrM * G.nthrN) (compute g G kern)) o) {k : ℕ}
    (hk : ∀ row < g.m, k ≠ row * g.ldc) (m : Elem → BitVec 32) : execAll (o.map Prod.snd) m (.c k) = m (.c k) := by
  apply execAll_order_of_ne ho
  intro p e he heq
  unfold team at he
  split_ifs at he with hp
  · rcases (compute_fills h hpos p).frame e he with hscratch | ⟨i, hi, hdst⟩
    · obtain ⟨hid, hldc, i, -, hdst⟩ := hscratch
      rw [heq, locY_newY hid hldc] at hdst
      cases hdst
    · rw [heq] at hdst
      unfold target at hdst
      split_ifs at hdst with hid
      · injection hdst with hdst
        exact hk _ (row_lt hG hp hi) hdst
      · rw [locY_tmpY hid] at hdst
        cases hdst
  · cases he

/-! ## The sum of the temporary vectors -/

/-- The rows that a thread adds up. -/
theorem mem_sum (hG : G.Valid g.m n nthr) (hmore : 1 < G.nthrN) (hithr : ithr < G.nthrM)
    {e : Assign Elem (BitVec 32)} : e ∈ sum g G ithr ↔ ∃ row < g.m, row / G.MB = ithr ∧ e =
      ⟨.c (row * g.ldc), fun mem => mem (.c (row * g.ldc)) +
        ((List.range (G.nthrN - 1)).map fun ii => mem (.tmpY (ii * nextThrStride g.m + row))).sum⟩ := by
  have hthreads : G.nthrM * 2 ≤ G.nthrM * G.nthrN := Nat.mul_le_mul_left _ hmore
  have hlast : ithr ≠ G.nthrM * G.nthrN - 1 := by omega
  have hmul : G.MB * (ithr + 1) = G.MB * ithr + G.MB := Nat.mul_succ _ _
  have hrow : ∀ row, row / G.MB = ithr ↔ G.MB * ithr ≤ row ∧ row < G.MB * ithr + G.MB := by
    intro row
    rw [Nat.div_eq_iff hG.MB_pos, Nat.mul_comm ithr]
    have := hG.MB_pos
    omega
  unfold sum
  simp only [hlast, or_false, paddBytesizeOnpage_eq, List.mem_map, List.mem_range]
  constructor
  · rintro ⟨j, hj, rfl⟩
    refine ⟨G.MB * ithr + j, ?_, (hrow _).mpr ?_, rfl⟩
    · split_ifs at hj <;> omega
    · split_ifs at hj <;> omega
  · rintro ⟨row, hlt, hblock, rfl⟩
    obtain ⟨hlow, hhigh⟩ := (hrow row).mp hblock
    refine ⟨row - G.MB * ithr, ?_, ?_⟩
    · split_ifs <;> omega
    · rw [Nat.add_sub_cancel' hlow]

/-- A thread on its own. -/
theorem sum_alone (hG : G.Valid g.m n nthr) (hpos : 0 < g.ldc) (hrow : row < g.m) (m : Elem → BitVec 32) :
    execAll (sum g G (row / G.MB)) m (.c (row * g.ldc)) =
      m (.c (row * g.ldc)) + ∑ ii ∈ Finset.range (G.nthrN - 1), m (.tmpY (ii * nextThrStride g.m + row)) := by
  obtain ⟨s, hs, heq⟩ : ∃ s < (if G.MB * (row / G.MB + 1) > g.m ∨ row / G.MB = G.nthrM * G.nthrN - 1 then g.m
      else G.MB * (row / G.MB + 1)) - G.MB * (row / G.MB), row = G.MB * (row / G.MB) + s := by
    have hsplit := Nat.div_add_mod row G.MB
    have hmod := Nat.mod_lt row hG.MB_pos
    refine ⟨row % G.MB, ?_, hsplit.symm⟩
    rw [Nat.mul_succ]
    split_ifs <;> omega
  have hinj : ∀ j j', Elem.c ((G.MB * (row / G.MB) + j) * g.ldc) = .c ((G.MB * (row / G.MB) + j') * g.ldc) →
      j = j' := by
    intro j j' hjj
    injection hjj with hjj
    have := Nat.eq_of_mul_eq_mul_right hpos hjj
    omega
  have hvalue : ∀ j, ∀ m m' : Elem → BitVec 32,
      (∀ a, (∀ j', j' ≠ j → Elem.c ((G.MB * (row / G.MB) + j') * g.ldc) ≠ a) → m a = m' a) →
      m (.c ((G.MB * (row / G.MB) + j) * g.ldc)) + ((List.range (G.nthrN - 1)).map fun ii =>
          m (.tmpY (ii * paddBytesizeOnpage g.m / 4 + (G.MB * (row / G.MB) + j)))).sum =
        m' (.c ((G.MB * (row / G.MB) + j) * g.ldc)) + ((List.range (G.nthrN - 1)).map fun ii =>
          m' (.tmpY (ii * paddBytesizeOnpage g.m / 4 + (G.MB * (row / G.MB) + j)))).sum := by
    intro j m m' hm
    congr 1
    · exact hm _ fun j' hne hjj => hne (hinj _ _ hjj)
    · congr 1
      apply List.map_congr_left
      intro ii _
      apply hm
      rintro j' - ⟨⟩
  have halone := execAll_map_range hinj hvalue m hs
  have hsum := sum_map_range (G.nthrN - 1) id fun ii => m (.tmpY (ii * nextThrStride g.m + row))
  rw [List.map_id] at hsum
  unfold sum
  dsimp only at halone ⊢
  rw [← heq] at halone
  simp only [paddBytesizeOnpage_eq] at halone ⊢
  rw [halone, hsum]
  rfl

/-- The assignments of the second section. -/
theorem mem_team_sum (hG : G.Valid g.m n nthr) (hmore : 1 < G.nthrN) {e : Assign Elem (BitVec 32)}
    (he : e ∈ team G.nthrM (sum g G) p) : ∃ row < g.m, row / G.MB = p ∧ e =
      ⟨.c (row * g.ldc), fun mem => mem (.c (row * g.ldc)) +
        ((List.range (G.nthrN - 1)).map fun ii => mem (.tmpY (ii * nextThrStride g.m + row))).sum⟩ := by
  unfold team at he
  split_ifs at he with hp
  · exact (mem_sum hG hmore hp).mp he
  · cases he

/-- `C` after the second section. -/
theorem sum_order (hG : G.Valid g.m n nthr) (hmore : 1 < G.nthrN) (hpos : 0 < g.ldc)
    {o : List (ℕ × Assign Elem (BitVec 32))} (ho : IsOrder (team G.nthrM (sum g G)) o) (hrow : row < g.m)
    (m : Elem → BitVec 32) : execAll (o.map Prod.snd) m (.c (row * g.ldc)) =
      m (.c (row * g.ldc)) + ∑ ii ∈ Finset.range (G.nthrN - 1), m (.tmpY (ii * nextThrStride g.m + row)) := by
  have hprivate : ∀ row', row' / G.MB = row / G.MB →
      Private (team G.nthrM (sum g G)) (row / G.MB) (.c (row' * g.ldc)) := by
    intro row' hblock q hq e he heq
    obtain ⟨row'', -, hblock', rfl⟩ := mem_team_sum hG hmore he
    injection heq with heq
    rw [Nat.eq_of_mul_eq_mul_right hpos heq] at hblock'
    exact hq (hblock'.symm.trans hblock)
  have htmp : ∀ k, Private (team G.nthrM (sum g G)) (row / G.MB) (.tmpY k) := by
    intro k q _ e he heq
    obtain ⟨row'', -, -, rfl⟩ := mem_team_sum hG hmore he
    cases heq
  have hteam : team G.nthrM (sum g G) (row / G.MB) = sum g G (row / G.MB) := by
    have hcover := hG.whole hmore
    apply if_pos
    rw [Nat.div_lt_iff_lt_mul hG.MB_pos, Nat.mul_comm]
    omega
  rw [execAll_order_of_private _ ho (hprivate row rfl), hteam]
  · exact sum_alone hG hpos hrow m
  · intro e he m m' hm
    obtain ⟨row', -, hblock, rfl⟩ := mem_team_sum hG hmore he
    dsimp only
    congr 1
    · exact hm _ (hprivate row' hblock)
    · congr 1
      apply List.map_congr_left
      intro ii _
      exact hm _ (htmp _)

/-- The other elements of `C` after the second section. -/
theorem sum_other (hG : G.Valid g.m n nthr) (hmore : 1 < G.nthrN) {o : List (ℕ × Assign Elem (BitVec 32))}
    (ho : IsOrder (team G.nthrM (sum g G)) o) {k : ℕ} (hk : ∀ row < g.m, k ≠ row * g.ldc) (m : Elem → BitVec 32) :
    execAll (o.map Prod.snd) m (.c k) = m (.c k) := by
  apply execAll_order_of_ne ho
  intro p e he heq
  obtain ⟨row, hrow, -, rfl⟩ := mem_team_sum hG hmore he
  injection heq with heq
  exact hk row hrow heq.symm

/-- The parts of a row make up the product. -/
theorem sum_part (hG : G.Valid m g.n nthr) (row : ℕ) : ∑ id ∈ Finset.range G.nthrN, part g G row id =
    ∑ j ∈ Finset.range g.n, mulBytes g.swap (g.a (row * g.lda + j)) (g.b (j * g.ldb)) :=
  sum_bands hG.nthrN_pos hG.cols_lt fun j => mulBytes g.swap (g.a (row * g.lda + j)) (newX g j)

end Team

/-! ## The whole driver -/

/-- The rows and columns of the threads tile the matrix. -/
def Tiles (g : Args) (G : Grid) : Prop :=
  ∀ i < g.m, ∀ j < g.n, ∃! ithr, ithr < G.nthrM * G.nthrN ∧ ((rows g G ithr).1 ≤ i ∧ i < (rows g G ithr).2) ∧
    (cols g G ithr).1 ≤ j ∧ j < (cols g G ithr).2

/-- An element that a thread may write to, as the buffers were allocated. -/
def InArea (g : Args) (G : Grid) (ithr : ℕ) : Elem → Prop
  | .c _ => True
  | .newY k => nId G ithr = 0 ∧ mId G ithr * nextThrStride G.MB ≤ k ∧ k < (mId G ithr + 1) * nextThrStride G.MB
  | .tmpY k => (nId G ithr - 1) * nextThrStride g.m ≤ k ∧ k < nId G ithr * nextThrStride g.m

/-- The threads write within their areas. -/
def Stays (g : Args) (G : Grid) (kern : Kernel) : Prop :=
  ∀ ithr < G.nthrM * G.nthrN, ∀ e ∈ compute g G kern ithr, InArea g G ithr e.dst

/-- No element is written to by two threads of the first section. -/
def Apart (g : Args) (G : Grid) (kern : Kernel) : Prop :=
  ∀ p < G.nthrM * G.nthrN, ∀ q < G.nthrM * G.nthrN, p ≠ q → ∀ e ∈ compute g G kern p, ∀ e' ∈ compute g G kern q,
    e.dst ≠ e'.dst

/-- What is expected of `C`. -/
def Result (g : Args) (m m' : Elem → BitVec 32) : Prop :=
  (∀ i < g.m, m' (.c (i * g.ldc)) = (if g.beta then m (.c (i * g.ldc)) else 0) +
    ∑ j ∈ Finset.range g.n, mulBytes g.swap (g.a (i * g.lda + j)) (g.b (j * g.ldb))) ∧
  ∀ k, (∀ i < g.m, k ≠ i * g.ldc) → m' (.c k) = m (.c k)

/-- The threads tile the matrix and stay within their areas, and `C` is what is expected of it unless an allocation
fails. -/
def Correct (g : Args) (kern : Kernel) (nthr : ℕ) : Prop :=
  ∃ G, grid g.m g.n nthr = some G ∧ Tiles g G ∧ Stays g G kern ∧ Apart g G kern ∧
    (∃ ps, gemvThreadingDriver g kern ⟨false, false, false⟩ nthr = some ps) ∧
    ∀ failures ps, gemvThreadingDriver g kern failures nthr = some ps →
      ∀ m, (∃ m', RunPhases ps m m') ∧ ∀ m', RunPhases ps m m' → Result g m m'

section Driver

variable {nthr : ℕ}

theorem tiles (hG : G.Valid g.m g.n nthr) : Tiles g G := by
  intro i hi j hj
  obtain ⟨id, ⟨hid, hin⟩, hrow⟩ := existsUnique_band hG.MB_pos hG.nthrM_pos hG.rows_lt hi
  obtain ⟨id', ⟨hid', hin'⟩, hcol⟩ := existsUnique_band hG.NB_pos hG.nthrN_pos hG.cols_lt hj
  obtain ⟨ithr, hithr, rfl, rfl⟩ := exists_thread hid hid'
  refine ⟨ithr, ⟨hithr, hin, hin'⟩, ?_⟩
  rintro ithr' ⟨hithr', hin, hin'⟩
  exact thread_ext (hrow _ ⟨mId_lt hithr', hin⟩) (hcol _ ⟨nId_lt hG.nthrN_pos, hin'⟩)

theorem stays_of_fits (h : kern.Computes) (hG : G.Valid g.m g.n nthr) (hpos : 0 < g.ldc) (hfits : Fits g G) :
    Stays g G kern := by
  intro ithr hithr e he
  rcases (compute_fills h hpos ithr).frame e he with hscratch | ⟨i, hi, hdst⟩
  · obtain ⟨hid, hldc, i, hi, hdst⟩ := hscratch
    rw [hdst, locY_newY hid hldc]
    have hsize : i < nextThrStride G.MB := hi.trans_le (hfits.resolve_left hldc _ (mId_lt hithr))
    refine ⟨hid, by omega, ?_⟩
    rw [Nat.succ_mul]
    omega
  · rw [hdst]
    unfold target
    split_ifs with hid
    · exact trivial
    · have hrow := row_lt hG hithr hi
      have hstride := le_nextThrStride g.m
      obtain ⟨k, hk⟩ : ∃ k, nId G ithr = k + 1 := ⟨nId G ithr - 1, by omega⟩
      rw [locY_tmpY hid]
      show (nId G ithr - 1) * nextThrStride g.m ≤ _ ∧ _ < nId G ithr * nextThrStride g.m
      rw [hk, Nat.add_sub_cancel, Nat.succ_mul]
      omega

theorem apart_of_fits (h : kern.Computes) (hG : G.Valid g.m g.n nthr) (hpos : 0 < g.ldc) (hfits : Fits g G) :
    Apart g G kern := by
  intro p hp q hq hne e he e' he' heq
  rcases (compute_fills h hpos p).frame e he with hscratch | ⟨i, hi, hdst⟩ <;>
    rcases (compute_fills h hpos q).frame e' he' with hscratch' | ⟨i', hi', hdst'⟩
  · exact scratch_ne hfits hp hq hne hscratch (heq ▸ hscratch')
  · rw [heq, hdst'] at hscratch
    exact target_notMem_scratch _ _ _ hscratch
  · rw [← heq, hdst] at hscratch'
    exact target_notMem_scratch _ _ _ hscratch'
  · exact target_ne hG hpos hp hq hne hi hi' (hdst.symm.trans (heq.trans hdst'))

/-- A thread that copies a block of `C` writes to every element of the copy. -/
theorem exists_locY (h : kern.Computes) {ithr i : ℕ} (hid : nId G ithr = 0) (hldc : g.ldc ≠ 1)
    (hi : i < myM g G ithr) : ∃ e ∈ compute g G kern ithr, e.dst = locY g G ithr i := by
  by_cases hbeta : g.beta
  · refine ⟨⟨locY g G ithr i, fun mem => mem (place g G ithr i)⟩, ?_, rfl⟩
    unfold compute copyIn
    rw [if_pos ⟨hid, hldc, hbeta⟩]
    exact List.mem_append_left _ (List.mem_append_left _ (List.mem_map.mpr ⟨i, List.mem_range.mpr hi, rfl⟩))
  · -- the kernel replaces what was there
    by_contra hnone
    have hvalue := (kernel_fills (g := g) (G := G) h ithr).value
      (fun _ => part g G ((rows g G ithr).1 + i) (nId G ithr) + 1) i hi
    rw [execAll_of_ne, if_neg fun hcond => hbeta hcond.2, zero_add, add_eq_left] at hvalue
    · exact absurd hvalue (by decide)
    · intro e he heq
      exact hnone ⟨e, List.mem_append_left _ (List.mem_append_right _ he), heq⟩

theorem fits_of_stays (h : kern.Computes) (hG : G.Valid g.m g.n nthr) (hstays : Stays g G kern) : Fits g G := by
  by_cases hldc : g.ldc = 1
  · exact Or.inl hldc
  · right
    intro id hid
    obtain ⟨ithr, hithr, rfl, hn⟩ := exists_thread hid hG.nthrN_pos
    by_contra hlarge
    obtain ⟨e, he, hdst⟩ := exists_locY h hn hldc (i := nextThrStride G.MB) (Nat.lt_of_not_le hlarge)
    have harea := hstays ithr hithr e he
    rw [hdst, locY_newY hn hldc] at harea
    obtain ⟨-, -, hlt⟩ := harea
    rw [Nat.succ_mul] at hlt
    omega

/-- A run of the driver leaves the product in `C`. -/
theorem runPhases_result (h : kern.Computes) (hG : G.Valid g.m g.n nthr) (hpos : 0 < g.ldc) (hfits : Fits g G)
    {m m' : Elem → BitVec 32} (hrun : RunPhases (phases g G kern) m m') : Result g m m' := by
  unfold phases at hrun
  split_ifs at hrun with hmore
  · obtain ⟨o, ho, o', ho', rfl⟩ := hrun
    constructor
    · intro row hrow
      have hparts : ∑ ii ∈ Finset.range (G.nthrN - 1), execAll (o.map Prod.snd) m (.tmpY (ii * nextThrStride g.m + row)) =
          ∑ ii ∈ Finset.range (G.nthrN - 1), part g G row (ii + 1) := by
        apply Finset.sum_congr rfl
        intro ii hii
        rw [Finset.mem_range] at hii
        exact compute_tmpY h hG hpos hfits ho hrow (by omega) m
      rw [sum_order hG hmore hpos ho' hrow, compute_c h hG hpos hfits ho hrow, hparts, ← sum_part hG row]
      obtain ⟨k, hk⟩ : ∃ k, G.nthrN = k + 1 := ⟨G.nthrN - 1, by omega⟩
      rw [hk, Finset.sum_range_succ', Nat.add_sub_cancel, add_assoc, add_comm (part g G row 0)]
    · intro k hk
      rw [sum_other hG hmore ho' hk, compute_other h hG hpos ho hk]
  · obtain ⟨o, ho, rfl⟩ := hrun
    have hone : G.nthrN = 1 := by
      have := hG.nthrN_pos
      omega
    constructor
    · intro row hrow
      rw [compute_c h hG hpos hfits ho hrow, ← sum_part hG row, hone, Finset.sum_range_one]
    · intro k hk
      exact compute_other h hG hpos ho hk m

theorem exists_run (G : Grid) (m : Elem → BitVec 32) : ∃ m', RunPhases (phases g G kern) m m' := by
  have hteam : ∀ n (prog : ℕ → List (Assign Elem (BitVec 32))), ∃ o, IsOrder (team n prog) o := by
    intro n prog
    have hnone : ∀ p, n ≤ p → team n prog p = [] := fun p hp => if_neg (by omega)
    obtain ⟨o, ho, -⟩ := exists_isOrder hnone
    exact ⟨o, ho⟩
  unfold phases
  obtain ⟨o, ho⟩ := hteam (G.nthrM * G.nthrN) (compute g G kern)
  split_ifs
  · obtain ⟨o', ho'⟩ := hteam G.nthrM (sum g G)
    exact ⟨_, o, ho, o', ho', rfl⟩
  · exact ⟨_, o, ho, rfl⟩

end Driver

/-! ## A run that overruns its copy of `C` -/

/-- A kernel that computes one row after the other. -/
def rowKernel : Kernel := fun swap m n A x beta y =>
  (List.range m).map fun i =>
    ⟨y i, fun mem => (if beta then mem (y i) else 0) + ∑ j ∈ Finset.range n, mulBytes swap (A i j) (x j)⟩

theorem rowKernel_computes : rowKernel.Computes := by
  intro swap m n A x beta y hinj
  have hlocal : ∀ e ∈ rowKernel swap m n A x beta y, e.Local := by
    intro e he mem mem' hmem
    obtain ⟨i, -, rfl⟩ := List.mem_map.mp he
    dsimp only at hmem ⊢
    rw [hmem]
  have hnodup : ((rowKernel swap m n A x beta y).map Assign.dst).Nodup := by
    unfold rowKernel
    rw [List.map_map]
    apply List.Nodup.map_on _ List.nodup_range
    intro i hi i' hi' heq
    exact hinj (List.mem_range.mp hi) (List.mem_range.mp hi') heq
  constructor
  · intro mem i hi
    exact execAll_of_nodup hnodup hlocal (List.mem_map.mpr ⟨i, List.mem_range.mpr hi, rfl⟩) mem
  · intro e he
    obtain ⟨i, hi, rfl⟩ := List.mem_map.mp he
    exact Or.inr ⟨i, List.mem_range.mp hi, rfl⟩
  · intro e he mem mem' _ hout _
    obtain ⟨i, hi, rfl⟩ := List.mem_map.mp he
    dsimp only
    rw [hout i (List.mem_range.mp hi)]

/-- Two threads get 1024 of the 2049 rows, and the last one the row that is left too. -/
def oneRowLeft : Args where
  m := 2049
  n := 1
  a := fun _ => 1
  lda := 1
  b := fun _ => 1
  ldb := 1
  beta := false
  ldc := 2
  swap := true

end MklDnn.GemvS8u8s32
