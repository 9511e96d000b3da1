import Mathlib.Tactic.Ring
import MklDnn.Common.Proofs.ParallelLoopsProofs
import MklDnn.Common.Proofs.UtilsProofs
import MklDnn.Gemm.Proofs.NocopyThreadsProofs
import MklDnn.Gemm.RefGemm
import MklDnn.Lib.Fills
import MklDnn.Lib.Sums

/-!
# Proofs: reference GEMM

Every kernel multiplies a rectangle of the result: the tiles and the tails make up a block, the blocks a part of a thread, and
the parts of `K` follow one another. The parts of the threads along `K` are in different places until they are added up.
-/

open Interleaving LoopNest MixedRadix

namespace MklDnn.RefGemm

variable {R : Type*} [CommSemiring R]

/-! ## Rectangles -/

/-- The rows below `M` and the columns below `N`. -/
def rect (M N : ℕ) : Set (ℕ × ℕ) := {k | k.1 < M ∧ k.2 < N}

/-- The rectangle of `m` rows and `n` columns behind `i` rows and `j` columns. -/
def rectAt (i m j n : ℕ) : Set (ℕ × ℕ) := {k | (i ≤ k.1 ∧ k.1 < i + m) ∧ j ≤ k.2 ∧ k.2 < j + n}

/-- The place of an element of the result. -/
def place (c : ℤ → Elem) (ldc : ℤ) (k : ℕ × ℕ) : Elem := c (k.1 + k.2 * ldc)

/-- What a product makes of an element of the result. -/
def product (isTransA isTransB : Bool) (K : ℕ) (a : ℤ → R) (lda : ℤ) (b : ℤ → R) (ldb : ℤ) (alpha beta : R) (k : ℕ × ℕ)
    (v : R) : R :=
  alpha * ∑ p ∈ Finset.range K, a (matOff isTransA lda k.1 p) * b (matOff isTransB ldb p k.2) + beta * v

theorem matOff_add (isTrans : Bool) (ld i j i' j' : ℤ) :
    matOff isTrans ld i j + matOff isTrans ld i' j' = matOff isTrans ld (i + i') (j + j') := by
  unfold matOff
  split_ifs <;> ring

variable {isTransA isTransB : Bool} {M N K : ℕ} {a b : ℤ → R} {lda ldb ldc : ℤ} {c : ℤ → Elem} {alpha beta : R}
  {prog : List (Assign Elem R)}

omit [CommSemiring R] in
/-- A rectangle that is addressed from its own first element. -/
theorem updates_rectAt {i m j n : ℕ} {f : ℕ × ℕ → R → R}
    (h : Updates (rect m n) (place (fun z => c (i + j * ldc + z)) ldc) (fun k => f (i + k.1, j + k.2)) prog) :
    Updates (rectAt i m j n) (place c ldc) f prog := by
  have hset : rectAt i m j n = Set.image (fun k : ℕ × ℕ => (i + k.1, j + k.2)) (rect m n) := by
    ext k
    constructor
    · rintro ⟨⟨hi, him⟩, hj, hjn⟩
      exact ⟨(k.1 - i, k.2 - j), ⟨by dsimp only; omega, by dsimp only; omega⟩,
        Prod.ext (Nat.add_sub_cancel' hi) (Nat.add_sub_cancel' hj)⟩
    · rintro ⟨k, ⟨hi, hj⟩, rfl⟩
      exact ⟨⟨Nat.le_add_right _ _, Nat.add_lt_add_left hi _⟩, Nat.le_add_right _ _, Nat.add_lt_add_left hj _⟩
  have hplace : place (fun z => c (i + j * ldc + z)) ldc = fun k => place c ldc (i + k.1, j + k.2) := by
    funext k
    exact congrArg c (by push_cast; ring)
  rw [hplace] at h
  rw [hset]
  exact h.image

/-- The product of a part of the operands is a part of the product. -/
theorem product_shift (i j p : ℕ) (k : ℕ × ℕ) (v : R) :
    product isTransA isTransB K (fun z => a (matOff isTransA lda i p + z)) lda (fun z => b (matOff isTransB ldb p j + z)) ldb
      alpha beta k v = alpha * ∑ q ∈ Finset.range K, a (matOff isTransA lda (i + k.1 : ℕ) (p + q : ℕ)) *
        b (matOff isTransB ldb (p + q : ℕ) (j + k.2 : ℕ)) + beta * v := by
  unfold product
  simp only [matOff_add, Nat.cast_add]

theorem product_tile (i j : ℕ) (k : ℕ × ℕ) (v : R) :
    product isTransA isTransB K (fun z => a ((if isTransA then i * lda else (i : ℤ)) + z)) lda
      (fun z => b ((if isTransB then (j : ℤ) else j * ldb) + z)) ldb alpha beta k v =
    product isTransA isTransB K a lda b ldb alpha beta (i + k.1, j + k.2) v := by
  have ha : (if isTransA then i * lda else (i : ℤ)) = matOff isTransA lda i 0 := by
    unfold matOff
    split_ifs <;> ring
  have hb : (if isTransB then (j : ℤ) else j * ldb) = matOff isTransB ldb 0 j := by
    unfold matOff
    split_ifs <;> ring
  unfold product
  simp only [ha, hb, matOff_add, Nat.cast_add, zero_add]

omit [CommSemiring R] in
/-- A loop over the blocks of the rows, and over the blocks of the columns. -/
theorem updates_blocks {u w : ℕ} (hu : 0 < u) (hw : 0 < w) (hinj : Set.InjOn (place c ldc) (rect M N))
    {body : ℕ → ℕ → List (Assign Elem R)} {f : ℕ × ℕ → R → R}
    (h : ∀ i ∈ starts (fun _ => u) M M 0, ∀ j ∈ starts (fun _ => w) N N 0,
      Updates (rectAt i (min (M - i) u) j (min (N - j) w)) (place c ldc) f (body i j)) :
    Updates (rect M N) (place c ldc) f ((starts (fun _ => u) M M 0).flatMap fun i =>
      (starts (fun _ => w) N N 0).flatMap fun j => body i j) := by
  have hrows : ∀ i ∈ starts (fun _ => u) M M 0,
      Updates {k | k ∈ rect M N ∧ i ≤ k.1 ∧ k.1 < min M (i + u)} (place c ldc) f
        ((starts (fun _ => w) N N 0).flatMap fun j => body i j) := by
    intro i hi
    have hlt := (mem_starts hi).2
    have hset : {k | k ∈ rect M N ∧ i ≤ k.1 ∧ k.1 < min M (i + u)} =
        {k | k ∈ {k | k ∈ rect M N ∧ i ≤ k.1 ∧ k.1 < min M (i + u)} ∧ k.2 < N} := by
      ext k
      exact ⟨fun hk => ⟨hk, hk.1.2⟩, fun hk => hk.1⟩
    rw [hset]
    refine updates_starts (fun _ _ => hw) (hinj.mono fun k hk => hk.1) fun j hj => ?_
    have hlt' := (mem_starts hj).2
    have hblock : {k | k ∈ {k | k ∈ rect M N ∧ i ≤ k.1 ∧ k.1 < min M (i + u)} ∧ j ≤ k.2 ∧ k.2 < min N (j + w)} =
        rectAt i (min (M - i) u) j (min (N - j) w) := by
      ext k
      simp only [rect, rectAt, Set.mem_ofPred_eq]
      omega
    rw [hblock]
    exact h i hi j hj
  have hset : rect M N = {k | k ∈ rect M N ∧ k.1 < M} := by
    ext k
    exact ⟨fun hk => ⟨hk, hk.1⟩, fun hk => hk.1⟩
  rw [hset]
  exact updates_starts (fun _ _ => hu) hinj hrows

/-- A block of full size ends within the range. -/
theorem add_le_of_mem_starts {u n i : ℕ} (hdvd : u ∣ n) (hi : i ∈ starts (fun _ => u) n n 0) : i + u ≤ n := by
  have hlt := (mem_starts hi).2
  have hdvd' : u ∣ i := starts_invariant (dvd_zero u) (fun c _ hc => dvd_add hc dvd_rfl) hi
  exact Nat.le_of_lt_add_of_dvd (Nat.add_lt_add_right hlt u) (dvd_add hdvd' dvd_rfl) hdvd

theorem injOn_tile {i j m n : ℕ} (hinj : Set.InjOn (place c ldc) (rect M N)) (hi : i + m ≤ M) (hj : j + n ≤ N) :
    Set.InjOn (place (fun z => c (i + j * ldc + z)) ldc) (rect m n) := by
  intro k hk k' hk' heq
  have hplace : ∀ k : ℕ × ℕ, place (fun z => c (i + j * ldc + z)) ldc k = place c ldc (i + k.1, j + k.2) := by
    intro k
    exact congrArg c (by push_cast; ring)
  have hmem : ∀ k ∈ rect m n, (i + k.1, j + k.2) ∈ rect M N := fun k hk =>
    ⟨(Nat.add_lt_add_left hk.1 i).trans_le hi, (Nat.add_lt_add_left hk.2 j).trans_le hj⟩
  rw [hplace, hplace] at heq
  have hsame := hinj (hmem k hk) (hmem k' hk') heq
  exact Prod.ext (Nat.add_left_cancel (congrArg Prod.fst hsame)) (Nat.add_left_cancel (congrArg Prod.snd hsame))

/-! ## The kernels -/

variable [DecidableEq R]

theorem kernelMxn_updates (hinj : Set.InjOn (place c ldc) (rect unrollM unrollN)) :
    Updates (rect unrollM unrollN) (place c ldc) (product isTransA isTransB K a lda b ldb alpha beta)
      (kernelMxn isTransA isTransB K a lda b ldb c ldc alpha beta) := by
  have hset : rect unrollM unrollN = {k | ∃ j ∈ List.range unrollN, ∃ i ∈ List.range unrollM, k = (i, j)} := by
    ext k
    simp only [List.mem_range]
    constructor
    · rintro ⟨hi, hj⟩
      exact ⟨k.2, hj, k.1, hi, rfl⟩
    · rintro ⟨j, hj, i, hi, rfl⟩
      exact ⟨hi, hj⟩
  unfold kernelMxn
  rw [hset]
  refine updates_loops List.nodup_range List.nodup_range (fun x y x' y' h => ⟨congrArg Prod.snd h, congrArg Prod.fst h⟩)
    hinj (fun j hj i hi => ⟨List.mem_range.mp hi, List.mem_range.mp hj⟩) ?_ ?_ ?_
  · intro j _ i _
    split_ifs <;> rfl
  · intro j _ i _
    split_ifs
    · exact Assign.local_set _ _
    · exact fun m m' h => congrArg (fun v => alpha * _ + beta * v) h
  · intro j _ i _ v
    unfold product
    rw [foldl_add_range, zero_add]
    split_ifs with hbeta
    · rw [hbeta, zero_mul, add_zero]
      rfl
    · rfl

/-- The panel holds the rows of the tile. -/
theorem kernelMxn_copyA_updates (hinj : Set.InjOn (place c ldc) (rect unrollM unrollN)) :
    Updates (rect unrollM unrollN) (place c ldc) (product isTransA isTransB K a lda b ldb alpha beta)
      (kernelMxn false isTransB K (copyA isTransA a lda) unrollM b ldb c ldc alpha beta) := by
  refine (kernelMxn_updates hinj).congr fun k hk v => ?_
  have hcopy : ∀ p : ℕ, copyA isTransA a lda (matOff false unrollM k.1 p) = a (matOff isTransA lda k.1 p) := by
    intro p
    have hi : (k.1 : ℤ) < 16 := by exact_mod_cast hk.1
    have hmod : (k.1 + p * 16 : ℤ) % 16 = k.1 := by omega
    have hdiv : (k.1 + p * 16 : ℤ) / 16 = p := by omega
    unfold copyA
    change a (matOff isTransA lda ((k.1 + p * 16 : ℤ) % 16) ((k.1 + p * 16 : ℤ) / 16)) = _
    rw [hmod, hdiv]
  unfold product
  simp only [hcopy]

theorem tail_updates {l l' : List ℕ} (hnd : l.Nodup) (hnd' : l'.Nodup) (hinj : Set.InjOn (place c ldc) (rect M N))
    (hl : ∀ i ∈ l, i < M) (hl' : ∀ j ∈ l', j < N) : Updates {k | k.1 ∈ l ∧ k.2 ∈ l'} (place c ldc)
      (product isTransA isTransB K a lda b ldb alpha beta)
      (l.flatMap fun i => l'.map fun j => tailElem isTransA isTransB K a lda b ldb c ldc alpha beta i j) := by
  have hset : {k : ℕ × ℕ | k.1 ∈ l ∧ k.2 ∈ l'} = {k | ∃ i ∈ l, ∃ j ∈ l', k = (i, j)} := by
    ext k
    constructor
    · rintro ⟨hi, hj⟩
      exact ⟨k.1, hi, k.2, hj, rfl⟩
    · rintro ⟨i, hi, j, hj, rfl⟩
      exact ⟨hi, hj⟩
  rw [hset]
  refine updates_loops hnd hnd' (fun x y x' y' h => ⟨congrArg Prod.fst h, congrArg Prod.snd h⟩) hinj
    (fun i hi j hj => ⟨hl i hi, hl' j hj⟩) (fun i _ j _ => rfl) ?_ ?_
  · intro i _ j _ m m' h
    have hc : m (c (i + j * ldc)) = m' (c (i + j * ldc)) := h
    change List.foldl _ (if beta = 0 then 0 else beta * m (c (i + j * ldc))) _ = _
    rw [hc]
    rfl
  · intro i _ j _ v
    have hscale : (if beta = 0 then 0 else beta * v) = beta * v := by
      split_ifs with hbeta
      · rw [hbeta, zero_mul]
      · rfl
    change List.foldl _ (if beta = 0 then 0 else beta * v) _ = _
    rw [hscale, foldl_add_range, add_comm]
    unfold product
    simp only [Finset.mul_sum, mul_assoc]

theorem dvd_rndDn (a b : ℕ) : b ∣ rndDn a b := Nat.dvd_mul_left b (a / b)

theorem rndDn_le (a b : ℕ) : rndDn a b ≤ a := Nat.div_mul_le_self a b

/-- The tiles, with the panel or without it. -/
theorem tiles_updates {M' N' : ℕ} (hM : unrollM ∣ M') (hN : unrollN ∣ N') (hinj : Set.InjOn (place c ldc) (rect M' N'))
    (doCopy : Bool) : Updates (rect M' N') (place c ldc) (product isTransA isTransB K a lda b ldb alpha beta)
      ((starts (fun _ => unrollM) M' M' 0).flatMap fun (i : ℕ) => (starts (fun _ => unrollN) N' N' 0).flatMap fun (j : ℕ) =>
        if doCopy then kernelMxn false isTransB K
          (copyA isTransA (fun z => a ((if isTransA then i * lda else (i : ℤ)) + z)) lda) unrollM
          (fun z => b ((if isTransB then (j : ℤ) else j * ldb) + z)) ldb (fun z => c (i + j * ldc + z)) ldc alpha beta
        else kernelMxn isTransA isTransB K (fun z => a ((if isTransA then i * lda else (i : ℤ)) + z)) lda
          (fun z => b ((if isTransB then (j : ℤ) else j * ldb) + z)) ldb (fun z => c (i + j * ldc + z)) ldc alpha beta) := by
  refine updates_blocks (by decide) (by decide) hinj fun i hi j hj => ?_
  have hile := add_le_of_mem_starts hM hi
  have hjle := add_le_of_mem_starts hN hj
  have hfull : min (M' - i) unrollM = unrollM := by omega
  have hfull' : min (N' - j) unrollN = unrollN := by omega
  rw [hfull, hfull']
  have htile := injOn_tile hinj hile hjle
  cases doCopy with
  | true =>
    rw [if_pos rfl]
    exact updates_rectAt ((kernelMxn_copyA_updates htile).congr fun k _ v => product_tile i j k v)
  | false =>
    rw [if_neg Bool.false_ne_true]
    exact updates_rectAt ((kernelMxn_updates htile).congr fun k _ v => product_tile i j k v)

/-- The tiles and the tails together. -/
theorem blockKer_updates (hinj : Set.InjOn (place c ldc) (rect M N)) (doCopy : Bool) :
    Updates (rect M N) (place c ldc) (product isTransA isTransB K a lda b ldb alpha beta)
      (blockKer isTransA isTransB M N K a lda b ldb c ldc alpha beta doCopy) := by
  have hMu := rndDn_le M unrollM
  have hNu := rndDn_le N unrollN
  have hsub : rect (rndDn M unrollM) (rndDn N unrollN) ⊆ rect M N :=
    fun k hk => ⟨hk.1.trans_le hMu, hk.2.trans_le hNu⟩
  have htiles : Updates (rect (rndDn M unrollM) (rndDn N unrollN)) (place c ldc)
      (product isTransA isTransB K a lda b ldb alpha beta) _ :=
    tiles_updates (dvd_rndDn M unrollM) (dvd_rndDn N unrollN) (hinj.mono hsub) doCopy
  have hright : Updates {k | k.1 ∈ List.range M ∧ k.2 ∈ List.range' (rndDn N unrollN) (N - rndDn N unrollN)} (place c ldc)
      (product isTransA isTransB K a lda b ldb alpha beta) _ :=
    tail_updates List.nodup_range List.nodup_range' hinj (fun i hi => List.mem_range.mp hi)
      fun j hj => by rw [List.mem_range'_1] at hj; omega
  have hbottom : Updates {k | k.1 ∈ List.range' (rndDn M unrollM) (M - rndDn M unrollM) ∧ k.2 ∈ List.range (rndDn N unrollN)}
      (place c ldc) (product isTransA isTransB K a lda b ldb alpha beta) _ :=
    tail_updates List.nodup_range' List.nodup_range hinj (fun i hi => by rw [List.mem_range'_1] at hi; omega)
      fun j hj => (List.mem_range.mp hj).trans_le hNu
  simp only [List.mem_range, List.mem_range'_1] at hright hbottom
  have hset : rect M N = rect (rndDn M unrollM) (rndDn N unrollN) ∪
      {k | k.1 < M ∧ rndDn N unrollN ≤ k.2 ∧ k.2 < rndDn N unrollN + (N - rndDn N unrollN)} ∪
      {k | (rndDn M unrollM ≤ k.1 ∧ k.1 < rndDn M unrollM + (M - rndDn M unrollM)) ∧ k.2 < rndDn N unrollN} := by
    ext k
    simp only [rect, Set.mem_union, Set.mem_ofPred_eq]
    omega
  rw [hset]
  refine (htiles.union hright hinj hsub ?_ ?_).union hbottom hinj ?_ ?_ ?_
  · rintro k ⟨hk, hk'⟩
    exact ⟨hk, by omega⟩
  · rintro k ⟨-, hk⟩ ⟨-, hk'⟩
    omega
  · rintro k (hk | ⟨hk, hk'⟩)
    · exact hsub hk
    · exact ⟨hk, by omega⟩
  · rintro k ⟨hk, hk'⟩
    exact ⟨by omega, hk'.trans_le hNu⟩
  · rintro k (⟨hk, hk'⟩ | ⟨hk, hk'⟩) ⟨hmem, hmem'⟩ <;> omega

/-- The parts of `K` one after the other. -/
theorem gemmIthr_updates (halpha : alpha ≠ 0) (hK : 0 < K) (hinj : Set.InjOn (place c ldc) (rect M N)) (doCopy : Bool) :
    Updates (rect M N) (place c ldc) (product isTransA isTransB K a lda b ldb alpha beta)
      (gemmIthr isTransA isTransB M N K alpha a lda b ldb beta c ldc doCopy) := by
  have hBK : 0 < BK isTransB := by
    unfold BK
    split_ifs <;> omega
  have hBN : 0 < BN isTransA := by
    unfold BN
    split_ifs <;> omega
  -- the terms of a part of `K`
  have hparts : ∀ Bk < K, ∀ beta' : R, Updates (rect M N) (place c ldc)
      (fun k v => alpha * ∑ q ∈ Finset.range (min K (Bk + BK isTransB) - Bk), a (matOff isTransA lda k.1 (Bk + q : ℕ)) *
        b (matOff isTransB ldb (Bk + q : ℕ) k.2) + beta' * v)
      ((starts (fun _ => BM) M M 0).flatMap fun (Bm : ℕ) => (starts (fun _ => BN isTransA) N N 0).flatMap fun (Bn : ℕ) =>
        blockKer isTransA isTransB (min (M - Bm) BM) (min (N - Bn) (BN isTransA)) (min (K - Bk) (BK isTransB))
          (fun z => a ((if isTransA then Bk + Bm * lda else Bm + Bk * lda) + z)) lda
          (fun z => b ((if isTransB then Bn + Bk * ldb else Bk + Bn * ldb) + z)) ldb
          (fun z => c (Bm + Bn * ldc + z)) ldc alpha beta' doCopy) := by
    intro Bk hBk beta'
    refine updates_blocks (by decide) hBN hinj fun Bm hBm Bn hBn => updates_rectAt ?_
    have hlt := (mem_starts hBm).2
    have hlt' := (mem_starts hBn).2
    have hsize : min (K - Bk) (BK isTransB) = min K (Bk + BK isTransB) - Bk := by omega
    rw [← hsize]
    exact (blockKer_updates (injOn_tile hinj (by omega) (by omega)) doCopy).congr fun k _ v => product_shift Bm Bn Bk k v
  unfold gemmIthr
  by_cases hempty : M = 0 ∨ N = 0
  · rw [if_pos hempty]
    refine updates_nil.congr fun k hk => ?_
    have := hk.1
    have := hk.2
    omega
  · have hnonzero : ¬ (K = 0 ∨ alpha = 0) := fun hzero => hzero.elim (by omega) halpha
    obtain ⟨rest, hstarts, hrest⟩ := starts_eq_cons (fun _ => BK isTransB) hK (show K ≤ 0 + K by omega)
    have hmem : ∀ Bk ∈ rest, Bk < K ∧ Bk ≠ 0 := by
      intro Bk hBk
      have hlt : Bk < K := (mem_starts (hstarts ▸ List.mem_cons_of_mem 0 hBk : Bk ∈ starts (fun _ => BK isTransB) K K 0)).2
      have hle := hrest Bk hBk
      omega
    have hfirst := hparts 0 hK (if 0 = 0 then beta else 1)
    have hothers : Updates (rect M N) (place c ldc) (fun k v => v + (rest.map fun Bk =>
        alpha * ∑ q ∈ Finset.range (min K (Bk + BK isTransB) - Bk), a (matOff isTransA lda k.1 (Bk + q : ℕ)) *
          b (matOff isTransB ldb (Bk + q : ℕ) k.2)).sum) _ :=
      updates_flatMap fun Bk hBk => (hparts Bk (hmem Bk hBk).1 (if Bk = 0 then beta else 1)).congr fun k _ v => by
        rw [if_neg (hmem Bk hBk).2, one_mul, add_comm]
    rw [if_neg hempty, if_neg hnonzero, hstarts, List.flatMap_cons]
    refine (hfirst.append hothers).congr fun k _ v => ?_
    have htotal := sum_starts (fun (c : ℕ) (_ : c < K) => hBK) fun p =>
      a (matOff isTransA lda k.1 (p : ℕ)) * b (matOff isTransB ldb (p : ℕ) k.2)
    unfold product
    rw [← htotal, hstarts, List.map_cons, List.sum_cons, List.sum_map_mul_left, if_pos rfl]
    ring

/-! ## The grid -/

/-- The blocks of a dimension: every thread has one, and they cover the dimension. -/
structure Blocks (b nthr size : ℕ) : Prop where
  pos : 0 < b
  covers : size ≤ b * nthr
  start : ∀ i < nthr, b * i < size

section Blocks

variable {size nthr w i x : ℕ}

/-- The block that an element is in. -/
theorem Blocks.mem_iff (h : Blocks w nthr size) (hi : i < nthr) :
    ((getThrBlock w size i).1 ≤ x ∧ x < (getThrBlock w size i).1 + (getThrBlock w size i).2) ↔ x < size ∧ x / w = i := by
  have hstart := h.start i hi
  have hsucc : w * (i + 1) = w * i + w := Nat.mul_succ w i
  rw [Nat.div_eq_iff h.pos, Nat.mul_comm i w]
  have hpos := h.pos
  unfold getThrBlock
  dsimp only
  omega

theorem Blocks.size_pos (h : Blocks w nthr size) (hi : i < nthr) : 0 < (getThrBlock w size i).2 := by
  have hstart := h.start i hi
  have hpos := h.pos
  have hsucc : w * (i + 1) = w * i + w := Nat.mul_succ w i
  unfold getThrBlock
  dsimp only
  omega

theorem Blocks.size_le (w size i : ℕ) : (getThrBlock w size i).2 ≤ w := by
  have hsucc : w * (i + 1) = w * i + w := Nat.mul_succ w i
  unfold getThrBlock
  dsimp only
  omega

theorem Blocks.end_le (h : Blocks w nthr size) (hi : i < nthr) :
    (getThrBlock w size i).1 + (getThrBlock w size i).2 ≤ size := by
  have hstart := h.start i hi
  unfold getThrBlock
  dsimp only
  omega

theorem Blocks.div_lt (h : Blocks w nthr size) (hx : x < size) : x / w < nthr :=
  Nat.div_lt_of_lt_mul (hx.trans_le h.covers)

omit [DecidableEq R] in
/-- The blocks put together are the dimension. -/
theorem Blocks.sum_eq (h : Blocks w nthr size) (f : ℕ → R) :
    ∑ i ∈ Finset.range nthr, ∑ x ∈ Finset.range (getThrBlock w size i).2, f (w * i + x) = ∑ x ∈ Finset.range size, f x := by
  have hfirsts : ∀ n ≤ nthr, ∑ i ∈ Finset.range n, ∑ x ∈ Finset.range (getThrBlock w size i).2, f (w * i + x) =
      ∑ x ∈ Finset.range (min (w * n) size), f x := by
    intro n
    induction n with
    | zero => intro _; simp
    | succ n ih =>
      intro hn
      have hstart := h.start n hn
      have hsplit : min (w * (n + 1)) size = w * n + (getThrBlock w size n).2 := by
        have hsucc : w * (n + 1) = w * n + w := Nat.mul_succ w n
        unfold getThrBlock
        dsimp only
        omega
      rw [Finset.sum_range_succ, ih (by omega), Nat.min_eq_left hstart.le, hsplit, Finset.sum_range_add]
  rw [hfirsts nthr le_rfl, Nat.min_eq_right h.covers]

end Blocks

/-- The grid divides the product of the sizes. -/
structure Grid.Divides (t : Grid) (M N K : ℕ) : Prop where
  rows : Blocks t.MB t.nthrM M
  cols : Blocks t.NB t.nthrN N
  depth : Blocks t.KB t.nthrK K

namespace Grid

variable {t : Grid} {ithr ithr' m n kk : ℕ}

/-- The number of the thread with the coordinates. -/
def thread (t : Grid) (m n kk : ℕ) : ℕ := m + n * t.nthrM + kk * t.nthrMn

theorem inner_lt (hm : m < t.nthrM) (hn : n < t.nthrN) : m + n * t.nthrM < t.nthrMn := by
  unfold nthrMn
  rw [Nat.mul_comm t.nthrM]
  exact add_mul_lt hm hn

theorem thread_lt (hm : m < t.nthrM) (hn : n < t.nthrN) (hk : kk < t.nthrK) : t.thread m n kk < t.nthrMn * t.nthrK := by
  rw [Nat.mul_comm t.nthrMn]
  exact add_mul_lt (inner_lt hm hn) hk

theorem thread_mod (hm : m < t.nthrM) (hn : n < t.nthrN) : t.thread m n kk % t.nthrMn = m + n * t.nthrM := by
  unfold thread
  rw [Nat.add_mul_mod_self_right, Nat.mod_eq_of_lt (inner_lt hm hn)]

theorem ithrM_thread (hm : m < t.nthrM) (hn : n < t.nthrN) : t.ithrM (t.thread m n kk) = m := by
  unfold ithrM
  rw [thread_mod hm hn, Nat.add_mul_mod_self_right, Nat.mod_eq_of_lt hm]

theorem ithrN_thread (hm : m < t.nthrM) (hn : n < t.nthrN) : t.ithrN (t.thread m n kk) = n := by
  unfold ithrN
  rw [thread_mod hm hn, Nat.add_mul_div_right _ _ (by omega), Nat.div_eq_of_lt hm, Nat.zero_add]

theorem ithrK_thread (hm : m < t.nthrM) (hn : n < t.nthrN) : t.ithrK (t.thread m n kk) = kk := by
  have hlt := inner_lt hm hn
  unfold ithrK thread
  rw [Nat.add_mul_div_right _ _ (by omega), Nat.div_eq_of_lt hlt, Nat.zero_add]

theorem thread_ithr (ithr : ℕ) : t.thread (t.ithrM ithr) (t.ithrN ithr) (t.ithrK ithr) = ithr := by
  unfold thread ithrM ithrN ithrK
  rw [Nat.mod_add_div', Nat.mod_add_div']

theorem ithrM_lt (hithr : ithr < t.nthrMn * t.nthrK) : t.ithrM ithr < t.nthrM := by
  apply Nat.mod_lt
  apply Nat.pos_of_ne_zero
  intro hzero
  rw [nthrMn, hzero, Nat.zero_mul, Nat.zero_mul] at hithr
  omega

theorem ithrN_lt (hithr : ithr < t.nthrMn * t.nthrK) : t.ithrN ithr < t.nthrN := by
  have hpos : 0 < t.nthrMn := by
    apply Nat.pos_of_ne_zero
    intro hzero
    rw [hzero, Nat.zero_mul] at hithr
    omega
  exact Nat.div_lt_of_lt_mul (Nat.mod_lt ithr hpos)

theorem ithrK_lt (hithr : ithr < t.nthrMn * t.nthrK) : t.ithrK ithr < t.nthrK := Nat.div_lt_of_lt_mul hithr

end Grid

/-! ## Places -/

/-- The place in `c_buffers` of an element of part `kk` of `K`. -/
def Grid.slot (t : Grid) (k : ℕ × ℕ) (kk : ℕ) : ℕ :=
  t.MB * t.NB * ((k.1 / t.MB + t.nthrM * (k.2 / t.NB)) * (t.nthrK - 1) + kk - 1) + (k.1 % t.MB + k.2 % t.NB * t.MB)

/-- The place of an element of a part of `K`. -/
def Grid.partPlace (t : Grid) (ldc : ℤ) (x : (ℕ × ℕ) × ℕ) : Elem :=
  if x.2 = 0 then place .c ldc x.1 else .buffer (t.slot x.1 x.2)

theorem injOn_place {ld : ℤ} (hc : Function.Injective c) (hld : M ≤ ld) : Set.InjOn (place c ld) (rect M N) := by
  obtain ⟨ld, rfl⟩ := Int.eq_ofNat_of_zero_le ((Int.natCast_nonneg M).trans hld)
  intro k hk k' hk' heq
  have hle : M ≤ ld := Int.ofNat_le.mp hld
  have hsum : k.1 + k.2 * ld = k'.1 + k'.2 * ld := by exact_mod_cast hc heq
  obtain ⟨hfst, hsnd⟩ := add_mul_inj (hk.1.trans_le hle) (hk'.1.trans_le hle) hsum
  exact Prod.ext hfst hsnd

section Slots

variable {t : Grid} {k k' : ℕ × ℕ} {kk kk' : ℕ}

theorem Grid.slot_add (t : Grid) {m n i j : ℕ} (hi : i < t.MB) (hj : j < t.NB) (kk : ℕ) :
    t.slot (t.MB * m + i, t.NB * n + j) kk =
      t.MB * t.NB * ((m + t.nthrM * n) * (t.nthrK - 1) + kk - 1) + (i + j * t.MB) := by
  unfold Grid.slot
  dsimp only
  rw [Nat.mul_add_div (by omega), Nat.div_eq_of_lt hi, Nat.mul_add_mod, Nat.mod_eq_of_lt hi, Nat.mul_add_div (by omega),
    Nat.div_eq_of_lt hj, Nat.mul_add_mod, Nat.mod_eq_of_lt hj, Nat.add_zero, Nat.add_zero]

/-- The buffers of different parts of the result, and of `K`, are apart. -/
theorem Grid.slot_inj (hMB : 0 < t.MB) (hNB : 0 < t.NB) (hk : k.1 / t.MB < t.nthrM) (hk' : k'.1 / t.MB < t.nthrM)
    (hkk : kk ≠ 0 ∧ kk < t.nthrK) (hkk' : kk' ≠ 0 ∧ kk' < t.nthrK) (heq : t.slot k kk = t.slot k' kk') :
    k = k' ∧ kk = kk' := by
  have hoff : ∀ k : ℕ × ℕ, k.1 % t.MB + k.2 % t.NB * t.MB < t.NB * t.MB :=
    fun k => add_mul_lt (Nat.mod_lt _ hMB) (Nat.mod_lt _ hNB)
  have hslot : ∀ k kk, kk ≠ 0 → t.slot k kk = (k.1 % t.MB + k.2 % t.NB * t.MB) +
      ((kk - 1) + (k.1 / t.MB + k.2 / t.NB * t.nthrM) * (t.nthrK - 1)) * (t.NB * t.MB) := by
    intro k kk hne
    have hsucc : (k.1 / t.MB + t.nthrM * (k.2 / t.NB)) * (t.nthrK - 1) + kk - 1 =
        (kk - 1) + (k.1 / t.MB + k.2 / t.NB * t.nthrM) * (t.nthrK - 1) := by
      rw [Nat.mul_comm t.nthrM]
      omega
    unfold Grid.slot
    rw [hsucc]
    ring
  rw [hslot k kk hkk.1, hslot k' kk' hkk'.1] at heq
  obtain ⟨hsame, hbuf⟩ := add_mul_inj (hoff k) (hoff k') heq
  obtain ⟨hpart, hblock⟩ := add_mul_inj (by omega) (by omega) hbuf
  obtain ⟨hrow, hcol⟩ := add_mul_inj hk hk' hblock
  obtain ⟨hrow', hcol'⟩ := add_mul_inj (Nat.mod_lt _ hMB) (Nat.mod_lt _ hMB) hsame
  refine ⟨Prod.ext ?_ ?_, by omega⟩
  · rw [← Nat.div_add_mod k.1 t.MB, hrow, hrow', Nat.div_add_mod]
  · rw [← Nat.div_add_mod k.2 t.NB, hcol, hcol', Nat.div_add_mod]

theorem Grid.injOn_partPlace (hdiv : t.Divides M N K) (hldc : M ≤ ldc) :
    Set.InjOn (t.partPlace ldc) {x | x.1 ∈ rect M N ∧ x.2 < t.nthrK} := by
  intro x hx y hy heq
  unfold Grid.partPlace at heq
  split_ifs at heq with hzero hzero' hzero'
  · exact Prod.ext (injOn_place (fun _ _ h => Elem.c.inj h) hldc hx.1 hy.1 heq) (hzero.trans hzero'.symm)
  · unfold place at heq
    cases heq
  · unfold place at heq
    cases heq
  · obtain ⟨hk, hkk⟩ := Grid.slot_inj hdiv.rows.pos hdiv.cols.pos (hdiv.rows.div_lt hx.1.1) (hdiv.rows.div_lt hy.1.1)
      ⟨hzero, hx.2⟩ ⟨hzero', hy.2⟩ (Int.ofNat_inj.mp (Elem.buffer.inj heq))
    exact Prod.ext hk hkk

end Slots

/-! ## The first loop -/

section Loops

variable {g : Args R} {t : Grid} {ithr : ℕ} {mem mem' : Elem → R}

/-- The elements of a thread. -/
def Grid.part (t : Grid) (M N ithr : ℕ) : Set ((ℕ × ℕ) × ℕ) :=
  {x | x.1 ∈ rect M N ∧ x.1.1 / t.MB = t.ithrM ithr ∧ x.1.2 / t.NB = t.ithrN ithr ∧ x.2 = t.ithrK ithr}

/-- What a part of `K` makes of an element. -/
def partValue (g : Args R) (t : Grid) (x : (ℕ × ℕ) × ℕ) (v : R) : R :=
  g.alpha * ∑ q ∈ Finset.range (getThrBlock t.KB g.K x.2).2, g.a (matOff g.isTransA g.lda x.1.1 (t.KB * x.2 + q : ℕ)) *
    g.b (matOff g.isTransB g.ldb (t.KB * x.2 + q : ℕ) x.1.2) + (if x.2 = 0 then g.beta else 0) * v

omit [CommSemiring R] [DecidableEq R] in
theorem part_eq_image (hdiv : t.Divides g.M g.N g.K) (hithr : ithr < t.nthrMn * t.nthrK) : t.part g.M g.N ithr =
    Set.image (fun k : ℕ × ℕ => ((t.MB * t.ithrM ithr + k.1, t.NB * t.ithrN ithr + k.2), t.ithrK ithr))
      (rect (getThrBlock t.MB g.M (t.ithrM ithr)).2 (getThrBlock t.NB g.N (t.ithrN ithr)).2) := by
  have hrow := fun x => hdiv.rows.mem_iff (x := x) (Grid.ithrM_lt hithr)
  have hcol := fun x => hdiv.cols.mem_iff (x := x) (Grid.ithrN_lt hithr)
  ext x
  constructor
  · rintro ⟨⟨hi, hj⟩, hm, hn, hk⟩
    obtain ⟨hilow, hihigh⟩ := (hrow x.1.1).mpr ⟨hi, hm⟩
    obtain ⟨hjlow, hjhigh⟩ := (hcol x.1.2).mpr ⟨hj, hn⟩
    refine ⟨(x.1.1 - t.MB * t.ithrM ithr, x.1.2 - t.NB * t.ithrN ithr), ⟨?_, ?_⟩, ?_⟩
    · exact Nat.sub_lt_left_of_lt_add hilow hihigh
    · exact Nat.sub_lt_left_of_lt_add hjlow hjhigh
    · exact Prod.ext (Prod.ext (Nat.add_sub_cancel' hilow) (Nat.add_sub_cancel' hjlow)) hk.symm
  · rintro ⟨k, ⟨hi, hj⟩, rfl⟩
    obtain ⟨hi, hm⟩ := (hrow _).mp ⟨Nat.le_add_right _ _, Nat.add_lt_add_left hi _⟩
    obtain ⟨hj, hn⟩ := (hcol _).mp ⟨Nat.le_add_right _ _, Nat.add_lt_add_left hj _⟩
    exact ⟨⟨hi, hj⟩, hm, hn, rfl⟩

/-- A thread computes its part. -/
theorem compute_updates (hdiv : t.Divides g.M g.N g.K) (halpha : g.alpha ≠ 0) (hldc : g.M ≤ g.ldc)
    (hithr : ithr < t.nthrMn * t.nthrK) (doCopy : Bool) :
    Updates (t.part g.M g.N ithr) (t.partPlace g.ldc) (partValue g t) (compute g t doCopy ithr) := by
  have hm := Grid.ithrM_lt hithr
  have hn := Grid.ithrN_lt hithr
  have hk := Grid.ithrK_lt hithr
  have hpart := part_eq_image hdiv hithr
  have hMle := Blocks.size_le t.MB g.M (t.ithrM ithr)
  have hNle := Blocks.size_le t.NB g.N (t.ithrN ithr)
  have hMend := hdiv.rows.end_le hm
  unfold compute
  dsimp only
  rw [if_pos ⟨hdiv.rows.size_pos hm, hdiv.cols.size_pos hn⟩, hpart]
  apply Updates.image
  refine ((gemmIthr_updates halpha (hdiv.depth.size_pos hk) ?_ doCopy).congr_dst ?_).congr ?_
  · by_cases hzero : t.ithrK ithr = 0
    · simp only [hzero, if_true]
      refine injOn_place (fun z z' h => add_left_cancel (Elem.c.inj h)) ?_
      omega
    · simp only [hzero, if_false]
      refine injOn_place (fun z z' h => add_left_cancel (Elem.buffer.inj h)) ?_
      omega
  · intro k hk'
    have hi : k.1 < t.MB := hk'.1.trans_le hMle
    have hj : k.2 < t.NB := hk'.2.trans_le hNle
    unfold place Grid.partPlace place getThrBlock
    dsimp only
    split_ifs with hzero
    · exact congrArg Elem.c (by push_cast; ring)
    · rw [Grid.slot_add t hi hj]
      exact congrArg Elem.buffer (by unfold Grid.cbase; push_cast; ring)
  · intro k _ v
    exact product_shift (t.MB * t.ithrM ithr) (t.NB * t.ithrN ithr) (t.KB * t.ithrK ithr) k v

omit [CommSemiring R] [DecidableEq R] in
theorem mem_part (hdiv : t.Divides g.M g.N g.K) {k : ℕ × ℕ} (hk : k ∈ rect g.M g.N) (kk : ℕ) :
    (k, kk) ∈ t.part g.M g.N (t.thread (k.1 / t.MB) (k.2 / t.NB) kk) := by
  have hm := hdiv.rows.div_lt hk.1
  have hn := hdiv.cols.div_lt hk.2
  exact ⟨hk, (Grid.ithrM_thread hm hn).symm, (Grid.ithrN_thread hm hn).symm, (Grid.ithrK_thread hm hn).symm⟩

/-- What the first loop leaves. -/
theorem compute_step (hdiv : t.Divides g.M g.N g.K) (halpha : g.alpha ≠ 0) (hldc : g.M ≤ g.ldc) {doCopy : Bool}
    (hstep : (⟨[t.nthrMn * t.nthrK], fun idx => compute g t doCopy (idx.getD 0 0)⟩ : Phase Elem R).Step mem mem') :
    (∀ k ∈ rect g.M g.N, ∀ kk < t.nthrK, mem' (t.partPlace g.ldc (k, kk)) =
      partValue g t (k, kk) (mem (t.partPlace g.ldc (k, kk)))) ∧
    ∀ z, (∀ k ∈ rect g.M g.N, .c z ≠ place .c g.ldc k) → mem' (.c z) = mem (.c z) := by
  have hown : ∀ idx ∈ digits [t.nthrMn * t.nthrK], ∃ ithr < t.nthrMn * t.nthrK, idx = [ithr] :=
    fun idx hidx => digits_singleton.mp hidx
  constructor
  · intro k hk kk hkk
    have hlt := Grid.thread_lt (hdiv.rows.div_lt hk.1) (hdiv.cols.div_lt hk.2) hkk
    refine Phase.Step.of_updates (fun idx => t.part g.M g.N (idx.getD 0 0)) hstep (Grid.injOn_partPlace hdiv hldc) ?_ ?_ ?_
      (digits_singleton.mpr ⟨_, hlt, rfl⟩) (mem_part hdiv hk kk)
    · intro idx hidx x hx
      obtain ⟨ithr, hithr, rfl⟩ := hown idx hidx
      exact ⟨hx.1, hx.2.2.2 ▸ Grid.ithrK_lt hithr⟩
    · rintro idx hidx idx' hidx' hne x ⟨-, hm, hn, hk⟩ ⟨-, hm', hn', hk'⟩
      obtain ⟨ithr, hithr, rfl⟩ := hown idx hidx
      obtain ⟨ithr', hithr', rfl⟩ := hown idx' hidx'
      refine hne (congrArg (fun ithr => [ithr]) ?_)
      have hthread := t.thread_ithr ithr
      rw [← t.thread_ithr ithr, ← t.thread_ithr ithr']
      exact congr (congr (congrArg t.thread (hm.symm.trans hm')) (hn.symm.trans hn')) (hk.symm.trans hk')
    · intro idx hidx
      obtain ⟨ithr, hithr, rfl⟩ := hown idx hidx
      exact compute_updates hdiv halpha hldc hithr doCopy
  · intro z hz
    apply hstep.of_ne
    intro idx hidx e he heq
    obtain ⟨ithr, hithr, rfl⟩ := hown idx hidx
    obtain ⟨x, hx, hdst⟩ := (compute_updates hdiv halpha hldc hithr doCopy).frame e he
    rw [heq] at hdst
    unfold Grid.partPlace at hdst
    split_ifs at hdst
    exact hz x.1 hx.1 hdst

/-! ## The second loop -/

section Parts

variable {n nthr x : ℕ}

/-- The part that an element is in. -/
theorem partitionUnitDiff_mem (ithr nthr n x : ℕ) :
    ((partitionUnitDiff ithr nthr n).1 ≤ x ∧ x < (partitionUnitDiff ithr nthr n).1 + (partitionUnitDiff ithr nthr n).2) ↔
      x < n ∧ bandStart (if n / nthr = 0 then 1 else n / nthr) (n - (if n / nthr = 0 then 1 else n / nthr) * nthr) ithr ≤ x ∧
        x < bandStart (if n / nthr = 0 then 1 else n / nthr) (n - (if n / nthr = 0 then 1 else n / nthr) * nthr)
          (ithr + 1) := by
  unfold partitionUnitDiff
  dsimp only
  generalize (if n / nthr = 0 then 1 else n / nthr) = band
  generalize n - band * nthr = tail
  rw [bandStart_succ]
  unfold bandStart
  have hmul : (band + 1) * ithr = band * ithr + ithr := by ring
  rw [hmul]
  split_ifs <;> dsimp only at * <;> omega

theorem exists_partitionUnitDiff (hnthr : 0 < nthr) (hx : x < n) : ∃ ithr < nthr, (partitionUnitDiff ithr nthr n).1 ≤ x ∧
    x < (partitionUnitDiff ithr nthr n).1 + (partitionUnitDiff ithr nthr n).2 := by
  have hdiv := Nat.div_add_mod n nthr
  have hmod := Nat.mod_lt n hnthr
  have hlast : x < bandStart (if n / nthr = 0 then 1 else n / nthr)
      (n - (if n / nthr = 0 then 1 else n / nthr) * nthr) nthr := by
    unfold bandStart
    split_ifs with hzero
    · rw [hzero] at hdiv
      omega
    · rw [Nat.mul_comm nthr] at hdiv
      omega
  obtain ⟨ithr, hithr, hband⟩ := exists_band (by rw [bandStart_zero]; omega) hlast
  exact ⟨ithr, hithr, (partitionUnitDiff_mem ithr nthr n x).mpr ⟨hx, hband⟩⟩

theorem partitionUnitDiff_unique {ithr ithr' : ℕ}
    (h : (partitionUnitDiff ithr nthr n).1 ≤ x ∧ x < (partitionUnitDiff ithr nthr n).1 + (partitionUnitDiff ithr nthr n).2)
    (h' : (partitionUnitDiff ithr' nthr n).1 ≤ x ∧
      x < (partitionUnitDiff ithr' nthr n).1 + (partitionUnitDiff ithr' nthr n).2) : ithr = ithr' :=
  band_unique (bandStart_mono _ _) ((partitionUnitDiff_mem ithr nthr n x).mp h).2
    ((partitionUnitDiff_mem ithr' nthr n x).mp h').2

end Parts

/-- Whether the element is in `c_buffers`. -/
def isBuffer : Elem → Bool
  | .c _ => false
  | .buffer _ => true

/-- The elements of the result to which a thread adds. -/
def Grid.sumPart (t : Grid) (M N ithr : ℕ) : Set (ℕ × ℕ) :=
  let part := partitionUnitDiff (t.ithrK ithr) t.nthrK (getThrBlock t.NB N (t.ithrN ithr)).2
  {k | k ∈ rect M N ∧ k.1 / t.MB = t.ithrM ithr ∧ k.2 / t.NB = t.ithrN ithr ∧
    part.1 ≤ k.2 % t.NB ∧ k.2 % t.NB < part.1 + part.2}

theorem partitionUnitDiff_le (ithr nthr n : ℕ) : (partitionUnitDiff ithr nthr n).1 + (partitionUnitDiff ithr nthr n).2 ≤ n := by
  unfold partitionUnitDiff
  dsimp only
  split_ifs <;> dsimp only at * <;> omega

omit [CommSemiring R] [DecidableEq R] in
theorem sumPart_eq_image (hdiv : t.Divides g.M g.N g.K) (hithr : ithr < t.nthrMn * t.nthrK) : t.sumPart g.M g.N ithr =
    {k | ∃ j ∈ List.range (partitionUnitDiff (t.ithrK ithr) t.nthrK (getThrBlock t.NB g.N (t.ithrN ithr)).2).2,
      ∃ i ∈ List.range (getThrBlock t.MB g.M (t.ithrM ithr)).2, k = (t.MB * t.ithrM ithr + i, t.NB * t.ithrN ithr +
        ((partitionUnitDiff (t.ithrK ithr) t.nthrK (getThrBlock t.NB g.N (t.ithrN ithr)).2).1 + j))} := by
  have hrow := fun x => hdiv.rows.mem_iff (x := x) (Grid.ithrM_lt hithr)
  have hcol := fun x => hdiv.cols.mem_iff (x := x) (Grid.ithrN_lt hithr)
  have hle := partitionUnitDiff_le (t.ithrK ithr) t.nthrK (getThrBlock t.NB g.N (t.ithrN ithr)).2
  have hNle := Blocks.size_le t.NB g.N (t.ithrN ithr)
  unfold Grid.sumPart
  dsimp only
  generalize partitionUnitDiff (t.ithrK ithr) t.nthrK (getThrBlock t.NB g.N (t.ithrN ithr)).2 = part at *
  ext k
  simp only [List.mem_range]
  constructor
  · rintro ⟨⟨hi, hj⟩, hm, hn, hlow, hhigh⟩
    obtain ⟨hilow, hihigh⟩ := (hrow k.1).mpr ⟨hi, hm⟩
    have hmod := Nat.div_add_mod k.2 t.NB
    rw [hn] at hmod
    refine ⟨k.2 % t.NB - part.1, by omega, k.1 - t.MB * t.ithrM ithr, Nat.sub_lt_left_of_lt_add hilow hihigh, ?_⟩
    exact Prod.ext (Nat.add_sub_cancel' hilow).symm (by dsimp only; omega)
  · rintro ⟨j, hj, i, hi, rfl⟩
    have hlt : part.1 + j < (getThrBlock t.NB g.N (t.ithrN ithr)).2 := by omega
    obtain ⟨hi, hm⟩ := (hrow _).mp ⟨Nat.le_add_right _ _, Nat.add_lt_add_left hi _⟩
    obtain ⟨hj, hn⟩ := (hcol _).mp ⟨Nat.le_add_right _ _, Nat.add_lt_add_left hlt _⟩
    have hmod : (t.NB * t.ithrN ithr + (part.1 + j)) % t.NB = part.1 + j := by
      rw [Nat.mul_add_mod, Nat.mod_eq_of_lt (hlt.trans_le hNle)]
    exact ⟨⟨hi, hj⟩, hm, hn, by dsimp only; omega, by dsimp only; omega⟩

omit [DecidableEq R] in
/-- A thread adds the buffers to its part of the columns. -/
theorem sumBuffers_updates (hdiv : t.Divides g.M g.N g.K) (hldc : g.M ≤ g.ldc) (hithr : ithr < t.nthrMn * t.nthrK) :
    Updates (t.sumPart g.M g.N ithr) (place .c g.ldc)
      (fun k v => v + ((List.range' 1 (t.nthrK - 1)).map fun kk => mem (.buffer (t.slot k kk))).sum)
      ((sumBuffers g t ithr).map (Assign.reading isBuffer mem)) := by
  have hset := sumPart_eq_image hdiv hithr
  have hMle := Blocks.size_le t.MB g.M (t.ithrM ithr)
  have hNle := Blocks.size_le t.NB g.N (t.ithrN ithr)
  have hle := partitionUnitDiff_le (t.ithrK ithr) t.nthrK (getThrBlock t.NB g.N (t.ithrN ithr)).2
  have hsub : t.sumPart g.M g.N ithr ⊆ rect g.M g.N := fun k hk => hk.1
  have hinj : Set.InjOn (place Elem.c g.ldc) (rect g.M g.N) := injOn_place (fun _ _ h => Elem.c.inj h) hldc
  unfold sumBuffers
  dsimp only
  rw [List.map_flatMap]
  refine updates_flatMap fun kk _ => ?_
  rw [List.map_flatMap]
  simp only [List.map_map, Function.comp_def]
  rw [hset] at hsub ⊢
  refine updates_loops List.nodup_range List.nodup_range ?_ hinj ?_ ?_ ?_ ?_
  · intro j i j' i' heq
    have hfst := congrArg Prod.fst heq
    have hsnd := congrArg Prod.snd heq
    dsimp only at hfst hsnd
    omega
  · exact fun j hj i hi => hsub ⟨j, hj, i, hi, rfl⟩
  · intro j _ i _
    exact congrArg Elem.c (by unfold getThrBlock; push_cast; ring)
  · exact fun j _ i _ m m' h => congrArg (fun v => v + _) h
  · intro j hj i hi v
    rw [List.mem_range] at hj hi
    have hslot := Grid.slot_add t (m := t.ithrM ithr) (n := t.ithrN ithr) (hi.trans_le hMle)
      (show (partitionUnitDiff (t.ithrK ithr) t.nthrK (getThrBlock t.NB g.N (t.ithrN ithr)).2).1 + j < t.NB by omega) kk
    refine congrArg (fun z => v + mem (.buffer z)) ?_
    rw [hslot]
    unfold Grid.cbase
    push_cast
    ring

omit [CommSemiring R] [DecidableEq R] in
/-- Every element is in the part of a thread. -/
theorem exists_sumPart (hdiv : t.Divides g.M g.N g.K) (hK : 0 < t.nthrK) {k : ℕ × ℕ} (hk : k ∈ rect g.M g.N) :
    ∃ ithr < t.nthrMn * t.nthrK, k ∈ t.sumPart g.M g.N ithr := by
  have hm := hdiv.rows.div_lt hk.1
  have hn := hdiv.cols.div_lt hk.2
  have hmem := (hdiv.cols.mem_iff hn).mpr ⟨hk.2, rfl⟩
  have hmod := Nat.div_add_mod k.2 t.NB
  have hlt : k.2 % t.NB < (getThrBlock t.NB g.N (k.2 / t.NB)).2 := by
    have hstart : (getThrBlock t.NB g.N (k.2 / t.NB)).1 = t.NB * (k.2 / t.NB) := rfl
    omega
  obtain ⟨kk, hkk, hpart⟩ := exists_partitionUnitDiff hK hlt
  refine ⟨t.thread (k.1 / t.MB) (k.2 / t.NB) kk, Grid.thread_lt hm hn hkk, ?_⟩
  unfold Grid.sumPart
  rw [Grid.ithrM_thread hm hn, Grid.ithrN_thread hm hn, Grid.ithrK_thread hm hn]
  exact ⟨hk, rfl, rfl, hpart⟩

omit [CommSemiring R] [DecidableEq R] in
theorem sumPart_disjoint {k : ℕ × ℕ} (hk : k ∈ t.sumPart g.M g.N ithr) {ithr' : ℕ} (hk' : k ∈ t.sumPart g.M g.N ithr') :
    ithr = ithr' := by
  obtain ⟨-, hm, hn, hpart⟩ := hk
  obtain ⟨-, hm', hn', hpart'⟩ := hk'
  rw [← hn] at hpart
  rw [← hn'] at hpart'
  have hK := partitionUnitDiff_unique hpart hpart'
  rw [← t.thread_ithr ithr, ← t.thread_ithr ithr', ← hm, ← hn, ← hm', ← hn', hK]

omit [DecidableEq R] in
/-- What the second loop leaves. -/
theorem sumBuffers_step (hdiv : t.Divides g.M g.N g.K) (hldc : g.M ≤ g.ldc) (hK : 0 < t.nthrK)
    (hstep : (⟨[t.nthrMn * t.nthrK], fun idx => sumBuffers g t (idx.getD 0 0)⟩ : Phase Elem R).Step mem mem') :
    (∀ k ∈ rect g.M g.N, mem' (place .c g.ldc k) =
      mem (place .c g.ldc k) + ((List.range' 1 (t.nthrK - 1)).map fun kk => mem (.buffer (t.slot k kk))).sum) ∧
    ∀ z, (∀ k ∈ rect g.M g.N, .c z ≠ place .c g.ldc k) → mem' (.c z) = mem (.c z) := by
  have hown : ∀ idx ∈ digits [t.nthrMn * t.nthrK], ∃ ithr < t.nthrMn * t.nthrK, idx = [ithr] :=
    fun idx hidx => digits_singleton.mp hidx
  have hdst : ∀ ithr, ∀ e ∈ sumBuffers g t ithr, isBuffer e.dst = false := by
    intro ithr e he
    obtain ⟨kk, -, he⟩ := List.mem_flatMap.mp he
    obtain ⟨j, -, he⟩ := List.mem_flatMap.mp he
    obtain ⟨i, -, rfl⟩ := List.mem_map.mp he
    rfl
  have hread := hstep.reading isBuffer fun idx _ => hdst (idx.getD 0 0)
  constructor
  · intro k hk
    obtain ⟨ithr, hithr, hpart⟩ := exists_sumPart hdiv hK hk
    refine Phase.Step.of_updates (fun idx => t.sumPart g.M g.N (idx.getD 0 0)) hread
      (f := fun k v => v + ((List.range' 1 (t.nthrK - 1)).map fun kk => mem (.buffer (t.slot k kk))).sum)
      (injOn_place (fun _ _ h => Elem.c.inj h) hldc) (fun idx _ k hk => hk.1) ?_ ?_ (digits_singleton.mpr ⟨_, hithr, rfl⟩)
      hpart
    · intro idx hidx idx' hidx' hne k hk hk'
      obtain ⟨ithr, -, rfl⟩ := hown idx hidx
      obtain ⟨ithr', -, rfl⟩ := hown idx' hidx'
      exact hne (congrArg (fun ithr => [ithr]) (sumPart_disjoint hk hk'))
    · intro idx hidx
      obtain ⟨ithr, hithr, rfl⟩ := hown idx hidx
      exact sumBuffers_updates hdiv hldc hithr
  · intro z hz
    apply hread.of_ne
    intro idx hidx e he heq
    obtain ⟨ithr, hithr, rfl⟩ := hown idx hidx
    obtain ⟨k, hk, hdst⟩ := (sumBuffers_updates hdiv hldc hithr).frame e he
    exact hz k hk.1 (heq.symm.trans hdst)

/-! ## All loops -/

omit [DecidableEq R] in
/-- The parts of `K` together. -/
theorem sum_parts (hdiv : t.Divides g.M g.N g.K) (hK : 0 < t.nthrK) (k : ℕ × ℕ) (v : R) (w : ℕ → R) :
    partValue g t (k, 0) v + ((List.range' 1 (t.nthrK - 1)).map fun kk => partValue g t (k, kk) (w kk)).sum =
      product g.isTransA g.isTransB g.K g.a g.lda g.b g.ldb g.alpha g.beta k v := by
  have hsum := hdiv.depth.sum_eq fun p =>
    g.a (matOff g.isTransA g.lda k.1 (p : ℕ)) * g.b (matOff g.isTransB g.ldb (p : ℕ) k.2)
  obtain ⟨n, hn⟩ : ∃ n, t.nthrK = n + 1 := ⟨t.nthrK - 1, by omega⟩
  have hothers : ∀ kk ∈ List.range' 1 n, partValue g t (k, kk) (w kk) = g.alpha *
      ∑ q ∈ Finset.range (getThrBlock t.KB g.K kk).2, g.a (matOff g.isTransA g.lda k.1 (t.KB * kk + q : ℕ)) *
        g.b (matOff g.isTransB g.ldb (t.KB * kk + q : ℕ) k.2) := by
    intro kk hkk
    rw [List.mem_range'_1] at hkk
    unfold partValue
    rw [if_neg (show ¬ kk = 0 by omega), zero_mul, add_zero]
  have hrange : List.range' 1 n = (List.range n).map (· + 1) := by
    rw [List.range'_eq_map_range]
    exact List.map_congr_left fun i _ => Nat.add_comm 1 i
  unfold product
  rw [hn, Nat.add_sub_cancel, List.map_congr_left hothers, List.sum_map_mul_left, hrange, sum_map_range, ← hsum, hn,
    Finset.sum_range_succ']
  unfold partValue
  rw [if_pos rfl]
  ring

omit [DecidableEq R] in
/-- What the loop over the bias leaves. -/
theorem bias_step (hldc : g.M ≤ g.ldc) (bias : ℕ → R)
    (hstep : (⟨[g.N, g.M], fun idx =>
      [Assign.add (.c (idx.getD 0 0 * g.ldc + idx.getD 1 0)) (bias (idx.getD 1 0))]⟩ : Phase Elem R).Step mem mem') :
    (∀ k ∈ rect g.M g.N, mem' (place .c g.ldc k) = mem (place .c g.ldc k) + bias k.1) ∧
    ∀ z, (∀ k ∈ rect g.M g.N, .c z ≠ place .c g.ldc k) → mem' (.c z) = mem (.c z) := by
  have hinj : Set.InjOn (place Elem.c g.ldc) (rect g.M g.N) := injOn_place (fun _ _ h => Elem.c.inj h) hldc
  have hplace : ∀ j i : ℕ, Elem.c (j * g.ldc + i) = place .c g.ldc (i, j) := fun j i => congrArg Elem.c (Int.add_comm _ _)
  constructor
  · intro k hk
    refine Phase.Step.of_updates (fun idx => {k | k = (idx.getD 1 0, idx.getD 0 0)}) hstep hinj
      (f := fun k v => v + bias k.1) ?_ ?_ ?_ (digits_pair.mpr ⟨k.2, hk.2, k.1, hk.1, rfl⟩) (show k = (k.1, k.2) from rfl)
    · rintro idx hidx k rfl
      obtain ⟨j, hj, i, hi, rfl⟩ := digits_pair.mp hidx
      exact ⟨hi, hj⟩
    · rintro idx hidx idx' hidx' hne k rfl heq
      obtain ⟨j, -, i, -, rfl⟩ := digits_pair.mp hidx
      obtain ⟨j', -, i', -, rfl⟩ := digits_pair.mp hidx'
      obtain ⟨hi, hj⟩ : i = i' ∧ j = j' := Prod.mk.inj heq
      exact hne (by rw [hi, hj])
    · intro idx hidx
      obtain ⟨j, hj, i, hi, rfl⟩ := digits_pair.mp hidx
      have hone : Updates {k | k ∈ [(i, j)]} (place Elem.c g.ldc) (fun k v => v + bias k.1)
          ([(i, j)].map fun k => Assign.add (place .c g.ldc k) (bias k.1)) :=
        updates_map (List.nodup_singleton _)
          (hinj.mono fun k hk => List.mem_singleton.mp hk ▸ (⟨hi, hj⟩ : (i, j) ∈ rect g.M g.N)) (fun _ _ => rfl)
          (fun _ _ => Assign.local_add _ _) fun _ _ _ => rfl
      rw [show {k | k ∈ [(i, j)]} = {k | k = (i, j)} from Set.ext fun k => List.mem_singleton] at hone
      dsimp only [List.getD_cons_zero, List.getD_cons_succ]
      rw [hplace]
      exact hone
  · intro z hz
    apply hstep.of_ne
    intro idx hidx e he heq
    obtain ⟨j, hj, i, hi, rfl⟩ := digits_pair.mp hidx
    obtain rfl := List.mem_singleton.mp he
    exact hz (i, j) ⟨hi, hj⟩ (heq.symm.trans (hplace j i))

/-- The product with the bias. -/
structure Args.Multiplies (g : Args R) (mem mem' : Elem → R) : Prop where
  window : ∀ i < g.M, ∀ j < g.N, mem' (.c (i + j * g.ldc)) =
    g.alpha * ∑ p ∈ Finset.range g.K, g.a (matOff g.isTransA g.lda i p) * g.b (matOff g.isTransB g.ldb p j) +
      g.beta * mem (.c (i + j * g.ldc)) + g.bias.elim 0 fun bias => bias i
  frame : ∀ z, (∀ i < g.M, ∀ j < g.N, z ≠ i + j * g.ldc) → mem' (.c z) = mem (.c z)

/-- Loops of any grid that divides the sizes compute the product. -/
theorem phases_multiply (hdiv : t.Divides g.M g.N g.K) (hK : 0 < t.nthrK) (halpha : g.alpha ≠ 0) (hldc : g.M ≤ g.ldc)
    (doCopy : Bool) (hruns : Runs (phases g t doCopy) mem mem') : g.Multiplies mem mem' := by
  obtain ⟨m₁, hcompute, hrest⟩ := hruns
  obtain ⟨hparts, hframe⟩ := compute_step hdiv halpha hldc hcompute
  obtain ⟨m₂, hsums, hbias⟩ := runs_append.mp hrest
  have hsum : (∀ k ∈ rect g.M g.N, m₂ (place .c g.ldc k) =
      m₁ (place .c g.ldc k) + ((List.range' 1 (t.nthrK - 1)).map fun kk => m₁ (.buffer (t.slot k kk))).sum) ∧
      ∀ z, (∀ k ∈ rect g.M g.N, .c z ≠ place .c g.ldc k) → m₂ (.c z) = m₁ (.c z) := by
    split_ifs at hsums with hmany
    · exact sumBuffers_step hdiv hldc hK (runs_singleton.mp hsums)
    · obtain rfl : m₂ = m₁ := hsums
      refine ⟨fun k _ => ?_, fun _ _ => rfl⟩
      rw [show t.nthrK - 1 = 0 by omega, List.range'_zero, List.map_nil, List.sum_nil, add_zero]
  have hlast : (∀ k ∈ rect g.M g.N, mem' (place .c g.ldc k) =
      m₂ (place .c g.ldc k) + g.bias.elim 0 fun bias => bias k.1) ∧
      ∀ z, (∀ k ∈ rect g.M g.N, .c z ≠ place .c g.ldc k) → mem' (.c z) = m₂ (.c z) := by
    cases hb : g.bias with
    | none =>
      rw [hb] at hbias
      obtain rfl : mem' = m₂ := hbias
      exact ⟨fun k _ => (add_zero _).symm, fun _ _ => rfl⟩
    | some bias =>
      rw [hb] at hbias
      exact bias_step hldc bias (runs_singleton.mp hbias)
  constructor
  · intro i hi j hj
    have hk : (i, j) ∈ rect g.M g.N := ⟨hi, hj⟩
    have hzero : ∀ v, v = t.partPlace g.ldc ((i, j), 0) → m₁ v = partValue g t ((i, j), 0) (mem v) := by
      rintro v rfl
      exact hparts (i, j) hk 0 hK
    have hbuffers : ∀ kk ∈ List.range' 1 (t.nthrK - 1), m₁ (.buffer (t.slot (i, j) kk)) =
        partValue g t ((i, j), kk) (mem (.buffer (t.slot (i, j) kk))) := by
      intro kk hkk
      rw [List.mem_range'_1] at hkk
      have hpart := hparts (i, j) hk kk (by omega)
      rwa [Grid.partPlace, if_neg (show ¬ kk = 0 by omega)] at hpart
    have htotal := sum_parts hdiv hK (i, j) (mem (place .c g.ldc (i, j))) fun kk => mem (.buffer (t.slot (i, j) kk))
    have hmem := hlast.1 (i, j) hk
    rw [hsum.1 (i, j) hk, hzero (place .c g.ldc (i, j)) rfl, List.map_congr_left hbuffers, htotal] at hmem
    exact hmem
  · intro z hz
    have hne : ∀ k ∈ rect g.M g.N, Elem.c z ≠ place .c g.ldc k := fun k hk heq => hz k.1 hk.1 k.2 hk.2 (Elem.c.inj heq)
    rw [hlast.2 z hne, hsum.2 z hne, hframe z hne]

end Loops

/-! ## `ref_gemm` -/

section Function

open GemmApi (checkGemmInput)
open GemmUtils (InRange NocopyThreads calcNthrNocopyAvx)

variable {args : GemmApi.Args 32} {t : NocopyThreads}

/-- The grid of the calculation divides the sizes, also without `c_buffers`. -/
theorem gridOf_divides {M N K nthrs : ℤ} (hM : 1 ≤ M) (hN : 1 ≤ N) (hK : 1 ≤ K) (ht : t.Sound M N K nthrs)
    (cBuffersFail : Bool) : (gridOf K t cBuffersFail).Divides M.toNat N.toNat K.toNat ∧ 0 < (gridOf K t cBuffersFail).nthrK := by
  have hblocks : ∀ {size w nthr : ℤ}, 1 ≤ size → 1 ≤ nthr → w * nthr ≥ size → (∀ i, 0 ≤ i → i < nthr → i * w < size) →
      Blocks w.toNat nthr.toNat size.toNat := by
    intro size w nthr hsize hnthr hcovers hstart
    obtain ⟨nthr, rfl⟩ := Int.eq_ofNat_of_zero_le (show 0 ≤ nthr by omega)
    obtain ⟨size, rfl⟩ := Int.eq_ofNat_of_zero_le (show 0 ≤ size by omega)
    have hw : 0 < w := by
      by_contra hle
      have hprod : w * nthr ≤ 0 := Int.mul_nonpos_of_nonpos_of_nonneg (not_lt.mp hle) (Int.natCast_nonneg nthr)
      omega
    obtain ⟨w, rfl⟩ := Int.eq_ofNat_of_zero_le hw.le
    simp only [Int.toNat_natCast]
    refine ⟨by omega, by exact_mod_cast hcovers, fun i hi => ?_⟩
    have hlt := hstart i (Int.natCast_nonneg i) (Int.ofNat_lt.mpr hi)
    rw [Nat.mul_comm]
    exact_mod_cast hlt
  have hdepth : Blocks t.KB.toNat t.nthrK.toNat K.toNat := by
    refine hblocks hK ht.pos.2.2 ht.coversK fun i hi hlt => ?_
    rcases ht.startK i hi hlt with h | h <;> omega
  unfold gridOf
  by_cases hfail : t.nthrK > 1 ∧ cBuffersFail = true
  · simp only [hfail, and_self, if_true]
    refine ⟨⟨hblocks hM ht.pos.1 ht.coversM ht.startM, hblocks hN ht.pos.2.1 ht.coversN ht.startN, ?_, ?_, ?_⟩, Nat.one_pos⟩
    · show 0 < K.toNat
      omega
    · show K.toNat ≤ K.toNat * 1
      omega
    · rintro i hi
      obtain rfl : i = 0 := Nat.lt_one_iff.mp hi
      show K.toNat * 0 < K.toNat
      omega
  · simp only [hfail, if_false]
    refine ⟨⟨hblocks hM ht.pos.1 ht.coversM ht.startM, hblocks hN ht.pos.2.1 ht.coversN ht.startN, hdepth⟩, ?_⟩
    have := ht.pos.2.2
    show 0 < t.nthrK.toNat
    omega

/-- `check_gemm_input` requires columns of at least `M` elements. -/
theorem le_ldc_of_check {withBias : Bool} (hcheck : checkGemmInput args withBias = .ok ()) :
    args.sizes.M.toInt ≤ args.sizes.ldc.toInt := by
  unfold checkGemmInput at hcheck
  dsimp only at hcheck
  generalize (if args.transa ∈ ['T', 't'] then args.sizes.K.toInt else args.sizes.M.toInt) = nrowA at hcheck
  generalize (if args.transb ∈ ['T', 't'] then args.sizes.N.toInt else args.sizes.K.toInt) = nrowB at hcheck
  split_ifs at hcheck with hbias hvalid hld
  obtain ⟨-, -, hc⟩ := hld
  omega

/-- Two threads on three rows and two columns, with a transposed `B`, a bias, and columns of four elements. -/
def transposedProduct : GemmApi.Args 32 :=
  ⟨'N', 'T', none, ⟨3, 2, 2, 3, 2, 4⟩, ⟨0x40000000⟩, 0, none, 0, none, ⟨0⟩, none⟩

end Function

end MklDnn.RefGemm
