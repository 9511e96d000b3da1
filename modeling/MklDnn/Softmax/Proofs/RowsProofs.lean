import Mathlib.Data.Set.Insert
import Mathlib.Order.Bounds.Basic
import MklDnn.Lib.Checks
import MklDnn.Softmax.RefSoftmax

/-!
# Proofs: the rows of the reference softmax

What one iteration does to its row: it assigns to every element of the row, or it fails.
-/

open LoopNest

namespace MklDnn.RefSoftmax

universe u

variable {R : Type*}

/-! ## Rows of a buffer -/

/-- The row of `n` elements from `base` on. -/
def rowSet (base : ℤ) (n : ℕ) : Set ℤ := {a | base ≤ a ∧ a < base + n}

/-- The buffer after an assignment to each element of a row. -/
def writeRow (base : ℤ) (n : ℕ) (v : ℕ → R) (b : Buffer R) : Buffer R :=
  fun a => if base ≤ a ∧ a < base + n then some (v (a - base).toNat) else b a

/-- All elements of the row are in the buffer. -/
def HasRow (b : Buffer R) (base : ℤ) (n : ℕ) : Prop := ∀ c < n, (b (base + c)).isSome

theorem add_mem_rowSet {base : ℤ} {n c : ℕ} (hc : c < n) : base + c ∈ rowSet base n :=
  ⟨by omega, by omega⟩

theorem mem_rowSet {base a : ℤ} {n : ℕ} : a ∈ rowSet base n ↔ ∃ c < n, a = base + c := by
  constructor
  · rintro ⟨hlo, hhi⟩
    exact ⟨(a - base).toNat, by omega, by omega⟩
  · rintro ⟨c, hc, rfl⟩
    exact add_mem_rowSet hc

theorem writeRow_add {base : ℤ} {n c : ℕ} (hc : c < n) (v : ℕ → R) (b : Buffer R) :
    writeRow base n v b (base + c) = some (v c) := by
  have hrow : base ≤ base + (c : ℤ) ∧ base + (c : ℤ) < base + n := add_mem_rowSet hc
  rw [writeRow, if_pos hrow, add_sub_cancel_left, Int.toNat_natCast]

theorem writeRow_of_notMem {base a : ℤ} {n : ℕ} (ha : a ∉ rowSet base n) (v : ℕ → R) (b : Buffer R) :
    writeRow base n v b a = b a :=
  if_neg ha

@[simp] theorem writeRow_zero (base : ℤ) (v : ℕ → R) (b : Buffer R) : writeRow base 0 v b = b := by
  funext a
  exact writeRow_of_notMem (fun ⟨hlo, hhi⟩ => by omega) v b

theorem writeRow_succ (base : ℤ) (n : ℕ) (v : ℕ → R) (b : Buffer R) :
    Function.update (writeRow base n v b) (base + n) (some (v n)) = writeRow base (n + 1) v b := by
  funext a
  by_cases ha : a = base + n
  · subst ha
    rw [Function.update_self, writeRow_add (Nat.lt_succ_self n)]
  · rw [Function.update_of_ne ha]
    unfold writeRow
    have hiff : (base ≤ a ∧ a < base + n) ↔ base ≤ a ∧ a < base + (n + 1 : ℕ) := by omega
    exact if_congr hiff rfl rfl

/-- The last assignments to a row count. -/
theorem writeRow_writeRow (base : ℤ) (n : ℕ) (u v : ℕ → R) (b : Buffer R) :
    writeRow base n v (writeRow base n u b) = writeRow base n v b := by
  funext a
  unfold writeRow
  split_ifs <;> rfl

theorem isSome_writeRow {base : ℤ} {n : ℕ} {b : Buffer R} (h : HasRow b base n) (v : ℕ → R) (a : ℤ) :
    (writeRow base n v b a).isSome = (b a).isSome := by
  by_cases ha : a ∈ rowSet base n
  · obtain ⟨c, hc, rfl⟩ := mem_rowSet.mp ha
    rw [writeRow_add hc, h c hc, Option.isSome_some]
  · rw [writeRow_of_notMem ha]

/-- Assignments to different rows can be made in either order. -/
theorem writeRow_comm {base base' : ℤ} {n : ℕ} (h : ∀ a ∈ rowSet base n, a ∉ rowSet base' n) (v v' : ℕ → R)
    (b : Buffer R) : writeRow base n v (writeRow base' n v' b) = writeRow base' n v' (writeRow base n v b) := by
  funext a
  by_cases ha : a ∈ rowSet base n
  · obtain ⟨c, hc, rfl⟩ := mem_rowSet.mp ha
    rw [writeRow_add hc, writeRow_of_notMem (h _ ha), writeRow_add hc]
  · by_cases ha' : a ∈ rowSet base' n
    · obtain ⟨c, hc, rfl⟩ := mem_rowSet.mp ha'
      rw [writeRow_of_notMem ha, writeRow_add hc, writeRow_add hc]
    · rw [writeRow_of_notMem ha, writeRow_of_notMem ha', writeRow_of_notMem ha', writeRow_of_notMem ha]

/-! ## Loops over the elements of a row -/

theorem store_of_isSome {b : Buffer R} {a : ℤ} (h : (b a).isSome) (v : R) :
    b.store a v = some (Function.update b a (some v)) :=
  if_pos h

/-- A loop that keeps a state and assigns to one element of the row after the other. -/
theorem foldlM_store {A : Type*} {n : ℕ} {base : ℤ} {f : A × Buffer R → ℕ → Option (A × Buffer R)} {h : A → ℕ → A}
    {v : ℕ → R} {b : Buffer R} (hrow : HasRow b base n)
    (hf : ∀ c < n, ∀ s b', b' (base + c) = b (base + c) →
      f (s, b') c = (b'.store (base + c) (v c)).map fun b' => (h s c, b')) (s : A) :
    (List.range n).foldlM f (s, b) = some ((List.range n).foldl h s, writeRow base n v b) := by
  -- after `k` elements, the rest of the row is as it was
  have hprefix : ∀ k ≤ n, (List.range k).foldlM f (s, b) = some ((List.range k).foldl h s, writeRow base k v b) := by
    intro k
    induction k with
    | zero => exact fun _ => congrArg some (Prod.ext rfl (writeRow_zero base v b).symm)
    | succ k ih =>
      intro hk
      have hsame : writeRow base k v b (base + k) = b (base + k) := writeRow_of_notMem (fun ⟨_, hhi⟩ => by omega) v b
      have hsome : (writeRow base k v b (base + k)).isSome := hsame ▸ hrow k hk
      rw [List.range_succ, List.foldlM_append, ih (by omega), List.foldl_append]
      simp only [Option.bind_eq_bind, Option.bind_some, List.foldlM_cons, List.foldlM_nil, List.foldl_cons,
        List.foldl_nil]
      rw [hf k hk _ _ hsame, store_of_isSome hsome, writeRow_succ]
      rfl
  exact hprefix n le_rfl

/-- A loop that assigns to one element of the row after the other. -/
theorem foldlM_write {n : ℕ} {base : ℤ} {f : Buffer R → ℕ → Option (Buffer R)} {v : ℕ → R} {b : Buffer R}
    (hrow : HasRow b base n) (hf : ∀ c < n, ∀ b', b' (base + c) = b (base + c) → f b' c = b'.store (base + c) (v c)) :
    (List.range n).foldlM f b = some (writeRow base n v b) := by
  have hprefix : ∀ k ≤ n, (List.range k).foldlM f b = some (writeRow base k v b) := by
    intro k
    induction k with
    | zero => exact fun _ => congrArg some (writeRow_zero base v b).symm
    | succ k ih =>
      intro hk
      have hsame : writeRow base k v b (base + k) = b (base + k) := writeRow_of_notMem (fun ⟨_, hhi⟩ => by omega) v b
      have hsome : (writeRow base k v b (base + k)).isSome := hsame ▸ hrow k hk
      rw [List.range_succ, List.foldlM_append, ih (by omega)]
      simp only [Option.bind_eq_bind, Option.bind_some, List.foldlM_cons, List.foldlM_nil]
      rw [hf k hk _ hsame, store_of_isSome hsome, writeRow_succ]
      rfl
  exact hprefix n le_rfl

theorem assignRow_range {n : ℕ} {base : ℤ} {g : ℕ → Buffer R → Option R} {v : ℕ → R} {b : Buffer R}
    (hrow : HasRow b base n) (hg : ∀ c < n, ∀ b', b' (base + c) = b (base + c) → g c b' = some (v c)) :
    assignRow (List.range n) base g b = some (writeRow base n v b) := by
  refine foldlM_write hrow fun c hc b' hb' => ?_
  rw [hg c hc b' hb']
  rfl

theorem bind_of_some {α β : Type u} {x : Option α} {a : α} (h : x = some a) (f : α → Option β) : (x >>= f) = f a := by
  rw [h]
  rfl

/-- A loop all steps of which succeed. -/
theorem foldlM_some {α β : Type*} {l : List α} {f : β → α → Option β} {g : β → α → β}
    (h : ∀ a ∈ l, ∀ b, f b a = some (g b a)) (b : β) : l.foldlM f b = some (l.foldl g b) := by
  induction l generalizing b with
  | nil => rfl
  | cons a l ih =>
    rw [List.foldlM_cons, h a List.mem_cons_self, List.foldl_cons]
    exact ih (fun a' ha' => h a' (List.mem_cons_of_mem a ha')) _

/-! ## Which elements a loop assigns to -/

/-- The second buffer comes from the first one by assignments to the elements `ws`. -/
structure Assigns (ws : Set ℤ) (b b' : Buffer R) : Prop where
  isSome_of_mem : ∀ a ∈ ws, (b a).isSome
  isSome_eq : ∀ a, (b' a).isSome = (b a).isSome
  frame : ∀ a ∉ ws, b' a = b a

namespace Assigns

theorem refl (b : Buffer R) : Assigns ∅ b b where
  isSome_of_mem := fun _ ha => absurd ha (Set.notMem_empty _)
  isSome_eq := fun _ => rfl
  frame := fun _ _ => rfl

theorem trans {ws ws' : Set ℤ} {b b' b'' : Buffer R} (h : Assigns ws b b') (h' : Assigns ws' b' b'') :
    Assigns (ws ∪ ws') b b'' where
  isSome_of_mem := by
    rintro a (ha | ha)
    · exact h.isSome_of_mem a ha
    · rw [← h.isSome_eq]
      exact h'.isSome_of_mem a ha
  isSome_eq := fun a => (h'.isSome_eq a).trans (h.isSome_eq a)
  frame := fun a ha => by
    rw [h'.frame a fun hmem => ha (Or.inr hmem), h.frame a fun hmem => ha (Or.inl hmem)]

theorem of_store {b b' : Buffer R} {a : ℤ} {v : R} (h : b.store a v = some b') : Assigns {a} b b' := by
  unfold Buffer.store at h
  split_ifs at h with hsome
  obtain rfl := Option.some.inj h
  refine { isSome_of_mem := ?_, isSome_eq := fun x => ?_, frame := fun x hx => Function.update_of_ne hx _ _ }
  · rintro x rfl
    exact hsome
  · by_cases hx : x = a
    · subst hx
      rw [Function.update_self, hsome, Option.isSome_some]
    · rw [Function.update_of_ne hx]

/-- A loop assigns to what its iterations assign to. -/
theorem foldlM {α β : Type*} {l : List α} {f : β → α → Option β} (buf : β → Buffer R) {ws : α → Set ℤ}
    (hf : ∀ x ∈ l, ∀ s s', f s x = some s' → Assigns (ws x) (buf s) (buf s')) {s s' : β}
    (h : l.foldlM f s = some s') : Assigns {a | ∃ x ∈ l, a ∈ ws x} (buf s) (buf s') := by
  induction l generalizing s with
  | nil =>
    obtain rfl := Option.some.inj h
    have hempty : {a | ∃ x ∈ ([] : List α), a ∈ ws x} = ∅ := by simp
    exact hempty ▸ refl _
  | cons x l ih =>
    rw [List.foldlM_cons] at h
    obtain ⟨s₁, hx, hl⟩ := Option.bind_eq_some_iff.mp h
    have hunion : {a | ∃ y ∈ x :: l, a ∈ ws y} = ws x ∪ {a | ∃ y ∈ l, a ∈ ws y} := by
      ext a
      simp
    rw [hunion]
    exact (hf x List.mem_cons_self s s₁ hx).trans (ih (fun y hy => hf y (List.mem_cons_of_mem x hy)) hl)

theorem of_assignRow {n : ℕ} {base : ℤ} {g : ℕ → Buffer R → Option R} {b b' : Buffer R}
    (h : assignRow (List.range n) base g b = some b') : Assigns (rowSet base n) b b' := by
  have hset : rowSet base n = {a | ∃ c ∈ List.range n, a ∈ ({base + (c : ℤ)} : Set ℤ)} := by
    ext a
    simp [mem_rowSet]
  rw [hset]
  refine foldlM id (fun c _ s s' hs => ?_) h
  obtain ⟨v, -, hstore⟩ := Option.bind_eq_some_iff.mp hs
  exact of_store hstore

end Assigns

/-! ## The maximum of a row -/

section Max

variable [LinearOrder R]

/-- The greatest of the values before a loop and of those of the loop. -/
theorem isGreatest_foldl_max {α : Type*} (w : α → R) (l : List α) (a : R) :
    IsGreatest {y | y = a ∨ ∃ i ∈ l, w i = y} (l.foldl (fun m i => max m (w i)) a) := by
  induction l generalizing a with
  | nil => exact ⟨Or.inl rfl, by rintro y (rfl | ⟨i, hi, -⟩); exacts [le_rfl, absurd hi List.not_mem_nil]⟩
  | cons i l ih =>
    obtain ⟨hmem, hub⟩ := ih (max a (w i))
    rw [List.foldl_cons]
    refine ⟨?_, ?_⟩
    · rcases hmem with heq | ⟨j, hj, heq⟩
      · rw [heq]
        rcases max_choice a (w i) with h | h
        · exact Or.inl h
        · exact Or.inr ⟨i, List.mem_cons_self, h.symm⟩
      · exact Or.inr ⟨j, List.mem_cons_of_mem i hj, heq⟩
    · have hstart : max a (w i) ≤ l.foldl (fun m i => max m (w i)) (max a (w i)) := hub (Or.inl rfl)
      rintro y (rfl | ⟨j, hj, rfl⟩)
      · exact (le_max_left _ _).trans hstart
      · rcases List.mem_cons.mp hj with rfl | hj
        · exact (le_max_right _ _).trans hstart
        · exact hub (Or.inr ⟨j, hj, rfl⟩)

/-- `m` is the maximum of the `n` values. -/
def IsMax (n : ℕ) (w : ℕ → R) (m : R) : Prop := IsGreatest {y | ∃ i < n, w i = y} m

variable {n : ℕ} {x : ℕ → Option R} {w : ℕ → R}

/-- Below the unrolling, the loop starts with the first element. -/
theorem maxRow_short (hn : 0 < n) (hshort : n < unrollFactor) (hx : ∀ i < n, x i = some (w i)) :
    ∃ m, maxRow n x = some m ∧ IsMax n w m := by
  have hloop : (List.range' 1 (n - 1)).foldlM (fun maxVal i => do pure (max maxVal (← x i))) (w 0) =
      some ((List.range' 1 (n - 1)).foldl (fun m i => max m (w i)) (w 0)) := by
    refine foldlM_some (fun i hi b => ?_) _
    rw [hx i (by have := List.mem_range'_1.mp hi; omega)]
    rfl
  refine ⟨(List.range' 1 (n - 1)).foldl (fun m i => max m (w i)) (w 0), ?_, ?_⟩
  · unfold maxRow
    rw [if_pos hshort, hx 0 hn]
    exact hloop
  · have hset : {y | ∃ i < n, w i = y} = {y | y = w 0 ∨ ∃ i ∈ List.range' 1 (n - 1), w i = y} := by
      ext y
      simp only [Set.mem_ofPred_eq, List.mem_range'_1]
      constructor
      · rintro ⟨i, hi, rfl⟩
        rcases Nat.eq_zero_or_pos i with rfl | hpos
        · exact Or.inl rfl
        · exact Or.inr ⟨i, by omega, rfl⟩
      · rintro (rfl | ⟨i, hi, rfl⟩)
        · exact ⟨0, hn, rfl⟩
        · exact ⟨i, by omega, rfl⟩
    unfold IsMax
    rw [hset]
    exact isGreatest_foldl_max w _ _

/-- The first element of a block. The last block ends with the row. -/
def blockStart (n b : ℕ) : ℕ := min (b * unrollFactor) (n - unrollFactor)

/-- The elements that come to one of the unrolled maxima: every block has one, and each element is in a block. -/
theorem exists_block (hlong : unrollFactor ≤ n) {i : ℕ} (hi : i < n) :
    ∃ j < unrollFactor, i = j ∨ ∃ b ∈ List.range' 1 ((n - 1) / unrollFactor), i = blockStart n b + j := by
  unfold blockStart
  unfold unrollFactor at hlong ⊢
  rcases Nat.lt_or_ge i 32 with hfirst | hfirst
  · exact ⟨i, hfirst, Or.inl rfl⟩
  · refine ⟨i - min (i / 32 * 32) (n - 32), by omega, Or.inr ⟨i / 32, List.mem_range'_1.mpr (by omega), by omega⟩⟩

theorem blockStart_add_lt (hlong : unrollFactor ≤ n) (b : ℕ) {j : ℕ} (hj : j < unrollFactor) : blockStart n b + j < n := by
  unfold blockStart
  omega

/-- The unrolled maxima after the blocks `bs`. -/
def unrolledMax (w : ℕ → R) (n : ℕ) (bs : List ℕ) (j : ℕ) : R :=
  bs.foldl (fun m b => max m (w (blockStart n b + j))) (w j)

theorem foldlM_blocks (hlong : unrollFactor ≤ n) (hx : ∀ i < n, x i = some (w i)) (bs : List ℕ) :
    bs.foldlM (fun maxValues b => maxValues.zipIdx.mapM fun vj => do pure (max vj.1 (← x (blockStart n b + vj.2))))
        ((List.range unrollFactor).map w) =
      some ((List.range unrollFactor).map (unrolledMax w n bs)) := by
  induction bs using List.reverseRecOn with
  | nil => rfl
  | append_singleton bs b ih =>
    have hzip : ((List.range unrollFactor).map (unrolledMax w n bs)).zipIdx =
        (List.range unrollFactor).map fun j => (unrolledMax w n bs j, j) := by
      refine List.ext_getElem (by simp) fun i h₁ h₂ => ?_
      simp
    have hstep : ((List.range unrollFactor).map (unrolledMax w n bs)).zipIdx.mapM
          (fun vj => do pure (max vj.1 (← x (blockStart n b + vj.2)))) =
        some ((List.range unrollFactor).map (unrolledMax w n (bs ++ [b]))) := by
      rw [hzip, List.mapM_map]
      refine Checks.mapM_eq_some fun j hj => ?_
      rw [Function.comp, hx _ (blockStart_add_lt hlong b (List.mem_range.mp hj)), unrolledMax, unrolledMax, List.foldl_append]
      rfl
    rw [List.foldlM_append, ih, Option.bind_eq_bind, Option.bind_some, List.foldlM_cons, hstep]
    rfl

/-- From the unrolling on, there is one maximum for each place in a block. -/
theorem maxRow_long (hlong : unrollFactor ≤ n) (hx : ∀ i < n, x i = some (w i)) :
    ∃ m, maxRow n x = some m ∧ IsMax n w m := by
  set bs := List.range' 1 ((n - 1) / unrollFactor) with hbs
  have hfirst : (List.range unrollFactor).mapM x = some ((List.range unrollFactor).map w) :=
    Checks.mapM_eq_some fun j hj => hx j ((List.mem_range.mp hj).trans_le hlong)
  have hsplit : (List.range unrollFactor).map (unrolledMax w n bs) =
      unrolledMax w n bs 0 :: (List.range' 1 (unrollFactor - 1)).map (unrolledMax w n bs) := by
    rw [List.range_eq_range']
    rfl
  refine ⟨((List.range' 1 (unrollFactor - 1)).map (unrolledMax w n bs)).foldl max (unrolledMax w n bs 0), ?_, ?_⟩
  · unfold maxRow
    rw [if_neg (by omega), hfirst]
    have hblocks := foldlM_blocks hlong hx bs
    unfold blockStart at hblocks
    simp only [Option.bind_eq_bind, Option.bind_some] at hblocks ⊢
    rw [hblocks, hsplit]
    rfl
  · rw [List.foldl_map]
    have hgreatest := isGreatest_foldl_max (unrolledMax w n bs) (List.range' 1 (unrollFactor - 1)) (unrolledMax w n bs 0)
    obtain ⟨hmem, hub⟩ := hgreatest
    have hplace : ∀ j < unrollFactor, IsGreatest {y | y = w j ∨ ∃ b ∈ bs, w (blockStart n b + j) = y} (unrolledMax w n bs j) :=
      fun j _ => isGreatest_foldl_max (fun b => w (blockStart n b + j)) bs (w j)
    have hle : ∀ j < unrollFactor, unrolledMax w n bs j ≤ _ := fun j hj =>
      hub ((Nat.eq_zero_or_pos j).imp (fun h0 => by rw [h0]) fun hpos =>
        ⟨j, List.mem_range'_1.mpr (by unfold unrollFactor at hj ⊢; omega), rfl⟩)
    constructor
    · obtain ⟨j, hj, heq⟩ : ∃ j < unrollFactor, unrolledMax w n bs j =
          (List.range' 1 (unrollFactor - 1)).foldl (fun m j => max m (unrolledMax w n bs j)) (unrolledMax w n bs 0) := by
        rcases hmem with heq | ⟨j, hj, heq⟩
        · exact ⟨0, by decide, heq.symm⟩
        · exact ⟨j, by have := List.mem_range'_1.mp hj; unfold unrollFactor at this ⊢; omega, heq⟩
      rcases (hplace j hj).1 with hw | ⟨b, -, hw⟩
      · exact ⟨j, hj.trans_le hlong, hw.symm.trans heq⟩
      · exact ⟨_, blockStart_add_lt hlong b hj, hw.trans heq⟩
    · rintro y ⟨i, hi, rfl⟩
      obtain ⟨j, hj, heq | ⟨b, hb, heq⟩⟩ := exists_block hlong hi
      · exact ((hplace j hj).2 (Or.inl (by rw [heq]))).trans (hle j hj)
      · exact ((hplace j hj).2 (Or.inr ⟨b, hb, by rw [heq]⟩)).trans (hle j hj)

theorem maxRow_spec (hn : 0 < n) (hx : ∀ i < n, x i = some (w i)) : ∃ m, maxRow n x = some m ∧ IsMax n w m := by
  rcases Nat.lt_or_ge n unrollFactor with hshort | hlong
  · exact maxRow_short hn hshort hx
  · exact maxRow_long hlong hx

/-- A loop from a lower bound on finds the maximum, too. -/
theorem isMax_foldl (hn : 0 < n) {lowest : R} (hlow : ∀ i < n, lowest ≤ w i) :
    IsMax n w ((List.range n).foldl (fun m c => max m (w c)) lowest) := by
  obtain ⟨hmem, hub⟩ := isGreatest_foldl_max w (List.range n) lowest
  have hin : ∀ i < n, w i ≤ (List.range n).foldl (fun m c => max m (w c)) lowest :=
    fun i hi => hub (Or.inr ⟨i, List.mem_range.mpr hi, rfl⟩)
  refine ⟨?_, by rintro y ⟨i, hi, rfl⟩; exact hin i hi⟩
  rcases hmem with heq | ⟨i, hi, heq⟩
  · exact ⟨0, hn, le_antisymm (hin 0 hn) (heq.le.trans (hlow 0 hn))⟩
  · exact ⟨i, List.mem_range.mp hi, heq⟩

end Max

/-- The loops of `_sub` run through the row in order. -/
theorem subIdxs_eq_range (n : ℕ) : subIdxs n = List.range n := by
  have hblocks : ((List.range (n / unrollFactor)).flatMap fun b => (List.range unrollFactor).map fun j => b * unrollFactor + j) =
      List.range (n / unrollFactor * unrollFactor) := by
    have h := flatMap_range_mul (n / unrollFactor) unrollFactor fun i => [i]
    simp only [List.flatMap_singleton'] at h
    rw [h]
    refine List.flatMap_congr fun b _ => ?_
    rw [List.map_eq_flatMap]
  have htail : n - n % unrollFactor = n / unrollFactor * unrollFactor := by
    have := Nat.div_add_mod' n unrollFactor
    omega
  unfold subIdxs
  dsimp only
  rw [hblocks, htail]
  conv_rhs => rw [← Nat.div_add_mod' n unrollFactor, List.range_add]
  rw [List.range'_eq_map_range]

/-! ## The forward pass of a row -/

section Forward

variable [Field R] (exp : R → R)

/-- The softmax of `n` values with the maximum `m`. -/
def softmaxRow (n : ℕ) (w : ℕ → R) (m : R) (c : ℕ) : R :=
  exp (w c - m) * (1 / (List.range n).foldl (fun tsum c => tsum + exp (w c - m)) 0)

variable [LinearOrder R] {exp} {n : ℕ} {base : ℤ} {src dst : Buffer R} {w : ℕ → R} {m : R}

theorem forwardDenseRow_eq (hn : 0 < n) (hsrc : ∀ c < n, src (base + c) = some (w c)) (hm : IsMax n w m)
    (hdst : HasRow dst base n) :
    forwardDenseRow exp n base src dst = some (writeRow base n (softmaxRow exp n w m) dst) := by
  obtain ⟨m', hmax, hm'⟩ := maxRow_spec hn hsrc
  obtain rfl : m = m' := IsGreatest.unique hm hm'
  have hkeep : ∀ (v : ℕ → R) (b : Buffer R), HasRow b base n → HasRow (writeRow base n v b) base n :=
    fun v b hb c hc => (isSome_writeRow hb v _).trans (hb c hc)
  have hsub : assignRow (subIdxs n) base (fun i _ => do pure ((← src (base + i)) - m)) dst =
      some (writeRow base n (fun c => w c - m) dst) := by
    rw [subIdxs_eq_range]
    refine assignRow_range hdst fun c hc b' _ => ?_
    rw [hsrc c hc]
    rfl
  have hexp : assignRow (List.range n) base (fun c dst => do pure (exp (← dst (base + c))))
      (writeRow base n (fun c => w c - m) dst) = some (writeRow base n (fun c => exp (w c - m)) dst) := by
    rw [← writeRow_writeRow base n (fun c => w c - m) (fun c => exp (w c - m)) dst]
    refine assignRow_range (hkeep _ _ hdst) fun c hc b' hb' => ?_
    rw [hb', writeRow_add hc]
    rfl
  have hsum : (List.range n).foldlM
      (fun tsum (c : ℕ) => do pure (tsum + (← writeRow base n (fun c => exp (w c - m)) dst (base + c)))) 0 =
      some ((List.range n).foldl (fun tsum c => tsum + exp (w c - m)) 0) := by
    refine foldlM_some (fun c hc tsum => ?_) _
    rw [writeRow_add (List.mem_range.mp hc)]
    rfl
  unfold forwardDenseRow
  rw [bind_of_some hmax, bind_of_some hsub, bind_of_some hexp, bind_of_some hsum,
    ← writeRow_writeRow base n (fun c => exp (w c - m)) (softmaxRow exp n w m) dst]
  refine assignRow_range (hkeep _ _ hdst) fun c hc b' hb' => ?_
  rw [hb', writeRow_add hc]
  rfl

theorem forwardDenseRow_assigns {dst' : Buffer R} (h : forwardDenseRow exp n base src dst = some dst') :
    Assigns (rowSet base n) dst dst' := by
  unfold forwardDenseRow at h
  obtain ⟨m, -, h⟩ := Option.bind_eq_some_iff.mp h
  obtain ⟨b₁, h₁, h⟩ := Option.bind_eq_some_iff.mp h
  obtain ⟨b₂, h₂, h⟩ := Option.bind_eq_some_iff.mp h
  obtain ⟨s, -, h₃⟩ := Option.bind_eq_some_iff.mp h
  rw [subIdxs_eq_range] at h₁
  have hall := ((Assigns.of_assignRow h₁).trans (Assigns.of_assignRow h₂)).trans (Assigns.of_assignRow h₃)
  rwa [Set.union_self, Set.union_self] at hall

/-- A row without elements has no first element to start the maximum with. -/
theorem forwardDenseRow_zero (hsrc : src base = none) : forwardDenseRow exp 0 base src dst = none := by
  have hmax : maxRow 0 (fun i => src (base + i)) = none := by
    have hfirst : src (base + (0 : ℕ)) = none := by
      rw [Nat.cast_zero, add_zero, hsrc]
    unfold maxRow
    rw [if_pos (by decide)]
    dsimp only
    rw [hfirst]
    rfl
  unfold forwardDenseRow
  rw [hmax]
  rfl

variable {pd : Pd} {lowest : R} {ou : ℕ}

/-- Without dimensions inside of the axis, the loops over `c` and `in` are one loop. -/
theorem channelsAndInner_eq (hin : pd.innerSize = 1) : channelsAndInner pd = (List.range pd.axisSize).map fun c => (c, 0) := by
  unfold channelsAndInner
  rw [hin, List.map_eq_flatMap]
  rfl

omit [Field R] [LinearOrder R] in
/-- A loop that goes on with one entry of an array. -/
theorem foldl_update_zero {α : Type*} (g : R → α → R) (l : List α) (f : ℕ → R) :
    l.foldl (fun s c => Function.update s 0 (g (s 0) c)) f 0 = l.foldl g (f 0) := by
  induction l generalizing f with
  | nil => rfl
  | cons c l ih => rw [List.foldl_cons, ih, Function.update_self, List.foldl_cons]

/-- Where the row of the generic path lies from `base` on, it gets the values of the dense path. -/
theorem forwardGenericRow_eq (hin : pd.innerSize = 1) (hn : 0 < pd.axisSize)
    (hoff : ∀ c < pd.axisSize, genericOff pd pd.dataDesc ou (c, 0) = base + c)
    (hsrc : ∀ c < pd.axisSize, src (base + c) = some (w c)) (hlow : ∀ c < pd.axisSize, lowest ≤ w c)
    (hm : IsMax pd.axisSize w m) (hdst : HasRow dst base pd.axisSize) :
    forwardGenericRow exp pd lowest ou src dst =
      some (writeRow base pd.axisSize (softmaxRow exp pd.axisSize w m) dst) := by
  set n := pd.axisSize with hndef
  set spaceMax : ℕ → R := (List.range n).foldl (fun s c => Function.update s 0 (max (s 0) (w c))) fun _ => lowest
    with hspace
  have hspace0 : spaceMax 0 = m := by
    rw [hspace, foldl_update_zero fun x c => max x (w c)]
    exact IsGreatest.unique (isMax_foldl hn hlow) hm
  set denom : ℕ → R := (List.range n).foldl (fun s c => Function.update s 0 (s 0 + exp (w c - m))) fun _ => 0
    with hdenom
  have hdenom0 : denom 0 = (List.range n).foldl (fun tsum c => tsum + exp (w c - m)) 0 := by
    rw [hdenom, foldl_update_zero fun x c => x + exp (w c - m)]
  have hfirst : (channelsAndInner pd).foldlM
      (fun (spaceMax : ℕ → R) x => do
        pure (Function.update spaceMax x.2 (max (spaceMax x.2) (← src (genericOff pd pd.dataDesc ou x)))))
      (fun _ => lowest) = some spaceMax := by
    rw [channelsAndInner_eq hin, List.foldlM_map]
    refine foldlM_some (fun c hc s => ?_) _
    rw [hoff c (List.mem_range.mp hc), hsrc c (List.mem_range.mp hc)]
    rfl
  have hsecond : (channelsAndInner pd).foldlM
      (fun (st : (ℕ → R) × Buffer R) x => do
        let v := exp ((← src (genericOff pd pd.dataDesc ou x)) - spaceMax x.2)
        pure (Function.update st.1 x.2 (st.1 x.2 + v), ← st.2.store (genericOff pd pd.dataDesc ou x) v)) (fun _ => 0, dst) =
      some (denom, writeRow base n (fun c => exp (w c - m)) dst) := by
    rw [channelsAndInner_eq hin, List.foldlM_map]
    refine foldlM_store hdst (fun c hc s b' _ => ?_) _
    dsimp only
    rw [hoff c hc, bind_of_some (hsrc c hc), hspace0]
    cases b'.store (base + c) (exp (w c - m)) with
    | none => rfl
    | some b'' => rfl
  have hkeep : HasRow (writeRow base n (fun c => exp (w c - m)) dst) base n :=
    fun c hc => (isSome_writeRow hdst _ _).trans (hdst c hc)
  unfold forwardGenericRow
  dsimp only
  rw [bind_of_some hfirst, bind_of_some hsecond, channelsAndInner_eq hin, List.foldlM_map,
    ← writeRow_writeRow base n (fun c => exp (w c - m)) (softmaxRow exp n w m) dst]
  refine foldlM_write hkeep fun c hc b' hb' => ?_
  rw [hoff c hc, hb', bind_of_some (writeRow_add hc _ dst)]
  dsimp only
  rw [hdenom0, div_eq_mul_one_div, softmaxRow]

end Forward

/-! ## The backward pass of a row -/

section Backward

variable [Field R] {n : ℕ} {base : ℤ} {dst diffDst diffSrc : Buffer R} {y dy : ℕ → R}

/-- The gradient of a row of the softmax. -/
def gradRow (n : ℕ) (y dy : ℕ → R) (c : ℕ) : R :=
  y c * (dy c - (List.range n).foldl (fun sbr c => sbr + dy c * y c) 0)

theorem backwardDenseRow_eq (hdst : ∀ c < n, dst (base + c) = some (y c))
    (hdiff : ∀ c < n, diffDst (base + c) = some (dy c)) (hsrc : HasRow diffSrc base n) :
    backwardDenseRow n base dst diffDst diffSrc = some (writeRow base n (gradRow n y dy) diffSrc) := by
  have hfirst : (List.range n).foldlM
      (fun (st : R × Buffer R) (c : ℕ) => do
        let ldata ← dst (base + c)
        pure (st.1 + (← diffDst (base + c)) * ldata, ← st.2.store (base + c) ldata)) (0, diffSrc) =
      some ((List.range n).foldl (fun sbr c => sbr + dy c * y c) 0, writeRow base n y diffSrc) := by
    refine foldlM_store hsrc (fun c hc s b' _ => ?_) 0
    rw [bind_of_some (hdst c hc), bind_of_some (hdiff c hc)]
    cases b'.store (base + c) (y c) with
    | none => rfl
    | some b'' => rfl
  have hkeep : HasRow (writeRow base n y diffSrc) base n :=
    fun c hc => (isSome_writeRow hsrc y _).trans (hsrc c hc)
  unfold backwardDenseRow
  rw [bind_of_some hfirst, ← writeRow_writeRow base n y (gradRow n y dy) diffSrc]
  refine assignRow_range hkeep fun c hc b' hb' => ?_
  rw [hb', bind_of_some (writeRow_add hc y diffSrc), bind_of_some (hdiff c hc)]
  rfl

theorem backwardDenseRow_assigns {diffSrc' : Buffer R}
    (h : backwardDenseRow n base dst diffDst diffSrc = some diffSrc') : Assigns (rowSet base n) diffSrc diffSrc' := by
  unfold backwardDenseRow at h
  obtain ⟨st, hfirst, h⟩ := Option.bind_eq_some_iff.mp h
  have hset : {a | ∃ c ∈ List.range n, a ∈ ({base + (c : ℤ)} : Set ℤ)} = rowSet base n := by
    ext a
    simp [mem_rowSet]
  have hstores : Assigns {a | ∃ c ∈ List.range n, a ∈ ({base + (c : ℤ)} : Set ℤ)} diffSrc st.2 := by
    refine Assigns.foldlM Prod.snd (fun c _ s s' hs => ?_) hfirst
    obtain ⟨ldata, -, hs⟩ := Option.bind_eq_some_iff.mp hs
    obtain ⟨g, -, hs⟩ := Option.bind_eq_some_iff.mp hs
    obtain ⟨b', hstore, hs⟩ := Option.bind_eq_some_iff.mp hs
    obtain rfl := Option.some.inj hs
    exact Assigns.of_store hstore
  rw [hset] at hstores
  have hall := hstores.trans (Assigns.of_assignRow h)
  rwa [Set.union_self] at hall

variable {pd : Pd} {ou : ℕ}

theorem backwardGenericRow_eq (hdstOff : ∀ c < pd.axisSize, genericOff pd pd.dataDesc ou (c, 0) = base + c)
    (hdiffOff : ∀ c < pd.axisSize, genericOff pd pd.diffDesc ou (c, 0) = base + c)
    (hdst : ∀ c < pd.axisSize, dst (base + c) = some (y c)) (hdiff : ∀ c < pd.axisSize, diffDst (base + c) = some (dy c))
    (hsrc : HasRow diffSrc base pd.axisSize) :
    backwardGenericRow pd (ou, 0) dst diffDst diffSrc =
      some (writeRow base pd.axisSize (gradRow pd.axisSize y dy) diffSrc) := by
  have hsum : (List.range pd.axisSize).foldlM
      (fun sbr c => do
        pure (sbr + (← diffDst (genericOff pd pd.diffDesc ou (c, 0))) * (← dst (genericOff pd pd.dataDesc ou (c, 0))))) 0 =
      some ((List.range pd.axisSize).foldl (fun sbr c => sbr + dy c * y c) 0) := by
    refine foldlM_some (fun c hc sbr => ?_) _
    have hlt := List.mem_range.mp hc
    rw [hdstOff c hlt, hdiffOff c hlt, bind_of_some (hdiff c hlt), bind_of_some (hdst c hlt)]
    rfl
  unfold backwardGenericRow
  dsimp only
  rw [bind_of_some hsum]
  refine foldlM_write hsrc fun c hc b' _ => ?_
  rw [hdstOff c hc, hdiffOff c hc, bind_of_some (hdst c hc), bind_of_some (hdiff c hc)]
  rfl

end Backward

end MklDnn.RefSoftmax
