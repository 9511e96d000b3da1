import MklDnn.Reducer.CpuReducer

/-!
# Proofs: the driver of a reduction

However many elements the loops of the generated code handle at once, every element of the destination gets
the elements of the sources added to it, in the order of the sources.
-/

open Interleaving

namespace MklDnn.Reducer2dDriver

variable {A V : Type*} [Add V] [Zero V] {drv : Reducer2dDriver} {reg dst srcs : ℕ → A}

/-- The registers, the destination and the sources are different. -/
structure Separate (reg dst srcs : ℕ → A) : Prop where
  reg_inj : ∀ r r', reg r = reg r' → r = r'
  dst_inj : ∀ i i', dst i = dst i' → i = i'
  dst_ne_reg : ∀ i r, dst i ≠ reg r
  srcs_ne_reg : ∀ i r, srcs i ≠ reg r
  srcs_ne_dst : ∀ i j, srcs i ≠ dst j

/-- What the destination holds at `x` after the reduction. -/
def total (drv : Reducer2dDriver) (dst srcs : ℕ → A) (m : A → V) (x : ℕ) : V :=
  (List.range drv.nSrc).foldl (fun acc srcId => acc + m (srcs (srcId * drv.srcLd + x)))
    (if drv.nullifyDst then 0 else m (dst x))

/-- The program reduces the `n` elements from `off`. -/
structure Reduces [DecidableEq A] (drv : Reducer2dDriver) (reg dst srcs : ℕ → A) (off n : ℕ)
    (prog : List (Assign A V)) : Prop where
  value : ∀ m, ∀ x, off ≤ x → x < off + n → execAll prog m (dst x) = total drv dst srcs m x
  frame : ∀ e ∈ prog, (∃ r, e.dst = reg r) ∨ ∃ x, off ≤ x ∧ x < off + n ∧ e.dst = dst x
  stores : ∀ x, off ≤ x → x < off + n → ∃ e ∈ prog, e.dst = dst x
  reads : ∀ e ∈ prog, ∀ m m' : A → V, (∀ r, m (reg r) = m' (reg r)) →
    (∀ x, off ≤ x → x < off + n → m (dst x) = m' (dst x)) →
    (∀ srcId < drv.nSrc, ∀ x, off ≤ x → x < off + n →
      m (srcs (srcId * drv.srcLd + x)) = m' (srcs (srcId * drv.srcLd + x))) → e.value m = e.value m'

section

variable [DecidableEq A]

omit [DecidableEq A] in
theorem total_congr {m m' : A → V} {x : ℕ} (hdst : m (dst x) = m' (dst x))
    (hsrcs : ∀ i, m (srcs i) = m' (srcs i)) : total drv dst srcs m x = total drv dst srcs m' x := by
  unfold total
  rw [hdst]
  simp only [hsrcs]

theorem reduces_nil (off : ℕ) : Reduces (V := V) drv reg dst srcs off 0 [] where
  value := by
    intro m x hx hx'
    omega
  frame := by
    intro e he
    cases he
  stores := by
    intro x hx hx'
    omega
  reads := by
    intro e he
    cases he

/-- One part of the elements after the other. -/
theorem Reduces.append (h : Separate reg dst srcs) {off n n' : ℕ} {prog prog' : List (Assign A V)}
    (hprog : Reduces drv reg dst srcs off n prog) (hprog' : Reduces drv reg dst srcs (off + n) n' prog') :
    Reduces drv reg dst srcs off (n + n') (prog ++ prog') where
  value := by
    intro m x hx hx'
    rw [execAll_append]
    rcases Nat.lt_or_ge x (off + n) with hlow | hhigh
    · rw [execAll_of_ne, hprog.value m x hx hlow]
      intro e he heq
      rcases hprog'.frame e he with ⟨r, hr⟩ | ⟨y, hy, -, hdst⟩
      · exact h.dst_ne_reg x r (heq.symm.trans hr)
      · have := h.dst_inj _ _ (heq.symm.trans hdst)
        omega
    · rw [hprog'.value _ x hhigh (by omega)]
      apply total_congr
      · apply execAll_of_ne
        intro e he heq
        rcases hprog.frame e he with ⟨r, hr⟩ | ⟨y, -, hy, hdst⟩
        · exact h.dst_ne_reg x r (heq.symm.trans hr)
        · have := h.dst_inj _ _ (heq.symm.trans hdst)
          omega
      · intro i
        apply execAll_of_ne
        intro e he heq
        rcases hprog.frame e he with ⟨r, hr⟩ | ⟨y, -, -, hdst⟩
        · exact h.srcs_ne_reg i r (heq.symm.trans hr)
        · exact h.srcs_ne_dst i y (heq.symm.trans hdst)
  frame := by
    intro e he
    rcases List.mem_append.mp he with he | he
    · rcases hprog.frame e he with hreg | ⟨x, hx, hx', hdst⟩
      · exact Or.inl hreg
      · exact Or.inr ⟨x, hx, by omega, hdst⟩
    · rcases hprog'.frame e he with hreg | ⟨x, hx, hx', hdst⟩
      · exact Or.inl hreg
      · exact Or.inr ⟨x, by omega, by omega, hdst⟩
  stores := by
    intro x hx hx'
    rcases Nat.lt_or_ge x (off + n) with hlow | hhigh
    · obtain ⟨e, he, hdst⟩ := hprog.stores x hx hlow
      exact ⟨e, List.mem_append_left _ he, hdst⟩
    · obtain ⟨e, he, hdst⟩ := hprog'.stores x hhigh (by omega)
      exact ⟨e, List.mem_append_right _ he, hdst⟩
  reads := by
    intro e he m m' hreg hdst hsrcs
    rcases List.mem_append.mp he with he | he
    · apply hprog.reads e he m m' hreg
      · intro x hx hx'
        exact hdst x hx (by omega)
      · intro srcId hsrcId x hx hx'
        exact hsrcs srcId hsrcId x hx (by omega)
    · apply hprog'.reads e he m m' hreg
      · intro x hx hx'
        exact hdst x (by omega) (by omega)
      · intro srcId hsrcId x hx hx'
        exact hsrcs srcId hsrcId x (by omega) (by omega)

/-! ## One iteration -/

omit [Zero V] in
/-- The registers after the sources are accumulated. -/
theorem execAll_srcs (h : Separate reg dst srcs) (off n : ℕ) (l : List ℕ) (m : A → V) {r : ℕ} (hr : r < n) :
    execAll (l.flatMap fun srcId => (List.range n).map fun r =>
        (⟨reg r, fun m => m (reg r) + m (srcs (srcId * drv.srcLd + (off + r)))⟩ : Assign A V)) m (reg r) =
      l.foldl (fun acc srcId => acc + m (srcs (srcId * drv.srcLd + (off + r)))) (m (reg r)) := by
  induction l generalizing m with
  | nil => rfl
  | cons srcId l ih =>
    rw [List.flatMap_cons, execAll_append, ih, List.foldl_cons, execAll_map_range h.reg_inj _ m hr]
    · -- accumulating changes no source
      have hsrcs : ∀ i, execAll ((List.range n).map fun r =>
          (⟨reg r, fun m => m (reg r) + m (srcs (srcId * drv.srcLd + (off + r)))⟩ : Assign A V)) m (srcs i) =
            m (srcs i) := by
        intro i
        apply execAll_of_ne
        intro e he
        obtain ⟨r, -, rfl⟩ := List.mem_map.mp he
        exact (h.srcs_ne_reg i r).symm
      simp only [hsrcs]
    · intro r m m' hm
      have hreg : m (reg r) = m' (reg r) := hm (reg r) fun r' hne heq => hne (h.reg_inj _ _ heq)
      have hsrc : m (srcs (srcId * drv.srcLd + (off + r))) = m' (srcs (srcId * drv.srcLd + (off + r))) :=
        hm _ fun r' _ => (h.srcs_ne_reg _ r').symm
      rw [hreg, hsrc]

omit [DecidableEq A] in
theorem mem_block {off n : ℕ} {e : Assign A V} (he : e ∈ drv.block reg dst srcs off n) : ∃ r < n,
    (e = ⟨reg r, fun m => if drv.nullifyDst then 0 else m (dst (off + r))⟩ ∨
      (∃ srcId < drv.nSrc, e = ⟨reg r, fun m => m (reg r) + m (srcs (srcId * drv.srcLd + (off + r)))⟩) ∨
      e = ⟨dst (off + r), fun m => m (reg r)⟩) := by
  unfold block at he
  rw [List.mem_append, List.mem_append, List.mem_map, List.mem_flatMap, List.mem_map] at he
  rcases he with (⟨r, hr, rfl⟩ | ⟨srcId, hsrcId, he⟩) | ⟨r, hr, rfl⟩
  · exact ⟨r, List.mem_range.mp hr, Or.inl rfl⟩
  · obtain ⟨r, hr, rfl⟩ := List.mem_map.mp he
    exact ⟨r, List.mem_range.mp hr, Or.inr (Or.inl ⟨srcId, List.mem_range.mp hsrcId, rfl⟩)⟩
  · exact ⟨r, List.mem_range.mp hr, Or.inr (Or.inr rfl)⟩

theorem execAll_block (h : Separate reg dst srcs) (off n : ℕ) (m : A → V) {r : ℕ} (hr : r < n) :
    execAll (drv.block reg dst srcs off n) m (dst (off + r)) = total drv dst srcs m (off + r) := by
  have hstore : ∀ s s', dst (off + s) = dst (off + s') → s = s' := by
    intro s s' heq
    have := h.dst_inj _ _ heq
    omega
  unfold block
  rw [execAll_append, execAll_append, execAll_map_range hstore, execAll_srcs h off n _ _ hr,
    execAll_map_range h.reg_inj _ m hr]
  · -- loading changes no source
    have hsrcs : ∀ i, execAll ((List.range n).map fun r =>
        (⟨reg r, fun m => if drv.nullifyDst then 0 else m (dst (off + r))⟩ : Assign A V)) m (srcs i) =
          m (srcs i) := by
      intro i
      apply execAll_of_ne
      intro e he
      obtain ⟨r, -, rfl⟩ := List.mem_map.mp he
      exact (h.srcs_ne_reg i r).symm
    simp only [hsrcs]
    rfl
  · intro r m m' hm
    have hdst : m (dst (off + r)) = m' (dst (off + r)) := hm _ fun r' _ => (h.dst_ne_reg _ r').symm
    rw [hdst]
  · intro s m m' hm
    exact hm (reg s) fun s' _ => h.dst_ne_reg _ _
  · exact hr

theorem block_reduces (h : Separate reg dst srcs) (off n : ℕ) :
    Reduces (V := V) drv reg dst srcs off n (drv.block reg dst srcs off n) where
  value := by
    intro m x hx hx'
    obtain ⟨r, rfl⟩ : ∃ r, x = off + r := ⟨x - off, by omega⟩
    exact execAll_block h off n m (by omega)
  frame := by
    intro e he
    obtain ⟨r, hr, rfl | ⟨srcId, -, rfl⟩ | rfl⟩ := mem_block he
    · exact Or.inl ⟨r, rfl⟩
    · exact Or.inl ⟨r, rfl⟩
    · exact Or.inr ⟨off + r, by omega, by omega, rfl⟩
  stores := by
    intro x hx hx'
    refine ⟨⟨dst (off + (x - off)), fun m => m (reg (x - off))⟩, ?_, ?_⟩
    · apply List.mem_append_right
      exact List.mem_map.mpr ⟨x - off, List.mem_range.mpr (by omega), rfl⟩
    · show dst (off + (x - off)) = dst x
      rw [Nat.add_sub_cancel' hx]
  reads := by
    intro e he m m' hreg hdst hsrcs
    obtain ⟨r, hr, rfl | ⟨srcId, hsrcId, rfl⟩ | rfl⟩ := mem_block he
    · show (if drv.nullifyDst then 0 else m _) = if drv.nullifyDst then 0 else m' _
      rw [hdst (off + r) (by omega) (by omega)]
    · show m _ + m _ = m' _ + m' _
      rw [hreg r, hsrcs srcId hsrcId (off + r) (by omega) (by omega)]
    · exact hreg r

/-! ## The loops -/

theorem blocks_reduces (h : Separate reg dst srcs) (off n k : ℕ) : Reduces (V := V) drv reg dst srcs off (k * n)
    ((List.range k).flatMap fun i => drv.block reg dst srcs (off + i * n) n) := by
  induction k with
  | zero =>
    rw [Nat.zero_mul]
    exact reduces_nil off
  | succ k ih =>
    rw [List.range_succ, List.flatMap_append, Nat.succ_mul]
    apply ih.append h
    rw [List.flatMap_cons, List.flatMap_nil, List.append_nil]
    exact block_reduces h _ n

/-- The last loop handles one element at a time, so that nothing is left. -/
theorem loopsX_reduces (h : Separate reg dst srcs) {ns : List ℕ} (hns : 1 ∈ ns) (off nx : ℕ) :
    Reduces (V := V) drv reg dst srcs off nx (drv.loopsX reg dst srcs ns off nx) := by
  induction ns generalizing off nx with
  | nil => cases hns
  | cons n ns ih =>
    have hsplit : nx = nx / n * n + nx % n := (Nat.div_add_mod' nx n).symm
    have hblocks : Reduces (V := V) drv reg dst srcs off (nx / n * n) _ := blocks_reduces h off n (nx / n)
    rcases List.mem_cons.mp hns with rfl | hns
    · -- nothing is left for other loops
      have hrest : ∀ ns off, drv.loopsX (V := V) reg dst srcs ns off 0 = [] := by
        intro ns
        induction ns with
        | nil =>
          intro off
          rfl
        | cons n ns ih =>
          intro off
          unfold loopsX
          rw [Nat.zero_div, Nat.zero_mod, ih]
          rfl
      unfold loopsX
      rw [Nat.mod_one, hrest, List.append_nil]
      rw [Nat.div_one, Nat.mul_one] at hblocks
      rw [Nat.div_one]
      exact hblocks
    · have hrest := ih hns (off + nx / n * n) (nx % n)
      have happend := hblocks.append h hrest
      rw [← hsplit] at happend
      exact happend

theorem loopX_reduces (h : Separate reg dst srcs) (nx : ℕ) :
    Reduces (V := V) drv reg dst srcs 0 nx (drv.loopX reg dst srcs nx) := by
  apply loopsX_reduces h
  unfold nloads
  simp

end

end MklDnn.Reducer2dDriver
