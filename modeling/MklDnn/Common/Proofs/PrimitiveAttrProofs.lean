import MklDnn.Common.PrimitiveAttr

/-!
# Proofs: setters of attributes

A setter that refuses its arguments changes nothing. A setter that does not get memory has already written the
other fields, so it changes the attribute unless these were there before.
-/

namespace MklDnn.PrimitiveHashing

/-! ## One object -/

theorem Scales.set_result (count mask : ℤ) (scales : ℕ → F32) (allocated : Bool) :
    (Scales.set count mask scales allocated).2 = .ok () ↔ count = 1 ∨ allocated = true := by
  unfold Scales.set
  split_ifs <;> simp_all

theorem Scales.set_failed {count mask : ℤ} {scales : ℕ → F32} {allocated : Bool}
    (h : (Scales.set count mask scales allocated).2 ≠ .ok ()) :
    (Scales.set count mask scales allocated).1 = ⟨count, mask, none⟩ := by
  rw [Ne, Scales.set_result, not_or] at h
  unfold Scales.set
  rw [if_neg h.1, if_neg h.2]

theorem RnnTparams.set_result (t : RnnTparams) (mode : Bool) (ngates : ℤ) (scales : Option (ℕ → F32)) (cscale : F32)
    (allocated : Bool) : (t.set mode ngates scales cscale allocated).2 = .ok () ↔ scales = none ∨ allocated = true := by
  unfold RnnTparams.set
  cases scales with
  | none => simp
  | some scales => cases allocated <;> simp

theorem RnnTparams.set_failed {t : RnnTparams} {mode : Bool} {ngates : ℤ} {scales : Option (ℕ → F32)} {cscale : F32}
    {allocated : Bool} (h : (t.set mode ngates scales cscale allocated).2 ≠ .ok ()) :
    (t.set mode ngates scales cscale allocated).1 = ⟨mode, none, ngates, t.cscale⟩ := by
  rw [Ne, RnnTparams.set_result, not_or] at h
  obtain ⟨hscales, halloc⟩ := h
  unfold RnnTparams.set
  cases scales with
  | none => exact absurd rfl hscales
  | some scales => exact congrArg Prod.fst (if_neg halloc)

namespace PostOps

variable {p : PostOps}

theorem appendSum_atomic {scale : F32} (h : (p.appendSum scale).2 ≠ .ok ()) : (p.appendSum scale).1 = p := by
  unfold appendSum at h ⊢
  split_ifs at h ⊢ with hfull
  · rfl
  · exact absurd rfl h

theorem appendEltwise_atomic {scale alpha beta : F32} {alg : AlgKind}
    (h : (p.appendEltwise scale alg alpha beta).2 ≠ .ok ()) : (p.appendEltwise scale alg alpha beta).1 = p := by
  unfold appendEltwise at h ⊢
  split_ifs at h ⊢ with halg hfull
  · rfl
  · rfl
  · exact absurd rfl h

end PostOps

namespace PrimitiveAttr

variable {attr : PrimitiveAttr}

/-- Scales that do not get memory are lost, unless they were lost before. -/
theorem setScales_atomic_iff {put : Scales → PrimitiveAttr} {old : Scales} (hput : ∀ s, put s = attr ↔ old = s)
    {count mask : ℤ} {scales : Option (ℕ → F32)} {allocated : Bool} :
    ((attr.setScales put count mask scales allocated).2 ≠ .ok () →
        (attr.setScales put count mask scales allocated).1 = attr) ↔
      (scales.isSome → allocated = false → count > 1 → mask ≥ 0 → old = ⟨count, mask, none⟩) := by
  unfold setScales
  rcases scales with _ | scales
  · simp
  · dsimp only
    split_ifs with hvalid
    · dsimp only
      rw [hput]
      constructor
      · intro h _ halloc hcount _
        have hfail : (Scales.set count mask scales allocated).2 ≠ .ok () := by
          rw [Ne, Scales.set_result, halloc]
          simp [show count ≠ 1 by omega]
        rw [h hfail, Scales.set_failed hfail]
      · intro h hfail
        rw [Scales.set_failed hfail]
        rw [Ne, Scales.set_result, not_or] at hfail
        exact h rfl (Bool.eq_false_of_not_eq_true hfail.2) (by omega) hvalid.2
    · exact iff_of_true (fun _ => rfl) fun _ _ hcount hmask => absurd ⟨by omega, hmask⟩ hvalid

theorem setRnnTparams_atomic_iff {mode : Bool} {ngates : ℤ} {scales : Option (ℕ → F32)} {cscale : F32}
    {allocated : Bool} :
    ((attr.setRnnTparams mode ngates scales cscale allocated).2 ≠ .ok () →
        (attr.setRnnTparams mode ngates scales cscale allocated).1 = attr) ↔
      (scales.isSome → allocated = false → attr.rnnTparams = ⟨mode, none, ngates, attr.rnnTparams.cscale⟩) := by
  have hput : ∀ t, { attr with rnnTparams := t } = attr ↔ attr.rnnTparams = t :=
    fun t => ⟨fun h => (congrArg PrimitiveAttr.rnnTparams h).symm, fun h => by rw [← h]⟩
  unfold setRnnTparams
  dsimp only
  rw [hput]
  constructor
  · intro h hscales halloc
    have hfail : (attr.rnnTparams.set mode ngates scales cscale allocated).2 ≠ .ok () := by
      rw [Ne, RnnTparams.set_result, halloc, ← Option.not_isSome_iff_eq_none]
      simp [hscales]
    rw [h hfail, RnnTparams.set_failed hfail]
  · intro h hfail
    rw [RnnTparams.set_failed hfail]
    rw [Ne, RnnTparams.set_result, not_or, ← ne_eq, Option.ne_none_iff_isSome] at hfail
    exact h hfail.1 (Bool.eq_false_of_not_eq_true hfail.2)

end PrimitiveAttr

/-! ## The state -/

namespace AttrState

variable {st : AttrState}

/-- A call on an attribute is atomic if the function is, at that attribute. -/
theorem onAttr_atomic_iff {attr : Option ℕ} {f : PrimitiveAttr → PrimitiveAttr × Result} :
    ((st.onAttr attr f).2 ≠ .ok () → (st.onAttr attr f).1 = st) ↔
      ∀ i ∈ attr, (f (st.attr i)).2 ≠ .ok () → (f (st.attr i)).1 = st.attr i := by
  cases attr with
  | none => simp [onAttr]
  | some i =>
    have hstate : (⟨Function.update st.attr i (f (st.attr i)).1, st.postOps⟩ : AttrState) = st ↔
        (f (st.attr i)).1 = st.attr i := by
      constructor
      · intro h
        have hi : Function.update st.attr i (f (st.attr i)).1 i = st.attr i := congrFun (congrArg AttrState.attr h) i
        rwa [Function.update_self] at hi
      · intro h
        rw [h, Function.update_eq_self]
    simp [onAttr, hstate]

theorem onPostOps_atomic {postOps : Option ℕ} {f : PostOps → PostOps × Result}
    (hf : ∀ p, (f p).2 ≠ .ok () → (f p).1 = p) :
    (st.onPostOps postOps f).2 ≠ .ok () → (st.onPostOps postOps f).1 = st := by
  cases postOps with
  | none => exact fun _ => rfl
  | some i =>
    intro h
    show (⟨st.attr, Function.update st.postOps i (f (st.postOps i)).1⟩ : AttrState) = st
    rw [hf _ h, Function.update_eq_self]

/-- No allocation of the call fails, or the attribute has been left so already. -/
def Allocates (st : AttrState) : AttrCall → Prop
  | .setOutputScales attr count mask scales allocated =>
    ∀ i ∈ attr, scales.isSome → allocated = false → count > 1 → mask ≥ 0 →
      (st.attr i).outputScales = ⟨count, mask, none⟩
  | .setRnnWeightsQparams attr count mask scales allocated =>
    ∀ i ∈ attr, scales.isSome → allocated = false → count > 1 → mask ≥ 0 →
      (st.attr i).rnnWeightsQparams = ⟨count, mask, none⟩
  | .setRnnTparams attr mode ngates scales _ allocated =>
    ∀ i ∈ attr, scales.isSome → allocated = false →
      (st.attr i).rnnTparams = ⟨mode, none, ngates, (st.attr i).rnnTparams.cscale⟩
  | _ => True

/-- A call is atomic exactly if no allocation of it fails, apart from a repeated failure. -/
theorem atomic_iff (st : AttrState) (call : AttrCall) : st.Atomic call ↔ st.Allocates call := by
  cases call with
  | setScratchpadMode attr mode =>
    refine iff_of_true (onAttr_atomic_iff.mpr fun i _ => ?_) trivial
    cases mode with
    | none => exact fun _ => rfl
    | some mode => exact fun h => absurd rfl h
  | setOutputScales attr count mask scales allocated =>
    refine onAttr_atomic_iff.trans (forall_congr' fun i => forall_congr' fun _ => PrimitiveAttr.setScales_atomic_iff ?_)
    exact fun s => ⟨fun h => (congrArg PrimitiveAttr.outputScales h).symm, fun h => by rw [← h]⟩
  | setPostOps attr postOps =>
    refine iff_of_true ?_ trivial
    cases postOps with
    | none => exact fun _ => rfl
    | some i => exact onAttr_atomic_iff.mpr fun j _ h => absurd rfl h
  | setRnnDataQparams attr scale shift => exact iff_of_true (onAttr_atomic_iff.mpr fun i _ h => absurd rfl h) trivial
  | setRnnWeightsQparams attr count mask scales allocated =>
    refine onAttr_atomic_iff.trans (forall_congr' fun i => forall_congr' fun _ => PrimitiveAttr.setScales_atomic_iff ?_)
    exact fun s => ⟨fun h => (congrArg PrimitiveAttr.rnnWeightsQparams h).symm, fun h => by rw [← h]⟩
  | setRnnTparams attr mode ngates scales cscale allocated =>
    exact onAttr_atomic_iff.trans (forall_congr' fun i => forall_congr' fun _ => PrimitiveAttr.setRnnTparams_atomic_iff)
  | appendSum postOps scale => exact iff_of_true (onPostOps_atomic fun p => PostOps.appendSum_atomic) trivial
  | appendEltwise postOps scale alg alpha beta =>
    exact iff_of_true (onPostOps_atomic fun p => PostOps.appendEltwise_atomic) trivial

theorem along_congr {P Q : AttrState → AttrCall → Prop} (h : ∀ st call, P st call ↔ Q st call) (st : AttrState)
    (calls : List AttrCall) : Along P st calls ↔ Along Q st calls := by
  induction calls generalizing st with
  | nil => exact Iff.rfl
  | cons call calls ih => exact and_congr (h st call) (ih _)

/-- All calls of a sequence are atomic exactly if no allocation of them fails, apart from repeated failures. -/
theorem along_atomic_iff (st : AttrState) (calls : List AttrCall) :
    Along Atomic st calls ↔ Along Allocates st calls := along_congr atomic_iff st calls

/-- Two scales for which there is no memory: the attribute of a new program loses its scale. -/
theorem setOutputScales_not_atomic :
    ¬ ∀ calls, Along Atomic (created fun _ => ⟨.undefined, .undef, .zero, .zero, .zero, .zero⟩) calls := by
  intro h
  obtain ⟨hatomic, -⟩ := h [.setOutputScales (some 0) 2 0 (some fun _ => F32.one) false]
  have hstate := hatomic (by simp [step, onAttr, PrimitiveAttr.setOutputScales, PrimitiveAttr.setScales, Scales.set])
  have hscales : (none : Option (ℕ → F32)) = some fun _ => F32.one :=
    congrArg (fun st : AttrState => (st.attr 0).outputScales.scales) hstate
  exact Option.some_ne_none _ hscales.symm

end AttrState

end MklDnn.PrimitiveHashing
