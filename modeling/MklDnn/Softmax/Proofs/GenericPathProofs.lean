import Mathlib.Algebra.BigOperators.Field
import Mathlib.Algebra.Order.BigOperators.Group.Finset
import Mathlib.Analysis.SpecialFunctions.Exp
import MklDnn.Lib.Sums
import MklDnn.Softmax.Proofs.RefSoftmaxProofs

/-!
# Proofs: the generic path of the reference softmax

For every layout of the tensor and every axis, the generic path leaves the softmax along the axis, and the gradient of it.
-/

open LoopNest

namespace MklDnn.RefSoftmax

universe u

variable {R : Type u}

/-! ## Loops whose iterations assign to elements of their own -/

/-- Each iteration keeps what the others have reached at their elements. -/
theorem foldlM_phases {σ A α : Type*} {l : List α} (hnd : l.Nodup) {f : σ → α → Option σ} (get : σ → Buffer R) (acc : σ → A)
    {g : A → α → A} {W : α → Set ℤ} {Q : α → Buffer R → Prop} (hdisj : ∀ x ∈ l, ∀ y ∈ l, ∀ a ∈ W x, a ∈ W y → x = y)
    (hlocal : ∀ x ∈ l, ∀ b b', (∀ a ∈ W x, b' a = b a) → Q x b → Q x b') {s : σ}
    (hf : ∀ x ∈ l, ∀ s', (∀ a ∈ W x, get s' a = get s a) →
      ∃ s'', f s' x = some s'' ∧ acc s'' = g (acc s') x ∧ Q x (get s'') ∧ Assigns (W x) (get s') (get s'')) :
    ∃ s', l.foldlM f s = some s' ∧ acc s' = l.foldl g (acc s) ∧ (∀ x ∈ l, Q x (get s')) ∧
      Assigns {a | ∃ x ∈ l, a ∈ W x} (get s) (get s') := by
  induction l using List.reverseRecOn with
  | nil =>
    have hempty : {a | ∃ x ∈ ([] : List α), a ∈ W x} = ∅ := by simp
    exact ⟨s, rfl, rfl, List.forall_mem_nil _, hempty ▸ Assigns.refl _⟩
  | append_singleton l x ih =>
    have hleft : ∀ y ∈ l, y ∈ l ++ [x] := fun y hy => List.mem_append_left _ hy
    have hx : x ∈ l ++ [x] := List.mem_append_right _ List.mem_cons_self
    have hnew : x ∉ l := fun hmem => (List.nodup_append.mp hnd).2.2 x hmem x List.mem_cons_self rfl
    obtain ⟨s₁, hrun, hacc, hdone, hassigns⟩ := ih (List.nodup_append.mp hnd).1
      (fun y hy z hz => hdisj y (hleft y hy) z (hleft z hz)) (fun y hy => hlocal y (hleft y hy)) fun y hy => hf y (hleft y hy)
    have hkept : ∀ a ∈ W x, get s₁ a = get s a := by
      intro a ha
      refine hassigns.frame a ?_
      rintro ⟨y, hy, hay⟩
      exact hnew (hdisj y (hleft y hy) x hx a hay ha ▸ hy)
    obtain ⟨s₂, hstep, hacc', hlast, hassigns'⟩ := hf x hx s₁ hkept
    have hunion : {a | ∃ y ∈ l ++ [x], a ∈ W y} = {a | ∃ y ∈ l, a ∈ W y} ∪ W x := by
      ext a
      simp [or_and_right, exists_or]
    refine ⟨s₂, ?_, ?_, ?_, ?_⟩
    · rw [List.foldlM_append, hrun, Option.bind_eq_bind, Option.bind_some, List.foldlM_cons, hstep]
      rfl
    · rw [hacc', hacc, List.foldl_append]
      rfl
    · intro y hy
      rcases List.mem_append.mp hy with hmem | hmem
      · refine hlocal y hy _ _ (fun a ha => hassigns'.frame a fun hax => ?_) (hdone y hmem)
        exact hnew (hdisj y hy x hx a ha hax ▸ hmem)
      · obtain rfl := List.mem_singleton.mp hmem
        exact hlast
    · rw [hunion]
      exact hassigns.trans hassigns'

/-- A loop that keeps a state and stores one element after the other. -/
theorem foldlM_stores {σ A α : Type*} {l : List α} (hnd : l.Nodup) {f : σ → α → Option σ} (get : σ → Buffer R) (acc : σ → A)
    {g : A → α → A} {p : α → ℤ} {v : α → R} (hinj : ∀ x ∈ l, ∀ y ∈ l, p x = p y → x = y) {s : σ}
    (hsome : ∀ x ∈ l, (get s (p x)).isSome)
    (hf : ∀ x ∈ l, ∀ s', get s' (p x) = get s (p x) → ∃ s'', f s' x = some s'' ∧ acc s'' = g (acc s') x ∧
      (get s').store (p x) (v x) = some (get s'')) :
    ∃ s', l.foldlM f s = some s' ∧ acc s' = l.foldl g (acc s) ∧ (∀ x ∈ l, get s' (p x) = some (v x)) ∧
      Assigns {a | ∃ x ∈ l, a = p x} (get s) (get s') := by
  refine foldlM_phases hnd get acc (W := fun x => {p x}) (Q := fun x b => b (p x) = some (v x)) ?_ ?_ ?_
  · rintro x hx y hy a rfl hay
    exact hinj x hx y hy hay
  · intro x _ b b' hsame hvalue
    rw [hsame _ rfl, hvalue]
  · intro x hx s' hsame
    obtain ⟨s'', hstep, hacc, hstore⟩ := hf x hx s' (hsame _ rfl)
    refine ⟨s'', hstep, hacc, ?_, Assigns.of_store hstore⟩
    rw [store_of_isSome (by rw [hsame _ rfl]; exact hsome x hx)] at hstore
    rw [← Option.some.inj hstore, Function.update_self]

/-- A loop over an array, each step of which goes on with one entry. -/
theorem foldl_update {α : Type*} (key : α → ℕ) (g : R → α → R) (l : List α) (s : ℕ → R) (i : ℕ) :
    l.foldl (fun s x => Function.update s (key x) (g (s (key x)) x)) s i = (l.filter fun x => key x = i).foldl g (s i) := by
  induction l generalizing s with
  | nil => rfl
  | cons x l ih =>
    rw [List.foldl_cons, ih]
    by_cases hkey : key x = i
    · rw [List.filter_cons_of_pos (by simpa using hkey), List.foldl_cons, hkey, Function.update_self]
    · rw [List.filter_cons_of_neg (by simpa using hkey), Function.update_of_ne (Ne.symm hkey)]

/-! ## The elements of an iteration -/

section Places

variable {pd : Pd}

theorem mem_channelsAndInner {x : ℕ × ℕ} : x ∈ channelsAndInner pd ↔ x.1 < pd.axisSize ∧ x.2 < pd.innerSize := by
  obtain ⟨c, i⟩ := x
  simp [channelsAndInner]

theorem nodup_pairs (m n : ℕ) : ((List.range m).flatMap fun c => (List.range n).map fun i => (c, i)).Nodup := by
  refine List.nodup_flatMap.mpr ⟨fun c _ => List.nodup_range.map fun i i' heq => (Prod.mk.inj heq).2, ?_⟩
  refine List.nodup_range.imp fun {c c'} hne x hx hx' => hne ?_
  obtain ⟨i, -, rfl⟩ := List.mem_map.mp hx
  obtain ⟨i', -, heq⟩ := List.mem_map.mp hx'
  exact (Prod.mk.inj heq).1.symm

/-- The elements along the axis. -/
theorem filter_channelsAndInner {i : ℕ} (hi : i < pd.innerSize) :
    ((channelsAndInner pd).filter fun x => x.2 = i) = (List.range pd.axisSize).map fun c => (c, i) := by
  have hone : ((List.range pd.innerSize).filter fun j => j = i) = [i] := by
    rw [List.filter_eq, List.count_eq_one_of_mem List.nodup_range (List.mem_range.mpr hi)]
    rfl
  unfold channelsAndInner
  rw [List.filter_flatMap, List.map_eq_flatMap]
  refine congrArg (fun f => (List.range pd.axisSize).flatMap f) (funext fun c => ?_)
  rw [List.filter_map]
  exact congrArg (List.map fun j => (c, j)) hone

theorem Pd.Accepted.volume_eq_sizes (h : pd.Accepted) :
    volume pd.dataDesc.dims pd.dataDesc.ndims = pd.outerSize * (pd.axisSize * pd.innerSize) := by
  have hinner : ∏ i ∈ Finset.Ico (pd.axis + 1) pd.dataDesc.ndims, pd.dataDesc.dims i = pd.innerSize := by
    have hcount : pd.dataDesc.ndims - (pd.axis + 1) = pd.dataDesc.ndims - 1 - pd.axis := by omega
    rw [Finset.prod_Ico_eq_prod_range, prod_perm (List.Perm.refl _), hcount]
    rfl
  have houter : volume pd.dataDesc.dims pd.axis = pd.outerSize := prod_perm (List.Perm.refl _) _
  rw [volume_eq_mul (Nat.succ_le_of_lt h.axis_lt), hinner, volume_succ, houter, Pd.axisSize, Nat.mul_assoc]

/-- The place of an element in row-major order. -/
def place (pd : Pd) (ou : ℕ) (x : ℕ × ℕ) : ℕ := ou * (pd.axisSize * pd.innerSize) + x.1 * pd.innerSize + x.2

theorem inner_lt {x : ℕ × ℕ} (hx : x ∈ channelsAndInner pd) : x.1 * pd.innerSize + x.2 < pd.axisSize * pd.innerSize := by
  obtain ⟨hc, hi⟩ := mem_channelsAndInner.mp hx
  nlinarith

theorem place_lt {ou : ℕ} (hou : ou < pd.outerSize) {x : ℕ × ℕ} (hx : x ∈ channelsAndInner pd) :
    place pd ou x < pd.outerSize * (pd.axisSize * pd.innerSize) := by
  have hlt := inner_lt hx
  have hrows : (ou + 1) * (pd.axisSize * pd.innerSize) ≤ pd.outerSize * (pd.axisSize * pd.innerSize) :=
    Nat.mul_le_mul_right _ hou
  rw [Nat.succ_mul] at hrows
  unfold place
  omega

theorem place_inj {ou ou' : ℕ} {x x' : ℕ × ℕ} (hx : x ∈ channelsAndInner pd) (hx' : x' ∈ channelsAndInner pd)
    (heq : place pd ou x = place pd ou' x') : ou = ou' ∧ x = x' := by
  have hlt := inner_lt hx
  have hlt' := inner_lt hx'
  obtain ⟨-, hi⟩ := mem_channelsAndInner.mp hx
  obtain ⟨-, hi'⟩ := mem_channelsAndInner.mp hx'
  have hrows : ∀ {k k' : ℕ}, k < k' →
      k * (pd.axisSize * pd.innerSize) + pd.axisSize * pd.innerSize ≤ k' * (pd.axisSize * pd.innerSize) := by
    intro k k' hless
    rw [← Nat.succ_mul]
    exact Nat.mul_le_mul_right _ hless
  unfold place at heq
  have hou : ou = ou' := by
    rcases Nat.lt_trichotomy ou ou' with hless | hsame | hless
    · have := hrows hless
      omega
    · exact hsame
    · have := hrows hless
      omega
  subst hou
  have hc : x.1 = x'.1 := by
    rcases Nat.lt_trichotomy x.1 x'.1 with hless | hsame | hless
    · nlinarith
    · exact hsame
    · nlinarith
  rw [hc] at heq
  exact ⟨rfl, Prod.ext hc (by omega)⟩

/-- A descriptor that lays out the tensor of the softmax. -/
structure LaysOut (pd : Pd) (md : MemoryDesc) : Prop where
  distinct : md.Distinct
  ndims : md.ndims ≠ 0
  volume_eq : volume md.dims md.ndims = pd.outerSize * (pd.axisSize * pd.innerSize)

theorem Pd.Accepted.laysOut (h : pd.Accepted) : LaysOut pd pd.dataDesc :=
  ⟨h.distinct, Nat.ne_of_gt (Nat.lt_of_le_of_lt (Nat.zero_le _) h.axis_lt), h.volume_eq_sizes⟩

/-- Where there is an element, its value. -/
def valueAt [Zero R] (pd : Pd) (md : MemoryDesc) (b : Buffer R) (ou : ℕ) (x : ℕ × ℕ) : R :=
  (b (genericOff pd md ou x)).getD 0

theorem isBuffer_of_assigns {md : MemoryDesc} {ws : Set ℤ} {b b' : Buffer R} (h : Assigns ws b b') (hb : IsBuffer md b) :
    IsBuffer md b' := by
  intro a
  rw [h.isSome_eq]
  exact hb a

namespace LaysOut

variable {md : MemoryDesc} (h : LaysOut pd md)

include h

theorem genericOff_inj {ou ou' : ℕ} (hou : ou < pd.outerSize) (hou' : ou' < pd.outerSize) {x x' : ℕ × ℕ}
    (hx : x ∈ channelsAndInner pd) (hx' : x' ∈ channelsAndInner pd)
    (heq : genericOff pd md ou x = genericOff pd md ou' x') : ou = ou' ∧ x = x' :=
  place_inj hx hx' (h.distinct.offL_inj (h.volume_eq ▸ place_lt hou hx) (h.volume_eq ▸ place_lt hou' hx') heq)

theorem isSome {b : Buffer R} (hb : IsBuffer md b) {ou : ℕ} (hou : ou < pd.outerSize) {x : ℕ × ℕ}
    (hx : x ∈ channelsAndInner pd) : (b (genericOff pd md ou x)).isSome := by
  have hnelems : md.nelems false = pd.outerSize * (pd.axisSize * pd.innerSize) := by
    rw [← h.volume_eq, MemoryDesc.nelems, if_neg]
    · rfl
    · simpa only [MemoryDesc.isZero, decide_eq_true_eq] using h.ndims
  rw [hb, hnelems]
  exact ⟨place pd ou x, place_lt hou hx, rfl⟩

theorem eq_valueAt [Zero R] {b : Buffer R} (hb : IsBuffer md b) {ou : ℕ} (hou : ou < pd.outerSize) {x : ℕ × ℕ}
    (hx : x ∈ channelsAndInner pd) : b (genericOff pd md ou x) = some (valueAt pd md b ou x) := by
  obtain ⟨v, hv⟩ := Option.isSome_iff_exists.mp (h.isSome hb hou hx)
  rw [valueAt, hv, Option.getD_some]

end LaysOut

/-- The second of three dimensions, with a layout of its own for the gradient. -/
theorem exists_accepted_bac : ∃ pd : Pd, pd.Accepted ∧ LaysOut pd pd.diffDesc ∧ pd.outerSize = 2 ∧ pd.axisSize = 2 ∧
    pd.innerSize = 2 := by
  obtain ⟨md, md', hmd, hmd', hk, hk', hn, hn', hN, hC, hI, hvol⟩ : ∃ md md',
      memoryDescInitByTag 3 (fun _ => 2) .f32 .abc = .ok md ∧ memoryDescInitByTag 3 (fun _ => 2) .f32 .bac = .ok md' ∧
      md.formatKind = .blocked ∧ md'.formatKind = .blocked ∧ 1 < md.ndims ∧ md'.ndims ≠ 0 ∧ (Pd.mk md md' 1).outerSize = 2 ∧
      (Pd.mk md md' 1).axisSize = 2 ∧ (Pd.mk md md' 1).innerSize = 2 ∧ volume md'.dims md'.ndims = 8 :=
    ⟨_, _, rfl, rfl, rfl, rfl, by decide, by decide, by decide, by decide, by decide, by decide⟩
  refine ⟨Pd.mk md md' 1, ⟨?_, hk, hn, memoryDescInitByTag_distinct hmd hk⟩,
    ⟨memoryDescInitByTag_distinct hmd' hk', hn', ?_⟩, hN, hC, hI⟩
  · exact .whole (Or.inl ⟨3, _, _, _, hmd, hk⟩)
  · rw [hN, hC, hI]
    exact hvol

end Places

/-! ## The forward pass -/

section Forward

variable [Field R] [LinearOrder R] {exp : R → R} {lowest : R} {pd : Pd} {src dst : Buffer R} {ou : ℕ}

/-- `space_max` after its loop. -/
def spaceMax (pd : Pd) (lowest : R) (w : ℕ × ℕ → R) (i : ℕ) : R :=
  (List.range pd.axisSize).foldl (fun m c => max m (w (c, i))) lowest

/-- The softmax of a row with dimensions inside of the axis. -/
def genericValue (exp : R → R) (pd : Pd) (lowest : R) (w : ℕ × ℕ → R) (x : ℕ × ℕ) : R :=
  exp (w x - spaceMax pd lowest w x.2) / ∑ c ∈ Finset.range pd.axisSize, exp (w (c, x.2) - spaceMax pd lowest w x.2)

theorem forwardGenericRow_spec (exp : R → R) (lowest : R) (dst : Buffer R) {w : ℕ × ℕ → R}
    (hinj : ∀ x ∈ channelsAndInner pd, ∀ y ∈ channelsAndInner pd,
      genericOff pd pd.dataDesc ou x = genericOff pd pd.dataDesc ou y → x = y)
    (hsrc : ∀ x ∈ channelsAndInner pd, src (genericOff pd pd.dataDesc ou x) = some (w x))
    (hdst : ∀ x ∈ channelsAndInner pd, (dst (genericOff pd pd.dataDesc ou x)).isSome) :
    ∃ dst', forwardGenericRow exp pd lowest ou src dst = some dst' ∧
      (∀ x ∈ channelsAndInner pd, dst' (genericOff pd pd.dataDesc ou x) = some (genericValue exp pd lowest w x)) ∧
      Assigns {a | ∃ x ∈ channelsAndInner pd, a = genericOff pd pd.dataDesc ou x} dst dst' := by
  set off := genericOff pd pd.dataDesc ou with hoff
  set M : ℕ → R := (channelsAndInner pd).foldl (fun s x => Function.update s x.2 (max (s x.2) (w x))) fun _ => lowest with hM
  have hmax : ∀ x ∈ channelsAndInner pd, M x.2 = spaceMax pd lowest w x.2 := by
    intro x hx
    rw [hM, foldl_update Prod.snd (fun m x => max m (w x)), filter_channelsAndInner (mem_channelsAndInner.mp hx).2,
      List.foldl_map, spaceMax]
  set v : ℕ × ℕ → R := fun x => exp (w x - M x.2) with hv
  set D : ℕ → R := (channelsAndInner pd).foldl (fun s x => Function.update s x.2 (s x.2 + v x)) fun _ => 0 with hD
  have hdenom : ∀ x ∈ channelsAndInner pd, v x / D x.2 = genericValue exp pd lowest w x := by
    intro x hx
    have hi := (mem_channelsAndInner.mp hx).2
    have hsum : D x.2 = ∑ c ∈ Finset.range pd.axisSize, exp (w (c, x.2) - spaceMax pd lowest w x.2) := by
      rw [hD, foldl_update Prod.snd (fun s x => s + v x), filter_channelsAndInner hi, List.foldl_map, foldl_add_range, zero_add]
      refine Finset.sum_congr rfl fun c hc => ?_
      rw [hv, ← hmax (c, x.2) (mem_channelsAndInner.mpr ⟨Finset.mem_range.mp hc, hi⟩)]
    change exp (w x - M x.2) / D x.2 = _
    rw [hsum, genericValue, hmax x hx]
  have hfirst : (channelsAndInner pd).foldlM
      (fun (spaceMax : ℕ → R) x => do pure (Function.update spaceMax x.2 (max (spaceMax x.2) (← src (off x)))))
      (fun _ => lowest) = some M := by
    refine foldlM_some (fun x hx s => ?_) _
    rw [hsrc x hx]
    rfl
  obtain ⟨st, hsecond, hst, hvalues, hassigns⟩ := foldlM_stores (l := channelsAndInner pd) (s := ((fun _ => 0), dst))
    (f := fun (st : (ℕ → R) × Buffer R) x => do
      let v := exp ((← src (off x)) - M x.2)
      pure (Function.update st.1 x.2 (st.1 x.2 + v), ← st.2.store (off x) v))
    (nodup_pairs _ _) Prod.snd Prod.fst (g := fun s x => Function.update s x.2 (s x.2 + v x)) (p := off) (v := v) hinj hdst
    (by
      intro x hx s' hsame
      have hstore : s'.2.store (off x) (v x) = some (Function.update s'.2 (off x) (some (v x))) :=
        store_of_isSome (by rw [hsame]; exact hdst x hx) _
      refine ⟨(Function.update s'.1 x.2 (s'.1 x.2 + v x), Function.update s'.2 (off x) (some (v x))), ?_, rfl, hstore⟩
      rw [bind_of_some (hsrc x hx)]
      exact bind_of_some hstore _)
  obtain ⟨out, hthird, -, hout, hassigns'⟩ := foldlM_stores (l := channelsAndInner pd) (s := st.2)
    (f := fun (dst : Buffer R) x => do dst.store (off x) ((← dst (off x)) / st.1 x.2))
    (nodup_pairs _ _) id (fun _ => ()) (g := fun _ _ => ()) (p := off) (v := genericValue exp pd lowest w) hinj
    (fun x hx => by rw [id, hvalues x hx, Option.isSome_some])
    (by
      intro x hx b hsame
      rw [id, id, hvalues x hx] at hsame
      have hstore := store_of_isSome (b := b) (by rw [hsame, Option.isSome_some]) (genericValue exp pd lowest w x)
      refine ⟨Function.update b (off x) (some (genericValue exp pd lowest w x)), ?_, rfl, hstore⟩
      rw [bind_of_some hsame, hst, hdenom x hx]
      exact hstore)
  refine ⟨out, ?_, hout, ?_⟩
  · unfold forwardGenericRow
    dsimp only
    rw [bind_of_some hfirst, bind_of_some hsecond]
    exact hthird
  · have hall := hassigns.trans hassigns'
    rwa [Set.union_self] at hall

theorem Pd.Accepted.forwardGeneric_values (h : pd.Accepted) (exp : R → R) (lowest : R) (hsrc : IsBuffer pd.dataDesc src)
    (hdst : IsBuffer pd.dataDesc dst) {order : List ℕ} (ho : order.Perm (List.range pd.outerSize)) :
    ∃ out, forwardGeneric exp pd lowest order src dst = some out ∧ IsBuffer pd.dataDesc out ∧
      ∀ ou < pd.outerSize, ∀ x ∈ channelsAndInner pd, out (genericOff pd pd.dataDesc ou x) =
        some (genericValue exp pd lowest (valueAt pd pd.dataDesc src ou) x) := by
  have hlt : ∀ ou ∈ order, ou < pd.outerSize := fun ou hou => List.mem_range.mp (ho.mem_iff.mp hou)
  obtain ⟨out, hrun, -, hout, hassigns⟩ := foldlM_phases (ho.nodup_iff.mpr List.nodup_range) id (fun _ => ())
    (g := fun _ _ => ()) (f := fun b ou => forwardGenericRow exp pd lowest ou src b)
    (W := fun ou => {a | ∃ x ∈ channelsAndInner pd, a = genericOff pd pd.dataDesc ou x})
    (Q := fun ou b => ∀ x ∈ channelsAndInner pd, b (genericOff pd pd.dataDesc ou x) =
      some (genericValue exp pd lowest (valueAt pd pd.dataDesc src ou) x)) (s := dst)
    (by
      rintro ou hou ou' hou' a ⟨x, hx, rfl⟩ ⟨x', hx', heq⟩
      exact (h.laysOut.genericOff_inj (hlt ou hou) (hlt ou' hou') hx hx' heq).1)
    (fun ou _ b b' hsame hb x hx => (hsame _ ⟨x, hx, rfl⟩).trans (hb x hx))
    (by
      intro ou hou b hsame
      obtain ⟨b', hrow, hb', hassigns⟩ := forwardGenericRow_spec exp lowest b
        (fun x hx y hy heq => (h.laysOut.genericOff_inj (hlt ou hou) (hlt ou hou) hx hy heq).2)
        (fun x hx => h.laysOut.eq_valueAt hsrc (hlt ou hou) hx)
        (fun x hx => by
          have hkept : b (genericOff pd pd.dataDesc ou x) = dst (genericOff pd pd.dataDesc ou x) := hsame _ ⟨x, hx, rfl⟩
          rw [hkept]
          exact h.laysOut.isSome hdst (hlt ou hou) hx)
      exact ⟨b', hrow, rfl, hb', hassigns⟩)
  exact ⟨out, hrun, isBuffer_of_assigns hassigns hdst, fun ou hou => hout ou (ho.mem_iff.mpr (List.mem_range.mpr hou))⟩

/-- Along the axis, the forward pass leaves the softmax with the maximum taken off, for every layout and every order of the rows.
The values of the input are no less than `lowest`. -/
theorem Pd.Accepted.forwardGeneric_computes (h : pd.Accepted) (hC : 0 < pd.axisSize) (exp : R → R) {lowest : R}
    (hsrc : IsBuffer pd.dataDesc src) (hdst : IsBuffer pd.dataDesc dst) (hlow : ∀ a x, src a = some x → lowest ≤ x)
    {order : List ℕ} (ho : order.Perm (List.range pd.outerSize)) :
    ∃ out, forwardGeneric exp pd lowest order src dst = some out ∧ ∀ ou < pd.outerSize, ∀ i < pd.innerSize,
      ∃ (w : ℕ → R) (m : R), (∀ c < pd.axisSize, src (genericOff pd pd.dataDesc ou (c, i)) = some (w c)) ∧
        IsMax pd.axisSize w m ∧ ∀ c < pd.axisSize, out (genericOff pd pd.dataDesc ou (c, i)) =
          some (exp (w c - m) / ∑ c' ∈ Finset.range pd.axisSize, exp (w c' - m)) := by
  obtain ⟨out, hrun, -, hout⟩ := h.forwardGeneric_values exp lowest hsrc hdst ho
  refine ⟨out, hrun, fun ou hou i hi => ?_⟩
  have hmem : ∀ c < pd.axisSize, (c, i) ∈ channelsAndInner pd := fun c hc => mem_channelsAndInner.mpr ⟨hc, hi⟩
  have hvalues := fun (c : ℕ) (hc : c < pd.axisSize) => h.laysOut.eq_valueAt hsrc hou (hmem c hc)
  exact ⟨fun c => valueAt pd pd.dataDesc src ou (c, i), _, hvalues, isMax_foldl hC fun c hc => hlow _ _ (hvalues c hc),
    fun c hc => hout ou hou (c, i) (hmem c hc)⟩

theorem Pd.Accepted.forwardGeneric_computes_bac : ∃ pd : Pd, pd.Accepted ∧ pd.axisSize = 2 ∧
    ∃ out : Buffer ℝ, forwardGeneric Real.exp pd 0 [1, 0] (constBuffer pd.dataDesc 3) (constBuffer pd.dataDesc 0) = some out ∧
      ∀ ou < 2, ∀ i < 2, ∃ (w : ℕ → ℝ) (m : ℝ), (∀ c < 2,
          constBuffer pd.dataDesc 3 (genericOff pd pd.dataDesc ou (c, i)) = some (w c)) ∧ IsMax 2 w m ∧
        ∀ c < 2, out (genericOff pd pd.dataDesc ou (c, i)) =
          some (Real.exp (w c - m) / ∑ c' ∈ Finset.range 2, Real.exp (w c' - m)) := by
  obtain ⟨pd, h, -, hN, hC, hI⟩ := exists_accepted_bac
  have hlow : ∀ a x, constBuffer pd.dataDesc (3 : ℝ) a = some x → 0 ≤ x := by
    intro a x hx
    unfold constBuffer at hx
    split_ifs at hx
    rw [← Option.some.inj hx]
    norm_num
  have ho : [1, 0].Perm (List.range pd.outerSize) := hN ▸ by decide
  obtain ⟨out, hrun, hout⟩ := h.forwardGeneric_computes (hC ▸ Nat.two_pos) Real.exp (isBuffer_constBuffer _ 3)
    (isBuffer_constBuffer _ 0) hlow ho
  rw [hN, hC, hI] at hout
  exact ⟨pd, h, hC, out, hrun, hout⟩

end Forward

/-! ## The backward pass -/

section Backward

variable [Field R] {pd : Pd} {dst diffDst diffSrc : Buffer R} {ou i : ℕ} {y dy : ℕ → R}

theorem backwardGenericRow_spec (diffSrc : Buffer R)
    (hinj : ∀ c ∈ List.range pd.axisSize, ∀ c' ∈ List.range pd.axisSize,
      genericOff pd pd.diffDesc ou (c, i) = genericOff pd pd.diffDesc ou (c', i) → c = c')
    (hdst : ∀ c < pd.axisSize, dst (genericOff pd pd.dataDesc ou (c, i)) = some (y c))
    (hdiff : ∀ c < pd.axisSize, diffDst (genericOff pd pd.diffDesc ou (c, i)) = some (dy c))
    (hsrc : ∀ c ∈ List.range pd.axisSize, (diffSrc (genericOff pd pd.diffDesc ou (c, i))).isSome) :
    ∃ grad, backwardGenericRow pd (ou, i) dst diffDst diffSrc = some grad ∧
      (∀ c ∈ List.range pd.axisSize, grad (genericOff pd pd.diffDesc ou (c, i)) = some (gradRow pd.axisSize y dy c)) ∧
      Assigns {a | ∃ c ∈ List.range pd.axisSize, a = genericOff pd pd.diffDesc ou (c, i)} diffSrc grad := by
  have hsum : (List.range pd.axisSize).foldlM
      (fun sbr c => do
        pure (sbr + (← diffDst (genericOff pd pd.diffDesc ou (c, i))) * (← dst (genericOff pd pd.dataDesc ou (c, i))))) 0 =
      some ((List.range pd.axisSize).foldl (fun sbr c => sbr + dy c * y c) 0) := by
    refine foldlM_some (fun c hc sbr => ?_) _
    rw [bind_of_some (hdiff c (List.mem_range.mp hc)), bind_of_some (hdst c (List.mem_range.mp hc))]
    rfl
  obtain ⟨grad, hrun, -, hgrad, hassigns⟩ := foldlM_stores (l := List.range pd.axisSize) (s := diffSrc)
    (f := fun (diffSrc : Buffer R) c => do
      diffSrc.store (genericOff pd pd.diffDesc ou (c, i)) ((← dst (genericOff pd pd.dataDesc ou (c, i))) *
        ((← diffDst (genericOff pd pd.diffDesc ou (c, i))) - (List.range pd.axisSize).foldl (fun sbr c => sbr + dy c * y c) 0)))
    List.nodup_range id (fun _ => ()) (g := fun _ _ => ()) (p := fun c => genericOff pd pd.diffDesc ou (c, i))
    (v := gradRow pd.axisSize y dy) hinj hsrc
    (by
      intro c hc b hsame
      rw [id, id] at hsame
      have hstore := store_of_isSome (b := b) (by rw [hsame]; exact hsrc c hc) (gradRow pd.axisSize y dy c)
      refine ⟨_, ?_, rfl, hstore⟩
      rw [bind_of_some (hdst c (List.mem_range.mp hc)), bind_of_some (hdiff c (List.mem_range.mp hc))]
      exact hstore)
  refine ⟨grad, ?_, hgrad, hassigns⟩
  unfold backwardGenericRow
  dsimp only
  rw [bind_of_some hsum]
  exact hrun

theorem Pd.Accepted.backwardGeneric_values (h : pd.Accepted) (hlays : LaysOut pd pd.diffDesc) (hdst : IsBuffer pd.dataDesc dst)
    (hdiffDst : IsBuffer pd.diffDesc diffDst) (hdiffSrc : IsBuffer pd.diffDesc diffSrc) {order : List (ℕ × ℕ)}
    (ho : order.Perm ((List.range pd.outerSize).flatMap fun ou => (List.range pd.innerSize).map fun i => (ou, i))) :
    ∃ grad, backwardGeneric pd order dst diffDst diffSrc = some grad ∧
      ∀ ou < pd.outerSize, ∀ i < pd.innerSize, ∀ c < pd.axisSize, grad (genericOff pd pd.diffDesc ou (c, i)) =
        some (gradRow pd.axisSize (fun c => valueAt pd pd.dataDesc dst ou (c, i))
          (fun c => valueAt pd pd.diffDesc diffDst ou (c, i)) c) := by
  have hmem : ∀ x : ℕ × ℕ, x ∈ order ↔ x.1 < pd.outerSize ∧ x.2 < pd.innerSize := by
    rintro ⟨ou, i⟩
    rw [ho.mem_iff]
    simp
  have hplace : ∀ x ∈ order, ∀ c < pd.axisSize, (c, x.2) ∈ channelsAndInner pd :=
    fun x hx c hc => mem_channelsAndInner.mpr ⟨hc, ((hmem x).mp hx).2⟩
  have hinj : ∀ x ∈ order, ∀ x' ∈ order, ∀ c ∈ List.range pd.axisSize, ∀ c' ∈ List.range pd.axisSize,
      genericOff pd pd.diffDesc x.1 (c, x.2) = genericOff pd pd.diffDesc x'.1 (c', x'.2) → x = x' ∧ c = c' := by
    intro x hx x' hx' c hc c' hc' heq
    obtain ⟨hou, hpair⟩ := hlays.genericOff_inj ((hmem x).mp hx).1 ((hmem x').mp hx').1 (hplace x hx c (List.mem_range.mp hc))
      (hplace x' hx' c' (List.mem_range.mp hc')) heq
    exact ⟨Prod.ext hou (Prod.mk.inj hpair).2, (Prod.mk.inj hpair).1⟩
  obtain ⟨grad, hrun, -, hgrad, -⟩ := foldlM_phases (ho.nodup_iff.mpr (nodup_pairs _ _)) id (fun _ => ()) (g := fun _ _ => ())
    (f := fun b x => backwardGenericRow pd x dst diffDst b) (s := diffSrc)
    (W := fun x => {a | ∃ c ∈ List.range pd.axisSize, a = genericOff pd pd.diffDesc x.1 (c, x.2)})
    (Q := fun x b => ∀ c ∈ List.range pd.axisSize, b (genericOff pd pd.diffDesc x.1 (c, x.2)) =
      some (gradRow pd.axisSize (fun c => valueAt pd pd.dataDesc dst x.1 (c, x.2))
        (fun c => valueAt pd pd.diffDesc diffDst x.1 (c, x.2)) c))
    (by
      rintro x hx x' hx' a ⟨c, hc, rfl⟩ ⟨c', hc', heq⟩
      exact (hinj x hx x' hx' c hc c' hc' heq).1)
    (fun x _ b b' hsame hb c hc => (hsame _ ⟨c, hc, rfl⟩).trans (hb c hc))
    (by
      intro x hx b hsame
      obtain ⟨b', hrow, hb', hassigns⟩ := backwardGenericRow_spec b
        (fun c hc c' hc' heq => (hinj x hx x hx c hc c' hc' heq).2)
        (fun c hc => h.laysOut.eq_valueAt hdst ((hmem x).mp hx).1 (hplace x hx c hc))
        (fun c hc => hlays.eq_valueAt hdiffDst ((hmem x).mp hx).1 (hplace x hx c hc))
        (fun c hc => by
          have hkept : b (genericOff pd pd.diffDesc x.1 (c, x.2)) = diffSrc (genericOff pd pd.diffDesc x.1 (c, x.2)) :=
            hsame _ ⟨c, hc, rfl⟩
          rw [hkept]
          exact hlays.isSome hdiffSrc ((hmem x).mp hx).1 (hplace x hx c (List.mem_range.mp hc)))
      exact ⟨b', hrow, rfl, hb', hassigns⟩)
  exact ⟨grad, hrun, fun ou hou i hi c hc => hgrad (ou, i) ((hmem (ou, i)).mpr ⟨hou, hi⟩) c (List.mem_range.mpr hc)⟩

/-- The gradient of the softmax, for a gradient whose layout need not be that of the data, and for every order. -/
theorem Pd.Accepted.backwardGeneric_computes (h : pd.Accepted) (hlays : LaysOut pd pd.diffDesc) (hdst : IsBuffer pd.dataDesc dst)
    (hdiffDst : IsBuffer pd.diffDesc diffDst) (hdiffSrc : IsBuffer pd.diffDesc diffSrc) {order : List (ℕ × ℕ)}
    (ho : order.Perm ((List.range pd.outerSize).flatMap fun ou => (List.range pd.innerSize).map fun i => (ou, i))) :
    ∃ grad, backwardGeneric pd order dst diffDst diffSrc = some grad ∧ ∀ ou < pd.outerSize, ∀ i < pd.innerSize,
      ∃ y dy : ℕ → R, (∀ c < pd.axisSize, dst (genericOff pd pd.dataDesc ou (c, i)) = some (y c) ∧
          diffDst (genericOff pd pd.diffDesc ou (c, i)) = some (dy c)) ∧
        ∀ c < pd.axisSize, grad (genericOff pd pd.diffDesc ou (c, i)) =
          some (y c * (dy c - ∑ c' ∈ Finset.range pd.axisSize, dy c' * y c')) := by
  obtain ⟨grad, hrun, hgrad⟩ := h.backwardGeneric_values hlays hdst hdiffDst hdiffSrc ho
  refine ⟨grad, hrun, fun ou hou i hi => ⟨fun c => valueAt pd pd.dataDesc dst ou (c, i),
    fun c => valueAt pd pd.diffDesc diffDst ou (c, i), fun c hc => ?_, fun c hc => ?_⟩⟩
  · have hx : (c, i) ∈ channelsAndInner pd := mem_channelsAndInner.mpr ⟨hc, hi⟩
    exact ⟨h.laysOut.eq_valueAt hdst hou hx, hlays.eq_valueAt hdiffDst hou hx⟩
  · rw [hgrad ou hou i hi c hc, gradRow, foldl_add_range, zero_add]

theorem Pd.Accepted.backwardGeneric_computes_bac : ∃ pd : Pd, pd.Accepted ∧ pd.axisSize = 2 ∧
    ∃ grad : Buffer ℝ, backwardGeneric pd [(1, 0), (0, 1), (0, 0), (1, 1)] (constBuffer pd.dataDesc 3) (constBuffer pd.diffDesc 5)
        (constBuffer pd.diffDesc 0) = some grad ∧
      ∀ ou < 2, ∀ i < 2, ∃ y dy : ℕ → ℝ, (∀ c < 2, constBuffer pd.dataDesc 3 (genericOff pd pd.dataDesc ou (c, i)) = some (y c) ∧
          constBuffer pd.diffDesc 5 (genericOff pd pd.diffDesc ou (c, i)) = some (dy c)) ∧
        ∀ c < 2, grad (genericOff pd pd.diffDesc ou (c, i)) = some (y c * (dy c - ∑ c' ∈ Finset.range 2, dy c' * y c')) := by
  obtain ⟨pd, h, hlays, hN, hC, hI⟩ := exists_accepted_bac
  have ho : [(1, 0), (0, 1), (0, 0), (1, 1)].Perm
      ((List.range pd.outerSize).flatMap fun ou => (List.range pd.innerSize).map fun i => (ou, i)) := by
    rw [hN, hI]
    decide
  obtain ⟨grad, hrun, hgrad⟩ := h.backwardGeneric_computes hlays (isBuffer_constBuffer _ (3 : ℝ))
    (isBuffer_constBuffer _ 5) (isBuffer_constBuffer _ 0) ho
  rw [hN, hC, hI] at hgrad
  exact ⟨pd, h, hC, grad, hrun, hgrad⟩

end Backward

/-! ## Both passes -/

section Passes

variable [Field R]

/-- A row that sums up to one takes its own mean off the gradient. -/
theorem sum_gradRow {n : ℕ} {y : ℕ → R} (hy : ∑ c ∈ Finset.range n, y c = 1) (dy : ℕ → R) :
    ∑ c ∈ Finset.range n, gradRow n y dy c = 0 := by
  unfold gradRow
  rw [foldl_add_range]
  simp only [mul_sub, Finset.sum_sub_distrib]
  rw [← Finset.sum_mul, hy, one_mul, zero_add]
  exact sub_eq_zero.mpr (Finset.sum_congr rfl fun c _ => mul_comm _ _)

variable [LinearOrder R] [IsStrictOrderedRing R] {exp : R → R} {pd : Pd} {src dst diffDst diffSrc : Buffer R}

theorem sum_exp_pos (hexp : ∀ x, 0 < exp x) {n : ℕ} (hn : 0 < n) (f : ℕ → R) : 0 < ∑ c ∈ Finset.range n, exp (f c) :=
  Finset.sum_pos (fun c _ => hexp (f c)) ⟨0, Finset.mem_range.mpr hn⟩

/-- The forward pass leaves probabilities along the axis, and the backward pass on them gradients whose sum vanishes, with whatever
the arrays of the maxima started. -/
theorem Pd.Accepted.generic_normalizes (h : pd.Accepted) (hlays : LaysOut pd pd.diffDesc) (hC : 0 < pd.axisSize)
    (hexp : ∀ x, 0 < exp x) (lowest : R) (hsrc : IsBuffer pd.dataDesc src) (hdst : IsBuffer pd.dataDesc dst)
    (hdiffDst : IsBuffer pd.diffDesc diffDst) (hdiffSrc : IsBuffer pd.diffDesc diffSrc) {order : List ℕ} {order' : List (ℕ × ℕ)}
    (ho : order.Perm (List.range pd.outerSize))
    (ho' : order'.Perm ((List.range pd.outerSize).flatMap fun ou => (List.range pd.innerSize).map fun i => (ou, i))) :
    ∃ (out grad : Buffer R) (y dx : ℕ → ℕ × ℕ → R), forwardGeneric exp pd lowest order src dst = some out ∧
      backwardGeneric pd order' out diffDst diffSrc = some grad ∧ ∀ ou < pd.outerSize, ∀ i < pd.innerSize,
        (∀ c < pd.axisSize, out (genericOff pd pd.dataDesc ou (c, i)) = some (y ou (c, i)) ∧ 0 < y ou (c, i) ∧
          grad (genericOff pd pd.diffDesc ou (c, i)) = some (dx ou (c, i))) ∧
        ∑ c ∈ Finset.range pd.axisSize, y ou (c, i) = 1 ∧ ∑ c ∈ Finset.range pd.axisSize, dx ou (c, i) = 0 := by
  obtain ⟨out, hrun, hbuffer, hout⟩ := h.forwardGeneric_values exp lowest hsrc hdst ho
  obtain ⟨grad, hrun', hgrad⟩ := h.backwardGeneric_values hlays hbuffer hdiffDst hdiffSrc ho'
  refine ⟨out, grad, fun ou => valueAt pd pd.dataDesc out ou, fun ou x => gradRow pd.axisSize
    (fun c => valueAt pd pd.dataDesc out ou (c, x.2)) (fun c => valueAt pd pd.diffDesc diffDst ou (c, x.2)) x.1, hrun, hrun',
    fun ou hou i hi => ?_⟩
  have hmem : ∀ c < pd.axisSize, (c, i) ∈ channelsAndInner pd := fun c hc => mem_channelsAndInner.mpr ⟨hc, hi⟩
  set w := valueAt pd pd.dataDesc src ou
  have hvalue : ∀ c < pd.axisSize, valueAt pd pd.dataDesc out ou (c, i) = genericValue exp pd lowest w (c, i) := by
    intro c hc
    rw [valueAt, hout ou hou (c, i) (hmem c hc), Option.getD_some]
  have hpos := sum_exp_pos hexp hC fun c => w (c, i) - spaceMax pd lowest w i
  have hone : ∑ c ∈ Finset.range pd.axisSize, valueAt pd pd.dataDesc out ou (c, i) = 1 := by
    rw [Finset.sum_congr rfl fun c hc => hvalue c (Finset.mem_range.mp hc)]
    unfold genericValue
    dsimp only
    rw [← Finset.sum_div]
    exact div_self hpos.ne'
  refine ⟨fun c hc => ⟨h.laysOut.eq_valueAt hbuffer hou (hmem c hc), ?_, hgrad ou hou i hi c hc⟩, hone, sum_gradRow hone _⟩
  show 0 < valueAt pd pd.dataDesc out ou (c, i)
  rw [hvalue c hc]
  exact div_pos (hexp _) hpos

theorem Pd.Accepted.generic_normalizes_bac : ∃ pd : Pd, pd.Accepted ∧ ∃ (out grad : Buffer ℝ) (y dx : ℕ → ℕ × ℕ → ℝ),
    forwardGeneric Real.exp pd 0 [1, 0] (constBuffer pd.dataDesc 3) (constBuffer pd.dataDesc 0) = some out ∧
      backwardGeneric pd [(1, 0), (0, 1), (0, 0), (1, 1)] out (constBuffer pd.diffDesc 5) (constBuffer pd.diffDesc 0) = some grad ∧
      ∀ ou < 2, ∀ i < 2,
        (∀ c < 2, out (genericOff pd pd.dataDesc ou (c, i)) = some (y ou (c, i)) ∧ 0 < y ou (c, i) ∧
          grad (genericOff pd pd.diffDesc ou (c, i)) = some (dx ou (c, i))) ∧
        ∑ c ∈ Finset.range 2, y ou (c, i) = 1 ∧ ∑ c ∈ Finset.range 2, dx ou (c, i) = 0 := by
  obtain ⟨pd, h, hlays, hN, hC, hI⟩ := exists_accepted_bac
  have ho : [1, 0].Perm (List.range pd.outerSize) := hN ▸ by decide
  have ho' : [(1, 0), (0, 1), (0, 0), (1, 1)].Perm
      ((List.range pd.outerSize).flatMap fun ou => (List.range pd.innerSize).map fun i => (ou, i)) := by
    rw [hN, hI]
    decide
  obtain ⟨out, grad, y, dx, hrun, hrun', hrows⟩ := h.generic_normalizes hlays (hC ▸ Nat.two_pos) Real.exp_pos 0
    (isBuffer_constBuffer _ 3) (isBuffer_constBuffer _ 0) (isBuffer_constBuffer _ 5) (isBuffer_constBuffer _ 0) ho ho'
  rw [hN, hC, hI] at hrows
  exact ⟨pd, h, out, grad, y, dx, hrun, hrun', hrows⟩

end Passes

end MklDnn.RefSoftmax
