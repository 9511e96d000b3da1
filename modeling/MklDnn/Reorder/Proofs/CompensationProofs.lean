import Mathlib.Data.List.GetD
import MklDnn.Reorder.Proofs.ConvS8s8Proofs
import MklDnn.Reorder.Simple

/-!
# Proofs: the compensation of the weights

Which shapes and scales the reorders with compensation treat right: every weight is quantised with the
scale of its channel, and every channel has its compensation.
-/

open LoopNest

namespace MklDnn.ConvS8s8

/-! ## Positions -/

section Positions

variable {md : MemoryDesc} {wGroups is1d : Bool}

theorem Weight.pos_lt {x : Weight} (hx : (sizes md wGroups is1d).Mem x) {d : ℕ} (hd : d < ndimsOf wGroups is1d) :
    x.pos wGroups is1d d < md.dims d := by
  obtain ⟨hg, hoc, hic, hh, hw⟩ := hx
  unfold Weight.pos idxs
  cases wGroups <;> cases is1d <;> simp [sizes, ndimsOf] at hg hoc hic hh hw hd ⊢ <;>
    interval_cases d <;> assumption

theorem Weight.pos_of_ge {x : Weight} {d : ℕ} (hd : ndimsOf wGroups is1d ≤ d) : x.pos wGroups is1d d = 0 := by
  unfold Weight.pos idxs
  apply List.getD_eq_default
  cases wGroups <;> cases is1d <;> simp [ndimsOf] at hd ⊢ <;> exact hd

/-- The position determines the weight. -/
theorem Weight.pos_injective {x y : Weight} (hx : (sizes md wGroups is1d).Mem x)
    (hy : (sizes md wGroups is1d).Mem y) (h : x.pos wGroups is1d = y.pos wGroups is1d) : x = y := by
  obtain ⟨xg, xoc, xic, xh, xw⟩ := x
  obtain ⟨yg, yoc, yic, yh, yw⟩ := y
  have hxg := hx.g
  have hyg := hy.g
  have hxh := hx.h
  have hyh := hy.h
  have h0 := congrFun h 0
  have h1 := congrFun h 1
  have h2 := congrFun h 2
  have h3 := congrFun h 3
  have h4 := congrFun h 4
  unfold Weight.pos idxs at h0 h1 h2 h3 h4
  rw [Weight.mk.injEq]
  cases wGroups <;> cases is1d <;>
    simp [sizes] at hxg hyg hxh hyh h0 h1 h2 h3 h4 <;> simp [*]

end Positions

/-! ## Sums over a channel -/

section Sums

variable {n : Sizes}

theorem Sizes.channelSum_congr {f f' : Weight → ℤ} {g oc : ℕ} (hg : g < n.G) (hoc : oc < n.OC)
    (h : ∀ x, n.Mem x → x.g = g → x.oc = oc → f x = f' x) : n.channelSum g oc f = n.channelSum g oc f' := by
  apply Finset.sum_congr rfl
  intro ic hic
  apply Finset.sum_congr rfl
  intro h' hh
  apply Finset.sum_congr rfl
  intro w hw
  exact h _ ⟨hg, hoc, Finset.mem_range.mp hic, Finset.mem_range.mp hh, Finset.mem_range.mp hw⟩ rfl rfl

theorem Sizes.channelSum_const (g oc : ℕ) (a : ℤ) :
    n.channelSum g oc (fun _ => a) = (n.IC * n.H * n.W : ℕ) * a := by
  simp only [Sizes.channelSum, Finset.sum_const, Finset.card_range, nsmul_eq_mul]
  push_cast
  ring

/-- The only channel whose compensation goes to `comp g oc`. -/
theorem sum_single_channel (comp : ℕ → ℕ → ℕ) (f : Weight → ℤ) {g oc : ℕ} (hg : g < n.G) (hoc : oc < n.OC)
    (hcomp : ∀ g' < n.G, ∀ oc' < n.OC, comp g' oc' = comp g oc → g' = g ∧ oc' = oc) :
    ∑ g' ∈ Finset.range n.G, ∑ oc' ∈ Finset.range n.OC,
      n.channelSum g' oc' (fun x => if comp g' oc' = comp g oc then f x else 0) = n.channelSum g oc f := by
  rw [Finset.sum_eq_single_of_mem g (Finset.mem_range.mpr hg), Finset.sum_eq_single_of_mem oc (Finset.mem_range.mpr hoc)]
  · simp only [if_true]
  · intro oc' hoc' hne
    have hne' : comp g oc' ≠ comp g oc := fun he => hne (hcomp g hg oc' (Finset.mem_range.mp hoc') he).2
    simp only [if_neg hne', Sizes.channelSum, Finset.sum_const_zero]
  · intro g' hg' hne
    apply Finset.sum_eq_zero
    intro oc' hoc'
    have hne' : comp g' oc' ≠ comp g oc :=
      fun he => hne (hcomp g' (Finset.mem_range.mp hg') oc' (Finset.mem_range.mp hoc') he).1
    simp only [if_neg hne', Sizes.channelSum, Finset.sum_const_zero]

/-- Without a channel whose compensation goes to `c`. -/
theorem sum_no_channel (comp : ℕ → ℕ → ℕ) (f : Weight → ℤ) {c : ℕ}
    (hcomp : ∀ g < n.G, ∀ oc < n.OC, comp g oc ≠ c) :
    ∑ g ∈ Finset.range n.G, ∑ oc ∈ Finset.range n.OC,
      n.channelSum g oc (fun x => if comp g oc = c then f x else 0) = 0 := by
  apply Finset.sum_eq_zero
  intro g hg
  apply Finset.sum_eq_zero
  intro oc hoc
  simp only [if_neg (hcomp g (Finset.mem_range.mp hg) oc (Finset.mem_range.mp hoc)), Sizes.channelSum,
    Finset.sum_const_zero]

/-- The sum over a channel of weights in `s8`. -/
theorem Sizes.channelSum_bounds (g oc : ℕ) (v : Weight → Int8) :
    -128 * (n.IC * n.H * n.W : ℕ) ≤ n.channelSum g oc (fun x => (v x).toInt) ∧
      n.channelSum g oc (fun x => (v x).toInt) ≤ 127 * (n.IC * n.H * n.W : ℕ) := by
  have hlow := n.channelSum_const g oc (-128)
  have hhigh := n.channelSum_const g oc 127
  constructor
  · rw [mul_comm, ← hlow]
    apply Finset.sum_le_sum
    intro ic _
    apply Finset.sum_le_sum
    intro h _
    apply Finset.sum_le_sum
    intro w _
    exact Int8.le_toInt _
  · rw [mul_comm, ← hhigh]
    apply Finset.sum_le_sum
    intro ic _
    apply Finset.sum_le_sum
    intro h _
    apply Finset.sum_le_sum
    intro w _
    exact Int8.toInt_le _

end Sums

/-! ## Executions over all weights -/

section Executions

variable {α F : Type*} {args : Args α F} {inputD outputD : MemoryDesc} {wGroups is1d : Bool}
  {scale comp : ℕ → ℕ → ℕ}

/-- The offsets of the output tell the weights apart. -/
def Separates (outputD : MemoryDesc) (wGroups is1d : Bool) (n : Sizes) : Prop :=
  ∀ x y, n.Mem x → n.Mem y →
    outputD.offV (x.pos wGroups is1d) false = outputD.offV (y.pos wGroups is1d) false → x = y

/-- What the stores of all weights leave if their scales exist. -/
theorem run_of_storesOf {n : Sizes} {l : List Store} {val : Weight → Int8}
    (hl : StoresOf n (storeAt inputD outputD wGroups is1d scale comp) l)
    (hsep : Separates outputD wGroups is1d n)
    (hval : ∀ x, n.Mem x → args.value (storeAt inputD outputD wGroups is1d scale comp x) = some (val x))
    (factor : ℤ) (st : Output) :
    ∃ out, l.foldlM (args.store factor) st = some out ∧
      (∀ x, n.Mem x → out.weights (outputD.offV (x.pos wGroups is1d) false) = val x) ∧
      ∀ c, toS32 (st.cp c) = st.cp c → out.cp c = toS32 (st.cp c - factor *
        ∑ g ∈ Finset.range n.G, ∑ oc ∈ Finset.range n.OC, n.channelSum g oc fun x =>
          if comp g oc = c then (val x).toInt else 0) := by
  let v : Store → Int8 := fun s => (args.value s).getD 0
  have hv : ∀ x, n.Mem x → v (storeAt inputD outputD wGroups is1d scale comp x) = val x := by
    intro x hx
    show (args.value _).getD 0 = val x
    rw [hval x hx, Option.getD_some]
  have hvalue : ∀ s ∈ l, args.value s = some (v s) := by
    intro s hs
    obtain ⟨x, hx, rfl⟩ := (hl.mem s).mp hs
    rw [hv x hx]
    exact hval x hx
  obtain ⟨out, hout, hweights, hcp, -, hrange⟩ := foldlM_store hvalue factor st
  refine ⟨out, hout, ?_, ?_⟩
  · intro x hx
    rw [hweights]
    apply applyWrites_of_mem
    · apply Consistent.of_map
      intro s hs t ht hdst
      obtain ⟨y, hy, rfl⟩ := (hl.mem s).mp hs
      obtain ⟨z, hz, rfl⟩ := (hl.mem t).mp ht
      rw [hsep y z hy hz hdst]
    · rw [← hv x hx]
      exact List.mem_map_of_mem (f := fun s => (s.dst, v s)) ((hl.mem _).mpr ⟨x, hx, rfl⟩)
  · intro c hc
    have hsum : compSum v c l = ∑ g ∈ Finset.range n.G, ∑ oc ∈ Finset.range n.OC, n.channelSum g oc fun x =>
        if comp g oc = c then (val x).toInt else 0 := by
      unfold compSum
      rw [hl.sum]
      apply Finset.sum_congr rfl
      intro g hg
      apply Finset.sum_congr rfl
      intro oc hoc
      apply Sizes.channelSum_congr (Finset.mem_range.mp hg) (Finset.mem_range.mp hoc)
      intro x hx hxg hxoc
      subst hxg hxoc
      rw [hv x hx]
      rfl
    rw [← hrange c hc, hcp c, hsum]

end Executions

/-! ## The reorder to `hwio` -/

section Plain

variable {α F : Type*} {args : Args α F} {inputD outputD : MemoryDesc} {tagO : FormatTag} {mask : ℕ}

/-- What the reorders to `hwio` know of their descriptors. -/
structure Plain.Layouts (tagO : FormatTag) (inputD outputD : MemoryDesc) : Prop where
  inputWF : inputD.WellFormed
  plain : inputD.blocking.inner = []
  inputNdims : inputD.ndims = ndimsOf (Plain.wGroups tagO) false
  outputWF : outputD.WellFormed
  outputPlain : outputD.blocking.inner = []
  outputNdims : outputD.ndims = ndimsOf (Plain.wGroups tagO) false

/-- The index of the scale of a channel. -/
def scaleIdx (inputD : MemoryDesc) (mask OC g oc : ℕ) : ℕ := if dMask inputD mask = 1 then 0 else g * OC + oc

/-- The index of the compensation of a channel. -/
def compIdx (OC g oc : ℕ) : ℕ := g * OC + oc

/-- The indices of the weights of a channel. -/
def Sizes.channelWeights (n : Sizes) (g oc : ℕ) : List Weight :=
  (List.range n.IC).flatMap fun ic => (List.range n.H).flatMap fun h => (List.range n.W).map fun w => ⟨g, oc, ic, h, w⟩

theorem Sizes.mem_channelWeights {n : Sizes} {g oc : ℕ} {x : Weight} (hg : g < n.G) (hoc : oc < n.OC) :
    x ∈ n.channelWeights g oc ↔ n.Mem x ∧ x.g = g ∧ x.oc = oc := by
  simp only [Sizes.channelWeights, List.mem_flatMap, List.mem_map, List.mem_range]
  constructor
  · rintro ⟨ic, hic, h, hh, w, hw, rfl⟩
    exact ⟨⟨hg, hoc, hic, hh, hw⟩, rfl, rfl⟩
  · obtain ⟨xg, xoc, ic, h, w⟩ := x
    rintro ⟨hx, rfl, rfl⟩
    exact ⟨ic, hx.ic, h, hx.h, w, hx.w, rfl⟩

theorem Sizes.sum_channelWeights (n : Sizes) (g oc : ℕ) (f : Weight → ℤ) :
    ((n.channelWeights g oc).map f).sum = n.channelSum g oc f := by
  simp only [Sizes.channelWeights, sum_map_flatMap, sum_map_range, Sizes.channelSum]

theorem Plain.stores_eq (hl : Plain.Layouts tagO inputD outputD) (mask g oc : ℕ) :
    Plain.stores tagO inputD outputD mask g oc =
      ((sizes inputD (wGroups tagO) false).channelWeights g oc).map
        (storeAt inputD outputD (wGroups tagO) false
          (scaleIdx inputD mask (sizes inputD (wGroups tagO) false).OC)
          (compIdx (sizes inputD (wGroups tagO) false).OC)) := by
  simp only [Plain.stores, Sizes.channelWeights, List.map_flatMap, List.map_map]
  congr 1
  funext ic
  congr 1
  funext h
  congr 1
  funext w
  rw [Function.comp_apply, storeAt, Store.mk.injEq]
  have hdst := offV_plain hl.outputWF hl.outputPlain hl.outputNdims ⟨g, oc, ic, h, w⟩
  have hsrc := offV_plain hl.inputWF hl.plain hl.inputNdims ⟨g, oc, ic, h, w⟩
  exact ⟨hdst.symm, hsrc.symm, rfl, rfl⟩

/-- The writes of one channel to the weights. -/
def channelWrites (outputD : MemoryDesc) (wGroups is1d : Bool) (n : Sizes) (val : Weight → Int8) (ch : ℕ × ℕ) :
    List (ℤ × Int8) :=
  (n.channelWeights ch.1 ch.2).map fun x => (outputD.offV (x.pos wGroups is1d) false, val x)

/-- The stores of one channel, all of them with the same compensation. -/
theorem foldlM_channel {n : Sizes} {scale : ℕ → ℕ → ℕ} {wGroups is1d : Bool} {val : Weight → Int8}
    (hval : ∀ x, n.Mem x → args.value (storeAt inputD outputD wGroups is1d scale (compIdx n.OC) x) = some (val x))
    {ch : ℕ × ℕ} (hg : ch.1 < n.G) (hoc : ch.2 < n.OC) (st : Output) :
    ∃ out, ((n.channelWeights ch.1 ch.2).map
        (storeAt inputD outputD wGroups is1d scale (compIdx n.OC))).foldlM (args.store 1) st = some out ∧
      out.weights = applyWrites (channelWrites outputD wGroups is1d n val ch) st.weights ∧
      toS32 (out.cp (compIdx n.OC ch.1 ch.2)) =
        toS32 (st.cp (compIdx n.OC ch.1 ch.2) - n.channelSum ch.1 ch.2 fun x => (val x).toInt) ∧
      ∀ c, c ≠ compIdx n.OC ch.1 ch.2 → out.cp c = st.cp c := by
  let v : Store → Int8 := fun s => (args.value s).getD 0
  have hmem : ∀ x ∈ n.channelWeights ch.1 ch.2, n.Mem x ∧ x.g = ch.1 ∧ x.oc = ch.2 :=
    fun x hx => (Sizes.mem_channelWeights hg hoc).mp hx
  have hv : ∀ x ∈ n.channelWeights ch.1 ch.2,
      v (storeAt inputD outputD wGroups is1d scale (compIdx n.OC) x) = val x := by
    intro x hx
    show (args.value _).getD 0 = val x
    rw [hval x (hmem x hx).1, Option.getD_some]
  have hcomp : ∀ x ∈ n.channelWeights ch.1 ch.2,
      (storeAt inputD outputD wGroups is1d scale (compIdx n.OC) x).comp = compIdx n.OC ch.1 ch.2 := by
    intro x hx
    obtain ⟨-, hxg, hxoc⟩ := hmem x hx
    show compIdx n.OC x.g x.oc = _
    rw [hxg, hxoc]
  have hvalue : ∀ s ∈ (n.channelWeights ch.1 ch.2).map (storeAt inputD outputD wGroups is1d scale (compIdx n.OC)),
      args.value s = some (v s) := by
    intro s hs
    obtain ⟨x, hx, rfl⟩ := List.mem_map.mp hs
    rw [hv x hx]
    exact hval x (hmem x hx).1
  obtain ⟨out, hout, hweights, hcp, hother, -⟩ := foldlM_store hvalue 1 st
  refine ⟨out, hout, ?_, ?_, ?_⟩
  · rw [hweights, List.map_map]
    unfold channelWrites
    congr 1
    apply List.map_congr_left
    intro x hx
    exact Prod.ext rfl (hv x hx)
  · rw [hcp, one_mul]
    congr 2
    rw [← Sizes.sum_channelWeights]
    unfold compSum
    rw [List.map_map]
    congr 1
    apply List.map_congr_left
    intro x hx
    rw [Function.comp_apply, if_pos (hcomp x hx), hv x hx]
  · intro c hc
    apply hother
    intro s hs hsc
    obtain ⟨x, hx, rfl⟩ := List.mem_map.mp hs
    exact hc (hsc.symm.trans (hcomp x hx))

/-- The iteration for one channel. -/
theorem Plain.channel_eq (hl : Plain.Layouts tagO inputD outputD) {n : Sizes}
    (hn : sizes inputD (wGroups tagO) false = n) {val : Weight → Int8}
    (hval : ∀ x, n.Mem x → args.value (storeAt inputD outputD (wGroups tagO) false
      (scaleIdx inputD mask n.OC) (compIdx n.OC) x) = some (val x))
    {ch : ℕ × ℕ} (hg : ch.1 < n.G) (hoc : ch.2 < n.OC) (st : Output) :
    Plain.channel args tagO inputD outputD mask st ch = some {
      weights := applyWrites (channelWrites outputD (wGroups tagO) false n val ch) st.weights
      cp := Function.update st.cp (compIdx n.OC ch.1 ch.2)
        (toS32 (-128 * n.channelSum ch.1 ch.2 fun x => (val x).toInt)) } := by
  obtain ⟨out, hout, hweights, hcp, hother⟩ := foldlM_channel hval hg hoc
    { st with cp := Function.update st.cp (compIdx n.OC ch.1 ch.2) 0 }
  have hstores := Plain.stores_eq hl mask ch.1 ch.2
  rw [hn] at hstores
  have hfinal : toS32 (out.cp (compIdx n.OC ch.1 ch.2) * 128) =
      toS32 (-128 * n.channelSum ch.1 ch.2 fun x => (val x).toInt) := by
    rw [← toS32_mul, hcp]
    dsimp only
    rw [Function.update_self, toS32_mul]
    congr 1
    ring
  unfold Plain.channel
  dsimp only
  rw [hn, hstores]
  have hidx : ch.1 * n.OC + ch.2 = compIdx n.OC ch.1 ch.2 := rfl
  rw [hidx, hout]
  refine congrArg some ?_
  rw [Output.mk.injEq]
  constructor
  · exact hweights
  · funext c
    by_cases hc : c = compIdx n.OC ch.1 ch.2
    · rw [hc, Function.update_self, Function.update_self, hfinal]
    · rw [Function.update_of_ne hc, Function.update_of_ne hc, hother c hc]
      exact Function.update_of_ne hc _ _

theorem Plain.foldlM_channel_eq (hl : Plain.Layouts tagO inputD outputD) {n : Sizes}
    (hn : sizes inputD (wGroups tagO) false = n) {val : Weight → Int8}
    (hval : ∀ x, n.Mem x → args.value (storeAt inputD outputD (wGroups tagO) false
      (scaleIdx inputD mask n.OC) (compIdx n.OC) x) = some (val x))
    {chs : List (ℕ × ℕ)} (hchs : ∀ ch ∈ chs, ch.1 < n.G ∧ ch.2 < n.OC) (st : Output) :
    chs.foldlM (Plain.channel args tagO inputD outputD mask) st = some {
      weights := applyWrites (chs.flatMap (channelWrites outputD (wGroups tagO) false n val)) st.weights
      cp := applyWrites (chs.map fun ch => (compIdx n.OC ch.1 ch.2,
        toS32 (-128 * n.channelSum ch.1 ch.2 fun x => (val x).toInt))) st.cp } := by
  induction chs generalizing st with
  | nil => rfl
  | cons ch chs ih =>
    obtain ⟨hg, hoc⟩ := hchs ch List.mem_cons_self
    rw [List.foldlM_cons, Plain.channel_eq hl hn hval hg hoc]
    show chs.foldlM _ _ = _
    rw [ih fun x hx => hchs x (List.mem_cons_of_mem _ hx), List.flatMap_cons, applyWrites_append]
    rfl

end Plain

/-! ## Outcomes -/

/-- The outcome of an execution that quantises weight `x` to `val x` and adds the compensation of channel
`oc` of group `g` up at index `comp g oc`. -/
structure Outcome (outputD : MemoryDesc) (wGroups is1d : Bool) (n : Sizes) (comp : ℕ → ℕ → ℕ)
    (val : Weight → Int8) (out : Output) : Prop where
  weights : ∀ x, n.Mem x → out.weights (outputD.offV (x.pos wGroups is1d) false) = val x
  cp : ∀ g < n.G, ∀ oc < n.OC, out.cp (g * outputD.paddedDims (wGroups.toNat + 0) + oc) =
    toS32 (-128 * ∑ g' ∈ Finset.range n.G, ∑ oc' ∈ Finset.range n.OC, n.channelSum g' oc' fun x =>
      if comp g' oc' = g * outputD.paddedDims (wGroups.toNat + 0) + oc then (val x).toInt else 0)

theorem compIdx_inj {OC g g' oc oc' : ℕ} (hoc : oc < OC) (hoc' : oc' < OC)
    (h : g' * OC + oc' = g * OC + oc) : g' = g ∧ oc' = oc := by
  have hdiv : (oc' + OC * g') / OC = (oc + OC * g) / OC := by
    rw [Nat.add_comm oc', Nat.add_comm oc, Nat.mul_comm OC, Nat.mul_comm OC, h]
  have hpos : 0 < OC := by omega
  rw [Nat.add_mul_div_left _ _ hpos, Nat.add_mul_div_left _ _ hpos, Nat.div_eq_of_lt hoc, Nat.div_eq_of_lt hoc',
    Nat.zero_add, Nat.zero_add] at hdiv
  subst hdiv
  exact ⟨rfl, by omega⟩

section Outcomes

variable {α F : Type*} {args : Args α F} {inputD outputD : MemoryDesc} {mask : ℕ} {val : Weight → Int8} {n : Sizes}

theorem Plain.outcome {tagO : FormatTag} (hl : Plain.Layouts tagO inputD outputD)
    (hn : sizes inputD (wGroups tagO) false = n) (hsep : Separates outputD (wGroups tagO) false n)
    (hpad : outputD.paddedDims ((wGroups tagO).toNat + 0) = n.OC)
    (hval : ∀ x, n.Mem x → args.value (storeAt inputD outputD (wGroups tagO) false
      (scaleIdx inputD mask n.OC) (compIdx n.OC) x) = some (val x)) (st : Output) :
    ∃ out, Plain.execute args tagO inputD outputD mask st = some out ∧
      Outcome outputD (wGroups tagO) false n (compIdx n.OC) val out := by
  have hmem : ∀ ch, ch ∈ (List.range n.G).flatMap (fun g => (List.range n.OC).map fun oc => (g, oc)) ↔
      ch.1 < n.G ∧ ch.2 < n.OC := by
    rintro ⟨g, oc⟩
    simp
  have hrun := Plain.foldlM_channel_eq hl hn hval (fun ch hch => (hmem ch).mp hch) st
  rw [← hn] at hrun
  have hexec : Plain.execute args tagO inputD outputD mask st = _ := hrun
  rw [hn] at hexec
  refine ⟨_, hexec, { weights := ?_, cp := ?_ }⟩
  · intro x hx
    apply applyWrites_of_mem
    · intro w hw w' hw' he
      obtain ⟨ch, hch, hw⟩ := List.mem_flatMap.mp hw
      obtain ⟨y, hy, rfl⟩ := List.mem_map.mp hw
      obtain ⟨ch', hch', hw'⟩ := List.mem_flatMap.mp hw'
      obtain ⟨y', hy', rfl⟩ := List.mem_map.mp hw'
      have hyn := (Sizes.mem_channelWeights ((hmem ch).mp hch).1 ((hmem ch).mp hch).2).mp hy
      have hyn' := (Sizes.mem_channelWeights ((hmem ch').mp hch').1 ((hmem ch').mp hch').2).mp hy'
      rw [hsep y y' hyn.1 hyn'.1 he]
    · rw [List.mem_flatMap]
      refine ⟨(x.g, x.oc), (hmem _).mpr ⟨hx.g, hx.oc⟩, ?_⟩
      exact List.mem_map_of_mem ((Sizes.mem_channelWeights hx.g hx.oc).mpr ⟨hx, rfl, rfl⟩)
  · intro g hg oc hoc
    rw [hpad]
    have hsingle := sum_single_channel (compIdx n.OC) (fun x => (val x).toInt) hg hoc
      (fun g' _ oc' hoc' he => compIdx_inj hoc hoc' he)
    have hidx : g * n.OC + oc = compIdx n.OC g oc := rfl
    rw [hidx, hsingle]
    apply applyWrites_of_mem
    · apply Consistent.of_map
      intro ch hch ch' hch' he
      obtain ⟨h1, h2⟩ := compIdx_inj ((hmem ch').mp hch').2 ((hmem ch).mp hch).2 he
      rw [h1, h2]
    · exact List.mem_map_of_mem (f := fun ch : ℕ × ℕ => (compIdx n.OC ch.1 ch.2,
        toS32 (-128 * n.channelSum ch.1 ch.2 fun x => (val x).toInt))) ((hmem (g, oc)).mpr ⟨hg, hoc⟩)

theorem Blocked.outcome {tagO : FormatTag} (hl : Blocked.Layouts tagO inputD outputD)
    (hn : sizes inputD (wGroups tagO) (is1d tagO) = n)
    (hsep : Separates outputD (wGroups tagO) (is1d tagO) n)
    (hval : ∀ x, n.Mem x → args.value (storeAt inputD outputD (wGroups tagO) (is1d tagO)
      (Blocked.scaleIdx tagO inputD outputD mask) (Blocked.compIdx tagO outputD) x) = some (val x)) (st : Output) :
    ∃ out, Blocked.execute args tagO inputD outputD mask st = some out ∧
      Outcome outputD (wGroups tagO) (is1d tagO) n (Blocked.compIdx tagO outputD) val out := by
  have hstores := Blocked.storesOf hl mask
  rw [hn] at hstores
  obtain ⟨out, hout, hweights, hcp⟩ := run_of_storesOf hstores hsep hval 128
    (st.zero (n.G * nbOC tagO outputD * blksize tagO))
  refine ⟨out, ?_, hweights, ?_⟩
  · unfold Blocked.execute
    dsimp only
    rw [hn]
    exact hout
  · intro g hg oc hoc
    have hpad : nbOC tagO outputD * blksize tagO = outputD.paddedDims ((wGroups tagO).toNat + 0) := by
      unfold nbOC
      rw [hl.paddedOC, rndUp_div hl.inner.blk_pos, rndUp_eq]
    have hle : n.OC ≤ outputD.paddedDims ((wGroups tagO).toNat + 0) := by
      rw [hl.paddedOC, hn]
      exact le_rndUp hl.inner.blk_pos
    have hzero : (st.zero (n.G * nbOC tagO outputD * blksize tagO)).cp
        (g * outputD.paddedDims ((wGroups tagO).toNat + 0) + oc) = 0 := by
      apply if_pos
      rw [Nat.mul_assoc, hpad]
      calc g * outputD.paddedDims ((wGroups tagO).toNat + 0) + oc
          < (g + 1) * outputD.paddedDims ((wGroups tagO).toNat + 0) := by
            rw [Nat.succ_mul]
            omega
        _ ≤ n.G * outputD.paddedDims ((wGroups tagO).toNat + 0) := Nat.mul_le_mul_right _ hg
    rw [hcp _ (by rw [hzero, toS32_zero]), hzero, zero_sub, neg_mul]

theorem Depthwise.outcome {tagI : FormatTag} (hl : Depthwise.Layouts tagI inputD outputD)
    (hn : sizes inputD true (is1d tagI) = n) (hsep : Separates outputD true (is1d tagI) n)
    (hpad : outputD.paddedDims 1 = n.OC)
    (hval : ∀ x, n.Mem x → args.value (storeAt inputD outputD true (is1d tagI)
      (Depthwise.scaleIdx inputD mask n.OC) (Depthwise.compIdx n.OC) x) = some (val x)) (st : Output) :
    ∃ out, Depthwise.execute args tagI inputD outputD mask st = some out ∧
      Outcome outputD true (is1d tagI) n (Depthwise.compIdx n.OC) val out := by
  have hstores := Depthwise.storesOf hl mask
  rw [hn] at hstores
  obtain ⟨out, hout, hweights, hcp⟩ := run_of_storesOf hstores hsep hval 128
    (st.zero (outputD.paddedDims 0 / 16 * n.OC * 16))
  refine ⟨out, ?_, hweights, ?_⟩
  · unfold Depthwise.execute
    dsimp only
    rw [hn]
    exact hout
  · intro g hg oc hoc
    have hzero : (st.zero (outputD.paddedDims 0 / 16 * n.OC * 16)).cp
        (g * outputD.paddedDims (Bool.toNat true + 0) + oc) = 0 := by
      apply if_pos
      have hone : Bool.toNat true + 0 = 1 := rfl
      have hle : n.G ≤ outputD.paddedDims 0 / 16 * 16 := by
        rw [hl.paddedG, rndUp_div (by omega), ← rndUp_eq, hn]
        exact le_rndUp (by omega)
      rw [hone, hpad, Nat.mul_right_comm]
      calc g * n.OC + oc < (g + 1) * n.OC := by
            rw [Nat.succ_mul]
            omega
        _ ≤ outputD.paddedDims 0 / 16 * 16 * n.OC := Nat.mul_le_mul_right _ (hg.trans_le hle)
    rw [hcp _ (by rw [hzero, toS32_zero]), hzero, zero_sub, neg_mul]

end Outcomes

end MklDnn.ConvS8s8
