import Mathlib.Tactic.Ring
import MklDnn.Lib.Sums
import MklDnn.Lib.Writes
import MklDnn.Reorder.ConvS8s8
import MklDnn.Reorder.Proofs.InitProofs

/-!
# Proofs: the loops of the reorders with compensation

What a list of stores leaves in the weights and in the compensation, and which weights the loops of the
three implementations run through.
-/

open LoopNest

namespace MklDnn.ConvS8s8

/-! ## Values of `int32_t` -/

theorem toS32_toS32 (x : ℤ) : toS32 (toS32 x) = toS32 x := by
  unfold toS32
  exact Int.bmod_bmod

theorem toS32_sub (x y : ℤ) : toS32 (toS32 x - y) = toS32 (x - y) := by
  unfold toS32
  exact Int.bmod_sub_bmod

theorem toS32_mul (x y : ℤ) : toS32 (toS32 x * y) = toS32 (x * y) := by
  unfold toS32
  exact Int.bmod_mul_bmod

theorem toS32_eq {x : ℤ} (hle : -2 ^ 31 ≤ x) (hlt : x < 2 ^ 31) : toS32 x = x := by
  unfold toS32
  exact Int.bmod_eq_of_le (by omega) (by omega)

theorem toS32_lt (x : ℤ) : toS32 x < 2 ^ 31 := by
  have h := @Int.bmod_lt x (2 ^ 32) (by omega)
  unfold toS32
  omega

theorem toS32_zero : toS32 0 = 0 := toS32_eq (by omega) (by omega)

/-! ## Lists of stores -/

section Run

variable {α F : Type*} {args : Args α F}

/-- What a list of stores adds up for entry `c` of the compensation. -/
def compSum (v : Store → Int8) (c : ℕ) (l : List Store) : ℤ :=
  (l.map fun s => if s.comp = c then (v s).toInt else 0).sum

/-- A list of stores whose scales exist. -/
theorem foldlM_store {l : List Store} {v : Store → Int8} (hv : ∀ s ∈ l, args.value s = some (v s))
    (factor : ℤ) (st : Output) :
    ∃ out, l.foldlM (args.store factor) st = some out ∧
      out.weights = applyWrites (l.map fun s => (s.dst, v s)) st.weights ∧
      (∀ c, toS32 (out.cp c) = toS32 (st.cp c - factor * compSum v c l)) ∧
      (∀ c, (∀ s ∈ l, s.comp ≠ c) → out.cp c = st.cp c) ∧
      ∀ c, toS32 (st.cp c) = st.cp c → toS32 (out.cp c) = out.cp c := by
  induction l generalizing st with
  | nil =>
    refine ⟨st, rfl, rfl, fun c => ?_, fun c _ => rfl, fun c h => h⟩
    show _ = toS32 (st.cp c - factor * 0)
    rw [mul_zero, sub_zero]
  | cons s l ih =>
    let st' : Output := {
      weights := Function.update st.weights s.dst (v s)
      cp := Function.update st.cp s.comp (toS32 (st.cp s.comp - factor * (v s).toInt)) }
    have hstore : args.store factor st s = some st' := by
      unfold Args.store
      rw [hv s List.mem_cons_self]
      rfl
    obtain ⟨out, hout, hweights, hcp, hother, hrange⟩ := ih (fun x hx => hv x (List.mem_cons_of_mem _ hx)) st'
    refine ⟨out, ?_, ?_, fun c => ?_, fun c hc => ?_, fun c hc => ?_⟩
    · rw [List.foldlM_cons, hstore]
      exact hout
    · rw [hweights]
      rfl
    · have hsum : compSum v c (s :: l) = (if s.comp = c then (v s).toInt else 0) + compSum v c l := rfl
      rw [hcp c, hsum, mul_add, ← sub_sub]
      by_cases hsc : s.comp = c
      · subst hsc
        show toS32 (Function.update st.cp s.comp _ s.comp - _) = _
        rw [Function.update_self, toS32_sub, if_pos rfl]
      · show toS32 (Function.update st.cp s.comp _ c - _) = _
        rw [Function.update_of_ne (Ne.symm hsc), if_neg hsc, mul_zero, sub_zero]
    · rw [hother c fun x hx => hc x (List.mem_cons_of_mem _ hx)]
      exact Function.update_of_ne (hc s List.mem_cons_self).symm _ _
    · apply hrange c
      show toS32 (Function.update st.cp s.comp _ c) = Function.update st.cp s.comp _ c
      by_cases hsc : c = s.comp
      · subst hsc
        rw [Function.update_self, toS32_toS32]
      · rw [Function.update_of_ne hsc]
        exact hc

/-- If the stores succeed, all scales exist. -/
theorem value_of_foldlM {l : List Store} {factor : ℤ} {st out : Output}
    (h : l.foldlM (args.store factor) st = some out) : ∀ s ∈ l, ∃ o, args.value s = some o := by
  induction l generalizing st with
  | nil =>
    intro s hs
    cases hs
  | cons s l ih =>
    rw [List.foldlM_cons] at h
    cases hs : args.value s with
    | none =>
      have hnone : args.store factor st s = none := by
        unfold Args.store
        rw [hs]
        rfl
      rw [hnone] at h
      cases h
    | some o =>
      have hsome : ∃ st', args.store factor st s = some st' := by
        unfold Args.store
        rw [hs]
        exact ⟨_, rfl⟩
      obtain ⟨st', hst'⟩ := hsome
      rw [hst'] at h
      intro x hx
      rcases List.mem_cons.mp hx with rfl | hx
      · exact ⟨o, hs⟩
      · exact ih h x hx

theorem applyWrites_append {A V : Type*} [DecidableEq A] (a b : List (A × V)) (m : A → V) :
    applyWrites (a ++ b) m = applyWrites b (applyWrites a m) :=
  List.foldl_append

end Run

/-! ## The weights in the order of the loops -/

/-- The indices of a weight. -/
structure Weight where
  g : ℕ
  oc : ℕ
  ic : ℕ
  h : ℕ
  w : ℕ

/-- The weights of a tensor. -/
structure Sizes.Mem (n : Sizes) (x : Weight) : Prop where
  g : x.g < n.G
  oc : x.oc < n.OC
  ic : x.ic < n.IC
  h : x.h < n.H
  w : x.w < n.W

/-- A sum over the weights of one channel. -/
def Sizes.channelSum (n : Sizes) (g oc : ℕ) (f : Weight → ℤ) : ℤ :=
  ∑ ic ∈ Finset.range n.IC, ∑ h ∈ Finset.range n.H, ∑ w ∈ Finset.range n.W, f ⟨g, oc, ic, h, w⟩

/-- A list with one store for each weight. -/
structure StoresOf (n : Sizes) (store : Weight → Store) (l : List Store) : Prop where
  mem : ∀ s, s ∈ l ↔ ∃ x, n.Mem x ∧ s = store x
  sum : ∀ f : Store → ℤ, (l.map f).sum =
    ∑ g ∈ Finset.range n.G, ∑ oc ∈ Finset.range n.OC, n.channelSum g oc fun x => f (store x)

/-- A sum block by block, the last block cut off. -/
theorem sum_blocks {n blk : ℕ} (hblk : 0 < blk) (f : ℕ → ℤ) :
    ∑ b ∈ Finset.range (divUp n blk), ∑ i ∈ Finset.range (min blk (n - b * blk)), f (b * blk + i) =
      ∑ x ∈ Finset.range n, f x := by
  have hpart : ∀ k, ∑ b ∈ Finset.range k, ∑ i ∈ Finset.range (min blk (n - b * blk)), f (b * blk + i) =
      ∑ x ∈ Finset.range (min n (k * blk)), f x := by
    intro k
    induction k with
    | zero => simp
    | succ k ih =>
      rw [Finset.sum_range_succ, ih, Nat.succ_mul]
      rcases le_total n (k * blk) with hle | hle
      · have hempty : min blk (n - k * blk) = 0 := by omega
        rw [hempty, Finset.sum_range_zero, add_zero]
        congr 2
        omega
      · have hfull : min n (k * blk) = k * blk := by omega
        have hnext : min n (k * blk + blk) = k * blk + min blk (n - k * blk) := by omega
        rw [hfull, hnext, Finset.sum_range_add]
  rw [hpart, min_eq_left]
  exact le_rndUp hblk

/-- An index and its block. -/
theorem lt_iff_exists_block {n blk x : ℕ} (hblk : 0 < blk) :
    x < n ↔ ∃ b < divUp n blk, ∃ i < min blk (n - b * blk), x = b * blk + i := by
  constructor
  · intro hx
    have hdiv := Nat.div_add_mod x blk
    have hmod := Nat.mod_lt x hblk
    rw [Nat.mul_comm] at hdiv
    refine ⟨x / blk, ?_, x % blk, ?_, hdiv.symm⟩
    · by_contra hge
      have hmul : divUp n blk * blk ≤ x / blk * blk := Nat.mul_le_mul_right _ (by omega)
      have hle := @le_rndUp n blk hblk
      rw [rndUp_eq] at hle
      omega
    · omega
  · rintro ⟨b, -, i, hi, rfl⟩
    omega

/-! ## Offsets -/

/-- The position of a weight. -/
def Weight.pos (wGroups is1d : Bool) (x : Weight) : ℕ → ℕ :=
  fun d => (idxs wGroups is1d x.g x.oc x.ic x.h x.w).getD d 0

/-- The number of dimensions. -/
def ndimsOf (wGroups is1d : Bool) : ℕ := 4 + wGroups.toNat - is1d.toNat

theorem weiBlkOff_eq (md : MemoryDesc) (wGroups is1d : Bool) (g o i h w : ℕ) :
    weiBlkOff md wGroups is1d g o i h w = md.offset0 +
      ∑ d ∈ Finset.range (ndimsOf wGroups is1d),
        ((idxs wGroups is1d g o i h w).getD d 0 : ℤ) * md.blocking.strides d := by
  cases wGroups <;> cases is1d <;>
    simp [weiBlkOff, MemoryDesc.blkOff, idxs, ndimsOf, Finset.sum_range_succ, List.zipIdx] <;> ring

/-- The offset in a plain tensor. -/
theorem offV_plain {md : MemoryDesc} {wGroups is1d : Bool} (hwf : md.WellFormed)
    (hinner : md.blocking.inner = []) (hndims : md.ndims = ndimsOf wGroups is1d) (x : Weight) :
    md.offV (x.pos wGroups is1d) false = weiBlkOff md wGroups is1d x.g x.oc x.ic x.h x.w := by
  rw [hwf.offV_eq, MemoryDesc.offV_padded hwf.valid, weiBlkOff_eq, hndims]
  congr 1
  apply Finset.sum_congr rfl
  intro d _
  unfold MemoryDesc.dimOff
  rw [hinner]
  simp [innerOff, Weight.pos]

/-- The inner blocks of `oc` and `ic`. -/
structure InnerLayout (inner : List InnerBlk) (wGroups : Bool) (blk : ℕ) (index : ℕ → ℕ → ℕ) : Prop where
  blk_pos : 0 < blk
  blocks_oc : innerBlocks inner (wGroups.toNat + 0) = blk
  blocks_ic : innerBlocks inner (wGroups.toNat + 1) = blk
  blocks_other : ∀ d, d ≠ wGroups.toNat + 0 → d ≠ wGroups.toNat + 1 → innerBlocks inner d = 1
  off : ∀ oc ic, innerOff inner (wGroups.toNat + 0) oc + innerOff inner (wGroups.toNat + 1) ic =
    index (oc % blk) (ic % blk)
  off_other : ∀ d x, d ≠ wGroups.toNat + 0 → d ≠ wGroups.toNat + 1 → innerOff inner d x = 0

/-- The output formats of the blocked reorders. -/
def blockedTags : List FormatTag := [.ABc4b16a4b, .aBCd4c16b4c, .ABcd4b16a4b, .aBCde4c16b4c, .aBCde2c8b4c, .aBCde4b4c]

theorem innerLayout_of_mem {tagO : FormatTag} (h : tagO ∈ blockedTags) {args : BlockingArgs}
    (hargs : blockingArgs tagO = some args) :
    InnerLayout (List.zipWith InnerBlk.mk args.innerIdxs args.innerBlks) (Blocked.wGroups tagO)
        (Blocked.blksize tagO) (Blocked.index tagO) ∧
      args.perm.length = ndimsOf (Blocked.wGroups tagO) (Blocked.is1d tagO) := by
  simp only [blockedTags, List.mem_cons, List.not_mem_nil, or_false] at h
  rcases h with rfl | rfl | rfl | rfl | rfl | rfl <;> cases hargs <;>
    exact ⟨{
      blk_pos := by decide
      blocks_oc := by decide
      blocks_ic := by decide
      blocks_other := by
        intro d h0 h1
        simp [Blocked.wGroups] at h0 h1
        simp [innerBlocks_cons, Ne.symm h0, Ne.symm h1]
      off := by
        intro oc ic
        simp [Blocked.wGroups, Blocked.index, Blocked.blksize, innerOff, innerBlocks_cons]
        omega
      off_other := by
        intro d x h0 h1
        simp [Blocked.wGroups] at h0 h1
        simp [innerOff, Ne.symm h0, Ne.symm h1] }, by decide⟩

/-- The offset in a tensor with blocks of `oc` and `ic`. -/
theorem offV_blocked {md : MemoryDesc} {wGroups is1d : Bool} {blk : ℕ} {index : ℕ → ℕ → ℕ}
    (hwf : md.WellFormed) (hlay : InnerLayout md.blocking.inner wGroups blk index)
    (hndims : md.ndims = ndimsOf wGroups is1d) (x : Weight) :
    md.offV (x.pos wGroups is1d) false =
      weiBlkOff md wGroups is1d x.g (x.oc / blk) (x.ic / blk) x.h x.w + index (x.oc % blk) (x.ic % blk) := by
  have hoc := hlay.blocks_oc
  have hic := hlay.blocks_ic
  have hoff := hlay.off x.oc x.ic
  have hother := hlay.blocks_other
  have hoffOther := hlay.off_other
  rw [hwf.offV_eq, MemoryDesc.offV_padded hwf.valid, weiBlkOff_eq, hndims, ← hoff]
  unfold MemoryDesc.dimOff
  cases wGroups <;> cases is1d <;>
    simp [ndimsOf, Finset.sum_range_succ, Weight.pos, idxs] at hoc hic hother hoffOther ⊢ <;>
    simp [hoc, hic, hother, hoffOther] <;> ring

/-- The inner block of the groups. -/
theorem groupLayout {tagO : FormatTag} (h : tagO = .Abcd16a ∨ tagO = .Abcde16a) {args : BlockingArgs}
    (hargs : blockingArgs tagO = some args) :
    List.zipWith InnerBlk.mk args.innerIdxs args.innerBlks = [⟨0, 16⟩] ∧
      args.perm.length = ndimsOf true (tagO = .Abcd16a) := by
  rcases h with rfl | rfl <;> cases hargs <;> exact ⟨by decide, by decide⟩

/-- The offset in a tensor with blocks of groups. -/
theorem offV_depthwise {md : MemoryDesc} {is1d : Bool} (hwf : md.WellFormed)
    (hinner : md.blocking.inner = [⟨0, 16⟩]) (hndims : md.ndims = ndimsOf true is1d) (x : Weight) :
    md.offV (x.pos true is1d) false =
      weiBlkOff md true is1d (x.g / 16) x.oc x.ic x.h x.w + (x.g % 16 : ℕ) := by
  rw [hwf.offV_eq, MemoryDesc.offV_padded hwf.valid, weiBlkOff_eq, hndims]
  unfold MemoryDesc.dimOff
  rw [hinner]
  cases is1d <;>
    simp [ndimsOf, Finset.sum_range_succ, Weight.pos, idxs, innerOff, innerBlocks_cons] <;> ring

/-- A weight within its block is read at its offset. -/
theorem weiBlkOff_add (md : MemoryDesc) (wGroups is1d : Bool) (g O I h w blk oc ic : ℕ) :
    weiBlkOff md wGroups is1d g (blk * O) (blk * I) h w +
        (oc * md.blocking.strides (wGroups.toNat + 0) + ic * md.blocking.strides (wGroups.toNat + 1)) =
      weiBlkOff md wGroups is1d g (O * blk + oc) (I * blk + ic) h w := by
  rw [weiBlkOff_eq, weiBlkOff_eq]
  cases wGroups <;> cases is1d <;> simp [ndimsOf, Finset.sum_range_succ, idxs] <;> ring

theorem weiBlkOff_add_group (md : MemoryDesc) (is1d : Bool) (gb g oc ic h w : ℕ) :
    weiBlkOff md true is1d (gb * 16) oc ic h w + g * md.blocking.strides 0 =
      weiBlkOff md true is1d (gb * 16 + g) oc ic h w := by
  rw [weiBlkOff_eq, weiBlkOff_eq]
  cases is1d <;> simp [ndimsOf, Finset.sum_range_succ, idxs] <;> ring

/-! ## The stores of the implementations -/

/-- The two inner loops of a sum brought to the front. -/
theorem sum_comm_last {a b c d : ℕ} (f : ℕ → ℕ → ℕ → ℕ → ℤ) :
    ∑ h ∈ Finset.range a, ∑ w ∈ Finset.range b, ∑ i ∈ Finset.range c, ∑ o ∈ Finset.range d, f h w i o =
      ∑ o ∈ Finset.range d, ∑ i ∈ Finset.range c, ∑ h ∈ Finset.range a, ∑ w ∈ Finset.range b, f h w i o := by
  have hw : ∀ h, ∑ w ∈ Finset.range b, ∑ i ∈ Finset.range c, ∑ o ∈ Finset.range d, f h w i o =
      ∑ o ∈ Finset.range d, ∑ i ∈ Finset.range c, ∑ w ∈ Finset.range b, f h w i o := by
    intro h
    calc _ = ∑ i ∈ Finset.range c, ∑ w ∈ Finset.range b, ∑ o ∈ Finset.range d, f h w i o := Finset.sum_comm
      _ = ∑ i ∈ Finset.range c, ∑ o ∈ Finset.range d, ∑ w ∈ Finset.range b, f h w i o :=
        Finset.sum_congr rfl fun _ _ => Finset.sum_comm
      _ = _ := Finset.sum_comm
  calc _ = ∑ h ∈ Finset.range a, ∑ o ∈ Finset.range d, ∑ i ∈ Finset.range c, ∑ w ∈ Finset.range b, f h w i o :=
        Finset.sum_congr rfl fun h _ => hw h
    _ = ∑ o ∈ Finset.range d, ∑ h ∈ Finset.range a, ∑ i ∈ Finset.range c, ∑ w ∈ Finset.range b, f h w i o :=
        Finset.sum_comm
    _ = _ := Finset.sum_congr rfl fun _ _ => Finset.sum_comm

/-- The innermost loop of a sum brought to the front. -/
theorem sum_comm_front {a b c d : ℕ} (f : ℕ → ℕ → ℕ → ℕ → ℤ) :
    ∑ i ∈ Finset.range a, ∑ h ∈ Finset.range b, ∑ w ∈ Finset.range c, ∑ g ∈ Finset.range d, f i h w g =
      ∑ g ∈ Finset.range d, ∑ i ∈ Finset.range a, ∑ h ∈ Finset.range b, ∑ w ∈ Finset.range c, f i h w g := by
  calc _ = ∑ i ∈ Finset.range a, ∑ h ∈ Finset.range b, ∑ g ∈ Finset.range d, ∑ w ∈ Finset.range c, f i h w g :=
        Finset.sum_congr rfl fun _ _ => Finset.sum_congr rfl fun _ _ => Finset.sum_comm
    _ = ∑ i ∈ Finset.range a, ∑ g ∈ Finset.range d, ∑ h ∈ Finset.range b, ∑ w ∈ Finset.range c, f i h w g :=
        Finset.sum_congr rfl fun _ _ => Finset.sum_comm
    _ = _ := Finset.sum_comm

/-- The store of a weight, by the indices of its scale and its compensation. -/
def storeAt (inputD outputD : MemoryDesc) (wGroups is1d : Bool) (scale comp : ℕ → ℕ → ℕ) (x : Weight) : Store where
  dst := outputD.offV (x.pos wGroups is1d) false
  src := inputD.offV (x.pos wGroups is1d) false
  scale := scale x.g x.oc
  comp := comp x.g x.oc

section Blocked

variable {inputD outputD : MemoryDesc} {tagO : FormatTag}

/-- What the blocked reorders know of their descriptors. -/
structure Blocked.Layouts (tagO : FormatTag) (inputD outputD : MemoryDesc) : Prop where
  inputWF : inputD.WellFormed
  plain : inputD.blocking.inner = []
  inputNdims : inputD.ndims = ndimsOf (Blocked.wGroups tagO) (Blocked.is1d tagO)
  outputWF : outputD.WellFormed
  inner : InnerLayout outputD.blocking.inner (Blocked.wGroups tagO) (Blocked.blksize tagO) (Blocked.index tagO)
  outputNdims : outputD.ndims = ndimsOf (Blocked.wGroups tagO) (Blocked.is1d tagO)
  paddedOC : outputD.paddedDims ((Blocked.wGroups tagO).toNat + 0) =
    rndUp (sizes inputD (Blocked.wGroups tagO) (Blocked.is1d tagO)).OC (Blocked.blksize tagO)
  paddedIC : outputD.paddedDims ((Blocked.wGroups tagO).toNat + 1) =
    rndUp (sizes inputD (Blocked.wGroups tagO) (Blocked.is1d tagO)).IC (Blocked.blksize tagO)

/-- The index of the scale that a blocked reorder reads. -/
def Blocked.scaleIdx (tagO : FormatTag) (inputD outputD : MemoryDesc) (mask : ℕ) (g oc : ℕ) : ℕ :=
  if dMask inputD mask = 1 then oc % blksize tagO
  else g * outputD.paddedDims ((wGroups tagO).toNat + 0) + oc

/-- The index of the compensation that a blocked reorder writes. -/
def Blocked.compIdx (tagO : FormatTag) (outputD : MemoryDesc) (g oc : ℕ) : ℕ :=
  g * outputD.paddedDims ((wGroups tagO).toNat + 0) + oc

/-- The store of the kernel is the one of the weight. -/
theorem Blocked.ker_eq (hl : Blocked.Layouts tagO inputD outputD) (mask g O I h w : ℕ) :
    Blocked.ker tagO inputD outputD mask g O I h w =
      (List.range (min (blksize tagO)
          ((sizes inputD (wGroups tagO) (is1d tagO)).IC - I * blksize tagO))).flatMap fun ic =>
        (List.range (min (blksize tagO)
            ((sizes inputD (wGroups tagO) (is1d tagO)).OC - O * blksize tagO))).map fun oc =>
          storeAt inputD outputD (wGroups tagO) (is1d tagO) (scaleIdx tagO inputD outputD mask)
            (compIdx tagO outputD) ⟨g, O * blksize tagO + oc, I * blksize tagO + ic, h, w⟩ := by
  unfold Blocked.ker
  dsimp only
  apply List.flatMap_congr
  intro ic hic
  apply List.map_congr_left
  intro oc hoc
  have hic' : ic < blksize tagO := by
    have := List.mem_range.mp hic
    omega
  have hoc' : oc < blksize tagO := by
    have := List.mem_range.mp hoc
    omega
  have hdivO : (O * blksize tagO + oc) / blksize tagO = O := by
    rw [Nat.mul_comm, Nat.mul_add_div hl.inner.blk_pos, Nat.div_eq_of_lt hoc', Nat.add_zero]
  have hdivI : (I * blksize tagO + ic) / blksize tagO = I := by
    rw [Nat.mul_comm, Nat.mul_add_div hl.inner.blk_pos, Nat.div_eq_of_lt hic', Nat.add_zero]
  have hmodO : (O * blksize tagO + oc) % blksize tagO = oc := by
    rw [Nat.mul_comm, Nat.mul_add_mod, Nat.mod_eq_of_lt hoc']
  have hmodI : (I * blksize tagO + ic) % blksize tagO = ic := by
    rw [Nat.mul_comm, Nat.mul_add_mod, Nat.mod_eq_of_lt hic']
  have hcomp : (g * nbOC tagO outputD + O) * blksize tagO + oc =
      g * outputD.paddedDims ((wGroups tagO).toNat + 0) + (O * blksize tagO + oc) := by
    have hpad : nbOC tagO outputD * blksize tagO = outputD.paddedDims ((wGroups tagO).toNat + 0) := by
      unfold nbOC
      rw [hl.paddedOC, rndUp_div hl.inner.blk_pos, rndUp_eq]
    rw [← hpad]
    ring
  unfold storeAt
  rw [Store.mk.injEq]
  refine ⟨?_, ?_, ?_, ?_⟩
  · rw [offV_blocked hl.outputWF hl.inner hl.outputNdims]
    dsimp only
    rw [hdivO, hdivI, hmodO, hmodI]
  · rw [offV_plain hl.inputWF hl.plain hl.inputNdims, weiBlkOff_add]
  · unfold scaleIdx
    dsimp only
    split_ifs
    · rw [hmodO, Nat.zero_add]
    · exact hcomp
  · exact hcomp

theorem Blocked.storesOf (hl : Blocked.Layouts tagO inputD outputD) (mask : ℕ) :
    StoresOf (sizes inputD (Blocked.wGroups tagO) (Blocked.is1d tagO))
      (storeAt inputD outputD (Blocked.wGroups tagO) (Blocked.is1d tagO)
        (Blocked.scaleIdx tagO inputD outputD mask) (Blocked.compIdx tagO outputD))
      (Blocked.stores tagO inputD outputD mask) := by
  have hblk := hl.inner.blk_pos
  have hnbOC : nbOC tagO outputD = divUp (sizes inputD (wGroups tagO) (is1d tagO)).OC (blksize tagO) := by
    unfold nbOC
    rw [hl.paddedOC, rndUp_div hblk]
  have hnbIC : nbIC tagO outputD = divUp (sizes inputD (wGroups tagO) (is1d tagO)).IC (blksize tagO) := by
    unfold nbIC
    rw [hl.paddedIC, rndUp_div hblk]
  constructor
  · intro s
    simp only [Blocked.stores, Blocked.ker_eq hl mask, List.mem_flatMap, List.mem_map, List.mem_range, hnbOC, hnbIC]
    constructor
    · rintro ⟨g, hg, O, hO, I, hI, h, hh, w, hw, ic, hic, oc, hoc, rfl⟩
      exact ⟨_, ⟨hg, (lt_iff_exists_block hblk).mpr ⟨O, hO, oc, hoc, rfl⟩,
        (lt_iff_exists_block hblk).mpr ⟨I, hI, ic, hic, rfl⟩, hh, hw⟩, rfl⟩
    · rintro ⟨⟨g, c, k, h, w⟩, ⟨hg, hc, hk, hh, hw⟩, rfl⟩
      obtain ⟨O, hO, oc, hoc, rfl⟩ := (lt_iff_exists_block hblk).mp hc
      obtain ⟨I, hI, ic, hic, rfl⟩ := (lt_iff_exists_block hblk).mp hk
      exact ⟨g, hg, O, hO, I, hI, h, hh, w, hw, ic, hic, oc, hoc, rfl⟩
  · intro f
    simp only [Blocked.stores, Blocked.ker_eq hl mask, sum_map_flatMap, sum_map_range, hnbOC, hnbIC]
    apply Finset.sum_congr rfl
    intro g _
    refine Eq.trans ?_ (sum_blocks hblk _)
    apply Finset.sum_congr rfl
    intro O _
    rw [Finset.sum_congr rfl fun I _ => sum_comm_last _, Finset.sum_comm]
    apply Finset.sum_congr rfl
    intro oc _
    exact sum_blocks hblk fun k => ∑ h ∈ Finset.range _, ∑ w ∈ Finset.range _,
      f (storeAt inputD outputD _ _ _ _ ⟨g, O * blksize tagO + oc, k, h, w⟩)

end Blocked

section Depthwise

variable {inputD outputD : MemoryDesc} {tagI : FormatTag}

/-- What the depthwise reorders know of their descriptors. -/
structure Depthwise.Layouts (tagI : FormatTag) (inputD outputD : MemoryDesc) : Prop where
  inputWF : inputD.WellFormed
  plain : inputD.blocking.inner = []
  inputNdims : inputD.ndims = ndimsOf true (Depthwise.is1d tagI)
  outputWF : outputD.WellFormed
  inner : outputD.blocking.inner = [⟨0, 16⟩]
  outputNdims : outputD.ndims = ndimsOf true (Depthwise.is1d tagI)
  paddedG : outputD.paddedDims 0 = rndUp (sizes inputD true (Depthwise.is1d tagI)).G 16

/-- The index of the scale that a depthwise reorder reads. -/
def Depthwise.scaleIdx (inputD : MemoryDesc) (mask OC g oc : ℕ) : ℕ :=
  (if dMask inputD mask = 1 then 0 else g / 16 * 16 + oc) + g % 16 * OC

/-- The index of the compensation that a depthwise reorder writes. -/
def Depthwise.compIdx (OC g oc : ℕ) : ℕ := g / 16 * 16 + oc + g % 16 * OC

theorem Depthwise.ker_eq (hl : Depthwise.Layouts tagI inputD outputD) (mask gb O I h w : ℕ) :
    Depthwise.ker tagI inputD outputD mask gb O I h w =
      (List.range (min 16 ((sizes inputD true (is1d tagI)).G - gb * 16))).map fun g =>
        storeAt inputD outputD true (is1d tagI)
          (scaleIdx inputD mask (sizes inputD true (is1d tagI)).OC)
          (compIdx (sizes inputD true (is1d tagI)).OC) ⟨gb * 16 + g, O, I, h, w⟩ := by
  unfold Depthwise.ker
  dsimp only
  rw [min_comm]
  apply List.map_congr_left
  intro g hg
  have hg' : g < 16 := by
    have := List.mem_range.mp hg
    omega
  have hdiv : (gb * 16 + g) / 16 = gb := by omega
  have hmod : (gb * 16 + g) % 16 = g := by omega
  unfold storeAt
  rw [Store.mk.injEq]
  refine ⟨?_, ?_, ?_, ?_⟩
  · rw [offV_depthwise hl.outputWF hl.inner hl.outputNdims]
    dsimp only
    rw [hdiv, hmod]
  · rw [offV_plain hl.inputWF hl.plain hl.inputNdims, weiBlkOff_add_group]
  · unfold scaleIdx
    rw [hdiv, hmod]
  · unfold compIdx
    rw [hdiv, hmod]

theorem Depthwise.storesOf (hl : Depthwise.Layouts tagI inputD outputD) (mask : ℕ) :
    StoresOf (sizes inputD true (Depthwise.is1d tagI))
      (storeAt inputD outputD true (Depthwise.is1d tagI)
        (Depthwise.scaleIdx inputD mask (sizes inputD true (Depthwise.is1d tagI)).OC)
        (Depthwise.compIdx (sizes inputD true (Depthwise.is1d tagI)).OC))
      (Depthwise.stores tagI inputD outputD mask) := by
  have hpos : 0 < 16 := by omega
  have hnb : outputD.paddedDims 0 / 16 = divUp (sizes inputD true (is1d tagI)).G 16 := by
    rw [hl.paddedG, rndUp_div hpos]
  constructor
  · intro s
    simp only [Depthwise.stores, Depthwise.ker_eq hl mask, List.mem_flatMap, List.mem_map, List.mem_range, hnb]
    constructor
    · rintro ⟨gb, hgb, O, hO, I, hI, h, hh, w, hw, g, hg, rfl⟩
      exact ⟨_, ⟨(lt_iff_exists_block hpos).mpr ⟨gb, hgb, g, hg, rfl⟩, hO, hI, hh, hw⟩, rfl⟩
    · rintro ⟨⟨k, O, I, h, w⟩, ⟨hk, hO, hI, hh, hw⟩, rfl⟩
      obtain ⟨gb, hgb, g, hg, rfl⟩ := (lt_iff_exists_block hpos).mp hk
      exact ⟨gb, hgb, O, hO, I, hI, h, hh, w, hw, g, hg, rfl⟩
  · intro f
    simp only [Depthwise.stores, Depthwise.ker_eq hl mask, sum_map_flatMap, sum_map_range, hnb]
    refine Eq.trans ?_ (sum_blocks hpos _)
    apply Finset.sum_congr rfl
    intro gb _
    rw [Finset.sum_congr rfl fun O _ => sum_comm_front _, Finset.sum_comm]
    rfl

end Depthwise

end MklDnn.ConvS8s8
