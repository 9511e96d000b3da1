import MklDnn.Common.Proofs.DescInitsProofs
import MklDnn.Common.Proofs.ParallelLoopsProofs
import MklDnn.Lib.Sums
import MklDnn.Lrn.RefLrn
import MklDnn.Memory.Proofs.BuiltProofs
import MklDnn.Memory.Proofs.TagsProofs

/-!
# Proofs: reference LRN

The loops over a window run through the positions of the tensor that are near, and the kernels compute the formula from them.
The offsets of the four layouts are those of the descriptor without its base offset, and all tensors are addressed with them.
-/

open LoopNest Interleaving MixedRadix

namespace MklDnn.RefLrn

/-! ## The formula -/

/-- Two coordinates are at most `halfSize` apart. -/
def Near (halfSize a b : ℕ) : Prop := a ≤ b + halfSize ∧ b ≤ a + halfSize

instance (halfSize a b : ℕ) : Decidable (Near halfSize a b) := inferInstanceAs (Decidable (_ ∧ _))

/-- The positions of an image that the value at a position depends on: channel, row and column. -/
def neighbours (desc : LrnDesc) (c h w : ℕ) : Finset (ℕ × ℕ × ℕ) :=
  (Finset.range desc.C ×ˢ Finset.range desc.H ×ˢ Finset.range desc.W).filter fun x =>
    if desc.acrossChannels then Near desc.halfSize c x.1 ∧ x.2 = (h, w)
    else x.1 = c ∧ Near desc.halfSize h x.2.1 ∧ Near desc.halfSize w x.2.2

section Formula

variable {R : Type*} [Field R] (desc : LrnDesc) (cs : Coeffs R) (x g : ℕ → ℕ → ℕ → ℕ → R)

/-- The scale of a position. -/
def omegaAt (mb c h w : ℕ) : R :=
  cs.k + cs.alpha * (∑ y ∈ neighbours desc c h w, x mb y.1 y.2.1 y.2.2 * x mb y.1 y.2.1 y.2.2) / desc.summands

/-- The result of the forward pass, from the source `x` by position. -/
def fwdFormula (mb c h w : ℕ) : R := x mb c h w * cs.negPow (omegaAt desc cs x mb c h w) cs.beta

/-- The gradient, from the source `x` and the gradient `g` of the result. -/
def bwdFormula (mb c h w : ℕ) : R :=
  cs.negPow (omegaAt desc cs x mb c h w) cs.beta * g mb c h w -
    (∑ y ∈ neighbours desc c h w, x mb y.1 y.2.1 y.2.2 *
        (cs.negPow (omegaAt desc cs x mb y.1 y.2.1 y.2.2) cs.beta * g mb y.1 y.2.1 y.2.2) /
          omegaAt desc cs x mb y.1 y.2.1 y.2.2) *
      ((2 : ℕ) * cs.alpha * cs.beta * x mb c h w / desc.summands)

end Formula

/-- A position of the tensor. -/
structure Inside (desc : LrnDesc) (mb c h w : ℕ) : Prop where
  mb : mb < desc.MB
  c : c < desc.C
  h : h < desc.H
  w : w < desc.W

/-! ## Windows -/

theorem mem_window {halfSize o n x : ℕ} : x ∈ window halfSize o n ↔ x < n ∧ Near halfSize o x := by
  rw [window, List.mem_range'_1, Near]
  omega

theorem nodup_window (halfSize o n : ℕ) : (window halfSize o n).Nodup := List.nodup_range'

variable {desc : LrnDesc} {tag : FormatTag} {mb c h w : ℕ}

theorem mem_taps (hin : Inside desc mb c h w) {x : ℕ × ℕ × ℕ} : x ∈ taps desc c h w ↔ x ∈ neighbours desc c h w := by
  obtain ⟨c', h', w'⟩ := x
  have hc := hin.c
  have hh := hin.h
  have hw := hin.w
  unfold taps neighbours
  split_ifs with hacross
  · simp only [List.mem_map, mem_window, Finset.mem_filter, Finset.mem_product, Finset.mem_range, Prod.mk.injEq]
    constructor
    · rintro ⟨c, ⟨hlt, hnear⟩, rfl, rfl, rfl⟩
      exact ⟨⟨hlt, hh, hw⟩, hnear, rfl, rfl⟩
    · rintro ⟨⟨hlt, -, -⟩, hnear, rfl, rfl⟩
      exact ⟨c', ⟨hlt, hnear⟩, rfl, rfl, rfl⟩
  · simp only [List.mem_flatMap, List.mem_map, mem_window, Finset.mem_filter, Finset.mem_product, Finset.mem_range,
      Prod.mk.injEq]
    constructor
    · rintro ⟨h, ⟨hlt, hnear⟩, w, ⟨hlt', hnear'⟩, rfl, rfl, rfl⟩
      exact ⟨⟨hc, hlt, hlt'⟩, rfl, hnear, hnear'⟩
    · rintro ⟨⟨-, hlt, hlt'⟩, rfl, hnear, hnear'⟩
      exact ⟨h', ⟨hlt, hnear⟩, w', ⟨hlt', hnear'⟩, rfl, rfl, rfl⟩

theorem nodup_taps (desc : LrnDesc) (c h w : ℕ) : (taps desc c h w).Nodup := by
  unfold taps
  split_ifs
  · exact (nodup_window _ _ _).map fun x y heq => (Prod.mk.inj heq).1
  · have hprod : ((window desc.halfSize h desc.H).flatMap fun h => (window desc.halfSize w desc.W).map fun w => (c, h, w)) =
        ((window desc.halfSize h desc.H) ×ˢ (window desc.halfSize w desc.W)).map fun x => (c, x.1, x.2) := by
      refine Eq.trans ?_ List.map_flatMap.symm
      simp only [List.map_map, Function.comp_def]
    rw [hprod]
    exact ((nodup_window _ _ _).product (nodup_window _ _ _)).map fun x y heq => (Prod.mk.inj heq).2

/-- The loops over a window add up what is near. -/
theorem sum_taps {R : Type*} [AddCommMonoid R] (hin : Inside desc mb c h w) (f : ℕ × ℕ × ℕ → R) :
    ((taps desc c h w).map f).sum = ∑ x ∈ neighbours desc c h w, f x := by
  rw [← List.sum_toFinset f (nodup_taps desc c h w)]
  refine Finset.sum_congr (Finset.ext fun x => ?_) fun _ _ => rfl
  rw [List.mem_toFinset, mem_taps hin]

/-- The window contains its position. -/
theorem self_mem_neighbours (hin : Inside desc mb c h w) : (c, h, w) ∈ neighbours desc c h w := by
  have hnear : ∀ a, Near desc.halfSize a a := fun a => ⟨Nat.le_add_right a _, Nat.le_add_right a _⟩
  unfold neighbours
  refine Finset.mem_filter.mpr ⟨?_, ?_⟩
  · simp only [Finset.mem_product, Finset.mem_range]
    exact ⟨hin.c, hin.h, hin.w⟩
  split_ifs
  · exact ⟨hnear c, rfl⟩
  · exact ⟨rfl, hnear h, hnear w⟩

/-- What is near lies in the tensor. -/
theorem Inside.of_mem_neighbours (hin : Inside desc mb c h w) {x : ℕ × ℕ × ℕ} (hx : x ∈ neighbours desc c h w) :
    Inside desc mb x.1 x.2.1 x.2.2 := by
  unfold neighbours at hx
  simp only [Finset.mem_filter, Finset.mem_product, Finset.mem_range] at hx
  exact ⟨hin.mb, hx.1.1, hx.1.2.1, hx.1.2.2⟩

/-! ## Kernels -/

section Kernels

variable {R : Type*} [Field R] {cs : Coeffs R} {src diffDst : ℤ → R}

/-- A loop that picks the term of one iteration and adds up another one. -/
theorem foldl_pick_add {α : Type*} [DecidableEq α] (q : α) (f g : α → R) (l : List α) (ab : R × R) :
    l.foldl (fun ab x => (if x = q then f x else ab.1, ab.2 + g x)) ab =
      (if q ∈ l then f q else ab.1, ab.2 + (l.map g).sum) := by
  induction l generalizing ab with
  | nil => simp
  | cons x l ih =>
    rw [List.foldl_cons, ih, List.map_cons, List.sum_cons, ← add_assoc]
    congr 1
    by_cases hmem : q ∈ l
    · rw [if_pos hmem, if_pos (List.mem_cons_of_mem x hmem)]
    · by_cases hx : x = q
      · subst hx
        simp [hmem]
      · have hne : q ∉ x :: l := fun h => (List.mem_cons.mp h).elim (fun heq => hx heq.symm) hmem
        rw [if_neg hmem, if_neg hne, if_neg hx]

theorem getOmega_eq (hin : Inside desc mb c h w) : getOmega desc tag cs src mb c h w =
    omegaAt desc cs (fun mb c h w => src (dataOff desc tag mb c h w)) mb c h w := by
  unfold getOmega omegaAt
  rw [foldl_add, zero_add, sum_taps hin]

theorem fwdKer_eq (hin : Inside desc mb c h w) : fwdKer desc tag cs src mb c h w =
    fwdFormula desc cs (fun mb c h w => src (dataOff desc tag mb c h w)) mb c h w := by
  rw [fwdKer, getOmega_eq hin, fwdFormula]

theorem bwdKer_eq (hin : Inside desc mb c h w) : bwdKer desc tag cs src diffDst mb c h w =
    bwdFormula desc cs (fun mb c h w => src (dataOff desc tag mb c h w))
      (fun mb c h w => diffDst (dataOff desc tag mb c h w)) mb c h w := by
  unfold bwdKer bwdFormula
  dsimp only
  rw [Nat.cast_ofNat, foldl_pick_add (c, h, w), if_pos ((mem_taps hin).mpr (self_mem_neighbours hin)), zero_add, sum_taps hin,
    getOmega_eq hin]
  congr 2
  refine Finset.sum_congr rfl fun x hx => ?_
  rw [getOmega_eq (hin.of_mem_neighbours hx)]

end Kernels

/-! ## Offsets -/

/-- What the offsets leave out. -/
def shift (desc : LrnDesc) (tag : FormatTag) : ℤ :=
  if isBlocked tag ∨ tag = .abcd ∨ tag = .acdb then desc.dataDesc.offset0 else 0

theorem off_eq {md : MemoryDesc} (hwf : md.WellFormed) (hn : md.ndims = 4) (mb c h w : ℕ) :
    md.off [mb, c, h, w] = md.offset0 + (md.dimOff 0 mb + md.dimOff 1 c + md.dimOff 2 h + md.dimOff 3 w) := by
  rw [MemoryDesc.off, hwf.offV_eq, md.offV_padded hwf.valid, hn]
  simp [Finset.sum_range_succ]

section Tags

/-- `nChw16c` and `nChw8c`. -/
theorem dataOff_of_channels (hblk : isBlocked tag = true) (hinner : desc.dataDesc.blocking.inner = [⟨1, blksize tag⟩])
    (hstrides : DenseStrides (fun d => divUp (desc.dataDesc.dims d) (innerBlocks desc.dataDesc.blocking.inner d))
      desc.dataDesc.blocking.strides (blockSize desc.dataDesc.blocking.inner) [0, 1, 2, 3]) (mb c h w : ℕ) :
    dataOff desc tag mb c h w =
      desc.dataDesc.dimOff 0 mb + desc.dataDesc.dimOff 1 c + desc.dataDesc.dimOff 2 h + desc.dataDesc.dimOff 3 w := by
  have hblocks : ∀ d, d ≠ 1 → divUp (desc.dataDesc.dims d) (innerBlocks desc.dataDesc.blocking.inner d) =
      desc.dataDesc.dims d := by
    intro d hd
    simp [hinner, innerBlocks, hd]
  have hsize : blockSize desc.dataDesc.blocking.inner = blksize tag := by
    simp [hinner, blockSize]
  rw [hsize] at hstrides
  obtain ⟨-, h1, h2, h3, -⟩ := hstrides
  simp only [List.map_cons, List.map_nil, List.prod_cons, List.prod_nil, hblocks 2 (by omega), hblocks 3 (by omega)]
    at h1 h2 h3
  unfold dataOff strideMb LrnDesc.H LrnDesc.W
  dsimp only
  rw [if_pos hblk]
  simp only [MemoryDesc.dimOff_of_channels hinner, h1, h2, h3]
  push_cast
  simp
  ring

/-- `nchw` -/
theorem dataOff_of_abcd (hinner : desc.dataDesc.blocking.inner = [])
    (hstrides : DenseStrides (fun d => divUp (desc.dataDesc.dims d) (innerBlocks desc.dataDesc.blocking.inner d))
      desc.dataDesc.blocking.strides (blockSize desc.dataDesc.blocking.inner) [0, 1, 2, 3]) (mb c h w : ℕ) :
    dataOff desc .abcd mb c h w =
      desc.dataDesc.dimOff 0 mb + desc.dataDesc.dimOff 1 c + desc.dataDesc.dimOff 2 h + desc.dataDesc.dimOff 3 w := by
  rw [hinner] at hstrides
  obtain ⟨-, h1, h2, h3, -⟩ := hstrides
  simp only [List.map_cons, List.map_nil, List.prod_cons, List.prod_nil, innerBlocks, blockSize_nil] at h1 h2 h3
  simp only [MemoryDesc.dimOff_of_plain hinner, h1, h2, h3]
  simp only [dataOff, isBlocked, strideMb, LrnDesc.H, LrnDesc.W]
  push_cast
  simp
  ring

/-- `nhwc` -/
theorem dataOff_of_acdb (hinner : desc.dataDesc.blocking.inner = [])
    (hstrides : DenseStrides (fun d => divUp (desc.dataDesc.dims d) (innerBlocks desc.dataDesc.blocking.inner d))
      desc.dataDesc.blocking.strides (blockSize desc.dataDesc.blocking.inner) [0, 2, 3, 1]) (mb c h w : ℕ) :
    dataOff desc .acdb mb c h w =
      desc.dataDesc.dimOff 0 mb + desc.dataDesc.dimOff 1 c + desc.dataDesc.dimOff 2 h + desc.dataDesc.dimOff 3 w := by
  rw [hinner] at hstrides
  obtain ⟨-, h2, h3, h1, -⟩ := hstrides
  simp only [List.map_cons, List.map_nil, List.prod_cons, List.prod_nil, innerBlocks, blockSize_nil] at h1 h2 h3
  simp only [MemoryDesc.dimOff_of_plain hinner, h1, h2, h3]
  simp only [dataOff, isBlocked, strideMb, LrnDesc.C, LrnDesc.W]
  push_cast
  simp
  ring

/-- The terms of the coordinates in the layout of a tag. -/
theorem dataOff_of_matches (hn : desc.dataDesc.ndims = 4) (hpos : ∀ d < desc.dataDesc.ndims, 0 < desc.dataDesc.dims d)
    (hmem : tag ∈ [.aBcd16b, .aBcd8b, .abcd, .acdb]) (h : desc.dataDesc.matchesTag tag = true) (mb c h w : ℕ) :
    dataOff desc tag mb c h w =
      desc.dataDesc.dimOff 0 mb + desc.dataDesc.dimOff 1 c + desc.dataDesc.dimOff 2 h + desc.dataDesc.dimOff 3 w := by
  have hnd : 0 < desc.dataDesc.ndims := by omega
  simp only [List.mem_cons, List.not_mem_nil, or_false] at hmem
  rcases hmem with rfl | rfl | rfl | rfl
  · obtain ⟨-, hinner, hstrides⟩ := MemoryDesc.matchesTag_strides h rfl hnd hpos
    exact dataOff_of_channels rfl hinner hstrides mb c _ w
  · obtain ⟨-, hinner, hstrides⟩ := MemoryDesc.matchesTag_strides h rfl hnd hpos
    exact dataOff_of_channels rfl hinner hstrides mb c _ w
  · obtain ⟨-, hinner, hstrides⟩ := MemoryDesc.matchesTag_strides h rfl hnd hpos
    exact dataOff_of_abcd hinner hstrides mb c _ w
  · obtain ⟨-, hinner, hstrides⟩ := MemoryDesc.matchesTag_strides h rfl hnd hpos
    exact dataOff_of_acdb hinner hstrides mb c _ w

/-- The offsets are those of the descriptor, but for the base offset of a layout with a tag. -/
theorem dataOff_eq (hwf : desc.dataDesc.WellFormed) (hn : desc.dataDesc.ndims = 4)
    (hpos : ∀ d < desc.dataDesc.ndims, 0 < desc.dataDesc.dims d) (mb c h w : ℕ) :
    dataOff desc desc.datTag mb c h w = desc.dataDesc.off [mb, c, h, w] - shift desc desc.datTag := by
  by_cases hundef : desc.datTag = .undef
  · rw [hundef]
    exact (sub_zero _).symm
  · obtain ⟨hmem, hmatch⟩ := MemoryDesc.matchesOneOfTag_matches hundef
    have hshift : shift desc desc.datTag = desc.dataDesc.offset0 := by
      refine if_pos ?_
      have htags : desc.datTag ∈ [.aBcd16b, .aBcd8b, .abcd, .acdb] := hmem
      simp only [List.mem_cons, List.not_mem_nil, or_false] at htags
      rcases htags with h | h | h | h <;> rw [h] <;> decide
    rw [hshift, off_eq hwf hn]
    exact (dataOff_of_matches hn hpos hmem hmatch mb c h w).trans (by ring)

end Tags

/-! ## Loops -/

section Loops

variable {R : Type*} {ker : ℕ → ℕ → ℕ → ℕ → R}

theorem blksize_pos (tag : FormatTag) : 0 < blksize tag := by
  unfold blksize
  split_ifs <;> decide

/-- The offset of a channel of a block. -/
theorem blockOff_add (hblk : isBlocked tag = true) {cc : ℕ} (hcc : cc < blksize tag) (mb cBlk h w : ℕ) :
    strideMb desc mb + (cBlk * blksize tag * desc.H * desc.W + (h * desc.W + w) * blksize tag : ℕ) + (cc : ℕ) =
      dataOff desc tag mb (cBlk * blksize tag + cc) h w := by
  have hdiv : (cBlk * blksize tag + cc) / blksize tag = cBlk := by
    rw [Nat.mul_comm, Nat.mul_add_div (blksize_pos tag), Nat.div_eq_of_lt hcc, Nat.add_zero]
  have hmod : (cBlk * blksize tag + cc) % blksize tag = cc := by
    rw [Nat.mul_comm, Nat.mul_add_mod, Nat.mod_eq_of_lt hcc]
  unfold dataOff
  dsimp only
  rw [if_pos hblk, hdiv, hmod]
  push_cast
  ring

/-- The loops assign the value of the kernel at every position to its offset. -/
theorem mem_loops {e : Assign ℤ R} :
    (∃ idx ∈ digits (loops desc tag ker).dims, e ∈ (loops desc tag ker).body idx) ↔
      ∃ mb c h w, Inside desc mb c h w ∧ e = Assign.set (dataOff desc tag mb c h w) (ker mb c h w) := by
  have hB := blksize_pos tag
  unfold loops
  dsimp only
  split_ifs with hblk hlast
  · constructor
    · rintro ⟨idx, hidx, he⟩
      obtain _ | ⟨hmb, _ | ⟨hc, _ | ⟨hh, _ | ⟨hw, hnil⟩⟩⟩⟩ := hidx
      cases hnil
      obtain ⟨cc, hcc, rfl⟩ := List.mem_map.mp he
      have hlt := Nat.lt_min.mp (List.mem_range.mp hcc)
      have hC := hlt.2
      refine ⟨_, _, _, _, ⟨hmb, ?_, hh, hw⟩, congrArg (Assign.set · _) (blockOff_add hblk hlt.1 _ _ _ _)⟩
      simp only [List.getD_cons_zero, List.getD_cons_succ] at hC ⊢
      omega
    · rintro ⟨mb, c, h, w, hin, rfl⟩
      have hcBlk : c / blksize tag < divUp desc.C (blksize tag) := by
        by_contra hge
        have hle := (divUp_le_iff hB).mp (Nat.not_lt.mp hge)
        exact absurd (hle.trans (Nat.div_mul_le_self c _)) (Nat.not_le.mpr hin.c)
      have hcc : c % blksize tag < min (blksize tag) (desc.C - c / blksize tag * blksize tag) := by
        have hsplit := Nat.div_add_mod' c (blksize tag)
        have hC := hin.c
        exact Nat.lt_min.mpr ⟨Nat.mod_lt c hB, by omega⟩
      refine ⟨[mb, c / blksize tag, h, w], .cons hin.mb (.cons hcBlk (.cons hin.h (.cons hin.w .nil))),
        List.mem_map.mpr ⟨c % blksize tag, List.mem_range.mpr hcc, ?_⟩⟩
      simp only [List.getD_cons_zero, List.getD_cons_succ]
      rw [blockOff_add hblk (Nat.mod_lt c hB), Nat.div_add_mod']
  · have hoff : ∀ mb c h w, dataOff desc tag mb c h w =
        strideMb desc mb + (h * desc.W * desc.C + w * desc.C + c : ℕ) := by
      intro mb c h w
      unfold dataOff
      dsimp only
      rw [if_neg hblk, if_neg (by rw [hlast]; decide), if_pos hlast]
    constructor
    · rintro ⟨idx, hidx, he⟩
      obtain _ | ⟨hmb, _ | ⟨hh, _ | ⟨hw, _ | ⟨hc, hnil⟩⟩⟩⟩ := hidx
      cases hnil
      obtain rfl := List.mem_singleton.mp he
      refine ⟨_, _, _, _, ⟨hmb, hc, hh, hw⟩, ?_⟩
      rw [hoff]
      rfl
    · rintro ⟨mb, c, h, w, hin, rfl⟩
      refine ⟨[mb, h, w, c], .cons hin.mb (.cons hin.h (.cons hin.w (.cons hin.c .nil))), ?_⟩
      rw [hoff]
      exact List.mem_singleton_self _
  · constructor
    · rintro ⟨idx, hidx, he⟩
      obtain _ | ⟨hmb, _ | ⟨hc, _ | ⟨hh, _ | ⟨hw, hnil⟩⟩⟩⟩ := hidx
      cases hnil
      obtain rfl := List.mem_singleton.mp he
      exact ⟨_, _, _, _, ⟨hmb, hc, hh, hw⟩, rfl⟩
    · rintro ⟨mb, c, h, w, hin, rfl⟩
      exact ⟨[mb, c, h, w], .cons hin.mb (.cons hin.c (.cons hin.h (.cons hin.w .nil))), List.mem_singleton_self _⟩

end Loops

/-! ## Accepted descriptors -/

/-- A tensor that `lrn_desc_init` accepts: its positions have different offsets. -/
structure Accepted (desc : LrnDesc) : Prop where
  descInit : ∃ alpha beta k ld, OpDescInit.lrnDescInit desc.propKind (desc.args alpha beta k) = .ok ld
  localSize : 0 < desc.localSize
  built : desc.dataDesc.Built
  formatKind : desc.dataDesc.formatKind = .blocked
  distinct : desc.dataDesc.Distinct

theorem Accepted.ndims (h : Accepted desc) : desc.dataDesc.ndims = 4 := by
  obtain ⟨alpha, beta, k, ld, hld⟩ := h.descInit
  obtain ⟨data, hdata, hndims⟩ := OpDescInit.lrnDescInit_ndims hld
  obtain rfl := Option.some.inj hdata
  exact Nat.cast_injective hndims

theorem Inside.mem_box (hin : Inside desc mb c h w) (hn : desc.dataDesc.ndims = 4) :
    (fun d => [mb, c, h, w].getD d 0) ∈ box desc.dataDesc.dims desc.dataDesc.ndims :=
  hn ▸ getD_mem_box (.cons hin.mb (.cons hin.c (.cons hin.h (.cons hin.w .nil))))

/-- Different positions have different offsets. -/
theorem Accepted.off_inj (hacc : Accepted desc) (hin : Inside desc mb c h w) {mb' c' h' w' : ℕ}
    (hin' : Inside desc mb' c' h' w') (heq : desc.dataDesc.off [mb, c, h, w] = desc.dataDesc.off [mb', c', h', w']) :
    mb = mb' ∧ c = c' ∧ h = h' ∧ w = w' := by
  have hpos := hacc.distinct (hin.mem_box hacc.ndims) (hin'.mem_box hacc.ndims) heq
  exact ⟨congrFun hpos 0, congrFun hpos 1, congrFun hpos 2, congrFun hpos 3⟩

/-- Without elements there are no positions. -/
theorem Accepted.not_inside (hacc : Accepted desc) (hzero : desc.dataDesc.hasZeroDim = true) : ¬ Inside desc mb c h w :=
  fun hin => MemoryDesc.notMem_box hzero (hacc.built.ndims_pos hacc.formatKind) _ (hin.mem_box hacc.ndims)

/-- What a pass leaves, at the offsets that it uses and elsewhere. -/
theorem Accepted.loops_step {R : Type*} {ker : ℕ → ℕ → ℕ → ℕ → R} (hacc : Accepted desc)
    (hzero : desc.dataDesc.hasZeroDim = false) {m m' : ℤ → R} (hstep : (loops desc desc.datTag ker).Step m m') :
    (∀ mb c h w, Inside desc mb c h w → m' (dataOff desc desc.datTag mb c h w) = ker mb c h w) ∧
      ∀ a, (∀ mb c h w, Inside desc mb c h w → dataOff desc desc.datTag mb c h w ≠ a) → m' a = m a := by
  have hoff := dataOff_eq hacc.built.wellFormed hacc.ndims fun _ => desc.dataDesc.dims_pos hzero
  constructor
  · intro mb c h w hin
    refine hstep.of_const (fun idx hidx e he hdst m => ?_) ?_
    · obtain ⟨mb', c', h', w', hin', rfl⟩ := mem_loops.mp ⟨idx, hidx, he⟩
      have heq : dataOff desc desc.datTag mb' c' h' w' = dataOff desc desc.datTag mb c h w := hdst
      rw [hoff, hoff, sub_left_inj] at heq
      obtain ⟨rfl, rfl, rfl, rfl⟩ := hacc.off_inj hin' hin heq
      rfl
    · obtain ⟨idx, hidx, he⟩ := mem_loops.mpr ⟨mb, c, h, w, hin, rfl⟩
      exact ⟨idx, hidx, _, he, rfl⟩
  · intro a ha
    refine hstep.of_ne fun idx hidx e he hdst => ?_
    obtain ⟨mb, c, h, w, hin, rfl⟩ := mem_loops.mp ⟨idx, hidx, he⟩
    exact ha mb c h w hin hdst

/-! ## Forward -/

/-- Every element of the result is the formula at its position. -/
def ForwardMeets (R : Type*) [Field R] (desc : LrnDesc) (tag : FormatTag) : Prop :=
  ∀ (cs : Coeffs R) (src m : ℤ → R), ∃ ph, executeForward desc tag cs src = some ph ∧ ∀ m', ph.Step m m' →
    ∀ mb c h w, Inside desc mb c h w → m' (desc.dataDesc.off [mb, c, h, w]) =
      fwdFormula desc cs (fun mb c h w => src (desc.dataDesc.off [mb, c, h, w])) mb c h w

/-- The tag is one with offsets of its own. -/
def HasOffsets (tag : FormatTag) : Prop := tag ∈ [.aBcd16b, .aBcd8b, .abcd, .acdb]

instance (tag : FormatTag) : Decidable (HasOffsets tag) := inferInstanceAs (Decidable (_ ∈ _))

/-- When the forward pass does that. -/
def ForwardCondition (desc : LrnDesc) (tag : FormatTag) : Prop :=
  desc.dataDesc.hasZeroDim = true ∨ IntsFit desc tag ∧ (HasOffsets tag → desc.dataDesc.offset0 = 0)

theorem shift_eq_zero_iff : shift desc tag = 0 ↔ (HasOffsets tag → desc.dataDesc.offset0 = 0) := by
  have hiff : HasOffsets tag ↔ isBlocked tag = true ∨ tag = .abcd ∨ tag = .acdb := by
    simp [HasOffsets, isBlocked, or_assoc]
  unfold shift
  rw [hiff]
  split_ifs with htag
  · simp [htag]
  · simp [htag]

theorem guarded_of_hasZeroDim {R : Type*} {ker : ℕ → ℕ → ℕ → ℕ → R} (hzero : desc.dataDesc.hasZeroDim = true) :
    guarded desc tag ker = some (loops desc tag ker) := if_pos (Or.inl hzero)

theorem guarded_eq_some_iff {R : Type*} {ker : ℕ → ℕ → ℕ → ℕ → R} (hzero : desc.dataDesc.hasZeroDim = false)
    {ph : Phase ℤ R} : guarded desc tag ker = some ph ↔ IntsFit desc tag ∧ loops desc tag ker = ph := by
  unfold guarded
  by_cases hfit : IntsFit desc tag
  · rw [if_pos (Or.inr hfit), Option.some.injEq, and_iff_right hfit]
  · rw [if_neg (not_or.mpr ⟨by rw [hzero]; decide, hfit⟩)]
    simp [hfit]

/-- A finite set of numbers is not the same after a shift. -/
theorem exists_mem_forall_sub_ne {S : Finset ℤ} (hS : S.Nonempty) {s : ℤ} (hs : s ≠ 0) : ∃ a ∈ S, ∀ b ∈ S, b - s ≠ a := by
  rcases lt_or_gt_of_ne hs with hneg | hpos
  · obtain ⟨a, ha, hmin⟩ := S.exists_min_image id hS
    refine ⟨a, ha, fun b hb heq => ?_⟩
    have hle : a ≤ b := hmin b hb
    omega
  · obtain ⟨a, ha, hmax⟩ := S.exists_max_image id hS
    refine ⟨a, ha, fun b hb heq => ?_⟩
    have hle : b ≤ a := hmax b hb
    omega

/-- With a base offset that is left out, there is a position whose element is neither read nor written. -/
theorem Accepted.exists_not_addressed (hacc : Accepted desc) (hzero : desc.dataDesc.hasZeroDim = false)
    (hshift : shift desc desc.datTag ≠ 0) : ∃ mb c h w, Inside desc mb c h w ∧ ∀ mb' c' h' w', Inside desc mb' c' h' w' →
      dataOff desc desc.datTag mb' c' h' w' ≠ desc.dataDesc.off [mb, c, h, w] := by
  have hoff := dataOff_eq hacc.built.wellFormed hacc.ndims fun _ => desc.dataDesc.dims_pos hzero
  let positions := Finset.range desc.MB ×ˢ Finset.range desc.C ×ˢ Finset.range desc.H ×ˢ Finset.range desc.W
  let S := positions.image fun x => desc.dataDesc.off [x.1, x.2.1, x.2.2.1, x.2.2.2]
  have hmem : ∀ {mb c h w}, Inside desc mb c h w → desc.dataDesc.off [mb, c, h, w] ∈ S := by
    intro mb c h w hin
    refine Finset.mem_image.mpr ⟨(mb, c, h, w), ?_, rfl⟩
    simp only [positions, Finset.mem_product, Finset.mem_range]
    exact ⟨hin.mb, hin.c, hin.h, hin.w⟩
  have hdims : ∀ d < 4, 0 < desc.dataDesc.dims d := fun d hd => desc.dataDesc.dims_pos hzero (hacc.ndims ▸ hd)
  have hfirst : Inside desc 0 0 0 0 :=
    ⟨hdims 0 (by decide), hdims 1 (by decide), hdims 2 (by decide), hdims 3 (by decide)⟩
  obtain ⟨a, ha, hne⟩ := exists_mem_forall_sub_ne ⟨_, hmem hfirst⟩ hshift
  obtain ⟨⟨mb, c, h, w⟩, hx, rfl⟩ := Finset.mem_image.mp ha
  simp only [positions, Finset.mem_product, Finset.mem_range] at hx
  refine ⟨mb, c, h, w, ⟨hx.1, hx.2.1, hx.2.2.1, hx.2.2.2⟩, fun mb' c' h' w' hin' => ?_⟩
  rw [hoff]
  exact hne _ (hmem hin')

theorem Accepted.forwardMeets_iff {R : Type*} [Field R] (hacc : Accepted desc) :
    ForwardMeets R desc desc.datTag ↔ ForwardCondition desc desc.datTag := by
  unfold ForwardCondition
  cases hzero : desc.dataDesc.hasZeroDim with
  | true =>
    exact iff_of_true (fun cs src m => ⟨_, guarded_of_hasZeroDim hzero, fun m' _ mb c h w hin =>
      absurd hin (hacc.not_inside hzero)⟩) (Or.inl rfl)
  | false =>
    rw [or_iff_right (by decide), ← shift_eq_zero_iff]
    have hoff := dataOff_eq hacc.built.wellFormed hacc.ndims fun _ => desc.dataDesc.dims_pos hzero
    constructor
    · intro hmeets
      obtain ⟨ph, hexec, hstep⟩ := hmeets ⟨0, 0, 0, fun _ _ => 0⟩ (fun _ => 0) fun _ => 1
      obtain ⟨hfit, rfl⟩ := (guarded_eq_some_iff hzero).mp hexec
      refine ⟨hfit, ?_⟩
      by_contra hshift
      obtain ⟨mb, c, h, w, hin, hnot⟩ := hacc.exists_not_addressed hzero hshift
      obtain ⟨m', hm'⟩ := Phase.exists_step (loops desc desc.datTag (fwdKer desc desc.datTag ⟨0, 0, 0, fun _ _ => 0⟩ fun _ => 0))
        fun _ => (1 : R)
      have hvalue := hstep m' hm' mb c h w hin
      rw [(hacc.loops_step hzero hm').2 _ hnot, fwdFormula, zero_mul] at hvalue
      exact one_ne_zero hvalue
    · rintro ⟨hfit, hshift⟩ cs src m
      refine ⟨_, (guarded_eq_some_iff hzero).mpr ⟨hfit, rfl⟩, fun m' hm' mb c h w hin => ?_⟩
      have hsame : ∀ mb c h w, dataOff desc desc.datTag mb c h w = desc.dataDesc.off [mb, c, h, w] := by
        intro mb c h w
        rw [hoff, hshift, sub_zero]
      have hvalue := (hacc.loops_step hzero hm').1 mb c h w hin
      rw [hsame, fwdKer_eq hin] at hvalue
      simpa only [hsame] using hvalue

/-! ## Backward -/

/-- Every element of the gradient is the formula at its position, at the offset of its own descriptor. -/
def BackwardMeets (R : Type*) [Field R] (desc : LrnDesc) (tag : FormatTag) : Prop :=
  ∀ (cs : Coeffs R) (src diffDst m : ℤ → R), ∃ ph, executeBackward desc tag cs src diffDst = some ph ∧ ∀ m', ph.Step m m' →
    ∀ mb c h w, Inside desc mb c h w → m' (desc.diffDataDesc.off [mb, c, h, w]) =
      bwdFormula desc cs (fun mb c h w => src (desc.dataDesc.off [mb, c, h, w]))
        (fun mb c h w => diffDst (desc.diffDataDesc.off [mb, c, h, w])) mb c h w

/-- When the backward pass does that. -/
def BackwardCondition (desc : LrnDesc) (tag : FormatTag) : Prop :=
  desc.dataDesc.hasZeroDim = true ∨ IntsFit desc tag ∧ (HasOffsets tag → desc.dataDesc.offset0 = 0) ∧
    ∀ mb c h w, Inside desc mb c h w → desc.diffDataDesc.off [mb, c, h, w] = desc.dataDesc.off [mb, c, h, w]

section Backward

variable {R : Type*} [Field R]

/-- The numbers of the formula for which one source element, equal to one, undoes the gradient. -/
def unitCoeffs (R : Type*) [Field R] (desc : LrnDesc) : Coeffs R := ⟨desc.summands, 1, 1, fun _ _ => 1⟩

/-- The formula depends on the gradient at the positions of the image. -/
theorem bwdFormula_congr {cs : Coeffs R} {x g g' : ℕ → ℕ → ℕ → ℕ → R} (hin : Inside desc mb c h w)
    (hg : ∀ c h w, Inside desc mb c h w → g mb c h w = g' mb c h w) :
    bwdFormula desc cs x g mb c h w = bwdFormula desc cs x g' mb c h w := by
  have hsum : (∑ y ∈ neighbours desc c h w, x mb y.1 y.2.1 y.2.2 *
      (cs.negPow (omegaAt desc cs x mb y.1 y.2.1 y.2.2) cs.beta * g mb y.1 y.2.1 y.2.2) /
        omegaAt desc cs x mb y.1 y.2.1 y.2.2) =
      ∑ y ∈ neighbours desc c h w, x mb y.1 y.2.1 y.2.2 *
        (cs.negPow (omegaAt desc cs x mb y.1 y.2.1 y.2.2) cs.beta * g' mb y.1 y.2.1 y.2.2) /
          omegaAt desc cs x mb y.1 y.2.1 y.2.2 := by
    refine Finset.sum_congr rfl fun y hy => ?_
    rw [hg _ _ _ (hin.of_mem_neighbours hy)]
  rw [bwdFormula, bwdFormula, hsum, hg c h w hin]

/-- The formula at a position whose source is zero. -/
theorem bwdFormula_of_zero {x : ℕ → ℕ → ℕ → ℕ → R} (hx : x mb c h w = 0) :
    bwdFormula desc (unitCoeffs R desc) x (fun _ _ _ _ => 1) mb c h w = 1 := by
  simp [bwdFormula, unitCoeffs, hx]

theorem Accepted.summands_pos (hacc : Accepted desc) : 0 < desc.summands := by
  have hsize := hacc.localSize
  unfold LrnDesc.summands
  split_ifs
  · exact hsize
  · exact Nat.mul_pos hsize hsize

/-- The formula at the only position whose source is not zero. -/
theorem Accepted.bwdFormula_of_single [CharZero R] (hacc : Accepted desc) (hin : Inside desc mb c h w)
    {x : ℕ → ℕ → ℕ → ℕ → R} (hx : x mb c h w = 1)
    (hother : ∀ y ∈ neighbours desc c h w, y ≠ (c, h, w) → x mb y.1 y.2.1 y.2.2 = 0) :
    bwdFormula desc (unitCoeffs R desc) x (fun _ _ _ _ => 1) mb c h w = 0 := by
  have hsummands : (desc.summands : R) ≠ 0 := Nat.cast_ne_zero.mpr hacc.summands_pos.ne'
  have hself := self_mem_neighbours hin
  have homega : omegaAt desc (unitCoeffs R desc) x mb c h w = 2 := by
    unfold omegaAt
    rw [Finset.sum_eq_single_of_mem (c, h, w) hself fun y hy hne => by rw [hother y hy hne, zero_mul]]
    simp only [unitCoeffs, hx, mul_one]
    rw [div_self hsummands]
    norm_num
  unfold bwdFormula
  rw [Finset.sum_eq_single_of_mem (c, h, w) hself fun y hy hne => by rw [hother y hy hne, zero_mul, zero_div]]
  simp only [homega, hx]
  simp only [unitCoeffs, mul_one]
  rw [mul_div_cancel_right₀ _ hsummands]
  norm_num

/-- A position whose element of the gradient is not computed from its source. -/
theorem Accepted.not_backwardMeets [CharZero R] (hacc : Accepted desc) (hzero : desc.dataDesc.hasZeroDim = false)
    (hin : Inside desc mb c h w) (hnot : ∀ mb' c' h' w', Inside desc mb' c' h' w' →
      dataOff desc desc.datTag mb' c' h' w' = desc.diffDataDesc.off [mb, c, h, w] →
      dataOff desc desc.datTag mb' c' h' w' ≠ desc.dataDesc.off [mb, c, h, w]) : ¬ BackwardMeets R desc desc.datTag := by
  intro hmeets
  let src : ℤ → R := fun a => if a = desc.dataDesc.off [mb, c, h, w] then 1 else 0
  obtain ⟨ph, hexec, hstep⟩ := hmeets (unitCoeffs R desc) src (fun _ => 1) fun _ => 1
  obtain ⟨-, rfl⟩ := (guarded_eq_some_iff hzero).mp hexec
  obtain ⟨m', hm'⟩ := Phase.exists_step (loops desc desc.datTag
    (bwdKer desc desc.datTag (unitCoeffs R desc) src fun _ => 1)) fun _ => (1 : R)
  have hvalue := hstep m' hm' mb c h w hin
  have hformula := hacc.bwdFormula_of_single hin (x := fun mb c h w => src (desc.dataDesc.off [mb, c, h, w])) (if_pos rfl)
    fun y hy hne => if_neg fun heq => hne (by
      obtain ⟨-, hc, hh, hw⟩ := hacc.off_inj (hin.of_mem_neighbours hy) hin heq
      exact Prod.ext hc (Prod.ext hh hw))
  rw [hformula] at hvalue
  -- the element is left as it was, or gets the value of a position whose source is zero
  have hone : m' (desc.diffDataDesc.off [mb, c, h, w]) = 1 := by
    by_cases hwritten : ∃ mb' c' h' w', Inside desc mb' c' h' w' ∧
        dataOff desc desc.datTag mb' c' h' w' = desc.diffDataDesc.off [mb, c, h, w]
    · obtain ⟨mb', c', h', w', hin', heq⟩ := hwritten
      rw [← heq, (hacc.loops_step hzero hm').1 mb' c' h' w' hin', bwdKer_eq hin']
      exact bwdFormula_of_zero (if_neg (hnot mb' c' h' w' hin' heq))
    · exact (hacc.loops_step hzero hm').2 _ fun mb' c' h' w' hin' heq => hwritten ⟨mb', c', h', w', hin', heq⟩
  rw [hone] at hvalue
  exact one_ne_zero hvalue

theorem Accepted.backwardMeets_iff [CharZero R] (hacc : Accepted desc) :
    BackwardMeets R desc desc.datTag ↔ BackwardCondition desc desc.datTag := by
  unfold BackwardCondition
  cases hzero : desc.dataDesc.hasZeroDim with
  | true =>
    exact iff_of_true (fun cs src diffDst m => ⟨_, guarded_of_hasZeroDim hzero, fun m' _ mb c h w hin =>
      absurd hin (hacc.not_inside hzero)⟩) (Or.inl rfl)
  | false =>
    rw [or_iff_right (by decide), ← shift_eq_zero_iff]
    have hoff := dataOff_eq hacc.built.wellFormed hacc.ndims fun _ => desc.dataDesc.dims_pos hzero
    constructor
    · intro hmeets
      obtain ⟨ph, hexec, -⟩ := hmeets (unitCoeffs R desc) (fun _ => 0) (fun _ => 0) fun _ => 0
      have hshift : shift desc desc.datTag = 0 := by
        by_contra hshift
        obtain ⟨mb, c, h, w, hin, hnot⟩ := hacc.exists_not_addressed hzero hshift
        exact hacc.not_backwardMeets hzero hin (fun mb' c' h' w' hin' _ => hnot mb' c' h' w' hin') hmeets
      refine ⟨((guarded_eq_some_iff hzero).mp hexec).1, hshift, fun mb c h w hin => ?_⟩
      by_contra hne
      refine hacc.not_backwardMeets hzero hin (fun mb' c' h' w' _ heq heq' => hne ?_) hmeets
      exact heq.symm.trans heq'
    · rintro ⟨hfit, hshift, hdiff⟩ cs src diffDst m
      refine ⟨_, (guarded_eq_some_iff hzero).mpr ⟨hfit, rfl⟩, fun m' hm' mb c h w hin => ?_⟩
      have hsame : ∀ mb c h w, dataOff desc desc.datTag mb c h w = desc.dataDesc.off [mb, c, h, w] := by
        intro mb c h w
        rw [hoff, hshift, sub_zero]
      have hvalue := (hacc.loops_step hzero hm').1 mb c h w hin
      rw [bwdKer_eq hin] at hvalue
      simp only [hsame] at hvalue
      rw [hdiff mb c h w hin, hvalue]
      exact bwdFormula_congr hin fun c h w hin' => congrArg diffDst (hdiff mb c h w hin').symm

end Backward

/-! ## Both passes -/

theorem fwdInit_tag {t : Target} (h : fwdInit t desc = .ok tag) : tag = desc.datTag := by
  unfold fwdInit at h
  split_ifs at h
  exact (Except.ok.inj h).symm

theorem bwdInit_tag {t : Target} (h : bwdInit t desc = .ok tag) : tag = desc.datTag := by
  unfold bwdInit at h
  split_ifs at h
  exact (Except.ok.inj h).symm

/-- Whichever offsets are used, a pass computes the formula at every position exactly under its condition. -/
theorem passes_meet_iff {R : Type*} [Field R] [CharZero R] {t : Target} (h : Accepted desc) :
    (fwdInit t desc = .ok tag → (ForwardMeets R desc tag ↔ ForwardCondition desc tag)) ∧
    (bwdInit t desc = .ok tag → (BackwardMeets R desc tag ↔ BackwardCondition desc tag)) := by
  constructor
  · intro hinit
    rw [fwdInit_tag hinit]
    exact h.forwardMeets_iff
  · intro hinit
    rw [bwdInit_tag hinit]
    exact h.backwardMeets_iff

/-- A tensor of a format tag. -/
theorem accepted_of_tag {dims : ℕ → ℤ} {dt : DataType} {md diff : MemoryDesc} (hmd : memoryDescInitByTag 4 dims dt tag = .ok md)
    (hk : md.formatKind = .blocked) {kind : PrimitiveHashing.PropKind}
    {alg : PrimitiveHashing.AlgKind} {size : ℕ} (hsize : 0 < size)
    (hinit : ∃ alpha beta k ld, OpDescInit.lrnDescInit kind (LrnDesc.args ⟨kind, alg, md, diff, size⟩ alpha beta k) = .ok ld) :
    Accepted ⟨kind, alg, md, diff, size⟩ where
  descInit := hinit
  localSize := hsize
  built := .whole (Or.inl ⟨4, dims, dt, tag, hmd, hk⟩)
  formatKind := hk
  distinct := memoryDescInitByTag_distinct hmd hk

/-- Twelve channels in a block of 16, and a window larger than the image. -/
theorem passes_meet_iff_aBcd16b : ∃ (t : Target) (fwd bwd : LrnDesc), Accepted fwd ∧ Accepted bwd ∧
    fwdInit t fwd = .ok .aBcd16b ∧ bwdInit t bwd = .ok .aBcd16b ∧
    ForwardMeets ℚ fwd .aBcd16b ∧ BackwardMeets ℚ bwd .aBcd16b := by
  obtain ⟨md, hmd, hk, hld, hld', hinit, hinit', hcond, hcond'⟩ : ∃ md,
      memoryDescInitByTag 4 (fun d => if d = 1 then 12 else 2) .f32 .aBcd16b = .ok md ∧ md.formatKind = .blocked ∧
      (∃ alpha beta k ld, OpDescInit.lrnDescInit .forwardTraining
        (LrnDesc.args ⟨.forwardTraining, .lrnWithinChannel, md, zeroMd, 5⟩ alpha beta k) = .ok ld) ∧
      (∃ alpha beta k ld, OpDescInit.lrnDescInit .backwardData
        (LrnDesc.args ⟨.backwardData, .lrnWithinChannel, md, md, 5⟩ alpha beta k) = .ok ld) ∧
      fwdInit ⟨.f32, false, true⟩ ⟨.forwardTraining, .lrnWithinChannel, md, zeroMd, 5⟩ = .ok .aBcd16b ∧
      bwdInit ⟨.f32, false, true⟩ ⟨.backwardData, .lrnWithinChannel, md, md, 5⟩ = .ok .aBcd16b ∧
      (IntsFit ⟨.forwardTraining, .lrnWithinChannel, md, zeroMd, 5⟩ .aBcd16b ∧ md.offset0 = 0) ∧
      IntsFit ⟨.backwardData, .lrnWithinChannel, md, md, 5⟩ .aBcd16b :=
    ⟨_, rfl, rfl, ⟨⟨0⟩, ⟨0⟩, ⟨0⟩, _, rfl⟩, ⟨⟨0⟩, ⟨0⟩, ⟨0⟩, _, rfl⟩, by decide, by decide, by decide, by decide⟩
  have hfwd := accepted_of_tag hmd hk (Nat.succ_pos 4) hld
  have hbwd := accepted_of_tag hmd hk (Nat.succ_pos 4) hld'
  exact ⟨_, _, _, hfwd, hbwd, hinit, hinit',
    ((passes_meet_iff hfwd).1 hinit).mpr (Or.inr ⟨hcond.1, fun _ => hcond.2⟩),
    ((passes_meet_iff hbwd).2 hinit').mpr (Or.inr ⟨hcond', fun _ => hcond.2, fun _ _ _ _ _ => rfl⟩)⟩

/-- Data in `nchw` with a gradient in `nhwc`: the gradient is read and written at the offsets of the data. -/
theorem passes_fail_nchw_nhwc : ∃ (t : Target) (desc : LrnDesc), Accepted desc ∧ bwdInit t desc = .ok .abcd ∧
    ¬ BackwardMeets ℚ desc .abcd := by
  obtain ⟨md, diff, hmd, -, hk, hld, hinit, hzero, hdims, hoff⟩ : ∃ md diff,
      memoryDescInitByTag 4 (fun _ => 2) .f32 .abcd = .ok md ∧
      memoryDescInitByTag 4 (fun _ => 2) .f32 .acdb = .ok diff ∧ md.formatKind = .blocked ∧
      (∃ alpha beta k ld, OpDescInit.lrnDescInit .backwardData
        (LrnDesc.args ⟨.backwardData, .lrnAcrossChannels, md, diff, 5⟩ alpha beta k) = .ok ld) ∧
      bwdInit ⟨.f32, false, true⟩ ⟨.backwardData, .lrnAcrossChannels, md, diff, 5⟩ = .ok .abcd ∧
      md.hasZeroDim = false ∧ (∀ d < 4, 1 < md.dims d) ∧ diff.off [0, 1, 0, 0] ≠ md.off [0, 1, 0, 0] :=
    ⟨_, _, rfl, rfl, rfl, ⟨⟨0⟩, ⟨0⟩, ⟨0⟩, _, rfl⟩, by decide, by decide, by decide, by decide⟩
  have hacc := accepted_of_tag hmd hk (Nat.succ_pos 4) hld
  refine ⟨_, _, hacc, hinit, fun hmeets => ?_⟩
  rw [bwdInit_tag hinit] at hmeets
  obtain hempty | ⟨-, -, hsame⟩ := hacc.backwardMeets_iff.mp hmeets
  · exact Bool.noConfusion (hzero.symm.trans hempty)
  · exact hoff (hsame 0 1 0 0 ⟨Nat.zero_lt_of_lt (hdims 0 (by decide)), hdims 1 (by decide),
      Nat.zero_lt_of_lt (hdims 2 (by decide)), Nat.zero_lt_of_lt (hdims 3 (by decide))⟩)

end MklDnn.RefLrn
