import MklDnn.Common.Proofs.UtilsProofs
import MklDnn.Memory.Proofs.OffsetProofs

/-!
# Proofs: dense blocked layouts

The descriptors `fill_blocked` builds are dense: the strides of the outer blocks, taken in the order of
the permutation, form a mixed-radix system over the dense inner block. A dense descriptor places its
padded area bijectively on an interval of offsets.
-/

open LoopNest Offsets

namespace MklDnn

/-! ## Strides in the order of a permutation -/

/-- The strides of the dimensions in `perm`, outermost first, are those of a dense nest of `m d` blocks
along each dimension `d` around a block of size `s`. -/
def DenseStrides (m : ℕ → ℕ) (strides : ℕ → ℤ) (s : ℕ) : List ℕ → Prop
  | [] => True
  | d :: perm => strides d = (s * (perm.map m).prod : ℕ) ∧ DenseStrides m strides s perm

theorem DenseStrides.congr {m : ℕ → ℕ} {strides strides' : ℕ → ℤ} {s : ℕ} {perm : List ℕ}
    (h : ∀ d ∈ perm, strides d = strides' d) (hd : DenseStrides m strides s perm) :
    DenseStrides m strides' s perm := by
  induction perm with
  | nil => trivial
  | cons d perm ih =>
    obtain ⟨hd1, hd2⟩ := hd
    exact ⟨h d List.mem_cons_self ▸ hd1, ih (fun e he => h e (List.mem_cons_of_mem _ he)) hd2⟩

theorem DenseStrides.congr_blocks {m m' : ℕ → ℕ} {strides : ℕ → ℤ} {s : ℕ} {perm : List ℕ}
    (h : ∀ d ∈ perm, m d = m' d) (hd : DenseStrides m strides s perm) : DenseStrides m' strides s perm := by
  induction perm with
  | nil => trivial
  | cons d perm ih =>
    obtain ⟨hd1, hd2⟩ := hd
    have htail : ∀ e ∈ perm, m e = m' e := fun e he => h e (List.mem_cons_of_mem _ he)
    rw [List.map_congr_left htail] at hd1
    exact ⟨hd1, ih htail hd2⟩

/-- Dense strides visit an interval of blocks. -/
theorem DenseStrides.prod_strided {m : ℕ → ℕ} {strides : ℕ → ℤ} {s : ℕ} {perm : List ℕ}
    (h : DenseStrides m strides s perm) :
    (perm.map fun d => strided (m d) (strides d)).prod * strided s (1 : ℤ) =
      strided (s * (perm.map m).prod) 1 := by
  induction perm with
  | nil => simp
  | cons d perm ih =>
    obtain ⟨hd, hperm⟩ := h
    have hs : s * ((d :: perm).map m).prod = m d * (s * (perm.map m).prod) := by
      simp only [List.map_cons, List.prod_cons]
      ring
    have hstride : (s * (perm.map m).prod) • (1 : ℤ) = strides d := by rw [hd]; simp
    rw [List.map_cons, List.prod_cons, mul_assoc, ih hperm, hs, strided_mul (m d), hstride]

/-- The loop of `fill_blocked` over the permutation does not touch the other dimensions. -/
theorem assignStrides_of_notMem {pd bl : ℕ → ℕ} {perm : List ℕ} {d : ℕ} (h : d ∉ perm)
    (st : ℕ × (ℕ → ℤ)) : (assignStrides pd bl st perm).2 d = st.2 d := by
  induction perm generalizing st with
  | nil => rfl
  | cons e perm ih =>
    obtain ⟨hde, hperm⟩ := not_or.mp (mt List.mem_cons.mpr h)
    rw [assignStrides]
    split_ifs <;> exact (ih hperm _).trans (Function.update_of_ne hde _ _)

/-- The loop of `fill_blocked` over the permutation, started from the overall number of elements,
assigns dense strides. -/
theorem denseStrides_assignStrides {pd bl m : ℕ → ℕ} {perm : List ℕ} (hnd : perm.Nodup)
    (hm : ∀ d ∈ perm, pd d / bl d = m d ∧ 0 < m d) (s : ℕ) (strides : ℕ → ℤ) :
    DenseStrides m (assignStrides pd bl (s * (perm.map m).prod, strides) perm).2 s perm := by
  induction perm generalizing strides with
  | nil => trivial
  | cons d perm ih =>
    obtain ⟨hd, hperm⟩ := List.nodup_cons.mp hnd
    obtain ⟨hmd, hpos⟩ := hm d List.mem_cons_self
    have hpd : pd d ≠ 0 := by
      intro h0
      rw [h0, Nat.zero_div] at hmd
      omega
    have hquot : s * ((d :: perm).map m).prod / m d = s * (perm.map m).prod := by
      rw [List.map_cons, List.prod_cons, Nat.mul_left_comm, Nat.mul_div_cancel_left _ hpos]
    rw [assignStrides, if_neg hpd, hmd, hquot]
    refine ⟨?_, ih hperm (fun e he => hm e (List.mem_cons_of_mem _ he)) _⟩
    rw [assignStrides_of_notMem hd]
    exact Function.update_self ..

/-! ## Dense descriptors -/

/-- The number of outer blocks along a dimension. -/
def MemoryDesc.outerBlocks (md : MemoryDesc) (d : ℕ) : ℕ :=
  md.paddedDims d / innerBlocks md.blocking.inner d

/-- A blocked descriptor whose outer dimensions lie densely in the order `perm`. -/
structure Dense (md : MemoryDesc) (perm : List ℕ) : Prop where
  ndims_pos : 0 < md.ndims
  formatKind : md.formatKind = .blocked
  offset0 : md.offset0 = 0
  inner : ValidInner md.ndims md.blocking.inner
  dims_pos : ∀ d < md.ndims, 0 < md.dims d
  perm_range : perm.Perm (List.range md.ndims)
  paddedDims : ∀ d < md.ndims, md.paddedDims d = rndUp (md.dims d) (innerBlocks md.blocking.inner d)
  paddedOffsets : ∀ d < md.ndims, md.paddedOffsets d = 0
  strides : DenseStrides md.outerBlocks md.blocking.strides (blockSize md.blocking.inner) perm

/-- The product over all dimensions, in the order of a permutation of them. -/
theorem prod_perm {α : Type*} [CommMonoid α] {n : ℕ} {perm : List ℕ} (h : perm.Perm (List.range n))
    (f : ℕ → α) : ∏ d ∈ Finset.range n, f d = (perm.map f).prod :=
  ((h.map f).prod_eq).symm

theorem prod_innerBlocks {n : ℕ} {L : List InnerBlk} (hL : ValidInner n L) :
    ∏ d ∈ Finset.range n, innerBlocks L d = blockSize L := by
  induction L with
  | nil => simp
  | cons b L ih =>
    have hb : b.idx ∈ Finset.range n := Finset.mem_range.mpr hL.head.1
    simp only [innerBlocks_cons]
    rw [Finset.prod_mul_distrib, Finset.prod_ite_eq, if_pos hb, ih hL.tail, blockSize_cons]

namespace Dense

variable {md : MemoryDesc} {perm : List ℕ} (h : Dense md perm)

include h

theorem nodup : perm.Nodup := h.perm_range.nodup_iff.mpr List.nodup_range

theorem mem_perm {d : ℕ} : d ∈ perm ↔ d < md.ndims := by
  rw [h.perm_range.mem_iff, List.mem_range]

theorem innerBlocks_pos (d : ℕ) : 0 < innerBlocks md.blocking.inner d := h.inner.innerBlocks_pos d

theorem outerBlocks_eq {d : ℕ} (hd : d < md.ndims) :
    md.outerBlocks d = divUp (md.dims d) (innerBlocks md.blocking.inner d) := by
  rw [MemoryDesc.outerBlocks, h.paddedDims d hd, rndUp_div (h.innerBlocks_pos d)]

theorem outerBlocks_pos {d : ℕ} (hd : d < md.ndims) : 0 < md.outerBlocks d := by
  rw [h.outerBlocks_eq hd]
  exact divUp_pos (h.dims_pos d hd) (h.innerBlocks_pos d)

theorem paddedDims_eq {d : ℕ} (hd : d < md.ndims) :
    md.paddedDims d = md.outerBlocks d * innerBlocks md.blocking.inner d := by
  rw [h.outerBlocks_eq hd, h.paddedDims d hd, rndUp]

theorem dims_le {d : ℕ} (hd : d < md.ndims) : md.dims d ≤ md.paddedDims d := by
  rw [h.paddedDims d hd]
  exact le_rndUp (h.innerBlocks_pos d)

theorem paddedDims_pos {d : ℕ} (hd : d < md.ndims) : 0 < md.paddedDims d :=
  lt_of_lt_of_le (h.dims_pos d hd) (h.dims_le hd)

theorem not_hasZeroDim : md.hasZeroDim = false := by
  have hvol : 0 < volume md.dims md.ndims := volume_pos h.dims_pos
  have hnd := h.ndims_pos
  simp only [MemoryDesc.hasZeroDim, MemoryDesc.nelems, MemoryDesc.isZero]
  simp
  omega

/-- The number of elements of the padded area, block by block. -/
theorem volume_eq :
    volume md.paddedDims md.ndims = blockSize md.blocking.inner * (perm.map md.outerBlocks).prod := by
  have hvol : volume md.paddedDims md.ndims =
      ∏ d ∈ Finset.range md.ndims, (md.outerBlocks d * innerBlocks md.blocking.inner d) :=
    Finset.prod_congr rfl fun d hd => h.paddedDims_eq (Finset.mem_range.mp hd)
  rw [hvol, Finset.prod_mul_distrib, prod_innerBlocks h.inner, prod_perm h.perm_range, Nat.mul_comm]

/-- The offsets of the padded area are the integers below its number of elements, each once. -/
theorem ofList_offV :
    ofList (box md.paddedDims md.ndims) (fun pos => md.offV pos true) =
      strided (volume md.paddedDims md.ndims) 1 := by
  rw [md.ofList_offV h.inner (fun d hd => h.paddedDims_eq hd) h.offset0, Finset.prod_mul_distrib,
    prod_perm h.perm_range, ← map_prod_range, prod_nest_dimNodes h.inner, map_strided]
  have hone : (Nat.castAddMonoidHom ℤ) 1 = 1 := rfl
  rw [hone, h.strides.prod_strided, h.volume_eq]

/-- A dense descriptor places its padded area bijectively on the offsets below its size. -/
theorem bijOn_offV :
    Set.BijOn (fun pos => md.offV pos true) {pos | pos ∈ box md.paddedDims md.ndims}
      {y | 0 ≤ y ∧ y < (volume md.paddedDims md.ndims : ℤ)} := by
  have hperm : ((box md.paddedDims md.ndims).map fun pos => md.offV pos true).Perm
      ((List.range (volume md.paddedDims md.ndims)).map fun i : ℕ => (i : ℤ)) := by
    rw [← ofList_eq_iff, h.ofList_offV, strided_unit]
  have hnodup : ((box md.paddedDims md.ndims).map fun pos => md.offV pos true).Nodup :=
    hperm.nodup_iff.mpr (List.nodup_range.map Nat.cast_injective)
  have hmem : ∀ x, x ∈ ((box md.paddedDims md.ndims).map fun pos => md.offV pos true) ↔
      0 ≤ x ∧ x < (volume md.paddedDims md.ndims : ℤ) := by
    intro x
    rw [hperm.mem_iff]
    simp only [List.mem_map, List.mem_range]
    constructor
    · rintro ⟨i, hi, rfl⟩
      omega
    · intro hx
      exact ⟨x.toNat, by omega, by omega⟩
  refine ⟨fun pos hpos => ?_, fun pos hpos pos' hpos' he => ?_, fun x hx => ?_⟩
  · exact (hmem _).mp (List.mem_map_of_mem hpos)
  · exact List.inj_on_of_nodup_map hnodup hpos hpos' he
  · obtain ⟨pos, hpos, he⟩ := List.mem_map.mp ((hmem x).mpr hx)
    exact ⟨pos, hpos, he⟩

end Dense

/-! ## The size of a dense descriptor -/

theorem le_foldl_max {α : Type*} [LinearOrder α] (f : ℕ → α) (l : List ℕ) (a : α) :
    a ≤ l.foldl (fun m d => max m (f d)) a ∧ ∀ d ∈ l, f d ≤ l.foldl (fun m d => max m (f d)) a := by
  induction l generalizing a with
  | nil => simp
  | cons d l ih =>
    obtain ⟨ih1, ih2⟩ := ih (max a (f d))
    rw [List.foldl_cons]
    refine ⟨le_trans (le_max_left ..) ih1, fun e he => ?_⟩
    rcases List.mem_cons.mp he with rfl | he
    · exact le_trans (le_max_right ..) ih1
    · exact ih2 e he

theorem foldl_max_le {α : Type*} [LinearOrder α] {f : ℕ → α} {l : List ℕ} {a b : α} (ha : a ≤ b) (h : ∀ d ∈ l, f d ≤ b) :
    l.foldl (fun m d => max m (f d)) a ≤ b := by
  induction l generalizing a with
  | nil => exact ha
  | cons d l ih =>
    rw [List.foldl_cons]
    exact ih (max_le ha (h d List.mem_cons_self)) fun e he => h e (List.mem_cons_of_mem _ he)

/-- No dimension of a dense nest extends beyond the nest. -/
theorem DenseStrides.mul_le {m : ℕ → ℕ} {strides : ℕ → ℤ} {s : ℕ} {perm : List ℕ}
    (h : DenseStrides m strides s perm) (hm : ∀ d ∈ perm, 0 < m d) :
    ∀ d ∈ perm, m d * strides d ≤ (s * (perm.map m).prod : ℕ) := by
  induction perm with
  | nil => simp
  | cons e perm ih =>
    obtain ⟨he, hperm⟩ := h
    have hcons : s * ((e :: perm).map m).prod = m e * (s * (perm.map m).prod) := by
      rw [List.map_cons, List.prod_cons, Nat.mul_left_comm]
    intro d hd
    rcases List.mem_cons.mp hd with rfl | hd
    · rw [he, hcons]
      exact le_of_eq (Nat.cast_mul _ _).symm
    · have hle := ih hperm (fun x hx => hm x (List.mem_cons_of_mem _ hx)) d hd
      have hpos : 0 < m e := hm e List.mem_cons_self
      refine le_trans hle ?_
      rw [hcons]
      exact_mod_cast Nat.le_mul_of_pos_left _ hpos

theorem DenseStrides.nonneg {m : ℕ → ℕ} {strides : ℕ → ℤ} {s : ℕ} {perm : List ℕ}
    (h : DenseStrides m strides s perm) : ∀ d ∈ perm, 0 ≤ strides d := by
  induction perm with
  | nil => simp
  | cons e perm ih =>
    obtain ⟨he, hperm⟩ := h
    intro d hd
    rcases List.mem_cons.mp hd with rfl | hd
    · rw [he]
      exact Int.natCast_nonneg _
    · exact ih hperm d hd

theorem toSizeT_of_nonneg {x : ℤ} (h : 0 ≤ x) : toSizeT x = x.toNat := if_neg (by omega)

theorem Dense.size_eq {md : MemoryDesc} {perm : List ℕ} (h : Dense md perm) :
    md.size = volume md.paddedDims md.ndims * md.dataType.size + md.additionalBufferSize := by
  have hn := h.ndims_pos
  have hblocks : md.computeBlocks = innerBlocks md.blocking.inner := by
    simp [MemoryDesc.computeBlocks, MemoryDesc.isBlockingDesc, h.formatKind]
  have hmul : ∀ d < md.ndims, toSizeT ((md.outerBlocks d : ℤ) * md.blocking.strides d) ≤
      volume md.paddedDims md.ndims := by
    intro d hd
    have hle := h.strides.mul_le (fun e he => h.outerBlocks_pos (h.mem_perm.mp he)) d
      (h.mem_perm.mpr hd)
    have hnn : 0 ≤ (md.outerBlocks d : ℤ) * md.blocking.strides d :=
      mul_nonneg (Int.natCast_nonneg _) (h.strides.nonneg d (h.mem_perm.mpr hd))
    rw [h.volume_eq, toSizeT_of_nonneg hnn]
    exact Int.toNat_le.mpr hle
  have hmax : (List.range md.ndims).foldl (fun maxSize d =>
        max maxSize (toSizeT ((md.paddedDims d / md.computeBlocks d : ℕ) * md.blocking.strides d))) 0 =
      volume md.paddedDims md.ndims := by
    rw [hblocks]
    refine le_antisymm (foldl_max_le (Nat.zero_le _) fun d hd => hmul d (List.mem_range.mp hd)) ?_
    -- the outermost dimension spans the whole area
    obtain ⟨d, rest, rfl⟩ : ∃ d rest, perm = d :: rest := by
      cases perm with
      | nil => exact absurd h.perm_range.length_eq (by simp; omega)
      | cons d rest => exact ⟨d, rest, rfl⟩
    have hd : d ∈ List.range md.ndims := List.mem_range.mpr (h.mem_perm.mp List.mem_cons_self)
    have hstride : (volume md.paddedDims md.ndims : ℤ) =
        (md.outerBlocks d : ℤ) * md.blocking.strides d := by
      rw [h.volume_eq, h.strides.1, List.map_cons, List.prod_cons]
      push_cast
      ring
    have hspan : toSizeT ((md.outerBlocks d : ℤ) * md.blocking.strides d) =
        volume md.paddedDims md.ndims := by
      rw [← hstride, toSizeT_of_nonneg (Int.natCast_nonneg _), Int.toNat_natCast]
    rw [← hspan]
    exact (le_foldl_max (fun d => toSizeT ((md.outerBlocks d : ℤ) * md.blocking.strides d)) _ 0).2 d hd
  have hone : volume md.paddedDims md.ndims = 1 → blockSize md.blocking.inner = 1 := by
    intro h1
    rw [h.volume_eq] at h1
    exact Nat.eq_one_of_mul_eq_one_right h1
  have hzero : md.isZero = false := by simp [MemoryDesc.isZero]; omega
  have hguard : ¬ (md.isZero = true ∨ md.hasZeroDim = true ∨ md.formatKind = .any) := by
    simp [hzero, h.not_hasZeroDim, h.formatKind]
  unfold MemoryDesc.size
  rw [if_neg hguard, if_neg (by simp [h.formatKind]), if_neg (by simp [h.formatKind]),
    if_neg (by simp [h.offset0])]
  simp only [hmax]
  by_cases h1 : volume md.paddedDims md.ndims = 1 ∧ md.blocking.innerNblks ≠ 0
  · rw [if_pos h1, hone h1.1, h1.1]
  · rw [if_neg h1]

/-! ## `off_l` -/

/-- The loop of `off_l` from any start: it fills in the coordinates below `n`. -/
theorem foldl_offLPos (dims : ℕ → ℕ) (n l : ℕ) (pos : ℕ → ℕ) :
    ((List.range n).foldl
      (fun (st : ℕ × (ℕ → ℕ)) rd =>
        (st.1 / dims (n - (1 + rd)),
          Function.update st.2 (n - (1 + rd)) (st.1 % dims (n - (1 + rd)))))
      (l, pos)).2 = fun d => if d < n then rowMajor dims n l d else pos d := by
  induction n generalizing l pos with
  | zero => simp
  | succ n ih =>
    have hidx : ∀ rd, n + 1 - (1 + (rd + 1)) = n - (1 + rd) := fun rd => by omega
    have hlast : n + 1 - (1 + 0) = n := rfl
    rw [List.range_succ_eq_map, List.foldl_cons, List.foldl_map]
    simp only [Nat.succ_eq_add_one, hidx, hlast]
    rw [ih]
    funext d
    by_cases hd : d = n
    · subst hd
      simp [rowMajor]
    · by_cases hdn : d < n
      · simp [hdn, Nat.lt_succ_of_lt hdn, rowMajor, Function.update_of_ne hd]
      · have hdn' : ¬ d < n + 1 := by omega
        simp [hdn, hdn', Function.update_of_ne hd]

theorem offLPos_eq_rowMajor (dims : ℕ → ℕ) (n l : ℕ) : offLPos dims n l = rowMajor dims n l := by
  have hloop := foldl_offLPos dims n l fun _ => 0
  unfold offLPos
  simp only [Nat.sub_sub]
  rw [hloop]
  funext d
  split_ifs with hd
  · rfl
  · exact (rowMajor_of_le (by omega)).symm

end MklDnn
