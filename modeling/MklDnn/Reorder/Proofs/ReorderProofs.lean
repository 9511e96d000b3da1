import MklDnn.Lib.Checks
import MklDnn.Reorder.Proofs.BalanceProofs
import MklDnn.Reorder.Proofs.InitProofs

/-!
# Proofs: a reorder visits every element once

The problem that `prb_init` builds for two descriptors runs through the padded area of both tensors, and
so do the problems that the passes turn it into, as long as no pass runs out of nodes.
-/

open LoopNest Offsets

namespace MklDnn

/-- The problem runs through the pairs of the offset of a position in the input and its offset in the
output, once for each position of the padded area. -/
def Prb.Enumerates (p : Prb) (imd omd : MemoryDesc) : Prop :=
  p.offsets.Perm
    ((box imd.paddedDims imd.ndims).map fun pos => (imd.offV pos true, omd.offV pos true))

theorem Prb.SameOffsets.enumerates {p q : Prb} {imd omd : MemoryDesc} (h : p.SameOffsets q)
    (hp : p.Enumerates imd omd) : q.Enumerates imd omd :=
  h.offsets_perm.trans hp

theorem cvtMemDescToLayoutDesc_eq {md : MemoryDesc} {ld : List Chunk}
    (h : cvtMemDescToLayoutDesc md = .ok ld) : ld = (List.range md.ndims).flatMap (dimChunks md) := by
  unfold cvtMemDescToLayoutDesc at h
  dsimp only at h
  split_ifs at h
  exact (Except.ok.inj h).symm

/-- The type of the scales for the given attributes. -/
def OutputScales.scaleType (scales : OutputScales) : ScaleType :=
  if scales.hasDefaultValues then .none else if scales.mask = 0 then .common else .many

/-- Whether the scale depends on dimension `d`. -/
def OutputScales.masked (scales : OutputScales) (d : ℕ) : Bool :=
  scales.scaleType = .many ∧ scales.mask.testBit d

/-- What `prb_init` has checked and built when it succeeds. -/
structure Accepted (imd omd : MemoryDesc) (scales : OutputScales) (p : Prb) : Prop where
  blocking_input : imd.isBlockingDesc = true
  blocking_output : omd.isBlockingDesc = true
  nonzero_input : imd.hasZeroDim = false
  paddedDims_eq : ∀ d < imd.ndims, imd.paddedDims d = omd.paddedDims d
  mod_input : ∀ d < imd.ndims, imd.paddedDims d % innerBlocks imd.blocking.inner d = 0
  mod_output : ∀ d < imd.ndims, imd.paddedDims d % innerBlocks omd.blocking.inner d = 0
  nodes : mergeLayouts (((List.range imd.ndims).flatMap (dimChunks imd)).length +
      ((List.range omd.ndims).flatMap (dimChunks omd)).length) 0
    ((List.range imd.ndims).flatMap (dimChunks imd))
    (scaleStrides scales.scaleType scales.mask ((List.range omd.ndims).flatMap (dimChunks omd))) =
      .ok p.nodes
  ioff : p.ioff = imd.offV (fun _ => 0) false
  ooff : p.ooff = omd.offV (fun _ => 0) false
  scaleType : p.scaleType = scales.scaleType

theorem prbInit_accepted {imd omd : MemoryDesc} {scales : OutputScales} {p : Prb}
    (h : prbInit imd omd scales = .ok p) : Accepted imd omd scales p := by
  unfold prbInit at h
  dsimp only at h
  rw [← OutputScales.scaleType] at h
  split_ifs at h with hchecks hpadding
  simp only [Bool.and_eq_true, Bool.not_eq_true'] at hchecks
  obtain ⟨⟨⟨hik, hok⟩, hiz⟩, -⟩ := hchecks
  cases hild : cvtMemDescToLayoutDesc imd with
  | error e => rw [hild] at h; cases h
  | ok ild =>
    cases hold : cvtMemDescToLayoutDesc omd with
    | error e => rw [hild, hold] at h; cases h
    | ok old =>
      rw [hild, hold] at h
      dsimp only [bind, Except.bind] at h
      split at h
      · cases h
      · next nodes hnodes =>
        obtain rfl := Except.ok.inj h
        rw [cvtMemDescToLayoutDesc_eq hild, cvtMemDescToLayoutDesc_eq hold] at hnodes
        have hblocks : ∀ md : MemoryDesc, md.isBlockingDesc = true →
            md.computeBlocks = innerBlocks md.blocking.inner := fun md hk => by
          rw [MemoryDesc.computeBlocks, if_pos hk]
        rw [hblocks imd hik, hblocks omd hok] at hpadding
        exact {
          blocking_input := hik
          blocking_output := hok
          nonzero_input := hiz
          paddedDims_eq := fun d hd => (hpadding d hd).1
          mod_input := fun d hd => (hpadding d hd).2.1
          mod_output := fun d hd => (hpadding d hd).2.2
          nodes := hnodes
          ioff := rfl
          ooff := rfl
          scaleType := rfl }

section Accepted

variable {imd omd : MemoryDesc} {scales : OutputScales} {p : Prb} (h : Accepted imd omd scales p)
  (hi : imd.WellFormed)

include h hi

/-- The layouts of all dimensions of two accepted descriptors. -/
theorem Accepted.layoutsAhead (hdiv : MutuallyDivisible imd omd) :
    LayoutsAhead (dimChunks imd) (dimChunks omd) (List.range imd.ndims) where
  layouts := by
    intro d hd
    have hd : d < imd.ndims := List.mem_range.mp hd
    have hprodi := chunkProd_dimChunks h.blocking_input (h.mod_input d hd)
    have hmodo := h.mod_output d hd
    rw [h.paddedDims_eq d hd] at hmodo
    have hprodo := chunkProd_dimChunks h.blocking_output hmodo
    exact {
      ids_input := fun c => dimChunks_ids h.blocking_input
      ids_output := fun c => dimChunks_ids h.blocking_output
      prod_eq := by rw [hprodi, hprodo, h.paddedDims_eq d hd]
      prod_pos := hprodi ▸ hi.paddedDims_pos h.nonzero_input hd
      divide := hdiv.suffixesDivide h.blocking_input h.blocking_output hd }
  input_ne_nil := fun d _ => by simp [dimChunks_eq h.blocking_input]
  output_ne_nil := fun d _ => by simp [dimChunks_eq h.blocking_output]

/-- The loops of an accepted problem run through the padded area in row-major order. The scale offset
counts the coordinates of the masked dimensions within the padded extents. -/
theorem Accepted.loopVisits_eq (ho : omd.WellFormed) (hndims : omd.ndims = imd.ndims)
    (hdiv : MutuallyDivisible imd omd) :
    loopVisits p.nodes = (box imd.paddedDims imd.ndims).map fun pos =>
      ∑ d ∈ Finset.range imd.ndims, (imd.dimOff d (pos d), omd.dimOff d (pos d),
        if scales.masked d then
          ((pos d * maskedProd scales.masked imd.paddedDims (d + 1) imd.ndims : ℕ) : ℤ) else 0) := by
  have hlayouts := h.layoutsAhead hi hdiv
  have hids : ∀ d, ∀ c ∈ dimChunks omd d, c.id = d := fun d c => dimChunks_ids h.blocking_output
  have hprod : ∀ d < imd.ndims, chunkProd (dimChunks imd d) = imd.paddedDims d := fun d hd =>
    chunkProd_dimChunks h.blocking_input (h.mod_input d hd)
  have hprodo : ∀ d < imd.ndims, chunkProd (dimChunks omd d) = imd.paddedDims d := fun d hd => by
    rw [← (hlayouts.layouts d (List.mem_range.mpr hd)).prod_eq, hprod d hd]
  have hnodes := h.nodes
  rw [hndims, scaleStrides_flatMap _ _ _ hids] at hnodes
  have hvisits := mergeLayouts_visits (O := fun d => scaledChunks (scales.masked d)
      (maskedProd scales.masked (fun e => chunkProd (dimChunks omd e)) (d + 1) imd.ndims) (dimChunks omd d))
    (by simpa only [scaledChunks_chunks] using hlayouts) List.nodup_range ?_ hnodes
  · rw [hvisits, dimVisits, foldr_nestVisits_box, box_congr hprod]
    refine List.map_congr_left fun pos hpos => Finset.sum_congr rfl fun d hd => ?_
    have hd : d < imd.ndims := Finset.mem_range.mp hd
    rw [tripleVal, scaledChunks_chunks, chunkVal_dimChunks h.blocking_input hi.valid,
      chunkVal_dimChunks h.blocking_output ho.valid, maskedProd_congr hprodo,
      chunkVal_scaledChunks _ _ (hprodo d hd ▸ (mem_box.mp hpos).1 d hd)]
    norm_cast
  · refine le_of_eq (congrArg _ ?_)
    rw [← List.length_map Prod.fst, List.map_flatMap]
    simp only [scaledChunks_chunks]

theorem Accepted.enumerates (ho : omd.WellFormed) (hndims : omd.ndims = imd.ndims)
    (hdiv : MutuallyDivisible imd omd) : p.Enumerates imd omd := by
  have hpairs := loopOffsets_perm p.nodes
  rw [h.loopVisits_eq hi ho hndims hdiv, List.map_map] at hpairs
  have hmap := hpairs.map fun off => (off.1 + p.ioff, off.2 + p.ooff)
  rw [List.map_map] at hmap
  refine hmap.trans (List.Perm.of_eq (List.map_congr_left fun pos _ => ?_))
  rw [Function.comp, Function.comp, imd.offV_padded hi.valid, omd.offV_padded ho.valid, h.ioff, h.ooff,
    hi.offV_zero, ho.offV_zero, hndims, Prod.fst_sum, Prod.snd_sum, Prod.fst_sum, add_comm imd.offset0,
    add_comm omd.offset0]

/-- The problem has elements. -/
theorem Accepted.total_pos (hp : p.Enumerates imd omd) : 0 < p.total := by
  have hvol : 0 < volume imd.paddedDims imd.ndims :=
    volume_pos fun d hd => hi.paddedDims_pos h.nonzero_input hd
  have hlen := hp.length_eq
  have hoffsets : p.offsets.length = p.total := by
    rw [← Prb.card_nest, Prb.nest, ← ofList_loopVisits, Prb.offsets, List.length_map,
      (loopOffsets_perm p.nodes).length_eq]
    simp
  rw [List.length_map, length_box, hoffsets] at hlen
  rw [hlen]
  exact hvol

end Accepted

/-- The passes turn an accepted problem into one that visits every element once if and only if no split
of a node is due when there is no room for it. -/
theorem prbPasses_enumerates_iff {imd omd : MemoryDesc} {scales : OutputScales} {p : Prb} (nthr : ℕ)
    (hi : imd.WellFormed) (ho : omd.WellFormed) (hndims : omd.ndims = imd.ndims)
    (hdiv : MutuallyDivisible imd omd) (h : prbInit imd omd scales = .ok p) :
    (∃ q ndimsKerMax, prbPasses nthr p = some (q, ndimsKerMax) ∧ q.Enumerates imd omd) ↔
      SplitsFit nthr (prbSimplify (prbNormalize p)) := by
  have hacc := prbInit_accepted h
  have hp := hacc.enumerates hi ho hndims hdiv
  rw [← prbPasses_isSome (hacc.total_pos hi hp)]
  constructor
  · rintro ⟨q, k, hq, -⟩
    rw [hq]
    rfl
  · intro hsome
    obtain ⟨⟨q, k⟩, hq⟩ := Option.isSome_iff_exists.mp hsome
    exact ⟨q, k, hq, (prbPasses_sameOffsets hq).enumerates hp⟩

theorem prbPasses_enumerates_iff_aBcd8b :
    ∃ imd omd p,
      memoryDescInitByTag 4 (fun d => [2, 16, 3, 5].getD d 0) .f32 .abcd = .ok imd ∧
      memoryDescInitByTag 4 (fun d => [2, 16, 3, 5].getD d 0) .f32 .aBcd8b = .ok omd ∧
      prbInit imd omd ⟨true, 0⟩ = .ok p ∧
      ((∃ q ndimsKerMax, prbPasses 4 p = some (q, ndimsKerMax) ∧ q.Enumerates imd omd) ↔
        SplitsFit 4 (prbSimplify (prbNormalize p))) := by
  have hall : (memoryDescInitByTag 4 (fun d => [2, 16, 3, 5].getD d 0) .f32 .abcd).toOption.any
      (fun imd => (memoryDescInitByTag 4 (fun d => [2, 16, 3, 5].getD d 0) .f32
        .aBcd8b).toOption.any fun omd =>
          decide (imd.formatKind = .blocked ∧ omd.formatKind = .blocked ∧ omd.ndims = imd.ndims ∧
            MutuallyDivisible imd omd) && (prbInit imd omd ⟨true, 0⟩).toOption.any fun _ => true) = true := by
    decide +kernel
  obtain ⟨imd, himd, hrest⟩ := Checks.exists_ok_of_any hall
  obtain ⟨omd, homd, hrest⟩ := Checks.exists_ok_of_any hrest
  rw [Bool.and_eq_true, decide_eq_true_eq] at hrest
  obtain ⟨⟨hik, hok, hndims, hdiv⟩, hinit⟩ := hrest
  obtain ⟨p, hp, -⟩ := Checks.exists_ok_of_any hinit
  have hi := memoryDescInitByTag_wellFormed himd hik
  have ho := memoryDescInitByTag_wellFormed homd hok
  exact ⟨imd, omd, p, himd, homd, hp, prbPasses_enumerates_iff 4 hi ho hndims hdiv hp⟩

/-- A transposition of twelve dimensions. After `prb_simplify` there are eleven nodes left, and the
balance splits one of them. -/
theorem prbPasses_loses_offsets :
    ∃ imd omd p,
      memoryDescInitByStrides 12 (fun d => [2, 2, 2, 2, 2, 64, 1, 2, 2, 2, 2, 2].getD d 0) .f32
        (some fun d => [1, 2, 4, 8, 16, 32, 2048, 2048, 4096, 8192, 16384, 32768].getD d 0) =
          .ok imd ∧
      memoryDescInitByStrides 12 (fun d => [2, 2, 2, 2, 2, 64, 1, 2, 2, 2, 2, 2].getD d 0) .f32 none =
          .ok omd ∧
      MutuallyDivisible imd omd ∧ prbInit imd omd ⟨true, 0⟩ = .ok p ∧
      (prbSimplify (prbNormalize p)).ndims + 1 = maxNdims ∧
      ¬ ∃ q ndimsKerMax, prbPasses 4 p = some (q, ndimsKerMax) ∧ q.Enumerates imd omd := by
  have hall : (memoryDescInitByStrides 12
      (fun d => [2, 2, 2, 2, 2, 64, 1, 2, 2, 2, 2, 2].getD d 0) .f32
      (some fun d =>
        [1, 2, 4, 8, 16, 32, 2048, 2048, 4096, 8192, 16384, 32768].getD d 0)).toOption.any
      (fun imd => (memoryDescInitByStrides 12
        (fun d => [2, 2, 2, 2, 2, 64, 1, 2, 2, 2, 2, 2].getD d 0) .f32 none).toOption.any
        fun omd => decide (MutuallyDivisible imd omd) &&
          (prbInit imd omd ⟨true, 0⟩).toOption.any fun p =>
            decide ((prbSimplify (prbNormalize p)).ndims + 1 = maxNdims) &&
              (prbPasses 4 p).isNone) = true := by
    decide +kernel
  obtain ⟨imd, himd, hrest⟩ := Checks.exists_ok_of_any hall
  obtain ⟨omd, homd, hrest⟩ := Checks.exists_ok_of_any hrest
  rw [Bool.and_eq_true, decide_eq_true_eq] at hrest
  obtain ⟨p, hp, hpasses⟩ := Checks.exists_ok_of_any hrest.2
  rw [Bool.and_eq_true, decide_eq_true_eq] at hpasses
  refine ⟨imd, omd, p, himd, homd, hrest.1, hp, hpasses.1, ?_⟩
  rintro ⟨q, k, hq, -⟩
  rw [hq] at hpasses
  cases hpasses.2

end MklDnn
