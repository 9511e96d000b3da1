import MklDnn.Reorder.Proofs.OneDimProofs
import MklDnn.Reorder.Proofs.TwoDimProofs

/-!
# Proofs: there and back

A plain tensor that is reordered to a blocked format and from there to its own format again. A store that one of the two
reorders leaves out is missed on the way back.
-/

open LoopNest Interleaving

namespace MklDnn

section RoundTrips

variable {α β : Type*} {c : Conversion α β true} {c' : Conversion β α true} {plainD blockedD : MemoryDesc}
  {ps ps' : ℕ → List BlockStore}

/-- Whatever the tensor, the old values of the two buffers and the orders of the threads, the tensor comes back as it was. -/
def RoundTrips (c : Conversion α β true) (c' : Conversion β α true) (plainD : MemoryDesc) (ps ps' : ℕ → List BlockStore) : Prop :=
  ∀ (plain : ℤ → α) (blocked : ℤ → β) (back : ℤ → α) (o : List (ℕ × Assign ℤ β)) (o' : List (ℕ × Assign ℤ α)),
    IsOrder (fun ithr => (ps ithr).map (BlockStore.assign c plain)) o →
    IsOrder (fun ithr => (ps' ithr).map (BlockStore.assign c' (execAll (o.map Prod.snd) blocked))) o' →
      ∀ pos ∈ box plainD.dims plainD.ndims,
        execAll (o'.map Prod.snd) back (plainD.offV pos false) = plain (plainD.offV pos false)

theorem MemoryDesc.consistentWith_symm {lhs rhs : MemoryDesc} (h : lhs.consistentWith rhs = true) :
    rhs.consistentWith lhs = true := by
  unfold consistentWith at h ⊢
  rw [decide_eq_true_eq] at h ⊢
  obtain ⟨hndims, hdims⟩ := h
  exact ⟨hndims.symm, fun d hd => (hdims d (hndims ▸ hd)).symm⟩

/-- Two reorders that convert every element, the second one without a loss of the first. -/
theorem Converts.roundTrips (hthere : Converts α β true true plainD blockedD ps) (hback : Converts β α true true blockedD plainD ps')
    (hbox : box blockedD.dims blockedD.ndims = box plainD.dims plainD.ndims) (hinv : Function.LeftInverse c'.qzA1B0 c.qzA1B0) :
    RoundTrips c c' plainD ps ps' := by
  intro plain blocked back o o' ho ho' pos hpos
  have hfirst := hthere c plain blocked o ho pos hpos
  have hsecond := hback c' _ back o' ho' pos (hbox ▸ hpos)
  rw [hfirst] at hsecond
  exact hsecond.trans (hinv _)

/-- What the loops do not run through keeps its old value. -/
theorem Places.execAll_of_not_covers {alphaIsOne betaIsZero : Bool} {inputD outputD : MemoryDesc} {nthr : ℕ} {old : (ℕ → ℕ) → ℤ}
    {covers : (ℕ → ℕ) → Prop} [DecidablePred covers] (h : Places inputD outputD nthr (alphaIsOne && betaIsZero) old covers ps)
    {d : Conversion α β betaIsZero} {input : ℤ → α} {o : List (ℕ × Assign ℤ β)}
    (ho : IsOrder (fun ithr => (ps ithr).map (BlockStore.assign d input)) o)
    (hdistinct : Set.InjOn (fun pos => outputD.offV pos false) {pos | pos ∈ box inputD.dims inputD.ndims}) {pos : ℕ → ℕ}
    (hpos : pos ∈ box inputD.dims inputD.ndims) (hcovers : ¬ covers pos) (output : ℤ → β) :
    execAll (o.map Prod.snd) output (outputD.offV pos false) = output (outputD.offV pos false) := by
  apply execAll_of_ne
  intro e he hdst
  obtain ⟨pos', hpos', rfl⟩ := List.mem_map.mp ((h.perm_order ho).mem_iff.mp he)
  obtain ⟨hpos', hcovers'⟩ := List.mem_filter.mp hpos'
  obtain rfl := hdistinct hpos' hpos hdst
  exact hcovers (of_decide_eq_true hcovers')

/-- On the way back the loops run through all elements. -/
theorem RoundTrips.covers [Nontrivial α] {nthr nthr' : ℕ} {old old' : (ℕ → ℕ) → ℤ} {covers covers' : (ℕ → ℕ) → Prop}
    [DecidablePred covers] [DecidablePred covers'] (h : RoundTrips c c' plainD ps ps')
    (hthere : Places plainD blockedD nthr (true && true) old covers ps)
    (hback : Places blockedD plainD nthr' (true && true) old' covers' ps')
    (hbox : box blockedD.dims blockedD.ndims = box plainD.dims plainD.ndims) (hdistinct : plainD.Distinct) :
    ∀ pos ∈ box plainD.dims plainD.ndims, covers' pos := by
  intro pos hpos
  by_contra hcovers
  obtain ⟨x, y, hxy⟩ := exists_pair_ne α
  obtain ⟨o, ho, -⟩ := hthere.exists_order c fun _ => x
  obtain ⟨o', ho', -⟩ := hback.exists_order c' (execAll (o.map Prod.snd) fun _ => c.qzA1B0 x)
  have htrip := h (fun _ => x) (fun _ => c.qzA1B0 x) (fun _ => y) o o' ho ho' pos hpos
  have hdistinct' : Set.InjOn (fun pos => plainD.offV pos false) {pos | pos ∈ box blockedD.dims blockedD.ndims} := by
    rw [hbox]
    exact hdistinct
  rw [hback.execAll_of_not_covers ho' hdistinct' (hbox ▸ hpos) hcovers] at htrip
  exact hxy htrip.symm

end RoundTrips

namespace OneDim

variable {keep : Bool} {t : TagTraits} {inputD outputD plainD blockedD : MemoryDesc}

/-- The loops run through all elements if the blocked dimension is in the range of an `int` and padded to whole blocks. -/
theorem Sides.forall_covers_iff (h : Sides keep t inputD outputD) (hdims : ∀ d < inputD.ndims, 0 < inputD.dims d) :
    (∀ pos ∈ box inputD.dims inputD.ndims, Covers keep t inputD outputD pos) ↔
      inputD.dims (blkIdx t) < 2 ^ 31 ∧ blksize t ∣ (if keep then outputD else inputD).paddedDims (blkIdx t) := by
  have hlt : blkIdx t < inputD.ndims := by
    rw [h.ndims_input]
    have hn := h.ndims
    rcases blkIdx_cases t with hb | hb <;> omega
  have hle : blksize t ≤ 2 ^ 31 := by
    unfold blksize
    split_ifs <;> omega
  rw [← forall_blockCovers_iff h.blksize_pos hle (hdims _ hlt) h.paddedDims]
  constructor
  · intro hcovers x hx
    have hblock := hcovers _ (update_mem_box hdims hlt hx)
    unfold Covers at hblock
    rwa [Function.update_self] at hblock
  · intro hblocks pos hpos
    exact hblocks _ ((mem_box.mp hpos).1 _ hlt)

/-- A plain tensor whose elements have different offsets survives the reorder to a registered format with one blocked dimension
and the reorder back, by teams of any sizes and by conversions without a loss, if and only if it has no element, or the type
`int` holds the extents of the blocked and of the last dimension and the blocked side is padded to whole blocks. -/
theorem roundTrips_iff {tag : FormatTag} (htag : tag ∈ oneDimTags) (ht : tagTraits tag = some t) (hplain : plainD.Built)
    (hblocked : blockedD.Built) (hconsistent : plainD.consistentWith blockedD = true) (hisPlain : plainD.isPlain = true)
    (hmatch : blockedD.matchesTag tag = true) (hdistinct : plainD.Distinct) {nthr nthr' : ℕ} (hnthr : 0 < nthr) (hnthr' : 0 < nthr')
    {α β : Type*} [Nontrivial α] {c : Conversion α β true} {c' : Conversion β α true}
    (hinv : Function.LeftInverse c'.qzA1B0 c.qzA1B0) :
    (∃ ps ps', (∀ ithr, thread true t plainD blockedD true true nthr ithr = some (ps ithr)) ∧
        (∀ ithr, thread false t blockedD plainD true true nthr' ithr = some (ps' ithr)) ∧ RoundTrips c c' plainD ps ps') ↔
      plainD.hasZeroDim = true ∨
        plainD.dims (blkIdx t) < 2 ^ 31 ∧ plainD.dims (t.ndims - 1) < 2 ^ 31 ∧ blksize t ∣ blockedD.paddedDims (blkIdx t) := by
  obtain ⟨t', ht', hreg⟩ := registered htag
  obtain rfl : t = t' := Option.some.inj (ht.symm.trans ht')
  have hbox := MemoryDesc.box_eq_of_consistentWith hconsistent
  have happ : plainToBlockedIsApplicable true tag plainD blockedD none = true := by
    simp [plainToBlockedIsApplicable, simpleAttrCheck, hmatch, hisPlain]
  have happ' : plainToBlockedIsApplicable false tag blockedD plainD none = true := by
    simp [plainToBlockedIsApplicable, simpleAttrCheck, hmatch, hisPlain]
  have h := hreg.sides hplain hblocked hconsistent happ
  have h' := hreg.sides hblocked hplain (MemoryDesc.consistentWith_symm hconsistent) happ'
  have hthere := h.places true true hnthr
  have hback := h'.places true true hnthr'
  have hn : 2 < t.ndims := by rcases h.ndims with hn | hn | hn | hn <;> omega
  have hndims : plainD.ndims = t.ndims := h.ndims_input
  have hsame : ∀ d < t.ndims, blockedD.dims d = plainD.dims d := h.dims
  -- both passes run through the same elements
  have hcovers : ∀ pos, Covers false t blockedD plainD pos ↔ Covers true t plainD blockedD pos := by
    intro pos
    have hblk : blkIdx t < t.ndims := by rcases blkIdx_cases t with hb | hb <;> omega
    unfold Covers
    rw [if_neg Bool.false_ne_true, if_pos rfl, hsame _ hblk]
  constructor
  · rintro ⟨ps, ps', hps, hps', htrip⟩
    rw [or_iff_not_imp_left]
    intro hzero
    have hdims : ∀ d < plainD.ndims, 0 < plainD.dims d := fun d hd => MemoryDesc.dims_pos (Bool.not_eq_true _ ▸ hzero) hd
    have hL := threads_of_some hnthr hps
    have hL' := threads_of_some hnthr' hps'
    obtain rfl : ps = stores true t plainD blockedD true true nthr := by
      funext ithr
      exact Option.some.inj ((hps ithr).symm.trans (h.thread_eq true true hL nthr ithr))
    obtain rfl : ps' = stores false t blockedD plainD true true nthr' := by
      funext ithr
      exact Option.some.inj ((hps' ithr).symm.trans (h'.thread_eq true true hL' nthr' ithr))
    have hall := htrip.covers hthere hback hbox hdistinct
    obtain ⟨hH, hdvd⟩ := (h.forall_covers_iff hdims).mp fun pos hpos => (hcovers pos).mp (hall pos hpos)
    refine ⟨hH, hL.resolve_right fun hnone => hnone _ (idxOf_mem h.ndims (fun d hd => hdims d (hndims ▸ hd)) ?_), hdvd⟩
    exact ((hcovers _).mp (hall _ (mem_box.mpr ⟨hdims, fun _ _ => rfl⟩))).1
  · intro hcond
    have hL : plainD.dims (t.ndims - 1) < 2 ^ 31 ∨ ∀ idx, ¬ List.Forall₂ (· < ·) idx (loopDims true t plainD blockedD) := by
      rcases hcond with hzero | ⟨-, hL, -⟩
      · exact h.threads_of_zero hzero
      · exact Or.inl hL
    have hL' : blockedD.dims (t.ndims - 1) < 2 ^ 31 ∨ ∀ idx, ¬ List.Forall₂ (· < ·) idx (loopDims false t blockedD plainD) := by
      rcases hcond with hzero | ⟨-, hL, -⟩
      · refine h'.threads_of_zero ((MemoryDesc.hasZeroDim_iff (by rw [h'.ndims_input]; omega)).mpr ?_)
        rw [hbox]
        exact (MemoryDesc.hasZeroDim_iff (by omega)).mp hzero
      · rw [hsame _ (by omega)]
        exact Or.inl hL
    have hall : ∀ pos ∈ box plainD.dims plainD.ndims, Covers true t plainD blockedD pos := by
      intro pos hpos
      rcases hcond with hzero | ⟨hH, -, hdvd⟩
      · rw [(MemoryDesc.hasZeroDim_iff (by omega)).mp hzero] at hpos
        cases hpos
      · have hdims : ∀ d < plainD.ndims, 0 < plainD.dims d := fun d hd => Nat.zero_lt_of_lt ((mem_box.mp hpos).1 d hd)
        exact (h.forall_covers_iff hdims).mpr ⟨hH, hdvd⟩ pos hpos
    have hblockedDistinct : Set.InjOn (fun pos => blockedD.offV pos false) {pos | pos ∈ box plainD.dims plainD.ndims} := by
      have hinj : blockedD.Distinct := h.distinct
      unfold MemoryDesc.Distinct at hinj
      rwa [hbox] at hinj
    have hplainDistinct : Set.InjOn (fun pos => plainD.offV pos false) {pos | pos ∈ box blockedD.dims blockedD.ndims} := by
      rw [hbox]
      exact hdistinct
    have hconv := hthere.converts α β hall hblockedDistinct (Or.inl rfl)
    have hconv' := hback.converts β α (fun pos hpos => (hcovers pos).mpr (hall pos (hbox ▸ hpos))) hplainDistinct (Or.inl rfl)
    exact ⟨_, _, h.thread_eq true true hL nthr, h'.thread_eq true true hL' nthr', hconv.roundTrips hconv' hbox hinv⟩

/-- Three of eight channels of a block, stored with the opposite sign. -/
theorem roundTrips_iff_Acdb8a : ∃ plainD blockedD,
    memoryDescInitByTag 4 (fun d => [3, 2, 1, 2].getD d 0) .f32 .abcd = .ok plainD ∧
    memoryDescInitByTag 4 (fun d => [3, 2, 1, 2].getD d 0) .f32 .Acdb8a = .ok blockedD ∧
    ((∃ ps ps', (∀ ithr, thread true ⟨.A, ._8a, 4⟩ plainD blockedD true true 4 ithr = some (ps ithr)) ∧
        (∀ ithr, thread false ⟨.A, ._8a, 4⟩ blockedD plainD true true 3 ithr = some (ps' ithr)) ∧
          RoundTrips (⟨fun x => -x, fun x _ => -x, fun _ _ _ _ => rfl⟩ : Conversion ℤ ℤ true)
            (⟨fun x => -x, fun x _ => -x, fun _ _ _ _ => rfl⟩ : Conversion ℤ ℤ true) plainD ps ps') ↔
      plainD.hasZeroDim = true ∨ plainD.dims 0 < 2 ^ 31 ∧ plainD.dims 3 < 2 ^ 31 ∧ 8 ∣ blockedD.paddedDims 0) := by
  have hall : (memoryDescInitByTag 4 (fun d => [3, 2, 1, 2].getD d 0) .f32 .abcd).toOption.any (fun plainD =>
      (memoryDescInitByTag 4 (fun d => [3, 2, 1, 2].getD d 0) .f32 .Acdb8a).toOption.any fun blockedD =>
        decide (plainD.formatKind = .blocked) && decide (blockedD.formatKind = .blocked) && plainD.consistentWith blockedD &&
          plainD.isPlain && blockedD.matchesTag .Acdb8a && plainD.matchesTag .abcd) = true := by
    decide +kernel
  obtain ⟨plainD, hplain, hrest⟩ := Checks.exists_ok_of_any hall
  obtain ⟨blockedD, hblocked, hrest⟩ := Checks.exists_ok_of_any hrest
  simp only [Bool.and_eq_true, decide_eq_true_eq] at hrest
  obtain ⟨⟨⟨⟨⟨hkp, hkb⟩, hconsistent⟩, hisPlain⟩, hmatch⟩, habcd⟩ := hrest
  have hbuilt : plainD.Built := .whole (Or.inl ⟨_, _, _, _, hplain, hkp⟩)
  exact ⟨plainD, blockedD, hplain, hblocked, roundTrips_iff (by decide) rfl hbuilt
    (.whole (Or.inl ⟨_, _, _, _, hblocked, hkb⟩)) hconsistent hisPlain hmatch (hbuilt.matchesTag_distinct habcd) (by decide)
    (by decide) fun x => neg_neg x⟩

end OneDim

namespace TwoDim

variable {keep : Bool} {t : TagTraits} {inputD outputD plainD blockedD : MemoryDesc}

/-- The loops run through all elements if the blocked dimensions are in the range of an `int` and padded to whole blocks. -/
theorem Sides.forall_covers_iff (h : Sides keep t inputD outputD) (hdims : ∀ d < inputD.ndims, 0 < inputD.dims d) :
    (∀ pos ∈ box inputD.dims inputD.ndims, Covers keep t inputD outputD pos) ↔
      (inputD.dims (withG t).toNat < 2 ^ 31 ∧ blksize0 t ∣ (if keep then outputD else inputD).paddedDims (withG t).toNat) ∧
        inputD.dims ((withG t).toNat + 1) < 2 ^ 31 ∧
          blksize1 t ∣ (if keep then outputD else inputD).paddedDims ((withG t).toNat + 1) := by
  have hlt : (withG t).toNat + 1 < inputD.ndims := by
    have hn := h.ndims
    rw [h.ndims_input]
    omega
  have hle0 : blksize0 t ≤ 2 ^ 31 := by
    unfold blksize0
    split_ifs <;> omega
  have hle1 : blksize1 t ≤ 2 ^ 31 := by
    unfold blksize1
    split_ifs <;> omega
  rw [← forall_blockCovers_iff h.blksize0_pos hle0 (hdims _ (by omega)) h.paddedDims0,
    ← forall_blockCovers_iff h.blksize1_pos hle1 (hdims _ hlt) h.paddedDims1]
  constructor
  · intro hcovers
    constructor
    · intro x hx
      have hblock := (hcovers _ (update_mem_box hdims (by omega) hx)).1
      rwa [Function.update_self] at hblock
    · intro x hx
      have hblock := (hcovers _ (update_mem_box hdims hlt hx)).2
      rwa [Function.update_self] at hblock
  · rintro ⟨hblocks0, hblocks1⟩ pos hpos
    exact ⟨hblocks0 _ ((mem_box.mp hpos).1 _ (by omega)), hblocks1 _ ((mem_box.mp hpos).1 _ hlt)⟩

/-- A plain tensor whose elements have different offsets survives the reorder to a registered format with two blocked dimensions
and the reorder back, by teams of any sizes and by conversions without a loss, if and only if it has no element, or the type
`int` holds the two blocked extents and the blocked side is padded to whole blocks. The padding of the blocked tensor keeps
its values. -/
theorem roundTrips_keeping_padding {tag : FormatTag} (htag : tag ∈ twoDimTags) (ht : tagTraits tag = some t) (hplain : plainD.Built)
    (hblocked : blockedD.Built) (hconsistent : plainD.consistentWith blockedD = true) (hisPlain : plainD.isPlain = true)
    (hmatch : blockedD.matchesTag tag = true) (hdistinct : plainD.Distinct) {nthr nthr' : ℕ} (hnthr : 0 < nthr) (hnthr' : 0 < nthr')
    {α β : Type*} [Nontrivial α] {c : Conversion α β true} {c' : Conversion β α true}
    (hinv : Function.LeftInverse c'.qzA1B0 c.qzA1B0) :
    (RoundTrips c c' plainD (thread true t plainD blockedD true true nthr) (thread false t blockedD plainD true true nthr') ↔
      plainD.hasZeroDim = true ∨
        (plainD.dims (withG t).toNat < 2 ^ 31 ∧ blksize0 t ∣ blockedD.paddedDims (withG t).toNat) ∧
          plainD.dims ((withG t).toNat + 1) < 2 ^ 31 ∧ blksize1 t ∣ blockedD.paddedDims ((withG t).toNat + 1)) ∧
    ∀ (plain : ℤ → α) (blocked : ℤ → β) (o : List (ℕ × Assign ℤ β)),
      IsOrder (fun ithr => (thread true t plainD blockedD true true nthr ithr).map (BlockStore.assign c plain)) o →
        ∀ pos ∈ box blockedD.paddedDims blockedD.ndims, pos ∉ box blockedD.dims blockedD.ndims →
          execAll (o.map Prod.snd) blocked (blockedD.offV pos true) = blocked (blockedD.offV pos true) := by
  obtain ⟨t', ht', hreg⟩ := registered htag
  obtain rfl : t = t' := Option.some.inj (ht.symm.trans ht')
  have hbox := MemoryDesc.box_eq_of_consistentWith hconsistent
  have happ : plainToBlockedIsApplicable true tag plainD blockedD none = true := by
    simp [plainToBlockedIsApplicable, simpleAttrCheck, hmatch, hisPlain]
  have happ' : plainToBlockedIsApplicable false tag blockedD plainD none = true := by
    simp [plainToBlockedIsApplicable, simpleAttrCheck, hmatch, hisPlain]
  obtain ⟨h, hpadding⟩ := hreg.sides hplain hblocked hconsistent happ
  obtain ⟨h', -⟩ := hreg.sides hblocked hplain (MemoryDesc.consistentWith_symm hconsistent) happ'
  have hthere := h.places true true hnthr
  have hback := h'.places true true hnthr'
  have hn : (withG t).toNat + 1 < plainD.ndims := by
    have hn := h.ndims
    rw [h.ndims_input]
    omega
  -- both passes run through the same elements
  have hcovers : ∀ pos, Covers false t blockedD plainD pos ↔ Covers true t plainD blockedD pos := by
    intro pos
    have hsame := hconsistent
    unfold MemoryDesc.consistentWith at hsame
    rw [decide_eq_true_eq] at hsame
    unfold Covers
    rw [if_neg Bool.false_ne_true, if_pos rfl, hsame.2 _ (by omega), hsame.2 _ hn]
  refine ⟨⟨fun htrip => ?_, fun hcond => ?_⟩, fun plain blocked o ho pos hpos hpad => ?_⟩
  · rw [or_iff_not_imp_left]
    intro hzero
    have hdims : ∀ d < plainD.ndims, 0 < plainD.dims d := fun d hd => MemoryDesc.dims_pos (Bool.not_eq_true _ ▸ hzero) hd
    have hall := htrip.covers hthere hback hbox hdistinct
    exact (h.forall_covers_iff hdims).mp fun pos hpos => (hcovers pos).mp (hall pos hpos)
  · have hall : ∀ pos ∈ box plainD.dims plainD.ndims, Covers true t plainD blockedD pos := by
      intro pos hpos
      rcases hcond with hzero | hcond
      · rw [(MemoryDesc.hasZeroDim_iff (by omega)).mp hzero] at hpos
        cases hpos
      · have hdims : ∀ d < plainD.ndims, 0 < plainD.dims d := fun d hd => Nat.zero_lt_of_lt ((mem_box.mp hpos).1 d hd)
        exact (h.forall_covers_iff hdims).mpr hcond pos hpos
    have hblockedDistinct : Set.InjOn (fun pos => blockedD.offV pos false) {pos | pos ∈ box plainD.dims plainD.ndims} := by
      have hinj : blockedD.Distinct := hblocked.matchesTag_distinct hmatch
      unfold MemoryDesc.Distinct at hinj
      rwa [hbox] at hinj
    have hplainDistinct : Set.InjOn (fun pos => plainD.offV pos false) {pos | pos ∈ box blockedD.dims blockedD.ndims} := by
      rw [hbox]
      exact hdistinct
    have hconv := hthere.converts α β hall hblockedDistinct (Or.inl rfl)
    have hconv' := hback.converts β α (fun pos hpos => (hcovers pos).mpr (hall pos (hbox ▸ hpos))) hplainDistinct (Or.inl rfl)
    exact hconv.roundTrips hconv' hbox hinv
  · apply execAll_of_ne
    intro e he hdst
    obtain ⟨pos', hpos', rfl⟩ := List.mem_map.mp ((hthere.perm_order ho).mem_iff.mp he)
    exact hpadding pos' (List.mem_filter.mp hpos').1 pos hpos hpad hdst

/-- Twelve of sixteen and twenty of thirty-two channels. -/
theorem roundTrips_keeping_padding_ABcd4b16a4b : ∃ plainD blockedD,
    memoryDescInitByTag 4 (fun d => [12, 20, 3, 3].getD d 0) .s8 .abcd = .ok plainD ∧
    memoryDescInitByTag 4 (fun d => [12, 20, 3, 3].getD d 0) .s8 .ABcd4b16a4b = .ok blockedD ∧
    (RoundTrips (⟨fun x => -x, fun x _ => -x, fun _ _ _ _ => rfl⟩ : Conversion ℤ ℤ true)
        (⟨fun x => -x, fun x _ => -x, fun _ _ _ _ => rfl⟩ : Conversion ℤ ℤ true) plainD
        (thread true ⟨.AB, ._4b16a4b, 4⟩ plainD blockedD true true 4) (thread false ⟨.AB, ._4b16a4b, 4⟩ blockedD plainD true true 3) ↔
      plainD.hasZeroDim = true ∨
        (plainD.dims 0 < 2 ^ 31 ∧ 16 ∣ blockedD.paddedDims 0) ∧ plainD.dims 1 < 2 ^ 31 ∧ 16 ∣ blockedD.paddedDims 1) := by
  have hall : (memoryDescInitByTag 4 (fun d => [12, 20, 3, 3].getD d 0) .s8 .abcd).toOption.any (fun plainD =>
      (memoryDescInitByTag 4 (fun d => [12, 20, 3, 3].getD d 0) .s8 .ABcd4b16a4b).toOption.any fun blockedD =>
        decide (plainD.formatKind = .blocked) && decide (blockedD.formatKind = .blocked) && plainD.consistentWith blockedD &&
          plainD.isPlain && blockedD.matchesTag .ABcd4b16a4b && plainD.matchesTag .abcd) = true := by
    decide +kernel
  obtain ⟨plainD, hplain, hrest⟩ := Checks.exists_ok_of_any hall
  obtain ⟨blockedD, hblocked, hrest⟩ := Checks.exists_ok_of_any hrest
  simp only [Bool.and_eq_true, decide_eq_true_eq] at hrest
  obtain ⟨⟨⟨⟨⟨hkp, hkb⟩, hconsistent⟩, hisPlain⟩, hmatch⟩, habcd⟩ := hrest
  have hbuilt : plainD.Built := .whole (Or.inl ⟨_, _, _, _, hplain, hkp⟩)
  exact ⟨plainD, blockedD, hplain, hblocked, (roundTrips_keeping_padding (by decide) rfl hbuilt
    (.whole (Or.inl ⟨_, _, _, _, hblocked, hkb⟩)) hconsistent hisPlain hmatch (hbuilt.matchesTag_distinct habcd) (by decide)
    (by decide) fun x => neg_neg x).1⟩

end TwoDim

end MklDnn
