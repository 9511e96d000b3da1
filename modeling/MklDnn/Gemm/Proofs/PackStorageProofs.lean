import Mathlib.Data.Set.Function
import MklDnn.Common.Proofs.UtilsProofs
import MklDnn.Gemm.PackStorage
import MklDnn.Gemm.Proofs.PartitionProofs
import MklDnn.Lib.Regions

/-!
# Proofs: the layout of the storage of a packed matrix

`finalize` places the slices one behind the other, and inside of a slice the blocks are cells of one size.
So two different pieces are in different cells of a slice, in different slices or in the two different
streams of the matrix and of its sums.
-/

open Regions

namespace MklDnn

/-! ## The blocks of a slice -/

/-- A block without rows or columns is never counted. -/
structure SliceHeader.Valid (s : SliceHeader) : Prop where
  blockR_pos : 0 < s.nblkR → 0 < s.blockR
  blockC_pos : 0 < s.nblkC → 0 < s.blockC

/-- The area of a slice. -/
def SliceHeader.area (s : SliceHeader) (sz : ℕ) : Region := ⟨s.offData, s.offData + s.size sz⟩

/-- The number of a block in the order in which the blocks are stored. -/
def SliceHeader.blockNumber (s : SliceHeader) (rb cb : ℕ) (colMajor : Bool) : ℕ :=
  if colMajor then rb + cb * s.nblkR else cb + rb * s.nblkC

theorem SliceHeader.blockNumber_lt {s : SliceHeader} {rb cb : ℕ} (colMajor : Bool)
    (hr : rb < s.nblkR) (hc : cb < s.nblkC) : s.blockNumber rb cb colMajor < s.nblkR * s.nblkC := by
  unfold blockNumber
  split_ifs
  · rw [Nat.mul_comm s.nblkR]
    exact add_mul_lt hr hc
  · exact add_mul_lt hc hr

theorem SliceHeader.blockNumber_inj {s : SliceHeader} {rb cb rb' cb' : ℕ} {colMajor : Bool}
    (hr : rb < s.nblkR) (hc : cb < s.nblkC) (hr' : rb' < s.nblkR) (hc' : cb' < s.nblkC)
    (h : s.blockNumber rb cb colMajor = s.blockNumber rb' cb' colMajor) : rb = rb' ∧ cb = cb' := by
  unfold blockNumber at h
  split_ifs at h
  · exact add_mul_inj hr hr' h
  · exact (add_mul_inj hc hc' h).symm

/-- A block is a cell of the area of its slice. -/
theorem getBlock_eq {p : PackStorage} {s : SliceHeader} (hs : s.Valid) (sz : ℕ) {rb cb : ℕ}
    (hr : rb < s.nblkR) (hc : cb < s.nblkC) :
    p.getBlock s sz (rb * s.blockR) (cb * s.blockC) =
      s.offData + s.blockSize sz * s.blockNumber rb cb p.colMajor := by
  have hbr := hs.blockR_pos (by omega)
  have hbc := hs.blockC_pos (by omega)
  unfold PackStorage.getBlock SliceHeader.blockOffset SliceHeader.blockNumber
  dsimp only
  rw [Nat.mul_div_cancel _ hbr, Nat.mul_div_cancel _ hbc]

/-! ## Placing the slices -/

theorem le_rndUp_alignData (x : ℕ) : x ≤ rndUp x alignData := le_rndUp (by decide)

theorem finalizeSlices_of_lt (sz : ℕ) {len id i : ℕ} {slice : ℕ → SliceHeader} {curOff : ℕ}
    (h : i < id) : (finalizeSlices sz len id slice curOff).1 i = slice i := by
  induction len generalizing id slice curOff with
  | zero => rfl
  | succ len ih =>
    rw [finalizeSlices, ih (by omega), Function.update_of_ne (by omega)]

/-- Nothing but the place of a slice changes. -/
theorem finalizeSlices_slice (sz len id : ℕ) (slice : ℕ → SliceHeader) (curOff i : ℕ) :
    ∃ off, (finalizeSlices sz len id slice curOff).1 i = { slice i with offData := off } := by
  induction len generalizing id slice curOff with
  | zero => exact ⟨(slice i).offData, rfl⟩
  | succ len ih =>
    rw [finalizeSlices]
    obtain ⟨off, hoff⟩ := ih (id + 1) (Function.update slice id ((slice id).finalize sz curOff).1)
      ((slice id).finalize sz curOff).2
    rw [hoff]
    by_cases hi : i = id
    · subst hi
      exact ⟨off, by rw [Function.update_self]; rfl⟩
    · exact ⟨off, by rw [Function.update_of_ne hi]⟩

/-- The slices with the numbers from `id` on are placed one behind the other. -/
theorem finalizeSlices_ascending (sz : ℕ) {len id : ℕ} {slice : ℕ → SliceHeader} {curOff : ℕ} :
    Ascending (fun i => ((finalizeSlices sz len id slice curOff).1 i).area sz) id len curOff
      (finalizeSlices sz len id slice curOff).2 := by
  induction len generalizing id slice curOff with
  | zero => exact Ascending.nil le_rfl
  | succ len ih =>
    rw [finalizeSlices]
    set r := (slice id).finalize sz curOff with hr
    have hfirst : (finalizeSlices sz len (id + 1) (Function.update slice id r.1) r.2).1 id = r.1 := by
      rw [finalizeSlices_of_lt sz (Nat.lt_succ_self id), Function.update_self]
    have hstop : (r.1.area sz).stop = r.2 := rfl
    refine Ascending.cons ?_ ?_ ?_
    · rw [hfirst, hstop]
      exact ih
    · rw [hfirst]
      exact le_rndUp_alignData curOff
    · rw [hfirst]
      exact Nat.le_add_right _ _

/-! ## The pieces of the storage -/

/-- A storage holds the packed matrix and, if they are needed, its row or column sums. -/
inductive Stream where
  | matrix | sums
  deriving DecidableEq

/-- A block of one of the streams. -/
structure Piece where
  stream : Stream
  id : ℕ
  rb : ℕ
  cb : ℕ

namespace PackStorage

variable (p : PackStorage) (szMatrix szSums : ℕ)

/-- The table entry for a slice of a stream. -/
def slice : Stream → ℕ → SliceHeader
  | .matrix => p.matrixSlice
  | .sums => p.sumsSlice

/-- The size of the elements of a stream. -/
def elemSize (szMatrix szSums : ℕ) : Stream → ℕ
  | .matrix => szMatrix
  | .sums => szSums

/-- The pieces that a storage has. -/
structure IsPiece (x : Piece) : Prop where
  id_lt : x.id < p.nslice
  rb_lt : x.rb < (p.slice x.stream x.id).nblkR
  cb_lt : x.cb < (p.slice x.stream x.id).nblkC
  sums : x.stream = .sums → (p.hasRowSums || p.hasColSums) = true

/-- The addresses of a piece, in its padded size. -/
def region (x : Piece) : Region :=
  let s := p.slice x.stream x.id
  let sz := elemSize szMatrix szSums x.stream
  let start := p.getBlock s sz (x.rb * s.blockR) (x.cb * s.blockC)
  ⟨start, start + s.blockSize sz⟩

/-- Every slice that the storage has is valid. -/
def SlicesValid : Prop := ∀ stream, ∀ id < p.nslice, (p.slice stream id).Valid

variable {p} {szMatrix szSums}

theorem region_eq (hvalid : p.SlicesValid) {x : Piece} (hx : p.IsPiece x) :
    p.region szMatrix szSums x = Region.cell (p.slice x.stream x.id).offData
      ((p.slice x.stream x.id).blockSize (elemSize szMatrix szSums x.stream))
      ((p.slice x.stream x.id).blockNumber x.rb x.cb p.colMajor) := by
  unfold region Region.cell
  dsimp only
  rw [getBlock_eq (hvalid x.stream x.id hx.id_lt) _ hx.rb_lt hx.cb_lt]

variable (szMatrix szSums) in
/-- A piece lies in the area of its slice. -/
theorem region_within_slice (hvalid : p.SlicesValid) {x : Piece} (hx : p.IsPiece x) :
    (p.region szMatrix szSums x).Within
      ((p.slice x.stream x.id).area (elemSize szMatrix szSums x.stream)) := by
  rw [region_eq hvalid hx, SliceHeader.area, SliceHeader.size, Nat.mul_assoc]
  exact Region.cell_within _ _ (SliceHeader.blockNumber_lt p.colMajor hx.rb_lt hx.cb_lt)

/-- Two blocks of one slice are disjoint. -/
theorem region_apart_of_slice (hvalid : p.SlicesValid) {x y : Piece} (hx : p.IsPiece x)
    (hy : p.IsPiece y) (hstream : x.stream = y.stream) (hid : x.id = y.id) (hne : x ≠ y) :
    (p.region szMatrix szSums x).Apart (p.region szMatrix szSums y) := by
  obtain ⟨stream, id, rb, cb⟩ := x
  obtain ⟨stream', id', rb', cb'⟩ := y
  obtain rfl : stream = stream' := hstream
  obtain rfl : id = id' := hid
  rw [region_eq hvalid hx, region_eq hvalid hy]
  refine Region.cell_apart _ _ fun heq => hne ?_
  obtain ⟨rfl, rfl⟩ := SliceHeader.blockNumber_inj hx.rb_lt hx.cb_lt hy.rb_lt hy.cb_lt heq
  rfl

/-- The places of the two streams: the matrix from `lo` to `mid` and the sums from there to `hi`. -/
structure Placed (p : PackStorage) (szMatrix szSums lo mid hi : ℕ) : Prop where
  valid : p.SlicesValid
  matrix : Ascending (fun id => (p.matrixSlice id).area szMatrix) 0 p.nslice lo mid
  sums : (p.hasRowSums || p.hasColSums) = true →
    Ascending (fun id => (p.sumsSlice id).area szSums) 0 p.nslice mid hi
  mid_le_hi : mid ≤ hi

variable {lo mid hi : ℕ}

theorem Placed.region_within_stream (h : Placed p szMatrix szSums lo mid hi) {x : Piece}
    (hx : p.IsPiece x) : (p.region szMatrix szSums x).Within
      (if x.stream = .matrix then ⟨lo, mid⟩ else ⟨mid, hi⟩) := by
  have hslice := region_within_slice szMatrix szSums h.valid hx
  have hid := hx.id_lt
  cases hstream : x.stream with
  | matrix =>
    rw [hstream] at hslice
    exact hslice.trans (h.matrix.within x.id (Nat.zero_le _) (by omega))
  | sums =>
    rw [hstream] at hslice
    exact hslice.trans ((h.sums (hx.sums hstream)).within x.id (Nat.zero_le _) (by omega))

theorem Placed.region_within (h : Placed p szMatrix szSums lo mid hi) {x : Piece}
    (hx : p.IsPiece x) : (p.region szMatrix szSums x).Within ⟨lo, hi⟩ := by
  have hw := h.region_within_stream hx
  have hmid := h.mid_le_hi
  have hlo := h.matrix.lo_le_hi
  split_ifs at hw
  · exact { start_le := hw.start_le, le_stop := hw.le_stop.trans hmid }
  · exact { start_le := hlo.trans hw.start_le, le_stop := hw.le_stop }

theorem Placed.region_apart (h : Placed p szMatrix szSums lo mid hi) {x y : Piece}
    (hx : p.IsPiece x) (hy : p.IsPiece y) (hne : x ≠ y) :
    (p.region szMatrix szSums x).Apart (p.region szMatrix szSums y) := by
  by_cases hstream : x.stream = y.stream
  · by_cases hid : x.id = y.id
    · exact region_apart_of_slice h.valid hx hy hstream hid hne
    · -- two slices of one stream
      have hwx := region_within_slice szMatrix szSums h.valid hx
      have hwy := region_within_slice szMatrix szSums h.valid hy
      have hxid := hx.id_lt
      have hyid := hy.id_lt
      refine Region.Apart.mono ?_ hwx hwy
      rw [← hstream]
      cases hmatrix : x.stream with
      | matrix => exact h.matrix.apart (Nat.zero_le _) (by omega) (Nat.zero_le _) (by omega) hid
      | sums =>
        exact (h.sums (hx.sums hmatrix)).apart (Nat.zero_le _) (by omega) (Nat.zero_le _) (by omega)
          hid
  · -- one piece of the matrix and one of the sums
    have hwx := h.region_within_stream hx
    have hwy := h.region_within_stream hy
    cases hxs : x.stream with
    | matrix =>
      cases hys : y.stream with
      | matrix => exact absurd (hxs.trans hys.symm) hstream
      | sums =>
        rw [hxs] at hwx
        rw [hys] at hwy
        exact Or.inl (hwx.le_stop.trans hwy.start_le)
    | sums =>
      cases hys : y.stream with
      | sums => exact absurd (hxs.trans hys.symm) hstream
      | matrix =>
        rw [hxs] at hwx
        rw [hys] at hwy
        exact Or.inr (hwy.le_stop.trans hwx.start_le)

/-! ## `set_blocking` and `finalize` -/

/-- What `set_blocking` does not touch. -/
structure SameHeader (p q : PackStorage) : Prop where
  which : q.which = p.which
  threading : q.threading = p.threading
  hasRowSums : q.hasRowSums = p.hasRowSums
  hasColSums : q.hasColSums = p.hasColSums
  offMatrix : q.offMatrix = p.offMatrix
  offSums : q.offSums = p.offSums
  totalHeaderSize : q.totalHeaderSize = p.totalHeaderSize

theorem SameHeader.nslice {p q : PackStorage} (h : SameHeader p q) : q.nslice = p.nslice := by
  rw [PackStorage.nslice, PackStorage.nslice, h.which, h.threading]

theorem setBlocking_sameHeader (p : PackStorage) (ithr rows cols blockR blockC : ℕ) :
    SameHeader p (p.setBlocking ithr rows cols blockR blockC) := by
  constructor <;> rfl

theorem setBlocking_slicesValid {p : PackStorage} (h : p.SlicesValid)
    (ithr rows cols blockR blockC : ℕ) :
    (p.setBlocking ithr rows cols blockR blockC).SlicesValid := by
  have hnew : ∀ (s : SliceHeader) (br bc : ℕ), (blockR ≠ 0 → 0 < br) → (blockC ≠ 0 → 0 < bc) →
      (s.setBlocking (if blockR = 0 then 0 else divUp rows blockR)
        (if blockC = 0 then 0 else divUp cols blockC) br bc).Valid := by
    intro s br bc hbr hbc
    constructor
    · intro hpos
      refine hbr fun h0 => ?_
      simp [SliceHeader.setBlocking, h0] at hpos
    · intro hpos
      refine hbc fun h0 => ?_
      simp [SliceHeader.setBlocking, h0] at hpos
  intro stream id hid
  have hid : id < p.nslice := (setBlocking_sameHeader p ithr rows cols blockR blockC).nslice ▸ hid
  cases stream with
  | matrix =>
    simp only [slice, setBlocking]
    by_cases heq : id = p.threadToSlice ithr
    · rw [heq, Function.update_self]
      exact hnew _ _ _ Nat.pos_of_ne_zero Nat.pos_of_ne_zero
    · rw [Function.update_of_ne heq]
      exact h .matrix id hid
  | sums =>
    simp only [slice, setBlocking]
    by_cases heq : id = p.threadToSlice ithr
    · rw [heq, Function.update_self]
      by_cases hsums : p.hasRowSums = true
      · rw [if_pos hsums]
        exact hnew _ _ _ Nat.pos_of_ne_zero fun _ => Nat.one_pos
      · rw [if_neg hsums]
        exact hnew _ _ _ (fun _ => Nat.one_pos) Nat.pos_of_ne_zero
    · rw [Function.update_of_ne heq]
      exact h .sums id hid

/-- Any number of calls of `set_blocking`. -/
theorem foldl_setBlocking {p : PackStorage} (h : p.SlicesValid) (calls : List BlockingCall) :
    (calls.foldl (fun p c => p.setBlocking c.ithr c.rows c.cols c.blockR c.blockC) p).SlicesValid ∧
      SameHeader p
        (calls.foldl (fun p c => p.setBlocking c.ithr c.rows c.cols c.blockR c.blockC) p) := by
  induction calls generalizing p with
  | nil => exact ⟨h, by constructor <;> rfl⟩
  | cons c calls ih =>
    obtain ⟨hvalid, hsame⟩ := ih (setBlocking_slicesValid h c.ithr c.rows c.cols c.blockR c.blockC)
    have hstep := setBlocking_sameHeader p c.ithr c.rows c.cols c.blockR c.blockC
    refine ⟨hvalid, ?_⟩
    constructor
    · exact hsame.which.trans hstep.which
    · exact hsame.threading.trans hstep.threading
    · exact hsame.hasRowSums.trans hstep.hasRowSums
    · exact hsame.hasColSums.trans hstep.hasColSums
    · exact hsame.offMatrix.trans hstep.offMatrix
    · exact hsame.offSums.trans hstep.offSums
    · exact hsame.totalHeaderSize.trans hstep.totalHeaderSize

theorem finalize_sameHeader (p : PackStorage) (szMatrix szSums : ℕ) :
    SameHeader p (p.finalize szMatrix szSums) := by
  constructor <;> rfl

theorem valid_offData {s : SliceHeader} (h : s.Valid) (off : ℕ) :
    SliceHeader.Valid { s with offData := off } :=
  ⟨h.blockR_pos, h.blockC_pos⟩

theorem finalizeSlices_valid {slice : ℕ → SliceHeader} {n : ℕ} (h : ∀ i < n, (slice i).Valid)
    (sz curOff : ℕ) {i : ℕ} (hi : i < n) : ((finalizeSlices sz n 0 slice curOff).1 i).Valid := by
  obtain ⟨off, hoff⟩ := finalizeSlices_slice sz n 0 slice curOff i
  rw [hoff]
  exact valid_offData (h i hi) off

theorem finalize_placed {p : PackStorage} (h : p.SlicesValid) (szMatrix szSums : ℕ) :
    ∃ mid hi, Placed (p.finalize szMatrix szSums) szMatrix szSums p.totalHeaderSize mid hi ∧
      (p.finalize szMatrix szSums).size = hi + alignData := by
  have hn := (finalize_sameHeader p szMatrix szSums).nslice
  have hmatrix : Ascending (fun i => ((p.finalize szMatrix szSums).matrixSlice i).area szMatrix) 0
      p.nslice p.totalHeaderSize
      (finalizeSlices szMatrix p.nslice 0 p.matrixSlice p.totalHeaderSize).2 :=
    finalizeSlices_ascending szMatrix
  set mid := (finalizeSlices szMatrix p.nslice 0 p.matrixSlice p.totalHeaderSize).2 with hmid
  have hvalidm : ∀ i < p.nslice, ((p.finalize szMatrix szSums).matrixSlice i).Valid := fun i hi =>
    finalizeSlices_valid (fun i hi => h .matrix i hi) szMatrix p.totalHeaderSize hi
  by_cases hsums : (p.hasRowSums || p.hasColSums) = true
  · have hslices : (p.finalize szMatrix szSums).sumsSlice =
        (finalizeSlices szSums p.nslice 0 p.sumsSlice mid).1 := by
      simp only [finalize, if_pos hsums, hmid]
    have hasc : Ascending (fun i => ((p.finalize szMatrix szSums).sumsSlice i).area szSums) 0
        p.nslice mid (finalizeSlices szSums p.nslice 0 p.sumsSlice mid).2 := by
      rw [hslices]
      exact finalizeSlices_ascending szSums
    refine ⟨mid, _, ⟨?_, hn ▸ hmatrix, fun _ => hn ▸ hasc, hasc.lo_le_hi⟩, ?_⟩
    · intro stream id hid
      rw [hn] at hid
      cases stream with
      | matrix => exact hvalidm id hid
      | sums =>
        simp only [slice, hslices]
        exact finalizeSlices_valid (fun i hi => h .sums i hi) szSums mid hid
    · simp only [finalize, if_pos hsums, hmid]
  · have hslices : (p.finalize szMatrix szSums).sumsSlice = p.sumsSlice := by
      simp only [finalize, if_neg hsums]
    refine ⟨mid, mid, ⟨?_, hn ▸ hmatrix, fun hs => absurd hs hsums, le_rfl⟩, ?_⟩
    · intro stream id hid
      rw [hn] at hid
      cases stream with
      | matrix => exact hvalidm id hid
      | sums =>
        simp only [slice, hslices]
        exact h .sums id hid
    · simp only [finalize, if_neg hsums, hmid]

/-! ## Threads and slices -/

theorem threadSliceInfo_coords (p : PackStorage) {i j : ℕ} (k : ℕ) (hi : i < p.threading.nthrsM)
    (hj : j < p.threading.nthrsN) :
    p.threadSliceInfo (i + (j + k * p.threading.nthrsN) * p.threading.nthrsM) =
      if p.which = .a then (k * p.threading.nthrsM + i, j) else (k * p.threading.nthrsN + j, i) := by
  have hM : 0 < p.threading.nthrsM := by omega
  have hN : 0 < p.threading.nthrsN := by omega
  unfold threadSliceInfo
  dsimp only
  rw [Nat.add_mul_mod_self_right, Nat.mod_eq_of_lt hi, Nat.add_mul_div_right _ _ hM,
    Nat.div_eq_of_lt hi, Nat.zero_add, Nat.add_mul_mod_self_right, Nat.mod_eq_of_lt hj,
    Nat.add_mul_div_right _ _ hN, Nat.div_eq_of_lt hj, Nat.zero_add]
  split_ifs <;> rfl

/-- The threads that are the first ones in their slices are in bijection with the slices. -/
theorem threadToSlice_bijOn (p : PackStorage) (hM : 0 < p.threading.nthrsM)
    (hN : 0 < p.threading.nthrsN) :
    Set.BijOn p.threadToSlice
      {ithr | ithr < p.threading.nthrs ∧ p.isFirstThreadInSlice ithr = true}
      {id | id < p.nslice} := by
  refine ⟨?_, ?_, ?_⟩
  · rintro ithr ⟨hlt, -⟩
    obtain ⟨i, hi, j, hj, k, hk, rfl⟩ := p.threading.exists_coords hlt
    show p.threadToSlice _ < p.nslice
    rw [threadToSlice, threadSliceInfo_coords p k hi hj, nslice]
    split_ifs
    · rw [Nat.add_comm, Nat.mul_comm p.threading.nthrsM]
      exact add_mul_lt hi hk
    · rw [Nat.add_comm, Nat.mul_comm p.threading.nthrsN]
      exact add_mul_lt hj hk
  · rintro ithr ⟨hlt, hfirst⟩ ithr' ⟨hlt', hfirst'⟩ heq
    obtain ⟨i, hi, j, hj, k, hk, rfl⟩ := p.threading.exists_coords hlt
    obtain ⟨i', hi', j', hj', k', hk', rfl⟩ := p.threading.exists_coords hlt'
    rw [threadToSlice, threadToSlice, threadSliceInfo_coords p k hi hj,
      threadSliceInfo_coords p k' hi' hj'] at heq
    rw [isFirstThreadInSlice, threadSliceInfo_coords p k hi hj, decide_eq_true_eq] at hfirst
    rw [isFirstThreadInSlice, threadSliceInfo_coords p k' hi' hj', decide_eq_true_eq] at hfirst'
    split_ifs at heq hfirst hfirst' <;> dsimp only at heq hfirst hfirst'
    · rw [Nat.add_comm, Nat.add_comm _ i'] at heq
      obtain ⟨rfl, rfl⟩ := add_mul_inj hi hi' heq
      rw [hfirst, hfirst']
    · rw [Nat.add_comm, Nat.add_comm _ j'] at heq
      obtain ⟨rfl, rfl⟩ := add_mul_inj hj hj' heq
      rw [hfirst, hfirst']
  · intro id hid
    replace hid : id < p.nslice := hid
    rw [nslice] at hid
    by_cases hw : p.which = .a
    · rw [if_pos hw] at hid
      have hi := Nat.mod_lt id hM
      have hk : id / p.threading.nthrsM < p.threading.nthrsK := Nat.div_lt_of_lt_mul hid
      have hinfo := threadSliceInfo_coords p (id / p.threading.nthrsM) hi hN
      rw [if_pos hw] at hinfo
      refine ⟨id % p.threading.nthrsM +
        (0 + id / p.threading.nthrsM * p.threading.nthrsN) * p.threading.nthrsM,
        ⟨p.threading.coords_lt_nthrs hi hN hk, ?_⟩, ?_⟩
      · rw [isFirstThreadInSlice, hinfo, decide_eq_true_eq]
      · rw [threadToSlice, hinfo, Nat.div_add_mod']
    · rw [if_neg hw] at hid
      have hj := Nat.mod_lt id hN
      have hk : id / p.threading.nthrsN < p.threading.nthrsK := Nat.div_lt_of_lt_mul hid
      have hinfo := threadSliceInfo_coords p (id / p.threading.nthrsN) hM hj
      rw [if_neg hw] at hinfo
      refine ⟨0 + (id % p.threading.nthrsN +
        id / p.threading.nthrsN * p.threading.nthrsN) * p.threading.nthrsM,
        ⟨p.threading.coords_lt_nthrs hM hj hk, ?_⟩, ?_⟩
      · rw [isFirstThreadInSlice, hinfo, decide_eq_true_eq]
      · rw [threadToSlice, hinfo, Nat.div_add_mod']

/-! ## The layout -/

/-- The size of a table with an entry for each of `n` slices. -/
def tableSize (h : HeaderSizes) (n : ℕ) : ℕ := h.matrixHeader + h.sliceHeader * (n - 1)

/-- The storage is laid out: the header, the two tables and the pieces are disjoint and inside of the
storage, and every slice has exactly one first thread. -/
structure LaidOut (p : PackStorage) (h : HeaderSizes) (szMatrix szSums : ℕ) : Prop where
  pieces_apart : ∀ x y, p.IsPiece x → p.IsPiece y → x ≠ y →
    (p.region szMatrix szSums x).Apart (p.region szMatrix szSums y)
  header_le : h.header ≤ p.offMatrix
  matrixTable_le : p.offMatrix + tableSize h p.nslice ≤ p.offSums
  sumsTable_le : ∀ x, p.IsPiece x →
    p.offSums + tableSize h p.nslice ≤ (p.region szMatrix szSums x).start
  pieces_lt_size : ∀ x, p.IsPiece x → (p.region szMatrix szSums x).stop < p.size
  threads : Set.BijOn p.threadToSlice
    {ithr | ithr < p.threading.nthrs ∧ p.isFirstThreadInSlice ithr = true} {id | id < p.nslice}

theorem setup_slicesValid (p : PackStorage) (h : HeaderSizes) {maxNthr : ℕ}
    (hasRowSums hasColSums : Bool) {t : GemmThreading}
    (hslices : PackStorage.nslice { p with threading := t } ≤ maxNthr) :
    SlicesValid { p.setup h maxNthr hasRowSums hasColSums with threading := t } := by
  intro stream id hid
  have hlt : id < maxNthr := lt_of_lt_of_le hid hslices
  cases stream with
  | matrix =>
    simp only [slice, setup, if_pos hlt]
    exact ⟨fun h => absurd h (lt_irrefl 0), fun h => absurd h (lt_irrefl 0)⟩
  | sums =>
    simp only [slice, setup, if_pos hlt]
    exact ⟨fun h => absurd h (lt_irrefl 0), fun h => absurd h (lt_irrefl 0)⟩

/-- There are at most as many slices as threads. -/
theorem nslice_le (p : PackStorage) (hM : 0 < p.threading.nthrsM) (hN : 0 < p.threading.nthrsN) :
    p.nslice ≤ p.threading.nthrs := by
  rw [nslice, GemmThreading.nthrs]
  split_ifs
  · exact Nat.mul_le_mul_right _ (Nat.le_mul_of_pos_right _ hN)
  · exact Nat.mul_le_mul_right _ (Nat.le_mul_of_pos_left _ hM)

theorem tableSize_le_matrixHeaderSize (h : HeaderSizes) {n maxNthr : ℕ} (hn : n ≤ maxNthr) :
    tableSize h n ≤ matrixHeaderSize h maxNthr := by
  have hmul : h.sliceHeader * (n - 1) ≤ h.sliceHeader * (maxNthr - 1) :=
    Nat.mul_le_mul_left _ (by omega)
  have hrnd : h.matrixHeader + h.sliceHeader * (maxNthr - 1) ≤ matrixHeaderSize h maxNthr :=
    le_rndUp (by decide)
  rw [tableSize]
  omega

/-- Whatever is passed to `set_blocking`, the storage is laid out. -/
theorem prepareLayout_laidOut (p : PackStorage) (h : HeaderSizes) {maxNthr : ℕ}
    (hasRowSums hasColSums : Bool) {t : GemmThreading} (hM : 0 < t.nthrsM) (hN : 0 < t.nthrsN)
    (hmax : t.nthrs ≤ maxNthr) (calls : List BlockingCall) (szMatrix szSums : ℕ) :
    LaidOut (p.prepareLayout h maxNthr hasRowSums hasColSums t calls szMatrix szSums) h szMatrix
      szSums := by
  set p0 : PackStorage := { p.setup h maxNthr hasRowSums hasColSums with threading := t } with hp0
  have hn0 : p0.nslice ≤ maxNthr := (nslice_le p0 hM hN).trans hmax
  have hvalid0 : p0.SlicesValid := setup_slicesValid p h hasRowSums hasColSums hn0
  obtain ⟨hvalid, hsame⟩ := foldl_setBlocking hvalid0 calls
  set p1 := calls.foldl (fun p c => p.setBlocking c.ithr c.rows c.cols c.blockR c.blockC) p0 with hp1
  have hfin := finalize_sameHeader p1 szMatrix szSums
  obtain ⟨mid, hi, hplaced, hsize⟩ := finalize_placed hvalid szMatrix szSums
  have hq : p.prepareLayout h maxNthr hasRowSums hasColSums t calls szMatrix szSums =
      p1.finalize szMatrix szSums := rfl
  rw [hq]
  have hthreading : (p1.finalize szMatrix szSums).threading = t :=
    hfin.threading.trans hsame.threading
  have hoffMatrix : (p1.finalize szMatrix szSums).offMatrix = headerSize h :=
    hfin.offMatrix.trans hsame.offMatrix
  have hoffSums : (p1.finalize szMatrix szSums).offSums =
      headerSize h + matrixHeaderSize h maxNthr := hfin.offSums.trans hsame.offSums
  have htotal : p1.totalHeaderSize = headerSize h + matrixHeaderSize h maxNthr * 2 :=
    hsame.totalHeaderSize
  have htable : tableSize h (p1.finalize szMatrix szSums).nslice ≤ matrixHeaderSize h maxNthr := by
    refine tableSize_le_matrixHeaderSize h ?_
    rw [hfin.nslice, hsame.nslice]
    exact hn0
  constructor
  · exact fun x y hx hy hne => hplaced.region_apart hx hy hne
  · rw [hoffMatrix]
    exact le_rndUp (by decide)
  · rw [hoffMatrix, hoffSums]
    omega
  · intro x hx
    have hw := (hplaced.region_within hx).start_le
    dsimp only at hw
    rw [hoffSums]
    omega
  · intro x hx
    have hw := (hplaced.region_within hx).le_stop
    dsimp only at hw
    have hpos : 0 < alignData := by decide
    omega
  · exact threadToSlice_bijOn _ (hthreading ▸ hM) (hthreading ▸ hN)

/-- A freshly allocated storage. -/
def fresh (which : MatrixId) (threading : GemmThreading) : PackStorage where
  which := which
  hasRowSums := false
  hasColSums := false
  offMatrix := 0
  offSums := 0
  size := 0
  threading := threading
  matrixSlice := fun _ => ⟨false, 0, 0, 0, 0, 0⟩
  sumsSlice := fun _ => ⟨false, 0, 0, 0, 0, 0⟩
  totalHeaderSize := 0

/-- Matrix A of `100 x 70` bytes, packed with row sums for a grid of `2 x 2` threads. -/
theorem prepareLayout_laidOut_2x2 :
    LaidOut ((fresh .a ⟨1, 1, 1, -1, -1, -1, -1, -1, -1, .row1d, .nonshared⟩).prepareLayout
      ⟨88, 48, 40⟩ 4 true false ⟨2, 2, 1, 48, 48, 72, 96, 96, 72, .mnk3d, .nonshared⟩
      [⟨0, 96, 70, 48, 72⟩, ⟨1, 4, 70, 48, 72⟩] 1 4) ⟨88, 48, 40⟩ 1 4 :=
  prepareLayout_laidOut _ _ true false (by decide) (by decide) (by decide) _ 1 4

end PackStorage

end MklDnn
