import Mathlib.Logic.Function.Basic
import MklDnn.Gemm.Threading

/-!
# The storage of a packed matrix

`gemm_pack_storage_t`: a header, two tables with one entry for each slice, and behind them the blocks of
the packed matrix and of its row or column sums. All offsets are in bytes from the start of the storage.
-/

namespace MklDnn

inductive MatrixId where
  | a | b
  deriving DecidableEq

/-- The sizes of the header types, which the layout depends on. -/
structure HeaderSizes where
  header : ℕ
  matrixHeader : ℕ
  sliceHeader : ℕ

/-- `slice_header_t` -/
structure SliceHeader where
  packed : Bool
  nblkR : ℕ
  nblkC : ℕ
  blockR : ℕ
  blockC : ℕ
  offData : ℕ

/-- `align_headers` -/
def alignHeaders : ℕ := 0x20

/-- `align_data` -/
def alignData : ℕ := 0x1000

namespace SliceHeader

/-- `block_size`, for elements of `sz` bytes. -/
def blockSize (s : SliceHeader) (sz : ℕ) : ℕ := rndUp (s.blockR * s.blockC * sz) alignData

/-- `block_offset` -/
def blockOffset (s : SliceHeader) (sz r0 c0 : ℕ) (colMajor : Bool) : ℕ :=
  let rb := r0 / s.blockR
  let cb := c0 / s.blockC
  let mb := if colMajor then rb + cb * s.nblkR else cb + rb * s.nblkC
  s.blockSize sz * mb

/-- `size` -/
def size (s : SliceHeader) (sz : ℕ) : ℕ := s.blockSize sz * s.nblkR * s.nblkC

/-- `set_blocking` -/
def setBlocking (s : SliceHeader) (nblkR nblkC blockR blockC : ℕ) : SliceHeader :=
  { s with packed := true, nblkR := nblkR, nblkC := nblkC, blockR := blockR, blockC := blockC }

/-- `set_nocopy` -/
def setNocopy (s : SliceHeader) (ld td : ℕ) : SliceHeader :=
  { s with packed := false, blockR := ld, blockC := td, nblkR := 1, nblkC := 1 }

/-- `finalize`: the entry with its place, and the next free offset. -/
def finalize (s : SliceHeader) (sz curOff : ℕ) : SliceHeader × ℕ :=
  let curOff := rndUp curOff alignData
  ({ s with offData := curOff }, curOff + s.size sz)

end SliceHeader

/-- `matrix_header_t::finalize`: the slices from `id` on, of which there are `len`. -/
def finalizeSlices (sz : ℕ) : ℕ → ℕ → (ℕ → SliceHeader) → ℕ → (ℕ → SliceHeader) × ℕ
  | 0, _, slice, curOff => (slice, curOff)
  | len + 1, id, slice, curOff =>
    let r := (slice id).finalize sz curOff
    finalizeSlices sz len (id + 1) (Function.update slice id r.1) r.2

/-- `gemm_pack_storage_t` -/
structure PackStorage where
  which : MatrixId
  hasRowSums : Bool
  hasColSums : Bool
  offMatrix : ℕ
  offSums : ℕ
  size : ℕ
  threading : GemmThreading
  matrixSlice : ℕ → SliceHeader
  sumsSlice : ℕ → SliceHeader
  totalHeaderSize : ℕ

namespace PackStorage

/-- `header_size` -/
def headerSize (h : HeaderSizes) : ℕ := rndUp h.header alignHeaders

/-- `matrix_header_size` -/
def matrixHeaderSize (h : HeaderSizes) (maxNthr : ℕ) : ℕ :=
  rndUp (h.matrixHeader + h.sliceHeader * (maxNthr - 1)) alignHeaders

/-- `nslice` -/
def nslice (p : PackStorage) : ℕ :=
  if p.which = .a then p.threading.nthrsM * p.threading.nthrsK
  else p.threading.nthrsN * p.threading.nthrsK

/-- `thread_slice_info` -/
def threadSliceInfo (p : PackStorage) (ithr : ℕ) : ℕ × ℕ :=
  let isA := p.which = .a
  let nthrInner := if isA then p.threading.nthrsM else p.threading.nthrsN
  let ithrI := ithr % p.threading.nthrsM
  let ithrJk := ithr / p.threading.nthrsM
  let ithrJ := ithrJk % p.threading.nthrsN
  let ithrK := ithrJk / p.threading.nthrsN
  let ithrInner := if isA then ithrI else ithrJ
  let ithrSlice := if isA then ithrJ else ithrI
  (ithrK * nthrInner + ithrInner, ithrSlice)

/-- `thread_to_slice` -/
def threadToSlice (p : PackStorage) (ithr : ℕ) : ℕ := (p.threadSliceInfo ithr).1

/-- `is_first_thread_in_slice` -/
def isFirstThreadInSlice (p : PackStorage) (ithr : ℕ) : Bool := (p.threadSliceInfo ithr).2 = 0

/-- `set_blocking` -/
def setBlocking (p : PackStorage) (ithr rows cols blockR blockC : ℕ) : PackStorage :=
  let id := p.threadToSlice ithr
  let nblkR := if blockR = 0 then 0 else divUp rows blockR
  let nblkC := if blockC = 0 then 0 else divUp cols blockC
  { p with
    matrixSlice := Function.update p.matrixSlice id
      ((p.matrixSlice id).setBlocking nblkR nblkC blockR blockC)
    sumsSlice := Function.update p.sumsSlice id
      (if p.hasRowSums then (p.sumsSlice id).setBlocking nblkR nblkC blockR 1
        else (p.sumsSlice id).setBlocking nblkR nblkC 1 blockC) }

/-- `set_nocopy` -/
def setNocopy (p : PackStorage) (ithr ld td : ℕ) : PackStorage :=
  let id := p.threadToSlice ithr
  { p with matrixSlice := Function.update p.matrixSlice id ((p.matrixSlice id).setNocopy ld td) }

/-- `setup`, for at most `maxNthr` slices. -/
def setup (p : PackStorage) (h : HeaderSizes) (maxNthr : ℕ) (hasRowSums hasColSums : Bool) :
    PackStorage :=
  let szMh := matrixHeaderSize h maxNthr
  let szH := headerSize h
  { p with
    hasRowSums := hasRowSums
    hasColSums := hasColSums
    offMatrix := szH
    offSums := szH + szMh
    totalHeaderSize := szH + szMh * 2
    size := 0
    matrixSlice := fun id =>
      if id < maxNthr then (p.matrixSlice id).setBlocking 0 0 0 0 else p.matrixSlice id
    sumsSlice := fun id =>
      if id < maxNthr then (p.sumsSlice id).setBlocking 0 0 0 0 else p.sumsSlice id }

/-- `finalize`, for matrix elements of `szMatrix` bytes and sums of `szSums` bytes. -/
def finalize (p : PackStorage) (szMatrix szSums : ℕ) : PackStorage :=
  let m := finalizeSlices szMatrix p.nslice 0 p.matrixSlice p.totalHeaderSize
  let s := if p.hasRowSums || p.hasColSums then finalizeSlices szSums p.nslice 0 p.sumsSlice m.2
    else (p.sumsSlice, m.2)
  -- compute kernels overrun to preload data
  { p with matrixSlice := m.1, sumsSlice := s.1, size := s.2 + alignData }

/-- `col_major` -/
def colMajor (p : PackStorage) : Bool := p.which = .a

/-- `get_block`: the offset of a block. -/
def getBlock (p : PackStorage) (slice : SliceHeader) (sz r0 c0 : ℕ) : ℕ :=
  slice.offData + slice.blockOffset sz r0 c0 p.colMajor

/-- The arguments of a call of `set_blocking`. -/
structure BlockingCall where
  ithr : ℕ
  rows : ℕ
  cols : ℕ
  blockR : ℕ
  blockC : ℕ

/-- How `gemm_threading_driver` prepares the layout of the storage: `setup`, the choice of a thread
grid, `set_blocking` for slices and `finalize`. -/
def prepareLayout (p : PackStorage) (h : HeaderSizes) (maxNthr : ℕ) (hasRowSums hasColSums : Bool)
    (threading : GemmThreading) (calls : List BlockingCall) (szMatrix szSums : ℕ) : PackStorage :=
  let p := { p.setup h maxNthr hasRowSums hasColSums with threading := threading }
  let p := calls.foldl (fun p c => p.setBlocking c.ithr c.rows c.cols c.blockR c.blockC) p
  p.finalize szMatrix szSums

end PackStorage

end MklDnn
