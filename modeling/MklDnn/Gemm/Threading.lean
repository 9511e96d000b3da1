import Mathlib.Data.Int.Notation
import Mathlib.Data.Nat.Basic
import MklDnn.Common.Utils

/-!
# Threading of a matrix multiplication

A grid of `nthrs_m * nthrs_n * nthrs_k` threads and the slice of the `m x n x k` iteration space that
each thread gets. The differences of the source that can be negative only do so where the result is
discarded, so the subtractions are those of natural numbers.
-/

namespace MklDnn

/-! ## Partitions -/

/-- `partition_1d`: offset and size of the band of thread `ithr`. -/
def partition1d (ithr nthrs n : ℕ) : ℕ × ℕ :=
  let band := n / nthrs
  let tail := n - (nthrs - 1) * band
  let band := if tail > band + 1 then band + 1 else band
  let tail := n - (nthrs - 1) * band
  let block := if ithr < nthrs - 1 then band else tail
  let offset := ithr * band
  if offset ≥ n then (0, 0)
  else if offset + block > n then (offset, n - offset)
  else (offset, block)

/-- One direction of `partition_2d`: how the bands of a dimension are laid out. -/
structure Banding where
  bandt : ℕ
  firstgroup : ℕ
  firstval : ℕ
  used : ℕ

/-- The number of bands of size `firstval` that cover `m`. -/
def bandsUsed (m firstval : ℕ) : ℕ :=
  let used := m / firstval
  if used * firstval < m then used + 1 else used

/-- The bands of `partition_2d` along `m`. -/
def bandingM (m mdiv : ℕ) : Banding :=
  let bandt := m / mdiv
  if m - (mdiv - 1) * bandt > bandt + 1 then
    let bandt := if m - (mdiv - 1) * bandt > mdiv then bandt + 1 else bandt
    let firstval := bandt + 1
    let used := bandsUsed m firstval
    { bandt := bandt, firstgroup := used - 1, firstval := firstval, used := used }
  else { bandt := bandt, firstgroup := mdiv - 1, firstval := bandt, used := mdiv }

/-- The bands of `partition_2d` along `n`. -/
def bandingN (n ndiv : ℕ) : Banding :=
  let bandt := n / ndiv
  if n - (ndiv - 1) * bandt > bandt + 1 then
    let firstval := bandt + 1
    let used := bandsUsed n firstval
    { bandt := bandt, firstgroup := used - 1, firstval := firstval, used := used }
  else { bandt := bandt, firstgroup := ndiv - 1, firstval := bandt, used := ndiv }

/-- Displacement and size of band `i`. -/
def Banding.band (b : Banding) (m i : ℕ) : ℕ × ℕ :=
  let db :=
    if i < b.firstgroup then (i * b.firstval, b.firstval)
    else if i + 2 ≤ b.used then
      (b.firstgroup * b.firstval + (i - b.firstgroup) * b.bandt, b.bandt)
    else
      let disp := b.firstgroup * b.firstval + (b.used - 1 - b.firstgroup) * b.bandt
      (disp, m - disp)
  (min db.1 (m - 1), db.2)

/-- `partition_2d`: displacement and band of a thread along `m` and along `n`. -/
def partition2d (ithr ithrI ithrJ nthrsM nthrsN m n : ℕ) : (ℕ × ℕ) × (ℕ × ℕ) :=
  let bm := bandingM m nthrsM
  let bn := bandingN n nthrsN
  if ithr < bm.used * bn.used then (bm.band m ithrI, bn.band n ithrJ) else ((0, 0), (0, 0))

/-! ## Thread grids -/

inductive PartitionType where
  | row1d | col1d | colMajor2d | mnk3d
  deriving DecidableEq

inductive CopyType where
  | nonshared | sharedA | noCopy
  deriving DecidableEq

/-- `gemm_slice_t` -/
structure GemmSlice where
  offM : ℕ
  offN : ℕ
  offK : ℕ
  m : ℕ
  n : ℕ
  k : ℕ
  ithrM : ℕ
  ithrN : ℕ
  ithrK : ℕ

/-- `gemm_threading_t`. The block and thread sizes are `-1` where the default is used. -/
structure GemmThreading where
  nthrsM : ℕ
  nthrsN : ℕ
  nthrsK : ℕ
  blockM : ℤ
  blockN : ℤ
  blockK : ℤ
  threadM : ℤ
  threadN : ℤ
  threadK : ℤ
  partition : PartitionType
  copy : CopyType
  deriving DecidableEq

namespace GemmThreading

def nthrs (t : GemmThreading) : ℕ := t.nthrsM * t.nthrsN * t.nthrsK

/-- `operator==` -/
def eq (t1 t2 : GemmThreading) : Bool :=
  t1.nthrsM = t2.nthrsM ∧ t1.nthrsN = t2.nthrsN ∧ t1.nthrsK = t2.nthrsK ∧ t1.partition = t2.partition ∧
    t1.copy = t2.copy

/-- `thr_k_stride` -/
def thrKStride (t : GemmThreading) : ℕ := t.nthrsM * t.nthrsN

/-- `get_thread_slice`. For a partition in three dimensions the thread sizes are positive. -/
def getThreadSlice (t : GemmThreading) (ithr m n k : ℕ) : GemmSlice :=
  match t.partition with
  | .row1d =>
    let band := partition1d ithr t.nthrs m
    ⟨band.1, 0, 0, band.2, n, k, ithr, 0, 0⟩
  | .col1d =>
    let band := partition1d ithr t.nthrs n
    ⟨0, band.1, 0, m, band.2, k, 0, ithr, 0⟩
  | .colMajor2d =>
    let ithrM := ithr % t.nthrsM
    let ithrN := ithr / t.nthrsM
    let bands := partition2d ithr ithrM ithrN t.nthrsM t.nthrsN m n
    ⟨bands.1.1, bands.2.1, 0, bands.1.2, bands.2.2, k, ithrM, ithrN, 0⟩
  | .mnk3d =>
    let ithrM := ithr % t.nthrsM
    let ithrN := ithr / t.nthrsM % t.nthrsN
    let ithrK := ithr / t.nthrsM / t.nthrsN
    let threadM := t.threadM.toNat
    let threadN := t.threadN.toNat
    let threadK := t.threadK.toNat
    let offM := ithrM * threadM
    let offN := ithrN * threadN
    let offK := ithrK * threadK
    ⟨offM, offN, offK, min threadM (m - offM), min threadN (n - offN), min threadK (k - offK),
      ithrM, ithrN, ithrK⟩

end GemmThreading

end MklDnn
