import MklDnn.Gemm.Threading
import MklDnn.Lib.Rounding
import MklDnn.Lib.SteppedLoops

/-!
# The choice of the thread grid

`set_thread_opts_nopack` and `set_thread_opts_pack` choose the grid of threads and, for a partition in
three dimensions, the sizes of the slices and of the blocks within a slice. Sizes of matrices are in the
range of an `int`. A division by zero, which the source does not guard against, is `none`.
-/

namespace MklDnn

/-! ## Kernel parameters -/

/-- The data type of `A`: it tells the instances of the driver apart. -/
inductive AType where
  | s8 | bf16 | f32
  deriving DecidableEq

/-- The instruction set. -/
inductive Isa where
  | sse41 | avx | avx2 | avx512Core | avx512CoreVnni
  deriving DecidableEq

/-- `mayiuse(avx512_core)` -/
def Isa.mayUseAvx512Core (isa : Isa) : Bool := isa = .avx512Core ∨ isa = .avx512CoreVnni

/-- `get_vector_length`, for a type of `size` bytes. -/
def getVectorLength (isa : Isa) (size : ℕ) : ℕ :=
  match isa with
  | .sse41 => 16 / size
  | .avx => 32 / size
  | .avx2 => 32 / size
  | .avx512Core => 64 / size
  | .avx512CoreVnni => 64 / size

/-- `sizeof(a_type)` -/
def AType.size : AType → ℕ
  | .s8 => 1
  | .bf16 => 2
  | .f32 => 4

/-- The unroll and block sizes of `gemm_info_t`. -/
structure KernelParams where
  um : ℕ
  un : ℕ
  uk : ℕ
  bm : ℕ
  bn : ℕ
  bk : ℕ

/-- The sizes that `jit_init` sets. -/
def jitInit : AType → Isa → Option KernelParams
  | .s8, .avx512CoreVnni => some ⟨48, 8, 1, 9984, 384, 1536⟩
  | .s8, .avx512Core => some ⟨48, 8, 1, 9984, 384, 768⟩
  | .s8, _ => none
  | .bf16, .avx512CoreVnni => some ⟨48, 8, 1, 9984, 384, 768⟩
  | .bf16, .avx512Core => some ⟨48, 8, 1, 9984, 384, 768⟩
  | .bf16, _ => none
  | .f32, .avx512CoreVnni => some ⟨48, 8, 1, 9984, 384, 384⟩
  | .f32, .avx512Core => some ⟨48, 8, 1, 9984, 384, 384⟩
  | .f32, .avx2 => some ⟨24, 4, 1, 10000, 384, 192⟩
  | .f32, .avx => some ⟨16, 4, 1, 4096, 96, 256⟩
  | .f32, .sse41 => some ⟨8, 4, 1, 4096, 96, 256⟩

/-- What the choice of the grid reads of `gemm_info_t`. -/
structure GemmInfo where
  aType : AType
  isa : Isa
  m : ℕ
  n : ℕ
  k : ℕ
  ao : ℤ
  params : KernelParams

/-! ## `partition_2d_minblk` -/

/-- The value of an `int`: results outside of its range wrap around. -/
def wrapInt (x : ℤ) : ℤ := (x + 2 ^ 31) % 2 ^ 32 - 2 ^ 31

/-- `utils::div_up` on `int`. -/
def divUpInt (a b : ℕ) : ℤ := (wrapInt (a + b - 1)).tdiv b

/-- `(float)band / b` -/
def floatRatio (band b : ℕ) : ℚ := Rounding.toPrec 24 (Rounding.toPrec 24 band / b)

/-- The variables of `partition_2d_minblk_with_primes`. -/
structure PrimeState where
  nthrIte : ℕ
  nthrM : ℕ
  nthrN : ℕ
  bandM : ℕ
  bandN : ℕ
  numParts : ℤ

/-- `try_partition`; `none` if it partitions neither dimension. -/
def tryPartition (st : PrimeState) (p bm bn : ℕ) (pickSmall : Bool) : Option PrimeState :=
  let bandMIte := st.bandM / p
  let bandNIte := st.bandN / p
  let ratioM := floatRatio bandMIte bm
  let ratioN := floatRatio bandNIte bn
  let pickM : Bool := decide (ratioM < ratioN) = pickSmall
  let doM := (ratioM ≥ 1 ∧ ratioN < 1) ∨ (ratioM ≥ 1 ∧ ratioN ≥ 1 ∧ pickM)
  let doN := (ratioM < 1 ∧ ratioN ≥ 1) ∨ (ratioM ≥ 1 ∧ ratioN ≥ 1 ∧ !pickM)
  if doM then some { st with nthrM := st.nthrM * p, bandM := bandMIte }
  else if doN then some { st with nthrN := st.nthrN * p, bandN := bandNIte }
  else none

/-- One iteration of the loop for the prime `p`, after `nthr_ite` was divided by it. -/
def primeStep (blockM blockN minM minN nthr p : ℕ) (st : PrimeState) : PrimeState × Bool :=
  let needMin := st.numParts < nthr
  let st := if needMin then { st with numParts := wrapInt (st.numParts * p) } else st
  match (if needMin then tryPartition st p minM minN true else none) with
  | some st' => (st', false)
  | none =>
    match tryPartition st p blockM blockN false with
    | some st' => (st', false)
    | none =>
      match tryPartition st p minM minN true with
      | some st' => (st', false)
      | none => (st, true)

/-- The `while` loop for the prime `p`, with the flag `finished`. Every iteration divides `nthr_ite`, so
`nthr` iterations suffice. -/
def primeLoop (blockM blockN minM minN nthr p : ℕ) : ℕ → PrimeState → PrimeState × Bool
  | 0, st => (st, false)
  | fuel + 1, st =>
    if st.nthrIte % p = 0 then
      let r := primeStep blockM blockN minM minN nthr p { st with nthrIte := st.nthrIte / p }
      if r.2 then r else primeLoop blockM blockN minM minN nthr p fuel r.1
    else (st, false)

/-- The loop over the primes. -/
def primesLoop (blockM blockN minM minN nthr : ℕ) : List ℕ → PrimeState → PrimeState
  | [], st => st
  | p :: ps, st =>
    let r := primeLoop blockM blockN minM minN nthr p nthr st
    if r.2 then r.1 else primesLoop blockM blockN minM minN nthr ps r.1

/-- `partition_2d_minblk_with_primes` -/
def partition2dMinblkWithPrimes (m n blockM blockN minM minN nthr : ℕ) : ℕ × ℕ :=
  let partM := max 1 (m / blockM)
  let partN := max 1 (n / blockN)
  if partM = 1 ∧ partN ≥ nthr then (1, min partN nthr)
  else if partN = 1 ∧ partM ≥ nthr then (min partM nthr, 1)
  else
    let st := primesLoop blockM blockN minM minN nthr [2, 3, 5, 7, 11, 13, 17, 19, 23, 29]
      ⟨nthr, 1, 1, m, n, wrapInt (partM * partN)⟩
    (st.nthrM, st.nthrN)

/-- `0.95` -/
def double095 : ℚ := Rounding.toPrec 53 (95 / 100)

/-- The loop of `partition_2d_minblk` over `nthr_new`, of which `len` values are left. -/
def minblkLoop (m n blockM blockN minM minN : ℕ) (nthrThresh : ℚ) : ℕ → ℕ → ℕ × ℕ → ℕ × ℕ
  | len + 1, nthrNew, grid =>
    if (grid.1 * grid.2 : ℕ) ≥ nthrThresh then grid
    else minblkLoop m n blockM blockN minM minN nthrThresh len (nthrNew - 1)
      (partition2dMinblkWithPrimes m n blockM blockN minM minN nthrNew)
  | 0, _, grid => grid

/-- `nthr_thresh` -/
def nthrThresh (partM partN nthr : ℕ) : ℚ :=
  min (Rounding.toPrec 53 (double095 * nthr)) (wrapInt (partM * partN))

/-- `partition_2d_minblk` -/
def partition2dMinblk (m n blockM blockN minM minN nthr : ℕ) : ℕ × ℕ :=
  let partM := max 1 (m / minM)
  let partN := max 1 (n / minN)
  if partM = 1 then (1, min (max 1 (divUpInt n minN)).toNat nthr)
  else if partN = 1 then (min (max 1 (divUpInt m minM)).toNat nthr, 1)
  else
    minblkLoop m n blockM blockN minM minN (nthrThresh partM partN nthr) (nthr - nthr / 2) nthr (0, 0)

/-! ## `set_thread_opts_pack` -/

/-- The sizes that are chosen along one dimension: `nthr_z`, `thread_z` and `block_z`. -/
structure DimBlocking where
  nthr : ℕ
  thread : ℕ
  block : ℕ
  deriving DecidableEq

/-- `choose_blocking` -/
def chooseBlocking (sizeZ nthrZ blockZInit blockAlign : ℕ) : Option DimBlocking :=
  if nthrZ = 0 then none
  else
    let threadZ := divUp sizeZ nthrZ
    let numBlk := divUp threadZ blockZInit
    let blockZ := rndUp (divUp threadZ numBlk) blockAlign
    let threadZ := numBlk * blockZ
    some ⟨if threadZ * nthrZ > sizeZ then divUp sizeZ threadZ else nthrZ, threadZ, blockZ⟩

namespace GemmInfo

/-- `is_int8` -/
def isInt8 (arg : GemmInfo) : Bool := arg.aType = .s8

/-- `choose_m_blocking` -/
def chooseMBlocking (arg : GemmInfo) (nthrM : ℕ) : Option DimBlocking :=
  let align := if arg.isInt8 then 16 else getVectorLength arg.isa arg.aType.size
  chooseBlocking arg.m nthrM arg.params.bm align

/-- `choose_n_blocking` -/
def chooseNBlocking (arg : GemmInfo) (nthrN : ℕ) : Option DimBlocking :=
  chooseBlocking arg.n nthrN arg.params.bn arg.params.un

/-- `choose_k_blocking` -/
def chooseKBlocking (arg : GemmInfo) (nthrK : ℕ) : Option DimBlocking :=
  chooseBlocking arg.k nthrK arg.params.bk (max arg.params.uk 4)

/-- The number of slices along `k` that is tried: the last divisor of `nthrs` the loop reaches. -/
def nthrKInit (arg : GemmInfo) (nthrs : ℕ) (doKBlocking : Bool) : ℕ :=
  let KBLK := if arg.isInt8 then 3072 else 256
  if arg.m / 64 + arg.n / 64 < nthrs ∧ doKBlocking then
    (List.range' 1 4).foldl
      (fun nthrK nk => if arg.k ≥ (KBLK + 1) * nk ∧ nthrs % nk = 0 then nk else nthrK) 1
  else 1

/-- The least size of a slice along `m`. -/
def minMblk (arg : GemmInfo) : ℕ := if arg.isa.mayUseAvx512Core then 32 else arg.params.um

/-- A dimension gets one more thread if the other one has lost some and there is room. -/
def rebalance (nthrLost nthrInit nthrOther nthrs : ℕ) (choose : ℕ → Option DimBlocking)
    (z : DimBlocking) : Option DimBlocking :=
  if nthrLost ≠ nthrInit ∧ (z.nthr + 1) * nthrOther ≤ nthrs then choose (z.nthr + 1) else some z

/-- The grid and the sizes of a partition in three dimensions. -/
def mnk3d (m n k : DimBlocking) : GemmThreading where
  nthrsM := m.nthr
  nthrsN := n.nthr
  nthrsK := k.nthr
  blockM := m.block
  blockN := n.block
  blockK := k.block
  threadM := m.thread
  threadN := n.thread
  threadK := k.thread
  partition := .mnk3d
  copy := .nonshared

/-- `set_thread_opts_pack` -/
def setThreadOptsPack (arg : GemmInfo) (nthrs : ℕ) (doKBlocking : Bool) : Option GemmThreading := do
  let k ← arg.chooseKBlocking (arg.nthrKInit nthrs doKBlocking)
  let init := partition2dMinblk arg.m arg.n 64 64 arg.minMblk 32 (nthrs / k.nthr)
  let m ← arg.chooseMBlocking init.1
  let n ← arg.chooseNBlocking init.2
  if arg.isInt8 then do
    let m ← rebalance n.nthr init.2 (n.nthr * k.nthr) nthrs arg.chooseMBlocking m
    let n ← rebalance m.nthr init.1 (m.nthr * k.nthr) nthrs arg.chooseNBlocking n
    return mnk3d m n k
  else return mnk3d m n k

/-! ## `set_thread_opts_nopack` -/

/-- `condition_2D_bsrc` before `A` is looked at. -/
def condition2dBsrc (arg : GemmInfo) (nthrs : ℕ) : Bool :=
  if arg.aType = .f32 then
    if !arg.isa.mayUseAvx512Core ∧ arg.n ≤ 384 ∧ arg.m ≥ nthrs * 384 then false
    else (arg.n > nthrs * 384 ∨ arg.n ≤ nthrs * 384 / 2) ∧ arg.m ≥ 2 * 384
  else 256 * arg.m > nthrs * arg.n ∧ nthrs * arg.m < 256 * arg.n

/-- `condition_1D_copya` for large matrices. -/
def condition1dCopya (arg : GemmInfo) (nthrs : ℕ) : Bool :=
  if arg.isa.mayUseAvx512Core then
    arg.m ≥ 1000 ∧ arg.n ≥ nthrs * (if arg.aType = .f32 then 384 / 4 else 68)
  else arg.m ≥ 1000 ∧ arg.n ≥ 4000

/-- A loop that takes threads from the second dimension of a grid to the first. Every iteration halves
`nthrs_n`, so `nthrs_n` iterations suffice. -/
def splitGrid (cond : ℕ → ℕ → Bool) : ℕ → ℕ → ℕ → ℕ × ℕ
  | 0, nthrsM, nthrsN => (nthrsM, nthrsN)
  | fuel + 1, nthrsM, nthrsN =>
    if cond nthrsM nthrsN then splitGrid cond fuel (nthrsM * 2) (nthrsN / 2) else (nthrsM, nthrsN)

/-- The condition to split further for large `m`. -/
def splitLarge (arg : GemmInfo) (nthrs nthrsM nthrsN : ℕ) : Bool :=
  nthrsN % 2 = 0 ∧ (arg.n / nthrs > 384 ∨ arg.n / nthrsN ≤ 384 / 2) ∧ arg.m / nthrsM ≥ 2 * 384 ∧ nthrsM < 4

/-- The condition to split further for `n` below the unroll size. -/
def splitSmall (arg : GemmInfo) (nthrsM nthrsN : ℕ) : Bool :=
  nthrsN > 1 ∧ arg.n / nthrsN < arg.params.un ∧ arg.m / nthrsM ≥ 2 * arg.params.um

/-- A grid without blocking sizes. -/
def unblocked (nthrsM nthrsN : ℕ) (partition : PartitionType) (copy : CopyType) : GemmThreading where
  nthrsM := nthrsM
  nthrsN := nthrsN
  nthrsK := 1
  blockM := -1
  blockN := -1
  blockK := -1
  threadM := -1
  threadN := -1
  threadK := -1
  partition := partition
  copy := copy

/-- `set_thread_opts_nopack`, where `syncable` is `dnnl_thr_syncable()`. -/
def setThreadOptsNopack (arg : GemmInfo) (nthrs : ℕ) (syncable : Bool) : Option GemmThreading :=
  let keepCopya : Bool := arg.aType = .s8 ∧ arg.ao ≠ 0
  let copya := arg.condition1dCopya nthrs || keepCopya
  let bsrc := arg.condition2dBsrc nthrs && !copya
  if bsrc then
    if arg.aType = .f32 then
      let grid := splitGrid (arg.splitLarge nthrs) nthrs 1 nthrs
      some (unblocked grid.1 grid.2 .colMajor2d .nonshared)
    else if arg.n ≤ 64 ∨ arg.n ≥ 256 then
      let grid := splitGrid (fun nthrsM nthrsN =>
        arg.splitSmall nthrsM nthrsN || arg.splitLarge nthrs nthrsM nthrsN) nthrs 1 nthrs
      some (unblocked grid.1 grid.2 .colMajor2d .nonshared)
    else arg.setThreadOptsPack nthrs false
  else if copya && syncable then some (unblocked 1 nthrs .col1d .sharedA)
  else
    let veclen := getVectorLength arg.isa 4
    if arg.m > arg.n ∧ (arg.m ≥ nthrs * veclen ∨ arg.n < nthrs) then
      some (unblocked nthrs 1 .row1d .nonshared)
    else some (unblocked 1 nthrs .col1d .nonshared)

end GemmInfo

end MklDnn

/-!
## Threads of the products without copies

`calc_nthr_nocopy_avx` and `calc_nthr_nocopy_avx512_common`: how many threads share each dimension, and the blocks of
the threads. The operations are those of `int`, with results that wrap around; a division by zero is `none`.
-/

namespace MklDnn.GemmUtils

open WhileLoops

/-- Division of `int`s. -/
def div? (a b : ℤ) : Option ℤ := if b = 0 then none else some (wrapInt (a.tdiv b))

/-- `(a + b - 1) / b` -/
def ceilDiv? (a b : ℤ) : Option ℤ := div? (wrapInt (wrapInt (a + b) - 1)) b

/-- The number of threads in each dimension, and the blocks. -/
structure NocopyThreads where
  nthrM : ℤ
  nthrN : ℤ
  nthrK : ℤ
  MB : ℤ
  NB : ℤ
  KB : ℤ

/-! ## Parts that both functions share -/

/-- A count that starts at the square root of `nthr` and is lowered until the other count makes up all threads; `most` is
the largest count. -/
def splitRoot (nthr most : ℤ) (fuel : ℕ) : Option (ℤ × ℤ) := do
  let z : ℤ := nthr.toNat.sqrt
  let z := if z > most then most else z
  loop (fun s => s.1 > 1 ∧ wrapInt (s.1 * s.2) ≠ nthr)
    (fun s => do
      let z := wrapInt (s.1 - 1)
      return (z, ← div? nthr z))
    fuel (z, ← div? nthr z)

/-- The grid that is used if the steps to a grid have gone too far. -/
def fallback (m n nthr : ℤ) (grid : ℤ × ℤ) (fuel : ℕ) : Option (ℤ × ℤ) := do
  if grid.1 ≤ grid.2 then splitRoot nthr (← ceilDiv? m 16) fuel
  else
    let s ← splitRoot nthr (← ceilDiv? n 1) fuel
    return (s.2, s.1)

/-- The block of a thread, rounded up to `small`, and the number of threads that have a block. -/
def blocking (size nthr small : ℤ) : Option (ℤ × ℤ) := do
  let b := wrapInt (wrapInt ((← ceilDiv? size nthr) + small) - 1)
  let b := wrapInt (b - b.tmod small)
  if wrapInt (b * nthr) > size then return (← ceilDiv? size b, b) else return (nthr, b)

/-- The end of both functions. -/
def finish (m n k : ℤ) (grid : ℤ × ℤ) (nthrK : ℤ) : Option NocopyThreads := do
  let bm ← blocking m grid.1 16
  let bn ← blocking n grid.2 1
  let bk ← blocking k nthrK 4
  return ⟨bm.1, bn.1, bk.1, bm.2, bn.2, bk.2⟩

/-! ## `calc_nthr_nocopy_avx` -/

/-- `0.9` -/
def double09 : ℚ := Rounding.toPrec 53 (9 / 10)

/-- The loop over `nthr_other`, which chooses `nthr_k`. -/
def chooseNthrK (nthrM nthrN k nthr : ℤ) (fuel : ℕ) : Option ℤ := do
  let s ← loop (fun s => wrapInt (wrapInt (nthrM * nthrN) * s.1) < nthr ∧ k.tdiv (wrapInt (s.1 + 1)) > 384)
    (fun s => do
      let other := wrapInt (s.1 + 1)
      let used := wrapInt ((← div? nthr other) * other)
      return (other, if (used : ℚ) > Rounding.toPrec 53 (double09 * nthr) then other else s.2))
    fuel (1, 1)
  return s.2

/-- The simple partition reduction. -/
def reduceGrid (nthr : ℤ) (fuel : ℕ) (grid : ℤ × ℤ) : Option (ℤ × ℤ) :=
  loop (fun s => wrapInt (s.1 * s.2) > nthr)
    (fun s => some (if s.1 > s.2 then (wrapInt (s.1 - 1), s.2) else (s.1, wrapInt (s.2 - 1)))) fuel grid

/-- The loop behind it, which adds threads. -/
def growGrid (nthr : ℤ) (fuel : ℕ) (grid : ℤ × ℤ) : Option (ℤ × ℤ) :=
  loop (fun s => wrapInt (s.1 * s.2) < nthr)
    (fun s => some (if s.1 < s.2 then (wrapInt (s.1 + 1), s.2) else (s.1, wrapInt (s.2 + 1)))) fuel grid

/-- `calc_nthr_nocopy_avx`, where `syncable` is `dnnl_thr_syncable()`. -/
def calcNthrNocopyAvx (syncable : Bool) (m n k nthrs : ℤ) (fuel : ℕ) : Option NocopyThreads := do
  let nthrM ← ceilDiv? m 64
  let nthrN ← ceilDiv? n 48
  let nthrK ← (if syncable then chooseNthrK nthrM nthrN k nthrs fuel else some 1)
  let nthr ← div? nthrs nthrK
  let nthrN := if nthrM = 1 then nthr else nthrN
  let nthrM := if nthrN = 1 then nthr else nthrM
  let grid ← reduceGrid nthr fuel (nthrM, nthrN)
  let grid ← growGrid nthr fuel grid
  let grid ← (if wrapInt (grid.1 * grid.2) > nthr ∧ grid.1 > 1 ∧ grid.2 > 1 then fallback m n nthr grid fuel
    else some grid)
  finish m n k grid nthrK

/-! ## `calc_nthr_nocopy_avx512_common` -/

/-- The loop that lowers `nthr_k` to a divisor of the number of threads. -/
def divisorNthrK (k nthr : ℤ) (fuel : ℕ) : Option ℤ :=
  let nthrK := k.tdiv 192
  let nthrK := if nthrK > nthr.tdiv 4 then nthr.tdiv 4 else nthrK
  let nthrK := if nthrK < 1 then 1 else nthrK
  loop (fun z => z > 1 ∧ nthr.tmod z ≠ 0) (fun z => some (wrapInt (z - 1))) fuel nthrK

/-- `ratio`, from the quotient of two `float`s and its reciprocal as a `double`. -/
def ratio (nthrM nthrN : ℤ) : ℤ :=
  let ratioFloat := Rounding.toPrec 24 (Rounding.toPrec 24 nthrM / Rounding.toPrec 24 nthrN)
  if nthrM > nthrN then ⌊ratioFloat⌋ else ⌊Rounding.toPrec 53 (1 / ratioFloat)⌋

/-- The loop that scales both counts down. -/
def halveGrid (nthr : ℤ) (fuel : ℕ) (grid : ℤ × ℤ) : Option (ℤ × ℤ) :=
  loop (fun s => wrapInt (s.1 * s.2) > wrapInt (4 * nthr)) (fun s => some (s.1.tdiv 2, s.2.tdiv 2)) fuel grid

/-- The larger count is changed by `step` in `ratio` iterations, and then the smaller one in one iteration. -/
def ratioStep (ratio step : ℤ) (s : (ℤ × ℤ) × ℤ) : (ℤ × ℤ) × ℤ :=
  let larger : Bool := s.1.1 > s.1.2
  let first := if s.2 < ratio then larger else !larger
  let grid := if first then (wrapInt (s.1.1 + step), s.1.2) else (s.1.1, wrapInt (s.1.2 + step))
  (grid, wrapInt ((if s.2 < ratio then s.2 else -1) + 1))

/-- The simple partition reduction. -/
def reduceRatio (nthr ratio : ℤ) (fuel : ℕ) (grid : ℤ × ℤ) : Option (ℤ × ℤ) :=
  (loop (fun s => wrapInt (s.1.1 * s.1.2) > nthr) (fun s => some (ratioStep ratio (-1) s)) fuel (grid, 0)).map Prod.fst

/-- The simple partition increment. -/
def growRatio (nthr ratio : ℤ) (fuel : ℕ) (grid : ℤ × ℤ) : Option (ℤ × ℤ) :=
  (loop (fun s => ((wrapInt (s.1.1 * s.1.2) : ℤ) : ℚ) < Rounding.toPrec 53 (double095 * nthr))
    (fun s => some (ratioStep ratio 1 s)) fuel (grid, 0)).map Prod.fst

/-- `calc_nthr_nocopy_avx512_common`, where `syncable` is `dnnl_thr_syncable()`. -/
def calcNthrNocopyAvx512Common (syncable : Bool) (m n k nthrs : ℤ) (fuel : ℕ) : Option NocopyThreads := do
  let nthrK ← (if syncable ∧ n ≤ 2 * 64 ∧ m ≤ wrapInt (2 * 32 * nthrs) ∧ k > m ∧ k > n then divisorNthrK k nthrs fuel
    else some 1)
  let nthr ← div? nthrs nthrK
  let nthrM ← ceilDiv? m 32
  let nthrN ← ceilDiv? n 64
  let nthrM := if nthrM < 1 then 1 else nthrM
  let nthrN := if nthrN < 1 then 1 else nthrN
  let ratio := ratio nthrM nthrN
  let grid ← halveGrid nthr fuel (nthrM, nthrN)
  let grid := (if grid.1 < 1 then 1 else grid.1, if grid.2 < 1 then 1 else grid.2)
  let grid ← reduceRatio nthr ratio fuel grid
  let grid ← growRatio nthr ratio fuel grid
  let grid ← (if wrapInt (grid.1 * grid.2) > nthr then fallback m n nthr grid fuel else some grid)
  finish m n k grid nthrK

/-! ## What the drivers rely on -/

/-- The counts of a grid for a product of the sizes, and its blocks. -/
structure NocopyThreads.Sound (g : NocopyThreads) (m n k nthrs : ℤ) : Prop where
  pos : 1 ≤ g.nthrM ∧ 1 ≤ g.nthrN ∧ 1 ≤ g.nthrK
  le : g.nthrM * g.nthrN * g.nthrK ≤ nthrs
  coversM : g.MB * g.nthrM ≥ m
  coversN : g.NB * g.nthrN ≥ n
  coversK : g.KB * g.nthrK ≥ k
  startM : ∀ i, 0 ≤ i → i < g.nthrM → i * g.MB < m
  startN : ∀ i, 0 ≤ i → i < g.nthrN → i * g.NB < n
  startK : ∀ i, 0 ≤ i → i < g.nthrK → i * g.KB < k ∨ k = 0 ∧ i * g.KB = 0

end MklDnn.GemmUtils
