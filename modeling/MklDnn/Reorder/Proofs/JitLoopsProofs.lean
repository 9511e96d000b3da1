import Mathlib.Algebra.Group.Pi.Lemmas
import Mathlib.Algebra.Order.BigOperators.Group.List
import MklDnn.Reorder.Proofs.JitUniReorderProofs

/-!
# Proofs: the loops of the reorder kernel

The loops visit a nest of addresses. The distances are the steps and what the inner loops leave in the registers, so the
kernel runs through the iterations of the nodes exactly if these sums are the distances of the nodes.
-/

open LoopNest RegisterLoops

namespace MklDnn.JitUniReorder

/-! ## The condition -/

/-- A number as the processor extends its low 32 bits. -/
def extended (x : ℤ) : BitVec 64 := (BitVec.ofInt 32 x).signExtend 64

/-- Every loop that repeats goes on by its step. The loops inside of it leave `left` in the register. -/
def StepsFit : BitVec 64 → List (ℕ × ℤ) → Prop
  | _, [] => True
  | left, (len, step) :: loops =>
    (2 ≤ len → left + extended step = BitVec.ofInt 64 step) ∧
      StepsFit (len • (left + extended step) - extended (len * step)) loops

/-- The loops of the nodes. -/
def nodeLoops (nodes : List Node) : List (ℕ × (KernelOperand → ℤ)) := nodes.map fun nd => (nd.n, nd.stride)

/-- The loops around the unrolled code, by the nodes behind those that are unrolled and the length of the unrolled part. -/
def outerLoops (ldu : ℕ) : List Node → List (ℕ × (KernelOperand → ℤ))
  | [] => []
  | nd :: nds => (nd.n / ldu, ldu • nd.stride) :: nodeLoops nds

/-- The element at whose address the access to element `j` of the unrolled part starts. -/
def firstOf (avx : Bool) (nodes : List Node) (len j : ℕ) (s : KernelOperand) : ℕ :=
  j / blk * blk + accessStart avx (groupOf nodes (j / blk * blk) (min blk (len - j / blk * blk))) (j % blk) s

/-- The numbers of bytes between the elements fit the instructions. -/
structure AddressesFit (avx : Bool) (p : Prb) (d : SimpleImplDesc) : Prop where
  counts : ∀ nd ∈ p.nodes, nd.n < 2 ^ 31
  unrolled : ∀ s, p.uses s = true → ∀ j < d.lenUnroll,
    extended (nestOff (nodeLoops p.nodes) (firstOf avx p.nodes d.lenUnroll j s) s * p.elemSize s) +
        BitVec.ofNat 64 ((j - firstOf avx p.nodes d.lenUnroll j s) * p.elemSize s) =
      BitVec.ofInt 64 (nestOff (nodeLoops p.nodes) j s * p.elemSize s)
  steps : ∀ s, p.uses s = true → StepsFit 0
    ((outerLoops d.lenLastDimUnroll (p.nodes.drop d.ndimsFullUnroll)).map fun l => (l.1, l.2 s * p.elemSize s))

/-! ## Passes -/

theorem loopPasses_of_pos {len : BitVec 32} (h : 0 < len.toInt) : (loopPasses len : ℤ) = len.toInt := by
  have hne : len ≠ 0 := by
    rintro rfl
    exact absurd h (by decide)
  have hlt := BitVec.toInt_lt (x := len)
  unfold loopPasses BitVec.signExtend
  rw [if_neg hne, BitVec.toNat_ofInt]
  omega

theorem loopPasses_of_nonpos {len : BitVec 32} (h : len.toInt ≤ 0) : 2 ^ 63 ≤ loopPasses len := by
  unfold loopPasses
  by_cases hzero : len = 0
  · rw [if_pos hzero]
    norm_num
  · have hne : len.toInt ≠ 0 := fun heq => hzero (BitVec.eq_of_toInt_eq (heq.trans BitVec.toInt_zero.symm))
    have hle := BitVec.le_toInt len
    unfold BitVec.signExtend
    rw [if_neg hzero, BitVec.toNat_ofInt]
    omega

/-- A count that is no positive `int` makes a loop shorter, or longer than any tensor. -/
theorem loopPasses_sdiv {ldu k n : ℕ} (hldu : 0 < ldu) (hle : ldu ≤ lenUnrollMax) (hn : n = k * ldu) :
    2 ^ 63 ≤ loopPasses ((BitVec.ofNat 32 n).sdiv (BitVec.ofNat 32 ldu)) ∨
      loopPasses ((BitVec.ofNat 32 n).sdiv (BitVec.ofNat 32 ldu)) ≤ k ∧
        (loopPasses ((BitVec.ofNat 32 n).sdiv (BitVec.ofNat 32 ldu)) = k → n < 2 ^ 31) := by
  unfold lenUnrollMax at hle
  have hlduInt : (BitVec.ofNat 32 ldu).toInt = ldu := by
    rw [BitVec.toInt_ofNat']
    exact Int.bmod_eq_of_le (by omega) (by omega)
  have hne : BitVec.ofNat 32 ldu ≠ -1#32 := by
    intro h
    have hneg : (-1#32).toInt = -1 := by decide
    rw [h, hneg] at hlduInt
    omega
  have hdiv := BitVec.toInt_sdiv_of_ne_or_ne (BitVec.ofNat 32 n) (BitVec.ofNat 32 ldu) (Or.inr hne)
  rw [hlduInt] at hdiv
  have hmod : (BitVec.ofNat 32 n).toInt ≤ n := by
    rw [BitVec.toInt_eq_toNat_cond, BitVec.toNat_ofNat]
    split_ifs <;> omega
  have hint := BitVec.toInt_lt (x := BitVec.ofNat 32 n)
  rcases le_or_gt ((BitVec.ofNat 32 n).sdiv (BitVec.ofNat 32 ldu)).toInt 0 with hsign | hsign
  · exact Or.inl (loopPasses_of_nonpos hsign)
  · right
    have hpasses := loopPasses_of_pos hsign
    have hnonneg : 0 ≤ (BitVec.ofNat 32 n).toInt := by
      by_contra hneg
      have hquot := Int.tdiv_nonneg (show 0 ≤ -(BitVec.ofNat 32 n).toInt by omega) (Int.natCast_nonneg ldu)
      rw [Int.neg_tdiv] at hquot
      omega
    rw [hdiv, Int.tdiv_eq_ediv_of_nonneg hnonneg] at hpasses
    have hmul := Int.mul_ediv_self_le (x := (BitVec.ofNat 32 n).toInt) (k := (ldu : ℤ)) (by omega)
    have hcast : (n : ℤ) = ldu * k := by
      rw [hn, Nat.cast_mul, mul_comm]
    rw [← hpasses] at hmul
    refine ⟨?_, fun heq => ?_⟩
    · have hk : (ldu : ℤ) * loopPasses ((BitVec.ofNat 32 n).sdiv (BitVec.ofNat 32 ldu)) ≤ ldu * k := by omega
      exact_mod_cast Int.le_of_mul_le_mul_left hk (by omega)
    · rw [heq, ← hcast] at hmul
      omega

/-- Products of factors that are not larger. -/
theorem eq_of_prod_eq_list {l : List (ℕ × ℕ)} (hpos : ∀ x ∈ l, 0 < x.1) (hle : ∀ x ∈ l, x.1 ≤ x.2)
    (h : (l.map Prod.fst).prod = (l.map Prod.snd).prod) : ∀ x ∈ l, x.1 = x.2 := by
  induction l with
  | nil => simp
  | cons x l ih =>
    have hx := hpos x List.mem_cons_self
    have hxle := hle x List.mem_cons_self
    have hl := fun y hy => hpos y (List.mem_cons_of_mem x hy)
    have hlle := fun y hy => hle y (List.mem_cons_of_mem x hy)
    have hprod : (l.map Prod.fst).prod ≤ (l.map Prod.snd).prod := by
      refine List.Forall₂.prod_le_prod' ?_
      rw [List.forall₂_map_left_iff, List.forall₂_map_right_iff, List.forall₂_same]
      exact hlle
    have hprodPos : 0 < (l.map Prod.fst).prod := List.prod_pos (by
      intro y hy
      obtain ⟨z, hz, rfl⟩ := List.mem_map.mp hy
      exact hl z hz)
    rw [List.map_cons, List.map_cons, List.prod_cons, List.prod_cons] at h
    have hhead : x.1 = x.2 := by
      by_contra hne
      have hlt : x.1 < x.2 := lt_of_le_of_ne hxle hne
      have := Nat.mul_lt_mul_of_lt_of_le hlt hprod (hprodPos.trans_le hprod)
      omega
    rw [← hhead] at h
    rw [List.forall_mem_cons]
    exact ⟨hhead, ih hl hlle (Nat.eq_of_mul_eq_mul_left hx h)⟩

/-- The passes of a loop of the kernel, its passes if nothing is lost, and the extent of its node. -/
def passTable (ldu : ℕ) : List Node → List (ℕ × ℕ × ℕ)
  | [] => []
  | nd :: nds => (loopPasses ((intN nd).sdiv (BitVec.ofNat 32 ldu)), nd.n / ldu, nd.n) ::
      nds.map fun nd => (loopPasses (intN nd), nd.n, nd.n)

theorem passTable_jitLoops (p : Prb) (d : SimpleImplDesc) : (jitLoops p d).map (fun l => loopPasses l.1) =
    (passTable d.lenLastDimUnroll (p.nodes.drop d.ndimsFullUnroll)).map Prod.fst := by
  unfold jitLoops
  cases p.nodes.drop d.ndimsFullUnroll with
  | nil => rfl
  | cons nd nds => simp [passTable, Function.comp_def]

theorem passTable_outerLoops (ldu : ℕ) (post : List Node) :
    (outerLoops ldu post).map Prod.fst = (passTable ldu post).map fun x => x.2.1 := by
  cases post with
  | nil => rfl
  | cons nd nds => simp [passTable, outerLoops, nodeLoops, Function.comp_def]

theorem passTable_bounds {ldu : ℕ} {post : List Node} (hpos : ∀ nd ∈ post, 0 < nd.n) (hldu : 0 < ldu)
    (hle : ldu ≤ lenUnrollMax) (hdvd : ∀ nd nds, post = nd :: nds → ldu ∣ nd.n) :
    ∀ x ∈ passTable ldu post, 0 < x.1 ∧ 0 < x.2.1 ∧
      (2 ^ 63 ≤ x.1 ∨ x.1 ≤ x.2.1 ∧ (x.1 = x.2.1 → x.2.2 < 2 ^ 31)) := by
  have hpasses : ∀ len, 0 < loopPasses len := by
    intro len
    rcases le_or_gt len.toInt 0 with h | h
    · exact lt_of_lt_of_le (by norm_num) (loopPasses_of_nonpos h)
    · have := loopPasses_of_pos h
      omega
  have hone : ∀ n : ℕ, (BitVec.ofNat 32 n).sdiv (BitVec.ofNat 32 1) = BitVec.ofNat 32 n := fun n => BitVec.sdiv_one
  cases post with
  | nil => exact fun x hx => absurd hx List.not_mem_nil
  | cons nd nds =>
    obtain ⟨k, hk⟩ := hdvd nd nds rfl
    have hn : 0 < nd.n := hpos nd List.mem_cons_self
    have hquot : nd.n / ldu = k := by rw [hk, Nat.mul_div_cancel_left k hldu]
    have hkpos : 0 < k := Nat.pos_of_ne_zero fun hzero => by rw [hk, hzero, Nat.mul_zero] at hn; omega
    intro x hx
    rcases List.mem_cons.mp hx with rfl | hx
    · refine ⟨hpasses _, hquot ▸ hkpos, ?_⟩
      show 2 ^ 63 ≤ loopPasses ((intN nd).sdiv _) ∨ loopPasses ((intN nd).sdiv _) ≤ nd.n / ldu ∧ _
      rw [hquot]
      exact loopPasses_sdiv hldu hle (hk.trans (Nat.mul_comm ldu k))
    · obtain ⟨y, hy, rfl⟩ := List.mem_map.mp hx
      have h1 := @loopPasses_sdiv 1 y.n y.n Nat.one_pos (by decide) (Nat.mul_one _).symm
      rw [hone] at h1
      exact ⟨hpasses _, hpos y (List.mem_cons_of_mem nd hy), h1⟩

/-! ## The code -/

/-- The passes and the distances of the loops around code that leaves `left` in the registers. -/
def codeLoops (p : Prb) : Regs → List (BitVec 32 × Offsets) → List (ℕ × Regs)
  | _, [] => []
  | left, (len, steps) :: loops =>
    (loopPasses len, left + immediate p steps) ::
      codeLoops p (loopPasses len • (left + immediate p steps) - immediate p fun s => len * steps s) loops

theorem codeLoops_fst (p : Prb) (left : Regs) (loops : List (BitVec 32 × Offsets)) :
    (codeLoops p left loops).map Prod.fst = loops.map fun l => loopPasses l.1 := by
  induction loops generalizing left with
  | nil => rfl
  | cons l loops ih =>
    unfold codeLoops
    rw [List.map_cons, List.map_cons, ih]

theorem walks_loops (p : Prb) {code : Regs → List Regs × Regs} {offs : List Regs} {left : Regs}
    (h : Walks code offs left) (loops : List (BitVec 32 × Offsets)) :
    ∃ move, Walks (loops.foldl (fun code l => loop p l.1 l.2 code) code) (nest offs (codeLoops p left loops)) move := by
  induction loops generalizing code offs left with
  | nil => exact ⟨left, h⟩
  | cons l loops ih => exact ih ((h.passes (loopPasses l.1)).sub _)

/-- The addresses of the elements of the unrolled part. -/
def unrolledAddrs (avx : Bool) (p : Prb) (groups : List (List Offsets)) : List Regs :=
  groups.flatMap fun group => (List.range group.length).map (elementAddr avx p group)

theorem simpleImpl_eq {avx : Bool} {p : Prb} {d : SimpleImplDesc} (hd : simpleImplDescInit p = some d) :
    simpleImpl avx p = (processUnrollGeneric p.nodes d.lenUnroll).map fun groups =>
      (nest (unrolledAddrs avx p groups) (codeLoops p 0 (jitLoops p d))).map (accessed p) := by
  unfold simpleImpl
  rw [hd, Option.bind_eq_bind, Option.bind_some, Option.bind_eq_bind]
  cases hgroups : processUnrollGeneric p.nodes d.lenUnroll with
  | none => rfl
  | some groups =>
    have hbody : Walks (fun r => ((unrolledAddrs avx p groups).map (r + ·), r)) (unrolledAddrs avx p groups) 0 :=
      fun r => by rw [add_zero]
    obtain ⟨move, hmove⟩ := walks_loops p hbody (jitLoops p d)
    show some (((jitLoops p d).foldl (fun code l => loop p l.1 l.2 code)
      (fun r => ((unrolledAddrs avx p groups).map (r + ·), r)) 0).1.map (accessed p)) = _
    rw [hmove 0]
    simp

/-! ## The unrolled part -/

theorem nestOff_int (nodes : List Node) (i : ℕ) (s : KernelOperand) :
    nestOff (intLoops nodes) i s = BitVec.ofInt 32 (nestOff (nodeLoops nodes) i s) := by
  induction nodes generalizing i with
  | nil => rfl
  | cons nd nodes ih =>
    show ((i % nd.n) • intStride nd + nestOff (intLoops nodes) (i / nd.n)) s =
      BitVec.ofInt 32 (((i % nd.n) • nd.stride + nestOff (nodeLoops nodes) (i / nd.n)) s)
    rw [Pi.add_apply, Pi.add_apply, Pi.smul_apply, Pi.smul_apply, ih, BitVec.ofInt_add, nsmul_eq_mul, nsmul_eq_mul,
      BitVec.ofInt_mul, BitVec.ofInt_natCast]
    rfl

theorem accessStart_le (avx : Bool) (group : List Offsets) (ur : ℕ) (s : KernelOperand) : accessStart avx group ur s ≤ ur := by
  cases s <;> simp only [accessStart] <;> split_ifs <;> omega

theorem elementAddr_groupOf (avx : Bool) (p : Prb) {len j : ℕ} (hj : j < len) (s : KernelOperand) :
    elementAddr avx p (groupOf p.nodes (j / blk * blk) (min blk (len - j / blk * blk))) (j % blk) s =
      extended (nestOff (nodeLoops p.nodes) (firstOf avx p.nodes len j s) s * p.elemSize s) +
        BitVec.ofNat 64 ((j - firstOf avx p.nodes len j s) * p.elemSize s) := by
  unfold firstOf elementAddr
  dsimp only
  have hstart := accessStart_le avx (groupOf p.nodes (j / blk * blk) (min blk (len - j / blk * blk))) (j % blk) s
  generalize accessStart avx (groupOf p.nodes (j / blk * blk) (min blk (len - j / blk * blk))) (j % blk) s = start at hstart ⊢
  have hsplit : j / blk * blk + j % blk = j := Nat.div_add_mod' j blk
  have hlt : start < min blk (len - j / blk * blk) := by
    have hmod : j % blk < blk := Nat.mod_lt j (by decide)
    omega
  have hget : (groupOf p.nodes (j / blk * blk) (min blk (len - j / blk * blk))).getD start 0 =
      nestOff (intLoops p.nodes) (j / blk * blk + start) := by
    unfold groupOf
    rw [List.getD_eq_getElem?_getD, List.getElem?_map, List.getElem?_range hlt]
    rfl
  have hrest : j % blk - start = j - (j / blk * blk + start) := by omega
  unfold displacement extended
  rw [hget, nestOff_int, hrest, BitVec.ofInt_mul, BitVec.ofInt_natCast]

/-- The addresses of the unrolled part in the array `s`. -/
def unrolledPart (avx : Bool) (p : Prb) (len : ℕ) (s : KernelOperand) : List (BitVec 64) :=
  (List.range len).map fun j => extended (nestOff (nodeLoops p.nodes) (firstOf avx p.nodes len j s) s * p.elemSize s) +
    BitVec.ofNat 64 ((j - firstOf avx p.nodes len j s) * p.elemSize s)

/-- The first element has no displacement. -/
theorem head?_unrolledPart (avx : Bool) (p : Prb) {len : ℕ} (hlen : 0 < len) (s : KernelOperand) :
    (unrolledPart avx p len s).head? = some 0 := by
  have hfirst : firstOf avx p.nodes len 0 s = 0 := by
    unfold firstOf
    rw [Nat.zero_div, Nat.zero_mul, Nat.zero_mod, Nat.zero_add]
    exact Nat.le_zero.mp (accessStart_le avx _ 0 s)
  obtain ⟨k, rfl⟩ : ∃ k, len = k + 1 := ⟨len - 1, by omega⟩
  unfold unrolledPart
  rw [List.range_succ_eq_map, List.map_cons, List.head?_cons, hfirst, nestOff_zero]
  simp [extended]

theorem unrolledAddrs_groups (avx : Bool) (p : Prb) (len : ℕ) :
    unrolledAddrs avx p ((List.range (divUp len blk)).map fun g => groupOf p.nodes (g * blk) (min blk (len - g * blk))) =
      (List.range len).map fun j =>
        elementAddr avx p (groupOf p.nodes (j / blk * blk) (min blk (len - j / blk * blk))) (j % blk) := by
  have hcover : len ≤ divUp len blk * blk := by
    unfold divUp blk
    omega
  unfold unrolledAddrs
  rw [range_eq_blocks hcover, List.flatMap_map, List.map_flatMap]
  refine List.flatMap_congr fun g _ => ?_
  have hlen : (groupOf p.nodes (g * blk) (min blk (len - g * blk))).length = min blk (len - g * blk) := by simp [groupOf]
  rw [hlen, List.map_map]
  refine List.map_congr_left fun ur hur => ?_
  have hlt : ur < blk := (List.mem_range.mp hur).trans_le (Nat.min_le_left _ _)
  have hdiv : (g * blk + ur) / blk = g := by
    rw [Nat.mul_comm, Nat.mul_add_div (by decide), Nat.div_eq_of_lt hlt, Nat.add_zero]
  have hmod : (g * blk + ur) % blk = ur := by
    rw [Nat.mul_comm, Nat.mul_add_mod, Nat.mod_eq_of_lt hlt]
  show _ = elementAddr avx p (groupOf p.nodes ((g * blk + ur) / blk * blk) _) ((g * blk + ur) % blk)
  rw [hdiv, hmod]

/-- There is an address for every element, whatever the offsets are. -/
theorem unrollGroups_lengths {nodes : List Node} {len left off curr : ℕ} {ring : ℕ → Offsets} {groups : List (List Offsets)}
    (h : unrollGroups nodes len left off curr ring = some groups) :
    groups.map List.length = (List.range left).map fun g => min blk (len - (off + g * blk)) := by
  induction left generalizing off curr ring groups with
  | zero =>
    obtain rfl := Option.some.inj h
    rfl
  | succ left ih =>
    unfold unrollGroups at h
    obtain ⟨ring', -, h⟩ := Option.bind_eq_some_iff.mp h
    obtain ⟨rest, hrest, h⟩ := Option.bind_eq_some_iff.mp h
    obtain rfl := Option.some.inj h
    rw [List.map_cons, ih hrest, List.range_succ_eq_map, List.map_cons, List.map_map, List.length_map, List.length_range]
    refine congrArg₂ List.cons (by omega) (List.map_congr_left fun g _ => ?_)
    show min blk (len - (off + blk + g * blk)) = min blk (len - (off + (g + 1) * blk))
    rw [Nat.succ_mul, Nat.add_assoc off, Nat.add_comm blk]

theorem length_unrolledAddrs {avx : Bool} {p : Prb} {len : ℕ} {groups : List (List Offsets)}
    (h : processUnrollGeneric p.nodes len = some groups) : (unrolledAddrs avx p groups).length = len := by
  have hcover : len ≤ divUp len blk * blk := by
    unfold divUp blk
    omega
  have hlen := congrArg List.length (range_eq_blocks hcover)
  have hgroups := unrollGroups_lengths h
  simp only [Nat.zero_add] at hgroups
  rw [List.length_range, List.length_flatMap] at hlen
  unfold unrolledAddrs
  rw [List.length_flatMap]
  simp only [List.length_map, List.length_range] at hlen ⊢
  rw [hlen, ← hgroups]

/-! ## The enumeration -/

/-- The iterations of the nodes as the unrolled part and the loops around it run through them. -/
theorem nest_nodeLoops {d : SimpleImplDesc} {pre post : List Node} (hd : Describes d 1 pre post)
    (hpos : ∀ nd ∈ pre ++ post, 0 < nd.n) : nest [0] (nodeLoops (pre ++ post)) =
      nest ((List.range d.lenUnroll).map (nestOff (nodeLoops (pre ++ post)))) (outerLoops d.lenLastDimUnroll post) := by
  have hlen := hd.lenUnroll
  rw [Nat.one_mul] at hlen
  have hprod : ∀ nodes : List Node, (nodeLoops nodes).map Prod.fst = nodes.map Node.n := fun nodes => by
    simp [nodeLoops, Function.comp_def]
  cases post with
  | nil =>
    rw [hd.one rfl, Nat.mul_one] at hlen
    rw [List.append_nil, nest_zero, hprod, ← hlen]
    rfl
  | cons nd nds =>
    have hdvd := hd.dvd nd nds rfl
    have hle : d.lenLastDimUnroll ≤ nd.n := Nat.le_of_dvd (hpos nd (by simp)) hdvd
    have hloops : nodeLoops (pre ++ nd :: nds) = nodeLoops pre ++ (nd.n, nd.stride) :: nodeLoops nds := by
      simp [nodeLoops]
    have hpart : rounds (nest [0] (nodeLoops pre)) nd.stride d.lenLastDimUnroll =
        (List.range d.lenUnroll).map (nestOff (nodeLoops (pre ++ nd :: nds))) := by
      have hnest : rounds (nest [0] (nodeLoops pre)) nd.stride d.lenLastDimUnroll =
          nest [0] (nodeLoops pre ++ [(d.lenLastDimUnroll, nd.stride)]) := by
        rw [nest_append]
        rfl
      rw [hnest, nest_zero, List.map_append, List.prod_append, hprod, hloops]
      show (List.range ((pre.map Node.n).prod * [d.lenLastDimUnroll].prod)).map _ = _
      rw [List.prod_singleton, ← hlen]
      refine List.map_congr_left fun j hj => (nestOff_part hle (fun x hx => ?_) ?_).symm
      · obtain ⟨y, hy, rfl⟩ := List.mem_map.mp hx
        exact hpos y (List.mem_append_left _ hy)
      · rw [hprod, ← hlen]
        exact List.mem_range.mp hj
    rw [← hpart, hloops, nest_append, nest_cons]
    show nest (rounds _ nd.stride nd.n) (nodeLoops nds) = nest (rounds _ _ (nd.n / d.lenLastDimUnroll)) (nodeLoops nds)
    rw [rounds_rounds, Nat.div_mul_cancel hdvd]

/-! ## The result -/

/-- Visits are the same if every array is accessed at the same addresses. -/
theorem map_accessed_eq_iff {p : Prb} {l l' : List Regs} : l.map (accessed p) = l'.map (accessed p) ↔
    ∀ s, p.uses s = true → l.map (· s) = l'.map (· s) := by
  constructor
  · intro heq s hs
    have hstream := congrArg (List.map fun visit : KernelOperand → Option (BitVec 64) => visit s) heq
    rw [List.map_map, List.map_map] at hstream
    have haccessed : (fun visit : KernelOperand → Option (BitVec 64) => visit s) ∘ accessed p = some ∘ (· s) := by
      funext addr
      simp [accessed, hs]
    rw [haccessed, ← List.map_map, ← List.map_map] at hstream
    exact List.map_injective_iff.mpr (Option.some_injective _) hstream
  · intro heq
    have hlen : l.length = l'.length := by
      have hinput := congrArg List.length (heq .input (by simp [Prb.uses]))
      simpa using hinput
    refine List.ext_getElem (by simpa using hlen) fun i hi hi' => ?_
    rw [List.getElem_map, List.getElem_map]
    funext s
    unfold accessed
    by_cases hs : p.uses s = true
    · have hsame := List.getElem_of_eq (heq s hs) (i := i) (by simpa using hi)
      rw [if_pos hs, if_pos hs]
      simpa using hsame
    · rw [if_neg hs, if_neg hs]

/-- The passes of the loops with the distances of the code and those of the nodes, in bytes. -/
def codeSteps : BitVec 64 → List (ℕ × ℤ) → List (ℕ × BitVec 64 × BitVec 64)
  | _, [] => []
  | left, (len, step) :: loops => (len, left + extended step, BitVec.ofInt 64 step) ::
      codeSteps (len • (left + extended step) - extended (len * step)) loops

theorem stepsFit_iff {left : BitVec 64} {loops : List (ℕ × ℤ)} :
    StepsFit left loops ↔ ∀ l ∈ codeSteps left loops, 2 ≤ l.1 → l.2.1 = l.2.2 := by
  induction loops generalizing left with
  | nil => simp [StepsFit, codeSteps]
  | cons l loops ih =>
    unfold StepsFit codeSteps
    rw [List.forall_mem_cons, ih]

theorem codeSteps_nodes (left : BitVec 64) (loops : List (ℕ × ℤ)) :
    (codeSteps left loops).map (fun l => (l.1, l.2.2)) = loops.map fun l => (l.1, BitVec.ofInt 64 l.2) := by
  induction loops generalizing left with
  | nil => rfl
  | cons l loops ih =>
    unfold codeSteps
    rw [List.map_cons, List.map_cons, ih]

/-- A loop of the kernel with the count and the steps of a loop of the nodes. -/
def Counts (l : BitVec 32 × Offsets) (o : ℕ × (KernelOperand → ℤ)) : Prop :=
  loopPasses l.1 = o.1 ∧ l.1 = BitVec.ofNat 32 o.1 ∧ ∀ s, l.2 s = BitVec.ofInt 32 (o.2 s)

theorem codeSteps_code {p : Prb} {s : KernelOperand} (hs : p.uses s = true) {left : Regs}
    {loops : List (BitVec 32 × Offsets)} {outer : List (ℕ × (KernelOperand → ℤ))} (h : List.Forall₂ Counts loops outer) :
    (codeLoops p left loops).map (fun l => (l.1, l.2 s)) =
      (codeSteps (left s) (outer.map fun l => (l.1, l.2 s * p.elemSize s))).map fun l => (l.1, l.2.1) := by
  induction h generalizing left with
  | nil => rfl
  | @cons l o loops outer hl _ ih =>
    obtain ⟨hpasses, hlen, hsteps⟩ := hl
    have hstep : immediate p l.2 s = extended (o.2 s * p.elemSize s) := by
      unfold immediate extended
      rw [if_pos hs, hsteps, BitVec.ofInt_mul, BitVec.ofInt_natCast]
    have htotal : immediate p (fun s => l.1 * l.2 s) s = extended (o.1 * (o.2 s * p.elemSize s)) := by
      unfold immediate extended
      dsimp only
      rw [if_pos hs, hsteps, hlen, BitVec.ofInt_mul, BitVec.ofInt_mul, BitVec.ofInt_natCast, BitVec.ofInt_natCast, mul_assoc]
    have hrest := @ih (loopPasses l.1 • (left + immediate p l.2) - immediate p fun s => l.1 * l.2 s)
    rw [Pi.sub_apply, Pi.smul_apply, Pi.add_apply, hstep, htotal, hpasses] at hrest
    unfold codeLoops
    rw [List.map_cons, List.map_cons]
    unfold codeSteps
    rw [List.map_cons, ← hrest, hpasses]
    show (o.1, left s + immediate p l.2 s) :: _ = _
    rw [hstep]

theorem loopPasses_ofNat {n : ℕ} (hpos : 0 < n) (hlt : n < 2 ^ 31) : loopPasses (BitVec.ofNat 32 n) = n := by
  have hint : (BitVec.ofNat 32 n).toInt = n := by
    rw [BitVec.toInt_ofNat']
    exact Int.bmod_eq_of_le (by omega) (by omega)
  have hpasses := @loopPasses_of_pos (BitVec.ofNat 32 n) (by omega)
  rw [hint] at hpasses
  exact_mod_cast hpasses

/-- The loops of the kernel count right if the extents are positive `int`s. -/
theorem jitLoops_counts {p : Prb} {d : SimpleImplDesc} {pre post : List Node} (hd : Describes d 1 pre post)
    (hnodes : ∀ nd ∈ post, 0 < nd.n ∧ nd.n < 2 ^ 31) (hpost : p.nodes.drop d.ndimsFullUnroll = post)
    (hldu : d.lenLastDimUnroll < 2 ^ 31) : List.Forall₂ Counts (jitLoops p d) (outerLoops d.lenLastDimUnroll post) := by
  unfold jitLoops
  rw [hpost]
  cases post with
  | nil => exact .nil
  | cons nd nds =>
    obtain ⟨hpos, hlt⟩ := hnodes nd List.mem_cons_self
    have hldupos := hd.ldu_pos
    have hquotpos : 0 < nd.n / d.lenLastDimUnroll :=
      Nat.div_pos (Nat.le_of_dvd hpos (hd.dvd nd nds rfl)) hldupos
    have hquotlt : nd.n / d.lenLastDimUnroll < 2 ^ 31 := (Nat.div_le_self _ _).trans_lt hlt
    have hint : ∀ x < 2 ^ 31, (BitVec.ofNat 32 x).toInt = x := fun x hx => by
      rw [BitVec.toInt_ofNat']
      exact Int.bmod_eq_of_le (by omega) (by omega)
    have hdiv : (intN nd).sdiv (BitVec.ofNat 32 d.lenLastDimUnroll) = BitVec.ofNat 32 (nd.n / d.lenLastDimUnroll) := by
      have hne : BitVec.ofNat 32 d.lenLastDimUnroll ≠ -1#32 := by
        intro h
        have hneg : (-1#32).toInt = -1 := by decide
        have := hint _ hldu
        rw [h, hneg] at this
        omega
      refine BitVec.eq_of_toInt_eq ?_
      rw [BitVec.toInt_sdiv_of_ne_or_ne _ _ (Or.inr hne), toInt_intN hlt, hint _ hldu, hint _ hquotlt, ← Int.ofNat_tdiv]
    refine .cons ⟨?_, hdiv, fun s => ?_⟩ ?_
    · show loopPasses ((intN nd).sdiv _) = _
      rw [hdiv, loopPasses_ofNat hquotpos hquotlt]
    · show BitVec.ofInt 32 (nd.stride s) * BitVec.ofNat 32 d.lenLastDimUnroll =
        BitVec.ofInt 32 ((d.lenLastDimUnroll • nd.stride) s)
      rw [Pi.smul_apply, nsmul_eq_mul, mul_comm (d.lenLastDimUnroll : ℤ), BitVec.ofInt_mul, BitVec.ofInt_natCast]
    · unfold nodeLoops
      rw [List.forall₂_map_left_iff, List.forall₂_map_right_iff, List.forall₂_same]
      intro x hx
      obtain ⟨hxpos, hxlt⟩ := hnodes x (List.mem_cons_of_mem nd hx)
      exact ⟨loopPasses_ofNat hxpos hxlt, rfl, fun s => rfl⟩

/-- The byte addresses of the iterations in the array `s`. -/
def byteHom (p : Prb) (s : KernelOperand) : (KernelOperand → ℤ) →+ BitVec 64 where
  toFun off := BitVec.ofInt 64 (off s * p.elemSize s)
  map_zero' := by simp
  map_add' x y := by rw [Pi.add_apply, add_mul, BitVec.ofInt_add]

theorem enumeration_map (p : Prb) (s : KernelOperand) :
    (p.enumeration.map fun off s => BitVec.ofInt 64 (off s * p.elemSize s)).map (· s) = p.enumeration.map (byteHom p s) := by
  rw [List.map_map]
  rfl

theorem map_addrOf (p : Prb) : p.enumeration.map (addrOf p) =
    (p.enumeration.map fun off s => BitVec.ofInt 64 (off s * p.elemSize s)).map (accessed p) := by
  rw [List.map_map]
  refine List.map_congr_left fun off _ => ?_
  unfold addrOf
  simp only [Function.comp_apply, mul_comm]

theorem Describes.ldu_le {d : SimpleImplDesc} {pre post : List Node} (hd : Describes d 1 pre post) (hlen : 0 < d.lenUnroll) :
    d.lenLastDimUnroll ≤ lenUnrollMax :=
  (Nat.le_of_dvd hlen (Dvd.intro_left _ hd.lenUnroll.symm)).trans hd.lenUnroll_le

theorem outerLoops_pos {ldu : ℕ} {post : List Node} (hpos : ∀ nd ∈ post, 0 < nd.n) (hldu : 0 < ldu)
    (hle : ldu ≤ lenUnrollMax) (hdvd : ∀ nd nds, post = nd :: nds → ldu ∣ nd.n) : ∀ o ∈ outerLoops ldu post, 0 < o.1 := by
  intro o ho
  have hmem : o.1 ∈ (outerLoops ldu post).map Prod.fst := List.mem_map.mpr ⟨o, ho, rfl⟩
  rw [passTable_outerLoops] at hmem
  obtain ⟨x, hx, hfst⟩ := List.mem_map.mp hmem
  rw [← hfst]
  exact (passTable_bounds hpos hldu hle hdvd x hx).2.1

section Counts

variable {avx : Bool} {p : Prb} {d : SimpleImplDesc} {pre post : List Node} (hd : Describes d 1 pre post)
  (hnodes : p.nodes = pre ++ post) (hpost : p.nodes.drop d.ndimsFullUnroll = post) (hlen : 0 < d.lenUnroll)

include hd hnodes hpost hlen

/-- The addresses in one array. -/
theorem stream_iff (hcounts : ∀ nd ∈ p.nodes, 0 < nd.n ∧ nd.n < 2 ^ 31) {s : KernelOperand} (hs : p.uses s = true) :
    (nest ((List.range d.lenUnroll).map fun j => elementAddr avx p (groupOf p.nodes (j / blk * blk)
      (min blk (d.lenUnroll - j / blk * blk))) (j % blk)) (codeLoops p 0 (jitLoops p d))).map (· s) =
        p.enumeration.map (byteHom p s) ↔
      (∀ j < d.lenUnroll, extended (nestOff (nodeLoops p.nodes) (firstOf avx p.nodes d.lenUnroll j s) s * p.elemSize s) +
          BitVec.ofNat 64 ((j - firstOf avx p.nodes d.lenUnroll j s) * p.elemSize s) =
        BitVec.ofInt 64 (nestOff (nodeLoops p.nodes) j s * p.elemSize s)) ∧
      StepsFit 0 ((outerLoops d.lenLastDimUnroll post).map fun l => (l.1, l.2 s * p.elemSize s)) := by
  have hldu : d.lenLastDimUnroll < 2 ^ 31 := (hd.ldu_le hlen).trans_lt (by decide)
  have hforall := jitLoops_counts hd (fun nd hnd => hcounts nd (hnodes ▸ List.mem_append_right pre hnd)) hpost hldu
  have henum : p.enumeration = nest ((List.range d.lenUnroll).map (nestOff (nodeLoops p.nodes)))
      (outerLoops d.lenLastDimUnroll post) := by
    have hnest := nest_nodeLoops hd fun nd hnd => (hcounts nd (hnodes ▸ hnd)).1
    rw [← hnodes] at hnest
    exact hnest
  have hbase : ((List.range d.lenUnroll).map fun j => elementAddr avx p (groupOf p.nodes (j / blk * blk)
      (min blk (d.lenUnroll - j / blk * blk))) (j % blk)).map (Pi.evalAddMonoidHom (fun _ : KernelOperand => BitVec 64) s) =
        unrolledPart avx p d.lenUnroll s := by
    rw [List.map_map]
    exact List.map_congr_left fun j hj => elementAddr_groupOf avx p (List.mem_range.mp hj) s
  have hcodeLoops : (codeLoops p 0 (jitLoops p d)).map (fun l => (l.1, Pi.evalAddMonoidHom (fun _ : KernelOperand =>
      BitVec 64) s l.2)) = (codeSteps 0 ((outerLoops d.lenLastDimUnroll post).map fun l => (l.1, l.2 s * p.elemSize s))).map
        fun l => (l.1, l.2.1) := codeSteps_code hs hforall
  have houter : ((outerLoops d.lenLastDimUnroll post).map fun l => (l.1, byteHom p s l.2)) =
      (codeSteps 0 ((outerLoops d.lenLastDimUnroll post).map fun l => (l.1, l.2 s * p.elemSize s))).map
        fun l => (l.1, l.2.2) := by
    rw [codeSteps_nodes, List.map_map]
    rfl
  have hcount : ∀ l ∈ codeSteps 0 ((outerLoops d.lenLastDimUnroll post).map fun l => (l.1, l.2 s * p.elemSize s)),
      0 < l.1 := by
    intro l hl
    have hmem : (l.1, l.2.2) ∈ (outerLoops d.lenLastDimUnroll post).map fun l => (l.1, byteHom p s l.2) := by
      rw [houter]
      exact List.mem_map.mpr ⟨l, hl, rfl⟩
    obtain ⟨o, ho, heq⟩ := List.mem_map.mp hmem
    have hfst : o.1 = l.1 := congrArg Prod.fst heq
    rw [← hfst]
    exact outerLoops_pos (fun nd hnd => (hcounts nd (hnodes ▸ List.mem_append_right pre hnd)).1) hd.ldu_pos
      (hd.ldu_le hlen) hd.dvd o ho
  have hhead : (((List.range d.lenUnroll).map (nestOff (nodeLoops p.nodes))).map (byteHom p s)).head? = some 0 := by
    obtain ⟨k, hk⟩ : ∃ k, d.lenUnroll = k + 1 := ⟨d.lenUnroll - 1, by omega⟩
    rw [hk, List.range_succ_eq_map, List.map_cons, List.map_cons, List.head?_cons, nestOff_zero, map_zero]
  show (nest _ _).map (Pi.evalAddMonoidHom (fun _ : KernelOperand => BitVec 64) s) = _ ↔ _
  rw [map_nest, hbase, hcodeLoops, henum, map_nest, houter, nest_eq_iff (by simp [unrolledPart])
    (head?_unrolledPart avx p hlen s) hhead hcount, stepsFit_iff, unrolledPart, List.map_map, List.map_inj_left]
  refine and_congr (forall_congr' fun j => ?_) Iff.rfl
  rw [List.mem_range]
  rfl

/-- Loops that count right run through the iterations exactly if nothing is lost. -/
theorem simpleImpl_iff_of_counts (hinit : simpleImplDescInit p = some d)
    (hcounts : ∀ nd ∈ p.nodes, 0 < nd.n ∧ nd.n < 2 ^ 31) :
    simpleImpl avx p = some (p.enumeration.map (addrOf p)) ↔ AddressesFit avx p d := by
  rw [simpleImpl_eq hinit, processUnrollGeneric_spec hcounts, Option.map_some, Option.some.injEq, unrolledAddrs_groups,
    map_addrOf, map_accessed_eq_iff]
  simp only [enumeration_map]
  constructor
  · intro heq
    refine ⟨fun nd hnd => (hcounts nd hnd).2, fun s hs => ((stream_iff hd hnodes hpost hlen hcounts hs).mp (heq s hs)).1,
      fun s hs => ?_⟩
    rw [hpost]
    exact ((stream_iff hd hnodes hpost hlen hcounts hs).mp (heq s hs)).2
  · intro hfit s hs
    have hsteps := hfit.steps s hs
    rw [hpost] at hsteps
    exact (stream_iff hd hnodes hpost hlen hcounts hs).mpr ⟨hfit.unrolled s hs, hsteps⟩

/-- A kernel that runs through as many elements as the nodes have counts right. -/
theorem counts_of_simpleImpl (hinit : simpleImplDescInit p = some d) (hpos : ∀ nd ∈ p.nodes, 0 < nd.n)
    (htotal : (p.nodes.map Node.n).prod < 2 ^ 63) (h : simpleImpl avx p = some (p.enumeration.map (addrOf p))) :
    ∀ nd ∈ p.nodes, nd.n < 2 ^ 31 := by
  rw [simpleImpl_eq hinit] at h
  obtain ⟨groups, hgroups, h⟩ := Option.map_eq_some_iff.mp h
  have hlens := congrArg List.length h
  have hprod : ((nodeLoops p.nodes).map Prod.fst) = p.nodes.map Node.n := by simp [nodeLoops, Function.comp_def]
  have henum : p.enumeration = nest ((List.range d.lenUnroll).map (nestOff (nodeLoops p.nodes)))
      (outerLoops d.lenLastDimUnroll post) := by
    have hnest := nest_nodeLoops hd fun nd hnd => hpos nd (hnodes ▸ hnd)
    rw [← hnodes] at hnest
    exact hnest
  have htotal' : p.enumeration.length = (p.nodes.map Node.n).prod := by
    rw [← hprod]
    exact (length_nest _).trans (Nat.mul_one _)
  have hposPost : ∀ nd ∈ post, 0 < nd.n := fun nd hnd => hpos nd (hnodes ▸ List.mem_append_right pre hnd)
  have hbounds := passTable_bounds hposPost hd.ldu_pos (hd.ldu_le hlen) hd.dvd
  rw [List.length_map, List.length_map, length_nest, codeLoops_fst, passTable_jitLoops, hpost,
    length_unrolledAddrs hgroups] at hlens
  rw [henum, length_nest, passTable_outerLoops, List.length_map, List.length_range] at hlens htotal'
  have hsame := Nat.eq_of_mul_eq_mul_right hlen hlens
  have hlt : ∀ x ∈ passTable d.lenLastDimUnroll post, x.1 < 2 ^ 63 := by
    intro x hx
    have hdvd : x.1 ∣ ((passTable d.lenLastDimUnroll post).map Prod.fst).prod :=
      List.dvd_prod (List.mem_map.mpr ⟨x, hx, rfl⟩)
    have hfst : 0 < ((passTable d.lenLastDimUnroll post).map Prod.fst).prod := List.prod_pos (by
      intro y hy
      obtain ⟨z, hz, rfl⟩ := List.mem_map.mp hy
      exact (hbounds z hz).1)
    have hle := Nat.le_of_dvd hfst hdvd
    rw [hsame] at hle
    have hmul := Nat.le_mul_of_pos_right ((passTable d.lenLastDimUnroll post).map fun x => x.2.1).prod hlen
    omega
  have hpair : ∀ x ∈ (passTable d.lenLastDimUnroll post).map fun x => (x.1, x.2.1), x.1 = x.2 := by
    refine eq_of_prod_eq_list ?_ ?_ ?_
    · intro x hx
      obtain ⟨y, hy, rfl⟩ := List.mem_map.mp hx
      exact (hbounds y hy).1
    · intro x hx
      obtain ⟨y, hy, rfl⟩ := List.mem_map.mp hx
      exact ((hbounds y hy).2.2.resolve_left (not_le.mpr (hlt y hy))).1
    · rw [List.map_map, List.map_map]
      exact hsame
  have hextent : ∀ x ∈ passTable d.lenLastDimUnroll post, x.2.2 < 2 ^ 31 := fun x hx =>
    ((hbounds x hx).2.2.resolve_left (not_le.mpr (hlt x hx))).2 (hpair (x.1, x.2.1) (List.mem_map.mpr ⟨x, hx, rfl⟩))
  have hpostTable : post.map Node.n = (passTable d.lenLastDimUnroll post).map fun x => x.2.2 := by
    cases post with
    | nil => rfl
    | cons nd nds => simp [passTable, Function.comp_def]
  intro nd hnd
  rw [hnodes] at hnd
  rcases List.mem_append.mp hnd with hpre | hpost
  · -- an unrolled node
    have hdvd : nd.n ∣ d.lenUnroll := by
      rw [hd.lenUnroll, Nat.one_mul]
      exact Dvd.dvd.mul_right (List.dvd_prod (List.mem_map.mpr ⟨nd, hpre, rfl⟩)) _
    have hle := (Nat.le_of_dvd hlen hdvd).trans hd.lenUnroll_le
    unfold lenUnrollMax at hle
    omega
  · have hmem : nd.n ∈ (passTable d.lenLastDimUnroll post).map fun x => x.2.2 := by
      rw [← hpostTable]
      exact List.mem_map.mpr ⟨nd, hpost, rfl⟩
    obtain ⟨x, hx, heq⟩ := List.mem_map.mp hmem
    rw [← heq]
    exact hextent x hx

end Counts

/-- The addresses that the kernel accesses are those of the iterations of its nodes, in their order, exactly if the counts
fit an `int` and the numbers of bytes between the elements fit the displacements and the immediates. -/
theorem simpleImpl_enumerates_iff (avx : Bool) {p : Prb} {d : SimpleImplDesc} (hinit : simpleImplDescInit p = some d)
    (hpos : ∀ nd ∈ p.nodes, 0 < nd.n) (htotal : (p.nodes.map Node.n).prod < 2 ^ 63) :
    simpleImpl avx p = some (p.enumeration.map (addrOf p)) ↔ AddressesFit avx p d := by
  obtain ⟨pre, post, hnodes, hnfu, hd⟩ := @descLoop_spec p.nodes 0 1 Nat.one_pos (by decide)
    hpos (by omega)
  have hdesc : descLoop p.nodes 0 1 = d := by
    unfold simpleImplDescInit at hinit
    dsimp only at hinit
    split_ifs at hinit
    exact Option.some.inj hinit
  rw [hdesc] at hnfu hd
  have hpost : p.nodes.drop d.ndimsFullUnroll = post := by
    rw [hnfu, Nat.zero_add, hnodes, List.drop_left]
  have hlen : 0 < d.lenUnroll := by
    rw [hd.lenUnroll, Nat.one_mul]
    refine Nat.mul_pos (List.prod_pos fun x hx => ?_) hd.ldu_pos
    obtain ⟨nd, hnd, rfl⟩ := List.mem_map.mp hx
    exact hpos nd (hnodes ▸ List.mem_append_left post hnd)
  constructor
  · intro h
    have hlt := counts_of_simpleImpl hd hnodes hpost hlen hinit hpos htotal h
    exact (simpleImpl_iff_of_counts hd hnodes hpost hlen hinit fun nd hnd => ⟨hpos nd hnd, hlt nd hnd⟩).mp h
  · intro hfit
    exact (simpleImpl_iff_of_counts hd hnodes hpost hlen hinit fun nd hnd => ⟨hpos nd hnd, hfit.counts nd hnd⟩).mpr hfit

/-- The whole first node and ten iterations of the second one are unrolled. -/
theorem simpleImpl_enumerates_iff_16x40 :
    simpleImpl true ⟨.f32, .f32, [⟨16, 1, 40, 0⟩, ⟨40, 16, 1, 0⟩, ⟨3, 640, 640, 1⟩], 0, 0, .many⟩ =
        some ((Prb.enumeration ⟨.f32, .f32, [⟨16, 1, 40, 0⟩, ⟨40, 16, 1, 0⟩, ⟨3, 640, 640, 1⟩], 0, 0, .many⟩).map
          (addrOf ⟨.f32, .f32, [⟨16, 1, 40, 0⟩, ⟨40, 16, 1, 0⟩, ⟨3, 640, 640, 1⟩], 0, 0, .many⟩)) ↔
      AddressesFit true ⟨.f32, .f32, [⟨16, 1, 40, 0⟩, ⟨40, 16, 1, 0⟩, ⟨3, 640, 640, 1⟩], 0, 0, .many⟩ ⟨1, 10, 160⟩ :=
  simpleImpl_enumerates_iff true (p := ⟨.f32, .f32, [⟨16, 1, 40, 0⟩, ⟨40, 16, 1, 0⟩, ⟨3, 640, 640, 1⟩], 0, 0, .many⟩)
    rfl (by decide) (by decide)

/-- Every stride passes the check for its own node, but the displacement of the last element is the sum of three strides. -/
theorem simpleImpl_displacement_overflows : ∃ p d, stridesOk p = true ∧ simpleImplDescInit p = some d ∧
    simpleImpl true p ≠ some (p.enumeration.map (addrOf p)) := by
  refine ⟨⟨.f32, .f32, [⟨2, 268435452, 1, 0⟩, ⟨2, 268435453, 2, 0⟩, ⟨2, 268435454, 4, 0⟩], 0, 0, .none⟩, ⟨3, 1, 8⟩, by decide,
    rfl, fun heq => ?_⟩
  have hinput := congrArg (Option.map (List.map fun visit => visit .input)) heq
  revert hinput
  decide +kernel

end MklDnn.JitUniReorder
