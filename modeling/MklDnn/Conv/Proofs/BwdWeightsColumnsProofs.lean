import MklDnn.Conv.BwdWeights
import MklDnn.Conv.Proofs.BwdWeightsProofs
import MklDnn.Conv.Proofs.ForwardDepthProofs
import MklDnn.Conv.Proofs.SgemmProofs

/-!
# Proofs: columns of a convolution by GEMM, backward by weights

If the depth is handled, the columns are those of the padded image for every plane of the output, and the products are
those of the reference.
-/

open LoopNest Interleaving

namespace MklDnn.GemmConvolutionBwdWeights

open JitGemmConvolutionUtils

variable {R : Type*} [CommSemiring R] {jcp : JitGemmConvConf} {src diffDst : ℕ → R} {nthrIn nthr p : ℕ}

/-! ## Columns -/

/-- The image `mb` of group `g`. -/
def imageOf (jcp : JitGemmConvConf) (src : ℕ → R) (mb g : ℕ) (i : ℤ) : R := srcOf jcp src mb g i.toNat

/-- The element of the padded image under tap `q` at position `x` of plane `od` of the output. -/
def tapVal (jcp : JitGemmConvConf) (src : ℕ → R) (mb g od q x : ℕ) : R :=
  volumePadded jcp (imageOf jcp src mb g) od (q / jcp.ks) (q % jcp.ks / (jcp.kh * jcp.kw))
    (q % jcp.ks % (jcp.kh * jcp.kw) / jcp.kw) (q % jcp.ks % (jcp.kh * jcp.kw) % jcp.kw) (x / jcp.ow) (x % jcp.ow)

/-- The place of tap `q` at position `x`. -/
theorem isCol_tap (hacc : jcp.Accepted) {q x : ℕ} (hq : q < jcp.ic * jcp.ks) (hx : x < jcp.os) :
    IsCol jcp (q / jcp.ks) (q % jcp.ks / (jcp.kh * jcp.kw)) (q % jcp.ks % (jcp.kh * jcp.kw) / jcp.kw)
      (q % jcp.ks % (jcp.kh * jcp.kw) % jcp.kw) (x / jcp.ow) (x % jcp.ow) := by
  have htap : q % jcp.ks < jcp.kd * (jcp.kh * jcp.kw) := by
    rw [Nat.mul_comm]
    exact Nat.mod_lt q hacc.ks_pos
  have hplane : 0 < jcp.kh * jcp.kw := Nat.mul_pos hacc.kh hacc.kw
  exact {
    ic := (Nat.div_lt_iff_lt_mul hacc.ks_pos).mpr hq
    kd := (Nat.div_lt_iff_lt_mul hplane).mpr htap
    kh := (Nat.div_lt_iff_lt_mul hacc.kw).mpr (Nat.mod_lt _ hplane)
    kw := Nat.mod_lt _ hacc.kw
    oh := (Nat.div_lt_iff_lt_mul hacc.ow).mpr hx
    ow := Nat.mod_lt _ hacc.ow }

theorem colIdx3d_tap (q x : ℕ) :
    colIdx3d jcp (q / jcp.ks) (q % jcp.ks / (jcp.kh * jcp.kw)) (q % jcp.ks % (jcp.kh * jcp.kw) / jcp.kw)
      (q % jcp.ks % (jcp.kh * jcp.kw) % jcp.kw) (x / jcp.ow) (x % jcp.ow) = x + q * jcp.os := by
  unfold colIdx3d tapIdx
  rw [Nat.div_add_mod', Nat.div_add_mod', Nat.div_add_mod', Nat.div_add_mod', Nat.add_comm]

/-- What the columns keep between two products. -/
def Keeps (jcp : JitGemmConvConf) (col : ℤ → R) : Prop := jcp.id ≠ 1 → ZeroOutside jcp col

/-- One plane of the image, under a kernel of one plane. -/
theorem padded_eq_volumePadded (hid : jcp.id = 1) (hdepth : jcp.od = 1 ∧ jcp.fPad = 0 ∨ jcp.NoTap) (im : ℤ → R)
    {od ic kh kw oh ow : ℕ} (hod : od < jcp.od) (hkh : kh < jcp.kh) (hkw : kw < jcp.kw) (hoh : oh < jcp.oh)
    (how : ow < jcp.ow) :
    padded jcp im ic (ihOf jcp oh kh) (iwOf jcp ow kw) = volumePadded jcp im od ic 0 kh kw oh ow := by
  by_cases hin : InPlane jcp oh ow kh kw
  · have hdepth := hdepth.resolve_right fun hno => hno kh hkh kw hkw oh hoh ow how hin
    have hplane : idOf jcp od (0 : ℕ) = 0 := by
      have hod0 : od = 0 := by omega
      unfold idOf
      rw [hod0, hdepth.2]
      simp
    unfold volumePadded planePadded
    rw [if_pos hin, hplane, if_pos ⟨le_refl _, by omega⟩]
    refine (if_pos hin).trans ?_
    congr 1
    unfold JitGemmConvConf.is
    rw [hid]
    push_cast
    ring
  · exact (if_neg hin).trans (if_neg hin).symm

/-- The columns of one plane are those of the padded image. -/
theorem im2colOf_plane (hacc : jcp.Accepted) (hnthrIn : 0 < nthrIn) (hid : jcp.id = 1) (hkd : jcp.kd = 1)
    (hdepth : jcp.od = 1 ∧ jcp.fPad = 0 ∨ jcp.NoTap) {mb g od q x : ℕ} (hod : od < jcp.od) (hq : q < jcp.ic * jcp.ks)
    (hx : x < jcp.os) (col : ℤ → R) :
    im2colOf jcp src nthrIn mb g od col (x + q * jcp.os : ℕ) = tapVal jcp src mb g od q x := by
  have hcol := isCol_tap hacc hq hx
  have hkd0 : q % jcp.ks / (jcp.kh * jcp.kw) = 0 := by
    have hlt := hcol.kd
    rw [hkd] at hlt
    exact Nat.lt_one_iff.mp hlt
  have hplane : q % jcp.ks % (jcp.kh * jcp.kw) = q % jcp.ks :=
    Nat.mod_eq_of_lt (Nat.lt_of_div_eq_zero (Nat.mul_pos hacc.kh hacc.kw) hkd0)
  have hidx : x + q * jcp.os = colIdx jcp jcp.os (q / jcp.ks) (q % jcp.ks % (jcp.kh * jcp.kw) / jcp.kw)
      (q % jcp.ks % (jcp.kh * jcp.kw) % jcp.kw) x := by
    unfold colIdx
    rw [hplane, Nat.div_add_mod', Nat.div_add_mod', Nat.add_comm]
  have hfill : FillsTile jcp (imageOf jcp src mb g) 0 jcp.os 0 jcp.ic _ := fillsTile_im2col hacc.ow hnthrIn
  unfold im2colOf
  rw [if_pos hid, hidx]
  refine (hfill.applyWrites hacc.kd hcol.ic hcol.kh hcol.kw hx col).trans ?_
  unfold tapVal
  rw [hkd0, Nat.zero_add, Nat.zero_add]
  exact padded_eq_volumePadded hid hdepth _ hod hcol.kh hcol.kw hcol.oh hcol.ow

/-- The columns for a plane of the output. -/
theorem im2colOf_tap (hacc : jcp.Accepted) (hnthrIn : 0 < nthrIn) (h : jcp.DepthHandled) {col : ℤ → R}
    (hcol : Keeps jcp col) {mb g od : ℕ} (hod : od < jcp.od) :
    Keeps jcp (im2colOf jcp src nthrIn mb g od col) ∧ ∀ q < jcp.ic * jcp.ks, ∀ x < jcp.os,
      im2colOf jcp src nthrIn mb g od col (x + q * jcp.os : ℕ) = tapVal jcp src mb g od q x := by
  by_cases hid : jcp.id = 1
  · obtain ⟨hkd, hdepth⟩ := h.resolve_left (not_not.mpr hid)
    exact ⟨fun hne => absurd hid hne, fun q hq x hx => im2colOf_plane hacc hnthrIn hid hkd hdepth hod hq hx col⟩
  · unfold im2colOf
    rw [if_neg hid]
    refine ⟨fun hne => (hcol hne).im2col3d hnthrIn _ _, fun q hq x hx => ?_⟩
    rw [← colIdx3d_tap]
    exact applyWrites_im2col3d hnthrIn (hcol hid) (isCol_tap hacc hq hx)

/-- Without columns, the product reads the image. -/
theorem srcOf_direct (hacc : jcp.Accepted) (hsz : jcp.im2colSz = 0) {mb g od q x : ℕ} (hod : od < jcp.od)
    (hq : q < jcp.ic * jcp.ks) (hx : x < jcp.os) :
    srcOf jcp src mb g (od * jcp.os + (x + q * K jcp)) = tapVal jcp src mb g od q x := by
  obtain ⟨hos, how, hodId, hks, -⟩ := hacc.of_no_columns hsz
  have hcol := isCol_tap hacc hq hx
  have hrow := Nat.div_add_mod' x jcp.ow
  unfold tapVal
  rw [hks, Nat.mod_one, Nat.zero_div, Nat.zero_mod, Nat.zero_div, Nat.zero_mod, Nat.div_one,
    GemmConvolutionFwd.volumePadded_direct hacc hsz hod hcol.oh hcol.ow]
  unfold imageOf
  congr 1
  have hflat : (q : ℤ) * (jcp.ih * jcp.iw * jcp.id : ℕ) + od * jcp.ih * jcp.iw +
      ((x / jcp.ow : ℕ) * jcp.iw + (x % jcp.ow : ℕ)) = (od * jcp.os + (x + q * K jcp) : ℕ) := by
    unfold K
    rw [hos, hodId]
    unfold JitGemmConvConf.is
    rw [← how]
    generalize x / jcp.ow = r at hrow
    generalize x % jcp.ow = w at hrow
    rw [← hrow]
    push_cast
    ring
  rw [hflat, Int.toNat_natCast]

/-! ## Products -/

/-- The product for plane `od` of image `mb`. -/
def planeProduct (jcp : JitGemmConvConf) (src diffDst : ℕ → R) (g mb od s : ℕ) : R :=
  ∑ x ∈ Finset.range jcp.os, tapVal jcp src mb g od (s % (jcp.ic * jcp.ks)) x *
    diffDst ((mb * jcp.ngroups + g) * dstStep jcp + od * jcp.os + (x + s / (jcp.ic * jcp.ks) * K jcp))

/-- A step of a thread. -/
theorem odStep_spec (hacc : jcp.Accepted) (hnthrIn : 0 < nthrIn) (h : jcp.DepthHandled) {g mb od : ℕ} (hod : od < jcp.od)
    {s : State R} (hs : Keeps jcp s.col) :
    Keeps jcp (odStep jcp src diffDst nthrIn nthr p g mb s od).col ∧
      (odStep jcp src diffDst nthrIn nthr p g mb s od).prog = s.prog ++
        accumulate (mb = (mbRange jcp nthr p).1 ∧ od = 0) (weightsGSize jcp) (weightsDst jcp nthr p g) fun s _ =>
          planeProduct jcp src diffDst g mb od s := by
  have hrows : 0 < jcp.ic * jcp.ks := Nat.mul_pos hacc.ic hacc.ks_pos
  have hsize : weightsGSize jcp = jcp.oc * (jcp.ic * jcp.ks) := by
    unfold weightsGSize
    ring
  obtain ⟨hkeeps, htap⟩ := @im2colOf_tap R _ jcp src nthrIn hacc hnthrIn h s.col hs mb g od hod
  unfold odStep
  refine ⟨?_, ?_⟩
  · dsimp only
    split_ifs
    · exact hkeeps
    · exact hs
  · dsimp only
    rw [extendedSgemm_eq_map]
    unfold accumulate
    rw [hsize]
    congr 1
    apply List.map_congr_left
    intro t _
    have hq : t % (jcp.ic * jcp.ks) < jcp.ic * jcp.ks := Nat.mod_lt _ hrows
    have hvalue : gemmElem true false jcp.os
        (fun i : ℕ => if jcp.im2colSz ≠ 0 then
          (if jcp.im2colSz ≠ 0 then im2colOf jcp src nthrIn mb g od s.col else s.col) i
          else srcOf jcp src mb g (od * jcp.os + i)) (if jcp.im2colSz ≠ 0 then jcp.os else K jcp)
        (fun i => diffDst ((mb * jcp.ngroups + g) * dstStep jcp + od * jcp.os + i)) (K jcp) (t % (jcp.ic * jcp.ks))
        (t / (jcp.ic * jcp.ks)) = planeProduct jcp src diffDst g mb od t := by
      unfold gemmElem planeProduct
      apply Finset.sum_congr rfl
      intro x hx
      rw [Finset.mem_range] at hx
      simp only [if_true, Bool.false_eq_true, if_false]
      by_cases hsz : jcp.im2colSz = 0
      · simp only [hsz, ne_eq, not_true_eq_false, if_false]
        rw [srcOf_direct hacc hsz hod hq hx]
      · simp only [ne_eq, hsz, not_false_eq_true, if_true]
        rw [htap _ hq x hx]
    rw [hvalue]
    congr 1
    funext mem
    by_cases hfirst : mb = (mbRange jcp nthr p).1 ∧ od = 0
    · rw [if_pos hfirst, if_pos (decide_eq_true hfirst), zero_mul, add_comm]
    · rw [if_neg hfirst, if_neg (by simpa using hfirst), one_mul, add_comm]

omit [CommSemiring R] in
/-- Steps that keep a property of the columns and append to the program. -/
theorem foldl_spec {α : Type*} {J : State R → Prop} {step : State R → α → State R} {progOf : α → List (Assign Elem R)}
    {l : List α} (h : ∀ x ∈ l, ∀ s, J s → J (step s x) ∧ (step s x).prog = s.prog ++ progOf x) {s : State R} (hs : J s) :
    J (l.foldl step s) ∧ (l.foldl step s).prog = s.prog ++ l.flatMap progOf := by
  induction l generalizing s with
  | nil => exact ⟨hs, (List.append_nil _).symm⟩
  | cons x l ih =>
    obtain ⟨hJ, hprog⟩ := h x List.mem_cons_self s hs
    obtain ⟨hJ', hprog'⟩ := ih (fun y hy => h y (List.mem_cons_of_mem _ hy)) hJ
    rw [List.foldl_cons, hprog', hprog, List.flatMap_cons, List.append_assoc]
    exact ⟨hJ', rfl⟩

/-- The products of a thread do not depend on what its columns held before. -/
theorem columnsProducts_eq (hacc : jcp.Accepted) (hnthrIn : 0 < nthrIn) (h : jcp.DepthHandled) :
    columnsProducts jcp src diffDst nthrIn nthr p = products jcp (planeProduct jcp src diffDst) nthr p := by
  have hinit : Keeps jcp (⟨fun _ => 0, []⟩ : State R).col := fun _ _ _ _ _ _ _ _ _ => rfl
  have hod : ∀ g mb (s : State R), Keeps jcp s.col →
      Keeps jcp ((List.range jcp.od).foldl (odStep jcp src diffDst nthrIn nthr p g mb) s).col ∧
        ((List.range jcp.od).foldl (odStep jcp src diffDst nthrIn nthr p g mb) s).prog = s.prog ++
          (List.range jcp.od).flatMap fun od =>
            accumulate (mb = (mbRange jcp nthr p).1 ∧ od = 0) (weightsGSize jcp) (weightsDst jcp nthr p g) fun s _ =>
              planeProduct jcp src diffDst g mb od s :=
    fun g mb s hs => foldl_spec (J := fun s => Keeps jcp s.col)
      (fun od hod s hs => odStep_spec hacc hnthrIn h (List.mem_range.mp hod) hs) hs
  unfold columnsProducts products
  split_ifs
  · exact (foldl_spec (J := fun s => Keeps jcp s.col) (fun g _ s hs =>
      foldl_spec (J := fun s => Keeps jcp s.col) (fun mb _ s hs => hod g mb s hs) hs) hinit).2
  · rfl

theorem columnsPhases_eq (hacc : jcp.Accepted) (hnthrIn : 0 < nthrIn) (h : jcp.DepthHandled) (syncable : Bool) :
    columnsPhases jcp src diffDst nthrIn syncable nthr = phases jcp (planeProduct jcp src diffDst) syncable nthr := by
  have hsection : ∀ p, columnsSection1 jcp src diffDst nthrIn syncable nthr p =
      section1 jcp (planeProduct jcp src diffDst) syncable nthr p := by
    intro p
    unfold columnsSection1 section1
    rw [columnsProducts_eq hacc hnthrIn h]
  have hlength : (section1 jcp (planeProduct jcp src diffDst) syncable nthr 0).length =
      barriers jcp (planeProduct jcp src diffDst) syncable nthr 0 + 1 := by
    have hpos : 0 < (section1 jcp (planeProduct jcp src diffDst) syncable nthr 0).length := by
      unfold section1
      split_ifs <;> exact Nat.succ_pos _
    unfold barriers
    omega
  unfold columnsPhases phases
  simp only [hsection, hlength]

/-! ## The reference -/

/-- What a tap of the reference reads. -/
theorem volumePadded_mul (g mb oc od oh ow ic kd kh kw : ℕ) :
    volumePadded jcp (imageOf jcp src mb g) od ic kd kh kw oh ow *
        diffDst ((mb * jcp.ngroups + g) * dstStep jcp + od * jcp.os + (oh * jcp.ow + ow + oc * K jcp)) =
      if (ow : ℤ) * jcp.strideW + kw * jcp.dw < jcp.lPad ∨ (oh : ℤ) * jcp.strideH + kh * jcp.dh < jcp.tPad ∨
          (od : ℤ) * jcp.strideD + kd * jcp.dd < jcp.fPad ∨ jcp.iw + jcp.lPad ≤ ow * jcp.strideW + kw * jcp.dw ∨
          jcp.ih + jcp.tPad ≤ oh * jcp.strideH + kh * jcp.dh ∨ jcp.id + jcp.fPad ≤ od * jcp.strideD + kd * jcp.dd then 0
      else diffDst (RefConvolution.dstOff jcp mb (g * jcp.oc + oc) od oh ow) *
        src (RefConvolution.srcOff jcp mb (g * jcp.ic + ic) (od * jcp.strideD - jcp.fPad + kd * jcp.dd).toNat
          (oh * jcp.strideH - jcp.tPad + kh * jcp.dh).toNat (ow * jcp.strideW - jcp.lPad + kw * jcp.dw).toNat) := by
  have hd : (od : ℤ) * jcp.strideD - jcp.fPad + kd * jcp.dd = idOf jcp od kd := rfl
  have hh : (oh : ℤ) * jcp.strideH - jcp.tPad + kh * jcp.dh = ihOf jcp oh kh := rfl
  have hw : (ow : ℤ) * jcp.strideW - jcp.lPad + kw * jcp.dw = iwOf jcp ow kw := rfl
  rw [hd, hh, hw]
  by_cases hin : InPlane jcp oh ow kh kw ∧ 0 ≤ idOf jcp od kd ∧ idOf jcp od kd < jcp.id
  · obtain ⟨hplane, hid⟩ := hin
    obtain ⟨hih, hiw⟩ := id hplane
    rw [if_neg (by omega)]
    unfold volumePadded planePadded imageOf srcOf
    rw [if_pos hplane, if_pos hid, mul_comm]
    congr 2
    · unfold RefConvolution.dstOff dstStep K JitGemmConvConf.os
      ring
    · generalize idOf jcp od kd = z at hid
      generalize ihOf jcp oh kh = y at hih
      generalize iwOf jcp ow kw = x at hiw
      lift z to ℕ using hid.1
      lift y to ℕ using hih.1
      lift x to ℕ using hiw.1
      have hflat : (ic : ℤ) * (jcp.ih * jcp.iw * jcp.id : ℕ) + z * jcp.ih * jcp.iw + (y * jcp.iw + x) =
          ((ic * (jcp.ih * jcp.iw * jcp.id) + z * jcp.ih * jcp.iw + (y * jcp.iw + x) : ℕ) : ℤ) := by
        push_cast
        ring
      rw [hflat, Int.toNat_natCast, Int.toNat_natCast, Int.toNat_natCast, Int.toNat_natCast]
      unfold RefConvolution.srcOff srcStep
      ring
  · have hzero : volumePadded jcp (imageOf jcp src mb g) od ic kd kh kw oh ow = 0 := by
      unfold volumePadded planePadded
      by_cases hplane : InPlane jcp oh ow kh kw
      · rw [if_pos hplane, if_neg fun hid => hin ⟨hplane, hid⟩]
      · exact if_neg hplane
    rw [hzero, zero_mul, if_pos]
    unfold InPlane at hin
    omega

/-- The sum of the products is the reference. -/
theorem totalSum_planeProduct (hacc : jcp.Accepted) {g oc ic kd kh kw : ℕ} (hic : ic < jcp.ic) (hkd : kd < jcp.kd)
    (hkh : kh < jcp.kh) (hkw : kw < jcp.kw) :
    totalSum jcp (planeProduct jcp src diffDst) g (ic * jcp.ks + tapIdx jcp kd kh kw + oc * (jcp.ic * jcp.ks)) =
      RefConvolution.executeBackwardWeights jcp src diffDst g oc ic kd kh kw := by
  have hcol : IsCol jcp ic kd kh kw 0 0 := ⟨hic, hkd, hkh, hkw, hacc.oh, hacc.ow⟩
  have hrow := hcol.row_lt
  have hplane : 0 < jcp.kh * jcp.kw := Nat.mul_pos hacc.kh hacc.kw
  have hdiv : (ic * jcp.ks + tapIdx jcp kd kh kw + oc * (jcp.ic * jcp.ks)) / (jcp.ic * jcp.ks) = oc := by
    rw [Nat.add_mul_div_right _ _ (Nat.mul_pos hacc.ic hacc.ks_pos), Nat.div_eq_of_lt hrow, Nat.zero_add]
  have hmod : (ic * jcp.ks + tapIdx jcp kd kh kw + oc * (jcp.ic * jcp.ks)) % (jcp.ic * jcp.ks) =
      ic * jcp.ks + tapIdx jcp kd kh kw := by
    rw [Nat.add_mul_mod_self_right, Nat.mod_eq_of_lt hrow]
  have hchan : (ic * jcp.ks + tapIdx jcp kd kh kw) / jcp.ks = ic := by
    rw [Nat.mul_comm, Nat.mul_add_div hacc.ks_pos, Nat.div_eq_of_lt hcol.tap_lt, Nat.add_zero]
  have htap : (ic * jcp.ks + tapIdx jcp kd kh kw) % jcp.ks = tapIdx jcp kd kh kw := by
    rw [Nat.mul_comm, Nat.mul_add_mod, Nat.mod_eq_of_lt hcol.tap_lt]
  have hkdEq : tapIdx jcp kd kh kw / (jcp.kh * jcp.kw) = kd := by
    unfold tapIdx
    rw [Nat.mul_comm, Nat.mul_add_div hplane, Nat.div_eq_of_lt hcol.plane_lt, Nat.add_zero]
  have hrest : tapIdx jcp kd kh kw % (jcp.kh * jcp.kw) = kh * jcp.kw + kw := by
    unfold tapIdx
    rw [Nat.mul_comm kd, Nat.mul_add_mod, Nat.mod_eq_of_lt hcol.plane_lt]
  have hkhEq : (kh * jcp.kw + kw) / jcp.kw = kh := by
    rw [Nat.mul_comm, Nat.mul_add_div hacc.kw, Nat.div_eq_of_lt hkw, Nat.add_zero]
  have hkwEq : (kh * jcp.kw + kw) % jcp.kw = kw := by
    rw [Nat.mul_comm, Nat.mul_add_mod, Nat.mod_eq_of_lt hkw]
  unfold totalSum RefConvolution.executeBackwardWeights
  refine Finset.sum_congr rfl fun mb _ => Finset.sum_congr rfl fun od _ => ?_
  have hpixels : ∀ f : ℕ → ℕ → R, ∑ oh ∈ Finset.range jcp.oh, ∑ ow ∈ Finset.range jcp.ow, f oh ow =
      ∑ x ∈ Finset.range jcp.os, f (x / jcp.ow) (x % jcp.ow) := fun f => sum_range_mul f
  rw [hpixels]
  unfold planeProduct tapVal
  rw [hdiv, hmod, hchan, htap, hkdEq, hrest, hkhEq, hkwEq]
  apply Finset.sum_congr rfl
  intro x _
  have hterm := @volumePadded_mul R _ jcp src diffDst g mb oc od (x / jcp.ow) (x % jcp.ow) ic kd kh kw
  rw [Nat.div_add_mod'] at hterm
  exact hterm

/-! ## Main results -/

/-- The backward pass by weights leaves what the reference computes in `diff_weights` and in `diff_bias`, for all
inputs and teams, with and without a barrier in the runtime, and in every order of the threads. -/
def ComputesReference (R : Type*) [CommSemiring R] (jcp : JitGemmConvConf) : Prop :=
  ∀ (src diffDst : ℕ → R) (nthrIn nthr : ℕ) (syncable : Bool), 0 < nthrIn → 0 < nthr →
    (∀ m m' : Elem → R, RunPhases (columnsPhases jcp src diffDst nthrIn syncable nthr) m m' →
      ∀ g < jcp.ngroups, ∀ oc < jcp.oc, ∀ ic < jcp.ic, ∀ kd < jcp.kd, ∀ kh < jcp.kh, ∀ kw < jcp.kw,
        m' (.diffWeights (RefConvolution.weightsOff jcp g oc ic kd kh kw)) =
          RefConvolution.executeBackwardWeights jcp src diffDst g oc ic kd kh kw) ∧
    ∀ o, IsOrder (diffBias jcp diffDst nthr) o → ∀ m : ℕ → R, ∀ g < jcp.ngroups, ∀ oc < jcp.oc,
      execAll (o.map Prod.snd) m (g * jcp.oc + oc) = RefConvolution.executeBackwardBias jcp diffDst g oc

/-- The sum over the images reads what the reference reads. -/
theorem diffBiasSum_eq (g oc : ℕ) :
    diffBiasSum jcp diffDst g oc = RefConvolution.executeBackwardBias jcp diffDst g oc := by
  unfold diffBiasSum RefConvolution.executeBackwardBias
  refine Finset.sum_congr rfl fun mb _ => Finset.sum_congr rfl fun od _ => Finset.sum_congr rfl fun oh _ =>
    Finset.sum_congr rfl fun ow _ => ?_
  congr 1
  unfold RefConvolution.dstOff dstStep K JitGemmConvConf.os
  ring

/-- `diff_bias` is the sum of `diff_dst`. -/
theorem execAll_diffBias (hnthr : 0 < nthr) {o : List (ℕ × Assign ℕ R)} (ho : IsOrder (diffBias jcp diffDst nthr) o)
    (m : ℕ → R) {g oc : ℕ} (hg : g < jcp.ngroups) (hoc : oc < jcp.oc) :
    execAll (o.map Prod.snd) m (g * jcp.oc + oc) = RefConvolution.executeBackwardBias jcp diffDst g oc := by
  have hlt : g * jcp.oc + oc < jcp.ngroups * jcp.oc := by
    rw [Nat.add_comm]
    exact add_mul_lt hoc hg
  have hpos : 0 < jcp.oc := Nat.zero_lt_of_lt hoc
  have hprogs : diffBias jcp diffDst nthr = fun p => (flatIters nthr (jcp.ngroups * jcp.oc) p).flatMap fun i =>
      [Assign.set i (diffBiasSum jcp diffDst (i / jcp.oc) (i % jcp.oc))] := by
    funext p
    unfold diffBias
    have hprod : [jcp.ngroups, jcp.oc].prod = jcp.ngroups * jcp.oc := by simp
    rw [parallelNdIters_eq, List.flatMap_map, hprod]
    apply List.flatMap_congr
    intro i hi
    have hg : i / jcp.oc < jcp.ngroups := (Nat.div_lt_iff_lt_mul hpos).mpr (lt_of_mem_flatIters hi)
    have hindex : ndIndex [jcp.ngroups, jcp.oc] i = [i / jcp.oc, i % jcp.oc] := by
      simp [Nat.mod_eq_of_lt hg]
    rw [hindex]
    show [Assign.set (i / jcp.oc * jcp.oc + i % jcp.oc) _] = _
    rw [Nat.div_add_mod']
  have hrace : Interleaving.RaceFree fun i =>
      [Assign.set i (diffBiasSum jcp diffDst (i / jcp.oc) (i % jcp.oc))] := by
    apply Interleaving.RaceFree.of_local
    · intro i e he i' hne e' he' hdst
      rw [List.mem_singleton.mp he, List.mem_singleton.mp he'] at hdst
      exact hne hdst
    · intro i e he
      rw [List.mem_singleton.mp he]
      exact Assign.local_set _ _
  have hprivate : Private (fun i => [Assign.set i (diffBiasSum jcp diffDst (i / jcp.oc) (i % jcp.oc))])
      (g * jcp.oc + oc) (g * jcp.oc + oc) := by
    intro i hne e he hdst
    rw [List.mem_singleton.mp he] at hdst
    exact hne hdst
  rw [hprogs] at ho
  obtain ⟨p, hp⟩ := exists_mem_flatIters hnthr hlt
  have hdiv : (g * jcp.oc + oc) / jcp.oc = g := by
    rw [Nat.mul_comm, Nat.mul_add_div hpos, Nat.div_eq_of_lt hoc, Nat.add_zero]
  have hmod : (g * jcp.oc + oc) % jcp.oc = oc := by rw [Nat.mul_comm, Nat.mul_add_mod, Nat.mod_eq_of_lt hoc]
  rw [hrace.execAll_threads (nodup_flatIters nthr _) (fun _ _ => flatIters_disjoint) ho hp hprivate, hdiv, hmod,
    ← diffBiasSum_eq]
  exact Assign.exec_self m (Assign.set (g * jcp.oc + oc) _)

theorem computesReference (hacc : jcp.Accepted) (h : jcp.DepthHandled) : ComputesReference R jcp := by
  intro src diffDst nthrIn nthr syncable hnthrIn hnthr
  refine ⟨?_, fun o ho m g hg oc hoc => execAll_diffBias hnthr ho m hg hoc⟩
  intro m m' hrun g hg oc hoc ic hic kd hkd kh hkh kw hkw
  rw [columnsPhases_eq hacc hnthrIn h] at hrun
  have hshape : Shape jcp nthr := ⟨hacc.ngroups, hacc.mb, hacc.od, hnthr⟩
  have hcol : IsCol jcp ic kd kh kw 0 0 := ⟨hic, hkd, hkh, hkw, hacc.oh, hacc.ow⟩
  have hlt : ic * jcp.ks + tapIdx jcp kd kh kw + oc * (jcp.ic * jcp.ks) < weightsGSize jcp := by
    have hrow : ic * jcp.ks + tapIdx jcp kd kh kw + oc * (jcp.ic * jcp.ks) < jcp.oc * (jcp.ic * jcp.ks) :=
      add_mul_lt hcol.row_lt hoc
    have hsize : weightsGSize jcp = jcp.oc * (jcp.ic * jcp.ks) := by
      unfold weightsGSize
      ring
    rw [hsize]
    exact hrow
  have haddr : RefConvolution.weightsOff jcp g oc ic kd kh kw =
      g * weightsGSize jcp + (ic * jcp.ks + tapIdx jcp kd kh kw + oc * (jcp.ic * jcp.ks)) := by
    unfold RefConvolution.weightsOff weightsGSize tapIdx JitGemmConvConf.ks
    ring
  rw [haddr, hshape.runPhases hrun hg hlt, totalSum_planeProduct hacc hic hkd hkh hkw]

end MklDnn.GemmConvolutionBwdWeights
