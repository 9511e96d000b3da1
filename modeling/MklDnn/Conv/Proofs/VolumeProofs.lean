import MklDnn.Conv.Proofs.Im2col3dProofs
import MklDnn.Conv.Proofs.PlanarProofs

/-!
# Proofs: the forward convolution by GEMM on volumes

For an image of several planes every block covers a plane of the output and all input channels, and the columns are
those of the padded image.
-/

open LoopNest Interleaving

namespace MklDnn.GemmConvolutionFwd

open JitGemmConvolutionUtils

variable {R : Type*} [CommRing R] [LinearOrder R] {jcp : JitGemmConvConf} {args : Args R} {nthrIn nthr : ℕ}

/-- The columns of an image of several planes. -/
def volumeVal (jcp : JitGemmConvConf) (args : Args R) (x q : ℕ) : R :=
  volumePadded jcp (imageOf jcp args x) (x / jcp.os % jcp.od) (q / jcp.ks) (q % jcp.ks / (jcp.kh * jcp.kw))
    (q % jcp.ks % (jcp.kh * jcp.kw) / jcp.kw) (q % jcp.ks % (jcp.kh * jcp.kw) % jcp.kw) (x % jcp.os / jcp.ow)
    (x % jcp.os % jcp.ow)

/-! ## Blocks of whole planes -/

section Whole

variable (hblocks : jcp.FwdBlocks) (hid : jcp.id ≠ 1)

include hblocks hid

/-- A block starts at the first position of a plane. -/
theorem whole_spatial {ithr : ℕ} {c : Call} (hc : c ∈ calls jcp (partOf jcp nthr ithr)) :
    c.spatial % jcp.os = 0 ∧ lenSp jcp (partOf jcp nthr ithr) c.spatial = jcp.os := by
  have hpart : partOf jcp nthr ithr = _ := if_neg hid
  have hlen : ∀ spatial < (partOf jcp nthr ithr).endSp, spatial % jcp.os = 0 →
      lenSp jcp (partOf jcp nthr ithr) spatial = jcp.os := by
    intro spatial hlt hmod
    obtain ⟨k, rfl⟩ := Nat.dvd_of_mod_eq_zero hmod
    rw [hpart] at hlt ⊢
    dsimp only at hlt
    unfold lenSp
    rw [(hblocks.whole hid).1, hmod]
    dsimp only
    generalize (balance2D nthr ithr (jcp.mb * jcp.ngroups * jcp.od) jcp.oc jcp.nthrOc).1.2 = n at hlt
    rw [Nat.mul_comm] at hlt
    have hkn : k + 1 ≤ n := Nat.lt_of_mul_lt_mul_right hlt
    have hle : (k + 1) * jcp.os ≤ n * jcp.os := Nat.mul_le_mul_right _ hkn
    rw [Nat.succ_mul, Nat.mul_comm k] at hle
    omega
  obtain ⟨hsp, -, -⟩ := mem_calls.mp hc
  have hzero : c.spatial % jcp.os = 0 := by
    refine starts_invariant (P := fun spatial => spatial % jcp.os = 0) ?_ ?_ hsp
    · rw [hpart]
      exact Nat.mul_mod_left _ _
    · intro spatial hlt hmod
      rw [hlen spatial hlt hmod, Nat.add_mod_right, hmod]
  exact ⟨hzero, hlen _ (mem_starts hsp).2 hzero⟩

/-- A block covers all input channels. -/
theorem whole_ic {part : Part} {c : Call} (hc : c ∈ calls jcp part) : c.ic = 0 ∧ lenIc jcp c.ic = jcp.ic := by
  obtain ⟨-, hic, -⟩ := mem_calls.mp hc
  have hlen : lenIc jcp 0 = jcp.ic := by
    unfold lenIc
    rw [(hblocks.whole hid).2, Nat.sub_zero, min_self]
  have hzero : c.ic = 0 ∨ jcp.ic ≤ c.ic := by
    refine starts_invariant (P := fun ic => ic = 0 ∨ jcp.ic ≤ ic) (Or.inl rfl) ?_ hic
    rintro ic hlt (rfl | hle)
    · rw [hlen]
      exact Or.inr (Nat.le_add_left _ _)
    · omega
  have hlt := (mem_starts hic).2
  have hc0 : c.ic = 0 := by omega
  exact ⟨hc0, by rw [hc0, hlen]⟩

end Whole

/-! ## Columns of volumes -/

/-- What the columns keep between two blocks. -/
def KeepsZero (jcp : JitGemmConvConf) (col : ℤ → R) : Prop := jcp.im2colSz ≠ 0 → ZeroOutside jcp col

/-- Without columns, a position reads one element of the image. -/
theorem volumePadded_direct {S : Type*} [Zero S] (hacc : jcp.Accepted) (hsz : jcp.im2colSz = 0) {im : ℤ → S} {od ic oh ow : ℕ}
    (hod : od < jcp.od) (hoh : oh < jcp.oh) (how : ow < jcp.ow) : volumePadded jcp im od ic 0 0 0 oh ow =
      im (ic * (jcp.ih * jcp.iw * jcp.id : ℕ) + od * jcp.ih * jcp.iw + (oh * jcp.iw + ow)) := by
  have hod' := (hacc.of_no_columns hsz).2.2.1
  have how' := (hacc.of_no_columns hsz).2.1
  have hoh' := (hacc.im2colSz.mp hsz).2.1
  have hin : InPlane jcp oh ow (0 : ℕ) (0 : ℕ) := by
    unfold InPlane
    rw [(hacc.taps_of_no_columns hsz oh).2.1, (hacc.taps_of_no_columns hsz ow).2.2]
    omega
  unfold volumePadded planePadded
  rw [if_pos hin, (hacc.taps_of_no_columns hsz od).1, (hacc.taps_of_no_columns hsz oh).2.1,
    (hacc.taps_of_no_columns hsz ow).2.2, if_pos]
  omega

omit [LinearOrder R] in
/-- The columns of volumes are unfolded for every block. -/
theorem unfolds_volume (hacc : jcp.Accepted) (hblocks : jcp.FwdBlocks) (hid : jcp.id ≠ 1) (hnthrIn : 0 < nthrIn)
    {ithr : ℕ} (hithr : ithr < nthr) :
    Unfolds jcp args nthrIn (partOf jcp nthr ithr) (volumeVal jcp args) (KeepsZero jcp) where
  fill := by
    intro hsz c hc col hcol
    have hin := partOf_inside hblocks.nthrOc hithr
    obtain ⟨hsp, hlenSp⟩ := whole_spatial hblocks hid hc
    obtain ⟨hic, hlenIc⟩ := whole_ic hblocks hid hc
    unfold im2colOf
    rw [if_neg hid]
    refine ⟨fun _ => (hcol hsz).im2col3d hnthrIn _ _, ?_⟩
    intro i hi p hp
    have himage : (fun i : ℤ => srcOf jcp args (c.pos jcp) i.toNat) = imageOf jcp args (c.spatial + i) := by
      funext k
      exact srcOf_pos hin hi k.toNat
    have hod : (c.pos jcp).od = (c.spatial + i) / jcp.os % jcp.od := by
      obtain ⟨-, -, hrow⟩ := hin.position hi
      have hodEq := congrArg ImPos.od (posOf_add hrow c.ic c.oc)
      rw [posOf_eq] at hodEq
      exact hodEq.symm
    rw [hlenSp] at hi
    have hmod : (c.spatial + i) % jcp.os = i := by
      rw [Nat.add_mod, hsp, Nat.zero_add, Nat.mod_mod, Nat.mod_eq_of_lt hi]
    have hp' : p < jcp.ic * jcp.ks := by
      unfold rows at hp
      rw [hlenIc] at hp
      exact hp
    have htap : p % jcp.ks < jcp.kd * (jcp.kh * jcp.kw) := by
      rw [Nat.mul_comm]
      exact Nat.mod_lt p hacc.ks_pos
    have hplane : 0 < jcp.kh * jcp.kw := Nat.mul_pos hacc.kh hacc.kw
    have hcolPlace : IsCol jcp (p / jcp.ks) (p % jcp.ks / (jcp.kh * jcp.kw)) (p % jcp.ks % (jcp.kh * jcp.kw) / jcp.kw)
        (p % jcp.ks % (jcp.kh * jcp.kw) % jcp.kw) (i / jcp.ow) (i % jcp.ow) := {
      ic := (Nat.div_lt_iff_lt_mul hacc.ks_pos).mpr hp'
      kd := (Nat.div_lt_iff_lt_mul hplane).mpr htap
      kh := (Nat.div_lt_iff_lt_mul hacc.kw).mpr (Nat.mod_lt _ hplane)
      kw := Nat.mod_lt _ hacc.kw
      oh := (Nat.div_lt_iff_lt_mul hacc.ow).mpr hi
      ow := Nat.mod_lt _ hacc.ow }
    have hidx : i + p * jcp.os = colIdx3d jcp (p / jcp.ks) (p % jcp.ks / (jcp.kh * jcp.kw))
        (p % jcp.ks % (jcp.kh * jcp.kw) / jcp.kw) (p % jcp.ks % (jcp.kh * jcp.kw) % jcp.kw) (i / jcp.ow)
        (i % jcp.ow) := by
      unfold colIdx3d tapIdx
      rw [Nat.div_add_mod', Nat.div_add_mod', Nat.div_add_mod', Nat.div_add_mod', Nat.add_comm]
    unfold source lda volumeVal
    rw [if_pos hsz, if_pos hsz, himage, hod, hlenSp, hidx, hic, Nat.zero_mul, Nat.zero_add, hmod]
    exact applyWrites_im2col3d hnthrIn (hcol hsz) hcolPlace
  direct := by
    intro hsz c hc col i hi p hp
    have hin := partOf_inside hblocks.nthrOc hithr
    obtain ⟨hos, -, hod, hks, -⟩ := hacc.of_no_columns hsz
    obtain ⟨hsp, hlenSp⟩ := whole_spatial hblocks hid hc
    obtain ⟨hic, -⟩ := whole_ic hblocks hid hc
    have hposOd : (c.pos jcp).od = (c.spatial + i) / jcp.os % jcp.od := by
      obtain ⟨-, -, hrow⟩ := hin.position hi
      have hodEq := congrArg ImPos.od (posOf_add hrow c.ic c.oc)
      rw [posOf_eq] at hodEq
      exact hodEq.symm
    have hposSp : (c.pos jcp).sp = 0 := by
      unfold Call.pos
      rw [posOf_sp, hsp]
    have hposIc : (c.pos jcp).ic = 0 := by
      unfold Call.pos
      rw [posOf_ic, hic]
    rw [hlenSp] at hi
    have hmod : (c.spatial + i) % jcp.os = i := by
      rw [Nat.add_mod, hsp, Nat.zero_add, Nat.mod_mod, Nat.mod_eq_of_lt hi]
    have hoh : i / jcp.ow < jcp.oh := (Nat.div_lt_iff_lt_mul hacc.ow).mpr hi
    have how' : i % jcp.ow < jcp.ow := Nat.mod_lt _ hacc.ow
    have hidLt : (c.spatial + i) / jcp.os % jcp.od < jcp.od := Nat.mod_lt _ hacc.od
    unfold source lda volumeVal
    rw [if_neg (not_not.mpr hsz), if_neg (not_not.mpr hsz), hposOd, hposSp, hposIc, hic, Nat.zero_mul, Nat.zero_add,
      hks, Nat.mod_one, Nat.zero_div, Nat.zero_mod, Nat.zero_div, Nat.zero_mod, hmod,
      volumePadded_direct hacc hsz hidLt hoh how', srcOf_pos hin (hlenSp.symm ▸ hi)]
    unfold imageOf
    congr 2
    have hplane := Nat.div_add_mod' i jcp.ow
    have hM : M jcp = jcp.ih * jcp.iw * jcp.id := by
      unfold M
      rw [hos, hod]
      rfl
    rw [hM, hos, JitGemmConvConf.is, ← (hacc.of_no_columns hsz).2.1, Nat.zero_mul, Nat.zero_add, Nat.div_one]
    generalize (c.spatial + i) / (jcp.ih * jcp.ow) % jcp.od = d
    generalize i / jcp.ow = r at hplane
    generalize i % jcp.ow = w at hplane
    have hflat : (p : ℤ) * (jcp.ih * jcp.ow * jcp.id : ℕ) + d * jcp.ih * jcp.ow + (r * jcp.ow + w) =
        (d * (jcp.ih * jcp.ow) + 0 + (i + p * (jcp.ih * jcp.ow * jcp.id)) : ℕ) := by
      rw [← hplane]
      push_cast
      ring
    rw [hflat, Int.toNat_natCast]

/-! ## The direct convolution -/

section Reference

variable {mb g od oh ow : ℕ}

omit [LinearOrder R] in
/-- The sum over the columns of volumes is the direct convolution. -/
theorem fullSum_volume (hout : IsOut jcp mb g od oh ow) (oc : ℕ) :
    fullSum jcp args (volumeVal jcp args) (outPos jcp mb g od oh ow) oc =
      RefConvolution.fwdKer jcp args.src args.weights g mb oc od oh ow := by
  rw [fwdKer_eq, sum_kernel]
  apply Finset.sum_congr rfl
  intro q _
  generalize hkd : q % jcp.ks / (jcp.kh * jcp.kw) = kd
  generalize hkh : q % jcp.ks % (jcp.kh * jcp.kw) / jcp.kw = kh
  generalize hkw : q % jcp.ks % (jcp.kh * jcp.kw) % jcp.kw = kw
  unfold volumeVal volumePadded planePadded planeTerm
  rw [hout.row, hout.column, hout.div_os, hout.weightsAddr_outPos, hkd, hkh, hkw]
  by_cases hid : 0 ≤ idOf jcp od kd ∧ idOf jcp od kd < jcp.id
  · rw [if_pos hid, if_pos hid]
    by_cases hin : InPlane jcp oh ow kh kw
    · rw [if_pos hin, if_pos hin]
      congr 1
      obtain ⟨hih, hiw⟩ := hin
      unfold imageOf RefConvolution.srcOff srcStep
      rw [hout.div_M]
      congr 1
      generalize idOf jcp od kd = id at hid
      generalize ihOf jcp oh kh = ih at hih
      generalize iwOf jcp ow kw = iw at hiw
      lift id to ℕ using hid.1
      lift ih to ℕ using hih.1
      lift iw to ℕ using hiw.1
      have hflat : ((q / jcp.ks : ℕ) : ℤ) * (jcp.ih * jcp.iw * jcp.id : ℕ) + id * jcp.ih * jcp.iw + (ih * jcp.iw + iw) =
          ((q / jcp.ks * (jcp.ih * jcp.iw * jcp.id) + id * jcp.ih * jcp.iw + (ih * jcp.iw + iw) : ℕ) : ℤ) := by
        push_cast
        ring
      rw [hflat, Int.toNat_natCast, Int.toNat_natCast, Int.toNat_natCast, Int.toNat_natCast]
      ring
    · rw [if_neg hin, if_neg hin]
      exact zero_mul _
  · rw [if_neg hid, if_neg hid, ite_self]
    exact zero_mul _

end Reference

end MklDnn.GemmConvolutionFwd
