import MklDnn.Conv.Proofs.ForwardValuesProofs
import MklDnn.Conv.RefConvolution

/-!
# Proofs: the forward convolution by GEMM

Every element of the output belongs to one thread, so the order of the threads does not matter.
-/

open LoopNest Interleaving

namespace MklDnn.GemmConvolutionFwd

variable {R : Type*} [CommRing R] [LinearOrder R] {jcp : JitGemmConvConf} {args : Args R} {nthrIn nthr : ℕ}

/-! ## Threads -/

theorem partOf_inside (hnthrOc : 0 < jcp.nthrOc) {ithr : ℕ} (hithr : ithr < nthr) : (partOf jcp nthr ithr).Inside jcp := by
  unfold partOf
  split_ifs with hid
  · exact ⟨(balance2D_le hnthrOc hithr).1, (balance2D_le hnthrOc hithr).2⟩
  · exact ⟨Nat.mul_le_mul_right _ (balance2D_le hnthrOc hithr).1, (balance2D_le hnthrOc hithr).2⟩

/-- Every element belongs to the part of one thread. -/
theorem existsUnique_part (hnthr : 0 < nthr) (hnthrOc : 0 < jcp.nthrOc) {x oc : ℕ} (hx : x < spWork jcp)
    (hoc : oc < jcp.oc) : ∃! ithr, ithr < nthr ∧ (partOf jcp nthr ithr).Has x oc := by
  unfold partOf Part.Has
  split_ifs with hid
  · exact existsUnique_balance2D hnthr hnthrOc hx hoc
  · have hos : 0 < jcp.os := by
      by_contra hzero
      unfold spWork at hx
      rw [Nat.eq_zero_of_not_pos hzero, Nat.mul_zero] at hx
      omega
    have hslice : x / jcp.os < jcp.mb * jcp.ngroups * jcp.od := (Nat.div_lt_iff_lt_mul hos).mpr hx
    have hrange : ∀ n, (n * jcp.os ≤ x ↔ n ≤ x / jcp.os) ∧ (x < n * jcp.os ↔ x / jcp.os < n) :=
      fun n => ⟨(Nat.le_div_iff_mul_le hos).symm, (Nat.div_lt_iff_lt_mul hos).symm⟩
    dsimp only
    simp only [hrange]
    exact existsUnique_balance2D hnthr hnthrOc hslice hoc

/-- The program of a thread that multiplies the columns `val`. -/
def threadProg (jcp : JitGemmConvConf) (args : Args R) (nthrIn : ℕ) (val : ℕ → ℕ → R) (nthr ithr : ℕ) :
    List (Assign ℕ R) :=
  if ithr < nthr then (calls jcp (partOf jcp nthr ithr)).flatMap (kerProg jcp args nthrIn (partOf jcp nthr ithr) val)
  else []

/-- What is unfolded by every thread is right. -/
structure AllUnfold (jcp : JitGemmConvConf) (args : Args R) (nthrIn nthr : ℕ) (val : ℕ → ℕ → R)
    (scratch : ℕ → ℤ → R) (J : (ℤ → R) → Prop) : Prop where
  unfolds : ∀ ithr < nthr, Unfolds jcp args nthrIn (partOf jcp nthr ithr) val J
  init : ∀ ithr < nthr, J (initState jcp (scratch ithr)).col

section

variable {val : ℕ → ℕ → R} {scratch : ℕ → ℤ → R} {J : (ℤ → R) → Prop} (h : Blocks jcp) (hic : 0 < jcp.ic)
  (hnthrOc : 0 < jcp.nthrOc)

include h hic hnthrOc

/-- The loops of every thread end. -/
theorem program_eq (hunf : AllUnfold jcp args nthrIn nthr val scratch J) (ithr : ℕ) :
    program jcp args nthrIn scratch nthr ithr = some (threadProg jcp args nthrIn val nthr ithr) := by
  unfold program threadProg
  split_ifs with hithr
  · have hin := partOf_inside hnthrOc hithr
    have hinv : Inv jcp args (partOf jcp nthr ithr) val J (initState jcp (scratch ithr)) :=
      ⟨hunf.init ithr hithr, fun p hp => by cases hp⟩
    rw [loops_eq h hic hin h.osBlock h.icBlock, Option.map_some,
      foldl_call_prog hin (hunf.unfolds ithr hithr) (fun c hc => hc) hinv]
    rfl
  · rfl

variable (hnthrIn : 0 < nthrIn)

include hnthrIn

omit h hic in
/-- A thread assigns to the elements of its part. -/
theorem threadProg_dst {ithr : ℕ} {e : Assign ℕ R} (he : e ∈ threadProg jcp args nthrIn val nthr ithr) :
    e.Local ∧ ithr < nthr ∧ ∃ x oc, x < spWork jcp ∧ oc < jcp.oc ∧ (partOf jcp nthr ithr).Has x oc ∧
      e.dst = addr jcp x oc := by
  unfold threadProg at he
  split_ifs at he with hithr
  · have hin := partOf_inside hnthrOc hithr
    obtain ⟨c, hc, he⟩ := List.mem_flatMap.mp he
    obtain ⟨hlocal, i, hi, j, hj, hdst⟩ := kerProg_dst hnthrIn hin he
    obtain ⟨hsp, hx, -⟩ := hin.position hi
    obtain ⟨hocEnd, hoc⟩ := hin.channel hj
    obtain ⟨hspStart, -, hocStart⟩ := mem_calls.mp hc
    refine ⟨hlocal, hithr, _, _, hx, hoc, ⟨⟨?_, hsp⟩, ?_, hocEnd⟩, hdst⟩
    · exact (mem_starts hspStart).1.trans (Nat.le_add_right _ _)
    · exact (mem_starts hocStart).1.trans (Nat.le_add_right _ _)
  · cases he

/-- Every element holds the sum over the columns, in every order of the threads, and one thread assigns to it. -/
theorem execAll_threads (hnthr : 0 < nthr) {o : List (ℕ × Assign ℕ R)}
    (ho : IsOrder (threadProg jcp args nthrIn val nthr) o) (dst : ℕ → R) {x oc : ℕ} (hx : x < spWork jcp)
    (hoc : oc < jcp.oc) :
    execAll (o.map Prod.snd) dst (addr jcp x oc) =
      postOf jcp args x oc (fullSum jcp args val x oc + args.beta * dst (addr jcp x oc)) := by
  have hunique : ∀ {ithr e x oc}, e ∈ threadProg jcp args nthrIn val nthr ithr → x < spWork jcp → oc < jcp.oc →
      e.dst = addr jcp x oc → ithr < nthr ∧ (partOf jcp nthr ithr).Has x oc := by
    intro ithr e x oc he hx hoc hdst
    obtain ⟨-, hithr, x', oc', -, hoc', hhas, hdst'⟩ := threadProg_dst hnthrOc hnthrIn he
    rw [hdst] at hdst'
    obtain ⟨rfl, rfl⟩ := addr_injective hx hoc hoc' hdst'
    exact ⟨hithr, hhas⟩
  have hrace : Interleaving.RaceFree (threadProg jcp args nthrIn val nthr) := by
    apply Interleaving.RaceFree.of_local
    · intro p e he q hq e' he' hdst
      obtain ⟨-, hp, x, oc, hx, hoc, hhas, hdst'⟩ := threadProg_dst hnthrOc hnthrIn he
      rw [hdst'] at hdst
      exact hq ((existsUnique_part hnthr hnthrOc hx hoc).unique (hunique he' hx hoc hdst) ⟨hp, hhas⟩)
    · exact fun p e he => (threadProg_dst hnthrOc hnthrIn he).1
  obtain ⟨ithr, ⟨hithr, hhas⟩, honly⟩ := existsUnique_part hnthr hnthrOc hx hoc
  have hprivate : Private (threadProg jcp args nthrIn val nthr) ithr (addr jcp x oc) :=
    fun q hq e he hdst => hq (honly q (hunique he hx hoc hdst))
  rw [hrace.execAll_order ho hprivate, execAll_eq_trace fun e he => (threadProg_dst hnthrOc hnthrIn he).1]
  unfold threadProg
  rw [if_pos hithr]
  exact trace_calls h hic hnthrIn (partOf_inside hnthrOc hithr) val hhas _

/-- One thread assigns to an element. -/
theorem existsUnique_thread (hnthr : 0 < nthr) {x oc : ℕ} (hx : x < spWork jcp) (hoc : oc < jcp.oc) :
    ∃! ithr, ∃ e ∈ threadProg jcp args nthrIn val nthr ithr, e.dst = addr jcp x oc := by
  obtain ⟨ithr, ⟨hithr, hhas⟩, honly⟩ := existsUnique_part hnthr hnthrOc hx hoc
  refine ⟨ithr, ?_, ?_⟩
  · have hin := partOf_inside hnthrOc hithr
    obtain ⟨c, hc, i, hi, j, hj, rfl, rfl⟩ := exists_call h hic hin hhas
    obtain ⟨e, he, hdst⟩ := exists_mem_kerProg args nthrIn val hi hj
    dsimp only
    unfold threadProg
    rw [if_pos hithr]
    exact ⟨e, List.mem_flatMap.mpr ⟨c, hc, he⟩, hdst⟩
  · rintro ithr' ⟨e, he, hdst⟩
    obtain ⟨-, hithr', x', oc', -, hoc', hhas', hdst'⟩ := threadProg_dst hnthrOc hnthrIn he
    rw [hdst] at hdst'
    obtain ⟨rfl, rfl⟩ := addr_injective hx hoc hoc' hdst'
    exact honly ithr' ⟨hithr', hhas'⟩

end

/-! ## Positions of the output -/

section Position

variable {mb g od oh ow : ℕ}

/-- The position of the output in the loops. -/
def outPos (jcp : JitGemmConvConf) (mb g od oh ow : ℕ) : ℕ :=
  ((mb * jcp.ngroups + g) * jcp.od + od) * jcp.os + (oh * jcp.ow + ow)

/-- A position of the output. -/
structure IsOut (jcp : JitGemmConvConf) (mb g od oh ow : ℕ) : Prop where
  mb : mb < jcp.mb
  g : g < jcp.ngroups
  od : od < jcp.od
  oh : oh < jcp.oh
  ow : ow < jcp.ow

variable (hout : IsOut jcp mb g od oh ow)

include hout

theorem IsOut.pixel_lt : oh * jcp.ow + ow < jcp.os := by
  rw [Nat.add_comm]
  exact add_mul_lt hout.ow hout.oh

theorem IsOut.slice_lt : od * jcp.os + (oh * jcp.ow + ow) < M jcp := by
  unfold M
  rw [Nat.add_comm, Nat.mul_comm jcp.os]
  exact add_mul_lt hout.pixel_lt hout.od

theorem IsOut.image_lt : mb * jcp.ngroups + g < jcp.mb * jcp.ngroups := by
  rw [Nat.add_comm]
  exact add_mul_lt hout.g hout.mb

omit hout in
theorem outPos_eq (mb g od oh ow : ℕ) : outPos jcp mb g od oh ow =
    M jcp * (mb * jcp.ngroups + g) + (od * jcp.os + (oh * jcp.ow + ow)) := by
  unfold outPos M
  ring

theorem IsOut.outPos_lt : outPos jcp mb g od oh ow < spWork jcp := by
  have hlt : od * jcp.os + (oh * jcp.ow + ow) + (mb * jcp.ngroups + g) * M jcp < jcp.mb * jcp.ngroups * M jcp :=
    add_mul_lt hout.slice_lt hout.image_lt
  rw [outPos_eq, Nat.add_comm, Nat.mul_comm (M jcp)]
  unfold spWork
  rw [Nat.mul_assoc, Nat.mul_comm jcp.od]
  exact hlt

theorem IsOut.div_M : outPos jcp mb g od oh ow / M jcp = mb * jcp.ngroups + g := by
  have hlt := hout.slice_lt
  rw [outPos_eq, Nat.mul_add_div (by omega), Nat.div_eq_of_lt hlt, Nat.add_zero]

theorem IsOut.mod_M : outPos jcp mb g od oh ow % M jcp = od * jcp.os + (oh * jcp.ow + ow) := by
  rw [outPos_eq, Nat.mul_add_mod, Nat.mod_eq_of_lt hout.slice_lt]

theorem IsOut.div_os : outPos jcp mb g od oh ow / jcp.os % jcp.od = od := by
  have hlt := hout.pixel_lt
  unfold outPos
  rw [Nat.mul_comm _ jcp.os, Nat.mul_add_div (by omega), Nat.div_eq_of_lt hlt, Nat.add_zero, Nat.mul_comm _ jcp.od,
    Nat.mul_add_mod, Nat.mod_eq_of_lt hout.od]

theorem IsOut.mod_os : outPos jcp mb g od oh ow % jcp.os = oh * jcp.ow + ow := by
  unfold outPos
  rw [Nat.mul_comm _ jcp.os, Nat.mul_add_mod, Nat.mod_eq_of_lt hout.pixel_lt]

theorem IsOut.row : outPos jcp mb g od oh ow % jcp.os / jcp.ow = oh := by
  have how := hout.ow
  rw [hout.mod_os, Nat.mul_comm, Nat.mul_add_div (by omega), Nat.div_eq_of_lt how, Nat.add_zero]

theorem IsOut.column : outPos jcp mb g od oh ow % jcp.os % jcp.ow = ow := by
  rw [hout.mod_os, Nat.mul_comm, Nat.mul_add_mod, Nat.mod_eq_of_lt hout.ow]

/-- The offset of an element of the output. -/
theorem IsOut.addr_outPos (oc : ℕ) :
    addr jcp (outPos jcp mb g od oh ow) oc = RefConvolution.dstOff jcp mb (g * jcp.oc + oc) od oh ow := by
  unfold addr RefConvolution.dstOff dstStep
  rw [hout.div_M, hout.mod_M]
  unfold M JitGemmConvConf.os
  ring

/-- The offset of a weight, by its tap. -/
theorem IsOut.weightsAddr_outPos (oc q : ℕ) : weightsAddr jcp (outPos jcp mb g od oh ow) oc q =
    RefConvolution.weightsOff jcp g oc (q / jcp.ks) (q % jcp.ks / (jcp.kh * jcp.kw))
      (q % jcp.ks % (jcp.kh * jcp.kw) / jcp.kw) (q % jcp.ks % (jcp.kh * jcp.kw) % jcp.kw) := by
  have hq := Nat.div_add_mod' q jcp.ks
  have htap := Nat.div_add_mod' (q % jcp.ks) (jcp.kh * jcp.kw)
  have hplane := Nat.div_add_mod' (q % jcp.ks % (jcp.kh * jcp.kw)) jcp.kw
  unfold weightsAddr weightsGSize weightsOcSize
  rw [hout.div_M, Nat.mul_comm mb, Nat.mul_add_mod, Nat.mod_eq_of_lt hout.g]
  conv_lhs => rw [← hq, ← htap, ← hplane]
  unfold RefConvolution.weightsOff JitGemmConvConf.ks
  ring

omit [LinearOrder R] in
theorem IsOut.biasOf_outPos (oc : ℕ) : biasOf jcp args (outPos jcp mb g od oh ow) oc =
    if jcp.withBias then args.bias (g * jcp.oc + oc) else 0 := by
  unfold biasOf
  rw [hout.div_M, Nat.mul_comm mb, Nat.mul_add_mod, Nat.mod_eq_of_lt hout.g]

end Position

omit [LinearOrder R] in
/-- The taps of all input channels, in one sum. -/
theorem sum_kernel (jcp : JitGemmConvConf) (f : ℕ → ℕ → ℕ → ℕ → R) :
    (∑ ic ∈ Finset.range jcp.ic, ∑ kd ∈ Finset.range jcp.kd, ∑ kh ∈ Finset.range jcp.kh, ∑ kw ∈ Finset.range jcp.kw,
      f ic kd kh kw) =
      ∑ q ∈ Finset.range (jcp.ic * jcp.ks), f (q / jcp.ks) (q % jcp.ks / (jcp.kh * jcp.kw))
        (q % jcp.ks % (jcp.kh * jcp.kw) / jcp.kw) (q % jcp.ks % (jcp.kh * jcp.kw) % jcp.kw) := by
  have hks : jcp.ks = jcp.kd * (jcp.kh * jcp.kw) := Nat.mul_comm _ _
  have hplane : ∀ ic kd, ∑ kh ∈ Finset.range jcp.kh, ∑ kw ∈ Finset.range jcp.kw, f ic kd kh kw =
      ∑ t ∈ Finset.range (jcp.kh * jcp.kw), f ic kd (t / jcp.kw) (t % jcp.kw) :=
    fun ic kd => sum_range_mul (f ic kd)
  have hkernel : ∀ ic, ∑ kd ∈ Finset.range jcp.kd, ∑ t ∈ Finset.range (jcp.kh * jcp.kw), f ic kd (t / jcp.kw) (t % jcp.kw) =
      ∑ u ∈ Finset.range jcp.ks, f ic (u / (jcp.kh * jcp.kw)) (u % (jcp.kh * jcp.kw) / jcp.kw)
        (u % (jcp.kh * jcp.kw) % jcp.kw) := by
    intro ic
    rw [hks]
    exact sum_range_mul fun kd t => f ic kd (t / jcp.kw) (t % jcp.kw)
  simp only [hplane, hkernel]
  exact sum_range_mul fun ic u => f ic (u / (jcp.kh * jcp.kw)) (u % (jcp.kh * jcp.kw) / jcp.kw)
    (u % (jcp.kh * jcp.kw) % jcp.kw)

end MklDnn.GemmConvolutionFwd
