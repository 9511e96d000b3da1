import MklDnn.Common.Proofs.ThreadingProofs
import MklDnn.Conv.Forward

/-!
# Proofs: the loops of a convolution by GEMM

In both orders the loops end, and run through blocks that follow one another in the input channels, in the positions
and in the output channels.
-/

open LoopNest Interleaving

namespace MklDnn.GemmConvolutionFwd

variable {R : Type*} [CommRing R] [LinearOrder R] {jcp : JitGemmConvConf} {args : Args R} {nthrIn : ℕ} {part : Part}

/-! ## Positions -/

/-- The counters of a position. -/
theorem posOf_eq (jcp : JitGemmConvConf) (spatial ic oc : ℕ) : posOf jcp spatial ic oc =
    ⟨spatial / (jcp.ngroups * (jcp.od * jcp.os)) % jcp.mb, spatial / (jcp.od * jcp.os) % jcp.ngroups,
      spatial / jcp.os % jcp.od, spatial % jcp.os, ic, oc⟩ := by
  have hindex : (ndIteratorInit spatial [jcp.mb, jcp.ngroups, jcp.od, jcp.os]).2 =
      [spatial / (jcp.ngroups * (jcp.od * jcp.os)) % jcp.mb, spatial / (jcp.od * jcp.os) % jcp.ngroups,
        spatial / jcp.os % jcp.od, spatial % jcp.os] := by
    show ndIndex _ _ = _
    simp only [ndIndex_cons, ndIndex_nil, List.prod_cons, List.prod_nil, Nat.mul_one, Nat.div_one]
  unfold posOf
  rw [hindex]

@[simp] theorem posOf_sp (spatial ic oc : ℕ) : (posOf jcp spatial ic oc).sp = spatial % jcp.os := by rw [posOf_eq]

@[simp] theorem posOf_ic (spatial ic oc : ℕ) : (posOf jcp spatial ic oc).ic = ic := by rw [posOf_eq]

@[simp] theorem posOf_oc (spatial ic oc : ℕ) : (posOf jcp spatial ic oc).oc = oc := by rw [posOf_eq]

/-! ## Blocks -/

/-- The sizes of the blocks are positive. -/
structure Blocks (jcp : JitGemmConvConf) : Prop where
  icBlock : 0 < jcp.icBlock
  ocBlock : 0 < jcp.ocBlock
  osBlock : 0 < jcp.osBlock
  os : 0 < jcp.os

/-- The number of output channels of a block. -/
def lenOc (jcp : JitGemmConvConf) (part : Part) (oc : ℕ) : ℕ := min jcp.ocBlock (min jcp.oc part.endOc - oc)

/-- The number of positions of a block. -/
def lenSp (jcp : JitGemmConvConf) (part : Part) (spatial : ℕ) : ℕ :=
  min jcp.osBlock (min (jcp.os - spatial % jcp.os) (part.endSp - spatial))

/-- The number of input channels of a block. -/
def lenIc (jcp : JitGemmConvConf) (ic : ℕ) : ℕ := min jcp.icBlock (jcp.ic - ic)

theorem stepOf_posOf (part : Part) (spatial ic oc : ℕ) : stepOf jcp part spatial (posOf jcp spatial ic oc) =
    ⟨lenOc jcp part oc, lenSp jcp part spatial, lenIc jcp ic⟩ := by
  unfold stepOf lenOc lenSp lenIc
  rw [posOf_sp, posOf_ic, posOf_oc, min_self]

section Lengths

variable (h : Blocks jcp)

include h

theorem Blocks.lenOc_pos (hend : part.endOc ≤ jcp.oc) : ∀ oc < part.endOc, 0 < lenOc jcp part oc := by
  intro oc hoc
  have := h.ocBlock
  unfold lenOc
  omega

theorem Blocks.lenSp_pos : ∀ spatial < part.endSp, 0 < lenSp jcp part spatial := by
  intro spatial hspatial
  have hos := h.osBlock
  have hmod := Nat.mod_lt spatial h.os
  unfold lenSp
  omega

theorem Blocks.lenIc_pos : ∀ ic < jcp.ic, 0 < lenIc jcp ic := by
  intro ic hic
  have := h.icBlock
  unfold lenIc
  omega

end Lengths

/-! ## Calls -/

/-- A call of `inner_ker`. -/
structure Call where
  spatial : ℕ
  ic : ℕ
  oc : ℕ

/-- The position of a call. -/
def Call.pos (jcp : JitGemmConvConf) (c : Call) : ImPos := posOf jcp c.spatial c.ic c.oc

/-- The sizes of the block of a call. -/
def Call.step (jcp : JitGemmConvConf) (part : Part) (c : Call) : Step :=
  ⟨lenOc jcp part c.oc, lenSp jcp part c.spatial, lenIc jcp c.ic⟩

/-- `inner_ker` for a call. -/
def call (jcp : JitGemmConvConf) (args : Args R) (nthrIn : ℕ) (part : Part) (s : State R) (c : Call) : State R :=
  innerKer jcp args nthrIn part c.spatial (c.pos jcp) s

theorem call_step (s : State R) (c : Call) : (call jcp args nthrIn part s c).step = c.step jcp part :=
  stepOf_posOf part c.spatial c.ic c.oc

/-- The starts of the blocks of output channels. -/
def ocStarts (jcp : JitGemmConvConf) (part : Part) : List ℕ :=
  starts (lenOc jcp part) part.endOc (fuel jcp) part.startOc

/-- The starts of the blocks of positions. -/
def spStarts (jcp : JitGemmConvConf) (part : Part) : List ℕ :=
  starts (lenSp jcp part) part.endSp (fuel jcp) part.startSp

/-- The starts of the blocks of input channels. -/
def icStarts (jcp : JitGemmConvConf) : List ℕ := starts (lenIc jcp) jcp.ic (fuel jcp) 0

/-- The calls of a thread, in the order of the loops. -/
def calls (jcp : JitGemmConvConf) (part : Part) : List Call :=
  match jcp.loopOrder with
  | .rlb => (icStarts jcp).flatMap fun ic => (spStarts jcp part).flatMap fun spatial =>
      (ocStarts jcp part).map fun oc => ⟨spatial, ic, oc⟩
  | .lrb => (spStarts jcp part).flatMap fun spatial => (icStarts jcp).flatMap fun ic =>
      (ocStarts jcp part).map fun oc => ⟨spatial, ic, oc⟩

theorem mem_calls {c : Call} :
    c ∈ calls jcp part ↔ c.spatial ∈ spStarts jcp part ∧ c.ic ∈ icStarts jcp ∧ c.oc ∈ ocStarts jcp part := by
  obtain ⟨spatial, ic, oc⟩ := c
  unfold calls
  cases jcp.loopOrder with
  | rlb =>
    simp only [List.mem_flatMap, List.mem_map, Call.mk.injEq]
    constructor
    · rintro ⟨_, hic, _, hsp, _, hoc, rfl, rfl, rfl⟩
      exact ⟨hsp, hic, hoc⟩
    · rintro ⟨hsp, hic, hoc⟩
      exact ⟨_, hic, _, hsp, _, hoc, rfl, rfl, rfl⟩
  | lrb =>
    simp only [List.mem_flatMap, List.mem_map, Call.mk.injEq]
    constructor
    · rintro ⟨_, hsp, _, hic, _, hoc, rfl, rfl, rfl⟩
      exact ⟨hsp, hic, hoc⟩
    · rintro ⟨hsp, hic, hoc⟩
      exact ⟨_, hsp, _, hic, _, hoc, rfl, rfl, rfl⟩

/-- The first call. -/
theorem calls_eq_cons (h : Blocks jcp) (hic : 0 < jcp.ic) (hend : part.endOc ≤ jcp.oc) (hfuel : part.endSp ≤ fuel jcp)
    (hsp : part.startSp < part.endSp) (hoc : part.startOc < part.endOc) :
    ∃ rest, calls jcp part = ⟨part.startSp, 0, part.startOc⟩ :: rest ∧
      ∀ c ∈ rest, ¬ (c.spatial = part.startSp ∧ c.ic = 0 ∧ c.oc = part.startOc) := by
  have hlenSp : 0 < lenSp jcp part part.startSp := h.lenSp_pos part.startSp hsp
  have hlenIc := h.lenIc_pos 0 hic
  have hlenOc := h.lenOc_pos hend part.startOc hoc
  have hfuelIc : jcp.ic ≤ 0 + fuel jcp := by
    unfold fuel
    omega
  have hfuelOc : part.endOc ≤ part.startOc + fuel jcp := by
    unfold fuel
    omega
  obtain ⟨sps, hsps, hspGe⟩ := starts_eq_cons (lenSp jcp part) hsp (by omega : part.endSp ≤ part.startSp + fuel jcp)
  obtain ⟨ics, hics, hicGe⟩ := starts_eq_cons (lenIc jcp) hic hfuelIc
  obtain ⟨ocs, hocs, hocGe⟩ := starts_eq_cons (lenOc jcp part) hoc hfuelOc
  unfold calls icStarts spStarts ocStarts
  rw [hsps, hics, hocs]
  cases jcp.loopOrder with
  | rlb =>
    refine ⟨(ocs.map fun oc => ⟨part.startSp, 0, oc⟩) ++
      (sps.flatMap fun spatial => (part.startOc :: ocs).map fun oc => ⟨spatial, 0, oc⟩) ++
      ics.flatMap fun ic => (part.startSp :: sps).flatMap fun spatial =>
        (part.startOc :: ocs).map fun oc => ⟨spatial, ic, oc⟩, rfl, ?_⟩
    intro c hc
    simp only [List.mem_append, List.mem_flatMap, List.mem_map] at hc
    rcases hc with (⟨oc, hoc', rfl⟩ | ⟨spatial, hsp', oc, -, rfl⟩) | ⟨ic, hic', spatial, -, oc, -, rfl⟩
    · have := hocGe oc hoc'
      dsimp only
      omega
    · have := hspGe spatial hsp'
      dsimp only
      omega
    · have := hicGe ic hic'
      dsimp only
      omega
  | lrb =>
    refine ⟨(ocs.map fun oc => ⟨part.startSp, 0, oc⟩) ++
      (ics.flatMap fun ic => (part.startOc :: ocs).map fun oc => ⟨part.startSp, ic, oc⟩) ++
      sps.flatMap fun spatial => (0 :: ics).flatMap fun ic =>
        (part.startOc :: ocs).map fun oc => ⟨spatial, ic, oc⟩, rfl, ?_⟩
    intro c hc
    simp only [List.mem_append, List.mem_flatMap, List.mem_map] at hc
    rcases hc with (⟨oc, hoc', rfl⟩ | ⟨ic, hic', oc, -, rfl⟩) | ⟨spatial, hsp', ic, -, oc, -, rfl⟩
    · have := hocGe oc hoc'
      dsimp only
      omega
    · have := hicGe ic hic'
      dsimp only
      omega
    · have := hspGe spatial hsp'
      dsimp only
      omega

/-- A part inside the output. -/
structure Part.Inside (jcp : JitGemmConvConf) (part : Part) : Prop where
  endSp : part.endSp ≤ jcp.mb * jcp.ngroups * jcp.od * jcp.os
  endOc : part.endOc ≤ jcp.oc

theorem Part.Inside.fuel_sp (hin : part.Inside jcp) : part.endSp ≤ part.startSp + fuel jcp := by
  have := hin.endSp
  unfold fuel
  omega

theorem Part.Inside.fuel_oc (hin : part.Inside jcp) : part.endOc ≤ part.startOc + fuel jcp := by
  have := hin.endOc
  unfold fuel
  omega

/-- A loop over calls leaves the step of its calls. -/
theorem foldl_call_step {l : List Call} (hl : l ≠ []) {α : Type*} {φ : Step → α} {a : α}
    (hφ : ∀ c ∈ l, φ (c.step jcp part) = a) (s : State R) :
    φ (l.foldl (call jcp args nthrIn part) s).step = a := by
  obtain ⟨l, c, rfl⟩ := (List.eq_nil_or_concat l).resolve_left hl
  rw [List.concat_eq_append, List.foldl_append, List.foldl_cons, List.foldl_nil, call_step]
  exact hφ c (by simp)

/-- The calls of the innermost loop. -/
def ocCalls (jcp : JitGemmConvConf) (part : Part) (spatial ic : ℕ) : List Call :=
  (ocStarts jcp part).map fun oc => ⟨spatial, ic, oc⟩

theorem ocLoop_eq (h : Blocks jcp) (hin : part.Inside jcp) (spatial ic : ℕ) (s : State R) :
    ocLoop jcp args nthrIn (fuel jcp) part spatial ic s =
      some ((ocCalls jcp part spatial ic).foldl (call jcp args nthrIn part) s) := by
  have hbody : ∀ oc (s : State R), oc < part.endOc → True →
      some (innerKer jcp args nthrIn part spatial (posOf jcp spatial ic oc) s) =
          some (call jcp args nthrIn part s ⟨spatial, ic, oc⟩) ∧ True ∧
        (call jcp args nthrIn part s ⟨spatial, ic, oc⟩).step.oc = lenOc jcp part oc :=
    fun oc s _ _ => ⟨rfl, trivial, congrArg Step.oc (call_step s _)⟩
  unfold ocLoop ocCalls
  rw [(forSteps_eq _ _ (h.lenOc_pos hin.endOc) hbody hin.fuel_oc trivial).1, List.foldl_map]
  rfl

/-- A thread without output channels, or without positions. -/
def Part.Empty (part : Part) : Prop := part.endOc ≤ part.startOc ∨ part.endSp ≤ part.startSp

theorem ocCalls_ne_nil (hne : ¬ part.Empty) (hin : part.Inside jcp) (spatial ic : ℕ) :
    ocCalls jcp part spatial ic ≠ [] := by
  unfold Part.Empty at hne
  obtain ⟨rest, hrest, -⟩ := starts_eq_cons (lenOc jcp part) (by omega : part.startOc < part.endOc) hin.fuel_oc
  unfold ocCalls ocStarts
  rw [hrest]
  exact List.cons_ne_nil _ _

theorem fuel_ic (jcp : JitGemmConvConf) : jcp.ic ≤ 0 + fuel jcp := by
  unfold fuel
  omega

theorem mem_ocCalls {spatial ic : ℕ} {c : Call} (hc : c ∈ ocCalls jcp part spatial ic) :
    c.spatial = spatial ∧ c.ic = ic ∧ c.oc ∈ ocStarts jcp part := by
  obtain ⟨oc, hoc, rfl⟩ := List.mem_map.mp hc
  exact ⟨rfl, rfl, hoc⟩

section Nonempty

variable (h : Blocks jcp) (hin : part.Inside jcp) (hne : ¬ part.Empty)

include h hin hne

/-- The loop over the positions, inside the loop over the input channels. -/
theorem spLoop_eq (ic : ℕ) (s : State R) :
    forSteps part.endSp (fun spatial => ocLoop jcp args nthrIn (fuel jcp) part spatial ic) (fun s => s.step.sp)
        (fuel jcp) part.startSp s =
      some (((spStarts jcp part).flatMap fun spatial => ocCalls jcp part spatial ic).foldl
        (call jcp args nthrIn part) s) := by
  have hbody : ∀ spatial (s : State R), spatial < part.endSp → True →
      ocLoop jcp args nthrIn (fuel jcp) part spatial ic s =
          some ((ocCalls jcp part spatial ic).foldl (call jcp args nthrIn part) s) ∧ True ∧
        ((ocCalls jcp part spatial ic).foldl (call jcp args nthrIn part) s).step.sp = lenSp jcp part spatial := by
    intro spatial s _ _
    refine ⟨ocLoop_eq h hin spatial ic s, trivial, ?_⟩
    apply foldl_call_step (ocCalls_ne_nil hne hin spatial ic)
    intro c hc
    unfold Call.step
    rw [(mem_ocCalls hc).1]
  rw [(forSteps_eq _ _ h.lenSp_pos hbody hin.fuel_sp trivial).1, List.foldl_flatMap]
  rfl

/-- The loop over the input channels, inside the loop over the positions. -/
theorem icLoop_eq (spatial : ℕ) (s : State R) :
    forSteps jcp.ic (fun ic => ocLoop jcp args nthrIn (fuel jcp) part spatial ic) (fun s => s.step.ic)
        (fuel jcp) 0 s =
      some (((icStarts jcp).flatMap fun ic => ocCalls jcp part spatial ic).foldl
        (call jcp args nthrIn part) s) := by
  have hbody : ∀ ic (s : State R), ic < jcp.ic → True →
      ocLoop jcp args nthrIn (fuel jcp) part spatial ic s =
          some ((ocCalls jcp part spatial ic).foldl (call jcp args nthrIn part) s) ∧ True ∧
        ((ocCalls jcp part spatial ic).foldl (call jcp args nthrIn part) s).step.ic = lenIc jcp ic := by
    intro ic s _ _
    refine ⟨ocLoop_eq h hin spatial ic s, trivial, ?_⟩
    apply foldl_call_step (ocCalls_ne_nil hne hin spatial ic)
    intro c hc
    unfold Call.step
    rw [(mem_ocCalls hc).2.1]
  rw [(forSteps_eq _ _ h.lenIc_pos hbody (fuel_ic jcp) trivial).1, List.foldl_flatMap]
  rfl

theorem loops_eq_of_nonempty (hic : 0 < jcp.ic) (s : State R) :
    loops jcp args nthrIn (fuel jcp) part s = some ((calls jcp part).foldl (call jcp args nthrIn part) s) := by
  unfold loops calls
  cases jcp.loopOrder with
  | rlb =>
    have hsp : part.startSp ∈ spStarts jcp part := by
      unfold Part.Empty at hne
      obtain ⟨rest, hrest, -⟩ := starts_eq_cons (lenSp jcp part) (by omega : part.startSp < part.endSp) hin.fuel_sp
      unfold spStarts
      rw [hrest]
      exact List.mem_cons_self
    have hbody : ∀ ic (s : State R), ic < jcp.ic → True →
        forSteps part.endSp (fun spatial => ocLoop jcp args nthrIn (fuel jcp) part spatial ic) (fun s => s.step.sp)
              (fuel jcp) part.startSp s =
            some (((spStarts jcp part).flatMap fun spatial => ocCalls jcp part spatial ic).foldl
              (call jcp args nthrIn part) s) ∧ True ∧
          (((spStarts jcp part).flatMap fun spatial => ocCalls jcp part spatial ic).foldl
            (call jcp args nthrIn part) s).step.ic = lenIc jcp ic := by
      intro ic s _ _
      refine ⟨spLoop_eq h hin hne ic s, trivial, ?_⟩
      apply foldl_call_step
      · intro hnil
        exact ocCalls_ne_nil hne hin _ ic (List.flatMap_eq_nil_iff.mp hnil part.startSp hsp)
      · intro c hc
        obtain ⟨spatial, -, hc⟩ := List.mem_flatMap.mp hc
        unfold Call.step
        rw [(mem_ocCalls hc).2.1]
    dsimp only
    rw [(forSteps_eq _ _ h.lenIc_pos hbody (fuel_ic jcp) trivial).1]
    unfold icStarts ocCalls
    rw [List.foldl_flatMap]
  | lrb =>
    have hic0 : 0 ∈ icStarts jcp := by
      obtain ⟨rest, hrest, -⟩ := starts_eq_cons (lenIc jcp) hic (fuel_ic jcp)
      unfold icStarts
      rw [hrest]
      exact List.mem_cons_self
    have hbody : ∀ spatial (s : State R), spatial < part.endSp → True →
        forSteps jcp.ic (fun ic => ocLoop jcp args nthrIn (fuel jcp) part spatial ic) (fun s => s.step.ic)
              (fuel jcp) 0 s =
            some (((icStarts jcp).flatMap fun ic => ocCalls jcp part spatial ic).foldl
              (call jcp args nthrIn part) s) ∧ True ∧
          (((icStarts jcp).flatMap fun ic => ocCalls jcp part spatial ic).foldl
            (call jcp args nthrIn part) s).step.sp = lenSp jcp part spatial := by
      intro spatial s _ _
      refine ⟨icLoop_eq h hin hne spatial s, trivial, ?_⟩
      apply foldl_call_step
      · intro hnil
        exact ocCalls_ne_nil hne hin spatial _ (List.flatMap_eq_nil_iff.mp hnil 0 hic0)
      · intro c hc
        obtain ⟨ic, -, hc⟩ := List.mem_flatMap.mp hc
        unfold Call.step
        rw [(mem_ocCalls hc).1]
    dsimp only
    rw [(forSteps_eq _ _ h.lenSp_pos hbody hin.fuel_sp trivial).1]
    unfold spStarts ocCalls
    rw [List.foldl_flatMap]

end Nonempty

end MklDnn.GemmConvolutionFwd
