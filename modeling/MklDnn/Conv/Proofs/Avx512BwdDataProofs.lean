import MklDnn.Common.Proofs.NdIteratorProofs
import MklDnn.Conv.Avx512
import MklDnn.Conv.Proofs.Avx512ChoicesProofs
import MklDnn.Conv.Proofs.Avx512WindowProofs

/-!
# Proofs: the pipelines

The generated code is called with the arguments of the pipeline, each call one step late; a field that does not take part
is zero throughout.
-/

namespace MklDnn.Avx512

/-- The fields that do not take part in a pipeline are zero. -/
def KernelCall.Fixed (kd owb : Bool) (c : KernelCall) : Prop := (kd = false → c.kdPadding = 0) ∧ (owb = false → c.owb = 0)

theorem KernelCall.zero_fixed (kd owb : Bool) : KernelCall.zero.Fixed kd owb := ⟨fun _ => rfl, fun _ => rfl⟩

/-- What fits a pipeline with fewer fields fits one with more. -/
theorem KernelCall.Fixed.mono {kd owb kd' owb' : Bool} {c : KernelCall} (h : c.Fixed (kd && kd') (owb && owb')) :
    c.Fixed kd owb ∧ c.Fixed kd' owb' := by
  obtain ⟨hkd, howb⟩ := h
  refine ⟨⟨fun h => hkd ?_, fun h => howb ?_⟩, fun h => hkd ?_, fun h => howb ?_⟩
  all_goals simp [h]

variable {kd owb : Bool} {p : CallS}

/-- A step makes the delayed call and keeps the new arguments. -/
theorem pipeline_snd (hcur : p.cur.Fixed kd owb) (hprf : p.prf.Fixed kd owb) (args : KernelCall) :
    (pipeline kd owb p args).1.cur = p.prf ∧
      (pipeline kd owb p args).2 = if p.prf.src.isSome then [p.prf] else [] := by
  obtain ⟨hkd, howb⟩ := hcur
  obtain ⟨hkd', howb'⟩ := hprf
  have hk : (if kd then p.prf.kdPadding else p.cur.kdPadding) = p.prf.kdPadding := by
    split_ifs with h
    · rfl
    · have h : kd = false := by simpa using h
      rw [hkd h, hkd' h]
  have ho : (if owb then p.prf.owb else p.cur.owb) = p.prf.owb := by
    split_ifs with h
    · rfl
    · have h : owb = false := by simpa using h
      rw [howb h, howb' h]
  have hshift : (pipeline kd owb p args).1.cur = p.prf := by
    unfold pipeline
    dsimp only
    rw [hk, ho]
  have hcall : (pipeline kd owb p args).2 =
      if (pipeline kd owb p args).1.cur.src.isSome then [(pipeline kd owb p args).1.cur] else [] := rfl
  rw [hcall, hshift]
  exact ⟨rfl, rfl⟩

theorem pipeline_prf (hprf : p.prf.Fixed kd owb) {args : KernelCall} (hargs : args.Fixed kd owb) :
    (pipeline kd owb p args).1.prf = args := by
  obtain ⟨hkd, howb⟩ := hprf
  obtain ⟨hkd', howb'⟩ := hargs
  have hk : (if kd then args.kdPadding else p.prf.kdPadding) = args.kdPadding := by
    split_ifs with h
    · rfl
    · have h : kd = false := by simpa using h
      rw [hkd h, hkd' h]
  have ho : (if owb then args.owb else p.prf.owb) = args.owb := by
    split_ifs with h
    · rfl
    · have h : owb = false := by simpa using h
      rw [howb h, howb' h]
  unfold pipeline
  dsimp only
  rw [hk, ho]

/-- A run of a pipeline and the call that flushes it, which may be of another pipeline. -/
theorem runPipeline_flush {kd' owb' : Bool} {args : List KernelCall}
    (hargs : ∀ a ∈ args, a.src.isSome = true ∧ a.Fixed (kd && kd') (owb && owb'))
    (hcur : p.cur.Fixed (kd && kd') (owb && owb')) (hprf : p.prf.Fixed (kd && kd') (owb && owb')) (last : KernelCall) :
    (runPipeline (pipeline kd owb) p args).2 ++
        (pipeline kd' owb' (runPipeline (pipeline kd owb) p args).1 last).2 =
      (if p.prf.src.isSome then [p.prf] else []) ++ args := by
  induction args generalizing p with
  | nil =>
    rw [runPipeline, List.nil_append, (pipeline_snd hcur.mono.2 hprf.mono.2 last).2, List.append_nil]
  | cons a args ih =>
    obtain ⟨hsrc, ha⟩ := hargs a List.mem_cons_self
    obtain ⟨hcur', hcall⟩ := pipeline_snd hcur.mono.1 hprf.mono.1 a
    have hprf' := pipeline_prf (p := p) hprf.mono.1 ha.mono.1
    have hrest := ih (fun b hb => hargs b (List.mem_cons_of_mem a hb)) (p := (pipeline kd owb p a).1)
      (by rw [hcur']; exact hprf) (by rw [hprf']; exact ha)
    rw [hprf', if_pos hsrc] at hrest
    rw [runPipeline]
    dsimp only
    rw [List.append_assoc, hrest, hcall]
    rfl

/-- The generated code is called with the arguments, in their order. -/
theorem pipelinedCalls_eq {kd' owb' : Bool} {args : List KernelCall}
    (hargs : ∀ a ∈ args, a.src.isSome = true ∧ a.Fixed (kd && kd') (owb && owb')) (last : KernelCall) :
    pipelinedCalls (pipeline kd owb) (pipeline kd' owb') args last = args := by
  have h := runPipeline_flush (p := CallS.init) hargs (KernelCall.zero_fixed _ _) (KernelCall.zero_fixed _ _) last
  exact h

end MklDnn.Avx512

/-!
## Proofs: the drivers of the AVX-512 backward data convolution

The calls of all threads, and the rows that they read and store.
-/

open LoopNest

namespace MklDnn.Avx512BwdData

open Avx512

namespace Problem

variable {p : Problem} {isa : CpuIsa} {l1CacheSize : ℕ} {jcp : Jcp}

/-! ## The arguments of a call -/

/-- The call for a row of `diff_src` and a block of output channels, in rows of the tensors. -/
def callAt (p : Problem) (jcp : Jcp) (c : Counters) (ocb : ℕ) : KernelCall where
  src := some (p.srcRow c.n (c.g * p.nbIc + c.icc * jcp.nbIcBlocking : ℕ) c.id c.ih)
  dst := p.dstRow c.n (c.g * p.nbOc + ocb : ℕ) (p.depth.window c.id).oj (p.height.window c.ih).oj
  filt := p.whtRow c.g ocb (c.icc * jcp.nbIcBlocking : ℕ) (p.depth.window c.id).lo (p.height.window c.ih).lo
  bias := none
  channel := ocb
  khPadding := (p.height.window c.ih).len
  kdPadding := if p.ndims = 5 then (p.depth.window c.id).len else 0
  owb := 0

theorem blkOff_one (md : MemoryDesc) (a : ℤ) : md.blkOff [a] = a * md.blocking.strides 0 + md.offset0 := by
  simp [MemoryDesc.blkOff]

theorem blkOff_two (md : MemoryDesc) (a b : ℤ) :
    md.blkOff [a, b] = a * md.blocking.strides 0 + b * md.blocking.strides 1 + md.offset0 := by
  simp [MemoryDesc.blkOff]

/-- Without a depth, one position of the filter meets the one input depth. -/
theorem depth_of_rank_four (hr : p.ndims = 4) : p.depth = ⟨1, 1, 1, 0, 1, 0⟩ := by
  rw [depth, if_neg (by omega)]

theorem window_unit : (⟨1, 1, 1, 0, 1, 0⟩ : Axis).window 0 = ⟨1, 0, 0⟩ := rfl

namespace Accepted

variable (h : p.Accepted isa l1CacheSize jcp)

include h

theorem args2d_eq (hr : p.ndims = 4) (ocbL2 : ℕ) {c : Counters} (hid : c.id = 0) (ocb : ℕ) :
    p.args2d jcp ocbL2 c ocb = p.callAt jcp c ocb := by
  have hsrc := h.wellFormed.src_offset0
  have hdst := h.wellFormed.dst_offset0
  have hwei := h.wellFormed.wei_offset0
  unfold args2d callAt srcRow dstRow whtRow whtBlkOff spatial
  rw [depth_of_rank_four hr, hid]
  simp only [hr, Nat.reduceEqDiff, if_false, List.cons_append, List.nil_append, Nat.cast_zero, window_unit,
    KernelCall.mk.injEq, and_true, Option.some.injEq, blkOff_two, blkOff_three, hsrc, hdst]
  refine ⟨by push_cast; ring, by push_cast; ring, ?_⟩
  split_ifs
  · simp only [blkOff_four, hwei]
    push_cast
    ring
  · simp only [blkOff_one, hwei]
    push_cast
    ring

theorem args3d_eq (hr : p.ndims = 5) (ocbL2 : ℕ) (c : Counters) (ocb : ℕ) :
    p.args3d jcp ocbL2 c ocb = p.callAt jcp c ocb := by
  have hsrc := h.wellFormed.src_offset0
  have hdst := h.wellFormed.dst_offset0
  have hwei := h.wellFormed.wei_offset0
  unfold args3d callAt srcRow dstRow whtRow whtBlkOff spatial
  simp only [hr, if_true, List.cons_append, List.nil_append, KernelCall.mk.injEq, and_true, Option.some.injEq,
    blkOff_two, blkOff_three, blkOff_four, hsrc, hdst]
  refine ⟨by push_cast; ring, by push_cast; ring, ?_⟩
  split_ifs
  · simp only [blkOff_five, hwei]
    push_cast
    ring
  · simp only [blkOff_one, hwei]
    push_cast
    ring

/-! ## The rows of a call -/

theorem storedRow_callAt {c : Counters} (hid : p.ndims = 4 → c.id = 0) (ocb k : ℕ) :
    p.storedRow (p.callAt jcp c ocb) k =
      some (p.srcRow c.n (c.g * p.nbIc + (c.icc * jcp.nbIcBlocking + k) : ℕ) c.id c.ih) := by
  have hid' : p.ndims = 4 → (c.id : ℤ) = 0 := fun hr => by rw [hid hr]; rfl
  show some _ = some _
  rw [h.srcRow_eq hid', h.srcRow_eq hid']
  push_cast
  congr 1
  ring

end Accepted

/-- A walk along rows of tensors, as a walk in rows. -/
theorem walk_map {F G : ℤ → ℤ} {fs ds sF sG : ℤ} (hF : ∀ x y, F (x + y) = F x + y * sF)
    (hG : ∀ x y, G (x + y) = G x + y * sG) (len lo oj : ℤ) :
    walk len (F lo) (G oj) (fs * sF) (ds * sG) = (walk len lo oj fs ds).map fun x => (F x.1, G x.2) := by
  unfold walk
  rw [List.map_map]
  refine List.map_congr_left fun t _ => ?_
  have hsub : G (oj - t * ds) = G oj - t * (ds * sG) := by
    rw [sub_eq_add_neg, hG]
    ring
  show (F lo + t * (fs * sF), G oj - t * (ds * sG)) = (F (lo + t * fs), G (oj - t * ds))
  rw [hF, hsub, mul_assoc]

/-- The rows that a call should multiply: the given pairs of depths and of rows. -/
def rowPairs (p : Problem) (n g ocb icb : ℕ) (depths rows : List (ℤ × ℤ)) : List (ℤ × ℤ) :=
  depths.flatMap fun d => rows.map fun y =>
    (p.whtRow g ocb icb d.1 y.1, p.dstRow n (g * p.nbOc + ocb : ℕ) d.2 y.2)

namespace Accepted

variable (h : p.Accepted isa l1CacheSize jcp)

include h

/-- The loop over the rows, for the block `k` of input channels. -/
theorem walk_rows (n g ocb icb k : ℕ) (lo oj len : ℤ) (steps : ℕ × ℕ) {x : ℤ × ℤ}
    (hx : p.ndims = 4 → x = (0, 0)) :
    walk len (p.whtRow g ocb icb x.1 lo + (k * p.height.kernel * p.width.kernel * p.depth.kernel : ℕ) * (16 * 16))
        (p.dstRow n (g * p.nbOc + ocb : ℕ) x.2 oj) ((steps.1 * p.width.kernel : ℕ) * (16 * 16))
        ((steps.2 * p.width.output : ℕ) * 16) =
      (walk len lo oj steps.1 steps.2).map fun y =>
        (p.whtRow g ocb (icb + k : ℕ) x.1 y.1, p.dstRow n (g * p.nbOc + ocb : ℕ) x.2 y.2) := by
  have hx1 : p.ndims = 4 → x.1 = 0 := fun hr => by rw [hx hr]
  have hx2 : p.ndims = 4 → x.2 = 0 := fun hr => by rw [hx hr]
  have hwht : ∀ y z : ℤ, p.whtRow g ocb (icb + k : ℕ) x.1 (y + z) =
      p.whtRow g ocb (icb + k : ℕ) x.1 y + z * (p.width.kernel * (16 * 16)) := by
    intro y z
    rw [h.whtRow_eq hx1, h.whtRow_eq hx1]
    ring
  have hdst : ∀ y z : ℤ, p.dstRow n (g * p.nbOc + ocb : ℕ) x.2 (y + z) =
      p.dstRow n (g * p.nbOc + ocb : ℕ) x.2 y + z * (p.width.output * 16) := by
    intro y z
    rw [h.dstRow_eq hx2, h.dstRow_eq hx2]
    ring
  rw [← walk_map hwht hdst]
  congr 1
  · rw [h.whtRow_eq hx1, h.whtRow_eq hx1]
    push_cast
    ring
  · push_cast
    ring
  · push_cast
    ring

/-- The loop over the depths. -/
theorem walk_depths (hr : p.ndims = 5) (n g ocb icb : ℕ) (lo oj len : ℤ) (dlo doj : ℤ) (steps : ℕ × ℕ) :
    walk len (p.whtRow g ocb icb dlo lo) (p.dstRow n (g * p.nbOc + ocb : ℕ) doj oj)
        ((steps.1 * p.width.kernel * p.height.kernel : ℕ) * (16 * 16))
        ((steps.2 * (p.height.output * p.width.output) : ℕ) * 16) =
      (walk len dlo doj steps.1 steps.2).map fun d =>
        (p.whtRow g ocb icb d.1 lo, p.dstRow n (g * p.nbOc + ocb : ℕ) d.2 oj) := by
  have hne : ∀ {x : ℤ}, p.ndims = 4 → x = 0 := fun h4 => by omega
  have hwht : ∀ y z : ℤ, p.whtRow g ocb icb (y + z) lo =
      p.whtRow g ocb icb y lo + z * (p.width.kernel * p.height.kernel * (16 * 16)) := by
    intro y z
    rw [h.whtRow_eq (d := y + z) hne, h.whtRow_eq (d := y) hne]
    ring
  have hdst : ∀ y z : ℤ, p.dstRow n (g * p.nbOc + ocb : ℕ) (y + z) oj =
      p.dstRow n (g * p.nbOc + ocb : ℕ) y oj + z * (p.height.output * p.width.output * 16) := by
    intro y z
    rw [h.dstRow_eq (d := y + z) hne, h.dstRow_eq (d := y) hne]
    ring
  rw [← walk_map (F := fun d => p.whtRow g ocb icb d lo) (G := fun d => p.dstRow n (g * p.nbOc + ocb : ℕ) d oj) hwht hdst]
  congr 1
  · push_cast
    ring
  · push_cast
    ring

/-- The rows that a call multiplies are those of its windows. -/
theorem walkedRows_callAt {c : Counters} (hid : p.ndims = 4 → c.id = 0) (ocb : ℕ) {k : ℕ} (hk : k < jcp.nbIcBlocking) :
    p.walkedRows jcp isa (p.callAt jcp c ocb) k =
      p.rowPairs c.n c.g ocb (c.icc * jcp.nbIcBlocking + k)
        (p.depth.walked c.id ((jcp.computeLoop isa).steps p.depth))
        (p.height.walked c.ih ((jcp.computeLoop isa).steps p.height)) := by
  have hone : ¬ (jcp.computeLoop isa = .computeLoopFma ∧ k ≠ 0) := by
    rintro ⟨hloop, hne⟩
    have := h.choices.one_block hloop
    omega
  unfold walkedRows rowPairs Axis.walked
  dsimp only [callAt]
  generalize (jcp.computeLoop isa).steps p.height = steps
  generalize (jcp.computeLoop isa).steps p.depth = dsteps
  have hnorows : (p.height.window c.ih).len ≤ 0 →
      walk (p.height.window c.ih).len (p.height.window c.ih).lo (p.height.window c.ih).oj steps.1 steps.2 = [] :=
    walk_eq_nil_iff.mpr
  rcases h.wellFormed.rank with hr | hr
  · have hne : p.ndims ≠ 5 := by omega
    have hw : p.depth.window c.id = ⟨1, 0, 0⟩ := by
      rw [depth_of_rank_four hr, hid hr]
      rfl
    have hd : walk 1 0 0 dsteps.1 dsteps.2 = [((0 : ℤ), (0 : ℤ))] := by simp [walk]
    simp only [hne, if_false, false_and, false_or, hw]
    rw [hd, List.flatMap_singleton]
    by_cases hrows : (p.height.window c.ih).len ≤ 0
    · rw [if_pos hrows, hnorows hrows, List.map_nil]
    · rw [if_neg hrows, if_neg hone]
      exact h.walk_rows c.n c.g ocb (c.icc * jcp.nbIcBlocking) k (p.height.window c.ih).lo (p.height.window c.ih).oj
        (p.height.window c.ih).len steps (x := (0, 0)) fun _ => rfl
  · simp only [hr, if_true, true_and]
    by_cases hrows : (p.height.window c.ih).len ≤ 0
    · rw [if_pos (Or.inr hrows), hnorows hrows]
      simp
    · by_cases hdepths : (p.depth.window c.id).len ≤ 0
      · have hnil : walk (p.depth.window c.id).len (p.depth.window c.id).lo (p.depth.window c.id).oj dsteps.1 dsteps.2 =
            [] := walk_eq_nil_iff.mpr hdepths
        rw [if_pos (Or.inl hdepths), hnil, List.flatMap_nil]
      · rw [if_neg (by omega), if_neg hone, h.walk_depths hr, List.flatMap_map]
        refine List.flatMap_congr fun d _ => ?_
        exact h.walk_rows c.n c.g ocb (c.icc * jcp.nbIcBlocking) k (p.height.window c.ih).lo (p.height.window c.ih).oj
          (p.height.window c.ih).len steps (x := d) fun h4 => by omega

end Accepted

/-! ## The loops -/

section Loops

/-- The extents of the counters, apart from the rows. -/
def outerExtents (p : Problem) (jcp : Jcp) : List ℕ :=
  (match jcp.loopOrder with
    | .cgn => [p.icChunks jcp, p.ngroups, p.mb]
    | _ => [p.ngroups, p.mb, p.icChunks jcp]) ++ if p.ndims = 4 then [] else [p.depth.input]

/-- The extents of all counters. -/
def allExtents (p : Problem) (jcp : Jcp) : List ℕ := p.outerExtents jcp ++ [p.height.input]

/-- The counters at an iteration. -/
def countersAt (p : Problem) (jcp : Jcp) (w : ℕ) : Counters :=
  counters jcp (if p.ndims = 4 then spatial2d else spatial3d) (ndIndex (p.allExtents jcp) w)

/-- The counters are in their ranges. -/
structure Counters.InRange (p : Problem) (jcp : Jcp) (c : Counters) : Prop where
  n : c.n < p.mb
  g : c.g < p.ngroups
  icc : c.icc < p.icChunks jcp
  id : c.id < p.depth.input
  ih : c.ih < p.height.input

/-- The list that the counters are read from. -/
def Counters.toList (p : Problem) (jcp : Jcp) (c : Counters) : List ℕ :=
  (match jcp.loopOrder with
    | .cgn => [c.icc, c.g, c.n]
    | _ => [c.g, c.n, c.icc]) ++ (if p.ndims = 4 then [] else [c.id]) ++ [c.ih]

theorem countersOf_toList {c : Counters} (hid : p.ndims = 4 → c.id = 0) :
    counters jcp (if p.ndims = 4 then spatial2d else spatial3d) (c.toList p jcp) = c := by
  obtain ⟨n, g, icc, id, ih⟩ := c
  dsimp only at hid
  unfold counters Counters.toList
  by_cases hr : p.ndims = 4
  · obtain rfl := hid hr
    simp only [hr, if_true]
    cases jcp.loopOrder <;> rfl
  · simp only [hr, if_false]
    cases jcp.loopOrder <;> rfl

theorem toList_lt_iff {c : Counters} (hid : p.ndims = 4 → c.id = 0) (hdepth : p.ndims = 4 → p.depth.input = 1) :
    List.Forall₂ (· < ·) (c.toList p jcp) (p.allExtents jcp) ↔ c.InRange p jcp := by
  unfold allExtents outerExtents Counters.toList
  by_cases hr : p.ndims = 4
  · have hid := hid hr
    have hdepth := hdepth hr
    simp only [hr, if_true]
    cases jcp.loopOrder <;>
      simp only [List.append_nil, List.cons_append, List.nil_append, List.forall₂_cons, List.forall₂_nil_right_iff,
        and_true] <;>
      exact ⟨fun h => ⟨by omega, by omega, by omega, by omega, by omega⟩, fun h => by
        obtain ⟨h1, h2, h3, h4, h5⟩ := h
        omega⟩
  · simp only [hr, if_false]
    cases jcp.loopOrder <;>
      simp only [List.cons_append, List.nil_append, List.forall₂_cons, List.forall₂_nil_right_iff, and_true] <;>
      exact ⟨fun h => ⟨by omega, by omega, by omega, by omega, by omega⟩, fun h => by
        obtain ⟨h1, h2, h3, h4, h5⟩ := h
        omega⟩

/-- Every list below the extents is that of its counters. -/
theorem toList_countersOf {xs : List ℕ} (hxs : List.Forall₂ (· < ·) xs (p.allExtents jcp)) :
    (counters jcp (if p.ndims = 4 then spatial2d else spatial3d) xs).toList p jcp = xs ∧
      (p.ndims = 4 → (counters jcp (if p.ndims = 4 then spatial2d else spatial3d) xs).id = 0) := by
  have hlen := hxs.length_eq
  unfold allExtents outerExtents at hlen
  unfold counters Counters.toList
  by_cases hr : p.ndims = 4
  · simp only [hr, if_true] at hlen ⊢
    have hfour : xs.length = 4 := by
      cases horder : jcp.loopOrder <;> rw [horder] at hlen <;> exact hlen
    obtain ⟨_, _, _, _, rfl⟩ := List.length_eq_four.mp hfour
    cases horder : jcp.loopOrder <;> exact ⟨rfl, fun _ => rfl⟩
  · simp only [hr, if_false] at hlen ⊢
    have hfive : xs.length = 4 + 1 := by
      cases horder : jcp.loopOrder <;> rw [horder] at hlen <;> exact hlen
    obtain ⟨_, ys, rfl⟩ := List.exists_of_length_succ xs hfive
    obtain ⟨_, _, _, _, rfl⟩ := List.length_eq_four.mp (Nat.succ.inj hfive)
    cases horder : jcp.loopOrder <;> exact ⟨rfl, fun h => absurd h (by simp)⟩

/-- The last counter is the row. -/
theorem counters_append {xs : List ℕ} (hlen : xs.length = (p.outerExtents jcp).length) (y z : ℕ) :
    (counters jcp (if p.ndims = 4 then spatial2d else spatial3d) (xs ++ [y])).ih = y ∧
      { counters jcp (if p.ndims = 4 then spatial2d else spatial3d) (xs ++ [y]) with ih := z } =
        counters jcp (if p.ndims = 4 then spatial2d else spatial3d) (xs ++ [z]) := by
  unfold outerExtents at hlen
  unfold counters
  by_cases hr : p.ndims = 4
  · simp only [hr, if_true] at hlen ⊢
    have hthree : xs.length = 3 := by
      cases horder : jcp.loopOrder <;> rw [horder] at hlen <;> exact hlen
    obtain ⟨_, _, _, rfl⟩ := List.length_eq_three.mp hthree
    cases horder : jcp.loopOrder <;> exact ⟨rfl, rfl⟩
  · simp only [hr, if_false] at hlen ⊢
    have hfour : xs.length = 4 := by
      cases horder : jcp.loopOrder <;> rw [horder] at hlen <;> exact hlen
    obtain ⟨_, _, _, _, rfl⟩ := List.length_eq_four.mp hfour
    cases horder : jcp.loopOrder <;> exact ⟨rfl, rfl⟩

theorem length_ndIndex (dims : List ℕ) (i : ℕ) : (ndIndex dims i).length = dims.length := by
  induction dims with
  | nil => rfl
  | cons X Xs ih => rw [ndIndex_cons, List.length_cons, List.length_cons, ih]

theorem countersAt_ih (w : ℕ) : (p.countersAt jcp w).ih = w % p.height.input := by
  unfold countersAt allExtents
  rw [ndIndex_append]
  exact (counters_append (length_ndIndex _ _) _ 0).1

/-- The iterations of a row differ in the row counter. -/
theorem countersAt_row (hpos : 0 < p.height.input) {c w : ℕ} (hcw : c ≤ w) (hw : w < c + rowRest p.height.input c) :
    { p.countersAt jcp c with ih := w % p.height.input } = p.countersAt jcp w := by
  unfold countersAt allExtents
  rw [ndIndex_append, ndIndex_append, (counters_append (length_ndIndex _ _) _ (w % p.height.input)).2,
    (row_div_mod hpos hcw hw).1]

theorem countersAt_inRange (hdepth : p.ndims = 4 → p.depth.input = 1) {w : ℕ} (hw : w < (p.allExtents jcp).prod) :
    (p.countersAt jcp w).InRange p jcp ∧ (p.ndims = 4 → (p.countersAt jcp w).id = 0) := by
  have hxs := mem_map_ndIndex.mp (List.mem_map.mpr ⟨w, List.mem_range.mpr hw, rfl⟩)
  obtain ⟨hlist, hid⟩ := toList_countersOf hxs
  refine ⟨(toList_lt_iff hid hdepth).mp ?_, hid⟩
  rw [hlist]
  exact hxs

theorem exists_countersAt (hdepth : p.ndims = 4 → p.depth.input = 1) {c : Counters} (hc : c.InRange p jcp) :
    ∃ w < (p.allExtents jcp).prod, p.countersAt jcp w = c := by
  have hid : p.ndims = 4 → c.id = 0 := fun hr => by
    have hlt := hc.id
    rw [hdepth hr] at hlt
    omega
  obtain ⟨w, hw, heq⟩ := List.mem_map.mp (mem_map_ndIndex.mpr ((toList_lt_iff hid hdepth).mpr hc))
  refine ⟨w, List.mem_range.mp hw, ?_⟩
  rw [countersAt, heq, countersOf_toList hid]

theorem countersAt_inj {w w' : ℕ} (hw : w < (p.allExtents jcp).prod) (hw' : w' < (p.allExtents jcp).prod)
    (h : p.countersAt jcp w = p.countersAt jcp w') : w = w' := by
  have list : ∀ {w}, w < (p.allExtents jcp).prod → (p.countersAt jcp w).toList p jcp = ndIndex (p.allExtents jcp) w :=
    fun hw => (toList_countersOf (mem_map_ndIndex.mp (List.mem_map.mpr ⟨_, List.mem_range.mpr hw, rfl⟩))).1
  refine ndIndex_inj hw hw' ?_
  rw [← list hw, ← list hw', h]

/-- What the loops of a thread do for one iteration: one call for each block of output channels, in their order. -/
theorem filter_threadArgs (hpos : ∀ X ∈ p.allExtents jcp, 0 < X) (hL2 : 0 < jcp.nbOcL2) {P : KernelCall → Bool} {x : ℕ}
    (hP : ∀ w < (p.allExtents jcp).prod, ∀ ocb, P (p.callAt jcp (p.countersAt jcp w) ocb) = decide (w = x))
    {nthr ithr : ℕ} (hithr : ithr < nthr) :
    (p.threadArgs jcp (p.allExtents jcp) (counters jcp (if p.ndims = 4 then spatial2d else spatial3d))
        (fun _ => p.callAt jcp) nthr ithr).filter P =
      if (balance211 (p.allExtents jcp).prod nthr ithr).1 ≤ x ∧ x < (balance211 (p.allExtents jcp).prod nthr ithr).2 then
        (List.range p.nbOc).map (p.callAt jcp (p.countersAt jcp x))
      else [] := by
  have hIH : 0 < p.height.input := hpos _ (List.mem_append_right _ List.mem_cons_self)
  have hle := balance211_snd_le (n := (p.allExtents jcp).prod) hithr
  unfold threadArgs
  dsimp only
  generalize hrange : balance211 (p.allExtents jcp).prod nthr ithr = range at hle ⊢
  have hpasses : jumpPasses (p.allExtents jcp) nthr ithr =
      (starts (rowRest p.height.input) range.2 (range.2 - range.1) range.1).map fun c =>
        (c, ndIndex (p.allExtents jcp) c) := by
    rw [← hrange]
    exact jumpPasses_eq hpos nthr ithr
  have hl2 : ∀ l ∈ p.ocbL2s jcp, ((jumpPasses (p.allExtents jcp) nthr ithr).flatMap fun pass =>
      (p.ocbs jcp l).flatMap fun ocb =>
        (List.range' (counters jcp (if p.ndims = 4 then spatial2d else spatial3d) pass.2).ih
          (min p.height.input ((counters jcp (if p.ndims = 4 then spatial2d else spatial3d) pass.2).ih +
            (range.2 - pass.1)) - (counters jcp (if p.ndims = 4 then spatial2d else spatial3d) pass.2).ih)).map fun ij =>
          p.callAt jcp { counters jcp (if p.ndims = 4 then spatial2d else spatial3d) pass.2 with ih := ij } ocb).filter P =
      if range.1 ≤ x ∧ x < range.2 then (p.ocbs jcp l).map (p.callAt jcp (p.countersAt jcp x)) else [] := by
    intro l _
    rw [hpasses, List.flatMap_map]
    refine filter_flatMap_starts (fun c _ => rowRest_pos hIH c) (by omega) fun c hc => ?_
    have hcstop := (mem_starts hc).2
    have hrow : ∀ ocb, ((List.range' (p.countersAt jcp c).ih
        (min p.height.input ((p.countersAt jcp c).ih + (range.2 - c)) - (p.countersAt jcp c).ih)).map fun ij =>
          p.callAt jcp { p.countersAt jcp c with ih := ij } ocb) =
        (List.range' c (min range.2 (c + rowRest p.height.input c) - c)).map fun w =>
          p.callAt jcp (p.countersAt jcp w) ocb := by
      intro ocb
      rw [countersAt_ih, map_row hIH]
      refine List.map_congr_left fun w hw => ?_
      rw [List.mem_range'_1] at hw
      rw [countersAt_row hIH hw.1 (by omega)]
    show ((p.ocbs jcp l).flatMap fun ocb => (List.range' (p.countersAt jcp c).ih
        (min p.height.input ((p.countersAt jcp c).ih + (range.2 - c)) - (p.countersAt jcp c).ih)).map fun ij =>
          p.callAt jcp { p.countersAt jcp c with ih := ij } ocb).filter P = _
    simp only [hrow]
    have hsub : c + (min range.2 (c + rowRest p.height.input c) - c) = min range.2 (c + rowRest p.height.input c) := by
      have hrest := rowRest_pos hIH c
      omega
    rw [filter_flatMap_range' (x := x) fun w _ hw ocb _ => hP w (by omega) ocb, hsub]
  rw [List.filter_flatMap, List.flatMap_congr hl2]
  by_cases hx : range.1 ≤ x ∧ x < range.2
  · simp only [if_pos hx]
    rw [← List.map_flatMap]
    have hblocks : (p.ocbL2s jcp).flatMap (p.ocbs jcp) = List.range' 0 (p.nbOc - 0) :=
      flatMap_starts (fun _ _ => hL2) (by omega)
    rw [Nat.sub_zero, ← List.range_eq_range'] at hblocks
    exact congrArg (List.map (p.callAt jcp (p.countersAt jcp x))) hblocks
  · simp only [if_neg hx]
    exact List.flatMap_eq_nil_iff.mpr fun _ _ => rfl

end Loops

theorem nbOcL2Loop_pos {nbIcBlocking : ℕ} (hnb : 0 < p.nbOc) {fuel divf tempNb : ℕ} (hdivf : 0 < divf)
    (hfuel : divf + fuel ≤ p.nbOc + 1) (htemp : 0 < tempNb) : 0 < p.nbOcL2Loop nbIcBlocking fuel divf tempNb := by
  induction fuel generalizing divf tempNb with
  | zero => exact hnb
  | succ fuel ih =>
    rw [nbOcL2Loop]
    split_ifs
    · exact Nat.one_pos
    · exact ih (by omega) (by omega) (Nat.div_pos (by omega) hdivf)
    · exact ih (by omega) (by omega) hnb
    · exact htemp

theorem counters_spatial2d_id (xs : List ℕ) : (counters jcp spatial2d xs).id = 0 := by
  have hrest : ∀ ys, (spatial2d ys).1 = 0 := by
    intro ys
    unfold spatial2d
    split <;> rfl
  unfold counters
  split
  · split
    · exact hrest _
    · exact hrest _
  · rfl

namespace Accepted

variable (h : p.Accepted isa l1CacheSize jcp)

include h

theorem nbOcL2_pos : 0 < jcp.nbOcL2 := by
  have hnb := h.nbOc_pos
  have hL2 : jcp.nbOcL2 = p.nbOcL2 isa (p.blocking isa l1CacheSize).nbIcBlocking := by rw [h.configured.jcp_eq]
  rw [hL2, nbOcL2]
  split_ifs
  · exact nbOcL2Loop_pos hnb (by decide) (by omega) hnb
  · exact hnb

/-- The calls of the generated code are those of the loops. -/
theorem calls_eq (nthr ithr : ℕ) : p.calls jcp nthr ithr =
    p.threadArgs jcp (p.allExtents jcp) (counters jcp (if p.ndims = 4 then spatial2d else spatial3d))
      (fun _ => p.callAt jcp) nthr ithr := by
  unfold calls
  rcases h.wellFormed.rank with hr | hr
  · have hextents : p.extents jcp [p.height.input] = p.allExtents jcp := by
      rw [allExtents, outerExtents, if_pos hr, List.append_nil]
      rfl
    rw [if_pos hr, if_pos hr, executeBackwardData2d, jitConvKerPipeline, pipelinedCalls_eq, hextents]
    · unfold threadArgs
      refine List.flatMap_congr fun l _ => List.flatMap_congr fun pass _ => List.flatMap_congr fun ocb _ =>
        List.map_congr_left fun ij _ => ?_
      exact h.args2d_eq hr l (c := { counters jcp spatial2d pass.2 with ih := ij }) (counters_spatial2d_id pass.2) ocb
    · intro c hc
      unfold threadArgs at hc
      simp only [List.mem_flatMap, List.mem_map] at hc
      obtain ⟨l, -, pass, -, ocb, -, ij, -, rfl⟩ := hc
      exact ⟨rfl, fun _ => rfl, fun _ => rfl⟩
  · have hextents : p.extents jcp [p.depth.input, p.height.input] = p.allExtents jcp := by
      rw [allExtents, outerExtents, if_neg (by omega), List.append_assoc]
      rfl
    rw [if_neg (by omega), if_neg (by omega), executeBackwardData3d, jitConv3dKerPipeline, pipelinedCalls_eq, hextents]
    · unfold threadArgs
      refine List.flatMap_congr fun l _ => List.flatMap_congr fun pass _ => List.flatMap_congr fun ocb _ =>
        List.map_congr_left fun ij _ => ?_
      exact h.args3d_eq hr l _ ocb
    · intro c hc
      unfold threadArgs at hc
      simp only [List.mem_flatMap, List.mem_map] at hc
      obtain ⟨l, -, pass, -, ocb, -, ij, -, rfl⟩ := hc
      exact ⟨rfl, fun hkd => absurd hkd (by decide), fun _ => rfl⟩

/-! ## Who stores a row -/

theorem extents_pos : 0 < p.mb ∧ 0 < p.depth.input ∧ 0 < p.height.input ∧ 0 < p.width.input := by
  have hpos := h.wellFormed.src_pos
  unfold mb depth height width
  rcases h.wellFormed.rank with hr | hr
  · simp only [hr, Nat.reduceEqDiff, if_false, Nat.reduceSub]
    exact ⟨hpos 0 (by omega), Nat.one_pos, hpos 2 (by omega), hpos 3 (by omega)⟩
  · simp only [hr, Nat.reduceEqDiff, if_false, if_true, Nat.reduceSub]
    exact ⟨hpos 0 (by omega), hpos 2 (by omega), hpos 3 (by omega), hpos 4 (by omega)⟩

theorem allExtents_pos (hchunks : 0 < p.icChunks jcp) : ∀ X ∈ p.allExtents jcp, 0 < X := by
  obtain ⟨hmb, hid, hih, -⟩ := h.extents_pos
  have hg := h.ngroups_pos
  intro X hX
  unfold allExtents outerExtents at hX
  rcases List.mem_append.mp hX with hX | hX
  · rcases List.mem_append.mp hX with hX | hX
    · cases horder : jcp.loopOrder <;> rw [horder] at hX <;>
        simp only [List.mem_cons, List.not_mem_nil, or_false] at hX <;> rcases hX with rfl | rfl | rfl <;> assumption
    · split_ifs at hX
      · cases hX
      · obtain rfl := List.mem_singleton.mp hX
        exact hid
  · obtain rfl := List.mem_singleton.mp hX
    exact hih

/-- Different rows start at different places. -/
theorem srcRow_inj {n c d y n' c' d' y' : ℕ} (hc : c < p.ngroups * p.nbIc) (hc' : c' < p.ngroups * p.nbIc)
    (hd : d < p.depth.input) (hd' : d' < p.depth.input) (hy : y < p.height.input) (hy' : y' < p.height.input)
    (heq : p.srcRow n c d y = p.srcRow n' c' d' y') : n = n' ∧ c = c' ∧ d = d' ∧ y = y' := by
  have hfour : ∀ {d : ℕ}, d < p.depth.input → p.ndims = 4 → (d : ℤ) = 0 := by
    intro d hd hr
    rw [depth_of_rank_four hr] at hd
    have hd : d < 1 := hd
    omega
  have hwidth := h.extents_pos.2.2.2
  rw [h.srcRow_eq (hfour hd), h.srcRow_eq (hfour hd')] at heq
  have hcancel := Int.eq_of_mul_eq_mul_left (by positivity) heq
  have hnat : y + (d + (c + n * (p.ngroups * p.nbIc)) * p.depth.input) * p.height.input =
      y' + (d' + (c' + n' * (p.ngroups * p.nbIc)) * p.depth.input) * p.height.input := by
    zify
    linear_combination hcancel
  obtain ⟨hyy, hrest⟩ := add_mul_inj hy hy' hnat
  obtain ⟨hdd, hrest⟩ := add_mul_inj hd hd' hrest
  obtain ⟨hcc, hnn⟩ := add_mul_inj hc hc' hrest
  exact ⟨hnn, hcc, hdd, hyy⟩

end Accepted

end Problem

end MklDnn.Avx512BwdData
