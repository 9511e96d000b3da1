import MklDnn.Gemm.EntryPoints

/-!
# Proofs: entry points of GEMM

The checks see the narrowed sizes only. Sizes that do not fit an `int` are those of another product, and a call with
them goes through whenever that product passes the checks.
-/

namespace MklDnn.GemmApi

/-! ## Sizes -/

def InInt (x : BitVec 64) : Prop := -2 ^ 31 ≤ x.toInt ∧ x.toInt < 2 ^ 31

/-- All sizes and leading dimensions are values of an `int`. -/
structure Sizes.Fits (s : Sizes 64) : Prop where
  M : InInt s.M
  N : InInt s.N
  K : InInt s.K
  lda : InInt s.lda
  ldb : InInt s.ldb
  ldc : InInt s.ldc

theorem toInt_narrow_eq_iff (x : BitVec 64) : (x.setWidth 32).toInt = x.toInt ↔ InInt x := by
  unfold InInt
  rw [BitVec.toInt_setWidth, BitVec.toInt_eq_toNat_bmod, Int.bmod_def, Int.bmod_def]
  have := x.isLt
  split_ifs <;> omega

theorem matches_colMajor_iff (a : Args 64) : a.colMajor.sizes.Matches a.sizes ↔ a.sizes.Fits := by
  constructor
  · intro h
    exact ⟨(toInt_narrow_eq_iff _).mp h.N, (toInt_narrow_eq_iff _).mp h.M, (toInt_narrow_eq_iff _).mp h.K,
      (toInt_narrow_eq_iff _).mp h.ldb, (toInt_narrow_eq_iff _).mp h.lda, (toInt_narrow_eq_iff _).mp h.ldc⟩
  · intro h
    exact ⟨(toInt_narrow_eq_iff _).mpr h.N, (toInt_narrow_eq_iff _).mpr h.M, (toInt_narrow_eq_iff _).mpr h.K,
      (toInt_narrow_eq_iff _).mpr h.ldb, (toInt_narrow_eq_iff _).mpr h.lda, (toInt_narrow_eq_iff _).mpr h.ldc⟩

/-! ## Outcomes -/

/-- The checks of the entry points on the narrowed arguments. -/
def Entry.check (cfg : Config) (a : Args 32) : Entry → Except Status Unit
  | .sgemm => checkGemmInput a false
  | .gemmU8s8s32 | .gemmS8s8s32 => checkGemmX8x8x32Input a false
  | .gemmBf16bf16f32 => do
    checkGemmInput a false
    if cfg.avx512Core then .ok () else .error .unimplemented

/-- The entry points that return before they call a driver if a narrowed size is zero. -/
def Entry.isX8x8x32 : Entry → Bool
  | .gemmU8s8s32 | .gemmS8s8s32 => true
  | .sgemm | .gemmBf16bf16f32 => false

section Outcome

variable {cfg : Config} {a : Args 64} {e : Entry}

theorem outcome_of_error {status : Status} (h : e.check cfg a.colMajor = .error status) :
    e.outcome cfg a = .error status := by
  cases e with
  | sgemm =>
    change checkGemmInput a.colMajor false = .error status at h
    simp [Entry.outcome, extendedSgemm, h]
  | gemmU8s8s32 =>
    change checkGemmX8x8x32Input a.colMajor false = .error status at h
    simp [Entry.outcome, gemmS8u8s32, h]
  | gemmS8s8s32 =>
    change checkGemmX8x8x32Input a.colMajor false = .error status at h
    simp [Entry.outcome, gemmS8s8s32, h]
  | gemmBf16bf16f32 =>
    change (checkGemmInput a.colMajor false >>= fun _ => if cfg.avx512Core then .ok () else .error .unimplemented) =
      .error status at h
    rcases hcheck : checkGemmInput a.colMajor false with status' | _
    · rw [hcheck] at h
      obtain rfl : status' = status := Except.error.inj h
      simp [Entry.outcome, gemmBf16bf16f32, hcheck]
    · rw [hcheck] at h
      change (if cfg.avx512Core then .ok () else .error .unimplemented) = Except.error status at h
      split_ifs at h with hisa
      obtain rfl : .unimplemented = status := Except.error.inj h
      simp [Entry.outcome, gemmBf16bf16f32, hcheck, hisa]

theorem outcome_of_empty (h : e.check cfg a.colMajor = .ok ()) (hint8 : e.isX8x8x32 = true)
    (hempty : isEmpty a.colMajor.sizes = true) : e.outcome cfg a = .success := by
  cases e with
  | sgemm => exact absurd hint8 (by decide)
  | gemmU8s8s32 =>
    change checkGemmX8x8x32Input a.colMajor false = .ok () at h
    simp [Entry.outcome, gemmS8u8s32, h, hempty]
  | gemmS8s8s32 =>
    change checkGemmX8x8x32Input a.colMajor false = .ok () at h
    simp [Entry.outcome, gemmS8s8s32, h, hempty]
  | gemmBf16bf16f32 => exact absurd hint8 (by decide)

/-- Where something is computed, the driver gets the narrowed sizes. -/
theorem outcome_of_ok (h : e.check cfg a.colMajor = .ok ())
    (hfull : e.isX8x8x32 = true → isEmpty a.colMajor.sizes = false) :
    ∃ inner args, e.outcome cfg a = .call inner args ∧ args.sizes = a.colMajor.sizes := by
  cases e with
  | sgemm =>
    change checkGemmInput a.colMajor false = .ok () at h
    simp only [Entry.outcome, extendedSgemm, Option.isSome_none, h]
    split_ifs <;> exact ⟨_, _, rfl, rfl⟩
  | gemmU8s8s32 =>
    change checkGemmX8x8x32Input a.colMajor false = .ok () at h
    simp only [Entry.outcome, gemmS8u8s32, h, hfull rfl, Bool.false_eq_true, if_false]
    split_ifs <;> exact ⟨_, _, rfl, rfl⟩
  | gemmS8s8s32 =>
    change checkGemmX8x8x32Input a.colMajor false = .ok () at h
    simp only [Entry.outcome, GemmApi.gemmS8s8s32, h, hfull rfl, Bool.false_eq_true, if_false]
    split_ifs <;> exact ⟨_, _, rfl, rfl⟩
  | gemmBf16bf16f32 =>
    change (checkGemmInput a.colMajor false >>= fun _ => if cfg.avx512Core then Except.ok () else .error .unimplemented) =
      .ok () at h
    rcases hcheck : checkGemmInput a.colMajor false with status' | _
    · rw [hcheck] at h
      exact absurd h (by simp [bind, Except.bind])
    · rw [hcheck] at h
      change (if cfg.avx512Core then Except.ok () else .error Status.unimplemented) = Except.ok () at h
      split_ifs at h with hisa
      simp only [Entry.outcome, GemmApi.gemmBf16bf16f32, hcheck, hisa]
      exact ⟨_, _, rfl, rfl⟩

end Outcome

/-! ## The product of the caller -/

theorem meets_error {status : Status} {s : Sizes 64} : ∀ drivers C, (Outcome.error status).Meets drivers C s :=
  fun _ _ => Or.inl rfl

theorem meets_success_iff {s : Sizes 64} : (∀ drivers C, Outcome.success.Meets drivers C s) ↔ s.Empty := by
  constructor
  · intro h
    rcases h (fun _ _ C => (.ok (), C)) (fun _ => 0) with ⟨_, _, hcall, -⟩ | ⟨hempty, -⟩
    · cases hcall
    · exact hempty
  · exact fun h _ _ => Or.inr ⟨h, rfl⟩

/-- A driver may succeed, and it may write the matrix. -/
theorem meets_call_iff {inner : Inner} {args : Args 32} {s : Sizes 64} :
    (∀ drivers C, (Outcome.call inner args).Meets drivers C s) ↔ args.sizes.Matches s := by
  constructor
  · intro h
    have hwrites := h (fun _ _ _ => (.ok (), fun _ => 1)) fun _ => 0
    rcases hwrites with ⟨_, _, hcall, hsizes⟩ | ⟨-, hsame⟩
    · cases hcall
      exact hsizes
    · exact absurd (congrFun hsame 0) (by decide)
  · intro h drivers C
    have hrun : (Outcome.call inner args).run drivers C = drivers inner args C := rfl
    unfold Outcome.Meets
    rw [hrun]
    rcases drivers inner args C with ⟨status | _, C'⟩
    · right
      exact ⟨inner, args, rfl, h⟩
    · left
      exact ⟨inner, args, rfl, h⟩

/-- A call that the checks of the narrowed arguments let through is one with sizes that fit an `int`; where an entry
point returns before a driver because of a narrowed size, a size of the caller is zero. -/
def Entry.Honest (cfg : Config) (a : Args 64) (e : Entry) : Prop :=
  e.check cfg a.colMajor = .ok () →
    if e.isX8x8x32 && isEmpty a.colMajor.sizes then a.sizes.Empty else a.sizes.Fits

/-- `2 ^ 32 + 1` rows of one element. -/
def longColumn : Args 64 :=
  ⟨'N', 'N', none, ⟨4294967297, 1, 1, 1, 1, 1⟩, ⟨0x3f800000⟩, 0, none, 0, none, ⟨0⟩, none⟩

end MklDnn.GemmApi
