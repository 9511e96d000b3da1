import Mathlib.Data.Int.Notation
import Mathlib.Data.Nat.Notation
import Mathlib.Logic.Function.Basic

/-!
# Integer utilities

The helpers of `utils.hpp` that the loop bounds and the padded extents are computed with.
-/

namespace MklDnn

/-- `utils::div_up` -/
def divUp (a b : ℕ) : ℕ := (a + b - 1) / b

/-- `utils::rnd_up` -/
def rndUp (a b : ℕ) : ℕ := divUp a b * b

end MklDnn

/-!
## `utils::simultaneous_sort`

The sort of an array of values that permutes an array of keys in the same way.
-/

namespace MklDnn

variable {α T U : Type*}

/-- `nstl::swap` of the entries `j` and `j + 1`. -/
def swapNext (a : ℕ → α) (j : ℕ) : ℕ → α := Function.update (Function.update a j (a (j + 1))) (j + 1) (a j)

/-- The arrays that `simultaneous_sort` permutes, and the flag of the current pass. -/
structure SortState (T U : Type*) where
  vals : ℕ → T
  keys : ℕ → U
  swapped : Bool

namespace SortState

variable (comparator : T → T → ℤ)

/-- The body of the inner loop. -/
def compareSwap (st : SortState T U) (j : ℕ) : SortState T U :=
  if comparator (st.vals j) (st.vals (j + 1)) > 0 then ⟨swapNext st.vals j, swapNext st.keys j, true⟩ else st

/-- One pass: the inner loop over `j < count`. -/
def pass (st : SortState T U) (count : ℕ) : SortState T U :=
  (List.range count).foldl (compareSwap comparator) ⟨st.vals, st.keys, false⟩

/-- The outer loop from iteration `i` on, with `fuel` iterations left. -/
def passes (size : ℕ) : ℕ → ℕ → SortState T U → SortState T U
  | 0, _, st => st
  | fuel + 1, i, st =>
    let st := st.pass comparator (size - i - 1)
    if st.swapped = false then st else passes size fuel (i + 1) st

end SortState

/-- `simultaneous_sort`, called with an array of keys. -/
def simultaneousSort (vals : ℕ → T) (keys : ℕ → U) (size : ℕ) (comparator : T → T → ℤ) : SortState T U :=
  if size = 0 then ⟨vals, keys, false⟩ else SortState.passes comparator size (size - 1) 0 ⟨vals, keys, false⟩

end MklDnn
