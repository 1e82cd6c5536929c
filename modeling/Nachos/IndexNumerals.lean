import Mathlib.Tactic

/-!
# Numerals of the index types

The registers, the bytes of a page or a sector and the sectors of a file header are indexed by
`Fin n` for a fixed `n`. A numeral of such a type carries the proof that `n` is not 0. Here this
proof has a name for each of the four sizes, so that a numeral is the same term in every module.
-/
namespace Nachos

instance neZeroFour : NeZero 4 := ⟨by decide⟩

instance neZeroThirtyTwo : NeZero 32 := ⟨by decide⟩

instance neZeroForty : NeZero 40 := ⟨by decide⟩

instance neZeroOneHundredTwentyEight : NeZero 128 := ⟨by decide⟩

end Nachos
