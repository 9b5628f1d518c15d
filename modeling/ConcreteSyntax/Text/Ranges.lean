/-! # Sets of characters given by ranges of code points

A character property of the Unicode standard is a sorted list of closed ranges of code points.
`inRanges` looks a code point up from the front and stops at the first range above it, so a
character of the basic Latin block is decided by the first few ranges. -/

namespace ConcreteSyntax.Text

/-- A closed range of code points. -/
abbrev CodeRange := Nat × Nat

/-- Whether a code point lies in one of the ranges of a sorted list. -/
def inRanges (n : Nat) : List CodeRange → Bool
  | [] => false
  | (lo, hi) :: rest => if n < lo then false else n ≤ hi || inRanges n rest

@[simp] theorem inRanges_nil (n : Nat) : inRanges n [] = false := rfl

theorem inRanges_cons (n lo hi : Nat) (rest : List CodeRange) :
    inRanges n ((lo, hi) :: rest) = (decide (lo ≤ n) && (decide (n ≤ hi) || inRanges n rest)) := by
  by_cases h : n < lo
  · simp [inRanges, h, Nat.not_le.mpr h]
  · simp [inRanges, h, Nat.le_of_not_lt h]

end ConcreteSyntax.Text
