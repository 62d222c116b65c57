/-
# Character classes as ranges of code points

A class that covers more than ASCII is given by a list of inclusive ranges of code points.
`inRanges` is the membership test; `mem_inRanges` says what it decides.
-/

namespace ServiceGate.CharClass

abbrev Ranges := List (Nat × Nat)

/-- Whether the code point `n` lies in one of the ranges. -/
def inRanges (table : Ranges) (n : Nat) : Bool :=
  table.any fun r => r.1 ≤ n && n ≤ r.2

theorem mem_inRanges {table : Ranges} {n : Nat} :
    inRanges table n = true ↔ ∃ r ∈ table, r.1 ≤ n ∧ n ≤ r.2 := by
  simp [inRanges]

end ServiceGate.CharClass
