/-!
# Sets of code points

A Unicode property is given by the closed ranges of code points that have it.
-/

namespace LogicMachine.Text

/-- Does a code point lie in one of the ranges? -/
def inRanges (ranges : Array (Nat × Nat)) (n : Nat) : Bool :=
  ranges.any fun r => r.1 ≤ n && n ≤ r.2

/-- A code point has the property exactly if some range has it between its ends. -/
theorem inRanges_eq_true_iff {ranges : Array (Nat × Nat)} {n : Nat} :
    inRanges ranges n = true ↔ ∃ r ∈ ranges, r.1 ≤ n ∧ n ≤ r.2 := by
  simp only [inRanges, Array.any_eq_true', Bool.and_eq_true, decide_eq_true_eq]

end LogicMachine.Text
