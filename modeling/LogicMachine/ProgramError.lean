import LogicMachine.Signature
import LogicMachine.Term.Rendering

/-!
# Program errors

What can be wrong with a program itself. These faults are never absorbed by backtracking: the first
one ends the search, or refuses the rule set.
-/

namespace LogicMachine

/-- A fault of the program. Rules are numbered from zero. -/
inductive ProgramError
  /-- No predicate of that name is defined. -/
  | undefinedPredicate (sig : Signature)
  /-- The name is defined, but only for the arities `known`, which are ascending. -/
  | arityMismatch (name : String) (found : Nat) (known : List Nat)
  /-- A register beyond the end of an environment of `size` registers. -/
  | registerOutOfRange (index size : Nat)
  /-- The program counter stands at the end of its block. -/
  | endOfBlock (pc length : Nat)
  /-- A jump, counted from the following instruction at `pc`, leaves the block. -/
  | jumpOutOfBlock (pc : Nat) (offset : Int)
  /-- A rule deletes a head position that it does not have. -/
  | deletesMissingHead (rule index heads : Nat)
  /-- A rule without heads. -/
  | emptyHead (rule : Nat)
  /-- A call would nest deeper than `limit`. -/
  | depthExceeded (limit : Nat) (sig : Signature)
  deriving DecidableEq

/-- The text shown for the fault. -/
def ProgramError.message : ProgramError → String
  | .undefinedPredicate sig => s!"No predicate exists with signature `{sig.render}`."
  | .arityMismatch name found known =>
    let others := commaSeparated (known.map fun n => s!"`{name}/{n}`")
    s!"The predicate `{name}` was called with {found} arguments, but it is only defined as " ++
      s!"{others}."
  | .registerOutOfRange index size =>
    s!"Register {index} is out of bounds for an environment of {size} registers."
  | .endOfBlock pc length =>
    s!"Program counter {pc} ran off the end of a {length}-instruction block."
  | .jumpOutOfBlock pc offset => s!"Jump by {offset} from pc {pc} leaves the code block."
  | .deletesMissingHead rule index heads =>
    s!"Rule #{rule} deletes head {index}, but it only has {heads} heads."
  | .emptyHead rule => s!"Rule #{rule} has no head constraints."
  | .depthExceeded limit sig =>
    s!"Max recursion depth ({limit}) exceeded while calling `{sig.render}`."

end LogicMachine
