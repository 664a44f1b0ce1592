import LogicMachine.Names
import LogicMachine.Signature

/-!
# Constraints

A constraint that was posted during a run. Its serial number is its identity: two constraints with
the same name and the same arguments are still different constraints.
-/

namespace LogicMachine

/-- A posted constraint. -/
structure Constraint where
  serial : Nat
  sig : Signature
  args : List Term

namespace Constraint

/-- The text of a constraint as it was posted. -/
def render (c : Constraint) : String := applied c.sig.name (c.args.map Term.render)

/-- The text of a constraint under `s`, and the names after it. The parentheses are left out when
nothing would stand between them. -/
def write (s : Subst) (n : Names) (c : Constraint) : String × Names :=
  let (texts, n) := n.writeAll s c.args
  let inside := commaSeparated texts
  (if inside.isEmpty then c.sig.name else c.sig.name ++ "(" ++ inside ++ ")", n)

/-- The texts of several constraints under `s`, and the names after them. -/
def writeAll (s : Subst) : Names → List Constraint → List String × Names :=
  Names.writeEach (write s)

end Constraint

end LogicMachine
