import LogicMachine.Subst.Walk
import LogicMachine.Term.Rendering

/-!
# Names for variables

Terms are shown as they stand under a substitution. A variable keeps the name it was given up
front; any other unbound variable is named `V`*n* at its first mention, where *n* is the number of
names that exist by then, and keeps that name afterwards.
-/

namespace LogicMachine

/-- The names given so far. -/
structure Names where
  given : Std.TreeMap Var String := ∅

namespace Names

/-- No names yet. -/
def empty : Names := {}

/-- Names given up front. Of several names for one variable the last one counts. -/
def ofList (names : List (Var × String)) : Names :=
  ⟨names.foldl (fun m (v, name) => m.insert v name) ∅⟩

/-- Name `v` unless it has a name. -/
def mention (n : Names) (v : Var) : Names :=
  ⟨n.given.insertIfNew v ("V" ++ toString n.given.size)⟩

/-- The name of `v`; a variable that was never mentioned goes by its number. -/
def nameOf (n : Names) (v : Var) : String := n.given.getD v (Term.rawName v)

/-- The text of `t` under `s`, and the names after it. -/
def write (s : Subst) (n : Names) (t : Term) : String × Names :=
  let resolved := s.resolve t
  let n := resolved.vars.foldl mention n
  (resolved.renderWith n.nameOf, n)

/-- Write one thing after another with `f`, each with the names that the ones before it left. -/
def writeEach {α : Type} (f : Names → α → String × Names) : Names → List α → List String × Names
  | n, [] => ([], n)
  | n, a :: as =>
    let (text, n) := f n a
    let (texts, n) := writeEach f n as
    (text :: texts, n)

/-- The texts of several terms under `s`, and the names after them. -/
def writeAll (s : Subst) : Names → List Term → List String × Names := writeEach (write s)

end Names

end LogicMachine
