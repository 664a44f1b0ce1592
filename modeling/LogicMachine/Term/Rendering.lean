import LogicMachine.Term.Arithmetic
import LogicMachine.Text.Quoted

/-!
# Written terms

Terms as text: integers in decimal, text in quotes, a compound as `f(a, b)` and an atom as its bare
name. How a variable is called is left to the caller.
-/

namespace LogicMachine

/-- The functor's name or sign. -/
def Functor.render : Functor → String
  | .named name => name
  | .builtin b => b.symbol

/-- Items between commas. -/
def commaSeparated (items : List String) : String := ", ".intercalate items

/-- `head(a, b)`, or `head` alone when there are no arguments. -/
def applied (head : String) (args : List String) : String :=
  if args.isEmpty then head else head ++ "(" ++ commaSeparated args ++ ")"

namespace Term

mutual

/-- The text of a term in which `name` names the variables. -/
def renderWith (name : Var → String) : Term → String
  | .var v => name v
  | .int i => toString i
  | .text s => Text.quote s
  | .compound f args => applied f.render (renderAll name args)

/-- The texts of a list of terms. -/
def renderAll (name : Var → String) : List Term → List String
  | [] => []
  | t :: ts => renderWith name t :: renderAll name ts

end

/-- On a list, every term is written by itself. -/
theorem renderAll_eq_map (name : Var → String) (ts : List Term) :
    renderAll name ts = ts.map (renderWith name) := by
  induction ts with
  | nil => rfl
  | cons t ts ih => simp [renderAll, ih]

/-- A compound is written as its functor applied to the texts of its arguments. -/
@[simp] theorem renderWith_compound (name : Var → String) (f : Functor) (args : List Term) :
    (compound f args).renderWith name = applied f.render (args.map (renderWith name)) := by
  simp [renderWith, renderAll_eq_map]

/-- The text of a variable that has no name of its own: an underscore and its number. -/
def rawName (v : Var) : String := "_" ++ toString v

/-- The text of a term as it stands. -/
def render (t : Term) : String := t.renderWith rawName

end Term

end LogicMachine
