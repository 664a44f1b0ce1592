import LogicMachine.ProgramError
import LogicMachine.Subst.Walk

/-!
# Expressions

The operands of instructions and guards. An expression is evaluated over an environment of
registers and a substitution, and what comes out is fully resolved.
-/

namespace LogicMachine

/-- The registers of an activation. -/
abbrev Env := List Term

/-- An operand: a register, a compound built from operands, or a constant term. -/
inductive Expr
  | register (index : Nat)
  | build (functor : Functor) (args : List Expr)
  | const (t : Term)

namespace Expr

instance : Inhabited Expr := ⟨.register 0⟩

/-- The constant of that name. -/
def atom (name : String) : Expr := .const (.atom name)

/-- An integer constant. -/
def int (i : Int) : Expr := .const (.int i)

/-- A text constant. -/
def text (s : String) : Expr := .const (.text s)

/-- A compound with a named functor. -/
def app (name : String) (args : List Expr) : Expr := .build (.named name) args

/-- A list of operands, ending in the constant `nil`. -/
def ofList : List Expr → Expr
  | [] => atom "nil"
  | e :: es => app "cons" [e, ofList es]

mutual

/-- The resolved term that the expression denotes. Operands are evaluated from left to right, and
the first register that is missing is reported. -/
def eval (env : Env) (s : Subst) : Expr → Except ProgramError Term
  | .register index =>
    match env[index]? with
    | some t => .ok (s.resolve t)
    | none => .error (.registerOutOfRange index env.length)
  | .build f args =>
    match evalAll env s args with
    | .ok ts => .ok (Term.compound f ts).reduce
    | .error e => .error e
  | .const t => .ok (s.resolve t)

/-- The terms that a list of expressions denotes. -/
def evalAll (env : Env) (s : Subst) : List Expr → Except ProgramError (List Term)
  | [] => .ok []
  | e :: es =>
    match eval env s e with
    | .error err => .error err
    | .ok t =>
      match evalAll env s es with
      | .error err => .error err
      | .ok ts => .ok (t :: ts)

end

mutual

/-- The text of an expression: registers as `#n`, compounds and constants as terms are written. -/
def render : Expr → String
  | .register index => "#" ++ toString index
  | .build f args => applied f.render (renderAll args)
  | .const t => t.render

/-- The texts of a list of expressions. -/
def renderAll : List Expr → List String
  | [] => []
  | e :: es => render e :: renderAll es

end

end Expr

end LogicMachine
