import LogicMachine.Code.Expr

/-!
# Instructions and blocks

The instruction set of the machine. Jumps are relative to the following instruction, because the
program counter has already moved past the instruction that is being executed.
-/

namespace LogicMachine

/-- One instruction. -/
inductive Instr
  /-- Call a predicate. -/
  | invoke (name : String) (args : List Expr)
  /-- Post a constraint. -/
  | constraint (name : String) (args : List Expr)
  /-- Jump. -/
  | goto (offset : Int)
  /-- Go on, and leave the jump as an untried alternative. -/
  | choice (offset : Int)
  /-- Put `n` new variables in front of the registers. -/
  | fresh (n : Nat)
  /-- Make two terms equal, or fail. -/
  | unify (a b : Expr)
  /-- Return to the caller, or answer the query. -/
  | success
  /-- Give up the current branch. -/
  | fail

namespace Instr

/-- A jump offset with its sign, zero included. -/
def signed (offset : Int) : String :=
  if offset < 0 then toString offset else "+" ++ toString offset

/-- A call keeps its parentheses even when it has no arguments. -/
def call (name : String) (args : List Expr) : String :=
  name ++ "(" ++ commaSeparated (Expr.renderAll args) ++ ")"

/-- The text of an instruction. -/
def render : Instr → String
  | .invoke name args => "invoke " ++ call name args
  | .constraint name args => "constraint " ++ call name args
  | .goto offset => "goto " ++ signed offset
  | .choice offset => "choice " ++ signed offset
  | .fresh n => "fresh " ++ toString n
  | .unify a b => "unify " ++ a.render ++ " = " ++ b.render
  | .success => "success"
  | .fail => "fail"

end Instr

/-- Where a block of code comes from. Blocks are the same only if they have the same label: two
predicates with equal instructions still run different code. -/
inductive BlockLabel
  | query
  | predicate (serial : Nat)
  | rule (index : Nat)
  deriving DecidableEq

/-- A labelled block of instructions. -/
structure Block where
  label : BlockLabel
  code : List Instr

end LogicMachine
