import LogicMachine.Code.Instr

/-!
# Code layout

How clauses, alternatives and disjunctions are laid out as straight code with relative jumps.
-/

namespace LogicMachine.Layout

/-- One clause: its `locals` new variables, then each incoming argument, which those variables have
moved to register `locals + i`, against its pattern, then the body, then the return. -/
def clause (locals : Nat) (patterns : List Expr) (body : List Instr) : List Instr :=
  [.fresh locals] ++
    patterns.mapIdx (fun i p => .unify (.register (locals + i)) p) ++ body ++ [.success]

/-- Clauses that are tried in order: every clause but the last is preceded by a choice whose
alternative is the start of the next clause. -/
def clauses : List (List Instr) → List Instr
  | [] => []
  | [c] => c
  | c :: d :: rest => .choice c.length :: c ++ clauses (d :: rest)

/-- First `a`, alternatively `b`; both go on with the code that follows. -/
def disjunction (a b : List Instr) : List Instr :=
  [.choice (a.length + 1)] ++ a ++ [.goto b.length] ++ b

end LogicMachine.Layout
