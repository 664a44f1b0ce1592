import LogicMachine.Samples

/-!
# Sample queries

The queries that the command runs, over the sample programs.
-/

namespace LogicMachine

/-- A goal as it is written, with the names of its variables, its code and its rules. -/
structure Demo where
  goal : String
  names : List String
  code : List Instr
  rules : RuleSet := .empty

namespace Demo

/-- Post `leq` for two registers. -/
def leq (x y : Nat) : Instr := .constraint "leq" [.register x, .register y]

/-- All sample queries in order. -/
def all : List Demo := [
  { goal := "append(X, Y, [0, 1])"
    names := ["X", "Y"]
    code := [.invoke "append" [.register 0, .register 1, .ofList [.int 0, .int 1]], .success] },
  { goal := "bits(A, B)"
    names := ["A", "B"]
    code := [.invoke "bits" [.register 0, .register 1], .success] },
  { goal := "nat(N)"
    names := ["N"]
    code := [.invoke "nat" [.register 0], .success] },
  { goal := "leq(A, B), leq(B, A)"
    names := ["A", "B"]
    code := [leq 0 1, leq 1 0, .success]
    rules := Samples.leq },
  { goal := "leq(A, B), leq(B, C), C = d"
    names := ["A", "B", "C"]
    code := [leq 0 1, leq 1 2, .unify (.register 2) (.atom "d"), .success]
    rules := Samples.leq },
  { goal := "leq(A, B), leq(B, C), leq(C, A)"
    names := ["A", "B", "C"]
    code := [leq 0 1, leq 1 2, leq 2 0, .success]
    rules := Samples.leq },
  { goal := "watch(X), X = 42"
    names := ["X"]
    code := [.constraint "watch" [.register 0], .unify (.register 0) (.int 42), .success]
    rules := Samples.watchers },
  { goal := "split(pair(X, 4)), X = 3"
    names := ["X"]
    code := [.constraint "split" [.app "pair" [.register 0, .int 4]],
      .unify (.register 0) (.int 3), .success]
    rules := Samples.watchers }]

end Demo

end LogicMachine
