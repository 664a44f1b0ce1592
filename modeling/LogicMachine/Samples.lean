import LogicMachine.Code.Layout
import LogicMachine.Code.Module
import LogicMachine.Constraint.Rule

/-!
# Sample programs

Small programs laid out by hand: list concatenation, bits, natural numbers, a partial order as
constraint rules, and rules whose guards wait for their arguments.
-/

namespace LogicMachine.Samples

/-- `append(nil, X, X).` and `append(cons(H, T), L2, cons(H, L3)) :- append(T, L2, L3).`, where the
second clause has `H`, `T`, `L2` and `L3` in its first four registers. -/
def append : List Instr :=
  Layout.clauses [
    Layout.clause 1 [.atom "nil", .register 0, .register 0] [],
    Layout.clause 4
      [.app "cons" [.register 0, .register 1], .register 2,
        .app "cons" [.register 0, .register 3]]
      [.invoke "append" [.register 1, .register 2, .register 3]]]

/-- `bit(0).` and `bit(1).` -/
def bit : List Instr :=
  Layout.clauses [Layout.clause 0 [.int 0] [], Layout.clause 0 [.int 1] []]

/-- `bits(A, B) :- bit(A), bit(B).` -/
def bits : List Instr :=
  Layout.clause 0 [] [.invoke "bit" [.register 0], .invoke "bit" [.register 1]]

/-- `nat(z).` and `nat(s(N)) :- nat(N).` -/
def nat : List Instr :=
  Layout.clauses [
    Layout.clause 0 [.atom "z"] [],
    Layout.clause 1 [.app "s" [.register 0]] [.invoke "nat" [.register 0]]]

/-- The sample predicates. -/
def predicates : Module :=
  (((Module.empty.define "append" 3 append).define "bit" 1 bit).define "bits" 2 bits).define
    "nat" 1 nat

/-- The rules of a partial order: reflexivity, antisymmetry, transitivity and idempotence.

    leq(X, X) <=> true.
    leq(X, Y), leq(Y, X) <=> X = Y.
    leq(X, Y), leq(Y, Z) ==> leq(X, Z).
    leq(X, Y) \ leq(X, Y) <=> true.
-/
def leqRules : List Rule := [
  { head := [⟨"leq", 2⟩]
    guards := [.equal (.register 0) (.register 1)]
    body := [.success]
    deletes := [0] },
  { head := [⟨"leq", 2⟩, ⟨"leq", 2⟩]
    guards := [.equal (.register 1) (.register 2), .equal (.register 0) (.register 3)]
    body := [.unify (.register 0) (.register 1), .success]
    deletes := [0, 1] },
  { head := [⟨"leq", 2⟩, ⟨"leq", 2⟩]
    guards := [.equal (.register 1) (.register 2)]
    body := [.constraint "leq" [.register 0, .register 3], .success] },
  { head := [⟨"leq", 2⟩, ⟨"leq", 2⟩]
    guards := [.equal (.register 0) (.register 2), .equal (.register 1) (.register 3)]
    body := [.success]
    deletes := [1] }]

/-- The partial order as a rule set. -/
def leq : RuleSet := ⟨leqRules, by simp [leqRules], by simp [leqRules]⟩

/-- Rules that wait for their argument.

    watch(X) <=> X > 10 | big(X).
    split(P) <=> P = pair(A, B) | sum(A + B).
-/
def watcherRules : List Rule := [
  { head := [⟨"watch", 1⟩]
    guards := [.compare .greater (.register 0) (.int 10)]
    body := [.constraint "big" [.register 0], .success]
    deletes := [0] },
  { head := [⟨"split", 1⟩]
    guards := [.deconstruct (.named "pair") 2 0]
    body := [.constraint "sum" [.build (.builtin .add) [.register 0, .register 1]], .success]
    deletes := [0] }]

/-- The waiting rules as a rule set. -/
def watchers : RuleSet := ⟨watcherRules, by simp [watcherRules], by simp [watcherRules]⟩

end LogicMachine.Samples
