import LogicMachine.Code.Layout
import LogicMachine.Code.Module
import LogicMachine.Proofs.Checking.Operands
import LogicMachine.Proofs.Subst.Solutions
import LogicMachine.Samples

/-!
# Programs of definite clauses

A clause says that its head holds when its body does, for all values of its variables. What follows
from a program is defined by ground instances alone, without any search; the same program is also
laid out as code, one block for each predicate.
-/

namespace LogicMachine

namespace Expr

mutual

/-- What an expression stands for when the registers hold `regs`. Nothing is evaluated. -/
def value (regs : List Term) : Expr → Term
  | .register i => regs.getD i default
  | .build f args => .compound f (valueAll regs args)
  | .const t => t

/-- What the expressions of a list stand for. -/
def valueAll (regs : List Term) : List Expr → List Term
  | [] => []
  | e :: es => value regs e :: valueAll regs es

end

mutual

/-- Has the expression no operators, and no variables but its registers? -/
def isPlain : Expr → Bool
  | .register _ => true
  | .build (.named _) args => isPlainAll args
  | .build (.builtin _) _ => false
  | .const t => t.isData

/-- Are all expressions of a list plain? -/
def isPlainAll : List Expr → Bool
  | [] => true
  | e :: es => isPlain e && isPlainAll es

end

/-- The expressions of a list stand for their values one by one. -/
theorem valueAll_eq_map (regs : List Term) (es : List Expr) :
    valueAll regs es = es.map (value regs) := by
  induction es with
  | nil => rfl
  | cons e es ih => simp [valueAll, ih]

/-- A list is plain when each of its expressions is. -/
theorem isPlainAll_eq_all (es : List Expr) : isPlainAll es = es.all isPlain := by
  induction es with
  | nil => rfl
  | cons e es ih => simp [isPlainAll, ih]

/-- A register stands for what it holds. -/
@[simp] theorem value_register (regs : List Term) (i : Nat) :
    (register i).value regs = regs.getD i default := by
  simp [value]

/-- A compound is built from what its arguments stand for, and nothing is evaluated. -/
@[simp] theorem value_build (regs : List Term) (f : Functor) (args : List Expr) :
    (build f args).value regs = .compound f (args.map (value regs)) := by
  simp [value, valueAll_eq_map]

/-- A constant stands for itself. -/
@[simp] theorem value_const (regs : List Term) (t : Term) : (const t).value regs = t := by
  simp [value]

/-- A plain compound is one of a name, with plain arguments. -/
theorem isPlain_build_iff {f : Functor} {args : List Expr} :
    (build f args).isPlain = true ↔
      (∃ name, f = .named name) ∧ ∀ e ∈ args, e.isPlain = true := by
  cases f with
  | named name => simp [isPlain, isPlainAll_eq_all]
  | builtin op => simp [isPlain]

/-- Registers behind those that an expression reads make no difference. -/
theorem value_append {n : Nat} {e : Expr} (h : e.isOver n = true) {regs : List Term}
    (hlength : regs.length = n) (others : List Term) :
    e.value (regs ++ others) = e.value regs := by
  induction e using induction with
  | register i =>
    have hi : i < regs.length := by simpa [isOver, hlength] using h
    rw [value_register, value_register, List.getD_append _ _ _ _ hi]
  | build f args ih =>
    rw [isOver, isOverAll_eq_all, List.all_eq_true] at h
    rw [value_build, value_build, List.map_congr_left fun e he => ih e he (h e he)]
  | const t => rw [value_const, value_const]

end Expr

/-- A goal over `n` registers, without operators. -/
structure Goal (n : Nat) where
  name : String
  args : List Expr
  plain : args.all Expr.isPlain = true := by decide
  inRange : args.all (Expr.isOver n) = true := by decide

namespace Goal

variable {n : Nat}

def sig (g : Goal n) : Signature := ⟨g.name, g.args.length⟩

/-- The arguments for given values of the registers. -/
def values (g : Goal n) (regs : List Term) : List Term := g.args.map (Expr.value regs)

/-- The call of the goal. -/
def call (g : Goal n) : Instr := .invoke g.name g.args

/-- Registers behind its own make no difference to a goal. -/
theorem values_append (g : Goal n) {regs : List Term} (hlength : regs.length = n)
    (others : List Term) : g.values (regs ++ others) = g.values regs :=
  List.map_congr_left fun e he =>
    Expr.value_append (List.all_eq_true.mp g.inRange e he) hlength others

end Goal

/-- A definite clause over some variables of its own, which are its first registers. -/
structure Clause where
  locals : Nat
  head : Goal locals
  body : List (Goal locals)

/-- The code of a clause: new variables, the arguments against the head, and a call for each goal of
the body. -/
def Clause.code (c : Clause) : List Instr :=
  Layout.clause c.locals c.head.args (c.body.map Goal.call)

/-- What follows from the clauses: an instance of a head follows when the same instance of every
goal of the body does. The values of the variables are ground terms without operators. -/
inductive Derives (clauses : List Clause) : String → List Term → Prop
  | clause {c : Clause} {vals : List Term} (hc : c ∈ clauses) (hlength : vals.length = c.locals)
      (hdata : ∀ t ∈ vals, t.isData = true)
      (hbody : ∀ g ∈ c.body, Derives clauses g.name (g.values vals)) :
      Derives clauses c.head.name (c.head.values vals)

/-- A finite program. -/
structure Program where
  clauses : List Clause

namespace Program

/-- The clauses of one predicate, in order. -/
def about (p : Program) (sig : Signature) : List Clause := p.clauses.filter (·.head.sig = sig)

/-- The code of one predicate: its clauses, to be tried in order. -/
def code (p : Program) (sig : Signature) : List Instr :=
  Layout.clauses ((p.about sig).map Clause.code)

/-- The predicates that have clauses. -/
def signatures (p : Program) : List Signature := (p.clauses.map (·.head.sig)).eraseDups

/-- The program as a module, one block for each predicate. -/
def compile (p : Program) : Module :=
  p.signatures.foldl (fun m sig => m.define sig.name sig.arity (p.code sig)) .empty

end Program

/-- Every block is the code of the clauses of its predicate. -/
theorem Program.code_of_mem_compile (p : Program) :
    ∀ d ∈ p.compile.definitions, d.2.code = p.code d.1 := by
  have hfold : ∀ (sigs : List Signature) (m : Module),
      (∀ d ∈ m.definitions, d.2.code = p.code d.1) →
      ∀ d ∈ (sigs.foldl (fun m sig => m.define sig.name sig.arity (p.code sig)) m).definitions,
        d.2.code = p.code d.1 := by
    intro sigs
    induction sigs with
    | nil => exact fun m hm => hm
    | cons sig sigs ih =>
      intro m hm
      refine ih _ fun d hd => ?_
      rcases List.mem_append.mp hd with hd | hd
      · exact hm d (List.mem_filter.mp hd).1
      · obtain rfl := List.mem_singleton.mp hd
        rfl
  exact hfold p.signatures .empty fun d hd => by cases hd

/-- The block of a predicate is the code that its clauses are laid out as. -/
theorem Program.code_of_get?_compile (p : Program) {sig : Signature} {block : Block}
    (h : p.compile.get? sig = some block) : block.code = p.code sig :=
  p.code_of_mem_compile (sig, block) (Module.mem_of_get? h)

namespace Samples

/-- `append(nil, X, X).` and `append(cons(H, T), L2, cons(H, L3)) :- append(T, L2, L3).` -/
def appending : Program where
  clauses := [
    { locals := 1
      head := { name := "append", args := [.atom "nil", .register 0, .register 0] }
      body := [] },
    { locals := 4
      head := {
        name := "append"
        args := [.app "cons" [.register 0, .register 1], .register 2,
          .app "cons" [.register 0, .register 3]] }
      body := [{ name := "append", args := [.register 1, .register 2, .register 3] }] }]

/-- The code of the clauses is the code laid out by hand. -/
example : appending.code ⟨"append", 3⟩ = append := rfl

end Samples

end LogicMachine
