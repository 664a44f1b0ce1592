import LogicMachine.Subst.Basic
import LogicMachine.Term.Instantiation

/-!
# Following bindings

Reading a term under a substitution: at its root alone, throughout, or for the variables that are
left in it. As long as no variable leads back to itself, a path through the bindings meets each
bound variable at most once, so as many hops as there are bindings reach the end of every path.
-/

namespace LogicMachine.Subst

/-- Follow a chain of variables for at most `hops` bindings. -/
def walkWithin (s : Subst) : (hops : Nat) → Term → Term
  | hops + 1, .var v =>
    match s.get? v with
    | some t => s.walkWithin hops t
    | none => .var v
  | _, t => t

/-- Follow a chain of variables to an unbound variable or to a term that is none. What is inside
that term is left alone. -/
def walk (s : Subst) (t : Term) : Term := s.walkWithin s.size t

/-- What a variable stands for, with at most `hops` bindings followed on every path. -/
def resolveVarWithin (s : Subst) : (hops : Nat) → Var → Term
  | 0, v => .var v
  | hops + 1, v =>
    match s.get? v with
    | some t => t.instantiate (s.resolveVarWithin hops)
    | none => .var v

/-- What a variable stands for, throughout. -/
def resolveVar (s : Subst) (v : Var) : Term := s.resolveVarWithin s.size v

/-- What a term stands for: bindings are followed throughout, and builtin compounds that have
become ground are evaluated. -/
def resolve (s : Subst) (t : Term) : Term := t.instantiate s.resolveVar

/-- The unbound variables that `v` leads to, from left to right, with at most `hops` bindings
followed on every path. -/
def leavesWithin (s : Subst) : (hops : Nat) → Var → List Var
  | 0, v => [v]
  | hops + 1, v =>
    match s.get? v with
    | some t => t.vars.flatMap (s.leavesWithin hops)
    | none => [v]

/-- The unbound variables that a term leads to, each once, in order of first appearance. -/
def unboundVars (s : Subst) (t : Term) : List Var :=
  (t.vars.flatMap (s.leavesWithin s.size)).eraseDups

/-- Does `v` lead to the unbound variable `w` within `hops` bindings? -/
def leadsToWithin (s : Subst) (w : Var) : (hops : Nat) → Var → Bool
  | 0, v => v == w
  | hops + 1, v =>
    match s.get? v with
    | some t => t.vars.any (s.leadsToWithin w hops)
    | none => v == w

/-- Does the unbound variable `w` occur in `t` once bindings are followed? -/
def occurs (s : Subst) (w : Var) (t : Term) : Bool :=
  t.vars.any (s.leadsToWithin w s.size)

/-- A variable leads to `w` exactly if `w` is among the variables it leads to. -/
theorem leadsToWithin_eq_true_iff (s : Subst) (w : Var) (hops : Nat) (v : Var) :
    s.leadsToWithin w hops v = true ↔ w ∈ s.leavesWithin hops v := by
  induction hops generalizing v with
  | zero => simpa [leadsToWithin, leavesWithin] using eq_comm
  | succ hops ih =>
    unfold leadsToWithin leavesWithin
    cases s.get? v with
    | none => simpa using eq_comm
    | some t => simp [ih]

/-- A variable occurs in a term exactly if it is among the unbound variables of the term. -/
theorem occurs_eq_true_iff (s : Subst) (w : Var) (t : Term) :
    s.occurs w t = true ↔ w ∈ s.unboundVars t := by
  simp [occurs, unboundVars, leadsToWithin_eq_true_iff]

/-- To resolve a variable is to look up what it stands for. -/
@[simp] theorem resolve_var (s : Subst) (v : Var) : s.resolve (.var v) = s.resolveVar v := by
  simp [resolve]

/-- A compound is resolved argument by argument, and evaluated if it has become ground. -/
@[simp] theorem resolve_compound (s : Subst) (f : Functor) (args : List Term) :
    s.resolve (.compound f args) = (Term.compound f (args.map s.resolve)).reduce := by
  simp [resolve]
  rfl

end LogicMachine.Subst
