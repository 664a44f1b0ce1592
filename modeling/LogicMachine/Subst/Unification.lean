import LogicMachine.Subst.Walk

/-!
# Unification

Two terms are unified by binding variables, from left to right, with an occurs check. Bindings made
for earlier arguments are honoured for the later ones. A `Unifier` is unification in progress: it
keeps what it has bound even when a pair of terms turns out not to unify, and `Subst.unify?` throws
all of it away in that case.
-/

namespace LogicMachine

/-- Unification in progress: the extended substitution, and the bindings it has added so far in the
order they were made. -/
structure Unifier where
  subst : Subst
  bindings : List (Var × Term) := []

namespace Unifier

/-- Bind `v` to `t`, unless `v` occurs in `t`. -/
def bind (u : Unifier) (v : Var) (t : Term) : Bool × Unifier :=
  if u.subst.occurs v t then (false, u)
  else (true, ⟨u.subst.bind v t, u.bindings ++ [(v, t)]⟩)

/-- Unify two lists in step with `step`, up to the first pair that fails. -/
def inStep (step : Unifier → Term → Term → Bool × Unifier) :
    Unifier → List Term → List Term → Bool × Unifier
  | u, a :: as, b :: bs =>
    match step u a b with
    | (true, u') => inStep step u' as bs
    | (false, u') => (false, u')
  | u, _, _ => (true, u)

/-- Unify two terms, going at most `depth` layers deep. -/
def unifyWithin : (depth : Nat) → Unifier → Term → Term → Bool × Unifier
  | 0, u, _, _ => (false, u)
  | depth + 1, u, x, y =>
    match u.subst.walk x, u.subst.walk y with
    | .var a, .var b => if a = b then (true, u) else u.bind a (.var b)
    | .var a, y' => u.bind a y'
    | x', .var b => u.bind b x'
    | x', y' =>
      if x'.headsAgree y' then inStep (unifyWithin depth) u x'.children y'.children
      else (false, u)

/-- Layers enough for two terms. No compound can be met twice on one path, since it would contain
itself, and each one met is part of one of the terms or of a value. -/
def depthFor (u : Unifier) (x y : Term) : Nat := x.nodes + y.nodes + u.subst.weight + 1

/-- Unify two terms. On failure the bindings made up to there are kept. -/
def unify (u : Unifier) (x y : Term) : Bool × Unifier := u.unifyWithin (u.depthFor x y) x y

end Unifier

/-- Unify two terms on top of `s`: the extended substitution and the new bindings, or nothing if
the terms do not unify. -/
def Subst.unify? (s : Subst) (x y : Term) : Option Unifier :=
  match Unifier.unify ⟨s, []⟩ x y with
  | (true, u) => some u
  | (false, _) => none

end LogicMachine
