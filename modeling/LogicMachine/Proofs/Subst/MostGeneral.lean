import LogicMachine.Proofs.Subst.Reading
import LogicMachine.Proofs.Subst.Unifiable

/-!
# Most general unifiers

Whatever a series of unifications has made of the empty substitution, two terms unify exactly if
some valuation satisfies the substitution and makes them equal, and what a success binds rules out
no such valuation and admits no other.
-/

namespace LogicMachine.Subst

/-- The substitutions that unifications lead to from the empty one. A unification that fails leaves
what it has bound up to there. -/
inductive Reachable : Subst → Prop
  | empty : Reachable .empty
  | unify {u : Unifier} (h : Reachable u.subst) (x y : Term) : Reachable (u.unify x y).2.subst

namespace Reachable

variable {s : Subst} {u : Unifier} {x y : Term}

/-- No variable of a reachable substitution leads back to itself. -/
theorem acyclic (h : s.Reachable) : s.Acyclic := by
  induction h with
  | empty => exact acyclic_empty
  | unify _ x y ih => exact (Unifier.grown_any ih _ x y).acyclic ih

/-- The weight of a reachable substitution accounts for all its values. -/
theorem weighed (h : s.Reachable) : s.Weighed := by
  induction h with
  | empty => exact weighed_empty
  | unify h x y ih => exact (Unifier.grown_any h.acyclic _ x y).weighed ih

/-- A substitution that a success leaves is reached without any failure on the last step. -/
theorem of_unify? (h : s.Reachable) (hu : s.unify? x y = some u) : u.subst.Reachable := by
  have hstep := unify (u := ⟨s, []⟩) h x y
  unfold unify? at hu
  rcases hr : Unifier.unify ⟨s, []⟩ x y with ⟨_ | _, u'⟩ <;> rw [hr] at hu hstep <;> cases hu
  exact hstep

/-- Two terms unify exactly if a valuation that satisfies the substitution makes them equal, and the
valuations that satisfy what a success leaves are exactly these. -/
theorem unify?_most_general (h : s.Reachable) (x y : Term) :
    ((∃ u, s.unify? x y = some u) ↔ ∃ θ : Valuation, s.SatisfiedBy θ ∧ x.apply θ = y.apply θ) ∧
      ∀ u, s.unify? x y = some u → ∀ θ : Valuation,
        u.subst.SatisfiedBy θ ↔ s.SatisfiedBy θ ∧ x.apply θ = y.apply θ := by
  have hiff : ∀ u, s.unify? x y = some u → ∀ θ : Valuation,
      u.subst.SatisfiedBy θ ↔ s.SatisfiedBy θ ∧ x.apply θ = y.apply θ :=
    fun u hu θ => satisfiedBy_of_unify? h.acyclic h.weighed hu
  refine ⟨⟨?_, ?_⟩, hiff⟩
  · rintro ⟨u, hu⟩
    -- what the variables stand for after the success is such a valuation
    exact ⟨_, (hiff u hu _).mp (h.of_unify? hu).acyclic.satisfiedBy_expand⟩
  · rintro ⟨θ, hθ, heq⟩
    obtain ⟨u, hu, -⟩ := unify?_complete h.acyclic h.weighed hθ heq
    exact ⟨u, hu⟩

/-- Once `_1` is bound to `g(_2)`, the terms `f(_1, _3)` and `f(g(a), _2)` unify and leave one value
for each variable, and `_2` does not unify with `h(_1)`, so that no valuation makes them equal. -/
theorem unify?_most_general_shared :
    let s := (Unifier.unify ⟨.empty, []⟩ (.var 1) (.app "g" [.var 2])).2.subst
    (∃ u, s.unify? (.app "f" [.var 1, .var 3]) (.app "f" [.app "g" [.atom "a"], .var 2]) = some u ∧
      ∀ θ : Valuation, u.subst.SatisfiedBy θ ↔ s.SatisfiedBy θ ∧
        Term.apply θ (.app "f" [.var 1, .var 3]) =
          Term.apply θ (.app "f" [.app "g" [.atom "a"], .var 2])) ∧
    ¬ ∃ θ : Valuation, s.SatisfiedBy θ ∧
      Term.apply θ (.var 2) = Term.apply θ (.app "h" [.var 1]) := by
  intro s
  have hs : s.Reachable := .unify (u := ⟨.empty, []⟩) .empty _ _
  constructor
  · obtain ⟨-, hiff⟩ := unify?_most_general hs (.app "f" [.var 1, .var 3])
      (.app "f" [.app "g" [.atom "a"], .var 2])
    have hsome : (s.unify? (.app "f" [.var 1, .var 3])
        (.app "f" [.app "g" [.atom "a"], .var 2])).isSome = true := by decide +kernel
    obtain ⟨u, hu⟩ := Option.isSome_iff_exists.mp hsome
    exact ⟨u, hu, hiff u hu⟩
  · have hnone : (s.unify? (.var 2) (.app "h" [.var 1])).isSome = false := by decide +kernel
    rw [← (unify?_most_general hs _ _).1, ← Option.isSome_iff_exists, hnone]
    exact Bool.false_ne_true

end Reachable

end LogicMachine.Subst
