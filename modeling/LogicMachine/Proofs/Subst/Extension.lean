import LogicMachine.Proofs.Subst.Termination

/-!
# Substitutions that bind more

When further variables are bound, what is read of a term changes only where the term leads to one of
them. The variables that are left in a term are then those that are left in what it led to before.
-/

namespace LogicMachine.Subst

open Relation

/-- `s'` has all bindings of `s`. -/
def ExtendedBy (s s' : Subst) : Prop := ∀ v t, s.get? v = some t → s'.get? v = some t

/-- Nothing that the term leads to under `s` has a value in `s'`. -/
def Untouched (s s' : Subst) (t : Term) : Prop := ∀ v ∈ s.unboundVars t, s'.get? v = none

variable {s s' : Subst} {v w : Var} {t a : Term} {f : Functor} {args : List Term}

/-- A variable that is unbound with more bindings was so with fewer. -/
theorem ExtendedBy.unbound (h : s.ExtendedBy s') (hv : s'.get? v = none) : s.get? v = none := by
  cases ht : s.get? v with
  | none => rfl
  | some t =>
    rw [h v t ht] at hv
    cases hv

/-- Old bindings lead where they led. -/
theorem ExtendedBy.reaches (h : s.ExtendedBy s') (hvw : ReflTransGen s.Mentions v w) :
    ReflTransGen s'.Mentions v w :=
  hvw.lift id fun x _ ⟨t, ht, hy⟩ => ⟨t, h x t ht, hy⟩

/-- A path through all bindings goes through the old ones first, as far as they lead. -/
theorem ExtendedBy.reaches_iff (h : s.ExtendedBy s') (hw : s'.get? w = none) :
    ReflTransGen s'.Mentions v w ↔
      ∃ x, s.get? x = none ∧ ReflTransGen s.Mentions v x ∧ ReflTransGen s'.Mentions x w := by
  constructor
  · intro hvw
    induction hvw using ReflTransGen.head_induction_on with
    | refl => exact ⟨w, h.unbound hw, .refl, .refl⟩
    | @head x y hxy hyw ih =>
      cases hx : s.get? x with
      | none => exact ⟨x, hx, .refl, .head hxy hyw⟩
      | some t =>
        obtain ⟨z, hz, hyz, hzw⟩ := ih
        obtain ⟨t', ht', hy⟩ := hxy
        rw [h x t hx, Option.some_inj] at ht'
        exact ⟨z, hz, .head ⟨t, hx, ht' ▸ hy⟩ hyz, hzw⟩
  · rintro ⟨x, -, hvx, hxw⟩
    exact (h.reaches hvx).trans hxw

/-- What is left in a term is what is left in the variables that were left before. -/
theorem ExtendedBy.mem_unboundVars_iff (h : s.ExtendedBy s') (hs : s.Acyclic) (hs' : s'.Acyclic) :
    w ∈ s'.unboundVars t ↔ ∃ v ∈ s.unboundVars t, w ∈ s'.unboundVars (.var v) := by
  simp only [hs.mem_unboundVars_iff, hs'.mem_unboundVars_iff, Term.vars_var, List.mem_singleton,
    exists_eq_left]
  constructor
  · rintro ⟨hw, x, hx, hxw⟩
    obtain ⟨v, hv, hxv, hvw⟩ := (h.reaches_iff hw).mp hxw
    exact ⟨v, ⟨hv, x, hx, hxv⟩, hw, hvw⟩
  · rintro ⟨v, ⟨hv, x, hx, hxv⟩, hw, hvw⟩
    exact ⟨hw, x, hx, (h.reaches_iff hw).mpr ⟨v, hv, hxv, hvw⟩⟩

/-- An unbound variable leads to itself. -/
theorem unboundVars_of_unbound (hv : s.get? v = none) : s.unboundVars (.var v) = [v] := by
  rw [unboundVars_eq_eraseDups, leaves_of_unbound hv]
  rfl

/-- A bound variable leads where its value leads. -/
theorem Acyclic.unboundVars_of_bound (h : s.Acyclic) (hv : s.get? v = some t) :
    s.unboundVars (.var v) = s.unboundVars t := by
  rw [unboundVars_eq_eraseDups, h.leaves_of_bound hv, ← unboundVars_eq_eraseDups]

/-! ### Terms that are not touched -/

/-- Repeats make no difference to what is touched. -/
theorem untouched_iff : s.Untouched s' t ↔ ∀ v ∈ s.leaves t, s'.get? v = none := by
  simp only [Untouched, unboundVars_eq_eraseDups, List.mem_eraseDups]

/-- A term without variables leads to nothing that could be bound. -/
theorem untouched_of_isGround (h : t.isGround = true) : s.Untouched s' t := by
  rw [untouched_iff, leaves, (Term.isGround_iff_vars_eq_nil t).mp h]
  simp

namespace Untouched

/-- The variables of a term that is not touched are not touched. -/
theorem var_of_mem (h : s.Untouched s' t) (hv : v ∈ t.vars) : s.Untouched s' (.var v) := by
  rw [untouched_iff] at h ⊢
  intro w hw
  rw [leaves, Term.vars_var, List.flatMap_singleton] at hw
  exact h w (List.mem_flatMap.mpr ⟨v, hv, hw⟩)

/-- Nor are the arguments of the compound that it is followed to. -/
theorem arg_of_walk (h : s.Untouched s' t) (hs : s.Acyclic) (hwalk : s.walk t = .compound f args)
    (ha : a ∈ args) : s.Untouched s' a := by
  rw [untouched_iff] at h ⊢
  intro w hw
  refine h w ?_
  rw [← hs.leaves_walk, hwalk, leaves_compound]
  exact List.mem_flatMap.mpr ⟨a, ha, hw⟩

/-- Induction along the bindings, from a variable that is not touched: the variables that are met
have the same value under both substitutions. -/
theorem induction (hs : s.Acyclic) (hext : s.ExtendedBy s') {motive : Var → Prop}
    (unbound : ∀ v, s.get? v = none → s'.get? v = none → motive v)
    (bound : ∀ v t, s.get? v = some t → s'.get? v = some t → (∀ x ∈ t.vars, motive x) → motive v)
    (h : s.Untouched s' (.var v)) : motive v := by
  induction v using hs.induction with
  | unbound v hv =>
    refine unbound v hv ?_
    rw [untouched_iff, leaves_of_unbound hv] at h
    exact h v List.mem_cons_self
  | bound v t hv ih =>
    refine bound v t hv (hext v t hv) fun x hx => ih x hx ?_
    rw [untouched_iff, hs.leaves_of_bound hv, ← untouched_iff] at h
    exact h.var_of_mem hx

/-- A term that is not touched stands for the same under more bindings. -/
theorem resolve_eq (h : s.Untouched s' t) (hs : s.Acyclic) (hs' : s'.Acyclic)
    (hext : s.ExtendedBy s') : s.resolve t = s'.resolve t := by
  refine Term.instantiate_congr t fun v hv => ?_
  refine induction (motive := fun v => s.resolveVar v = s'.resolveVar v) hs hext
    (fun v hv hv' => ?_) (fun v u hv hv' ih => ?_) (h.var_of_mem hv)
  · rw [resolveVar_of_unbound hv, resolveVar_of_unbound hv']
  · rw [hs.resolveVar_of_bound hv, hs'.resolveVar_of_bound hv']
    exact Term.instantiate_congr u ih

/-- It is followed to the same place, too. -/
theorem walk_eq (h : s.Untouched s' t) (hs : s.Acyclic) (hs' : s'.Acyclic)
    (hext : s.ExtendedBy s') : s.walk t = s'.walk t := by
  -- what is no variable is walked to itself
  have hwalk : ∀ {u : Term}, (∀ v ∈ u.vars, s.walk (.var v) = s'.walk (.var v)) →
      s.walk u = s'.walk u := by
    intro u hu
    cases u with
    | var v => exact hu v (by rw [Term.vars_var]; exact List.mem_cons_self)
    | int | text | compound => rw [walk_of_var?_eq_none rfl, walk_of_var?_eq_none rfl]
  refine hwalk fun v hv => ?_
  refine induction (motive := fun v => s.walk (.var v) = s'.walk (.var v)) hs hext
    (fun v hv hv' => ?_) (fun v u hv hv' ih => ?_) (h.var_of_mem hv)
  · rw [walk_of_unbound hv, walk_of_unbound hv']
  · rw [hs.walk_of_bound hv, hs'.walk_of_bound hv']
    exact hwalk ih

end Untouched

/-! ### What a unification binds -/

/-- The bindings after a success are the old ones and those that it lists. -/
structure BoundBy (s : Subst) (u : Unifier) : Prop where
  get?_iff : ∀ v t, u.subst.get? v = some t ↔ s.get? v = some t ∨ (v, t) ∈ u.bindings
  unbound : ∀ v t, (v, t) ∈ u.bindings → s.get? v = none

namespace BoundBy

variable {u u' : Unifier}

/-- A success keeps all bindings. -/
theorem extendedBy (h : s.BoundBy u) : s.ExtendedBy u.subst := fun v t hv =>
  (h.get?_iff v t).mpr (.inl hv)

/-- What a success lists, it has bound. -/
theorem bound (h : s.BoundBy u) (b : Var × Term) (hb : b ∈ u.bindings) :
    u.subst.get? b.1 = some b.2 :=
  (h.get?_iff b.1 b.2).mpr (.inr hb)

/-- A variable that was unbound and has a value now is among those that were bound. -/
theorem mem_bindings (h : s.BoundBy u) (hs : s.Acyclic) (hv : v ∈ s.unboundVars t)
    (ha : u.subst.get? v = some a) : (v, a) ∈ u.bindings := by
  rcases (h.get?_iff v a).mp ha with hold | hnew
  · rw [(hs.mem_unboundVars_iff.mp hv).1] at hold
    cases hold
  · exact hnew

/-- A unifier that goes on to bind still lists all that is new. -/
theorem grow (h : s.BoundBy u) (hu : u.Extends u') : s.BoundBy u' := by
  induction hu with
  | refl => exact h
  | @bind u' a t _ ha _ ih =>
    have hs : s.get? a = none := ih.extendedBy.unbound ha
    constructor
    · intro v w
      rw [get?_bind, List.mem_append, List.mem_singleton, Prod.mk.injEq]
      split
      · next hav =>
        subst hav
        have hnew : (a, w) ∉ u'.bindings := fun hmem => by
          have hbound := (ih.get?_iff a w).mpr (.inr hmem)
          rw [ha] at hbound
          cases hbound
        simp only [hs, hnew, reduceCtorEq, true_and, false_or, Option.some_inj, eq_comm]
      · next hav =>
        rw [ih.get?_iff v w]
        simp only [Ne.symm hav, false_and, or_false]
    · intro v w hmem
      rcases List.mem_append.mp hmem with hmem | hmem
      · exact ih.unbound v w hmem
      · rw [List.mem_singleton, Prod.mk.injEq] at hmem
        rwa [hmem.1]

end BoundBy

/-- A unification that succeeds binds what it lists, and nothing else. -/
theorem boundBy_of_unify? {u : Unifier} {x y : Term} (hs : s.Acyclic) (hweight : s.Weighed)
    (hu : s.unify? x y = some u) : s.BoundBy u := by
  have hstart : s.BoundBy ⟨s, []⟩ := ⟨fun v t => by simp, fun v t h => by cases h⟩
  have hruns := Unifier.runs_unify (u := ⟨s, []⟩) hs hweight x y
  unfold unify? at hu
  rcases hr : Unifier.unify ⟨s, []⟩ x y with ⟨_ | _, u'⟩ <;> rw [hr] at hu hruns <;> cases hu
  exact hstart.grow (hruns.extends hs)

end LogicMachine.Subst
