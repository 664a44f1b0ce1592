import LogicMachine.Proofs.Subst.Extension
import LogicMachine.Proofs.Subst.MostGeneral

/-!
# Evaluating early and late

What a term stands for has nothing left to evaluate in it, so that only its variables can make an
operator in it applicable later on. Whether a term is evaluated when some variables are bound and
again when more are, or only then, makes therefore no difference.
-/

namespace LogicMachine

namespace Term

/-- No part of the term is an operator that has a value. -/
def Evaluated (t : Term) : Prop := ∀ u ∈ t.subterms, u.collapse = none

variable {t u : Term} {f : Functor} {args : List Term} {σ τ : Var → Term}

/-- A term without arguments is its only part. -/
theorem evaluated_of_children_eq_nil (h : t.children = []) (hcollapse : t.collapse = none) :
    t.Evaluated := by
  intro u hu
  cases t with
  | compound f args =>
    obtain rfl : args = [] := h
    rw [subterms, subtermsAll, List.mem_singleton] at hu
    rwa [hu]
  | var | int | text =>
    rw [subterms, List.mem_singleton] at hu
    rwa [hu]

/-- In a compound nothing is to be evaluated at its root nor in its arguments. -/
theorem evaluated_compound_iff :
    (compound f args).Evaluated ↔
      (compound f args).collapse = none ∧ ∀ a ∈ args, a.Evaluated := by
  rw [Evaluated, subterms, List.forall_mem_cons, subtermsAll_eq_flatMap]
  refine and_congr_right fun _ => ⟨fun h a ha u hu => ?_, fun h u hu => ?_⟩
  · exact h u (List.mem_flatMap.mpr ⟨a, ha, hu⟩)
  · obtain ⟨a, ha, hu⟩ := List.mem_flatMap.mp hu
    exact h a ha u hu

/-- A value is an integer or a text, and so there is nothing to evaluate in it. -/
theorem evaluated_of_apply {op : Builtin} (h : op.apply args = some u) : u.Evaluated := by
  unfold Builtin.apply at h
  split at h
  · obtain ⟨i, -, rfl⟩ := Option.map_eq_some_iff.mp h
    exact evaluated_of_children_eq_nil rfl rfl
  · obtain rfl := Option.some.inj h
    exact evaluated_of_children_eq_nil rfl rfl
  · cases h

/-- A compound stays as it is, or it is ground and gives way to a value. -/
theorem reduce_cases (f : Functor) (args : List Term) :
    (compound f args).collapse = none ∧ (compound f args).reduce = compound f args ∨
      (∀ a ∈ args, a.isGround = true) ∧ (compound f args).reduce.isGround = true ∧
        (compound f args).reduce.Evaluated := by
  rw [reduce]
  cases hvalue : (compound f args).collapse with
  | none => exact .inl ⟨rfl, rfl⟩
  | some u =>
    unfold collapse at hvalue
    split at hvalue
    · next op args' heq =>
      obtain ⟨-, rfl⟩ := compound.inj heq
      split at hvalue
      · next hground =>
        exact .inr ⟨List.all_eq_true.mp hground, Builtin.isGround_of_apply_eq_some hvalue,
          evaluated_of_apply hvalue⟩
      · cases hvalue
    · cases hvalue

/-- Once arguments are evaluated, reduction leaves nothing to evaluate at the root either. -/
theorem evaluated_reduce (h : ∀ a ∈ args, a.Evaluated) : (compound f args).reduce.Evaluated := by
  rcases reduce_cases f args with ⟨hnone, heq⟩ | ⟨-, -, hvalue⟩
  · rw [heq]
    exact evaluated_compound_iff.mpr ⟨hnone, h⟩
  · exact hvalue

/-- No variable disappears when a compound gives way to its value: it had none. -/
theorem vars_reduce (f : Functor) (args : List Term) :
    (compound f args).reduce.vars = args.flatMap vars := by
  rcases reduce_cases f args with ⟨-, heq⟩ | ⟨hargs, hvalue, -⟩
  · rw [heq, vars_compound]
  · rw [(isGround_iff_vars_eq_nil _).mp hvalue, eq_comm, List.flatMap_eq_nil_iff]
    exact fun a ha => (isGround_iff_vars_eq_nil a).mp (hargs a ha)

/-! ### Instantiating -/

/-- Nothing is left to evaluate where nothing was left in what the variables are replaced by. -/
theorem evaluated_instantiate (hσ : ∀ v ∈ t.vars, (σ v).Evaluated) :
    (t.instantiate σ).Evaluated := by
  induction t with
  | var v => simpa using hσ v (by simp)
  | int i => exact evaluated_of_children_eq_nil (by simp [children]) (by simp [collapse])
  | text s => exact evaluated_of_children_eq_nil (by simp [children]) (by simp [collapse])
  | compound f args ih =>
    rw [instantiate_compound]
    refine evaluated_reduce (List.forall_mem_map.mpr fun a ha => ih a ha fun v hv => ?_)
    exact hσ v (by simpa using ⟨a, ha, hv⟩)

/-- The variables of an instance are those of what the variables are replaced by. -/
theorem vars_instantiate (t : Term) (σ : Var → Term) :
    (t.instantiate σ).vars = t.vars.flatMap fun v => (σ v).vars := by
  induction t with
  | var v => simp
  | int i => simp
  | text s => simp
  | compound f args ih =>
    rw [instantiate_compound, vars_reduce, vars_compound, List.flatMap_map, List.flatMap_assoc]
    exact List.flatMap_congr ih

/-- A term in which nothing is to be evaluated is changed only at its variables. -/
theorem instantiate_eq_self (h : t.Evaluated) (hσ : ∀ v ∈ t.vars, σ v = .var v) :
    t.instantiate σ = t := by
  induction t with
  | var v => simpa using hσ v (by simp)
  | int i => simp
  | text s => simp
  | compound f args ih =>
    obtain ⟨hnone, hargs⟩ := evaluated_compound_iff.mp h
    have hsame : args.map (instantiate σ) = args := by
      refine (List.map_congr_left fun a ha => ?_).trans (List.map_id args)
      exact ih a ha (hargs a ha) fun v hv => hσ v (by simpa using ⟨a, ha, hv⟩)
    rw [instantiate_compound, hsame, reduce, hnone, Option.getD_none]

/-- It makes no difference whether a compound of such terms gives way to its value before its
variables are replaced, or after that: if it has a value already, none of its arguments changes. -/
theorem instantiate_reduce (h : ∀ a ∈ args, a.Evaluated) (f : Functor) :
    (compound f args).reduce.instantiate τ =
      (compound f (args.map (instantiate τ))).reduce := by
  rcases reduce_cases f args with ⟨-, heq⟩ | ⟨hground, hvalue, hreduced⟩
  · rw [heq, instantiate_compound]
  · have hself : ∀ {u : Term}, u.Evaluated → u.isGround = true → u.instantiate τ = u := by
      intro u hu hu'
      refine instantiate_eq_self hu fun v hv => ?_
      rw [(isGround_iff_vars_eq_nil u).mp hu'] at hv
      cases hv
    have hsame : args.map (instantiate τ) = args := by
      refine (List.map_congr_left fun a ha => ?_).trans (List.map_id _)
      exact hself (h a ha) (hground a ha)
    rw [hself hreduced hvalue, hsame]

/-- Instantiating twice is instantiating once, with what the variables have come to in the end. -/
theorem instantiate_instantiate (hσ : ∀ v ∈ t.vars, (σ v).Evaluated) :
    (t.instantiate σ).instantiate τ = t.instantiate fun v => (σ v).instantiate τ := by
  induction t with
  | var v => simp
  | int i => simp
  | text s => simp
  | compound f args ih =>
    have hevaluated : ∀ a ∈ args, ∀ v ∈ a.vars, (σ v).Evaluated := fun a ha v hv =>
      hσ v (by simpa using ⟨a, ha, hv⟩)
    have hargs : (args.map (instantiate σ)).map (instantiate τ) =
        args.map (instantiate fun v => (σ v).instantiate τ) := by
      rw [List.map_map]
      exact List.map_congr_left fun a ha => ih a ha (hevaluated a ha)
    have hinstances : ∀ a ∈ args.map (instantiate σ), a.Evaluated :=
      List.forall_mem_map.mpr fun a ha => evaluated_instantiate (hevaluated a ha)
    rw [instantiate_compound, instantiate_reduce hinstances, hargs, instantiate_compound]

end Term

namespace Subst

variable {s s' : Subst} {u : Unifier} {x y t : Term}

/-! ### What terms stand for -/

/-- What a variable stands for is evaluated, by induction along the bindings. -/
theorem Acyclic.evaluated_resolveVar (h : s.Acyclic) (v : Var) : (s.resolveVar v).Evaluated := by
  induction v using h.induction with
  | unbound v hv =>
    rw [resolveVar_of_unbound hv]
    exact Term.evaluated_of_children_eq_nil rfl rfl
  | bound v t hv ih =>
    rw [h.resolveVar_of_bound hv]
    exact Term.evaluated_instantiate ih

/-- What a term stands for has nothing left to evaluate. -/
theorem Acyclic.evaluated_resolve (h : s.Acyclic) (t : Term) : (s.resolve t).Evaluated :=
  Term.evaluated_instantiate fun v _ => h.evaluated_resolveVar v

/-- Nor are there bound variables left in it. -/
theorem Acyclic.unbound_of_mem_vars_resolve (h : s.Acyclic) {w : Var}
    (hw : w ∈ (s.resolve t).vars) : s.get? w = none := by
  have hvar : ∀ v, ∀ w ∈ (s.resolveVar v).vars, s.get? w = none := by
    intro v
    induction v using h.induction with
    | unbound v hv =>
      rw [resolveVar_of_unbound hv, Term.vars_var]
      exact List.forall_mem_singleton.mpr hv
    | bound v t hv ih =>
      intro w hw
      rw [h.resolveVar_of_bound hv, resolve, Term.vars_instantiate, List.mem_flatMap] at hw
      obtain ⟨x, hx, hw⟩ := hw
      exact ih x hx w hw
  rw [resolve, Term.vars_instantiate, List.mem_flatMap] at hw
  obtain ⟨v, -, hw⟩ := hw
  exact hvar v w hw

/-- With more variables bound, a term stands for the same as what it stood for before. -/
theorem ExtendedBy.resolve_resolve (hext : s.ExtendedBy s') (hs : s.Acyclic) (hs' : s'.Acyclic)
    (t : Term) : s'.resolve (s.resolve t) = s'.resolve t := by
  have hterm : ∀ t : Term, (∀ v ∈ t.vars, s'.resolve (s.resolveVar v) = s'.resolveVar v) →
      s'.resolve (s.resolve t) = s'.resolve t := fun t ht =>
    (Term.instantiate_instantiate fun v _ => hs.evaluated_resolveVar v).trans
      (Term.instantiate_congr t ht)
  have hvar : ∀ v, s'.resolve (s.resolveVar v) = s'.resolveVar v := by
    intro v
    induction v using hs.induction with
    | unbound v hv => rw [resolveVar_of_unbound hv, resolve_var]
    | bound v u hv ih =>
      rw [hs.resolveVar_of_bound hv, hs'.resolveVar_of_bound (hext v u hv)]
      exact hterm u ih
  exact hterm t fun v _ => hvar v

/-! ### Later substitutions -/

/-- The substitutions that further unifications, all of them successful, lead to. -/
inductive Later (s : Subst) : Subst → Prop
  | refl : Later s s
  | unify? {s' : Subst} {u : Unifier} {x y : Term} (h : Later s s') (hu : s'.unify? x y = some u) :
      Later s u.subst

/-- A unification that succeeds gives what it has bound. -/
theorem unify?_of_unify (h : (Unifier.unify ⟨s, []⟩ x y).1 = true) :
    s.unify? x y = some (Unifier.unify ⟨s, []⟩ x y).2 := by
  rcases hr : Unifier.unify ⟨s, []⟩ x y with ⟨unified, u⟩
  rw [hr] at h
  obtain rfl : unified = true := h
  simp only [unify?, hr]

/-- What successful unifications lead to is reachable. -/
theorem Later.reachable (h : s.Later s') (hs : s.Reachable) : s'.Reachable := by
  induction h with
  | refl => exact hs
  | unify? _ hu ih => exact ih.of_unify? hu

/-- No binding is taken back. -/
theorem Later.extendedBy (h : s.Later s') (hs : s.Reachable) : s.ExtendedBy s' := by
  induction h with
  | refl => exact fun _ _ => id
  | @unify? s' u x y h hu ih =>
    have hs' := h.reachable hs
    exact fun v t hv => (boundBy_of_unify? hs'.acyclic hs'.weighed hu).extendedBy v t (ih v t hv)

namespace Reachable

/-- Evaluating a term when some variables are bound, and again after further unifications, gives the
same as evaluating it then only. In particular nothing changes when it is evaluated again at once,
for no variable in what it stands for is bound and no part of it is an operator that has a value. -/
theorem resolve_early (h : s.Reachable) (hlater : s.Later s') (t : Term) :
    s'.resolve (s.resolve t) = s'.resolve t ∧
      s.resolve (s.resolve t) = s.resolve t ∧
      (∀ v ∈ (s.resolve t).vars, s.get? v = none) ∧
      ∀ u ∈ (s.resolve t).subterms, u.collapse = none := by
  have hs := h.acyclic
  refine ⟨?_, ?_, fun v => hs.unbound_of_mem_vars_resolve, hs.evaluated_resolve t⟩
  · exact (hlater.extendedBy h).resolve_resolve hs (hlater.reachable h).acyclic t
  · exact ExtendedBy.resolve_resolve (fun _ _ => id) hs hs t

/-- With `_1` bound to `_2 * 2`, the term `f(_1 + 1, 1 + 2, 7 / 0)` becomes
`f(_2 * 2 + 1, 3, 7 / 0)`. Once `_2` is bound to `5`, that becomes `f(11, 3, 7 / 0)`, and so does
the term itself. -/
theorem resolve_early_product :
    let op (b : Builtin) (x y : Term) : Term := .compound (.builtin b) [x, y]
    let t : Term :=
      .app "f" [op .add (.var 1) (.int 1), op .add (.int 1) (.int 2), op .div (.int 7) (.int 0)]
    let s := (Unifier.unify ⟨.empty, []⟩ (.var 1) (op .mul (.var 2) (.int 2))).2.subst
    let s' := (Unifier.unify ⟨s, []⟩ (.var 2) (.int 5)).2.subst
    s.Reachable ∧ s.Later s' ∧
      s.resolve t =
        .app "f" [op .add (op .mul (.var 2) (.int 2)) (.int 1), .int 3, op .div (.int 7) (.int 0)] ∧
      s'.resolve t = .app "f" [.int 11, .int 3, op .div (.int 7) (.int 0)] ∧
      s'.resolve (s.resolve t) = s'.resolve t := by
  intro op t s s'
  have hs : s.Reachable := .unify (u := ⟨.empty, []⟩) .empty _ _
  have hlater : s.Later s' := .unify? .refl (unify?_of_unify (by decide +kernel))
  exact ⟨hs, hlater, by decide +kernel, by decide +kernel, (hs.resolve_early hlater t).1⟩

end Reachable

end Subst

end LogicMachine
