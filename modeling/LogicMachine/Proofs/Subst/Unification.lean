import Mathlib.Algebra.GroupWithZero.Nat
import LogicMachine.Proofs.Subst.Solutions
import LogicMachine.Subst.Unification

/-!
# Unification solves equations

To unify two terms is to add an equation. Whatever comes of it, only unbound variables are bound,
and only to terms that do not lead back to them. A success makes the terms equal, and it loses no
valuation that satisfies the substitution and makes the terms equal.
-/

namespace LogicMachine

/-- The property passes from a compound to its arguments. -/
def Term.Hereditary (P : Term → Prop) : Prop :=
  ∀ f args, P (.compound f args) → ∀ a ∈ args, P a

/-- A hereditary property passes to the arguments of any term. -/
theorem Term.Hereditary.children {P : Term → Prop} (hP : Term.Hereditary P) {t : Term} (ht : P t) :
    ∀ a ∈ t.children, P a := by
  intro a ha
  cases t with
  | compound f args => exact hP f args ht a ha
  | var | int | text => cases ha

namespace Subst

/-- `s.Grown P s'`: the second substitution comes from the first by binding unbound variables, one
after another, to terms with the property `P` that do not lead to them. -/
inductive Grown (P : Term → Prop) (s : Subst) : Subst → Prop
  | refl : Grown P s s
  | bind {s' : Subst} {v : Var} {t : Term} (h : Grown P s s') (hv : s'.get? v = none)
      (hocc : s'.occurs v t = false) (ht : P t) : Grown P s (s'.bind v t)

/-- Have the values of all bound variables the property `P`? -/
def ValuesIn (s : Subst) (P : Term → Prop) : Prop := ∀ v t, s.get? v = some t → P t

/-- The weight of a substitution accounts for the nodes of all its values. -/
def Weighed (s : Subst) : Prop :=
  ∃ values : List Term, (∀ v t, s.get? v = some t → t ∈ values) ∧
    (values.map Term.nodes).sum ≤ s.weight

/-- The empty substitution has no values, and weighs nothing. -/
theorem weighed_empty : empty.Weighed := by
  refine ⟨[], fun v t ht => ?_, Nat.zero_le _⟩
  rw [get?_empty] at ht
  cases ht

namespace Grown

variable {P : Term → Prop} {s s' s'' : Subst} {θ : Valuation}

/-- What has grown and grows on has grown. -/
theorem trans (h : Grown P s s') (h' : Grown P s' s'') : Grown P s s'' := by
  induction h' with
  | refl => exact h
  | bind _ hv hocc ht ih => exact .bind ih hv hocc ht

/-- Bindings that pass the occurs check make no cycle. -/
theorem acyclic (h : Grown P s s') (hs : s.Acyclic) : s'.Acyclic := by
  induction h with
  | refl => exact hs
  | @bind s' v t _ hv hocc _ ih =>
    refine ih.bind fun x hx hreach => ?_
    have hfound := (ih.occurs_iff hv).mpr ⟨x, hx, hreach⟩
    rw [hocc] at hfound
    cases hfound

/-- If old values and new ones have the property, all have. -/
theorem valuesIn (h : Grown P s s') (hs : s.ValuesIn P) : s'.ValuesIn P := by
  induction h with
  | refl => exact hs
  | bind _ _ _ ht ih =>
    intro w u hw
    rw [get?_bind] at hw
    split at hw
    · obtain rfl := Option.some.inj hw
      exact ht
    · exact ih w u hw

/-- With every binding the weight goes up by the nodes of its value. -/
theorem weighed (h : Grown P s s') (hs : s.Weighed) : s'.Weighed := by
  induction h with
  | refl => exact hs
  | @bind s' v t _ _ _ _ ih =>
    obtain ⟨values, hvalues, hsum⟩ := ih
    refine ⟨t :: values, fun w u hw => ?_, ?_⟩
    · rw [get?_bind] at hw
      split at hw
      · obtain rfl := Option.some.inj hw
        exact List.mem_cons_self
      · exact List.mem_cons_of_mem _ (hvalues w u hw)
    · rw [List.map_cons, List.sum_cons, weight_bind]
      omega

/-- The old equations stay. -/
theorem satisfiedBy (h : Grown P s s') (hs : s'.SatisfiedBy θ) : s.SatisfiedBy θ := by
  induction h with
  | refl => exact hs
  | bind _ hv _ _ ih => exact ih ((satisfiedBy_bind hv).mp hs).1

end Grown

variable {P : Term → Prop} {s : Subst} {t : Term}

/-- What a term is followed to has the property too. -/
theorem ValuesIn.walk (h : s.ValuesIn P) (ht : P t) : P (s.walk t) := by
  have hwithin : ∀ hops t, P t → P (s.walkWithin hops t) := by
    intro hops
    induction hops with
    | zero =>
      intro t ht
      cases t <;> exact ht
    | succ hops ih =>
      intro t ht
      cases t with
      | var v =>
        simp only [walkWithin]
        cases hv : s.get? v with
        | none => exact ht
        | some u => exact ih u (h v u hv)
      | int | text | compound => exact ht
  exact hwithin s.size t ht

end Subst

/-! ### Heads -/

namespace Term

variable {x y : Term} {θ : Valuation}

/-- Two terms whose heads agree have equal values when their arguments have. -/
theorem apply_eq_iff_of_headsAgree (h : x.headsAgree y = true) :
    x.apply θ = y.apply θ ↔
      List.Forall₂ (fun a b => a.apply θ = b.apply θ) x.children y.children := by
  cases x <;> cases y <;> simp only [headsAgree, beq_iff_eq, Bool.and_eq_true,
    Bool.false_eq_true] at h
  · subst h
    exact ⟨fun _ => .nil, fun _ => rfl⟩
  · subst h
    exact ⟨fun _ => .nil, fun _ => rfl⟩
  · obtain ⟨rfl, -⟩ := h
    simp only [apply_compound, compound.injEq, true_and, children]
    rw [← List.forall₂_eq_eq_eq, List.forall₂_map_left_iff, List.forall₂_map_right_iff]

/-- Terms whose heads agree have equally many arguments. -/
theorem length_children_of_headsAgree (h : x.headsAgree y = true) :
    x.children.length = y.children.length := by
  cases x <;> cases y <;> simp only [headsAgree, Bool.and_eq_true, beq_iff_eq,
    Bool.false_eq_true] at h
  · rfl
  · rfl
  · exact h.2

/-- Terms that are no variables can only have equal values if their heads agree. -/
theorem headsAgree_of_apply_eq (hx : ∀ v, x ≠ .var v) (hy : ∀ v, y ≠ .var v)
    (h : x.apply θ = y.apply θ) : x.headsAgree y = true := by
  cases x with
  | var v => exact absurd rfl (hx v)
  | int i => cases y with
    | var v => exact absurd rfl (hy v)
    | int j => simpa [headsAgree] using h
    | text | compound => simp at h
  | text i => cases y with
    | var v => exact absurd rfl (hy v)
    | text j => simpa [headsAgree] using h
    | int | compound => simp at h
  | compound f as => cases y with
    | var v => exact absurd rfl (hy v)
    | compound g bs =>
      rw [apply_compound, apply_compound, compound.injEq] at h
      have hlength := congrArg List.length h.2
      rw [List.length_map, List.length_map] at hlength
      rw [headsAgree, h.1, hlength, beq_self_eq_true, beq_self_eq_true, Bool.and_self]
    | int | text => simp at h

end Term

namespace Unifier

/-- What unification does with two terms, one layer deep: the terms are the same variable, or a
variable is bound, or the arguments are unified in turn, or the heads do not agree. -/
inductive Layer (u : Unifier) (depth : Nat) (x y : Term) : Bool × Unifier → Prop
  | same {a : Var} (hx : u.subst.walk x = .var a) (hy : u.subst.walk y = .var a) :
      Layer u depth x y (true, u)
  | bind {a : Var} {t : Term} (hne : t ≠ .var a)
      (h : u.subst.walk x = .var a ∧ u.subst.walk y = t ∨
        u.subst.walk y = .var a ∧ u.subst.walk x = t) : Layer u depth x y (u.bind a t)
  | descend (h : (u.subst.walk x).headsAgree (u.subst.walk y) = true) :
      Layer u depth x y
        (inStep (unifyWithin depth) u (u.subst.walk x).children (u.subst.walk y).children)
  | clash (hx : ∀ v, u.subst.walk x ≠ .var v) (hy : ∀ v, u.subst.walk y ≠ .var v)
      (h : (u.subst.walk x).headsAgree (u.subst.walk y) = false) : Layer u depth x y (false, u)

/-- One layer of a unification, case by case. -/
theorem unifyWithin_layer (u : Unifier) (depth : Nat) (x y : Term) :
    Layer u depth x y (u.unifyWithin (depth + 1) x y) := by
  have hdescend : ∀ x' y', u.subst.walk x = x' → u.subst.walk y = y' → (∀ v, x' ≠ .var v) →
      (∀ v, y' ≠ .var v) → Layer u depth x y
        (if x'.headsAgree y' then inStep (unifyWithin depth) u x'.children y'.children
          else (false, u)) := by
    rintro x' y' rfl rfl hx hy
    split
    · next h => exact .descend h
    · next h => exact .clash hx hy (Bool.not_eq_true _ ▸ h)
  rw [unifyWithin]
  split
  · next a b hx hy =>
    split
    · next hab =>
      subst hab
      exact .same hx hy
    · next hab => exact .bind (fun h => hab (Term.var.inj h).symm) (.inl ⟨hx, hy⟩)
  · next a hx hy => exact .bind (hy a) (.inl ⟨hx, rfl⟩)
  · next b hy hx => exact .bind (hx b) (.inr ⟨hy, rfl⟩)
  · next hx hy _ => exact hdescend _ _ rfl rfl hx hy

/-! ### What unification binds -/

section Grown

variable {P : Term → Prop} {u : Unifier}

/-- What `bind` does to an unbound variable. -/
theorem grown_bind {a : Var} {t : Term} (ha : u.subst.get? a = none) (ht : P t) :
    u.subst.Grown P (u.bind a t).2.subst := by
  unfold bind
  split
  · exact .refl
  · next hocc => exact .bind .refl ha (Bool.not_eq_true _ ▸ hocc) ht

/-- Unifying arguments in step grows a substitution if every pair of them does. -/
theorem grown_inStep {step : Unifier → Term → Term → Bool × Unifier}
    (hstep : ∀ (u : Unifier) (a b : Term), u.subst.Acyclic → u.subst.ValuesIn P → P a → P b →
      u.subst.Grown P (step u a b).2.subst)
    {as bs : List Term} (h : u.subst.Acyclic) (hvals : u.subst.ValuesIn P) (has : ∀ a ∈ as, P a)
    (hbs : ∀ b ∈ bs, P b) : u.subst.Grown P (inStep step u as bs).2.subst := by
  induction as generalizing u bs with
  | nil => exact .refl
  | cons a as ih =>
    cases bs with
    | nil => exact .refl
    | cons b bs =>
      rw [List.forall_mem_cons] at has hbs
      have hfirst := hstep u a b h hvals has.1 hbs.1
      rw [inStep]
      rcases hr : step u a b with ⟨_ | _, u'⟩ <;> rw [hr] at hfirst
      · exact hfirst
      · exact hfirst.trans (ih (hfirst.acyclic h) (hfirst.valuesIn hvals) has.2 hbs.2)

/-- Whatever comes of it, unification binds unbound variables, to parts of what was there before. -/
theorem grown_unifyWithin (hP : Term.Hereditary P) (depth : Nat) {x y : Term}
    (h : u.subst.Acyclic) (hvals : u.subst.ValuesIn P) (hx : P x) (hy : P y) :
    u.subst.Grown P (u.unifyWithin depth x y).2.subst := by
  induction depth generalizing u x y with
  | zero => exact .refl
  | succ depth ih =>
    have hx' := hvals.walk hx
    have hy' := hvals.walk hy
    generalize hr : u.unifyWithin (depth + 1) x y = r
    cases hr ▸ u.unifyWithin_layer depth x y with
    | same => exact .refl
    | bind hne hwalk =>
      rcases hwalk with ⟨ha, rfl⟩ | ⟨ha, rfl⟩
      · exact grown_bind (h.walk_unbound ha) hy'
      · exact grown_bind (h.walk_unbound ha) hx'
    | descend =>
      exact grown_inStep (fun _ _ _ h hvals ha hb => ih h hvals ha hb) h hvals (hP.children hx')
        (hP.children hy')
    | clash => exact .refl

end Grown

/-! ### What a success says -/

section Sound

variable {u : Unifier} {θ : Valuation}

/-- What every term has, arguments have too. -/
theorem hereditary_true : Term.Hereditary fun _ => True := fun _ _ _ _ _ => trivial

/-- Whatever comes of it, a unification only binds unbound variables, to terms that do not lead to
them. -/
theorem grown_any (h : u.subst.Acyclic) (depth : Nat) (x y : Term) :
    u.subst.Grown (fun _ => True) (u.unifyWithin depth x y).2.subst :=
  grown_unifyWithin hereditary_true depth h (fun _ _ _ => trivial) trivial trivial

/-- If all arguments unify in step, the outcome makes each pair of them equal: later pairs keep the
equations of the earlier ones. -/
theorem inStep_sound {depth : Nat} {as bs : List Term} (h : u.subst.Acyclic)
    (hlength : as.length = bs.length)
    (hstep : ∀ (u : Unifier) (a b : Term), u.subst.Acyclic → (unifyWithin depth u a b).1 = true →
      (unifyWithin depth u a b).2.subst.SatisfiedBy θ → a.apply θ = b.apply θ)
    (hok : (inStep (unifyWithin depth) u as bs).1 = true)
    (hθ : (inStep (unifyWithin depth) u as bs).2.subst.SatisfiedBy θ) :
    List.Forall₂ (fun a b => a.apply θ = b.apply θ) as bs := by
  induction as generalizing u bs with
  | nil =>
    obtain rfl := List.length_eq_zero_iff.mp hlength.symm
    exact .nil
  | cons a as ih =>
    cases bs with
    | nil => cases hlength
    | cons b bs =>
      have hgrown := grown_any h depth a b
      have hfirst := hstep u a b h
      rw [inStep] at hok hθ
      rcases hr : unifyWithin depth u a b with ⟨_ | _, u'⟩ <;>
        rw [hr] at hgrown hfirst hok hθ
      · cases hok
      · have hacyclic := hgrown.acyclic h
        have hrest : u'.subst.Grown (fun _ => True)
            (inStep (unifyWithin depth) u' as bs).2.subst :=
          grown_inStep (fun u a b h _ _ _ => grown_any h depth a b) hacyclic
            (fun _ _ _ => trivial) (fun _ _ => trivial) fun _ _ => trivial
        exact .cons (hfirst rfl (hrest.satisfiedBy hθ))
          (ih hacyclic (Nat.succ.inj hlength) hok hθ)

/-- A success makes the two terms equal. -/
theorem unifyWithin_sound (depth : Nat) {x y : Term} (h : u.subst.Acyclic)
    (hok : (u.unifyWithin depth x y).1 = true)
    (hθ : (u.unifyWithin depth x y).2.subst.SatisfiedBy θ) : x.apply θ = y.apply θ := by
  induction depth generalizing u x y with
  | zero => cases hok
  | succ depth ih =>
    have hgrown := grown_any h (depth + 1) x y
    have hold := hgrown.satisfiedBy hθ
    rw [← hold.walk x, ← hold.walk y]
    generalize hr : u.unifyWithin (depth + 1) x y = r at hok hθ
    cases hr ▸ u.unifyWithin_layer depth x y with
    | same hx hy => rw [hx, hy]
    | @bind a t hne hwalk =>
      unfold bind at hok hθ
      split at hok
      · cases hok
      · next hocc =>
        rw [if_neg hocc] at hθ
        rcases hwalk with ⟨ha, rfl⟩ | ⟨ha, rfl⟩
        · rw [ha, Term.apply_var]
          exact ((Subst.satisfiedBy_bind (h.walk_unbound ha)).mp hθ).2
        · rw [ha, Term.apply_var]
          exact ((Subst.satisfiedBy_bind (h.walk_unbound ha)).mp hθ).2.symm
    | descend hagree =>
      rw [Term.apply_eq_iff_of_headsAgree hagree]
      exact inStep_sound h (Term.length_children_of_headsAgree hagree)
        (fun u a b h hok hθ => ih h hok hθ) hok hθ
    | clash => cases hok

end Sound

end Unifier

end LogicMachine
