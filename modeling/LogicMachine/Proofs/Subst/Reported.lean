import LogicMachine.Proofs.Subst.Extension

/-!
# What unifications report

A unifier lists the bindings that it makes. However many unifications it is used for, and whether or
not they succeed, the list accounts for everything that has become of the substitution. A success
adds nothing to the list exactly if the two terms stood for the same tree already.
-/

namespace LogicMachine

namespace Subst

open Relation

variable {s : Subst} {a : Var} {t : Term}

/-- A term that stands for an unbound variable, when nothing is evaluated, leads to it. -/
theorem Acyclic.reaches_of_apply_expand (h : s.Acyclic) (ht : t.apply s.expand = .var a) :
    ∃ v ∈ t.vars, ReflTransGen s.Mentions v a := by
  -- only a variable can stand for a variable
  have hterm : ∀ t : Term, (∀ v ∈ t.vars, s.expand v = .var a → ReflTransGen s.Mentions v a) →
      t.apply s.expand = .var a → ∃ v ∈ t.vars, ReflTransGen s.Mentions v a := by
    intro t hvars ht
    cases t with
    | var v =>
      rw [Term.apply_var] at ht
      have hv : v ∈ (Term.var v).vars := by simp
      exact ⟨v, hv, hvars v hv ht⟩
    | int | text | compound => simp at ht
  have hvar : ∀ v, s.expand v = .var a → ReflTransGen s.Mentions v a := by
    intro v
    induction v using h.induction with
    | unbound v hv =>
      intro hexpand
      rw [expand_of_unbound hv] at hexpand
      obtain rfl := Term.var.inj hexpand
      exact .refl
    | bound v u hv ih =>
      intro hexpand
      rw [h.satisfiedBy_expand v u hv] at hexpand
      obtain ⟨w, hw, hwa⟩ := hterm u ih hexpand
      exact .head ⟨u, hv, hw⟩ hwa
  exact hterm t (fun v _ => hvar v) ht

/-- No binding is taken back. -/
theorem Grown.extendedBy {P : Term → Prop} {s' : Subst} (h : s.Grown P s') : s.ExtendedBy s' := by
  induction h with
  | refl => exact fun _ _ => id
  | @bind s' a t _ ha _ _ ih =>
    intro v u hv
    have hne : a ≠ v := by
      rintro rfl
      rw [ih a u hv] at ha
      cases ha
    rw [get?_bind, if_neg hne]
    exact ih v u hv

/-- A substitution with a list of bindings on top, made one after another. -/
def bindAll (s : Subst) (bindings : List (Var × Term)) : Subst :=
  bindings.foldl (fun s b => s.bind b.1 b.2) s

end Subst

namespace Unifier

variable {s : Subst} {u u' : Unifier} {x y t : Term} {a : Var} {calls : List (Term × Term)}

/-- Unify pairs of terms one after another. A pair that does not unify leaves what it has bound, and
does not stop the others. -/
def unifyAll (u : Unifier) (calls : List (Term × Term)) : Unifier :=
  calls.foldl (fun u call => (u.unify call.1 call.2).2) u

/-- The list of the unifier accounts for all that has become of `s`. -/
structure Accounts (s : Subst) (u : Unifier) : Prop extends s.BoundBy u where
  subst_eq : u.subst = s.bindAll u.bindings
  nodup : (u.bindings.map Prod.fst).Nodup
  size_eq : u.subst.size = s.size + u.bindings.length

namespace Accounts

/-- Before any unification the list is empty, and nothing has changed. -/
theorem start (s : Subst) : Accounts s ⟨s, []⟩ where
  get?_iff v t := by simp
  unbound v t h := nomatch h
  subst_eq := rfl
  nodup := .nil
  size_eq := rfl

/-- One more binding, of a variable that has none. -/
theorem bind (h : Accounts s u) (ha : u.subst.get? a = none) (hocc : u.subst.occurs a t = false) :
    Accounts s ⟨u.subst.bind a t, u.bindings ++ [(a, t)]⟩ where
  toBoundBy := h.toBoundBy.grow (.bind .refl ha hocc)
  subst_eq := by
    rw [Subst.bindAll, List.foldl_append]
    exact congrArg (fun s => Subst.bind s a t) h.subst_eq
  nodup := by
    have hnew : a ∉ u.bindings.map Prod.fst := by
      intro hmem
      obtain ⟨b, hb, rfl⟩ := List.mem_map.mp hmem
      rw [h.bound b hb] at ha
      cases ha
    rw [List.map_append, List.map_singleton, ← List.concat_eq_append]
    exact h.nodup.concat hnew
  size_eq := by
    have hunbound : u.subst.isBound a = false := by rw [Subst.isBound, ha, Option.isSome_none]
    rw [Subst.size_bind, hunbound, if_neg Bool.false_ne_true, h.size_eq, List.length_append,
      List.length_singleton, Nat.add_assoc]

/-- The list accounts for everything as it grows, binding by binding. -/
theorem grow_all (h : Accounts s u) (hu : u.Extends u') : Accounts s u' := by
  induction hu with
  | refl => exact h
  | bind _ ha hocc ih => exact ih.bind ha hocc

end Accounts

/-- A single unification only binds unbound variables, and lists what it binds. -/
theorem extends_unify (h : u.subst.Acyclic) (hweight : u.subst.Weighed) (x y : Term) :
    u.Extends (u.unify x y).2 :=
  (runs_unify h hweight x y).extends h

/-- Whatever unifications are tried, all that they do is to bind unbound variables. -/
theorem extends_unifyAll (h : u.subst.Reachable) (calls : List (Term × Term)) :
    u.Extends (u.unifyAll calls) ∧ (u.unifyAll calls).subst.Reachable := by
  induction calls generalizing u with
  | nil => exact ⟨.refl, h⟩
  | cons call calls ih =>
    have hfirst := extends_unify h.acyclic h.weighed call.1 call.2
    obtain ⟨hrest, hreachable⟩ := ih (.unify h call.1 call.2)
    exact ⟨hfirst.trans hrest, hreachable⟩

/-- New bindings are listed behind the old ones. -/
theorem Extends.isPrefix (h : u.Extends u') : u.bindings <+: u'.bindings := by
  induction h with
  | refl => exact List.prefix_rfl
  | bind _ _ _ ih => exact ih.trans (List.prefix_append _ _)

/-- Where nothing was listed, nothing was bound. -/
theorem Extends.eq_of_bindings_eq (h : u.Extends u') (heq : u'.bindings = u.bindings) :
    u' = u := by
  cases h with
  | refl => rfl
  | bind h =>
    have hle := h.isPrefix.length_le
    have hlength := congrArg List.length heq
    rw [List.length_append, List.length_singleton] at hlength
    omega

/-- Where the old bindings say already what the new ones say, there are no new ones: the last of them
would bind a variable to a term that stands for it, and so leads to it. -/
theorem Extends.eq_of_satisfiedBy_expand (h : u.Extends u') (hu : u.subst.Acyclic)
    (hθ : u'.subst.SatisfiedBy u.subst.expand) : u' = u := by
  cases h with
  | refl => rfl
  | @bind u' a t h ha hocc =>
    have hext : u.subst.ExtendedBy u'.subst := h.grown.extendedBy
    have hvalue := ((Subst.satisfiedBy_bind ha).mp hθ).2
    rw [Subst.expand_of_unbound (hext.unbound ha)] at hvalue
    obtain ⟨v, hv, hreach⟩ := hu.reaches_of_apply_expand hvalue.symm
    have hfound := ((h.grown.acyclic hu).occurs_iff ha).mpr ⟨v, hv, hext.reaches hreach⟩
    rw [hocc] at hfound
    cases hfound

end Unifier

namespace Subst.Reachable

variable {s : Subst}

/-- Whatever unifications are tried on top of a substitution, whether or not they succeed: what comes
of it is the substitution with the listed bindings on top, in this order; they are of different
variables, none of which had a value; all old values stay, and the size grows by the number of
bindings. A further unification that succeeds adds none exactly if its two terms stand for the same
tree already. -/
theorem bindings_reported (h : s.Reachable) (calls : List (Term × Term)) :
    let u := Unifier.unifyAll ⟨s, []⟩ calls
    u.subst = s.bindAll u.bindings ∧ (u.bindings.map Prod.fst).Nodup ∧
      (∀ b ∈ u.bindings, s.get? b.1 = none) ∧
      (∀ v t, s.get? v = some t → u.subst.get? v = some t) ∧
      u.subst.size = s.size + u.bindings.length ∧
      ∀ x y, (u.unify x y).1 = true →
        ((u.unify x y).2.bindings = u.bindings ↔
          x.apply u.subst.expand = y.apply u.subst.expand) := by
  intro u
  obtain ⟨hextends, hreachable⟩ := Unifier.extends_unifyAll (u := ⟨s, []⟩) h calls
  have haccounts := (Unifier.Accounts.start s).grow_all hextends
  refine ⟨haccounts.subst_eq, haccounts.nodup, fun b hb => haccounts.unbound b.1 b.2 hb,
    haccounts.extendedBy, haccounts.size_eq, fun x y hok => ?_⟩
  have hu : u.subst.Acyclic := hreachable.acyclic
  have hunify := Unifier.extends_unify hu hreachable.weighed x y
  constructor
  · intro heq
    have hsame : (u.unify x y).2 = u := hunify.eq_of_bindings_eq heq
    exact Unifier.unifyWithin_sound _ hu hok (hsame.symm ▸ hu.satisfiedBy_expand)
  · intro heq
    obtain ⟨u', hu', hθ⟩ :=
      Subst.unify_complete hu hreachable.weighed hu.satisfiedBy_expand heq
    rw [hu'] at hunify ⊢
    rw [hunify.eq_of_satisfiedBy_expand hu hθ]

/-- With `_1` bound to `f(_2)`, unifying `g(_3, a, _4)` with `g(b, c, d)` fails once `_3` is bound,
and so nothing becomes of `_4`; unifying `h(_1, _5)` with `h(f(_3), _2)` binds `_2` and `_5` then.
After that `_5` and `b` stand for the same, as do `f(_5)` and `_1`, and unifying them adds nothing;
`_4` stands for itself, and unifying it with `b` adds a binding. -/
theorem bindings_reported_partial :
    let s := (Unifier.unify ⟨.empty, []⟩ (.var 1) (.app "f" [.var 2])).2.subst
    let a : Term := .app "a" []
    let b : Term := .app "b" []
    let calls : List (Term × Term) :=
      [(.app "g" [.var 3, a, .var 4], .app "g" [b, .app "c" [], .app "d" []]),
        (.app "h" [.var 1, .var 5], .app "h" [.app "f" [.var 3], .var 2])]
    let u := Unifier.unifyAll ⟨s, []⟩ calls
    u.bindings = [(3, b), (2, b), (5, b)] ∧
      u.subst = s.bindAll u.bindings ∧ u.subst.size = s.size + 3 ∧
      (u.unify (.app "f" [.var 5]) (.var 1)).2.bindings = u.bindings ∧
      (Term.var 4).apply u.subst.expand ≠ b.apply u.subst.expand := by
  intro s a b calls
  have hs : s.Reachable := .unify (u := ⟨.empty, []⟩) .empty _ _
  have hall := hs.bindings_reported calls
  generalize hu : Unifier.unifyAll ⟨s, []⟩ calls = u at hall ⊢
  obtain ⟨hsubst, -, -, -, hsize, hnone⟩ := hall
  have hlisted : u.bindings = [(3, b), (2, b), (5, b)] := by subst hu; decide +kernel
  have hfirst : (u.unify (.app "f" [.var 5]) (.var 1)).1 = true := by subst hu; decide +kernel
  have hsame : (Term.app "f" [.var 5]).apply u.subst.expand = (Term.var 1).apply u.subst.expand := by
    subst hu
    decide +kernel
  have hsecond : (u.unify (.var 4) b).1 = true := by subst hu; decide +kernel
  have hmore : (u.unify (.var 4) b).2.bindings ≠ u.bindings := by subst hu; decide +kernel
  refine ⟨hlisted, hsubst, ?_, (hnone _ _ hfirst).mpr hsame, ?_⟩
  · rw [hsize, hlisted]
    rfl
  · exact fun heq => hmore ((hnone _ _ hsecond).mpr heq)

end Subst.Reachable

end LogicMachine
