import LogicMachine.Proofs.Subst.Extension
import LogicMachine.Proofs.Subst.MostGeneral

/-!
# Substitutions among variables

A substitution that binds variables to variables only divides them into classes: the variables of a
class stand for one unbound variable. Further bindings make classes larger, and two variables always
unify.
-/

namespace LogicMachine.Subst

variable {R : Var → Var → Prop} {s s' : Subst} {u : Unifier} {v w x y : Var}

/-- Every value is a variable, and `R` relates it to the variable that is bound, both ways. -/
def Renames (R : Var → Var → Prop) (s : Subst) : Prop :=
  ∀ v t, s.get? v = some t → ∃ w, t = .var w ∧ R v w ∧ R w v

/-- The variables stand for the same term. -/
def SameClass (s : Subst) (v w : Var) : Prop := s.resolveVar v = s.resolveVar w

namespace Renames

/-- Where nothing is bound, every value is a variable. -/
theorem empty (R : Var → Var → Prop) : Renames R .empty := by
  intro v t h
  rw [get?_empty] at h
  cases h

/-- A variable stands for an unbound one. -/
theorem exists_resolveVar [IsPreorder Var R] (h : s.Renames R) (hs : s.Acyclic) (v : Var) :
    ∃ w, s.resolveVar v = .var w ∧ s.get? w = none ∧ R v w ∧ R w v := by
  induction v using hs.induction with
  | unbound v hv => exact ⟨v, resolveVar_of_unbound hv, hv, refl_of R v, refl_of R v⟩
  | bound v t hv ih =>
    obtain ⟨x, rfl, hvx, hxv⟩ := h v t hv
    obtain ⟨w, hw, hunbound, hxw, hwx⟩ := ih x (by simp)
    refine ⟨w, ?_, hunbound, trans_of R hvx hxw, trans_of R hwx hxv⟩
    rw [hs.resolveVar_of_bound hv, resolve_var, hw]

/-- Variables that stand for the same are related both ways. -/
theorem rel_of_sameClass [IsPreorder Var R] (h : s.Renames R) (hs : s.Acyclic)
    (hvw : s.SameClass v w) : R v w := by
  obtain ⟨x, hx, -, hvx, -⟩ := h.exists_resolveVar hs v
  obtain ⟨y, hy, -, -, hyw⟩ := h.exists_resolveVar hs w
  obtain rfl : x = y := Term.var.inj (hx.symm.trans (Eq.trans hvw hy))
  exact trans_of R hvx hyw

/-- Further bindings may be followed after those that there are. -/
theorem resolve_resolveVar (h : s.Renames R) (hs : s.Acyclic) (hs' : s'.Acyclic)
    (hext : s.ExtendedBy s') (v : Var) : s'.resolve (s.resolveVar v) = s'.resolveVar v := by
  induction v using hs.induction with
  | unbound v hv => rw [resolveVar_of_unbound hv, resolve_var]
  | bound v t hv ih =>
    obtain ⟨x, rfl, -⟩ := h v t hv
    rw [hs.resolveVar_of_bound hv, resolve_var, ih x (by simp), hs'.resolveVar_of_bound (hext v _ hv),
      resolve_var]

/-- What stands for the same goes on doing so. -/
theorem sameClass_of_extendedBy (h : s.Renames R) (hs : s.Acyclic) (hs' : s'.Acyclic)
    (hext : s.ExtendedBy s') (hvw : s.SameClass v w) : s'.SameClass v w := by
  rw [SameClass, ← h.resolve_resolveVar hs hs' hext, hvw, h.resolve_resolveVar hs hs' hext]

/-- A variable stands for the same as what it stands for. -/
theorem sameClass_resolveVar (h : s.Renames R) (hs : s.Acyclic) (hv : s.resolveVar v = .var w) :
    s.SameClass w v := by
  rw [SameClass, ← resolve_var, ← hv]
  exact h.resolve_resolveVar hs hs (fun _ _ => id) v

/-- A variable may be bound to one that it is related to both ways. -/
theorem bind (h : s.Renames R) (hxy : R x y) (hyx : R y x) : (s.bind x (.var y)).Renames R := by
  intro v t hv
  rw [get?_bind] at hv
  split at hv
  · next hxv =>
    subst hxv
    obtain rfl := Option.some.inj hv
    exact ⟨y, rfl, hxy, hyx⟩
  · exact h v t hv

/-- Two unbound variables unify, and then they stand for the same. -/
theorem exists_unify? (h : s.Renames R) (hs : s.Acyclic) (hx : s.get? x = none)
    (hy : s.get? y = none) (hxy : R x y) (hyx : R y x) :
    ∃ u, s.unify? (.var x) (.var y) = some u ∧ u.subst.Renames R ∧
      (u.subst.Acyclic → u.subst.SameClass x y) := by
  have hwalks := And.intro (walk_of_unbound hx) (walk_of_unbound hy)
  by_cases hne : x = y
  · subst hne
    refine ⟨⟨s, []⟩, ?_, h, fun _ => rfl⟩
    rw [unify?, Unifier.unify, Unifier.depthFor, Unifier.unifyWithin_same hwalks.1 hwalks.2]
  · have hocc : s.occurs x (.var y) = false := by
      rw [Bool.eq_false_iff, ne_eq, hs.occurs_iff hx]
      simpa [reaches_iff_of_unbound hy] using Ne.symm hne
    refine ⟨⟨s.bind x (.var y), [(x, .var y)]⟩, ?_, h.bind hxy hyx, fun hs' => ?_⟩
    · simp only [unify?, Unifier.unify, Unifier.depthFor, Unifier.unifyWithin, hwalks, if_neg hne,
        Unifier.bind, hocc, Bool.false_eq_true, if_false, List.nil_append]
    · have hbound : (s.bind x (.var y)).get? x = some (.var y) := by rw [get?_bind, if_pos rfl]
      rw [SameClass, hs'.resolveVar_of_bound hbound, resolve_var]

/-- What two related variables stand for unifies, and then the two stand for the same. -/
theorem exists_unify?_resolveVar [IsPreorder Var R] (h : s.Renames R) (hs : s.Reachable)
    (hxy : R x y) (hyx : R y x) :
    ∃ u, s.unify? (s.resolveVar x) (s.resolveVar y) = some u ∧ u.subst.Renames R ∧
      u.subst.SameClass x y := by
  obtain ⟨v, hv, hvnone, hxv, hvx⟩ := h.exists_resolveVar hs.acyclic x
  obtain ⟨w, hw, hwnone, hyw, hwy⟩ := h.exists_resolveVar hs.acyclic y
  obtain ⟨u, hu, hrenames, hclass⟩ := h.exists_unify? hs.acyclic hvnone hwnone
    (trans_of R hvx (trans_of R hxy hyw)) (trans_of R hwy (trans_of R hyx hxv))
  have hs' := (hs.of_unify? hu).acyclic
  have hext := (boundBy_of_unify? hs.acyclic hs.weighed hu).extendedBy
  have hkept := fun {a b} => h.sameClass_of_extendedBy hs.acyclic hs' hext (v := a) (w := b)
  refine ⟨u, by rw [hv, hw, hu], hrenames, ?_⟩
  calc u.subst.resolveVar x
      _ = u.subst.resolveVar v := (hkept (h.sameClass_resolveVar hs.acyclic hv)).symm
      _ = u.subst.resolveVar w := hclass hs'
      _ = u.subst.resolveVar y := hkept (h.sameClass_resolveVar hs.acyclic hw)

end Renames

end LogicMachine.Subst
