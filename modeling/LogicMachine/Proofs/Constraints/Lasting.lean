import LogicMachine.Constraint.Guard
import LogicMachine.Proofs.Subst.Evaluated

/-!
# Guards that hold keep holding

Binding more variables turns the value of an operand into what this value stands for then, and
leaves the place that a register was followed to if something other than a variable was found there.
So no guard that holds is lost, and the environment that it leaves is the same.
-/

namespace LogicMachine

variable {s s' : Subst} {env env' : Env}

/-- Where something other than a variable has been found, it is found later too. -/
theorem Subst.ExtendedBy.walk_of_walk (hext : s.ExtendedBy s') (hs : s.Acyclic) (hs' : s'.Acyclic)
    {t u : Term} (hwalk : s.walk t = u) (hu : u.var? = none) : s'.walk t = u := by
  have hterm : ∀ t : Term, (∀ v ∈ t.vars, s.walk (.var v) = u → s'.walk (.var v) = u) →
      s.walk t = u → s'.walk t = u := by
    intro t hvars hwalk
    cases t with
    | var v => exact hvars v (by simp) hwalk
    | int | text | compound =>
      rw [walk_of_var?_eq_none rfl] at hwalk ⊢
      exact hwalk
  have hvar : ∀ v, s.walk (.var v) = u → s'.walk (.var v) = u := by
    intro v
    induction v using hs.induction with
    | unbound v hv =>
      intro hwalk
      rw [walk_of_unbound hv] at hwalk
      rw [← hwalk] at hu
      cases hu
    | bound v t hv ih =>
      rw [hs.walk_of_bound hv, hs'.walk_of_bound (hext v t hv)]
      exact hterm t ih
  exact hterm t (fun v _ => hvar v) hwalk

namespace Expr

mutual

/-- The value of an operand has nothing left to evaluate. -/
theorem evaluated_eval (hs : s.Acyclic) :
    ∀ (e : Expr) (x : Term), e.eval env s = .ok x → x.Evaluated
  | .register i, x, h => by
    simp only [eval] at h
    split at h <;> cases h
    exact hs.evaluated_resolve _
  | .build f args, x, h => by
    simp only [eval] at h
    split at h <;> cases h
    next ts hts => exact Term.evaluated_reduce (evaluated_evalAll hs args ts hts)
  | .const t, x, h => by
    simp only [eval] at h
    cases h
    exact hs.evaluated_resolve t

/-- The same for the values of a list of operands. -/
theorem evaluated_evalAll (hs : s.Acyclic) :
    ∀ (es : List Expr) (ts : List Term), evalAll env s es = .ok ts → ∀ t ∈ ts, t.Evaluated
  | [], ts, h => by
    cases h
    exact List.forall_mem_nil _
  | e :: es, ts, h => by
    simp only [evalAll] at h
    split at h
    · cases h
    · next x hx =>
      split at h <;> cases h
      next xs hxs =>
        exact List.forall_mem_cons.mpr ⟨evaluated_eval hs e x hx, evaluated_evalAll hs es xs hxs⟩

end

mutual

/-- The value of an operand, once more variables are bound, is what its value before stands for
then. -/
theorem eval_later (hext : s.ExtendedBy s') (hs : s.Acyclic) (hs' : s'.Acyclic) :
    ∀ (e : Expr) (x : Term), e.eval env s = .ok x → e.eval env s' = .ok (s'.resolve x)
  | .register i, x, h => by
    simp only [eval] at h ⊢
    split at h <;> cases h
    rw [hext.resolve_resolve hs hs']
  | .build f args, x, h => by
    simp only [eval] at h ⊢
    split at h <;> cases h
    next ts hts =>
      rw [evalAll_later hext hs hs' args ts hts]
      exact congrArg _ (Term.instantiate_reduce (evaluated_evalAll hs args ts hts) f).symm
  | .const t, x, h => by
    simp only [eval] at h ⊢
    cases h
    rw [hext.resolve_resolve hs hs']

/-- The same for a list of operands: each value is read again. -/
theorem evalAll_later (hext : s.ExtendedBy s') (hs : s.Acyclic) (hs' : s'.Acyclic) :
    ∀ (es : List Expr) (ts : List Term), evalAll env s es = .ok ts →
      evalAll env s' es = .ok (ts.map s'.resolve)
  | [], ts, h => by
    cases h
    rfl
  | e :: es, ts, h => by
    simp only [evalAll] at h ⊢
    split at h
    · cases h
    · next x hx =>
      split at h <;> cases h
      next xs hxs =>
        rw [eval_later hext hs hs' e x hx, evalAll_later hext hs hs' es xs hxs]
        rfl

end

end Expr

namespace Guard

variable {g : Guard} {gs : List Guard}

/-- Terms that have an order are integers or texts, and so they stand for themselves. -/
theorem resolve_of_order? {x y : Term} {o : Ordering} (h : x.order? y = some o) (s : Subst) :
    s.resolve x = x ∧ s.resolve y = y := by
  unfold Term.order? at h
  split at h <;> cases h <;> simp [Subst.resolve]

/-- A guard that holds holds later, and leaves the same environment. -/
theorem check_later (hext : s.ExtendedBy s') (hs : s.Acyclic) (hs' : s'.Acyclic)
    (h : g.check s env = .ok (some env')) : g.check s' env = .ok (some env') := by
  cases g with
  | equal a b =>
    simp only [check] at h ⊢
    split at h
    · cases h
    · next x hx =>
      split at h
      · cases h
      · next y hy =>
        split at h <;> cases h
        next heq =>
        rw [Expr.eval_later hext hs hs' a x hx, Expr.eval_later hext hs hs' b y hy, heq]
        simp only [if_true]
  | compare op a b =>
    simp only [check] at h ⊢
    split at h
    · cases h
    · next x hx =>
      split at h
      · cases h
      · next y hy =>
        split at h <;> cases h
        next hholds =>
        obtain ⟨o, ho, -⟩ := (Option.any_eq_true _ _).mp hholds
        obtain ⟨hxs, hys⟩ := resolve_of_order? ho s'
        rw [Expr.eval_later hext hs hs' a x hx, Expr.eval_later hext hs hs' b y hy, hxs, hys]
        simp only [hholds, if_true]
  | deconstruct functor arity index =>
    simp only [check] at h ⊢
    split at h
    · cases h
    · split at h
      · next f args hwalk =>
        rw [hext.walk_of_walk hs hs' hwalk rfl]
        exact h
      · cases h

/-- Guards that hold under a substitution hold under all that further successful unifications lead
to, and they leave the same environment. -/
theorem checkAll_later (h : s.Reachable) (hlater : s.Later s')
    (hok : checkAll s env gs = .ok (some env')) : checkAll s' env gs = .ok (some env') := by
  have hext := hlater.extendedBy h
  have hs' := (hlater.reachable h).acyclic
  induction gs generalizing env with
  | nil => exact hok
  | cons g gs ih =>
    simp only [checkAll] at hok ⊢
    split at hok
    · cases hok
    · cases hok
    · next env₁ hfirst =>
      rw [check_later hext h.acyclic hs' hfirst]
      exact ih hok

/-- With `_1` bound to `pair(_2 + 1, _3)` and `_3` to `4`, the guards take the pair apart, compare its
first argument with `_2 + 1` and its second with `7`. They hold when `_2` is bound to `5`, too, and
the environment still has `_2 + 1` in it. -/
theorem checkAll_later_pair :
    let sum : Term := .compound (.builtin .add) [.var 2, .int 1]
    let s₁ := (Unifier.unify ⟨.empty, []⟩ (.var 1) (.app "pair" [sum, .var 3])).2.subst
    let s := (Unifier.unify ⟨s₁, []⟩ (.var 3) (.int 4)).2.subst
    let s' := (Unifier.unify ⟨s, []⟩ (.var 2) (.int 5)).2.subst
    let gs : List Guard :=
      [.deconstruct (.named "pair") 2 0,
        .equal (.register 0) (.build (.builtin .add) [.register 3, .int 1]),
        .compare .less (.register 1) (.int 7)]
    s.Reachable ∧ s.Later s' ∧
      (Expr.register 0).eval [sum] s = .ok sum ∧ (Expr.register 0).eval [sum] s' = .ok (.int 6) ∧
      checkAll s [.var 1, .var 2] gs = .ok (some [sum, .var 3, .var 1, .var 2]) ∧
      checkAll s' [.var 1, .var 2] gs = .ok (some [sum, .var 3, .var 1, .var 2]) := by
  intro sum s₁ s s' gs
  have hs : s.Reachable := .unify (u := ⟨s₁, []⟩) (.unify (u := ⟨.empty, []⟩) .empty _ _) _ _
  have hlater : s.Later s' := .unify? .refl (Subst.unify?_of_unify (by decide +kernel))
  have hok : checkAll s [.var 1, .var 2] gs = .ok (some [sum, .var 3, .var 1, .var 2]) := by
    decide +kernel
  exact ⟨hs, hlater, by decide +kernel, by decide +kernel, hok, checkAll_later hs hlater hok⟩

end Guard

end LogicMachine
