import LogicMachine.Proofs.Renaming.Matching
import LogicMachine.Proofs.Subst.Extension

/-!
# When the answer of a guard can change

A guard reads the terms it is given and nothing else, as long as its constants have no variables. So
its answer stays the same while no variable that the terms lead to is bound.
-/

namespace LogicMachine

variable {s s' : Subst} {env env' : Env}

namespace Expr

mutual

/-- An operand reads registers that the new bindings do not touch, and constants without variables,
so it has the same value or the same error under both substitutions. -/
theorem eval_of_untouched (hs : s.Acyclic) (hs' : s'.Acyclic) (hext : s.ExtendedBy s')
    (henv : ∀ t ∈ env, s.Untouched s' t) :
    ∀ e : Expr, e.isClosed = true → e.eval env s = e.eval env s'
  | .register i, _ => by
    simp only [eval]
    cases hi : env[i]? with
    | none => rfl
    | some t => simp only [(henv t (List.mem_of_getElem? hi)).resolve_eq hs hs' hext]
  | .build f args, h => by
    simp only [eval, evalAll_of_untouched hs hs' hext henv args (by simpa [isClosed] using h)]
  | .const t, h => by
    simp only [eval, (Subst.untouched_of_isGround h).resolve_eq hs hs' hext]

/-- The same for a list of operands. -/
theorem evalAll_of_untouched (hs : s.Acyclic) (hs' : s'.Acyclic) (hext : s.ExtendedBy s')
    (henv : ∀ t ∈ env, s.Untouched s' t) :
    ∀ es : List Expr, isClosedAll es = true → evalAll env s es = evalAll env s' es
  | [], _ => rfl
  | e :: es, h => by
    rw [isClosedAll, Bool.and_eq_true] at h
    simp only [evalAll, eval_of_untouched hs hs' hext henv e h.1,
      evalAll_of_untouched hs hs' hext henv es h.2]

end

end Expr

namespace Guard

variable {g : Guard} {gs : List Guard}

/-- A guard gives the same answer, with the same environment, or the same error. -/
theorem check_of_untouched (hs : s.Acyclic) (hs' : s'.Acyclic) (hext : s.ExtendedBy s')
    (henv : ∀ t ∈ env, s.Untouched s' t) (hg : g.isClosed = true) :
    g.check s env = g.check s' env := by
  cases g with
  | equal a b | compare op a b =>
    rw [isClosed, Bool.and_eq_true] at hg
    simp only [check, a.eval_of_untouched hs hs' hext henv hg.1,
      b.eval_of_untouched hs hs' hext henv hg.2]
  | deconstruct functor arity index =>
    simp only [check]
    cases hi : env[index]? with
    | none => rfl
    | some t => simp only [(henv t (List.mem_of_getElem? hi)).walk_eq hs hs' hext]

/-- What a guard puts in front of the environment leads to nothing new. -/
theorem untouched_of_check (hs : s.Acyclic) (henv : ∀ t ∈ env, s.Untouched s' t)
    (h : g.check s env = .ok (some env')) : ∀ t ∈ env', s.Untouched s' t := by
  cases g with
  | equal a b | compare op a b =>
    simp only [check] at h
    split at h
    · cases h
    · split at h
      · cases h
      · split at h <;> cases h
        exact henv
  | deconstruct functor arity index =>
    simp only [check] at h
    split at h
    · cases h
    · next t ht =>
      split at h
      · next f args hwalk =>
        split at h <;> cases h
        refine List.forall_mem_append.mpr ⟨fun a ha => ?_, henv⟩
        exact (henv t (List.mem_of_getElem? ht)).arg_of_walk hs hwalk ha
      · cases h

/-- Guards say the same under both substitutions, as long as no variable that the environment leads
to has been bound. -/
theorem checkAll_of_untouched (hs : s.Acyclic) (hs' : s'.Acyclic) (hext : s.ExtendedBy s')
    (henv : ∀ t ∈ env, s.Untouched s' t) (hgs : gs.all isClosed = true) :
    checkAll s env gs = checkAll s' env gs := by
  induction gs generalizing env with
  | nil => rfl
  | cons g gs ih =>
    rw [List.all_cons, Bool.and_eq_true] at hgs
    simp only [checkAll, ← check_of_untouched hs hs' hext henv hgs.1]
    split
    · rfl
    · rfl
    · next env' h => exact ih (untouched_of_check hs henv h) hgs.2

end Guard

end LogicMachine
