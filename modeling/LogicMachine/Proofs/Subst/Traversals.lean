import LogicMachine.Proofs.Subst.Evaluated

/-!
# The variables that are left in a term

What a term stands for, the variables that are left in it and whether a variable occurs in it are
computed apart from one another. They agree: an operator that gives way to its value had no
variables, so all the variables that the bindings lead to are there once the term is resolved, and
they are listed in the order in which they are met.
-/

namespace LogicMachine

section Lists

variable {α : Type} [BEq α] [LawfulBEq α] {a b : α}

/-- Elements that are kept come in the same order, first appearance by first appearance. -/
theorem idxOf_lt_of_filter {p : α → Bool} {l : List α} (ha : p a = true) (hb : p b = true)
    (h : (l.filter p).idxOf a < (l.filter p).idxOf b) : l.idxOf a < l.idxOf b := by
  induction l with
  | nil => exact absurd h (Nat.lt_irrefl _)
  | cons x xs ih =>
    by_cases hx : p x = true
    · rw [List.filter_cons_of_pos hx] at h
      simp only [List.idxOf_cons] at h ⊢
      cases hxb : x == b with
      | true =>
        rw [hxb] at h
        exact absurd h (Nat.not_lt_zero _)
      | false =>
        cases hxa : x == a with
        | true => exact Nat.succ_pos _
        | false =>
          rw [hxa, hxb] at h
          exact Nat.succ_lt_succ (ih (Nat.lt_of_succ_lt_succ h))
    · rw [List.filter_cons_of_neg hx] at h
      have hne : ∀ c, p c = true → (x == c) = false := by
        intro c hc
        rw [beq_eq_false_iff_ne]
        rintro rfl
        exact hx hc
      rw [List.idxOf_cons, List.idxOf_cons, hne a ha, hne b hb]
      exact Nat.succ_lt_succ (ih h)

/-- Without its repeats, a list has its elements in the order of their first appearance. -/
theorem pairwise_idxOf_eraseDups (l : List α) :
    l.eraseDups.Pairwise fun a b => l.idxOf a < l.idxOf b := by
  induction hn : l.length using Nat.strong_induction_on generalizing l with
  | _ n ih =>
    cases l with
    | nil => exact .nil
    | cons x xs =>
      have hother : ∀ b ∈ (xs.filter fun b => !b == x).eraseDups, (!b == x) = true := fun b hb =>
        (List.mem_filter.mp (List.mem_eraseDups.mp hb)).2
      have hsucc : ∀ b, (!b == x) = true → (x :: xs).idxOf b = xs.idxOf b + 1 := by
        intro b hb
        have hne : (x == b) = false := by
          rw [BEq.comm]
          simpa using hb
        rw [List.idxOf_cons, hne, cond_false]
      have hrest := ih _ (by
        rw [← hn]
        exact Nat.lt_succ_of_le (List.length_filter_le _ _)) (xs.filter fun b => !b == x) rfl
      rw [List.eraseDups_cons, List.pairwise_cons]
      refine ⟨fun b hb => ?_, hrest.imp_of_mem fun {a b} ha hb hlt => ?_⟩
      · rw [hsucc b (hother b hb), List.idxOf_cons_self]
        exact Nat.succ_pos _
      · rw [hsucc a (hother a ha), hsucc b (hother b hb)]
        exact Nat.succ_lt_succ (idxOf_lt_of_filter (hother a ha) (hother b hb) hlt)

end Lists

namespace Subst

variable {s : Subst} {t : Term} {v : Var}

/-- The variables in what a variable stands for are those that it leads to, in the same order. -/
theorem vars_resolveVarWithin (s : Subst) (hops : Nat) (v : Var) :
    (s.resolveVarWithin hops v).vars = s.leavesWithin hops v := by
  induction hops generalizing v with
  | zero => rw [resolveVarWithin, leavesWithin, Term.vars_var]
  | succ hops ih =>
    rw [resolveVarWithin, leavesWithin]
    cases s.get? v with
    | none => exact Term.vars_var v
    | some t =>
      rw [Term.vars_instantiate]
      exact List.flatMap_congr fun w _ => ih w

/-- The variables in what a term stands for, one by one from left to right, are those that the term
leads to. -/
theorem vars_resolve (s : Subst) (t : Term) : (s.resolve t).vars = s.leaves t := by
  rw [resolve, Term.vars_instantiate, leaves]
  exact List.flatMap_congr fun v _ => s.vars_resolveVarWithin s.size v

/-- The unbound variables are those of what the term stands for, each at its first appearance. -/
theorem unboundVars_eq_eraseDups_vars (s : Subst) (t : Term) :
    s.unboundVars t = (s.resolve t).vars.eraseDups := by
  rw [vars_resolve, unboundVars_eq_eraseDups]

/-- The three readings of a term agree. The variables listed are those of what the term stands for,
each once and in the order of their first appearance, and none of them is bound; a variable occurs
in the term exactly if it is listed; and what the term stands for is ground exactly if none is. -/
theorem Reachable.readings_agree (h : s.Reachable) (t : Term) :
    (s.unboundVars t).Nodup ∧
      (∀ v, v ∈ s.unboundVars t ↔ v ∈ (s.resolve t).vars) ∧
      ((s.unboundVars t).Pairwise fun v w =>
        (s.resolve t).vars.idxOf v < (s.resolve t).vars.idxOf w) ∧
      (∀ v ∈ s.unboundVars t, s.get? v = none) ∧
      (∀ v, s.occurs v t = true ↔ v ∈ s.unboundVars t) ∧
      ((s.resolve t).isGround = true ↔ s.unboundVars t = []) := by
  have horder := pairwise_idxOf_eraseDups (s.resolve t).vars
  rw [← unboundVars_eq_eraseDups_vars] at horder
  have hmem : ∀ v, v ∈ s.unboundVars t ↔ v ∈ (s.resolve t).vars := fun v => by
    rw [unboundVars_eq_eraseDups_vars, List.mem_eraseDups]
  refine ⟨horder.imp fun hlt heq => ?_, hmem, horder, fun v hv => ?_,
    fun v => s.occurs_eq_true_iff v t, ?_⟩
  · rw [heq] at hlt
    exact Nat.lt_irrefl _ hlt
  · exact h.acyclic.unbound_of_mem_vars_resolve ((hmem v).mp hv)
  · rw [Term.isGround_iff_vars_eq_nil, List.eq_nil_iff_forall_not_mem,
      List.eq_nil_iff_forall_not_mem]
    exact forall_congr' fun v => not_congr (hmem v).symm

/-- With `_1` bound to `pair(_3, _2)` and `_4` to `5`, the term `f(_4 * 2, _1, _3 + _4)` becomes
`f(10, pair(_3, _2), _3 + 5)`: the variables left are `_3` and `_2`, and `_4` does not occur. -/
theorem Reachable.readings_agree_pair :
    let op (b : Builtin) (x y : Term) : Term := .compound (.builtin b) [x, y]
    let t : Term := .app "f" [op .mul (.var 4) (.int 2), .var 1, op .add (.var 3) (.var 4)]
    let s := (Unifier.unify ⟨.empty, []⟩ (.app "g" [.var 1, .var 4])
      (.app "g" [.app "pair" [.var 3, .var 2], .int 5])).2.subst
    s.Reachable ∧ s.resolve t =
        .app "f" [.int 10, .app "pair" [.var 3, .var 2], op .add (.var 3) (.int 5)] ∧
      s.unboundVars t = [3, 2] ∧ s.occurs 3 t = true ∧ ¬ s.occurs 4 t = true ∧
      ¬ (s.resolve t).isGround = true := by
  intro op t s
  have hs : s.Reachable := .unify (u := ⟨.empty, []⟩) .empty _ _
  have hlist : s.unboundVars t = [3, 2] := by decide +kernel
  obtain ⟨-, -, -, -, hoccurs, hground⟩ := hs.readings_agree t
  refine ⟨hs, by decide +kernel, hlist, (hoccurs 3).mpr ?_, fun h4 => ?_, fun hg => ?_⟩
  · rw [hlist]
    decide
  · rw [hoccurs 4, hlist] at h4
    exact absurd h4 (by decide)
  · rw [hground, hlist] at hg
    cases hg

end Subst

end LogicMachine
