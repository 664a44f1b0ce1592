import Mathlib.Data.List.Forall2
import LogicMachine.Code.Expr

/-!
# Registers that operands read

An operand can be evaluated exactly if every register that it reads is there. How many registers it
needs is seen from the operand alone.
-/

namespace LogicMachine.Expr

variable {env : Env} {s : Subst}

mutual

/-- Does the expression read none but the first `n` registers? -/
def isOver (n : Nat) : Expr → Bool
  | .register i => i < n
  | .build _ args => isOverAll n args
  | .const _ => true

/-- Do all expressions of a list read none but the first `n` registers? -/
def isOverAll (n : Nat) : List Expr → Bool
  | [] => true
  | e :: es => isOver n e && isOverAll n es

end

/-- Induction on expressions. -/
@[elab_as_elim]
theorem induction {motive : Expr → Prop} (register : ∀ i, motive (.register i))
    (build : ∀ f args, (∀ e ∈ args, motive e) → motive (.build f args))
    (const : ∀ t, motive (.const t)) : ∀ e, motive e
  | .register i => register i
  | .build f args => build f args fun e _ => induction register build const e
  | .const t => const t

/-- A list reads no other registers when none of its expressions does. -/
theorem isOverAll_eq_all (n : Nat) (es : List Expr) : isOverAll n es = es.all (isOver n) := by
  induction es with
  | nil => rfl
  | cons e es ih => simp [isOverAll, ih]

/-- A list is evaluated when each of its expressions is, one by one. -/
theorem evalAll_eq_ok_iff {es : List Expr} {ts : List Term} :
    evalAll env s es = .ok ts ↔ List.Forall₂ (fun e t => e.eval env s = .ok t) es ts := by
  induction es generalizing ts with
  | nil =>
    constructor
    · intro h
      cases h
      exact .nil
    · rintro ⟨⟩
      rfl
  | cons e es ih =>
    rw [evalAll]
    constructor
    · intro h
      cases he : e.eval env s with
      | error err => simp [he] at h
      | ok t =>
        cases hes : evalAll env s es with
        | error err => simp [he, hes] at h
        | ok ts' =>
          simp only [he, hes, Except.ok.injEq] at h
          subst h
          exact .cons he (ih.mp hes)
    · intro h
      cases h with
      | cons he hes => simp only [he, ih.mpr hes]

/-- Every expression has one value. -/
theorem length_of_evalAll {es : List Expr} {ts : List Term} (h : evalAll env s es = .ok ts) :
    ts.length = es.length :=
  (evalAll_eq_ok_iff.mp h).length_eq.symm

/-- A list of operands has values if each of them has one. -/
theorem exists_evalAll {es : List Expr} (h : ∀ e ∈ es, ∃ t, e.eval env s = .ok t) :
    ∃ ts, evalAll env s es = .ok ts := by
  induction es with
  | nil => exact ⟨[], rfl⟩
  | cons e es ih =>
    rw [List.forall_mem_cons] at h
    obtain ⟨t, ht⟩ := h.1
    obtain ⟨ts, hts⟩ := ih h.2
    exact ⟨t :: ts, by simp only [evalAll, ht, hts]⟩

/-- An operand that reads only registers that are there has a value. -/
theorem exists_eval {e : Expr} (h : e.isOver env.length = true) : ∃ t, e.eval env s = .ok t := by
  induction e using induction with
  | register i =>
    have hi : i < env.length := by simpa [isOver] using h
    exact ⟨s.resolve env[i], by simp only [eval, List.getElem?_eq_getElem hi]⟩
  | build f args ih =>
    rw [isOver, isOverAll_eq_all, List.all_eq_true] at h
    obtain ⟨ts, hts⟩ := exists_evalAll fun e he => ih e he (h e he)
    exact ⟨(Term.compound f ts).reduce, by simp only [eval, hts]⟩
  | const t => exact ⟨s.resolve t, by simp only [eval]⟩

end LogicMachine.Expr
