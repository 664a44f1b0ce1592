import LogicMachine.Proofs.Clauses.Program
import LogicMachine.Proofs.Subst.Evaluated

/-!
# What operands evaluate to

An operand is evaluated part by part: a register is resolved as it is read, and an operator gives
way to its value before what is around it is there. The value is nevertheless what the whole term,
put together from the registers as they are, stands for.
-/

namespace LogicMachine.Expr

mutual

/-- The registers that an expression reads, from left to right. -/
def registers : Expr → List Nat
  | .register i => [i]
  | .build _ args => registersAll args
  | .const _ => []

/-- The registers that the expressions of a list read. -/
def registersAll : List Expr → List Nat
  | [] => []
  | e :: es => registers e ++ registersAll es

end

variable {env : Env} {s : Subst} {e : Expr} {es : List Expr}

/-- The leftmost register of a list that an environment of that size does not have. -/
def missing? (size : Nat) (is : List Nat) : Option Nat := is.find? (size ≤ ·)

/-- No register is missing when the environment has them all. -/
theorem missing?_eq_none_iff {size : Nat} {is : List Nat} :
    missing? size is = none ↔ ∀ i ∈ is, i < size := by
  simp [missing?]

/-- What an evaluation comes to, given the leftmost of the registers that are missing. -/
def outcome {α : Type} (env : Env) (missing : Option Nat) (a : α) : Except ProgramError α :=
  match missing with
  | some i => .error (.registerOutOfRange i env.length)
  | none => .ok a

/-- Operands are evaluated from left to right, so that the leftmost register that is missing in any
of them is reported. -/
theorem evalAll_eq_outcome {f : Expr → Term}
    (h : ∀ e ∈ es, e.eval env s = outcome env (missing? env.length e.registers) (f e)) :
    evalAll env s es = outcome env (missing? env.length (registersAll es)) (es.map f) := by
  induction es with
  | nil => rfl
  | cons e es ih =>
    rw [List.forall_mem_cons] at h
    rw [evalAll, h.1, ih h.2, registersAll, missing?, missing?, missing?, List.find?_append]
    cases e.registers.find? (env.length ≤ ·) with
    | some i => rfl
    | none => cases (registersAll es).find? (env.length ≤ ·) <;> rfl

/-- Building, resolving and evaluating go hand in hand, but it comes to the same as resolving the
whole term at the end. -/
theorem eval_eq_outcome (env : Env) (s : Subst) (e : Expr) :
    e.eval env s = outcome env (missing? env.length e.registers) (s.resolve (e.value env)) := by
  induction e using induction with
  | register i =>
    rw [eval, registers, missing?, List.find?_singleton, value_register]
    by_cases hi : i < env.length
    · have hread : env.getD i default = env[i] := by simp [hi]
      rw [List.getElem?_eq_getElem hi, hread, decide_eq_false (Nat.not_le_of_lt hi)]
      rfl
    · rw [List.getElem?_eq_none (Nat.le_of_not_lt hi), decide_eq_true (Nat.le_of_not_lt hi)]
      rfl
  | build f args ih =>
    rw [eval, evalAll_eq_outcome ih, registers, value_build, Subst.resolve_compound, List.map_map]
    cases missing? env.length (registersAll args) <;> rfl
  | const t =>
    rw [eval, value_const]
    rfl

/-- An expression has a value exactly if every register that it reads is there. The value is what
the term stands for that has the registers in their places and all compounds as they are written,
and evaluating it again changes nothing. Otherwise the leftmost register that is missing is
reported. -/
theorem eval_agrees (h : s.Reachable) (env : Env) (e : Expr) :
    ((∃ t, e.eval env s = .ok t) ↔ ∀ i ∈ e.registers, i < env.length) ∧
      (∀ t, e.eval env s = .ok t → t = s.resolve (e.value env) ∧ s.resolve t = t) ∧
      ∀ err, e.eval env s = .error err →
        ∃ i, e.registers.find? (env.length ≤ ·) = some i ∧
          err = .registerOutOfRange i env.length := by
  have hs := h.acyclic
  have hagain := Subst.ExtendedBy.resolve_resolve (fun _ _ => id) hs hs (e.value env)
  rw [← missing?_eq_none_iff, eval_eq_outcome]
  cases hmissing : missing? env.length e.registers with
  | some i =>
    refine ⟨by simp [outcome], by simp [outcome], fun err herr => ⟨i, hmissing, ?_⟩⟩
    exact (Except.error.inj herr).symm
  | none =>
    refine ⟨by simp [outcome], fun t ht => ?_, by simp [outcome]⟩
    obtain rfl := Except.ok.inj ht
    exact ⟨rfl, hagain⟩

/-- With `_1` bound to `_2 + 3` and `_2` to `4`, over the registers `_1` and `a` the expression
`pair(#0 * 2, #1)` has the value `pair(14, a)`, while `pair(#0 * #3, #2)` lacks the register `3`. -/
theorem eval_agrees_product :
    let op (b : Builtin) (x y : Term) : Term := .compound (.builtin b) [x, y]
    let s := (Unifier.unify ⟨.empty, []⟩ (.app "g" [.var 1, .var 2])
      (.app "g" [op .add (.var 2) (.int 3), .int 4])).2.subst
    let env : Env := [.var 1, .atom "a"]
    let e : Expr := .app "pair" [.build (.builtin .mul) [.register 0, .int 2], .register 1]
    let e' : Expr :=
      .app "pair" [.build (.builtin .mul) [.register 0, .register 3], .register 2]
    s.Reachable ∧ e.value env = .app "pair" [op .mul (.var 1) (.int 2), .atom "a"] ∧
      e.eval env s = .ok (.app "pair" [.int 14, .atom "a"]) ∧
      e'.eval env s = .error (.registerOutOfRange 3 2) := by
  intro op s env e e'
  have hs : s.Reachable := .unify (u := ⟨.empty, []⟩) .empty _ _
  have hvalue : e.value env = .app "pair" [op .mul (.var 1) (.int 2), .atom "a"] := by rfl
  have hresolve : s.resolve (e.value env) = .app "pair" [.int 14, .atom "a"] := by
    rw [hvalue]
    decide +kernel
  refine ⟨hs, hvalue, ?_, ?_⟩
  · obtain ⟨hok, hread, -⟩ := eval_agrees hs env e
    obtain ⟨t, ht⟩ := hok.mpr (by decide)
    rw [ht, (hread t ht).1, hresolve]
  · obtain ⟨hok, -, hreport⟩ := eval_agrees hs env e'
    cases heval : e'.eval env s with
    | ok t => exact absurd (hok.mp ⟨t, heval⟩) (by decide)
    | error err =>
      obtain ⟨i, hi, rfl⟩ := hreport err heval
      have hthree : e'.registers.find? (env.length ≤ ·) = some 3 := by decide
      obtain rfl : i = 3 := Option.some.inj (hi.symm.trans hthree)
      rfl

end LogicMachine.Expr
