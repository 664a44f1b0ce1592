import LogicMachine.Term.Arithmetic

/-!
# Instantiation

Replacing the variables of a term. The compounds on the way are rebuilt from the inside out, and
an operator whose arguments have become ground gives way to its value.
-/

namespace LogicMachine.Term

mutual

/-- Replace each variable `v` by `σ v` and evaluate what has become ground. -/
def instantiate (σ : Var → Term) : Term → Term
  | .var v => σ v
  | .int i => .int i
  | .text s => .text s
  | .compound f args => (compound f (instantiateAll σ args)).reduce

/-- Instantiate the terms of a list. -/
def instantiateAll (σ : Var → Term) : List Term → List Term
  | [] => []
  | t :: ts => instantiate σ t :: instantiateAll σ ts

end

/-- On a list, every term is instantiated by itself. -/
theorem instantiateAll_eq_map (σ : Var → Term) (ts : List Term) :
    instantiateAll σ ts = ts.map (instantiate σ) := by
  induction ts with
  | nil => rfl
  | cons t ts ih => simp [instantiateAll, ih]

/-- A variable gives way to its value. -/
@[simp] theorem instantiate_var (σ : Var → Term) (v : Var) : (var v).instantiate σ = σ v := by
  simp [instantiate]

/-- An integer has no variables to replace. -/
@[simp] theorem instantiate_int (σ : Var → Term) (i : Int) : (int i).instantiate σ = int i := by
  simp [instantiate]

/-- A text has no variables to replace. -/
@[simp] theorem instantiate_text (σ : Var → Term) (s : String) :
    (text s).instantiate σ = text s := by
  simp [instantiate]

/-- A compound is instantiated from its arguments up, and evaluated if it can be. -/
@[simp] theorem instantiate_compound (σ : Var → Term) (f : Functor) (args : List Term) :
    (compound f args).instantiate σ = (compound f (args.map (instantiate σ))).reduce := by
  simp [instantiate, instantiateAll_eq_map]

/-- Only what `σ` says about the variables of the term matters. -/
theorem instantiate_congr {σ τ : Var → Term} (t : Term) (h : ∀ v ∈ t.vars, σ v = τ v) :
    t.instantiate σ = t.instantiate τ := by
  induction t with
  | var v => simpa using h v (by simp)
  | int i => simp
  | text s => simp
  | compound f args ih =>
    have hargs : args.map (instantiate σ) = args.map (instantiate τ) :=
      List.map_congr_left fun a ha => ih a ha fun v hv =>
        h v (by simpa using ⟨a, ha, hv⟩)
    simp [hargs]

end LogicMachine.Term
