/-!
# Terms

First-order terms over integers of any size and text. A compound carries its functor and its
arguments; a functor is either a name or a builtin operator, and the name `+` is not the operator
`+` although both are written alike.
-/

namespace LogicMachine

/-- A logic variable is only an identity. Whether it is bound, and to what, is up to the
substitution that is consulted. -/
abbrev Var := Nat

/-- The operators that have a value once their arguments are known. -/
inductive Builtin
  | add
  | sub
  | mul
  | div
  | rem
  deriving DecidableEq

/-- What stands in front of a compound's arguments. -/
inductive Functor
  | named (name : String)
  | builtin (op : Builtin)
  deriving DecidableEq

/-- A term. An atom is a compound without arguments. -/
inductive Term
  | var (v : Var)
  | int (i : Int)
  | text (s : String)
  | compound (functor : Functor) (args : List Term)

namespace Term

instance : Inhabited Term := ⟨.compound (.named "nil") []⟩

/-- Induction on terms: a compound may use the claim for each of its arguments. -/
@[elab_as_elim, induction_eliminator]
theorem induction {motive : Term → Prop} (var : ∀ v, motive (.var v)) (int : ∀ i, motive (.int i))
    (text : ∀ s, motive (.text s))
    (compound : ∀ f args, (∀ a ∈ args, motive a) → motive (.compound f args)) : ∀ t, motive t
  | .var v => var v
  | .int i => int i
  | .text s => text s
  | .compound f args => compound f args fun a _ => induction var int text compound a

/-- The compound with a named functor. -/
def app (name : String) (args : List Term) : Term := .compound (.named name) args

/-- The constant of that name. -/
def atom (name : String) : Term := app name []

/-- A list of terms: `cons(x₀, cons(x₁, … nil))`. -/
def ofList : List Term → Term
  | [] => atom "nil"
  | t :: ts => app "cons" [t, ofList ts]

/-- The variable that a term is, if it is one. -/
def var? : Term → Option Var
  | .var v => some v
  | _ => none

/-- The arguments of a compound; other terms have none. -/
def children : Term → List Term
  | .compound _ args => args
  | _ => []

mutual

/-- Two terms are equal when they are built alike. -/
def decEq : (a b : Term) → Decidable (a = b)
  | .var v, .var w => decidable_of_iff (v = w) (by simp)
  | .int i, .int j => decidable_of_iff (i = j) (by simp)
  | .text s, .text t => decidable_of_iff (s = t) (by simp)
  | .compound f as, .compound g bs =>
    if hf : f = g then
      match decEqAll as bs with
      | isTrue h => isTrue (by rw [hf, h])
      | isFalse h => isFalse (by simp [h])
    else isFalse (by simp [hf])
  | .var _, .int _ | .var _, .text _ | .var _, .compound _ _
  | .int _, .var _ | .int _, .text _ | .int _, .compound _ _
  | .text _, .var _ | .text _, .int _ | .text _, .compound _ _
  | .compound _ _, .var _ | .compound _ _, .int _ | .compound _ _, .text _ => isFalse nofun

/-- Argument lists are compared in step. -/
def decEqAll : (as bs : List Term) → Decidable (as = bs)
  | [], [] => isTrue rfl
  | a :: as, b :: bs =>
    match decEq a b with
    | isTrue h =>
      match decEqAll as bs with
      | isTrue hs => isTrue (by rw [h, hs])
      | isFalse hs => isFalse (by simp [hs])
    | isFalse h => isFalse (by simp [h])
  | [], _ :: _ | _ :: _, [] => isFalse nofun

end

instance : DecidableEq Term := decEq

mutual

/-- Does no variable occur in the term? Bindings are not consulted. -/
def isGround : Term → Bool
  | .var _ => false
  | .int _ | .text _ => true
  | .compound _ args => isGroundAll args

/-- Are all the terms of a list ground? -/
def isGroundAll : List Term → Bool
  | [] => true
  | t :: ts => isGround t && isGroundAll ts

end

/-- A list is ground when each of its terms is. -/
theorem isGroundAll_eq_all (ts : List Term) : isGroundAll ts = ts.all isGround := by
  induction ts with
  | nil => rfl
  | cons t ts ih => simp [isGroundAll, ih]

/-- A compound is ground when its arguments are. -/
@[simp] theorem isGround_compound (f : Functor) (args : List Term) :
    (compound f args).isGround = args.all isGround := by
  simp [isGround, isGroundAll_eq_all]

mutual

/-- The variables of a term from left to right, with repeats. -/
def vars : Term → List Var
  | .var v => [v]
  | .int _ | .text _ => []
  | .compound _ args => varsAll args

/-- The variables of a list of terms from left to right. -/
def varsAll : List Term → List Var
  | [] => []
  | t :: ts => vars t ++ varsAll ts

end

/-- The variables of a list are those of its terms, one after another. -/
theorem varsAll_eq_flatMap (ts : List Term) : varsAll ts = ts.flatMap vars := by
  induction ts with
  | nil => rfl
  | cons t ts ih => simp [varsAll, ih]

/-- A variable has itself as its only variable. -/
@[simp] theorem vars_var (v : Var) : (var v).vars = [v] := by simp [vars]

/-- An integer has no variables. -/
@[simp] theorem vars_int (i : Int) : (int i).vars = [] := by simp [vars]

/-- A text has no variables. -/
@[simp] theorem vars_text (s : String) : (text s).vars = [] := by simp [vars]

/-- The variables of a compound are those of its arguments, from left to right. -/
@[simp] theorem vars_compound (f : Functor) (args : List Term) :
    (compound f args).vars = args.flatMap vars := by
  simp [vars, varsAll_eq_flatMap]

/-- A term is ground when it has no variables. -/
theorem isGround_iff_vars_eq_nil (t : Term) : t.isGround = true ↔ t.vars = [] := by
  induction t with
  | var v => simp [isGround]
  | int i => simp [isGround]
  | text s => simp [isGround]
  | compound f args ih =>
    simp only [isGround_compound, List.all_eq_true, vars_compound, List.flatMap_eq_nil_iff]
    exact forall_congr' fun a => forall_congr' fun ha => ih a ha

mutual

/-- The number of nodes of a term. -/
def nodes : Term → Nat
  | .var _ | .int _ | .text _ => 1
  | .compound _ args => nodesAll args + 1

/-- The number of nodes in a list of terms. -/
def nodesAll : List Term → Nat
  | [] => 0
  | t :: ts => nodes t + nodesAll ts

end

/-- A compound has one node more than its arguments. -/
@[simp] theorem nodes_compound (f : Functor) (args : List Term) :
    (compound f args).nodes = nodesAll args + 1 := by
  simp [nodes]

/-- No term of a list has more nodes than the list. -/
theorem nodes_le_nodesAll_of_mem {a : Term} {args : List Term} (h : a ∈ args) :
    a.nodes ≤ nodesAll args := by
  induction args with
  | nil => cases h
  | cons b bs ih =>
    rcases List.mem_cons.1 h with rfl | h
    · simp [nodesAll]
    · have := ih h
      simp only [nodesAll]
      omega

/-- Could the two terms unify by their outermost layer alone? Asked of terms that are not
variables. -/
def headsAgree : Term → Term → Bool
  | .int i, .int j => i == j
  | .text s, .text t => s == t
  | .compound f as, .compound g bs => f == g && as.length == bs.length
  | _, _ => false

end Term

end LogicMachine
