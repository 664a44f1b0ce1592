import LogicMachine.Code.Expr

/-!
# Guards

The tests that a combination of constraints has to pass before a rule fires. Guards are checked in
order over one environment, which a successful `deconstruct` extends.
-/

namespace LogicMachine

/-- An order comparison. -/
inductive Comparison
  | less
  | lessEqual
  | greater
  | greaterEqual
  deriving DecidableEq

/-- Does an ordering satisfy the comparison? -/
def Comparison.holds : Comparison → Ordering → Bool
  | .less, o => o.isLT
  | .lessEqual, o => o.isLE
  | .greater, o => o.isGT
  | .greaterEqual, o => o.isGE

/-- The order of two terms: integers by value, texts by their characters. Other pairs have none. -/
def Term.order? : Term → Term → Option Ordering
  | .int i, .int j => some (compare i j)
  | .text s, .text t => some (compare s t)
  | _, _ => none

/-- A test on an environment. -/
inductive Guard
  /-- Both sides denote the same term. Two unbound variables are the same only if they are one. -/
  | equal (a b : Expr)
  /-- Both sides are integers or both are texts, and they compare. -/
  | compare (op : Comparison) (a b : Expr)
  /-- The register holds a compound with that functor and arity. Its arguments are put in front of
  the environment. -/
  | deconstruct (functor : Functor) (arity index : Nat)

namespace Guard

/-- Check one guard: the environment after it if it holds, nothing if it does not, or a fault. -/
def check (s : Subst) (env : Env) : Guard → Except ProgramError (Option Env)
  | .equal a b =>
    match a.eval env s with
    | .error e => .error e
    | .ok x =>
      match b.eval env s with
      | .error e => .error e
      | .ok y => .ok (if x = y then some env else none)
  | .compare op a b =>
    match a.eval env s with
    | .error e => .error e
    | .ok x =>
      match b.eval env s with
      | .error e => .error e
      | .ok y => .ok (if (x.order? y).any op.holds then some env else none)
  | .deconstruct functor arity index =>
    match env[index]? with
    | none => .error (.registerOutOfRange index env.length)
    | some t =>
      match s.walk t with
      | .compound f args =>
        .ok (if f = functor ∧ args.length = arity then some (args ++ env) else none)
      | _ => .ok none

/-- Check guards in order, up to the first that does not hold. -/
def checkAll (s : Subst) : Env → List Guard → Except ProgramError (Option Env)
  | env, [] => .ok (some env)
  | env, g :: gs =>
    match g.check s env with
    | .error e => .error e
    | .ok none => .ok none
    | .ok (some env') => checkAll s env' gs

end Guard

end LogicMachine
