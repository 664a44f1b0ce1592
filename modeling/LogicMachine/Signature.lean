/-!
# Signatures

A predicate or a kind of constraint is known by its name together with its number of arguments.
-/

namespace LogicMachine

/-- A name and an arity. -/
structure Signature where
  name : String
  arity : Nat
  deriving DecidableEq

/-- The signature as it is written: `name/arity`. -/
def Signature.render (sig : Signature) : String := sig.name ++ "/" ++ toString sig.arity

end LogicMachine
