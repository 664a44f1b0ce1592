import Std.Data.TreeMap
import LogicMachine.Term.Basic

/-!
# Substitutions

A substitution binds variables to terms. It is triangular: the value of a variable may mention
further bound variables, so a value has to be followed to its end before it is read.
-/

namespace LogicMachine

/-- A finite map from variables to terms. `weight` is the number of nodes of all values ever bound,
which bounds how deep a unification can descend. -/
structure Subst where
  bindings : Std.TreeMap Var Term := ∅
  weight : Nat := 0

namespace Subst

/-- The substitution that binds nothing. -/
def empty : Subst := {}

instance : Inhabited Subst := ⟨empty⟩

/-- The value that `v` is bound to, not followed any further. -/
def get? (s : Subst) (v : Var) : Option Term := s.bindings[v]?

/-- Does `v` have a value? -/
def isBound (s : Subst) (v : Var) : Bool := (s.get? v).isSome

/-- The number of bound variables. -/
def size (s : Subst) : Nat := s.bindings.size

/-- Is no variable bound? -/
def isEmpty (s : Subst) : Bool := s.bindings.isEmpty

/-- The bindings in ascending order of their variables. -/
def toList (s : Subst) : List (Var × Term) := s.bindings.toList

/-- Bind `v` to `t`. -/
def bind (s : Subst) (v : Var) (t : Term) : Subst where
  bindings := s.bindings.insert v t
  weight := s.weight + t.nodes

/-- At first no variable has a value. -/
@[simp] theorem get?_empty (v : Var) : empty.get? v = none := by
  simp [get?, empty]

/-- At first no variable is bound. -/
@[simp] theorem size_empty : empty.size = 0 := rfl

/-- A binding gives its variable a value, and leaves those of the others. -/
theorem get?_bind (s : Subst) (v w : Var) (t : Term) :
    (s.bind v t).get? w = if v = w then some t else s.get? w := by
  simp [get?, bind, Std.TreeMap.getElem?_insert]

/-- A new binding adds one bound variable, unless it replaces an old one. -/
theorem size_bind (s : Subst) (v : Var) (t : Term) :
    (s.bind v t).size = if s.isBound v then s.size else s.size + 1 := by
  simp [size, bind, Std.TreeMap.size_insert, isBound, get?]

/-- A binding adds the nodes of its value to the weight. -/
@[simp] theorem weight_bind (s : Subst) (v : Var) (t : Term) :
    (s.bind v t).weight = s.weight + t.nodes := rfl

end Subst

end LogicMachine
