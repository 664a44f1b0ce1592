import LogicMachine.Term.Basic

/-!
# Arithmetic

The values of the builtin operators. A compound whose functor is an operator is replaced by its
value as soon as its arguments are ground; where the operands make no sense it stays as it is.
-/

namespace LogicMachine

namespace Builtin

/-- The operator's sign. -/
def symbol : Builtin → String
  | .add => "+"
  | .sub => "-"
  | .mul => "*"
  | .div => "/"
  | .rem => "%"

/-- The operator with that sign. -/
def ofSymbol? : String → Option Builtin
  | "+" => some .add
  | "-" => some .sub
  | "*" => some .mul
  | "/" => some .div
  | "%" => some .rem
  | _ => none

/-- Reading an operator's sign gives the operator back. -/
@[simp] theorem ofSymbol?_symbol (b : Builtin) : ofSymbol? b.symbol = some b := by
  cases b <;> rfl

/-- The value over two integers. Division goes toward zero, the remainder has the dividend's sign,
and neither has a value for a zero divisor. -/
def onInts (b : Builtin) (x y : Int) : Option Int :=
  match b with
  | .add => some (x + y)
  | .sub => some (x - y)
  | .mul => some (x * y)
  | .div => if y = 0 then none else some (x.tdiv y)
  | .rem => if y = 0 then none else some (x.tmod y)

/-- The value over a list of arguments: two integers, or two texts to be joined by `+`. -/
def apply : Builtin → List Term → Option Term
  | b, [.int x, .int y] => (b.onInts x y).map .int
  | .add, [.text x, .text y] => some (.text (x ++ y))
  | _, _ => none

/-- A value is an integer or a text. -/
theorem isGround_of_apply_eq_some {b : Builtin} {args : List Term} {t : Term}
    (h : b.apply args = some t) : t.isGround = true := by
  unfold apply at h
  split at h
  · obtain ⟨i, _, rfl⟩ := Option.map_eq_some_iff.1 h
    simp [Term.isGround]
  · cases h
    simp [Term.isGround]
  · cases h

end Builtin

namespace Term

/-- The value that a term stands for by its outermost functor: that of an operator over ground
arguments. -/
def collapse : Term → Option Term
  | .compound (.builtin b) args => if args.all isGround then b.apply args else none
  | _ => none

/-- The term itself, or its value where it has one. -/
def reduce (t : Term) : Term := t.collapse.getD t

end Term

end LogicMachine
