/-!
# Odometers

All ways to pick one element of each of several lists, one after the other. An odometer has a digit
for each list, which stands at one of its elements. The digits are read and then turned: the last
one moves on, and a digit that leaves the end of its list goes back to the start and takes the one
to its left along. Once the first digit has done so, everything has been read.
-/

namespace LogicMachine

namespace Odometer

variable {α : Type} (lists : List (List α))

/-- The elements that the digits stand at, provided that each of them stands at one. -/
def read? (digits : List Nat) : Option (List α) :=
  (digits.zip lists).mapM fun (digit, list) => list[digit]?

/-- Turn the digit before `pos`, carrying leftwards: have all digits gone round, and where do they
stand now? Nothing comes out if there is no digit or no list at a position. -/
def turn? : (pos : Nat) → (digits : List Nat) → Option (Bool × List Nat)
  | 0, digits => some (true, digits)
  | pos + 1, digits =>
    match digits[pos]?, lists[pos]? with
    | some digit, some list =>
      if digit + 1 < list.length then some (false, digits.set pos (digit + 1))
      else turn? pos (digits.set pos 0)
    | _, _ => none

/-- Read and turn for at most `rounds` readings. Nothing comes out if there are more, or if a
position is looked at that does not exist. -/
def runWithin : (rounds : Nat) → (digits : List Nat) → Option (List (List α))
  | 0, _ => none
  | rounds + 1, digits =>
    match read? lists digits, turn? lists lists.length digits with
    | some picked, some (true, _) => some [picked]
    | some picked, some (false, digits) => (picked :: ·) <$> runWithin rounds digits
    | _, _ => none

/-- Where the digits stand at first. -/
def start : List Nat := lists.map fun _ => 0

/-- The number of readings: the product of the lengths. -/
def readings : Nat := lists.foldr (fun list n => list.length * n) 1

/-- All readings, from the first to the last. An empty list leaves nothing to read. -/
def run? : Option (List (List α)) :=
  if lists.any List.isEmpty then some [] else runWithin lists (readings lists) (start lists)

end Odometer

/-- Every way to pick one element of each list, the last list varying fastest. -/
def combinations {α : Type} (lists : List (List α)) : List (List α) :=
  (Odometer.run? lists).getD []

end LogicMachine
