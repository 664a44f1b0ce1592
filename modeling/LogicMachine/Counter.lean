/-!
# Counters

Where new variables and new constraints get their numbers from.
-/

namespace LogicMachine

/-- A source of numbers, starting at one. It stands still once it has reached `Counter.largest`. -/
structure Counter where
  next : Nat := 1
  deriving DecidableEq

namespace Counter

/-- The largest number handed out: the numbers are 64 bits wide. -/
def largest : Nat := 0xffffffffffffffff

/-- Hand out one number. -/
def draw (c : Counter) : Nat × Counter := (c.next, ⟨min (c.next + 1) largest⟩)

/-- Hand out `n` numbers in order. -/
def drawMany (c : Counter) : Nat → List Nat × Counter
  | 0 => ([], c)
  | n + 1 =>
    let (first, c) := c.draw
    let (others, c) := c.drawMany n
    (first :: others, c)

/-- How many numbers have been handed out. -/
def issued (c : Counter) : Nat := c.next - 1

/-- As many numbers are handed out as were asked for. -/
@[simp] theorem length_drawMany (c : Counter) (n : Nat) : (c.drawMany n).1.length = n := by
  induction n generalizing c with
  | zero => rfl
  | succ n ih => simp [drawMany, ih]

/-- Until the counter is exhausted, the numbers handed out are consecutive. -/
theorem drawMany_of_le {c : Counter} {n : Nat} (h : c.next + n ≤ largest) :
    c.drawMany n = (List.range' c.next n, ⟨c.next + n⟩) := by
  induction n generalizing c with
  | zero => simp [drawMany]
  | succ n ih =>
    have hmin : min (c.next + 1) largest = c.next + 1 := Nat.min_eq_left (by omega)
    have hrest := @ih ⟨c.next + 1⟩ (by simp only; omega)
    simp [drawMany, draw, hmin, hrest, List.range'_succ]
    omega

end Counter

end LogicMachine
