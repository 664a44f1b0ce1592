import Std.Data.TreeSet
import LogicMachine.Constraint.Basic

/-!
# The constraint store

What one branch of a search knows about constraints: which are live, which ones mention a variable,
and which combinations have already fired a rule.
-/

namespace LogicMachine

/-- The constraints of one branch. -/
structure Store where
  /-- The live constraints by serial number. -/
  live : Std.TreeMap Nat Constraint := ∅
  /-- For a variable, the constraints that mention it, by serial number. Deleted constraints stay
  listed. -/
  mentions : Std.TreeMap Var (Std.TreeMap Nat Constraint) := ∅
  /-- For a rule, the serial numbers of the combinations that have fired it, in head order. -/
  fired : Std.TreeMap Nat (Std.TreeSet (List Nat)) := ∅

namespace Store

/-- The store without constraints. -/
def empty : Store := {}

instance : Inhabited Store := ⟨empty⟩

/-- Add a constraint. -/
def add (st : Store) (c : Constraint) : Store := { st with live := st.live.insert c.serial c }

/-- Is the constraint live? -/
def isAlive (st : Store) (c : Constraint) : Bool :=
  st.live[c.serial]?.any (·.sig = c.sig)

/-- Delete a constraint. It takes part in no match from then on. -/
def erase (st : Store) (c : Constraint) : Store :=
  if st.isAlive c then { st with live := st.live.erase c.serial } else st

/-- The live constraints, oldest first. -/
def constraints (st : Store) : List Constraint := st.live.values

/-- The live constraints of signature `sig`, oldest first. -/
def lookup (st : Store) (sig : Signature) : List Constraint :=
  st.constraints.filter (·.sig = sig)

/-- The number of live constraints. -/
def size (st : Store) : Nat := st.live.size

/-- Is no constraint live? -/
def isEmpty (st : Store) : Bool := st.live.isEmpty

/-- The constraints that mention `v`, by serial number. -/
def mentionsOf (st : Store) (v : Var) : Std.TreeMap Nat Constraint := st.mentions.getD v ∅

/-- The constraints that mention `v`, oldest first. -/
def backlinks (st : Store) (v : Var) : List Constraint := (st.mentionsOf v).values

/-- Note that `c` mentions `v`. -/
def connect (st : Store) (v : Var) (c : Constraint) : Store :=
  { st with mentions := st.mentions.insert v ((st.mentionsOf v).insert c.serial c) }

/-- Detach the constraints that mention `v`, oldest first; nothing if none was ever noted. -/
def takeBacklinks (st : Store) (v : Var) : Option (List Constraint) × Store :=
  match st.mentions[v]? with
  | some cs => (some cs.values, { st with mentions := st.mentions.erase v })
  | none => (none, st)

/-- The combinations that have fired the rule. -/
def firedOf (st : Store) (rule : Nat) : Std.TreeSet (List Nat) := st.fired.getD rule ∅

/-- Has the combination of these serial numbers fired the rule? -/
def hasFired (st : Store) (rule : Nat) (serials : List Nat) : Bool :=
  (st.firedOf rule).contains serials

/-- Record that the combination has fired the rule. -/
def recordFiring (st : Store) (rule : Nat) (serials : List Nat) : Store :=
  { st with fired := st.fired.insert rule ((st.firedOf rule).insert serials) }

/-- A note under one variable leaves those under the others. -/
theorem mentionsOf_connect (st : Store) (v w : Var) (c : Constraint) :
    (st.connect v c).mentionsOf w =
      if v = w then (st.mentionsOf v).insert c.serial c else st.mentionsOf w := by
  simp only [mentionsOf, connect, Std.TreeMap.getD_insert, Nat.compare_eq_eq]

/-- Besides what had fired before, only the recorded combination of the recorded rule has. -/
theorem hasFired_recordFiring (st : Store) (r q : Nat) (xs ys : List Nat) :
    (st.recordFiring r xs).hasFired q ys = true ↔
      (r = q ∧ xs = ys) ∨ st.hasFired q ys = true := by
  simp only [hasFired, firedOf, recordFiring, Std.TreeMap.getD_insert, Nat.compare_eq_eq]
  by_cases h : r = q
  · subst h
    simp [Std.TreeSet.contains_insert]
  · simp [h]

/-- To note a constraint makes none live. -/
@[simp] theorem live_connect (st : Store) (v : Var) (c : Constraint) :
    (st.connect v c).live = st.live := rfl

/-- To record a firing deletes nothing by itself. -/
@[simp] theorem live_recordFiring (st : Store) (r : Nat) (xs : List Nat) :
    (st.recordFiring r xs).live = st.live := rfl

/-- To take notes out leaves their constraints live. -/
@[simp] theorem live_takeBacklinks (st : Store) (v : Var) :
    (st.takeBacklinks v).2.live = st.live := by
  unfold takeBacklinks
  split <;> rfl

end Store

end LogicMachine
