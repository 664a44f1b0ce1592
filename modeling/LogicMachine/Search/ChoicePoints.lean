import LogicMachine.Search.Frame
import LogicMachine.Search.Strategy

/-!
# Choice points

The untried alternatives of a search live in numbered slots. A slot holds a saved frame until that
frame is taken out, and a link to the choice point below it. Taken slots stay linked, since saved
frames may still lead through them; a sweep frees the slots that no frame leads to any more.
-/

namespace LogicMachine

/-- A slot: the choice point below it, and the alternative saved in it, if that is untried. -/
structure ChoicePoint where
  below : Option Nat := none
  saved : Option Frame := none

/-- The choice points of a search. -/
structure ChoicePoints where
  slots : Array ChoicePoint := #[]
  /-- The slots that can be used again, the last one first. -/
  free : Array Nat := #[]
  /-- How many choice points were ever made. -/
  pushed : Nat := 0
  /-- How many choice points the last sweep left. -/
  survivors : Nat := 0

namespace ChoicePoints

/-- No choice points. -/
def empty : ChoicePoints := {}

/-- How many choice points may pile up beyond twice the number that the last sweep left. -/
def slack : Nat := 64

/-- The slots in use, their alternatives taken or not. -/
def size (cp : ChoicePoints) : Nat := cp.slots.size - cp.free.size

/-- The slot that the next choice point will get. -/
def nextSlot (cp : ChoicePoints) : Nat := cp.free.back?.getD cp.slots.size

/-- Put a choice point into a slot, or behind the last one. -/
def put (slots : Array ChoicePoint) (i : Nat) (c : ChoicePoint) : Array ChoicePoint :=
  if i = slots.size then slots.push c else slots.setIfInBounds i c

/-- Save the branch of `frame` as an alternative that resumes at `pc`, on top of the frame's own
choice points, and give the slot. The frame itself is to go on with that slot on top. -/
def push (cp : ChoicePoints) (frame : Frame) (pc : Nat) : Nat × ChoicePoints :=
  let i := cp.nextSlot
  let saved := { frame with alt := some i, cont := frame.cont.resumeAt pc }
  (i, { cp with
    slots := put cp.slots i ⟨frame.alt, some saved⟩
    free := cp.free.pop
    pushed := cp.pushed + 1 })

/-- The alternative that is saved in a slot. -/
def savedIn (cp : ChoicePoints) (i : Nat) : Option Frame := cp.slots[i]?.bind (·.saved)

/-- The innermost slot with an untried alternative among the first `budget` slots on the way down
from a link. -/
def innermostWithin (cp : ChoicePoints) : (budget : Nat) → Option Nat → Option Nat
  | 0, _ => none
  | _, none => none
  | budget + 1, some i =>
    match cp.slots[i]? with
    | some c => if c.saved.isSome then some i else cp.innermostWithin budget c.below
    | none => none

/-- The innermost slot with an untried alternative on the way down from a link. No slot is met
twice on the way, so there are at most as many as slots exist. -/
def innermost? (cp : ChoicePoints) (top : Option Nat) : Option Nat :=
  cp.innermostWithin cp.slots.size top

/-- The slots in `passed`, outermost first, and then those with an untried alternative among the
first `budget` slots on the way down from a link; all of them innermost first. -/
def untriedWithin (cp : ChoicePoints) :
    (budget : Nat) → Option Nat → (passed : List Nat) → List Nat
  | 0, _, passed => passed.reverse
  | _, none, passed => passed.reverse
  | budget + 1, some i, passed =>
    match cp.slots[i]? with
    | some c => cp.untriedWithin budget c.below (if c.saved.isSome then i :: passed else passed)
    | none => passed.reverse

/-- The slots with an untried alternative on the way down from a link, innermost first. -/
def untried (cp : ChoicePoints) (top : Option Nat) : List Nat :=
  cp.untriedWithin cp.slots.size top []

/-- What was passed already comes first, and the rest is collected as from the start. -/
theorem untriedWithin_eq_append (cp : ChoicePoints) (budget : Nat) (top : Option Nat)
    (passed : List Nat) :
    cp.untriedWithin budget top passed = passed.reverse ++ cp.untriedWithin budget top [] := by
  induction budget generalizing top passed with
  | zero => simp [untriedWithin]
  | succ budget ih =>
    cases top with
    | none => simp [untriedWithin]
    | some i =>
      cases h : cp.slots[i]? with
      | none => simp [untriedWithin, h]
      | some c =>
        simp only [untriedWithin, h]
        split
        · rw [ih, ih _ [i]]
          simp
        · exact ih _ _

/-- The first slot that is collected is the first that is found. -/
theorem head?_untriedWithin (cp : ChoicePoints) (budget : Nat) (top : Option Nat) :
    (cp.untriedWithin budget top []).head? = cp.innermostWithin budget top := by
  induction budget generalizing top with
  | zero => rfl
  | succ budget ih =>
    cases top with
    | none => rfl
    | some i =>
      cases h : cp.slots[i]? with
      | none => simp [untriedWithin, innermostWithin, h]
      | some c =>
        simp only [untriedWithin, innermostWithin, h]
        split
        · rw [untriedWithin_eq_append]
          simp
        · exact ih _

/-- The innermost untried alternative is the first of them all. -/
theorem head?_untried (cp : ChoicePoints) (top : Option Nat) :
    (cp.untried top).head? = cp.innermost? top :=
  cp.head?_untriedWithin cp.slots.size top

/-- How many untried alternatives a frame could go back to. -/
def pending (cp : ChoicePoints) (frame : Frame) : Nat := (cp.untried frame.alt).length

/-- Mark the alternative of a slot as taken. -/
def clear (cp : ChoicePoints) (i : Nat) : ChoicePoints :=
  { cp with slots := cp.slots.modify i fun c => { c with saved := none } }

/-- Take the innermost untried alternative of a frame. There is none if the search is exhausted. -/
def fail (cp : ChoicePoints) (frame : Frame) : Option Frame × ChoicePoints :=
  match cp.innermost? frame.alt with
  | none => (none, cp)
  | some i => (cp.savedIn i, cp.clear i)

/-- Thread a frame outward through slots: each slot keeps what comes in and gives out what it held.
The slots are linked to one another, past all slots between them. -/
def rotate (cp : ChoicePoints) (frame : Frame) : List Nat → Frame × ChoicePoints
  | [] => (frame, cp)
  | i :: rest =>
    match cp.savedIn i with
    | some next =>
      rotate { cp with slots := cp.slots.setIfInBounds i ⟨rest.head?, some frame⟩ } next rest
    | none => (frame, cp)

/-- Make a frame ready to run after an answer, a failed unification or a re-entrant call. Its taken
choice points are unlinked; under the interleaved strategy it then changes places with the untried
alternatives, and what was saved in the outermost one runs next. -/
def delay (cp : ChoicePoints) (strategy : Strategy) (frame : Frame) : Frame × ChoicePoints :=
  let pruned := { frame with alt := cp.innermost? frame.alt }
  match strategy with
  | .depthFirst => (pruned, cp)
  | .interleaved => cp.rotate pruned (cp.untried frame.alt)

/-- The slots that a slot leads to: the one below it, and the top of the frame saved in it. -/
def links (cp : ChoicePoints) (i : Nat) : List Nat :=
  match cp.slots[i]? with
  | some c => c.below.toList ++ (c.saved.bind (·.alt)).toList
  | none => []

/-- Mark what the slots in `todo` lead to, visiting at most `budget` of them. -/
def markWithin (cp : ChoicePoints) :
    (budget : Nat) → (todo : List Nat) → (marked : Std.TreeSet Nat) → Std.TreeSet Nat
  | 0, _, marked => marked
  | _, [], marked => marked
  | budget + 1, i :: todo, marked =>
    if marked.contains i then cp.markWithin budget todo marked
    else cp.markWithin budget (cp.links i ++ todo) (marked.insert i)

/-- The slots that a frame leads to, through choice points and through the frames saved in them.
Every slot adds at most two to the ones still to visit. -/
def reachable (cp : ChoicePoints) (root : Option Frame) : Std.TreeSet Nat :=
  cp.markWithin (2 * cp.slots.size + 1) (root.bind (·.alt)).toList ∅

/-- Free every slot that `root` does not lead to. The slots behind the last one still in use are
given up altogether; of the others, the last is the first to be used again. -/
def sweep (cp : ChoicePoints) (root : Option Frame) : ChoicePoints :=
  let kept := cp.reachable root
  let count := (kept.max?.map (· + 1)).getD 0
  let slots := (cp.slots.extract 0 count).mapIdx fun i c => if kept.contains i then c else {}
  let free := (Array.range count).filter (!kept.contains ·)
  { cp with slots, free, survivors := slots.size - free.size }

/-- Have so many choice points piled up that it is time for a sweep? -/
def needsSweep (cp : ChoicePoints) : Bool := 2 * cp.survivors + slack ≤ cp.size

end ChoicePoints

end LogicMachine
