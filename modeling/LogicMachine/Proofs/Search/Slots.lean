import LogicMachine.Proofs.ChoicePoints.Strict
import LogicMachine.Proofs.Search.Sweeping

/-!
# The slots of a run

Steps that take nothing for granted: each operation on the choice points is the strict one, which
gives nothing when it misses a slot or goes on for too long. Along every run such a step gives what
a step gives, and the slots are tidy, after a fault too.
-/

namespace LogicMachine

namespace Branch

/-- Leave a jump as an untried alternative, in a free slot that exists or behind the last slot. -/
def choice? (b : Branch) (offset : Int) : Option (Request × Branch) :=
  match b.frame.cont.target offset with
  | .error e => some (.abort e, b)
  | .ok pc => do
    let (slot, choices) ← b.shared.choices.push? b.frame pc
    let saved : Branch :=
      { b with frame := { b.frame with alt := some slot }, shared := { b.shared with choices } }
    some (.proceed, saved.note (.choicePoint slot pc))

/-- Carry out the next instruction. Only a choice is concerned with slots. -/
def run? (m : Machine) (b : Branch) : Option (Request × Branch) :=
  match b.frame.cont.running.current? with
  | some (.choice offset) => (b.fetched (.choice offset)).choice? offset
  | _ => some (b.run m)

end Branch

namespace Search

/-- How many untried alternatives the current branch could go back to. -/
def pending? (st : Search) : Option Nat :=
  match st.frame with
  | none => some 0
  | some frame => st.shared.choices.pending? frame

/-- How many choice points are held, taken ones included. -/
def choicePoints? (st : Search) : Option Nat := st.shared.choices.size?

/-- Free the choice points that the current branch does not lead to, if it is time. -/
def reclaim? (st : Search) : Option (Search × List Report) := do
  let choices := st.shared.choices
  let size ← choices.size?
  if 2 * choices.survivors + ChoicePoints.slack ≤ size then
    let swept ← choices.sweep? st.frame
    some ({ st with shared := { st.shared with choices := swept } },
      [.note (.swept size swept.survivors)])
  else some (st, [])

end Search

namespace Machine

/-- Take the next branch out of the choice points when `frame` has ended; `rotates` says whether the
other branches have their turn first. -/
def nextBranch? (m : Machine) (frame : Frame) (rotates : Bool) (choices : ChoicePoints) :
    Option (Option Frame × ChoicePoints) := do
  match ← choices.fail? frame with
  | (some frame, choices) =>
    if rotates then
      let (frame, choices) ← choices.delay? m.strategy frame
      some (some frame, choices)
    else some (some frame, choices)
  | (none, choices) => some (none, choices)

/-- Go on with the next branch after `b` has ended. -/
def backtrack? (m : Machine) (b : Branch) (rotates : Bool) (solutions : Nat) :
    Option (Search × List Report) := do
  let (frame, choices) ← m.nextBranch? b.frame rotates b.shared.choices
  let shared := { b.shared with choices }
  some (⟨frame, shared, solutions⟩, b.reports ++ Search.resumption shared frame)

/-- Do what an instruction asks for. -/
def grant? (m : Machine) (solutions : Nat) : Request × Branch → Option (Step × Bool)
  | (.proceed, b) => some (⟨.ok none, ⟨some b.frame, b.shared, solutions⟩, b.reports⟩, false)
  | (.fail, b) => do
    let (st, reports) ← m.backtrack? (b.event .fail) false solutions
    some (⟨.ok none, st, reports⟩, true)
  | (.failAndDelay, b) => do
    let (st, reports) ← m.backtrack? (b.event .fail) true solutions
    some (⟨.ok none, st, reports⟩, true)
  | (.delay, b) => do
    let (frame, choices) ← b.shared.choices.delay? m.strategy b.frame
    some (⟨.ok none, ⟨some frame, { b.shared with choices }, solutions⟩, b.reports⟩, true)
  | (.answer s, b) => do
    let (st, reports) ← m.backtrack? (b.note (.solution (solutions + 1))) true (solutions + 1)
    some (⟨.ok (some s), st, reports⟩, true)
  | (.abort e, b) =>
    let b := (b.note (.aborted e)).event .exception
    some (⟨.error e, ⟨none, b.shared, solutions⟩, b.reports⟩, false)

/-- One step of a branch, before choice points are reclaimed, and whether they may be. -/
def move? (m : Machine) (b : Branch) (solutions : Nat) : Option (Step × Bool) := do
  m.grant? solutions (← b.run? m)

/-- Run one instruction. -/
def step? (m : Machine) (st : Search) : Option Step :=
  match st.frame with
  | none => some ⟨.ok none, st, []⟩
  | some frame => do
    match ← m.move? ⟨frame, st.shared, []⟩ st.solutions with
    | (taken, false) => some taken
    | (taken, true) =>
      let (search, swept) ← taken.search.reclaim?
      some { taken with search, reports := taken.reports ++ swept }

end Machine

/-! ### On choice points that are in order -/

section Sound

variable {m : Machine} {b : Branch} {st : Search} {f : Frame} {cp : ChoicePoints}

/-- A choice leaves its alternative in a slot that exists, or in a new one. -/
theorem Branch.choice?_eq (h : b.shared.choices.Sound b.frame.alt) (offset : Int) :
    b.choice? offset = some (b.choice offset) := by
  rw [choice?, choice]
  cases b.frame.cont.target offset with
  | error e => rfl
  | ok pc =>
    simp only [h.push?_eq, Option.bind_eq_bind, Option.bind_some]
    rfl

/-- Every instruction is carried out without missing a slot; all but choices have nothing to do with
them. -/
theorem Branch.run?_eq (h : b.shared.choices.Sound b.frame.alt) :
    b.run? m = some (b.run m) := by
  unfold run?
  split
  · next offset hcur =>
    rw [run_choice m hcur]
    exact choice?_eq (b := b.fetched (.choice offset)) h offset
  · rfl

/-- The count of pending alternatives misses no slot and comes to an end. -/
theorem Search.pending?_eq (h : ∀ f, st.frame = some f → st.shared.choices.Sound f.alt) :
    st.pending? = some st.pending := by
  unfold Search.pending? Search.pending
  cases hf : st.frame with
  | none => rfl
  | some f => exact (h f hf).pending?_eq

/-- To reclaim choice points misses no slot, and there are enough slots for what is subtracted. -/
theorem Search.reclaim?_eq (h : st.shared.choices.Sound (st.frame.bind (·.alt))) :
    st.reclaim? = some st.reclaim := by
  rw [reclaim?, reclaim, h.size?_eq, h.sweep?_eq]
  simp only [Option.bind_eq_bind, Option.bind_some, ChoicePoints.needsSweep, decide_eq_true_eq]
  split <;> rfl

namespace Machine

/-- The next branch comes out of a slot that exists, and the rotation after it ends. -/
theorem nextBranch?_eq (h : cp.Sound f.alt) (rotates : Bool) :
    m.nextBranch? f rotates cp = some (m.nextBranch f rotates cp) := by
  rw [nextBranch?, nextBranch, h.fail?_eq, Option.bind_eq_bind, Option.bind_some]
  rcases hfail : cp.fail f with ⟨_ | g, cp'⟩
  · rfl
  · cases rotates with
    | false => rfl
    | true => simp [(h.fail_some hfail).1.delay?_eq]

/-- To go on after the end of a branch misses no slot. -/
theorem backtrack?_eq (h : b.shared.choices.Sound b.frame.alt) (rotates : Bool)
    (solutions : Nat) :
    m.backtrack? b rotates solutions = some (m.backtrack b rotates solutions) := by
  rw [backtrack?, nextBranch?_eq h]
  rfl

/-- Whatever an instruction asks for is done without missing a slot. -/
theorem move?_eq (h : b.shared.choices.Sound b.frame.alt) (solutions : Nat) :
    m.move? b solutions = some (m.move b solutions) := by
  rw [move?, Branch.run?_eq h, Option.bind_eq_bind, Option.bind_some]
  rcases b.run_cases m with ⟨cont, pc, reports, -, hrun, -⟩ | ⟨request, b', -, hrun, halt, hcp, -⟩
  · rw [hrun, grant?, move, hrun]
  · rw [move, hrun]
    rw [← hcp, ← halt] at h
    cases request with
    | proceed | abort => rfl
    | fail => exact congrArg (Option.bind · _) (backtrack?_eq (b := b'.event .fail) h _ _)
    | failAndDelay => exact congrArg (Option.bind · _) (backtrack?_eq (b := b'.event .fail) h _ _)
    | delay => exact congrArg (Option.bind · _) (h.delay?_eq m.strategy)
    | answer s =>
      exact congrArg (Option.bind · _)
        (backtrack?_eq (b := b'.note (.solution (solutions + 1))) h _ _)

/-- Nor is a slot missed when choice points are reclaimed. -/
theorem step?_eq (h : ∀ f, st.frame = some f → st.shared.choices.Sound f.alt) :
    m.step? st = some (m.step st) := by
  unfold step? step
  cases hf : st.frame with
  | none => rfl
  | some f =>
    obtain ⟨o, next, cp', hmoves, -, -, hframe, hchoices, hreclaim⟩ :=
      m.move_cases ⟨f, st.shared, []⟩ st.solutions
    simp only [move?_eq (b := ⟨f, st.shared, []⟩) (h f hf), Option.bind_eq_bind, Option.bind_some]
    rcases hmove : m.move ⟨f, st.shared, []⟩ st.solutions with ⟨taken, swept⟩
    cases swept with
    | false => rfl
    | true =>
      rw [hmove] at hframe hchoices hreclaim
      have hsound := hmoves.sound (h f hf) (hreclaim rfl)
      rw [← hframe, ← hchoices] at hsound
      simp only [Search.reclaim?_eq hsound, Option.bind_some]

end Machine

end Sound

/-! ### Along a run -/

namespace Machine

variable {m : Machine} {f : Frame} {cp cp' : ChoicePoints} {o : Outcome}
  {journal : List Suspension} {next : Option Frame}

/-- Taking the next branch out leaves the slots tidy, whether or not the others have their turn
first. -/
theorem tidy_nextBranch (h : cp.Tidy) (hsound : cp.Sound f.alt) (rotates : Bool) :
    (m.nextBranch f rotates cp).2.Tidy := by
  have hleft := h.fail hsound
  unfold nextBranch
  rcases hfail : cp.fail f with ⟨_ | g, left⟩ <;> rw [hfail] at hleft
  · exact hleft
  · cases rotates with
    | false => exact hleft
    | true => exact hleft.delay (hsound.fail_some hfail).1 m.strategy

/-- Tidy slots stay tidy, also when the search is given up. -/
theorem Moves.tidy (hmoves : m.Moves f cp o journal next cp') (h : cp.Tidy)
    (hsound : cp.Sound f.alt) : cp'.Tidy := by
  cases hmoves with
  | proceed | abort => exact h
  | save cont pc => exact h.push (f := { f with cont }) hsound pc
  | @delay g halt => exact h.delay (f := g) (by rwa [halt]) m.strategy
  | finish => exact tidy_nextBranch h hsound _

/-- After any number of steps the slots are tidy. -/
theorem tidy_after (m : Machine) (q : Query) (n : Nat) :
    (m.after n (.start q)).shared.choices.Tidy := by
  induction n with
  | zero => exact .empty
  | succ n ih =>
    set st := m.after n (.start q) with hst
    have hafter : m.after (n + 1) (.start q) = (m.step st).search := rfl
    rw [hafter]
    cases hf : st.frame with
    | none =>
      rw [step_of_isDone (by simp [Search.isDone, hf])]
      exact ih
    | some f =>
      have hsound : st.shared.choices.Sound f.alt := m.sound_after_of_frame hf
      obtain ⟨o, next, cp', hmoves, -, -, -, hchoices⟩ := m.step_cases hf
      have htidy := hmoves.tidy ih hsound
      rcases hchoices with hchoices | ⟨hchoices, hfault⟩ <;> rw [hchoices]
      · exact htidy
      · exact htidy.sweep (hmoves.sound hsound hfault)

/-- For every program, query and strategy, after any number of steps: the free slots are distinct,
exist and are blank; what the running frame leads to, through choice points and through the frames
saved in them, exists and is not free; and from every slot the way down ends. So nothing that the
next step does misses a slot or goes on for ever, nor does it to count the alternatives, and there
are never more free slots than slots. -/
theorem slots_after (m : Machine) (q : Query) (n : Nat) :
    (m.after n (.start q)).shared.choices.free.toList.Nodup ∧
      (∀ i ∈ (m.after n (.start q)).shared.choices.free,
        (m.after n (.start q)).shared.choices.slots[i]? = some {}) ∧
      (∀ f k, (m.after n (.start q)).frame = some f →
        (m.after n (.start q)).shared.choices.LeadsOn f k →
          k < (m.after n (.start q)).shared.choices.slots.size ∧
            k ∉ (m.after n (.start q)).shared.choices.free) ∧
      (∀ i < (m.after n (.start q)).shared.choices.slots.size,
        ∃ l, (m.after n (.start q)).shared.choices.Chain (some i) l) ∧
      m.step? (m.after n (.start q)) = some (m.step (m.after n (.start q))) ∧
      (m.after n (.start q)).pending? = some (m.after n (.start q)).pending ∧
      (m.after n (.start q)).choicePoints? = some (m.after n (.start q)).choicePoints := by
  have htidy := m.tidy_after q n
  have hsound := fun f hf => m.sound_after_of_frame (q := q) (n := n) (f := f) hf
  refine ⟨htidy.free_nodup, fun i => htidy.free_blank, fun f k hf hk => ?_,
    fun i => htidy.exists_chain, step?_eq hsound, Search.pending?_eq hsound, ?_⟩
  · exact (htidy.used_of_leadsOn (hsound f hf).used hk).of_some
  · exact ChoicePoints.size?_eq_of_le
      (ChoicePoints.free_le htidy.free_nodup fun _ => htidy.free_lt)

end Machine

end LogicMachine
