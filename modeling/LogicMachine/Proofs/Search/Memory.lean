import LogicMachine.Proofs.ChoicePoints.Tied
import LogicMachine.Proofs.Search.DepthFirst
import LogicMachine.Proofs.Search.Requests
import LogicMachine.Proofs.Search.Suspended

/-!
# How many choice points are held

Choice points are made again and again, and their slots are to be used again. What bounds their
number are the alternatives that were untried at one time, and the instructions to fail: a branch
that gives up by such an instruction is not delayed, and so the slot of the alternative that is
taken stays linked. A program that fails in this way once for each answer holds more and more choice
points.
-/

namespace LogicMachine

open ChoicePoints

/-- Is the next instruction of the running branch the one to fail? -/
def Search.failsNext (st : Search) : Bool :=
  match st.frame.bind (·.cont.running.current?) with
  | some .fail => true
  | _ => false

/-- Does the branch give up without letting the others have their turn? -/
def Request.isFail : Request → Bool
  | .fail => true
  | .proceed | .failAndDelay | .delay | .answer _ | .abort _ => false

namespace Machine

/-- The largest number of untried alternatives that were held at once, up to some step. -/
def mostHeld (m : Machine) (q : Query) : (count : Nat) → Nat
  | 0 => (Search.start q).shared.choices.held.length
  | count + 1 =>
    max (m.mostHeld q count) (m.after (count + 1) (.start q)).shared.choices.held.length

/-- How many instructions to fail were carried out in some steps. -/
def failures (m : Machine) (q : Query) : (count : Nat) → Nat
  | 0 => 0
  | count + 1 => m.failures q count + (m.after count (.start q)).failsNext.toNat

variable {m : Machine} {st : Search} {f : Frame} {cp : ChoicePoints} {kept : List Nat}
  {request : Request}

/-- The choice points are in order for the next branch. -/
theorem sound_respond (hsound : cp.Sound f.alt) (hrequest : ∀ e, request ≠ .abort e) :
    (m.respond f cp request).2.Sound ((m.respond f cp request).1.bind (·.alt)) := by
  cases request with
  | proceed => exact hsound
  | fail | failAndDelay | answer => exact (hsound.nextBranch m _).1
  | delay => exact (hsound.delay m.strategy).1
  | abort e => exact absurd rfl (hrequest e)

/-- No request changes the number that the last sweep has left. -/
theorem survivors_respond (m : Machine) (f : Frame) (cp : ChoicePoints) (request : Request) :
    (m.respond f cp request).2.survivors = cp.survivors := by
  have hnext : ∀ rotates, (m.nextBranch f rotates cp).2.survivors = cp.survivors := by
    intro rotates
    rcases hfail : cp.fail f with ⟨_ | g, cp'⟩ <;> have hleft := cp.survivors_fail f <;>
      rw [hfail] at hleft
    · rw [nextBranch_of_none hfail]
      exact hleft
    · rw [nextBranch_of_some hfail]
      cases rotates with
      | false => exact hleft
      | true => exact (cp'.survivors_delay m.strategy g).trans hleft
  cases request with
  | proceed | abort => rfl
  | fail | failAndDelay | answer => exact hnext _
  | delay => exact survivors_delay ..

/-- Depth first, every alternative stays in the slot that it was saved in. -/
theorem upright_respond (hsound : cp.Sound f.alt) (hstrategy : m.strategy = .depthFirst)
    (hup : cp.Upright) : (m.respond f cp request).2.Upright := by
  have hnext : ∀ rotates, (m.nextBranch f rotates cp).2.Upright := by
    intro rotates
    rcases hfail : cp.fail f with ⟨_ | g, cp'⟩
    · obtain ⟨rfl, -⟩ := hsound.fail_none hfail
      rw [nextBranch_of_none hfail]
      exact hup
    · have hup' := (hsound.fail_stack hup hfail).1
      rw [nextBranch_of_some hfail, hstrategy]
      cases rotates <;> exact hup'
  cases request with
  | proceed | abort => exact hup
  | fail | failAndDelay | answer => exact hnext _
  | delay =>
    rw [respond, hstrategy]
    exact hup

/-- A branch that is next keeps no more than the alternatives that are held and what was kept
already; and one slot more if it comes out of the choice points and is not delayed. -/
theorem tied_nextBranch (h : cp.Tied f.alt kept) (hsound : cp.Sound f.alt)
    (hup : m.strategy = .depthFirst → cp.Upright) (rotates : Bool) :
    ∃ rest, (m.nextBranch f rotates cp).2.Tied ((m.nextBranch f rotates cp).1.bind (·.alt)) rest ∧
      rest.length + cp.held.length ≤
        kept.length + (m.nextBranch f rotates cp).2.held.length + (!rotates).toNat := by
  -- either no branch is left, or the next one comes out of the choice points and may be delayed
  rcases hfail : cp.fail f with ⟨_ | g, cp'⟩
  · obtain ⟨rfl, hinnermost⟩ := hsound.fail_none hfail
    obtain ⟨l, hl⟩ := hsound.used.chain
    obtain ⟨rest, hrest, hlength⟩ := h.prune hl
    rw [hinnermost] at hrest
    rw [nextBranch_of_none hfail]
    refine ⟨rest, hrest, ?_⟩
    simp only
    omega
  · obtain ⟨hsound', hperm⟩ := hsound.fail_some hfail
    have hheld := hperm.length_eq
    rw [List.length_cons] at hheld
    rw [nextBranch_of_some hfail]
    cases rotates with
    | false =>
      obtain ⟨-, rest, -, -, hrest, hlength⟩ := h.fail hsound hfail
      refine ⟨rest, hrest, ?_⟩
      simp only [Bool.false_eq_true, if_false, Bool.not_false, Bool.toNat_true]
      omega
    | true =>
      obtain ⟨rest, hrest, hlength⟩ := h.fail_delay hsound hup hfail
      have hheld' := (hsound'.delay m.strategy).2.length_eq
      rw [List.length_cons, List.length_cons] at hheld'
      refine ⟨rest, hrest, ?_⟩
      simp only [if_true]
      omega

/-- Whatever is asked for, only an instruction to fail can make the next branch keep a slot more
without an alternative in it. -/
theorem tied_respond (h : cp.Tied f.alt kept) (hsound : cp.Sound f.alt)
    (hup : m.strategy = .depthFirst → cp.Upright) (hrequest : ∀ e, request ≠ .abort e) :
    ∃ rest, (m.respond f cp request).2.Tied ((m.respond f cp request).1.bind (·.alt)) rest ∧
      rest.length + cp.held.length ≤ kept.length + (m.respond f cp request).2.held.length +
        request.isFail.toNat := by
  cases request with
  | proceed => exact ⟨kept, h, Nat.le_add_right ..⟩
  | fail => exact tied_nextBranch h hsound hup false
  | failAndDelay | answer => exact tied_nextBranch h hsound hup true
  | delay =>
    obtain ⟨l, hl⟩ := hsound.used.chain
    obtain ⟨rest, hrest, hlength⟩ := h.delay hsound hl m.strategy
    have hheld := (hsound.delay m.strategy).2.length_eq
    rw [List.length_cons, List.length_cons] at hheld
    refine ⟨rest, hrest, ?_⟩
    simp only [respond]
    omega
  | abort e => exact absurd rfl (hrequest e)

end Machine

/-! ### Along a run -/

/-- What the running branch keeps is held, or is the slot of an alternative that was taken by an
instruction to fail. -/
structure Search.Thrifty (m : Machine) (failures : Nat) (st : Search) : Prop where
  tied : ∀ f, st.frame = some f → ∃ kept, st.shared.choices.Tied f.alt kept ∧
    kept.length ≤ st.shared.choices.held.length + failures
  upright : m.strategy = .depthFirst → st.shared.choices.Upright

namespace Machine

variable {m : Machine} {st : Search} {f : Frame} {b : Branch} {request : Request} {failures : Nat}

/-- Before an instruction asks for something it has left the choice points alone, or it has made a
choice. -/
theorem thrifty_run (h : st.Thrifty m failures) (hf : st.frame = some f)
    (hsound : st.shared.choices.Sound f.alt)
    (hrun : Branch.run m ⟨f, st.shared, []⟩ = (request, b)) :
    b.shared.choices.Sound b.frame.alt ∧
      (m.strategy = .depthFirst → b.shared.choices.Upright) ∧
      b.shared.choices.survivors = st.shared.choices.survivors ∧
      ∃ kept, b.shared.choices.Tied b.frame.alt kept ∧
        kept.length ≤ b.shared.choices.held.length + failures := by
  obtain ⟨kept, hkept, hlength⟩ := h.tied f hf
  rcases Branch.run_cases m ⟨f, st.shared, []⟩ with
    ⟨cont, pc, reports, -, hpush, -⟩ | ⟨request', b', -, hrest, halt, hcp, -⟩
  · obtain ⟨rfl, rfl⟩ := Prod.mk.inj (hrun.symm.trans hpush)
    have hsound' : st.shared.choices.Sound ({ f with cont } : Frame).alt := hsound
    have hheld := (hsound'.push pc).2.length_eq
    refine ⟨(hsound'.push pc).1, fun hd => (hsound'.push_stack (h.upright hd) pc).1, rfl, _,
      Tied.push (f := { f with cont }) hkept hsound' pc, ?_⟩
    rw [List.length_cons] at hheld ⊢
    simp only
    omega
  · obtain ⟨rfl, rfl⟩ := Prod.mk.inj (hrun.symm.trans hrest)
    rw [halt, hcp]
    exact ⟨hsound, h.upright, rfl, kept, hkept, hlength⟩

/-- Only the instruction to fail makes the request to fail without a delay. -/
theorem failsNext_of_run (hf : st.frame = some f)
    (hrun : Branch.run m ⟨f, st.shared, []⟩ = (request, b)) (hfail : request.isFail = true) :
    st.failsNext = true := by
  cases request with
  | fail =>
    rw [Search.failsNext, hf, Option.bind_some, current?_of_fail hrun]
  | proceed | failAndDelay | delay | answer | abort => cases hfail

/-- Nor does what is done about the request make the next branch keep more than it may. -/
theorem thrifty_respond (h : st.Thrifty m failures) (hf : st.frame = some f)
    (hsound : st.shared.choices.Sound f.alt)
    (hrun : Branch.run m ⟨f, st.shared, []⟩ = (request, b)) (hrequest : ∀ e, request ≠ .abort e)
    {next : Option Frame} (hrespond : m.respond b.frame b.shared.choices request = (next, cp)) :
    cp.Sound (next.bind (·.alt)) ∧ (m.strategy = .depthFirst → cp.Upright) ∧
      cp.survivors = st.shared.choices.survivors ∧
      ∃ kept, cp.Tied (next.bind (·.alt)) kept ∧
        kept.length ≤ cp.held.length + (failures + st.failsNext.toNat) := by
  obtain ⟨hb, hup, hsurvivors, kept, hkept, hlength⟩ := thrifty_run h hf hsound hrun
  have hnext := sound_respond (m := m) hb hrequest
  have hnextSurvivors := (survivors_respond m b.frame b.shared.choices request).trans hsurvivors
  have hnextUp : m.strategy = .depthFirst →
      (m.respond b.frame b.shared.choices request).2.Upright :=
    fun hd => upright_respond hb hd (hup hd)
  obtain ⟨rest, hrest, hrestLength⟩ := tied_respond hkept hb hup hrequest
  have hfails : request.isFail.toNat ≤ st.failsNext.toNat := by
    cases hfail : request.isFail with
    | false => exact Nat.zero_le _
    | true => rw [failsNext_of_run hf hrun hfail]
  rw [hrespond] at hnext hnextUp hnextSurvivors hrest hrestLength
  exact ⟨hnext, hnextUp, hnextSurvivors, rest, hrest, by simp only at hrestLength; omega⟩

/-- One step: the next branch keeps what it may keep, and a sweep leaves no more than that. -/
theorem thrifty_step (h : st.Thrifty m failures)
    (hsound : ∀ f, st.frame = some f → st.shared.choices.Sound f.alt) :
    (m.step st).search.Thrifty m (failures + st.failsNext.toNat) ∧
      ((m.step st).search.shared.choices.survivors = st.shared.choices.survivors ∨
        (m.step st).search.shared.choices.survivors ≤
          (m.step st).search.shared.choices.held.length + (failures + st.failsNext.toNat)) := by
  cases hf : st.frame with
  | none =>
    rw [step_of_isDone (by simp [Search.isDone, hf])]
    refine ⟨⟨fun f hf' => ?_, h.upright⟩, .inl rfl⟩
    rw [hf] at hf'
    cases hf'
  | some f =>
    rcases hrun : Branch.run m ⟨f, st.shared, []⟩ with ⟨request, b⟩
    obtain ⟨hframe, hchoices⟩ := step_of_request hf hrun
    by_cases habort : ∃ e, request = .abort e
    · obtain ⟨e, rfl⟩ := habort
      obtain ⟨-, hup, hsurvivors, -⟩ := thrifty_run h hf (hsound f hf) hrun
      refine ⟨⟨fun g hg => ?_, ?_⟩, .inl ?_⟩
      · rw [hframe] at hg
        cases hg
      · rwa [hchoices]
      · rwa [hchoices]
    · have hrequest : ∀ e, request ≠ .abort e := fun e he => habort ⟨e, he⟩
      rcases hrespond : m.respond b.frame b.shared.choices request with ⟨next, cp⟩
      obtain ⟨hnext, hup, hsurvivors, kept, hkept, hlength⟩ :=
        thrifty_respond h hf (hsound f hf) hrun hrequest hrespond
      rw [hrespond] at hframe hchoices
      simp only at hframe hchoices
      split at hchoices
      · obtain ⟨left, hleft, hleftLength⟩ := hkept.sweep hnext
        have hheld := hnext.sweep.2
        rw [hchoices, hheld]
        refine ⟨⟨fun g hg => ?_, fun hd => ?_⟩, .inr (hkept.survivors_le.trans hlength)⟩
        · rw [hframe] at hg
          subst hg
          rw [hchoices, hheld]
          exact ⟨left, hleft, hleftLength.trans hlength⟩
        · rw [hchoices]
          exact (hnext.sweep_stack (hup hd)).1
      · refine ⟨⟨fun g hg => ?_, ?_⟩, .inl ?_⟩
        · rw [hframe] at hg
          subst hg
          rw [hchoices]
          exact ⟨kept, hkept, hlength⟩
        · rwa [hchoices]
        · rw [hchoices, hsurvivors]

/-- Along a run, the last sweep has left no more than was ever held at once, and a slot for each
instruction to fail. -/
theorem thrifty_after (m : Machine) (q : Query) (n : Nat) :
    (m.after n (.start q)).Thrifty m (m.failures q n) ∧
      (m.after n (.start q)).shared.choices.survivors ≤ m.mostHeld q n + m.failures q n := by
  induction n with
  | zero =>
    refine ⟨⟨fun f hf => ?_, fun _ i f hi => ?_⟩, Nat.zero_le _⟩
    · obtain rfl := Option.some.inj hf
      exact ⟨[], tied_empty, Nat.zero_le _⟩
    · simp [after, Search.start, savedIn, ChoicePoints.empty] at hi
  | succ n ih =>
    obtain ⟨hthrifty, hsurvivors⟩ := thrifty_step ih.1 fun f hf => m.sound_after_of_frame hf
    refine ⟨hthrifty, ?_⟩
    have hheld : (m.after (n + 1) (.start q)).shared.choices.held.length ≤ m.mostHeld q (n + 1) :=
      Nat.le_max_right ..
    have hmost : m.mostHeld q n ≤ m.mostHeld q (n + 1) := Nat.le_max_left ..
    have hfailures : m.failures q (n + 1) =
        m.failures q n + (m.after n (.start q)).failsNext.toNat := rfl
    rw [after] at hheld ⊢
    omega

/-- For every program, query and strategy: right after a branch has failed, has answered or has been
made to wait, no more choice points are held, taken ones included, than twice the largest number of
alternatives that were ever untried at once, and two for each instruction to fail so far, beyond the
slack. -/
theorem choicePoints_le (m : Machine) (q : Query) (n : Nat)
    (hturn : (m.request? (m.after n (.start q))).any (·.endsTurn) = true) :
    (m.after (n + 1) (.start q)).choicePoints ≤
      2 * (m.mostHeld q (n + 1) + m.failures q (n + 1)) + slack := by
  have hafter : m.after (n + 1) (.start q) = (m.step (m.after n (.start q))).search := rfl
  obtain ⟨-, hsurvivors⟩ := m.thrifty_after q (n + 1)
  rw [hafter] at hsurvivors ⊢
  cases hf : (m.after n (.start q)).frame with
  | none =>
    rw [request?, hf] at hturn
    cases hturn
  | some f =>
    rcases hrun : Branch.run m ⟨f, (m.after n (.start q)).shared, []⟩ with ⟨request, b⟩
    rw [request?, hf, Option.map_some, hrun] at hturn
    have hturn' : request.endsTurn = true := hturn
    obtain ⟨-, hchoices⟩ := step_of_request hf hrun
    rcases hrespond : m.respond b.frame b.shared.choices request with ⟨next, cp⟩
    rw [hrespond] at hchoices
    simp only [hturn', Bool.true_and] at hchoices
    rw [Search.choicePoints]
    split at hchoices
    · have hsize : (cp.sweep next).size = (cp.sweep next).survivors := rfl
      rw [hchoices] at hsurvivors ⊢
      omega
    · next hneeds =>
      have hneeds' : ¬ 2 * cp.survivors + slack ≤ cp.size := by
        simpa only [needsSweep, decide_eq_true_eq] using hneeds
      rw [hchoices] at hsurvivors ⊢
      omega

/-- Two rounds of a program that leaves two alternatives, answers, and gives up one of the two: at
the second instruction to fail four choice points are held. -/
theorem choicePoints_le_two_rounds :
    let m : Machine := {}
    let q : Query := .ofCode 0 [.choice 3, .choice 1, .success, .fail, .goto (-5)]
    (m.request? (m.after 8 (.start q))).any (·.endsTurn) = true ∧
      (m.after 9 (.start q)).choicePoints = 4 ∧ m.mostHeld q 9 = 2 ∧ m.failures q 9 = 2 ∧
      (m.after 9 (.start q)).choicePoints ≤ 2 * (m.mostHeld q 9 + m.failures q 9) + slack := by
  intro m q
  have hturn : (m.request? (m.after 8 (.start q))).any (·.endsTurn) = true := by decide +kernel
  exact ⟨hturn, by decide +kernel, by decide +kernel, by decide +kernel,
    m.choicePoints_le q 8 hturn⟩

end Machine

end LogicMachine
