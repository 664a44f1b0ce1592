import LogicMachine.Proofs.Search.Step
import LogicMachine.Samples

/-!
# What is suspended during a run

A frame is suspended from the choice or the rotation that puts it into a slot until it is taken up
again. Along every run, whatever the strategy, the slots hold the suspended frames and nothing else,
and failing again and again from the running frame reaches every one of them.
-/

namespace LogicMachine

open ChoicePoints

/-- When a branch ends, the journal tells what is taken up after it and what the rotation moves. -/
theorem ChoicePoints.Sound.replays_leaving {cp : ChoicePoints} {f : Frame} (h : cp.Sound f.alt)
    (m : Machine) (rotates : Bool) :
    Replays cp.held (m.leaving f rotates cp) (m.nextBranch f rotates cp).2.held := by
  have hfailing := h.replays_failing
  unfold Machine.leaving Machine.nextBranch
  rcases hfail : cp.fail f with ⟨_ | g, cp'⟩
  · rw [hfail] at hfailing
    exact hfailing.append (.nil _)
  · rw [hfail] at hfailing
    cases rotates with
    | false => exact hfailing.append (.nil _)
    | true => exact hfailing.append ((h.fail_some hfail).1.replays_delaying m.strategy)

namespace Machine

/-- The search after some steps. -/
def after (m : Machine) : (count : Nat) → Search → Search
  | 0, st => st
  | count + 1, st => (m.step (m.after count st)).search

/-- To run on is to run from where the first steps have led. -/
theorem after_add (m : Machine) (n k : Nat) (st : Search) :
    m.after (n + k) st = m.after k (m.after n st) := by
  induction k with
  | zero => rfl
  | succ k ih => exact congrArg (fun st => (m.step st).search) ih

/-- The first step can be taken first. -/
theorem after_succ_left (m : Machine) (n : Nat) (st : Search) :
    m.after (n + 1) st = m.after n (m.step st).search := by
  rw [Nat.add_comm, after_add]
  rfl

/-- A run all of whose steps can be seen to succeed has met no error. -/
theorem no_error_of_isOk {m : Machine} {st : Search} {n : Nat}
    (h : ∀ k < n, (m.step (m.after k st)).result.isOk = true) :
    ∀ k < n, ∀ e, (m.step (m.after k st)).result ≠ .error e := by
  intro k hk e he
  have hok := h k hk
  rw [he] at hok
  cases hok

/-- What is suspended or taken up by the next step. -/
def suspendingNext (m : Machine) (st : Search) : List Suspension :=
  match st.frame with
  | none => []
  | some f => m.suspending ⟨f, st.shared, []⟩

/-- What is suspended or taken up in some steps, in order. -/
def history (m : Machine) : (count : Nat) → Search → List Suspension
  | 0, _ => []
  | count + 1, st => m.history count st ++ m.suspendingNext (m.after count st)

variable {m : Machine} {st : Search} {f : Frame} {cp cp' : ChoicePoints} {o : Outcome}
  {journal : List Suspension} {next : Option Frame}

/-- The journal of a move accounts for what the slots hold before and after it. -/
theorem Moves.replays (hmoves : m.Moves f cp o journal next cp') (h : cp.Sound f.alt) :
    Replays cp.held journal cp'.held := by
  cases hmoves with
  | proceed => exact .nil _
  | save cont pc => exact Sound.replays_push (f := { f with cont }) h pc
  | @delay g halt => exact Sound.replays_delaying (f := g) (by rwa [halt]) m.strategy
  | finish => exact h.replays_leaving m _
  | abort => exact .nil _

/-- The choice points are in order, or else a fault has ended the run. -/
theorem sound_after (m : Machine) (q : Query) (n : Nat) :
    (m.after n (.start q)).shared.choices.Sound ((m.after n (.start q)).frame.bind (·.alt)) ∨
      (m.after n (.start q)).frame = none ∧
        ∃ k < n, ∃ e, (m.step (m.after k (.start q))).result = .error e := by
  induction n with
  | zero => exact .inl sound_empty
  | succ n ih =>
    set st := m.after n (.start q) with hst
    have hafter : m.after (n + 1) (.start q) = (m.step st).search := rfl
    rw [hafter]
    cases hf : st.frame with
    | none =>
      rw [step_of_isDone (by simp [Search.isDone, hf])]
      rcases ih with hsound | ⟨hnone, k, hk, hfault⟩
      · exact .inl hsound
      · exact .inr ⟨hnone, k, hk.trans (Nat.lt_succ_self n), hfault⟩
    | some f =>
      rcases ih with hsound | ⟨hnone, -⟩
      · rw [hf] at hsound
        by_cases hfault : ∃ e, (m.step st).result = .error e
        · obtain ⟨e, he⟩ := hfault
          exact .inr ⟨(m.step_of_fault hf he).1, n, Nat.lt_succ_self n, e, he⟩
        · exact .inl (m.step_spec hsound hf fun e he => hfault ⟨e, he⟩).1
      · rw [hf] at hnone
        cases hnone

/-- While a branch is running, the choice points are in order for it. -/
theorem sound_after_of_frame (m : Machine) {q : Query} {n : Nat}
    (hf : (m.after n (.start q)).frame = some f) :
    (m.after n (.start q)).shared.choices.Sound f.alt := by
  rcases m.sound_after q n with hsound | ⟨hnone, -⟩
  · rwa [hf] at hsound
  · rw [hf] at hnone
    cases hnone

/-- The slots hold what is suspended, and nothing else. -/
theorem replays_history (m : Machine) (q : Query) (n : Nat) :
    Replays 0 (m.history n (.start q)) (m.after n (.start q)).shared.choices.held := by
  induction n with
  | zero => exact .nil _
  | succ n ih =>
    set st := m.after n (.start q) with hst
    refine ih.append ?_
    have hafter : m.after (n + 1) (.start q) = (m.step st).search := rfl
    rw [hafter, ← hst]
    cases hf : st.frame with
    | none =>
      have hdone : st.isDone = true := by simp [Search.isDone, hf]
      simp only [step_of_isDone hdone, suspendingNext, hf]
      exact .nil _
    | some f =>
      have hsound : st.shared.choices.Sound f.alt := m.sound_after_of_frame hf
      obtain ⟨o, next, cp', hmoves, -, -, -, hchoices⟩ := m.step_cases hf
      have hreplays := hmoves.replays hsound
      simp only [suspendingNext, hf]
      rcases hchoices with hchoices | ⟨hchoices, hfault⟩ <;> rw [hchoices]
      · exact hreplays
      · rwa [(hmoves.sound hsound hfault).sweep.2]

/-- Whatever the strategy, after any number of steps: the slots hold the frames that are suspended
according to the history; failing again and again from the running frame hands out all of them, each
once; and unless there was a fault, a search without a running frame has none left. -/
theorem suspended_handed_out (m : Machine) (q : Query) (n : Nat) :
    ∃ suspended : Multiset Frame,
      Replays 0 (m.history n (.start q)) suspended ∧
      suspended = (m.after n (.start q)).shared.choices.held ∧
      (∀ f, (m.after n (.start q)).frame = some f →
        ∃ fs, (m.after n (.start q)).shared.choices.HandsOut f fs ∧ fs = suspended) ∧
      ((∀ k < n, ∀ e, (m.step (m.after k (.start q))).result ≠ .error e) →
        (m.after n (.start q)).frame = none → suspended = 0) := by
  refine ⟨_, m.replays_history q n, rfl, ?_, ?_⟩
  · intro f hf
    rcases m.sound_after q n with hsound | ⟨hnone, -⟩
    · rw [hf] at hsound
      obtain ⟨fs, hfs, hperm⟩ := hsound.handsOut
      exact ⟨fs, hfs, Multiset.coe_eq_coe.mpr hperm⟩
    · rw [hf] at hnone
      cases hnone
  · intro hfault hnone
    rcases m.sound_after q n with hsound | ⟨-, k, hk, e, he⟩
    · rw [hnone] at hsound
      rw [hsound.held_eq_nil Chain.nil.innermost?_eq]
      rfl
    · exact absurd he (hfault k hk e)

/-- Two bits are looked for: on the way there are two alternatives, and in the end there is none. -/
theorem suspended_handed_out_bits :
    let m : Machine := { program := Samples.predicates, strategy := .interleaved }
    let q : Query := .ofCode 2 [.invoke "bits" [.register 0, .register 1], .success]
    (∃ f fs, (m.after 9 (.start q)).frame = some f ∧
      (m.after 9 (.start q)).shared.choices.HandsOut f fs ∧ fs.length = 2) ∧
    (m.after 34 (.start q)).frame = none ∧ (m.after 34 (.start q)).shared.choices.held = [] := by
  intro m q
  constructor
  · have hrunning : (m.after 9 (.start q)).frame.isSome = true := by decide +kernel
    have hheld : (m.after 9 (.start q)).shared.choices.held.length = 2 := by decide +kernel
    obtain ⟨f, hf⟩ := Option.isSome_iff_exists.mp hrunning
    obtain ⟨suspended, -, hsuspended, hhands, -⟩ := m.suspended_handed_out q 9
    obtain ⟨fs, hfs, heq⟩ := hhands f hf
    refine ⟨f, fs, hf, hfs, ?_⟩
    rw [hsuspended, Multiset.coe_eq_coe] at heq
    rw [heq.length_eq, hheld]
  · have hover : (m.after 34 (.start q)).frame.isNone = true := by decide +kernel
    have hok : ∀ k < 34, (m.step (m.after k (.start q))).result.isOk = true := by decide +kernel
    have hnone := Option.isNone_iff_eq_none.mp hover
    obtain ⟨suspended, -, hsuspended, -, hempty⟩ := m.suspended_handed_out q 34
    refine ⟨hnone, ?_⟩
    have hzero : suspended = 0 := hempty (no_error_of_isOk hok) hnone
    rw [hzero] at hsuspended
    exact (Multiset.coe_eq_zero _).mp hsuspended.symm

end Machine

end LogicMachine
