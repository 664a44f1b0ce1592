import LogicMachine.Proofs.ChoicePoints.Suspension
import LogicMachine.Proofs.ChoicePoints.Sweep
import LogicMachine.Proofs.Search.Branch

/-!
# What a step can do

Every step of a search in terms of the branch that ran and of the operations on the choice points.
What a run keeps true is derived from this description, and the step itself is not unfolded again.
-/

namespace LogicMachine

/-- The branches still to run, the running one first, wherever they stand. -/
def Search.pool (st : Search) : List Frame :=
  (st.frame.toList ++ st.shared.choices.held).map Frame.detached

namespace Machine

/-- What is suspended or taken up when a branch has ended and the next one is to run. -/
def leaving (m : Machine) (f : Frame) (rotates : Bool) (cp : ChoicePoints) : List Suspension :=
  cp.failing f ++
    match cp.fail f with
    | (some g, cp') => if rotates then cp'.delaying m.strategy g else []
    | (none, _) => []

/-- What is suspended or taken up by one step of a branch. -/
def suspending (m : Machine) (b : Branch) : List Suspension :=
  match b.fork? with
  | some (cont, pc) => [.saved (b.shared.choices.alternative { b.frame with cont } pc)]
  | none =>
    match b.run m with
    | (.fail, b) => m.leaving b.frame false b.shared.choices
    | (.failAndDelay, b) | (.answer _, b) => m.leaving b.frame true b.shared.choices
    | (.delay, b) => b.shared.choices.delaying m.strategy b.frame
    | (.proceed, _) | (.abort _, _) => []

/-- `m.Moves f cp o journal next cp'`: the branch `f`, standing on the choice points `cp`, had the
outcome `o`; after what `journal` tells, `next` runs on `cp'`, sweeps apart. -/
inductive Moves (m : Machine) (f : Frame) (cp : ChoicePoints) :
    Outcome → List Suspension → Option Frame → ChoicePoints → Prop
  /-- The branch goes on. -/
  | proceed {g : Frame} (halt : g.alt = f.alt) : Moves m f cp (.go g.detached) [] (some g) cp
  /-- The branch goes on on top of a new choice point. -/
  | save (cont : Continuation) (pc : Nat) :
      Moves m f cp
        (.split { f.detached with cont } { f.detached with cont := cont.resumeAt pc })
        [.saved (cp.alternative { f with cont } pc)]
        (some { f with alt := some (cp.push { f with cont } pc).1, cont })
        (cp.push { f with cont } pc).2
  /-- The branch goes on, but the others may have their turn first. -/
  | delay {g : Frame} (halt : g.alt = f.alt) :
      Moves m f cp (.go g.detached) (cp.delaying m.strategy g)
        (some (cp.delay m.strategy g).1) (cp.delay m.strategy g).2
  /-- The branch has ended, and the next one runs at once or after the others had their turn. -/
  | finish {o : Outcome} {rotates : Bool}
      (ho : o = .dead ∨ ∃ s, o = .answer s) :
      Moves m f cp o (m.leaving f rotates cp)
        (m.nextBranch f rotates cp).1 (m.nextBranch f rotates cp).2
  /-- The search is given up. -/
  | abort {e : ProgramError} : Moves m f cp (.fault e) [] none cp

end Machine

/-- To reclaim choice points is to sweep them, or to leave them as they are. -/
theorem Search.reclaim_cases (st : Search) :
    st.reclaim.1 = st ∨ st.reclaim.1 =
      { st with shared := { st.shared with choices := st.shared.choices.sweep st.frame } } := by
  simp only [reclaim]
  split
  · exact .inr rfl
  · exact .inl rfl

namespace ChoicePoints

/-- Only the link of a failing branch matters. -/
theorem fail_congr (cp : ChoicePoints) {f g : Frame} (h : g.alt = f.alt) :
    cp.fail g = cp.fail f := by
  unfold fail
  rw [h]

end ChoicePoints

namespace Machine

variable {m : Machine} {st : Search} {f : Frame}

/-- Which branch is next depends on where the ended one stood, and on nothing else of it. -/
theorem nextBranch_congr (m : Machine) (rotates : Bool) (cp : ChoicePoints) {f g : Frame}
    (h : g.alt = f.alt) : m.nextBranch g rotates cp = m.nextBranch f rotates cp ∧
      m.leaving g rotates cp = m.leaving f rotates cp := by
  unfold nextBranch leaving ChoicePoints.failing
  rw [cp.fail_congr h]
  exact ⟨rfl, rfl⟩

/-- To backtrack is to go on with the next branch. The counters stay. -/
theorem backtrack_spec (m : Machine) (b : Branch) (rotates : Bool) (solutions : Nat)
    (halt : b.frame.alt = f.alt) {cp : ChoicePoints} (hcp : b.shared.choices = cp) :
    (m.backtrack b rotates solutions).1.counters = b.shared.counters ∧
      (m.backtrack b rotates solutions).1.frame = (m.nextBranch f rotates cp).1 ∧
      (m.backtrack b rotates solutions).1.shared.choices = (m.nextBranch f rotates cp).2 := by
  rw [← hcp, ← (m.nextBranch_congr rotates b.shared.choices halt).1]
  exact ⟨rfl, rfl, rfl⟩

/-- What `move` does before anything is swept. -/
theorem move_cases (m : Machine) (b : Branch) (solutions : Nat) :
    ∃ o next cp', m.Moves b.frame b.shared.choices o (m.suspending b) next cp' ∧
      m.advance b.frame.detached b.shared.counters =
        (o, (m.move b solutions).1.search.counters) ∧
      (m.move b solutions).1.result = o.result ∧
      (m.move b solutions).1.search.frame = next ∧
      (m.move b solutions).1.search.shared.choices = cp' ∧
      ((m.move b solutions).2 = true → ∀ e, o ≠ .fault e) := by
  rcases b.run_cases m with
    ⟨cont, pc, reports, hfork, hrun, hadvance⟩ |
    ⟨request, b', hfork, hrun, halt, hcp, hadvance⟩
  · have hjournal : m.suspending b =
        [.saved (b.shared.choices.alternative { b.frame with cont } pc)] := by
      simp only [suspending, hfork]
    rw [hjournal]
    refine ⟨_, _, _, .save cont pc, ?_⟩
    simp only [move, hrun]
    exact ⟨hadvance, rfl, trivial, trivial, by simp⟩
  · rw [hadvance]
    -- what leaving journals depends on the choice points only, and these are unchanged
    have hleave : ∀ rotates, m.leaving b'.frame rotates b'.shared.choices =
        m.leaving b.frame rotates b.shared.choices := by
      intro rotates
      rw [hcp]
      exact (m.nextBranch_congr rotates b.shared.choices halt).2
    cases request with
    | proceed =>
      simp only [move, suspending, hfork, hrun]
      exact ⟨_, _, _, .proceed halt, rfl, rfl, rfl, hcp, by simp⟩
    | fail =>
      obtain ⟨hc, hf, hcp'⟩ := m.backtrack_spec (b'.event .fail) false solutions halt hcp
      simp only [move, suspending, hfork, hrun, hleave]
      exact ⟨_, _, _, .finish (.inl rfl), congrArg (Prod.mk _) hc.symm, rfl, hf, hcp',
        by simp⟩
    | failAndDelay =>
      obtain ⟨hc, hf, hcp'⟩ := m.backtrack_spec (b'.event .fail) true solutions halt hcp
      simp only [move, suspending, hfork, hrun, hleave]
      exact ⟨_, _, _, .finish (.inl rfl), congrArg (Prod.mk _) hc.symm, rfl, hf, hcp',
        by simp⟩
    | delay =>
      simp only [move, suspending, hfork, hrun, hcp]
      refine ⟨_, _, _, .delay halt, rfl, rfl, ?_, ?_, by simp⟩
      · rw [← hcp]; rfl
      · rw [← hcp]; rfl
    | answer s =>
      obtain ⟨hc, hf, hcp'⟩ :=
        m.backtrack_spec (b'.note (.solution (solutions + 1))) true (solutions + 1) halt hcp
      simp only [move, suspending, hfork, hrun, hleave]
      exact ⟨_, _, _, .finish (.inr ⟨s, rfl⟩), congrArg (Prod.mk _) hc.symm, rfl, hf, hcp',
        by simp⟩
    | abort e =>
      simp only [move, suspending, hfork, hrun]
      exact ⟨_, _, _, .abort, rfl, rfl, rfl, hcp, by simp⟩

/-- One step: what it does to the branch, which branch is next, and what the choice points have
become, a sweep apart. -/
theorem step_cases (m : Machine) (hf : st.frame = some f) :
    ∃ o next cp',
      m.Moves f st.shared.choices o (m.suspending ⟨f, st.shared, []⟩) next cp' ∧
      m.advance f.detached st.counters = (o, (m.step st).search.counters) ∧
      (m.step st).result = o.result ∧
      (m.step st).search.frame = next ∧
      ((m.step st).search.shared.choices = cp' ∨
        (m.step st).search.shared.choices = cp'.sweep next ∧ ∀ e, o ≠ .fault e) := by
  obtain ⟨o, next, cp', hmoves, hadvance, hresult, hframe, hchoices, hreclaim⟩ :=
    m.move_cases ⟨f, st.shared, []⟩ st.solutions
  refine ⟨o, next, cp', hmoves, ?_⟩
  simp only [step, hf]
  rcases hmove : m.move ⟨f, st.shared, []⟩ st.solutions with ⟨taken, _ | _⟩ <;>
    simp only [hmove] at hadvance hresult hframe hchoices hreclaim ⊢
  · exact ⟨hadvance, hresult, hframe, .inl hchoices⟩
  · rcases taken.search.reclaim_cases with hsame | hswept
    · rw [hsame]
      exact ⟨hadvance, hresult, hframe, .inl hchoices⟩
    · rw [hswept]
      exact ⟨hadvance, hresult, hframe, .inr ⟨by rw [← hchoices, ← hframe], hreclaim trivial⟩⟩

end Machine

namespace ChoicePoints

variable {cp : ChoicePoints} {f : Frame}

/-- After a branch has ended, the choice points are in order for the next one, which is no longer
held. -/
theorem Sound.nextBranch (h : cp.Sound f.alt) (m : Machine) (rotates : Bool) :
    (m.nextBranch f rotates cp).2.Sound ((m.nextBranch f rotates cp).1.bind (·.alt)) ∧
      (((m.nextBranch f rotates cp).1.toList ++ (m.nextBranch f rotates cp).2.held).map
        Frame.detached).Perm (cp.held.map Frame.detached) := by
  unfold Machine.nextBranch
  rcases hfail : cp.fail f with ⟨_ | g, cp'⟩
  · obtain ⟨rfl, hnone⟩ := h.fail_none hfail
    have hsound := h.prune
    rw [hnone] at hsound
    exact ⟨hsound, .refl _⟩
  · obtain ⟨hsound, hperm⟩ := h.fail_some hfail
    cases rotates with
    | false => exact ⟨hsound, hperm.map _⟩
    | true =>
      obtain ⟨hsound', hperm'⟩ := hsound.delay m.strategy
      exact ⟨hsound', (hperm'.map Frame.detached).trans (hperm.map Frame.detached)⟩

end ChoicePoints

namespace Machine

variable {m : Machine} {st : Search} {f : Frame} {cp cp' : ChoicePoints} {o : Outcome}
  {journal : List Suspension} {next : Option Frame}

/-- Unless the program is at fault, the choice points stay in order for whatever branch is next. -/
theorem Moves.sound (hmoves : m.Moves f cp o journal next cp') (h : cp.Sound f.alt)
    (hfault : ∀ e, o ≠ .fault e) : cp'.Sound (next.bind (·.alt)) := by
  cases hmoves with
  | proceed halt =>
    rw [Option.bind_some, halt]
    exact h
  | save cont pc => exact (ChoicePoints.Sound.push (f := { f with cont }) h pc).1
  | @delay g halt => exact (ChoicePoints.Sound.delay (f := g) (by rwa [halt]) m.strategy).1
  | finish => exact (h.nextBranch m _).1
  | abort => exact absurd rfl (hfault _)

/-- No branch is lost and none is made up: the branch that ran makes way for what became of it. -/
theorem Moves.pool (hmoves : m.Moves f cp o journal next cp') (h : cp.Sound f.alt)
    (hfault : ∀ e, o ≠ .fault e) :
    ((next.toList ++ cp'.held).map Frame.detached).Perm
      (o.children ++ cp.held.map Frame.detached) := by
  cases hmoves with
  | @proceed g => exact .refl _
  | save cont pc =>
    exact ((ChoicePoints.Sound.push (f := { f with cont }) h pc).2.map Frame.detached).cons _
  | @delay g halt =>
    have hg : cp.Sound g.alt := by rwa [halt]
    exact (hg.delay m.strategy).2.map Frame.detached
  | finish ho =>
    obtain rfl | ⟨s, rfl⟩ := ho <;> exact (h.nextBranch m _).2
  | abort => exact absurd rfl (hfault _)

/-- What a step that is no fault leaves: choice points in order for the next branch, and in place of
the running branch what became of it. -/
theorem step_spec (m : Machine) (h : st.shared.choices.Sound f.alt) (hf : st.frame = some f)
    (hfault : ∀ e, (m.step st).result ≠ .error e) :
    (m.step st).search.shared.choices.Sound ((m.step st).search.frame.bind (·.alt)) ∧
      (m.step st).search.pool.Perm
        ((m.advance f.detached st.counters).1.children ++
          st.shared.choices.held.map Frame.detached) := by
  obtain ⟨o, next, cp', hmoves, hadvance, hresult, hframe, hchoices⟩ := m.step_cases hf
  have hnofault : ∀ e, o ≠ .fault e := by
    rintro e rfl
    exact hfault e hresult
  have hsound := hmoves.sound h hnofault
  have hpool := hmoves.pool h hnofault
  rw [hadvance, Search.pool, hframe]
  rcases hchoices with hchoices | ⟨hchoices, -⟩ <;> rw [hchoices]
  · exact ⟨hsound, hpool⟩
  · rw [hsound.sweep.2]
    exact ⟨hsound.sweep.1, hpool⟩

/-- A fault ends the search, and leaves the choice points as they are. -/
theorem step_of_fault (m : Machine) (hf : st.frame = some f) {e : ProgramError}
    (hfault : (m.step st).result = .error e) : (m.step st).search.frame = none ∧
      (m.step st).search.shared.choices = st.shared.choices := by
  obtain ⟨o, next, cp', hmoves, -, hresult, hframe, hchoices⟩ := m.step_cases hf
  rw [hfault] at hresult
  generalize m.suspending _ = journal at hmoves
  cases hmoves with
  | @abort e' =>
    refine ⟨hframe, ?_⟩
    rcases hchoices with hchoices | ⟨-, hnofault⟩
    · exact hchoices
    · exact absurd rfl (hnofault e')
  | finish ho =>
    obtain rfl | ⟨s, rfl⟩ := ho <;> cases hresult
  | proceed | save | delay => cases hresult

end Machine

end LogicMachine
