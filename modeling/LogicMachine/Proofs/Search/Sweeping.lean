import LogicMachine.Proofs.ChoicePoints.Mirrors
import LogicMachine.Proofs.Search.Suspended

/-!
# Sweeping is invisible

A search that sweeps its choice points is compared with one that never does. At every step a renaming
of slots pairs the alternatives of the two, so that the running frames are the same up to it, the
steps give the same results, and the same events are reported.
-/

namespace LogicMachine

variable {r : Nat → Nat → Prop}

namespace Report

/-- The events of reports one after another come one after another. -/
theorem events_append (reports more : List Report) :
    events (reports ++ more) = events reports ++ events more :=
  List.filterMap_append

/-- The same events are reported, each with the same branch. -/
def SameEvents (r : Nat → Nat → Prop) (reports reports' : List Report) : Prop :=
  List.Forall₂ (fun p p' => p.1 = p'.1 ∧ p.2.SameUpTo r p'.2) (events reports) (events reports')

namespace SameEvents

variable {reports reports' : List Report} {f f' : Frame}

/-- Where nothing is reported the events are the same. -/
theorem nil : SameEvents r [] [] := List.Forall₂.nil

/-- More reports with the same events may follow. -/
theorem append {more more' : List Report} (h : SameEvents r reports reports')
    (hmore : SameEvents r more more') : SameEvents r (reports ++ more) (reports' ++ more') := by
  rw [SameEvents, events_append, events_append]
  exact List.rel_append h hmore

/-- The same event may follow, of the same branch in slots that belong together. -/
theorem event (h : SameEvents r reports reports') (e : Event) (hf : f.SameUpTo r f') :
    SameEvents r (reports ++ [.event e f]) (reports' ++ [.event e f']) :=
  h.append (.cons ⟨rfl, hf⟩ .nil)

/-- Notes for the log are no events. -/
theorem note (h : SameEvents r reports reports') (n n' : Note) :
    SameEvents r (reports ++ [.note n]) (reports' ++ [.note n']) :=
  h.append .nil

/-- What is told of one branch in two places is the same. -/
theorem placed {alt alt' : Option Nat} (halt : Option.Rel r alt alt') (news : List Report) :
    SameEvents r (news.map (.placed alt)) (news.map (.placed alt')) := by
  induction news with
  | nil => exact nil
  | cons report news ih =>
    cases report with
    | event e f => exact .cons ⟨rfl, rfl, halt⟩ ih
    | note n => exact ih

end SameEvents

end Report

/-- The same branch on choice points that belong together, and with the same events so far. -/
structure Branch.Mirrors (r : Nat → Nat → Prop) (b b' : Branch) : Prop where
  frame : b.frame.SameUpTo r b'.frame
  choices : ChoicePoints.Mirrors r b.shared.choices b'.shared.choices
  counters : b.shared.counters = b'.shared.counters
  reports : Report.SameEvents r b.reports b'.reports

/-- Two searches are at the same point, in slots that belong together. -/
structure Search.Mirrors (r : Nat → Nat → Prop) (st st' : Search) : Prop where
  frame : Option.Rel (Frame.SameUpTo r) st.frame st'.frame
  choices : ChoicePoints.Mirrors r st.shared.choices st'.shared.choices
  counters : st.counters = st'.counters
  solutions : st.solutions = st'.solutions

/-- Two steps give the same result and the same events, and leave searches that are at the same point
again. -/
structure Step.Mirrors (r : Nat → Nat → Prop) (s s' : Step) : Prop where
  result : s.result = s'.result
  search : ∃ r', s.search.Mirrors r' s'.search
  reports : Report.SameEvents r s.reports s'.reports

namespace Branch

variable {m : Machine} {b b' : Branch}

/-- The same event may be reported on both sides. -/
theorem Mirrors.event (h : b.Mirrors r b') (e : Event) : (b.event e).Mirrors r (b'.event e) :=
  ⟨h.frame, h.choices, h.counters, h.reports.event e h.frame⟩

/-- On both sides a note may be made, not even the same one: notes are no events. -/
theorem Mirrors.note (h : b.Mirrors r b') (n n' : Note) : (b.note n).Mirrors r (b'.note n') :=
  ⟨h.frame, h.choices, h.counters, h.reports.note n n'⟩

/-- Both may fetch an instruction. -/
theorem Mirrors.fetched (h : b.Mirrors r b') (instr : Instr) :
    (b.fetched instr).Mirrors r (b'.fetched instr) := by
  refine ⟨?_, h.choices, h.counters, h.reports.note _ _⟩
  exact h.frame.continued (congrArg (fun k : Continuation => k.resumeAt (k.running.pc + 1))
    h.frame.cont_eq)

/-- The branch by itself, before anything is reported. -/
def alone (b : Branch) : Branch :=
  ⟨b.frame.detached, ⟨.empty, b.shared.vars, b.shared.serials⟩, []⟩

/-- Without their places and reports, the two are one and the same branch. -/
theorem Mirrors.alone_eq (h : b.Mirrors r b') : b.alone = b'.alone := by
  have hvars := congrArg Counters.vars h.counters
  have hserials := congrArg Counters.serials h.counters
  simp only [Shared.counters] at hvars hserials
  simp only [alone, h.frame.detached, hvars, hserials]

/-- An instruction that is no choice asks for the same on both sides and leaves both standing where
they were. -/
theorem Mirrors.run (h : b.Mirrors r b')
    (hnone : ∀ offset, b.frame.cont.running.current? ≠ some (.choice offset)) :
    ∃ request c c', b.run m = (request, c) ∧ b'.run m = (request, c') ∧ c.Mirrors r c' ∧
      c.frame.alt = b.frame.alt ∧ c.shared.choices = b.shared.choices := by
  obtain ⟨news, hrun⟩ := local_run m b.alone hnone
  have hb := hrun b.frame.alt b.shared.choices b.reports
  have hb' := hrun b'.frame.alt b'.shared.choices b'.reports
  have hgraft : b.alone.graft b'.frame.alt b'.shared.choices b'.reports = b' := by
    rw [h.alone_eq]
    rfl
  rw [hgraft] at hb'
  exact ⟨_, _, _, hb, hb',
    ⟨⟨rfl, h.frame.alt⟩, h.choices, rfl, h.reports.append (.placed h.frame.alt news)⟩, rfl, rfl⟩

/-- When the next instruction is a choice, a branch fetches it and then makes it. -/
theorem run_choice (m : Machine) {offset : Int}
    (hcur : b.frame.cont.running.current? = some (.choice offset)) :
    b.run m = (b.fetched (.choice offset)).choice offset := by
  simp only [Branch.run, hcur, execute]
  rfl

/-- A choice leaves the same alternative on both sides, or is at fault on both. -/
theorem Mirrors.choice (h : b.Mirrors r b') (hsound : b.shared.choices.Sound b.frame.alt)
    (offset : Int) :
    (∃ e, b.choice offset = (.abort e, b) ∧ b'.choice offset = (.abort e, b')) ∨
      ∃ r' c c', b.choice offset = (.proceed, c) ∧ b'.choice offset = (.proceed, c') ∧
        c.frame.SameUpTo r' c'.frame ∧
        ChoicePoints.Mirrors r' c.shared.choices c'.shared.choices ∧
        c.shared.counters = c'.shared.counters ∧ Report.SameEvents r c.reports c'.reports := by
  unfold Branch.choice
  rw [← h.frame.cont_eq]
  cases b.frame.cont.target offset with
  | error e => exact .inl ⟨e, rfl, rfl⟩
  | ok pc =>
    refine .inr ⟨_, _, _, rfl, rfl, ?_, h.choices.push hsound h.frame pc, h.counters,
      h.reports.note _ _⟩
    exact h.frame.moved (.some (.inr ⟨rfl, rfl⟩))

end Branch

namespace Search

variable {st st' : Search}

/-- Searches at the same point have equally many alternatives pending. -/
theorem Mirrors.pending (h : st.Mirrors r st')
    (hused : ∀ f, st.frame = some f → st.shared.choices.Used f.alt) :
    st.pending = st'.pending := by
  unfold Search.pending
  rcases optionRel_cases h.frame with ⟨f, f', hf, hf', hff⟩ | ⟨hf, hf'⟩ <;> rw [hf, hf']
  · exact h.choices.pending (hused f hf) hff
  · rfl

/-- They are done at the same time. -/
theorem Mirrors.isDone (h : st.Mirrors r st') : st.isDone = st'.isDone := by
  unfold Search.isDone
  rcases optionRel_cases h.frame with ⟨f, f', hf, hf', -⟩ | ⟨hf, hf'⟩ <;>
    simp only [hf, hf', Option.isNone_some, Option.isNone_none]

/-- Whatever is swept, the searches are still at the same point. -/
theorem Mirrors.reclaim (h : st.Mirrors r st') : ∃ r', st.reclaim.1.Mirrors r' st' := by
  rcases st.reclaim_cases with hsame | hswept
  · rw [hsame]
    exact ⟨r, h⟩
  · rw [hswept]
    refine ⟨_, optionRel_imp h.frame fun hf hff => ⟨hff.detached, ?_⟩, h.choices.sweep st.frame,
      h.counters, h.solutions⟩
    refine optionRel_imp hff.alt fun hi hii => ⟨hii, ?_⟩
    exact (st.shared.choices.reachable_closed st.frame).1 _ (by rw [hf]; exact hi)

/-- Reclaiming is no event. -/
theorem events_reclaim (st : Search) : Report.events st.reclaim.2 = [] := by
  simp only [Search.reclaim]
  split <;> rfl

/-- If the same branch goes on, the same is reported of it. -/
theorem sameEvents_resumption {shared shared' : Shared} {next next' : Option Frame}
    (h : Option.Rel (Frame.SameUpTo r) next next') :
    Report.SameEvents r (resumption shared next) (resumption shared' next') := by
  cases h with
  | some hf => exact (Report.SameEvents.nil.note _ _).event .redo hf
  | none => exact Report.SameEvents.nil.note _ _

end Search

namespace Machine

/-- One step of a search that never sweeps its choice points. -/
def stepUnswept (m : Machine) (st : Search) : Step :=
  match st.frame with
  | none => ⟨.ok none, st, []⟩
  | some frame => (m.move ⟨frame, st.shared, []⟩ st.solutions).1

/-- The search after some steps, if its choice points are never swept. -/
def afterUnswept (m : Machine) : (count : Nat) → Search → Search
  | 0, st => st
  | count + 1, st => (m.stepUnswept (m.afterUnswept count st)).search

variable {m : Machine} {b b' : Branch} {st st' : Search} {f f' : Frame} {cp cp' : ChoicePoints}

/-- The same branch is next. -/
theorem mirrors_nextBranch (m : Machine) (h : ChoicePoints.Mirrors r cp cp')
    (hsound : cp.Sound f.alt) (hf : f.SameUpTo r f') (rotates : Bool) :
    Option.Rel (Frame.SameUpTo r) (m.nextBranch f rotates cp).1 (m.nextBranch f' rotates cp').1 ∧
      ChoicePoints.Mirrors r (m.nextBranch f rotates cp).2 (m.nextBranch f' rotates cp').2 := by
  obtain ⟨hnext, hleft⟩ := h.fail hsound.used hf
  unfold nextBranch
  rcases hfail : cp.fail f with ⟨next, left⟩
  rcases hfail' : cp'.fail f' with ⟨next', left'⟩
  rw [hfail, hfail'] at hnext hleft
  cases hnext with
  | none => exact ⟨.none, hleft⟩
  | some hgg =>
    cases rotates with
    | false => exact ⟨.some hgg, hleft⟩
    | true =>
      have hused := (hsound.fail_some hfail).1.used
      obtain ⟨hdelayed, hrotated⟩ := hleft.delay hused hgg m.strategy
      exact ⟨.some hdelayed, hrotated⟩

/-- The same happens when a branch has ended. -/
theorem mirrors_backtrack (m : Machine) (h : b.Mirrors r b')
    (hsound : b.shared.choices.Sound b.frame.alt) (rotates : Bool) (solutions : Nat) :
    (m.backtrack b rotates solutions).1.Mirrors r (m.backtrack b' rotates solutions).1 ∧
      Report.SameEvents r (m.backtrack b rotates solutions).2
        (m.backtrack b' rotates solutions).2 := by
  obtain ⟨hnext, hleft⟩ := m.mirrors_nextBranch h.choices hsound h.frame rotates
  exact ⟨⟨hnext, hleft, h.counters, rfl⟩, h.reports.append (Search.sameEvents_resumption hnext)⟩

/-- What an instruction asks for is done to the same effect. -/
theorem mirrors_request {request : Request} {c c' : Branch} (hb : b.run m = (request, c))
    (hb' : b'.run m = (request, c')) (h : c.Mirrors r c')
    (hsound : c.shared.choices.Sound c.frame.alt) (solutions : Nat) :
    (m.move b solutions).1.Mirrors r (m.move b' solutions).1 := by
  cases request with
  | proceed =>
    simp only [move, hb, hb']
    exact ⟨rfl, ⟨r, .some h.frame, h.choices, h.counters, rfl⟩, h.reports⟩
  | fail =>
    obtain ⟨hsearch, hreports⟩ := m.mirrors_backtrack (h.event .fail) hsound false solutions
    simp only [move, hb, hb']
    exact ⟨rfl, ⟨r, hsearch⟩, hreports⟩
  | failAndDelay =>
    obtain ⟨hsearch, hreports⟩ := m.mirrors_backtrack (h.event .fail) hsound true solutions
    simp only [move, hb, hb']
    exact ⟨rfl, ⟨r, hsearch⟩, hreports⟩
  | delay =>
    obtain ⟨hframe, hchoices⟩ := h.choices.delay hsound.used h.frame m.strategy
    simp only [move, hb, hb']
    exact ⟨rfl, ⟨r, .some hframe, hchoices, h.counters, rfl⟩, h.reports⟩
  | answer s =>
    obtain ⟨hsearch, hreports⟩ := m.mirrors_backtrack
      (h.note (.solution (solutions + 1)) (.solution (solutions + 1))) hsound true (solutions + 1)
    simp only [move, hb, hb']
    exact ⟨rfl, ⟨r, hsearch⟩, hreports⟩
  | abort e =>
    simp only [move, hb, hb']
    exact ⟨rfl, ⟨r, .none, h.choices, h.counters, rfl⟩, ((h.note _ _).event .exception).reports⟩

/-- One step of a branch, before anything is swept. -/
theorem mirrors_move (m : Machine) (h : b.Mirrors r b')
    (hsound : b.shared.choices.Sound b.frame.alt) (solutions : Nat) :
    (m.move b solutions).1.Mirrors r (m.move b' solutions).1 := by
  by_cases hchoice : ∃ offset, b.frame.cont.running.current? = some (.choice offset)
  · obtain ⟨offset, hcur⟩ := hchoice
    have hb := Branch.run_choice m hcur
    have hb' := Branch.run_choice m (b := b') (by rw [← h.frame.cont_eq, hcur])
    rcases (h.fetched (.choice offset)).choice hsound offset with
      ⟨e, he, he'⟩ | ⟨r', c, c', hc, hc', hframe, hchoices, hcounters, hreports⟩
    · exact mirrors_request (hb.trans he) (hb'.trans he') (h.fetched _) hsound solutions
    · simp only [move, hb.trans hc, hb'.trans hc']
      exact ⟨rfl, ⟨r', .some hframe, hchoices, hcounters, rfl⟩, hreports⟩
  · obtain ⟨request, c, c', hb, hb', hc, halt, hcp⟩ :=
      h.run (m := m) fun offset hcur => hchoice ⟨offset, hcur⟩
    exact mirrors_request hb hb' hc (by rwa [hcp, halt]) solutions

/-- A step that sweeps does no more to be seen than one that does not. -/
theorem mirrors_step (m : Machine) (h : st.Mirrors r st')
    (hsound : ∀ f, st.frame = some f → st.shared.choices.Sound f.alt) :
    (m.step st).Mirrors r (m.stepUnswept st') := by
  rcases optionRel_cases h.frame with ⟨f, f', hf, hf', hff⟩ | ⟨hf, hf'⟩
  · have hbranch : Branch.Mirrors r ⟨f, st.shared, []⟩ ⟨f', st'.shared, []⟩ :=
      ⟨hff, h.choices, h.counters, .nil⟩
    have hmove := m.mirrors_move hbranch (hsound f hf) st.solutions
    simp only [step, stepUnswept, hf, hf', ← h.solutions]
    rcases hswept : m.move ⟨f, st.shared, []⟩ st.solutions with ⟨taken, _ | _⟩ <;>
      rw [hswept] at hmove
    · exact hmove
    · obtain ⟨r', hsearch⟩ := hmove.search
      refine ⟨hmove.result, hsearch.reclaim, ?_⟩
      rw [Report.SameEvents, Report.events_append, taken.search.events_reclaim, List.append_nil]
      exact hmove.reports
  · rw [step_of_isDone (by simp [Search.isDone, hf])]
    simp only [stepUnswept, hf']
    exact ⟨rfl, ⟨r, h⟩, .nil⟩

/-- After any number of steps the two searches are at the same point. -/
theorem mirrors_after (m : Machine) (q : Query) (n : Nat) :
    ∃ r, (m.after n (.start q)).Mirrors r (m.afterUnswept n (.start q)) := by
  induction n with
  | zero => exact ⟨_, .some ⟨rfl, .none⟩, .empty, rfl, rfl⟩
  | succ n ih =>
    obtain ⟨r, h⟩ := ih
    exact (m.mirrors_step h fun f hf => m.sound_after_of_frame hf).search

/-- Nothing tells a search that sweeps its choice points from one that never does, but their number
and the slots they are in. For every program, query and strategy, after any number of steps the two
are at the same point: there is a renaming of slots under which the running branch and all saved
alternatives are the same, as many alternatives are pending, and the next steps have the same result
and report the same events. -/
theorem sweeping_invisible (m : Machine) (q : Query) (n : Nat) :
    (m.after n (.start q)).pending = (m.afterUnswept n (.start q)).pending ∧
      (m.after n (.start q)).isDone = (m.afterUnswept n (.start q)).isDone ∧
      (m.step (m.after n (.start q))).result =
        (m.stepUnswept (m.afterUnswept n (.start q))).result ∧
      ∃ r, (m.after n (.start q)).Mirrors r (m.afterUnswept n (.start q)) ∧
        Report.SameEvents r (m.step (m.after n (.start q))).reports
          (m.stepUnswept (m.afterUnswept n (.start q))).reports := by
  obtain ⟨r, h⟩ := m.mirrors_after q n
  have hsound := fun f hf => m.sound_after_of_frame (q := q) (n := n) (f := f) hf
  have hstep := m.mirrors_step h hsound
  exact ⟨h.pending fun f hf => (hsound f hf).used, h.isDone, hstep.result, r, h, hstep.reports⟩

end Machine

end LogicMachine
