import LogicMachine.Proofs.Search.Branch
import LogicMachine.Search.Answers

/-!
# Exploring branches by recursion

The search as it would be written without choice points: a branch is followed to its end, and where
it splits, everything that the first part leads to comes before the second part. The counters are
handed on in that order, and a fault stops everything. What a run of the search shows is put into
the same terms.
-/

namespace LogicMachine

/-- What came of exploring: the solutions in order, the number of instructions run, why there are no
more, and the counters at the end. -/
structure Exploration where
  solutions : List Solution := []
  used : Nat := 0
  ending : Ending := .exhausted
  counters : Counters

instance (e : Ending) : Decidable (e = .exhausted) :=
  match e with
  | .exhausted => isTrue rfl
  | .enoughSolutions | .enoughSteps | .fault _ => isFalse nofun

/-- The solution that an outcome gives, if it is one. -/
def Outcome.solution? : Outcome → Option Solution
  | .answer s => some s
  | _ => none

/-- Unless it is a fault, an outcome gives its solution or nothing. -/
theorem Outcome.result_of_no_fault {o : Outcome} (h : ∀ e, o ≠ .fault e) :
    o.result = .ok o.solution? := by
  cases o with
  | fault e => exact absurd rfl (h e)
  | _ => rfl

namespace Exploration

/-- One more instruction, ahead of the others, that had the outcome `o`. -/
def after (o : Outcome) (e : Exploration) : Exploration :=
  { e with solutions := o.solution?.toList ++ e.solutions, used := e.used + 1 }

/-- The instruction ahead of the others is counted. -/
@[simp] theorem used_after (o : Outcome) (e : Exploration) : (e.after o).used = e.used + 1 := rfl

/-- When everything is explored, go on with what `next` makes of the counters. -/
def followedBy (e : Exploration) (next : Counters → Exploration) : Exploration :=
  match e.ending with
  | .exhausted =>
    let rest := next e.counters
    { rest with solutions := e.solutions ++ rest.solutions, used := e.used + rest.used }
  | _ => e

/-- To go on twice is to go on with something that goes on. What is left of a budget after the
first two parts is the same either way. -/
theorem followedBy_assoc (e : Exploration) (next : Counters → Exploration)
    (next' : Nat → Counters → Exploration) (budget : Nat) :
    (e.followedBy next).followedBy (next' (budget - (e.followedBy next).used)) =
      e.followedBy fun c => (next c).followedBy (next' (budget - e.used - (next c).used)) := by
  rcases e with ⟨solutions, used, _ | _ | _ | _, c⟩ <;> try rfl
  simp only [followedBy]
  rcases next c with ⟨solutions', used', _ | _ | _ | _, c'⟩ <;>
    simp [Nat.add_assoc, Nat.sub_sub]

/-- Both parts are explored to the end if the whole is. -/
theorem followedBy_exhausted {e : Exploration} {next : Counters → Exploration}
    (h : (e.followedBy next).ending = .exhausted) :
    e.ending = .exhausted ∧ (next e.counters).ending = .exhausted ∧
      e.followedBy next = { next e.counters with
        solutions := e.solutions ++ (next e.counters).solutions
        used := e.used + (next e.counters).used } := by
  rcases e with ⟨solutions, used, _ | _ | _ | _, c⟩ <;> first | cases h | skip
  exact ⟨rfl, h, rfl⟩

/-- An instruction ahead of the first part is ahead of the whole. -/
theorem after_followedBy (o : Outcome) (e : Exploration) (next : Counters → Exploration) :
    (e.after o).followedBy next = (e.followedBy next).after o := by
  rcases e with ⟨solutions, used, _ | _ | _ | _, c⟩ <;> try rfl
  simp only [followedBy, after, List.append_assoc, Nat.add_right_comm]

/-- The same solutions and the same end, with the same counters, in whatever number of
instructions. -/
structure SameAs (e e' : Exploration) : Prop where
  solutions : e.solutions = e'.solutions
  ending : e.ending = e'.ending
  counters : e.counters = e'.counters

namespace SameAs

variable {e e' e'' : Exploration}

/-- An exploration is the same as itself. -/
theorem refl (e : Exploration) : e.SameAs e := ⟨rfl, rfl, rfl⟩

/-- Either of two explorations may be named first. -/
theorem symm (h : e.SameAs e') : e'.SameAs e :=
  ⟨h.solutions.symm, h.ending.symm, h.counters.symm⟩

/-- Explorations that are the same as a third one are the same. -/
theorem trans (h : e.SameAs e') (h' : e'.SameAs e'') : e.SameAs e'' :=
  ⟨h.solutions.trans h'.solutions, h.ending.trans h'.ending, h.counters.trans h'.counters⟩

/-- One more instruction on each side, with the same news. -/
theorem after {o o' : Outcome} (h : e.SameAs e') (ho : o.solution? = o'.solution?) :
    (e.after o).SameAs (e'.after o') where
  solutions := by rw [Exploration.after, Exploration.after, ho, h.solutions]
  ending := h.ending
  counters := h.counters

/-- Something more on each side, if it comes to that. -/
theorem followedBy {next next' : Counters → Exploration} (h : e.SameAs e')
    (hnext : e.ending = .exhausted → (next e.counters).SameAs (next' e.counters)) :
    (e.followedBy next).SameAs (e'.followedBy next') := by
  obtain ⟨solutions, used, ending, counters⟩ := e
  obtain ⟨solutions', used', ending', counters'⟩ := e'
  obtain ⟨rfl, rfl, rfl⟩ := h
  cases ending with
  | exhausted =>
    obtain ⟨hsolutions, hending, hcounters⟩ := hnext rfl
    exact ⟨congrArg (solutions ++ ·) hsolutions, hending, hcounters⟩
  | enoughSolutions | enoughSteps | fault e => exact ⟨rfl, rfl, rfl⟩

end SameAs

end Exploration

/-- What a run of some steps has shown: its solutions in order and the number of steps. -/
structure Tally where
  solutions : List Solution := []
  steps : Nat := 0

namespace Tally

/-- Take in one more step. -/
def count (t : Tally) (taken : Step) : Tally where
  solutions := t.solutions ++ taken.result.toOption.join.toList
  steps := t.steps + 1

/-- What a trace shows, as far as an exploration would show it. -/
def exploration (run : Trace Tally) : Exploration where
  solutions := run.gathered.solutions
  used := run.gathered.steps
  ending := run.ending
  counters := run.last.counters

end Tally

/-- The search of a branch by itself. -/
def Search.ofFrame (f : Frame) (c : Counters) : Search where
  frame := some f.detached
  shared := { vars := c.vars, serials := c.serials }

namespace Machine

/-- What the search for a query shows in at most `n` steps. -/
def observe (m : Machine) (n : Nat) (q : Query) : Exploration :=
  Tally.exploration (m.trace Tally.count n (n + 1) (.start q) {})

section Trace

variable {m : Machine} {st : Search} {count limit : Nat}

/-- A run that is over shows what it has shown so far. -/
theorem exploration_of_none (m : Machine) (hf : st.frame = none) (count limit : Nat) (t : Tally) :
    Tally.exploration (m.trace Tally.count count limit st t) =
      { solutions := t.solutions, used := t.steps, counters := st.counters } := by
  cases count <;> simp [trace, Search.isDone, hf, Tally.exploration]

/-- A run that may take no more steps shows what it has shown so far, and says that steps were
short. -/
theorem exploration_zero (m : Machine) {f : Frame} (hf : st.frame = some f) (hlimit : limit ≠ 0)
    (t : Tally) : Tally.exploration (m.trace Tally.count 0 limit st t) =
      { solutions := t.solutions, used := t.steps, ending := .enoughSteps,
        counters := st.counters } := by
  simp [trace, Search.isDone, hf, hlimit, Tally.exploration]

/-- A step that is no fault is counted, and the run goes on. There are never more solutions than
steps. -/
theorem exploration_succ {f : Frame} (hf : st.frame = some f) (hlimit : count + 1 < limit)
    {answer? : Option Solution} (hok : (m.step st).result = .ok answer?) (t : Tally) :
    ∃ limit', count < limit' ∧
      Tally.exploration (m.trace Tally.count (count + 1) limit st t) =
        Tally.exploration (m.trace Tally.count count limit' (m.step st).search
          ⟨t.solutions ++ answer?.toList, t.steps + 1⟩) := by
  have hpos : limit ≠ 0 := by omega
  have hcount : t.count (m.step st) = ⟨t.solutions ++ answer?.toList, t.steps + 1⟩ := by
    rw [Tally.count, hok]
    rfl
  rw [← hcount]
  cases answer? with
  | none => exact ⟨limit, by omega, by simp [trace, Search.isDone, hf, hpos, hok]⟩
  | some s => exact ⟨limit - 1, by omega, by simp [trace, Search.isDone, hf, hpos, hok]⟩

/-- A fault ends the run. -/
theorem exploration_fault {f : Frame} {e : ProgramError} (hf : st.frame = some f)
    (hlimit : limit ≠ 0) (herror : (m.step st).result = .error e) (t : Tally) :
    Tally.exploration (m.trace Tally.count (count + 1) limit st t) =
      { solutions := t.solutions, used := t.steps + 1, ending := .fault e,
        counters := (m.step st).search.counters } := by
  simp [trace, Search.isDone, hf, hlimit, herror, Tally.exploration, Tally.count, Except.toOption]

/-- No run takes more steps than it may. -/
theorem used_exploration_le (m : Machine) (count limit : Nat) (st : Search) (t : Tally) :
    (Tally.exploration (m.trace Tally.count count limit st t)).used ≤ t.steps + count := by
  induction count generalizing limit st t with
  | zero =>
    rw [trace]
    split
    · exact Nat.le_refl _
    · split <;> exact Nat.le_refl _
  | succ count ih =>
    have hrest : t.steps + 1 + count ≤ t.steps + (count + 1) := by omega
    rw [trace]
    split
    · exact Nat.le_add_right _ _
    · split
      · exact Nat.le_add_right _ _
      · simp only
        cases (m.step st).result with
        | error e => exact Nat.add_le_add_left (Nat.le_add_left 1 count) _
        | ok answer? =>
          cases answer? with
          | none => exact Nat.le_trans (ih limit _ (t.count (m.step st))) hrest
          | some s => exact Nat.le_trans (ih (limit - 1) _ (t.count (m.step st))) hrest

/-- No more steps are counted than the run was allowed. -/
theorem used_observe_le (m : Machine) (n : Nat) (q : Query) : (m.observe n q).used ≤ n := by
  have hle := m.used_exploration_le n (n + 1) (.start q) {}
  rwa [Nat.zero_add] at hle

end Trace

/-- Explore a branch for at most `budget` instructions. -/
def explore (m : Machine) (budget : Nat) (f : Frame) (c : Counters) : Exploration :=
  match budget with
  | 0 => { ending := .enoughSteps, counters := c }
  | budget + 1 =>
    match m.advance f c with
    | (.go f, c) => (m.explore budget f c).after (.go f)
    | (.split f alternative, c) =>
      let first := m.explore budget f c
      (first.followedBy (m.explore (budget - first.used) alternative)).after (.split f alternative)
    | (.fault e, c) => { used := 1, ending := .fault e, counters := c }
    | (o, c) => Exploration.after o { counters := c }
termination_by budget

/-- Explore branches one after another, for at most `budget` instructions altogether. -/
def exploreAll (m : Machine) (budget : Nat) : List Frame → Counters → Exploration
  | [], c => { counters := c }
  | f :: rest, c =>
    let first := m.explore budget f c
    first.followedBy (m.exploreAll (budget - first.used) rest)

variable {m : Machine} {c : Counters} {f : Frame}

/-- Without branches everything has been explored. -/
@[simp] theorem exploreAll_nil (m : Machine) (budget : Nat) (c : Counters) :
    m.exploreAll budget [] c = { counters := c } := rfl

/-- A single branch is explored by itself. -/
theorem exploreAll_singleton (m : Machine) (budget : Nat) (f : Frame) (c : Counters) :
    m.exploreAll budget [f] c = m.explore budget f c := by
  simp only [exploreAll, Exploration.followedBy]
  rcases m.explore budget f c with ⟨solutions, used, _ | _ | _ | _, c'⟩ <;> simp

/-- Without instructions left, the exploration ends at the first branch. -/
theorem exploreAll_zero (m : Machine) (f : Frame) (rest : List Frame) (c : Counters) :
    m.exploreAll 0 (f :: rest) c = { ending := .enoughSteps, counters := c } := by
  simp [exploreAll, explore, Exploration.followedBy]

/-- A fault is the end, whatever else was to be explored. -/
theorem exploreAll_fault {e : ProgramError} {c' : Counters} (budget : Nat) (rest : List Frame)
    (h : m.advance f c = (.fault e, c')) :
    m.exploreAll (budget + 1) (f :: rest) c =
      { used := 1, ending := .fault e, counters := c' } := by
  simp [exploreAll, explore, h, Exploration.followedBy]

/-- Otherwise the branch in front makes way for what becomes of it by one instruction. -/
theorem exploreAll_succ {o : Outcome} {c' : Counters} (budget : Nat) (rest : List Frame)
    (h : m.advance f c = (o, c')) (hfault : ∀ e, o ≠ .fault e) :
    m.exploreAll (budget + 1) (f :: rest) c =
      (m.exploreAll budget (o.children ++ rest) c').after o := by
  cases o with
  | go g =>
    simp only [exploreAll, explore, h, Exploration.after_followedBy, Exploration.used_after,
      Nat.add_sub_add_right, Outcome.children, List.cons_append, List.nil_append]
  | split g alternative =>
    simp only [exploreAll, explore, h, Exploration.after_followedBy, Exploration.used_after,
      Nat.add_sub_add_right, Outcome.children, List.cons_append, List.nil_append]
    rw [Exploration.followedBy_assoc _ _ fun b => m.exploreAll b rest]
  | dead | answer s =>
    simp only [exploreAll, explore, h, Exploration.after_followedBy, Exploration.used_after,
      Nat.add_sub_add_right, Nat.sub_zero, Outcome.children, List.nil_append]
    simp [Exploration.followedBy]
  | fault e => exact absurd rfl (hfault e)

/-- Unless it was short of instructions, an exploration is the same with more of them. -/
theorem exploreAll_of_le {n n' : Nat} {fs : List Frame}
    (h : (m.exploreAll n fs c).ending ≠ .enoughSteps) (hle : n ≤ n') :
    m.exploreAll n' fs c = m.exploreAll n fs c := by
  induction n generalizing n' fs c with
  | zero =>
    cases fs with
    | nil => rfl
    | cons f rest => exact absurd (by rw [exploreAll_zero]) h
  | succ n ih =>
    obtain ⟨k, rfl⟩ : ∃ k, n' = k + 1 := ⟨n' - 1, by omega⟩
    cases fs with
    | nil => rfl
    | cons f rest =>
      rcases hadvance : m.advance f c with ⟨o, c'⟩
      by_cases hfault : ∃ e, o = .fault e
      · obtain ⟨e, rfl⟩ := hfault
        rw [m.exploreAll_fault n rest hadvance, m.exploreAll_fault k rest hadvance]
      · have hnofault : ∀ e, o ≠ .fault e := fun e he => hfault ⟨e, he⟩
        rw [m.exploreAll_succ n rest hadvance hnofault] at h ⊢
        rw [m.exploreAll_succ k rest hadvance hnofault, ih h (Nat.le_of_succ_le_succ hle)]

/-- The instructions that an exploration to the end has used are enough for it. -/
theorem exploreAll_used {n : Nat} {fs : List Frame}
    (h : (m.exploreAll n fs c).ending = .exhausted) :
    m.exploreAll (m.exploreAll n fs c).used fs c = m.exploreAll n fs c := by
  induction n generalizing fs c with
  | zero =>
    cases fs with
    | nil => rfl
    | cons f rest =>
      rw [exploreAll_zero] at h
      cases h
  | succ n ih =>
    cases fs with
    | nil => rfl
    | cons f rest =>
      rcases hadvance : m.advance f c with ⟨o, c'⟩
      by_cases hfault : ∃ e, o = .fault e
      · obtain ⟨e, rfl⟩ := hfault
        rw [m.exploreAll_fault n rest hadvance] at h
        cases h
      · have hnofault : ∀ e, o ≠ .fault e := fun e he => hfault ⟨e, he⟩
        rw [m.exploreAll_succ n rest hadvance hnofault] at h ⊢
        rw [Exploration.used_after, m.exploreAll_succ _ rest hadvance hnofault, ih h]

/-- One list of branches after another. -/
theorem exploreAll_append (m : Machine) (n : Nat) (fs gs : List Frame) (c : Counters) :
    m.exploreAll n (fs ++ gs) c =
      (m.exploreAll n fs c).followedBy (m.exploreAll (n - (m.exploreAll n fs c).used) gs) := by
  induction fs generalizing n c with
  | nil => simp [Exploration.followedBy]
  | cons f fs ih =>
    simp only [List.cons_append, exploreAll]
    rw [Exploration.followedBy_assoc _ _ fun b => m.exploreAll b gs]
    exact congrArg _ (funext (ih _))

end Machine

end LogicMachine
