import LogicMachine.Proofs.Search.Fate
import LogicMachine.Proofs.Search.Step

/-!
# What a run does to its branches

A step takes one branch of the pool forward by one instruction, and the strategy says which. So what
every instruction keeps true is true of all solutions of a run, whatever the strategy, and no branch
is lost on the way to its solutions.
-/

namespace LogicMachine

namespace Search

variable {st : Search} {f : Frame}

/-- The running branch is first among those still to run, and the held ones follow. -/
theorem pool_of_some (hf : st.frame = some f) :
    st.pool = f.detached :: st.shared.choices.held.map Frame.detached := by
  rw [pool, hf]
  rfl

/-- When no branch is running, none is left. -/
theorem pool_of_none (h : st.shared.choices.Sound (st.frame.bind (·.alt)))
    (hf : st.frame = none) : st.pool = [] := by
  rw [hf] at h
  rw [pool, hf, h.held_eq_nil ChoicePoints.Chain.nil.innermost?_eq]
  rfl

end Search

namespace Machine

variable {m : Machine} {st : Search} {f : Frame} {count limit : Nat}

/-- The instruction of the running branch decides what comes of a step and which numbers are
drawn. -/
theorem step_result (m : Machine) (hf : st.frame = some f) :
    (m.step st).result = (m.advance f.detached st.counters).1.result ∧
      (m.step st).search.counters = st.counters.drawn f.detached.demand := by
  obtain ⟨o, next, cp', -, hadvance, hresult, -, -⟩ := m.step_cases hf
  rw [← counters_advance, hadvance]
  exact ⟨hresult, rfl⟩

/-- A step ends in a fault, or else the instruction of the running branch does not. -/
theorem step_fault_cases (m : Machine) (hf : st.frame = some f) :
    (∃ e, (m.step st).result = .error e) ∨
      ∀ e, (m.advance f.detached st.counters).1 ≠ .fault e := by
  by_cases hfault : ∃ e, (m.advance f.detached st.counters).1 = .fault e
  · obtain ⟨e, he⟩ := hfault
    refine .inl ⟨e, ?_⟩
    rw [(m.step_result hf).1, he]
    rfl
  · exact .inr fun e he => hfault ⟨e, he⟩

/-- A step that is no fault leaves, in place of the branch that ran, what became of it. -/
theorem step_pool (m : Machine) (h : st.shared.choices.Sound f.alt) (hf : st.frame = some f)
    (hfault : ∀ e, (m.advance f.detached st.counters).1 ≠ .fault e) :
    (m.step st).result = .ok (m.advance f.detached st.counters).1.solution? ∧
      (m.step st).search.shared.choices.Sound ((m.step st).search.frame.bind (·.alt)) ∧
      (m.step st).search.pool.Perm ((m.advance f.detached st.counters).1.children ++
        st.shared.choices.held.map Frame.detached) := by
  have hresult := (m.step_result hf).1
  rw [Outcome.result_of_no_fault hfault] at hresult
  refine ⟨hresult, m.step_spec h hf fun e he => ?_⟩
  rw [hresult] at he
  cases he

/-- After a step a branch comes from the one that was running, or it was saved before. -/
theorem mem_pool_step (m : Machine) (hsound : ∀ f, st.frame = some f → st.shared.choices.Sound f.alt)
    {g : Frame} (hg : g ∈ (m.step st).search.pool) :
    (∃ f, st.frame = some f ∧ g ∈ (m.advance f.detached st.counters).1.children) ∨
      ∃ f ∈ st.shared.choices.held, f.detached = g := by
  cases hf : st.frame with
  | none =>
    rw [step_of_isDone (by simp [Search.isDone, hf]), Search.pool, hf] at hg
    exact .inr (List.mem_map.mp hg)
  | some f =>
    rcases m.step_fault_cases hf with ⟨e, he⟩ | hnofault
    · obtain ⟨hframe, hchoices⟩ := m.step_of_fault hf he
      rw [Search.pool, hframe, hchoices] at hg
      exact .inr (List.mem_map.mp hg)
    · obtain ⟨-, -, hperm⟩ := m.step_pool (hsound f hf) hf hnofault
      rcases List.mem_append.mp (hperm.mem_iff.mp hg) with hg | hg
      · exact .inl ⟨f, rfl, hg⟩
      · exact .inr (List.mem_map.mp hg)

/-- Counters that are not at their end after a run were not before it, nor after its first step. -/
theorem unspent_along (hlimit : count < limit) (t : Tally)
    (hunspent : (Tally.exploration (m.trace Tally.count count limit st t)).counters.Unspent) :
    st.counters.Unspent ∧
      ∀ f, st.frame = some f → count ≠ 0 → (m.step st).search.counters.Unspent := by
  induction count generalizing st limit t with
  | zero =>
    refine ⟨?_, fun _ _ hzero => absurd rfl hzero⟩
    cases hf : st.frame with
    | none => rwa [exploration_of_none m hf] at hunspent
    | some f => rwa [exploration_zero m hf (by omega)] at hunspent
  | succ count ih =>
    cases hf : st.frame with
    | none =>
      rw [exploration_of_none m hf] at hunspent
      exact ⟨hunspent, fun _ hnone => by cases hnone⟩
    | some f =>
      obtain ⟨-, hcounters⟩ := m.step_result hf
      have hstep : (m.step st).search.counters.Unspent := by
        cases hresult : (m.step st).result with
        | error e => rwa [exploration_fault hf (by omega) hresult] at hunspent
        | ok answer? =>
          obtain ⟨limit', hlimit', hrest⟩ := exploration_succ hf hlimit hresult t
          rw [hrest] at hunspent
          exact (ih hlimit' _ hunspent).1
      refine ⟨?_, fun _ _ _ => hstep⟩
      rw [hcounters] at hstep
      exact hstep.hasRoom.ahead.unspent hstep

/-- Counters that are not at their end after a run were not at its start. -/
theorem unspent_of_exploration (hlimit : count < limit) (t : Tally)
    (hunspent : (Tally.exploration (m.trace Tally.count count limit st t)).counters.Unspent) :
    st.counters.Unspent :=
  (unspent_along hlimit t hunspent).1

/-- The variables of a query were drawn before the run. -/
theorem le_largest_of_observe {n : Nat} {code : List Instr}
    (hunspent : (m.observe count (.ofCode n code)).counters.Unspent) :
    1 + n ≤ Counter.largest := by
  have hstart : (Search.start (.ofCode n code)).counters.Unspent :=
    unspent_of_exploration (Nat.lt_succ_self count) {} hunspent
  exact (Counter.drawMany_lt hstart.vars).le

/-- What is true of all branches of the pool and is kept by every instruction tells something of
every solution. -/
theorem forall_solutions {P : Frame → Prop} {Q : Solution → Prop}
    (hadvance : ∀ f c, P f → (∀ e, (m.advance f c).1 ≠ .fault e) →
      (∀ g ∈ (m.advance f c).1.children, P g) ∧
        ∀ s, (m.advance f c).1.solution? = some s → Q s)
    (h : st.shared.choices.Sound (st.frame.bind (·.alt))) (hlimit : count < limit) {t : Tally}
    (hpool : ∀ g ∈ st.pool, P g) (hsolutions : ∀ s ∈ t.solutions, Q s) :
    ∀ s ∈ (Tally.exploration (m.trace Tally.count count limit st t)).solutions, Q s := by
  induction count generalizing st limit t with
  | zero =>
    cases hf : st.frame with
    | none => rwa [exploration_of_none m hf]
    | some f => rwa [exploration_zero m hf (by omega)]
  | succ count ih =>
    cases hf : st.frame with
    | none => rwa [exploration_of_none m hf]
    | some f =>
      rcases m.step_fault_cases hf with ⟨e, hresult⟩ | hnofault
      · rwa [exploration_fault hf (by omega) hresult]
      · rw [hf] at h
        obtain ⟨hresult, hsound, hperm⟩ := m.step_pool h hf hnofault
        rw [Search.pool_of_some hf, List.forall_mem_cons] at hpool
        obtain ⟨hchildren, hsolution⟩ := hadvance f.detached st.counters hpool.1 hnofault
        obtain ⟨limit', hlimit', hrest⟩ := exploration_succ hf hlimit hresult t
        rw [hrest]
        refine ih hsound hlimit' ?_ ?_
        · intro g hg
          rcases List.mem_append.mp (hperm.mem_iff.mp hg) with hg | hg
          · exact hchildren g hg
          · exact hpool.2 g hg
        · refine List.forall_mem_append.mpr ⟨hsolutions, fun s hs => ?_⟩
          exact hsolution s (Option.mem_toList.mp hs)

/-- When no branch is running, what could come to a solution has come to it. -/
theorem exists_solution_of_none {P : Frame → Prop} {Q : Solution → Prop} (hf : st.frame = none)
    (h : st.shared.choices.Sound (st.frame.bind (·.alt))) {t : Tally}
    (hpool : (∃ s ∈ t.solutions, Q s) ∨ ∃ g ∈ st.pool, P g) :
    ∃ s ∈ (Tally.exploration (m.trace Tally.count count limit st t)).solutions, Q s := by
  rw [exploration_of_none m hf]
  rw [Search.pool_of_none h hf] at hpool
  exact hpool.resolve_right (by simp)

/-- A branch that every instruction hands on, to a branch again or to a solution, comes to a
solution when the search comes to its end. The counters may not have come to theirs. -/
theorem exists_solution {P : Counters → Frame → Prop} {Q : Solution → Prop}
    (hdraw : ∀ c d g, P c g → c.HasRoom d → P (c.drawn d) g)
    (hadvance : ∀ f c, P c f → c.HasRoom f.demand → (∀ e, (m.advance f c).1 ≠ .fault e) →
      (∃ g ∈ (m.advance f c).1.children, P (c.drawn f.demand) g) ∨
        ∃ s, (m.advance f c).1.solution? = some s ∧ Q s)
    (h : st.shared.choices.Sound (st.frame.bind (·.alt))) (hlimit : count < limit) {t : Tally}
    (hpool : (∃ s ∈ t.solutions, Q s) ∨ ∃ g ∈ st.pool, P st.counters g)
    (hend : (Tally.exploration (m.trace Tally.count count limit st t)).ending = .exhausted)
    (hunspent : (Tally.exploration (m.trace Tally.count count limit st t)).counters.Unspent) :
    ∃ s ∈ (Tally.exploration (m.trace Tally.count count limit st t)).solutions, Q s := by
  induction count generalizing st limit t with
  | zero =>
    cases hf : st.frame with
    | none => exact exists_solution_of_none hf h hpool
    | some f =>
      rw [exploration_zero m hf (by omega)] at hend
      cases hend
  | succ count ih =>
    cases hf : st.frame with
    | none => exact exists_solution_of_none hf h hpool
    | some f =>
      rcases m.step_fault_cases hf with ⟨e, hresult⟩ | hnofault
      · rw [exploration_fault hf (by omega) hresult] at hend
        cases hend
      · rw [hf] at h
        obtain ⟨hresult, hsound, hperm⟩ := m.step_pool h hf hnofault
        obtain ⟨limit', hlimit', hrest⟩ := exploration_succ hf hlimit hresult t
        rw [hrest] at hend hunspent ⊢
        have hcounters := (m.step_result hf).2
        have hroom : st.counters.HasRoom f.detached.demand := by
          have hstep := unspent_of_exploration hlimit' _ hunspent
          rw [hcounters] at hstep
          exact hstep.hasRoom
        refine ih hsound hlimit' ?_ hend hunspent
        rw [hcounters]
        rcases hpool with ⟨s, hs, hQ⟩ | ⟨g, hg, hP⟩
        · exact .inl ⟨s, List.mem_append_left _ hs, hQ⟩
        · rw [Search.pool_of_some hf] at hg
          rcases List.mem_cons.mp hg with rfl | hg
          · -- the branch has run, and hands on what it came to
            rcases hadvance _ _ hP hroom hnofault with ⟨g, hg, hP'⟩ | ⟨s, hs, hQ⟩
            · exact .inr ⟨g, hperm.mem_iff.mpr (List.mem_append_left _ hg), hP'⟩
            · exact .inl ⟨s, List.mem_append_right _ (Option.mem_toList.mpr hs), hQ⟩
          · -- another branch has run, and this one is still waiting
            exact .inr ⟨g, hperm.mem_iff.mpr (List.mem_append_right _ hg),
              hdraw _ _ _ hP hroom⟩

end Machine

end LogicMachine
