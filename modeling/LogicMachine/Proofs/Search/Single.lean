import LogicMachine.Proofs.Search.Pool

/-!
# Searches that never split

When no instruction splits the branch that a search starts with, makes it fail or brings it to a
fault, there is never another one to run. When such a search comes to its end, whatever the strategy,
it has found one solution.
-/

namespace LogicMachine

namespace Machine

variable {m : Machine} {st : Search} {count limit : Nat}

section Single

variable {P : Counters → Frame → Prop} {Q : Solution → Prop}

/-- Either the one branch is still to run, or it has been answered and there is nothing more. -/
def Single (P : Counters → Frame → Prop) (Q : Solution → Prop) (st : Search) (t : Tally) : Prop :=
  (∃ f, st.pool = [f] ∧ P st.counters f ∧ t.solutions = []) ∨
    st.pool = [] ∧ ∃ s, t.solutions = [s] ∧ Q s

/-- The branch can run as long as numbers are left: it goes on, or it is answered. -/
def Advances (m : Machine) (P : Counters → Frame → Prop) (Q : Solution → Prop) : Prop :=
  ∀ f c, P c f → (c.drawn f.demand).Unspent →
    (∃ g, (m.advance f c).1 = .go g ∧ P (c.drawn f.demand) g) ∨
      ∃ s, (m.advance f c).1 = .answer s ∧ Q s

/-- A step of the one branch is no fault, and leaves one branch or its answer. -/
theorem Single.step (hadvance : m.Advances P Q) {t : Tally} (h : Single P Q st t) {f : Frame}
    (hf : st.frame = some f) (hsound : st.shared.choices.Sound f.alt)
    (hunspent : (m.step st).search.counters.Unspent) :
    ∃ answer?, (m.step st).result = .ok answer? ∧
      Single P Q (m.step st).search ⟨t.solutions ++ answer?.toList, t.steps + 1⟩ := by
  have hpool := Search.pool_of_some hf
  have hcounters := (m.step_result hf).2
  rw [hcounters] at hunspent
  rcases h with ⟨f', hsingle, hP, hnone⟩ | ⟨hempty, -⟩
  · obtain ⟨rfl, hheld⟩ := List.cons_eq_cons.mp (hpool.symm.trans hsingle)
    have hnext := hadvance _ _ hP hunspent
    obtain ⟨hresult, -, hperm⟩ := m.step_pool hsound hf fun e he => by
      rcases hnext with ⟨g, hgo, -⟩ | ⟨s, hanswer, -⟩
      · cases he.symm.trans hgo
      · cases he.symm.trans hanswer
    rw [hheld, List.append_nil] at hperm
    refine ⟨_, hresult, ?_⟩
    rcases hnext with ⟨g, hgo, hg⟩ | ⟨s, hanswer, hs⟩
    · rw [hgo] at hperm ⊢
      refine .inl ⟨g, List.perm_singleton.mp hperm, hcounters ▸ hg, ?_⟩
      simp only [hnone, Outcome.solution?, Option.toList_none, List.append_nil]
    · rw [hanswer] at hperm ⊢
      refine .inr ⟨List.perm_nil.mp hperm, s, ?_, hs⟩
      simp only [hnone, Outcome.solution?, Option.toList_some, List.nil_append]
  · rw [hempty] at hpool
    cases hpool

/-- When no branch is running, the one that there was has been answered. -/
theorem Single.exists_of_none {t : Tally} (h : Single P Q st t) (hf : st.frame = none)
    (hsound : st.shared.choices.Sound (st.frame.bind (·.alt))) :
    ∃ s, t.solutions = [s] ∧ Q s := by
  rcases h with ⟨f, hsingle, -⟩ | ⟨-, hs⟩
  · rw [Search.pool_of_none hsound hf] at hsingle
    cases hsingle
  · exact hs

/-- What a run shows that has one branch left, or none. -/
theorem Single.exploration (hadvance : m.Advances P Q) {t : Tally} (h : Single P Q st t)
    (hsound : st.shared.choices.Sound (st.frame.bind (·.alt))) (hlimit : count < limit)
    (hunspent : (Tally.exploration (m.trace Tally.count count limit st t)).counters.Unspent) :
    let e := Tally.exploration (m.trace Tally.count count limit st t)
    (∀ err, e.ending ≠ .fault err) ∧ (e.ending = .exhausted → ∃ s, e.solutions = [s] ∧ Q s) := by
  intro e
  -- induction on the number of steps: one branch is left after each, or it was the answer
  induction count generalizing st limit t with
  | zero =>
    cases hf : st.frame with
    | none =>
      simp only [e, exploration_of_none m hf]
      exact ⟨by simp, fun _ => h.exists_of_none hf hsound⟩
    | some f =>
      simp only [e, exploration_zero m hf (Nat.ne_of_gt hlimit)]
      exact ⟨by simp, by simp⟩
  | succ count ih =>
    cases hf : st.frame with
    | none =>
      simp only [e, exploration_of_none m hf]
      exact ⟨by simp, fun _ => h.exists_of_none hf hsound⟩
    | some f =>
      have hstep := (unspent_along hlimit t hunspent).2 f hf (Nat.succ_ne_zero count)
      rw [hf] at hsound
      obtain ⟨answer?, hresult, hnext⟩ := h.step hadvance hf hsound hstep
      obtain ⟨limit', hlimit', hrest⟩ := exploration_succ hf hlimit hresult t
      have hkept := m.step_spec hsound hf fun err herr => by
        rw [hresult] at herr
        cases herr
      simp only [e, hrest] at hunspent ⊢
      exact ih hnext hkept.1 hlimit' hunspent

end Single

/-- A search that starts with a branch that goes on until it is answered ends in no fault, and when
it ends there is one solution, which has the property of answers. -/
theorem observe_of_advances {P : Counters → Frame → Prop} {Q : Solution → Prop}
    (hadvance : m.Advances P Q) {q : Query} (hstart : P ⟨q.vars, {}⟩ (.start q.env q.code)) {n : Nat}
    (hunspent : (m.observe n q).counters.Unspent) :
    (∀ e, (m.observe n q).ending ≠ .fault e) ∧
      ((m.observe n q).ending = .exhausted → ∃ s, (m.observe n q).solutions = [s] ∧ Q s) :=
  Single.exploration hadvance (.inl ⟨_, rfl, hstart, rfl⟩) ChoicePoints.sound_empty
    (Nat.lt_succ_self n) hunspent

end Machine

end LogicMachine
