import LogicMachine.Proofs.Search.Pool
import LogicMachine.Proofs.Search.Suspended

/-!
# The branches of a run

Whatever holds of the branch of a query, is kept by every instruction, and stays true of a branch
while the others draw numbers, holds of all branches after any number of steps without a fault.
-/

namespace LogicMachine

namespace Search

variable {st : Search} {f : Frame}

/-- The running branch is still to run. -/
theorem detached_mem_pool_of_frame (hf : st.frame = some f) : f.detached ∈ st.pool := by
  rw [pool_of_some hf]
  exact List.mem_cons_self

/-- So is the branch in a slot. -/
theorem detached_mem_pool_of_saved {i : Nat} (hf : st.shared.choices.savedIn i = some f) :
    f.detached ∈ st.pool := by
  exact List.mem_map_of_mem (List.mem_append_right _ (ChoicePoints.mem_held_of_savedIn hf))

/-- So is every branch that is held. -/
theorem detached_mem_pool_of_held (hf : f ∈ st.shared.choices.held) : f.detached ∈ st.pool :=
  List.mem_map_of_mem (List.mem_append_right _ hf)

/-- At the start only the branch of the query is to run. -/
theorem pool_start (q : Query) : (Search.start q).pool = [.start q.env q.code] := rfl

end Search

namespace Machine

variable {m : Machine} {q : Query} {n : Nat}

/-- Without a fault, the choice points stay in order. -/
theorem sound_after_of_no_fault
    (herror : ∀ k < n, ∀ e, (m.step (m.after k (.start q))).result ≠ .error e) :
    (m.after n (.start q)).shared.choices.Sound ((m.after n (.start q)).frame.bind (·.alt)) := by
  rcases m.sound_after q n with hsound | ⟨-, k, hk, e, he⟩
  · exact hsound
  · exact absurd he (herror k hk e)

/-- After a step that is no fault, a branch comes from the one that was running, or it was saved
before. -/
theorem mem_pool_after_succ
    (herror : ∀ k < n + 1, ∀ e, (m.step (m.after k (.start q))).result ≠ .error e) {g : Frame}
    (hg : g ∈ (m.after (n + 1) (.start q)).pool) :
    (∃ f, (m.after n (.start q)).frame = some f ∧
        g ∈ (m.advance f.detached (m.after n (.start q)).counters).1.children) ∨
      ∃ f ∈ (m.after n (.start q)).shared.choices.held, f.detached = g := by
  have hsound := sound_after_of_no_fault fun k hk => herror k (Nat.lt_succ_of_lt hk)
  refine m.mem_pool_step (fun f hf => ?_) hg
  rwa [hf] at hsound

/-- A property of the branch of a query that every instruction keeps is one of all branches of the
run, also after a fault. -/
theorem forall_pool {P : Frame → Prop} (hstart : P (.start q.env q.code))
    (hadvance : ∀ c f, P f → ∀ g ∈ (m.advance f c).1.children, P g) (n : Nat) :
    ∀ g ∈ (m.after n (.start q)).pool, P g := by
  induction n with
  | zero => exact List.forall_mem_singleton.mpr hstart
  | succ n ih =>
    intro g hg
    rcases m.mem_pool_step (fun f hf => sound_after_of_frame _ hf) hg with
      ⟨f, hf, hg⟩ | ⟨f, hf, rfl⟩
    · exact hadvance _ _ (ih _ (Search.detached_mem_pool_of_frame hf)) g hg
    · exact ih _ (Search.detached_mem_pool_of_held hf)

/-- A step draws numbers, if only none. -/
theorem exists_drawn_step (m : Machine) (st : Search) :
    ∃ d, (m.step st).search.counters = st.counters.drawn d := by
  cases hf : st.frame with
  | none =>
    rw [step_of_isDone (by simp [Search.isDone, hf])]
    exact ⟨(0, 0), rfl⟩
  | some f => exact ⟨_, (m.step_result hf).2⟩

/-- An invariant of branches holds throughout a run without a fault. -/
theorem forall_pool_after {P : Counters → Frame → Prop}
    (hstart : P (Search.start q).counters (.start q.env q.code))
    (hdraw : ∀ c d g, P c g → P (c.drawn d) g)
    (hadvance : ∀ c f, P c f → (∀ e, (m.advance f c).1 ≠ .fault e) →
      ∀ g ∈ (m.advance f c).1.children, P (c.drawn f.demand) g)
    (herror : ∀ k < n, ∀ e, (m.step (m.after k (.start q))).result ≠ .error e) :
    ∀ g ∈ (m.after n (.start q)).pool, P (m.after n (.start q)).counters g := by
  induction n with
  | zero =>
    intro g hg
    rw [after, Search.pool_start, List.mem_singleton] at hg
    rw [hg]
    exact hstart
  | succ n ih =>
    have hpool := ih fun k hk => herror k (Nat.lt_succ_of_lt hk)
    intro g hg
    rcases mem_pool_after_succ herror hg with ⟨f, hf, hg⟩ | ⟨f, hf, rfl⟩
    · rw [after, (m.step_result hf).2]
      refine hadvance _ _ (hpool _ (Search.detached_mem_pool_of_frame hf)) (fun e he => ?_) g hg
      rw [he] at hg
      cases hg
    · obtain ⟨d, hd⟩ := m.exists_drawn_step (m.after n (.start q))
      rw [after, hd]
      exact hdraw _ _ _ (hpool _ (Search.detached_mem_pool_of_held hf))

/-- If branches with a property are at no fault and lead to such branches only, then a run that
starts with one never ends in a fault. -/
theorem result_after_ne_error {P : Frame → Prop} (hstart : P (.start q.env q.code))
    (hadvance : ∀ c f, P f → (∀ e, (m.advance f c).1 ≠ .fault e) ∧
      ∀ g ∈ (m.advance f c).1.children, P g) (n : Nat) (e : ProgramError) :
    (m.step (m.after n (.start q))).result ≠ .error e := by
  cases hf : (m.after n (.start q)).frame with
  | none =>
    rw [step_of_isDone (by simp [Search.isDone, hf])]
    simp
  | some f =>
    have hpool := forall_pool hstart (fun c f hf => (hadvance c f hf).2) n
    have hnofault := (hadvance (m.after n (.start q)).counters _
      (hpool _ (Search.detached_mem_pool_of_frame hf))).1
    rw [(m.step_result hf).1, Outcome.result_of_no_fault hnofault]
    simp

end Machine

end LogicMachine
