import LogicMachine.Proofs.ChoicePoints.Rotation
import LogicMachine.Proofs.Search.Suspended

/-!
# No alternative waits forever

What an interleaved search can make of its choice points, told by the operations it carries out on
them, and how soon each alternative has its turn if the search does nothing but rotate.
-/

namespace LogicMachine

/-- The choice points and the running branch after some of the operations of an interleaved search.
Between two operations a branch may change, but it keeps its link. -/
inductive ChoicePoints.Arises : ChoicePoints → Frame → Prop
  | start {f : Frame} (halt : f.alt = none) : Arises .empty f
  | change {cp : ChoicePoints} {f g : Frame} (h : Arises cp f) (halt : g.alt = f.alt) : Arises cp g
  | push {cp : ChoicePoints} {f : Frame} (h : Arises cp f) (pc : Nat) :
      Arises (cp.push f pc).2 { f with alt := some (cp.push f pc).1 }
  | fail {cp cp' : ChoicePoints} {f g : Frame} (h : Arises cp f)
      (hfail : cp.fail f = (some g, cp')) : Arises cp' g
  | delay {cp : ChoicePoints} {f : Frame} (h : Arises cp f) :
      Arises (cp.delay .interleaved f).2 (cp.delay .interleaved f).1
  | reclaim {cp : ChoicePoints} {f : Frame} (h : Arises cp f) : Arises (cp.sweep (some f)) f

namespace ChoicePoints

variable {cp cp' : ChoicePoints} {f g : Frame}

/-- Choice points that the operations have made are in order. -/
theorem Arises.sound (h : cp.Arises f) : cp.Sound f.alt := by
  induction h with
  | start halt =>
    rw [halt]
    exact sound_empty
  | change _ halt ih => rwa [halt]
  | push _ pc ih => exact (ih.push pc).1
  | fail _ hfail ih => exact (ih.fail_some hfail).1
  | delay _ ih => exact (ih.delay .interleaved).1
  | @reclaim cp f _ ih =>
    have hroot : cp.Sound ((some f).bind (·.alt)) := ih
    exact hroot.sweep.1

end ChoicePoints

namespace Machine

open ChoicePoints

variable {m : Machine} {q : Query} {n : Nat} {f g : Frame} {cp cp' : ChoicePoints} {o : Outcome}
  {journal : List Suspension}

/-- What a step does to the choice points is one of the operations, or two of them. -/
theorem Moves.arises (hmoves : m.Moves f cp o journal (some g) cp')
    (hm : m.strategy = .interleaved) (h : cp.Arises f) : cp'.Arises g := by
  generalize hnext : some g = next at hmoves
  cases hmoves with
  | proceed halt =>
    obtain rfl := Option.some.inj hnext
    exact h.change halt
  | save cont pc =>
    obtain rfl := Option.some.inj hnext
    exact (h.change (g := { f with cont }) rfl).push pc
  | delay halt =>
    obtain rfl := Option.some.inj hnext
    rw [hm]
    exact (h.change halt).delay
  | @finish o rotates ho =>
    unfold nextBranch at hnext ⊢
    rcases hfail : cp.fail f with ⟨_ | g', cp'⟩ <;> rw [hfail] at hnext
    · cases hnext
    · cases rotates with
      | false =>
        obtain rfl := Option.some.inj hnext
        exact h.fail hfail
      | true =>
        obtain rfl := Option.some.inj hnext
        simp only [if_true, hm]
        exact (h.fail hfail).delay
  | abort => cases hnext

/-- Every state of an interleaved run arises in this way. -/
theorem arises_after (hm : m.strategy = .interleaved)
    (hf : (m.after n (.start q)).frame = some f) :
    (m.after n (.start q)).shared.choices.Arises f := by
  induction n generalizing f with
  | zero =>
    obtain rfl := Option.some.inj hf
    exact .start rfl
  | succ n ih =>
    rw [after] at hf ⊢
    cases hf' : (m.after n (.start q)).frame with
    | none =>
      rw [step_of_isDone (by simp [Search.isDone, hf']), hf'] at hf
      cases hf
    | some f' =>
      obtain ⟨o, next, cp', hmoves, -, -, hnext, hchoices⟩ := m.step_cases hf'
      obtain rfl : some f = next := hf.symm.trans hnext
      have harises := hmoves.arises hm (ih hf')
      rcases hchoices with hchoices | ⟨hchoices, -⟩ <;> rw [hchoices]
      · exact harises
      · exact harises.reclaim

end Machine

namespace ChoicePoints

variable {cp : ChoicePoints} {f : Frame}

/-- Whatever the operations have made of the choice points, with `p` alternatives held: delaying the
running branch, and then again and again what has come out, returns all of them within `2 ^ p`
delays, each as it is held and as often as it is held. -/
theorem Arises.held_returned (h : cp.Arises f) :
    cp.held.Subperm
      ((List.range (2 ^ cp.held.length)).map fun n => (delays (n + 1) cp f).1) := by
  choose! time htime horigin hsaved using fun i (hi : i ∈ cp.occupied) =>
    h.sound.returned (mem_occupied.mp hi)
  have hheld : cp.held = (cp.occupied.map time).map fun n => (delays (n + 1) cp f).1 := by
    rw [← filterMap_occupied, List.map_map, ← List.filterMap_eq_map]
    exact List.filterMap_congr hsaved
  -- what comes out has come from one slot only, so that different slots have different times
  have hnodup : (cp.occupied.map time).Nodup := by
    refine cp.nodup_occupied.map_on fun i hi j hj hsame => Option.some.inj ?_
    rw [← horigin i hi, ← horigin j hj, hsame]
  have hrange : cp.occupied.map time ⊆ List.range (2 ^ cp.held.length) := by
    intro n hn
    obtain ⟨i, hi, rfl⟩ := List.mem_map.mp hn
    exact List.mem_range.mpr (htime i hi)
  obtain ⟨times, hperm, hsublist⟩ := List.subperm_of_subset hnodup hrange
  exact ⟨_, (hperm.map _).trans (List.Perm.of_eq hheld.symm), hsublist.map _⟩

/-- Four choices and an answer: the three alternatives left are returned within eight delays, although
the running branch leads to one of them only. -/
theorem held_returned_three :
    let m : Machine := { strategy := .interleaved }
    let q : Query := .ofCode 0 [.choice 3, .choice 2, .choice 1, .choice 0, .success]
    let cp := (m.after 5 (.start q)).shared.choices
    ∃ f, cp.Arises f ∧ cp.held.length = 3 ∧
      cp.held.Subperm ((List.range 8).map fun n => (delays (n + 1) cp f).1) := by
  intro m q cp
  have hrunning : (m.after 5 (.start q)).frame.isSome = true := by decide +kernel
  have hheld : cp.held.length = 3 := by decide +kernel
  obtain ⟨f, hf⟩ := Option.isSome_iff_exists.mp hrunning
  have harises : cp.Arises f := m.arises_after rfl hf
  have hreturned := harises.held_returned
  rw [hheld] at hreturned
  exact ⟨f, harises, hheld, hreturned⟩

/-- In that state the alternative furthest in comes out of the seventh delay, and not before. -/
example :
    let m : Machine := { strategy := .interleaved }
    let q : Query := .ofCode 0 [.choice 3, .choice 2, .choice 1, .choice 0, .success]
    let cp := (m.after 5 (.start q)).shared.choices
    (m.after 5 (.start q)).frame.map (fun f => (List.range 7).map (origin · cp f none)) =
        some [none, some 0, none, some 1, none, some 0, none] ∧
      (m.after 5 (.start q)).frame.map (origin 7 cp · none) = some (some 2) := by
  decide +kernel

end ChoicePoints

end LogicMachine
