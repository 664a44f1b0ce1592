import LogicMachine.Proofs.Search.Exploration
import LogicMachine.Proofs.Search.Step

/-!
# The depth-first search explores

Depth first, the alternatives on the way down from the running branch are a stack, with the branch
to try next on top. What the search does step by step is therefore what the recursion of
`Machine.explore` does, which knows nothing of choice points.
-/

namespace LogicMachine

namespace ChoicePoints

variable {cp : ChoicePoints} {f g : Frame} {top : Option Nat}

/-- Every alternative is still in the slot that it was saved in. -/
def Upright (cp : ChoicePoints) : Prop := ∀ i f, cp.savedIn i = some f → f.alt = some i

/-- The alternatives on the way down from a link, the innermost first. -/
def stack (cp : ChoicePoints) (top : Option Nat) : List Frame :=
  (cp.untried top).filterMap cp.savedIn

/-- The stack holds what is saved along the way down. -/
theorem Chain.stack_eq {l : List Nat} (h : cp.Chain top l) :
    cp.stack top = l.filterMap cp.savedIn := by
  rw [stack, h.untried_eq]
  clear h
  induction l with
  | nil => rfl
  | cons i l ih =>
    cases hi : cp.savedIn i with
    | none =>
      have huntried : ¬ cp.isUntried i = true := by simp [isUntried, hi]
      rw [List.filter_cons_of_neg huntried, List.filterMap_cons_none hi, ih]
    | some f =>
      have huntried : cp.isUntried i = true := isUntried_eq_true_iff.mpr ⟨f, hi⟩
      rw [List.filter_cons_of_pos huntried, List.filterMap_cons_some hi,
        List.filterMap_cons_some hi, ih]

/-- Unlinking taken choice points takes nothing off the stack. -/
theorem stack_innermost? (h : cp.Sound top) : cp.stack (cp.innermost? top) = cp.stack top := by
  rw [stack, h.untried_innermost?, stack]

/-- Depth first, a branch that fails is followed by the top of its stack. -/
theorem Sound.fail_stack {cp' : ChoicePoints} (h : cp.Sound f.alt) (hup : cp.Upright)
    (hfail : cp.fail f = (some g, cp')) :
    cp'.Upright ∧ cp.stack f.alt = g :: cp'.stack g.alt := by
  unfold fail at hfail
  cases hi : cp.innermost? f.alt with
  | none => simp [hi] at hfail
  | some i =>
    rw [hi] at hfail
    obtain ⟨hg, rfl⟩ := Prod.mk.inj hfail
    -- nothing is saved above slot `i` on the chain, and nothing below it is touched
    obtain ⟨pre, l, hl, hpre, _⟩ := h.innermost_split hi
    obtain ⟨c, hslot, hsaved⟩ := Option.bind_eq_some_iff.mp hg
    have hclear : ∀ k, (cp.clear i).savedIn k = if i = k then none else cp.savedIn k := by
      intro k
      rw [clear_eq_setSlot hslot, savedIn_setSlot hslot]
    have htail : cp.Chain (some i) ([] ++ i :: l) := hl.drop
    have hi' : i ∉ l := (List.nodup_cons.mp htail.nodup).1
    have htail' : (cp.clear i).Chain (some i) (i :: l) := by
      have hbelow : cp.Chain ({ c with saved := none } : ChoicePoint).below l := by
        cases htail with
        | cons hslot' hrest =>
          obtain rfl := Option.some.inj (hslot.symm.trans hslot')
          exact hrest
      have hcut := htail.setSlot_at hslot hbelow hi'
      rwa [← clear_eq_setSlot hslot] at hcut
    have hnone : ∀ k ∈ pre, cp.savedIn k = none := by
      intro k hk
      have huntried := hpre k hk
      rw [isUntried] at huntried
      simpa using huntried
    have hsame : ∀ k ∈ l, (cp.clear i).savedIn k = cp.savedIn k := by
      intro k hk
      have hik : i ≠ k := by
        rintro rfl
        exact hi' hk
      rw [hclear, if_neg hik]
    refine ⟨?_, ?_⟩
    · intro k f' hk
      rw [hclear] at hk
      split at hk
      · cases hk
      · exact hup k f' hk
    · rw [hup i g hg, hl.stack_eq, htail'.stack_eq, List.filterMap_append,
        List.filterMap_eq_nil_iff.mpr hnone, List.nil_append, List.filterMap_cons_some hg,
        List.filterMap_cons_none (by rw [hclear, if_pos rfl]), List.filterMap_congr hsame]

/-- A branch that fails for good had nothing on its stack. -/
theorem Sound.fail_stack_nil {cp' : ChoicePoints} (h : cp.Sound f.alt)
    (hfail : cp.fail f = (none, cp')) : cp.stack f.alt = [] := by
  obtain ⟨rfl, hnone⟩ := h.fail_none hfail
  rw [← stack_innermost? h, hnone]
  exact Chain.nil.stack_eq

/-- An alternative is saved on top of the stack. -/
theorem Sound.push_stack (h : cp.Sound f.alt) (hup : cp.Upright) (pc : Nat) :
    (cp.push f pc).2.Upright ∧
      (cp.push f pc).2.stack (some (cp.push f pc).1) = cp.alternative f pc :: cp.stack f.alt := by
  obtain ⟨l, hl, hfree⟩ := h.used
  have htop : (cp.push f pc).2.Chain (some cp.nextSlot) (cp.nextSlot :: l) :=
    .cons (by rw [h.slot_push, if_pos rfl]) (h.chain_push f pc hl hfree)
  have hself : (cp.push f pc).2.savedIn cp.nextSlot = some (cp.alternative f pc) := by
    rw [h.savedIn_push, if_pos rfl]
  have hsame : ∀ k ∈ l, (cp.push f pc).2.savedIn k = cp.savedIn k := by
    intro k hk
    have hik : cp.nextSlot ≠ k := fun hik =>
      (List.nodup_cons.mp htop.nodup).1 (hik ▸ hk)
    rw [h.savedIn_push, if_neg hik]
  refine ⟨?_, ?_⟩
  · intro k f' hk
    rw [h.savedIn_push] at hk
    split at hk
    · next hik =>
      obtain rfl := Option.some.inj hk
      exact congrArg some hik
    · exact hup k f' hk
  · rw [hl.stack_eq]
    refine htop.stack_eq.trans ?_
    rw [List.filterMap_cons_some hself, List.filterMap_congr hsame]

/-- A sweep leaves the stack alone. -/
theorem Sound.sweep_stack {root : Option Frame} (h : cp.Sound (root.bind (·.alt)))
    (hup : cp.Upright) : (cp.sweep root).Upright ∧
      (cp.sweep root).stack (root.bind (·.alt)) = cp.stack (root.bind (·.alt)) := by
  have hsame : ∀ k, (cp.sweep root).savedIn k = cp.savedIn k :=
    savedIn_sweep fun k f hf => h.mem_reachable hf
  obtain ⟨l, hl⟩ := h.used.chain
  have hl' : (cp.sweep root).Chain (root.bind (·.alt)) l :=
    hl.sweep (hl.mem_reachable (reachable_closed cp root).1)
  refine ⟨fun k f hk => hup k f (hsame k ▸ hk), ?_⟩
  rw [hl'.stack_eq, hl.stack_eq, List.filterMap_congr fun k _ => hsame k]

end ChoicePoints

/-- The branches that a depth-first search has still to explore, in order. -/
def Search.agenda (st : Search) : List Frame :=
  (st.frame.toList ++ st.shared.choices.stack (st.frame.bind (·.alt))).map Frame.detached

/-- Without a running branch nothing is left to explore. -/
theorem Search.agenda_of_none {st : Search} (hf : st.frame = none) : st.agenda = [] := by
  rw [agenda, hf]
  exact congrArg (List.map _) ChoicePoints.Chain.nil.stack_eq

/-- The running branch comes first, and then the stack from the top down. -/
theorem Search.agenda_of_some {st : Search} {f : Frame} (hf : st.frame = some f) :
    st.agenda = f.detached :: (st.shared.choices.stack f.alt).map Frame.detached := by
  rw [agenda, hf]
  rfl

namespace Machine

variable {m : Machine} {st : Search} {f : Frame} {cp cp' : ChoicePoints} {o : Outcome}
  {journal : List Suspension} {next : Option Frame}

/-- Depth first, the next branch is the first one that the last has left, or else the top of the
stack. -/
theorem Moves.stack (hmoves : m.Moves f cp o journal next cp') (hm : m.strategy = .depthFirst)
    (h : cp.Sound f.alt) (hup : cp.Upright) (hfault : ∀ e, o ≠ .fault e) :
    cp'.Upright ∧ (next.toList ++ cp'.stack (next.bind (·.alt))).map Frame.detached =
      o.children ++ (cp.stack f.alt).map Frame.detached := by
  cases hmoves with
  | @proceed g halt =>
    refine ⟨hup, ?_⟩
    simp only [Option.bind_some, halt]
    rfl
  | save cont pc =>
    obtain ⟨hup', hstack⟩ := ChoicePoints.Sound.push_stack (f := { f with cont }) h hup pc
    refine ⟨hup', ?_⟩
    simp only [Option.bind_some, hstack]
    rfl
  | @delay g halt =>
    rw [hm]
    refine ⟨hup, ?_⟩
    simp only [ChoicePoints.delay, Option.bind_some, halt, ChoicePoints.stack_innermost? h]
    rfl
  | @finish o rotates ho =>
    have hchildren : o.children = [] := by obtain rfl | ⟨s, rfl⟩ := ho <;> rfl
    rw [hchildren, List.nil_append]
    unfold nextBranch
    rcases hfail : cp.fail f with ⟨_ | g, cp'⟩
    · obtain ⟨rfl, hnone⟩ := h.fail_none hfail
      rw [h.fail_stack_nil hfail]
      exact ⟨hup, congrArg (List.map _) ChoicePoints.Chain.nil.stack_eq⟩
    · obtain ⟨hup', hstack⟩ := h.fail_stack hup hfail
      have hsound := (h.fail_some hfail).1
      rw [hstack]
      cases rotates with
      | false => exact ⟨hup', rfl⟩
      | true =>
        simp only [hm, if_true, ChoicePoints.delay, Option.bind_some,
          ChoicePoints.stack_innermost? hsound]
        exact ⟨hup', rfl⟩
  | abort => exact absurd rfl (hfault _)

/-- A depth-first step that is no fault puts what became of the running branch in its place on the
agenda. -/
theorem agenda_step (hm : m.strategy = .depthFirst) (h : st.shared.choices.Sound f.alt)
    (hup : st.shared.choices.Upright) (hf : st.frame = some f)
    (hfault : ∀ e, (m.step st).result ≠ .error e) :
    (m.step st).search.shared.choices.Upright ∧
      (m.step st).search.agenda = (m.advance f.detached st.counters).1.children ++
        (st.shared.choices.stack f.alt).map Frame.detached := by
  obtain ⟨o, next, cp', hmoves, hadvance, hresult, hframe, hchoices⟩ := m.step_cases hf
  have hnofault : ∀ e, o ≠ .fault e := by
    rintro e rfl
    exact hfault e hresult
  have hsound := hmoves.sound h hnofault
  obtain ⟨hup', hstack⟩ := hmoves.stack hm h hup hnofault
  rw [hadvance, Search.agenda, hframe]
  rcases hchoices with hchoices | ⟨hchoices, -⟩ <;> rw [hchoices]
  · exact ⟨hup', hstack⟩
  · obtain ⟨hup'', hstack'⟩ := hsound.sweep_stack hup'
    exact ⟨hup'', by rw [hstack', hstack]⟩

/-- A depth-first run goes through its agenda as the recursion does. -/
theorem trace_eq_exploreAll (hm : m.strategy = .depthFirst) (count limit : Nat)
    (hlimit : count < limit) (h : st.shared.choices.Sound (st.frame.bind (·.alt)))
    (hup : st.shared.choices.Upright) (t : Tally) :
    Tally.exploration (m.trace Tally.count count limit st t) =
      let e := m.exploreAll count st.agenda st.counters
      { e with solutions := t.solutions ++ e.solutions, used := t.steps + e.used } := by
  -- induction on the number of steps; each of them is one instruction of the recursion
  induction count generalizing st limit t with
  | zero =>
    cases hf : st.frame with
    | none => simp [m.exploration_of_none hf, Search.agenda_of_none hf]
    | some f =>
      rw [m.exploration_zero hf (by omega), Search.agenda_of_some hf, exploreAll_zero]
      simp
  | succ count ih =>
    cases hf : st.frame with
    | none => simp [m.exploration_of_none hf, Search.agenda_of_none hf]
    | some f =>
      obtain ⟨o, next, cp', hmoves, hadvance, hresult, hframe, hchoices⟩ := m.step_cases hf
      rw [Search.agenda_of_some hf]
      rw [hf] at h
      by_cases hfault : ∃ e, o = .fault e
      · obtain ⟨e, rfl⟩ := hfault
        rw [exploration_fault hf (by omega) hresult, m.exploreAll_fault count _ hadvance]
        simp
      · have hnofault : ∀ e, o ≠ .fault e := fun e he => hfault ⟨e, he⟩
        rw [Outcome.result_of_no_fault hnofault] at hresult
        have hok : ∀ e, (m.step st).result ≠ .error e := by
          intro e he
          rw [hresult] at he
          cases he
        obtain ⟨hup', hagenda⟩ := m.agenda_step hm h hup hf hok
        have hsound := (m.step_spec h hf hok).1
        obtain ⟨limit', hlimit', hstep⟩ := exploration_succ hf hlimit hresult t
        rw [hstep, ih limit' hlimit' hsound hup', hagenda, hadvance,
          m.exploreAll_succ count _ hadvance hnofault]
        simp only [Exploration.after, List.append_assoc, Nat.add_assoc, Nat.add_comm 1]

/-- A depth-first search of a branch by itself explores this branch. -/
theorem exploration_ofFrame (hm : m.strategy = .depthFirst) (n : Nat) (f : Frame) (c : Counters) :
    Tally.exploration (m.trace Tally.count n (n + 1) (.ofFrame f c) {}) =
      m.explore n f.detached c := by
  have hupright : (Search.ofFrame f c).shared.choices.Upright := by
    simp [ChoicePoints.Upright, Search.ofFrame, ChoicePoints.savedIn, ChoicePoints.empty]
  have hagenda : (Search.ofFrame f c).agenda = [f.detached] := rfl
  rw [trace_eq_exploreAll hm n (n + 1) (Nat.lt_succ_self n) ChoicePoints.sound_empty hupright,
    hagenda, exploreAll_singleton]
  simp only [List.nil_append, Nat.zero_add]
  rfl

/-- A depth-first search has the query alone on its agenda to begin with. -/
theorem observe_of_depthFirst (hm : m.strategy = .depthFirst) (n : Nat) (q : Query) :
    m.observe n q = m.exploreAll n [.start q.env q.code] ⟨q.vars, {}⟩ := by
  rw [exploreAll_singleton]
  exact exploration_ofFrame hm n (.start q.env q.code) ⟨q.vars, {}⟩

/-- For every program and query and for runs of any length: the depth-first search finds the same
solutions in the same order as the recursion, with the same numbers in them, within as many
instructions, and it ends as the recursion does. -/
theorem depthFirst_explores (m : Machine) (q : Query) (n : Nat) :
    (m.under .depthFirst).observe n q =
      (m.under .depthFirst).explore n (.start q.env q.code) ⟨q.vars, {}⟩ := by
  rw [observe_of_depthFirst rfl, exploreAll_singleton]

end Machine

end LogicMachine
