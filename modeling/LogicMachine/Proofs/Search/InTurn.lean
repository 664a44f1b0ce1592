import LogicMachine.Proofs.Search.DepthFirst

/-!
# Searches one after another

What searches for several branches show when the numbers that one of them has drawn are not drawn
again by the next. Two lists of branches show the same if either of them shows sooner or later what
the other one shows. The parts of such lists can be replaced one by one.
-/

namespace LogicMachine.Machine

/-- What searches for branches show one after another, in at most `n` steps altogether. Each of them
begins with the counters that the one before has left, if that has come to its end. -/
def observeInTurn (m : Machine) (n : Nat) : List Frame → Counters → Exploration
  | [], c => { counters := c }
  | f :: fs, c =>
    let first := Tally.exploration (m.trace Tally.count n (n + 1) (.ofFrame f c) {})
    first.followedBy (m.observeInTurn (n - first.used) fs)

/-- Whatever the first branches show in some number of steps, the others show in some number of
steps. -/
def ShownBy (m : Machine) (fs gs : List Frame) (c : Counters) : Prop :=
  ∀ n, ∃ n', (m.observeInTurn n fs c).SameAs (m.observeInTurn n' gs c)

/-- The branches show the same, one after another. -/
def SameInTurn (m : Machine) (fs gs : List Frame) (c : Counters) : Prop :=
  m.ShownBy fs gs c ∧ m.ShownBy gs fs c

/-- One of the branches comes to a fault, if the ones before do not go on forever. -/
def FaultsInTurn (m : Machine) (fs : List Frame) (c : Counters) : Prop :=
  ∃ n e, (m.observeInTurn n fs c).ending = .fault e

/-- One of the branches comes to the end of code that is as long as what one of them is to run. -/
def RunsOff (m : Machine) (fs : List Frame) (c : Counters) : Prop :=
  ∃ n, ∃ f ∈ fs, (m.observeInTurn n fs c).ending =
    .fault (.endOfBlock f.cont.running.block.code.length f.cont.running.block.code.length)

variable {m : Machine} {fs fs' gs gs' hs : List Frame} {c : Counters} {n : Nat}

/-- Depth first, what the searches show one after another is what exploring the branches shows. -/
theorem observeInTurn_eq (hm : m.strategy = .depthFirst) (n : Nat) (fs : List Frame)
    (c : Counters) : m.observeInTurn n fs c = m.exploreAll n (fs.map Frame.detached) c := by
  induction fs generalizing n c with
  | nil => rfl
  | cons f fs ih =>
    simp only [observeInTurn, exploration_ofFrame hm, List.map_cons, exploreAll]
    exact congrArg _ (funext (ih _))

/-! ### Showing the same -/

/-- What is shown by branches is shown by all that these are shown by. -/
theorem ShownBy.trans (h : m.ShownBy fs gs c) (h' : m.ShownBy gs hs c) : m.ShownBy fs hs c := by
  intro n
  obtain ⟨n', hn'⟩ := h n
  obtain ⟨n'', hn''⟩ := h' n'
  exact ⟨n'', hn'.trans hn''⟩

/-- Branches show the same as themselves. -/
theorem SameInTurn.refl (m : Machine) (fs : List Frame) (c : Counters) : m.SameInTurn fs fs c :=
  ⟨fun n => ⟨n, .refl _⟩, fun n => ⟨n, .refl _⟩⟩

/-- Branches that show the same as a third list show the same as each other. -/
theorem SameInTurn.trans (h : m.SameInTurn fs gs c) (h' : m.SameInTurn gs hs c) :
    m.SameInTurn fs hs c :=
  ⟨h.1.trans h'.1, h'.2.trans h.2⟩

/-- What comes after branches begins with the counters that they leave. -/
theorem observeInTurn_append (hm : m.strategy = .depthFirst) (n : Nat) (fs gs : List Frame)
    (c : Counters) : m.observeInTurn n (fs ++ gs) c = (m.observeInTurn n fs c).followedBy
      (m.observeInTurn (n - (m.observeInTurn n fs c).used) gs) := by
  simp only [observeInTurn_eq hm, List.map_append, exploreAll_append]
  exact congrArg _ (funext fun c => (observeInTurn_eq hm _ gs c).symm)

/-- Once branches have come to their end, any number of steps is left for what comes after them. -/
theorem exists_observeInTurn_append (hm : m.strategy = .depthFirst)
    (h : (m.observeInTurn n fs c).ending = .exhausted) (gs : List Frame) (k : Nat) :
    ∃ n', m.observeInTurn n' (fs ++ gs) c =
      (m.observeInTurn n fs c).followedBy (m.observeInTurn k gs) := by
  refine ⟨(m.observeInTurn n fs c).used + k, ?_⟩
  rw [observeInTurn_append hm]
  have henough : m.observeInTurn ((m.observeInTurn n fs c).used + k) fs c =
      m.observeInTurn n fs c := by
    simp only [observeInTurn_eq hm] at h ⊢
    have hused := m.exploreAll_used h
    rw [m.exploreAll_of_le (by rw [hused, h]; exact nofun) (Nat.le_add_right _ k), hused]
  rw [henough, Nat.add_sub_cancel_left]

/-- The parts of two lists are compared one by one, the second ones with whatever counters the first
ones leave. -/
theorem ShownBy.append (hm : m.strategy = .depthFirst) (h : m.ShownBy fs gs c)
    (h' : ∀ n, (m.observeInTurn n fs c).ending = .exhausted →
      m.ShownBy fs' gs' (m.observeInTurn n fs c).counters) :
    m.ShownBy (fs ++ fs') (gs ++ gs') c := by
  intro n
  rw [observeInTurn_append hm]
  obtain ⟨n', hsame⟩ := h n
  by_cases hend : (m.observeInTurn n fs c).ending = .exhausted
  · obtain ⟨k, hrest⟩ := h' n hend (n - (m.observeInTurn n fs c).used)
    obtain ⟨n'', hn''⟩ := exists_observeInTurn_append hm (hsame.ending ▸ hend) gs' k
    exact ⟨n'', hn'' ▸ hsame.followedBy fun _ => hrest⟩
  · refine ⟨n', ?_⟩
    rw [observeInTurn_append hm]
    exact hsame.followedBy fun hexhausted => absurd hexhausted hend

/-- Two parts of a list can be replaced, where the second part has to show the same after the first
one only. -/
theorem SameInTurn.append (hm : m.strategy = .depthFirst) (h : m.SameInTurn fs gs c)
    (h' : ∀ n, (m.observeInTurn n gs c).ending = .exhausted →
      m.SameInTurn fs' gs' (m.observeInTurn n gs c).counters) :
    m.SameInTurn (fs ++ fs') (gs ++ gs') c := by
  refine ⟨h.1.append hm fun n hend => ?_, h.2.append hm fun n hend => (h' n hend).2⟩
  obtain ⟨n', hsame⟩ := h.1 n
  rw [hsame.counters]
  exact (h' n' (hsame.ending ▸ hend)).1

/-! ### Faults -/

/-- Branches that show the same have the same faults. -/
theorem ShownBy.faultsInTurn (h : m.ShownBy fs gs c) (hfault : m.FaultsInTurn fs c) :
    m.FaultsInTurn gs c := by
  obtain ⟨n, e, hend⟩ := hfault
  obtain ⟨n', hsame⟩ := h n
  exact ⟨n', e, hsame.ending ▸ hend⟩

/-- What comes behind a branch with a fault is not reached and does not matter. -/
theorem FaultsInTurn.append_left (hm : m.strategy = .depthFirst) (h : m.FaultsInTurn fs c)
    (gs : List Frame) : m.FaultsInTurn (fs ++ gs) c := by
  obtain ⟨n, e, hend⟩ := h
  refine ⟨n, e, ?_⟩
  rw [observeInTurn_append hm, Exploration.followedBy, hend]
  exact hend

/-- After branches that come to their ends, a fault of the others is a fault of all. -/
theorem FaultsInTurn.append_right (hm : m.strategy = .depthFirst)
    (hend : (m.observeInTurn n fs c).ending = .exhausted)
    (h : m.FaultsInTurn gs (m.observeInTurn n fs c).counters) : m.FaultsInTurn (fs ++ gs) c := by
  obtain ⟨k, e, hfault⟩ := h
  obtain ⟨n', hn'⟩ := exists_observeInTurn_append hm hend gs k
  refine ⟨n', e, ?_⟩
  rw [hn', Exploration.followedBy, hend]
  exact hfault

/-- To run off the end of the code is a fault. -/
theorem RunsOff.faultsInTurn (h : m.RunsOff fs c) : m.FaultsInTurn fs c := by
  obtain ⟨n, f, -, hend⟩ := h
  exact ⟨n, _, hend⟩

/-- A branch that shows what two branches show one after another shows what these are shown by, if
there is no fault among that. -/
theorem SameInTurn.trans_append {f g h : Frame} (hm : m.strategy = .depthFirst)
    (hboth : ¬ m.RunsOff [g, h] c → m.SameInTurn [f] [g, h] c)
    (hfirst : ∀ c, ¬ m.FaultsInTurn gs c → m.SameInTurn [g] gs c)
    (hsecond : ∀ c, ¬ m.FaultsInTurn hs c → m.SameInTurn [h] hs c)
    (hfault : ¬ m.FaultsInTurn (gs ++ hs) c) : m.SameInTurn [f] (gs ++ hs) c := by
  have hgs : ¬ m.FaultsInTurn gs c := fun hf => hfault (hf.append_left hm hs)
  have hparts : m.SameInTurn ([g] ++ [h]) (gs ++ hs) c :=
    (hfirst c hgs).append hm fun n hend =>
      hsecond _ fun hf => hfault (.append_right hm hend hf)
  exact (hboth fun hoff => hfault (hparts.1.faultsInTurn hoff.faultsInTurn)).trans hparts

/-- Branches that come to their ends one after another have no fault. -/
theorem not_faultsInTurn (hm : m.strategy = .depthFirst)
    (h : (m.observeInTurn n fs c).ending = .exhausted) : ¬ m.FaultsInTurn fs c := by
  rintro ⟨n', e, hend⟩
  rw [observeInTurn_eq hm] at h hend
  rcases Nat.le_total n n' with hle | hle
  · rw [exploreAll_of_le (by rw [h]; exact nofun) hle, h] at hend
    cases hend
  · rw [← exploreAll_of_le (by rw [hend]; exact nofun) hle, h] at hend
    cases hend

end LogicMachine.Machine
