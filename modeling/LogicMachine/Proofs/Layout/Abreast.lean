import LogicMachine.Proofs.Search.Exploration

/-!
# Explorations abreast

Two lists of branches are explored abreast if their branches have the same news pair by pair, where
either list may have instructions in between that only move a branch or split it. How many
instructions there are does not count: each list shows sooner or later what the other one shows.
-/

namespace LogicMachine

/-- The outcome is no news: the branch goes on, or it splits. -/
inductive Outcome.Quiet : Outcome → Prop
  | go (f : Frame) : Quiet (.go f)
  | split (f g : Frame) : Quiet (.split f g)

/-- One more instruction without news. -/
theorem Exploration.sameAs_after_of_quiet {o : Outcome} (ho : o.Quiet) (e : Exploration) :
    (e.after o).SameAs e := by
  cases ho <;> exact ⟨rfl, rfl, rfl⟩

/-- A fault would be news. -/
theorem Outcome.Quiet.no_fault {o : Outcome} (h : o.Quiet) (e : ProgramError) : o ≠ .fault e := by
  cases h <;> exact nofun

namespace Machine

variable {m : Machine} {W : Frame → Frame → Prop} {f g : Frame} {L R : List Frame} {c : Counters}

/-- Branches pair by pair, apart from instructions that are no news. -/
inductive Abreast (m : Machine) (W : Frame → Frame → Prop) : List Frame → List Frame → Prop
  | nil : Abreast m W [] []
  | cons {f g : Frame} {L R : List Frame} (h : W f g) (hrest : Abreast m W L R) :
      Abreast m W (f :: L) (g :: R)
  | left {f : Frame} {L R : List Frame} {o : Outcome} (hf : ∀ c, m.advance f c = (o, c))
      (ho : o.Quiet) (h : Abreast m W (o.children ++ L) R) : Abreast m W (f :: L) R
  | right {g : Frame} {L R : List Frame} {o : Outcome} (hg : ∀ c, m.advance g c = (o, c))
      (ho : o.Quiet) (h : Abreast m W L (o.children ++ R)) : Abreast m W L (g :: R)

/-- Which list comes first makes no difference. -/
theorem Abreast.symm (h : m.Abreast W L R) : m.Abreast (flip W) R L := by
  induction h with
  | nil => exact .nil
  | cons h _ ih => exact .cons h ih
  | left hf ho _ ih => exact .right hf ho ih
  | right hg ho _ ih => exact .left hg ho ih

/-- One of two such lists is over if the other one is. -/
theorem Abreast.eq_nil_iff (h : m.Abreast W L R) : L = [] ↔ R = [] := by
  induction h with
  | nil => simp
  | cons => simp
  | left _ ho _ ih => cases ho <;> simp_all [Outcome.children]
  | right _ ho _ ih => cases ho <;> simp_all [Outcome.children]

/-- Two outcomes with the same news, after which the branches are abreast again. -/
inductive AbreastAfter (m : Machine) (W : Frame → Frame → Prop) (o o' : Outcome) : Prop
  | fault (e : ProgramError) (h : o = .fault e) (h' : o' = .fault e)
  | news (h : ∀ e, o ≠ .fault e) (h' : ∀ e, o' ≠ .fault e) (hnews : o.solution? = o'.solution?)
      (hrest : ∀ {L R}, m.Abreast W L R → m.Abreast W (o.children ++ L) (o'.children ++ R))

/-- Branches that belong together have the same news, unless a fault comes up that `off` or `off'`
describes, depending on the side. -/
def KeepsAbreast (m : Machine) (W : Frame → Frame → Prop) (off off' : ProgramError → Prop) : Prop :=
  ∀ f g, W f g → ∀ c,
    (∃ e, off e ∧ (m.advance f c).1 = .fault e) ∨ (∃ e, off' e ∧ (m.advance g c).1 = .fault e) ∨
      m.AbreastAfter W (m.advance f c).1 (m.advance g c).1 ∧
        (m.advance f c).2 = (m.advance g c).2

variable {off off' : ProgramError → Prop}

/-- Nor does it to what each instruction keeps. -/
theorem KeepsAbreast.symm (h : m.KeepsAbreast W off off') :
    m.KeepsAbreast (flip W) off' off := by
  intro f g hfg c
  rcases h g f hfg c with hoff | hoff | ⟨hafter, hcounters⟩
  · exact .inr (.inl hoff)
  · exact .inl hoff
  · refine .inr (.inr ⟨?_, hcounters.symm⟩)
    cases hafter with
    | fault e h h' => exact .fault e h' h
    | news h h' hnews hrest =>
      exact .news h' h hnews.symm fun hLR => (hrest hLR.symm).symm

/-- What the one list shows within `n` instructions, the other one shows within some number of them,
unless one of the two ends in such a fault. -/
theorem Abreast.shows (hW : m.KeepsAbreast W off off') (n : Nat) (h : m.Abreast W L R)
    (c : Counters) : ∃ n', (m.exploreAll n L c).SameAs (m.exploreAll n' R c) ∨
      (∃ e, off e ∧ (m.exploreAll n L c).ending = .fault e) ∨
      ∃ e, off' e ∧ (m.exploreAll n' R c).ending = .fault e := by
  -- induction on the number of instructions, and within it on how the lists are abreast: a pair in
  -- step uses up one instruction of each, a silent branch only one of its own list
  induction n generalizing L R c with
  | zero =>
    have hnil := h.eq_nil_iff
    refine ⟨0, .inl ?_⟩
    cases L with
    | nil => rw [hnil.mp rfl]; exact .refl _
    | cons f L =>
      cases R with
      | nil => exact absurd (hnil.mpr rfl) (List.cons_ne_nil _ _)
      | cons g R =>
        rw [exploreAll_zero, exploreAll_zero]
        exact .refl _
  | succ n ihn =>
    induction h generalizing c with
    | nil => exact ⟨0, .inl (.refl _)⟩
    | @cons f g L R hfg hrest =>
      have hstep := hW f g hfg c
      rcases hf : m.advance f c with ⟨o, c₁⟩
      rcases hg : m.advance g c with ⟨o', c₂⟩
      rw [hf, hg] at hstep
      rcases hstep with ⟨e, he, hfault⟩ | ⟨e, he, hfault⟩ | ⟨hafter, hcounters⟩
      · obtain rfl : o = .fault e := hfault
        exact ⟨0, .inr (.inl ⟨e, he, by rw [m.exploreAll_fault n L hf]⟩)⟩
      · obtain rfl : o' = .fault e := hfault
        exact ⟨1, .inr (.inr ⟨e, he, by rw [m.exploreAll_fault 0 R hg]⟩)⟩
      · obtain rfl : c₁ = c₂ := hcounters
        cases hafter with
        | fault e h h' =>
          obtain rfl : o = .fault e := h
          obtain rfl : o' = .fault e := h'
          refine ⟨1, .inl ?_⟩
          rw [m.exploreAll_fault n L hf, m.exploreAll_fault 0 R hg]
          exact .refl _
        | news h h' hnews hchildren =>
          obtain ⟨n', hn'⟩ := ihn (hchildren hrest) c₁
          refine ⟨n' + 1, ?_⟩
          rw [m.exploreAll_succ n L hf h, m.exploreAll_succ n' R hg h']
          exact hn'.imp_left fun hsame => hsame.after hnews
    | @left f L R o hf ho hrest _ =>
      obtain ⟨n', hn'⟩ := ihn hrest c
      refine ⟨n', ?_⟩
      rw [m.exploreAll_succ n L (hf c) ho.no_fault]
      exact hn'.imp_left (Exploration.sameAs_after_of_quiet ho _).trans
    | @right g L R o hg ho _ ih =>
      obtain ⟨n', hn'⟩ := ih c
      refine ⟨n' + 1, ?_⟩
      rw [m.exploreAll_succ n' R (hg c) ho.no_fault]
      exact hn'.imp_left fun hsame => hsame.trans (Exploration.sameAs_after_of_quiet ho _).symm

end Machine

end LogicMachine
