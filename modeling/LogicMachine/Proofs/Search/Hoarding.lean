import LogicMachine.Proofs.Search.Memory
import LogicMachine.Proofs.Search.Pool

/-!
# A program that hoards choice points

No number of untried alternatives bounds how many choice points are held. The program shown here
never has more than two alternatives, answers again and again, and makes one of the two branches
fail by an instruction each time. Every round leaves a taken slot behind that the rest of the run is
linked through.
-/

namespace LogicMachine

open ChoicePoints

namespace Hoarding

/-- Leave two alternatives and answer. The first alternative to be taken fails by an instruction,
and the other one begins again. -/
def code : List Instr := [.choice 3, .choice 1, .success, .fail, .goto (-5)]

/-- The program at a place of its code. -/
def place (pc : Nat) : Continuation := (Frame.start [] code).cont.resumeAt pc

/-- A branch stands at a place of the program. The way down from it leads through the slots `saved`,
each with an alternative that was saved there to resume at some place, and then through the taken
slots `l`. There are no other alternatives. -/
structure Stands (cp : ChoicePoints) (f : Frame) (pc : Nat) (saved : List (Nat × Nat))
    (l : List Nat) : Prop where
  cont : f.cont = place pc
  chain : cp.Chain f.alt (saved.map (·.1) ++ l)
  alternatives : ∀ s ∈ saved, ∃ g, cp.savedIn s.1 = some g ∧ g.alt = some s.1 ∧ g.cont = place s.2
  held : cp.held.length = saved.length

variable {cp : ChoicePoints} {f : Frame} {pc p i : Nat} {saved : List (Nat × Nat)} {l : List Nat}

namespace Stands

/-- A sweep leaves the way down from the branch alone, with all that is saved on it. -/
theorem sweep (h : Stands cp f pc saved l) (hsound : cp.Sound f.alt) :
    Stands (cp.sweep (some f)) f pc saved l := by
  have hsound' : cp.Sound ((some f : Option Frame).bind (·.alt)) := hsound
  refine ⟨h.cont, h.chain.sweep ?_, fun s hs => ?_, ?_⟩
  · exact h.chain.mem_reachable (reachable_closed cp (some f)).1
  · rw [savedIn_sweep fun k g hg => hsound'.mem_reachable hg]
    exact h.alternatives s hs
  · rw [hsound'.sweep.2, h.held]

/-- A choice saves the place that it leads to. -/
theorem push (h : Stands cp f pc saved l) (hsound : cp.Sound f.alt) (p : Nat) :
    Stands (cp.push { f with cont := place (pc + 1) } p).2
      { f with alt := some cp.nextSlot, cont := place (pc + 1) } (pc + 1)
      ((cp.nextSlot, p) :: saved) l := by
  have hsound' : cp.Sound ({ f with cont := place (pc + 1) } : Frame).alt := hsound
  obtain ⟨-, hnone, -, -⟩ := hsound.nextSlot_spec
  obtain ⟨l', hl', hfree⟩ := hsound.used
  obtain rfl := h.chain.unique hl'
  refine ⟨rfl, hsound'.chain_push_top p h.chain hfree, ?_, ?_⟩
  · refine List.forall_mem_cons.mpr ⟨?_, fun s hs => ?_⟩
    · exact ⟨_, by rw [hsound'.savedIn_push, if_pos rfl], rfl, rfl⟩
    · obtain ⟨g, hg, hplace⟩ := h.alternatives s hs
      have hne : cp.nextSlot ≠ s.1 := by
        rintro heq
        rw [← heq, hnone] at hg
        cases hg
      exact ⟨g, by rw [hsound'.savedIn_push, if_neg hne, hg], hplace⟩
  · have hlength := (hsound'.push p).2.length_eq
    rw [List.length_cons, h.held] at hlength
    exact hlength

/-- Failing takes up the alternative in the slot on top. The slot stays linked. -/
theorem fail (h : Stands cp f pc ((i, p) :: saved) l) (hsound : cp.Sound f.alt) :
    ∃ g cp', cp.fail f = (some g, cp') ∧ g.alt = some i ∧ cp'.isUntried i = false ∧
      cp'.Chain (some i) (i :: (saved.map (·.1) ++ l)) ∧ g.cont = place p ∧
      (∀ s ∈ saved, ∃ g, cp'.savedIn s.1 = some g ∧ g.alt = some s.1 ∧ g.cont = place s.2) ∧
      cp'.held.length = saved.length := by
  obtain ⟨⟨g, hg, halt, hplace⟩, hrest⟩ := List.forall_mem_cons.mp h.alternatives
  have htop : f.alt = some i := by rw [← h.chain.head?_eq]; rfl
  have hinnermost : cp.innermost? f.alt = some i := by
    rw [h.chain.innermost?_eq, List.map_cons, List.cons_append,
      List.find?_cons_of_pos (isUntried_eq_true_iff.mpr ⟨g, hg⟩)]
  have hfail : cp.fail f = (some g, cp.clear i) := by
    rw [ChoicePoints.fail, hinnermost]
    exact Prod.ext hg rfl
  have hchain := h.chain.clear i
  rw [htop] at hchain
  refine ⟨g, _, hfail, halt, ?_, hchain, hplace, fun s hs => ?_, ?_⟩
  · rw [isUntried_clear, if_pos rfl]
  · have hne : i ≠ s.1 := fun heq => (List.nodup_cons.mp hchain.nodup).1
      (List.mem_append_left _ (List.mem_map.mpr ⟨s, hs, heq.symm⟩))
    rw [savedIn_clear, if_neg hne]
    exact hrest s hs
  · have hlength := (hsound.fail_some hfail).2.length_eq
    rw [h.held, List.length_cons, List.length_cons] at hlength
    omega

/-- As many choice points are held as there are slots on the way down. -/
theorem length_le_size (h : Stands cp f pc saved l) (hsound : cp.Sound f.alt) :
    saved.length + l.length ≤ cp.size := by
  obtain ⟨l', hl', hfree⟩ := hsound.used
  obtain rfl := h.chain.unique hl'
  have hle := h.chain.length_add_free_le hfree hsound.free_nodup fun _ => hsound.free_lt
  rw [List.length_append, List.length_map] at hle
  rw [size]
  omega

end Stands

/-- A search stands at a place of the program. -/
def At (st : Search) (pc : Nat) (saved : List (Nat × Nat)) (l : List Nat) : Prop :=
  ∃ f, st.frame = some f ∧ Stands st.shared.choices f pc saved l ∧ st.shared.choices.Sound f.alt

/-! ### The steps of a round -/

variable {st : Search} {offset : Int}

/-- A step that leads to a place, swept or not. -/
theorem At.of_respond {f f' : Frame} {request : Request} {b : Branch} (hf : st.frame = some f)
    (hrun : Branch.run {} ⟨f, st.shared, []⟩ = (request, b)) {cp' : ChoicePoints}
    (hrespond : ({} : Machine).respond b.frame b.shared.choices request = (some f', cp'))
    (h : Stands cp' f' pc saved l) (hsound : cp'.Sound f'.alt) :
    At (({} : Machine).step st).search pc saved l := by
  obtain ⟨hframe, hchoices⟩ := Machine.step_of_request hf hrun
  rw [hrespond] at hframe hchoices
  have hroot : cp'.Sound ((some f' : Option Frame).bind (·.alt)) := hsound
  refine ⟨f', hframe, ?_⟩
  simp only at hchoices
  split at hchoices <;> rw [hchoices]
  · exact ⟨h.sweep hsound, hroot.sweep.1⟩
  · exact ⟨h, hsound⟩

/-- A choice saves one more alternative, in front of the others. -/
theorem At.choice (h : At st pc saved l)
    (hcur : (place pc).running.current? = some (.choice offset))
    (htarget : (place (pc + 1)).target offset = .ok p) :
    ∃ i, At (({} : Machine).step st).search (pc + 1) ((i, p) :: saved) l := by
  obtain ⟨f, hf, hstands, hsound⟩ := h
  have hfork : Branch.fork? ⟨f, st.shared, []⟩ = some (place (pc + 1), p) := by
    simp only [Branch.fork?, hstands.cont, hcur]
    exact congrArg (fun r : Except ProgramError Nat => r.toOption.map (place (pc + 1), ·)) htarget
  rcases Branch.run_cases {} ⟨f, st.shared, []⟩ with
    ⟨cont, p', reports, hfork', hrun, -⟩ | ⟨request, b', hnone, -⟩
  · obtain ⟨rfl, rfl⟩ := Prod.mk.inj (Option.some.inj (hfork.symm.trans hfork'))
    exact ⟨_, At.of_respond hf hrun rfl (hstands.push hsound p)
      (ChoicePoints.Sound.push (f := { f with cont := place (pc + 1) }) hsound p).1⟩
  · rw [hfork] at hnone
    cases hnone

/-- After the answer the alternative saved last runs, past its own slot. -/
theorem At.answer {j r : Nat} (h : At st 2 ((i, p) :: (j, r) :: saved) l) :
    At (({} : Machine).step st).search p ((j, r) :: saved) l := by
  obtain ⟨⟨alt, subst, store, cont⟩, hf, hstands, hsound⟩ := h
  obtain ⟨g, cp', hfail, halt, htaken, hchain, hplace, hrest, hheld⟩ := hstands.fail hsound
  have hcont := hstands.cont
  simp only at hcont
  subst hcont
  have huntried : cp'.isUntried j = true := by
    obtain ⟨g', hg', -⟩ := hrest (j, r) List.mem_cons_self
    exact isUntried_eq_true_iff.mpr ⟨g', hg'⟩
  have hinnermost : cp'.innermost? g.alt = some j := by
    rw [halt, hchain.innermost?_eq, List.find?_cons_of_neg (by simp [htaken]), List.map_cons,
      List.cons_append, List.find?_cons_of_pos huntried]
  have hnext := (hsound.fail_some hfail).1.prune
  rw [hinnermost] at hnext
  have hfail' : st.shared.choices.fail ⟨alt, subst, store, place 3⟩ = (some g, cp') :=
    (fail_congr _ rfl).trans hfail
  have hrespond : ({} : Machine).nextBranch ⟨alt, subst, store, place 3⟩ true st.shared.choices =
      (some { g with alt := some j }, cp') := by
    rw [Machine.nextBranch_of_some hfail']
    simp only [if_true, delay, hinnermost]
  exact At.of_respond hf rfl hrespond
    ⟨hplace, Chain.drop (l := j :: (saved.map (·.1) ++ l))
      (show cp'.Chain _ ([i] ++ _) from hchain), hrest, hheld⟩ hnext

/-- After the instruction to fail the other alternative runs, on top of its own slot. -/
theorem At.fail (h : At st 3 [(i, p)] l) : At (({} : Machine).step st).search p [] (i :: l) := by
  obtain ⟨⟨alt, subst, store, cont⟩, hf, hstands, hsound⟩ := h
  obtain ⟨g, cp', hfail, halt, -, hchain, hplace, hrest, hheld⟩ := hstands.fail hsound
  have hcont := hstands.cont
  simp only at hcont
  subst hcont
  have hrespond : ({} : Machine).nextBranch ⟨alt, subst, store, place 4⟩ false st.shared.choices =
      (some g, cp') :=
    Machine.nextBranch_of_some (m := {}) ((fail_congr _ rfl).trans hfail) false
  exact At.of_respond hf rfl hrespond ⟨hplace, halt ▸ hchain, hrest, hheld⟩
    (hsound.fail_some hfail).1

/-- Behind the jump back the program begins again, on the same taken slots. -/
theorem At.goto (h : At st 4 [] l) : At (({} : Machine).step st).search 0 [] l := by
  obtain ⟨⟨alt, subst, store, cont⟩, hf, hstands, hsound⟩ := h
  have hcont := hstands.cont
  simp only at hcont
  subst hcont
  have hjumped : Stands st.shared.choices ⟨alt, subst, store, place 0⟩ 0 [] l :=
    ⟨rfl, hstands.chain, hstands.alternatives, hstands.held⟩
  exact At.of_respond hf rfl rfl hjumped hsound

/-! ### All rounds -/

/-- The query that runs the program. -/
def query : Query := .ofCode 0 code

/-- The search after some steps of the program. -/
def after (n : Nat) : Search := ({} : Machine).after n (.start query)

/-- As long as at most two alternatives are saved, no more than two were ever held. -/
theorem mostHeld_succ_le {n : Nat} (hmost : ({} : Machine).mostHeld query n ≤ 2)
    (h : At (after (n + 1)) pc saved l) (hsaved : saved.length ≤ 2) :
    ({} : Machine).mostHeld query (n + 1) ≤ 2 := by
  obtain ⟨f, -, hstands, -⟩ := h
  have hheld := hstands.held
  rw [Machine.mostHeld]
  exact Nat.max_le.mpr ⟨hmost, hheld.trans_le hsaved⟩

/-- From the beginning of a round to its answer, and on to the next round. -/
theorem round {n : Nat} (h : At (after n) 0 [] l) (hmost : ({} : Machine).mostHeld query n ≤ 2) :
    (∃ i j, At (after (n + 2)) 2 [(i, 3), (j, 4)] l ∧ At (after (n + 3)) 3 [(j, 4)] l) ∧
      ({} : Machine).mostHeld query (n + 3) ≤ 2 ∧
      (∃ j, At (after (n + 5)) 0 [] (j :: l)) ∧ ({} : Machine).mostHeld query (n + 5) ≤ 2 := by
  obtain ⟨j, h₁⟩ : ∃ j, At (after (n + 1)) 1 [(j, 4)] l := h.choice rfl rfl
  obtain ⟨i, h₂⟩ : ∃ i, At (after (n + 2)) 2 [(i, 3), (j, 4)] l := h₁.choice rfl rfl
  have h₃ : At (after (n + 3)) 3 [(j, 4)] l := h₂.answer
  have h₄ : At (after (n + 4)) 4 [] (j :: l) := h₃.fail
  have h₅ : At (after (n + 5)) 0 [] (j :: l) := h₄.goto
  have hmost₃ := mostHeld_succ_le (mostHeld_succ_le (mostHeld_succ_le hmost h₁ (by simp)) h₂
    (by simp)) h₃ (by simp)
  exact ⟨⟨i, j, h₂, h₃⟩, hmost₃, ⟨j, h₅⟩,
    mostHeld_succ_le (mostHeld_succ_le hmost₃ h₄ (by simp)) h₅ (by simp)⟩

/-- The program starts at its beginning, without a choice point. -/
theorem at_start : At (after 0) 0 [] [] :=
  ⟨_, rfl, ⟨rfl, .nil, nofun, rfl⟩, sound_empty⟩

/-- Each round leaves one more slot on the way down. -/
theorem at_round (k : Nat) : (∃ l, l.length = k ∧ At (after (5 * k)) 0 [] l) ∧
    ({} : Machine).mostHeld query (5 * k) ≤ 2 := by
  induction k with
  | zero => exact ⟨⟨[], rfl, at_start⟩, Nat.zero_le _⟩
  | succ k ih =>
    obtain ⟨⟨l, rfl, h⟩, hmost⟩ := ih
    obtain ⟨-, -, ⟨j, hnext⟩, hmostNext⟩ := round h hmost
    exact ⟨⟨_, rfl, hnext⟩, hmostNext⟩

/-- After the answer of a round more choice points are held than rounds are over, though there never
were more than two untried alternatives. -/
theorem lt_choicePoints (k : Nat) :
    (∃ s, (({} : Machine).step (after (5 * k + 2))).result = .ok (some s)) ∧
      ({} : Machine).mostHeld query (5 * k + 3) ≤ 2 ∧ k < (after (5 * k + 3)).choicePoints := by
  obtain ⟨⟨l, rfl, h⟩, hmost⟩ := at_round k
  obtain ⟨⟨i, j, hbefore, hafter⟩, hmostAnswer, -⟩ := round h hmost
  refine ⟨?_, hmostAnswer, ?_⟩
  · obtain ⟨⟨alt, subst, store, cont⟩, hf, hstands, -⟩ := hbefore
    have hcont := hstands.cont
    simp only at hcont
    subst hcont
    exact ⟨_, (Machine.step_result {} hf).1⟩
  · obtain ⟨f, hf, hstands, hsound⟩ := hafter
    have hsize := hstands.length_le_size hsound
    rw [List.length_singleton] at hsize
    rw [Search.choicePoints]
    omega

end Hoarding

namespace Machine

/-- The number of choice points held is not bounded in terms of how many alternatives were ever
untried at once, not even right after an answer. -/
theorem choicePoints_unbounded (bound : Nat → Nat) : ∃ (m : Machine) (q : Query) (n : Nat),
    (∃ s, (m.step (m.after n (.start q))).result = .ok (some s)) ∧
      bound (m.mostHeld q (n + 1)) < (m.after (n + 1) (.start q)).choicePoints := by
  let k := max (bound 0) (max (bound 1) (bound 2))
  obtain ⟨hanswer, hmost, hlt⟩ := Hoarding.lt_choicePoints k
  refine ⟨{}, Hoarding.query, 5 * k + 2, hanswer, lt_of_le_of_lt ?_ hlt⟩
  have hcases : ∀ held ≤ 2, bound held ≤ k := by
    intro held hheld
    obtain rfl | rfl | rfl : held = 0 ∨ held = 1 ∨ held = 2 := by omega
    all_goals simp [k]
  exact hcases _ hmost

/-- In the end the program holds more than twice as many choice points as it ever had alternatives,
and the slack. -/
theorem choicePoints_exceed_held :
    (∃ s, (({} : Machine).step (Hoarding.after 352)).result = .ok (some s)) ∧
      2 * (({} : Machine).mostHeld Hoarding.query 353 + 1) + slack <
        (Hoarding.after 353).choicePoints := by
  have hround := Hoarding.lt_choicePoints 70
  simp only [Nat.reduceMul, Nat.reduceAdd] at hround
  obtain ⟨hanswer, hmost, hlt⟩ := hround
  have hslack : slack = 64 := rfl
  exact ⟨hanswer, by omega⟩

end Machine

end LogicMachine
