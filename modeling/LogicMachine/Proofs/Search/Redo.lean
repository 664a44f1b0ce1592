import LogicMachine.Proofs.ChoicePoints.Links
import LogicMachine.Proofs.Search.Requests
import LogicMachine.Proofs.Search.Suspended

/-!
# When resuming is reported

A debugger is told when execution goes on from a choice point. It is told so whenever a branch has
ended and another one runs in its place. It is not told when a re-entrant call changes places with
the alternatives, although then too the branch that runs next comes out of a slot.
-/

namespace LogicMachine

/-! ### What instructions report -/

namespace Branch

variable {m : Machine} {b : Branch} {g : Frame}

/-- A note is no event. -/
@[simp] theorem redo_mem_note {n : Note} :
    .event .redo g ∈ (b.note n).reports ↔ .event .redo g ∈ b.reports := by
  simp [note]

/-- Another event does not say that execution goes on from a choice point. -/
@[simp] theorem redo_mem_event {e : Event} (he : e ≠ .redo) :
    .event .redo g ∈ (b.event e).reports ↔ .event .redo g ∈ b.reports := by
  simp [event, he.symm]

/-- Nor does the scheduling of a body. -/
theorem redo_mem_schedule {f : Firing} :
    .event .redo g ∈ (b.schedule f).reports ↔ .event .redo g ∈ b.reports :=
  redo_mem_event (by decide)

/-- What does not report it once does not report it when repeated. -/
theorem redo_mem_foldl {α : Type} {op : Branch → α → Branch}
    (hop : ∀ b x, .event .redo g ∈ (op b x).reports ↔ .event .redo g ∈ b.reports) (xs : List α) :
    .event .redo g ∈ (xs.foldl op b).reports ↔ .event .redo g ∈ b.reports := by
  induction xs generalizing b with
  | nil => rfl
  | cons x xs ih => exact ih.trans (hop b x)

/-- A pass does not report it, whatever fires. -/
@[simp] theorem redo_mem_fire {c : Constraint} :
    .event .redo g ∈ (b.fire m c).2.reports ↔ .event .redo g ∈ b.reports := by
  simp only [fire]
  split
  · exact redo_mem_foldl (fun _ _ => redo_mem_note) _
  · exact (redo_mem_foldl (fun _ _ => redo_mem_schedule) _).trans
      (redo_mem_foldl (fun _ _ => redo_mem_note) _)

/-- Several passes do not report it. -/
@[simp] theorem redo_mem_fireAll {cs : List Constraint} :
    .event .redo g ∈ (b.fireAll m cs).2.reports ↔ .event .redo g ∈ b.reports := by
  induction cs generalizing b with
  | nil => rfl
  | cons c cs ih =>
    have hfired := redo_mem_fire (m := m) (b := b) (g := g) (c := c)
    rw [fireAll]
    split
    · rcases hfire : b.fire m c with ⟨_ | e, b'⟩ <;> rw [hfire] at hfired
      · exact ih.trans hfired
      · exact hfired
    · exact ih

/-- Nor is it reported whether the passes have come to a fault. -/
@[simp] theorem redo_mem_unlessFault {r : Option ProgramError × Branch} :
    .event .redo g ∈ (unlessFault r).2.reports ↔ .event .redo g ∈ r.2.reports := by
  rcases r with ⟨_ | e, b⟩ <;> rfl

/-- No instruction reports it while it is carried out. -/
theorem redo_mem_execute {instr : Instr} :
    .event .redo g ∈ (b.execute m instr).2.reports ↔ .event .redo g ∈ b.reports := by
  cases instr with
  | invoke name args =>
    have hcalled : ∀ cont, .event .redo g ∈ ((b.setCont cont).event .call).reports ↔
        .event .redo g ∈ b.reports := fun _ => redo_mem_event (by decide)
    simp only [execute, invoke]
    repeat' split
    · rfl
    · rfl
    · rfl
    · exact redo_mem_note.trans (hcalled _)
    · exact hcalled _
  | constraint name args =>
    simp only [execute, post]
    split
    · rfl
    · simp only [redo_mem_unlessFault, redo_mem_fire, redo_mem_note]
      rfl
  | goto offset =>
    simp only [execute, goto]
    split <;> rfl
  | choice offset =>
    simp only [execute, choice]
    split
    · rfl
    · exact redo_mem_note
  | fresh n => rfl
  | unify x y =>
    simp only [execute, unify]
    repeat' split
    · rfl
    · rfl
    · exact redo_mem_note
    · simp only [redo_mem_unlessFault, redo_mem_fireAll]
      exact redo_mem_event (by decide)
  | success =>
    have hexited : .event .redo g ∈ (b.event .exit).reports ↔ .event .redo g ∈ b.reports :=
      redo_mem_event (by decide)
    simp only [execute, success]
    split <;> exact hexited
  | fail => rfl

/-- No instruction reports by itself that execution goes on from a choice point. -/
theorem redo_mem_run : .event .redo g ∈ (b.run m).2.reports ↔ .event .redo g ∈ b.reports := by
  simp only [run]
  split
  · rfl
  · exact redo_mem_execute.trans redo_mem_note

end Branch

/-! ### What comes out of the slots -/

namespace ChoicePoints

variable {cp cp' : ChoicePoints} {f g : Frame}

/-- A branch that fails takes up an alternative from its slot, and puts none into any. -/
theorem savedIn_of_fail (hfail : cp.fail f = (some g, cp')) :
    (∃ i, cp.savedIn i = some g) ∧ ∀ j h, cp'.savedIn j = some h → cp.savedIn j = some h := by
  unfold fail at hfail
  cases hi : cp.innermost? f.alt with
  | none => simp [hi] at hfail
  | some i =>
    rw [hi] at hfail
    obtain ⟨hg, rfl⟩ := Prod.mk.inj hfail
    refine ⟨⟨i, hg⟩, fun j h hj => ?_⟩
    rw [savedIn_clear] at hj
    split at hj
    · cases hj
    · exact hj

/-- What comes out at the end of a rotation was saved in the outermost slot. -/
theorem Sound.rotate_getLast (h : cp.Sound f.alt) {is : List Nat} (his : is <:+ cp.untried f.alt)
    (hne : is ≠ []) : cp.savedIn (is.getLast hne) = some (cp.rotate f is).1 ∧
      .taken (cp.rotate f is).1 ∈ cp.rotating f is := by
  induction is generalizing cp f with
  | nil => exact absurd rfl hne
  | cons i rest ih =>
    obtain ⟨l, hl, -⟩ := h.used
    have hnodup : (i :: rest).Nodup := by
      rw [hl.untried_eq] at his
      exact (hl.nodup.filter _).sublist his.sublist
    obtain ⟨g, cp', hg, hrotate, hcp', hsound, -, hrest⟩ := h.rotate_cons his
    have hjournal : cp.rotating f (i :: rest) = .taken g :: .saved f :: cp'.rotating g rest := by
      simp only [rotating, hg, hcp']
    rw [hrotate, hjournal]
    by_cases hnil : rest = []
    · subst hnil
      exact ⟨hg, List.mem_cons_self⟩
    · obtain ⟨hsaved, hmem⟩ := ih hsound hrest hnil
      refine ⟨?_, List.mem_cons_of_mem _ (List.mem_cons_of_mem _ hmem)⟩
      -- the slots further out are as they were before the first exchange
      have hlast : i ≠ rest.getLast hnil := fun hi =>
        (List.nodup_cons.mp hnodup).1 (hi ▸ List.getLast_mem hnil)
      rw [List.getLast_cons hnil, ← hsaved, hcp', savedIn, savedIn,
        Array.getElem?_setIfInBounds_ne hlast]

/-- A branch that is delayed goes on itself, or in its place a branch that was saved. -/
theorem Sound.delay_cases (h : cp.Sound f.alt) (strategy : Strategy) :
    (strategy = .interleaved ∧ 0 < cp.pending f ∧
        ∃ i, cp.savedIn i = some (cp.delay strategy f).1 ∧
          .taken (cp.delay strategy f).1 ∈ cp.delaying strategy f) ∨
      ¬ (strategy = .interleaved ∧ 0 < cp.pending f) ∧ cp.delaying strategy f = [] ∧
        (cp.delay strategy f).1 = { f with alt := cp.innermost? f.alt } := by
  cases strategy with
  | depthFirst => exact .inr ⟨by simp, rfl, rfl⟩
  | interleaved =>
    by_cases hnil : cp.untried f.alt = []
    · refine .inr ⟨by simp [pending, hnil], ?_, ?_⟩
      · rw [delaying, hnil, rotating]
      · rw [ChoicePoints.delay, hnil, ChoicePoints.rotate]
    · exact .inl ⟨rfl, List.length_pos_iff.mpr hnil, _,
        Sound.rotate_getLast (f := { f with alt := cp.innermost? f.alt }) h.prune h.suffix_untried
          hnil⟩

/-- The branch that is next after another one has ended was saved in a slot. -/
theorem Sound.nextBranch_taken (h : cp.Sound f.alt) {m : Machine} {rotates : Bool}
    (hnext : (m.nextBranch f rotates cp).1 = some g) :
    ∃ i g' alt, cp.savedIn i = some g' ∧ .taken g' ∈ m.leaving f rotates cp ∧
      g = { g' with alt } := by
  rcases hfail : cp.fail f with ⟨_ | g', cp'⟩
  · rw [Machine.nextBranch_of_none hfail] at hnext
    cases hnext
  · obtain ⟨⟨i, hi⟩, hsaved⟩ := savedIn_of_fail hfail
    have htaken : .taken g' ∈ m.leaving f rotates cp := by
      simp [Machine.leaving, failing, hfail]
    rw [Machine.nextBranch_of_some hfail] at hnext
    cases rotates with
    | false =>
      obtain rfl := Option.some.inj hnext
      exact ⟨i, _, _, hi, htaken, rfl⟩
    | true =>
      obtain rfl := Option.some.inj hnext
      rcases (h.fail_some hfail).1.delay_cases m.strategy with
        ⟨-, -, j, hj, hmem⟩ | ⟨-, -, hdelay⟩
      · refine ⟨j, _, _, hsaved j _ hj, ?_, rfl⟩
        simp only [Machine.leaving, hfail]
        exact List.mem_append_right _ hmem
      · exact ⟨i, g', _, hi, htaken, hdelay⟩

end ChoicePoints

/-! ### What a step reports, and what it resumes -/

namespace Machine

/-- The branch that a step leaves running was saved in a slot before the step, and the step has
taken it up. At most its link has changed. -/
def Resumes (m : Machine) (st : Search) : Prop :=
  ∃ i g alt, st.shared.choices.savedIn i = some g ∧ .taken g ∈ m.suspendingNext st ∧
    (m.step st).search.frame = some { g with alt }

variable {m : Machine} {st : Search} {f g : Frame} {b b' : Branch} {request : Request}

/-- When the search goes on with another branch, it reports the branch that it resumes. -/
theorem redo_mem_resumption {shared : Shared} {next : Option Frame} :
    .event .redo g ∈ Search.resumption shared next ↔ next = some g := by
  cases next <;> simp [Search.resumption, eq_comm]

/-- A move reports what the instruction has reported and, if a branch is given up, the one that is
resumed in its place. -/
theorem redo_mem_move (hrun : b.run m = (request, b')) (solutions : Nat) :
    .event .redo g ∈ (m.move b solutions).1.reports ↔ .event .redo g ∈ b'.reports ∨
      request.backtracks = true ∧
        (m.respond b'.frame b'.shared.choices request).1 = some g := by
  have hbacktrack : ∀ {c : Branch} {rotates : Bool} {n : Nat},
      .event .redo g ∈ (m.backtrack c rotates n).2 ↔ .event .redo g ∈ c.reports ∨
        (m.nextBranch c.frame rotates c.shared.choices).1 = some g := by
    intro c rotates n
    rw [backtrack, List.mem_append, redo_mem_resumption]
    rfl
  have hfailed := b'.redo_mem_event (g := g) (e := .fail) (by decide)
  cases request with
  | proceed | delay => simp [move, hrun, Request.backtracks]
  | fail | failAndDelay =>
    simp only [move, hrun, hbacktrack, hfailed, Request.backtracks, true_and]
    rfl
  | answer s =>
    simp only [move, hrun, hbacktrack, Branch.redo_mem_note, Request.backtracks, true_and]
    rfl
  | abort e =>
    have haborted := (b'.note (.aborted e)).redo_mem_event (g := g) (e := .exception) (by decide)
    simp only [move, hrun, haborted, Branch.redo_mem_note]
    simp [Request.backtracks]

/-- What is reported to have been resumed is the next branch after one that was given up. -/
theorem redo_mem_step (hf : st.frame = some f)
    (hrun : Branch.run m ⟨f, st.shared, []⟩ = (request, b)) :
    .event .redo g ∈ (m.step st).reports ↔
      request.backtracks = true ∧ (m.step st).search.frame = some g := by
  have hmove := redo_mem_move (g := g) hrun st.solutions
  have hran : .event .redo g ∉ b.reports := by
    have hnone := Branch.redo_mem_run (m := m) (b := ⟨f, st.shared, []⟩) (g := g)
    rw [hrun] at hnone
    simp [hnone]
  rw [(step_of_request hf hrun).1]
  simp only [hran, false_or] at hmove
  rw [← hmove]
  simp only [step, hf]
  split
  · next heq => rw [heq]
  · next heq =>
    rw [heq, List.mem_append, or_iff_left]
    simp only [Search.reclaim]
    split <;> simp

/-- A branch that is given up is left in one of the two ways, with the others having their turn
first or without. -/
theorem leaving_of_backtracks (hf : st.frame = some f)
    (hrun : Branch.run m ⟨f, st.shared, []⟩ = (request, b)) (hback : request.backtracks = true) :
    ∃ rotates, m.suspendingNext st = m.leaving f rotates st.shared.choices ∧
      (m.step st).search.frame = (m.nextBranch f rotates st.shared.choices).1 := by
  rcases Branch.run_cases m ⟨f, st.shared, []⟩ with
    ⟨cont, pc, reports, -, hrun', -⟩ | ⟨request', b', hfork, hrun', halt, hcp, -⟩
  · obtain ⟨rfl, -⟩ := Prod.mk.inj (hrun.symm.trans hrun')
    cases hback
  · obtain ⟨rfl, rfl⟩ := Prod.mk.inj (hrun.symm.trans hrun')
    have hleave := fun rotates => m.nextBranch_congr rotates st.shared.choices halt
    have hframe := (step_of_request hf hrun).1
    rw [hcp] at hframe
    cases request with
    | fail =>
      refine ⟨false, ?_, by rw [hframe, respond, (hleave false).1]⟩
      simp only [suspendingNext, hf, suspending, hfork, hrun, hcp, (hleave false).2]
    | failAndDelay | answer s =>
      refine ⟨true, ?_, by rw [hframe, respond, (hleave true).1]⟩
      simp only [suspendingNext, hf, suspending, hfork, hrun, hcp, (hleave true).2]
    | proceed | delay | abort e => cases hback

/-- After a branch has been given up, whatever branch is next has been resumed. -/
theorem resumes_iff_of_backtracks (hsound : st.shared.choices.Sound f.alt) (hf : st.frame = some f)
    (hrun : Branch.run m ⟨f, st.shared, []⟩ = (request, b)) (hback : request.backtracks = true) :
    m.Resumes st ↔ (m.step st).search.frame.isSome = true := by
  obtain ⟨rotates, hjournal, hframe⟩ := leaving_of_backtracks hf hrun hback
  constructor
  · rintro ⟨i, g, alt, -, -, hg⟩
    rw [hg]
    rfl
  · intro hsome
    obtain ⟨g, hg⟩ := Option.isSome_iff_exists.mp hsome
    obtain ⟨i, g', alt, hi, hmem, rfl⟩ := hsound.nextBranch_taken (hframe.symm.trans hg)
    exact ⟨i, g', alt, hi, hjournal ▸ hmem, hg⟩

/-- A branch that waits makes way for one that is resumed if there is any. -/
theorem resumes_iff_of_delay (hsound : st.shared.choices.Sound f.alt) (hf : st.frame = some f)
    (hrun : Branch.run m ⟨f, st.shared, []⟩ = (.delay, b)) : m.Resumes st ↔ 0 < st.pending := by
  have hstrategy : m.strategy = .interleaved :=
    (reenters_of_delay (b := ⟨f, st.shared, []⟩) hrun).1
  rcases Branch.run_cases m ⟨f, st.shared, []⟩ with
    ⟨cont, pc, reports, -, hrun', -⟩ | ⟨request', b', hfork, hrun', halt, hcp, -⟩
  · cases (Prod.mk.inj (hrun.symm.trans hrun')).1
  · obtain ⟨rfl, rfl⟩ := Prod.mk.inj (hrun.symm.trans hrun')
    have hframe := (step_of_request hf hrun).1
    have hjournal : m.suspendingNext st = st.shared.choices.delaying m.strategy b.frame := by
      simp only [suspendingNext, hf, suspending, hfork, hrun, hcp]
    have hpending : st.shared.choices.pending b.frame = st.pending := by
      simp only [Search.pending, hf, ChoicePoints.pending, halt]
      rfl
    rw [respond, hcp] at hframe
    have hsound' : st.shared.choices.Sound b.frame.alt := by rwa [halt]
    rw [← hpending]
    rcases hsound'.delay_cases m.strategy with
      ⟨-, hpos, i, hi, hmem⟩ | ⟨hno, hnil, -⟩
    · exact iff_of_true ⟨i, _, _, hi, hjournal ▸ hmem, hframe⟩ hpos
    · refine iff_of_false ?_ fun hpos => hno ⟨hstrategy, hpos⟩
      rintro ⟨i, g, alt, -, hmem, -⟩
      rw [hjournal, hnil] at hmem
      cases hmem

/-- A branch that goes on is not resumed. -/
theorem not_resumes (hf : st.frame = some f)
    (hrun : Branch.run m ⟨f, st.shared, []⟩ = (request, b)) (hturn : request.endsTurn = false) :
    ¬ m.Resumes st := by
  rintro ⟨i, g, alt, -, hmem, -⟩
  rcases Branch.run_cases m ⟨f, st.shared, []⟩ with
    ⟨cont, pc, reports, hfork, -⟩ | ⟨request', b', hfork, -⟩
  · simp [suspendingNext, hf, suspending, hfork] at hmem
  · cases request with
    | proceed | abort e => simp [suspendingNext, hf, suspending, hfork, hrun] at hmem
    | fail | failAndDelay | answer s | delay => cases hturn

/-- Is the running branch about to wait for the others in a re-entrant call? -/
def Waits (m : Machine) (st : Search) : Prop := ∃ f, st.frame = some f ∧ m.Reenters f

/-- A step that is not a re-entrant call reports that a branch is resumed exactly when it resumes
one. -/
theorem redo_iff_resumes (hsound : st.shared.choices.Sound f.alt) (hf : st.frame = some f) :
    (∃ g, .event .redo g ∈ (m.step st).reports) ↔ m.Resumes st ∧ ¬ m.Waits st := by
  rcases hrun : Branch.run m ⟨f, st.shared, []⟩ with ⟨request, b⟩
  have hredo : (∃ g, .event .redo g ∈ (m.step st).reports) ↔
      request.backtracks = true ∧ (m.step st).search.frame.isSome = true := by
    simp only [redo_mem_step hf hrun, exists_and_left, Option.isSome_iff_exists]
  have hwaits : m.Waits st → request = .delay ∨ ∃ e, request = .abort e := by
    rintro ⟨f', hf', hreenters⟩
    obtain rfl := Option.some.inj (hf.symm.trans hf')
    have hrequest := request_of_reenters (b := ⟨f, st.shared, []⟩) hreenters
    rwa [hrun] at hrequest
  by_cases hback : request.backtracks = true
  · have hnowait : ¬ m.Waits st := fun h => by
      rcases hwaits h with rfl | ⟨e, rfl⟩ <;> cases hback
    rw [hredo, resumes_iff_of_backtracks hsound hf hrun hback]
    simp only [hback, true_and, hnowait, not_false_eq_true, and_true]
  · refine iff_of_false (fun h => hback (hredo.mp h).1) fun ⟨hresumes, hnowait⟩ => ?_
    by_cases hturn : request.endsTurn = true
    · obtain rfl : request = .delay := by
        cases request with
        | delay => rfl
        | fail | failAndDelay | answer s => exact absurd rfl hback
        | proceed | abort e => cases hturn
      exact hnowait ⟨f, hf, reenters_of_delay (b := ⟨f, st.shared, []⟩) hrun⟩
    · exact not_resumes hf hrun (Bool.eq_false_iff.mpr hturn) hresumes

/-- What is reported to have been resumed at a step of a run is the branch that runs next. This is
reported exactly when that branch was taken out of a slot, unless a re-entrant call waits. So
nothing is missed when the search is depth-first. -/
theorem redo_reported (m : Machine) (q : Query) (n : Nat) :
    let st := m.after n (.start q)
    (∀ g, .event .redo g ∈ (m.step st).reports → (m.step st).search.frame = some g) ∧
      ((∃ g, .event .redo g ∈ (m.step st).reports) ↔ m.Resumes st ∧ ¬ m.Waits st) ∧
      (m.strategy = .depthFirst →
        ((∃ g, .event .redo g ∈ (m.step st).reports) ↔ m.Resumes st)) := by
  intro st
  have hdepthFirst : m.strategy = .depthFirst → ¬ m.Waits st := by
    rintro hstrategy ⟨f, -, hreenters, -⟩
    rw [hstrategy] at hreenters
    cases hreenters
  cases hf : st.frame with
  | none =>
    have hstep : m.step st = ⟨.ok none, st, []⟩ := step_of_isDone (by simp [Search.isDone, hf])
    have hresumes : ¬ m.Resumes st := by
      rintro ⟨i, g, alt, -, -, hg⟩
      rw [hstep, hf] at hg
      cases hg
    simp [hstep, hresumes]
  | some f =>
    have hredo := redo_iff_resumes (m := m) (m.sound_after_of_frame hf) hf
    refine ⟨fun g hg => ((redo_mem_step hf rfl).mp hg).2, hredo, fun hstrategy => ?_⟩
    rw [hredo, and_iff_left (hdepthFirst hstrategy)]

/-- A re-entrant call that is not at fault, with alternatives to wait for, resumes one of them, and
does not report it. -/
theorem resumes_unreported {q : Query} {n : Nat} (hf : (m.after n (.start q)).frame = some f)
    (hreenters : m.Reenters f) (hok : (m.step (m.after n (.start q))).search.frame ≠ none)
    (hpending : 0 < (m.after n (.start q)).pending) : m.Resumes (m.after n (.start q)) ∧
      ¬ ∃ g, .event .redo g ∈ (m.step (m.after n (.start q))).reports := by
  set st := m.after n (.start q) with hst
  have hsound : st.shared.choices.Sound f.alt := m.sound_after_of_frame hf
  refine ⟨?_, fun hredo => ((redo_iff_resumes hsound hf).mp hredo).2 ⟨f, hf, hreenters⟩⟩
  rcases hrun : Branch.run m ⟨f, st.shared, []⟩ with ⟨request, b⟩
  have hrequest := request_of_reenters (b := ⟨f, st.shared, []⟩) hreenters
  rw [hrun] at hrequest
  rcases hrequest with rfl | ⟨e, rfl⟩
  · exact (resumes_iff_of_delay hsound hf hrun).mpr hpending
  · exact absurd (step_of_request hf hrun).1 hok

/-- After a choice a predicate calls itself, and the alternative is resumed by the second call. -/
theorem recursive_call_unreported :
    let m : Machine :=
      { program := Module.empty.define "p" 0 [.invoke "p" [], .success], strategy := .interleaved }
    let q : Query := .ofCode 0 [.choice 1, .invoke "p" [], .success]
    m.Resumes (m.after 2 (.start q)) ∧
      ¬ ∃ g, .event .redo g ∈ (m.step (m.after 2 (.start q))).reports := by
  intro m q
  have hok : (m.step (m.after 2 (.start q))).search.frame.isSome = true := by decide +kernel
  have hpending : 0 < (m.after 2 (.start q)).pending := by decide +kernel
  exact resumes_unreported rfl ⟨rfl, "p", [], [], _, rfl, rfl, rfl, rfl⟩
    (Option.isSome_iff_ne_none.mp hok) hpending

end Machine

end LogicMachine
