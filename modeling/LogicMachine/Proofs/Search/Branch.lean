import LogicMachine.Search.Basic

/-!
# What an instruction makes of a branch

Only a choice looks at the choice points. Every other instruction does the same to a branch
wherever the branch stands among the others, so that its effect can be described for the branch
alone: it goes on, it splits, or it ends.
-/

namespace LogicMachine

/-- The same program and rules under a strategy. -/
def Machine.under (m : Machine) (strategy : Strategy) : Machine := { m with strategy }

/-- Where the numbers for new variables and new constraints come from. -/
structure Counters where
  vars : Counter := {}
  serials : Counter := {}
  deriving DecidableEq

/-- The counters among what the branches share. -/
def Shared.counters (shared : Shared) : Counters := ⟨shared.vars, shared.serials⟩

/-- The counters of a search. -/
def Search.counters (st : Search) : Counters := st.shared.counters

/-- The frame by itself, without its place among the choice points. -/
def Frame.detached (f : Frame) : Frame := { f with alt := none }

/-- What becomes of a branch by one instruction. -/
inductive Outcome
  /-- The branch goes on. -/
  | go (f : Frame)
  /-- The branch goes on as the first frame, and the second one is left as an alternative. -/
  | split (f alternative : Frame)
  /-- The branch has failed. -/
  | dead
  /-- The branch has answered the query. -/
  | answer (s : Solution)
  /-- The program is at fault. -/
  | fault (e : ProgramError)

namespace Outcome

/-- The branches that are left to run, in the order in which they are to run. -/
def children : Outcome → List Frame
  | go f => [f]
  | split f alternative => [f, alternative]
  | dead | answer _ | fault _ => []

/-- What a step with that outcome gives. -/
def result : Outcome → Except ProgramError (Option Solution)
  | go _ | split _ _ | dead => .ok none
  | answer s => .ok (some s)
  | fault e => .error e

end Outcome

/-- What a request means for the branch that it comes from. Whether other branches have their turn
first makes no difference to the branch. -/
def Request.outcome (frame : Frame) : Request → Outcome
  | .proceed | .delay => .go frame
  | .fail | .failAndDelay => .dead
  | .answer s => .answer s
  | .abort e => .fault e

/-- Run one instruction of a branch by itself, and give the counters after it. A choice splits the
branch in two: the alternative has the bindings and constraints that the branch has now. -/
def Machine.advance (m : Machine) (f : Frame) (c : Counters) : Outcome × Counters :=
  match f.cont.running.current? with
  | some (.choice offset) =>
    let cont := f.cont.resumeAt (f.cont.running.pc + 1)
    match cont.target offset with
    | .error e => (.fault e, c)
    | .ok pc => (.split { f with cont } { f with cont := cont.resumeAt pc }, c)
  | _ =>
    let (request, b) := Branch.run m ⟨f, ⟨.empty, c.vars, c.serials⟩, []⟩
    (request.outcome b.frame, b.shared.counters)

/-- The branch once it has fetched its next instruction: the program counter has moved past it. -/
def Branch.fetched (b : Branch) (instr : Instr) : Branch :=
  (b.note (.instruction instr b.frame.cont.depth b.frame.cont.running.pc)).setCont
    (b.frame.cont.resumeAt (b.frame.cont.running.pc + 1))

/-- How a frame goes on once it has fetched its next instruction. -/
def Frame.onward (f : Frame) : Continuation := f.cont.resumeAt (f.cont.running.pc + 1)

/-- The code from the program counter on is the next instruction and the code behind it. -/
theorem Activation.drop_eq_cons_iff {a : Activation} {instr : Instr} {code : List Instr} :
    a.block.code.drop a.pc = instr :: code ↔
      a.current? = some instr ∧ a.block.code.drop (a.pc + 1) = code := by
  constructor
  · intro h
    rw [current?, ← List.head?_drop, ← List.tail_drop, h]
    exact ⟨rfl, rfl⟩
  · rintro ⟨hcur, rfl⟩
    obtain ⟨hpc, rfl⟩ := List.getElem?_eq_some_iff.mp hcur
    exact List.drop_eq_getElem_cons hpc

namespace Machine

variable {m : Machine} {f : Frame} {c : Counters}

/-- Behind the end of its block a branch is at fault. -/
theorem advance_of_none (hcur : f.cont.running.current? = none) :
    m.advance f c =
      (.fault (.endOfBlock f.cont.running.pc f.cont.running.block.code.length), c) := by
  simp only [advance, Branch.run, hcur]
  rfl

/-- A choice splits the branch in two, which go on behind the choice and at its target, unless the
target is outside the block. -/
theorem advance_choice {offset : Int} (hcur : f.cont.running.current? = some (.choice offset)) :
    m.advance f c = match (f.cont.resumeAt (f.cont.running.pc + 1)).target offset with
      | .error e => (.fault e, c)
      | .ok pc => (.split { f with cont := f.cont.resumeAt (f.cont.running.pc + 1) }
          { f with cont := (f.cont.resumeAt (f.cont.running.pc + 1)).resumeAt pc }, c) := by
  simp only [advance, hcur]

/-- Everything but a choice is carried out by the branch alone. -/
theorem advance_execute {instr : Instr} (hcur : f.cont.running.current? = some instr)
    (h : ∀ offset, instr ≠ .choice offset) :
    m.advance f c =
      let r := Branch.execute m
        (Branch.fetched ⟨f, ⟨.empty, c.vars, c.serials⟩, []⟩ instr) instr
      (r.1.outcome r.2.frame, r.2.shared.counters) := by
  simp only [advance, hcur]
  cases instr with
  | choice offset => exact absurd rfl (h offset)
  | _ =>
    simp only [Branch.run, hcur]
    rfl

end Machine

/-- What is told of a branch, were it to stand on `alt`. -/
def Report.placed (alt : Option Nat) : Report → Report
  | .event e frame => .event e { frame with alt }
  | .note n => .note n

namespace Branch

/-- How a branch that is about to leave an alternative goes on, and where the alternative does. -/
def fork? (b : Branch) : Option (Continuation × Nat) :=
  match b.frame.cont.running.current? with
  | some (.choice offset) =>
    let cont := b.frame.cont.resumeAt (b.frame.cont.running.pc + 1)
    (cont.target offset).toOption.map (cont, ·)
  | _ => none

/-- The same branch elsewhere among the choice points, with other reports. -/
def graft (b : Branch) (alt : Option Nat) (choices : ChoicePoints) (reports : List Report) :
    Branch :=
  ⟨{ b.frame with alt }, { b.shared with choices }, reports⟩

/-- The registers are the same elsewhere. -/
theorem graft_env (b : Branch) (alt : Option Nat) (choices : ChoicePoints) (reports : List Report) :
    (b.graft alt choices reports).env = b.env := rfl

/-- The bindings are the same elsewhere. -/
theorem graft_subst (b : Branch) (alt : Option Nat) (choices : ChoicePoints)
    (reports : List Report) : (b.graft alt choices reports).frame.subst = b.frame.subst := rfl

/-- The constraints are the same elsewhere. -/
theorem graft_store (b : Branch) (alt : Option Nat) (choices : ChoicePoints)
    (reports : List Report) : (b.graft alt choices reports).frame.store = b.frame.store := rfl

/-- What is running is the same elsewhere. -/
theorem graft_cont (b : Branch) (alt : Option Nat) (choices : ChoicePoints)
    (reports : List Report) : (b.graft alt choices reports).frame.cont = b.frame.cont := rfl

/-- An operation on branches that neither reads nor changes where the branch stands, and that has
the same news to report everywhere. -/
def Local {α : Type} (op : Branch → α × Branch) : Prop :=
  ∀ b, ∃ news : List Report, ∀ alt choices reports,
    op (b.graft alt choices reports) =
      ((op b).1, (op b).2.graft alt choices (reports ++ news.map (Report.placed alt)))

/-- To stop at a fault or to go on asks nothing of the place of a branch. -/
theorem local_unlessFault {op : Branch → Option ProgramError × Branch} (h : Local op) :
    Local fun b => unlessFault (op b) := by
  intro b
  obtain ⟨news, heq⟩ := h b
  refine ⟨news, fun alt choices reports => ?_⟩
  simp only [heq]
  rcases op b with ⟨_ | e, b'⟩ <;> rfl

/-- Notes in the log are the same wherever the branch stands. -/
private theorem foldl_note_graft {α : Type} (note : α → Note) (xs : List α) (b : Branch) :
    ∃ news : List Report, ∀ alt choices reports,
      xs.foldl (fun b x => b.note (note x)) (b.graft alt choices reports) =
        (xs.foldl (fun b x => b.note (note x)) b).graft alt choices
          (reports ++ news.map (Report.placed alt)) := by
  induction xs generalizing b with
  | nil => exact ⟨[], by simp⟩
  | cons x xs ih =>
    obtain ⟨news, hnews⟩ := ih (b.note (note x))
    refine ⟨.note (note x) :: news, fun alt choices reports => ?_⟩
    rw [List.map_cons, List.append_cons]
    exact hnews alt choices _

/-- Bodies of rules are scheduled wherever the branch stands. -/
private theorem foldl_schedule_graft (fs : List Firing) (b : Branch) :
    ∃ news : List Report, ∀ alt choices reports,
      fs.foldl schedule (b.graft alt choices reports) =
        (fs.foldl schedule b).graft alt choices (reports ++ news.map (Report.placed alt)) := by
  induction fs generalizing b with
  | nil => exact ⟨[], by simp⟩
  | cons f fs ih =>
    obtain ⟨news, hnews⟩ := ih (b.schedule f)
    refine ⟨.event .fire (b.schedule f).frame :: news, fun alt choices reports => ?_⟩
    rw [List.map_cons, List.append_cons]
    exact hnews alt choices _

/-- The pass of a constraint is local. -/
theorem local_fire (m : Machine) (c : Constraint) : Local (fire m · c) := by
  intro b
  simp only [fire, graft_subst, graft_store]
  generalize b.frame.store.matchRules m.rules b.frame.subst c = pass
  obtain ⟨fired, hfired⟩ := foldl_note_graft (.fired b.frame.subst) pass.firings
    (b.setStore pass.store)
  obtain ⟨scheduled, hscheduled⟩ := foldl_schedule_graft pass.firings
    (pass.firings.foldl (fun noted f => noted.note (.fired b.frame.subst f))
      (b.setStore pass.store))
  have hgraft : ∀ alt choices reports, (b.graft alt choices reports).setStore pass.store =
      (b.setStore pass.store).graft alt choices reports := fun _ _ _ => rfl
  cases hfault : pass.fault with
  | some e =>
    refine ⟨fired, fun alt choices reports => ?_⟩
    rw [hgraft, hfired]
  | none =>
    refine ⟨fired ++ scheduled, fun alt choices reports => ?_⟩
    rw [hgraft, hfired, hscheduled, List.map_append, List.append_assoc]

/-- So are the passes of several constraints. -/
theorem local_fireAll (m : Machine) (cs : List Constraint) : Local (fireAll m · cs) := by
  induction cs with
  | nil => exact fun b => ⟨[], by simp [fireAll]⟩
  | cons c cs ih =>
    intro b
    simp only [fireAll, graft_store]
    by_cases halive : b.frame.store.isAlive c = true
    · obtain ⟨fired, hfired⟩ := local_fire m c b
      simp only [halive, if_true, hfired]
      rcases b.fire m c with ⟨_ | e, b'⟩
      · obtain ⟨news, hnews⟩ := ih b'
        refine ⟨fired ++ news, fun alt choices reports => ?_⟩
        rw [List.map_append, ← List.append_assoc]
        exact hnews alt choices _
      · exact ⟨fired, fun _ _ _ => rfl⟩
    · simpa only [halive, Bool.false_eq_true, if_false] using ih b

/-- A call is local: it changes what is running. -/
theorem local_invoke (m : Machine) (name : String) (args : List Expr) :
    Local (invoke m · name args) := by
  intro b
  simp only [invoke, graft_env, graft_subst, graft_cont]
  cases Expr.evalAll b.env b.frame.subst args with
  | error e => exact ⟨[], by simp⟩
  | ok terms =>
    simp only
    cases m.program.lookup ⟨name, terms.length⟩ with
    | error e => exact ⟨[], by simp⟩
    | ok block =>
      simp only
      cases m.exceeded? (b.frame.cont.depth + 1) with
      | some limit => exact ⟨[], by simp⟩
      | none =>
        let cont := b.frame.cont.call (.predicate ⟨name, terms.length⟩) terms block
        let called : Report := .event .call (b.setCont cont).frame
        by_cases hreenters : m.strategy = .interleaved ∧ b.frame.cont.isActive block.label
        · refine ⟨[called, .note (.reentered ⟨name, terms.length⟩)], fun alt choices reports => ?_⟩
          simp only [hreenters, and_self, if_true]
          rw [List.map_cons, List.append_cons]
          rfl
        · refine ⟨[called], fun alt choices reports => ?_⟩
          simp only [hreenters, if_false]
          rfl

/-- A jump is local. -/
theorem local_goto (offset : Int) : Local (goto · offset) := by
  intro b
  simp only [goto, graft_cont]
  cases b.frame.cont.target offset with
  | error e => exact ⟨[], by simp⟩
  | ok pc =>
    refine ⟨[], fun alt choices reports => ?_⟩
    rw [List.map_nil, List.append_nil]
    rfl

/-- To make new variables is local. Their numbers come from a counter and not from the place. -/
theorem local_fresh (n : Nat) : Local (fresh · n) := by
  intro b
  refine ⟨[], fun alt choices reports => ?_⟩
  rw [List.map_nil, List.append_nil]
  rfl

/-- A unification is local, with all that it makes fire. -/
theorem local_unify (m : Machine) (x y : Expr) : Local (unify m · x y) := by
  intro b
  simp only [unify, graft_env, graft_subst, graft_store]
  cases x.eval b.env b.frame.subst with
  | error e => exact ⟨[], by simp⟩
  | ok x =>
    simp only
    cases y.eval b.env b.frame.subst with
    | error e => exact ⟨[], by simp⟩
    | ok y =>
      simp only
      cases b.frame.subst.unify? x y with
      | none => exact ⟨[.note (.unifyFailed x y)], fun _ _ _ => rfl⟩
      | some u =>
        let bound := { b with frame := { b.frame with subst := u.subst } }
        let handed := b.frame.store.handOverAll u.subst u.bindings
        obtain ⟨news, hnews⟩ := local_unlessFault (local_fireAll m handed.2)
          ((bound.event .unify).setStore handed.1)
        refine ⟨.event .unify bound.frame :: news, fun alt choices reports => ?_⟩
        rw [List.map_cons, List.append_cons]
        exact hnews alt choices _

/-- A return is local, and so is an answer. -/
theorem local_success : Local success := by
  intro b
  simp only [success, graft_subst, graft_store, graft_cont]
  cases b.frame.cont.return? <;> exact ⟨[.event .exit b.frame], fun _ _ _ => rfl⟩

/-- To post a constraint is local, with all that it makes fire. -/
theorem local_post (m : Machine) (name : String) (args : List Expr) :
    Local (post m · name args) := by
  intro b
  simp only [post, graft_env, graft_subst, graft_store]
  cases Expr.evalAll b.env b.frame.subst args with
  | error e => exact ⟨[], by simp⟩
  | ok terms =>
    let c : Constraint := ⟨b.shared.serials.draw.1, ⟨name, terms.length⟩, terms⟩
    let store := (b.frame.store.add c).connectArgs b.frame.subst c
    let posted : Branch :=
      { b with shared := { b.shared with serials := b.shared.serials.draw.2 } }.setStore store
    obtain ⟨news, hnews⟩ := local_unlessFault (local_fire m c)
      (posted.note (.posted b.frame.subst c))
    refine ⟨.note (.posted b.frame.subst c) :: news, fun alt choices reports => ?_⟩
    rw [List.map_cons, List.append_cons]
    exact hnews alt choices _

/-- Every instruction but a choice is local. -/
theorem local_execute (m : Machine) {instr : Instr} (h : ∀ offset, instr ≠ .choice offset) :
    Local (execute m · instr) := by
  cases instr with
  | invoke name args => exact local_invoke m name args
  | constraint name args => exact local_post m name args
  | goto offset => exact local_goto offset
  | choice offset => exact absurd rfl (h offset)
  | fresh n => exact local_fresh n
  | unify x y => exact local_unify m x y
  | success => exact local_success
  | fail => exact fun _ => ⟨[], by simp [execute]⟩

/-- Unless the next instruction is a choice, running it is local. -/
theorem local_run (m : Machine) (b : Branch)
    (h : ∀ offset, b.frame.cont.running.current? ≠ some (.choice offset)) :
    ∃ news : List Report, ∀ alt choices reports, (b.graft alt choices reports).run m =
      ((b.run m).1, (b.run m).2.graft alt choices (reports ++ news.map (Report.placed alt))) := by
  simp only [run, graft_cont]
  cases hcur : b.frame.cont.running.current? with
  | none => exact ⟨[], by simp⟩
  | some instr =>
    have hinstr : ∀ offset, instr ≠ .choice offset := by
      rintro offset rfl
      exact h offset hcur
    let note : Report := .note (.instruction instr b.frame.cont.depth b.frame.cont.running.pc)
    obtain ⟨news, hnews⟩ := local_execute m hinstr (b.fetched instr)
    refine ⟨note :: news, fun alt choices reports => ?_⟩
    rw [List.map_cons, List.append_cons]
    exact hnews alt choices _

/-- One instruction, seen from the choice points. It either saves an alternative in a new slot, or
it leaves them alone; what it does to the branch is told by `advance`. -/
theorem run_cases (m : Machine) (b : Branch) :
    (∃ cont pc reports, b.fork? = some (cont, pc) ∧
      b.run m = (.proceed,
        ⟨{ b.frame with alt := some (b.shared.choices.push { b.frame with cont } pc).1, cont },
          { b.shared with choices := (b.shared.choices.push { b.frame with cont } pc).2 },
          reports⟩) ∧
      m.advance b.frame.detached b.shared.counters =
        (.split { b.frame.detached with cont }
          { b.frame.detached with cont := cont.resumeAt pc }, b.shared.counters)) ∨
    (∃ request b', b.fork? = none ∧ b.run m = (request, b') ∧ b'.frame.alt = b.frame.alt ∧
      b'.shared.choices = b.shared.choices ∧
      m.advance b.frame.detached b.shared.counters =
        (request.outcome b'.frame.detached, b'.shared.counters)) := by
  have hdetached : b.frame.detached.cont = b.frame.cont := rfl
  by_cases hchoice : ∃ offset, b.frame.cont.running.current? = some (.choice offset)
  · obtain ⟨offset, hcur⟩ := hchoice
    let cont := b.frame.cont.resumeAt (b.frame.cont.running.pc + 1)
    let noted := (b.note (.instruction (.choice offset) b.frame.cont.depth
      b.frame.cont.running.pc)).setCont cont
    have hnoted : noted.frame.cont = cont := rfl
    have hrun : b.run m = noted.choice offset := by
      simp only [run, hcur, execute]
      rfl
    have hadvance : m.advance b.frame.detached b.shared.counters = match cont.target offset with
        | .error e => (.fault e, b.shared.counters)
        | .ok pc => (.split { b.frame.detached with cont }
            { b.frame.detached with cont := cont.resumeAt pc }, b.shared.counters) := by
      simp only [Machine.advance, hdetached, hcur]
      rfl
    have hfork : b.fork? = (cont.target offset).toOption.map (cont, ·) := by
      simp only [fork?, hcur]
      rfl
    rw [hrun, hadvance, hfork]
    simp only [choice, hnoted]
    cases cont.target offset with
    | error e => exact .inr ⟨.abort e, noted, rfl, rfl, rfl, rfl, rfl⟩
    | ok pc => exact .inl ⟨cont, pc, _, rfl, rfl, rfl⟩
  · have hnone : ∀ offset, b.frame.cont.running.current? ≠ some (.choice offset) :=
      fun offset hcur => hchoice ⟨offset, hcur⟩
    let alone : Branch := ⟨b.frame.detached, ⟨.empty, b.shared.vars, b.shared.serials⟩, []⟩
    obtain ⟨news, hrun⟩ := local_run m alone hnone
    have hadvance : m.advance b.frame.detached b.shared.counters =
        ((alone.run m).1.outcome (alone.run m).2.frame, (alone.run m).2.shared.counters) := by
      simp only [Machine.advance, hdetached]
      rfl
    -- grafted where it already stands, the lone branch shows that running it leaves it there
    have hframe : (alone.run m).2.frame.detached = (alone.run m).2.frame :=
      (congrArg (fun r : Request × Branch => r.2.frame) (hrun none .empty [])).symm
    have hfork : b.fork? = none := by
      unfold fork?
      split
      · next offset hcur => exact absurd hcur (hnone offset)
      · rfl
    refine .inr ⟨_, _, hfork, hrun b.frame.alt b.shared.choices b.reports, rfl, rfl, ?_⟩
    rw [hadvance, ← hframe]
    rfl

end Branch

end LogicMachine
