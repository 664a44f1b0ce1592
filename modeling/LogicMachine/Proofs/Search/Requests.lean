import LogicMachine.Proofs.Search.Step

/-!
# What is done about a request

A step in terms of what the instruction asks for. This says less about the branch that ran than the
account of its outcome, and more about the search: which requests take the next branch out of the
choice points, after which of them choice points are reclaimed, and which instruction makes which
request.
-/

namespace LogicMachine

/-- Is the running branch given up, so that the next one is taken out of the choice points? -/
def Request.backtracks : Request → Bool
  | .fail | .failAndDelay | .answer _ => true
  | .proceed | .delay | .abort _ => false

/-- Does the running branch fail, answer or wait for the others? -/
def Request.endsTurn : Request → Bool
  | .fail | .failAndDelay | .answer _ | .delay => true
  | .proceed | .abort _ => false

namespace Machine

/-- The branch that is next, and the choice points that it finds. -/
def respond (m : Machine) (f : Frame) (cp : ChoicePoints) : Request → Option Frame × ChoicePoints
  | .proceed => (some f, cp)
  | .fail => m.nextBranch f false cp
  | .failAndDelay | .answer _ => m.nextBranch f true cp
  | .delay => ((cp.delay m.strategy f).1, (cp.delay m.strategy f).2)
  | .abort _ => (none, cp)

/-- What the instruction of the running branch asks for. -/
def request? (m : Machine) (st : Search) : Option Request :=
  st.frame.map fun f => (Branch.run m ⟨f, st.shared, []⟩).1

variable {m : Machine} {st : Search} {f : Frame} {b b' : Branch} {request : Request}

/-- Without an alternative no branch is next, rotation or not. -/
theorem nextBranch_of_none {cp cp' : ChoicePoints} (hfail : cp.fail f = (none, cp'))
    (rotates : Bool) : m.nextBranch f rotates cp = (none, cp') := by
  rw [nextBranch, hfail]

/-- The alternative that is taken is next, after the others if it is to be delayed. -/
theorem nextBranch_of_some {cp cp' : ChoicePoints} {g : Frame} (hfail : cp.fail f = (some g, cp'))
    (rotates : Bool) : m.nextBranch f rotates cp = if rotates then
      (some (cp'.delay m.strategy g).1, (cp'.delay m.strategy g).2) else (some g, cp') := by
  rw [nextBranch, hfail]

/-- What is asked for is done, and choice points may be reclaimed if the branch has ended its
turn. -/
theorem move_of_request (hrun : b.run m = (request, b')) (solutions : Nat) :
    (m.move b solutions).1.search.frame = (m.respond b'.frame b'.shared.choices request).1 ∧
      (m.move b solutions).1.search.shared.choices =
        (m.respond b'.frame b'.shared.choices request).2 ∧
      (m.move b solutions).2 = request.endsTurn := by
  cases request <;> simp only [move, hrun] <;> exact ⟨rfl, rfl, rfl⟩

/-- The choice points are reclaimed when it is time, after the branch has ended its turn. -/
theorem step_of_request (hf : st.frame = some f)
    (hrun : Branch.run m ⟨f, st.shared, []⟩ = (request, b)) :
    (m.step st).search.frame = (m.respond b.frame b.shared.choices request).1 ∧
      (m.step st).search.shared.choices =
        let (next, cp) := m.respond b.frame b.shared.choices request
        if request.endsTurn && cp.needsSweep then cp.sweep next else cp := by
  obtain ⟨hframe, hchoices, hturn⟩ := move_of_request hrun st.solutions
  simp only [step, hf]
  rcases hmove : m.move ⟨f, st.shared, []⟩ st.solutions with ⟨taken, swept⟩
  rw [hmove] at hframe hchoices hturn
  simp only at hframe hchoices hturn
  cases swept with
  | false =>
    simp only [hframe, hchoices, ← hturn, Bool.false_and, Bool.false_eq_true, if_false, and_self]
  | true =>
    simp only [Search.reclaim, hframe, hchoices, ← hturn, Bool.true_and]
    split
    · exact ⟨rfl, rfl⟩
    · exact ⟨hframe, hchoices⟩

end Machine

/-! ### Which instruction asks for what -/

/-- The branch is about to call a block that it is running already, and the strategy is to let the
others have their turn first. -/
def Machine.Reenters (m : Machine) (f : Frame) : Prop :=
  m.strategy = .interleaved ∧ ∃ name args ts block,
    f.cont.running.current? = some (.invoke name args) ∧
      Expr.evalAll f.cont.running.env f.subst args = .ok ts ∧
      m.program.get? ⟨name, ts.length⟩ = some block ∧ f.cont.isActive block.label = true

/-- `m.Asks f instr request`: an instruction of the branch `f` can lead to that request. -/
inductive Machine.Asks (m : Machine) (f : Frame) : Instr → Request → Prop
  | proceed {instr : Instr} : Asks m f instr .proceed
  | abort {instr : Instr} (e : ProgramError) : Asks m f instr (.abort e)
  | fail : Asks m f .fail .fail
  | clash {x y : Expr} : Asks m f (.unify x y) .failAndDelay
  | answer (s : Solution) : Asks m f .success (.answer s)
  | delay {name : String} {args : List Expr} {ts : List Term} {block : Block}
      (hstrategy : m.strategy = .interleaved)
      (hargs : Expr.evalAll f.cont.running.env f.subst args = .ok ts)
      (hblock : m.program.get? ⟨name, ts.length⟩ = some block)
      (hactive : f.cont.isActive block.label = true) : Asks m f (.invoke name args) .delay

namespace Machine

variable {m : Machine} {f : Frame} {b b' : Branch} {instr : Instr}

/-- After matching a branch asks to go on or to stop. -/
theorem asks_unlessFault (r : Option ProgramError × Branch) :
    m.Asks f instr (Branch.unlessFault r).1 := by
  rcases r with ⟨_ | e, b⟩
  · exact .proceed
  · exact .abort e

/-- A call asks to wait when its block runs already under the interleaved strategy, and otherwise to
go on or to stop. -/
theorem asks_invoke {name : String} {args : List Expr}
    (hb : b.frame = { f with cont := f.onward }) :
    m.Asks f (.invoke name args) (b.invoke m name args).1 := by
  have henv : b.env = f.cont.running.env := by rw [Branch.env, hb]; rfl
  simp only [Branch.invoke, henv, hb]
  cases hargs : Expr.evalAll f.cont.running.env f.subst args with
  | error e => exact .abort e
  | ok ts =>
    simp only
    cases hlookup : m.program.lookup ⟨name, ts.length⟩ with
    | error e => exact .abort e
    | ok block =>
      simp only
      split
      · exact .abort _
      · split
        · next hreenters =>
          exact .delay hreenters.1 hargs (Module.lookup_eq_ok_iff.mp hlookup) hreenters.2
        · exact .proceed

/-- Each instruction makes only the requests that are listed for it. -/
theorem asks_execute (hb : b.frame = { f with cont := f.onward }) :
    m.Asks f instr (b.execute m instr).1 := by
  cases instr with
  | invoke name args => exact asks_invoke hb
  | constraint name args =>
    simp only [Branch.execute, Branch.post]
    split
    · exact .abort _
    · exact asks_unlessFault _
  | goto offset =>
    simp only [Branch.execute, Branch.goto]
    split
    · exact .abort _
    · exact .proceed
  | choice offset =>
    simp only [Branch.execute, Branch.choice]
    split
    · exact .abort _
    · exact .proceed
  | fresh n => exact .proceed
  | unify x y =>
    simp only [Branch.execute, Branch.unify]
    split
    · exact .abort _
    · split
      · exact .abort _
      · split
        · exact .clash
        · exact asks_unlessFault _
  | success =>
    simp only [Branch.execute, Branch.success]
    split
    · exact .proceed
    · exact .answer _
  | fail => exact .fail

/-- An instruction asks for what it can ask for; without one the program is at fault. -/
theorem asks_run (m : Machine) (b : Branch) :
    (∃ instr, b.frame.cont.running.current? = some instr ∧ m.Asks b.frame instr (b.run m).1) ∨
      b.frame.cont.running.current? = none ∧ ∃ e, (b.run m).1 = .abort e := by
  cases hcur : b.frame.cont.running.current? with
  | none =>
    simp only [Branch.run, hcur]
    exact .inr ⟨trivial, _, rfl⟩
  | some instr =>
    simp only [Branch.run, hcur]
    exact .inl ⟨instr, rfl, asks_execute rfl⟩

/-- Only the instruction to fail makes a branch fail without letting the others have their turn. -/
theorem current?_of_fail (hrun : b.run m = (.fail, b')) :
    b.frame.cont.running.current? = some .fail := by
  rcases m.asks_run b with ⟨instr, hcur, hasks⟩ | ⟨-, e, he⟩
  · rw [hrun] at hasks
    cases hasks
    exact hcur
  · rw [hrun] at he
    cases he

/-- Only a call of a block that is running already makes a branch wait for the others. -/
theorem reenters_of_delay (hrun : b.run m = (.delay, b')) : m.Reenters b.frame := by
  rcases m.asks_run b with ⟨instr, hcur, hasks⟩ | ⟨-, e, he⟩
  · rw [hrun] at hasks
    cases hasks with
    | delay hstrategy hargs hblock hactive =>
      exact ⟨hstrategy, _, _, _, _, hcur, hargs, hblock, hactive⟩
  · rw [hrun] at he
    cases he

/-- Such a call waits, or nests too deep. -/
theorem request_of_reenters (h : m.Reenters b.frame) :
    (b.run m).1 = .delay ∨ ∃ e, (b.run m).1 = .abort e := by
  obtain ⟨hstrategy, name, args, ts, block, hcur, hargs, hblock, hactive⟩ := h
  have hframe : (b.fetched (.invoke name args)).frame =
      { b.frame with cont := b.frame.onward } := rfl
  have henv : (b.fetched (.invoke name args)).env = b.frame.cont.running.env := rfl
  have hactive' : b.frame.onward.isActive block.label = true := hactive
  have hrun : b.run m = (b.fetched (.invoke name args)).invoke m name args := by
    simp only [Branch.run, hcur]
    rfl
  rw [hrun]
  simp only [Branch.invoke, hframe, henv, hargs, Module.lookup_eq_ok_iff.mpr hblock, hstrategy,
    hactive', and_self, if_true]
  split
  · exact .inr ⟨_, rfl⟩
  · exact .inl rfl

end Machine

end LogicMachine
