import LogicMachine.Proofs.Constraints.Backlinks
import LogicMachine.Proofs.Renaming.Frame

/-!
# What an instruction does

All that an instruction can do to a branch, with one rule for each way it can go. Matching is told
by its passes: each leaves a store behind and calls the bodies of what has fired. Invariants of
branches are derived from these rules, so that the instructions themselves are not unfolded again.
-/

namespace LogicMachine

/-- Call the body of a rule that has fired. -/
def Continuation.schedule (k : Continuation) (f : Firing) : Continuation :=
  k.call (.rule f.occurrence.index) f.env ⟨.rule f.occurrence.index, f.occurrence.rule.body⟩

namespace Frame

/-- The constraint that the next instruction of a branch creates, if it creates one. -/
def creates? (f : Frame) (c : Counters) : Option Constraint :=
  match f.cont.running.current? with
  | some (.constraint name args) =>
    match Expr.evalAll f.cont.running.env f.subst args with
    | .ok ts => some ⟨c.serials.next, ⟨name, ts.length⟩, ts⟩
    | .error _ => none
  | _ => none

/-- The branch with a new constraint, whose pass is still to come. -/
def entering (f : Frame) (new : Constraint) : Frame :=
  { f with store := f.store.enter f.subst new, cont := f.onward }

/-- The branch with the bindings of a unification, before anything is matched again. -/
def bound (f : Frame) (u : Unifier) : Frame :=
  { f with
    subst := u.subst
    store := (f.store.handOverAll u.subst u.bindings).1
    cont := f.onward }

/-- The branch after a pass of `c`: what has fired is called, and the last body runs first. -/
def matched (rs : RuleSet) (f : Frame) (c : Constraint) : Frame :=
  { f with
    store := (f.store.matchRules rs f.subst c).store
    cont := (f.store.matchRules rs f.subst c).firings.foldl Continuation.schedule f.cont }

/-- `Rematches rs f waiting rerun g`: while the constraints `waiting` have their turns one after
another, matching is run again for `rerun`, which are those that are live when their turn comes. No
pass ends in a fault, and `g` is what they make of the branch `f`. -/
inductive Rematches (rs : RuleSet) : Frame → List Constraint → List Constraint → Frame → Prop
  | done (f : Frame) : Rematches rs f [] [] f
  | live {f g : Frame} {c : Constraint} {cs rerun : List Constraint}
      (halive : f.store.isAlive c = true)
      (hfault : (f.store.matchRules rs f.subst c).fault = none)
      (h : Rematches rs (f.matched rs c) cs rerun g) : Rematches rs f (c :: cs) (c :: rerun) g
  | deleted {f g : Frame} {c : Constraint} {cs rerun : List Constraint}
      (hdead : f.store.isAlive c = false) (h : Rematches rs f cs rerun g) :
      Rematches rs f (c :: cs) rerun g

end Frame

/-- `m.Faults f c instr e`: the branch `f` cannot carry out an instruction, for the reason `e`. -/
inductive Machine.Faults (m : Machine) (f : Frame) (c : Counters) : Instr → ProgramError → Prop
  | arguments {name : String} {args : List Expr} {e : ProgramError}
      (hargs : Expr.evalAll f.cont.running.env f.subst args = .error e) :
      Faults m f c (.invoke name args) e
  | callee {name : String} {args : List Expr} {ts : List Term} {e : ProgramError}
      (hargs : Expr.evalAll f.cont.running.env f.subst args = .ok ts)
      (hblock : m.program.lookup ⟨name, ts.length⟩ = .error e) : Faults m f c (.invoke name args) e
  | depth {name : String} {args : List Expr} {ts : List Term} {limit : Nat}
      (hargs : Expr.evalAll f.cont.running.env f.subst args = .ok ts)
      (hlimit : m.exceeded? (f.onward.depth + 1) = some limit) :
      Faults m f c (.invoke name args) (.depthExceeded limit ⟨name, ts.length⟩)
  | posted {name : String} {args : List Expr} {e : ProgramError}
      (hargs : Expr.evalAll f.cont.running.env f.subst args = .error e) :
      Faults m f c (.constraint name args) e
  | pass {name : String} {args : List Expr} {new : Constraint} {e : ProgramError}
      (hnew : f.creates? c = some new)
      (hfault : ((f.entering new).store.matchRules m.rules f.subst new).fault = some e) :
      Faults m f c (.constraint name args) e
  | goto {offset : Int} {e : ProgramError} (hpc : f.onward.target offset = .error e) :
      Faults m f c (.goto offset) e
  | choice {offset : Int} {e : ProgramError} (hpc : f.onward.target offset = .error e) :
      Faults m f c (.choice offset) e
  | left {x y : Expr} {e : ProgramError} (hx : x.eval f.cont.running.env f.subst = .error e) :
      Faults m f c (.unify x y) e
  | right {x y : Expr} {t : Term} {e : ProgramError}
      (hx : x.eval f.cont.running.env f.subst = .ok t)
      (hy : y.eval f.cont.running.env f.subst = .error e) : Faults m f c (.unify x y) e
  | passes {x y : Expr} {t t' : Term} {u : Unifier} {done later rerun : List Constraint}
      {d : Constraint} {g : Frame} {e : ProgramError}
      (hx : x.eval f.cont.running.env f.subst = .ok t)
      (hy : y.eval f.cont.running.env f.subst = .ok t') (hu : f.subst.unify? t t' = some u)
      (hwaiting : (f.store.handOverAll u.subst u.bindings).2 = done ++ d :: later)
      (hdone : Frame.Rematches m.rules (f.bound u) done rerun g)
      (hfault : (g.store.matchRules m.rules g.subst d).fault = some e) :
      Faults m f c (.unify x y) e

/-- `m.Performs f c instr o`: the branch `f` carries out an instruction, and the outcome is `o`. New
numbers come from the counters `c`. -/
inductive Machine.Performs (m : Machine) (f : Frame) (c : Counters) : Instr → Outcome → Prop
  | invoke {name : String} {args : List Expr} {ts : List Term} {block : Block}
      (hargs : Expr.evalAll f.cont.running.env f.subst args = .ok ts)
      (hblock : m.program.get? ⟨name, ts.length⟩ = some block) :
      Performs m f c (.invoke name args)
        (.go { f with cont := f.onward.call (.predicate ⟨name, ts.length⟩) ts block })
  | constraint {name : String} {args : List Expr} {new : Constraint}
      (hnew : f.creates? c = some new)
      (hfault : ((f.entering new).store.matchRules m.rules f.subst new).fault = none) :
      Performs m f c (.constraint name args) (.go ((f.entering new).matched m.rules new))
  | goto {offset : Int} {pc : Nat} (hpc : f.onward.target offset = .ok pc) :
      Performs m f c (.goto offset) (.go { f with cont := f.onward.resumeAt pc })
  | choice {offset : Int} {pc : Nat} (hpc : f.onward.target offset = .ok pc) :
      Performs m f c (.choice offset)
        (.split { f with cont := f.onward } { f with cont := f.onward.resumeAt pc })
  | fresh (n : Nat) :
      Performs m f c (.fresh n)
        (.go { f with cont := f.onward.prepend ((c.vars.drawMany n).1.map .var) })
  | unify {x y : Expr} {t t' : Term} {u : Unifier} {rerun : List Constraint} {g : Frame}
      (hx : x.eval f.cont.running.env f.subst = .ok t)
      (hy : y.eval f.cont.running.env f.subst = .ok t') (hu : f.subst.unify? t t' = some u)
      (hpasses : Frame.Rematches m.rules (f.bound u)
        (f.store.handOverAll u.subst u.bindings).2 rerun g) :
      Performs m f c (.unify x y) (.go g)
  | clash {x y : Expr} {t t' : Term} (hx : x.eval f.cont.running.env f.subst = .ok t)
      (hy : y.eval f.cont.running.env f.subst = .ok t') (hu : f.subst.unify? t t' = none) :
      Performs m f c (.unify x y) .dead
  | leave {k : Continuation} (hk : f.onward.return? = some k) :
      Performs m f c .success (.go { f with cont := k })
  | answer (hk : f.onward.return? = none) : Performs m f c .success (.answer ⟨f.subst, f.store⟩)
  | fail : Performs m f c .fail .dead
  | fault {instr : Instr} {e : ProgramError} (h : m.Faults f c instr e) :
      Performs m f c instr (.fault e)

namespace Branch

variable {m : Machine} {b : Branch} {c : Constraint} {cs : List Constraint}

/-- To schedule the bodies of firings changes what is running, and nothing else. -/
theorem frame_foldl_schedule (fs : List Firing) (b : Branch) :
    (fs.foldl schedule b).frame =
      { b.frame with cont := fs.foldl Continuation.schedule b.frame.cont } := by
  induction fs generalizing b with
  | nil => rfl
  | cons f fs ih => exact ih (b.schedule f)

/-- A pass that ends in no fault leaves the branch with what it has fired. -/
theorem frame_fire (m : Machine) (b : Branch) (c : Constraint) :
    (b.fire m c).1 = (b.frame.store.matchRules m.rules b.frame.subst c).fault ∧
      ((b.fire m c).1 = none → (b.fire m c).2.frame = b.frame.matched m.rules c) := by
  unfold fire
  simp only
  cases hfault : (b.frame.store.matchRules m.rules b.frame.subst c).fault with
  | some e => exact ⟨rfl, nofun⟩
  | none =>
    refine ⟨rfl, fun _ => ?_⟩
    rw [frame_foldl_schedule, frame_foldl_note]
    rfl

/-- Constraints have their turns on the branch alone, all of them or up to the first fault. -/
theorem rematches_fireAll (m : Machine) (b : Branch) (cs : List Constraint) :
    ((b.fireAll m cs).1 = none ∧
        ∃ rerun, Frame.Rematches m.rules b.frame cs rerun (b.fireAll m cs).2.frame) ∨
      ∃ e done d later rerun g, (b.fireAll m cs).1 = some e ∧ cs = done ++ d :: later ∧
        Frame.Rematches m.rules b.frame done rerun g ∧
        (g.store.matchRules m.rules g.subst d).fault = some e := by
  induction cs generalizing b with
  | nil => exact .inl ⟨rfl, [], .done b.frame⟩
  | cons c cs ih =>
    rw [fireAll]
    split
    · next halive =>
      obtain ⟨hfault, hframe⟩ := frame_fire m b c
      rcases hfire : b.fire m c with ⟨_ | e, b'⟩ <;> simp only [hfire] at hfault hframe ⊢
      · have hlive {ds rerun : List Constraint} {g : Frame}
            (h : Frame.Rematches m.rules (b.frame.matched m.rules c) ds rerun g) :
            Frame.Rematches m.rules b.frame (c :: ds) (c :: rerun) g :=
          .live halive hfault.symm h
        rw [← hframe trivial] at hlive
        rcases ih b' with ⟨hnone, rerun, hrerun⟩ | ⟨e, done, d, later, rerun, g, he, rfl, hdone, hd⟩
        · exact .inl ⟨hnone, _, hlive hrerun⟩
        · exact .inr ⟨e, c :: done, d, later, _, g, he, rfl, hlive hdone, hd⟩
      · exact .inr ⟨e, [], c, cs, [], b.frame, rfl, rfl, .done _, hfault.symm⟩
    · next halive =>
      have hdead : b.frame.store.isAlive c = false := Bool.not_eq_true _ ▸ halive
      rcases ih b with ⟨hnone, rerun, hrerun⟩ | ⟨e, done, d, later, rerun, g, he, rfl, hdone, hd⟩
      · exact .inl ⟨hnone, rerun, .deleted hdead hrerun⟩
      · exact .inr ⟨e, c :: done, d, later, rerun, g, he, rfl, .deleted hdead hdone, hd⟩

/-- Matching hands the branch on, unless it ends in a fault. -/
theorem outcome_unlessFault (r : Option ProgramError × Branch) :
    (unlessFault r).1.outcome (unlessFault r).2.frame =
      match r.1 with
      | some e => .fault e
      | none => .go r.2.frame := by
  rcases r with ⟨_ | e, b⟩ <;> rfl

end Branch

namespace Machine

variable {m : Machine} {f : Frame} {c : Counters} {instr : Instr}

/-- A choice splits the branch, or its target is outside the block. -/
theorem performs_choice {offset : Int} (hcur : f.cont.running.current? = some (.choice offset)) :
    m.Performs f c (.choice offset) (m.advance f c).1 := by
  rw [advance_choice hcur, ← Frame.onward]
  cases hpc : f.onward.target offset with
  | error e => exact .fault (.choice hpc)
  | ok pc => exact .choice hpc

section Execute

variable {b : Branch}

/-- A call goes on in the block of the predicate, at once or after the others, or is at fault. -/
theorem performs_invoke {name : String} {args : List Expr}
    (hb : b = Branch.fetched ⟨f, ⟨.empty, c.vars, c.serials⟩, []⟩ (.invoke name args)) :
    m.Performs f c (.invoke name args)
      ((b.invoke m name args).1.outcome (b.invoke m name args).2.frame) := by
  have hframe : b.frame = { f with cont := f.onward } := hb ▸ rfl
  have henv : b.env = f.cont.running.env := hb ▸ rfl
  simp only [Branch.invoke, hframe, henv]
  cases hargs : Expr.evalAll f.cont.running.env f.subst args with
  | error e => exact .fault (.arguments hargs)
  | ok ts =>
    simp only
    cases hlookup : m.program.lookup ⟨name, ts.length⟩ with
    | error e => exact .fault (.callee hargs hlookup)
    | ok block =>
      simp only
      cases hlimit : m.exceeded? (f.onward.depth + 1) with
      | some limit => exact .fault (.depth hargs hlimit)
      | none =>
        subst hb
        simp only
        split <;> exact .invoke hargs (Module.lookup_eq_ok_iff.mp hlookup)

/-- Posting enters a constraint and makes its pass, or it is at fault. -/
theorem performs_post {name : String} {args : List Expr}
    (hcur : f.cont.running.current? = some (.constraint name args))
    (hb : b = Branch.fetched ⟨f, ⟨.empty, c.vars, c.serials⟩, []⟩ (.constraint name args)) :
    m.Performs f c (.constraint name args)
      ((b.post m name args).1.outcome (b.post m name args).2.frame) := by
  have hframe : b.frame = { f with cont := f.onward } := hb ▸ rfl
  have henv : b.env = f.cont.running.env := hb ▸ rfl
  simp only [Branch.post, hframe, henv]
  cases hargs : Expr.evalAll f.cont.running.env f.subst args with
  | error e => exact .fault (.posted hargs)
  | ok ts =>
    have hnew : f.creates? c = some ⟨c.serials.next, ⟨name, ts.length⟩, ts⟩ := by
      simp only [Frame.creates?, hcur, hargs]
    simp only [Branch.outcome_unlessFault]
    subst hb
    obtain ⟨hfault, hpassed⟩ := Branch.frame_fire m _ _
    split
    · next e he => exact .fault (.pass hnew (hfault.symm.trans he))
    · next hnone =>
      rw [hpassed hnone]
      exact .constraint hnew (hfault.symm.trans hnone)

/-- A unification binds and rematches, or the branch fails, or there is a fault. -/
theorem performs_unify {x y : Expr}
    (hb : b = Branch.fetched ⟨f, ⟨.empty, c.vars, c.serials⟩, []⟩ (.unify x y)) :
    m.Performs f c (.unify x y) ((b.unify m x y).1.outcome (b.unify m x y).2.frame) := by
  have hframe : b.frame = { f with cont := f.onward } := hb ▸ rfl
  have henv : b.env = f.cont.running.env := hb ▸ rfl
  simp only [Branch.unify, hframe, henv]
  cases hx : x.eval f.cont.running.env f.subst with
  | error e => exact .fault (.left hx)
  | ok t =>
    cases hy : y.eval f.cont.running.env f.subst with
    | error e => exact .fault (.right hx hy)
    | ok t' =>
      cases hu : f.subst.unify? t t' with
      | none =>
        simp only [hu]
        exact .clash hx hy hu
      | some u =>
        simp only [hu, Branch.outcome_unlessFault]
        subst hb
        rcases Branch.rematches_fireAll m _ _ with
          ⟨hnone, rerun, hrerun⟩ | ⟨e, done, d, later, rerun, g, he, hwaiting, hdone, hd⟩
        · rw [hnone]
          exact .unify hx hy hu hrerun
        · rw [he]
          exact .fault (.passes hx hy hu hwaiting hdone hd)

/-- An instruction other than a choice, carried out by the branch alone. -/
theorem performs_execute (hcur : f.cont.running.current? = some instr)
    (hchoice : ∀ offset, instr ≠ .choice offset)
    (hb : b = Branch.fetched ⟨f, ⟨.empty, c.vars, c.serials⟩, []⟩ instr) :
    m.Performs f c instr ((b.execute m instr).1.outcome (b.execute m instr).2.frame) := by
  have hframe : b.frame = { f with cont := f.onward } := hb ▸ rfl
  cases instr with
  | choice offset => exact absurd rfl (hchoice offset)
  | fail => exact .fail
  | fresh n =>
    subst hb
    exact .fresh n
  | goto offset =>
    simp only [Branch.execute, Branch.goto, hframe]
    cases hpc : f.onward.target offset with
    | error e => exact .fault (.goto hpc)
    | ok pc =>
      subst hb
      exact .goto hpc
  | success =>
    simp only [Branch.execute, Branch.success, hframe]
    cases hk : f.onward.return? with
    | none => exact .answer hk
    | some k =>
      subst hb
      exact .leave hk
  | invoke name args => exact performs_invoke hb
  | constraint name args => exact performs_post hcur hb
  | unify x y => exact performs_unify hb

end Execute

/-- An instruction does one of the things that an instruction can do. -/
theorem performs_advance (hcur : f.cont.running.current? = some instr) :
    m.Performs f c instr (m.advance f c).1 := by
  by_cases hchoice : ∃ offset, instr = .choice offset
  · obtain ⟨offset, rfl⟩ := hchoice
    exact performs_choice hcur
  · have hnochoice : ∀ offset, instr ≠ .choice offset := fun offset heq => hchoice ⟨offset, heq⟩
    rw [advance_execute hcur hnochoice]
    exact performs_execute hcur hnochoice rfl

/-- A branch without a fault has carried an instruction out. -/
theorem exists_performs (hfault : ∀ e, (m.advance f c).1 ≠ .fault e) :
    ∃ instr, f.cont.running.current? = some instr ∧ m.Performs f c instr (m.advance f c).1 := by
  cases hcur : f.cont.running.current? with
  | none => exact absurd (congrArg Prod.fst (advance_of_none hcur)) (hfault _)
  | some instr => exact ⟨instr, rfl, performs_advance hcur⟩

/-- A branch that has made way for another one was at no fault. -/
theorem exists_performs_of_mem {g : Frame} (hg : g ∈ (m.advance f c).1.children) :
    ∃ instr, f.cont.running.current? = some instr ∧ m.Performs f c instr (m.advance f c).1 := by
  refine exists_performs fun e he => ?_
  rw [he] at hg
  cases hg

end Machine

end LogicMachine
