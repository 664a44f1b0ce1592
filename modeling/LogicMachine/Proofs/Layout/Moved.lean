import LogicMachine.Proofs.Layout.Places
import LogicMachine.Proofs.Renaming.Advance

/-!
# Branches in code that reads the same

Two branches that know the same and stand at matching places of two codes do the same, instruction by
instruction, as long as the second one is not at the end of its code. That end is only a place to
jump to; where it stands for something in the first code, the two part. They may also part where the
first one jumps out of its code.
-/

namespace LogicMachine

/-- The activation at another place of its block. -/
def Activation.resumeAt (a : Activation) (pc : Nat) : Activation := { a with pc }

/-- Where two branches in code that reads the same may part: at the end of some codes of the second
branch, and at jumps of the first one out of its code if `stray`. -/
structure Parting where
  atEnd : List Instr → Prop
  stray : Prop

/-- Two activations of the same origin over the same registers. They are the same, or what they run
reads the same from where they are. -/
inductive Activation.Moved (E : Parting) (a a' : Activation) : Prop
  | same (h : a = a')
  | places (horigin : a.origin = a'.origin) (henv : a.env = a'.env)
      (hlabel : a.block.label = a'.block.label) (hE : E.atEnd a'.block.code)
      (h : SamePlace E.stray a.block.code a.pc a'.block.code a'.pc)

/-- Two activations that are about to run the same instruction, if there is one. -/
inductive Activation.Paired (E : Parting) (a a' : Activation) : Prop
  | same (h : a = a')
  | places {S : Nat → Nat → Prop} (horigin : a.origin = a'.origin) (henv : a.env = a'.env)
      (hlabel : a.block.label = a'.block.label) (hE : E.atEnd a'.block.code)
      (hS : Matches E.stray a.block.code a'.block.code S) (h : S a.pc a'.pc)

/-- Two frames that know the same and whose activations agree up to the places that they are at. -/
structure Frame.Moved (E : Parting) (f f' : Frame) : Prop where
  subst_eq : f.subst = f'.subst
  store_eq : f.store = f'.store
  running : f.cont.running.Moved E f'.cont.running
  callers : List.Forall₂ (Activation.Moved E) f.cont.callers f'.cont.callers

/-- Two frames of that kind that are about to run the same instruction. -/
structure Frame.Paired (E : Parting) (f f' : Frame) : Prop extends Frame.Moved E f f' where
  paired : f.cont.running.Paired E f'.cont.running

/-- Two outcomes that agree up to the places that their frames are at. -/
inductive Outcome.Moved (E : Parting) : Outcome → Outcome → Prop
  | go {f f' : Frame} (h : f.Moved E f') : Moved E (.go f) (.go f')
  | split {f f' g g' : Frame} (h : f.Moved E f') (hg : g.Moved E g') :
      Moved E (.split f g) (.split f' g')
  | dead : Moved E .dead .dead
  | answer (s : Solution) : Moved E (.answer s) (.answer s)
  | fault (e : ProgramError) : Moved E (.fault e) (.fault e)

variable {E : Parting} {m : Machine} {c : Counters}

namespace Activation

variable {a a' : Activation}

/-- They have the same registers. -/
theorem Moved.env_eq (h : a.Moved E a') : a.env = a'.env := by
  cases h with
  | same h => rw [h]
  | places _ henv => exact henv

/-- They may both get the same new registers. -/
theorem Moved.prepend (h : a.Moved E a') (ts : List Term) :
    Moved E { a with env := ts ++ a.env } { a' with env := ts ++ a'.env } := by
  cases h with
  | same h =>
    subst h
    exact .same rfl
  | places horigin henv hlabel hE h =>
    refine .places horigin ?_ hlabel hE h
    simp only [henv]

/-- Two activations that are paired and not at the end of the second one: they are about to run the
same instruction, if any, and agree again behind it and wherever it jumps, unless it strays. -/
structure InStep (E : Parting) (a a' : Activation) : Prop where
  env_eq : a.env = a'.env
  current_eq : a.current? = a'.current?
  same : a'.current? = none → a = a'
  onward : ∀ instr, a'.current? = some instr →
    (a.resumeAt (a.pc + 1)).Moved E (a'.resumeAt (a'.pc + 1))
  jump : ∀ instr offset, a'.current? = some instr → instr.jump? = some offset →
    a = a' ∨ (∃ p q, Lands a.block.code a.pc offset p ∧ Lands a'.block.code a'.pc offset q ∧
      (a.resumeAt p).Moved E (a'.resumeAt q)) ∨
      E.stray ∧ ¬ ∃ p, Lands a.block.code a.pc offset p

/-- Either the second activation is at the end of its code, or the two go on in step. -/
theorem Paired.cases (h : a.Paired E a') :
    (E.atEnd a'.block.code ∧ a'.pc = a'.block.code.length ∧ a'.current? = none) ∨ a.InStep E a' := by
  cases h with
  | same h =>
    subst h
    exact .inr ⟨rfl, rfl, fun _ => rfl, fun _ _ => .same rfl, fun _ _ _ _ => .inl rfl⟩
  | @places S horigin henv hlabel hE hS h =>
    have hmoved : ∀ {p q}, Joined a.block.code a'.block.code S p q →
        (a.resumeAt p).Moved E (a'.resumeAt q) := fun hjoin =>
      .places horigin henv hlabel hE ⟨S, hS, hjoin⟩
    by_cases hend : a'.pc = a'.block.code.length
    · exact .inl ⟨hE, hend, by rw [current?, hend, List.getElem?_length]⟩
    · have hlt : a'.pc < a'.block.code.length := by
        have hle := hS.le_length h
        omega
      refine .inr ⟨henv, hS.current h hlt, fun hnone => ?_, fun _ _ => hmoved (hS.onward h hlt), ?_⟩
      · rw [current?, List.getElem?_eq_none_iff] at hnone
        omega
      · intro instr offset hcur hoffset
        have hjump : jumpAt? a'.block.code a'.pc = some offset :=
          Option.bind_eq_some_iff.mpr ⟨instr, hcur, hoffset⟩
        rcases hS.jump h hjump with ⟨p, q, hp, hq, hjoin⟩ | hout
        · exact .inr (.inl ⟨p, q, hp, hq, hmoved hjoin⟩)
        · exact .inr (.inr hout)

end Activation

namespace Continuation

/-- Two continuations that agree up to the places that their activations are at. -/
structure Moved (E : Parting) (k k' : Continuation) : Prop where
  running : k.running.Moved E k'.running
  callers : List.Forall₂ (Activation.Moved E) k.callers k'.callers

variable {k k' : Continuation}

/-- Continuations that agree are equally deep. -/
theorem Moved.depth_eq (h : Moved E k k') : k.depth = k'.depth := by
  rw [k.depth_eq, k'.depth_eq, h.callers.length_eq]

/-- Both may call the same block, and what is called is the same. -/
theorem Moved.call (h : Moved E k k') (origin : Origin) (env : Env) (block : Block) :
    Moved E (k.call origin env block) (k'.call origin env block) :=
  ⟨.same rfl, .cons h.running h.callers⟩

/-- Both may get the same new registers. -/
theorem Moved.prepend (h : Moved E k k') (ts : List Term) :
    Moved E (k.prepend ts) (k'.prepend ts) :=
  ⟨h.running.prepend ts, h.callers⟩

/-- Both return to callers that agree, or neither has a caller left. -/
theorem Moved.return? (h : Moved E k k') : Option.Rel (Moved E) k.return? k'.return? := by
  obtain ⟨running, callers, depth, hdepth⟩ := k
  obtain ⟨running', callers', depth', hdepth'⟩ := k'
  have hcallers : List.Forall₂ (Activation.Moved E) callers callers' := h.callers
  cases hcallers with
  | nil => exact .none
  | cons hcaller hrest => exact .some ⟨hcaller, hrest⟩

end Continuation

/-- What runs in frames that agree, with its callers. -/
theorem Frame.Moved.cont {f f' : Frame} (h : f.Moved E f') : f.cont.Moved E f'.cont :=
  ⟨h.running, h.callers⟩

/-! ### Instructions -/

namespace Branch

variable {b b' : Branch}

/-- Instructions have had the same outcome, up to places. -/
def MovedRun (E : Parting) (r r' : Request × Branch) : Prop :=
  (r.1.outcome r.2.frame).Moved E (r'.1.outcome r'.2.frame)

/-- Attempts to fire rules have come equally far. -/
def MovedFired (E : Parting) (r r' : Option ProgramError × Branch) : Prop :=
  r.1 = r'.1 ∧ r.2.frame.Moved E r'.2.frame

/-- Both go on after matching, or both stop at the same fault. -/
theorem MovedFired.unlessFault {r r' : Option ProgramError × Branch} (h : MovedFired E r r') :
    MovedRun E (unlessFault r) (unlessFault r') := by
  obtain ⟨e, b⟩ := r
  obtain ⟨e', b'⟩ := r'
  obtain ⟨rfl, hframe⟩ := h
  cases e with
  | some e => exact .fault e
  | none => exact .go hframe

/-- Both may have the same body put on top. -/
theorem schedule_moved (h : b.frame.Moved E b'.frame) (f : Firing) :
    (b.schedule f).frame.Moved E (b'.schedule f).frame := by
  have hcont := h.cont.call (.rule f.occurrence.index) f.env
    ⟨.rule f.occurrence.index, f.occurrence.rule.body⟩
  exact ⟨h.subst_eq, h.store_eq, hcont.running, hcont.callers⟩

/-- The stores are the same, so the same rules fire. -/
theorem fire_moved (m : Machine) (h : b.frame.Moved E b'.frame) (c : Constraint) :
    MovedFired E (fire m b c) (fire m b' c) := by
  unfold fire
  simp only
  rw [h.subst_eq, h.store_eq]
  generalize b'.frame.store.matchRules m.rules b'.frame.subst c = p
  have hnoted : ∀ note : Firing → Note,
      (p.firings.foldl (fun noted f => noted.note (note f)) (b.setStore p.store)).frame.Moved E
        (p.firings.foldl (fun noted f => noted.note (note f)) (b'.setStore p.store)).frame := by
    intro note
    rw [frame_foldl_note, frame_foldl_note]
    exact ⟨h.subst_eq, rfl, h.running, h.callers⟩
  cases p.fault with
  | some e => exact ⟨rfl, hnoted _⟩
  | none =>
    refine ⟨rfl, ?_⟩
    have hscheduled : ∀ (fs : List Firing) {b b' : Branch}, b.frame.Moved E b'.frame →
        (fs.foldl schedule b).frame.Moved E (fs.foldl schedule b').frame := by
      intro fs
      induction fs with
      | nil => exact fun h => h
      | cons f fs ih => exact fun h => ih (schedule_moved h f)
    exact hscheduled _ (hnoted _)

/-- So it is for several constraints, one after another. -/
theorem fireAll_moved (m : Machine) (h : b.frame.Moved E b'.frame) (cs : List Constraint) :
    MovedFired E (fireAll m b cs) (fireAll m b' cs) := by
  induction cs generalizing b b' with
  | nil => exact ⟨rfl, h⟩
  | cons c cs ih =>
    simp only [fireAll, h.store_eq]
    split
    · have hfire := fire_moved m h c
      generalize b.fire m c = r, b'.fire m c = r' at hfire ⊢
      obtain ⟨e, b₁⟩ := r
      obtain ⟨e', b₁'⟩ := r'
      obtain ⟨rfl, hframe⟩ := hfire
      cases e with
      | some e => exact ⟨rfl, hframe⟩
      | none => exact ih hframe
    · exact ih h

/-- Branches that agree read the same registers. -/
theorem env_moved (h : b.frame.Moved E b'.frame) : b.env = b'.env := h.running.env_eq

/-- A call finds the same block, with the same arguments, at the same depth. -/
theorem invoke_moved (m : Machine) (h : b.frame.Moved E b'.frame) (name : String)
    (args : List Expr) : MovedRun E (invoke m b name args) (invoke m b' name args) := by
  unfold invoke
  rw [env_moved h, h.subst_eq]
  cases Expr.evalAll b'.env b'.frame.subst args with
  | error e => exact .fault e
  | ok ts =>
    simp only
    cases m.program.lookup ⟨name, ts.length⟩ with
    | error e => exact .fault e
    | ok block =>
      simp only [h.cont.depth_eq]
      cases m.exceeded? (b'.frame.cont.depth + 1) with
      | some limit => exact .fault _
      | none =>
        have hcont := h.cont.call (.predicate ⟨name, ts.length⟩) ts block
        simp only
        split <;> split <;> exact .go ⟨h.subst_eq, h.store_eq, hcont.running, hcont.callers⟩

/-- The same constraint is posted if the next serial number is the same. -/
theorem post_moved (m : Machine) (h : b.frame.Moved E b'.frame)
    (hserials : b.shared.serials = b'.shared.serials) (name : String) (args : List Expr) :
    MovedRun E (post m b name args) (post m b' name args) := by
  unfold post
  rw [env_moved h, h.subst_eq, h.store_eq, hserials]
  cases Expr.evalAll b'.env b'.frame.subst args with
  | error e => exact .fault e
  | ok ts =>
    refine MovedFired.unlessFault (fire_moved m ?_ _)
    exact ⟨h.subst_eq, rfl, h.running, h.callers⟩

/-- The same terms are unified, and the same constraints are matched again. -/
theorem unify_moved (m : Machine) (h : b.frame.Moved E b'.frame) (x y : Expr) :
    MovedRun E (unify m b x y) (unify m b' x y) := by
  unfold unify
  rw [env_moved h, h.subst_eq]
  cases x.eval b'.env b'.frame.subst with
  | error e => exact .fault e
  | ok t =>
    simp only
    cases y.eval b'.env b'.frame.subst with
    | error e => exact .fault e
    | ok t' =>
      simp only
      cases b'.frame.subst.unify? t t' with
      | none => exact .dead
      | some u =>
        simp only [event, h.store_eq]
        refine MovedFired.unlessFault (fireAll_moved m ?_ _)
        exact ⟨rfl, rfl, h.running, h.callers⟩

/-- The same variables are made if the next number is the same. -/
theorem fresh_moved (h : b.frame.Moved E b'.frame) (hvars : b.shared.vars = b'.shared.vars)
    (n : Nat) : MovedRun E (fresh b n) (fresh b' n) := by
  unfold fresh
  rw [hvars]
  have hcont := h.cont.prepend ((b'.shared.vars.drawMany n).1.map .var)
  exact .go ⟨h.subst_eq, h.store_eq, hcont.running, hcont.callers⟩

/-- Both return, or both have found the same answer. -/
theorem success_moved (h : b.frame.Moved E b'.frame) :
    MovedRun E (success b) (success b') := by
  unfold success
  rcases optionRel_cases h.cont.return? with ⟨k, k', hk, hk', hkk⟩ | ⟨hk, hk'⟩ <;>
    simp only [hk, hk']
  · exact .go ⟨h.subst_eq, h.store_eq, hkk.running, hkk.callers⟩
  · rw [h.subst_eq, h.store_eq]
    exact .answer _

end Branch

/-! ### One instruction -/

namespace Continuation

variable {k k' : Continuation}

/-- A jump that lands at a place of the code goes there. -/
theorem target_of_lands {offset : Int} {q : Nat}
    (h : Lands k.running.block.code k.running.pc offset q) :
    (k.resumeAt (k.running.pc + 1)).target offset = .ok q := by
  obtain ⟨hq, hle⟩ := h
  refine target_eq_ok_iff.mpr ⟨?_, hle⟩
  rw [hq]
  rfl

/-- Where a jump leads does not depend on the callers. -/
theorem target_congr (h : k.running = k'.running) (pc : Nat) (offset : Int) :
    (k.resumeAt pc).target offset = (k'.resumeAt pc).target offset := by
  obtain ⟨running, callers, depth, hdepth⟩ := k
  obtain ⟨running', callers', depth', hdepth'⟩ := k'
  obtain rfl : running = running' := h
  rfl

/-- Out of its code a jump does not lead anywhere. -/
theorem target_of_stray {offset : Int}
    (h : ¬ ∃ q, Lands k.running.block.code k.running.pc offset q) :
    ∃ e, (k.resumeAt (k.running.pc + 1)).target offset = .error e := by
  cases htarget : (k.resumeAt (k.running.pc + 1)).target offset with
  | error e => exact ⟨e, rfl⟩
  | ok q =>
    obtain ⟨hq, hle⟩ := target_eq_ok_iff.mp htarget
    exact absurd ⟨q, hq, hle⟩ h

/-- A jump is a fault for both of two continuations in step, or it leads to places at which they
agree, unless it strays. -/
theorem target_moved (h : k.running.InStep E k'.running)
    (hcallers : List.Forall₂ (Activation.Moved E) k.callers k'.callers) {instr : Instr}
    {offset : Int} (hcur : k'.running.current? = some instr)
    (hoffset : instr.jump? = some offset) :
    (E.stray ∧ ∃ e, (k.resumeAt (k.running.pc + 1)).target offset = .error e) ∨
    (∃ e, (k.resumeAt (k.running.pc + 1)).target offset = .error e ∧
      (k'.resumeAt (k'.running.pc + 1)).target offset = .error e) ∨
    ∃ p q, (k.resumeAt (k.running.pc + 1)).target offset = .ok p ∧
      (k'.resumeAt (k'.running.pc + 1)).target offset = .ok q ∧
      Moved E (k.resumeAt p) (k'.resumeAt q) := by
  rcases h.jump instr offset hcur hoffset with
    hsame | ⟨p, q, hp, hq, hmoved⟩ | ⟨hstray, hout⟩
  · rw [target_congr hsame, hsame]
    cases (k'.resumeAt (k'.running.pc + 1)).target offset with
    | error e => exact .inr (.inl ⟨e, rfl, rfl⟩)
    | ok q => exact .inr (.inr ⟨q, q, rfl, rfl, .same (congrArg (·.resumeAt q) hsame), hcallers⟩)
  · exact .inr (.inr ⟨p, q, target_of_lands hp, target_of_lands hq, hmoved, hcallers⟩)
  · exact .inl ⟨hstray, target_of_stray hout⟩

end Continuation

variable {f f' : Frame}

/-- A jump by itself: the branch goes on at the target, or it is at fault. -/
theorem Machine.advance_goto {offset : Int}
    (hcur : f.cont.running.current? = some (.goto offset)) :
    m.advance f c = match (f.cont.resumeAt (f.cont.running.pc + 1)).target offset with
      | .error e => (.fault e, c)
      | .ok pc => (.go { f with cont := f.cont.resumeAt pc }, c) := by
  rw [advance_execute hcur nofun]
  simp only [Branch.execute, Branch.goto]
  have hcont : (Branch.fetched ⟨f, ⟨.empty, c.vars, c.serials⟩, []⟩ (.goto offset)).frame.cont =
      f.cont.resumeAt (f.cont.running.pc + 1) := rfl
  rw [hcont]
  cases (f.cont.resumeAt (f.cont.running.pc + 1)).target offset <;> rfl

/-- Two frames in step draw as many numbers. -/
theorem Frame.demand_eq (hsubst : f.subst = f'.subst)
    (h : f.cont.running.InStep E f'.cont.running) : f.demand = f'.demand := by
  simp only [Frame.demand, h.current_eq, h.env_eq, hsubst]

/-- Frames in step have the same outcome, up to places, unless the first one strays. -/
theorem Frame.Moved.advance (h : f.Moved E f') (hstep : f.cont.running.InStep E f'.cont.running)
    (m : Machine) (c : Counters) :
    (E.stray ∧ ∃ e, (m.advance f c).1 = .fault e) ∨
      (m.advance f c).1.Moved E (m.advance f' c).1 := by
  have hcurrent := hstep.current_eq
  cases hcur : f'.cont.running.current? with
  | none =>
    rw [hcur] at hcurrent
    rw [Machine.advance_of_none hcurrent, Machine.advance_of_none hcur, hstep.same hcur]
    exact .inr (.fault _)
  | some instr =>
    rw [hcur] at hcurrent
    have honward : f.onward.Moved E f'.onward := ⟨hstep.onward instr hcur, h.callers⟩
    -- only instructions with a jump can stray: the others go on at the next place on both sides
    by_cases hjump : ∃ offset, instr.jump? = some offset
    · obtain ⟨offset, hoffset⟩ := hjump
      have htarget := Continuation.target_moved hstep h.callers hcur hoffset
      cases instr with
      | goto =>
        rw [Machine.advance_goto hcurrent, Machine.advance_goto hcur]
        obtain rfl := Option.some.inj hoffset
        rcases htarget with ⟨hstray, e, hp⟩ | ⟨e, hp, hq⟩ | ⟨p, q, hp, hq, hjumped⟩
        · exact .inl ⟨hstray, e, by rw [hp]⟩
        · rw [hp, hq]
          exact .inr (.fault e)
        · rw [hp, hq]
          exact .inr (.go ⟨h.subst_eq, h.store_eq, hjumped.running, hjumped.callers⟩)
      | choice =>
        rw [Machine.advance_choice hcurrent, Machine.advance_choice hcur]
        obtain rfl := Option.some.inj hoffset
        rcases htarget with ⟨hstray, e, hp⟩ | ⟨e, hp, hq⟩ | ⟨p, q, hp, hq, hjumped⟩
        · exact .inl ⟨hstray, e, by rw [hp]⟩
        · rw [hp, hq]
          exact .inr (.fault e)
        · rw [hp, hq]
          exact .inr (.split ⟨h.subst_eq, h.store_eq, honward.running, honward.callers⟩
            ⟨h.subst_eq, h.store_eq, hjumped.running, hjumped.callers⟩)
      | invoke | constraint | fresh | unify | success | fail => cases hoffset
    · have hne : ∀ offset, instr ≠ .choice offset := fun offset heq => hjump ⟨offset, heq ▸ rfl⟩
      refine .inr ?_
      rw [Machine.advance_execute hcurrent hne, Machine.advance_execute hcur hne]
      set b := Branch.fetched ⟨f, ⟨.empty, c.vars, c.serials⟩, []⟩ instr with hb
      set b' := Branch.fetched ⟨f', ⟨.empty, c.vars, c.serials⟩, []⟩ instr with hb'
      have hframe : b.frame.Moved E b'.frame :=
        ⟨h.subst_eq, h.store_eq, honward.running, honward.callers⟩
      cases instr with
      | goto offset | choice offset => exact absurd ⟨offset, rfl⟩ hjump
      | invoke name args => exact Branch.invoke_moved m hframe name args
      | constraint name args => exact Branch.post_moved m hframe rfl name args
      | fresh n => exact Branch.fresh_moved hframe rfl n
      | unify x y => exact Branch.unify_moved m hframe x y
      | success => exact Branch.success_moved hframe
      | fail => exact .dead

/-- Frames that are paired have the same outcome, up to places, unless the first one strays or the
second one is at the end of its code. -/
theorem Frame.Paired.advance (h : f.Paired E f') (m : Machine) (c : Counters) :
    (E.stray ∧ ∃ e, (m.advance f c).1 = .fault e) ∨
      (∃ code, E.atEnd code ∧ (m.advance f' c).1 = .fault (.endOfBlock code.length code.length)) ∨
      (m.advance f c).1.Moved E (m.advance f' c).1 ∧ (m.advance f c).2 = (m.advance f' c).2 := by
  rcases h.paired.cases with ⟨hE, hend, hnone⟩ | hstep
  · refine .inr (.inl ⟨_, hE, ?_⟩)
    rw [Machine.advance_of_none hnone, hend]
  · have hcounters : (m.advance f c).2 = (m.advance f' c).2 := by
      rw [m.counters_advance, m.counters_advance, Frame.demand_eq h.subst_eq hstep]
    exact (h.toMoved.advance hstep m c).imp_right fun hmoved => .inr ⟨hmoved, hcounters⟩

end LogicMachine
