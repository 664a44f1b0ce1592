import LogicMachine.Proofs.Renaming.Frame

/-!
# One instruction of branches that agree

How many numbers an instruction draws is up to the instruction. Drawn on two sides, the numbers
belong together one by one, and so the branches still agree after the instruction.
-/

namespace LogicMachine

namespace Branch

/-- Notes for the log change nothing that the branches share. -/
theorem shared_foldl_note {α : Type} (note : α → Note) (xs : List α) (b : Branch) :
    (xs.foldl (fun b x => b.note (note x)) b).shared = b.shared := by
  induction xs generalizing b with
  | nil => rfl
  | cons x xs ih => exact ih (b.note (note x))

/-- Putting bodies of rules on top of the continuation changes nothing that they share. -/
theorem shared_foldl_schedule (fs : List Firing) (b : Branch) :
    (fs.foldl schedule b).shared = b.shared := by
  induction fs generalizing b with
  | nil => rfl
  | cons f fs ih => exact ih (b.schedule f)

/-- The pass of a constraint draws no number and saves no alternative. -/
theorem shared_fire (m : Machine) (b : Branch) (c : Constraint) :
    (fire m b c).2.shared = b.shared := by
  unfold fire
  simp only
  split
  · rw [shared_foldl_note]
    rfl
  · rw [shared_foldl_schedule, shared_foldl_note]
    rfl

/-- Nor do the passes of several constraints. -/
theorem shared_fireAll (m : Machine) (b : Branch) (cs : List Constraint) :
    (fireAll m b cs).2.shared = b.shared := by
  induction cs generalizing b with
  | nil => rfl
  | cons c cs ih =>
    simp only [fireAll]
    split
    · have hfire := shared_fire m b c
      rcases hr : b.fire m c with ⟨_ | e, b'⟩ <;> rw [hr] at hfire
      · exact (ih b').trans hfire
      · exact hfire
    · exact ih b

/-- A call changes what is running, and nothing else. -/
theorem invoke_eq (m : Machine) (b : Branch) (name : String) (args : List Expr) :
    ∃ cont reports, (invoke m b name args).2 = ⟨{ b.frame with cont }, b.shared, reports⟩ := by
  unfold invoke
  cases Expr.evalAll b.env b.frame.subst args with
  | error e => exact ⟨_, _, rfl⟩
  | ok terms =>
    simp only
    cases m.program.lookup ⟨name, terms.length⟩ with
    | error e => exact ⟨_, _, rfl⟩
    | ok block =>
      simp only
      cases m.exceeded? (b.frame.cont.depth + 1) with
      | some limit => exact ⟨_, _, rfl⟩
      | none =>
        simp only
        split <;> exact ⟨_, _, rfl⟩

/-- A jump changes what is running, and nothing else. -/
theorem goto_eq (b : Branch) (offset : Int) :
    ∃ cont reports, (goto b offset).2 = ⟨{ b.frame with cont }, b.shared, reports⟩ := by
  unfold goto
  split <;> exact ⟨_, _, rfl⟩

/-- A return changes what is running, and nothing else. -/
theorem success_eq (b : Branch) :
    ∃ cont reports, (success b).2 = ⟨{ b.frame with cont }, b.shared, reports⟩ := by
  unfold success
  simp only
  split <;> exact ⟨_, _, rfl⟩

/-- A call draws no number. -/
theorem shared_invoke (m : Machine) (b : Branch) (name : String) (args : List Expr) :
    (invoke m b name args).2.shared = b.shared := by
  obtain ⟨cont, reports, h⟩ := invoke_eq m b name args
  rw [h]

/-- A jump draws no number. -/
theorem shared_goto (b : Branch) (offset : Int) : (goto b offset).2.shared = b.shared := by
  obtain ⟨cont, reports, h⟩ := goto_eq b offset
  rw [h]

/-- A return draws no number. -/
theorem shared_success (b : Branch) : (success b).2.shared = b.shared := by
  obtain ⟨cont, reports, h⟩ := success_eq b
  rw [h]

/-- Whether a fault has come up or not, the shared part is the one the passes have left. -/
theorem shared_unlessFault (r : Option ProgramError × Branch) :
    (unlessFault r).2.shared = r.2.shared := by
  rcases r with ⟨_ | e, b⟩ <;> rfl

/-- A unification draws no number, whatever it makes fire. -/
theorem shared_unify (m : Machine) (b : Branch) (x y : Expr) :
    (unify m b x y).2.shared = b.shared := by
  unfold unify
  cases x.eval b.env b.frame.subst with
  | error e => rfl
  | ok x =>
    simp only
    cases y.eval b.env b.frame.subst with
    | error e => rfl
    | ok y =>
      simp only
      cases b.frame.subst.unify? x y with
      | none => rfl
      | some u =>
        simp only
        rw [shared_unlessFault, shared_fireAll]
        rfl

/-- Posting draws one serial number, unless an argument is missing. -/
theorem shared_post (m : Machine) (b : Branch) (name : String) (args : List Expr) :
    (post m b name args).2.shared = match Expr.evalAll b.env b.frame.subst args with
      | .ok _ => { b.shared with serials := b.shared.serials.draw.2 }
      | .error _ => b.shared := by
  unfold post
  cases Expr.evalAll b.env b.frame.subst args with
  | error e => rfl
  | ok terms =>
    simp only
    rw [shared_unlessFault, shared_fire]
    rfl

end Branch

/-- How many variables and how many constraints the next instruction of a branch makes. -/
def Frame.demand (f : Frame) : Nat × Nat :=
  match f.cont.running.current? with
  | some (.fresh n) => (n, 0)
  | some (.constraint _ args) =>
    match Expr.evalAll f.cont.running.env f.subst args with
    | .ok _ => (0, 1)
    | .error _ => (0, 0)
  | _ => (0, 0)

namespace Counters

/-- The counters after so many numbers were drawn from each. -/
def drawn (c : Counters) (d : Nat × Nat) : Counters :=
  ⟨(c.vars.drawMany d.1).2, (c.serials.drawMany d.2).2⟩

/-- So many numbers can be drawn without any of them coming up again. -/
structure HasRoom (c : Counters) (d : Nat × Nat) : Prop where
  vars : c.vars.next + d.1 ≤ Counter.largest
  serials : c.serials.next + d.2 ≤ Counter.largest

end Counters

/-- The instruction itself decides how many numbers are drawn, and not the numbers before. -/
theorem Machine.counters_advance (m : Machine) (f : Frame) (c : Counters) :
    (m.advance f c).2 = c.drawn f.demand := by
  cases hcur : f.cont.running.current? with
  | none =>
    rw [Machine.advance_of_none hcur]
    simp only [Frame.demand, hcur]
    rfl
  | some instr =>
    by_cases hchoice : ∃ offset, instr = .choice offset
    · obtain ⟨offset, rfl⟩ := hchoice
      rw [Machine.advance_choice hcur]
      simp only [Frame.demand, hcur]
      split <;> rfl
    · rw [Machine.advance_execute hcur fun offset heq => hchoice ⟨offset, heq⟩]
      set b := Branch.fetched ⟨f, ⟨.empty, c.vars, c.serials⟩, []⟩ instr
      have hb : b.shared.counters = c := rfl
      simp only [Frame.demand, hcur]
      cases instr with
      | choice offset => exact absurd ⟨offset, rfl⟩ hchoice
      | invoke name args => exact (congrArg Shared.counters (Branch.shared_invoke m b name args))
      | constraint name args =>
        refine (congrArg Shared.counters (Branch.shared_post m b name args)).trans ?_
        have hargs : Expr.evalAll b.env b.frame.subst args =
          Expr.evalAll f.cont.running.env f.subst args := rfl
        simp only [hargs]
        cases Expr.evalAll f.cont.running.env f.subst args <;> rfl
      | goto offset => exact congrArg Shared.counters (Branch.shared_goto b offset)
      | fresh n => rfl
      | unify x y => exact congrArg Shared.counters (Branch.shared_unify m b x y)
      | success => exact congrArg Shared.counters (Branch.shared_success b)
      | fail => rfl

/-- The numbers that a renaming pairs were all drawn before. -/
structure Renaming.Below (ρ : Renaming) (c c' : Counters) : Prop where
  vars : ρ.vars.Below c.vars.next c'.vars.next
  serials : ρ.serials.Below c.serials.next c'.serials.next

/-- Pair the numbers that are drawn next. -/
def Renaming.grow (ρ : Renaming) {c c' : Counters} (h : ρ.Below c c') (d : Nat × Nat) :
    Renaming where
  vars := ρ.vars.grow h.vars d.1
  serials := ρ.serials.grow h.serials d.2

/-- Pairing the numbers that are drawn next extends the renaming. -/
theorem Renaming.extends_grow {ρ : Renaming} {c c' : Counters} (h : ρ.Below c c') (d : Nat × Nat) :
    ρ.Extends (ρ.grow h d) :=
  ⟨Pairing.extends_grow h.vars d.1, Pairing.extends_grow h.serials d.2⟩

/-- As long as there is room, the counters move on by as many numbers as are drawn. -/
theorem Counters.HasRoom.drawn {c : Counters} {d : Nat × Nat} (h : c.HasRoom d) :
    (c.drawn d).vars.next = c.vars.next + d.1 ∧
      (c.drawn d).serials.next = c.serials.next + d.2 := by
  simp only [Counters.drawn, Counter.drawMany_of_le h.vars, Counter.drawMany_of_le h.serials,
    and_self]

variable {ρ : Renaming} {m : Machine} {f f' : Frame} {c c' : Counters}

/-- After the draw, all paired numbers lie below the counters again. -/
theorem Renaming.below_grow (h : ρ.Below c c') {d : Nat × Nat} (hroom : c.HasRoom d)
    (hroom' : c'.HasRoom d) : (ρ.grow h d).Below (c.drawn d) (c'.drawn d) := by
  constructor
  · rw [hroom.drawn.1, hroom'.drawn.1]
    exact Pairing.below_grow h.vars d.1
  · rw [hroom.drawn.2, hroom'.drawn.2]
    exact Pairing.below_grow h.serials d.2

/-- The numbers drawn on the two sides belong together. -/
theorem Pairing.forall₂_drawMany {R : Pairing} {c c' : Counter} (h : R.Below c.next c'.next)
    {n : Nat} (hc : c.next + n ≤ Counter.largest) (hc' : c'.next + n ≤ Counter.largest) :
    List.Forall₂ (R.grow h n) (c.drawMany n).1 (c'.drawMany n).1 := by
  rw [Counter.drawMany_of_le hc, Counter.drawMany_of_le hc']
  refine List.forall₂_iff_get.mpr ⟨by simp, fun i hi hi' => ?_⟩
  rw [List.length_range'] at hi
  exact .inr ⟨i, hi, by simp, by simp⟩

/-- Frames that agree draw equally many numbers. -/
theorem Frame.Renamed.demand_eq (h : f.Renamed ρ f') : f.demand = f'.demand := by
  unfold Frame.demand
  rw [← h.cont.current?_eq]
  cases hcur : f.cont.running.current? with
  | none => rfl
  | some instr =>
    cases instr with
    | constraint name args =>
      rcases (Expr.evalAll_renamed h.subst h.cont.running.env args
        (h.cont.closed_current hcur)).cases with ⟨ts, ts', hts, hts', -⟩ | ⟨e, hts, hts'⟩ <;>
        simp only [hts, hts']
    | _ => rfl

/-- Run for one instruction, frames that agree have the same outcome, if the numbers that they draw
belong together already. -/
theorem Frame.Renamed.advance_of_drawn (hm : m.isClosed = true) (strategy : Strategy)
    (h : f.Renamed ρ f')
    (hvars : List.Forall₂ ρ.vars (c.vars.drawMany f.demand.1).1 (c'.vars.drawMany f.demand.1).1)
    (hserials : List.Forall₂ ρ.serials (c.serials.drawMany f.demand.2).1
      (c'.serials.drawMany f.demand.2).1) :
    (m.advance f c).1.Renamed ρ ((m.under strategy).advance f' c').1 := by
  have hcurrent := h.cont.current?_eq
  cases hcur : f.cont.running.current? with
  | none =>
    rw [hcur] at hcurrent
    rw [Machine.advance_of_none hcur, Machine.advance_of_none hcurrent.symm,
      h.cont.running.pc_eq, h.cont.running.block_eq]
    exact .fault _
  | some instr =>
    rw [hcur] at hcurrent
    have hclosed := h.cont.closed_current hcur
    have hcont : (f.cont.resumeAt (f.cont.running.pc + 1)).Renamed ρ
        (f'.cont.resumeAt (f'.cont.running.pc + 1)) := by
      rw [h.cont.running.pc_eq]
      exact h.cont.resumeAt _
    -- a choice is the one instruction with two branches after it
    by_cases hchoice : ∃ offset, instr = .choice offset
    · obtain ⟨offset, rfl⟩ := hchoice
      rw [Machine.advance_choice hcur, Machine.advance_choice hcurrent.symm, hcont.target_eq]
      cases (f'.cont.resumeAt (f'.cont.running.pc + 1)).target offset with
      | error e => exact .fault e
      | ok pc => exact .split ⟨h.subst, h.store, hcont⟩ ⟨h.subst, h.store, hcont.resumeAt pc⟩
    · have hne : ∀ offset, instr ≠ .choice offset := fun offset heq => hchoice ⟨offset, heq⟩
      rw [Machine.advance_execute hcur hne, Machine.advance_execute hcurrent.symm hne]
      set b := Branch.fetched ⟨f, ⟨.empty, c.vars, c.serials⟩, []⟩ instr with hb
      set b' := Branch.fetched ⟨f', ⟨.empty, c'.vars, c'.serials⟩, []⟩ instr with hb'
      have hframe : b.frame.Renamed ρ b'.frame := ⟨h.subst, h.store, hcont⟩
      cases instr with
      | choice offset => exact absurd rfl (hne offset)
      | invoke name args => exact Branch.invoke_renamed hm strategy hframe name hclosed
      | constraint name args =>
        refine Branch.post_renamed hm strategy hframe name hclosed fun ts hts => ?_
        -- a constraint draws its serial number only if its arguments have values
        have hdemand : f.demand = (0, 1) := by
          have hargs : Expr.evalAll f.cont.running.env f.subst args = .ok ts := hts
          simp only [Frame.demand, hcur, hargs]
        rw [hdemand] at hserials
        cases hserials with
        | cons hserial _ => exact hserial
      | goto offset => exact Branch.goto_renamed hframe offset
      | fresh n =>
        have hdemand : f.demand = (n, 0) := by simp only [Frame.demand, hcur]
        rw [hdemand] at hvars
        exact Branch.fresh_renamed hframe hvars
      | unify x y =>
        rw [Instr.isClosed, Bool.and_eq_true] at hclosed
        exact Branch.unify_renamed hm strategy hframe hclosed.1 hclosed.2
      | success => exact Branch.success_renamed hframe
      | fail => exact .dead

/-- Run for one instruction, frames that agree have the same outcome, up to a renaming that pairs
the numbers drawn as well. -/
theorem Frame.Renamed.advance (hm : m.isClosed = true) (strategy : Strategy) (h : f.Renamed ρ f')
    (hbelow : ρ.Below c c') (hroom : c.HasRoom f.demand) (hroom' : c'.HasRoom f.demand) :
    (m.advance f c).1.Renamed (ρ.grow hbelow f.demand) ((m.under strategy).advance f' c').1 :=
  (h.mono (Renaming.extends_grow hbelow f.demand)).advance_of_drawn hm strategy
    (Pairing.forall₂_drawMany hbelow.vars hroom.vars hroom'.vars)
    (Pairing.forall₂_drawMany hbelow.serials hroom.serials hroom'.serials)

end LogicMachine
