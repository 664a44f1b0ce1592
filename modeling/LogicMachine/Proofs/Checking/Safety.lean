import LogicMachine.Proofs.Checking.Blocks
import LogicMachine.Proofs.Constraints.Only
import LogicMachine.Proofs.Search.Performing
import LogicMachine.Proofs.Search.Reached
import LogicMachine.Samples

/-!
# Checked programs have no faults

A program that has been checked before it runs, block by block and rule by rule, is never at fault.
Every activation of a branch, running or waiting, has the registers that its place is to have, and
every constraint has as many arguments as its signature says; so all that an instruction asks for is
there, and it leaves both as they were.
-/

namespace LogicMachine

/-! ### What is checked -/

namespace Machine

/-- Every call in the code is of a predicate that is defined. -/
def Defines (m : Machine) (code : List Instr) : Prop :=
  ∀ instr ∈ code, ∀ sig ∈ instr.callee?, (m.program.get? sig).isSome = true

instance (m : Machine) (code : List Instr) : Decidable (m.Defines code) :=
  inferInstanceAs (Decidable (∀ instr ∈ code, _))

/-- The code can run with `k` registers at its start, and calls nothing that is not defined. -/
structure Accepts (m : Machine) (k : Nat) (code : List Instr) : Prop where
  wellFormed : WellFormed k code
  defined : m.Defines code

/-- The query, every predicate and every rule can run with the registers that they start with. -/
structure Checked (m : Machine) (q : Query) : Prop where
  query : m.Accepts q.env.length q.code
  predicates : ∀ sig block, m.program.get? sig = some block → m.Accepts sig.arity block.code
  guards : ∀ r ∈ m.rules.rules, Guard.allOver r.arity r.guards = true
  bodies : ∀ r ∈ m.rules.rules, m.Accepts r.bodySize r.body

end Machine

variable {m : Machine} {q : Query} {f g : Frame} {c : Counters} {instr : Instr} {o : Outcome}
  {d : Constraint} {cs rerun : List Constraint} {e : ProgramError}

/-! ### Activations -/

/-- The activation has the registers that its place in the block is to have. -/
def Activation.Fits (m : Machine) (a : Activation) : Prop :=
  ∃ sizes, Sized sizes a.block.code ∧ m.Defines a.block.code ∧ sizes[a.pc]? = some a.env.length

/-- Whatever runs the code starts with the registers that it is to have. -/
theorem Machine.Accepts.fits {env : Env} {block : Block} (h : m.Accepts env.length block.code)
    (origin : Origin) : (⟨origin, env, block, 0⟩ : Activation).Fits m := by
  obtain ⟨⟨sizes, hsized, hstart⟩, hdefined⟩ := h
  exact ⟨sizes, hsized, hdefined, hstart⟩

namespace Activation.Fits

variable {a : Activation}

/-- No activation runs off the end of its block: there is an instruction at its place. -/
theorem exists_current (h : a.Fits m) : ∃ instr, a.current? = some instr := by
  obtain ⟨sizes, hsized, -, hn⟩ := h
  exact hsized.exists_instr hn

/-- All registers that the next instruction reads are there. -/
theorem isOver (h : a.Fits m) (hcur : a.current? = some instr) :
    ∀ e ∈ instr.operands, e.isOver a.env.length = true := by
  obtain ⟨sizes, hsized, -, hn⟩ := h
  exact (hsized.fits a.pc instr _ hcur hn).1

/-- The predicate that is called next is defined. -/
theorem defined {name : String} {args : List Expr} (h : a.Fits m)
    (hcur : a.current? = some (.invoke name args)) :
    ∃ block, m.program.get? ⟨name, args.length⟩ = some block := by
  obtain ⟨sizes, -, hdefined, -⟩ := h
  exact Option.isSome_iff_exists.mp (hdefined _ (List.mem_of_getElem? hcur) _ rfl)

/-- The places where the block can go on are places of the block. -/
theorem lt_length (h : a.Fits m) (hcur : a.current? = some instr) {place : Int}
    (hplace : place ∈ instr.successors a.pc) : 0 ≤ place ∧ place < a.block.code.length := by
  obtain ⟨sizes, hsized, -, hn⟩ := h
  obtain ⟨hnonneg, hsize⟩ := (hsized.fits a.pc instr _ hcur hn).2 place hplace
  have hlt := (List.getElem?_eq_some_iff.mp hsize).1
  rw [hsized.length_eq] at hlt
  omega

/-- Wherever the block goes on, it has the registers that it is to have there. -/
theorem next (h : a.Fits m) (hcur : a.current? = some instr) {pc : Nat} {env : Env}
    (hplace : (pc : Int) ∈ instr.successors a.pc)
    (henv : env.length = a.env.length + instr.growth) : ({ a with pc, env } : Activation).Fits m := by
  obtain ⟨sizes, hsized, hdefined, hn⟩ := h
  obtain ⟨-, hsize⟩ := (hsized.fits a.pc instr _ hcur hn).2 _ hplace
  exact ⟨sizes, hsized, hdefined, henv ▸ hsize⟩

/-- Behind an instruction that does not jump there are the registers that it leaves. -/
theorem following (h : a.Fits m) (hcur : a.current? = some instr) {env : Env}
    (hplace : (a.pc + 1 : Int) ∈ instr.successors a.pc)
    (henv : env.length = a.env.length + instr.growth) :
    ({ a with pc := a.pc + 1, env } : Activation).Fits m :=
  h.next hcur hplace henv

end Activation.Fits

/-- All activations have the registers that they are to have. -/
def Continuation.Fits (m : Machine) (k : Continuation) : Prop :=
  ∀ a ∈ k.running :: k.callers, a.Fits m

namespace Continuation.Fits

variable {k k' : Continuation}

/-- What is running has the registers that it is to have. -/
theorem running (h : k.Fits m) : k.running.Fits m := h _ List.mem_cons_self

/-- What runs may be changed for something that fits, above the same callers. -/
theorem replace (h : k.Fits m) (hrunning : k'.running.Fits m) (hcallers : k'.callers = k.callers) :
    k'.Fits m :=
  List.forall_mem_cons.mpr ⟨hrunning, hcallers ▸ (List.forall_mem_cons.mp h).2⟩

/-- A block that is accepted for its arguments fits when it is called. -/
theorem call {env : Env} {block : Block} (h : k.Fits m) (origin : Origin)
    (hblock : m.Accepts env.length block.code) : (k.call origin env block).Fits m :=
  List.forall_mem_cons.mpr ⟨hblock.fits origin, h⟩

/-- Callers have waited with the registers that they are to have, so a return finds them fit. -/
theorem return? (h : ∀ a ∈ k.callers, a.Fits m) (hk : k.return? = some k') : k'.Fits m := by
  rwa [callers_of_return? hk] at h

end Continuation.Fits

/-- Behind an instruction that adds no registers the block can go on at once. -/
theorem Frame.fits_onward (h : f.cont.Fits m) (hcur : f.cont.running.current? = some instr)
    (hplace : (f.cont.running.pc + 1 : Int) ∈ instr.successors f.cont.running.pc)
    (hgrowth : instr.growth = 0) : f.onward.Fits m :=
  h.replace (h.running.following hcur hplace (by rw [hgrowth]; rfl)) rfl

/-! ### Branches -/

/-- The constraint has as many arguments as its signature says. -/
def Constraint.WellSized (c : Constraint) : Prop := c.args.length = c.sig.arity

/-- All that a checked program needs to know of a branch. -/
structure Frame.Checked (m : Machine) (f : Frame) : Prop where
  cont : f.cont.Fits m
  store : f.store.Only Constraint.WellSized

/-- Constraints at the heads of a rule have as many arguments together as its guards expect. -/
theorem Rule.Candidates.length_args {r : Rule} (h : r.Candidates Constraint.WellSized cs) :
    (cs.flatMap (·.args)).length = r.arity := by
  rw [List.length_flatMap, arity, ← h.heads, List.map_map]
  exact congrArg List.sum (List.map_congr_left fun d hd => h.only d hd)

/-- A new constraint is created with the signature of its arguments. -/
theorem Frame.wellSized_of_creates? (h : f.creates? c = some d) : d.WellSized := by
  unfold creates? at h
  split at h
  · split at h <;> cases h
    rfl
  · cases h

namespace Frame.Checked

section Passes

variable (hm : m.Checked q)

include hm

/-- A pass ends without a fault, and the bodies that it calls have their registers. -/
theorem matched (h : f.Checked m) (hd : d.WellSized) :
    (f.store.matchRules m.rules f.subst d).fault = none ∧ (f.matched m.rules d).Checked m := by
  have hpass := h.store.matchRules hd m.rules f.subst
  have hover : ∀ r ∈ m.rules.rules, ∀ cs, r.Candidates Constraint.WellSized cs →
      Guard.allOver (cs.flatMap (·.args)).length r.guards = true :=
    fun r hr cs hcs => hcs.length_args ▸ hm.guards r hr
  have hguards := fun r hr cs hcs => Guard.checkAll_of_allOver f.subst (hover r hr cs hcs)
  refine ⟨?_, ?_, hpass.store⟩
  · by_contra hfault
    obtain ⟨e, he⟩ := Option.ne_none_iff_exists'.mp hfault
    obtain ⟨r, hr, cs, hcs, hcheck⟩ := hpass.fault e he
    rcases hguards r hr cs hcs with hok | ⟨env, hok, -⟩ <;> cases hcheck.symm.trans hok
  · refine List.foldlRecOn _ _ h.cont fun k hk firing hfiring => hk.call _ ?_
    obtain ⟨hr, hcs, hcheck⟩ := hpass.firings firing hfiring
    have hsize : firing.env.length = firing.occurrence.rule.bodySize := by
      rcases hguards _ hr _ hcs with hok | ⟨env, hok, hlength⟩
      · cases hcheck.symm.trans hok
      · obtain rfl := Option.some.inj (Except.ok.inj (hcheck.symm.trans hok))
        rw [hlength, hcs.length_args, Rule.bodySize]
    exact hsize ▸ hm.bodies _ hr

/-- So does one pass after another. -/
theorem rematched (h : f.Checked m) (hcs : ∀ d ∈ cs, d.WellSized)
    (hpasses : Rematches m.rules f cs rerun g) : g.Checked m := by
  induction hpasses with
  | done f => exact h
  | live _ _ _ ih =>
    rw [List.forall_mem_cons] at hcs
    exact ih (h.matched hm hcs.1).2 hcs.2
  | deleted _ _ ih => exact ih h fun d hd => hcs d (List.mem_cons_of_mem _ hd)

end Passes

/-- A new constraint, before its pass. -/
theorem entering {name : String} {args : List Expr} (h : f.Checked m)
    (hcur : f.cont.running.current? = some (.constraint name args))
    (hnew : f.creates? c = some d) : (f.entering d).Checked m where
  cont := fits_onward h.cont hcur (by simp [Instr.successors]) rfl
  store := h.store.enter (wellSized_of_creates? hnew) f.subst

/-- New bindings, before anything is matched again. -/
theorem bound {x y : Expr} (h : f.Checked m)
    (hcur : f.cont.running.current? = some (.unify x y)) (u : Unifier) : (f.bound u).Checked m where
  cont := fits_onward h.cont hcur (by simp [Instr.successors]) rfl
  store := (h.store.handOverAll u.subst u.bindings).1

/-- All that an instruction asks for is there. -/
theorem not_faults (hm : m.Checked q) (hdepth : m.maxDepth = none) (h : f.Checked m)
    (hcur : f.cont.running.current? = some instr) : ¬ m.Faults f c instr e := by
  have hrunning := h.cont.running
  have hover := hrunning.isOver hcur
  -- a jump of the instruction stays inside the block, so it lands
  have hjump : ∀ {offset : Int}, (f.cont.running.pc + 1 + offset : Int) ∈
      instr.successors f.cont.running.pc → f.onward.target offset ≠ .error e := by
    intro offset hplace herror
    obtain ⟨hnonneg, hlt⟩ := hrunning.lt_length hcur hplace
    have hok : f.onward.target offset = .ok (f.cont.running.pc + 1 + offset).toNat := by
      rw [Continuation.target_eq_ok_iff]
      simp only [Frame.onward, Continuation.resumeAt]
      omega
    cases herror.symm.trans hok
  intro hfaults
  cases hfaults with
  | arguments hargs | posted hargs =>
    obtain ⟨ts, hok⟩ := Expr.exists_evalAll (s := f.subst) fun e he => Expr.exists_eval (hover e he)
    cases hargs.symm.trans hok
  | callee hargs hblock =>
    obtain ⟨block, hget⟩ := hrunning.defined hcur
    rw [Expr.length_of_evalAll hargs, Module.lookup_eq_ok_iff.mpr hget] at hblock
    cases hblock
  | depth _ hlimit =>
    rw [Machine.exceeded?, hdepth] at hlimit
    cases hlimit
  | pass hnew hfault =>
    have hnone := ((h.entering hcur hnew).matched hm (wellSized_of_creates? hnew)).1
    cases hfault.symm.trans hnone
  | goto hpc => exact hjump (by simp [Instr.successors]) hpc
  | choice hpc => exact hjump (by simp [Instr.successors]) hpc
  | @left x y e hx =>
    obtain ⟨t, hok⟩ := Expr.exists_eval (s := f.subst) (hover x (by simp [Instr.operands]))
    cases hx.symm.trans hok
  | @right x y _ e _ hy =>
    obtain ⟨t, hok⟩ := Expr.exists_eval (s := f.subst) (hover y (by simp [Instr.operands]))
    cases hy.symm.trans hok
  -- the passes before the one that faults were done, and the store is still well formed then
  | @passes _ _ _ _ u _ _ _ _ _ _ _ _ hu hwaiting hdone hfault =>
    have hsized := (h.store.handOverAll u.subst u.bindings).2
    rw [hwaiting, List.forall_mem_append, List.forall_mem_cons] at hsized
    have hnone := (((h.bound hcur u).rematched hm hsized.1 hdone).matched hm hsized.2.1).1
    cases hfault.symm.trans hnone

/-- Every instruction leaves a branch that is checked, and is no fault. -/
theorem performs (hm : m.Checked q) (hdepth : m.maxDepth = none) (h : f.Checked m)
    (hcur : f.cont.running.current? = some instr) (hperforms : m.Performs f c instr o) :
    (∀ e, o ≠ .fault e) ∧ ∀ g ∈ o.children, g.Checked m := by
  have hgo : ∀ {g : Frame}, g.Checked m → (∀ e, Outcome.go g ≠ .fault e) ∧
      ∀ g' ∈ (Outcome.go g).children, g'.Checked m :=
    fun hg => ⟨by simp, List.forall_mem_singleton.mpr hg⟩
  have honward := fits_onward h.cont hcur
  have hjump : ∀ {offset : Int} {pc : Nat}, f.onward.target offset = .ok pc →
      (f.cont.running.pc + 1 + offset : Int) ∈ instr.successors f.cont.running.pc →
      instr.growth = 0 → (f.onward.resumeAt pc).Fits m := by
    intro offset pc hpc hplace hgrowth
    obtain ⟨hpc, -⟩ := Continuation.target_eq_ok_iff.mp hpc
    simp only [onward, Continuation.resumeAt, Int.natCast_add, Int.natCast_one] at hpc
    exact h.cont.replace (h.cont.running.next hcur (hpc ▸ hplace) (by rw [hgrowth]; rfl)) rfl
  cases hperforms with
  | fault hfaults => exact absurd hfaults (h.not_faults hm hdepth hcur)
  | clash | answer | fail => exact ⟨by simp, by simp [Outcome.children]⟩
  | invoke hargs hblock =>
    exact hgo ⟨(honward (by simp [Instr.successors]) rfl).call _ (hm.predicates _ _ hblock), h.store⟩
  | constraint hnew _ =>
    exact hgo ((h.entering hcur hnew).matched hm (wellSized_of_creates? hnew)).2
  | goto hpc => exact hgo ⟨hjump hpc (by simp [Instr.successors]) rfl, h.store⟩
  | choice hpc =>
    refine ⟨by simp, List.forall_mem_cons.mpr ⟨?_, List.forall_mem_singleton.mpr ?_⟩⟩
    · exact ⟨honward (by simp [Instr.successors]) rfl, h.store⟩
    · exact ⟨hjump hpc (by simp [Instr.successors]) rfl, h.store⟩
  | fresh n =>
    refine hgo ⟨h.cont.replace ?_ rfl, h.store⟩
    refine h.cont.running.following hcur (by simp [Instr.successors]) ?_
    simp only [onward, Continuation.resumeAt, List.length_append, List.length_map,
      Counter.length_drawMany, Instr.growth]
    omega
  | @unify _ _ _ _ u _ _ _ _ _ hpasses =>
    exact hgo ((h.bound hcur u).rematched hm (h.store.handOverAll u.subst u.bindings).2 hpasses)
  | leave hk =>
    exact hgo ⟨Continuation.Fits.return? (k := f.onward) (List.forall_mem_cons.mp h.cont).2 hk,
      h.store⟩

end Frame.Checked

/-! ### Runs -/

namespace Machine

/-- A checked query starts with the registers that it is to have, and with no constraint. -/
theorem Checked.start (hm : m.Checked q) : (Frame.start q.env q.code).Checked m where
  cont := List.forall_mem_singleton.mpr (hm.query.fits .query)
  store := .empty _

/-- Progress and preservation: an instruction of a checked branch is at no fault, and all that it
leaves is checked. -/
theorem Checked.advance (hm : m.Checked q) (hdepth : m.maxDepth = none) (c : Counters) (f : Frame)
    (h : f.Checked m) : (∀ e, (m.advance f c).1 ≠ .fault e) ∧
      ∀ g ∈ (m.advance f c).1.children, g.Checked m := by
  obtain ⟨instr, hcur⟩ := h.cont.running.exists_current
  exact h.performs hm hdepth hcur (performs_advance hcur)

/-- Whatever the strategy, a run of a checked program is at no fault, however long it is, if calls
may nest without limit. -/
theorem checked_never_faults (hm : m.Checked q) (hdepth : m.maxDepth = none) (n : Nat)
    (e : ProgramError) : (m.step (m.after n (.start q))).result ≠ .error e :=
  result_after_ne_error hm.start (hm.advance hdepth) n e

/-- The sample predicates can be checked together with rules that take their arguments apart. -/
theorem checked_never_faults_samples :
    let m : Machine :=
      { program := Samples.predicates, rules := Samples.watchers, strategy := .interleaved }
    let q : Query := .ofCode 2 [.invoke "bits" [.register 0, .register 1],
      .constraint "split" [.app "pair" [.register 0, .register 1]], .success]
    m.Checked q ∧ ∀ n e, (m.step (m.after n (.start q))).result ≠ .error e := by
  intro m q
  let sizes (sig : Signature) : List Nat := match sig.name with
    | "append" => [3, 3, 4, 4, 4, 4, 3, 7, 7, 7, 7, 7]
    | "bit" => [1, 1, 1, 1, 1, 1, 1]
    | "bits" => [2, 2, 2, 2]
    | _ => [1, 1, 1, 1, 1, 2, 2, 2]
  have hpredicates : ∀ d ∈ m.program.definitions,
      (Sized (sizes d.1) d.2.code ∧ (sizes d.1)[0]? = some d.1.arity) ∧ m.Defines d.2.code := by
    decide +kernel
  have hrules : ∀ r ∈ m.rules.rules, Guard.allOver r.arity r.guards = true ∧
      (Sized [r.bodySize, r.bodySize] r.body ∧ m.Defines r.body) := by
    decide +kernel
  have hchecked : m.Checked q :=
    { query := ⟨⟨[2, 2, 2], by decide +kernel, rfl⟩, by decide +kernel⟩
      predicates := fun sig block hget =>
        have hd := hpredicates _ (Module.mem_of_get? hget)
        ⟨⟨_, hd.1⟩, hd.2⟩
      guards := fun r hr => (hrules r hr).1
      bodies := fun r hr => ⟨⟨_, (hrules r hr).2.1, rfl⟩, (hrules r hr).2.2⟩ }
  exact ⟨hchecked, checked_never_faults hchecked rfl⟩

end Machine

end LogicMachine
