import LogicMachine.Proofs.Constraints.Only
import LogicMachine.Proofs.Constraints.Spent
import LogicMachine.Proofs.Subst.Variables
import LogicMachine.Samples

/-!
# The rules of a partial order

Constraints `leq(x, y)` between variables, and what the four rules for them do. A rule fires on one
or two such constraints, gives up some of them, and leaves at most one task to its body: to post a
constraint, or to make two variables one. No pass of such a constraint ends in a fault.
-/

namespace LogicMachine

variable {s : Subst} {st : Store} {c d : Constraint} {cs : List Constraint} {env : Env} {i j : Nat}
  {x y x' y' : Var} {code : List Instr} {k k' : Continuation}

/-- The constraint says that `x` is at most `y`. -/
structure Constraint.IsLeq (c : Constraint) (x y : Var) : Prop where
  sig : c.sig = ⟨"leq", 2⟩
  args : c.args = [.var x, .var y]

/-- A constraint relates one pair of variables only. -/
theorem Constraint.IsLeq.unique (h : c.IsLeq x y) (h' : c.IsLeq x' y') : x = x' ∧ y = y' := by
  have hargs := h.args.symm.trans h'.args
  simpa using hargs

namespace Leq

/-- The constraint relates two variables. -/
def Relates (c : Constraint) : Prop := ∃ x y, c.IsLeq x y

/-! ### What is still to be done -/

/-- What a body or a query is still to do. -/
inductive Task
  | post (x y : Var)
  | merge (x y : Var)

variable {tasks own : List Task}

/-- Run over these registers, the code does the tasks one after another and returns. -/
inductive Does (env : Env) : List Instr → List Task → Prop
  | done : Does env [.success] []
  | post {i j : Nat} {x y : Var} {code : List Instr} {tasks : List Task}
      (hx : env[i]? = some (.var x)) (hy : env[j]? = some (.var y)) (rest : Does env code tasks) :
      Does env (.constraint "leq" [.register i, .register j] :: code) (.post x y :: tasks)
  | merge {i j : Nat} {x y : Var} {code : List Instr} {tasks : List Task}
      (hx : env[i]? = some (.var x)) (hy : env[j]? = some (.var y)) (rest : Does env code tasks) :
      Does env (.unify (.register i) (.register j) :: code) (.merge x y :: tasks)

/-- The activations, one after another, do the tasks. -/
inductive DoneBy : List Activation → List Task → Prop
  | nil : DoneBy [] []
  | cons {a : Activation} {as : List Activation} {own tasks : List Task}
      (ha : Does a.env (a.block.code.drop a.pc) own) (h : DoneBy as tasks) :
      DoneBy (a :: as) (own ++ tasks)

/-- All that is left to be done at a point of execution. -/
def Left (k : Continuation) (tasks : List Task) : Prop := DoneBy (k.running :: k.callers) tasks

/-- The tasks of a body come before all that was left. -/
theorem Left.schedule {f : Firing} (h : Left k tasks)
    (hbody : Does f.env f.occurrence.rule.body own) : Left (k.schedule f) (own ++ tasks) :=
  .cons hbody h

/-- When a body has returned, the tasks of its callers are left. -/
theorem Left.return? (h : DoneBy k.callers tasks) (hk : k.return? = some k') : Left k' tasks := by
  rwa [Continuation.callers_of_return? hk] at h

/-- The instruction that is about to run does the first task, or it returns. -/
inductive Left.Next (k : Continuation) : List Task → Prop
  | success {tasks : List Task} (hcur : k.running.current? = some .success)
      (h : DoneBy k.callers tasks) : Next k tasks
  | post {i j : Nat} {x y : Var} {tasks : List Task}
      (hcur : k.running.current? = some (.constraint "leq" [.register i, .register j]))
      (hx : k.running.env[i]? = some (.var x)) (hy : k.running.env[j]? = some (.var y))
      (h : Left (k.resumeAt (k.running.pc + 1)) tasks) : Next k (.post x y :: tasks)
  | merge {i j : Nat} {x y : Var} {tasks : List Task}
      (hcur : k.running.current? = some (.unify (.register i) (.register j)))
      (hx : k.running.env[i]? = some (.var x)) (hy : k.running.env[j]? = some (.var y))
      (h : Left (k.resumeAt (k.running.pc + 1)) tasks) : Next k (.merge x y :: tasks)

/-- Whatever is left, the next instruction is that of the first task, or a return. -/
theorem Left.next (h : Left k tasks) : Left.Next k tasks := by
  cases h with
  | @cons _ _ own tasks ha h =>
    generalize hcode : k.running.block.code.drop k.running.pc = code at ha
    cases ha with
    | done => exact .success (Activation.drop_eq_cons_iff.mp hcode).1 h
    | post hx hy rest =>
      obtain ⟨hcur, hrest⟩ := Activation.drop_eq_cons_iff.mp hcode
      exact .post hcur hx hy (.cons (hrest ▸ rest) h)
    | merge hx hy rest =>
      obtain ⟨hcur, hrest⟩ := Activation.drop_eq_cons_iff.mp hcode
      exact .merge hcur hx hy (.cons (hrest ▸ rest) h)

/-! ### How the rules fire -/

section Guards

variable {v w : Var} {env' : Env} {gs : List Guard} (hv : env[i]? = some (.var v))
  (hw : env[j]? = some (.var w))

include hv hw

/-- A guard that compares two registers. -/
theorem checkAll_equal :
    Guard.checkAll s env (.equal (.register i) (.register j) :: gs) =
      if s.resolveVar v = s.resolveVar w then Guard.checkAll s env gs else .ok none := by
  simp only [Guard.checkAll, Guard.check, Expr.eval, hv, hw, Subst.resolve_var]
  by_cases hvw : s.resolveVar v = s.resolveVar w <;> simp only [hvw, if_true, if_false]

/-- An equality between variables holds when they stand for the same, and the guards behind it
decide about the rest. -/
theorem checkAll_equal_eq_ok_iff :
    Guard.checkAll s env (.equal (.register i) (.register j) :: gs) = .ok (some env') ↔
      s.SameClass v w ∧ Guard.checkAll s env gs = .ok (some env') := by
  rw [checkAll_equal hv hw, Subst.SameClass]
  split
  · next hvw => exact ⟨fun h => ⟨hvw, h⟩, fun h => h.2⟩
  · next hvw => exact ⟨by simp, fun h => absurd h.1 hvw⟩

/-- An equality between registers that are there is no fault. -/
theorem checkAll_equal_ne_error {e : ProgramError} (h : Guard.checkAll s env gs ≠ .error e) :
    Guard.checkAll s env (.equal (.register i) (.register j) :: gs) ≠ .error e := by
  rw [checkAll_equal hv hw]
  split
  · exact h
  · simp

end Guards

/-- The four ways in which constraints can be offered to a rule. -/
inductive Offered : Nat → Rule → List Constraint → Prop
  | reflexive {c : Constraint} {x y : Var} (hc : c.IsLeq x y) :
      Offered 0 Samples.leqRules[0] [c]
  | antisymmetric {c d : Constraint} {x y x' y' : Var} (hc : c.IsLeq x y) (hd : d.IsLeq y' x') :
      Offered 1 Samples.leqRules[1] [c, d]
  | transitive {c d : Constraint} {x y y' z : Var} (hc : c.IsLeq x y) (hd : d.IsLeq y' z) :
      Offered 2 Samples.leqRules[2] [c, d]
  | idempotent {c d : Constraint} {x y x' y' : Var} (hc : c.IsLeq x y) (hd : d.IsLeq x' y') :
      Offered 3 Samples.leqRules[3] [c, d]

/-- Two constraints that relate variables, with the variables that they relate. -/
theorem exists_pair (hlength : cs.length = 2) (hcs : ∀ c ∈ cs, Relates c) :
    ∃ c d x y x' y', cs = [c, d] ∧ c.IsLeq x y ∧ d.IsLeq x' y' := by
  obtain ⟨c, d, rfl⟩ := List.length_eq_two.mp hlength
  obtain ⟨x, y, hc⟩ := hcs c (by simp)
  obtain ⟨x', y', hd⟩ := hcs d (by simp)
  exact ⟨c, d, x, y, x', y', rfl, hc, hd⟩

/-- Constraints that fit the heads of a rule are offered to it in one of the four ways. -/
theorem offered_of_heads {rule : Nat} {r : Rule} (hr : Samples.leq.rules[rule]? = some r)
    (hheads : cs.map (·.sig) = r.head) (hcs : ∀ c ∈ cs, Relates c) : Offered rule r cs := by
  have hlength : cs.length = r.head.length := by rw [← hheads, List.length_map]
  match rule, hr with
  | 0, hr =>
    obtain rfl := Option.some.inj hr
    obtain ⟨c, rfl⟩ := List.length_eq_one_iff.mp hlength
    obtain ⟨x, y, hc⟩ := hcs c List.mem_cons_self
    exact .reflexive hc
  | 1, hr =>
    obtain rfl := Option.some.inj hr
    obtain ⟨c, d, x, y, x', y', rfl, hc, hd⟩ := exists_pair hlength hcs
    exact .antisymmetric hc hd
  | 2, hr =>
    obtain rfl := Option.some.inj hr
    obtain ⟨c, d, x, y, x', y', rfl, hc, hd⟩ := exists_pair hlength hcs
    exact .transitive hc hd
  | 3, hr =>
    obtain rfl := Option.some.inj hr
    obtain ⟨c, d, x, y, x', y', rfl, hc, hd⟩ := exists_pair hlength hcs
    exact .idempotent hc hd

/-- The registers of a rule with one head. -/
theorem args_single (hc : c.IsLeq x y) : [c].flatMap (·.args) = [.var x, .var y] := by
  simp [hc.args]

/-- The registers of a rule with two heads. -/
theorem args_pair (hc : c.IsLeq x y) (hd : d.IsLeq x' y') :
    [c, d].flatMap (·.args) = [.var x, .var y, .var x', .var y'] := by
  simp [hc.args, hd.args]

/-- No guard of these rules is at fault. -/
theorem Offered.checkAll_ne_error {rule : Nat} {r : Rule} (h : Offered rule r cs)
    (e : ProgramError) : Guard.checkAll s (cs.flatMap (·.args)) r.guards ≠ .error e := by
  cases h with
  | reflexive hc =>
    rw [args_single hc]
    exact checkAll_equal_ne_error (i := 0) (j := 1) rfl rfl (by simp [Guard.checkAll])
  | antisymmetric hc hd =>
    rw [args_pair hc hd]
    refine checkAll_equal_ne_error (i := 1) (j := 2) rfl rfl ?_
    exact checkAll_equal_ne_error (i := 0) (j := 3) rfl rfl (by simp [Guard.checkAll])
  | transitive hc hd =>
    rw [args_pair hc hd]
    exact checkAll_equal_ne_error (i := 1) (j := 2) rfl rfl (by simp [Guard.checkAll])
  | idempotent hc hd =>
    rw [args_pair hc hd]
    refine checkAll_equal_ne_error (i := 0) (j := 2) rfl rfl ?_
    exact checkAll_equal_ne_error (i := 1) (j := 3) rfl rfl (by simp [Guard.checkAll])

/-- A pass of a constraint between variables ends in no fault, if there are none but such. -/
theorem matchRules_fault (h : st.Only Relates) (hc : Relates c) :
    (st.matchRules Samples.leq s c).fault = none := by
  cases hfault : (st.matchRules Samples.leq s c).fault with
  | none => rfl
  | some e =>
    obtain ⟨r, hr, cs, hcs, hguards⟩ := (h.matchRules hc Samples.leq s).fault e hfault
    obtain ⟨rule, hrule⟩ := List.mem_iff_getElem?.mp hr
    exact absurd hguards ((offered_of_heads hrule hcs.heads hcs.only).checkAll_ne_error e)

/-- `Fires s f tasks`: under `s`, a rule fires on constraints between variables, and `tasks` are what
it leaves to its body. -/
inductive Fires (s : Subst) (f : Firing) : List Task → Prop
  | reflexive {c : Constraint} {x y : Var} (hindex : f.occurrence.index = 0)
      (hparts : f.participants = [c]) (hremoved : f.removed = [c]) (hc : c.IsLeq x y)
      (hxy : s.SameClass x y) : Fires s f []
  | antisymmetric {c d : Constraint} {x y x' y' : Var} (hindex : f.occurrence.index = 1)
      (hparts : f.participants = [c, d]) (hremoved : f.removed = [c, d]) (hc : c.IsLeq x y)
      (hd : d.IsLeq y' x') (hy : s.SameClass y y') (hx : s.SameClass x x') :
      Fires s f [.merge x y]
  | transitive {c d : Constraint} {x y y' z : Var} (hindex : f.occurrence.index = 2)
      (hparts : f.participants = [c, d]) (hremoved : f.removed = []) (hc : c.IsLeq x y)
      (hd : d.IsLeq y' z) (hy : s.SameClass y y') : Fires s f [.post x z]
  | idempotent {c d : Constraint} {x y x' y' : Var} (hindex : f.occurrence.index = 3)
      (hparts : f.participants = [c, d]) (hremoved : f.removed = [d]) (hc : c.IsLeq x y)
      (hd : d.IsLeq x' y') (hx : s.SameClass x x') (hy : s.SameClass y y') : Fires s f []

/-- A combination that passes the guards fires, and its body does what the rule leaves to it. -/
theorem Offered.fires {o : Occurrence} (h : Offered o.index o.rule cs)
    (hguards : Guard.checkAll s (cs.flatMap (·.args)) o.rule.guards = .ok (some env)) :
    ∃ tasks, Fires s ⟨o, cs, env⟩ tasks ∧ Does env o.rule.body tasks := by
  obtain ⟨index, rule, pos⟩ := o
  simp only at h hguards ⊢
  cases h with
  | @reflexive c x y hc =>
    rw [args_single hc] at hguards
    obtain ⟨hxy, -⟩ := (checkAll_equal_eq_ok_iff (i := 0) (j := 1) rfl rfl).mp hguards
    exact ⟨[], .reflexive rfl rfl rfl hc hxy, .done⟩
  | @antisymmetric c d x y x' y' hc hd =>
    rw [args_pair hc hd] at hguards
    obtain ⟨hy, hrest⟩ := (checkAll_equal_eq_ok_iff (i := 1) (j := 2) rfl rfl).mp hguards
    obtain ⟨hx, hrest⟩ := (checkAll_equal_eq_ok_iff (i := 0) (j := 3) rfl rfl).mp hrest
    obtain rfl := Option.some.inj (Except.ok.inj hrest)
    exact ⟨[.merge x y], .antisymmetric rfl rfl rfl hc hd hy hx, .merge rfl rfl .done⟩
  | @transitive c d x y y' z hc hd =>
    rw [args_pair hc hd] at hguards
    obtain ⟨hy, hrest⟩ := (checkAll_equal_eq_ok_iff (i := 1) (j := 2) rfl rfl).mp hguards
    obtain rfl := Option.some.inj (Except.ok.inj hrest)
    exact ⟨[.post x z], .transitive rfl rfl rfl hc hd hy, .post rfl rfl .done⟩
  | @idempotent c d x y x' y' hc hd =>
    rw [args_pair hc hd] at hguards
    obtain ⟨hx, hrest⟩ := (checkAll_equal_eq_ok_iff (i := 0) (j := 2) rfl rfl).mp hguards
    obtain ⟨hy, -⟩ := (checkAll_equal_eq_ok_iff (i := 1) (j := 3) rfl rfl).mp hrest
    exact ⟨[], .idempotent rfl rfl rfl hc hd hx hy, .done⟩

end Leq

end LogicMachine
