import LogicMachine.Proofs.Constraints.Pass
import LogicMachine.Samples

/-!
# Complete passes

A pass that ends without a fault leaves nothing to do for its constraint: of the combinations that
are live at its end, all that pass the guards have fired. So a second pass of the same constraint
right after it finds nothing. This needs no more than what the operations keep true of every store,
whoever performs them and in which order.
-/

namespace LogicMachine

/-- The stores that operations make out of the empty one, each with the constraints that were added.
A constraint is added under a serial number of its own. Any constraint may be deleted or noted for a
variable, and anything may be recorded as fired. A pass is of a constraint that is not another one
under the number of one that was added; its rules and its substitution are arbitrary, and it counts
even if it ends in a fault. -/
inductive Store.Built : List Constraint → Store → Prop
  | empty : Built [] Store.empty
  | add {added : List Constraint} {st : Store} (h : Built added st) (c : Constraint)
      (hc : ∀ d ∈ added, d.serial ≠ c.serial) : Built (c :: added) (st.add c)
  | connect {added : List Constraint} {st : Store} (h : Built added st) (v : Var)
      (c : Constraint) : Built added (st.connect v c)
  | takeBacklinks {added : List Constraint} {st : Store} (h : Built added st) (v : Var) :
      Built added (st.takeBacklinks v).2
  | delete {added : List Constraint} {st : Store} (h : Built added st) (c : Constraint) :
      Built added (st.erase c)
  | recordFiring {added : List Constraint} {st : Store} (h : Built added st) (rule : Nat)
      (serials : List Nat) : Built added (st.recordFiring rule serials)
  | matching {added : List Constraint} {st : Store} (h : Built added st) (rs : RuleSet)
      (s : Subst) (c : Constraint) (hc : ∀ d ∈ added, d.serial = c.serial → d = c) :
      Built added (st.matchRules rs s c).store

namespace Store

variable {rs : RuleSet} {s : Subst} {added : List Constraint} {st : Store} {c d : Constraint}

/-! ### What operations keep true -/

/-- The store is in order, and its constraints are among those that were added, each of which has a
serial number of its own. -/
structure Keeps (added : List Constraint) (st : Store) : Prop where
  indexed : st.Indexed
  mem_added : ∀ c ∈ st.constraints, c ∈ added
  serial_inj : ∀ c ∈ added, ∀ d ∈ added, c.serial = d.serial → c = d

namespace Keeps

/-- Nothing has been added to the empty store, and nothing is in it. -/
theorem empty : Keeps [] Store.empty where
  indexed := .empty
  mem_added c hc := by cases hc
  serial_inj c hc := by cases hc

/-- A constraint that is added under a number of its own joins those that were added. -/
theorem add (h : Keeps added st) (hc : ∀ d ∈ added, d.serial ≠ c.serial) :
    Keeps (c :: added) (st.add c) where
  indexed := h.indexed.add c
  mem_added d hd := by
    rcases h.indexed.mem_constraints_add.mp hd with rfl | ⟨hlive, -⟩
    · exact List.mem_cons_self
    · exact List.mem_cons_of_mem _ (h.mem_added d hlive)
  serial_inj d hd e he hserial := by
    rcases List.mem_cons.mp hd with rfl | hold <;> rcases List.mem_cons.mp he with rfl | hold'
    · rfl
    · exact absurd hserial.symm (hc e hold')
    · exact absurd hserial (hc d hold)
    · exact h.serial_inj d hold e hold' hserial

/-- An operation that adds nothing. -/
theorem mono {st' : Store} (h : Keeps added st) (hindexed : st'.Indexed)
    (hlive : ∀ c ∈ st'.constraints, c ∈ st.constraints) : Keeps added st' :=
  ⟨hindexed, fun c hc => h.mem_added c (hlive c hc), h.serial_inj⟩

/-- A constraint that cannot be mistaken for an added one shares its number with no other live one.
-/
theorem owns (h : Keeps added st) (hc : ∀ d ∈ added, d.serial = c.serial → d = c) : st.Owns c :=
  fun d hd => hc d (h.mem_added d hd)

end Keeps

/-- However a store has come about, every operation has kept it in order. -/
theorem Built.keeps (h : Built added st) : Keeps added st := by
  induction h with
  | empty => exact .empty
  | add _ c hc ih => exact ih.add hc
  | connect _ v c ih => exact ih.mono (ih.indexed.connect v c) fun _ => id
  | takeBacklinks _ v ih =>
    refine ih.mono (ih.indexed.takeBacklinks v) fun d hd => ?_
    rwa [(SameButNotes.takeBacklinks _ v).constraints_eq] at hd
  | delete _ c ih =>
    exact ih.mono (ih.indexed.erase c) fun d hd => (ih.indexed.mem_constraints_erase.mp hd).1
  | recordFiring _ rule serials ih => exact ih.mono (ih.indexed.recordFiring rule serials) fun _ => id
  | matching _ rs s c hc ih =>
    have hpassed := passed_matchRules rs s ih.indexed (ih.owns hc)
    exact ih.mono hpassed.indexed hpassed.live

/-! ### Passes with nothing left to do -/

/-- Nothing is left to do for `c`: each combination of live constraints that it takes part in has
fired, or its guards do not hold. -/
def Exhausted (rs : RuleSet) (s : Subst) (c : Constraint) (st : Store) : Prop :=
  ∀ o cs, Pass.Fills rs c o cs → (∀ d ∈ cs, d ∈ st.constraints) →
    st.hasFired o.index (cs.map (·.serial)) = true ∨
      Guard.checkAll s (cs.flatMap (·.args)) o.rule.guards = .ok none

/-- Where nothing is left to do, a pass does nothing. -/
theorem Exhausted.matchRules_eq (h : Exhausted rs s c st) (hst : st.Indexed) (hc : st.Owns c) :
    st.matchRules rs s c = { store := st } := by
  have hstuck : ∀ p, ¬ Pass.Step rs s c { store := st } p := by
    intro p hstep
    have hadmitted : ∀ {o cs r}, Pass.Admitted rs c { store := st } o cs →
        Guard.checkAll s (cs.flatMap (·.args)) o.rule.guards = r → r = .ok none := by
      rintro o cs r hcs rfl
      refine (h o cs hcs.toFills hcs.live).resolve_left ?_
      rw [hcs.new]
      exact Bool.false_ne_true
    cases hstep with
    | fire hcs hguards => cases hadmitted hcs hguards
    | fault hcs hguards => cases hadmitted hcs hguards
  rcases (matchRules_steps hst hc).cases_head with heq | ⟨p, hstep, -⟩
  · exact heq.symm
  · exact absurd hstep (hstuck p)

/-- One pass is enough. However a store has come about: when a pass of a constraint that was added
to it ends without a fault, every combination of live and distinct constraints that this constraint
takes part in, that matches the heads of a rule and passes its guards has fired the rule. A second
pass under the same substitution fires nothing, has no fault and changes nothing. -/
theorem Built.pass_complete (h : Built added st) (hc : c ∈ added)
    (hok : (st.matchRules rs s c).fault = none) :
    (∀ rule r (cs : List Constraint) env, rs.rules[rule]? = some r → c ∈ cs → cs.Nodup →
      (∀ d ∈ cs, d ∈ (st.matchRules rs s c).store.constraints) → cs.map (·.sig) = r.head →
      Guard.checkAll s (cs.flatMap (·.args)) r.guards = .ok (some env) →
      (st.matchRules rs s c).store.hasFired rule (cs.map (·.serial)) = true) ∧
    (st.matchRules rs s c).store.matchRules rs s c =
      { store := (st.matchRules rs s c).store } := by
  have hkeeps := h.keeps
  have hown : ∀ d ∈ added, d.serial = c.serial → d = c := fun d hd => hkeeps.serial_inj d hd c hc
  have howns := hkeeps.owns hown
  have hafter := (h.matching rs s c hown).keeps
  have hexhausted : Exhausted rs s c (st.matchRules rs s c).store := fun o cs hfills hlive =>
    hasFired_or_refused_matchRules hkeeps.indexed howns hfills hlive hok
  refine ⟨fun rule r cs env hr hmem hnodup hlive hheads hguards => ?_,
    hexhausted.matchRules_eq hafter.indexed (hafter.owns hown)⟩
  have hserials : (cs.map (·.serial)).Nodup :=
    List.pairwise_map.mpr (hnodup.imp_of_mem fun hd he hne hserial =>
      hne (hafter.indexed.eq_of_serial_eq (hlive _ hd) (hlive _ he) hserial))
  obtain ⟨pos, hfills⟩ := Pass.exists_fills hr hheads hmem hserials
  refine (hexhausted _ cs hfills hlive).resolve_right ?_
  rw [hguards]
  exact fun hrefused => by cases hrefused

/-- With `leq(A, B)` in the store, the pass of `leq(B, C)` fires transitivity for the two. Both stay,
and a second pass does nothing. -/
theorem Built.pass_complete_leq :
    let leq (serial a b : Nat) : Constraint := ⟨serial, ⟨"leq", 2⟩, [.var a, .var b]⟩
    let st := (Store.empty.add (leq 1 0 1)).add (leq 2 1 2)
    let p := st.matchRules Samples.leq .empty (leq 2 1 2)
    p.firings.map (fun f => (f.occurrence.index, f.serials)) = [(2, [1, 2])] ∧
      p.store.constraints.map (·.serial) = [1, 2] ∧
      p.store.matchRules Samples.leq .empty (leq 2 1 2) = { store := p.store } := by
  intro leq st p
  have hst : Built [leq 2 1 2, leq 1 0 1] st :=
    (Built.empty.add (leq 1 0 1) (by decide +kernel)).add (leq 2 1 2) (by decide +kernel)
  have hfired : p.firings.map (fun f => (f.occurrence.index, f.serials)) = [(2, [1, 2])] := by
    decide +kernel
  exact ⟨hfired, by decide +kernel, (hst.pass_complete (by simp) (by decide +kernel)).2⟩

end Store

end LogicMachine
