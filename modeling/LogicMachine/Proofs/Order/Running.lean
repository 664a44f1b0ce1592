import LogicMachine.Proofs.Constraints.Tended
import LogicMachine.Proofs.Order.Closing
import LogicMachine.Proofs.Search.Single

/-!
# Running the rules of a partial order

A branch that posts constraints between variables goes on from instruction to instruction without
ever splitting, failing or coming to a fault. What it knows about the order is kept by every
instruction, until all tasks are done and it is answered.
-/

namespace LogicMachine.Leq

open Relation

variable {E : Var → Var → Prop} {m : Machine} {f g : Frame} {next next' : Nat} {c : Counters}
  {d : Constraint} {cs rerun : List Constraint} {posted : Constraint → Prop} {tasks : List Task}
  {x y : Var} {i j : Nat} {instr : Instr} {o : Outcome} {u : Unifier}

/-- The state of a branch while its tasks are done: what is known is closing under transitivity, and
variables are bound to such variables only as the order makes equal. -/
structure Underway (E : Var → Var → Prop) (next : Nat) (f : Frame) : Prop where
  acyclic : f.subst.Acyclic
  renames : f.subst.Renames (ReflTransGen E)
  spent : f.store.Spent Samples.leq next
  closing : ∃ tasks, Closing E f.subst f.store tasks ∧ Left f.cont tasks

/-- What a branch has come to when all tasks are done and everything that could fire has fired. -/
structure Answered (E : Var → Var → Prop) (s : Solution) : Prop where
  acyclic : s.subst.Acyclic
  renames : s.subst.Renames (ReflTransGen E)
  spent : ∃ next, s.store.Spent Samples.leq next
  settled : s.store.Settled Samples.leq s.subst
  closing : Closing E s.subst s.store []

/-! ### Passes -/

namespace Underway

/-- On such a branch all constraints relate variables. -/
theorem only (h : Underway E next f) : f.store.Only Relates := by
  obtain ⟨tasks, hclosing, -⟩ := h.closing
  exact hclosing.only

/-- A pass keeps all that is known: what it gives up is stated elsewhere or by the tasks it adds. -/
theorem matched (h : Underway E next f) (howns : f.store.Owns d) :
    Underway E next (f.matched Samples.leq d) where
  acyclic := h.acyclic
  renames := h.renames
  spent := h.spent.matchRules h.only.indexed howns
  closing := Closing.steps (Store.matchRules_steps h.only.indexed howns) h.acyclic h.renames h.closing

/-- So do the passes of several constraints. -/
theorem rematched (h : Underway E next f) (hpasses : Frame.Rematches Samples.leq f cs rerun g)
    (howns : ∀ d ∈ cs, f.store.Owns d) : Underway E next g :=
  hpasses.preserves h.only.indexed howns (fun _ _ _ _ hd hf => hf.matched hd) h

end Underway

/-- A register that holds a variable has the value that the variable stands for. -/
theorem eval_register {env : Env} {s : Subst} (hx : env[i]? = some (.var x)) :
    (Expr.register i).eval env s = .ok (s.resolveVar x) := by
  simp only [Expr.eval, hx, Subst.resolve_var]

/-- The same for a pair of registers. -/
theorem evalAll_pair {env : Env} {s : Subst} (hx : env[i]? = some (.var x))
    (hy : env[j]? = some (.var y)) :
    Expr.evalAll env s [.register i, .register j] = .ok [s.resolveVar x, s.resolveVar y] := by
  simp only [Expr.evalAll, eval_register hx, eval_register hy]

/-! ### Posting -/

section Post

variable (hcur : f.cont.running.current? =
    some (.constraint "leq" [.register i, .register j]))
  (hx : f.cont.running.env[i]? = some (.var x)) (hy : f.cont.running.env[j]? = some (.var y))

include hcur hx hy

/-- The constraint that is created for the task of posting it. -/
theorem exists_creates? (hs : f.subst.Acyclic) (hrenames : f.subst.Renames (ReflTransGen E))
    (c : Counters) : ∃ d x' y', f.creates? c = some d ∧ d.serial = c.serials.next ∧ d.IsLeq x' y' ∧
      f.subst.SameClass x' x ∧ f.subst.SameClass y' y := by
  obtain ⟨x', hx', -⟩ := hrenames.exists_resolveVar hs x
  obtain ⟨y', hy', -⟩ := hrenames.exists_resolveVar hs y
  refine ⟨⟨c.serials.next, ⟨"leq", 2⟩, [.var x', .var y']⟩, x', y', ?_, rfl, ⟨rfl, rfl⟩,
    hrenames.sameClass_resolveVar hs hx', hrenames.sameClass_resolveVar hs hy'⟩
  simp only [Frame.creates?, hcur, evalAll_pair hx hy, hx', hy']
  rfl

/-- The task to post a constraint is done by entering it and making its pass. -/
theorem Underway.post (h : Underway E c.serials.next f)
    (hclosing : Closing E f.subst f.store (.post x y :: tasks)) (hleft : Left f.onward tasks)
    (htended : f.Tended Samples.leq c.serials.next posted) (hm : m.rules = Samples.leq)
    (hlt : (c.drawn f.demand).serials.next < Counter.largest)
    (hperforms : m.Performs f c (.constraint "leq" [.register i, .register j]) o) :
    ∃ g, o = .go g ∧ Underway E (c.drawn f.demand).serials.next g := by
  obtain ⟨d, x', y', hnew, hserial, hd, hx', hy'⟩ := exists_creates? hcur hx hy h.acyclic h.renames c
  have hclass : ∀ {v w}, f.subst.SameClass v w → ReflTransGen E v w :=
    h.renames.rel_of_sameClass h.acyclic
  have hxy := hclosing.sound (.task List.mem_cons_self (.post x y))
  -- the task is done when the constraint is entered; the pass adds what the rules ask for
  have hentered : Underway E (c.drawn f.demand).serials.next (f.entering d) := by
    refine ⟨h.acyclic, h.renames, h.spent.enter h.only.indexed hserial.ge ?_, tasks, ?_, hleft⟩
    · rw [Counters.serials_drawn hlt, (Frame.serial_of_creates? hnew).2, hserial]
      exact Nat.lt_succ_self _
    · exact hclosing.enter h.spent hserial.ge hd hx' hy'
        (((hclass hx').trans hxy).trans (hclass hy'.symm))
  have hfault := matchRules_fault hentered.only ⟨x', y', hd⟩ (s := f.subst)
  cases hperforms with
  | constraint hnew' _ =>
    obtain rfl := Option.some.inj (hnew.symm.trans hnew')
    have howns : (f.entering d).store.Owns d := (htended.linked.enter fun e he =>
      hserial ▸ (htended.drawn e he).ne).owns (.inl rfl)
    rw [hm]
    exact ⟨_, rfl, hentered.matched howns⟩
  -- no fault can happen: the operands have values, and the rules find no fault in such a store
  | fault hfaults =>
    cases hfaults with
    | posted hargs =>
      rw [evalAll_pair hx hy] at hargs
      cases hargs
    | pass hnew' hpass =>
      obtain rfl := Option.some.inj (hnew.symm.trans hnew')
      rw [hm, hfault] at hpass
      cases hpass

end Post

/-! ### Making variables one -/

section Merge

variable (hx : f.cont.running.env[i]? = some (.var x)) (hy : f.cont.running.env[j]? = some (.var y))

include hx hy

/-- The task to make two variables one is done by binding one of them and matching again. -/
theorem Underway.merge (h : Underway E next f)
    (hclosing : Closing E f.subst f.store (.merge x y :: tasks)) (hleft : Left f.onward tasks)
    (htended : f.Tended Samples.leq next posted) (hm : m.rules = Samples.leq)
    (hperforms : m.Performs f c (.unify (.register i) (.register j)) o) :
    ∃ g, o = .go g ∧ Underway E next g := by
  obtain ⟨u, hu, hrenames, hxy⟩ := h.renames.exists_unify?_resolveVar htended.reachable
    (hclosing.sound (.task List.mem_cons_self (.merge x y)))
    (hclosing.sound (.task List.mem_cons_self (.merged x y)))
  have hs' := (htended.reachable.of_unify? hu).acyclic
  have hext := (Subst.boundBy_of_unify? h.acyclic htended.reachable.weighed hu).extendedBy
  have hsame := Store.SameButNotes.handOverAll f.store u.subst u.bindings
  obtain ⟨honly, haffected⟩ := h.only.handOverAll u.subst u.bindings
  have hbound : Underway E next (f.bound u) :=
    ⟨hs', hrenames, h.spent.of_sameButNotes hsame, tasks,
      hclosing.bound hsame honly (h.renames.sameClass_of_extendedBy h.acyclic hs' hext) hxy, hleft⟩
  have howns := htended.noted.owns_affected hu
  have hevalx := eval_register (s := f.subst) hx
  have hevaly := eval_register (s := f.subst) hy
  cases hperforms with
  | unify hx' hy' hu' hpasses =>
    obtain rfl := Except.ok.inj (hevalx.symm.trans hx')
    obtain rfl := Except.ok.inj (hevaly.symm.trans hy')
    obtain rfl := Option.some.inj (hu.symm.trans hu')
    exact ⟨_, rfl, hbound.rematched (hm ▸ hpasses) howns⟩
  | clash hx' hy' hu' =>
    obtain rfl := Except.ok.inj (hevalx.symm.trans hx')
    obtain rfl := Except.ok.inj (hevaly.symm.trans hy')
    cases hu.symm.trans hu'
  | fault hfaults =>
    cases hfaults with
    | left hx' => cases hevalx.symm.trans hx'
    | right _ hy' => cases hevaly.symm.trans hy'
    | passes hx' hy' hu' hwaiting hdone hfault =>
      obtain rfl := Except.ok.inj (hevalx.symm.trans hx')
      obtain rfl := Except.ok.inj (hevaly.symm.trans hy')
      obtain rfl := Option.some.inj (hu.symm.trans hu')
      rw [hwaiting] at haffected howns
      have hg := hbound.rematched (hm ▸ hdone) fun d hd => howns d (List.mem_append_left _ hd)
      cases (matchRules_fault hg.only (haffected _ (by simp))).symm.trans (hm ▸ hfault)

end Merge

/-! ### Every instruction -/

/-- The guards compare registers, and have no constants. -/
theorem isClosed_guards : ∀ r ∈ Samples.leq.rules, r.guards.all Guard.isClosed = true := by
  decide

/-- A branch that is under way goes on, or it is answered. -/
theorem advances (hm : m.rules = Samples.leq) :
    m.Advances (fun c f => (∃ posted, f.Tended Samples.leq c.serials.next posted) ∧
      Underway E c.serials.next f) (Answered E) := by
  rintro f c ⟨⟨posted, htended⟩, h⟩ hunspent
  have hlt := hunspent.serials
  have hle : c.serials.next ≤ (c.drawn f.demand).serials.next :=
    (Counters.serials_drawn hlt).ge.trans' (Nat.le_add_right _ _)
  obtain ⟨tasks, hclosing, hleft⟩ := h.closing
  have hgo : ∀ {instr g}, f.cont.running.current? = some instr →
      m.Performs f c instr (m.advance f c).1 → (m.advance f c).1 = .go g →
      ∃ posted', g.Tended Samples.leq (c.drawn f.demand).serials.next posted' := by
    intro instr g hcur hperforms hgo
    have hperformed := Frame.Tended.performs (hm ▸ isClosed_guards) (hm ▸ htended) hcur hperforms hlt
      (g := g) (by rw [hgo]; exact List.mem_cons_self)
    rwa [hm] at hperformed
  cases hleft.next with
  | post hcur hx hy hrest =>
    have hperforms := m.performs_advance (c := c) hcur
    obtain ⟨g, hg, hunder⟩ := h.post hcur hx hy hclosing hrest htended hm hlt hperforms
    exact .inl ⟨g, hg, hgo hcur hperforms hg, hunder⟩
  | merge hcur hx hy hrest =>
    have hperforms := m.performs_advance (c := c) hcur
    obtain ⟨g, hg, hunder⟩ := h.merge hx hy hclosing hrest htended hm hperforms
    exact .inl ⟨g, hg, hgo hcur hperforms hg,
      ⟨hunder.acyclic, hunder.renames, hunder.spent.mono hle, hunder.closing⟩⟩
  | success hcur hwaiting =>
    have hperforms := m.performs_advance (c := c) hcur
    have hsuccess := hperforms
    generalize hadvance : (m.advance f c).1 = o at hsuccess
    cases hsuccess with
    | leave hk =>
      exact .inl ⟨_, rfl, hgo hcur hperforms hadvance,
        ⟨h.acyclic, h.renames, h.spent.mono hle, tasks, hclosing, Left.return? hwaiting hk⟩⟩
    | answer hk =>
      -- no caller is left, so no task is
      have hcallers : f.cont.callers = [] := Continuation.callers_eq_nil_of_return? hk
      rw [hcallers] at hwaiting
      cases hwaiting
      exact .inr ⟨_, rfl, h.acyclic, h.renames, ⟨_, h.spent⟩, htended.settled, hclosing⟩
    | fault hfaults => cases hfaults

end LogicMachine.Leq
