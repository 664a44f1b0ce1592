import LogicMachine.Proofs.Constraints.Backlinks

/-!
# Properties of all constraints

What is true of all constraints that a store has live or noted stays true, whatever becomes of the
store, as long as it is true of the new ones. The combinations that a pass tries are made of such
constraints, and fit the heads of their rule. Nothing is asked of serial numbers here.
-/

namespace LogicMachine

variable {P : Constraint → Prop} {st : Store} {s : Subst} {c d : Constraint} {cs : List Constraint}
  {v : Var} {vs : List Var}

namespace Store

/-- All constraints that the store has live or noted have the property. -/
structure Only (P : Constraint → Prop) (st : Store) : Prop where
  indexed : st.Indexed
  live : ∀ c ∈ st.constraints, P c
  noted : ∀ v, ∀ c ∈ st.backlinks v, P c

namespace Only

/-- The empty store has no constraint that could lack the property. -/
theorem empty (P : Constraint → Prop) : Only P Store.empty where
  indexed := .empty
  live c hc := by cases hc
  noted v c hc := by
    have hnone : Store.empty.backlinks v = [] := by
      rw [backlinks, mentionsOf_empty]
      rfl
    rw [hnone] at hc
    cases hc

/-- Adding a constraint with the property. -/
theorem add (h : st.Only P) (hc : P c) : (st.add c).Only P where
  indexed := h.indexed.add c
  live d hd := by
    rcases h.indexed.mem_constraints_add.mp hd with rfl | ⟨hd, -⟩
    · exact hc
    · exact h.live d hd
  noted := h.noted

/-- Noting a constraint with the property under a variable. -/
theorem connect (h : st.Only P) (hc : P c) (v : Var) : (st.connect v c).Only P where
  indexed := h.indexed.connect v c
  live := h.live
  noted w d hd := by
    rcases h.indexed.mem_backlinks_connect.mp hd with ⟨-, rfl⟩ | ⟨hd, -⟩
    · exact hc
    · exact h.noted w d hd

/-- Noting it under several variables. -/
theorem connectAll (h : st.Only P) (hc : P c) (vs : List Var) : (st.connectAll vs c).Only P :=
  vs.foldlRecOn _ h fun _ h v _ => h.connect hc v

/-- Entering it: it becomes live and is noted. -/
theorem enter (h : st.Only P) (hc : P c) (s : Subst) : (st.enter s c).Only P :=
  c.args.foldlRecOn _ (h.add hc) fun _ h arg _ => h.connectAll hc (s.unboundVars arg)

/-- Where the notes of a variable are taken out, the rest still have the property. -/
theorem takeBacklinks (h : st.Only P) (v : Var) : (st.takeBacklinks v).2.Only P where
  indexed := h.indexed.takeBacklinks v
  live c hc := h.live c ((SameButNotes.takeBacklinks st v).constraints_eq ▸ hc)
  noted w c hc := h.noted w c (mem_backlinks_takeBacklinks.mp hc).1

/-- A firing adds no constraint to a store, so all that is left had the property before. -/
theorem fire {p : Pass} (h : p.store.Only P) (f : Firing) : (p.fire f).store.Only P where
  indexed := Pass.indexed_fire h.indexed f
  live c hc := h.live c ((Pass.mem_constraints_fire h.indexed).mp hc).1
  noted v c hc := by
    rw [backlinks, mentionsOf, Pass.mentions_fire] at hc
    exact h.noted v c hc

/-- A map that collects constraints with the property holds no others. -/
theorem insert_all {m : Std.TreeMap Nat Constraint} (hm : Constraint.Indexed m)
    (hP : ∀ c ∈ m.values, P c) (hcs : ∀ c ∈ cs, P c) :
    ∀ d ∈ (cs.foldl (fun m c => m.insert c.serial c) m).values, P d := by
  have hfold := cs.foldlRecOn
    (motive := fun m => Constraint.Indexed m ∧ ∀ d ∈ Std.TreeMap.values m, P d)
    (fun m c => m.insert c.serial c) ⟨hm, hP⟩ fun m h c hc => by
      refine ⟨h.1.insert c, fun d hd => ?_⟩
      rcases h.1.mem_values_insert.mp hd with rfl | ⟨hd, -⟩
      · exact hcs d hc
      · exact h.2 d hd
  exact hfold.2

/-- What is handed over, and what is affected by it, has the property. -/
theorem handOverAll (h : st.Only P) (s : Subst) (bindings : List (Var × Term)) :
    (st.handOverAll s bindings).1.Only P ∧ ∀ c ∈ (st.handOverAll s bindings).2, P c := by
  have hfold := bindings.foldlRecOn (motive := fun acc : Store × Std.TreeMap Nat Constraint =>
      acc.1.Only P ∧ Constraint.Indexed acc.2 ∧ ∀ c ∈ acc.2.values, P c)
    (handOver s) (b := (st, ∅)) ⟨h, .empty, fun c hc => by cases hc⟩ fun acc hacc binding _ => by
      obtain ⟨hst, hindexed, haffected⟩ := hacc
      rw [handOver_eq]
      have hcs := hst.noted binding.1
      refine ⟨?_, foldl_insert hindexed _, insert_all hindexed haffected hcs⟩
      exact List.foldlRecOn _ _ (hst.takeBacklinks binding.1) fun _ hst c hc =>
        hst.connectAll (hcs c hc) _
  exact ⟨hfold.1, hfold.2.2⟩

end Only

end Store

/-! ### Passes -/

/-- Constraints that could fill the heads of the rule, and that have the property. -/
structure Rule.Candidates (r : Rule) (P : Constraint → Prop) (cs : List Constraint) : Prop where
  heads : cs.map (·.sig) = r.head
  only : ∀ c ∈ cs, P c

/-- The store of the pass has only constraints with the property, and whatever has fired or has come
to a fault was made of such constraints and matched the heads of a rule. -/
structure Pass.Only (rs : RuleSet) (s : Subst) (P : Constraint → Prop) (p : Pass) : Prop where
  store : p.store.Only P
  firings : ∀ f ∈ p.firings, f.occurrence.rule ∈ rs.rules ∧
    f.occurrence.rule.Candidates P f.participants ∧
    Guard.checkAll s (f.participants.flatMap (·.args)) f.occurrence.rule.guards = .ok (some f.env)
  fault : ∀ e, p.fault = some e → ∃ r ∈ rs.rules, ∃ cs, r.Candidates P cs ∧
    Guard.checkAll s (cs.flatMap (·.args)) r.guards = .error e

namespace Pass.Only

variable {rs : RuleSet} {p : Pass} {o : Occurrence}

/-- Trying a combination of constraints with the property either fires it or notes a fault; for both
it has been made of such constraints. -/
theorem tryCombination (h : p.Only rs s P) (ho : o.rule ∈ rs.rules) (hcs : o.rule.Candidates P cs) :
    (p.tryCombination s o cs).Only rs s P := by
  unfold Pass.tryCombination
  split
  · exact h
  · split
    · next e hguards =>
      refine ⟨h.store, h.firings, fun e' he => ?_⟩
      obtain rfl := Option.some.inj he
      exact ⟨o.rule, ho, cs, hcs, hguards⟩
    · exact h
    · next env hguards =>
      refine ⟨h.store.fire _, ?_, h.fault⟩
      rw [firings_fire, List.forall_mem_append, List.forall_mem_singleton]
      exact ⟨h.firings, ho, hcs, hguards⟩

/-- The candidates for the other heads come from the store, so every combination that is tried at a
head position is made of constraints with the property. -/
theorem tryOccurrence (h : p.Only rs s P) (hc : P c) (ho : o ∈ rs.occurrences c.sig) :
    (p.tryOccurrence s c o).Only rs s P := by
  obtain ⟨hrule, hpos⟩ := RuleSet.mem_occurrences_iff.mp ho
  unfold Pass.tryOccurrence
  split
  · exact h
  · refine List.foldlRecOn _ _ h fun _ hq cs hcs => ?_
    obtain ⟨hheads, hfills, hothers⟩ := (mem_combinations_candidates hpos).mp hcs
    refine hq.tryCombination (List.mem_of_getElem? hrule) ⟨hheads, fun d hd => ?_⟩
    obtain ⟨j, hj⟩ := List.mem_iff_getElem?.mp hd
    by_cases hjpos : j = o.pos
    · rw [hjpos, hfills, Option.some_inj] at hj
      exact hj ▸ hc
    · exact h.store.live d (hothers j d hj hjpos)

end Pass.Only

/-- A pass of a constraint with the property. -/
theorem Store.Only.matchRules (h : st.Only P) (hc : P c) (rs : RuleSet) (s : Subst) :
    (st.matchRules rs s c).Only rs s P := by
  have hstart : ({ store := st } : Pass).Only rs s P := ⟨h, by simp, nofun⟩
  exact List.foldlRecOn _ _ hstart fun _ hp o ho => hp.tryOccurrence hc ho

end LogicMachine
