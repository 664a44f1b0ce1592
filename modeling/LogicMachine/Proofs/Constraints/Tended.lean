import LogicMachine.Proofs.Constraints.Settled

/-!
# No rule is missed

Between two instructions a branch is tended: its substitution comes from unifications, its store has
exact backlinks, and the store is settled. Only a unification and the posting of a constraint change
anything of this, and the passes that they end with settle the store again. So in all branches of a
run every combination that could fire a rule has fired it.
-/

namespace LogicMachine

variable {m : Machine} {f g : Frame} {rs : RuleSet} {next next' : Nat} {c : Counters}
  {posted : Constraint → Prop} {d : Constraint} {instr : Instr} {o : Outcome} {u : Unifier}
  {rerun : List Constraint}

/-- The state of a branch between two instructions. `posted` tells which constraints have been
posted on it, and their serial numbers lie below `next`. -/
structure Frame.Tended (rs : RuleSet) (next : Nat) (posted : Constraint → Prop) (f : Frame) :
    Prop where
  reachable : f.subst.Reachable
  linked : f.store.Linked posted f.subst
  drawn : ∀ c, posted c → c.serial < next
  settled : f.store.Settled rs f.subst

namespace Frame.Tended

/-- A query starts with an empty store, in which there is nothing to fire. -/
theorem start (rs : RuleSet) (next : Nat) (env : Env) (code : List Instr) :
    Tended rs next (fun _ => False) (Frame.start env code) :=
  ⟨.empty, .empty _, fun _ hc => hc.elim, Store.settled_empty rs _⟩

/-- What is running makes no difference, and more numbers may have been drawn. -/
theorem carry (h : f.Tended rs next posted) (hsubst : g.subst = f.subst)
    (hstore : g.store = f.store) (hle : next ≤ next') : g.Tended rs next' posted where
  reachable := hsubst ▸ h.reachable
  linked := hsubst ▸ hstore ▸ h.linked
  drawn c hc := (h.drawn c hc).trans_le hle
  settled := hsubst ▸ hstore ▸ h.settled

/-- The notes of a tended branch are exact. -/
theorem noted (h : f.Tended rs next posted) : f.Noted next posted :=
  ⟨h.reachable, h.linked, h.drawn⟩

/-- Exact notes and a settled store are all that there is to being tended. -/
theorem of_noted (h : f.Noted next posted) (hsettled : f.store.Settled rs f.subst) :
    f.Tended rs next posted :=
  ⟨h.reachable, h.linked, h.drawn, hsettled⟩

/-- A constraint that has just been posted makes its pass, and that settles the store again. -/
theorem settled_post (h : f.Tended rs c.serials.next posted) (hnew : f.creates? c = some d)
    (hfault : ((f.entering d).store.matchRules rs f.subst d).fault = none) :
    ((f.entering d).matched rs d).store.Settled rs f.subst := by
  have hserial : ∀ e, posted e → e.serial ≠ d.serial := fun e he =>
    (Frame.serial_of_creates? hnew).1 ▸ (h.drawn e he).ne
  have hentered := h.linked.enter hserial
  have howns := hentered.owns (.inl rfl)
  exact h.settled.post h.linked hserial (Store.passed_matchRules rs f.subst hentered.indexed howns)
    (Store.settledFor_matchRules rs f.subst hentered.indexed howns hfault)

/-- The affected constraints make their passes, and these settle the store for the new bindings. The
guards of all other combinations read only variables that were not bound. -/
theorem settled_unify {t t' : Term} (hrs : ∀ r ∈ rs.rules, r.guards.all Guard.isClosed = true)
    (h : f.Tended rs next posted) (hu : f.subst.unify? t t' = some u)
    (hpasses : Rematches rs (f.bound u) (f.store.handOverAll u.subst u.bindings).2 rerun g) :
    g.store.Settled rs u.subst := by
  have hs := h.reachable.acyclic
  have hindexed := (h.noted.bound hu).linked.indexed
  have howns := h.noted.owns_affected hu
  exact h.settled.unify h.linked hrs hs (h.reachable.of_unify? hu).acyclic
    (Subst.boundBy_of_unify? hs h.reachable.weighed hu) (hpasses.passed hindexed howns).2
    (hpasses.settledFor hindexed howns)

/-- Every instruction leaves the branch tended. -/
theorem performs (hrs : ∀ r ∈ m.rules.rules, r.guards.all Guard.isClosed = true)
    (h : f.Tended m.rules c.serials.next posted) (hcur : f.cont.running.current? = some instr)
    (hperforms : m.Performs f c instr o)
    (hunspent : (c.drawn f.demand).serials.next < Counter.largest) (hg : g ∈ o.children) :
    ∃ posted', g.Tended m.rules (c.drawn f.demand).serials.next posted' := by
  refine ⟨_, of_noted (h.noted.performs hcur hperforms hunspent hg) ?_⟩
  cases hperforms with
  | invoke | goto | fresh | leave =>
    obtain rfl := List.mem_singleton.mp hg
    exact h.settled
  | choice =>
    simp only [Outcome.children, List.mem_cons, List.not_mem_nil, or_false] at hg
    rcases hg with rfl | rfl <;> exact h.settled
  | constraint hnew hfault =>
    obtain rfl := List.mem_singleton.mp hg
    exact h.settled_post hnew hfault
  | unify _ _ hu hpasses =>
    obtain rfl := List.mem_singleton.mp hg
    rw [(hpasses.passed (h.noted.bound hu).linked.indexed (h.noted.owns_affected hu)).1]
    exact h.settled_unify hrs hu hpasses
  | clash | answer | fail | fault => cases hg

end Frame.Tended

/-! ### Runs -/

namespace Machine

variable {q : Query} {n : Nat}

/-- All branches of a run are tended, as long as serial numbers are left. -/
theorem tended_after (hrs : ∀ r ∈ m.rules.rules, r.guards.all Guard.isClosed = true)
    (herror : ∀ k < n, ∀ e, (m.step (m.after k (.start q))).result ≠ .error e)
    (hunspent : (m.after n (.start q)).shared.serials.next < Counter.largest) :
    ∀ g ∈ (m.after n (.start q)).pool,
      ∃ posted, g.Tended m.rules (m.after n (.start q)).shared.serials.next posted := by
  have hall := forall_pool_after (m := m) (q := q) (n := n)
    (P := fun c g => c.serials.next < Counter.largest → ∃ posted, g.Tended m.rules c.serials.next posted)
    (fun _ => ⟨_, .start m.rules _ q.env q.code⟩)
    (fun c d g hg hlt => by
      have hnext := Counters.serials_drawn hlt
      obtain ⟨posted, htended⟩ := hg (by omega)
      exact ⟨posted, htended.carry rfl rfl (by omega)⟩)
    (fun c f hf hnofault g hg hlt => by
      have hnext := Counters.serials_drawn hlt
      obtain ⟨posted, htended⟩ := hf (by omega)
      obtain ⟨instr, hcur, hperforms⟩ := exists_performs hnofault
      exact htended.performs hrs hcur hperforms hlt hg)
    herror
  exact fun g hg => hall g hg hunspent

/-- In the running frame and in every saved one, between any two steps of a run without a fault: if
different live constraints are of the signatures of a rule's heads, and its guards hold on their
arguments, then they have fired the rule. The constants of the guards have no variables, and the
serial numbers have not come to their end. -/
theorem no_rule_missed (hrs : ∀ r ∈ m.rules.rules, r.guards.all Guard.isClosed = true)
    (herror : ∀ k < n, ∀ e, (m.step (m.after k (.start q))).result ≠ .error e)
    (hunspent : (m.after n (.start q)).shared.serials.next < Counter.largest) {f : Frame}
    (hf : (m.after n (.start q)).frame = some f ∨
      ∃ i, (m.after n (.start q)).shared.choices.savedIn i = some f)
    {rule : Nat} {r : Rule} {cs : List Constraint} {env : Env} (hr : m.rules.rules[rule]? = some r)
    (hheads : cs.map (·.sig) = r.head) (hlive : ∀ c ∈ cs, c ∈ f.store.constraints)
    (hdistinct : cs.Nodup)
    (hguards : Guard.checkAll f.subst (cs.flatMap (·.args)) r.guards = .ok (some env)) :
    f.store.hasFired rule (cs.map (·.serial)) = true := by
  have hmem : f.detached ∈ (m.after n (.start q)).pool := by
    rcases hf with hf | ⟨i, hf⟩
    · exact Search.detached_mem_pool_of_frame hf
    · exact Search.detached_mem_pool_of_saved hf
  obtain ⟨posted, htended⟩ := tended_after hrs herror hunspent _ hmem
  refine htended.settled rule cs ⟨hlive, ?_, r, env, hr, hheads, hguards⟩
  refine hdistinct.map_on fun c hc d hd hserial => ?_
  exact htended.linked.indexed.eq_of_serial_eq (hlive c hc) (hlive d hd) hserial

/-- `leq(A, B)` and `leq(C, D)` do not match until `B` and `C` are one variable. After that a saved
frame knows that they have fired transitivity, and the constraint that it posted. -/
theorem no_rule_missed_leq :
    let m : Machine := { rules := Samples.leq }
    let q : Query := .ofCode 4 [.constraint "leq" [.register 0, .register 1],
      .constraint "leq" [.register 2, .register 3], .unify (.register 1) (.register 2), .choice 0,
      .success]
    ∃ f, (m.after 6 (.start q)).shared.choices.savedIn 0 = some f ∧
      f.store.constraints.map (·.serial) = [1, 2, 3] ∧ f.store.hasFired 2 [1, 2] = true := by
  intro m q
  let pair (f : Frame) : List Constraint := f.store.constraints.take 2
  have hsaved : ((m.after 6 (.start q)).shared.choices.savedIn 0).isSome = true := by
    decide +kernel
  obtain ⟨f, hf⟩ := Option.isSome_iff_exists.mp hsaved
  have hserials : ((m.after 6 (.start q)).shared.choices.savedIn 0).map
      (fun f => f.store.constraints.map (·.serial)) = some [1, 2, 3] := by decide +kernel
  have hheads : ((m.after 6 (.start q)).shared.choices.savedIn 0).map
      (fun f => (pair f).map (·.sig)) = some [⟨"leq", 2⟩, ⟨"leq", 2⟩] := by decide +kernel
  have hguards : ((m.after 6 (.start q)).shared.choices.savedIn 0).map
      (fun f => (Guard.checkAll f.subst ((pair f).flatMap (·.args))
        [.equal (.register 1) (.register 2)]).toOption) =
      some (some (some [.var 1, .var 2, .var 3, .var 4])) := by decide +kernel
  have hok : ∀ k < 6, (m.step (m.after k (.start q))).result.isOk = true := by decide +kernel
  simp only [hf, Option.map_some, Option.some_inj] at hserials hheads hguards
  have hpair : (pair f).map (·.serial) = [1, 2] := by
    rw [List.map_take, hserials]
    rfl
  refine ⟨f, hf, hserials, ?_⟩
  have hdistinct : (pair f).Nodup := List.Nodup.of_map (·.serial) (hpair ▸ by decide)
  rw [← hpair]
  cases hchecked : Guard.checkAll f.subst ((pair f).flatMap (·.args))
      [.equal (.register 1) (.register 2)] with
  | error e =>
    rw [hchecked] at hguards
    cases hguards
  | ok answer =>
    rw [hchecked] at hguards
    cases hguards
    exact no_rule_missed (by decide +kernel) (no_error_of_isOk hok) (by decide +kernel)
      (.inr ⟨0, hf⟩) (r := Samples.leqRules[2]) rfl hheads (fun c => List.mem_of_mem_take) hdistinct
      hchecked

end Machine

end LogicMachine
