import Mathlib.Data.List.Forall2
import Mathlib.Logic.Relation
import LogicMachine.Constraint.Matching
import LogicMachine.Proofs.Constraints.Combinations
import LogicMachine.Proofs.Constraints.Contents

/-!
# Passes

One pass of a constraint over the rules, as a sequence of small steps: a rule fires, or a fault ends
the pass. A step says all that is known about it when it is taken. In the other direction, a pass
that ends without a fault leaves no combination out: whatever is live at its end has fired, unless
its guards do not hold.
-/

namespace LogicMachine

/-- The combinations of some lists are the picks of one element from each of them. -/
theorem mem_combinations {α : Type} {ls : List (List α)} {xs : List α} :
    xs ∈ combinations ls ↔ List.Forall₂ (· ∈ ·) xs ls := by
  induction ls generalizing xs with
  | nil => simp
  | cons l ls ih =>
    simp only [combinations_cons, List.mem_flatMap, List.mem_map, List.forall₂_cons_right_iff, ih]
    exact ⟨fun ⟨x, hx, ys, hys, hxs⟩ => ⟨x, ys, hx, hys, hxs.symm⟩,
      fun ⟨x, ys, hx, hys, hxs⟩ => ⟨x, hx, ys, hys, hxs.symm⟩⟩

/-- The occurrences of a signature are the head positions that ask for it. -/
theorem RuleSet.mem_occurrences_iff {rs : RuleSet} {sig : Signature} {o : Occurrence} :
    o ∈ rs.occurrences sig ↔
      rs.rules[o.index]? = some o.rule ∧ o.rule.head[o.pos]? = some sig := by
  simp only [occurrences, List.mem_flatMap, List.mem_map, List.mem_filter, Prod.exists,
    List.mem_zipIdx_iff_getElem?, decide_eq_true_eq]
  constructor
  · rintro ⟨rule, index, hrule, _, pos, ⟨hpos, rfl⟩, rfl⟩
    exact ⟨hrule, hpos⟩
  · rintro ⟨hrule, hpos⟩
    exact ⟨o.rule, o.index, hrule, sig, o.pos, ⟨hpos, rfl⟩, rfl⟩

/-- The serial numbers of the participants, in head order. -/
def Firing.serials (f : Firing) : List Nat := f.participants.map (·.serial)

/-- The participants that the rule gives up. -/
def Firing.removed (f : Firing) : List Constraint :=
  f.occurrence.rule.deletes.filterMap (f.participants[·]?)

namespace Store

variable {st st' st'' : Store}

/-- What passes make of a store: constraints may go, and more combinations may have fired. -/
structure Passed (st st' : Store) : Prop where
  indexed : st'.Indexed
  mentions : st'.mentions = st.mentions
  live : ∀ c ∈ st'.constraints, c ∈ st.constraints
  fired : ∀ rule xs, st.hasFired rule xs = true → st'.hasFired rule xs = true

/-- A store that is in order has passed into itself: a pass may change nothing. -/
theorem Passed.refl (h : st.Indexed) : Passed st st := ⟨h, rfl, fun _ => id, fun _ _ => id⟩

/-- What one pass after another makes of a store is what passes make of it. -/
theorem Passed.trans (h : Passed st st') (h' : Passed st' st'') : Passed st st'' where
  indexed := h'.indexed
  mentions := h'.mentions.trans h.mentions
  live c hc := h.live c (h'.live c hc)
  fired rule xs hfired := h'.fired rule xs (h.fired rule xs hfired)

/-- No other live constraint has the serial number of `c`. -/
def Owns (st : Store) (c : Constraint) : Prop := ∀ d ∈ st.constraints, d.serial = c.serial → d = c

/-- A pass adds no constraint, so none comes up that shares the number of `c`. -/
theorem Owns.passed {c : Constraint} (h : st.Owns c) (hst : Passed st st') : st'.Owns c :=
  fun d hd => h d (hst.live d hd)

end Store

namespace Pass

variable {rs : RuleSet} {s : Subst} {c d : Constraint} {p q : Pass} {o : Occurrence}
  {cs : List Constraint} {env : Env} {f : Firing}

/-- The combinations that are tried at a head position: `c` fills it, and the others are live and of
the signatures that the heads ask for. -/
theorem mem_combinations_candidates {st : Store} (ho : o.rule.head[o.pos]? = some c.sig) :
    cs ∈ combinations (candidates st c o) ↔
      cs.map (·.sig) = o.rule.head ∧ cs[o.pos]? = some c ∧
        ∀ j d, cs[j]? = some d → j ≠ o.pos → d ∈ st.constraints := by
  have hplace : ∀ j : Nat, Option.Rel (· ∈ ·) cs[j]? (candidates st c o)[j]? ↔
      cs[j]?.map (·.sig) = o.rule.head[j]? ∧ (j = o.pos → cs[j]? = some c) ∧
        ∀ d, cs[j]? = some d → j ≠ o.pos → d ∈ st.constraints := by
    intro j
    rw [candidates, List.getElem?_mapIdx]
    by_cases hj : j = o.pos
    · rw [hj, ho]
      cases cs[o.pos]? with
      | none => simp
      | some d =>
        simp only [Option.map_some, Option.rel_some_some, if_true, List.mem_singleton,
          Option.some_inj, true_imp_iff, ne_eq, not_true, false_imp_iff, implies_true, and_true]
        exact ⟨fun h => ⟨congrArg _ h, h⟩, fun h => h.2⟩
    · cases cs[j]? with
      | none => cases o.rule.head[j]? <;> simp [hj]
      | some d =>
        cases o.rule.head[j]? with
        | none => simp [hj]
        | some sig => simp [hj, Store.mem_lookup_iff, and_comm]
  rw [mem_combinations, forall₂_iff_getElem?, List.ext_getElem?_iff]
  simp only [hplace, forall_and, forall_eq, List.getElem?_map]

/-! ### Steps -/

/-- A combination in which `c` fills a head position: the members are of the signatures of the heads
and different from each other. -/
structure Fills (rs : RuleSet) (c : Constraint) (o : Occurrence) (cs : List Constraint) :
    Prop where
  occurrence : o ∈ rs.occurrences c.sig
  heads : cs.map (·.sig) = o.rule.head
  fills : cs[o.pos]? = some c
  nodup : (cs.map (·.serial)).Nodup

/-- Whatever takes part in a combination fills one of its head positions. -/
theorem exists_fills {rule : Nat} {r : Rule} (hr : rs.rules[rule]? = some r)
    (hheads : cs.map (·.sig) = r.head) (hc : c ∈ cs) (hnodup : (cs.map (·.serial)).Nodup) :
    ∃ pos, Fills rs c ⟨rule, r, pos⟩ cs := by
  obtain ⟨pos, hpos⟩ := List.mem_iff_getElem?.mp hc
  have hsig : r.head[pos]? = some c.sig := by rw [← hheads, List.getElem?_map, hpos, Option.map_some]
  exact ⟨pos, RuleSet.mem_occurrences_iff.mpr ⟨hr, hsig⟩, hheads, hpos, hnodup⟩

/-- A combination whose guards are checked: its members are live and have not fired the rule. -/
structure Admitted (rs : RuleSet) (c : Constraint) (p : Pass) (o : Occurrence)
    (cs : List Constraint) : Prop extends Fills rs c o cs where
  live : ∀ d ∈ cs, d ∈ p.store.constraints
  new : p.store.hasFired o.index (cs.map (·.serial)) = false
  fault : p.fault = none

/-- A step of a pass of `c`. -/
inductive Step (rs : RuleSet) (s : Subst) (c : Constraint) : Pass → Pass → Prop
  | fire {p : Pass} {o : Occurrence} {cs : List Constraint} {env : Env}
      (h : Admitted rs c p o cs)
      (hguards : Guard.checkAll s (cs.flatMap (·.args)) o.rule.guards = .ok (some env)) :
      Step rs s c p (p.fire ⟨o, cs, env⟩)
  | fault {p : Pass} {o : Occurrence} {cs : List Constraint} {e : ProgramError}
      (h : Admitted rs c p o cs)
      (hguards : Guard.checkAll s (cs.flatMap (·.args)) o.rule.guards = .error e) :
      Step rs s c p { p with fault := some e }

/-- Any number of steps. -/
abbrev Steps (rs : RuleSet) (s : Subst) (c : Constraint) : Pass → Pass → Prop :=
  Relation.ReflTransGen (Step rs s c)

/-- A firing is written down behind the ones before it. -/
theorem firings_fire (p : Pass) (f : Firing) : (p.fire f).firings = p.firings ++ [f] := rfl

/-- A firing records and deletes, which leaves the store in order. -/
theorem indexed_fire (h : p.store.Indexed) (f : Firing) : (p.fire f).store.Indexed :=
  (h.recordFiring _ _).foldl_erase _

/-- After a firing, those constraints are live that the rule has not given up. -/
theorem mem_constraints_fire (h : p.store.Indexed) :
    d ∈ (p.fire f).store.constraints ↔
      d ∈ p.store.constraints ∧ ∀ e ∈ f.removed, ¬ d.SameAs e :=
  (h.recordFiring _ _).mem_constraints_foldl_erase

/-- After a firing, its combination counts as fired, along with all earlier ones. -/
theorem hasFired_fire {rule : Nat} {xs : List Nat} :
    (p.fire f).store.hasFired rule xs = true ↔
      f.occurrence.index = rule ∧ f.serials = xs ∨ p.store.hasFired rule xs = true := by
  simp only [fire, Store.hasFired_foldl_erase, Store.hasFired_recordFiring, Firing.serials]

/-- A firing does not touch the notes, so a constraint that goes stays noted. -/
theorem mentions_fire (p : Pass) (f : Firing) : (p.fire f).store.mentions = p.store.mentions := by
  rw [fire, Store.foldl_erase_eq]
  rfl

/-- One firing is what a pass makes of a store. -/
theorem passed_fire (h : p.store.Indexed) (f : Firing) : Store.Passed p.store (p.fire f).store where
  indexed := indexed_fire h f
  mentions := mentions_fire p f
  live _ hc := ((mem_constraints_fire h).mp hc).1
  fired _ _ hfired := hasFired_fire.mpr (.inr hfired)

/-- Any number of steps is what a pass makes of a store. -/
theorem Steps.passed (h : Steps rs s c p q) (hp : p.store.Indexed) :
    Store.Passed p.store q.store := by
  induction h with
  | refl => exact .refl hp
  | tail _ hstep ih =>
    cases hstep with
    | fire => exact ih.trans (passed_fire ih.indexed _)
    | fault => exact ih

/-- A fault is never forgotten. -/
theorem Steps.fault (h : Steps rs s c p q) (hq : q.fault = none) : p.fault = none := by
  rcases h.cases_head with rfl | ⟨r, hstep, -⟩
  · exact hq
  · cases hstep with
    | fire h => exact h.fault
    | fault h => exact h.fault

/-! ### A pass as steps -/

/-- The store of the pass is in order, and no other live constraint has the number of `c`. -/
def Knows (p : Pass) (c : Constraint) : Prop := p.store.Indexed ∧ p.store.Owns c

/-- What a pass knows about its own constraint it still knows further on. -/
theorem Knows.steps (h : p.Knows c) (hpq : Steps rs s c p q) : q.Knows c :=
  ⟨(hpq.passed h.1).indexed, h.2.passed (hpq.passed h.1)⟩

/-- Trying a combination of candidates is a step or none. Candidates were live when the pass began,
so what is alive under a candidate's number now is the candidate itself. -/
theorem steps_tryCombination (hp : p.Knows c) (hpq : Steps rs s c p q)
    (ho : o ∈ rs.occurrences c.sig) (hcs : cs ∈ combinations (candidates p.store c o)) :
    Steps rs s c q (q.tryCombination s o cs) := by
  obtain ⟨hheads, hfills, hothers⟩ :=
    (mem_combinations_candidates (RuleSet.mem_occurrences_iff.mp ho).2).mp hcs
  unfold tryCombination
  split
  · exact .refl
  · next htried =>
    simp only [Bool.or_eq_true, Bool.not_eq_true', not_or, Bool.not_eq_true, Option.isSome_eq_false_iff,
      Option.isNone_iff_eq_none, Bool.not_eq_false] at htried
    obtain ⟨hfault, hadmits⟩ := htried
    simp only [admits, Bool.and_eq_true, List.all_eq_true, decide_eq_true_eq,
      Bool.not_eq_true'] at hadmits
    obtain ⟨⟨halive, hnodup⟩, hnew⟩ := hadmits
    have hlive : ∀ d ∈ cs, d ∈ q.store.constraints := by
      intro d hd
      -- what is live under the serial number of `d` is `d` itself
      obtain ⟨e, he, hserial, -⟩ := (hpq.passed hp.1).indexed.isAlive_iff.mp (halive d hd)
      have hep := (hpq.passed hp.1).live e he
      obtain ⟨j, hj⟩ := List.mem_iff_getElem?.mp hd
      by_cases hpos : j = o.pos
      · rw [hpos, hfills, Option.some_inj] at hj
        rw [← hj, ← hp.2 e hep (hj ▸ hserial)]
        exact he
      · rw [← hp.1.eq_of_serial_eq hep (hothers j d hj hpos) hserial]
        exact he
    have hadmitted : Admitted rs c q o cs :=
      ⟨⟨ho, hheads, hfills, hnodup⟩, hlive, hnew, hfault⟩
    split
    · next e hguards => exact .single (.fault hadmitted hguards)
    · exact .refl
    · next env hguards => exact .single (.fire hadmitted hguards)

/-- Trying several combinations one after another takes some steps. All of them are of the
candidates that there were at the start. -/
theorem steps_foldl_tryCombination (hp : p.Knows c) (hpq : Steps rs s c p q)
    (ho : o ∈ rs.occurrences c.sig) {css : List (List Constraint)}
    (hcss : ∀ cs ∈ css, cs ∈ combinations (candidates p.store c o)) :
    Steps rs s c q (css.foldl (tryCombination s o) q) :=
  css.foldlRecOn _ .refl fun _ hr cs hcs =>
    hr.trans (steps_tryCombination hp (hpq.trans hr) ho (hcss cs hcs))

/-- Trying the constraint at one head position takes some steps. -/
theorem steps_tryOccurrence (hp : p.Knows c) (ho : o ∈ rs.occurrences c.sig) :
    Steps rs s c p (p.tryOccurrence s c o) := by
  unfold tryOccurrence
  split
  · exact .refl
  · exact steps_foldl_tryCombination hp .refl ho fun _ h => h

/-- Trying it at several head positions, one after another, takes some steps. -/
theorem steps_foldl_tryOccurrence (hp : p.Knows c) {os : List Occurrence}
    (hos : ∀ o ∈ os, o ∈ rs.occurrences c.sig) :
    Steps rs s c p (os.foldl (tryOccurrence s c) p) :=
  os.foldlRecOn _ .refl fun _ hr o ho => hr.trans (steps_tryOccurrence (hp.steps hr) (hos o ho))

/-! ### Nothing is left out -/

/-- A combination that has been tried without a fault has fired, or the guards do not hold. -/
theorem hasFired_or_refused_tryCombination (hp : p.store.Indexed)
    (hlive : ∀ d ∈ cs, d ∈ p.store.constraints) (hnodup : (cs.map (·.serial)).Nodup)
    (hfault : (p.tryCombination s o cs).fault = none) :
    (p.tryCombination s o cs).store.hasFired o.index (cs.map (·.serial)) = true ∨
      Guard.checkAll s (cs.flatMap (·.args)) o.rule.guards = .ok none := by
  by_cases hfired : p.store.hasFired o.index (cs.map (·.serial)) = true
  · have hsame : p.tryCombination s o cs = p := by simp [tryCombination, admits, hfired]
    rw [hsame]
    exact .inl hfired
  · have halive : ∀ d ∈ cs, p.store.isAlive d = true := fun d hd =>
      hp.isAlive_iff.mpr ⟨d, hlive d hd, rfl, rfl⟩
    have hadmits : p.admits o.index cs = true := by simpa [admits, hnodup, hfired] using halive
    unfold tryCombination at hfault ⊢
    split
    · next hskipped =>
      -- only a fault from before could have kept it from being tried
      rw [if_pos hskipped] at hfault
      simp [hfault, hadmits] at hskipped
    · next htried =>
      rw [if_neg htried] at hfault
      split at hfault
      · cases hfault
      · next hguards => exact .inr hguards
      · exact .inl (hasFired_fire.mpr (.inl ⟨rfl, rfl⟩))

/-- No combination in which `c` fills the head position is left out, if its members are live at the
end. -/
theorem hasFired_or_refused_tryOccurrence (hp : p.Knows c) (h : Fills rs c o cs)
    (hlive : ∀ d ∈ cs, d ∈ (p.tryOccurrence s c o).store.constraints)
    (hfault : (p.tryOccurrence s c o).fault = none) :
    (p.tryOccurrence s c o).store.hasFired o.index (cs.map (·.serial)) = true ∨
      Guard.checkAll s (cs.flatMap (·.args)) o.rule.guards = .ok none := by
  have ho := h.occurrence
  have hsteps := steps_tryOccurrence hp ho (s := s)
  have hcs : cs ∈ combinations (candidates p.store c o) := by
    rw [mem_combinations_candidates (RuleSet.mem_occurrences_iff.mp ho).2]
    exact ⟨h.heads, h.fills, fun j d hd _ =>
      (hsteps.passed hp.1).live d (hlive d (List.mem_of_getElem? hd))⟩
  have hfold : p.tryOccurrence s c o =
      (combinations (candidates p.store c o)).foldl (tryCombination s o) p := by
    rw [tryOccurrence, hsteps.fault hfault]
    rfl
  rw [hfold] at hlive hfault ⊢
  -- `q` is the pass when the combination's turn comes
  obtain ⟨css₁, css₂, hcss⟩ := List.append_of_mem hcs
  have hmem : ∀ cs' ∈ css₁ ++ cs :: css₂, cs' ∈ combinations (candidates p.store c o) :=
    fun cs' h => hcss ▸ h
  rw [List.forall_mem_append, List.forall_mem_cons] at hmem
  rw [hcss, List.foldl_append, List.foldl_cons] at hlive hfault ⊢
  have hpq := steps_foldl_tryCombination hp .refl ho hmem.1 (s := s)
  generalize css₁.foldl (tryCombination s o) p = q at *
  have hqr := steps_tryCombination hp hpq ho hmem.2.1
  have hend := steps_foldl_tryCombination hp (hpq.trans hqr) ho hmem.2.2
  have hq := (hp.steps hpq).1
  have hlive' : ∀ d ∈ cs, d ∈ q.store.constraints := fun d hd =>
    (Steps.passed (hqr.trans hend) hq).live d (hlive d hd)
  exact (hasFired_or_refused_tryCombination hq hlive' h.nodup (hend.fault hfault)).imp_left
    ((hend.passed (hqr.passed hq).indexed).fired _ _)

end Pass

variable {rs : RuleSet} {s : Subst} {c : Constraint} {st : Store}

/-- A pass is a sequence of steps. -/
theorem Store.matchRules_steps (hst : st.Indexed) (hc : st.Owns c) :
    Pass.Steps rs s c { store := st } (st.matchRules rs s c) :=
  Pass.steps_foldl_tryOccurrence ⟨hst, hc⟩ fun _ h => h

/-- What a pass makes of a store it was given in order. -/
theorem Store.passed_matchRules (rs : RuleSet) (s : Subst) (hst : st.Indexed) (hc : st.Owns c) :
    Passed st (st.matchRules rs s c).store :=
  (matchRules_steps hst hc).passed hst

/-- After a pass without a fault, every combination that `c` takes part in and that is live then has
fired, or the guards do not hold. -/
theorem Store.hasFired_or_refused_matchRules (hst : st.Indexed) (hc : st.Owns c) {o : Occurrence}
    {cs : List Constraint} (h : Pass.Fills rs c o cs)
    (hlive : ∀ d ∈ cs, d ∈ (st.matchRules rs s c).store.constraints)
    (hfault : (st.matchRules rs s c).fault = none) :
    (st.matchRules rs s c).store.hasFired o.index (cs.map (·.serial)) = true ∨
      Guard.checkAll s (cs.flatMap (·.args)) o.rule.guards = .ok none := by
  have ho := h.occurrence
  have hknows : ({ store := st } : Pass).Knows c := ⟨hst, hc⟩
  obtain ⟨p, hp, hend⟩ :
      ∃ p : Pass, p.Knows c ∧ Pass.Steps rs s c (p.tryOccurrence s c o) (st.matchRules rs s c) := by
    obtain ⟨os₁, os₂, hos⟩ := List.append_of_mem ho
    have hmem : ∀ o' ∈ os₁ ++ o :: os₂, o' ∈ rs.occurrences c.sig := fun o' h => hos ▸ h
    rw [List.forall_mem_append, List.forall_mem_cons] at hmem
    have hp := hknows.steps (Pass.steps_foldl_tryOccurrence hknows hmem.1 (s := s))
    refine ⟨_, hp, ?_⟩
    rw [matchRules, hos, List.foldl_append, List.foldl_cons]
    exact Pass.steps_foldl_tryOccurrence (hp.steps (Pass.steps_tryOccurrence hp ho)) hmem.2.2
  have hindexed := (hp.steps (Pass.steps_tryOccurrence hp ho (s := s))).1
  have hpassed := hend.passed hindexed
  exact (Pass.hasFired_or_refused_tryOccurrence hp h (fun d hd => hpassed.live d (hlive d hd))
    (hend.fault hfault)).imp_left (hpassed.fired _ _)

end LogicMachine
