import LogicMachine.Proofs.Constraints.Guards
import LogicMachine.Proofs.Constraints.Noted

/-!
# Settled stores

A store is settled when every combination that could fire a rule has done so. Posting a constraint
unsettles it for the combinations that the new constraint takes part in, and a unification for those
with a constraint that leads to a variable it binds. The passes of these constraints settle it again.
-/

namespace LogicMachine

variable {rs : RuleSet} {s s' : Subst} {st st' : Store} {c d : Constraint}
  {cs affected : List Constraint} {rule : Nat}

namespace Store

/-- The combination can fire the rule: its members are live, different from each other and of the
signatures of the heads, and the guards hold on their arguments. -/
structure Applicable (rs : RuleSet) (s : Subst) (st : Store) (rule : Nat)
    (cs : List Constraint) : Prop where
  live : ∀ c ∈ cs, c ∈ st.constraints
  nodup : (cs.map (·.serial)).Nodup
  guards : ∃ r env, rs.rules[rule]? = some r ∧ cs.map (·.sig) = r.head ∧
    Guard.checkAll s (cs.flatMap (·.args)) r.guards = .ok (some env)

/-- What can fire in one store can fire in another in which its members are live as well. -/
theorem Applicable.of_live (h : Applicable rs s st' rule cs)
    (hlive : ∀ c ∈ cs, c ∈ st.constraints) : Applicable rs s st rule cs :=
  ⟨hlive, h.nodup, h.guards⟩

/-- Every combination that can fire a rule has fired it. -/
def Settled (rs : RuleSet) (s : Subst) (st : Store) : Prop :=
  ∀ rule cs, Applicable rs s st rule cs → st.hasFired rule (cs.map (·.serial)) = true

/-- The store is settled for the combinations that the constraint takes part in. -/
def SettledFor (rs : RuleSet) (s : Subst) (c : Constraint) (st : Store) : Prop :=
  ∀ rule cs, c ∈ cs → Applicable rs s st rule cs → st.hasFired rule (cs.map (·.serial)) = true

/-- In the empty store no combination can fire: every rule has a head, and nothing fills it. -/
theorem settled_empty (rs : RuleSet) (s : Subst) : Settled rs s Store.empty := by
  intro rule cs h
  obtain ⟨r, env, hr, hheads, -⟩ := h.guards
  cases cs with
  | nil => exact absurd hheads.symm (rs.head_ne_nil r (List.mem_of_getElem? hr))
  | cons c cs => cases h.live c List.mem_cons_self

/-- Passes leave a store settled for a constraint. -/
theorem SettledFor.passed (h : SettledFor rs s c st) (hst : Passed st st') :
    SettledFor rs s c st' := fun rule cs hc happ =>
  hst.fired _ _ (h rule cs hc (happ.of_live fun d hd => hst.live d (happ.live d hd)))

/-- A constraint that is not live settles the store for itself. -/
theorem settledFor_of_not_live (hc : c ∉ st.constraints) : SettledFor rs s c st :=
  fun _ _ hcs happ => absurd (happ.live c hcs) hc

/-- A pass without a fault settles the store for its constraint. -/
theorem settledFor_matchRules (rs : RuleSet) (s : Subst) (hst : st.Indexed) (hc : st.Owns c)
    (hfault : (st.matchRules rs s c).fault = none) :
    SettledFor rs s c (st.matchRules rs s c).store := by
  intro rule cs hmem happ
  obtain ⟨r, env, hr, hheads, hguards⟩ := happ.guards
  obtain ⟨pos, hfills⟩ := Pass.exists_fills hr hheads hmem happ.nodup
  refine (hasFired_or_refused_matchRules hst hc hfills happ.live hfault).resolve_right ?_
  rw [hguards]
  exact fun hrefused => by cases hrefused

end Store

/-- The passes of several constraints settle the store for each of them. -/
theorem Frame.Rematches.settledFor {f g : Frame} {rerun : List Constraint}
    (h : Rematches rs f cs rerun g) (hst : f.store.Indexed) (hcs : ∀ c ∈ cs, f.store.Owns c) :
    ∀ c ∈ cs, g.store.SettledFor rs f.subst c := by
  induction h with
  | done f => simp
  | @live f g c cs rerun _ hfault hrest ih =>
    rw [List.forall_mem_cons] at hcs ⊢
    have hpassed := Store.passed_matchRules rs f.subst hst hcs.1
    have howns : ∀ d ∈ cs, (f.matched rs c).store.Owns d := fun d hd => (hcs.2 d hd).passed hpassed
    refine ⟨?_, ih hpassed.indexed howns⟩
    exact (Store.settledFor_matchRules rs f.subst hst hcs.1 hfault).passed
      (hrest.passed hpassed.indexed howns).2
  | @deleted f g c cs rerun hdead hrest ih =>
    rw [List.forall_mem_cons] at hcs ⊢
    refine ⟨Store.settledFor_of_not_live fun hlive => ?_, ih hst hcs.2⟩
    have halive := hst.isAlive_iff.mpr ⟨c, (hrest.passed hst hcs.2).2.live c hlive, rfl, rfl⟩
    rw [hdead] at halive
    cases halive

/-! ### Posting and unifying -/

namespace Store

variable {posted : Constraint → Prop} {u : Unifier}

/-- When a new constraint has been posted, its pass settles the store again. -/
theorem Settled.post (h : Settled rs s st) (hlinked : Linked posted s st)
    (hnew : ∀ d, posted d → d.serial ≠ c.serial)
    (hst : Passed (st.enter s c) st') (hc : SettledFor rs s c st') :
    Settled rs s st' := by
  intro rule cs happ
  by_cases hmem : c ∈ cs
  · exact hc rule cs hmem happ
  · have hold : Applicable rs s st rule cs := by
      refine happ.of_live fun d hd => ?_
      rcases (hlinked.mem_constraints_enter hnew).mp (hst.live d (happ.live d hd)) with rfl | hlive
      · exact absurd hd hmem
      · exact hlive
    refine hst.fired _ _ ?_
    rw [hasFired_enter]
    exact h rule cs hold

/-- When variables have been bound, the passes of the affected constraints settle the store again:
for all others the guards say what they have said before. -/
theorem Settled.unify (h : Settled rs s st) (hlinked : Linked posted s st)
    (hrs : ∀ r ∈ rs.rules, r.guards.all Guard.isClosed = true) (hs : s.Acyclic)
    (hs' : u.subst.Acyclic) (hu : s.BoundBy u)
    (hst : Passed (st.handOverAll u.subst u.bindings).1 st')
    (haffected : ∀ c ∈ (st.handOverAll u.subst u.bindings).2, SettledFor rs u.subst c st') :
    Settled rs u.subst st' := by
  intro rule cs happ
  have hsame := SameButNotes.handOverAll st u.subst u.bindings
  by_cases hmem : ∃ c ∈ cs, c ∈ (st.handOverAll u.subst u.bindings).2
  · obtain ⟨c, hc, hcaffected⟩ := hmem
    exact haffected c hcaffected rule cs hc happ
  · have hlive : ∀ c ∈ cs, c ∈ st.constraints := fun c hc =>
      hsame.constraints_eq ▸ hst.live c (happ.live c hc)
    have huntouched : ∀ a ∈ cs.flatMap (·.args), s.Untouched u.subst a := by
      intro a ha
      obtain ⟨c, hc, hac⟩ := List.mem_flatMap.mp ha
      by_contra htouched
      exact hmem ⟨c, hc, (hlinked.mem_affected_iff hs hs' hu).mpr
        ⟨hlinked.live c (hlive c hc), a, hac, htouched⟩⟩
    obtain ⟨r, env, hr, hheads, hguards⟩ := happ.guards
    have hclosed := hrs r (List.mem_of_getElem? hr)
    rw [← Guard.checkAll_of_untouched hs hs' hu.extendedBy huntouched hclosed] at hguards
    refine hst.fired _ _ ?_
    rw [hsame.hasFired_eq]
    exact h rule cs ⟨hlive, happ.nodup, r, env, hr, hheads, hguards⟩

end Store

end LogicMachine
