import Mathlib.Data.List.Nodup
import LogicMachine.Constraint.Matching
import LogicMachine.Proofs.Constraints.Combinations
import LogicMachine.Proofs.Renaming.Store

/-!
# Matching up to a renaming

A pass over the rules looks at constraints only through their order, their signatures, their history
and what the guards say. In stores that agree up to a renaming it fires the same rules for
constraints that belong together.
-/

namespace LogicMachine

variable {ρ : Renaming}

/-- Has the guard no constant with variables? -/
def Guard.isClosed : Guard → Bool
  | .equal a b | .compare _ a b => a.isClosed && b.isClosed
  | .deconstruct _ _ _ => true

/-- Only integers and texts are ordered, and these belong to nothing but themselves. -/
theorem Term.Renamed.order?_eq {R : Pairing} {t t' u u' : Term} (h : t.Renamed R t')
    (hu : u.Renamed R u') : t.order? u = t'.order? u' := by
  cases h <;> cases hu <;> rfl

namespace Guard

variable {s s' : Subst} {env env' : Env}

/-- A guard holds on both sides or on neither. -/
theorem check_renamed (hs : s.Renamed ρ.vars s')
    (henv : List.Forall₂ (Term.Renamed ρ.vars) env env') (g : Guard) (hg : g.isClosed = true) :
    Agree (Option.Rel (List.Forall₂ (Term.Renamed ρ.vars))) (g.check s env) (g.check s' env') := by
  cases g with
  | equal a b =>
    rw [isClosed, Bool.and_eq_true] at hg
    simp only [check]
    rcases (a.eval_renamed hs henv hg.1).cases with ⟨x, x', hx, hx', hxx⟩ | ⟨e, hx, hx'⟩ <;>
      simp only [hx, hx']
    · rcases (b.eval_renamed hs henv hg.2).cases with ⟨y, y', hy, hy', hyy⟩ | ⟨e, hy, hy'⟩ <;>
        simp only [hy, hy']
      · simp only [hxx.eq_iff hyy]
        split
        · exact .ok (.some henv)
        · exact .ok .none
      · exact .error e
    · exact .error e
  | compare op a b =>
    rw [isClosed, Bool.and_eq_true] at hg
    simp only [check]
    rcases (a.eval_renamed hs henv hg.1).cases with ⟨x, x', hx, hx', hxx⟩ | ⟨e, hx, hx'⟩ <;>
      simp only [hx, hx']
    · rcases (b.eval_renamed hs henv hg.2).cases with ⟨y, y', hy, hy', hyy⟩ | ⟨e, hy, hy'⟩ <;>
        simp only [hy, hy']
      · rw [hxx.order?_eq hyy]
        split
        · exact .ok (.some henv)
        · exact .ok .none
      · exact .error e
    · exact .error e
  | deconstruct functor arity index =>
    simp only [check, henv.length_eq]
    rcases optionRel_cases (forall₂_getElem? henv index) with ⟨t, t', ht, ht', h⟩ | ⟨ht, ht'⟩ <;>
      simp only [ht, ht']
    · have hwalk := hs.walk h
      generalize s.walk t = w, s'.walk t' = w' at hwalk ⊢
      cases hwalk with
      | compound f hargs =>
        simp only [hargs.length_eq]
        split
        · exact .ok (.some (List.rel_append hargs henv))
        · exact .ok .none
      | var | int | text => exact .ok .none
    · exact .error _

/-- Several guards hold on both sides or on neither, and the environments that they leave agree. -/
theorem checkAll_renamed (hs : s.Renamed ρ.vars s')
    (henv : List.Forall₂ (Term.Renamed ρ.vars) env env') (gs : List Guard)
    (hgs : gs.all isClosed = true) :
    Agree (Option.Rel (List.Forall₂ (Term.Renamed ρ.vars))) (checkAll s env gs)
      (checkAll s' env' gs) := by
  induction gs generalizing env env' with
  | nil => exact .ok (.some henv)
  | cons g gs ih =>
    rw [List.all_cons, Bool.and_eq_true] at hgs
    simp only [checkAll]
    rcases (check_renamed hs henv g hgs.1).cases with ⟨o, o', ho, ho', hrel⟩ | ⟨e, ho, ho'⟩ <;>
      simp only [ho, ho']
    · cases hrel with
      | none => exact .ok .none
      | some henv => exact ih henv hgs.2
    · exact .error e

end Guard

/-- Has the instruction no constants with variables? -/
def Instr.isClosed : Instr → Bool
  | .invoke _ args | .constraint _ args => Expr.isClosedAll args
  | .unify a b => a.isClosed && b.isClosed
  | .goto _ | .choice _ | .fresh _ | .success | .fail => true

/-- Has the rule no constants with variables? -/
def Rule.isClosed (r : Rule) : Bool := r.guards.all Guard.isClosed && r.body.all Instr.isClosed

/-- Have the rules no constants with variables? -/
def RuleSet.isClosed (rs : RuleSet) : Bool := rs.rules.all Rule.isClosed

/-- Two firings are of the same rule, by constraints that belong together. -/
structure Firing.Renamed (ρ : Renaming) (f f' : Firing) : Prop where
  occurrence_eq : f.occurrence = f'.occurrence
  participants : List.Forall₂ (Constraint.Renamed ρ) f.participants f'.participants
  env : List.Forall₂ (Term.Renamed ρ.vars) f.env f'.env
  closed : f.occurrence.rule.isClosed = true

/-- Two passes have come equally far. -/
structure Pass.Renamed (ρ : Renaming) (p p' : Pass) : Prop where
  store : p.store.Renamed ρ p'.store
  firings : List.Forall₂ (Firing.Renamed ρ) p.firings p'.firings
  fault_eq : p.fault = p'.fault

/-- Lists of candidates that agree have combinations that agree, in the same order. -/
theorem forall₂_combinations {α β : Type} {V : α → β → Prop} {ls : List (List α)}
    {ls' : List (List β)} (h : List.Forall₂ (List.Forall₂ V) ls ls') :
    List.Forall₂ (List.Forall₂ V) (combinations ls) (combinations ls') := by
  induction h with
  | nil => exact .cons .nil .nil
  | cons hl _ ih =>
    rw [combinations_cons, combinations_cons]
    exact List.rel_flatMap hl fun _ _ ha => List.rel_map (fun _ _ h => .cons ha h) ih

namespace Pass

variable {p p' : Pass} {s s' : Subst} {cs cs' : List Constraint} {c c' : Constraint}

/-- A firing is recorded on both sides, and the participants that are given up belong together. -/
theorem Renamed.fire (h : Renamed ρ p p') {f f' : Firing} (hf : f.Renamed ρ f') :
    Renamed ρ (p.fire f) (p'.fire f') := by
  unfold Pass.fire
  have hserials : List.Forall₂ ρ.serials (f.participants.map (·.serial))
      (f'.participants.map (·.serial)) :=
    List.rel_map (fun _ _ hc => hc.serial) hf.participants
  have hdeleted : ∀ deletes : List Nat, List.Forall₂ (Constraint.Renamed ρ)
      (deletes.filterMap (f.participants[·]?)) (deletes.filterMap (f'.participants[·]?)) := by
    intro deletes
    have hsame : List.Forall₂ Eq deletes deletes := List.forall₂_refl _
    refine List.rel_filterMap ?_ hsame
    rintro d _ rfl
    exact forall₂_getElem? hf.participants d
  rw [← hf.occurrence_eq]
  have hrecorded := h.store.recordFiring f.occurrence.index hserials
  exact ⟨List.rel_foldl (fun _ _ h _ _ hc => h.erase hc) hrecorded (hdeleted _),
    List.rel_append h.firings (.cons hf .nil), h.fault_eq⟩

/-- Whether a combination is new, live and of different constraints is the same question on both
sides. -/
theorem Renamed.admits_eq (h : Renamed ρ p p') (rule : Nat)
    (hcs : List.Forall₂ (Constraint.Renamed ρ) cs cs') :
    p.admits rule cs = p'.admits rule cs' := by
  have hserials : List.Forall₂ ρ.serials (cs.map (·.serial)) (cs'.map (·.serial)) :=
    List.rel_map (fun _ _ hc => hc.serial) hcs
  have hlive : cs.all p.store.isAlive = cs'.all p'.store.isAlive := by
    clear hserials
    induction hcs with
    | nil => rfl
    | cons hc _ ih => rw [List.all_cons, List.all_cons, h.store.isAlive_eq hc, ih]
  have hnodup : (cs.map (·.serial)).Nodup ↔ (cs'.map (·.serial)).Nodup :=
    List.rel_nodup ρ.serials.biUnique hserials
  have hfired : p.store.hasFired rule (cs.map (·.serial)) =
      p'.store.hasFired rule (cs'.map (·.serial)) :=
    Bool.eq_iff_iff.mpr (h.store.fired rule hserials)
  simp only [admits, hlive, hnodup, hfired]

/-- A combination fires on both sides, or on neither, or both passes end in the same fault. -/
theorem Renamed.tryCombination (h : Renamed ρ p p') (hs : s.Renamed ρ.vars s') (o : Occurrence)
    (ho : o.rule.isClosed = true) (hcs : List.Forall₂ (Constraint.Renamed ρ) cs cs') :
    Renamed ρ (p.tryCombination s o cs) (p'.tryCombination s' o cs') := by
  unfold Pass.tryCombination
  rw [h.fault_eq, h.admits_eq o.index hcs]
  split
  · exact h
  · have henv : List.Forall₂ (Term.Renamed ρ.vars) (cs.flatMap (·.args)) (cs'.flatMap (·.args)) :=
      List.rel_flatMap hcs fun _ _ hc => hc.args
    have hguards : o.rule.guards.all Guard.isClosed = true := (Bool.and_eq_true_iff.mp ho).1
    rcases (Guard.checkAll_renamed hs henv o.rule.guards hguards).cases with
      ⟨r, r', hr, hr', hrel⟩ | ⟨e, hr, hr'⟩ <;> simp only [hr, hr']
    · cases hrel with
      | none => exact h
      | some henv => exact h.fire ⟨rfl, hcs, henv, ho⟩
    · exact ⟨h.store, h.firings, rfl⟩

/-- At each head the candidates belong together: the constraint of the pass at its own position, and
constraints of the right signature elsewhere. -/
theorem Renamed.candidates (h : Renamed ρ p p') (hc : c.Renamed ρ c') (o : Occurrence) :
    List.Forall₂ (List.Forall₂ (Constraint.Renamed ρ)) (candidates p.store c o)
      (candidates p'.store c' o) := by
  unfold Pass.candidates
  rw [List.mapIdx_eq_zipIdx_map, List.mapIdx_eq_zipIdx_map]
  have hsame : List.Forall₂ Eq o.rule.head.zipIdx o.rule.head.zipIdx := List.forall₂_refl _
  refine List.rel_map ?_ hsame
  rintro ⟨sig, j⟩ _ rfl
  simp only
  split
  · exact .cons hc .nil
  · exact h.store.lookup sig

/-- At a head position the combinations are tried in the same order, with the same success. -/
theorem Renamed.tryOccurrence (h : Renamed ρ p p') (hs : s.Renamed ρ.vars s')
    (hc : c.Renamed ρ c') (o : Occurrence) (ho : o.rule.isClosed = true) :
    Renamed ρ (p.tryOccurrence s c o) (p'.tryOccurrence s' c' o) := by
  unfold Pass.tryOccurrence
  rw [h.fault_eq]
  split
  · exact h
  · exact List.rel_foldl (fun _ _ h _ _ hcs => h.tryCombination hs o ho hcs) h
      (forall₂_combinations (h.candidates hc o))

end Pass

/-- Every occurrence is of a rule of the set. -/
theorem RuleSet.rule_mem_of_mem_occurrences {rs : RuleSet} {sig : Signature} {o : Occurrence}
    (ho : o ∈ rs.occurrences sig) : o.rule ∈ rs.rules := by
  simp only [occurrences, List.mem_flatMap, List.mem_map] at ho
  obtain ⟨⟨rule, index⟩, hrule, _, _, rfl⟩ := ho
  exact List.fst_mem_of_mem_zipIdx hrule

/-- In stores that belong together, the same rules fire. -/
theorem Store.Renamed.matchRules {st st' : Store} {s s' : Subst} {c c' : Constraint}
    (h : st.Renamed ρ st') (rs : RuleSet)
    (hrs : rs.isClosed = true) (hs : s.Renamed ρ.vars s')
    (hc : c.Renamed ρ c') : (st.matchRules rs s c).Renamed ρ (st'.matchRules rs s' c') := by
  unfold Store.matchRules
  rw [← hc.sig_eq]
  have hclosed : ∀ o ∈ rs.occurrences c.sig, o.rule.isClosed = true :=
    fun o ho => List.all_eq_true.mp hrs _ (RuleSet.rule_mem_of_mem_occurrences ho)
  have hstart : Pass.Renamed ρ { store := st } { store := st' } := ⟨h, .nil, rfl⟩
  generalize rs.occurrences c.sig = os at hclosed
  generalize ({ store := st } : Pass) = p, ({ store := st' } : Pass) = p' at hstart
  induction os generalizing p p' with
  | nil => exact hstart
  | cons o os ih =>
    exact ih (fun o ho => hclosed o (List.mem_cons_of_mem _ ho)) _ _
      (hstart.tryOccurrence hs hc o (hclosed o List.mem_cons_self))

end LogicMachine
