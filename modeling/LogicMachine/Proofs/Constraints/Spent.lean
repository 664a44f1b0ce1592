import LogicMachine.Proofs.Constraints.Settled

/-!
# Rules that delete

When a rule fires, the constraints that it gives up are gone for good, because no serial number is
drawn twice. So in a settled store no rule that deletes anything applies any more: whatever it
applied to would have fired it, and would not be live.
-/

namespace LogicMachine

variable {rs : RuleSet} {next next' : Nat} {s : Subst} {st st' : Store} {c d : Constraint}
  {cs rerun : List Constraint} {p q : Pass} {f g : Frame} {rule : Nat} {r : Rule}

/-- A rule gives up the participants at the positions that it deletes. -/
theorem Firing.mem_removed_iff {f : Firing} :
    d ∈ f.removed ↔ ∃ i ∈ f.occurrence.rule.deletes, f.participants[i]? = some d := by
  rw [removed, List.mem_filterMap]

/-- After a rule has fired, what is live is what was live and has not been given up. -/
theorem Pass.mem_constraints_fire_of_live {f : Firing} (h : p.store.Indexed)
    (hlive : ∀ d ∈ f.participants, d ∈ p.store.constraints) :
    c ∈ (p.fire f).store.constraints ↔ c ∈ p.store.constraints ∧ c ∉ f.removed := by
  rw [mem_constraints_fire h]
  refine and_congr_right fun hc => ⟨fun hnot hmem => hnot c hmem ⟨rfl, rfl⟩, ?_⟩
  rintro hnot d hd ⟨hserial, -⟩
  obtain ⟨i, -, hi⟩ := Firing.mem_removed_iff.mp hd
  rw [h.eq_of_serial_eq hc (hlive d (List.mem_of_getElem? hi)) hserial] at hnot
  exact hnot hd

namespace Store

/-- All serial numbers that the store knows of lie below `next`, and no live constraint has one that
a rule has given up. -/
structure Spent (rs : RuleSet) (next : Nat) (st : Store) : Prop where
  live : ∀ c ∈ st.constraints, c.serial < next
  drawn : ∀ rule xs, st.hasFired rule xs = true → ∀ x ∈ xs, x < next
  deleted : ∀ rule r xs, rs.rules[rule]? = some r → st.hasFired rule xs = true →
    ∀ i ∈ r.deletes, ∀ c ∈ st.constraints, xs[i]? ≠ some c.serial

namespace Spent

/-- In the empty store nothing is live and nothing has fired. -/
theorem empty (rs : RuleSet) (next : Nat) : Spent rs next Store.empty where
  live c hc := by cases hc
  drawn rule xs h := by
    rw [hasFired_empty] at h
    cases h
  deleted rule r xs _ h := by
    rw [hasFired_empty] at h
    cases h

/-- Drawing more numbers leaves those in the store below the next one. -/
theorem mono (h : st.Spent rs next) (hle : next ≤ next') : st.Spent rs next' where
  live c hc := (h.live c hc).trans_le hle
  drawn rule xs hfired x hx := (h.drawn rule xs hfired x hx).trans_le hle
  deleted := h.deleted

/-- It makes no difference what is noted under variables. -/
theorem of_sameButNotes (h : st.Spent rs next) (hst : SameButNotes st st') :
    st'.Spent rs next where
  live c hc := h.live c (hst.constraints_eq ▸ hc)
  drawn rule xs hfired := h.drawn rule xs (hst.hasFired_eq rule xs ▸ hfired)
  deleted rule r xs hr hfired i hi c hc :=
    h.deleted rule r xs hr (hst.hasFired_eq rule xs ▸ hfired) i hi c (hst.constraints_eq ▸ hc)

/-- A new constraint has a number that nothing has had before. -/
theorem enter (h : st.Spent rs next) (hst : st.Indexed) (hle : next ≤ c.serial)
    (hlt : c.serial < next') : (st.enter s c).Spent rs next' where
  live d hd := by
    rcases (hst.mem_constraints_enter).mp hd with rfl | ⟨hd, -⟩
    · exact hlt
    · exact (h.live d hd).trans (hle.trans_lt hlt)
  drawn rule xs hfired x hx := by
    rw [hasFired_enter] at hfired
    exact (h.drawn rule xs hfired x hx).trans (hle.trans_lt hlt)
  deleted rule r xs hr hfired i hi d hd hx := by
    rw [hasFired_enter] at hfired
    rcases (hst.mem_constraints_enter).mp hd with rfl | ⟨hd, -⟩
    · exact (h.drawn rule xs hfired _ (List.mem_of_getElem? hx)).not_ge hle
    · exact h.deleted rule r xs hr hfired i hi d hd hx

/-- The participants are given up when their rule fires. -/
theorem step (h : p.store.Spent rs next) (hp : p.store.Indexed) (hstep : Pass.Step rs s c p q) :
    q.store.Spent rs next := by
  cases hstep with
  | fault => exact h
  | @fire o cs env hadmitted hguards =>
    have hmem := fun {d} => Pass.mem_constraints_fire_of_live (c := d) (f := ⟨o, cs, env⟩) hp
      hadmitted.live
    refine ⟨fun d hd => h.live d (hmem.mp hd).1, ?_, ?_⟩
    · intro rule xs hfired x hx
      rcases Pass.hasFired_fire.mp hfired with ⟨-, rfl⟩ | hold
      · obtain ⟨d, hd, rfl⟩ := List.mem_map.mp hx
        exact h.live d (hadmitted.live d hd)
      · exact h.drawn rule xs hold x hx
    · intro rule r xs hr hfired i hi d hd hx
      obtain ⟨hlive, hkept⟩ := hmem.mp hd
      rcases Pass.hasFired_fire.mp hfired with ⟨rfl, rfl⟩ | hold
      · -- the live constraint would be the participant that has just been given up
        obtain rfl : o.rule = r := Option.some.inj
          ((RuleSet.mem_occurrences_iff.mp hadmitted.occurrence).1.symm.trans hr)
        rw [Firing.serials, List.getElem?_map, Option.map_eq_some_iff] at hx
        obtain ⟨e, he, hserial⟩ := hx
        obtain rfl := hp.eq_of_serial_eq (hadmitted.live e (List.mem_of_getElem? he)) hlive hserial
        exact hkept (Firing.mem_removed_iff.mpr ⟨i, hi, he⟩)
      · exact h.deleted rule r xs hr hold i hi d hlive hx

/-- So it is after any number of steps, because each keeps it. -/
theorem steps (h : p.store.Spent rs next) (hp : p.store.Indexed) (hpq : Pass.Steps rs s c p q) :
    q.store.Spent rs next := by
  induction hpq with
  | refl => exact h
  | tail hbefore hstep ih => exact ih.step (Pass.Steps.passed hbefore hp).indexed hstep

/-- A whole pass keeps it, whether or not it ends in a fault. -/
theorem matchRules (h : st.Spent rs next) (hst : st.Indexed) (hc : st.Owns c) :
    (st.matchRules rs s c).store.Spent rs next :=
  steps (p := { store := st }) h hst (matchRules_steps hst hc)

/-- When everything that could fire has fired, no rule that deletes applies. -/
theorem not_applicable (h : st.Spent rs next) (hsettled : st.Settled rs s)
    (hr : rs.rules[rule]? = some r) (hdeletes : r.deletes ≠ []) : ¬ Applicable rs s st rule cs := by
  intro happ
  obtain ⟨i, hi⟩ := List.exists_mem_of_ne_nil _ hdeletes
  have hlength : i < cs.length := by
    obtain ⟨r', _, hr', hheads, -⟩ := happ.guards
    obtain rfl := Option.some.inj (hr.symm.trans hr')
    have hlt := rs.deletes_lt r (List.mem_of_getElem? hr) i hi
    rwa [← hheads, List.length_map] at hlt
  refine h.deleted rule r _ hr (hsettled rule cs happ) i hi cs[i]
    (happ.live _ (List.getElem_mem hlength)) ?_
  rw [List.getElem?_map, List.getElem?_eq_getElem hlength, Option.map_some]

end Spent

end Store

end LogicMachine
