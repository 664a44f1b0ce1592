import LogicMachine.Proofs.Renaming.Subst
import LogicMachine.Search.Reactivation

/-!
# Constraint stores up to a renaming

Constraints are told apart by their serial numbers and tried in the order of these. Stores that
agree up to a renaming, which keeps that order, therefore hold the same constraints in the same
order, and the same rules fire in them for the same reasons.
-/

namespace LogicMachine

/-- Which variables belong together, and which constraints do. -/
structure Renaming where
  vars : Pairing
  serials : Pairing

/-- A renaming extends another when its pairings do. -/
structure Renaming.Extends (ρ ρ' : Renaming) : Prop where
  vars : ρ.vars.Extends ρ'.vars
  serials : ρ.serials.Extends ρ'.serials

variable {ρ ρ' : Renaming}

/-- Two constraints belong together and have arguments that do. -/
structure Constraint.Renamed (ρ : Renaming) (c c' : Constraint) : Prop where
  serial : ρ.serials c.serial c'.serial
  sig_eq : c.sig = c'.sig
  args : List.Forall₂ (Term.Renamed ρ.vars) c.args c'.args

/-- Constraints that belong together still do when more pairs are added. -/
theorem Constraint.Renamed.mono {c c' : Constraint} (hρ : ρ.Extends ρ') (h : c.Renamed ρ c') :
    c.Renamed ρ' c' :=
  ⟨hρ.serials.le h.serial, h.sig_eq, h.args.imp fun _ _ => .mono hρ.vars.le⟩

/-- Two stores hold constraints that belong together, for variables that do, and the same
combinations have fired. -/
structure Store.Renamed (ρ : Renaming) (st st' : Store) : Prop where
  live : MapRel ρ.serials (Constraint.Renamed ρ) st.live st'.live
  mentions : MapRel ρ.vars (MapRel ρ.serials (Constraint.Renamed ρ)) st.mentions st'.mentions
  fired : ∀ rule {xs xs'}, List.Forall₂ ρ.serials xs xs' →
    (st.hasFired rule xs = true ↔ st'.hasFired rule xs' = true)
  fired_left : ∀ {rule xs}, st.hasFired rule xs = true → ∀ x ∈ xs, ∃ x', ρ.serials x x'
  fired_right : ∀ {rule xs'}, st'.hasFired rule xs' = true → ∀ x' ∈ xs', ∃ x, ρ.serials x x'

namespace Store

variable {st st' : Store} {s s' : Subst} {c c' : Constraint} {v v' : Var} {t t' : Term}
  {cs cs' : List Constraint} {vs vs' : List Var}

/-- Empty stores agree up to any renaming: nothing is live, noted or fired. -/
theorem renamed_empty : Renamed ρ empty empty where
  live := .empty
  mentions := .empty
  fired rule xs xs' _ := by simp [hasFired, firedOf, empty]
  fired_left h := by simp [hasFired, firedOf, empty] at h
  fired_right h := by simp [hasFired, firedOf, empty] at h

/-- New pairs are of numbers that neither store knows, in its maps or in its history. -/
theorem Renamed.mono (hρ : ρ.Extends ρ') (h : Renamed ρ st st') : Renamed ρ' st st' where
  live := h.live.mono hρ.serials (Constraint.Renamed.mono hρ)
  mentions := h.mentions.mono hρ.vars fun hcs => hcs.mono hρ.serials (Constraint.Renamed.mono hρ)
  fired rule xs xs' hxs := by
    -- a combination that has fired has none of the new numbers in it
    constructor
    · intro hfired
      have hold : List.Forall₂ ρ.serials xs xs' :=
        ((List.forall₂_and_left _ _).mpr ⟨h.fired_left hfired, hxs⟩).imp fun _ _ hx =>
          hρ.serials.of_left hx.1 hx.2
      exact (h.fired rule hold).mp hfired
    · intro hfired
      have hold : List.Forall₂ ρ.serials xs xs' :=
        List.Forall₂.flip <| ((List.forall₂_and_left _ _).mpr ⟨h.fired_right hfired, hxs.flip⟩).imp
          fun _ _ hx => hρ.serials.of_right hx.1 hx.2
      exact (h.fired rule hold).mpr hfired
  fired_left hfired x hx := by
    obtain ⟨x', hx'⟩ := h.fired_left hfired x hx
    exact ⟨x', hρ.serials.le hx'⟩
  fired_right hfired x' hx' := by
    obtain ⟨x, hx⟩ := h.fired_right hfired x' hx'
    exact ⟨x, hρ.serials.le hx⟩

/-- Constraints that belong together may be added to both stores. -/
theorem Renamed.add (h : Renamed ρ st st') (hc : c.Renamed ρ c') :
    Renamed ρ (st.add c) (st'.add c') where
  live := h.live.insert hc.serial hc
  mentions := h.mentions
  fired := h.fired
  fired_left := h.fired_left
  fired_right := h.fired_right

/-- A constraint is alive exactly if the one that belongs to it is. -/
theorem Renamed.isAlive_eq (h : Renamed ρ st st') (hc : c.Renamed ρ c') :
    st.isAlive c = st'.isAlive c' := by
  unfold isAlive
  rcases optionRel_cases (h.live.get hc.serial) with ⟨d, d', hd, hd', hdd'⟩ | ⟨hd, hd'⟩ <;>
    rw [hd, hd']
  · rw [Option.any_some, Option.any_some, hdd'.sig_eq, hc.sig_eq]
  · rfl

/-- A deletion takes constraints that belong together out of both stores, or changes neither. -/
theorem Renamed.erase (h : Renamed ρ st st') (hc : c.Renamed ρ c') :
    Renamed ρ (st.erase c) (st'.erase c') := by
  unfold Store.erase
  rw [h.isAlive_eq hc]
  split
  · exact ⟨h.live.erase hc.serial, h.mentions, h.fired, h.fired_left, h.fired_right⟩
  · exact h

/-- The live constraints belong together one by one, from the oldest to the youngest. -/
theorem Renamed.constraints (h : Renamed ρ st st') :
    List.Forall₂ (Constraint.Renamed ρ) st.constraints st'.constraints :=
  h.live.values

/-- So do those of one signature: the candidates for a head are found in the same order. -/
theorem Renamed.lookup (h : Renamed ρ st st') (sig : Signature) :
    List.Forall₂ (Constraint.Renamed ρ) (st.lookup sig) (st'.lookup sig) :=
  List.rel_filter (fun _ _ hc => by simp [hc.sig_eq]) h.constraints

/-- Noting a constraint under a variable, on both sides. -/
theorem Renamed.connect (h : Renamed ρ st st') (hv : ρ.vars v v') (hc : c.Renamed ρ c') :
    Renamed ρ (st.connect v c) (st'.connect v' c') := by
  have hof : MapRel ρ.serials (Constraint.Renamed ρ) (st.mentionsOf v) (st'.mentionsOf v') := by
    unfold mentionsOf
    rw [Std.TreeMap.getD_eq_getD_getElem?, Std.TreeMap.getD_eq_getD_getElem?]
    rcases optionRel_cases (h.mentions.get hv) with ⟨cs, cs', hcs, hcs', hrel⟩ | ⟨hcs, hcs'⟩ <;>
      simp only [hcs, hcs']
    · exact hrel
    · exact .empty
  exact ⟨h.live, h.mentions.insert hv (hof.insert hc.serial hc), h.fired, h.fired_left,
    h.fired_right⟩

/-- Noting it under several variables that belong together. -/
theorem Renamed.connectAll (h : Renamed ρ st st') (hvs : List.Forall₂ ρ.vars vs vs')
    (hc : c.Renamed ρ c') : Renamed ρ (st.connectAll vs c) (st'.connectAll vs' c') :=
  List.rel_foldl (fun _ _ h _ _ hv => h.connect hv hc) h hvs

/-- Noting it under all that its arguments lead to. Substitutions that agree lead to variables that
belong together. -/
theorem Renamed.connectArgs (h : Renamed ρ st st') (hs : s.Renamed ρ.vars s')
    (hc : c.Renamed ρ c') : Renamed ρ (st.connectArgs s c) (st'.connectArgs s' c') :=
  List.rel_foldl (fun _ _ h _ _ ht => h.connectAll (hs.unboundVars ht) hc) h hc.args

/-- Taking notes out hands over constraints that belong together, and what is left agrees. -/
theorem Renamed.takeBacklinks (h : Renamed ρ st st') (hv : ρ.vars v v') :
    Option.Rel (List.Forall₂ (Constraint.Renamed ρ)) (st.takeBacklinks v).1
      (st'.takeBacklinks v').1 ∧
    Renamed ρ (st.takeBacklinks v).2 (st'.takeBacklinks v').2 := by
  unfold Store.takeBacklinks
  rcases optionRel_cases (h.mentions.get hv) with ⟨cs, cs', hcs, hcs', hrel⟩ | ⟨hcs, hcs'⟩ <;>
    simp only [hcs, hcs']
  · exact ⟨.some hrel.values, h.live, h.mentions.erase hv, h.fired, h.fired_left, h.fired_right⟩
  · exact ⟨.none, h⟩

/-- The same rule may be recorded for combinations that belong together. No other combination is
meant by them, because a pairing takes a list of numbers to one list only. -/
theorem Renamed.recordFiring (h : Renamed ρ st st') (rule : Nat) {xs xs' : List Nat}
    (hxs : List.Forall₂ ρ.serials xs xs') :
    Renamed ρ (st.recordFiring rule xs) (st'.recordFiring rule xs') where
  live := h.live
  mentions := h.mentions
  fired q ys ys' hys := by
    rw [hasFired_recordFiring, hasFired_recordFiring, h.fired q hys,
      ρ.serials.list_eq_iff hxs hys]
  fired_left hfired x hx := by
    rw [hasFired_recordFiring] at hfired
    rcases hfired with ⟨rfl, rfl⟩ | hfired
    · obtain ⟨x', -, hx'⟩ := (forall₂_partner hxs).1 x hx
      exact ⟨x', hx'⟩
    · exact h.fired_left hfired x hx
  fired_right hfired x' hx' := by
    rw [hasFired_recordFiring] at hfired
    rcases hfired with ⟨rfl, rfl⟩ | hfired
    · obtain ⟨x, -, hx⟩ := (forall₂_partner hxs).2 x' hx'
      exact ⟨x, hx⟩
    · exact h.fired_right hfired x' hx'

/-- The stores and the affected constraints belong together while constraints are handed over. -/
def AlikeHandedOver (ρ : Renaming) (x x' : Store × Std.TreeMap Nat Constraint) : Prop :=
  Renamed ρ x.1 x'.1 ∧ MapRel ρ.serials (Constraint.Renamed ρ) x.2 x'.2

/-- Handing one binding over keeps the stores and the affected constraints together. -/
theorem AlikeHandedOver.handOver (hs : s.Renamed ρ.vars s')
    {x x' : Store × Std.TreeMap Nat Constraint} (h : AlikeHandedOver ρ x x') {p p' : Var × Term}
    (hp : ρ.vars p.1 p'.1 ∧ p.2.Renamed ρ.vars p'.2) :
    AlikeHandedOver ρ (Store.handOver s x p) (Store.handOver s' x' p') := by
  obtain ⟨hst, haffected⟩ := h
  obtain ⟨hback, hst'⟩ := hst.takeBacklinks hp.1
  simp only [Store.handOver]
  rcases hx : x.1.takeBacklinks p.1 with ⟨o, st₁⟩
  rcases hx' : x'.1.takeBacklinks p'.1 with ⟨o', st₁'⟩
  rw [hx, hx'] at hback hst'
  cases hback with
  | none => exact ⟨hst, haffected⟩
  | some hcs =>
    have hvars := hs.unboundVars hp.2
    exact ⟨List.rel_foldl (fun _ _ h _ _ hc => h.connectAll hvars hc) hst' hcs,
      List.rel_foldl (fun _ _ h _ _ hc => h.insert hc.serial hc) haffected hcs⟩

/-- Handing over affects constraints that belong together. -/
theorem Renamed.handOverAll (h : Renamed ρ st st') (hs : s.Renamed ρ.vars s')
    {bindings bindings' : List (Var × Term)}
    (hb : List.Forall₂ (fun p p' => ρ.vars p.1 p'.1 ∧ p.2.Renamed ρ.vars p'.2) bindings bindings') :
    Renamed ρ (st.handOverAll s bindings).1 (st'.handOverAll s' bindings').1 ∧
      List.Forall₂ (Constraint.Renamed ρ) (st.handOverAll s bindings).2
        (st'.handOverAll s' bindings').2 := by
  have hstart : AlikeHandedOver ρ (st, ∅) (st', ∅) := ⟨h, .empty⟩
  obtain ⟨hst, haffected⟩ := List.rel_foldl (fun _ _ h _ _ hp => h.handOver hs hp) hstart hb
  exact ⟨hst, haffected.values⟩

end Store

end LogicMachine
