import LogicMachine.Constraint.Store
import LogicMachine.Proofs.Renaming.Pairing

/-!
# What a store holds

A store keeps its constraints in maps from serial numbers. In the maps that arise, every constraint
stands under its own number. So they can be read as sets of constraints, listed by age, and each
operation is described by what it does to these sets.
-/

namespace LogicMachine

namespace Constraint

variable {m : Std.TreeMap Nat Constraint} {c d : Constraint} {k : Nat}

/-- Every constraint of the map stands under its own serial number. -/
def Indexed (m : Std.TreeMap Nat Constraint) : Prop :=
  ∀ (k : Nat) (c : Constraint), m[k]? = some c → c.serial = k

namespace Indexed

/-- In a map that holds nothing, nothing stands under a wrong number. -/
theorem empty : Indexed ∅ := by
  intro k c h
  simp at h

/-- A constraint is put in under its own serial number. -/
theorem insert (h : Indexed m) (c : Constraint) : Indexed (m.insert c.serial c) := by
  intro k d hd
  simp only [Std.TreeMap.getElem?_insert, Nat.compare_eq_eq] at hd
  split at hd
  · next hk =>
    cases hd
    exact hk
  · exact h k d hd

/-- What is taken out cannot stand under a wrong number any more. -/
theorem erase (h : Indexed m) (k : Nat) : Indexed (m.erase k) := by
  intro j d hd
  simp only [Std.TreeMap.getElem?_erase, Nat.compare_eq_eq] at hd
  split at hd
  · cases hd
  · exact h j d hd

/-- A constraint is in the map exactly if it is what stands under its serial number. -/
theorem mem_values_iff (h : Indexed m) : c ∈ m.values ↔ m[c.serial]? = some c := by
  rw [values_eq_map_toList, List.mem_map]
  constructor
  · rintro ⟨⟨k, d⟩, hmem, rfl⟩
    rw [Std.TreeMap.mem_toList_iff_getElem?_eq_some] at hmem
    rw [h k d hmem]
    exact hmem
  · intro hc
    exact ⟨⟨c.serial, c⟩, Std.TreeMap.mem_toList_iff_getElem?_eq_some.mpr hc, rfl⟩

/-- The constraints are listed by age. -/
theorem pairwise_values (h : Indexed m) :
    m.values.Pairwise fun c d => c.serial < d.serial := by
  rw [values_eq_map_toList, List.pairwise_map]
  refine List.Pairwise.imp_of_mem ?_ m.ordered_keys_toList
  rintro ⟨k, c⟩ ⟨j, d⟩ hc hd hlt
  rw [Std.TreeMap.mem_toList_iff_getElem?_eq_some] at hc hd
  rw [h k c hc, h j d hd]
  exact Nat.compare_eq_lt.mp hlt

/-- The serial number says which constraint it is. -/
theorem eq_of_serial_eq (h : Indexed m) (hc : c ∈ m.values) (hd : d ∈ m.values)
    (hserial : c.serial = d.serial) : c = d := by
  rw [h.mem_values_iff] at hc hd
  rw [hserial, hd] at hc
  exact (Option.some.inj hc).symm

/-- Putting a constraint in adds it to the set and drops whatever had its serial number. -/
theorem mem_values_insert (h : Indexed m) :
    d ∈ (m.insert c.serial c).values ↔ d = c ∨ d ∈ m.values ∧ d.serial ≠ c.serial := by
  rw [(h.insert c).mem_values_iff, h.mem_values_iff, Std.TreeMap.getElem?_insert]
  by_cases hserial : c.serial = d.serial
  · rw [if_pos (Nat.compare_eq_eq.mpr hserial), Option.some_inj]
    exact ⟨fun hcd => .inl hcd.symm, fun hor => by
      rcases hor with rfl | ⟨-, hne⟩
      · rfl
      · exact absurd hserial.symm hne⟩
  · rw [if_neg fun hcd => hserial (Nat.compare_eq_eq.mp hcd)]
    refine ⟨fun hd => .inr ⟨hd, fun hdc => hserial hdc.symm⟩, fun hor => ?_⟩
    rcases hor with rfl | ⟨hd, -⟩
    · exact absurd rfl hserial
    · exact hd

/-- Taking a number out drops the constraint with that serial number, and no other. -/
theorem mem_values_erase (h : Indexed m) :
    d ∈ (m.erase k).values ↔ d ∈ m.values ∧ d.serial ≠ k := by
  rw [(h.erase k).mem_values_iff, h.mem_values_iff, Std.TreeMap.getElem?_erase]
  by_cases hserial : k = d.serial
  · rw [if_pos (Nat.compare_eq_eq.mpr hserial)]
    exact ⟨fun hd => (Option.some_ne_none d hd.symm).elim, fun hd => absurd hserial.symm hd.2⟩
  · rw [if_neg fun hkd => hserial (Nat.compare_eq_eq.mp hkd)]
    exact ⟨fun hd => ⟨hd, fun hdk => hserial hdk.symm⟩, fun hd => hd.1⟩

/-- The constraints are as many as the entries of the map. -/
theorem length_values (m : Std.TreeMap Nat Constraint) : m.values.length = m.size := by
  rw [values_eq_map_toList, List.length_map, Std.TreeMap.length_toList]

end Indexed

/-- Do two handles stand for one constraint? A store goes by serial number and signature. -/
def SameAs (c d : Constraint) : Prop := c.serial = d.serial ∧ c.sig = d.sig

end Constraint

namespace Store

variable {st : Store} {c d : Constraint} {v w : Var}

/-- All maps of the store have their constraints under their own serial numbers. -/
structure Indexed (st : Store) : Prop where
  live : Constraint.Indexed st.live
  mentions : ∀ v, Constraint.Indexed (st.mentionsOf v)

/-- In the empty store nothing is noted under any variable. -/
theorem mentionsOf_empty (v : Var) : Store.empty.mentionsOf v = ∅ := by
  simp [mentionsOf, Store.empty]

namespace Indexed

/-- The empty store is in order: none of its maps holds anything. -/
theorem empty : Store.empty.Indexed where
  live := .empty
  mentions v := by
    rw [mentionsOf_empty]
    exact .empty

/-- A constraint is added under its own number, and no note changes. -/
theorem add (h : st.Indexed) (c : Constraint) : (st.add c).Indexed where
  live := h.live.insert c
  mentions := h.mentions

/-- Whether the constraint was live or not, deleting it leaves every map in order. -/
theorem erase (h : st.Indexed) (c : Constraint) : (st.erase c).Indexed := by
  unfold Store.erase
  split
  · exact ⟨h.live.erase c.serial, h.mentions⟩
  · exact h

/-- The note under one variable gets the constraint under its own number; the others stay. -/
theorem connect (h : st.Indexed) (v : Var) (c : Constraint) : (st.connect v c).Indexed where
  live := h.live
  mentions w := by
    rw [mentionsOf_connect]
    split
    · next hvw => exact (h.mentions v).insert c
    · exact h.mentions w

/-- The history is no map of constraints, so a firing changes none of them. -/
theorem recordFiring (h : st.Indexed) (rule : Nat) (serials : List Nat) :
    (st.recordFiring rule serials).Indexed :=
  ⟨h.live, h.mentions⟩

end Indexed

/-! ### Which constraints are live -/

/-- Live constraints are told apart by their serial numbers. -/
theorem Indexed.eq_of_serial_eq (h : st.Indexed) (hc : c ∈ st.constraints)
    (hd : d ∈ st.constraints) (hserial : c.serial = d.serial) : c = d :=
  h.live.eq_of_serial_eq hc hd hserial

/-- A handle is alive exactly if some live constraint is the one that it stands for. -/
theorem Indexed.isAlive_iff (h : st.Indexed) :
    st.isAlive c = true ↔ ∃ d ∈ st.constraints, d.SameAs c := by
  simp only [isAlive, Option.any_eq_true, decide_eq_true_eq]
  constructor
  · rintro ⟨d, hd, hsig⟩
    have hserial := h.live _ _ hd
    refine ⟨d, h.live.mem_values_iff.mpr ?_, hserial, hsig⟩
    rw [hserial]
    exact hd
  · rintro ⟨d, hd, hserial, hsig⟩
    have hget := h.live.mem_values_iff.mp hd
    rw [hserial] at hget
    exact ⟨d, hget, hsig⟩

/-- Looking a signature up gives the live constraints that have it. -/
theorem mem_lookup_iff {sig : Signature} :
    c ∈ st.lookup sig ↔ c ∈ st.constraints ∧ c.sig = sig := by
  rw [lookup, List.mem_filter, decide_eq_true_eq]

/-- Adding makes the constraint live. One of the same serial number would be overwritten. -/
theorem Indexed.mem_constraints_add (h : st.Indexed) :
    d ∈ (st.add c).constraints ↔ d = c ∨ d ∈ st.constraints ∧ d.serial ≠ c.serial :=
  h.live.mem_values_insert

/-- Deleting by a handle ends the constraint that the handle stands for. A handle with the right
number but another signature deletes nothing. -/
theorem Indexed.mem_constraints_erase (h : st.Indexed) :
    d ∈ (st.erase c).constraints ↔ d ∈ st.constraints ∧ ¬ d.SameAs c := by
  unfold Store.erase
  split
  · next halive =>
    obtain ⟨e, he, hserial, hsig⟩ := h.isAlive_iff.mp halive
    have hmem : d ∈ (st.live.erase c.serial).values ↔ d ∈ st.constraints ∧ d.serial ≠ c.serial :=
      h.live.mem_values_erase
    refine hmem.trans (and_congr_right fun hd => not_congr ⟨fun hdc => ⟨hdc, ?_⟩, fun hdc => hdc.1⟩)
    rw [h.eq_of_serial_eq hd he (hdc.trans hserial.symm), hsig]
  · next halive =>
    refine ⟨fun hd => ⟨hd, fun hdc => halive (h.isAlive_iff.mpr ⟨d, hd, hdc⟩)⟩, fun hd => hd.1⟩

/-- In the empty store no constraint is live. -/
@[simp] theorem constraints_empty : Store.empty.constraints = [] := rfl

/-- Deleting several constraints one after another. -/
theorem Indexed.foldl_erase (h : st.Indexed) (cs : List Constraint) :
    (cs.foldl Store.erase st).Indexed := by
  induction cs generalizing st with
  | nil => exact h
  | cons c cs ih => exact ih (h.erase c)

/-- After several deletions those are left that none of the handles stands for. -/
theorem Indexed.mem_constraints_foldl_erase (h : st.Indexed) {cs : List Constraint} :
    d ∈ (cs.foldl Store.erase st).constraints ↔ d ∈ st.constraints ∧ ∀ c ∈ cs, ¬ d.SameAs c := by
  induction cs generalizing st with
  | nil => simp
  | cons c cs ih =>
    rw [List.foldl_cons, ih (h.erase c), h.mem_constraints_erase, List.forall_mem_cons, and_assoc]

/-- Deleting constraints leaves the notes and the history alone. -/
theorem foldl_erase_eq (st : Store) (cs : List Constraint) :
    cs.foldl Store.erase st = { st with live := (cs.foldl Store.erase st).live } := by
  induction cs generalizing st with
  | nil => rfl
  | cons c cs ih =>
    rw [List.foldl_cons, ih, erase]
    split <;> rfl

/-! ### Which combinations have fired -/

/-- In the empty store no combination has fired any rule. -/
theorem hasFired_empty (rule : Nat) (serials : List Nat) :
    Store.empty.hasFired rule serials = false := by
  simp [hasFired, firedOf, Store.empty]

/-- The history outlives the constraints: what has fired stays on record after deletions. -/
@[simp] theorem hasFired_foldl_erase (st : Store) (cs : List Constraint) (rule : Nat)
    (serials : List Nat) :
    (cs.foldl Store.erase st).hasFired rule serials = st.hasFired rule serials := by
  rw [foldl_erase_eq]
  rfl

/-- The same for one deletion. -/
@[simp] theorem hasFired_erase (st : Store) (c : Constraint) (rule : Nat) (serials : List Nat) :
    (st.erase c).hasFired rule serials = st.hasFired rule serials :=
  hasFired_foldl_erase st [c] rule serials

/-! ### What notes do not touch -/

/-- The stores differ in their notes at most. -/
def SameButNotes (st st' : Store) : Prop := st'.live = st.live ∧ st'.fired = st.fired

namespace SameButNotes

variable {st' st'' : Store}

/-- A store differs from itself in nothing. -/
theorem refl (st : Store) : SameButNotes st st := ⟨rfl, rfl⟩

/-- Changes to the notes only add up to a change to the notes only. -/
theorem trans (h : SameButNotes st st') (h' : SameButNotes st' st'') : SameButNotes st st'' :=
  ⟨h'.1.trans h.1, h'.2.trans h.2⟩

/-- A loop whose every round changes the notes only changes nothing else as a whole. -/
theorem foldl {α : Type} {f : Store → α → Store} (hf : ∀ st a, SameButNotes st (f st a))
    (st : Store) (l : List α) : SameButNotes st (l.foldl f st) :=
  l.foldlRecOn f (refl st) fun _ h a _ => h.trans (hf _ a)

/-- Taking the notes of a variable out changes only the notes. -/
theorem takeBacklinks (st : Store) (v : Var) : SameButNotes st (st.takeBacklinks v).2 := by
  unfold Store.takeBacklinks
  split <;> exact refl st

/-- The live constraints are the same ones, in the same order. -/
theorem constraints_eq (h : SameButNotes st st') : st'.constraints = st.constraints := by
  rw [constraints, h.1, constraints]

/-- The same combinations have fired. -/
theorem hasFired_eq (h : SameButNotes st st') (rule : Nat) (serials : List Nat) :
    st'.hasFired rule serials = st.hasFired rule serials := by
  rw [hasFired, firedOf, h.2, hasFired, firedOf]

end SameButNotes

/-! ### Which constraints mention a variable -/

/-- Taking the notes of a variable out leaves nothing under it and all other notes as they were. -/
theorem mentionsOf_takeBacklinks (st : Store) (v w : Var) :
    (st.takeBacklinks v).2.mentionsOf w = if v = w then ∅ else st.mentionsOf w := by
  unfold takeBacklinks
  split
  · simp only [mentionsOf, Std.TreeMap.getD_erase, Nat.compare_eq_eq]
  · next hnone =>
    split
    · next hvw =>
      subst hvw
      rw [mentionsOf, Std.TreeMap.getD_eq_getD_getElem?, hnone]
      rfl
    · rfl

/-- What is handed out are the backlinks of the variable, or nothing if it had no notes. -/
theorem takeBacklinks_getD (st : Store) (v : Var) :
    (st.takeBacklinks v).1.getD [] = st.backlinks v := by
  unfold takeBacklinks backlinks mentionsOf
  rw [Std.TreeMap.getD_eq_getD_getElem?]
  split
  · next cs hcs => rw [hcs]; rfl
  · next hnone => rw [hnone]; rfl

/-- The maps that are left after taking one out are in order. -/
theorem Indexed.takeBacklinks (h : st.Indexed) (v : Var) : (st.takeBacklinks v).2.Indexed where
  live := by
    rw [live_takeBacklinks]
    exact h.live
  mentions w := by
    rw [mentionsOf_takeBacklinks]
    split
    · exact .empty
    · exact h.mentions w

/-- Noting a constraint under a variable adds it there, where it replaces whatever had its serial
number. Under the other variables nothing changes. -/
theorem Indexed.mem_backlinks_connect (h : st.Indexed) :
    d ∈ (st.connect v c).backlinks w ↔
      v = w ∧ d = c ∨ d ∈ st.backlinks w ∧ ¬ (v = w ∧ d.serial = c.serial) := by
  rw [backlinks, mentionsOf_connect]
  split
  · next hvw =>
    subst hvw
    rw [(h.mentions v).mem_values_insert]
    simp only [backlinks, true_and, ne_eq]
  · next hvw => simp only [backlinks, hvw, false_and, false_or, not_false_eq_true, and_true]

/-- Backlinks stay noted under every variable but the one they are taken from. -/
theorem mem_backlinks_takeBacklinks :
    d ∈ (st.takeBacklinks v).2.backlinks w ↔ d ∈ st.backlinks w ∧ v ≠ w := by
  rw [backlinks, mentionsOf_takeBacklinks]
  split
  · next hvw =>
    have hnone : (∅ : Std.TreeMap Nat Constraint).values = [] := rfl
    simp [hvw, hnone]
  · next hvw => simp [backlinks, hvw]

end Store

end LogicMachine
