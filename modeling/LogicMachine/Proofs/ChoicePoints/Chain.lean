import Mathlib.Data.List.Basic
import Mathlib.Data.List.Nodup
import Mathlib.Data.List.TakeWhile
import Mathlib.Data.Finset.Card
import LogicMachine.Search.ChoicePoints

/-!
# Chains of choice points

A link leads down through the slots, from one choice point to the one below it. This file gives
the slots on the way as a list, and reads the searches along the links off that list: the budgets
they carry are never what stops them.
-/

namespace LogicMachine.ChoicePoints

/-- The link `top` leads down through the slots of a list, and there it ends. -/
inductive Chain (cp : ChoicePoints) : Option Nat → List Nat → Prop
  | nil : Chain cp none []
  | cons {i : Nat} {c : ChoicePoint} {l : List Nat} (hslot : cp.slots[i]? = some c)
      (hbelow : Chain cp c.below l) : Chain cp (some i) (i :: l)

/-- The link `top` leads through slot `i`. -/
def Leads (cp : ChoicePoints) (top : Option Nat) (i : Nat) : Prop :=
  ∃ l, cp.Chain top l ∧ i ∈ l

/-- Does the slot hold an alternative that is still to be tried? -/
def isUntried (cp : ChoicePoints) (i : Nat) : Bool := (cp.savedIn i).isSome

/-- The alternatives of all slots, in the order of the slots. -/
def held (cp : ChoicePoints) : List Frame := cp.slots.toList.filterMap (·.saved)

/-- A slot is untried when some frame is saved in it. -/
theorem isUntried_eq_true_iff {cp : ChoicePoints} {i : Nat} :
    cp.isUntried i = true ↔ ∃ f, cp.savedIn i = some f := by
  simp [isUntried, Option.isSome_iff_exists]

/-- What is saved in a slot can be read off it. -/
theorem savedIn_of_slot {cp : ChoicePoints} {i : Nat} {c : ChoicePoint}
    (hslot : cp.slots[i]? = some c) : cp.savedIn i = c.saved := by
  simp [savedIn, hslot]

/-- What is saved in a slot is among what the slots hold. -/
theorem mem_held_of_savedIn {cp : ChoicePoints} {i : Nat} {f : Frame}
    (h : cp.savedIn i = some f) : f ∈ cp.held := by
  obtain ⟨c, hslot, hsaved⟩ := Option.bind_eq_some_iff.mp h
  have hmem : c ∈ cp.slots.toList := by
    rw [← Array.getElem?_toList] at hslot
    exact List.mem_of_getElem? hslot
  exact List.mem_filterMap.mpr ⟨c, hmem, hsaved⟩

/-- Nothing is held when no slot has an alternative left. -/
theorem held_eq_nil_iff {cp : ChoicePoints} : cp.held = [] ↔ ∀ i, cp.savedIn i = none := by
  constructor
  · intro h i
    cases hi : cp.savedIn i with
    | none => rfl
    | some f =>
      have hmem := mem_held_of_savedIn hi
      rw [h] at hmem
      cases hmem
  · intro h
    apply List.filterMap_eq_nil_iff.mpr
    intro c hc
    obtain ⟨i, hi⟩ := List.mem_iff_getElem?.mp hc
    rw [Array.getElem?_toList] at hi
    rw [← savedIn_of_slot hi]
    exact h i

/-- Distinct slots that exist are no more than there are slots. -/
theorem length_le_size {cp : ChoicePoints} {l : List Nat} (hnodup : l.Nodup)
    (hlt : ∀ i ∈ l, i < cp.slots.size) : l.length ≤ cp.slots.size := by
  have hsub : l ⊆ List.range cp.slots.size := fun i hi => List.mem_range.mpr (hlt i hi)
  have hle := (List.subperm_of_subset hnodup hsub).length_le
  rwa [List.length_range] at hle

namespace Chain

variable {cp cp' : ChoicePoints} {top : Option Nat} {l l' : List Nat} {i : Nat}

/-- There is only one way down from a link. -/
theorem unique (h : cp.Chain top l) (h' : cp.Chain top l') : l = l' := by
  induction h generalizing l' with
  | nil => cases h'; rfl
  | cons hslot _ ih =>
    cases h' with
    | cons hslot' hbelow' =>
      obtain rfl := Option.some.inj (hslot.symm.trans hslot')
      rw [ih hbelow']

/-- The way down begins at the link. -/
theorem head?_eq (h : cp.Chain top l) : l.head? = top := by
  cases h <;> rfl

/-- From a slot on the way the rest of the way leads on. -/
theorem drop {pre : List Nat} (h : cp.Chain top (pre ++ l)) : cp.Chain l.head? l := by
  induction pre generalizing top with
  | nil =>
    rw [List.nil_append] at h
    rwa [h.head?_eq]
  | cons j pre ih =>
    cases h with
    | cons _ hbelow => exact ih hbelow

/-- Below a slot on the way the rest of the way leads on. -/
theorem rest {c : ChoicePoint} {pre : List Nat} (h : cp.Chain top (pre ++ i :: l))
    (hslot : cp.slots[i]? = some c) : cp.Chain c.below l := by
  cases h.drop (l := i :: l) with
  | cons hslot' hbelow =>
    obtain rfl := Option.some.inj (hslot.symm.trans hslot')
    exact hbelow

/-- The slots on the way exist. -/
theorem lt_size (h : cp.Chain top l) (hi : i ∈ l) : i < cp.slots.size := by
  induction h with
  | nil => cases hi
  | cons hslot _ ih =>
    rcases List.mem_cons.mp hi with rfl | hi
    · exact (Array.getElem?_eq_some_iff.mp hslot).1
    · exact ih hi

/-- No slot is met twice: it would lead back to itself, and the way down would not end. -/
theorem nodup (h : cp.Chain top l) : l.Nodup := by
  induction h with
  | nil => exact List.nodup_nil
  | cons hslot hbelow ih =>
    refine List.nodup_cons.mpr ⟨fun hmem => ?_, ih⟩
    obtain ⟨pre, post, rfl⟩ := List.append_of_mem hmem
    have hagain := hbelow.drop.unique (.cons hslot hbelow)
    have hlength := congrArg List.length hagain
    simp only [List.length_cons, List.length_append] at hlength
    omega

/-- The way down is no longer than there are slots. -/
theorem length_le (h : cp.Chain top l) : l.length ≤ cp.slots.size :=
  length_le_size h.nodup fun _ => h.lt_size

/-- Only the links of the slots on the way matter. -/
theorem congr (h : cp.Chain top l)
    (hsame : ∀ i ∈ l, cp'.slots[i]?.map (·.below) = cp.slots[i]?.map (·.below)) :
    cp'.Chain top l := by
  induction h with
  | nil => exact .nil
  | cons hslot _ ih =>
    have hhead := hsame _ List.mem_cons_self
    rw [hslot, Option.map_some, Option.map_eq_some_iff] at hhead
    obtain ⟨c', hslot', hbelow'⟩ := hhead
    refine .cons hslot' ?_
    rw [hbelow']
    exact ih fun j hj => hsame j (List.mem_cons_of_mem _ hj)

/-- With a budget for the whole way, the search finds the first untried slot on it. -/
theorem innermostWithin_eq (h : cp.Chain top l) {budget : Nat} (hbudget : l.length ≤ budget) :
    cp.innermostWithin budget top = l.find? cp.isUntried := by
  induction h generalizing budget with
  | nil => cases budget <;> rfl
  | cons hslot _ ih =>
    cases budget with
    | zero => simp at hbudget
    | succ budget =>
      have hrest := ih (Nat.le_of_succ_le_succ hbudget)
      simp only [innermostWithin, hslot, hrest, List.find?_cons, isUntried, savedIn_of_slot hslot]
      split <;> simp_all

/-- The innermost untried alternative is the first one on the way down. -/
theorem innermost?_eq (h : cp.Chain top l) : cp.innermost? top = l.find? cp.isUntried :=
  h.innermostWithin_eq h.length_le

/-- With a budget for the whole way, the search collects all untried slots on it, in order. -/
theorem untriedWithin_eq (h : cp.Chain top l) {budget : Nat} (hbudget : l.length ≤ budget) :
    cp.untriedWithin budget top [] = l.filter cp.isUntried := by
  induction h generalizing budget with
  | nil => cases budget <;> rfl
  | cons hslot _ ih =>
    cases budget with
    | zero => simp at hbudget
    | succ budget =>
      have hrest := ih (Nat.le_of_succ_le_succ hbudget)
      simp only [untriedWithin, hslot, List.filter_cons, isUntried, savedIn_of_slot hslot]
      split
      · rw [untriedWithin_eq_append, hrest]
        rfl
      · exact hrest

/-- The untried alternatives are those on the way down, in order. -/
theorem untried_eq (h : cp.Chain top l) : cp.untried top = l.filter cp.isUntried :=
  h.untriedWithin_eq h.length_le

/-- Unlinking the taken choice points in front cuts the way down where the first untried
alternative stands. -/
theorem prune (h : cp.Chain top l) :
    cp.Chain (cp.innermost? top) (l.dropWhile (!cp.isUntried ·)) := by
  rw [h.innermost?_eq, List.find?_eq_head?_dropWhile_not]
  rw [← List.takeWhile_append_dropWhile (p := (!cp.isUntried ·)) (l := l)] at h
  exact h.drop

end Chain

/-- Dropping the taken choice points in front leaves the untried ones. -/
theorem filter_dropWhile_isUntried (cp : ChoicePoints) (l : List Nat) :
    (l.dropWhile (!cp.isUntried ·)).filter cp.isUntried = l.filter cp.isUntried := by
  induction l with
  | nil => rfl
  | cons i l ih =>
    cases h : cp.isUntried i with
    | false => simpa [h] using ih
    | true => simp [h]

end LogicMachine.ChoicePoints
