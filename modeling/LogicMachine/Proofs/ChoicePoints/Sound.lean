import Mathlib.Data.List.Perm.Basic
import LogicMachine.Proofs.ChoicePoints.Chain

/-!
# Sound choice points

What the operations on choice points keep true, whatever the strategy. Every saved alternative
lies on the way down from its own link, in a slot that the current branch reaches; after a
rotation it need not be the slot it was saved in. From this it follows that no operation loses an
alternative or hands one out twice.
-/

namespace LogicMachine.ChoicePoints

variable {cp : ChoicePoints} {top : Option Nat} {i j : Nat} {f g : Frame} {l : List Nat}

/-- The way down from a link ends, and no slot on it is free. -/
def Used (cp : ChoicePoints) (top : Option Nat) : Prop :=
  ∃ l, cp.Chain top l ∧ ∀ i ∈ l, i ∉ cp.free

/-- Slot `i` is met on the way down from a link, or on the way down from the link of a saved frame
that is reached in turn. -/
inductive Reaches (cp : ChoicePoints) (top : Option Nat) : Nat → Prop
  | direct {i : Nat} (h : cp.Leads top i) : Reaches cp top i
  | through {i j : Nat} {f : Frame} (hi : Reaches cp top i) (hf : cp.savedIn i = some f)
      (hj : cp.Leads f.alt j) : Reaches cp top j

/-- The choice points are in order for a branch whose innermost choice point is `top`. -/
structure Sound (cp : ChoicePoints) (top : Option Nat) : Prop where
  used : cp.Used top
  saved_used : ∀ {i f}, cp.savedIn i = some f → cp.Used f.alt
  saved_leads : ∀ {i f}, cp.savedIn i = some f → cp.Leads f.alt i
  reaches : ∀ {i f}, cp.savedIn i = some f → cp.Reaches top i
  free_nodup : cp.free.toList.Nodup
  free_empty : ∀ {i}, i ∈ cp.free → ∃ c, cp.slots[i]? = some c ∧ c.saved = none

/-- A way down in use ends. -/
theorem Used.chain (h : cp.Used top) : ∃ l, cp.Chain top l := by
  obtain ⟨l, hl, _⟩ := h
  exact ⟨l, hl⟩

/-- A slot at which a way down in use begins exists and is not free. -/
theorem Used.of_some (h : cp.Used (some i)) : i < cp.slots.size ∧ i ∉ cp.free := by
  obtain ⟨l, hl, hfree⟩ := h
  have hi : i ∈ l := List.mem_of_mem_head? (by rw [hl.head?_eq]; rfl)
  exact ⟨hl.lt_size hi, hfree i hi⟩

/-- Where a link leads, the way down from it splits at the slot. -/
theorem Leads.split (h : cp.Leads top i) : ∃ pre l, cp.Chain top (pre ++ i :: l) := by
  obtain ⟨l, hl, hi⟩ := h
  obtain ⟨pre, post, rfl⟩ := List.append_of_mem hi
  exact ⟨pre, post, hl⟩

/-- Without choice points everything is in order. -/
theorem sound_empty : empty.Sound none where
  used := ⟨[], .nil, by simp⟩
  saved_used h := by simp [savedIn, empty] at h
  saved_leads h := by simp [savedIn, empty] at h
  reaches h := by simp [savedIn, empty] at h
  free_nodup := by simp [empty]
  free_empty h := by simp [empty] at h

/-! ### Writing a slot -/

/-- Write `c` into slot `i`. -/
def setSlot (cp : ChoicePoints) (i : Nat) (c : ChoicePoint) : ChoicePoints :=
  { cp with slots := cp.slots.setIfInBounds i c }

section setSlot

variable {c c' : ChoicePoint}

/-- After a slot that exists is written, it holds what was written, and all others what they held.
-/
theorem slot_setSlot (hslot : cp.slots[i]? = some c) (k : Nat) :
    (cp.setSlot i c').slots[k]? = if i = k then some c' else cp.slots[k]? := by
  have hlt : i < cp.slots.size := (Array.getElem?_eq_some_iff.mp hslot).1
  rw [setSlot, Array.getElem?_setIfInBounds]
  by_cases hik : i = k
  · subst hik
    simp [hlt]
  · simp [hik]

/-- The same for the frames that are saved in slots. -/
theorem savedIn_setSlot (hslot : cp.slots[i]? = some c) (k : Nat) :
    (cp.setSlot i c').savedIn k = if i = k then c'.saved else cp.savedIn k := by
  rw [savedIn, slot_setSlot hslot]
  split <;> rfl

/-- Exchanging the contents of a slot exchanges them among what the slots hold. -/
theorem held_setSlot (hslot : cp.slots[i]? = some c) (c' : ChoicePoint) :
    (c.saved.toList ++ (cp.setSlot i c').held).Perm (c'.saved.toList ++ cp.held) := by
  have hlist : cp.slots.toList[i]? = some c := by rwa [Array.getElem?_toList]
  obtain ⟨hlt, rfl⟩ := List.getElem?_eq_some_iff.mp hlist
  have hnew := List.set_perm_cons_eraseIdx hlt c'
  have hold := List.getElem_cons_eraseIdx_perm hlt
  have hslots : (cp.slots.toList[i] :: cp.slots.toList.set i c').Perm (c' :: cp.slots.toList) :=
    (hnew.cons _).trans ((List.Perm.swap ..).trans (hold.cons _))
  have hsaved := hslots.filterMap (·.saved)
  simp only [List.filterMap_eq_flatMap_toList, List.flatMap_cons] at hsaved
  simpa [held, setSlot, List.filterMap_eq_flatMap_toList] using hsaved

/-- A way down that does not meet the slot is unchanged. -/
theorem Chain.setSlot_of_notMem (h : cp.Chain top l) (hi : i ∉ l) :
    (cp.setSlot i c').Chain top l := by
  refine h.congr fun k hk => ?_
  have hik : i ≠ k := fun hik => hi (hik ▸ hk)
  rw [setSlot, Array.getElem?_setIfInBounds, if_neg hik]

/-- A way down that meets the slot goes on with the new link. -/
theorem Chain.setSlot_at {pre l' : List Nat} (hslot : cp.slots[i]? = some c)
    (h : cp.Chain top (pre ++ i :: l)) (hbelow : cp.Chain c'.below l') (hi : i ∉ l') :
    (cp.setSlot i c').Chain top (pre ++ i :: l') := by
  have hnodup := h.nodup
  induction pre generalizing top with
  | nil =>
    obtain rfl : top = some i := by simpa using h.head?_eq.symm
    exact .cons (by rw [slot_setSlot hslot, if_pos rfl]) (hbelow.setSlot_of_notMem hi)
  | cons k pre ih =>
    have hik : i ≠ k := by
      rintro rfl
      simp at hnodup
    cases h with
    | cons hk hrest =>
      refine .cons ?_ (ih hrest (List.nodup_cons.mp hnodup).2)
      rw [slot_setSlot hslot, if_neg hik, hk]

/-- A slot is rewritten without changing where its link leads, taken choice points apart. -/
def Relinks (cp : ChoicePoints) (c c' : ChoicePoint) : Prop :=
  c'.below = c.below ∨ c'.below = cp.innermost? c.below

/-- Rewriting a slot may cut taken choice points out of a way down, and nothing else. -/
theorem Chain.setSlot (h : cp.Chain top l) (hslot : cp.slots[i]? = some c)
    (hlink : cp.Relinks c c') :
    ∃ l', (cp.setSlot i c').Chain top l' ∧ l' ⊆ l ∧
      ∀ k ∈ l, cp.isUntried k = true → k ∈ l' := by
  by_cases hi : i ∈ l
  · obtain ⟨pre, lb, rfl⟩ := List.append_of_mem hi
    have hnotMem : i ∉ lb := by
      have hnodup := (h.drop (l := i :: lb)).nodup
      exact (List.nodup_cons.mp hnodup).1
    have hrest : cp.Chain c.below lb := h.rest hslot
    rcases hlink with hbelow | hbelow
    · refine ⟨_, h.setSlot_at hslot (by rwa [hbelow]) hnotMem, fun _ hk => hk, fun _ hk _ => hk⟩
    · have hsub : lb.dropWhile (!cp.isUntried ·) ⊆ lb := (List.dropWhile_sublist _).subset
      refine ⟨_, h.setSlot_at hslot (by rw [hbelow]; exact hrest.prune)
        fun hmem => hnotMem (hsub hmem), ?_, ?_⟩
      · intro k hk
        simp only [List.mem_append, List.mem_cons] at hk ⊢
        exact hk.imp_right (Or.imp_right (@hsub k))
      · intro k hk huntried
        rcases List.mem_append.mp hk with hk | hk
        · exact List.mem_append_left _ hk
        · rcases List.mem_cons.mp hk with rfl | hk
          · simp
          · have hfilter : k ∈ lb.filter cp.isUntried := List.mem_filter.mpr ⟨hk, huntried⟩
            rw [← filter_dropWhile_isUntried] at hfilter
            have hkept := List.mem_of_mem_filter hfilter
            simp [hkept]
  · exact ⟨l, h.setSlot_of_notMem hi, fun _ hk => hk, fun _ hk _ => hk⟩

/-- A way down through slots in use is cut short at most, so it stays in use. -/
theorem Used.setSlot (h : cp.Used top) (hslot : cp.slots[i]? = some c)
    (hlink : cp.Relinks c c') : (cp.setSlot i c').Used top := by
  obtain ⟨l, hl, hfree⟩ := h
  obtain ⟨l', hl', hsub, _⟩ := hl.setSlot hslot hlink
  exact ⟨l', hl', fun k hk => hfree k (hsub hk)⟩

/-- A link still leads to the untried alternatives that it led to. -/
theorem Leads.setSlot {k : Nat} (h : cp.Leads top k) (hslot : cp.slots[i]? = some c)
    (hlink : cp.Relinks c c') (hk : cp.isUntried k = true) : (cp.setSlot i c').Leads top k := by
  obtain ⟨l, hl, hmem⟩ := h
  obtain ⟨l', hl', _, hkept⟩ := hl.setSlot hslot hlink
  exact ⟨l', hl', hkept k hmem hk⟩

end setSlot

end LogicMachine.ChoicePoints
