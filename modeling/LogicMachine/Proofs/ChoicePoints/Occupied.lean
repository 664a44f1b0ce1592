import LogicMachine.Proofs.ChoicePoints.Operations

/-!
# Occupied slots

The slots that hold an alternative, wherever they lie, against those that a link leads to. From a
slot on, the untried alternatives on the way down are the same whichever link has led there.
-/

namespace LogicMachine.ChoicePoints

variable {cp : ChoicePoints} {top : Option Nat} {i : Nat} {pre rest : List Nat}

/-- A list is what stands at its positions. -/
theorem filterMap_getElem?_range {α : Type} (l : List α) :
    (List.range l.length).filterMap (l[·]?) = l := by
  induction l with
  | nil => rfl
  | cons a l ih =>
    rw [List.length_cons, List.range_succ_eq_map, List.filterMap_cons_some List.getElem?_cons_zero,
      List.filterMap_map]
    exact congrArg (a :: ·) ih

/-- The slots that hold an alternative, in order. -/
def occupied (cp : ChoicePoints) : List Nat := (List.range cp.slots.size).filter cp.isUntried

/-- No slot is listed twice. -/
theorem nodup_occupied (cp : ChoicePoints) : cp.occupied.Nodup := List.nodup_range.filter _

/-- Occupied are the slots with an untried alternative. -/
theorem mem_occupied : i ∈ cp.occupied ↔ cp.isUntried i = true := by
  refine ⟨fun hi => (List.mem_filter.mp hi).2, fun hi => List.mem_filter.mpr ⟨?_, hi⟩⟩
  obtain ⟨f, hf⟩ := isUntried_eq_true_iff.mp hi
  obtain ⟨c, hslot, -⟩ := Option.bind_eq_some_iff.mp hf
  exact List.mem_range.mpr (Array.getElem?_eq_some_iff.mp hslot).1

/-- What the slots hold, slot by slot. -/
theorem filterMap_range_savedIn (cp : ChoicePoints) :
    (List.range cp.slots.size).filterMap cp.savedIn = cp.held := by
  have hslots := filterMap_getElem?_range cp.slots.toList
  rw [held, ← hslots, List.filterMap_filterMap, Array.length_toList]
  simp only [Array.getElem?_toList]
  rfl

/-- What the occupied slots hold is all that is held. -/
theorem filterMap_occupied (cp : ChoicePoints) : cp.occupied.filterMap cp.savedIn = cp.held := by
  rw [← filterMap_range_savedIn, occupied, List.filterMap_filter]
  refine List.filterMap_congr fun i _ => ?_
  split
  · rfl
  · next hi => exact (Option.not_isSome_iff_eq_none.mp hi).symm

/-- Each occupied slot holds one alternative. -/
theorem length_occupied (cp : ChoicePoints) : cp.occupied.length = cp.held.length := by
  rw [← filterMap_range_savedIn, List.length_filterMap_eq_countP, List.countP_eq_length_filter]
  rfl

/-! ### The occupied slots on a way down -/

/-- Once a link leads to a slot, it leads on as from the slot. -/
theorem Leads.untried_suffix (h : cp.Leads top i) : cp.untried (some i) <:+ cp.untried top := by
  obtain ⟨pre, l, hl⟩ := h.split
  have htail : cp.Chain (some i) (i :: l) := hl.drop
  rw [hl.untried_eq, htail.untried_eq, List.filter_append]
  exact List.suffix_append _ _

namespace Used

/-- The untried slots on a way down are the occupied ones that the link leads to. -/
theorem mem_untried (h : cp.Used top) :
    i ∈ cp.untried top ↔ cp.isUntried i = true ∧ cp.Leads top i := by
  obtain ⟨l, hl⟩ := h.chain
  rw [hl.untried_eq, List.mem_filter, and_comm]
  refine and_congr_right fun _ => ⟨fun hi => ⟨l, hl, hi⟩, fun ⟨l', hl', hi⟩ => ?_⟩
  rwa [hl.unique hl']

/-- Slots further down a way through slots in use are in use. -/
theorem of_leads (h : cp.Used top) (hlead : cp.Leads top i) : cp.Used (some i) := by
  obtain ⟨l, hl, hfree⟩ := h
  obtain ⟨l', hl', hi⟩ := hlead
  obtain rfl := hl.unique hl'
  obtain ⟨pre, post, rfl⟩ := List.append_of_mem hi
  exact ⟨i :: post, hl.drop, fun k hk => hfree k (List.mem_append_right _ hk)⟩

/-- No slot comes twice on a way down. -/
theorem nodup_untried (h : cp.Used top) : (cp.untried top).Nodup := by
  obtain ⟨l, hl⟩ := h.chain
  rw [hl.untried_eq]
  exact hl.nodup.filter _

/-- The untried slots on a way down are some of the occupied ones, each once. -/
theorem subperm_untried (h : cp.Used top) : (cp.untried top).Subperm cp.occupied :=
  List.subperm_of_subset h.nodup_untried fun _ hi => mem_occupied.mpr (h.mem_untried.mp hi).1

/-- No more is untried on a way down than is held. -/
theorem length_untried_le (h : cp.Used top) : (cp.untried top).length ≤ cp.held.length := by
  rw [← length_occupied]
  exact h.subperm_untried.length_le

/-- Cut at one of its slots, the list goes on as the list from that slot on. -/
theorem untried_eq_cons (h : cp.Used top) (hsplit : cp.untried top = pre ++ i :: rest) :
    cp.untried (some i) = i :: rest := by
  have hsuffix : i :: rest <:+ cp.untried top := ⟨pre, hsplit.symm⟩
  obtain ⟨c, g, before, post, hslot, hsaved, hl, -, hpost⟩ := h.split_untried hsuffix
  have hi : cp.isUntried i = true :=
    isUntried_eq_true_iff.mpr ⟨g, by rw [savedIn_of_slot hslot, hsaved]⟩
  have htail : cp.Chain (some i) (i :: post) := hl.drop
  rw [htail.untried_eq, List.filter_cons_of_pos hi, hpost]

end Used

end LogicMachine.ChoicePoints
