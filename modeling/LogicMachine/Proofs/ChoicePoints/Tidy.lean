import Mathlib.Logic.Relation
import LogicMachine.Proofs.ChoicePoints.Sweep

/-!
# Tidy slots

What is true of all slots, whichever branch is running: of the free ones, and also of those that no
frame leads to any more and that no sweep has freed yet. No link is stale, so that from every slot
the way down ends, and a frame leads only to slots that are in use.
-/

namespace LogicMachine.ChoicePoints

variable {cp : ChoicePoints} {top : Option Nat} {i k : Nat} {f g : Frame} {c c' : ChoicePoint}

/-- The free slots are distinct and blank, and every link, of a slot or of a frame saved in one,
leads down through slots that are not free. -/
structure Tidy (cp : ChoicePoints) : Prop where
  free_nodup : cp.free.toList.Nodup
  free_blank : ∀ {i : Nat}, i ∈ cp.free → cp.slots[i]? = some {}
  below_used : ∀ {i : Nat} {c : ChoicePoint}, cp.slots[i]? = some c → cp.Used c.below
  saved_used : ∀ {i f}, cp.savedIn i = some f → cp.Used f.alt

/-- A frame leads to a slot: from its innermost choice point there is a path of links, of slots to
those below them and of saved frames to theirs. -/
def LeadsOn (cp : ChoicePoints) (f : Frame) (k : Nat) : Prop :=
  ∃ i, f.alt = some i ∧ Relation.ReflTransGen (fun i k => k ∈ cp.links i) i k

/-- The slots on a way down in use and the free ones are different slots. -/
theorem Chain.length_add_free_le {l : List Nat} (h : cp.Chain top l) (hused : ∀ i ∈ l, i ∉ cp.free)
    (hnodup : cp.free.toList.Nodup) (hlt : ∀ i ∈ cp.free, i < cp.slots.size) :
    l.length + cp.free.size ≤ cp.slots.size := by
  have hall : (l ++ cp.free.toList).Nodup := by
    refine List.nodup_append.mpr ⟨h.nodup, hnodup, ?_⟩
    rintro i hi j hj rfl
    exact hused i hi (Array.mem_toList_iff.mp hj)
  have hle := length_le_size hall fun i hi => by
    rcases List.mem_append.mp hi with hi | hi
    · exact h.lt_size hi
    · exact hlt i (Array.mem_toList_iff.mp hi)
  rwa [List.length_append, Array.length_toList] at hle

/-- There are no more free slots than slots. -/
theorem free_le (hnodup : cp.free.toList.Nodup) (hlt : ∀ i ∈ cp.free, i < cp.slots.size) :
    cp.free.size ≤ cp.slots.size := by
  have hle := Chain.nil.length_add_free_le (by simp) hnodup hlt
  simpa using hle

/-- Free slots exist. -/
theorem Sound.free_lt (h : cp.Sound top) (hi : i ∈ cp.free) : i < cp.slots.size := by
  obtain ⟨c, hslot, -⟩ := h.free_empty hi
  exact (Array.getElem?_eq_some_iff.mp hslot).1

/-- A way down through slots in use stays one when its front is cut off. -/
theorem Used.prune (h : cp.Used top) : cp.Used (cp.innermost? top) := by
  obtain ⟨l, hl, hfree⟩ := h
  exact ⟨_, hl.prune, fun k hk => hfree k ((List.dropWhile_sublist _).subset hk)⟩

namespace Tidy

/-- Without slots there is nothing to be untidy. -/
theorem empty : ChoicePoints.empty.Tidy where
  free_nodup := by simp [ChoicePoints.empty]
  free_blank h := by simp [ChoicePoints.empty] at h
  below_used h := by simp [ChoicePoints.empty] at h
  saved_used h := by simp [savedIn, ChoicePoints.empty] at h

/-! ### What follows for every slot -/

/-- Free slots exist. -/
theorem free_lt (h : cp.Tidy) (hi : i ∈ cp.free) : i < cp.slots.size :=
  (Array.getElem?_eq_some_iff.mp (h.free_blank hi)).1

/-- From every slot the way down ends. -/
theorem exists_chain (h : cp.Tidy) (hi : i < cp.slots.size) : ∃ l, cp.Chain (some i) l := by
  have hslot := Array.getElem?_eq_getElem hi
  obtain ⟨l, hl, -⟩ := h.below_used hslot
  exact ⟨_, .cons hslot hl⟩

/-- The links of any slot lead to slots in use. -/
theorem used_of_mem_links (h : cp.Tidy) (hk : k ∈ cp.links i) : cp.Used (some k) := by
  obtain ⟨c, hslot, hbelow | ⟨f, hf, halt⟩⟩ := mem_links_iff.mp hk
  · exact hbelow ▸ h.below_used hslot
  · exact halt ▸ h.saved_used (by rw [savedIn_of_slot hslot, hf])

/-- A frame that stands on slots in use leads to such slots only. -/
theorem used_of_leadsOn (h : cp.Tidy) (hf : cp.Used f.alt) (hk : cp.LeadsOn f k) :
    cp.Used (some k) := by
  obtain ⟨i, halt, hpath⟩ := hk
  rcases hpath.cases_tail with rfl | ⟨j, -, hlink⟩
  · rwa [halt] at hf
  · exact h.used_of_mem_links hlink

/-! ### The operations -/

/-- A slot that is not free is rewritten: its link may be cut short, and a frame that stands on
slots in use may be put into it. -/
theorem setSlot (h : cp.Tidy) (hslot : cp.slots[i]? = some c) (hi : i ∉ cp.free)
    (hlink : cp.Relinks c c') (hput : ∀ f, c'.saved = some f → cp.Used f.alt) :
    (cp.setSlot i c').Tidy := by
  refine ⟨h.free_nodup, fun {k} hk => ?_, fun {k d} hd => ?_, fun {k f} hf => ?_⟩
  · have hik : i ≠ k := fun hik => hi (hik ▸ hk)
    rw [slot_setSlot hslot, if_neg hik]
    exact h.free_blank hk
  · rw [slot_setSlot hslot] at hd
    split at hd
    · obtain rfl := Option.some.inj hd
      have hused := h.below_used hslot
      rcases hlink with hbelow | hbelow <;> rw [hbelow]
      · exact hused.setSlot hslot (.inl hbelow)
      · exact hused.prune.setSlot hslot (.inr hbelow)
    · exact (h.below_used hd).setSlot hslot hlink
  · rw [savedIn_setSlot hslot] at hf
    split at hf
    · exact (hput f hf).setSlot hslot hlink
    · exact (h.saved_used hf).setSlot hslot hlink

/-- A slot with an alternative is not free. -/
theorem notMem_free (h : cp.Tidy) (hg : cp.savedIn i = some g) : i ∉ cp.free := by
  intro hi
  rw [savedIn_of_slot (h.free_blank hi)] at hg
  cases hg

/-- Taking an alternative changes no link, and its slot was not free. -/
theorem clear (h : cp.Tidy) (hg : cp.savedIn i = some g) : (cp.clear i).Tidy := by
  obtain ⟨c, hslot, -⟩ := Option.bind_eq_some_iff.mp hg
  rw [clear_eq_setSlot hslot]
  exact h.setSlot hslot (h.notMem_free hg) (.inl rfl) nofun

/-- A branch that fails takes an alternative or changes nothing. -/
theorem fail (h : cp.Tidy) (hsound : cp.Sound f.alt) : (cp.fail f).2.Tidy := by
  unfold ChoicePoints.fail
  cases hi : cp.innermost? f.alt with
  | none => exact h
  | some i =>
    obtain ⟨-, -, -, -, huntried⟩ := hsound.innermost_split hi
    obtain ⟨g, hg⟩ := isUntried_eq_true_iff.mp huntried
    exact h.clear hg

/-- Every swap of a rotation puts a frame that stands on slots in use into a slot that is not free.
-/
theorem rotate (h : cp.Tidy) (hsound : cp.Sound f.alt) {is : List Nat}
    (his : is <:+ cp.untried f.alt) : (cp.rotate f is).2.Tidy := by
  induction is generalizing cp f with
  | nil => exact h
  | cons i rest ih =>
    obtain ⟨c, -, -, post, hslot, -, -, hchain, hpost⟩ := hsound.used.split_untried his
    obtain ⟨g, cp', hg, hrotate, rfl, hsound', -, hrest⟩ := hsound.rotate_cons his
    have hbelow : rest.head? = cp.innermost? c.below := by
      rw [hchain.innermost?_eq, ← hpost, List.head?_filter]
    rw [hrotate]
    refine ih (h.setSlot hslot (h.notMem_free hg) (.inr hbelow) ?_) hsound' hrest
    intro f' hf'
    obtain rfl := Option.some.inj hf'
    exact hsound.used

/-- A delay changes nothing, or it rotates along the way down of the branch. -/
theorem delay (h : cp.Tidy) (hsound : cp.Sound f.alt) (strategy : Strategy) :
    (cp.delay strategy f).2.Tidy := by
  cases strategy with
  | depthFirst => exact h
  | interleaved =>
    exact h.rotate (f := { f with alt := cp.innermost? f.alt }) hsound.prune hsound.suffix_untried

/-- A branch that stands on slots in use leaves an alternative. -/
theorem push (h : cp.Tidy) (hsound : cp.Sound f.alt) (pc : Nat) : (cp.push f pc).2.Tidy := by
  obtain ⟨-, -, hpop, -⟩ := hsound.nextSlot_spec
  refine ⟨(hsound.push pc).1.free_nodup, fun {k} hk => ?_, fun {k d} hd => ?_, fun {k g} hg => ?_⟩
  · obtain ⟨hmem, hne⟩ := hpop k hk
    rw [hsound.slot_push, if_neg hne.symm]
    exact h.free_blank hmem
  · rw [hsound.slot_push] at hd
    split at hd
    · obtain rfl := Option.some.inj hd
      exact hsound.used_push f pc hsound.used
    · exact hsound.used_push f pc (h.below_used hd)
  · exact (hsound.push pc).1.saved_used hg

/-- A sweep blanks what it frees, and what it leaves leads to what it leaves. -/
theorem sweep (h : cp.Tidy) {root : Option Frame} (hsound : cp.Sound (root.bind (·.alt))) :
    (cp.sweep root).Tidy := by
  refine ⟨hsound.sweep.1.free_nodup, fun {k} hk => ?_, fun {k d} hd => ?_,
    hsound.sweep.1.saved_used⟩
  · obtain ⟨hlt, hmem⟩ := mem_free_sweep.mp hk
    have hsize : k < cp.slots.size := hlt.trans_le hsound.keptSize_le
    rw [slot_sweep, if_pos hlt, Array.getElem?_eq_getElem hsize, Option.map_some, if_neg hmem]
  · by_cases hmem : k ∈ cp.reachable root
    · rw [slot_sweep_of_mem hmem] at hd
      obtain ⟨l, hl, -⟩ := h.below_used hd
      have hmarked : ∀ j ∈ l, j ∈ cp.reachable root := hl.mem_reachable fun j hj =>
        (cp.reachable_closed root).2 k hmem j (mem_links_iff.mpr ⟨d, hd, .inl hj⟩)
      exact ⟨l, hl.sweep hmarked, fun j hj hfree => (mem_free_sweep.mp hfree).2 (hmarked j hj)⟩
    · rw [slot_sweep] at hd
      split at hd
      · obtain ⟨-, -, rfl⟩ := Option.map_eq_some_iff.mp hd
        exact ⟨[], .nil, by simp⟩
      · cases hd

end Tidy

end LogicMachine.ChoicePoints
