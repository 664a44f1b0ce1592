import Mathlib.Data.List.Flatten
import LogicMachine.Proofs.ChoicePoints.Tidy

/-!
# Links

How often the slots are linked, and what the operations on choice points exchange one link for. A
way down accounts for one link to each of its slots, and a rotation leaves of it the links to those
that still hold an alternative.
-/

namespace LogicMachine.ChoicePoints

variable {cp cp' : ChoicePoints} {top : Option Nat} {kept is rest ts post l : List Nat}
  {i k : Nat} {f g : Frame} {c : ChoicePoint}

/-- The link of a slot to the one below it. -/
def belowOf (cp : ChoicePoints) (i : Nat) : List Nat :=
  (cp.slots[i]?.bind (·.below)).toList

/-- A slot is linked to the slot below it and to where its saved frame stands. -/
theorem links_of_slot (hslot : cp.slots[i]? = some c) :
    cp.links i = c.below.toList ++ (c.saved.bind (·.alt)).toList := by
  rw [links, hslot]

/-- The link downward can be read off the slot. -/
theorem belowOf_of_slot (hslot : cp.slots[i]? = some c) : cp.belowOf i = c.below.toList := by
  rw [belowOf, hslot, Option.bind_some]

/-- A slot whose alternative is taken leads to the one below it. -/
theorem links_of_taken (hi : cp.isUntried i = false) : cp.links i = cp.belowOf i := by
  cases hslot : cp.slots[i]? with
  | none => rw [links, belowOf, hslot]; rfl
  | some c =>
    rw [isUntried, savedIn_of_slot hslot, Option.isSome_eq_false_iff,
      Option.isNone_iff_eq_none] at hi
    rw [links_of_slot hslot, belowOf_of_slot hslot, hi]
    exact List.append_nil _

/-- The same for several slots whose alternatives are taken. -/
theorem flatMap_links_of_taken (hts : ∀ i ∈ ts, cp.isUntried i = false) :
    ts.flatMap cp.links = ts.flatMap cp.belowOf :=
  List.flatMap_congr fun i hi => links_of_taken (hts i hi)

/-- Equal slots have equal links. -/
theorem links_congr (h : cp'.slots[i]? = cp.slots[i]?) : cp'.links i = cp.links i := by
  rw [links, links, h]

/-- Writing a slot exchanges its links among those of the slots. -/
theorem count_links_setSlot (hslot : cp.slots[i]? = some c) (c' : ChoicePoint)
    (hnodup : kept.Nodup) (hi : i ∈ kept) (k : Nat) :
    (kept.flatMap (cp.setSlot i c').links).count k + (cp.links i).count k =
      (kept.flatMap cp.links).count k +
        (c'.below.toList ++ (c'.saved.bind (·.alt)).toList).count k := by
  have hnew : (cp.setSlot i c').links i = c'.below.toList ++ (c'.saved.bind (·.alt)).toList :=
    links_of_slot (by rw [slot_setSlot hslot, if_pos rfl])
  obtain ⟨pre, post, rfl⟩ := List.append_of_mem hi
  have hsame : ∀ ks : List Nat, i ∉ ks →
      ks.flatMap (cp.setSlot i c').links = ks.flatMap cp.links := by
    refine fun ks hks => List.flatMap_congr fun k hk => links_congr ?_
    rw [slot_setSlot hslot, if_neg fun hik : i = k => hks (hik ▸ hk)]
  have hpre : i ∉ pre ∧ i ∉ post := by
    rw [List.nodup_middle, List.nodup_cons, List.mem_append, not_or] at hnodup
    exact hnodup.1
  simp only [List.flatMap_append, List.flatMap_cons, List.count_append, hnew, hsame _ hpre.1,
    hsame _ hpre.2]
  omega

/-- On a way down each link leads to the next slot. -/
theorem Chain.count_belowOf (h : cp.Chain top (ts ++ post)) (k : Nat) :
    post.head?.toList.count k + ts.count k =
      top.toList.count k + (ts.flatMap cp.belowOf).count k := by
  induction ts generalizing top with
  | nil =>
    rw [List.nil_append] at h
    rw [h.head?_eq]
    rfl
  | cons i ts ih =>
    cases h with
    | cons hslot hbelow =>
      have hrest := ih hbelow
      rw [List.flatMap_cons, belowOf_of_slot hslot, List.count_append, Option.toList_some,
        List.count_cons, List.count_singleton]
      omega

/-- Taking an alternative changes no link of a slot. -/
theorem Chain.clear (h : cp.Chain top l) (i : Nat) : (cp.clear i).Chain top l := by
  refine h.congr fun k _ => ?_
  rw [ChoicePoints.clear, Array.getElem?_modify]
  split
  · cases cp.slots[k]? <;> rfl
  · rfl

/-- After an alternative is taken, its slot holds nothing and all others what they held. -/
theorem savedIn_clear (cp : ChoicePoints) (i k : Nat) :
    (cp.clear i).savedIn k = if i = k then none else cp.savedIn k := by
  rw [savedIn, ChoicePoints.clear, Array.getElem?_modify]
  split
  · cases cp.slots[k]? <;> rfl
  · rfl

/-- After an alternative is taken, its slot is not untried any more, and the others stay as they
were. -/
theorem isUntried_clear (cp : ChoicePoints) (i k : Nat) :
    (cp.clear i).isUntried k = if i = k then false else cp.isUntried k := by
  rw [isUntried, savedIn_clear]
  split <;> rfl

/-! ### Rotations -/

/-- A rotation writes the slots that it goes through, and leaves an alternative in each. -/
theorem Sound.rotate_slots (h : cp.Sound f.alt) (his : is <:+ cp.untried f.alt) :
    (cp.rotate f is).2.isUntried = cp.isUntried ∧
      (cp.rotate f is).2.slots.size = cp.slots.size ∧ (cp.rotate f is).2.free = cp.free ∧
      ∀ k ∉ is, (cp.rotate f is).2.slots[k]? = cp.slots[k]? := by
  induction is generalizing cp f with
  | nil => exact ⟨rfl, rfl, rfl, fun _ _ => rfl⟩
  | cons i rest ih =>
    obtain ⟨c, -, -, -, hslot, -⟩ := h.used.split_untried his
    obtain ⟨g, cp', hg, hrotate, rfl, hsound, -, hrest⟩ := h.rotate_cons his
    obtain ⟨huntried, hsize, hfree, hsame⟩ := ih hsound hrest
    rw [hrotate]
    refine ⟨huntried.trans (funext fun k => ?_), ?_, hfree, fun k hk => ?_⟩
    · rw [isUntried, isUntried, ← setSlot, savedIn_setSlot hslot]
      split
      · next hik => rw [← hik, hg]; rfl
      · rfl
    · rw [hsize, Array.size_setIfInBounds]
    · rw [List.mem_cons, not_or] at hk
      rw [hsame k hk.2, ← setSlot, slot_setSlot hslot, if_neg (Ne.symm hk.1)]

/-- Each swap of a rotation exchanges one link for another: the slot is linked to the next slot of
the rotation instead of the one below it. -/
theorem Sound.count_rotate (h : cp.Sound f.alt) (his : is <:+ cp.untried f.alt)
    (hnodup : kept.Nodup) (hkept : ∀ i ∈ is, i ∈ kept) (k : Nat) :
    ((cp.rotate f is).1.alt.toList ++ kept.flatMap (cp.rotate f is).2.links).count k +
        (is.flatMap cp.belowOf).count k + is.head?.toList.count k =
      (f.alt.toList ++ kept.flatMap cp.links).count k + is.count k := by
  -- induction on the slots of the rotation; the slots after `i` are as before when their turn comes
  induction is generalizing cp f with
  | nil => rfl
  | cons i rest ih =>
    obtain ⟨c, g, pre, post, hslot, hsaved, hl, -, hpost⟩ := h.used.split_untried his
    obtain ⟨g', cp', hg, hrotate, rfl, hsound, -, hrest⟩ := h.rotate_cons his
    obtain rfl : g = g' := by
      rw [savedIn_of_slot hslot, hsaved] at hg
      exact Option.some.inj hg
    obtain ⟨hi, hkeptRest⟩ := List.forall_mem_cons.mp hkept
    have hnotMem : i ∉ rest := by
      rw [← hpost]
      have hpostNodup := (hl.drop (l := i :: post)).nodup
      exact fun hmem => (List.nodup_cons.mp hpostNodup).1 (List.mem_of_mem_filter hmem)
    have hswap := count_links_setSlot hslot ⟨rest.head?, some f⟩ hnodup hi k
    have hbelow : rest.flatMap (cp.setSlot i ⟨rest.head?, some f⟩).belowOf =
        rest.flatMap cp.belowOf := by
      refine List.flatMap_congr fun k hk => ?_
      rw [belowOf, belowOf, slot_setSlot hslot, if_neg fun hik : i = k => hnotMem (hik ▸ hk)]
    have hih := ih hsound hrest hkeptRest
    rw [← setSlot] at hih
    rw [hrotate]
    rw [links_of_slot hslot, hsaved] at hswap
    rw [hbelow] at hih
    rw [List.flatMap_cons, belowOf_of_slot hslot]
    simp only [List.count_append, Option.bind_some, List.head?_cons, Option.toList_some,
      List.count_cons, List.count_nil] at hih hswap ⊢
    rw [← setSlot]
    omega

/-! ### Between two sweeps -/

/-- A rotation is no sweep: it does not touch the number that the last sweep has left. -/
@[simp] theorem survivors_rotate (cp : ChoicePoints) (f : Frame) (is : List Nat) :
    (cp.rotate f is).2.survivors = cp.survivors := by
  induction is generalizing cp f with
  | nil => rfl
  | cons i rest ih =>
    rw [rotate]
    split
    · exact ih _ _
    · rfl

/-- Nor does a delay. -/
@[simp] theorem survivors_delay (cp : ChoicePoints) (strategy : Strategy) (f : Frame) :
    (cp.delay strategy f).2.survivors = cp.survivors := by
  cases strategy with
  | depthFirst => rfl
  | interleaved => exact survivors_rotate ..

/-- Nor does taking an alternative. -/
@[simp] theorem survivors_fail (cp : ChoicePoints) (f : Frame) :
    (cp.fail f).2.survivors = cp.survivors := by
  unfold fail
  split <;> rfl

end LogicMachine.ChoicePoints
