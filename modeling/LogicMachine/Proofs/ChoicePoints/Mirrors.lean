import Mathlib.Logic.Relator
import LogicMachine.Proofs.ChoicePoints.Sweep
import LogicMachine.Proofs.Renaming.Pairing
import LogicMachine.Proofs.Search.Branch

/-!
# Choice points in other slots

Two searches can keep the same alternatives in different slots. A renaming pairs the slots of one
with those of the other, one to one; what is in paired slots is the same up to the renaming, links
and saved frames included. Every operation gives the same on both sides. Saving an alternative adds a
pair to the renaming, and a sweep of one side takes away the pairs of the slots that it frees.
-/

namespace LogicMachine

variable {r r' : Nat → Nat → Prop}

/-- The same branch, standing on choice points that belong together. -/
structure Frame.SameUpTo (r : Nat → Nat → Prop) (f f' : Frame) : Prop where
  detached : f.detached = f'.detached
  alt : Option.Rel r f.alt f'.alt

namespace Frame.SameUpTo

variable {f f' : Frame}

/-- A branch that is the same up to a renaming is so up to any that has more pairs. -/
theorem mono (h : f.SameUpTo r f') (hr : ∀ {i i'}, r i i' → r' i i') : f.SameUpTo r' f' :=
  ⟨h.detached, optionRel_imp h.alt fun _ => hr⟩

/-- The two have the same bindings. -/
theorem subst_eq (h : f.SameUpTo r f') : f.subst = f'.subst :=
  (congrArg Frame.subst h.detached :)

/-- The two have the same constraints, with the same history. -/
theorem store_eq (h : f.SameUpTo r f') : f.store = f'.store :=
  (congrArg Frame.store h.detached :)

/-- The two are about to do the same. -/
theorem cont_eq (h : f.SameUpTo r f') : f.cont = f'.cont :=
  (congrArg Frame.cont h.detached :)

/-- Moved to other choice points, a branch is still the same. -/
theorem moved (h : f.SameUpTo r f') {top top' : Option Nat}
    (htop : Option.Rel r' top top') :
    ({ f with alt := top } : Frame).SameUpTo r' { f' with alt := top' } := by
  refine ⟨?_, htop⟩
  simp only [h.subst_eq, h.store_eq, h.cont_eq]
  rfl

/-- Going on elsewhere, a branch is still the same. -/
theorem continued (h : f.SameUpTo r f') {cont cont' : Continuation} (hcont : cont = cont') :
    ({ f with cont } : Frame).SameUpTo r { f' with cont := cont' } := by
  refine ⟨?_, h.alt⟩
  simp only [h.subst_eq, h.store_eq, hcont]
  rfl

end Frame.SameUpTo

/-- The same alternative on top of choice points that belong together. -/
structure ChoicePoint.SameUpTo (r : Nat → Nat → Prop) (c c' : ChoicePoint) : Prop where
  below : Option.Rel r c.below c'.below
  saved : Option.Rel (Frame.SameUpTo r) c.saved c'.saved

/-- More pairs leave an alternative the same. -/
theorem ChoicePoint.SameUpTo.mono {c c' : ChoicePoint} (h : c.SameUpTo r c')
    (hr : ∀ {i i'}, r i i' → r' i i') : c.SameUpTo r' c' :=
  ⟨optionRel_imp h.below fun _ => hr, optionRel_imp h.saved fun _ h => h.mono hr⟩

namespace ChoicePoints

/-- `Mirrors r cp cp'`: under the renaming `r`, the slots of `cp` are slots of `cp'`, which never
freed one. -/
structure Mirrors (r : Nat → Nat → Prop) (cp cp' : ChoicePoints) : Prop where
  unique : Relator.BiUnique r
  slot : ∀ {i i'}, r i i' →
    ∃ c c', cp.slots[i]? = some c ∧ cp'.slots[i']? = some c' ∧ c.SameUpTo r c'
  used : ∀ {i i'}, r i i' → i ∉ cp.free
  unswept : cp'.free = #[]

/-- The renaming that also has the name `i'` for the slot `i`. -/
def extended (r : Nat → Nat → Prop) (i i' : Nat) (j j' : Nat) : Prop := r j j' ∨ j = i ∧ j' = i'

namespace Mirrors

variable {cp cp' : ChoicePoints} {top top' : Option Nat} {i i' : Nat} {f f' : Frame}
  {c c' : ChoicePoint}

/-- Without choice points nothing needs a new name. -/
theorem empty : Mirrors (fun _ _ => False) empty empty where
  unique := ⟨fun _ _ _ h => h.elim, fun _ _ _ h => h.elim⟩
  slot h := h.elim
  used h := h.elim
  unswept := rfl

/-! ### The way down -/

/-- The ways down from links that belong together lead through slots that do. -/
theorem chain (h : Mirrors r cp cp') {l : List Nat} (hl : cp.Chain top l)
    (htop : Option.Rel r top top') : ∃ l', cp'.Chain top' l' ∧ List.Forall₂ r l l' := by
  induction hl generalizing top' with
  | nil =>
    cases htop with
    | none => exact ⟨[], .nil, .nil⟩
  | cons hslot _ ih =>
    cases htop with
    | some hi =>
      obtain ⟨c, c', hc, hc', hsame⟩ := h.slot hi
      obtain rfl := Option.some.inj (hslot.symm.trans hc)
      obtain ⟨l', hl', hrel⟩ := ih hsame.below
      exact ⟨_, .cons hc' hl', .cons hi hrel⟩

/-- Slots that belong together hold the same alternative, or none. -/
theorem savedIn (h : Mirrors r cp cp') (hi : r i i') :
    Option.Rel (Frame.SameUpTo r) (cp.savedIn i) (cp'.savedIn i') := by
  obtain ⟨c, c', hc, hc', hsame⟩ := h.slot hi
  rw [savedIn_of_slot hc, savedIn_of_slot hc']
  exact hsame.saved

/-- A slot holds an alternative exactly if the one that belongs to it does. -/
theorem isUntried (h : Mirrors r cp cp') (hi : r i i') :
    cp.isUntried i = cp'.isUntried i' := by
  unfold ChoicePoints.isUntried
  rcases optionRel_cases (h.savedIn hi) with ⟨f, f', hf, hf', -⟩ | ⟨hf, hf'⟩ <;>
    simp only [hf, hf', Option.isSome]

/-- The same alternatives are untried, in the same order. -/
theorem untried (h : Mirrors r cp cp') (hused : cp.Used top) (htop : Option.Rel r top top') :
    List.Forall₂ r (cp.untried top) (cp'.untried top') := by
  obtain ⟨l, hl⟩ := hused.chain
  obtain ⟨l', hl', hrel⟩ := h.chain hl htop
  rw [hl.untried_eq, hl'.untried_eq]
  exact List.rel_filter (fun _ _ hk => Bool.eq_iff_iff.mp (h.isUntried hk)) hrel

/-- The innermost untried alternatives are in slots that belong together. -/
theorem innermost? (h : Mirrors r cp cp') (hused : cp.Used top) (htop : Option.Rel r top top') :
    Option.Rel r (cp.innermost? top) (cp'.innermost? top') := by
  rw [← head?_untried, ← head?_untried]
  exact forall₂_head? (h.untried hused htop)

/-- Equally many alternatives are pending. -/
theorem pending (h : Mirrors r cp cp') (hused : cp.Used f.alt) (hf : f.SameUpTo r f') :
    cp.pending f = cp'.pending f' :=
  (h.untried hused hf.alt).length_eq

/-! ### Taking and rotating -/

/-- The same is written into slots that belong together. -/
theorem setSlot (h : Mirrors r cp cp') (hi : r i i') (hc : c.SameUpTo r c') :
    Mirrors r (cp.setSlot i c) (cp'.setSlot i' c') := by
  refine ⟨h.unique, fun {j j'} hj => ?_, h.used, h.unswept⟩
  obtain ⟨d, d', hd, hd', -⟩ := h.slot hi
  rw [slot_setSlot hd, slot_setSlot hd']
  by_cases hij : i = j
  · subst hij
    rw [if_pos rfl, if_pos (h.unique.2 hi hj)]
    exact ⟨c, c', rfl, rfl, hc⟩
  · have hij' : i' ≠ j' := by
      rintro rfl
      exact hij (h.unique.1 hi hj)
    rw [if_neg hij, if_neg hij']
    exact h.slot hj

/-- An alternative is taken out of slots that belong together. -/
theorem clear (h : Mirrors r cp cp') (hi : r i i') : Mirrors r (cp.clear i) (cp'.clear i') := by
  obtain ⟨c, c', hc, hc', hsame⟩ := h.slot hi
  rw [clear_eq_setSlot hc, clear_eq_setSlot hc']
  exact h.setSlot hi ⟨hsame.below, .none⟩

/-- The same alternative is taken after a failure. -/
theorem fail (h : Mirrors r cp cp') (hused : cp.Used f.alt) (hf : f.SameUpTo r f') :
    Option.Rel (Frame.SameUpTo r) (cp.fail f).1 (cp'.fail f').1 ∧
      Mirrors r (cp.fail f).2 (cp'.fail f').2 := by
  unfold ChoicePoints.fail
  rcases optionRel_cases (h.innermost? hused hf.alt) with ⟨i, i', hi, hi', hr⟩ | ⟨hi, hi'⟩ <;>
    rw [hi, hi']
  · exact ⟨h.savedIn hr, h.clear hr⟩
  · exact ⟨.none, h⟩

/-- The same branch comes out of a rotation. -/
theorem rotate (h : Mirrors r cp cp') (hf : f.SameUpTo r f') {is is' : List Nat}
    (his : List.Forall₂ r is is') :
    (cp.rotate f is).1.SameUpTo r (cp'.rotate f' is').1 ∧
      Mirrors r (cp.rotate f is).2 (cp'.rotate f' is').2 := by
  induction his generalizing cp cp' f f' with
  | nil => exact ⟨hf, h⟩
  | @cons i i' rest rest' hi hrest ih =>
    unfold ChoicePoints.rotate
    rcases optionRel_cases (h.savedIn hi) with ⟨g, g', hg, hg', hgg⟩ | ⟨hg, hg'⟩ <;> rw [hg, hg']
    · exact ih (h.setSlot hi ⟨forall₂_head? hrest, .some hf⟩) hgg
    · exact ⟨hf, h⟩

/-- A delay brings the same branch forward under either strategy, and rotates the others alike. -/
theorem delay (h : Mirrors r cp cp') (hused : cp.Used f.alt) (hf : f.SameUpTo r f')
    (strategy : Strategy) :
    (cp.delay strategy f).1.SameUpTo r (cp'.delay strategy f').1 ∧
      Mirrors r (cp.delay strategy f).2 (cp'.delay strategy f').2 := by
  have hpruned := hf.moved (h.innermost? hused hf.alt)
  cases strategy with
  | depthFirst => exact ⟨hpruned, h⟩
  | interleaved => exact h.rotate hpruned (h.untried hused hf.alt)

/-! ### Saving -/

/-- The slots of the next choice points have no partners yet. -/
theorem ne_nextSlot (h : Mirrors r cp cp') (hi : r i i') :
    i ≠ cp.nextSlot ∧ i' ≠ cp'.nextSlot := by
  obtain ⟨c, c', hc, hc', -⟩ := h.slot hi
  have hlt := (Array.getElem?_eq_some_iff.mp hc).1
  have hlt' := (Array.getElem?_eq_some_iff.mp hc').1
  constructor
  · rintro rfl
    rcases cp.nextSlot_cases with hfree | ⟨-, hsize⟩
    · refine h.used hi ?_
      rw [← Array.mem_toList_iff, hfree]
      simp
    · omega
  · have hsize : cp'.nextSlot = cp'.slots.size := by simp [nextSlot, h.unswept]
    omega

/-- Neither of the next slots has a partner, so naming them for each other keeps names unique. -/
theorem biUnique_extended (h : Mirrors r cp cp') :
    Relator.BiUnique (extended r cp.nextSlot cp'.nextSlot) := by
  constructor
  · rintro i j k (hi | ⟨rfl, rfl⟩) (hj | ⟨rfl, hk⟩)
    · exact h.unique.1 hi hj
    · exact absurd hk (h.ne_nextSlot hi).2
    · exact absurd rfl (h.ne_nextSlot hj).2
    · rfl
  · rintro i j k (hi | ⟨rfl, rfl⟩) (hj | ⟨hk, rfl⟩)
    · exact h.unique.2 hi hj
    · exact absurd hk (h.ne_nextSlot hi).1
    · exact absurd rfl (h.ne_nextSlot hj).1
    · rfl

/-- The same alternative is saved in slots that are given a name for each other. -/
theorem push (h : Mirrors r cp cp') (hsound : cp.Sound f.alt) (hf : f.SameUpTo r f') (pc : Nat) :
    Mirrors (extended r cp.nextSlot cp'.nextSlot) (cp.push f pc).2 (cp'.push f' pc).2 := by
  obtain ⟨-, -, hpop, -⟩ := hsound.nextSlot_spec
  have hsize : cp'.nextSlot = cp'.slots.size := by simp [nextSlot, h.unswept]
  have hslot' : ∀ k, (cp'.push f' pc).2.slots[k]? = if cp'.nextSlot = k then
      some ⟨f'.alt, some (cp'.alternative f' pc)⟩ else cp'.slots[k]? := slot_put hsize.le
  refine ⟨h.biUnique_extended, ?_, ?_, ?_⟩
  · rintro i i' (hi | ⟨rfl, rfl⟩)
    · obtain ⟨c, c', hc, hc', hsame⟩ := h.slot hi
      obtain ⟨hne, hne'⟩ := h.ne_nextSlot hi
      rw [hsound.slot_push, hslot', if_neg hne.symm, if_neg hne'.symm]
      exact ⟨c, c', hc, hc', hsame.mono .inl⟩
    · rw [hsound.slot_push, hslot', if_pos rfl, if_pos rfl]
      refine ⟨_, _, rfl, rfl, optionRel_imp hf.alt fun _ => .inl, .some ?_⟩
      have hsaved : ({ f with cont := f.cont.resumeAt pc } : Frame).SameUpTo r
          { f' with cont := f'.cont.resumeAt pc } := hf.continued (congrArg (·.resumeAt pc) hf.cont_eq)
      exact hsaved.moved (.some (.inr ⟨rfl, rfl⟩))
  · rintro i i' (hi | ⟨rfl, rfl⟩) hfree
    · exact h.used hi (hpop _ hfree).1
    · exact (hpop _ hfree).2 rfl
  · show cp'.free.pop = #[]
    rw [h.unswept]
    rfl

/-! ### Sweeping -/

/-- A sweep takes names away and changes nothing else: what it leaves leads to what it leaves. -/
theorem sweep (h : Mirrors r cp cp') (root : Option Frame) :
    Mirrors (fun i i' => r i i' ∧ i ∈ cp.reachable root) (cp.sweep root) cp' := by
  have hlinks := (cp.reachable_closed root).2
  refine ⟨⟨fun _ _ _ hi hj => h.unique.1 hi.1 hj.1, fun _ _ _ hi hj => h.unique.2 hi.1 hj.1⟩, ?_,
    fun hi hfree => (mem_free_sweep.mp hfree).2 hi.2, h.unswept⟩
  rintro i i' ⟨hi, hmem⟩
  obtain ⟨c, c', hc, hc', hbelow, hsaved⟩ := h.slot hi
  refine ⟨c, c', by rw [slot_sweep_of_mem hmem, hc], hc', ?_, ?_⟩
  · exact optionRel_imp hbelow fun hk hkk =>
      ⟨hkk, hlinks i hmem _ (mem_links_iff.mpr ⟨c, hc, .inl hk⟩)⟩
  · refine optionRel_imp hsaved fun hf hff => ⟨hff.detached, ?_⟩
    exact optionRel_imp hff.alt fun hk hkk =>
      ⟨hkk, hlinks i hmem _ (mem_links_iff.mpr ⟨c, hc, .inr ⟨_, hf, hk⟩⟩)⟩

end Mirrors

end ChoicePoints

end LogicMachine
