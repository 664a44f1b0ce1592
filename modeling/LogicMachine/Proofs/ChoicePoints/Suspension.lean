import Mathlib.Data.Multiset.AddSub
import LogicMachine.Proofs.ChoicePoints.Operations

/-!
# Suspended frames

A frame is suspended while it waits in a slot. The operations on choice points are retold here as
what they suspend and what they take up again, so that what should be waiting can be told from the
history alone. What is waiting indeed, slot by slot, is then shown to be the same.
-/

namespace LogicMachine

/-- A frame is put into a slot, or taken out of one. -/
inductive Suspension
  | saved (f : Frame)
  | taken (f : Frame)

/-- `Replays S journal S'`: when the frames `S` are suspended and then all that happens which
`journal` tells, the frames `S'` are. Only a suspended frame can be taken. -/
inductive Replays : Multiset Frame → List Suspension → Multiset Frame → Prop
  | nil (S : Multiset Frame) : Replays S [] S
  | saved {f : Frame} {S S' : Multiset Frame} {journal : List Suspension}
      (h : Replays (f ::ₘ S) journal S') : Replays S (.saved f :: journal) S'
  | taken {f : Frame} {S S' : Multiset Frame} {journal : List Suspension}
      (h : Replays S journal S') : Replays (f ::ₘ S) (.taken f :: journal) S'

namespace Replays

variable {S S' S'' : Multiset Frame} {journal journal' : List Suspension}

/-- What is told in one journal after another is told in both together. -/
theorem append (h : Replays S journal S') (h' : Replays S' journal' S'') :
    Replays S (journal ++ journal') S'' := by
  induction h with
  | nil => exact h'
  | saved _ ih => exact .saved (ih h')
  | taken _ ih => exact .taken (ih h')

/-- The history determines what is suspended. -/
theorem unique (h : Replays S journal S') (h' : Replays S journal S'') : S' = S'' := by
  induction h with
  | nil => cases h'; rfl
  | saved _ ih =>
    cases h' with
    | saved h' => exact ih h'
  | taken _ ih =>
    generalize hS : _ ::ₘ _ = S at h'
    cases h' with
    | taken h' =>
      obtain rfl := (Multiset.cons_inj_right _).mp hS
      exact ih h'

end Replays

namespace ChoicePoints

variable {cp : ChoicePoints} {f : Frame}

/-- A frame that fails takes up the innermost alternative. -/
def failing (cp : ChoicePoints) (f : Frame) : List Suspension :=
  (cp.fail f).1.toList.map .taken

/-- A rotation takes the frame of each slot and leaves the one that came before it. -/
def rotating (cp : ChoicePoints) (f : Frame) : List Nat → List Suspension
  | [] => []
  | i :: rest =>
    match cp.savedIn i with
    | some next =>
      .taken next :: .saved f ::
        rotating { cp with slots := cp.slots.setIfInBounds i ⟨rest.head?, some f⟩ } next rest
    | none => []

/-- Only the interleaved strategy suspends a frame that is delayed. -/
def delaying (cp : ChoicePoints) (strategy : Strategy) (f : Frame) : List Suspension :=
  match strategy with
  | .depthFirst => []
  | .interleaved =>
    cp.rotating { f with alt := cp.innermost? f.alt } (cp.untried f.alt)

/-- A failure takes up the alternative that is not held any more, or nothing. -/
theorem Sound.replays_failing (h : cp.Sound f.alt) :
    Replays cp.held (cp.failing f) (cp.fail f).2.held := by
  unfold failing
  rcases hfail : cp.fail f with ⟨_ | g, cp'⟩
  · obtain ⟨rfl, -⟩ := h.fail_none hfail
    exact .nil _
  · rw [← Multiset.coe_eq_coe.mpr (h.fail_some hfail).2, ← Multiset.cons_coe]
    exact .taken (.nil _)

/-- Along a rotation every slot gives up its frame and gets another one, as the journal tells. -/
theorem Sound.replays_rotating (h : cp.Sound f.alt) {is : List Nat}
    (his : is <:+ cp.untried f.alt) :
    Replays cp.held (cp.rotating f is) (cp.rotate f is).2.held := by
  induction is generalizing cp f with
  | nil => exact .nil _
  | cons i rest ih =>
    obtain ⟨g, cp', hg, hrotate, hcp', hsound, hperm, hrest⟩ := h.rotate_cons his
    have hjournal : cp.rotating f (i :: rest) = .taken g :: .saved f :: cp'.rotating g rest := by
      simp only [rotating, hg, hcp']
    have hmem : g ∈ (cp.held : Multiset Frame) := mem_held_of_savedIn hg
    obtain ⟨S, hS⟩ := Multiset.exists_cons_of_mem hmem
    -- once `g` is out of its slot and `f` is in it, what is suspended is what `cp'` holds
    have hheld : f ::ₘ S = cp'.held := by
      have hswap := Multiset.coe_eq_coe.mpr hperm
      rw [← Multiset.cons_coe, ← Multiset.cons_coe, hS, Multiset.cons_swap] at hswap
      exact ((Multiset.cons_inj_right g).mp hswap).symm
    rw [hrotate, hjournal, hS]
    refine .taken (.saved ?_)
    rw [hheld]
    exact ih hsound hrest

/-- The journal of a delay tells what the slots hold after it. -/
theorem Sound.replays_delaying (h : cp.Sound f.alt) (strategy : Strategy) :
    Replays cp.held (cp.delaying strategy f) (cp.delay strategy f).2.held := by
  cases strategy with
  | depthFirst => exact .nil _
  | interleaved =>
    exact Sound.replays_rotating (f := { f with alt := cp.innermost? f.alt }) h.prune
      h.suffix_untried

/-- Saving an alternative suspends it, and nothing else. -/
theorem Sound.replays_push (h : cp.Sound f.alt) (pc : Nat) :
    Replays cp.held [.saved (cp.alternative f pc)] (cp.push f pc).2.held := by
  rw [Multiset.coe_eq_coe.mpr (h.push pc).2, ← Multiset.cons_coe]
  exact .saved (.nil _)

/-- `cp.HandsOut f fs`: failing again and again, from `f` at first and then from each frame that
comes out, gives the frames `fs` one after another, and then none. -/
inductive HandsOut : ChoicePoints → Frame → List Frame → Prop
  | nil {cp : ChoicePoints} {f : Frame} (hfail : (cp.fail f).1 = none) : HandsOut cp f []
  | cons {cp cp' : ChoicePoints} {f g : Frame} {fs : List Frame}
      (hfail : cp.fail f = (some g, cp')) (hrest : HandsOut cp' g fs) : HandsOut cp f (g :: fs)

/-- Failing again and again hands out everything that is held. -/
theorem Sound.handsOut (h : cp.Sound f.alt) : ∃ fs, cp.HandsOut f fs ∧ fs.Perm cp.held := by
  generalize hn : cp.held.length = n
  induction n generalizing cp f with
  | zero =>
    have hnil : cp.held = [] := List.length_eq_zero_iff.mp hn
    rcases hfail : cp.fail f with ⟨_ | g, cp'⟩
    · exact ⟨[], .nil (by rw [hfail]), by rw [hnil]⟩
    · have hlength := (h.fail_some hfail).2.length_eq
      simp [hnil] at hlength
  | succ n ih =>
    rcases hfail : cp.fail f with ⟨_ | g, cp'⟩
    · have hnil := h.held_eq_nil (h.fail_none hfail).2
      simp [hnil] at hn
    · obtain ⟨hsound, hperm⟩ := h.fail_some hfail
      have hlength := hperm.length_eq
      obtain ⟨fs, hfs, hfsperm⟩ := ih hsound (by simpa [hn] using hlength)
      exact ⟨g :: fs, .cons hfail hfs, (hfsperm.cons g).trans hperm⟩

end ChoicePoints

end LogicMachine
