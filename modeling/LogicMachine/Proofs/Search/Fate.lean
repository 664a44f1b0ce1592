import Mathlib.Algebra.Order.Group.Multiset
import LogicMachine.Proofs.Renaming.Advance
import LogicMachine.Proofs.Search.Exploration

/-!
# The fate of a branch

What becomes of a branch does not depend on when its turn comes. The fate of a branch is the finite
tree of everything it leads to, with what the tree costs and yields. A branch that the recursion has
explored has a fate, and a branch that agrees with it has the same one with other numbers.
-/

namespace LogicMachine

/-- `Fate m f c n d S`: run on its own with the counters `c`, the branch `f` and all that it splits
into come to an end after `n` instructions. They draw as many numbers as `d` says and give the
answers `S`. An alternative may find the counters further on than where it was left. -/
inductive Fate (m : Machine) : Frame → Counters → Nat → Nat × Nat → Multiset Solution → Prop
  | go {f g : Frame} {c : Counters} {n : Nat} {d : Nat × Nat} {S : Multiset Solution}
      (h : (m.advance f c).1 = .go g) (hroom : c.HasRoom f.demand)
      (rest : Fate m g (c.drawn f.demand) n d S) : Fate m f c (n + 1) (f.demand + d) S
  | split {f g g' : Frame} {c c' : Counters} {n n' : Nat} {d d' : Nat × Nat}
      {S S' : Multiset Solution} (h : (m.advance f c).1 = .split g g') (hroom : c.HasRoom f.demand)
      (first : Fate m g (c.drawn f.demand) n d S)
      (hvars : (c.drawn f.demand).vars.next ≤ c'.vars.next)
      (hserials : (c.drawn f.demand).serials.next ≤ c'.serials.next)
      (second : Fate m g' c' n' d' S') :
      Fate m f c (n + n' + 1) (f.demand + (d + d')) (S + S')
  | dead {f : Frame} {c : Counters} (h : (m.advance f c).1 = .dead) (hroom : c.HasRoom f.demand) :
      Fate m f c 1 f.demand 0
  | answer {f : Frame} {c : Counters} {s : Solution} (h : (m.advance f c).1 = .answer s)
      (hroom : c.HasRoom f.demand) : Fate m f c 1 f.demand {s}

/-- The counters have not come to their end. -/
structure Counters.Unspent (c : Counters) : Prop where
  vars : c.vars.next < Counter.largest
  serials : c.serials.next < Counter.largest

/-- The counters stand so many numbers further on. -/
structure Counters.Ahead (c c' : Counters) (d : Nat × Nat) : Prop where
  vars : c'.vars.next = c.vars.next + d.1
  serials : c'.serials.next = c.serials.next + d.2

/-- A counter that is not at its end after a draw has moved on by the whole draw. -/
theorem Counter.drawMany_lt {c : Counter} {n : Nat} (h : (c.drawMany n).2.next < largest) :
    c.next + n < largest := by
  induction n generalizing c with
  | zero => exact h
  | succ n ih =>
    have hrest := @ih c.draw.2 h
    simp only [draw] at hrest
    omega

namespace Counters

variable {c c' c'' : Counters} {d d' : Nat × Nat}

/-- Counters that have not come to their end after some numbers were drawn had room for them. -/
theorem Unspent.hasRoom (h : (c.drawn d).Unspent) : c.HasRoom d :=
  ⟨(Counter.drawMany_lt h.vars).le, (Counter.drawMany_lt h.serials).le⟩

/-- Where there is room, the counters stand further on by what was drawn. -/
theorem HasRoom.ahead (h : c.HasRoom d) : c.Ahead (c.drawn d) d := ⟨h.drawn.1, h.drawn.2⟩

/-- Distances between counters add up. -/
theorem Ahead.trans (h : c.Ahead c' d) (h' : c'.Ahead c'' d') : c.Ahead c'' (d + d') := by
  constructor
  · rw [h'.vars, h.vars, Prod.fst_add, Nat.add_assoc]
  · rw [h'.serials, h.serials, Prod.snd_add, Nat.add_assoc]

/-- Counters that were not at their end later were not before. -/
theorem Ahead.unspent (h : c.Ahead c' d) (h' : c'.Unspent) : c.Unspent := by
  have hvars := h'.vars
  have hserials := h'.serials
  rw [h.vars] at hvars
  rw [h.serials] at hserials
  constructor <;> omega

end Counters

/-- A branch that the recursion explores to the end has a fate, which tells what it has found. -/
theorem Machine.fate_of_explore {m : Machine} {budget : Nat} {f : Frame} {c : Counters}
    (hend : (m.explore budget f c).ending = .exhausted)
    (hunspent : (m.explore budget f c).counters.Unspent) :
    ∃ d, Fate m f c (m.explore budget f c).used d (m.explore budget f c).solutions ∧
      c.Ahead (m.explore budget f c).counters d := by
  -- strong induction on the budget, since the second branch of a split has what the first one left
  induction budget using Nat.strong_induction_on generalizing f c with
  | _ budget ih =>
    cases budget with
    | zero =>
      rw [explore] at hend
      cases hend
    | succ budget =>
      have hcounters := m.counters_advance f c
      rcases hadvance : m.advance f c with ⟨o, c₁⟩
      obtain rfl : c₁ = c.drawn f.demand := by rw [← hcounters, hadvance]
      have hout : (m.advance f c).1 = o := by rw [hadvance]
      cases o with
      | go g =>
        have hexplore : m.explore (budget + 1) f c =
            (m.explore budget g (c.drawn f.demand)).after (.go g) := by
          rw [explore, hadvance]
        rw [hexplore] at hend hunspent ⊢
        obtain ⟨d, hfate, hahead⟩ := ih budget (Nat.lt_succ_self _) hend hunspent
        have hroom := (hahead.unspent hunspent).hasRoom
        exact ⟨_, .go hout hroom hfate, hroom.ahead.trans hahead⟩
      | split g g' =>
        set c₁ := c.drawn f.demand with hc₁
        set first := m.explore budget g c₁ with hfirst
        set second := m.explore (budget - first.used) g' first.counters with hsecond
        have hexplore : m.explore (budget + 1) f c =
            (first.followedBy (m.explore (budget - first.used) g')).after (.split g g') := by
          rw [explore, hadvance]
        rw [hexplore] at hend hunspent ⊢
        obtain ⟨hend₁, hend₂, hboth⟩ := Exploration.followedBy_exhausted hend
        rw [hboth] at hunspent ⊢
        -- the second branch comes first: it tells that the counters after the first were not spent
        obtain ⟨d', hfate₂, hahead₂⟩ := ih (budget - first.used) (by omega) hend₂ hunspent
        have hunspent₁ := hahead₂.unspent hunspent
        obtain ⟨d, hfate₁, hahead₁⟩ := ih budget (Nat.lt_succ_self _) hend₁ hunspent₁
        have hroom : c.HasRoom f.demand := (hahead₁.unspent hunspent₁).hasRoom
        have hvars : c₁.vars.next ≤ first.counters.vars.next :=
          hahead₁.vars.symm ▸ Nat.le_add_right _ _
        have hserials : c₁.serials.next ≤ first.counters.serials.next :=
          hahead₁.serials.symm ▸ Nat.le_add_right _ _
        have hfate := Fate.split hout hroom hfate₁ hvars hserials hfate₂
        exact ⟨_, hfate, hroom.ahead.trans (hahead₁.trans hahead₂)⟩
      | dead =>
        have hexplore : m.explore (budget + 1) f c =
            Exploration.after .dead { counters := c.drawn f.demand } := by
          rw [explore, hadvance]
        rw [hexplore] at hunspent ⊢
        have hroom : c.HasRoom f.demand := hunspent.hasRoom
        exact ⟨_, .dead hout hroom, hroom.ahead⟩
      | answer s =>
        have hexplore : m.explore (budget + 1) f c =
            Exploration.after (.answer s) { counters := c.drawn f.demand } := by
          rw [explore, hadvance]
        rw [hexplore] at hunspent ⊢
        have hroom : c.HasRoom f.demand := hunspent.hasRoom
        exact ⟨_, .answer hout hroom, hroom.ahead⟩
      | fault e =>
        rw [explore, hadvance] at hend
        cases hend

end LogicMachine
