import Mathlib.Algebra.Ring.Nat
import Mathlib.Data.Nat.Find
import Mathlib.Logic.Equiv.Basic
import LogicMachine.Proofs.ChoicePoints.Occupied

/-!
# Rotation starves nobody

A delay moves frames along the way down of the branch that is delayed, one slot outward each, and
leaves the ways themselves as they are. How soon the frame of a slot comes out therefore depends on
how soon other frames bring that slot onto the way: each slot is on the way of the running branch,
or on that of a frame saved further out. By induction on how far in a slot lies, the wait at most
doubles with each slot.
-/

namespace LogicMachine.ChoicePoints

variable {cp cp' cp'' : ChoicePoints} {top : Option Nat} {i j n : Nat} {f g : Frame}
  {c c' : ChoicePoint} {is l pre rest : List Nat}

/-! ### The ways down -/

/-- The same slots are occupied, and whatever way down was in use leads through the same of them. -/
structure SameWays (cp cp' : ChoicePoints) : Prop where
  isUntried : cp'.isUntried = cp.isUntried
  used : ∀ {top}, cp.Used top → cp'.Used top
  untried : ∀ {top}, cp.Used top → cp'.untried top = cp.untried top

/-- The ways down are the same as long as nothing is written. -/
theorem SameWays.refl (cp : ChoicePoints) : cp.SameWays cp := ⟨rfl, id, fun _ => rfl⟩

/-- What leaves the ways as they are may be done twice. -/
theorem SameWays.trans (h : cp.SameWays cp') (h' : cp'.SameWays cp'') : cp.SameWays cp'' where
  isUntried := h'.isUntried.trans h.isUntried
  used hused := h'.used (h.used hused)
  untried hused := (h'.untried (h.used hused)).trans (h.untried hused)

/-- To exchange the alternative in a slot for another one leaves the slot untried. -/
theorem isUntried_setSlot (hslot : cp.slots[i]? = some c)
    (hsaved : c'.saved.isSome = c.saved.isSome) : (cp.setSlot i c').isUntried = cp.isUntried := by
  funext k
  rw [isUntried, isUntried, savedIn_setSlot hslot]
  split
  · next hik => rw [← hik, savedIn_of_slot hslot, hsaved]
  · rfl

/-- To cut taken choice points out of a way down changes none of its occupied slots. -/
theorem Chain.untried_setSlot (h : cp.Chain top l) (hslot : cp.slots[i]? = some c)
    (hlink : cp.Relinks c c') (hsaved : c'.saved.isSome = c.saved.isSome) :
    (cp.setSlot i c').untried top = cp.untried top := by
  have hsame := isUntried_setSlot hslot hsaved
  by_cases hi : i ∈ l
  · obtain ⟨pre, lb, rfl⟩ := List.append_of_mem hi
    have hnotMem : i ∉ lb := (List.nodup_cons.mp (h.drop (l := i :: lb)).nodup).1
    have hrest : cp.Chain c.below lb := h.rest hslot
    rcases hlink with hbelow | hbelow
    · have hnew : (cp.setSlot i c').Chain top (pre ++ i :: lb) :=
        h.setSlot_at hslot (by rwa [hbelow]) hnotMem
      rw [hnew.untried_eq, h.untried_eq, hsame]
    · have hcut : i ∉ lb.dropWhile (!cp.isUntried ·) := fun hmem =>
        hnotMem ((List.dropWhile_sublist _).subset hmem)
      have hnew : (cp.setSlot i c').Chain top (pre ++ i :: lb.dropWhile (!cp.isUntried ·)) :=
        h.setSlot_at hslot (by rw [hbelow]; exact hrest.prune) hcut
      rw [hnew.untried_eq, h.untried_eq, hsame]
      simp only [List.filter_append, List.filter_cons, filter_dropWhile_isUntried]
  · rw [(h.setSlot_of_notMem hi).untried_eq, h.untried_eq, hsame]

/-- Exchanging an alternative, and at most cutting taken choice points out below it, leaves all ways
as they are. -/
theorem sameWays_setSlot (hslot : cp.slots[i]? = some c) (hlink : cp.Relinks c c')
    (hsaved : c'.saved.isSome = c.saved.isSome) : cp.SameWays (cp.setSlot i c') where
  isUntried := isUntried_setSlot hslot hsaved
  used hused := hused.setSlot hslot hlink
  untried hused := by
    obtain ⟨l, hl⟩ := hused.chain
    exact hl.untried_setSlot hslot hlink hsaved

/-! ### Where frames stand -/

/-- The frame in a place: the running one, or the one that is saved in a slot. -/
def frameAt (cp : ChoicePoints) (f : Frame) : Option Nat → Option Frame
  | none => some f
  | some i => cp.savedIn i

/-- The place outside the slots is that of the running frame. -/
@[simp] theorem frameAt_none (cp : ChoicePoints) (f : Frame) : cp.frameAt f none = some f := rfl

/-- The other places are the slots. -/
@[simp] theorem frameAt_some (cp : ChoicePoints) (f : Frame) (i : Nat) :
    cp.frameAt f (some i) = cp.savedIn i := rfl

/-- Two frames change places. -/
theorem frameAt_setSlot (hg : cp.savedIn i = some g) (below p : Option Nat) :
    (cp.setSlot i ⟨below, some f⟩).frameAt g p = cp.frameAt f (Equiv.swap none (some i) p) := by
  obtain ⟨c, hslot, -⟩ := Option.bind_eq_some_iff.mp hg
  cases p with
  | none => rw [Equiv.swap_apply_left, frameAt_none, frameAt_some, hg]
  | some j =>
    rw [frameAt_some, savedIn_setSlot hslot]
    by_cases hij : i = j
    · rw [if_pos hij, hij, Equiv.swap_apply_right, frameAt_none]
    · have hne : some j ≠ some i := fun heq => hij (Option.some.inj heq).symm
      rw [if_neg hij, Equiv.swap_apply_of_ne_of_ne (by simp) hne, frameAt_some]

/-- Where the frame in a place has come from when a frame has been threaded through slots: it
changes places with what each of them holds. -/
def source : List Nat → Option Nat → Option Nat
  | [], p => p
  | i :: rest, p => Equiv.swap none (some i) (source rest p)

/-- A slot that the rotation does not go through keeps its frame. -/
theorem source_of_notMem (hj : j ∉ is) : source is (some j) = some j := by
  induction is with
  | nil => rfl
  | cons i rest ih =>
    rw [List.mem_cons, not_or] at hj
    have hji : some j ≠ some i := fun heq => hj.1 (Option.some.inj heq)
    rw [source, ih hj.2, Equiv.swap_apply_of_ne_of_ne (by simp) hji]

/-- What a slot gives out goes to the next slot, or comes out after the last one. -/
theorem source_head? (hnodup : (pre ++ i :: rest).Nodup) :
    source (pre ++ i :: rest) rest.head? = some i := by
  induction pre with
  | nil =>
    have hrest : source rest rest.head? = none := by
      cases rest with
      | nil => rfl
      | cons j rest =>
        have hj := (List.nodup_cons.mp (List.nodup_cons.mp hnodup).2).1
        rw [List.head?_cons, source, source_of_notMem hj, Equiv.swap_apply_right]
    rw [List.nil_append, source, hrest, Equiv.swap_apply_left]
  | cons k pre ih =>
    obtain ⟨hk, hnodup'⟩ := List.nodup_cons.mp hnodup
    have hki : some i ≠ some k := by
      rintro heq
      exact hk (by simp [Option.some.inj heq])
    rw [List.cons_append, source, ih hnodup', Equiv.swap_apply_of_ne_of_ne (by simp) hki]

/-- A rotation moves frames and leaves the ways as they are. -/
theorem Sound.rotate_moves (h : cp.Sound f.alt) (his : is <:+ cp.untried f.alt) :
    cp.SameWays (cp.rotate f is).2 ∧
      ∀ p, (cp.rotate f is).2.frameAt (cp.rotate f is).1 p = cp.frameAt f (source is p) := by
  induction is generalizing cp f with
  | nil => exact ⟨.refl cp, fun _ => rfl⟩
  | cons i rest ih =>
    obtain ⟨c, g', pre, post, hslot, hsaved, -, hchain, hpost⟩ := h.used.split_untried his
    obtain ⟨g, cp', hg, hrotate, hcp', hsound, -, hrest⟩ := h.rotate_cons his
    have hlink : cp.Relinks c ⟨rest.head?, some f⟩ := by
      right
      rw [hchain.innermost?_eq, ← hpost, List.head?_filter]
    have hset : cp' = cp.setSlot i ⟨rest.head?, some f⟩ := hcp'
    have hways : cp.SameWays cp' := by
      rw [hset]
      exact sameWays_setSlot hslot hlink (by rw [hsaved]; rfl)
    obtain ⟨hways', hmoves⟩ := ih hsound hrest
    rw [hrotate]
    refine ⟨hways.trans hways', fun p => ?_⟩
    rw [hmoves, source, hset, frameAt_setSlot hg]

/-- A delay under the interleaved strategy rotates along the whole way down of the running branch.
-/
theorem Sound.delay_moves (h : cp.Sound f.alt) :
    cp.SameWays (cp.delay .interleaved f).2 ∧
      ∀ p, (cp.delay .interleaved f).2.frameAt (cp.delay .interleaved f).1 p =
        cp.frameAt { f with alt := cp.innermost? f.alt } (source (cp.untried f.alt) p) :=
  Sound.rotate_moves (f := { f with alt := cp.innermost? f.alt }) h.prune h.suffix_untried

/-- The occupied slots on the way down of the frame in a place. -/
def wayOf (cp : ChoicePoints) (f : Frame) (p : Option Nat) : List Nat :=
  cp.untried ((cp.frameAt f p).bind (·.alt))

/-- Frames keep their ways. -/
theorem Sound.wayOf_delay (h : cp.Sound f.alt) (p : Option Nat) :
    (cp.delay .interleaved f).2.wayOf (cp.delay .interleaved f).1 p =
      cp.wayOf f (source (cp.untried f.alt) p) := by
  obtain ⟨hways, hmoves⟩ := h.delay_moves
  rw [wayOf, hmoves]
  cases source (cp.untried f.alt) p with
  | none => exact (hways.untried h.prune.used).trans h.untried_innermost?
  | some i =>
    refine hways.untried ?_
    change cp.Used ((cp.savedIn i).bind (·.alt))
    cases hi : cp.savedIn i with
    | none => exact ⟨[], .nil, nofun⟩
    | some g => exact h.saved_used hi

/-! ### Delay after delay -/

/-- Delay the running branch, and then again and again what has come out. -/
def delays : (count : Nat) → ChoicePoints → Frame → Frame × ChoicePoints
  | 0, cp, f => (f, cp)
  | count + 1, cp, f => delays count (cp.delay .interleaved f).2 (cp.delay .interleaved f).1

/-- Where the frame in a place has come from in so many delays. -/
def origin : (count : Nat) → ChoicePoints → Frame → Option Nat → Option Nat
  | 0, _, _, p => p
  | count + 1, cp, f, p =>
    source (cp.untried f.alt) (origin count (cp.delay .interleaved f).2 (cp.delay .interleaved f).1 p)

/-- Frames keep their ways, however often there is a delay. -/
theorem Sound.wayOf_delays (h : cp.Sound f.alt) (n : Nat) (p : Option Nat) :
    (delays n cp f).2.wayOf (delays n cp f).1 p = cp.wayOf f (origin n cp f p) := by
  induction n generalizing cp f with
  | zero => rfl
  | succ n ih => rw [delays, origin, ih (h.delay .interleaved).1, h.wayOf_delay]

/-- A saved frame stays as it is until it has come out. -/
theorem Sound.frameAt_delays {p : Option Nat} (h : cp.Sound f.alt)
    (horigin : origin n cp f p = some i) (hbefore : ∀ k < n, origin k cp f none ≠ some i) :
    (delays n cp f).2.frameAt (delays n cp f).1 p = cp.savedIn i := by
  induction n generalizing cp f i with
  | zero =>
    obtain rfl : p = some i := horigin
    rfl
  | succ n ih =>
    rw [origin] at horigin
    rw [delays]
    have hmoved := (h.delay_moves).2
    cases hq : origin n (cp.delay .interleaved f).2 (cp.delay .interleaved f).1 p with
    | some j =>
      rw [hq] at horigin
      have hstay := hmoved (some j)
      rw [horigin] at hstay
      rw [ih (h.delay .interleaved).1 hq fun k hk hj => hbefore (k + 1) (by omega) ?_]
      · exact hstay
      · rw [origin, hj, horigin]
    | none =>
      rw [hq] at horigin
      -- the frame has come out at once, so that this is all
      cases n with
      | zero =>
        obtain rfl : p = none := hq
        have hout := hmoved none
        rwa [horigin] at hout
      | succ n => exact absurd horigin (hbefore 1 (by omega))

/-- From an occupied slot the way leads on, with the slot itself in front. -/
theorem Sound.exists_untried_eq_cons (h : cp.Sound top) (hi : cp.isUntried i = true) :
    cp.Used (some i) ∧ ∃ rest, cp.untried (some i) = i :: rest := by
  obtain ⟨g, hg⟩ := isUntried_eq_true_iff.mp hi
  have hused := h.saved_used hg
  obtain ⟨pre, rest, hsplit⟩ := List.append_of_mem (hused.mem_untried.mpr ⟨hi, h.saved_leads hg⟩)
  exact ⟨hused.of_leads (h.saved_leads hg), rest, hused.untried_eq_cons hsplit⟩

/-- An occupied slot is on the way of the running branch, or on that of a frame saved further
out. -/
theorem Sound.exists_way (h : cp.Sound top) (hi : cp.isUntried i = true) :
    i ∈ cp.untried top ∨ ∃ s g, s ∈ (cp.untried (some i)).tail ∧ cp.savedIn s = some g ∧
      i ∈ cp.untried g.alt := by
  have hall : ∀ j, cp.Reaches top j → ∀ i ∈ cp.untried (some j), i ∈ cp.untried top ∨
      ∃ s g, s ∈ (cp.untried (some i)).tail ∧ cp.savedIn s = some g ∧ i ∈ cp.untried g.alt := by
    intro j hj
    induction hj with
    | direct hlead => exact fun i hi => .inl (hlead.untried_suffix.subset hi)
    | @through k j g _ hg hlead ih =>
      intro i hi
      have hused := h.saved_used hg
      have hmem : i ∈ cp.untried g.alt := hlead.untried_suffix.subset hi
      have hk : k ∈ cp.untried g.alt :=
        hused.mem_untried.mpr ⟨isUntried_eq_true_iff.mpr ⟨g, hg⟩, h.saved_leads hg⟩
      -- on the way of `g`, either `i` comes before `k`, or the way from `k` on leads to it
      obtain ⟨pre, rest, hsplit⟩ := List.append_of_mem hk
      rw [hsplit, List.mem_append] at hmem
      rcases hmem with hmem | hmem
      · obtain ⟨pre, between, rfl⟩ := List.append_of_mem hmem
        rw [List.append_assoc, List.cons_append] at hsplit
        refine .inr ⟨k, g, ?_, hg, hlead.untried_suffix.subset hi⟩
        rw [hused.untried_eq_cons hsplit, List.tail_cons]
        exact List.mem_append_right _ List.mem_cons_self
      · rw [← hused.untried_eq_cons hsplit] at hmem
        exact ih i hmem
  obtain ⟨g, hg⟩ := isUntried_eq_true_iff.mp hi
  obtain ⟨-, rest, hrest⟩ := h.exists_untried_eq_cons hi
  exact hall i (h.reaches hg) i (hrest ▸ List.mem_cons_self)

/-! ### How long it takes -/

/-- A frame comes out in fewer than `wait` delays if no more than `depth` occupied slots are on the
way from its slot on, itself included. -/
def Prompt (depth wait : Nat) : Prop :=
  ∀ cp f i, Sound cp f.alt → cp.isUntried i = true → (cp.untried (some i)).length ≤ depth →
    ∃ n < wait, origin n cp f none = some i

namespace Prompt

variable {depth wait : Nat}

/-- The frame that brings a slot onto the way comes from a slot further out. -/
theorem comes_onto_way (hprompt : Prompt depth wait) (hwait : 0 < wait) (h : cp.Sound f.alt)
    (hi : cp.isUntried i = true) (hdepth : (cp.untried (some i)).length ≤ depth + 1) :
    ∃ n < wait, i ∈ (delays n cp f).2.wayOf (delays n cp f).1 none := by
  rcases h.exists_way hi with hnow | ⟨s, g, hs, hg, hway⟩
  · exact ⟨0, hwait, hnow⟩
  · obtain ⟨hused, rest, hrest⟩ := h.exists_untried_eq_cons hi
    rw [hrest, List.length_cons, Nat.add_le_add_iff_right] at hdepth
    rw [hrest, List.tail_cons] at hs
    obtain ⟨pre, post, rfl⟩ := List.append_of_mem hs
    have hpost : cp.untried (some s) = s :: post :=
      hused.untried_eq_cons (show cp.untried (some i) = (i :: pre) ++ s :: post from hrest)
    rw [List.length_append] at hdepth
    obtain ⟨n, hn, horigin⟩ := hprompt cp f s h (isUntried_eq_true_iff.mpr ⟨g, hg⟩)
      (by rw [hpost]; omega)
    refine ⟨n, hn, ?_⟩
    rw [h.wayOf_delays, horigin, wayOf, frameAt_some, hg]
    exact hway

/-- On the way of the running branch, the next delay moves a frame one slot outward. -/
theorem comes_out (hprompt : Prompt depth wait) (hwait : 0 < wait) (h : cp.Sound f.alt)
    (hdepth : (cp.untried (some i)).length ≤ depth + 1) (hway : i ∈ cp.untried f.alt) :
    ∃ n ≤ wait, origin n cp f none = some i := by
  obtain ⟨pre, rest, hsplit⟩ := List.append_of_mem hway
  have hsource : source (cp.untried f.alt) rest.head? = some i := by
    rw [hsplit]
    exact source_head? (hsplit ▸ h.used.nodup_untried)
  rw [h.used.untried_eq_cons hsplit, List.length_cons, Nat.add_le_add_iff_right] at hdepth
  cases rest with
  | nil => exact ⟨1, hwait, hsource⟩
  | cons j rest =>
    have hj : cp.isUntried j = true := (h.used.mem_untried.mp (by simp [hsplit])).1
    have hways := h.delay_moves.1
    have hrest : (cp.delay .interleaved f).2.untried (some j) = j :: rest := by
      rw [List.append_cons] at hsplit
      rw [hways.untried (h.exists_untried_eq_cons hj).1, h.used.untried_eq_cons hsplit]
    obtain ⟨n, hn, horigin⟩ := hprompt _ _ j (h.delay .interleaved).1
      (by rwa [hways.isUntried]) (by rwa [hrest])
    refine ⟨n + 1, hn, ?_⟩
    rw [origin, horigin]
    exact hsource

/-- Off the way of the running branch, a frame waits until its slot is on it. -/
theorem comes_out_after (hprompt : Prompt depth wait) (hwait : 0 < wait) (h : cp.Sound f.alt)
    (hi : cp.isUntried i = true) (hdepth : (cp.untried (some i)).length ≤ depth + 1)
    (hway : i ∈ (delays n cp f).2.wayOf (delays n cp f).1 none) :
    ∃ k ≤ n + wait, origin k cp f none = some i := by
  induction n generalizing cp f with
  | zero =>
    rw [Nat.zero_add]
    exact hprompt.comes_out hwait h hdepth hway
  | succ n ih =>
    by_cases hnow : i ∈ cp.untried f.alt
    · obtain ⟨k, hk, horigin⟩ := hprompt.comes_out hwait h hdepth hnow
      exact ⟨k, by omega, horigin⟩
    · have hways := h.delay_moves.1
      obtain ⟨k, hk, horigin⟩ := ih (h.delay .interleaved).1 (by rwa [hways.isUntried])
        (by rwa [hways.untried (h.exists_untried_eq_cons hi).1]) hway
      refine ⟨k + 1, by omega, ?_⟩
      rw [origin, horigin, source_of_notMem hnow]

end Prompt

/-- With each slot further in, the wait doubles at most. -/
theorem prompt_two_pow (depth : Nat) : Prompt depth (2 ^ depth) := by
  induction depth with
  | zero =>
    intro cp f i h hi hdepth
    obtain ⟨-, rest, hrest⟩ := h.exists_untried_eq_cons hi
    rw [hrest] at hdepth
    exact absurd hdepth (Nat.not_succ_le_zero _)
  | succ depth ih =>
    intro cp f i h hi hdepth
    have hwait : 0 < 2 ^ depth := Nat.two_pow_pos depth
    obtain ⟨n, hn, hway⟩ := ih.comes_onto_way hwait h hi hdepth
    obtain ⟨k, hk, horigin⟩ := ih.comes_out_after hwait h hi hdepth hway
    exact ⟨k, by rw [Nat.pow_succ]; omega, horigin⟩

/-- The frame of a slot comes out as it was saved. -/
theorem Sound.returned (h : cp.Sound f.alt) (hi : cp.isUntried i = true) :
    ∃ n < 2 ^ cp.held.length, origin (n + 1) cp f none = some i ∧
      cp.savedIn i = some (delays (n + 1) cp f).1 := by
  have hused := (h.exists_untried_eq_cons hi).1
  obtain ⟨n, hn, horigin⟩ := prompt_two_pow _ cp f i h hi hused.length_untried_le
  have hexists : ∃ n, origin n cp f none = some i := ⟨n, horigin⟩
  have hfirst := Nat.find_spec hexists
  have hle := Nat.find_min' hexists horigin
  have hframe := h.frameAt_delays hfirst fun k hk => Nat.find_min hexists hk
  cases hk : Nat.find hexists with
  | zero =>
    rw [hk] at hfirst
    cases hfirst
  | succ k =>
    rw [hk] at hfirst hframe hle
    exact ⟨k, by omega, hfirst, hframe.symm⟩

end LogicMachine.ChoicePoints
