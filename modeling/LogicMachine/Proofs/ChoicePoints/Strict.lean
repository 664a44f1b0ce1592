import LogicMachine.Proofs.ChoicePoints.Tidy

/-!
# Strict operations

The operations on choice points once more, with nothing taken for granted: whoever reads or writes a
slot has to find it, the free slots have to be among the slots, and a way down has to end before it
has gone on for longer than there are slots. Nothing comes out of an operation that misses a slot or
goes on for too long. On choice points that are in order the strict operations give what the others
give: no slot is ever missed, and all ways end.
-/

namespace LogicMachine.ChoicePoints

/-- The slots in use, if there are no fewer slots than free ones. -/
def size? (cp : ChoicePoints) : Option Nat :=
  if cp.free.size ≤ cp.slots.size then some (cp.slots.size - cp.free.size) else none

/-- Save an alternative, in the last free slot, which has to exist, or behind the last slot. -/
def push? (cp : ChoicePoints) (frame : Frame) (pc : Nat) : Option (Nat × ChoicePoints) :=
  match cp.free.back? with
  | some i => if i < cp.slots.size then some (cp.push frame pc) else none
  | none => some (cp.push frame pc)

/-- Go down from a link to the first slot with an untried alternative, through `budget` slots at
most. -/
def descendWithin? (cp : ChoicePoints) : (budget : Nat) → (top : Option Nat) → Option (Option Nat)
  | _, none => some none
  | 0, some _ => none
  | budget + 1, some i => do
    let c ← cp.slots[i]?
    if c.saved.isSome then some (some i) else cp.descendWithin? budget c.below

/-- Go down from a link to the first slot with an untried alternative. -/
def descend? (cp : ChoicePoints) (top : Option Nat) : Option (Option Nat) :=
  cp.descendWithin? cp.slots.size top

/-- Go down from a link to its end, through `budget` slots at most, adding the untried alternatives
on the way to `count`. -/
def tallyWithin? (cp : ChoicePoints) : (budget count : Nat) → (top : Option Nat) → Option Nat
  | _, count, none => some count
  | 0, _, some _ => none
  | budget + 1, count, some i => do
    let c ← cp.slots[i]?
    cp.tallyWithin? budget (if c.saved.isSome then count + 1 else count) c.below

/-- How many untried alternatives a frame could go back to. -/
def pending? (cp : ChoicePoints) (frame : Frame) : Option Nat :=
  cp.tallyWithin? cp.slots.size 0 frame.alt

/-- Take the innermost untried alternative of a frame, if there is one. -/
def fail? (cp : ChoicePoints) (frame : Frame) : Option (Option Frame × ChoicePoints) := do
  match ← cp.descend? frame.alt with
  | none => some (none, cp)
  | some i =>
    let c ← cp.slots[i]?
    some (c.saved, cp.clear i)

/-- Thread a frame outward from a slot, through `budget` slots at most. The slot keeps it and is
linked to the next slot with an untried alternative; what the slot held is threaded through that
one. -/
def threadWithin? : (budget : Nat) → (cp : ChoicePoints) → (frame : Frame) → (top : Option Nat) →
    Option (Frame × ChoicePoints)
  | _, cp, frame, none => some (frame, cp)
  | 0, _, _, some _ => none
  | budget + 1, cp, frame, some i => do
    let c ← cp.slots[i]?
    match c.saved with
    | none => some (frame, cp)
    | some next =>
      let kept := cp.setSlot i { c with saved := some frame }
      let below ← kept.descend? c.below
      threadWithin? budget (kept.setSlot i ⟨below, some frame⟩) next below

/-- Make a frame ready to run, under the interleaved strategy after all its alternatives. -/
def delay? (cp : ChoicePoints) (strategy : Strategy) (frame : Frame) :
    Option (Frame × ChoicePoints) := do
  let alt ← cp.descend? frame.alt
  match strategy with
  | .depthFirst => some ({ frame with alt }, cp)
  | .interleaved => threadWithin? cp.slots.size cp { frame with alt } alt

/-- Mark the slots in `todo` and all that they lead to, visiting `budget` of them at most. -/
def markWithin? (cp : ChoicePoints) :
    (budget : Nat) → (todo : List Nat) → (marked : Std.TreeSet Nat) → Option (Std.TreeSet Nat)
  | _, [], marked => some marked
  | 0, _ :: _, _ => none
  | budget + 1, i :: todo, marked =>
    if cp.slots.size ≤ i then none
    else if marked.contains i then cp.markWithin? budget todo marked
    else cp.markWithin? budget (cp.links i ++ todo) (marked.insert i)

/-- Free every slot that `root` does not lead to. -/
def sweep? (cp : ChoicePoints) (root : Option Frame) : Option ChoicePoints := do
  let kept ← cp.markWithin? (2 * cp.slots.size + 1) (root.bind (·.alt)).toList ∅
  let count := (kept.max?.map (· + 1)).getD 0
  let slots := (cp.slots.extract 0 count).mapIdx fun i c => if kept.contains i then c else {}
  let free := (Array.range count).filter (!kept.contains ·)
  let survivors ← size? { cp with slots, free }
  some { cp with slots, free, survivors }

variable {cp : ChoicePoints} {top : Option Nat} {i : Nat} {f g : Frame} {c c' : ChoicePoint}

/-- The number of slots in use can be told if the free ones are not more than all. -/
theorem size?_eq_of_le (h : cp.free.size ≤ cp.slots.size) : cp.size? = some cp.size := by
  rw [size?, if_pos h, size]

/-- What is written into a slot last is what it holds. -/
theorem setSlot_setSlot : (cp.setSlot i c).setSlot i c' = cp.setSlot i c' := by
  simp [setSlot]

/-! ### Ways down -/

/-- A budget of as many slots as the way down has is enough to find the first alternative on it. -/
theorem Chain.descendWithin?_eq {l : List Nat} {budget : Nat} (h : cp.Chain top l)
    (hbudget : l.length ≤ budget) :
    cp.descendWithin? budget top = some (l.find? cp.isUntried) := by
  induction h generalizing budget with
  | nil => rw [descendWithin?]; rfl
  | cons hslot _ ih =>
    obtain ⟨budget, rfl⟩ := Nat.exists_eq_add_one_of_ne_zero (Nat.ne_zero_of_lt hbudget)
    rw [descendWithin?, hslot, List.find?_cons, isUntried, savedIn_of_slot hslot,
      Option.bind_eq_bind, Option.bind_some, ih (Nat.le_of_succ_le_succ hbudget)]
    split <;> simp_all

/-- A way down never goes through a slot twice, so there are enough slots for the budget. -/
theorem Chain.descend?_eq {l : List Nat} (h : cp.Chain top l) :
    cp.descend? top = some (cp.innermost? top) := by
  rw [h.innermost?_eq]
  exact h.descendWithin?_eq h.length_le

/-- With a budget that covers the way down, every alternative on it is counted. -/
theorem Chain.tallyWithin?_eq {l : List Nat} {budget : Nat} (h : cp.Chain top l)
    (hbudget : l.length ≤ budget) (count : Nat) :
    cp.tallyWithin? budget count top = some (count + (l.filter cp.isUntried).length) := by
  induction h generalizing budget count with
  | nil => rw [tallyWithin?]; rfl
  | cons hslot _ ih =>
    obtain ⟨budget, rfl⟩ := Nat.exists_eq_add_one_of_ne_zero (Nat.ne_zero_of_lt hbudget)
    rw [tallyWithin?, hslot, Option.bind_eq_bind, Option.bind_some,
      ih (Nat.le_of_succ_le_succ hbudget), List.filter_cons, isUntried, savedIn_of_slot hslot]
    split <;> simp +arith

/-! ### Taking and rotating -/

namespace Sound

/-- The strict search for the innermost alternative finds what the other one finds. -/
theorem descend?_eq (h : cp.Sound top) : cp.descend? top = some (cp.innermost? top) := by
  obtain ⟨l, hl⟩ := h.used.chain
  exact hl.descend?_eq

/-- Counting the pending alternatives misses no slot. -/
theorem pending?_eq (h : cp.Sound f.alt) : cp.pending? f = some (cp.pending f) := by
  obtain ⟨l, hl⟩ := h.used.chain
  rw [pending?, hl.tallyWithin?_eq hl.length_le, Nat.zero_add, pending, hl.untried_eq]

/-- Nor does taking the innermost one. -/
theorem fail?_eq (h : cp.Sound f.alt) : cp.fail? f = some (cp.fail f) := by
  rw [fail?, h.descend?_eq, Option.bind_eq_bind, Option.bind_some, ChoicePoints.fail]
  cases hi : cp.innermost? f.alt with
  | none => rfl
  | some i =>
    obtain ⟨-, -, -, -, huntried⟩ := h.innermost_split hi
    obtain ⟨g, hg⟩ := isUntried_eq_true_iff.mp huntried
    obtain ⟨c, hslot, -⟩ := Option.bind_eq_some_iff.mp hg
    simp only [hslot, savedIn_of_slot hslot, Option.bind_eq_bind, Option.bind_some]

/-- To be threaded through slots that lie at the end of its way down, a frame finds each of them
below the one before it. -/
theorem threadWithin?_eq (h : cp.Sound f.alt) {is : List Nat} (his : is <:+ cp.untried f.alt)
    {budget : Nat} (hbudget : is.length ≤ budget) :
    threadWithin? budget cp f is.head? = some (cp.rotate f is) := by
  induction is generalizing cp f budget with
  | nil => rw [List.head?_nil, threadWithin?]; rfl
  | cons i rest ih =>
    obtain ⟨budget, rfl⟩ := Nat.exists_eq_add_one_of_ne_zero (Nat.ne_zero_of_lt hbudget)
    obtain ⟨c, g, pre, post, hslot, hsaved, hl, hchain, hpost⟩ := h.used.split_untried his
    obtain ⟨g', cp', hg', hrotate, rfl, hsound, -, hrest⟩ := h.rotate_cons his
    obtain rfl : g = g' := by
      rw [savedIn_of_slot hslot, hsaved] at hg'
      exact Option.some.inj hg'
    have hnotMem : i ∉ post := (List.nodup_cons.mp (hl.drop (l := i :: post)).nodup).1
    -- the slot is not met again below, so it makes no difference that it is written first
    have hbelow : (cp.setSlot i { c with saved := some f }).descend? c.below = some rest.head? := by
      have hkept : (cp.setSlot i { c with saved := some f }).Chain c.below post :=
        hchain.setSlot_of_notMem hnotMem
      have hsame : ∀ k ∈ post,
          (cp.setSlot i { c with saved := some f }).isUntried k = cp.isUntried k := by
        intro k hk
        have hik : i ≠ k := fun hik => hnotMem (hik ▸ hk)
        rw [isUntried, isUntried, savedIn_setSlot hslot, if_neg hik]
      rw [hkept.descend?_eq, hkept.innermost?_eq, ← hpost, ← List.head?_filter,
        List.filter_congr hsame]
    rw [List.head?_cons, threadWithin?, hslot, Option.bind_eq_bind, Option.bind_some, hsaved]
    simp only [hbelow, Option.bind_eq_bind, Option.bind_some, setSlot_setSlot]
    rw [hrotate]
    exact ih hsound hrest (Nat.le_of_succ_le_succ hbudget)

/-- Nor does a delay, under either strategy. -/
theorem delay?_eq (h : cp.Sound f.alt) (strategy : Strategy) :
    cp.delay? strategy f = some (cp.delay strategy f) := by
  rw [delay?, h.descend?_eq, Option.bind_eq_bind, Option.bind_some]
  unfold ChoicePoints.delay
  cases strategy with
  | depthFirst => rfl
  | interleaved =>
    simp only
    rw [← head?_untried]
    have hprune := h.prune
    have hsuffix := h.suffix_untried
    rw [← head?_untried] at hprune hsuffix
    obtain ⟨l, hl⟩ := h.used.chain
    have hlength : (cp.untried f.alt).length ≤ cp.slots.size := by
      rw [hl.untried_eq]
      exact (List.length_filter_le _ l).trans hl.length_le
    exact threadWithin?_eq (f := { f with alt := (cp.untried f.alt).head? }) hprune hsuffix hlength

/-! ### Saving and sweeping -/

/-- An alternative is saved in a free slot that exists, or in a new one. -/
theorem push?_eq (h : cp.Sound f.alt) (pc : Nat) : cp.push? f pc = some (cp.push f pc) := by
  rw [push?]
  cases hlast : cp.free.back? with
  | none => rfl
  | some i => exact if_pos (h.free_lt (Array.mem_of_back? hlast))

/-- There are no more free slots than slots, so the ones in use can be counted. -/
theorem size?_eq (h : cp.Sound top) : cp.size? = some cp.size :=
  size?_eq_of_le (free_le h.free_nodup fun _ => h.free_lt)

/-- Marking begins and goes on at slots in use, which exist, and it ends within the budget. -/
theorem markWithin?_eq (h : cp.Sound top) {budget : Nat} {todo : List Nat}
    {marked : Std.TreeSet Nat} (hbudget : todo.length + 2 * cp.unmarked marked ≤ budget)
    (htodo : ∀ i ∈ todo, cp.Used (some i)) :
    cp.markWithin? budget todo marked = some (cp.markWithin budget todo marked) := by
  induction budget generalizing todo marked with
  | zero =>
    obtain rfl : todo = [] := List.length_eq_zero_iff.mp (by omega)
    rw [markWithin?, markWithin]
  | succ budget ih =>
    cases todo with
    | nil => rw [markWithin?, markWithin]; simp
    | cons i todo =>
      obtain ⟨hi, hrest⟩ := List.forall_mem_cons.mp htodo
      rw [List.length_cons] at hbudget
      rw [markWithin?, if_neg (Nat.not_le.mpr hi.of_some.1), markWithin]
      split
      · exact ih (by omega) hrest
      · next hmem =>
        rw [← Std.TreeSet.mem_iff_contains] at hmem
        have hpaid := cp.unmarked_insert hmem
        refine ih (by rw [List.length_append]; omega) fun k hk => ?_
        rcases List.mem_append.mp hk with hk | hk
        · exact h.used_of_mem_links hi hk
        · exact hrest k hk

/-- A sweep marks slots that exist, and it ends with no more free slots than slots. -/
theorem sweep?_eq {root : Option Frame} (h : cp.Sound (root.bind (·.alt))) :
    cp.sweep? root = some (cp.sweep root) := by
  have hmark := h.markWithin?_eq (cp.budget_le root) fun i hi => by
    rw [Option.mem_toList] at hi
    exact hi ▸ h.used
  have hsize := h.sweep.1.size?_eq
  rw [sweep?, hmark, Option.bind_eq_bind, Option.bind_some]
  exact congrArg (Option.bind · _) hsize

end Sound

end LogicMachine.ChoicePoints
