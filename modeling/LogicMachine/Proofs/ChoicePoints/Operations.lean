import LogicMachine.Proofs.ChoicePoints.Sound

/-!
# The operations keep the choice points sound

Saving, taking and rotating alternatives. Each operation is described by what becomes of the
alternatives that are held: one is added, one is taken out, or one changes places with the running
branch.
-/

namespace LogicMachine.ChoicePoints

variable {cp : ChoicePoints} {top : Option Nat} {i : Nat} {f g : Frame} {c c' : ChoicePoint}

/-- The alternative `g` leaves slot `i` and goes on as the running branch. What is written into the
slot is empty or the branch that ran before, and what that branch met on its own way down is still
to be met on the way down from `g`. -/
theorem Sound.exchange (h : cp.Sound top) (hslot : cp.slots[i]? = some c)
    (hsaved : c.saved = some g) (hlink : cp.Relinks c c')
    (hput : ∀ f, c'.saved = some f → f.alt = top ∧ cp.Leads top i)
    (hdirect : ∀ k, (cp.setSlot i c').isUntried k = true → cp.Leads top k →
      (cp.setSlot i c').Reaches g.alt k) :
    (cp.setSlot i c').Sound g.alt := by
  have hg : cp.savedIn i = some g := by rw [savedIn_of_slot hslot, hsaved]
  -- a frame that is saved now was saved before, or is the branch that ran
  have hnew : ∀ {k f}, (cp.setSlot i c').savedIn k = some f →
      cp.isUntried k = true ∧ cp.Used f.alt ∧ cp.Leads f.alt k := by
    intro k f hk
    rw [savedIn_setSlot hslot] at hk
    by_cases hik : i = k
    · subst hik
      rw [if_pos rfl] at hk
      obtain ⟨halt, hlead⟩ := hput f hk
      rw [halt]
      exact ⟨isUntried_eq_true_iff.mpr ⟨g, hg⟩, h.used, hlead⟩
    · rw [if_neg hik] at hk
      exact ⟨isUntried_eq_true_iff.mpr ⟨f, hk⟩, h.saved_used hk, h.saved_leads hk⟩
  -- by induction on the way down from the old branch: what it met is met on the way down from `g`,
  -- since the way through slot `i` led through `g`
  have hreaches : ∀ k, cp.Reaches top k → (cp.setSlot i c').isUntried k = true →
      (cp.setSlot i c').Reaches g.alt k := by
    intro k hk
    induction hk with
    | direct hlead => exact fun huntried => hdirect _ huntried hlead
    | @through j k f _ hf hlead ih =>
      intro huntried
      obtain ⟨_, hfk⟩ := isUntried_eq_true_iff.mp huntried
      have hlead' := hlead.setSlot hslot hlink (hnew hfk).1
      by_cases hij : i = j
      · subst hij
        obtain rfl := Option.some.inj (hf.symm.trans hg)
        exact .direct hlead'
      · have hf' : (cp.setSlot i c').savedIn j = some f := by
          rw [savedIn_setSlot hslot, if_neg hij, hf]
        exact .through (ih (isUntried_eq_true_iff.mpr ⟨f, hf'⟩)) hf' hlead'
  refine ⟨(h.saved_used hg).setSlot hslot hlink, ?_, ?_, ?_, h.free_nodup, ?_⟩
  · exact fun hk => (hnew hk).2.1.setSlot hslot hlink
  · exact fun hk => (hnew hk).2.2.setSlot hslot hlink (hnew hk).1
  · intro k f hk
    obtain ⟨f', hf'⟩ := isUntried_eq_true_iff.mp (hnew hk).1
    exact hreaches k (h.reaches hf') (isUntried_eq_true_iff.mpr ⟨f, hk⟩)
  · intro k hk
    obtain ⟨ck, hck, hnone⟩ := h.free_empty hk
    have hik : i ≠ k := by
      rintro rfl
      obtain rfl := Option.some.inj (hslot.symm.trans hck)
      rw [hsaved] at hnone
      cases hnone
    exact ⟨ck, by rw [slot_setSlot hslot, if_neg hik, hck], hnone⟩

/-! ### Taking an alternative -/

/-- To take the alternative of a slot is to write the slot again without it. -/
theorem clear_eq_setSlot (hslot : cp.slots[i]? = some c) :
    cp.clear i = cp.setSlot i { c with saved := none } := by
  obtain ⟨hlt, rfl⟩ := Array.getElem?_eq_some_iff.mp hslot
  simp only [clear, setSlot]
  congr 1

/-- If the branch has no alternative left, no slot has one. -/
theorem Sound.held_eq_nil (h : cp.Sound top) (hnone : cp.innermost? top = none) :
    cp.held = [] := by
  have hreaches : ∀ i, cp.Reaches top i → cp.savedIn i = none := by
    intro i hi
    induction hi with
    | direct hlead =>
      obtain ⟨l, hl, hmem⟩ := hlead
      rw [hl.innermost?_eq, List.find?_eq_none] at hnone
      simpa [isUntried] using hnone _ hmem
    | through _ hf _ ih =>
      rw [ih] at hf
      cases hf
  refine held_eq_nil_iff.mpr fun i => ?_
  cases hi : cp.savedIn i with
  | none => rfl
  | some f => rw [← hi, hreaches i (h.reaches hi)]

/-- The innermost slot holds an alternative, and everything else untried on the way down comes
behind it. -/
theorem Sound.innermost_split (h : cp.Sound top) (hi : cp.innermost? top = some i) :
    ∃ pre l, cp.Chain top (pre ++ i :: l) ∧ (∀ k ∈ pre, cp.isUntried k = false) ∧
      cp.isUntried i = true := by
  obtain ⟨l, hl⟩ := h.used.chain
  rw [hl.innermost?_eq, List.find?_eq_some_iff_append] at hi
  obtain ⟨huntried, pre, post, rfl, hpre⟩ := hi
  exact ⟨pre, post, hl, by simpa using hpre, huntried⟩

/-- Taking the innermost untried alternative hands the choice points over to it. -/
theorem Sound.clear (h : cp.Sound top) (hi : cp.innermost? top = some i)
    (hg : cp.savedIn i = some g) :
    (cp.clear i).Sound g.alt ∧ (g :: (cp.clear i).held).Perm cp.held := by
  obtain ⟨c, hslot, hsaved⟩ := Option.bind_eq_some_iff.mp hg
  have hheld := held_setSlot hslot { c with saved := none }
  rw [clear_eq_setSlot hslot]
  refine ⟨h.exchange hslot hsaved (.inl rfl) (by simp) ?_, by simpa [hsaved] using hheld⟩
  intro k huntried hlead
  obtain ⟨f, hf⟩ := isUntried_eq_true_iff.mp huntried
  rw [savedIn_setSlot hslot] at hf
  have hik : i ≠ k := by
    rintro rfl
    simp at hf
  rw [if_neg hik] at hf
  have hk : cp.isUntried k = true := isUntried_eq_true_iff.mpr ⟨f, hf⟩
  -- `k` lies behind `i` on the way down from `top`, and so on the way down from `g`
  obtain ⟨pre, l, hl, hpre, _⟩ := h.innermost_split hi
  obtain ⟨l', hl', hmem⟩ := hlead
  obtain rfl := hl.unique hl'
  obtain ⟨pre', l', hl'⟩ := (h.saved_leads hg).split
  have htail := (hl.drop (l := i :: l)).unique (hl'.drop (l := i :: l'))
  refine .direct (Leads.setSlot ⟨_, hl', ?_⟩ hslot (.inl rfl) hk)
  rw [← htail]
  rcases List.mem_append.mp hmem with hmem | hmem
  · rw [hpre k hmem] at hk
    cases hk
  · exact List.mem_append_right _ hmem

/-- A branch that fails is followed by an alternative, which is then no longer held. -/
theorem Sound.fail_some {cp' : ChoicePoints} (h : cp.Sound f.alt)
    (hfail : cp.fail f = (some g, cp')) : cp'.Sound g.alt ∧ (g :: cp'.held).Perm cp.held := by
  unfold fail at hfail
  cases hi : cp.innermost? f.alt with
  | none => simp [hi] at hfail
  | some i =>
    rw [hi] at hfail
    obtain ⟨hg, rfl⟩ := Prod.mk.inj hfail
    exact h.clear hi hg

/-- A branch that fails and is followed by none has no untried alternative. -/
theorem Sound.fail_none {cp' : ChoicePoints} (h : cp.Sound f.alt)
    (hfail : cp.fail f = (none, cp')) : cp' = cp ∧ cp.innermost? f.alt = none := by
  unfold fail at hfail
  cases hi : cp.innermost? f.alt with
  | none =>
    rw [hi] at hfail
    exact ⟨(Prod.mk.inj hfail).2.symm, rfl⟩
  | some i =>
    rw [hi] at hfail
    obtain ⟨_, _, _, _, huntried⟩ := h.innermost_split hi
    rw [isUntried, (Prod.mk.inj hfail).1] at huntried
    cases huntried

/-! ### Rotating -/

/-- Unlinking the taken choice points in front changes nothing. -/
theorem Sound.prune (h : cp.Sound top) : cp.Sound (cp.innermost? top) := by
  obtain ⟨l, hl, hfree⟩ := h.used
  have hsub : ∀ k ∈ l.dropWhile (!cp.isUntried ·), k ∈ l := (List.dropWhile_sublist _).subset
  refine ⟨⟨_, hl.prune, fun k hk => hfree k (hsub k hk)⟩, h.saved_used, h.saved_leads, ?_,
    h.free_nodup, h.free_empty⟩
  have hreaches : ∀ k, cp.Reaches top k → cp.isUntried k = true →
      cp.Reaches (cp.innermost? top) k := by
    intro k hk
    induction hk with
    | direct hlead =>
      intro huntried
      obtain ⟨l', hl', hmem⟩ := hlead
      obtain rfl := hl.unique hl'
      have hfilter := List.mem_filter.mpr ⟨hmem, huntried⟩
      rw [← filter_dropWhile_isUntried] at hfilter
      exact .direct ⟨_, hl.prune, List.mem_of_mem_filter hfilter⟩
    | through _ hf hlead ih =>
      exact fun _ => .through (ih (isUntried_eq_true_iff.mpr ⟨_, hf⟩)) hf hlead
  intro k f hk
  exact hreaches k (h.reaches hk) (isUntried_eq_true_iff.mpr ⟨f, hk⟩)

/-- The running branch changes places with an alternative on its way down, and the slot is linked
past the taken choice points below it. -/
theorem Sound.swap (h : cp.Sound f.alt) (hslot : cp.slots[i]? = some c) (hsaved : c.saved = some g)
    (hlead : cp.Leads f.alt i) :
    (cp.setSlot i ⟨cp.innermost? c.below, some f⟩).Sound g.alt ∧
      (g :: (cp.setSlot i ⟨cp.innermost? c.below, some f⟩).held).Perm (f :: cp.held) := by
  have hg : cp.savedIn i = some g := by rw [savedIn_of_slot hslot, hsaved]
  have hlink : cp.Relinks c ⟨cp.innermost? c.below, some f⟩ := .inr rfl
  have hheld := held_setSlot hslot ⟨cp.innermost? c.below, some f⟩
  refine ⟨h.exchange hslot hsaved hlink ?_ ?_, by simpa [hsaved] using hheld⟩
  · intro f' hf'
    obtain rfl := Option.some.inj hf'
    exact ⟨rfl, hlead⟩
  · intro k huntried hk
    have hi : cp.isUntried i = true := isUntried_eq_true_iff.mpr ⟨g, hg⟩
    have hk' : cp.isUntried k = true := by
      obtain ⟨f', hf'⟩ := isUntried_eq_true_iff.mp huntried
      rw [savedIn_setSlot hslot] at hf'
      by_cases hik : i = k
      · exact hik ▸ hi
      · exact isUntried_eq_true_iff.mpr ⟨f', by simpa [hik] using hf'⟩
    have hf : (cp.setSlot i ⟨cp.innermost? c.below, some f⟩).savedIn i = some f := by
      rw [savedIn_setSlot hslot, if_pos rfl]
    exact .through (.direct ((h.saved_leads hg).setSlot hslot hlink hi)) hf
      (hk.setSlot hslot hlink hk')

/-- A slot among the untried ones on a way down, with those behind it: it holds an alternative, and
the way down from the slot below it leads through the others. -/
theorem Used.split_untried (h : cp.Used top) {rest : List Nat} (his : i :: rest <:+ cp.untried top) :
    ∃ c g pre post, cp.slots[i]? = some c ∧ c.saved = some g ∧ cp.Chain top (pre ++ i :: post) ∧
      cp.Chain c.below post ∧ post.filter cp.isUntried = rest := by
  obtain ⟨l, hl⟩ := h.chain
  obtain ⟨before, hbefore⟩ := his
  rw [hl.untried_eq] at hbefore
  obtain ⟨pre, l', rfl, _, hl'⟩ := List.filter_eq_append_iff.mp hbefore.symm
  obtain ⟨taken, post, rfl, _, hi, hpost⟩ := List.filter_eq_cons_iff.mp hl'
  obtain ⟨g, hg⟩ := isUntried_eq_true_iff.mp hi
  obtain ⟨c, hslot, hsaved⟩ := Option.bind_eq_some_iff.mp hg
  rw [← List.append_assoc] at hl
  exact ⟨c, g, _, post, hslot, hsaved, hl, hl.rest hslot, hpost⟩

/-- Threading a branch outward through slots that lie at the end of its way down begins with a swap.
What comes out has the other slots at the end of its own way down. -/
theorem Sound.rotate_cons (h : cp.Sound f.alt) {rest : List Nat}
    (his : i :: rest <:+ cp.untried f.alt) :
    ∃ g cp', cp.savedIn i = some g ∧ cp.rotate f (i :: rest) = cp'.rotate g rest ∧
      cp' = { cp with slots := cp.slots.setIfInBounds i ⟨rest.head?, some f⟩ } ∧
      cp'.Sound g.alt ∧ (g :: cp'.held).Perm (f :: cp.held) ∧ rest <:+ cp'.untried g.alt := by
  obtain ⟨c, g, pre, post, hslot, hsaved, hl, hchain, hpost⟩ := h.used.split_untried his
  have hg : cp.savedIn i = some g := by rw [savedIn_of_slot hslot, hsaved]
  have hi : cp.isUntried i = true := isUntried_eq_true_iff.mpr ⟨g, hg⟩
  have hlead : cp.Leads f.alt i := ⟨_, hl, by simp⟩
  have hhead : rest.head? = cp.innermost? c.below := by
    rw [hchain.innermost?_eq, ← hpost, List.head?_filter]
  obtain ⟨hsound, hperm⟩ := h.swap hslot hsaved hlead
  rw [← hhead] at hsound hperm
  refine ⟨g, cp.setSlot i ⟨rest.head?, some f⟩, hg, ?_, rfl, hsound, hperm, ?_⟩
  · simp only [ChoicePoints.rotate, hg, setSlot]
  -- the way down from `g` goes through slot `i` too, and then through the same slots as before
  · obtain ⟨pre', post', hl'⟩ := (h.saved_leads hg).split
    obtain ⟨-, rfl⟩ := List.cons.inj ((hl.drop (l := i :: post)).unique (hl'.drop (l := i :: _)))
    have hnotMem : i ∉ post.dropWhile (!cp.isUntried ·) := fun hmem =>
      (List.nodup_cons.mp (hl'.drop (l := i :: post)).nodup).1
        ((List.dropWhile_sublist _).subset hmem)
    have hbelow : cp.Chain (⟨rest.head?, some f⟩ : ChoicePoint).below
        (post.dropWhile (!cp.isUntried ·)) := by
      rw [hhead]
      exact hchain.prune
    have hnew := hl'.setSlot_at hslot hbelow hnotMem
    have hsame : (cp.setSlot i ⟨rest.head?, some f⟩).isUntried = cp.isUntried := by
      funext k
      rw [isUntried, isUntried, savedIn_setSlot hslot]
      split
      · next hik => rw [← hik, hg]; rfl
      · rfl
    rw [hnew.untried_eq, hsame, List.filter_append, List.filter_cons_of_pos hi,
      filter_dropWhile_isUntried, hpost]
    exact List.suffix_append_of_suffix (List.suffix_cons _ _)

/-- Whatever comes out at the end of a rotation, everything else is still held. -/
theorem Sound.rotate (h : cp.Sound f.alt) {is : List Nat} (his : is <:+ cp.untried f.alt) :
    (cp.rotate f is).2.Sound (cp.rotate f is).1.alt ∧
      ((cp.rotate f is).1 :: (cp.rotate f is).2.held).Perm (f :: cp.held) := by
  induction is generalizing cp f with
  | nil => exact ⟨h, .refl _⟩
  | cons i rest ih =>
    obtain ⟨g, cp', _, hrotate, _, hsound, hperm, hrest⟩ := h.rotate_cons his
    obtain ⟨hsound', hperm'⟩ := ih hsound hrest
    rw [hrotate]
    exact ⟨hsound', hperm'.trans hperm⟩

/-- Unlinking the taken choice points in front leaves the untried ones. -/
theorem Sound.untried_innermost? (h : cp.Sound top) :
    cp.untried (cp.innermost? top) = cp.untried top := by
  obtain ⟨l, hl⟩ := h.used.chain
  rw [hl.untried_eq, hl.prune.untried_eq, filter_dropWhile_isUntried]

/-- The slots that a delay threads a branch through are at the end of its way down. -/
theorem Sound.suffix_untried (h : cp.Sound top) :
    cp.untried top <:+ cp.untried (cp.innermost? top) := by
  rw [h.untried_innermost?]

/-- After a delay the branch that goes on and the alternatives held are those from before, the
taken choice points in front of the delayed branch apart. -/
theorem Sound.delay (h : cp.Sound f.alt) (strategy : Strategy) :
    (cp.delay strategy f).2.Sound (cp.delay strategy f).1.alt ∧
      ((cp.delay strategy f).1 :: (cp.delay strategy f).2.held).Perm
        ({ f with alt := cp.innermost? f.alt } :: cp.held) := by
  cases strategy with
  | depthFirst => exact ⟨h.prune, .refl _⟩
  | interleaved =>
    exact Sound.rotate (f := { f with alt := cp.innermost? f.alt }) h.prune h.suffix_untried

/-! ### Saving an alternative -/

/-- The next choice point gets the last free slot, or a new one if no slot is free. -/
theorem nextSlot_cases (cp : ChoicePoints) :
    cp.free.toList = cp.free.pop.toList ++ [cp.nextSlot] ∨
      cp.free.toList = [] ∧ cp.nextSlot = cp.slots.size := by
  rw [Array.toList_pop, nextSlot, ← Array.getLast?_toList]
  cases hlast : cp.free.toList.getLast? with
  | none => exact .inr ⟨List.getLast?_eq_none_iff.mp hlast, rfl⟩
  | some i => exact .inl (List.dropLast_append_getLast? i hlast).symm

/-- A slot is written in place, or added behind the last one. -/
theorem slot_put {slots : Array ChoicePoint} (hi : i ≤ slots.size) (k : Nat) :
    (put slots i c)[k]? = if i = k then some c else slots[k]? := by
  unfold put
  split
  · next hsize =>
    rw [Array.getElem?_push, hsize]
    simp only [eq_comm]
  · next hsize =>
    rw [Array.getElem?_setIfInBounds]
    have hlt : i < slots.size := by omega
    by_cases hik : i = k
    · simp [← hik, hlt]
    · simp [hik]

/-- The slot for the next choice point is empty, and no way down in use meets it. -/
theorem Sound.nextSlot_spec (h : cp.Sound top) :
    cp.nextSlot ≤ cp.slots.size ∧ cp.savedIn cp.nextSlot = none ∧
      (∀ k ∈ cp.free.pop, k ∈ cp.free ∧ k ≠ cp.nextSlot) ∧
      ∀ {top' l}, cp.Chain top' l → (∀ k ∈ l, k ∉ cp.free) → cp.nextSlot ∉ l := by
  have hnodup := h.free_nodup
  rcases cp.nextSlot_cases with hfree | ⟨hfree, hsize⟩
  · rw [hfree, List.nodup_append] at hnodup
    have hmem : cp.nextSlot ∈ cp.free := by
      rw [← Array.mem_toList_iff, hfree]
      simp
    obtain ⟨c, hslot, hnone⟩ := h.free_empty hmem
    refine ⟨(Array.getElem?_eq_some_iff.mp hslot).1.le, ?_, ?_, fun _ hused hk => hused _ hk hmem⟩
    · rw [savedIn_of_slot hslot, hnone]
    · intro k hk
      rw [← Array.mem_toList_iff] at hk
      refine ⟨?_, hnodup.2.2 k hk _ (List.mem_singleton_self _)⟩
      rw [← Array.mem_toList_iff, hfree]
      exact List.mem_append_left _ hk
  · refine ⟨hsize.le, ?_, ?_, fun hl _ hk => ?_⟩
    · simp [savedIn, hsize]
    · intro k hk
      rw [← Array.mem_toList_iff, Array.toList_pop, hfree] at hk
      cases hk
    · have hlt := hl.lt_size hk
      omega

/-- What `push` saves: the branch as it is, but resuming at `pc` on top of its own slot. -/
def alternative (cp : ChoicePoints) (f : Frame) (pc : Nat) : Frame :=
  { f with alt := some cp.nextSlot, cont := f.cont.resumeAt pc }

/-- Writing the next slot adds to what is held. -/
theorem Sound.held_put (h : cp.Sound top) {c : ChoicePoint} (hc : c.saved = some g) :
    ((put cp.slots cp.nextSlot c).toList.filterMap (·.saved)).Perm (g :: cp.held) := by
  obtain ⟨hle, hnone, _, _⟩ := h.nextSlot_spec
  unfold put
  split
  · simp only [Array.toList_push, List.filterMap_append, List.filterMap_cons, hc,
      List.filterMap_nil]
    exact List.perm_append_singleton _ _
  · have hlt : cp.nextSlot < cp.slots.size := by omega
    have hslot := Array.getElem?_eq_getElem hlt
    have hempty : cp.slots[cp.nextSlot].saved = none := by rwa [savedIn_of_slot hslot] at hnone
    simpa [held, setSlot, hempty, hc] using held_setSlot hslot c

/-- Saving writes the next slot, with the link of the branch and the alternative in it. -/
theorem Sound.slot_push (h : cp.Sound top) (f : Frame) (pc k : Nat) :
    (cp.push f pc).2.slots[k]? = if cp.nextSlot = k then
      some ⟨f.alt, some (cp.alternative f pc)⟩ else cp.slots[k]? :=
  slot_put h.nextSlot_spec.1 k

/-- Afterwards the next slot holds the alternative, and all others hold what they held. -/
theorem Sound.savedIn_push (h : cp.Sound top) (f : Frame) (pc k : Nat) :
    (cp.push f pc).2.savedIn k =
      if cp.nextSlot = k then some (cp.alternative f pc) else cp.savedIn k := by
  rw [savedIn, h.slot_push]
  split <;> rfl

/-- A way down through slots in use is as it was. -/
theorem Sound.chain_push (h : cp.Sound top) (f : Frame) (pc : Nat) {top' : Option Nat}
    {l : List Nat} (hl : cp.Chain top' l) (hused : ∀ k ∈ l, k ∉ cp.free) :
    (cp.push f pc).2.Chain top' l := by
  obtain ⟨-, -, -, hunused⟩ := h.nextSlot_spec
  refine hl.congr fun k hk => ?_
  have hik : cp.nextSlot ≠ k := fun hik => hunused hl hused (hik ▸ hk)
  rw [h.slot_push, if_neg hik]

/-- A way down through slots in use does not meet the new slot, so it stays in use. -/
theorem Sound.used_push (h : cp.Sound top) (f : Frame) (pc : Nat) {top' : Option Nat}
    (hused : cp.Used top') : (cp.push f pc).2.Used top' := by
  obtain ⟨l, hl, hfree⟩ := hused
  obtain ⟨-, -, hpop, -⟩ := h.nextSlot_spec
  exact ⟨l, h.chain_push f pc hl hfree, fun k hk hmem => hfree k hk (hpop k hmem).1⟩

/-- Links that are in use lead to the slots that they led to. -/
theorem Sound.leads_push (h : cp.Sound top) (f : Frame) (pc : Nat) {top' : Option Nat} {k : Nat}
    (hused : cp.Used top') (hleads : cp.Leads top' k) : (cp.push f pc).2.Leads top' k := by
  obtain ⟨l, hl, hfree⟩ := hused
  obtain ⟨l', hl', hk⟩ := hleads
  obtain rfl := hl.unique hl'
  exact ⟨l, h.chain_push f pc hl hfree, hk⟩

/-- The way down from the new choice point goes on with that of the branch. -/
theorem Sound.chain_push_top (h : cp.Sound f.alt) (pc : Nat) {l : List Nat}
    (hl : cp.Chain f.alt l) (hfree : ∀ k ∈ l, k ∉ cp.free) :
    (cp.push f pc).2.Chain (some cp.nextSlot) (cp.nextSlot :: l) :=
  .cons (by rw [h.slot_push, if_pos rfl]) (h.chain_push f pc hl hfree)

/-- From the new choice point too the way leads down through slots in use. -/
theorem Sound.used_push_top (h : cp.Sound f.alt) (pc : Nat) :
    (cp.push f pc).2.Used (some cp.nextSlot) := by
  obtain ⟨-, -, hpop, -⟩ := h.nextSlot_spec
  obtain ⟨l, hl, hfree⟩ := h.used
  refine ⟨_, h.chain_push_top pc hl hfree, fun k hk hmem => ?_⟩
  rcases List.mem_cons.mp hk with rfl | hk
  · exact (hpop _ hmem).2 rfl
  · exact hfree k hk (hpop k hmem).1

/-- What the branch reached is reached from the new choice point. -/
theorem Sound.reaches_push (h : cp.Sound f.alt) (pc : Nat) {k : Nat}
    (hk : cp.Reaches f.alt k) : (cp.push f pc).2.Reaches (some cp.nextSlot) k := by
  obtain ⟨-, hnone, -, -⟩ := h.nextSlot_spec
  obtain ⟨l, hl, hfree⟩ := h.used
  induction hk with
  | direct hlead =>
    obtain ⟨l', hl', hk⟩ := hlead
    obtain rfl := hl.unique hl'
    exact .direct ⟨_, h.chain_push_top pc hl hfree, List.mem_cons_of_mem _ hk⟩
  | @through j k f' _ hf hlead ih =>
    have hij : cp.nextSlot ≠ j := by
      rintro rfl
      rw [hnone] at hf
      cases hf
    have hf' : (cp.push f pc).2.savedIn j = some f' := by rw [h.savedIn_push, if_neg hij, hf]
    exact .through ih hf' (h.leads_push f pc (h.saved_used hf) hlead)

/-- A choice point goes into an unused slot, above those of the branch. -/
theorem Sound.push (h : cp.Sound f.alt) (pc : Nat) :
    (cp.push f pc).2.Sound (some (cp.push f pc).1) ∧
      (cp.push f pc).2.held.Perm (cp.alternative f pc :: cp.held) := by
  obtain ⟨-, -, hpop, -⟩ := h.nextSlot_spec
  obtain ⟨l, hl, hfree⟩ := h.used
  have htop := h.chain_push_top pc hl hfree
  refine ⟨⟨h.used_push_top pc, ?_, ?_, ?_, ?_, ?_⟩, h.held_put rfl⟩
  -- the frame saved last is in the new slot, any other frame is where it was
  · intro k f' hk
    rw [h.savedIn_push] at hk
    split at hk
    · obtain rfl := Option.some.inj hk
      exact h.used_push_top pc
    · exact h.used_push f pc (h.saved_used hk)
  · intro k f' hk
    rw [h.savedIn_push] at hk
    split at hk
    · next hik =>
      obtain rfl := Option.some.inj hk
      exact ⟨_, htop, by simp [hik]⟩
    · exact h.leads_push f pc (h.saved_used hk) (h.saved_leads hk)
  · intro k f' hk
    rw [h.savedIn_push] at hk
    split at hk
    · next hik => exact .direct ⟨_, htop, by simp [hik]⟩
    · exact h.reaches_push pc (h.reaches hk)
  · have hfree' : (cp.push f pc).2.free.toList = cp.free.toList.dropLast := Array.toList_pop
    rw [hfree']
    exact h.free_nodup.sublist (List.dropLast_sublist _)
  · intro k hk
    obtain ⟨hmem, hne⟩ := hpop k hk
    obtain ⟨c, hc, hempty⟩ := h.free_empty hmem
    exact ⟨c, by rw [h.slot_push, if_neg hne.symm, hc], hempty⟩

end LogicMachine.ChoicePoints
