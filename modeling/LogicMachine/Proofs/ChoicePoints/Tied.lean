import LogicMachine.Proofs.ChoicePoints.Links

/-!
# How slots are tied

The slots that a branch leads to are counted by their links. A slot is linked once by what it was
made for: it lies on one way down. While its alternative is untried it is linked once more, by that
alternative. What unlinks the taken choice points of a way down therefore unlinks them for good: no
other link leads to them.
-/

namespace LogicMachine.ChoicePoints

variable {cp cp' : ChoicePoints} {top top' : Option Nat} {kept rest ts l : List Nat}
  {i k p : Nat} {f g : Frame} {root : Option Frame}

/-- Among the slots `kept` are all with an untried alternative. The branch that stands on `top` and
the slots `kept` lead to these slots only: to each of them by one link, and by one more as long as
its alternative is untried. -/
structure Tied (cp : ChoicePoints) (top : Option Nat) (kept : List Nat) : Prop where
  nodup : kept.Nodup
  untried : ∀ i, cp.isUntried i = true → i ∈ kept
  used : ∀ i ∈ kept, i < cp.slots.size ∧ i ∉ cp.free
  count_le : ∀ k, (top.toList ++ kept.flatMap cp.links).count k ≤
    kept.count k + (cp.isUntried k).toNat

/-- Without choice points nothing is linked. -/
theorem tied_empty : empty.Tied none [] where
  nodup := .nil
  untried i h := by simp [isUntried, savedIn, empty] at h
  used := nofun
  count_le := by simp

/-- The taken slots on a way down that a delay unlinks. -/
def cutOff (cp : ChoicePoints) : Strategy → List Nat → List Nat
  | .depthFirst, l => l.takeWhile (!cp.isUntried ·)
  | .interleaved, l => l.filter (!cp.isUntried ·)

namespace Tied

/-- Whatever is linked is kept. -/
theorem mem_of_link (h : cp.Tied top kept) (hk : k ∈ top.toList ++ kept.flatMap cp.links) :
    k ∈ kept := by
  have hpos := List.count_pos_iff.mpr hk
  have hle := h.count_le k
  cases huntried : cp.isUntried k with
  | true => exact h.untried k huntried
  | false =>
    rw [huntried, Bool.toNat_false] at hle
    exact List.count_pos_iff.mp (by omega)

/-- What a kept slot is linked to is kept. -/
theorem mem_of_links (h : cp.Tied top kept) (hi : i ∈ kept) (hk : k ∈ cp.links i) : k ∈ kept :=
  h.mem_of_link (List.mem_append_right _ (List.mem_flatMap.mpr ⟨i, hi, hk⟩))

/-- The slot that the branch stands on is kept. -/
theorem mem_of_top (h : cp.Tied top kept) (hi : top = some i) : i ∈ kept :=
  h.mem_of_link (List.mem_append_left _ (by rw [hi]; exact List.mem_singleton_self i))

/-- The slots on the way down of the branch are kept. -/
theorem mem_of_chain (h : cp.Tied top kept) (hl : cp.Chain top l) : ∀ i ∈ l, i ∈ kept :=
  hl.forall_mem (fun _ => h.mem_of_top) fun _ hi _ => h.mem_of_links hi

/-- So is all that a sweep marks. -/
theorem mem_of_reachable (h : cp.Tied (root.bind (·.alt)) kept) :
    ∀ i ∈ cp.reachable root, i ∈ kept :=
  markWithin_induction (fun _ hi => h.mem_of_top (Option.mem_toList.mp hi)) (by simp)
    fun _ hi _ => h.mem_of_links hi

/-- A sweep leaves no more slots in use than are kept. -/
theorem survivors_le (h : cp.Tied (root.bind (·.alt)) kept) :
    (cp.sweep root).survivors ≤ kept.length := by
  have hslots : (cp.sweep root).slots.size ≤ cp.keptSize root := by
    have hextract : (cp.sweep root).slots = (cp.slots.extract 0 (cp.keptSize root)).mapIdx
        fun i c => if (cp.reachable root).contains i then c else {} := rfl
    rw [hextract, Array.size_mapIdx, Array.size_extract]
    omega
  have hfree : (cp.sweep root).free.size =
      ((List.range (cp.keptSize root)).filter (!(cp.reachable root).contains ·)).length := by
    have hfilter : (cp.sweep root).free =
        (Array.range (cp.keptSize root)).filter (!(cp.reachable root).contains ·) := rfl
    rw [hfilter, ← Array.length_toList, Array.toList_filter, Array.toList_range]
  have hsplit := List.length_eq_length_filter_add (l := List.range (cp.keptSize root))
    ((cp.reachable root).contains ·)
  have hmarked : ((List.range (cp.keptSize root)).filter
      ((cp.reachable root).contains ·)).length ≤ kept.length := by
    refine (List.subperm_of_subset (List.nodup_range.filter _) fun i hi => ?_).length_le
    exact h.mem_of_reachable i (Std.TreeSet.mem_iff_contains.mpr (List.mem_filter.mp hi).2)
  rw [List.length_range] at hsplit
  have hsurvivors : (cp.sweep root).survivors =
      (cp.sweep root).slots.size - (cp.sweep root).free.size := rfl
  omega

/-! ### The operations -/

/-- Taken slots are cut out of what is kept, once no link leads to them any more. -/
theorem cut (h : cp.Tied top kept) (hkept : (ts ++ rest).Perm kept)
    (hts : ∀ i ∈ ts, cp.isUntried i = false) (huntried : cp'.isUntried = cp.isUntried)
    (hsize : cp'.slots.size = cp.slots.size) (hfree : cp'.free = cp.free)
    (hcount : ∀ k, (top'.toList ++ rest.flatMap cp'.links).count k + ts.count k =
      (top.toList ++ kept.flatMap cp.links).count k) : cp'.Tied top' rest := by
  refine ⟨?_, fun i hi => ?_, fun i hi => ?_, fun k => ?_⟩
  · exact (List.nodup_append.mp (hkept.nodup_iff.mpr h.nodup)).2.1
  · rw [huntried] at hi
    have hmem := hkept.mem_iff.mpr (h.untried i hi)
    refine (List.mem_append.mp hmem).resolve_left fun hmem => ?_
    rw [hts i hmem] at hi
    cases hi
  · rw [hsize, hfree]
    exact h.used i (hkept.mem_iff.mp (List.mem_append_right _ hi))
  · have hle := h.count_le k
    have hsplit := hkept.count_eq k
    rw [List.count_append] at hsplit
    rw [huntried]
    have := hcount k
    omega

/-- What is left of the kept slots when some are cut out. -/
private theorem exists_rest (hts : ts.Nodup) (hsub : ts ⊆ kept) :
    ∃ rest, (ts ++ rest).Perm kept :=
  ⟨_, List.subperm_append_diff_self_of_count_le
    (List.subperm_ext_iff.mp (List.subperm_of_subset hts hsub))⟩

/-- Unlinking the taken slots in front of a way down unlinks them for good. -/
theorem prune (h : cp.Tied top kept) (hl : cp.Chain top l) :
    ∃ rest, cp.Tied (cp.innermost? top) rest ∧
      rest.length + (l.takeWhile (!cp.isUntried ·)).length = kept.length := by
  have htaken : ∀ i ∈ l.takeWhile (!cp.isUntried ·), cp.isUntried i = false := fun i hi => by
    simpa using List.mem_takeWhile_imp hi
  obtain ⟨rest, hrest⟩ := exists_rest (hl.nodup.sublist (List.takeWhile_sublist _))
    fun i hi => h.mem_of_chain hl i ((List.takeWhile_sublist _).subset hi)
  refine ⟨rest, h.cut hrest htaken rfl rfl rfl fun k => ?_, ?_⟩
  · have hlinks := (hrest.flatMap_right cp.links).count_eq k
    have hbelow := (List.takeWhile_append_dropWhile (p := (!cp.isUntried ·)) (l := l)).symm ▸ hl
    have hcount := Chain.count_belowOf hbelow k
    rw [List.flatMap_append, flatMap_links_of_taken htaken] at hlinks
    rw [hl.prune.head?_eq] at hcount
    rw [List.count_append] at hlinks ⊢
    rw [List.count_append]
    omega
  · have hlength := hrest.length_eq
    rw [List.length_append] at hlength
    omega

/-- To take the alternative of the slot on top takes one of its two links away. -/
theorem clear (h : cp.Tied (some p) kept) (hg : cp.savedIn p = some g) :
    (cp.clear p).Tied g.alt kept := by
  obtain ⟨c, hslot, hsaved⟩ := Option.bind_eq_some_iff.mp hg
  refine ⟨h.nodup, fun k hk => ?_, fun k hk => ?_, fun k => ?_⟩
  · rw [isUntried_clear] at hk
    split at hk
    · cases hk
    · exact h.untried k hk
  · rw [clear_eq_setSlot hslot, setSlot, Array.size_setIfInBounds]
    exact h.used k hk
  · have hle := h.count_le k
    have hlinks := count_links_setSlot hslot { c with saved := none } h.nodup
      (h.mem_of_top rfl) k
    rw [← clear_eq_setSlot hslot, links_of_slot hslot, hsaved] at hlinks
    simp only [List.count_append, Option.bind_some, Option.bind_none, Option.toList_none,
      List.count_nil, Option.toList_some, List.count_singleton, beq_iff_eq] at hlinks hle ⊢
    rw [isUntried_clear]
    by_cases hpk : p = k
    · subst hpk
      have hp : cp.isUntried p = true := isUntried_eq_true_iff.mpr ⟨g, hg⟩
      simp only [hp, if_true, Bool.toNat_true, Bool.toNat_false] at hle ⊢
      omega
    · simp only [hpk, if_false] at hle ⊢
      omega

/-- A delay unlinks taken slots for good: depth first those in front, and otherwise all on the way
down. -/
theorem delay (h : cp.Tied f.alt kept) (hsound : cp.Sound f.alt) (hl : cp.Chain f.alt l)
    (strategy : Strategy) :
    ∃ rest, (cp.delay strategy f).2.Tied (cp.delay strategy f).1.alt rest ∧
      rest.length + (cp.cutOff strategy l).length = kept.length := by
  cases strategy with
  | depthFirst => exact h.prune hl
  | interleaved =>
    have htaken : ∀ i ∈ l.filter (!cp.isUntried ·), cp.isUntried i = false := fun i hi => by
      simpa using (List.mem_filter.mp hi).2
    have hkept := h.mem_of_chain hl
    obtain ⟨rest, hrest⟩ := exists_rest (hl.nodup.filter (!cp.isUntried ·))
      fun i hi => hkept i (List.mem_of_mem_filter hi)
    have his : ∀ i ∈ cp.untried f.alt, i ∈ kept := fun i hi =>
      hkept i (List.mem_of_mem_filter (hl.untried_eq ▸ hi))
    let pruned : Frame := { f with alt := cp.innermost? f.alt }
    have hprune : cp.Sound pruned.alt := hsound.prune
    have hsuffix : cp.untried f.alt <:+ cp.untried pruned.alt := hsound.suffix_untried
    have hdelay : cp.delay .interleaved f = cp.rotate pruned (cp.untried f.alt) := rfl
    obtain ⟨huntried, hsize, hfree, hsame⟩ := hprune.rotate_slots hsuffix
    rw [hdelay]
    refine ⟨rest, h.cut hrest htaken huntried hsize hfree fun k => ?_, ?_⟩
    · have hrotate := hprune.count_rotate hsuffix h.nodup his k
      have hlinks := (hrest.flatMap_right
        (cp.rotate pruned (cp.untried f.alt)).2.links).count_eq k
      have hcut : (l.filter (!cp.isUntried ·)).flatMap
          (cp.rotate pruned (cp.untried f.alt)).2.links =
          (l.filter (!cp.isUntried ·)).flatMap cp.belowOf := by
        rw [← flatMap_links_of_taken htaken]
        refine List.flatMap_congr fun i hi => links_congr (hsame i fun hmem => ?_)
        rw [hl.untried_eq] at hmem
        have hnone := htaken i hi
        rw [(List.mem_filter.mp hmem).2] at hnone
        cases hnone
      -- on the whole way down, what is linked below the slots are the slots behind the top
      have hall : cp.Chain f.alt (l ++ []) := by rwa [List.append_nil]
      have hway := hall.count_belowOf k
      have hsplit := List.filter_append_perm cp.isUntried l
      have hcount := hsplit.count_eq k
      have hbelow := (hsplit.flatMap_right cp.belowOf).count_eq k
      rw [List.flatMap_append, hcut] at hlinks
      rw [head?_untried] at hrotate
      rw [List.flatMap_append] at hbelow
      rw [← hl.untried_eq] at hcount hbelow
      simp only [List.count_append, List.head?_nil, Option.toList_none, List.count_nil]
        at hrotate hlinks hway hcount hbelow ⊢
      have hpruned : pruned.alt = cp.innermost? f.alt := rfl
      rw [hpruned] at hrotate
      omega
    · have hlength := hrest.length_eq
      rw [List.length_append] at hlength
      rw [cutOff]
      omega

/-- A branch that fails leaves the slot of the alternative that is taken, and nothing else, to be
unlinked later. -/
theorem fail (h : cp.Tied f.alt kept) (hsound : cp.Sound f.alt)
    (hfail : cp.fail f = (some g, cp')) :
    ∃ p rest, cp.savedIn p = some g ∧ cp' = cp.clear p ∧ cp'.Tied g.alt rest ∧
      rest.length ≤ kept.length := by
  unfold ChoicePoints.fail at hfail
  cases hp : cp.innermost? f.alt with
  | none => simp [hp] at hfail
  | some p =>
    rw [hp] at hfail
    obtain ⟨hg, rfl⟩ := Prod.mk.inj hfail
    obtain ⟨l, hl⟩ := hsound.used.chain
    obtain ⟨rest, hrest, hlength⟩ := h.prune hl
    rw [hp] at hrest
    exact ⟨p, rest, hg, rfl, hrest.clear hg, by omega⟩

/-- If the branch that comes out is delayed, its slot is unlinked at once. -/
theorem fail_delay (h : cp.Tied f.alt kept) (hsound : cp.Sound f.alt) {strategy : Strategy}
    (hup : strategy = .depthFirst → ∀ i g, cp.savedIn i = some g → g.alt = some i)
    (hfail : cp.fail f = (some g, cp')) :
    ∃ rest, (cp'.delay strategy g).2.Tied (cp'.delay strategy g).1.alt rest ∧
      rest.length < kept.length := by
  obtain ⟨p, left, hg, rfl, hleft, hlength⟩ := h.fail hsound hfail
  have hsound' := (hsound.fail_some hfail).1
  obtain ⟨l, hl, hp⟩ := hsound.saved_leads hg
  have hl' : (cp.clear p).Chain g.alt l := hl.clear p
  obtain ⟨rest, hrest, hcut⟩ := hleft.delay hsound' hl' strategy
  have htaken : (cp.clear p).isUntried p = false := by rw [isUntried_clear, if_pos rfl]
  have hmem : p ∈ (cp.clear p).cutOff strategy l := by
    cases strategy with
    | depthFirst =>
      have hhead := hl.head?_eq
      rw [hup rfl p g hg, List.head?_eq_some_iff] at hhead
      obtain ⟨post, rfl⟩ := hhead
      rw [cutOff, List.takeWhile_cons_of_pos (by simp [htaken])]
      exact List.mem_cons_self
    | interleaved => exact List.mem_filter.mpr ⟨hp, by simp [htaken]⟩
  have hpos := List.length_pos_of_mem hmem
  exact ⟨rest, hrest, by omega⟩

/-- A new choice point is linked twice: the branch stands on it, and so does the alternative. -/
theorem push (h : cp.Tied f.alt kept) (hsound : cp.Sound f.alt) (pc : Nat) :
    (cp.push f pc).2.Tied (some (cp.push f pc).1) (cp.nextSlot :: kept) := by
  obtain ⟨-, hnone, hpop, -⟩ := hsound.nextSlot_spec
  -- a kept slot is in use, and the new choice point takes an unused one
  have hnotMem : cp.nextSlot ∉ kept := by
    intro hmem
    obtain ⟨hlt, hfree⟩ := h.used _ hmem
    rcases cp.nextSlot_cases with hlast | ⟨-, hsize⟩
    · rw [← Array.mem_toList_iff, hlast] at hfree
      simp at hfree
    · omega
  have huntried : ∀ k, (cp.push f pc).2.isUntried k =
      (decide (cp.nextSlot = k) || cp.isUntried k) := by
    intro k
    rw [isUntried, hsound.savedIn_push, isUntried]
    split <;> simp_all
  have hslot : ∀ k, cp.nextSlot ≠ k → (cp.push f pc).2.slots[k]? = cp.slots[k]? := fun k hk => by
    rw [hsound.slot_push, if_neg hk]
  have hself : (cp.push f pc).2.slots[cp.nextSlot]? =
      some ⟨f.alt, some (cp.alternative f pc)⟩ := by rw [hsound.slot_push, if_pos rfl]
  refine ⟨List.nodup_cons.mpr ⟨hnotMem, h.nodup⟩, fun k hk => ?_, fun k hk => ?_, fun k => ?_⟩
  · rw [huntried, Bool.or_eq_true, decide_eq_true_eq] at hk
    exact hk.elim (fun hk => hk ▸ List.mem_cons_self)
      fun hk => List.mem_cons_of_mem _ (h.untried k hk)
  · rcases List.mem_cons.mp hk with rfl | hk
    · exact ⟨(Array.getElem?_eq_some_iff.mp hself).1, fun hmem => (hpop _ hmem).2 rfl⟩
    · obtain ⟨hlt, hfree⟩ := h.used k hk
      have hold := hslot k fun hik => hnotMem (hik ▸ hk)
      rw [Array.getElem?_eq_getElem hlt] at hold
      exact ⟨(Array.getElem?_eq_some_iff.mp hold).1, fun hmem => hfree (hpop k hmem).1⟩
  -- links to the new slot: from the branch and from its alternative; the others are unchanged
  · have hle := h.count_le k
    have hlinks : kept.flatMap (cp.push f pc).2.links = kept.flatMap cp.links :=
      List.flatMap_congr fun k hk => links_congr (hslot k fun hik => hnotMem (hik ▸ hk))
    have htop : (cp.push f pc).1 = cp.nextSlot := rfl
    have halt : (cp.alternative f pc).alt = some cp.nextSlot := rfl
    rw [List.flatMap_cons, hlinks, links_of_slot hself, huntried, htop]
    simp only [List.count_append, Option.bind_some, halt, Option.toList_some, List.count_cons,
      List.count_nil, beq_iff_eq] at hle ⊢
    by_cases hik : cp.nextSlot = k
    · subst hik
      rw [isUntried, hnone, List.count_eq_zero_of_not_mem hnotMem] at hle
      simp only [Option.isSome_none, Bool.toNat_false] at hle
      simp only [if_true, decide_true, Bool.true_or, Bool.toNat_true]
      omega
    · simp only [hik, if_false, decide_false, Bool.false_or]
      omega

/-- What a sweep frees was not linked. -/
theorem sweep (h : cp.Tied (root.bind (·.alt)) kept) (hsound : cp.Sound (root.bind (·.alt))) :
    ∃ rest, (cp.sweep root).Tied (root.bind (·.alt)) rest ∧ rest.length ≤ kept.length := by
  have hsame : ∀ k, (cp.sweep root).isUntried k = cp.isUntried k := fun k => by
    rw [isUntried, isUntried, savedIn_sweep fun k f hf => hsound.mem_reachable hf]
  have hmem : ∀ {k}, k ∈ kept.filter ((cp.reachable root).contains ·) ↔
      k ∈ kept ∧ k ∈ cp.reachable root := by
    intro k
    rw [List.mem_filter, Std.TreeSet.contains_iff_mem]
  have hlinks : (kept.filter ((cp.reachable root).contains ·)).flatMap (cp.sweep root).links =
      (kept.filter ((cp.reachable root).contains ·)).flatMap cp.links :=
    List.flatMap_congr fun k hk => links_congr (slot_sweep_of_mem (hmem.mp hk).2)
  refine ⟨_, ⟨h.nodup.filter _, fun k hk => ?_, fun k hk => ?_, fun k => ?_⟩,
    List.length_filter_le ((cp.reachable root).contains ·) kept⟩
  · rw [hsame] at hk
    obtain ⟨f, hf⟩ := isUntried_eq_true_iff.mp hk
    exact hmem.mpr ⟨h.untried k hk, hsound.mem_reachable hf⟩
  · obtain ⟨hk, hmarked⟩ := hmem.mp hk
    have hslot := slot_sweep_of_mem hmarked
    rw [Array.getElem?_eq_getElem (h.used k hk).1] at hslot
    exact ⟨(Array.getElem?_eq_some_iff.mp hslot).1,
      fun hfree => (mem_free_sweep.mp hfree).2 hmarked⟩
  · rw [hlinks, hsame]
    by_cases hmarked : k ∈ cp.reachable root
    · have hle := h.count_le k
      have hsub := ((List.filter_sublist
        (p := ((cp.reachable root).contains ·)) (l := kept)).flatMap cp.links).count_le k
      rw [List.count_filter (Std.TreeSet.mem_iff_contains.mp hmarked)]
      rw [List.count_append] at hle ⊢
      omega
    · -- nothing that is marked leads to a slot that is not
      rw [List.count_eq_zero_of_not_mem]
      · exact Nat.zero_le _
      · intro hk
        rcases List.mem_append.mp hk with hk | hk
        · exact hmarked ((cp.reachable_closed root).1 k (Option.mem_toList.mp hk))
        · obtain ⟨i, hi, hk⟩ := List.mem_flatMap.mp hk
          exact hmarked ((cp.reachable_closed root).2 i (hmem.mp hi).2 k hk)

end Tied

end LogicMachine.ChoicePoints
