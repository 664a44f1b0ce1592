import Std.Data.TreeSet.Lemmas
import LogicMachine.Proofs.ChoicePoints.Operations

/-!
# Sweeping

A sweep marks what the running branch leads to and frees the rest. The budget of the marking is
large enough, so that what is marked is closed under links; a slot outside has no alternative in it
and lies on no way down in use.
-/

namespace LogicMachine.ChoicePoints

variable {cp : ChoicePoints} {top : Option Nat} {i : Nat} {root : Option Frame}

/-! ### Marking -/

/-- The number of slots that are not marked. -/
def unmarked (cp : ChoicePoints) (marked : Std.TreeSet Nat) : Nat :=
  ((Finset.range cp.slots.size).filter (· ∉ marked)).card

/-- Beyond the last slot there are no links. -/
theorem links_eq_nil (hi : cp.slots.size ≤ i) : cp.links i = [] := by
  simp [links, hi]

/-- A slot has at most two links: one downward, and one of the frame saved in it. -/
theorem length_links_le (cp : ChoicePoints) (i : Nat) : (cp.links i).length ≤ 2 := by
  unfold links
  split
  · next c _ =>
    cases c.below <;> cases c.saved.bind (·.alt) <;> simp
  · simp

/-- Marking a slot for the first time pays for the links that it adds to the work. -/
theorem unmarked_insert (cp : ChoicePoints) {marked : Std.TreeSet Nat} (hi : i ∉ marked) :
    (cp.links i).length + 2 * cp.unmarked (marked.insert i) ≤ 2 * cp.unmarked marked := by
  by_cases hlt : i < cp.slots.size
  · have hfilter : (Finset.range cp.slots.size).filter (· ∉ marked.insert i) =
        ((Finset.range cp.slots.size).filter (· ∉ marked)).erase i := by
      ext k
      simp only [Finset.mem_filter, Finset.mem_erase, Std.TreeSet.mem_insert, Nat.compare_eq_eq]
      grind
    have hmem : i ∈ (Finset.range cp.slots.size).filter (· ∉ marked) := by simp [hlt, hi]
    have hpos : 0 < cp.unmarked marked := Finset.card_pos.mpr ⟨i, hmem⟩
    have hcard : cp.unmarked (marked.insert i) = cp.unmarked marked - 1 := by
      rw [unmarked, hfilter, Finset.card_erase_of_mem hmem, unmarked]
    have hlinks := cp.length_links_le i
    omega
  · rw [links_eq_nil (by omega)]
    have hsub : (Finset.range cp.slots.size).filter (· ∉ marked.insert i) ⊆
        (Finset.range cp.slots.size).filter (· ∉ marked) := by
      intro k hk
      simp only [Finset.mem_filter, Std.TreeSet.mem_insert, Nat.compare_eq_eq] at hk ⊢
      exact ⟨hk.1, fun hmem => hk.2 (.inr hmem)⟩
    have hcard : cp.unmarked (marked.insert i) ≤ cp.unmarked marked := Finset.card_le_card hsub
    rw [List.length_nil]
    omega

/-- With budget enough, everything in the work is marked, and with a slot also what it leads to. -/
theorem markWithin_closed (cp : ChoicePoints) {budget : Nat} {todo : List Nat}
    {marked : Std.TreeSet Nat}
    (hbudget : todo.length + 2 * cp.unmarked marked ≤ budget)
    (hclosed : ∀ i ∈ marked, ∀ k ∈ cp.links i, k ∈ marked ∨ k ∈ todo) :
    (∀ i, i ∈ marked ∨ i ∈ todo → i ∈ cp.markWithin budget todo marked) ∧
      ∀ i ∈ cp.markWithin budget todo marked, ∀ k ∈ cp.links i,
        k ∈ cp.markWithin budget todo marked := by
  -- induction on the budget: taking a slot from the work costs one, and the two that a new mark sets
  -- free pay for the slots, at most two, that it leads to
  induction budget generalizing todo marked with
  | zero =>
    obtain rfl : todo = [] := List.length_eq_zero_iff.mp (by omega)
    simpa [markWithin] using hclosed
  | succ budget ih =>
    cases todo with
    | nil => simpa [markWithin] using hclosed
    | cons i todo =>
      rw [List.length_cons] at hbudget
      unfold markWithin
      split
      · next hmem =>
        rw [← Std.TreeSet.mem_iff_contains] at hmem
        have hskip : ∀ k ∈ marked, ∀ n ∈ cp.links k, n ∈ marked ∨ n ∈ todo := by
          grind
        obtain ⟨hall, hlinks⟩ := ih (by omega) hskip
        exact ⟨by grind, hlinks⟩
      · next hmem =>
        rw [← Std.TreeSet.mem_iff_contains] at hmem
        have hpaid := cp.unmarked_insert hmem
        have hwork : ∀ j ∈ marked.insert i, ∀ k ∈ cp.links j,
            k ∈ marked.insert i ∨ k ∈ cp.links i ++ todo := by
          intro j hj k hk
          rw [Std.TreeSet.mem_insert, Nat.compare_eq_eq] at hj
          rcases hj with rfl | hj
          · exact .inr (List.mem_append_left _ hk)
          · rcases hclosed j hj k hk with hmarked | hmarked
            · exact .inl (Std.TreeSet.mem_insert.mpr (.inr hmarked))
            · rcases List.mem_cons.mp hmarked with rfl | htodo
              · exact .inl Std.TreeSet.mem_insert_self
              · exact .inr (List.mem_append_right _ htodo)
        obtain ⟨hall, hlinks⟩ := ih (by rw [List.length_append]; omega) hwork
        refine ⟨fun j hj => hall j ?_, hlinks⟩
        rw [Std.TreeSet.mem_insert, Nat.compare_eq_eq, List.mem_append]
        grind

/-- What holds of the work and passes along links holds of everything marked. -/
theorem markWithin_induction {motive : Nat → Prop} {budget : Nat} {todo : List Nat}
    {marked : Std.TreeSet Nat} (htodo : ∀ i ∈ todo, motive i) (hmarked : ∀ i ∈ marked, motive i)
    (hlinks : ∀ i, motive i → ∀ k ∈ cp.links i, motive k) :
    ∀ i ∈ cp.markWithin budget todo marked, motive i := by
  induction budget generalizing todo marked with
  | zero => exact hmarked
  | succ budget ih =>
    cases todo with
    | nil => exact hmarked
    | cons i todo =>
      have hi := htodo i List.mem_cons_self
      have hrest : ∀ k ∈ todo, motive k := fun k hk => htodo k (List.mem_cons_of_mem _ hk)
      unfold markWithin
      split
      · exact ih hrest hmarked
      · refine ih ?_ ?_
        · intro k hk
          exact (List.mem_append.mp hk).elim (hlinks i hi k) (hrest k)
        · intro k hk
          rw [Std.TreeSet.mem_insert, Nat.compare_eq_eq] at hk
          exact hk.elim (fun hik => hik ▸ hi) (hmarked k)

/-! ### Sweeping -/

/-- A slot is linked to the slot below it and to the one that its saved frame stands on. -/
theorem mem_links_iff {k : Nat} :
    k ∈ cp.links i ↔ ∃ c, cp.slots[i]? = some c ∧
      (c.below = some k ∨ ∃ f, c.saved = some f ∧ f.alt = some k) := by
  unfold links
  cases cp.slots[i]? with
  | none => simp
  | some c => simp [Option.bind_eq_some_iff]

/-- The budget of a sweep is enough to visit all slots. -/
theorem budget_le (cp : ChoicePoints) (root : Option Frame) :
    (root.bind (·.alt)).toList.length + 2 * cp.unmarked ∅ ≤ 2 * cp.slots.size + 1 := by
  have hunmarked : cp.unmarked ∅ ≤ cp.slots.size := by
    have hcard := Finset.card_filter_le (Finset.range cp.slots.size) (· ∉ (∅ : Std.TreeSet Nat))
    rwa [Finset.card_range] at hcard
  cases root.bind (·.alt) <;> simp <;> omega

/-- What is marked contains the top of the root and is closed under links. -/
theorem reachable_closed (cp : ChoicePoints) (root : Option Frame) :
    (∀ i, root.bind (·.alt) = some i → i ∈ cp.reachable root) ∧
      ∀ i ∈ cp.reachable root, ∀ k ∈ cp.links i, k ∈ cp.reachable root := by
  obtain ⟨htodo, hlinks⟩ := cp.markWithin_closed (cp.budget_le root) (by simp)
  exact ⟨fun i hi => htodo i (.inr (by simp [hi])), hlinks⟩

/-- What holds where a way down begins and passes along links holds all the way down. -/
theorem Chain.forall_mem {motive : Nat → Prop} {l : List Nat} (h : cp.Chain top l)
    (htop : ∀ i, top = some i → motive i)
    (hlinks : ∀ i, motive i → ∀ k ∈ cp.links i, motive k) : ∀ i ∈ l, motive i := by
  induction h with
  | nil => nofun
  | cons hslot _ ih =>
    have hhead := htop _ rfl
    exact List.forall_mem_cons.mpr ⟨hhead, ih fun k hk =>
      hlinks _ hhead k (mem_links_iff.mpr ⟨_, hslot, .inl hk⟩)⟩

/-- The way down from a marked slot is marked. -/
theorem Chain.mem_reachable {l : List Nat} (h : cp.Chain top l)
    (htop : ∀ i, top = some i → i ∈ cp.reachable root) : ∀ i ∈ l, i ∈ cp.reachable root :=
  h.forall_mem htop (cp.reachable_closed root).2

/-- Every slot with an alternative that the root reaches is marked. -/
theorem Reaches.mem_reachable (h : cp.Reaches (root.bind (·.alt)) i) :
    i ∈ cp.reachable root := by
  induction h with
  | direct hlead =>
    obtain ⟨l, hl, hi⟩ := hlead
    exact hl.mem_reachable (cp.reachable_closed root).1 _ hi
  | through _ hf hlead ih =>
    obtain ⟨c, hslot, hsaved⟩ := Option.bind_eq_some_iff.mp hf
    obtain ⟨l, hl, hi⟩ := hlead
    refine hl.mem_reachable (fun k hk => ?_) _ hi
    exact (cp.reachable_closed root).2 _ ih k
      (mem_links_iff.mpr ⟨c, hslot, .inr ⟨_, hsaved, hk⟩⟩)

/-- A slot in use leads to slots in use. -/
theorem Sound.used_of_mem_links (h : cp.Sound top) {k : Nat} (hi : cp.Used (some i))
    (hk : k ∈ cp.links i) : cp.Used (some k) := by
  obtain ⟨l, hl, hfree⟩ := hi
  obtain ⟨c, hslot, hbelow | ⟨f, hf, halt⟩⟩ := mem_links_iff.mp hk
  · cases hl with
    | cons hslot' hrest =>
      obtain rfl := Option.some.inj (hslot.symm.trans hslot')
      exact ⟨_, hbelow ▸ hrest, fun j hj => hfree j (List.mem_cons_of_mem _ hj)⟩
  · exact halt ▸ h.saved_used (by rw [savedIn_of_slot hslot, hf])

/-- Only slots in use are marked. -/
theorem Sound.used_of_mem_reachable (h : cp.Sound (root.bind (·.alt))) :
    ∀ i ∈ cp.reachable root, cp.Used (some i) := by
  refine markWithin_induction ?_ (by simp) fun _ hi _ => h.used_of_mem_links hi
  intro i hi
  rw [Option.mem_toList] at hi
  exact hi ▸ h.used

/-- The number of slots that a sweep leaves. -/
def keptSize (cp : ChoicePoints) (root : Option Frame) : Nat :=
  ((cp.reachable root).max?.map (· + 1)).getD 0

/-- All marked slots are kept. -/
theorem lt_keptSize (hi : i ∈ cp.reachable root) : i < cp.keptSize root := by
  have hsome := Std.TreeSet.isSome_max?_of_mem hi
  obtain ⟨m, hm⟩ := Option.isSome_iff_exists.mp hsome
  have hle := (Std.TreeSet.max?_eq_some_iff_mem_and_forall.mp hm).2 i hi
  rw [Nat.isLE_compare] at hle
  simp only [keptSize, hm, Option.map_some, Option.getD_some]
  omega

/-- A sweep leaves no slots that were not there before. -/
theorem Sound.keptSize_le (h : cp.Sound (root.bind (·.alt))) :
    cp.keptSize root ≤ cp.slots.size := by
  unfold keptSize
  cases hm : (cp.reachable root).max? with
  | none => simp
  | some m =>
    have hmem := (Std.TreeSet.max?_eq_some_iff_mem_and_forall.mp hm).1
    have hlt := (h.used_of_mem_reachable m hmem).of_some.1
    simp only [Option.map_some, Option.getD_some]
    omega

/-- A sweep cuts the slots off behind the last marked one and blanks those that are not marked. -/
theorem slot_sweep (cp : ChoicePoints) (root : Option Frame) (k : Nat) :
    (cp.sweep root).slots[k]? = if k < cp.keptSize root then
      cp.slots[k]?.map fun c => if k ∈ cp.reachable root then c else {} else none := by
  have hslots : (cp.sweep root).slots = (cp.slots.extract 0 (cp.keptSize root)).mapIdx
      fun i c => if (cp.reachable root).contains i then c else {} := rfl
  rw [hslots, Array.getElem?_mapIdx, Array.getElem?_extract, Nat.zero_add]
  simp only [← Std.TreeSet.mem_iff_contains]
  by_cases hk : k < cp.keptSize root
  · by_cases hsize : k < cp.slots.size
    · simp [hk, hsize]
    · simp [hsize]
  · simp [hk]

/-- A marked slot is as it was. -/
theorem slot_sweep_of_mem {k : Nat} (hk : k ∈ cp.reachable root) :
    (cp.sweep root).slots[k]? = cp.slots[k]? := by
  rw [slot_sweep, if_pos (lt_keptSize hk)]
  cases cp.slots[k]? <;> simp [hk]

/-- In a slot that was not marked there is nothing afterwards. -/
theorem savedIn_sweep_of_notMem {k : Nat} (hk : k ∉ cp.reachable root) :
    (cp.sweep root).savedIn k = none := by
  rw [savedIn, slot_sweep]
  split
  · cases cp.slots[k]? <;> rfl
  · rfl

/-- If every alternative is in a marked slot, a sweep leaves them all where they are. -/
theorem savedIn_sweep (hmarked : ∀ k f, cp.savedIn k = some f → k ∈ cp.reachable root) (k : Nat) :
    (cp.sweep root).savedIn k = cp.savedIn k := by
  by_cases hk : k ∈ cp.reachable root
  · rw [savedIn, slot_sweep_of_mem hk, savedIn]
  · rw [savedIn_sweep_of_notMem hk]
    cases hf : cp.savedIn k with
    | none => rfl
    | some f => exact absurd (hmarked k f hf) hk

/-- Slots of different number hold the same frames if they do at every position, the positions beyond
their ends included. -/
private theorem filterMap_eq_of_getElem?_bind {l l' : List ChoicePoint}
    (h : ∀ k : Nat, l[k]?.bind (·.saved) = l'[k]?.bind (·.saved)) :
    l.filterMap (·.saved) = l'.filterMap (·.saved) := by
  induction l generalizing l' with
  | nil =>
    refine (List.filterMap_eq_nil_iff.mpr fun c hc => ?_).symm
    obtain ⟨k, hk⟩ := List.mem_iff_getElem?.mp hc
    simpa [hk] using (h k).symm
  | cons c l ih =>
    cases l' with
    | nil =>
      refine List.filterMap_eq_nil_iff.mpr fun c' hc' => ?_
      obtain ⟨k, hk⟩ := List.mem_iff_getElem?.mp hc'
      simpa [hk] using h k
    | cons c' l' =>
      have hhead : c.saved = c'.saved := by simpa using h 0
      rw [List.filterMap_cons, List.filterMap_cons, hhead, ih fun k => by simpa using h (k + 1)]

/-- What is held is determined by what is saved in each slot. -/
theorem held_congr {cp' : ChoicePoints} (h : ∀ k, cp.savedIn k = cp'.savedIn k) :
    cp.held = cp'.held :=
  filterMap_eq_of_getElem?_bind fun k => by
    simpa only [savedIn, Array.getElem?_toList] using h k

/-- Every alternative is in a marked slot: the root reaches it. -/
theorem Sound.mem_reachable (h : cp.Sound (root.bind (·.alt))) {f : Frame}
    (hf : cp.savedIn i = some f) : i ∈ cp.reachable root :=
  (h.reaches hf).mem_reachable

/-- A way down through marked slots is not touched by a sweep. -/
theorem Chain.sweep {l : List Nat} (h : cp.Chain top l) (hl : ∀ k ∈ l, k ∈ cp.reachable root) :
    (cp.sweep root).Chain top l :=
  h.congr fun k hk => by rw [slot_sweep_of_mem (hl k hk)]

/-- The slots that a sweep frees are those that it left and did not mark. -/
theorem mem_free_sweep {k : Nat} :
    k ∈ (cp.sweep root).free ↔ k < cp.keptSize root ∧ k ∉ cp.reachable root := by
  have hfree : (cp.sweep root).free =
      (Array.range (cp.keptSize root)).filter (!(cp.reachable root).contains ·) := rfl
  rw [hfree, Array.mem_filter, Array.mem_range, Bool.not_eq_true', ← Bool.not_eq_true,
    Std.TreeSet.contains_iff_mem]

/-- A sweep takes nothing that the running branch could go back to. -/
theorem Sound.sweep (h : cp.Sound (root.bind (·.alt))) :
    (cp.sweep root).Sound (root.bind (·.alt)) ∧ (cp.sweep root).held = cp.held := by
  -- sweeping renumbers nothing, and all slots with a saved frame are marked
  have hsame : ∀ k, (cp.sweep root).savedIn k = cp.savedIn k :=
    savedIn_sweep fun k f hf => h.mem_reachable hf
  have hused : ∀ {top l}, cp.Chain top l → (∀ k ∈ l, k ∈ cp.reachable root) →
      (cp.sweep root).Used top := fun hl hmem =>
    ⟨_, hl.sweep hmem, fun k hk hfree => (mem_free_sweep.mp hfree).2 (hmem k hk)⟩
  -- the chain of a saved frame is marked with the slot that the frame is in
  have hsaved : ∀ {k f l}, cp.savedIn k = some f → cp.Chain f.alt l →
      ∀ j ∈ l, j ∈ cp.reachable root := by
    intro k f l hf hl
    obtain ⟨c, hslot, hc⟩ := Option.bind_eq_some_iff.mp hf
    exact hl.mem_reachable fun j hj => (cp.reachable_closed root).2 k (h.mem_reachable hf) j
      (mem_links_iff.mpr ⟨c, hslot, .inr ⟨f, hc, hj⟩⟩)
  have hleads : ∀ {k f j}, cp.savedIn k = some f → cp.Leads f.alt j →
      (cp.sweep root).Leads f.alt j := by
    rintro k f j hf ⟨l, hl, hj⟩
    exact ⟨l, hl.sweep (hsaved hf hl), hj⟩
  refine ⟨⟨?_, ?_, ?_, ?_, ?_, ?_⟩, held_congr hsame⟩
  · obtain ⟨l, hl⟩ := h.used.chain
    exact hused hl (hl.mem_reachable (cp.reachable_closed root).1)
  · intro k f hf
    rw [hsame] at hf
    obtain ⟨l, hl⟩ := (h.saved_used hf).chain
    exact hused hl (hsaved hf hl)
  · intro k f hf
    rw [hsame] at hf
    exact hleads hf (h.saved_leads hf)
  · intro k f hf
    rw [hsame] at hf
    have hreaches := h.reaches hf
    clear hf
    induction hreaches with
    | direct hlead =>
      obtain ⟨l, hl, hk⟩ := hlead
      exact .direct ⟨l, hl.sweep (hl.mem_reachable (cp.reachable_closed root).1), hk⟩
    | through _ hf hlead ih =>
      exact .through ih (by rw [hsame, hf]) (hleads hf hlead)
  · have hfree : (cp.sweep root).free =
        (Array.range (cp.keptSize root)).filter (!(cp.reachable root).contains ·) := rfl
    rw [hfree, Array.toList_filter, Array.toList_range]
    exact List.nodup_range.filter _
  · intro k hk
    obtain ⟨hlt, hmem⟩ := mem_free_sweep.mp hk
    have hsize : k < cp.slots.size := hlt.trans_le h.keptSize_le
    refine ⟨{}, ?_, rfl⟩
    rw [slot_sweep, if_pos hlt, Array.getElem?_eq_getElem hsize, Option.map_some, if_neg hmem]

end LogicMachine.ChoicePoints
