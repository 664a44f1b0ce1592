import Mathlib.Algebra.BigOperators.Ring.List
import Mathlib.Algebra.GroupWithZero.Nat
import Mathlib.Data.List.Forall2
import LogicMachine.Constraint.Odometer

/-!
# The order of combinations

An odometer reads every combination once, and in lexicographic order. To turn it is to turn what is
right of the first digit, and to move on the first digit whenever that has gone round. So the
readings with one first digit stand together, and they are those of the odometer for the other
lists.
-/

namespace LogicMachine

namespace Odometer

variable {α : Type} {list : List α} {lists : List (List α)} {digit : Nat}
  {digits digits' : List Nat} {found found' : List (List Nat)}

/-- Every list has a digit, and it stands at an element. -/
def InRange (lists : List (List α)) (digits : List Nat) : Prop :=
  List.Forall₂ (fun digit list => digit < list.length) digits lists

/-- All digits that are in range, in lexicographic order. -/
def picks : List (List α) → List (List Nat)
  | [] => [[]]
  | list :: lists => (List.range list.length).flatMap fun digit => (picks lists).map (digit :: ·)

/-- Every choice of digits that are in range is among the picks, and nothing else is. -/
theorem mem_picks : digits ∈ picks lists ↔ InRange lists digits := by
  induction lists generalizing digits with
  | nil => simp [picks, InRange]
  | cons list lists ih =>
    simp only [picks, List.mem_flatMap, List.mem_range, List.mem_map, ih, InRange,
      List.forall₂_cons_right_iff]
    exact ⟨fun ⟨d, hd, ds, hds, h⟩ => ⟨d, ds, hd, hds, h.symm⟩,
      fun ⟨d, ds, hd, hds, h⟩ => ⟨d, hd, ds, hds, h.symm⟩⟩

/-- The picks increase: those with one first digit stand together, ordered by the rest. -/
theorem pairwise_picks (lists : List (List α)) : (picks lists).Pairwise (· < ·) := by
  induction lists with
  | nil => exact List.pairwise_singleton _ _
  | cons list lists ih =>
    rw [picks, List.pairwise_flatMap]
    refine ⟨fun digit _ => ?_, List.pairwise_lt_range.imp fun hlt ds hds es hes => ?_⟩
    · rw [List.pairwise_map]
      exact ih.imp fun hlt => List.cons_lt_cons_iff.mpr (.inr ⟨rfl, hlt⟩)
    · obtain ⟨ds, -, rfl⟩ := List.mem_map.mp hds
      obtain ⟨es, -, rfl⟩ := List.mem_map.mp hes
      exact List.cons_lt_cons_iff.mpr (.inl hlt)

/-- There are as many picks as the lengths multiplied. -/
theorem length_picks (lists : List (List α)) :
    (picks lists).length = (lists.map List.length).prod := by
  induction lists with
  | nil => rfl
  | cons list lists ih => simp [picks, List.length_flatMap, ih]

/-- The number of readings that is worked out up front is the product of the lengths. -/
theorem readings_eq_prod (lists : List (List α)) :
    readings lists = (lists.map List.length).prod := by
  rw [readings, List.prod_eq_foldr, List.foldr_map]

/-! ### Turning -/

/-- Turning as a recursion over the lists, the digits on the right first. -/
def next : List (List α) → List Nat → Bool × List Nat
  | list :: lists, digit :: digits =>
    match next lists digits with
    | (false, digits) => (false, digit :: digits)
    | (true, digits) =>
      if digit + 1 < list.length then (false, (digit + 1) :: digits) else (true, 0 :: digits)
  | _, digits => (true, digits)

/-- To turn the digits from some place on is to turn those right of the first one, and then the
first one if they have gone round. -/
theorem turn?_cons (list : List α) (lists : List (List α)) (pos digit : Nat)
    (digits : List Nat) :
    turn? (list :: lists) (pos + 1) (digit :: digits) =
      match turn? lists pos digits with
      | none => none
      | some (false, digits) => some (false, digit :: digits)
      | some (true, digits) => turn? (list :: lists) 1 (digit :: digits) := by
  induction pos generalizing digits with
  | zero => rfl
  | succ pos ih =>
    rw [turn?, turn?.eq_2 lists]
    simp only [List.getElem?_cons_succ]
    cases hdigit : digits[pos]? with
    | none => rfl
    | some d =>
      cases hlist : lists[pos]? with
      | none => rfl
      | some xs =>
        by_cases hlt : d + 1 < xs.length
        · simp [hlt]
        · simp [hlt, ih]

/-- Turning finds a digit and a list at every position. -/
theorem turn?_eq_next (h : digits.length = lists.length) :
    turn? lists lists.length digits = some (next lists digits) := by
  induction lists generalizing digits with
  | nil => rfl
  | cons list lists ih =>
    cases digits with
    | nil => cases h
    | cons digit digits =>
      rw [List.length_cons, turn?_cons, ih (Nat.succ.inj h), next]
      rcases next lists digits with ⟨_ | _, ds⟩
      · rfl
      · by_cases hlt : digit + 1 < list.length <;> simp [turn?, hlt]

/-- Turning moves digits but makes no more and no fewer of them. -/
theorem length_next (lists : List (List α)) (digits : List Nat) :
    (next lists digits).2.length = digits.length := by
  fun_induction next lists digits with
  | case1 list lists digit digits ds heq ih => simpa [heq] using ih
  | case2 list lists digit digits ds heq hlt ih => simpa [heq] using ih
  | case3 list lists digit digits ds heq hlt ih => simpa [heq] using ih
  | case4 => rfl

/-- Digits that have gone round are back at the start. -/
theorem eq_start_of_next (h : digits.length = lists.length)
    (hnext : next lists digits = (true, digits')) : digits' = start lists := by
  induction lists generalizing digits digits' with
  | nil =>
    rw [List.length_eq_zero_iff.mp h] at hnext
    exact (congrArg Prod.snd hnext).symm
  | cons list lists ih =>
    cases digits with
    | nil => cases h
    | cons digit digits =>
      rw [next] at hnext
      rcases hrest : next lists digits with ⟨_ | _, ds⟩ <;> rw [hrest] at hnext
      · cases hnext
      · simp only at hnext
        split at hnext
        · cases hnext
        · obtain rfl := congrArg Prod.snd hnext
          rw [ih (Nat.succ.inj h) hrest]
          rfl

/-! ### From turn to turn -/

/-- `Visits lists digits found`: turned again and again from `digits` on, the digits stand as in
`found` until they have gone round. -/
inductive Visits (lists : List (List α)) : List Nat → List (List Nat) → Prop
  | last {digits digits' : List Nat} (h : next lists digits = (true, digits')) :
      Visits lists digits [digits]
  | turn {digits digits' : List Nat} {found : List (List Nat)}
      (h : next lists digits = (false, digits')) (hrest : Visits lists digits' found) :
      Visits lists digits (digits :: found)

namespace Visits

/-- The last block: the first digit stands at the end of its list. -/
theorem lastBlock (h : Visits lists digits found) (hdigit : digit + 1 = list.length) :
    Visits (list :: lists) (digit :: digits) (found.map (digit :: ·)) := by
  induction h with
  | @last digits digits' h =>
    have hround : next (list :: lists) (digit :: digits) = (true, 0 :: digits') := by
      rw [next, h]
      exact if_neg (by omega)
    exact .last hround
  | turn h _ ih => exact .turn (by simp [next, h]) ih

/-- A block before that: it is followed by what starts with the next first digit. -/
theorem block (h : Visits lists digits found) (hlength : digits.length = lists.length)
    (hdigit : digit + 1 < list.length)
    (hrest : Visits (list :: lists) ((digit + 1) :: start lists) found') :
    Visits (list :: lists) (digit :: digits) (found.map (digit :: ·) ++ found') := by
  induction h with
  | @last digits digits' h =>
    have hstart : next (list :: lists) (digit :: digits) =
        (false, (digit + 1) :: start lists) := by
      rw [next, h, eq_start_of_next hlength h]
      exact if_pos hdigit
    exact .turn hstart hrest
  | @turn digits digits' found h _ ih =>
    have hlength' : digits'.length = lists.length := by
      rw [← hlength, ← length_next lists digits, h]
    exact .turn (by simp [next, h]) (ih hlength')

end Visits

/-- At the start every list has its digit. -/
theorem length_start (lists : List (List α)) : (start lists).length = lists.length :=
  List.length_map _

/-- With a list that is empty there is nothing to read; otherwise the digits are turned through all
that are in range, in lexicographic order. -/
theorem visits_picks (h : ∀ list ∈ lists, list ≠ []) :
    Visits lists (start lists) (picks lists) := by
  induction lists with
  | nil => exact .last rfl
  | cons list lists ih =>
    rw [List.forall_mem_cons] at h
    have hrest := ih h.2
    -- the blocks from one first digit on, by the number of those that follow it
    have hblocks : ∀ more digit, digit + more + 1 = list.length →
        Visits (list :: lists) (digit :: start lists)
          ((List.range' digit (more + 1)).flatMap fun d => (picks lists).map (d :: ·)) := by
      intro more
      induction more with
      | zero =>
        intro digit hdigit
        simpa using hrest.lastBlock hdigit
      | succ more ihmore =>
        intro digit hdigit
        rw [List.range'_succ, List.flatMap_cons]
        exact hrest.block (length_start lists) (by omega) (ihmore (digit + 1) (by omega))
    obtain ⟨n, hn⟩ := Nat.exists_eq_succ_of_ne_zero (mt List.length_eq_zero_iff.mp h.1)
    rw [picks, List.range_eq_range', hn]
    exact hblocks n 0 (by omega)

/-! ### Reading -/

/-- To read the digits is to read the first one off the first list and the others off the rest. -/
theorem read?_cons (list : List α) (lists : List (List α)) (digit : Nat) (digits : List Nat) :
    read? (list :: lists) (digit :: digits) =
      list[digit]?.bind fun x => (read? lists digits).map (x :: ·) := by
  have hfirst : read? (list :: lists) (digit :: digits) =
      do return (← list[digit]?) :: (← read? lists digits) := by
    simp only [read?, List.zip_cons_cons, List.mapM_cons]
  rw [hfirst]
  cases list[digit]? <;> cases read? lists digits <;> rfl

/-- What is read has at each place the element at the digit of that place. -/
theorem read?_eq_some_iff (h : InRange lists digits) {picked : List α} :
    read? lists digits = some picked ↔
      picked.map some = List.zipWith (fun digit list => list[digit]?) digits lists := by
  induction h generalizing picked with
  | nil => simp [read?]
  | @cons digit list digits lists hdigit _ ih =>
    rw [read?_cons, List.getElem?_eq_getElem hdigit, Option.bind_some, Option.map_eq_some_iff,
      List.zipWith_cons_cons, List.getElem?_eq_getElem hdigit, List.map_eq_cons_iff]
    simp only [ih, Option.some_inj]
    exact ⟨fun ⟨ys, hys, h⟩ => ⟨_, ys, h.symm, rfl, hys⟩,
      fun ⟨_, ys, h, hx, hys⟩ => ⟨ys, hys, by rw [h, hx]⟩⟩

/-- Digits in range stand at elements. -/
theorem exists_read (h : InRange lists digits) : ∃ picked, read? lists digits = some picked := by
  induction h with
  | nil => exact ⟨[], rfl⟩
  | @cons digit list digits lists hdigit _ ih =>
    obtain ⟨picked, hpicked⟩ := ih
    exact ⟨list[digit] :: picked, by
      rw [read?_cons, List.getElem?_eq_getElem hdigit, hpicked]
      rfl⟩

/-- What `read` holds are the readings of the digits that `found` holds. -/
def Reads (lists : List (List α)) (found : List (List Nat)) (read : List (List α)) : Prop :=
  List.Forall₂ (fun digits picked => read? lists digits = some picked) found read

variable {read read' : List (List α)}

/-- The same digits are read as the same elements. -/
theorem Reads.eq (h : Reads lists found read) (h' : Reads lists found read') : read = read' :=
  List.right_unique_forall₂'
    (fun _ _ _ hread hread' => Option.some.inj (hread.symm.trans hread')) h h'

/-- All digits in range can be read. -/
theorem exists_reads (lists : List (List α)) : ∃ read, Reads lists (picks lists) read := by
  have hread : ∀ digits ∈ picks lists,
      read? lists digits = some ((read? lists digits).getD []) := by
    intro digits hdigits
    obtain ⟨picked, hpicked⟩ := exists_read (mem_picks.mp hdigits)
    rw [hpicked]
    rfl
  refine ⟨(picks lists).map fun digits => (read? lists digits).getD [], ?_⟩
  rw [Reads, List.forall₂_map_right_iff, List.forall₂_same]
  exact hread

/-- As many rounds as there are digits to be visited are enough to read them all. -/
theorem Visits.runWithin (h : Visits lists digits found)
    (hlength : ∀ ds ∈ found, ds.length = lists.length) (hread : Reads lists found read) :
    runWithin lists found.length digits = some read := by
  induction h generalizing read with
  | last h =>
    rw [List.forall_mem_singleton] at hlength
    obtain ⟨picked, _, hpicked, hnil, rfl⟩ := List.forall₂_cons_left_iff.mp hread
    rw [List.forall₂_nil_left_iff.mp hnil, List.length_singleton, Odometer.runWithin, hpicked,
      turn?_eq_next hlength, h]
  | turn h _ ih =>
    rw [List.forall_mem_cons] at hlength
    obtain ⟨picked, rest, hpicked, hrest, rfl⟩ := List.forall₂_cons_left_iff.mp hread
    rw [List.length_cons, Odometer.runWithin, hpicked, turn?_eq_next hlength.1, h]
    simp only [ih hlength.2 hrest]
    rfl

/-- The odometer ends after as many readings as there are digits in range, and it has read them in
their order. -/
theorem run?_of_reads (h : Reads lists (picks lists) read) :
    run? lists = some read := by
  rw [run?]
  split
  · next hempty =>
    -- an empty list leaves no digits in range
    obtain ⟨list, hlist, hnil⟩ := List.any_eq_true.mp hempty
    have hzero : 0 ∈ lists.map List.length :=
      List.mem_map.mpr ⟨list, hlist, by simpa using hnil⟩
    have hnone : picks lists = [] := by
      rw [← List.length_eq_zero_iff, length_picks, List.prod_eq_zero hzero]
    rw [hnone] at h
    rw [List.forall₂_nil_left_iff.mp h]
  · next hempty =>
    have hnonempty : ∀ list ∈ lists, list ≠ [] := by
      rintro list hlist rfl
      exact hempty (List.any_eq_true.mpr ⟨[], hlist, rfl⟩)
    have hlength : ∀ digits ∈ picks lists, digits.length = lists.length := fun digits hdigits =>
      (mem_picks.mp hdigits).length_eq
    rw [readings_eq_prod, ← length_picks]
    exact (visits_picks hnonempty).runWithin hlength h

end Odometer

section

open Odometer

variable {α : Type}

/-- The combinations are what the digits in range stand for, in the same order. -/
theorem reads_combinations (lists : List (List α)) :
    Reads lists (picks lists) (combinations lists) := by
  obtain ⟨read, hread⟩ := exists_reads lists
  rw [combinations, run?_of_reads hread]
  exact hread

/-- From no lists there is one way to pick, which is to pick nothing. -/
@[simp] theorem combinations_nil : combinations ([] : List (List α)) = [[]] := rfl

/-- What is picked from the first list goes with every combination of the others. -/
@[simp] theorem combinations_cons (list : List α) (lists : List (List α)) :
    combinations (list :: lists) = list.flatMap fun x => (combinations lists).map (x :: ·) := by
  have hfirst :
      List.Forall₂ (fun digit x => list[digit]? = some x) (List.range list.length) list := by
    rw [List.forall₂_iff_get]
    refine ⟨List.length_range, fun i _ hi => ?_⟩
    simp only [List.get_eq_getElem, List.getElem_range]
    exact List.getElem?_eq_getElem hi
  refine (reads_combinations (list :: lists)).eq ?_
  refine List.rel_flatMap hfirst fun digit x hx => ?_
  rw [List.forall₂_map_left_iff, List.forall₂_map_right_iff]
  refine (reads_combinations lists).imp fun digits picked hpicked => ?_
  rw [read?_cons, hx, hpicked]
  rfl

/-- For all lists: the odometer ends, without looking at a position that does not exist, and what it
has read are the picks of one element from each list, every one once, in lexicographic order of the
places they are picked from. -/
theorem combinations_lexicographic (lists : List (List α)) :
    run? lists = some (combinations lists) ∧
      (∃ places : List (List Nat), places.Pairwise (· < ·) ∧
        (∀ digits, digits ∈ places ↔
          List.Forall₂ (fun digit list => digit < list.length) digits lists) ∧
        List.Forall₂ (fun digits picked =>
            picked.map some = List.zipWith (fun digit list => list[digit]?) digits lists)
          places (combinations lists)) ∧
      (combinations lists).length = (lists.map List.length).prod ∧
      (combinations lists = [] ↔ [] ∈ lists) := by
  have hreads := reads_combinations lists
  have hlength : (combinations lists).length = (lists.map List.length).prod := by
    rw [← hreads.length_eq, length_picks]
  refine ⟨run?_of_reads hreads, ⟨picks lists, pairwise_picks lists, fun _ => mem_picks, ?_⟩,
    hlength, ?_⟩
  · have hrange : ∀ digits ∈ picks lists, InRange lists digits := fun _ => mem_picks.mp
    exact ((List.forall₂_and_left _ _).mpr ⟨hrange, hreads⟩).imp fun digits picked h =>
      (read?_eq_some_iff h.1).mp h.2
  · rw [← List.length_eq_zero_iff, hlength, List.prod_eq_zero_iff]
    simp

end

end LogicMachine
