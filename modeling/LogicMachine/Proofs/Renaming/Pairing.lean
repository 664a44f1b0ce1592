import Mathlib.Data.List.Forall2
import Mathlib.Data.List.Lemmas
import Std.Data.TreeMap

/-!
# Pairings of numbers

Two runs draw different numbers for what is the same variable or the same constraint. A pairing says
which numbers belong together, and it keeps their order, because constraints are matched from the
oldest to the youngest. Maps that agree up to a pairing list their values in the same order.
-/

namespace LogicMachine

/-- Numbers that belong together. They come in the same order on both sides. -/
structure Pairing where
  rel : Nat → Nat → Prop
  lt_iff : ∀ {a a' b b'}, rel a a' → rel b b' → (a < b ↔ a' < b')

namespace Pairing

instance : CoeFun Pairing fun _ => Nat → Nat → Prop := ⟨rel⟩

variable {R R' : Pairing} {a a' b b' c c' : Nat}

/-- A number belongs to at most one number, on either side. -/
theorem eq_iff (ha : R a a') (hb : R b b') : a = b ↔ a' = b' := by
  have hlt := R.lt_iff ha hb
  have hgt := R.lt_iff hb ha
  omega

/-- The same in the form in which the library asks for it. -/
theorem biUnique (R : Pairing) : Relator.BiUnique R :=
  ⟨fun _ _ _ ha hb => (R.eq_iff ha hb).mpr rfl, fun _ _ _ ha hb => (R.eq_iff ha hb).mp rfl⟩

/-- The pairing of every number below a bound with itself. -/
def upTo (n : Nat) : Pairing where
  rel a a' := a = a' ∧ a < n
  lt_iff := by
    rintro a _ b _ ⟨rfl, _⟩ ⟨rfl, _⟩
    rfl

/-- The pairing of every number with a property with itself. -/
def on (P : Nat → Prop) : Pairing where
  rel a a' := a = a' ∧ P a
  lt_iff := by
    rintro a _ b _ ⟨rfl, _⟩ ⟨rfl, _⟩
    rfl

/-- All numbers of the pairing lie below bounds. -/
def Below (R : Pairing) (c c' : Nat) : Prop := ∀ {a a'}, R a a' → a < c ∧ a' < c'

/-- Higher bounds are bounds too. -/
theorem Below.mono {d d' : Nat} (h : R.Below c c') (hc : c ≤ d) (hc' : c' ≤ d') :
    R.Below d d' := by
  intro a a' ha
  have hlt := h ha
  omega

/-- The numbers below a bound lie below it on both sides. -/
theorem below_upTo (n : Nat) : (upTo n).Below n n := by
  rintro a _ ⟨rfl, ha⟩
  exact ⟨ha, ha⟩

/-- Beyond its bounds, pair `n` more numbers with each other one by one. -/
def grow (R : Pairing) (h : R.Below c c') (n : Nat) : Pairing where
  rel a a' := R a a' ∨ ∃ i < n, a = c + i ∧ a' = c' + i
  lt_iff := by
    rintro a a' b b' (ha | ⟨i, hi, rfl, rfl⟩) (hb | ⟨j, hj, rfl, rfl⟩)
    · exact R.lt_iff ha hb
    · have hlt := h ha
      omega
    · have hlt := h hb
      omega
    · omega

/-- The new pairs lie right behind the old bounds, so the bounds move on by their number. -/
theorem below_grow (h : R.Below c c') (n : Nat) : (R.grow h n).Below (c + n) (c' + n) := by
  rintro a a' (ha | ⟨i, hi, rfl, rfl⟩)
  · have hlt := h ha
    omega
  · omega

/-- A pairing extends another when it adds only pairs of numbers that were in no pair before. -/
structure Extends (R R' : Pairing) : Prop where
  le : ∀ {a a'}, R a a' → R' a a'
  fresh : ∀ {a a'}, R' a a' → R a a' ∨ (∀ b, ¬ R a b) ∧ ∀ b, ¬ R b a'

/-- A number that was in a pair already is in no new one. -/
theorem Extends.of_left (h : R.Extends R') (hb : ∃ b, R a b) (ha : R' a a') : R a a' := by
  obtain ⟨b, hb⟩ := hb
  exact (h.fresh ha).resolve_right fun hnew => hnew.1 b hb

/-- Nor is it on the other side. -/
theorem Extends.of_right (h : R.Extends R') (hb : ∃ b, R b a') (ha : R' a a') : R a a' := by
  obtain ⟨b, hb⟩ := hb
  exact (h.fresh ha).resolve_right fun hnew => hnew.2 b hb

/-- A pairing extends itself, by no pair at all. -/
theorem Extends.refl (R : Pairing) : R.Extends R := ⟨id, .inl⟩

/-- The pairs that are added lie beyond the bounds, where no number was in a pair. -/
theorem extends_grow (h : R.Below c c') (n : Nat) : R.Extends (R.grow h n) where
  le := .inl
  fresh := by
    rintro a a' (ha | ⟨i, -, rfl, rfl⟩)
    · exact .inl ha
    · refine .inr ⟨fun b hb => ?_, fun b hb => ?_⟩
      · have hlt := h hb
        omega
      · have hlt := h hb
        omega

/-- Where more numbers have the property, more of them are paired with themselves. -/
theorem extends_on {P P' : Nat → Prop} (h : ∀ a, P a → P' a) : (on P).Extends (on P') where
  le := by
    rintro a _ ⟨rfl, ha⟩
    exact ⟨rfl, h a ha⟩
  fresh := by
    rintro a _ ⟨rfl, ha⟩
    by_cases hold : P a
    · exact .inl ⟨rfl, hold⟩
    · refine .inr ⟨fun b hb => hold hb.2, ?_⟩
      rintro b ⟨rfl, hb⟩
      exact hold hb

/-- A list of numbers with the property agrees with itself. -/
theorem forall₂_on {P : Nat → Prop} {l : List Nat} (h : ∀ a ∈ l, P a) : List.Forall₂ (on P) l l :=
  List.forall₂_same.mpr fun a ha => ⟨rfl, h a ha⟩

end Pairing

/-! ### Lists -/

section Lists

variable {α β : Type} {V : α → β → Prop}

/-- Lists that are sorted alike, and in which everything has a partner, agree place by place. -/
theorem forall₂_of_pairwise_lt (key : α → Nat) (key' : β → Nat) {l : List α} {l' : List β}
    (hl : l.Pairwise fun x y => key x < key y) (hl' : l'.Pairwise fun x y => key' x < key' y)
    (hleft : ∀ x ∈ l, ∃ x' ∈ l', V x x') (hright : ∀ x' ∈ l', ∃ x ∈ l, V x x')
    (hlt : ∀ {x x' y y'}, V x x' → V y y' → (key x < key y ↔ key' x' < key' y')) :
    List.Forall₂ V l l' := by
  induction l generalizing l' with
  | nil =>
    cases l' with
    | nil => exact .nil
    | cons x' l' =>
      obtain ⟨x, hx, -⟩ := hright x' List.mem_cons_self
      cases hx
  | cons x l ih =>
    cases l' with
    | nil =>
      obtain ⟨x', hx', -⟩ := hleft x List.mem_cons_self
      cases hx'
    | cons x' l' =>
      rw [List.pairwise_cons] at hl hl'
      -- the partner of the first element cannot be behind an element with a partner of its own
      have hhead : V x x' := by
        obtain ⟨y', hy', hxy'⟩ := hleft x List.mem_cons_self
        obtain ⟨y, hy, hyx'⟩ := hright x' List.mem_cons_self
        rcases List.mem_cons.mp hy' with rfl | hy'
        · exact hxy'
        rcases List.mem_cons.mp hy with rfl | hy
        · exact hyx'
        have hxy := hl.1 y hy
        have hxy'' := hl'.1 y' hy'
        have hiff := hlt hyx' hxy'
        omega
      refine .cons hhead (ih hl.2 hl'.2 ?_ ?_)
      · intro y hy
        obtain ⟨y', hy', hyy'⟩ := hleft y (List.mem_cons_of_mem _ hy)
        rcases List.mem_cons.mp hy' with rfl | hy'
        · have hxy := (hlt hhead hyy').mp (hl.1 y hy)
          omega
        · exact ⟨y', hy', hyy'⟩
      · intro y' hy'
        obtain ⟨y, hy, hyy'⟩ := hright y' (List.mem_cons_of_mem _ hy')
        rcases List.mem_cons.mp hy with rfl | hy
        · have hxy := (hlt hhead hyy').mpr (hl'.1 y' hy')
          omega
        · exact ⟨y, hy, hyy'⟩

/-- Lists that agree hold, at any position, elements that agree, or both end before it. -/
theorem forall₂_getElem? {l : List α} {l' : List β} (hl : List.Forall₂ V l l') (i : Nat) :
    Option.Rel V l[i]? l'[i]? := by
  induction hl generalizing i with
  | nil => exact .none
  | cons ha _ ih =>
    cases i with
    | zero => exact .some ha
    | succ i => simpa using ih i

/-- Lists that agree begin with elements that agree, or both are empty. -/
theorem forall₂_head? {l : List α} {l' : List β} (hl : List.Forall₂ V l l') :
    Option.Rel V l.head? l'.head? := by
  cases hl with
  | nil => exact .none
  | cons ha _ => exact .some ha

/-- Lists agree if they do at every place. -/
theorem forall₂_iff_getElem? {l : List α} {l' : List β} :
    List.Forall₂ V l l' ↔ ∀ i : Nat, Option.Rel V l[i]? l'[i]? := by
  refine ⟨fun h i => forall₂_getElem? h i, fun h => ?_⟩
  induction l generalizing l' with
  | nil =>
    cases l' with
    | nil => exact .nil
    | cons b l' => cases h 0
  | cons a l ih =>
    cases l' with
    | nil => cases h 0
    | cons b l' =>
      refine .cons ?_ (ih fun i => h (i + 1))
      cases h 0 with
      | some hab => exact hab

/-- In lists that agree, everything has a partner. -/
theorem forall₂_partner {l : List α} {l' : List β} (hl : List.Forall₂ V l l') :
    (∀ a ∈ l, ∃ a' ∈ l', V a a') ∧ ∀ a' ∈ l', ∃ a ∈ l, V a a' := by
  induction hl with
  | nil => simp
  | cons ha _ ih =>
    obtain ⟨hleft, hright⟩ := ih
    constructor
    · intro b hb
      rcases List.mem_cons.mp hb with rfl | hb
      · exact ⟨_, List.mem_cons_self, ha⟩
      · obtain ⟨b', hb', hbb'⟩ := hleft b hb
        exact ⟨b', List.mem_cons_of_mem _ hb', hbb'⟩
    · intro b' hb'
      rcases List.mem_cons.mp hb' with rfl | hb'
      · exact ⟨_, List.mem_cons_self, ha⟩
      · obtain ⟨b, hb, hbb'⟩ := hright b' hb'
        exact ⟨b, List.mem_cons_of_mem _ hb, hbb'⟩

/-- Options agree when both hold something that agrees, or neither holds anything. -/
theorem optionRel_cases {o : Option α} {o' : Option β} (h : Option.Rel V o o') :
    (∃ a a', o = some a ∧ o' = some a' ∧ V a a') ∨ o = none ∧ o' = none := by
  cases h with
  | some h => exact .inl ⟨_, _, rfl, rfl, h⟩
  | none => exact .inr ⟨rfl, rfl⟩

/-- What is known of the contents may be used to say in which other sense they agree. -/
theorem optionRel_imp {V' : α → β → Prop} {o : Option α} {o' : Option β} (h : Option.Rel V o o')
    (hV : ∀ {a a'}, o = some a → V a a' → V' a a') : Option.Rel V' o o' := by
  cases h with
  | some h => exact .some (hV rfl h)
  | none => exact .none

end Lists

/-- Lists of numbers are equal exactly if what belongs to them is. -/
theorem Pairing.list_eq_iff (R : Pairing) {l l' k k' : List Nat} (hl : List.Forall₂ R l l')
    (hk : List.Forall₂ R k k') : l = k ↔ l' = k' := by
  have hunique := R.biUnique.forall₂
  constructor
  · rintro rfl
    exact hunique.2 hl hk
  · rintro rfl
    exact hunique.1 hl hk

/-! ### Maps -/

/-- The values of a map, in the order of their keys. -/
theorem values_eq_map_toList {α : Type} (m : Std.TreeMap Nat α) :
    m.values = m.toList.map Prod.snd := by
  have hfold : m.values = m.foldr (fun _ v acc => v :: acc) [] := rfl
  rw [hfold, Std.TreeMap.foldr_eq_foldr_toList]
  induction m.toList with
  | nil => rfl
  | cons p l ih => simp [ih]

/-- Two maps agree up to a pairing of their keys: what belongs together has values that do, and
every key belongs to one of the other map. -/
structure MapRel (R : Pairing) {α β : Type} (V : α → β → Prop) (m : Std.TreeMap Nat α)
    (m' : Std.TreeMap Nat β) : Prop where
  get : ∀ {k k'}, R k k' → Option.Rel V m[k]? m'[k']?
  left : ∀ {k v}, m[k]? = some v → ∃ k', R k k'
  right : ∀ {k' v'}, m'[k']? = some v' → ∃ k, R k k'

namespace MapRel

variable {R R' : Pairing} {α β : Type} {V V' : α → β → Prop} {m : Std.TreeMap Nat α}
  {m' : Std.TreeMap Nat β} {k k' : Nat} {v : α} {v' : β}

/-- Empty maps agree, and they agree up to any pairing. -/
theorem empty : MapRel R V ∅ ∅ where
  get _ := by
    simp only [Std.TreeMap.getElem?_emptyc]
    exact .none
  left h := by simp at h
  right h := by simp at h

/-- Entries whose keys and values belong together may be put into both maps. -/
theorem insert (h : MapRel R V m m') (hk : R k k') (hv : V v v') :
    MapRel R V (m.insert k v) (m'.insert k' v') := by
  constructor
  · intro i i' hi
    simp only [Std.TreeMap.getElem?_insert, Nat.compare_eq_eq]
    by_cases hki : k = i
    · rw [if_pos hki, if_pos ((R.eq_iff hk hi).mp hki)]
      exact .some hv
    · rw [if_neg hki, if_neg fun hki' => hki ((R.eq_iff hk hi).mpr hki')]
      exact h.get hi
  · intro i w hi
    simp only [Std.TreeMap.getElem?_insert, Nat.compare_eq_eq] at hi
    split at hi
    · next hki => exact ⟨k', hki ▸ hk⟩
    · exact h.left hi
  · intro i w hi
    simp only [Std.TreeMap.getElem?_insert, Nat.compare_eq_eq] at hi
    split at hi
    · next hki => exact ⟨k, hki ▸ hk⟩
    · exact h.right hi

/-- Keys that belong together may be taken out of both maps. -/
theorem erase (h : MapRel R V m m') (hk : R k k') : MapRel R V (m.erase k) (m'.erase k') := by
  constructor
  · intro i i' hi
    simp only [Std.TreeMap.getElem?_erase, Nat.compare_eq_eq]
    by_cases hki : k = i
    · rw [if_pos hki, if_pos ((R.eq_iff hk hi).mp hki)]
      exact .none
    · rw [if_neg hki, if_neg fun hki' => hki ((R.eq_iff hk hi).mpr hki')]
      exact h.get hi
  · intro i w hi
    simp only [Std.TreeMap.getElem?_erase, Nat.compare_eq_eq] at hi
    split at hi
    · cases hi
    · exact h.left hi
  · intro i w hi
    simp only [Std.TreeMap.getElem?_erase, Nat.compare_eq_eq] at hi
    split at hi
    · cases hi
    · exact h.right hi

/-- Everything in the first map has a partner in the second. -/
theorem partner_left (h : MapRel R V m m') (hk : m[k]? = some v) :
    ∃ k', R k k' ∧ ∃ v', m'[k']? = some v' ∧ V v v' := by
  obtain ⟨k', hkk'⟩ := h.left hk
  refine ⟨k', hkk', ?_⟩
  rcases optionRel_cases (h.get hkk') with ⟨w, w', hw, hw', hrel⟩ | ⟨hnone, -⟩
  · obtain rfl := Option.some.inj (hw.symm.trans hk)
    exact ⟨w', hw', hrel⟩
  · rw [hk] at hnone
    cases hnone

/-- Everything in the second map has a partner in the first. -/
theorem partner_right (h : MapRel R V m m') (hk' : m'[k']? = some v') :
    ∃ k, R k k' ∧ ∃ v, m[k]? = some v ∧ V v v' := by
  obtain ⟨k, hkk'⟩ := h.right hk'
  refine ⟨k, hkk', ?_⟩
  rcases optionRel_cases (h.get hkk') with ⟨w, w', hw, hw', hrel⟩ | ⟨-, hnone⟩
  · obtain rfl := Option.some.inj (hw'.symm.trans hk')
    exact ⟨w, hw, hrel⟩
  · rw [hk'] at hnone
    cases hnone

/-- Pairs of new numbers make no difference to the maps. -/
theorem mono (h : MapRel R V m m') (hR : R.Extends R') (hV : ∀ {a b}, V a b → V' a b) :
    MapRel R' V' m m' := by
  constructor
  · intro i i' hi
    rcases hR.fresh hi with hi | ⟨hleft, hright⟩
    · exact optionRel_imp (h.get hi) fun _ => hV
    · have hnone : m[i]? = none := by
        cases hv : m[i]? with
        | none => rfl
        | some v =>
          obtain ⟨i', hi'⟩ := h.left hv
          exact absurd hi' (hleft i')
      have hnone' : m'[i']? = none := by
        cases hv : m'[i']? with
        | none => rfl
        | some v =>
          obtain ⟨i, hi⟩ := h.right hv
          exact absurd hi (hright i)
      rw [hnone, hnone']
      exact .none
  · intro i v hv
    obtain ⟨i', hi'⟩ := h.left hv
    exact ⟨i', hR.le hi'⟩
  · intro i' v' hv'
    obtain ⟨i, hi⟩ := h.right hv'
    exact ⟨i, hR.le hi⟩

/-- The entries agree one by one, because both maps list them by their keys and the pairing keeps
the order of these. -/
theorem forall₂_toList (h : MapRel R V m m') :
    List.Forall₂ (fun p p' => R p.1 p'.1 ∧ V p.2 p'.2) m.toList m'.toList := by
  refine forall₂_of_pairwise_lt Prod.fst Prod.fst ?_ ?_ ?_ ?_ ?_
  · simpa [Nat.compare_eq_lt] using m.ordered_keys_toList
  · simpa [Nat.compare_eq_lt] using m'.ordered_keys_toList
  · rintro ⟨i, v⟩ hmem
    rw [Std.TreeMap.mem_toList_iff_getElem?_eq_some] at hmem
    obtain ⟨i', hi, v', hv', hvv'⟩ := h.partner_left hmem
    exact ⟨⟨i', v'⟩, Std.TreeMap.mem_toList_iff_getElem?_eq_some.mpr hv', hi, hvv'⟩
  · rintro ⟨i', v'⟩ hmem
    rw [Std.TreeMap.mem_toList_iff_getElem?_eq_some] at hmem
    obtain ⟨i, hi, v, hv, hvv'⟩ := h.partner_right hmem
    exact ⟨⟨i, v⟩, Std.TreeMap.mem_toList_iff_getElem?_eq_some.mpr hv, hi, hvv'⟩
  · intro x x' y y' hx hy
    exact R.lt_iff hx.1 hy.1

/-- Maps that agree have equally many entries. -/
theorem size_eq (h : MapRel R V m m') : m.size = m'.size := by
  rw [← Std.TreeMap.length_toList, ← Std.TreeMap.length_toList]
  exact h.forall₂_toList.length_eq

/-- Maps that agree list values that agree. -/
theorem values (h : MapRel R V m m') : List.Forall₂ V m.values m'.values := by
  rw [values_eq_map_toList, values_eq_map_toList]
  exact List.rel_map (fun _ _ h => h.2) h.forall₂_toList

end MapRel

end LogicMachine
