import Mathlib.Data.Finset.Card
import Mathlib.Logic.Relation
import LogicMachine.Subst.Walk

/-!
# Acyclic substitutions

A substitution is acyclic when no variable leads back to itself. Then every path through the
bindings meets a bound variable at most once, so that as many hops as there are bindings reach its
end: what is read with that budget is what the bindings say.
-/

namespace LogicMachine.Subst

open Relation

/-- The value of `v` mentions `w`. -/
def Mentions (s : Subst) (v w : Var) : Prop := ∃ t, s.get? v = some t ∧ w ∈ t.vars

/-- Following bindings from a variable never returns to it. -/
def Acyclic (s : Subst) : Prop := ∀ v, ¬ TransGen s.Mentions v v

variable {s : Subst} {v w : Var} {t : Term}

/-- An unbound variable has no value to mention anything. -/
theorem not_mentions_of_unbound (h : s.get? v = none) : ¬ s.Mentions v w := by
  rintro ⟨t, ht, -⟩
  rw [h] at ht
  cases ht

/-- An unbound variable leads to itself only. -/
theorem reaches_iff_of_unbound (h : s.get? v = none) :
    ReflTransGen s.Mentions v w ↔ v = w := by
  constructor
  · intro hreach
    rcases hreach.cases_head with rfl | ⟨x, hx, -⟩
    · rfl
    · exact absurd hx (not_mentions_of_unbound h)
  · rintro rfl
    exact .refl

/-- Without bindings there is no way back. -/
theorem acyclic_empty : Acyclic empty := by
  intro v h
  obtain ⟨x, hx, -⟩ := TransGen.head'_iff.mp h
  exact not_mentions_of_unbound (get?_empty v) hx

/-! ### Binding a variable -/

/-- A path through the new bindings is one through the old ones, at least as far as the variable
bound last. -/
theorem reaches_bind {x y : Var} (h : ReflTransGen (s.bind v t).Mentions x y) :
    ReflTransGen s.Mentions x y ∨ ReflTransGen s.Mentions x v := by
  induction h using ReflTransGen.head_induction_on with
  | refl => exact .inl .refl
  | @head x z hxz _ ih =>
    by_cases hv : v = x
    · subst hv
      exact .inr .refl
    · obtain ⟨u, hu, hz⟩ := hxz
      rw [get?_bind, if_neg hv] at hu
      have hold : s.Mentions x z := ⟨u, hu, hz⟩
      exact ih.imp (.head hold) (.head hold)

/-- Binding a variable to a term that does not lead to it makes no cycle. -/
theorem Acyclic.bind (h : s.Acyclic) (hocc : ∀ x ∈ t.vars, ¬ ReflTransGen s.Mentions x v) :
    (s.bind v t).Acyclic := by
  have hself : ¬ TransGen (s.bind v t).Mentions v v := by
    intro hcycle
    obtain ⟨x, ⟨u, hu, hx⟩, hback⟩ := TransGen.head'_iff.mp hcycle
    rw [get?_bind, if_pos rfl] at hu
    obtain rfl := Option.some.inj hu
    rcases reaches_bind hback with hback | hback <;> exact hocc x hx hback
  -- a cycle elsewhere goes through the new binding, or was there before
  have hsplit : ∀ {x y : Var}, TransGen (s.bind v t).Mentions x y →
      TransGen s.Mentions x y ∨
        ReflTransGen (s.bind v t).Mentions x v ∧ TransGen (s.bind v t).Mentions v y := by
    intro x y hxy
    induction hxy using TransGen.head_induction_on with
    | @single x hxy =>
      by_cases hv : v = x
      · subst hv
        exact .inr ⟨.refl, .single hxy⟩
      · obtain ⟨u, hu, hy⟩ := hxy
        rw [get?_bind, if_neg hv] at hu
        exact .inl (.single ⟨u, hu, hy⟩)
    | @head x z hxz hzy ih =>
      by_cases hv : v = x
      · subst hv
        exact .inr ⟨.refl, .head hxz hzy⟩
      · rcases ih with hzy | ⟨hzv, hvy⟩
        · obtain ⟨u, hu, hz⟩ := hxz
          rw [get?_bind, if_neg hv] at hu
          exact .inl (.head ⟨u, hu, hz⟩ hzy)
        · exact .inr ⟨.head hxz hzv, hvy⟩
  intro x hcycle
  rcases hsplit hcycle with hold | ⟨hxv, hvx⟩
  · exact h x hold
  · exact hself (hvx.trans_left hxv)

/-! ### Ranks -/

open Classical in
/-- How many bound variables a variable leads to, itself included. -/
noncomputable def rank (s : Subst) (v : Var) : Nat :=
  (s.bindings.keys.toFinset.filter fun x => ReflTransGen s.Mentions v x).card

/-- The keys of the bindings are the bound variables. -/
theorem mem_keys_iff : v ∈ s.bindings.keys ↔ ∃ t, s.get? v = some t := by
  rw [Std.TreeMap.mem_keys, Std.TreeMap.mem_iff_isSome_getElem?, Option.isSome_iff_exists]
  rfl

/-- A variable leads to no more bound variables than there are. -/
theorem rank_le_size (s : Subst) (v : Var) : s.rank v ≤ s.size := by
  classical
  calc s.rank v ≤ s.bindings.keys.toFinset.card := Finset.card_filter_le _ _
    _ ≤ s.bindings.keys.length := List.toFinset_card_le _
    _ = s.size := Std.TreeMap.length_keys

/-- A bound variable leads to itself at least. -/
theorem rank_pos (h : s.get? v = some t) : 0 < s.rank v := by
  classical
  refine Finset.card_pos.mpr ⟨v, Finset.mem_filter.mpr ⟨?_, .refl⟩⟩
  exact List.mem_toFinset.mpr (mem_keys_iff.mpr ⟨t, h⟩)

/-- A variable that leads to no bound one is unbound. -/
theorem unbound_of_rank_eq_zero (h : s.rank v = 0) : s.get? v = none := by
  rcases hv : s.get? v with _ | t
  · rfl
  · have hpos := rank_pos hv
    omega

/-- The variables of a value lead to fewer bound variables than the variable itself. -/
theorem Acyclic.rank_lt (h : s.Acyclic) (hm : s.Mentions v w) : s.rank w < s.rank v := by
  classical
  obtain ⟨t, ht, -⟩ := id hm
  refine Finset.card_lt_card ⟨?_, ?_⟩
  · intro x hx
    rw [Finset.mem_filter] at hx ⊢
    exact ⟨hx.1, .head hm hx.2⟩
  · intro hsub
    have hv : v ∈ s.bindings.keys.toFinset := List.mem_toFinset.mpr (mem_keys_iff.mpr ⟨t, ht⟩)
    have hback := (Finset.mem_filter.mp (hsub (Finset.mem_filter.mpr ⟨hv, .refl⟩))).2
    exact h v (.head' hm hback)

/-- The same for a variable that occurs in a value. -/
theorem Acyclic.rank_lt_of_mem (h : s.Acyclic) (ht : s.get? v = some t) (hw : w ∈ t.vars) :
    s.rank w < s.rank v :=
  h.rank_lt ⟨t, ht, hw⟩

/-! ### Reading with enough hops -/

section Follows

variable {α : Type} {leaf : Var → α} {read : (Var → α) → Term → α} {f : Nat → Var → α}

/-- `f hops v` is what is read of `v` when bindings are followed for at most `hops` hops: a bound
variable is read as its value is, by `read`, and where the path ends `leaf` is read. -/
structure Follows (s : Subst) (leaf : Var → α) (read : (Var → α) → Term → α)
    (f : Nat → Var → α) : Prop where
  congr : ∀ {g g' : Var → α} (t : Term), (∀ v ∈ t.vars, g v = g' v) → read g t = read g' t
  zero : ∀ v, f 0 v = leaf v
  bound : ∀ {v t} (hops : Nat), s.get? v = some t → f (hops + 1) v = read (f hops) t
  unbound : ∀ {v} (hops : Nat), s.get? v = none → f (hops + 1) v = leaf v

/-- An unbound variable is read as a leaf, with any number of hops. -/
theorem Follows.of_unbound (hf : s.Follows leaf read f) (hv : s.get? v = none) (hops : Nat) :
    f hops v = leaf v := by
  cases hops with
  | zero => exact hf.zero v
  | succ hops => exact hf.unbound hops hv

/-- More hops than the rank of a variable make no difference. -/
theorem Acyclic.follows_eq (h : s.Acyclic) (hf : s.Follows leaf read f) {hops hops' : Nat}
    (hle : s.rank v ≤ hops) (hle' : s.rank v ≤ hops') : f hops v = f hops' v := by
  induction hops generalizing v hops' with
  | zero =>
    have hnone := unbound_of_rank_eq_zero (Nat.le_zero.mp hle)
    rw [hf.of_unbound hnone, hf.of_unbound hnone]
  | succ hops ih =>
    cases hv : s.get? v with
    | none => rw [hf.of_unbound hv, hf.of_unbound hv]
    | some t =>
      have hpos := rank_pos hv
      obtain ⟨hops', rfl⟩ : ∃ k, hops' = k + 1 := ⟨hops' - 1, by omega⟩
      rw [hf.bound hops hv, hf.bound hops' hv]
      refine hf.congr t fun w hw => ?_
      have hlt := h.rank_lt_of_mem hv hw
      exact ih (by omega) (by omega)

/-- As many hops as there are bindings read a bound variable as its value. -/
theorem Acyclic.follows_of_bound (h : s.Acyclic) (hf : s.Follows leaf read f)
    (hv : s.get? v = some t) : f s.size v = read (f s.size) t := by
  have hpos := rank_pos hv
  have hle := s.rank_le_size v
  obtain ⟨hops, hhops⟩ : ∃ hops, s.size = hops + 1 := ⟨s.size - 1, by omega⟩
  rw [hhops, hf.bound hops hv, ← hhops]
  refine hf.congr t fun w hw => ?_
  have hlt := h.rank_lt_of_mem hv hw
  exact h.follows_eq hf (by omega) (s.rank_le_size w)

end Follows

/-- What variables stand for is a reading along the bindings. -/
theorem follows_resolveVarWithin (s : Subst) :
    s.Follows Term.var Term.instantiate s.resolveVarWithin where
  congr t h := Term.instantiate_congr t h
  zero _ := rfl
  bound hops hv := by rw [resolveVarWithin, hv]
  unbound hops hv := by rw [resolveVarWithin, hv]

/-- A bound variable stands for what its value stands for. -/
theorem Acyclic.resolveVar_of_bound (h : s.Acyclic) (hv : s.get? v = some t) :
    s.resolveVar v = s.resolve t :=
  h.follows_of_bound s.follows_resolveVarWithin hv

/-- With enough hops, a variable is seen to lead to an unbound one exactly if it does. -/
theorem Acyclic.leadsToWithin_iff (h : s.Acyclic) (hw : s.get? w = none) {hops : Nat}
    (hle : s.rank v ≤ hops) :
    s.leadsToWithin w hops v = true ↔ ReflTransGen s.Mentions v w := by
  induction hops generalizing v with
  | zero =>
    have hv := unbound_of_rank_eq_zero (Nat.le_zero.mp hle)
    rw [leadsToWithin, beq_iff_eq, reaches_iff_of_unbound hv]
  | succ hops ih =>
    cases hv : s.get? v with
    | none => simp only [leadsToWithin, hv, beq_iff_eq, reaches_iff_of_unbound hv]
    | some t =>
      have hrank : ∀ x ∈ t.vars, s.rank x ≤ hops := by
        intro x hx
        have hlt := h.rank_lt_of_mem hv hx
        omega
      simp only [leadsToWithin, hv, List.any_eq_true]
      constructor
      · rintro ⟨x, hx, hlead⟩
        exact .head ⟨t, hv, hx⟩ ((ih (hrank x hx)).mp hlead)
      · intro hreach
        rcases hreach.cases_head with rfl | ⟨x, ⟨u, hu, hx⟩, hrest⟩
        · rw [hv] at hw
          cases hw
        · rw [hv] at hu
          obtain rfl := Option.some.inj hu
          exact ⟨x, hx, (ih (hrank x hx)).mpr hrest⟩

/-- The occurs check finds an unbound variable exactly if the term leads to it. -/
theorem Acyclic.occurs_iff (h : s.Acyclic) (hw : s.get? w = none) :
    s.occurs w t = true ↔ ∃ x ∈ t.vars, ReflTransGen s.Mentions x w := by
  simp only [occurs, List.any_eq_true, h.leadsToWithin_iff hw (s.rank_le_size _)]

/-- Followed far enough, a term is no bound variable. -/
theorem Acyclic.walkWithin_unbound (h : s.Acyclic) {hops : Nat} (hle : s.rank v ≤ hops)
    (hw : s.walkWithin hops (.var v) = .var w) : s.get? w = none := by
  induction hops generalizing v with
  | zero =>
    obtain rfl : v = w := by simpa [walkWithin] using hw
    exact unbound_of_rank_eq_zero (Nat.le_zero.mp hle)
  | succ hops ih =>
    cases hv : s.get? v with
    | none =>
      simp only [walkWithin, hv] at hw
      obtain rfl := Term.var.inj hw
      exact hv
    | some t =>
      simp only [walkWithin, hv] at hw
      cases t with
      | var x =>
        have hlt := h.rank_lt_of_mem hv (w := x) (by simp)
        exact ih (by omega) hw
      | int | text | compound => cases hops <;> cases hw

/-- A term is followed as far as it goes, so a variable at the end is unbound. -/
theorem Acyclic.walk_unbound (h : s.Acyclic) (hw : s.walk t = .var w) : s.get? w = none := by
  cases t with
  | var v => exact h.walkWithin_unbound (s.rank_le_size v) hw
  | int | text | compound =>
    rw [walk] at hw
    cases hsize : s.size <;> rw [hsize] at hw <;> cases hw

end LogicMachine.Subst
