import LogicMachine.Proofs.Subst.Reading

/-!
# Readings told by rules

Reading a term through bindings is told here by rules that know of no bound on how far they go: a
derivation is a recursion that has come to its end. As long as no variable leads back to itself, every
reading has a derivation, and it derives what is computed with a bound. Lists of terms are read from
left to right, which puts a term and its arguments under the same rules.
-/

namespace LogicMachine

/-- The term with these arguments instead of its own, if it is a compound. -/
def Term.withChildren (args : List Term) : Term → Term
  | .compound f _ => .compound f args
  | t => t

namespace Subst

variable {s : Subst} {v w : Var} {t t' r : Term} {ts rs : List Term}

/-! ### Following a chain of variables -/

/-- `s.WalksTo t r`: following `t` at its root ends in `r`. -/
inductive WalksTo (s : Subst) : Term → Term → Prop
  | bound {v : Var} {t r : Term} (hv : s.get? v = some t) (h : WalksTo s t r) :
      WalksTo s (.var v) r
  | unbound {v : Var} (hv : s.get? v = none) : WalksTo s (.var v) (.var v)
  | nonVar {t : Term} (ht : t.var? = none) : WalksTo s t t

/-- A variable at which the way ends is unbound. -/
theorem WalksTo.unbound_of_var (h : s.WalksTo t r) (hr : r = .var v) : s.get? v = none := by
  induction h with
  | bound _ _ ih => exact ih hr
  | unbound hv =>
    obtain rfl := Term.var.inj hr
    exact hv
  | nonVar ht =>
    subst hr
    cases ht

/-- A derivation for what is computed, by induction along the bindings. -/
theorem Acyclic.walksTo_walk (h : s.Acyclic) (t : Term) : s.WalksTo t (s.walk t) := by
  have hvar : ∀ v, s.WalksTo (.var v) (s.walk (.var v)) := by
    refine h.induction (fun v hv => ?_) fun v t hv ih => ?_
    · rw [walk_of_unbound hv]
      exact .unbound hv
    · rw [h.walk_of_bound hv]
      refine .bound hv ?_
      cases t with
      | var w => exact ih w (by simp)
      | int | text | compound =>
        rw [walk_of_var?_eq_none rfl]
        exact .nonVar rfl
  cases t with
  | var v => exact hvar v
  | int | text | compound =>
    rw [walk_of_var?_eq_none rfl]
    exact .nonVar rfl

/-- Nothing is derived but what is computed. -/
theorem Acyclic.walksTo_iff (h : s.Acyclic) : s.WalksTo t r ↔ r = s.walk t := by
  constructor
  · intro hw
    induction hw with
    | bound hv _ ih => rw [ih, h.walk_of_bound hv]
    | unbound hv => rw [walk_of_unbound hv]
    | nonVar ht => rw [walk_of_var?_eq_none ht]
  · rintro rfl
    exact h.walksTo_walk t

/-- A term is followed to an unbound variable or to a term that is no variable. -/
theorem Acyclic.walk_cases (h : s.Acyclic) (t : Term) :
    (∃ v, s.walk t = .var v ∧ s.get? v = none) ∨ (s.walk t).var? = none := by
  cases hw : s.walk t with
  | var v => exact .inl ⟨v, rfl, h.walk_unbound hw⟩
  | int | text | compound => exact .inr rfl

/-! ### Reading throughout -/

/-- `s.DeepWalksTo ts rs`: reading the terms `ts` throughout, and evaluating what has become ground
on the way back, ends in `rs`. -/
inductive DeepWalksTo (s : Subst) : List Term → List Term → Prop
  | nil : DeepWalksTo s [] []
  | var {v : Var} {t : Term} {ts rs : List Term} (ht : s.WalksTo t (.var v))
      (rest : DeepWalksTo s ts rs) : DeepWalksTo s (t :: ts) (.var v :: rs)
  | nonVar {t t' : Term} {ts rs args : List Term} (ht : s.WalksTo t t') (ht' : t'.var? = none)
      (inside : DeepWalksTo s t'.children args) (rest : DeepWalksTo s ts rs) :
      DeepWalksTo s (t :: ts) ((t'.withChildren args).reduce :: rs)

/-- A term other than a variable is resolved argument by argument and then reduced. -/
theorem resolve_of_var?_eq_none (ht : t.var? = none) :
    s.resolve t = (t.withChildren (t.children.map s.resolve)).reduce := by
  cases t with
  | var v => cases ht
  | int | text => simp only [resolve, Term.instantiate_int, Term.instantiate_text]; rfl
  | compound f args => exact resolve_compound s f args

/-- Reading throughout derives just what the terms stand for. -/
theorem Acyclic.deepWalksTo_iff (h : s.Acyclic) : s.DeepWalksTo ts rs ↔ rs = ts.map s.resolve := by
  constructor
  · intro hd
    induction hd with
    | nil => rfl
    | var ht _ ih =>
      rw [ih, List.map_cons, ← h.resolve_walk, ← h.walksTo_iff.mp ht, resolve_var,
        resolveVar_of_unbound (ht.unbound_of_var rfl)]
    | nonVar ht ht' _ _ ihargs ih =>
      rw [ih, ihargs, List.map_cons, ← resolve_of_var?_eq_none ht', h.walksTo_iff.mp ht,
        h.resolve_walk]
  · rintro rfl
    induction ts using h.walk_induction with
    | nil => exact .nil
    | cons t ts ihargs ih =>
      rw [List.map_cons, ← h.resolve_walk]
      rcases h.walk_cases t with ⟨v, hv, hnone⟩ | hvar
      · rw [hv, resolve_var, resolveVar_of_unbound hnone]
        exact .var (h.walksTo_iff.mpr hv.symm) ih
      · rw [resolve_of_var?_eq_none hvar]
        exact .nonVar (h.walksTo_walk t) hvar ihargs ih

/-! ### Looking for a variable -/

/-- `s.Finds w ts b`: looking for the variable `w` in the terms `ts`, up to the first place where it
is, ends with the answer `b`. -/
inductive Finds (s : Subst) (w : Var) : List Term → Bool → Prop
  | nil : Finds s w [] false
  | here {t : Term} {ts : List Term} (ht : s.WalksTo t (.var w)) : Finds s w (t :: ts) true
  | elsewhere {v : Var} {t : Term} {ts : List Term} {b : Bool} (ht : s.WalksTo t (.var v))
      (hne : v ≠ w) (rest : Finds s w ts b) : Finds s w (t :: ts) b
  | inside {t t' : Term} {ts : List Term} (ht : s.WalksTo t t') (ht' : t'.var? = none)
      (args : Finds s w t'.children true) : Finds s w (t :: ts) true
  | outside {t t' : Term} {ts : List Term} {b : Bool} (ht : s.WalksTo t t') (ht' : t'.var? = none)
      (args : Finds s w t'.children false) (rest : Finds s w ts b) : Finds s w (t :: ts) b

/-- Looking for a variable is a reading along the bindings. -/
theorem follows_leadsToWithin (s : Subst) (w : Var) :
    s.Follows (· == w) (fun g t => t.vars.any g) (s.leadsToWithin w) where
  congr t h := by
    rw [Bool.eq_iff_iff, List.any_eq_true, List.any_eq_true]
    exact exists_congr fun v => and_congr_right fun hv => by rw [h v hv]
  zero _ := rfl
  bound hops hv := by rw [leadsToWithin, hv]
  unbound hops hv := by rw [leadsToWithin, hv]

/-- In an unbound variable nothing occurs but itself. -/
theorem occurs_of_unbound (hv : s.get? v = none) : s.occurs w (.var v) = (v == w) := by
  rw [occurs, Term.vars_var, List.any_cons, List.any_nil, Bool.or_false,
    (s.follows_leadsToWithin w).of_unbound hv]

/-- A variable occurs in a term if it occurs in one of its arguments. -/
theorem occurs_of_var?_eq_none (ht : t.var? = none) :
    s.occurs w t = t.children.any (s.occurs w) := by
  cases t with
  | var v => cases ht
  | int | text => simp [occurs, Term.children]
  | compound f args =>
    rw [occurs, Term.vars_compound, List.any_flatMap]
    rfl

/-- Following a term at its root does not change what occurs in it. -/
theorem Acyclic.occurs_walk (h : s.Acyclic) (w : Var) (t : Term) :
    s.occurs w (s.walk t) = s.occurs w t := by
  refine read_walk (fun v u hv => ?_) t
  rw [occurs, Term.vars_var, List.any_cons, List.any_nil, Bool.or_false]
  exact h.follows_of_bound (s.follows_leadsToWithin w) hv

/-- Looking through some terms derives whether the variable occurs in one of them. -/
theorem Acyclic.finds_iff (h : s.Acyclic) {b : Bool} :
    s.Finds w ts b ↔ b = ts.any (s.occurs w) := by
  constructor
  -- a derivation is followed by its rules; following the head term changes neither side
  · intro hf
    induction hf with
    | nil => rfl
    | here ht =>
      rw [List.any_cons, ← h.occurs_walk, ← h.walksTo_iff.mp ht,
        occurs_of_unbound (ht.unbound_of_var rfl), beq_self_eq_true, Bool.true_or]
    | elsewhere ht hne _ ih =>
      rw [List.any_cons, ← h.occurs_walk, ← h.walksTo_iff.mp ht,
        occurs_of_unbound (ht.unbound_of_var rfl), beq_false_of_ne hne, Bool.false_or, ih]
    | inside ht ht' _ ihargs =>
      rw [List.any_cons, ← h.occurs_walk, ← h.walksTo_iff.mp ht, occurs_of_var?_eq_none ht',
        ← ihargs, Bool.true_or]
    | outside ht ht' _ _ ihargs ih =>
      rw [List.any_cons, ← h.occurs_walk, ← h.walksTo_iff.mp ht, occurs_of_var?_eq_none ht',
        ← ihargs, Bool.false_or, ih]
  · rintro rfl
    -- conversely the terms are followed one by one, which ends as no variable leads to itself
    induction ts using h.walk_induction with
    | nil => exact .nil
    | cons t ts ihargs ih =>
      rw [List.any_cons, ← h.occurs_walk]
      rcases h.walk_cases t with ⟨v, hv, hnone⟩ | hvar
      · have ht : s.WalksTo t (.var v) := h.walksTo_iff.mpr hv.symm
        rw [hv, occurs_of_unbound hnone]
        by_cases hvw : v = w
        · subst hvw
          rw [beq_self_eq_true, Bool.true_or]
          exact .here ht
        · rw [beq_false_of_ne hvw, Bool.false_or]
          exact .elsewhere ht hvw ih
      · rw [occurs_of_var?_eq_none hvar]
        cases hargs : (s.walk t).children.any (s.occurs w) with
        | true => exact .inside (h.walksTo_walk t) hvar (hargs ▸ ihargs)
        | false => exact .outside (h.walksTo_walk t) hvar (hargs ▸ ihargs) ih

/-! ### Collecting variables -/

/-- `s.Collects ts found found'`: collecting the unbound variables of the terms `ts`, when the ones in
`found` are known already, ends with `found'`. -/
inductive Collects (s : Subst) : List Term → List Var → List Var → Prop
  | nil (found : List Var) : Collects s [] found found
  | known {v : Var} {t : Term} {ts : List Term} {found found' : List Var}
      (ht : s.WalksTo t (.var v)) (hv : v ∈ found) (rest : Collects s ts found found') :
      Collects s (t :: ts) found found'
  | new {v : Var} {t : Term} {ts : List Term} {found found' : List Var}
      (ht : s.WalksTo t (.var v)) (hv : v ∉ found) (rest : Collects s ts (found ++ [v]) found') :
      Collects s (t :: ts) found found'
  | nonVar {t t' : Term} {ts : List Term} {found found' found'' : List Var} (ht : s.WalksTo t t')
      (ht' : t'.var? = none) (inside : Collects s t'.children found found')
      (rest : Collects s ts found' found'') : Collects s (t :: ts) found found''

/-- Add the variables that are not yet there, one by one. -/
def gather (found vs : List Var) : List Var :=
  vs.foldl (fun found v => if v ∈ found then found else found ++ [v]) found

/-- Variables may be added in two goes. -/
theorem gather_append (found vs vs' : List Var) :
    gather found (vs ++ vs') = gather (gather found vs) vs' :=
  List.foldl_append

/-- Added to nothing, the variables are listed without repeats, each at its first appearance. -/
theorem gather_nil_eq_eraseDups (vs : List Var) : gather [] vs = vs.eraseDups := by
  have hloop : ∀ vs acc : List Var,
      gather acc.reverse vs = List.eraseDupsBy.loop (· == ·) vs acc := by
    intro vs
    induction vs with
    | nil => exact fun acc => rfl
    | cons v vs ih =>
      intro acc
      rw [List.eraseDupsBy.loop, gather, List.foldl_cons]
      by_cases hv : v ∈ acc
      · have hany : acc.any (v == ·) = true := List.any_eq_true.mpr ⟨v, hv, beq_self_eq_true v⟩
        rw [if_pos (List.mem_reverse.mpr hv), hany]
        exact ih acc
      · have hany : acc.any (v == ·) = false := by
          rw [List.any_eq_false]
          rintro x hx heq
          exact hv (beq_iff_eq.mp heq ▸ hx)
        rw [if_neg (mt List.mem_reverse.mp hv), hany, ← List.reverse_cons]
        exact ih (v :: acc)
  exact hloop vs []

/-- What is left in a term other than a variable is what is left in its arguments. -/
theorem leaves_of_var?_eq_none (ht : t.var? = none) :
    s.leaves t = t.children.flatMap s.leaves := by
  cases t with
  | var v => cases ht
  | int | text => simp [leaves, Term.children]
  | compound f args => exact leaves_compound s f args

/-- Collecting adds the unbound variables that the terms lead to, in the order in which they are
met. -/
theorem Acyclic.collects_iff (h : s.Acyclic) {found found' : List Var} :
    s.Collects ts found found' ↔ found' = gather found (ts.flatMap s.leaves) := by
  constructor
  · intro hc
    induction hc with
    | nil => rfl
    | known ht hv _ ih =>
      rw [ih, List.flatMap_cons, ← h.leaves_walk, ← h.walksTo_iff.mp ht,
        leaves_of_unbound (ht.unbound_of_var rfl), gather_append]
      exact congrArg (gather · _) (if_pos hv).symm
    | new ht hv _ ih =>
      rw [ih, List.flatMap_cons, ← h.leaves_walk, ← h.walksTo_iff.mp ht,
        leaves_of_unbound (ht.unbound_of_var rfl), gather_append]
      exact congrArg (gather · _) (if_neg hv).symm
    | nonVar ht ht' _ _ ihargs ih =>
      rw [ih, ihargs, List.flatMap_cons, ← h.leaves_walk, ← h.walksTo_iff.mp ht,
        leaves_of_var?_eq_none ht', gather_append]
  · rintro rfl
    induction ts using h.walk_induction generalizing found with
    | nil => exact .nil found
    | cons t ts ihargs ih =>
      rw [List.flatMap_cons, ← h.leaves_walk, gather_append]
      rcases h.walk_cases t with ⟨v, hv, hnone⟩ | hvar
      · have ht : s.WalksTo t (.var v) := h.walksTo_iff.mpr hv.symm
        rw [hv, leaves_of_unbound hnone]
        by_cases hfound : v ∈ found
        · have hgather : gather found [v] = found := if_pos hfound
          rw [hgather]
          exact .known ht hfound ih
        · have hgather : gather found [v] = found ++ [v] := if_neg hfound
          rw [hgather]
          exact .new ht hfound ih
      · rw [leaves_of_var?_eq_none hvar]
        exact .nonVar (h.walksTo_walk t) hvar ihargs ih

end Subst

end LogicMachine
