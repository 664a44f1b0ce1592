import LogicMachine.Proofs.Subst.Solutions

/-!
# Reading through bindings

As long as no variable leads back to itself, what is read of a bound variable is what is read of its
value, whether the bindings are followed at the root, throughout, or for the variables that are left.
A term can therefore be taken apart from the root down: first it is followed, then its arguments are.
-/

namespace LogicMachine.Subst

open Relation

variable {s : Subst} {v w : Var} {t : Term}

/-- Induction along the bindings: a bound variable may use the claim for the variables of its
value. -/
theorem Acyclic.induction (h : s.Acyclic) {motive : Var → Prop}
    (unbound : ∀ v, s.get? v = none → motive v)
    (bound : ∀ v t, s.get? v = some t → (∀ w ∈ t.vars, motive w) → motive v) :
    ∀ v, motive v := by
  intro v
  induction hrank : s.rank v using Nat.strong_induction_on generalizing v with
  | _ n ih =>
    cases hv : s.get? v with
    | none => exact unbound v hv
    | some t =>
      refine bound v t hv fun w hw => ?_
      exact ih _ (hrank ▸ h.rank_lt_of_mem hv hw) w rfl

/-! ### At the root -/

/-- What is read of a bound variable as of its value is read of a term as of what it is followed
to. -/
theorem read_walk {α : Type} {read : Term → α}
    (hread : ∀ v t, s.get? v = some t → read (.var v) = read t) (t : Term) :
    read (s.walk t) = read t := by
  have hwithin : ∀ hops t, read (s.walkWithin hops t) = read t := by
    intro hops
    induction hops with
    | zero =>
      intro t
      cases t <;> rfl
    | succ hops ih =>
      intro t
      cases t with
      | var v =>
        simp only [walkWithin]
        cases hv : s.get? v with
        | none => rfl
        | some u => exact (ih u).trans (hread v u hv).symm
      | int | text | compound => rfl
  exact hwithin s.size t

/-- A term that is no variable is not followed. -/
theorem walk_of_var?_eq_none (h : t.var? = none) : s.walk t = t := by
  rw [walk]
  cases t with
  | var v => cases h
  | int | text | compound => cases s.size <;> rfl

/-- An unbound variable is the end of the way. -/
theorem walk_of_unbound (hv : s.get? v = none) : s.walk (.var v) = .var v := by
  rw [walk]
  cases s.size <;> simp only [walkWithin, hv]

/-- A variable that is followed on, or another term that is left alone. -/
def followed (g : Var → Term) : Term → Term
  | .var v => g v
  | t => t

/-- Following a term is following the variable that it is, if it is one. -/
theorem walkWithin_eq_followed (s : Subst) (hops : Nat) (t : Term) :
    s.walkWithin hops t = followed (fun v => s.walkWithin hops (.var v)) t := by
  cases t with
  | var v => rfl
  | int | text | compound => cases hops <;> rfl

/-- Following at the root is a reading along the bindings. -/
theorem follows_walkWithin (s : Subst) :
    s.Follows Term.var followed fun hops v => s.walkWithin hops (.var v) where
  congr t h := by
    cases t with
    | var v => exact h v (by simp)
    | int | text | compound => rfl
  zero _ := rfl
  bound hops hv := by simp only [walkWithin, hv, ← walkWithin_eq_followed]
  unbound hops hv := by simp only [walkWithin, hv]

/-- A bound variable is followed to where its value is followed to. -/
theorem Acyclic.walk_of_bound (h : s.Acyclic) (hv : s.get? v = some t) :
    s.walk (.var v) = s.walk t :=
  (h.follows_of_bound s.follows_walkWithin hv).trans (s.walkWithin_eq_followed s.size t).symm

/-! ### Throughout -/

/-- An unbound variable stands for itself. -/
theorem resolveVar_of_unbound (hv : s.get? v = none) : s.resolveVar v = .var v :=
  s.follows_resolveVarWithin.of_unbound hv s.size

/-- A term stands for what it stands for once it is followed at its root. -/
theorem Acyclic.resolve_walk (h : s.Acyclic) (t : Term) : s.resolve (s.walk t) = s.resolve t :=
  read_walk (fun v u hv => by rw [resolve_var, h.resolveVar_of_bound hv]) t

/-- What a variable stands for, with at most `hops` bindings followed on every path and nothing
evaluated. -/
def expandWithin (s : Subst) : (hops : Nat) → Valuation
  | 0, v => .var v
  | hops + 1, v =>
    match s.get? v with
    | some t => t.apply (s.expandWithin hops)
    | none => .var v

/-- What a variable stands for when nothing is evaluated. -/
def expand (s : Subst) : Valuation := s.expandWithin s.size

/-- What variables stand for, with nothing evaluated, is a reading along the bindings. -/
theorem follows_expandWithin (s : Subst) : s.Follows Term.var Term.apply s.expandWithin where
  congr _ h := Term.apply_congr h
  zero _ := rfl
  bound hops hv := by rw [expandWithin, hv]
  unbound hops hv := by rw [expandWithin, hv]

/-- With nothing evaluated too, an unbound variable stands for itself. -/
theorem expand_of_unbound (hv : s.get? v = none) : s.expand v = .var v :=
  s.follows_expandWithin.of_unbound hv s.size

/-- Every acyclic substitution is satisfied by some valuation: by what its variables stand for. -/
theorem Acyclic.satisfiedBy_expand (h : s.Acyclic) : s.SatisfiedBy s.expand :=
  fun _ _ hv => h.follows_of_bound s.follows_expandWithin hv

/-! ### The variables that are left -/

/-- The unbound variables that a term leads to, with repeats. -/
def leaves (s : Subst) (t : Term) : List Var := t.vars.flatMap (s.leavesWithin s.size)

/-- The unbound variables of a term are those that are left in it, without repeats. -/
theorem unboundVars_eq_eraseDups (s : Subst) (t : Term) :
    s.unboundVars t = (s.leaves t).eraseDups := rfl

/-- What is left in a compound is what is left in its arguments, from left to right. -/
theorem leaves_compound (s : Subst) (f : Functor) (args : List Term) :
    s.leaves (.compound f args) = args.flatMap s.leaves := by
  rw [leaves, Term.vars_compound, List.flatMap_assoc]
  rfl

/-- The variables that are left are a reading along the bindings. -/
theorem follows_leavesWithin (s : Subst) :
    s.Follows (fun v => [v]) (fun g t => t.vars.flatMap g) s.leavesWithin where
  congr _ h := List.flatMap_congr h
  zero _ := rfl
  bound hops hv := by rw [leavesWithin, hv]
  unbound hops hv := by rw [leavesWithin, hv]

/-- What is left of an unbound variable is itself. -/
theorem leaves_of_unbound (hv : s.get? v = none) : s.leaves (.var v) = [v] := by
  rw [leaves, Term.vars_var, List.flatMap_singleton,
    s.follows_leavesWithin.of_unbound hv s.size]

/-- What is left of a bound variable is what is left in its value. -/
theorem Acyclic.leaves_of_bound (h : s.Acyclic) (hv : s.get? v = some t) :
    s.leaves (.var v) = s.leaves t := by
  rw [leaves, Term.vars_var, List.flatMap_singleton]
  exact h.follows_of_bound s.follows_leavesWithin hv

/-- Following a term at its root leaves the same variables. -/
theorem Acyclic.leaves_walk (h : s.Acyclic) (t : Term) : s.leaves (s.walk t) = s.leaves t :=
  read_walk (fun _ _ hv => h.leaves_of_bound hv) t

/-- The variables that are left are the unbound ones that the term leads to. -/
theorem Acyclic.mem_leaves_iff (h : s.Acyclic) :
    w ∈ s.leaves t ↔ s.get? w = none ∧ ∃ x ∈ t.vars, ReflTransGen s.Mentions x w := by
  have hunbound : ∀ v, ∀ w ∈ s.leaves (.var v), s.get? w = none := by
    refine h.induction (fun v hv w hw => ?_) fun v t hv ih w hw => ?_
    · rw [leaves_of_unbound hv, List.mem_singleton] at hw
      rwa [hw]
    · rw [h.leaves_of_bound hv, leaves, List.mem_flatMap] at hw
      obtain ⟨x, hx, hw⟩ := hw
      exact ih x hx w (by rwa [leaves, Term.vars_var, List.flatMap_singleton])
  rw [leaves, List.mem_flatMap]
  constructor
  · rintro ⟨x, hx, hw⟩
    have hnone : s.get? w = none :=
      hunbound x w (by rwa [leaves, Term.vars_var, List.flatMap_singleton])
    refine ⟨hnone, x, hx, ?_⟩
    rwa [← h.leadsToWithin_iff hnone (s.rank_le_size x), leadsToWithin_eq_true_iff]
  · rintro ⟨hnone, x, hx, hreach⟩
    refine ⟨x, hx, ?_⟩
    rwa [← leadsToWithin_eq_true_iff, h.leadsToWithin_iff hnone (s.rank_le_size x)]

/-- The unbound variables of a term are those that bindings lead to from its variables. -/
theorem Acyclic.mem_unboundVars_iff (h : s.Acyclic) :
    w ∈ s.unboundVars t ↔ s.get? w = none ∧ ∃ x ∈ t.vars, ReflTransGen s.Mentions x w := by
  rw [unboundVars_eq_eraseDups, List.mem_eraseDups, h.mem_leaves_iff]

/-! ### From the root down -/

/-- Induction on lists of terms, from the root down: a list may use the claim for the arguments of
what its first term is followed to, and for its other terms. -/
theorem Acyclic.walk_induction (h : s.Acyclic) {motive : List Term → Prop} (nil : motive [])
    (cons : ∀ t ts, motive (s.walk t).children → motive ts → motive (t :: ts)) :
    ∀ ts, motive ts := by
  -- the sizes of what the terms stand for become smaller on the way down
  have hbounded : ∀ n ts, (∀ t ∈ ts, (t.apply s.expand).nodes ≤ n) → motive ts := by
    intro n
    induction n with
    | zero =>
      intro ts hts
      cases ts with
      | nil => exact nil
      | cons t ts =>
        have hle := (List.forall_mem_cons.mp hts).1
        cases ht : t.apply s.expand <;> simp [ht, Term.nodes] at hle
    | succ n ihn =>
      intro ts hts
      induction ts with
      | nil => exact nil
      | cons t ts ihts =>
        obtain ⟨hle, hrest⟩ := List.forall_mem_cons.mp hts
        refine cons t ts (ihn _ fun a ha => ?_) (ihts hrest)
        have hlt := Term.nodes_lt_of_mem_children (θ := s.expand) ha
        rw [h.satisfiedBy_expand.walk t] at hlt
        omega
  intro ts
  exact hbounded _ ts fun t ht => Term.nodes_le_nodesAll_of_mem (List.mem_map_of_mem ht)

end LogicMachine.Subst
