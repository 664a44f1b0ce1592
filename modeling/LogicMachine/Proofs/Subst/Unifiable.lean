import LogicMachine.Proofs.Subst.Unification

/-!
# Unification finds what there is to find

When a valuation satisfies the substitution and makes two terms equal, unification succeeds and the
valuation satisfies what it has bound. The depth suffices: along a path into the terms the values of
the compounds become smaller, so that none of them comes twice, and all of them are parts of the two
terms or of values bound before.
-/

namespace LogicMachine

namespace Term

mutual

/-- The term and all its parts. -/
def subterms : Term → List Term
  | .var v => [.var v]
  | .int i => [.int i]
  | .text s => [.text s]
  | .compound f args => .compound f args :: subtermsAll args

/-- All parts of the terms of a list. -/
def subtermsAll : List Term → List Term
  | [] => []
  | t :: ts => subterms t ++ subtermsAll ts

end

/-- The parts of a list are the parts of its terms, one after another. -/
theorem subtermsAll_eq_flatMap (ts : List Term) : subtermsAll ts = ts.flatMap subterms := by
  induction ts with
  | nil => rfl
  | cons t ts ih => simp [subtermsAll, ih]

/-- A term is a part of itself. -/
theorem self_mem_subterms (t : Term) : t ∈ t.subterms := by
  cases t <;> simp [subterms]

/-- Each node is the root of one part. -/
theorem length_subterms (t : Term) : t.subterms.length = t.nodes := by
  induction t with
  | var v => simp [subterms, nodes]
  | int i => simp [subterms, nodes]
  | text s => simp [subterms, nodes]
  | compound f args ih =>
    have hall : (subtermsAll args).length = nodesAll args := by
      induction args with
      | nil => rfl
      | cons a args ih' =>
        rw [List.forall_mem_cons] at ih
        rw [subtermsAll, nodesAll, List.length_append, ih.1, ih' ih.2]
    rw [subterms, List.length_cons, hall, nodes_compound]

/-- The parts of a part are parts. -/
theorem hereditary_subterms (t : Term) : Hereditary (· ∈ t.subterms) := by
  intro f args hmem a ha
  induction t with
  | var v => simp [subterms] at hmem
  | int i => simp [subterms] at hmem
  | text s => simp [subterms] at hmem
  | compound g bs ih =>
    rw [subterms, List.mem_cons, subtermsAll_eq_flatMap, List.mem_flatMap] at hmem ⊢
    rcases hmem with heq | ⟨b, hb, hmem⟩
    · obtain ⟨rfl, rfl⟩ := Term.compound.inj heq
      exact .inr ⟨a, ha, self_mem_subterms a⟩
    · exact .inr ⟨b, hb, ih b hb hmem⟩

/-- Arguments of parts of some terms are parts of them. -/
theorem hereditary_flatMap_subterms (ts : List Term) : Hereditary (· ∈ ts.flatMap subterms) := by
  intro f args hmem a ha
  obtain ⟨t, ht, hmem⟩ := List.mem_flatMap.mp hmem
  exact List.mem_flatMap.mpr ⟨t, ht, hereditary_subterms t f args hmem a ha⟩

/-- How many of the terms have values of at most `size` nodes. -/
def upToSize (T : Finset Term) (θ : Valuation) (size : Nat) : Nat :=
  (T.filter fun t => (t.apply θ).nodes ≤ size).card

/-- A term whose value is larger than the bound is left out by it, and counted by its own size. -/
theorem upToSize_lt {T : Finset Term} {θ : Valuation} {t : Term} (ht : t ∈ T) {size : Nat}
    (hlt : size < (t.apply θ).nodes) : upToSize T θ size < upToSize T θ (t.apply θ).nodes := by
  refine Finset.card_lt_card ⟨?_, ?_⟩
  · intro u hu
    rw [Finset.mem_filter] at hu ⊢
    exact ⟨hu.1, hu.2.trans hlt.le⟩
  · intro hsub
    have hmem := (Finset.mem_filter.mp (hsub (Finset.mem_filter.mpr ⟨ht, le_rfl⟩))).2
    omega

end Term

namespace Unifier

variable {T : Finset Term} {θ : Valuation} {u : Unifier}

/-- A variable does not occur in another term that has the same value. -/
theorem occurs_eq_false {s : Subst} (h : s.Acyclic) {a : Var} {t : Term} (ha : s.get? a = none)
    (ht : ∀ b, t = .var b → s.get? b = none) (hne : t ≠ .var a) (hθ : s.SatisfiedBy θ)
    (heq : θ a = t.apply θ) : s.occurs a t = false := by
  rw [← Bool.not_eq_true, h.occurs_iff ha]
  rintro ⟨w, hw, hreach⟩
  have hle := hθ.nodes_le hreach
  cases t with
  | var b =>
    obtain rfl : w = b := by simpa using hw
    exact hne (congrArg _ ((Subst.reaches_iff_of_unbound (ht w rfl)).mp hreach))
  | int i => simp at hw
  | text s => simp at hw
  | compound f args =>
    have hlt := Term.nodes_lt_of_mem_vars (θ := θ) hw
    rw [heq] at hle
    omega

/-- If every pair of arguments can be made equal by a valuation that satisfies the substitution,
they unify in step. -/
theorem inStep_complete {depth : Nat} {as bs : List Term} (hT : Term.Hereditary (· ∈ T))
    (h : u.subst.Acyclic) (hvals : u.subst.ValuesIn (· ∈ T)) (hθ : u.subst.SatisfiedBy θ)
    (has : ∀ a ∈ as, a ∈ T) (hbs : ∀ b ∈ bs, b ∈ T)
    (hstep : ∀ (u : Unifier) (a b : Term), a ∈ as → a ∈ T → b ∈ T → u.subst.Acyclic →
      u.subst.ValuesIn (· ∈ T) → u.subst.SatisfiedBy θ → a.apply θ = b.apply θ →
      ∃ u', unifyWithin depth u a b = (true, u') ∧ u'.subst.SatisfiedBy θ)
    (hall : List.Forall₂ (fun a b => a.apply θ = b.apply θ) as bs) :
    ∃ u', inStep (unifyWithin depth) u as bs = (true, u') ∧ u'.subst.SatisfiedBy θ := by
  induction hall generalizing u with
  | nil => exact ⟨u, rfl, hθ⟩
  | @cons a b as bs hab _ ih =>
    rw [List.forall_mem_cons] at has hbs
    obtain ⟨u', hr, hθ'⟩ :=
      hstep u a b List.mem_cons_self has.1 hbs.1 h hvals hθ hab
    have hgrown := grown_unifyWithin hT depth h hvals has.1 hbs.1
    rw [hr] at hgrown
    rw [inStep, hr]
    exact ih (hgrown.acyclic h) (hgrown.valuesIn hvals) hθ' has.2 hbs.2
      fun u a b ha => hstep u a b (List.mem_cons_of_mem _ ha)

/-- With enough depth, terms that can be made equal are. -/
theorem unifyWithin_complete (hT : Term.Hereditary (· ∈ T)) {depth : Nat} {x y : Term}
    (h : u.subst.Acyclic) (hvals : u.subst.ValuesIn (· ∈ T)) (hx : x ∈ T) (hy : y ∈ T)
    (hθ : u.subst.SatisfiedBy θ) (heq : x.apply θ = y.apply θ)
    (hdepth : Term.upToSize T θ (x.apply θ).nodes < depth) :
    ∃ u', u.unifyWithin depth x y = (true, u') ∧ u'.subst.SatisfiedBy θ := by
  induction depth generalizing u x y with
  | zero => omega
  | succ depth ih =>
    have hx' : u.subst.walk x ∈ T := hvals.walk hx
    have hy' : u.subst.walk y ∈ T := hvals.walk hy
    rw [← hθ.walk x] at hdepth
    rw [← hθ.walk x, ← hθ.walk y] at heq
    have hbind : ∀ {a : Var} {t : Term}, u.subst.get? a = none →
        (∀ b, t = .var b → u.subst.get? b = none) → t ≠ .var a → θ a = t.apply θ →
        ∃ u', u.bind a t = (true, u') ∧ u'.subst.SatisfiedBy θ := by
      intro a t ha ht hne hat
      refine ⟨_, if_neg (Bool.not_eq_true _ ▸ occurs_eq_false h ha ht hne hθ hat), ?_⟩
      exact (Subst.satisfiedBy_bind ha).mpr ⟨hθ, hat⟩
    generalize hr : u.unifyWithin (depth + 1) x y = r
    cases hr ▸ u.unifyWithin_layer depth x y with
    | same => exact ⟨u, rfl, hθ⟩
    | bind hne hwalk =>
      rcases hwalk with ⟨ha, rfl⟩ | ⟨ha, rfl⟩
      · rw [ha, Term.apply_var] at heq
        exact hbind (h.walk_unbound ha) (fun b hb => h.walk_unbound hb) hne heq
      · rw [ha, Term.apply_var] at heq
        exact hbind (h.walk_unbound ha) (fun b hb => h.walk_unbound hb) hne heq.symm
    | descend hagree =>
      rw [Term.apply_eq_iff_of_headsAgree hagree] at heq
      refine inStep_complete hT h hvals hθ (hT.children hx') (hT.children hy') ?_ heq
      intro u' a b ha haT hbT h' hvals' hθ' hab
      refine ih h' hvals' haT hbT hθ' hab ?_
      -- the argument's value is smaller than the compound's, which is one of the terms
      have hfewer := Term.upToSize_lt hx' (Term.nodes_lt_of_mem_children (θ := θ) ha)
      omega
    | clash hx hy hclash =>
      rw [Term.headsAgree_of_apply_eq hx hy heq] at hclash
      cases hclash

end Unifier

namespace Subst

variable {s : Subst} {θ : Valuation} {x y : Term} {u : Unifier}

/-- All parts of two terms and of the values, which are no more than the weight accounts for. -/
theorem Weighed.exists_parts (h : s.Weighed) (x y : Term) :
    ∃ T : Finset Term, Term.Hereditary (· ∈ T) ∧ s.ValuesIn (· ∈ T) ∧ x ∈ T ∧ y ∈ T ∧
      T.card ≤ x.nodes + y.nodes + s.weight := by
  obtain ⟨values, hvalues, hsum⟩ := h
  let parts := (x :: y :: values).flatMap Term.subterms
  have hmem : ∀ t ∈ x :: y :: values, t ∈ parts.toFinset := fun t ht =>
    List.mem_toFinset.mpr (List.mem_flatMap.mpr ⟨t, ht, t.self_mem_subterms⟩)
  have hparts : Term.Hereditary (· ∈ parts.toFinset) := by
    simp only [List.mem_toFinset]
    exact Term.hereditary_flatMap_subterms _
  have hlength : parts.length ≤ x.nodes + y.nodes + s.weight := by
    have hnodes : (x :: y :: values).map (fun t => t.subterms.length) =
        (x :: y :: values).map Term.nodes :=
      List.map_congr_left fun t _ => t.length_subterms
    rw [List.length_flatMap, hnodes, List.map_cons, List.map_cons, List.sum_cons, List.sum_cons]
    omega
  exact ⟨parts.toFinset, hparts,
    fun v t hv => hmem t (List.mem_cons_of_mem _ (List.mem_cons_of_mem _ (hvalues v t hv))),
    hmem x (by simp), hmem y (by simp), (List.toFinset_card_le _).trans hlength⟩

/-- A unification in progress goes deep enough for terms that can be made equal. -/
theorem unify_complete (h : u.subst.Acyclic) (hweight : u.subst.Weighed)
    (hθ : u.subst.SatisfiedBy θ) (heq : x.apply θ = y.apply θ) :
    ∃ u', u.unify x y = (true, u') ∧ u'.subst.SatisfiedBy θ := by
  obtain ⟨T, hT, hvals, hx, hy, hcard⟩ := hweight.exists_parts x y
  have hdepth : Term.upToSize T θ (x.apply θ).nodes < u.depthFor x y := by
    have hfew : Term.upToSize T θ (x.apply θ).nodes ≤ T.card := Finset.card_filter_le _ _
    rw [Unifier.depthFor]
    omega
  exact Unifier.unifyWithin_complete hT h hvals hx hy hθ heq hdepth

/-- If a valuation satisfies the substitution and makes two terms equal, they unify, and it
satisfies the result. -/
theorem unify?_complete (h : s.Acyclic) (hweight : s.Weighed) (hθ : s.SatisfiedBy θ)
    (heq : x.apply θ = y.apply θ) : ∃ u, s.unify? x y = some u ∧ u.subst.SatisfiedBy θ := by
  obtain ⟨u, hu, hθ'⟩ := unify_complete (u := ⟨s, []⟩) h hweight hθ heq
  exact ⟨u, by rw [unify?, hu], hθ'⟩

/-- What a success binds, if the values and the two terms have a property that passes to
arguments. -/
theorem grown_of_unify? {P : Term → Prop} (hP : Term.Hereditary P) (h : s.Acyclic)
    (hvals : s.ValuesIn P) (hx : P x) (hy : P y) (hu : s.unify? x y = some u) :
    s.Grown P u.subst := by
  have hgrown := Unifier.grown_unifyWithin (u := ⟨s, []⟩) hP
    (Unifier.depthFor ⟨s, []⟩ x y) h hvals hx hy
  unfold unify? Unifier.unify at hu
  rcases hr : Unifier.unifyWithin (Unifier.depthFor ⟨s, []⟩ x y) ⟨s, []⟩ x y with ⟨_ | _, u'⟩ <;>
    rw [hr] at hu hgrown <;> cases hu
  exact hgrown

/-- After a success, the substitution says what it said before and that the terms are equal. -/
theorem satisfiedBy_of_unify? (h : s.Acyclic) (hweight : s.Weighed)
    (hu : s.unify? x y = some u) :
    u.subst.SatisfiedBy θ ↔ s.SatisfiedBy θ ∧ x.apply θ = y.apply θ := by
  constructor
  · intro hθ
    have hgrown := grown_of_unify? Unifier.hereditary_true h (fun _ _ _ => trivial)
      (x := x) (y := y) trivial trivial hu
    refine ⟨hgrown.satisfiedBy hθ, ?_⟩
    unfold unify? Unifier.unify at hu
    rcases hr : Unifier.unifyWithin (Unifier.depthFor ⟨s, []⟩ x y) ⟨s, []⟩ x y with
      ⟨_ | _, u'⟩ <;> rw [hr] at hu <;> cases hu
    exact Unifier.unifyWithin_sound (u := ⟨s, []⟩) _ h (congrArg Prod.fst hr)
      (by rw [hr]; exact hθ)
  · rintro ⟨hθ, heq⟩
    obtain ⟨u', hu', hθ'⟩ := unify?_complete h hweight hθ heq
    obtain rfl := Option.some.inj (hu.symm.trans hu')
    exact hθ'

end Subst

end LogicMachine
