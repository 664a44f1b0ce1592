import LogicMachine.Proofs.Subst.MostGeneral
import LogicMachine.Proofs.Subst.ReadingRules

/-!
# Readings and unifications come to an end

No series of unifications makes a variable lead back to itself, not even when some of them fail half
way. That is why everything which follows bindings comes to an end. Unification is told by rules here,
as the readings are: under every substitution that unifications lead to, each of them has exactly one
derivation, and it derives what is computed with a bound.
-/

namespace LogicMachine

namespace Subst

variable {s s' : Subst} {x y z : Term}

/-- Whatever satisfies the substitution gives `x` a smaller value than `y`. -/
def Inside (s : Subst) (x y : Term) : Prop :=
  ∀ θ : Valuation, s.SatisfiedBy θ → (x.apply θ).nodes < (y.apply θ).nodes

/-- No term is inside itself: some valuation satisfies the substitution, and no value is smaller
than itself. -/
theorem Acyclic.not_inside_self (h : s.Acyclic) : ¬ s.Inside x x :=
  fun hx => Nat.lt_irrefl _ (hx _ h.satisfiedBy_expand)

/-- What is inside a term is inside all that this is inside of. -/
theorem Inside.trans (h : s.Inside x y) (h' : s.Inside y z) : s.Inside x z :=
  fun θ hθ => (h θ hθ).trans (h' θ hθ)

/-- More bindings leave a term inside another. -/
theorem Inside.grown {P : Term → Prop} (h : s.Inside x y) (hs : s.Grown P s') : s'.Inside x y :=
  fun θ hθ => h θ (hs.satisfiedBy hθ)

/-- Following a term at its root leaves its value, so it stays inside. -/
theorem Inside.walk (h : s.Inside x y) : s.Inside (s.walk x) y :=
  fun θ hθ => (hθ.walk x).symm ▸ h θ hθ

/-- An argument is inside its compound. -/
theorem inside_of_mem_children (h : x ∈ y.children) : s.Inside x y :=
  fun _ _ => Term.nodes_lt_of_mem_children h

end Subst

namespace Unifier

variable {u u' : Unifier} {x y t : Term} {a : Var} {ps qs : List (Term × Term)}
  {r r' : Bool × Unifier}

/-- `u.Binds x y a t`: to unify `x` and `y`, the variable `a` is to be bound to `t`. If both are
followed to variables, the left one is bound. -/
inductive Binds (u : Unifier) (x y : Term) (a : Var) (t : Term) : Prop
  | left (hx : u.subst.WalksTo x (.var a)) (hy : u.subst.WalksTo y t) (hne : t ≠ .var a)
  | right (hx : u.subst.WalksTo x t) (ht : t.var? = none) (hy : u.subst.WalksTo y (.var a))

/-- `u.Runs ps r`: unifying pairs of terms one after another, up to the first pair that fails, ends
with `r`. -/
inductive Runs : Unifier → List (Term × Term) → Bool × Unifier → Prop
  | nil (u : Unifier) : Runs u [] (true, u)
  | same {u : Unifier} {x y : Term} {a : Var} {ps : List (Term × Term)} {r : Bool × Unifier}
      (hx : u.subst.WalksTo x (.var a)) (hy : u.subst.WalksTo y (.var a)) (rest : Runs u ps r) :
      Runs u ((x, y) :: ps) r
  | bound {u : Unifier} {x y t : Term} {a : Var} {ps : List (Term × Term)} {r : Bool × Unifier}
      (h : u.Binds x y a t) (hocc : u.subst.Finds a [t] false)
      (rest : Runs ⟨u.subst.bind a t, u.bindings ++ [(a, t)]⟩ ps r) : Runs u ((x, y) :: ps) r
  | refused {u : Unifier} {x y t : Term} {a : Var} {ps : List (Term × Term)}
      (h : u.Binds x y a t) (hocc : u.subst.Finds a [t] true) : Runs u ((x, y) :: ps) (false, u)
  | inside {u u' : Unifier} {x y x' y' : Term} {ps : List (Term × Term)} {r : Bool × Unifier}
      (hx : u.subst.WalksTo x x') (hy : u.subst.WalksTo y y') (hagree : x'.headsAgree y' = true)
      (args : Runs u (x'.children.zip y'.children) (true, u')) (rest : Runs u' ps r) :
      Runs u ((x, y) :: ps) r
  | insideFails {u u' : Unifier} {x y x' y' : Term} {ps : List (Term × Term)}
      (hx : u.subst.WalksTo x x') (hy : u.subst.WalksTo y y') (hagree : x'.headsAgree y' = true)
      (args : Runs u (x'.children.zip y'.children) (false, u')) :
      Runs u ((x, y) :: ps) (false, u')
  | clash {u : Unifier} {x y x' y' : Term} {ps : List (Term × Term)} (hx : u.subst.WalksTo x x')
      (hx' : x'.var? = none) (hy : u.subst.WalksTo y y') (hy' : y'.var? = none)
      (hclash : x'.headsAgree y' = false) : Runs u ((x, y) :: ps) (false, u)

/-- Where the first pairs unify, the others follow under what they have bound. -/
theorem Runs.append (h : Runs u ps (true, u')) (h' : Runs u' qs r) : Runs u (ps ++ qs) r := by
  generalize hr : (true, u') = r' at h
  induction h with
  | nil => cases hr; exact h'
  | same hx hy _ ih => exact .same hx hy (ih hr)
  | bound hb hocc _ ih => exact .bound hb hocc (ih hr)
  | inside hx hy hagree args _ _ ih => exact .inside hx hy hagree args (ih hr)
  | refused | insideFails | clash => cases hr

/-- Where the first pairs fail, the others are not tried. -/
theorem Runs.append_fails (h : Runs u ps (false, u')) : Runs u (ps ++ qs) (false, u') := by
  generalize hr : (false, u') = r' at h ⊢
  induction h with
  | nil => cases hr
  | same hx hy _ ih => exact .same hx hy (ih hr)
  | bound hb hocc _ ih => exact .bound hb hocc (ih hr)
  | refused hb hocc => exact .refused hb hocc
  | inside hx hy hagree args _ _ ih => exact .inside hx hy hagree args (ih hr)
  | insideFails hx hy hagree args => exact .insideFails hx hy hagree args
  | clash hx hx' hy hy' hclash => exact .clash hx hx' hy hy' hclash

/-! ### One layer of a unification -/

section Layer

variable {depth : Nat}

/-- Two terms that are followed to one variable unify without a binding. -/
theorem unifyWithin_same (hx : u.subst.walk x = .var a) (hy : u.subst.walk y = .var a) :
    u.unifyWithin (depth + 1) x y = (true, u) := by
  simp only [unifyWithin, hx, hy, if_true]

/-- A variable and another term are unified by binding the variable, unless it occurs in the term.
-/
theorem unifyWithin_binds (h : u.subst.Acyclic) (hb : u.Binds x y a t) :
    u.unifyWithin (depth + 1) x y = u.bind a t := by
  cases hb with
  | left hx hy hne =>
    simp only [unifyWithin, ← h.walksTo_iff.mp hx, ← h.walksTo_iff.mp hy]
    cases t with
    | var b => exact if_neg fun hab => hne (congrArg Term.var hab.symm)
    | int | text | compound => rfl
  | right hx ht hy =>
    simp only [unifyWithin, ← h.walksTo_iff.mp hx, ← h.walksTo_iff.mp hy]
    cases t with
    | var b => cases ht
    | int | text | compound => rfl

/-- Terms that are no variables are unified by their arguments, if their heads agree. -/
theorem unifyWithin_nonVar (hx : (u.subst.walk x).var? = none) (hy : (u.subst.walk y).var? = none) :
    u.unifyWithin (depth + 1) x y =
      if (u.subst.walk x).headsAgree (u.subst.walk y) = true then
        inStep (unifyWithin depth) u (u.subst.walk x).children (u.subst.walk y).children
      else (false, u) := by
  simp only [unifyWithin]
  generalize u.subst.walk x = x' at hx ⊢
  generalize u.subst.walk y = y' at hy ⊢
  cases x' with
  | var v => cases hx
  | int | text | compound =>
    cases y' with
    | var w => cases hy
    | int | text | compound => rfl

end Layer

/-! ### Every unification has a derivation -/

/-- Where lists are unified in step, derivations for the pairs make one for the lists. -/
theorem runs_inStep {P : Term → Prop} (hP : Term.Hereditary P) {as bs : List Term} (depth : Nat)
    (h : u.subst.Acyclic) (hvals : u.subst.ValuesIn P) (has : ∀ a ∈ as, P a) (hbs : ∀ b ∈ bs, P b)
    (hstep : ∀ (u' : Unifier) (a b : Term), u.subst.Grown P u'.subst → a ∈ as → b ∈ bs →
      Runs u' [(a, b)] (unifyWithin depth u' a b)) :
    Runs u (as.zip bs) (inStep (unifyWithin depth) u as bs) := by
  suffices hrest : ∀ (as' bs' : List Term) (u' : Unifier), u.subst.Grown P u'.subst → as' ⊆ as →
      bs' ⊆ bs → Runs u' (as'.zip bs') (inStep (unifyWithin depth) u' as' bs') from
    hrest as bs u .refl (List.Subset.refl _) (List.Subset.refl _)
  intro as'
  induction as' with
  | nil => exact fun bs' u' _ _ _ => .nil u'
  | cons a as' ih =>
    intro bs' u' hgrown hsub hsub'
    cases bs' with
    | nil => exact .nil u'
    | cons b bs' =>
      obtain ⟨ha, hsub⟩ := List.cons_subset.mp hsub
      obtain ⟨hb, hsub'⟩ := List.cons_subset.mp hsub'
      have hfirst := hstep u' a b hgrown ha hb
      have hnext := hgrown.trans (grown_unifyWithin hP depth (hgrown.acyclic h)
        (hgrown.valuesIn hvals) (has a ha) (hbs b hb))
      rw [inStep, List.zip_cons_cons]
      rcases hr : unifyWithin depth u' a b with ⟨_ | _, u''⟩ <;> rw [hr] at hfirst hnext
      · exact hfirst.append_fails
      · exact hfirst.append (ih bs' u'' hnext hsub hsub')

/-- With more depth than there are terms that could still be met on the way down, a unification has
a derivation. The terms `above` were met already, and none of them is met again, because `x` is
inside all of them. -/
theorem runs_unifyWithin {T above : Finset Term} (hT : Term.Hereditary (· ∈ T)) {depth : Nat}
    (h : u.subst.Acyclic) (hvals : u.subst.ValuesIn (· ∈ T)) (hx : x ∈ T) (hy : y ∈ T)
    (habove : ∀ c ∈ above, u.subst.Inside x c) (hdepth : (T \ above).card < depth) :
    Runs u [(x, y)] (u.unifyWithin depth x y) := by
  classical
  -- induction on the depth; each level adds the followed `x` to `above`, so fewer terms are left
  induction depth generalizing u x y above with
  | zero => omega
  | succ depth ih =>
    -- one side is an unbound variable: it is bound, or refused because it occurs in the other side
    have hbind : ∀ {a : Var} {t : Term}, u.Binds x y a t →
        Runs u [(x, y)] (u.unifyWithin (depth + 1) x y) := by
      intro a t hb
      rw [unifyWithin_binds h hb, bind]
      have hfinds : u.subst.Finds a [t] (u.subst.occurs a t) := by
        rw [h.finds_iff, List.any_cons, List.any_nil, Bool.or_false]
      cases hocc : u.subst.occurs a t <;> rw [hocc] at hfinds
      · exact .bound hb hfinds (.nil _)
      · exact .refused hb hfinds
    have hwx := h.walksTo_walk x
    have hwy := h.walksTo_walk y
    rcases h.walk_cases x with ⟨a, ha, -⟩ | hx'
    · rw [ha] at hwx
      by_cases hya : u.subst.walk y = .var a
      · rw [unifyWithin_same ha hya]
        exact .same hwx (hya ▸ hwy) (.nil u)
      · exact hbind (.left hwx hwy hya)
    · rcases h.walk_cases y with ⟨b, hb, -⟩ | hy'
      · exact hbind (.right hwx hx' (hb ▸ hwy))
      · rw [unifyWithin_nonVar hx' hy']
        split
        · next hagree =>
          have hxT : u.subst.walk x ∈ T := hvals.walk hx
          have hyT : u.subst.walk y ∈ T := hvals.walk hy
          -- a term that was met above cannot come again: it would be inside itself
          have hnew : u.subst.walk x ∉ above := fun hmem =>
            h.not_inside_self (habove _ hmem).walk
          have hcard : (T \ insert (u.subst.walk x) above).card < depth := by
            have hlt : (T \ insert (u.subst.walk x) above).card < (T \ above).card := by
              refine Finset.card_lt_card ⟨Finset.sdiff_subset_sdiff le_rfl
                (Finset.subset_insert _ _), fun hsub => ?_⟩
              have hmem := hsub (Finset.mem_sdiff.mpr ⟨hxT, hnew⟩)
              exact (Finset.mem_sdiff.mp hmem).2 (Finset.mem_insert_self _ _)
            omega
          have hargs := runs_inStep hT depth h hvals (hT.children hxT)
            (hT.children hyT) fun u' a b hgrown ha hb => ?_
          · rcases hr : inStep (unifyWithin depth) u (u.subst.walk x).children
              (u.subst.walk y).children with ⟨_ | _, u'⟩ <;> rw [hr] at hargs
            · exact .insideFails hwx hwy hagree hargs
            · exact .inside hwx hwy hagree hargs (.nil u')
          · refine ih (hgrown.acyclic h) (hgrown.valuesIn hvals) (hT.children hxT a ha)
              (hT.children hyT b hb) (fun c hc => ?_) hcard
            have hchild : u.subst.Inside a (u.subst.walk x) := Subst.inside_of_mem_children ha
            rcases Finset.mem_insert.mp hc with rfl | hc
            · exact hchild.grown hgrown
            · exact (hchild.trans (habove c hc).walk).grown hgrown
        · next hclash => exact .clash hwx hx' hwy hy' (Bool.not_eq_true _ ▸ hclash)

/-- The depth that is computed for two terms is enough, whether they unify or not. -/
theorem runs_unify (h : u.subst.Acyclic) (hweight : u.subst.Weighed) (x y : Term) :
    Runs u [(x, y)] (u.unify x y) := by
  obtain ⟨T, hT, hvals, hx, hy, hcard⟩ := hweight.exists_parts x y
  have hdepth : (T \ ∅).card < u.depthFor x y := by
    rw [Finset.sdiff_empty, depthFor]
    omega
  exact runs_unifyWithin hT h hvals hx hy (fun c hc => absurd hc (Finset.notMem_empty c)) hdepth

/-! ### What a derivation binds -/

/-- `u.Extends u'`: the second unifier comes from the first by binding unbound variables, one after
another, to terms that do not lead to them, and by listing each binding as it is made. -/
inductive Extends (u : Unifier) : Unifier → Prop
  | refl : Extends u u
  | bind {u' : Unifier} {a : Var} {t : Term} (h : Extends u u') (ha : u'.subst.get? a = none)
      (hocc : u'.subst.occurs a t = false) :
      Extends u ⟨u'.subst.bind a t, u'.bindings ++ [(a, t)]⟩

/-- Bindings on top of bindings are bindings. -/
theorem Extends.trans {u'' : Unifier} (h : u.Extends u') (h' : u'.Extends u'') : u.Extends u'' := by
  induction h' with
  | refl => exact h
  | bind _ ha hocc ih => exact .bind ih ha hocc

/-- What the list says has been bound, as it was listed. -/
theorem Extends.grown (h : u.Extends u') : u.subst.Grown (fun _ => True) u'.subst := by
  induction h with
  | refl => exact .refl
  | bind _ ha hocc ih => exact .bind ih ha hocc trivial

/-- Only unbound variables are to be bound, as terms are followed as far as they go. -/
theorem Binds.unbound (h : u.Binds x y a t) : u.subst.get? a = none := by
  cases h with
  | left hx => exact hx.unbound_of_var rfl
  | right _ _ hy => exact hy.unbound_of_var rfl

/-- The occurs check gives the answer that the rules derive. -/
theorem occurs_of_finds (hu : u.subst.Acyclic) {b : Bool} (h : u.subst.Finds a [t] b) :
    u.subst.occurs a t = b := by
  rw [hu.finds_iff.mp h, List.any_cons, List.any_nil, Bool.or_false]

/-- Whether it succeeds or fails, a derivation binds unbound variables only. -/
theorem Runs.extends (h : Runs u ps r) (hu : u.subst.Acyclic) : u.Extends r.2 := by
  induction h with
  | nil | refused | clash => exact .refl
  | same _ _ _ ih => exact ih hu
  | bound hb hocc _ ih =>
    have hfirst := Extends.bind .refl hb.unbound (occurs_of_finds hu hocc)
    exact hfirst.trans (ih (hfirst.grown.acyclic hu))
  | inside _ _ _ _ _ ihargs ih =>
    have hargs := ihargs hu
    exact hargs.trans (ih (hargs.grown.acyclic hu))
  | insideFails _ _ _ _ ihargs => exact ihargs hu

/-! ### No unification has two derivations -/

/-- A variable agrees with no head. -/
theorem var?_eq_none_of_headsAgree (h : x.headsAgree y = true) :
    x.var? = none ∧ y.var? = none := by
  cases x <;> cases y <;> first | cases h | exact ⟨rfl, rfl⟩

/-- With enough depth, unifying the pairs in step gives `r`. -/
def Computes (u : Unifier) (ps : List (Term × Term)) (r : Bool × Unifier) : Prop :=
  ∃ enough, ∀ depth ≥ enough,
    inStep (unifyWithin depth) u (ps.map Prod.fst) (ps.map Prod.snd) = r

/-- If the first pair unifies, the others decide. -/
theorem Computes.cons (hfirst : ∃ enough, ∀ k ≥ enough, unifyWithin (k + 1) u x y = (true, u'))
    (hrest : u'.Computes ps r) : u.Computes ((x, y) :: ps) r := by
  obtain ⟨enough, hfirst⟩ := hfirst
  obtain ⟨enough', hrest⟩ := hrest
  refine ⟨max (enough + 1) enough', fun depth hdepth => ?_⟩
  have hrest := hrest depth (le_of_max_le_right hdepth)
  -- one layer has to be left for the first pair
  obtain ⟨k, rfl⟩ : ∃ k, depth = k + 1 := ⟨depth - 1, by omega⟩
  rw [List.map_cons, List.map_cons, inStep, hfirst k (by omega)]
  exact hrest

/-- If the first pair fails, everything does. -/
theorem Computes.cons_fails
    (hfirst : ∃ enough, ∀ k ≥ enough, unifyWithin (k + 1) u x y = (false, u')) :
    u.Computes ((x, y) :: ps) (false, u') := by
  obtain ⟨enough, hfirst⟩ := hfirst
  refine ⟨enough + 1, fun depth hdepth => ?_⟩
  obtain ⟨k, rfl⟩ : ∃ k, depth = k + 1 := ⟨depth - 1, by omega⟩
  rw [List.map_cons, List.map_cons, inStep, hfirst k (by omega)]

/-- Where the heads agree, the arguments decide. -/
theorem Computes.descend {x' y' : Term} (hu : u.subst.Acyclic) (hx : u.subst.WalksTo x x')
    (hy : u.subst.WalksTo y y') (hagree : x'.headsAgree y' = true)
    (h : u.Computes (x'.children.zip y'.children) r) :
    ∃ enough, ∀ k ≥ enough, unifyWithin (k + 1) u x y = r := by
  obtain ⟨enough, hargs⟩ := h
  refine ⟨enough, fun k hk => ?_⟩
  obtain rfl := hu.walksTo_iff.mp hx
  obtain rfl := hu.walksTo_iff.mp hy
  obtain ⟨hx', hy'⟩ := var?_eq_none_of_headsAgree hagree
  have hlength := Term.length_children_of_headsAgree hagree
  have hinside := hargs k hk
  rw [List.map_fst_zip hlength.le, List.map_snd_zip hlength.ge] at hinside
  rw [unifyWithin_nonVar hx' hy', if_pos hagree, hinside]

/-- What a derivation derives is computed with enough depth. -/
theorem Runs.computes (h : Runs u ps r) (hu : u.subst.Acyclic) : u.Computes ps r := by
  induction h with
  | nil => exact ⟨0, fun _ _ => rfl⟩
  | same hx hy _ ih =>
    refine .cons ⟨0, fun k _ => ?_⟩ (ih hu)
    exact unifyWithin_same (hu.walksTo_iff.mp hx).symm (hu.walksTo_iff.mp hy).symm
  | bound hb hocc _ ih =>
    have hocc' := occurs_of_finds hu hocc
    refine .cons ⟨0, fun k _ => ?_⟩ (ih ((Extends.bind .refl hb.unbound hocc').grown.acyclic hu))
    rw [unifyWithin_binds hu hb, Unifier.bind, hocc', if_neg Bool.false_ne_true]
  | refused hb hocc =>
    refine .cons_fails ⟨0, fun k _ => ?_⟩
    rw [unifyWithin_binds hu hb, Unifier.bind, occurs_of_finds hu hocc, if_pos rfl]
  | inside hx hy hagree args _ ihargs ih =>
    exact .cons ((ihargs hu).descend hu hx hy hagree) (ih ((args.extends hu).grown.acyclic hu))
  | insideFails hx hy hagree _ ihargs =>
    exact .cons_fails ((ihargs hu).descend hu hx hy hagree)
  | clash hx hx' hy hy' hclash =>
    obtain rfl := hu.walksTo_iff.mp hx
    obtain rfl := hu.walksTo_iff.mp hy
    refine .cons_fails ⟨0, fun k _ => ?_⟩
    rw [unifyWithin_nonVar hx' hy', hclash, if_neg Bool.false_ne_true]

/-- Both derivations derive what is computed. -/
theorem Runs.unique (h : Runs u ps r) (h' : Runs u ps r') (hu : u.subst.Acyclic) : r = r' := by
  obtain ⟨enough, hr⟩ := h.computes hu
  obtain ⟨enough', hr'⟩ := h'.computes hu
  rw [← hr _ (le_max_left enough enough'), hr' _ (le_max_right enough enough')]

/-- Unification is the only thing that the rules derive. -/
theorem runs_iff (h : u.subst.Acyclic) (hweight : u.subst.Weighed) :
    Runs u [(x, y)] r ↔ r = u.unify x y := by
  constructor
  · exact fun hr => hr.unique (runs_unify h hweight x y) h
  · rintro rfl
    exact runs_unify h hweight x y

end Unifier

namespace Subst

namespace Reachable

variable {s : Subst}

/-- No variable of a substitution that unifications lead to, successful or not, leads back to itself.
Following a term at its root, reading it throughout, looking for a variable in it, collecting its
variables, and unifying it with another one each end, in one way only, with what is computed. -/
theorem readings_end (h : s.Reachable) :
    s.Acyclic ∧
      (∀ t r, s.WalksTo t r ↔ r = s.walk t) ∧
      (∀ t rs, s.DeepWalksTo [t] rs ↔ rs = [s.resolve t]) ∧
      (∀ w t b, s.Finds w [t] b ↔ b = s.occurs w t) ∧
      (∀ t vs, s.Collects [t] [] vs ↔ vs = s.unboundVars t) ∧
      ∀ bindings x y r, Unifier.Runs ⟨s, bindings⟩ [(x, y)] r ↔
        r = Unifier.unify ⟨s, bindings⟩ x y := by
  refine ⟨h.acyclic, fun t r => h.acyclic.walksTo_iff, fun t rs => h.acyclic.deepWalksTo_iff,
    fun w t b => ?_, fun t vs => ?_,
    fun bindings x y r => Unifier.runs_iff (u := ⟨s, bindings⟩) h.acyclic h.weighed⟩
  · rw [h.acyclic.finds_iff, List.any_cons, List.any_nil, Bool.or_false]
  · rw [h.acyclic.collects_iff, List.flatMap_cons, List.flatMap_nil, List.append_nil,
      gather_nil_eq_eraseDups]
    rfl

/-- Unifying `f(_1, _2, a)` and `f(g(_2), h(_3), b)` fails at the last argument. Under the two
bindings that it leaves, `k(_1)` is read as `k(g(h(_3)))`, the variable `_3` is found in `_1`, and so
the two do not unify. -/
theorem readings_end_after_failure :
    let u := Unifier.unify ⟨.empty, []⟩ (.app "f" [.var 1, .var 2, .atom "a"])
      (.app "f" [.app "g" [.var 2], .app "h" [.var 3], .atom "b"])
    u.1 = false ∧ u.2.subst.Acyclic ∧
      u.2.subst.DeepWalksTo [.app "k" [.var 1]] [.app "k" [.app "g" [.app "h" [.var 3]]]] ∧
      u.2.subst.Finds 3 [.var 1] true ∧
      ∃ u', Unifier.Runs ⟨u.2.subst, []⟩ [(.var 3, .var 1)] (false, u') := by
  intro u
  obtain ⟨hacyclic, -, hdeep, hfinds, -, hruns⟩ :=
    readings_end (Reachable.unify (u := ⟨.empty, []⟩) .empty
      (.app "f" [.var 1, .var 2, .atom "a"])
      (.app "f" [.app "g" [.var 2], .app "h" [.var 3], .atom "b"]))
  refine ⟨by decide +kernel, hacyclic, (hdeep _ _).mpr (by decide +kernel),
    (hfinds _ _ _).mpr (by decide +kernel), ?_⟩
  have hfails : (Unifier.unify ⟨u.2.subst, []⟩ (.var 3) (.var 1)).1 = false := by decide +kernel
  exact ⟨_, (hruns [] (.var 3) (.var 1) _).mpr (Prod.ext hfails.symm rfl)⟩

end Reachable

end Subst

end LogicMachine
