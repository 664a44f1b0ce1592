import LogicMachine.Proofs.Renaming.Pairing
import LogicMachine.Code.Expr
import LogicMachine.Subst.Unification

/-!
# Terms and substitutions up to a pairing of variables

Nothing that is done to terms asks which number a variable has. Terms and substitutions that agree
up to a pairing of their variables are therefore read, unified and evaluated alike.
-/

namespace LogicMachine

variable {R R' : Pairing}

/-- Two terms are built alike from variables that belong together. -/
inductive Term.Renamed (R : Pairing) : Term → Term → Prop
  | var {v v' : Var} (h : R v v') : Renamed R (.var v) (.var v')
  | int (i : Int) : Renamed R (.int i) (.int i)
  | text (s : String) : Renamed R (.text s) (.text s)
  | compound (f : Functor) {as as' : List Term} (h : List.Forall₂ (Renamed R) as as') :
      Renamed R (.compound f as) (.compound f as')

namespace Term

variable {t t' u u' : Term} {ts ts' : List Term}

/-- Induction on how two terms agree: a compound may use the claim for each of its arguments. -/
@[elab_as_elim]
theorem Renamed.induction {motive : (t t' : Term) → Renamed R t t' → Prop}
    (var : ∀ {v v'} (h : R v v'), motive _ _ (.var h)) (int : ∀ i, motive _ _ (.int i))
    (text : ∀ s, motive _ _ (.text s))
    (compound : ∀ f {as as'} (h : List.Forall₂ (Renamed R) as as'),
      List.Forall₂ (fun a a' => ∃ h : Renamed R a a', motive a a' h) as as' →
      motive _ _ (.compound f h))
    {t t' : Term} (h : Renamed R t t') : motive t t' h := by
  induction t generalizing t' with
  | var v => cases h with | var h => exact var h
  | int i => cases h with | int => exact int i
  | text s => cases h with | text => exact text s
  | compound f args ih =>
    cases h with
    | compound _ h =>
      refine compound f h ?_
      clear compound
      induction h with
      | nil => exact .nil
      | cons ha _ ihargs =>
        exact .cons ⟨ha, ih _ List.mem_cons_self ha⟩
          (ihargs fun a ha => ih a (List.mem_cons_of_mem _ ha))

/-- With more pairs, what was built alike is still built alike. -/
theorem Renamed.mono (hR : ∀ {v v'}, R v v' → R' v v') (h : Renamed R t t') : Renamed R' t t' := by
  induction h using Renamed.induction with
  | var h => exact .var (hR h)
  | int i => exact .int i
  | text s => exact .text s
  | compound f _ ih => exact .compound f (ih.imp fun _ _ h => h.2)

/-- A term agrees with itself when its variables are paired with themselves. -/
theorem renamed_self (h : ∀ v ∈ t.vars, R v v) : Renamed R t t := by
  induction t with
  | var v => exact .var (h v (by simp))
  | int i => exact .int i
  | text s => exact .text s
  | compound f args ih =>
    refine .compound f (List.forall₂_same.mpr fun a ha => ih a ha fun v hv => h v ?_)
    simpa using ⟨a, ha, hv⟩

/-- The variables of terms that agree belong together one by one, in order of occurrence. -/
theorem Renamed.vars (h : Renamed R t t') : List.Forall₂ R t.vars t'.vars := by
  induction h using Renamed.induction with
  | var h => simpa using h
  | int i => simp
  | text s => simp
  | compound f _ ih => simpa using List.rel_flatMap ih fun _ _ h => h.2

/-- Terms that agree are equally large. -/
theorem Renamed.nodes_eq (h : Renamed R t t') : t.nodes = t'.nodes := by
  induction h using Renamed.induction with
  | var h => rfl
  | int i => rfl
  | text s => rfl
  | compound f _ ih =>
    rw [nodes_compound, nodes_compound]
    clear * - ih
    induction ih with
    | nil => rfl
    | cons ha _ ih =>
      obtain ⟨-, ha⟩ := ha
      simp only [nodesAll] at ih ⊢
      omega

/-- Their arguments agree. -/
theorem Renamed.children (h : Renamed R t t') :
    List.Forall₂ (Renamed R) t.children t'.children := by
  cases h with
  | compound f h => exact h
  | var | int | text => exact .nil

/-- Whether two terms have the same root does not depend on the variables in them. -/
theorem Renamed.headsAgree_eq (h : Renamed R t t') (hu : Renamed R u u') :
    t.headsAgree u = t'.headsAgree u' := by
  cases h <;> cases hu <;> first | rfl | skip
  next h _ _ _ hu => simp only [headsAgree, h.length_eq, hu.length_eq]

/-- A term has variables exactly if the one that belongs to it has. -/
theorem Renamed.isGround_eq (h : Renamed R t t') : t.isGround = t'.isGround := by
  have hnil : t.vars = [] ↔ t'.vars = [] := by
    rw [← List.length_eq_zero_iff, h.vars.length_eq, List.length_eq_zero_iff]
  rw [Bool.eq_iff_iff, isGround_iff_vars_eq_nil, isGround_iff_vars_eq_nil, hnil]

/-- A term without variables agrees with itself, and with nothing else. -/
theorem renamed_iff_of_isGround (hground : t.isGround = true) : Renamed R t t' ↔ t = t' := by
  induction t generalizing t' with
  | var v => simp [isGround] at hground
  | int i => exact ⟨fun h => by cases h; rfl, fun h => h ▸ .int i⟩
  | text s => exact ⟨fun h => by cases h; rfl, fun h => h ▸ .text s⟩
  | compound f args ih =>
    rw [isGround_compound, List.all_eq_true] at hground
    have hargs : ∀ args', List.Forall₂ (Renamed R) args args' ↔ args = args' := by
      induction args with
      | nil => intro args'; simp [eq_comm]
      | cons a args ihargs =>
        have ha := @ih a List.mem_cons_self
        have hrest := ihargs (fun b hb => ih b (List.mem_cons_of_mem _ hb))
          (fun b hb => hground b (List.mem_cons_of_mem _ hb))
        intro args'
        cases args' with
        | nil => simp
        | cons b bs =>
          rw [List.forall₂_cons, ha (hground a List.mem_cons_self), hrest, List.cons.injEq]
    constructor
    · intro h
      cases h with
      | compound _ h => rw [(hargs _).mp h]
    · rintro rfl
      exact .compound f ((hargs _).mpr rfl)

/-- Terms are equal exactly if what belongs to them is. -/
theorem Renamed.eq_iff (h : Renamed R t t') (hu : Renamed R u u') : t = u ↔ t' = u' := by
  induction h using Renamed.induction generalizing u u' with
  | var h =>
    cases hu with
    | var hu => simpa using R.eq_iff h hu
    | int | text | compound => simp
  | int i => cases hu <;> simp
  | text s => cases hu <;> simp
  | @compound f as as' _ ih =>
    cases hu with
    | var | int | text => simp
    | @compound g bs bs' hu =>
      have hargs : as = bs ↔ as' = bs' := by
        clear * - ih hu
        induction ih generalizing bs bs' with
        | nil => cases hu <;> simp
        | cons ha _ ihargs =>
          cases hu with
          | nil => simp
          | cons hb hu => rw [List.cons.injEq, List.cons.injEq, ha.2 hb, ihargs hu]
      simp [hargs]

/-- Reduction looks at operators and ground arguments only, so it treats both terms alike. -/
theorem Renamed.reduce (h : Renamed R t t') : Renamed R t.reduce t'.reduce := by
  unfold Term.reduce
  cases h with
  | var h => exact .var h
  | int i => exact .int i
  | text s => exact .text s
  | @compound f as as' h =>
    cases f with
    | named name => exact .compound _ h
    | builtin b =>
      have hself : Renamed R (.compound (.builtin b) as) (.compound (.builtin b) as') :=
        .compound _ h
      have hsame := hself.isGround_eq
      simp only [isGround_compound] at hsame
      by_cases hground : as.all isGround = true
      · have heq := (renamed_iff_of_isGround (by rwa [isGround_compound])).mp hself
        rw [← heq] at hself ⊢
        cases hvalue : (Term.compound (.builtin b) as).collapse with
        | none => exact hself
        | some v =>
          simp only [collapse, if_pos hground] at hvalue
          exact (renamed_iff_of_isGround (Builtin.isGround_of_apply_eq_some hvalue)).mpr rfl
      · have hground' : ¬ as'.all isGround = true := by rwa [← hsame]
        simp only [collapse, if_neg hground, if_neg hground']
        exact hself

/-- Replacing variables by terms that belong together makes terms that do. -/
theorem Renamed.instantiate {σ σ' : Var → Term} (h : Renamed R t t')
    (hσ : ∀ {v v'}, R v v' → Renamed R (σ v) (σ' v')) :
    Renamed R (t.instantiate σ) (t'.instantiate σ') := by
  induction h using Renamed.induction with
  | var h => simpa using hσ h
  | int i => simpa using .int i
  | text s => simpa using .text s
  | compound f _ ih =>
    rw [instantiate_compound, instantiate_compound]
    exact (Renamed.compound f (List.rel_map (fun _ _ h => h.2) ih)).reduce

end Term

/-! ### Substitutions -/

/-- Two substitutions bind what belongs together to values that do. -/
structure Subst.Renamed (R : Pairing) (s s' : Subst) : Prop where
  bindings : MapRel R (Term.Renamed R) s.bindings s'.bindings
  weight_eq : s.weight = s'.weight

namespace Subst

variable {s s' : Subst} {t t' : Term} {v v' w w' : Var}

/-- Where nothing is bound, substitutions agree up to any pairing. -/
theorem renamed_empty : Renamed R empty empty := ⟨.empty, rfl⟩

/-- New pairs are of numbers that were not bound on either side. -/
theorem Renamed.mono (hR : R.Extends R') (h : Renamed R s s') : Renamed R' s s' :=
  ⟨h.bindings.mono hR (Term.Renamed.mono hR.le), h.weight_eq⟩

/-- The bindings are equally many, which makes the bounds of all readings equal. -/
theorem Renamed.size_eq (h : Renamed R s s') : s.size = s'.size := h.bindings.size_eq

/-- Variables that belong together are bound to terms that do, or both are unbound. -/
theorem Renamed.get? (h : Renamed R s s') (hv : R v v') :
    Option.Rel (Term.Renamed R) (s.get? v) (s'.get? v') :=
  h.bindings.get hv

/-- Binding what belongs together to terms that do. -/
theorem Renamed.bind (h : Renamed R s s') (hv : R v v') (ht : t.Renamed R t') :
    Renamed R (s.bind v t) (s'.bind v' t') :=
  ⟨h.bindings.insert hv ht, by rw [weight_bind, weight_bind, h.weight_eq, ht.nodes_eq]⟩

/-- Following a root for so many hops leads to terms that belong together. -/
theorem Renamed.walkWithin (h : Renamed R s s') (hops : Nat) (ht : t.Renamed R t') :
    (s.walkWithin hops t).Renamed R (s'.walkWithin hops t') := by
  induction hops generalizing t t' with
  | zero => simpa only [Subst.walkWithin] using ht
  | succ hops ih =>
    cases ht with
    | @var v v' hv =>
      simp only [Subst.walkWithin]
      rcases optionRel_cases (h.get? hv) with ⟨t, t', hs, hs', ht⟩ | ⟨hs, hs'⟩ <;>
        simp only [hs, hs']
      · exact ih ht
      · exact .var hv
    | int i => exact .int i
    | text s => exact .text s
    | compound f h => exact .compound f h

/-- Following a root as far as it goes leads to terms that belong together. -/
theorem Renamed.walk (h : Renamed R s s') (ht : t.Renamed R t') :
    (s.walk t).Renamed R (s'.walk t') := by
  unfold Subst.walk
  rw [← h.size_eq]
  exact h.walkWithin _ ht

/-- Variables that belong together stand for terms that do. -/
theorem Renamed.resolveVar (h : Renamed R s s') (hv : R v v') :
    (s.resolveVar v).Renamed R (s'.resolveVar v') := by
  unfold Subst.resolveVar
  rw [← h.size_eq]
  generalize s.size = hops
  induction hops generalizing v v' with
  | zero => exact .var hv
  | succ hops ih =>
    simp only [Subst.resolveVarWithin]
    rcases optionRel_cases (h.get? hv) with ⟨t, t', hs, hs', ht⟩ | ⟨hs, hs'⟩ <;>
      simp only [hs, hs']
    · exact ht.instantiate ih
    · exact .var hv

/-- Terms that belong together stand for terms that do. -/
theorem Renamed.resolve (h : Renamed R s s') (ht : t.Renamed R t') :
    (s.resolve t).Renamed R (s'.resolve t') :=
  ht.instantiate h.resolveVar

/-- The unbound variables behind a variable belong together one by one. -/
theorem Renamed.leavesWithin (h : Renamed R s s') (hops : Nat) (hv : R v v') :
    List.Forall₂ R (s.leavesWithin hops v) (s'.leavesWithin hops v') := by
  induction hops generalizing v v' with
  | zero => simpa [Subst.leavesWithin] using hv
  | succ hops ih =>
    simp only [Subst.leavesWithin]
    rcases optionRel_cases (h.get? hv) with ⟨t, t', hs, hs', ht⟩ | ⟨hs, hs'⟩ <;>
      simp only [hs, hs']
    · exact List.rel_flatMap ht.vars fun _ _ => ih
    · simpa using hv

/-- Numbers that belong together are dropped together when they are met again. -/
theorem forall₂_eraseDups {l l' : List Nat} (h : List.Forall₂ R l l') :
    List.Forall₂ R l.eraseDups l'.eraseDups := by
  generalize hn : l.length = n
  induction n using Nat.strong_induction_on generalizing l l' with
  | h n ih =>
    cases h with
    | nil => exact .nil
    | @cons a a' l l' ha h =>
      rw [List.eraseDups_cons, List.eraseDups_cons]
      have hfilter : List.Forall₂ R (l.filter (!· == a)) (l'.filter (!· == a')) := by
        refine List.rel_filter (fun b b' hb => ?_) h
        have hiff := R.eq_iff hb ha
        simp [hiff]
      refine .cons ha (ih _ ?_ hfilter rfl)
      have hle := List.length_filter_le (!· == a) l
      rw [List.length_cons] at hn
      omega

/-- The unbound variables of a term, without repeats, belong together one by one. -/
theorem Renamed.unboundVars (h : Renamed R s s') (ht : t.Renamed R t') :
    List.Forall₂ R (s.unboundVars t) (s'.unboundVars t') := by
  unfold Subst.unboundVars
  rw [← h.size_eq]
  exact forall₂_eraseDups (List.rel_flatMap ht.vars fun _ _ => h.leavesWithin _)

/-- A variable occurs in a term exactly if the one that belongs to it does in the other. -/
theorem Renamed.occurs_eq (h : Renamed R s s') (hw : R w w') (ht : t.Renamed R t') :
    s.occurs w t = s'.occurs w' t' := by
  have hmem : w ∈ s.unboundVars t ↔ w' ∈ s'.unboundVars t' :=
    List.rel_mem R.biUnique hw (h.unboundVars ht)
  rw [Bool.eq_iff_iff, occurs_eq_true_iff, occurs_eq_true_iff, hmem]

end Subst

/-! ### Unification -/

/-- Two unifications in progress have come equally far. -/
structure Unifier.Renamed (R : Pairing) (u u' : Unifier) : Prop where
  subst : u.subst.Renamed R u'.subst
  bindings : List.Forall₂ (fun p p' => R p.1 p'.1 ∧ p.2.Renamed R p'.2) u.bindings u'.bindings

namespace Unifier

variable {u u' : Unifier} {x x' y y' t t' : Term} {v v' : Var}

/-- Attempts at unification have the same success and have come equally far. -/
def AlikeResults (R : Pairing) (r r' : Bool × Unifier) : Prop :=
  r.1 = r'.1 ∧ r.2.Renamed R r'.2

/-- Results that agree, taken apart: one verdict, and unifications that are equally far. -/
theorem AlikeResults.cases {r r' : Bool × Unifier} (h : AlikeResults R r r') :
    ∃ ok u u', r = (ok, u) ∧ r' = (ok, u') ∧ u.Renamed R u' :=
  ⟨r.1, r.2, r'.2, rfl, by rw [h.1], h.2⟩

/-- Binding a variable passes the occurs check on both sides or on neither. -/
theorem Renamed.bind (h : Renamed R u u') (hv : R v v') (ht : t.Renamed R t') :
    AlikeResults R (u.bind v t) (u'.bind v' t') := by
  unfold Unifier.bind
  rw [h.subst.occurs_eq hv ht]
  split
  · exact ⟨rfl, h⟩
  · exact ⟨rfl, h.subst.bind hv ht, List.rel_append h.bindings (.cons ⟨hv, ht⟩ .nil)⟩

/-- Arguments that are unified in step come equally far, if every pair of them does. -/
theorem Renamed.inStep {step step' : Unifier → Term → Term → Bool × Unifier}
    {as as' bs bs' : List Term}
    (hstep : ∀ {u u' a a' b b'}, Renamed R u u' → a.Renamed R a' → b.Renamed R b' →
      AlikeResults R (step u a b) (step' u' a' b'))
    (h : Renamed R u u') (ha : List.Forall₂ (Term.Renamed R) as as')
    (hb : List.Forall₂ (Term.Renamed R) bs bs') :
    AlikeResults R (Unifier.inStep step u as bs) (Unifier.inStep step' u' as' bs') := by
  induction ha generalizing bs bs' u u' with
  | nil => exact ⟨rfl, h⟩
  | cons ha _ ih =>
    cases hb with
    | nil => exact ⟨rfl, h⟩
    | cons hb hbs =>
      simp only [Unifier.inStep]
      rcases (hstep h ha hb).cases with ⟨ok, v, v', hr, hr', hv⟩
      simp only [hr, hr']
      cases ok with
      | true => exact ih hv hbs
      | false => exact ⟨rfl, hv⟩

/-- So two unifications that go equally deep come equally far. -/
theorem Renamed.unifyWithin (h : Renamed R u u') (depth : Nat) (hx : x.Renamed R x')
    (hy : y.Renamed R y') :
    AlikeResults R (u.unifyWithin depth x y) (u'.unifyWithin depth x' y') := by
  -- induction on the depth, for any two unifiers that have come equally far
  induction depth generalizing u u' x x' y y' with
  | zero => exact ⟨rfl, h⟩
  | succ depth ih =>
    simp only [Unifier.unifyWithin]
    have hx' := h.subst.walk hx
    have hy' := h.subst.walk hy
    generalize u.subst.walk x = x, u'.subst.walk x' = x', u.subst.walk y = y,
      u'.subst.walk y' = y' at hx' hy'
    -- two terms that are no variables: the heads agree on both sides or on neither
    have hheads : ∀ {x x' y y'}, Term.Renamed R x x' → Term.Renamed R y y' →
        AlikeResults R
          (if x.headsAgree y then Unifier.inStep (Unifier.unifyWithin depth) u x.children y.children
            else (false, u))
          (if x'.headsAgree y' then
            Unifier.inStep (Unifier.unifyWithin depth) u' x'.children y'.children
            else (false, u')) := by
      intro x x' y y' hx hy
      rw [hx.headsAgree_eq hy]
      split
      · exact h.inStep ih hx.children hy.children
      · exact ⟨rfl, h⟩
    cases hx' with
    | var hv =>
      cases hy' with
      | var hw =>
        simp only [R.eq_iff hv hw]
        split
        · exact ⟨rfl, h⟩
        · exact h.bind hv (.var hw)
      | int i => exact h.bind hv (.int i)
      | text s => exact h.bind hv (.text s)
      | compound f hs => exact h.bind hv (.compound f hs)
    | int i =>
      cases hy' with
      | var hw => exact h.bind hw (.int i)
      | int j => exact hheads (.int i) (.int j)
      | text s => exact hheads (.int i) (.text s)
      | compound f hs => exact hheads (.int i) (.compound f hs)
    | text r =>
      cases hy' with
      | var hw => exact h.bind hw (.text r)
      | int j => exact hheads (.text r) (.int j)
      | text s => exact hheads (.text r) (.text s)
      | compound f hs => exact hheads (.text r) (.compound f hs)
    | compound f hs =>
      cases hy' with
      | var hw => exact h.bind hw (.compound f hs)
      | int j => exact hheads (.compound f hs) (.int j)
      | text s => exact hheads (.compound f hs) (.text s)
      | compound g hs' => exact hheads (.compound f hs) (.compound g hs')

end Unifier

namespace Subst

variable {s s' : Subst} {x x' y y' : Term}

/-- Unification succeeds on both sides or on neither, with bindings that belong together. -/
theorem Renamed.unify? (h : Renamed R s s') (hx : x.Renamed R x') (hy : y.Renamed R y') :
    Option.Rel (Unifier.Renamed R) (s.unify? x y) (s'.unify? x' y') := by
  have hstart : Unifier.Renamed R ⟨s, []⟩ ⟨s', []⟩ := ⟨h, .nil⟩
  have hdepth : Unifier.depthFor ⟨s, []⟩ x y = Unifier.depthFor ⟨s', []⟩ x' y' := by
    simp only [Unifier.depthFor, hx.nodes_eq, hy.nodes_eq, h.weight_eq]
  unfold Subst.unify? Unifier.unify
  rw [hdepth]
  obtain ⟨ok, u, u', hr, hr', hu⟩ :=
    (hstart.unifyWithin (Unifier.depthFor ⟨s', []⟩ x' y') hx hy).cases
  simp only [hr, hr']
  cases ok with
  | true => exact .some hu
  | false => exact .none

end Subst

/-! ### Expressions -/

/-- Two computations agree: both are at fault in the same way, or their results agree. -/
inductive Agree {α β : Type} (V : α → β → Prop) :
    Except ProgramError α → Except ProgramError β → Prop
  | ok {a : α} {b : β} (h : V a b) : Agree V (.ok a) (.ok b)
  | error (e : ProgramError) : Agree V (.error e) (.error e)

/-- Computations that agree, taken apart: two results that agree, or one and the same fault. -/
theorem Agree.cases {α β : Type} {V : α → β → Prop} {x : Except ProgramError α}
    {x' : Except ProgramError β} (h : Agree V x x') :
    (∃ a b, x = .ok a ∧ x' = .ok b ∧ V a b) ∨ ∃ e, x = .error e ∧ x' = .error e := by
  cases h with
  | ok h => exact .inl ⟨_, _, rfl, rfl, h⟩
  | error e => exact .inr ⟨e, rfl, rfl⟩

namespace Expr

mutual

/-- Has the expression no constant with variables? -/
def isClosed : Expr → Bool
  | .register _ => true
  | .build _ args => isClosedAll args
  | .const t => t.isGround

/-- Have the expressions no constants with variables? -/
def isClosedAll : List Expr → Bool
  | [] => true
  | e :: es => isClosed e && isClosedAll es

end

variable {s s' : Subst} {env env' : Env}

mutual

/-- A closed expression denotes terms that agree. -/
theorem eval_renamed (hs : s.Renamed R s') (henv : List.Forall₂ (Term.Renamed R) env env') :
    ∀ e : Expr, e.isClosed = true → Agree (Term.Renamed R) (e.eval env s) (e.eval env' s')
  | .register i, _ => by
    simp only [eval, henv.length_eq]
    rcases optionRel_cases (forall₂_getElem? henv i) with ⟨t, t', ht, ht', h⟩ | ⟨ht, ht'⟩ <;>
      simp only [ht, ht']
    · exact .ok (hs.resolve h)
    · exact .error _
  | .build f args, h => by
    simp only [eval]
    rcases (evalAll_renamed hs henv args (by simpa [isClosed] using h)).cases with
      ⟨ts, ts', hts, hts', hall⟩ | ⟨e, hts, hts'⟩ <;> simp only [hts, hts']
    · exact .ok (Term.Renamed.compound f hall).reduce
    · exact .error e
  | .const t, h => .ok (hs.resolve ((Term.renamed_iff_of_isGround h).mpr rfl))

/-- Closed expressions in a list denote terms that agree one by one. -/
theorem evalAll_renamed (hs : s.Renamed R s') (henv : List.Forall₂ (Term.Renamed R) env env') :
    ∀ es : List Expr, isClosedAll es = true →
      Agree (List.Forall₂ (Term.Renamed R)) (evalAll env s es) (evalAll env' s' es)
  | [], _ => .ok .nil
  | e :: es, h => by
    rw [isClosedAll, Bool.and_eq_true] at h
    simp only [evalAll]
    rcases (eval_renamed hs henv e h.1).cases with ⟨t, t', ht, ht', hone⟩ | ⟨err, ht, ht'⟩ <;>
      simp only [ht, ht']
    · rcases (evalAll_renamed hs henv es h.2).cases with
        ⟨ts, ts', hts, hts', hall⟩ | ⟨err, hts, hts'⟩ <;> simp only [hts, hts']
      · exact .ok (.cons hone hall)
      · exact .error err
    · exact .error err

end

end Expr

end LogicMachine
