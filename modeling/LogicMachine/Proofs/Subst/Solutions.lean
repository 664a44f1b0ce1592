import Mathlib.Data.List.GetD
import LogicMachine.Proofs.Subst.Acyclic

/-!
# What satisfies a substitution

A substitution is a list of equations, each between a variable and its value. Terms are read as
plain trees here: replacing a variable evaluates nothing. A valuation satisfies a substitution when
it makes both sides of every equation the same.
-/

namespace LogicMachine

/-- A term for every variable. -/
abbrev Valuation := Var → Term

namespace Term

mutual

/-- Replace each variable by its value, and evaluate nothing. -/
def apply (θ : Valuation) : Term → Term
  | .var v => θ v
  | .int i => .int i
  | .text s => .text s
  | .compound f args => .compound f (applyAll θ args)

/-- Replace the variables in the terms of a list. -/
def applyAll (θ : Valuation) : List Term → List Term
  | [] => []
  | t :: ts => apply θ t :: applyAll θ ts

end

/-- On a list, every term is replaced in by itself. -/
theorem applyAll_eq_map (θ : Valuation) (ts : List Term) : applyAll θ ts = ts.map (apply θ) := by
  induction ts with
  | nil => rfl
  | cons t ts ih => simp [applyAll, ih]

/-- A variable gives way to its value. -/
@[simp] theorem apply_var (θ : Valuation) (v : Var) : (var v).apply θ = θ v := by
  simp [apply]

/-- An integer has no variables. -/
@[simp] theorem apply_int (θ : Valuation) (i : Int) : (int i).apply θ = int i := by
  simp [apply]

/-- A text has no variables. -/
@[simp] theorem apply_text (θ : Valuation) (s : String) : (text s).apply θ = text s := by
  simp [apply]

/-- In a compound the arguments are replaced in, and the functor stays. -/
@[simp] theorem apply_compound (θ : Valuation) (f : Functor) (args : List Term) :
    (compound f args).apply θ = compound f (args.map (apply θ)) := by
  simp [apply, applyAll_eq_map]

variable {θ θ' : Valuation} {t : Term} {v : Var}

/-- Only the values of the variables of the term matter. -/
theorem apply_congr (h : ∀ v ∈ t.vars, θ v = θ' v) : t.apply θ = t.apply θ' := by
  induction t with
  | var v => simpa using h v (by simp)
  | int i => simp
  | text s => simp
  | compound f args ih =>
    have hargs : args.map (apply θ) = args.map (apply θ') :=
      List.map_congr_left fun a ha => ih a ha fun v hv => h v (by simpa using ⟨a, ha, hv⟩)
    rw [apply_compound, apply_compound, hargs]

/-- To replace variables twice is to replace them once, by what their values become. -/
theorem apply_apply (t : Term) (σ θ : Valuation) :
    (t.apply σ).apply θ = t.apply fun v => (σ v).apply θ := by
  induction t with
  | var v => simp
  | int i => simp
  | text s => simp
  | compound f args ih =>
    simp only [apply_compound, List.map_map]
    exact congrArg _ (List.map_congr_left ih)

/-- A term without variables is its own value. -/
theorem apply_of_isGround (h : t.isGround = true) : t.apply θ = t := by
  induction t with
  | var v => cases h
  | int i => simp
  | text s => simp
  | compound f args ih =>
    rw [isGround_compound, List.all_eq_true] at h
    rw [apply_compound, List.map_congr_left fun a ha => ih a ha (h a ha), List.map_id']

/-! ### Sizes -/

/-- The value of an argument is smaller than that of the compound. -/
theorem nodes_lt_of_mem {f : Functor} {args : List Term} {a : Term} (h : a ∈ args) :
    (a.apply θ).nodes < ((compound f args).apply θ).nodes := by
  rw [apply_compound, nodes_compound]
  exact Nat.lt_succ_of_le (nodes_le_nodesAll_of_mem (List.mem_map_of_mem h))

/-- The same for the arguments of any term. -/
theorem nodes_lt_of_mem_children {a : Term} (h : a ∈ t.children) :
    (a.apply θ).nodes < (t.apply θ).nodes := by
  cases t with
  | compound f args => exact nodes_lt_of_mem h
  | var | int | text => cases h

/-- The value of a variable is no larger than a term that the variable occurs in. -/
theorem nodes_le_of_mem_vars (h : v ∈ t.vars) : (θ v).nodes ≤ (t.apply θ).nodes := by
  induction t with
  | var w =>
    obtain rfl : v = w := by simpa using h
    rw [apply_var]
  | int i => simp at h
  | text s => simp at h
  | compound f args ih =>
    obtain ⟨a, ha, hv⟩ := List.mem_flatMap.mp (vars_compound f args ▸ h)
    exact (ih a ha hv).trans (nodes_lt_of_mem ha).le

/-- A variable's value is smaller than a compound that the variable occurs in. -/
theorem nodes_lt_of_mem_vars {f : Functor} {args : List Term} (h : v ∈ (compound f args).vars) :
    (θ v).nodes < ((compound f args).apply θ).nodes := by
  obtain ⟨a, ha, hv⟩ := List.mem_flatMap.mp (vars_compound f args ▸ h)
  exact (nodes_le_of_mem_vars hv).trans_lt (nodes_lt_of_mem ha)

/-! ### Terms without operators -/

mutual

/-- Is no compound of the term one of an operator? -/
def isPlain : Term → Bool
  | .var _ | .int _ | .text _ => true
  | .compound (.named _) args => isPlainAll args
  | .compound (.builtin _) _ => false

/-- Are all terms of a list without operators? -/
def isPlainAll : List Term → Bool
  | [] => true
  | t :: ts => isPlain t && isPlainAll ts

end

/-- A list is without operators when each of its terms is. -/
theorem isPlainAll_eq_all (ts : List Term) : isPlainAll ts = ts.all isPlain := by
  induction ts with
  | nil => rfl
  | cons t ts ih => simp [isPlainAll, ih]

/-- A variable is without operators, whatever it may be bound to. -/
@[simp] theorem isPlain_var (v : Var) : (var v).isPlain = true := by simp [isPlain]

/-- A compound of a name has the operators of its arguments. -/
@[simp] theorem isPlain_named (name : String) (args : List Term) :
    (compound (.named name) args).isPlain = args.all isPlain := by
  simp [isPlain, isPlainAll_eq_all]

/-- A compound without operators is one of a name, with arguments that have none. -/
theorem isPlain_compound_iff {f : Functor} {args : List Term} :
    (compound f args).isPlain = true ↔
      (∃ name, f = .named name) ∧ ∀ a ∈ args, a.isPlain = true := by
  cases f with
  | named name => simp
  | builtin op => simp [isPlain]

/-- Only compounds of operators give way to values. -/
theorem reduce_named (name : String) (args : List Term) :
    (compound (.named name) args).reduce = compound (.named name) args := rfl

/-- Without operators there is nothing to evaluate. -/
theorem instantiate_eq_apply (h : t.isPlain = true) (σ : Var → Term) :
    t.instantiate σ = t.apply σ := by
  induction t with
  | var v => simp
  | int i => simp
  | text s => simp
  | compound f args ih =>
    obtain ⟨⟨name, rfl⟩, hargs⟩ := isPlain_compound_iff.mp h
    rw [instantiate_compound, apply_compound, reduce_named,
      List.map_congr_left fun a ha => ih a ha (hargs a ha)]

/-- Values without operators bring none into a term. -/
theorem isPlain_apply (h : t.isPlain = true) (hθ : ∀ v ∈ t.vars, (θ v).isPlain = true) :
    (t.apply θ).isPlain = true := by
  induction t with
  | var v => simpa using hθ v (by simp)
  | int i => simp [isPlain]
  | text s => simp [isPlain]
  | compound f args ih =>
    obtain ⟨hname, hargs⟩ := isPlain_compound_iff.mp h
    rw [apply_compound, isPlain_compound_iff]
    refine ⟨hname, List.forall_mem_map.mpr fun a ha => ?_⟩
    exact ih a ha (hargs a ha) fun v hv => hθ v (by simpa using ⟨a, ha, hv⟩)

/-- Ground terms without operators are the data that programs compute with. -/
def isData (t : Term) : Bool := t.isPlain && t.isGround

/-- Data have neither operators nor variables. -/
theorem isData_iff : t.isData = true ↔ t.isPlain = true ∧ t.isGround = true := by
  rw [isData, Bool.and_eq_true]

/-- When all its variables have ground values, the value of a term is ground. -/
theorem isGround_apply (hθ : ∀ v ∈ t.vars, (θ v).isGround = true) :
    (t.apply θ).isGround = true := by
  induction t with
  | var v => simpa using hθ v (by simp)
  | int i => simp [isGround]
  | text s => simp [isGround]
  | compound f args ih =>
    rw [apply_compound, isGround_compound, List.all_map, List.all_eq_true]
    exact fun a ha => ih a ha fun v hv => hθ v (by simpa using ⟨a, ha, hv⟩)

/-- With data for variables, the value of a plain term is data. -/
theorem isData_apply (h : t.isPlain = true) (hθ : ∀ v, (θ v).isData = true) :
    (t.apply θ).isData = true :=
  isData_iff.mpr ⟨isPlain_apply h fun v _ => (isData_iff.mp (hθ v)).1,
    isGround_apply fun v _ => (isData_iff.mp (hθ v)).2⟩

end Term

namespace Valuation

/-- Variables in a row, from `first` on, get the values of a list. The variables before them keep
theirs. -/
def extend (θ : Valuation) (first : Var) (vals : List Term) : Valuation :=
  fun v => if v < first then θ v else vals.getD (v - first) (.int 0)

variable {θ : Valuation} {first v : Var} {vals : List Term}

/-- The variables before the row keep their values. -/
theorem extend_of_lt (h : v < first) : θ.extend first vals v = θ v := if_pos h

/-- If all values were data and the new ones are, all values are. -/
theorem isData_extend (hθ : ∀ v, (θ v).isData = true) (hvals : ∀ t ∈ vals, t.isData = true) :
    ∀ v, (θ.extend first vals v).isData = true := by
  intro v
  rw [extend]
  split
  · exact hθ v
  · rw [List.getD_eq_getElem?_getD]
    cases hv : vals[v - first]? with
    | none => rfl
    | some t => exact hvals t (List.mem_of_getElem? hv)

/-- The new values are the values of the list. -/
theorem map_extend {n : Nat} (hlength : vals.length = n) :
    (List.range' first n).map (θ.extend first vals) = vals := by
  refine List.ext_getElem (by simp [hlength]) fun i hi hi' => ?_
  have hnew : ¬ first + i < first := Nat.not_lt.mpr (Nat.le_add_right first i)
  rw [List.getElem_map, List.getElem_range', Nat.one_mul, extend, if_neg hnew,
    Nat.add_sub_cancel_left]
  exact List.getD_eq_getElem _ _ hi'

end Valuation

namespace Subst

open Relation

/-- The valuation makes every bound variable equal to its value. -/
def SatisfiedBy (s : Subst) (θ : Valuation) : Prop := ∀ v t, s.get? v = some t → θ v = t.apply θ

variable {s : Subst} {θ : Valuation} {v w : Var} {t : Term}

/-- Where nothing is bound there is nothing to satisfy. -/
theorem satisfiedBy_empty (θ : Valuation) : empty.SatisfiedBy θ := by
  intro v t ht
  rw [get?_empty] at ht
  cases ht

/-- A new binding is one more equation. -/
theorem satisfiedBy_bind (hv : s.get? v = none) :
    (s.bind v t).SatisfiedBy θ ↔ s.SatisfiedBy θ ∧ θ v = t.apply θ := by
  constructor
  · intro h
    refine ⟨fun w u hw => h w u ?_, h v t (by rw [get?_bind, if_pos rfl])⟩
    have hvw : v ≠ w := by
      rintro rfl
      rw [hv] at hw
      cases hw
    rw [get?_bind, if_neg hvw, hw]
  · rintro ⟨h, ht⟩ w u hw
    rw [get?_bind] at hw
    split at hw
    · next heq =>
      obtain rfl := Option.some.inj hw
      rw [← heq, ht]
    · exact h w u hw

/-- Following a term does not change its value. -/
theorem SatisfiedBy.walkWithin (h : s.SatisfiedBy θ) (hops : Nat) (t : Term) :
    (s.walkWithin hops t).apply θ = t.apply θ := by
  induction hops generalizing t with
  | zero => cases t <;> simp [Subst.walkWithin]
  | succ hops ih =>
    cases t with
    | var v =>
      simp only [Subst.walkWithin]
      cases hv : s.get? v with
      | none => rfl
      | some u => exact (ih u).trans (h v u hv).symm
    | int | text | compound => simp [Subst.walkWithin]

/-- Followed at its root, a term has the same value. -/
theorem SatisfiedBy.walk (h : s.SatisfiedBy θ) (t : Term) : (s.walk t).apply θ = t.apply θ :=
  h.walkWithin s.size t

/-- What a variable leads to has a value that is no larger. -/
theorem SatisfiedBy.nodes_le (h : s.SatisfiedBy θ) (hr : ReflTransGen s.Mentions v w) :
    (θ w).nodes ≤ (θ v).nodes := by
  induction hr using ReflTransGen.head_induction_on with
  | refl => exact le_rfl
  | head hstep _ ih =>
    obtain ⟨t, ht, hx⟩ := hstep
    rw [h _ _ ht]
    exact ih.trans (Term.nodes_le_of_mem_vars hx)

/-! ### Resolving without operators -/

/-- Is no operator in any of the values? -/
def IsPlain (s : Subst) : Prop := ∀ v t, s.get? v = some t → t.isPlain = true

/-- Where nothing is bound there is no operator in a value. -/
theorem isPlain_empty : empty.IsPlain := by
  intro v t ht
  rw [get?_empty] at ht
  cases ht

/-- What a variable stands for has no operator if no value has one. -/
theorem IsPlain.resolveVarWithin (h : s.IsPlain) (hops : Nat) (v : Var) :
    (s.resolveVarWithin hops v).isPlain = true := by
  induction hops generalizing v with
  | zero => simp [Subst.resolveVarWithin]
  | succ hops ih =>
    cases hv : s.get? v with
    | none => simp [Subst.resolveVarWithin, hv]
    | some t =>
      simp only [Subst.resolveVarWithin, hv, Term.instantiate_eq_apply (h v t hv)]
      exact Term.isPlain_apply (h v t hv) fun w _ => ih w

/-- Resolving a term without operators only replaces its variables. -/
theorem IsPlain.resolve_eq_apply (ht : t.isPlain = true) :
    s.resolve t = t.apply s.resolveVar := Term.instantiate_eq_apply ht _

/-- What a plain term stands for is plain. -/
theorem IsPlain.resolve (h : s.IsPlain) (ht : t.isPlain = true) :
    (s.resolve t).isPlain = true := by
  rw [IsPlain.resolve_eq_apply ht]
  exact Term.isPlain_apply ht fun v _ => h.resolveVarWithin s.size v

/-- Resolving a variable does not change its value. -/
theorem SatisfiedBy.resolveVarWithin (h : s.SatisfiedBy θ) (hs : s.IsPlain) (hops : Nat) (v : Var) :
    (s.resolveVarWithin hops v).apply θ = θ v := by
  induction hops generalizing v with
  | zero => simp [Subst.resolveVarWithin]
  | succ hops ih =>
    cases hv : s.get? v with
    | none => simp [Subst.resolveVarWithin, hv]
    | some t =>
      simp only [Subst.resolveVarWithin, hv, Term.instantiate_eq_apply (hs v t hv),
        Term.apply_apply, ih, h v t hv]

/-- Resolving a term does not change its value. -/
theorem SatisfiedBy.resolve (h : s.SatisfiedBy θ) (hs : s.IsPlain) (ht : t.isPlain = true) :
    (s.resolve t).apply θ = t.apply θ := by
  rw [IsPlain.resolve_eq_apply ht, Term.apply_apply]
  exact Term.apply_congr fun v _ => h.resolveVarWithin hs s.size v

/-- Every instance of what the variables stand for satisfies the substitution. -/
theorem Acyclic.satisfiedBy_resolve (h : s.Acyclic) (hs : s.IsPlain) (θ : Valuation) :
    s.SatisfiedBy fun v => (s.resolveVar v).apply θ := by
  intro v t hv
  simp only [h.resolveVar_of_bound hv, IsPlain.resolve_eq_apply (hs v t hv), Term.apply_apply]

end Subst

end LogicMachine
