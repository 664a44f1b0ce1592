import Mathlib.Algebra.GroupWithZero.Nat
import LogicMachine.Constraint.Rule
import LogicMachine.Proofs.Checking.Operands

/-!
# Sizes of environments

How many registers there are at each place of a block can be told before it runs, if the ways to a
place agree about it. The same goes for the guards of a rule, each of which is checked over what the
guards before it have left.
-/

namespace LogicMachine

/-! ### Blocks -/

namespace Instr

/-- The operands of an instruction. -/
def operands : Instr → List Expr
  | .invoke _ args | .constraint _ args => args
  | .unify a b => [a, b]
  | .goto _ | .choice _ | .fresh _ | .success | .fail => []

/-- The predicate that an instruction calls. -/
def callee? : Instr → Option Signature
  | .invoke name args => some ⟨name, args.length⟩
  | _ => none

/-- How many registers an instruction puts in front of the others. -/
def growth : Instr → Nat
  | .fresh n => n
  | _ => 0

/-- Where a block can go on after its instruction at `pc`, once what that has called has returned.
A jump may name a place that is not there. -/
def successors (pc : Nat) : Instr → List Int
  | .goto offset => [pc + 1 + offset]
  | .choice offset => [pc + 1, pc + 1 + offset]
  | .success | .fail => []
  | .invoke _ _ | .constraint _ _ | .fresh _ | .unify _ _ => [pc + 1]

/-- The instruction at `pc` can run with `n` registers: it reads no others, and all places where the
block can go on are there and expect the registers that it leaves. -/
def FitsAt (sizes : List Nat) (pc n : Nat) (instr : Instr) : Prop :=
  (∀ e ∈ instr.operands, e.isOver n = true) ∧
    ∀ place ∈ instr.successors pc, 0 ≤ place ∧ sizes[place.toNat]? = some (n + instr.growth)

instance (sizes : List Nat) (pc n : Nat) (instr : Instr) : Decidable (instr.FitsAt sizes pc n) :=
  inferInstanceAs (Decidable (_ ∧ _))

end Instr

/-- `Sized sizes code`: the code has `sizes[pc]` registers at its place `pc`, however that place is
come to. -/
structure Sized (sizes : List Nat) (code : List Instr) : Prop where
  length_eq : sizes.length = code.length
  fits : ∀ (pc : Nat) (instr : Instr) (n : Nat),
    code[pc]? = some instr → sizes[pc]? = some n → instr.FitsAt sizes pc n

/-- The code can run with `k` registers at its start. -/
def WellFormed (k : Nat) (code : List Instr) : Prop := ∃ sizes, Sized sizes code ∧ sizes[0]? = some k

/-- Whether sizes fit a code can be checked place by place. -/
theorem sized_iff {sizes : List Nat} {code : List Instr} :
    Sized sizes code ↔ sizes.length = code.length ∧
      ∀ p ∈ (code.zip sizes).zipIdx, p.1.1.FitsAt sizes p.2 p.1.2 := by
  have hmem : ∀ instr n pc, ((instr, n), pc) ∈ (code.zip sizes).zipIdx ↔
      code[pc]? = some instr ∧ sizes[pc]? = some n := by
    intro instr n pc
    rw [List.mem_zipIdx_iff_getElem?, List.getElem?_zip_eq_some]
  constructor
  · rintro ⟨hlength, hfits⟩
    refine ⟨hlength, ?_⟩
    rintro ⟨⟨instr, n⟩, pc⟩ hp
    exact hfits pc instr n ((hmem instr n pc).mp hp).1 ((hmem instr n pc).mp hp).2
  · rintro ⟨hlength, hfits⟩
    exact ⟨hlength, fun pc instr n hinstr hn => hfits _ ((hmem instr n pc).mpr ⟨hinstr, hn⟩)⟩

instance (sizes : List Nat) (code : List Instr) : Decidable (Sized sizes code) :=
  decidable_of_iff _ sized_iff.symm

/-- Every place has an instruction. -/
theorem Sized.exists_instr {sizes : List Nat} {code : List Instr} (h : Sized sizes code)
    {pc n : Nat} (hn : sizes[pc]? = some n) : ∃ instr, code[pc]? = some instr := by
  have hlt := (List.getElem?_eq_some_iff.mp hn).1
  rw [h.length_eq] at hlt
  exact ⟨_, List.getElem?_eq_getElem hlt⟩

/-! ### Guards -/

namespace Guard

variable {s : Subst} {env : Env} {g : Guard} {gs : List Guard}

/-- Does the guard read none but the first `n` registers? -/
def isOver (n : Nat) : Guard → Bool
  | .equal a b | .compare _ a b => a.isOver n && b.isOver n
  | .deconstruct _ _ index => index < n

/-- How many registers a guard puts in front of the others when it holds. -/
def growth : Guard → Nat
  | .deconstruct _ arity _ => arity
  | .equal _ _ | .compare _ _ _ => 0

/-- Does every guard read only registers that are there when it is checked, if there are `n` for the
first one? -/
def allOver : (n : Nat) → List Guard → Bool
  | _, [] => true
  | n, g :: gs => g.isOver n && allOver (n + g.growth) gs

/-- A guard that reads only registers that are there is no fault. -/
theorem check_of_isOver (s : Subst) (h : g.isOver env.length = true) :
    g.check s env = .ok none ∨
      ∃ env', g.check s env = .ok (some env') ∧ env'.length = env.length + g.growth := by
  cases g with
  | equal a b | compare op a b =>
    rw [isOver, Bool.and_eq_true] at h
    obtain ⟨x, hx⟩ := Expr.exists_eval (s := s) h.1
    obtain ⟨y, hy⟩ := Expr.exists_eval (s := s) h.2
    simp only [check, hx, hy]
    split
    · exact .inr ⟨env, rfl, rfl⟩
    · exact .inl rfl
  | deconstruct functor arity index =>
    have hi : index < env.length := by simpa [isOver] using h
    simp only [check, List.getElem?_eq_getElem hi]
    split
    · next f args _ =>
      split
      · next hfunctor =>
        refine .inr ⟨args ++ env, rfl, ?_⟩
        rw [List.length_append, hfunctor.2, growth, Nat.add_comm]
      · exact .inl rfl
    · exact .inl rfl

/-- Guards that read only registers that are there are no fault. -/
theorem checkAll_of_allOver (s : Subst) (h : allOver env.length gs = true) :
    checkAll s env gs = .ok none ∨
      ∃ env', checkAll s env gs = .ok (some env') ∧
        env'.length = env.length + (gs.map growth).sum := by
  induction gs generalizing env with
  | nil => exact .inr ⟨env, rfl, rfl⟩
  | cons g gs ih =>
    rw [allOver, Bool.and_eq_true] at h
    rcases check_of_isOver s h.1 with hg | ⟨env', hg, hlength⟩
    · exact .inl (by simp only [checkAll, hg])
    · rw [← hlength] at h
      simp only [checkAll, hg, List.map_cons, List.sum_cons]
      rcases ih h.2 with hgs | ⟨env'', hgs, hlength'⟩
      · exact .inl hgs
      · exact .inr ⟨env'', hgs, by omega⟩

end Guard

namespace Rule

/-- The number of arguments that the constraints at the heads of a rule have together. -/
def arity (r : Rule) : Nat := (r.head.map (·.arity)).sum

/-- The number of registers that the body of a rule starts with. -/
def bodySize (r : Rule) : Nat := r.arity + (r.guards.map Guard.growth).sum

end Rule

end LogicMachine
