import LogicMachine.Code.Instr
import LogicMachine.Constraint.Guard

/-!
# Constraint rules

A rule waits for constraints that match its heads in order. A rule set is accepted only if every
rule has a head and deletes no head that it does not have.
-/

namespace LogicMachine

/-- A constraint rule. The body runs over the environment that the guards leave behind; the
constraints at the positions `deletes` leave the store when the rule fires. -/
structure Rule where
  head : List Signature
  guards : List Guard
  body : List Instr
  deletes : List Nat := []

namespace Rule

/-- The rule with the head positions it deletes, ascending and without repeats. -/
def deleting (r : Rule) (positions : List Nat) : Rule :=
  { r with deletes := positions.mergeSort.eraseDups }

/-- A rule that deletes nothing only adds to what is known. -/
def isPropagation (r : Rule) : Bool := r.deletes.isEmpty

/-- What is wrong with the rule, if it is the one numbered `index`. -/
def fault? (index : Nat) (r : Rule) : Option ProgramError :=
  if r.head.isEmpty then some (.emptyHead index)
  else
    (r.deletes.find? (r.head.length ≤ ·)).map fun d =>
      .deletesMissingHead index d r.head.length

/-- A rule without fault has a head, and deletes only heads that it has. -/
theorem fault?_eq_none_iff {index : Nat} {r : Rule} :
    r.fault? index = none ↔ r.head ≠ [] ∧ ∀ d ∈ r.deletes, d < r.head.length := by
  by_cases h : r.head = [] <;> simp [fault?, h]

end Rule

/-- Rules that can be run, numbered by their place. -/
structure RuleSet where
  rules : List Rule
  head_ne_nil : ∀ r ∈ rules, r.head ≠ []
  deletes_lt : ∀ r ∈ rules, ∀ d ∈ r.deletes, d < r.head.length

/-- One head position of one rule. -/
structure Occurrence where
  index : Nat
  rule : Rule
  pos : Nat

namespace RuleSet

/-- The rule set without rules: constraints are merely kept. -/
def empty : RuleSet := ⟨[], by simp, by simp⟩

instance : Inhabited RuleSet := ⟨empty⟩

/-- The fault of the first faulty rule. -/
def fault? (rules : List Rule) : Option ProgramError :=
  rules.zipIdx.findSome? fun (r, i) => r.fault? i

/-- A list of rules is without fault when every rule has a head and deletes only heads that it has.
-/
theorem fault?_eq_none_iff {rules : List Rule} :
    fault? rules = none ↔
      ∀ r ∈ rules, r.head ≠ [] ∧ ∀ d ∈ r.deletes, d < r.head.length := by
  simp only [fault?, List.findSome?_eq_none_iff, Prod.forall, Rule.fault?_eq_none_iff]
  constructor
  · intro h r hr
    obtain ⟨i, hi, rfl⟩ := List.getElem_of_mem hr
    exact h _ i (List.mem_zipIdx_iff_getElem?.2 (List.getElem?_eq_getElem hi))
  · intro h r i hri
    exact h r (List.fst_mem_of_mem_zipIdx hri)

/-- Accept a list of rules, or report the first fault. -/
def ofList (rules : List Rule) : Except ProgramError RuleSet :=
  match h : fault? rules with
  | some e => .error e
  | none =>
    .ok ⟨rules, fun r hr => (fault?_eq_none_iff.1 h r hr).1,
      fun r hr => (fault?_eq_none_iff.1 h r hr).2⟩

/-- Are there no rules? -/
def isEmpty (rs : RuleSet) : Bool := rs.rules.isEmpty

/-- The head positions that a constraint of signature `sig` could fill, in order of the rules and
then of their heads. -/
def occurrences (rs : RuleSet) (sig : Signature) : List Occurrence :=
  rs.rules.zipIdx.flatMap fun (rule, index) =>
    (rule.head.zipIdx.filter (·.1 = sig)).map fun (_, pos) => ⟨index, rule, pos⟩

end RuleSet

end LogicMachine
