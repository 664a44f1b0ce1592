import LogicMachine.Code.Instr

/-!
# Modules

The predicates of a program, by signature. Every definition brings a block of its own; a block can
also be installed under a second signature, and is then the same block there.
-/

namespace LogicMachine

/-- Predicate definitions, at most one for each signature, and the number of blocks made. -/
structure Module where
  definitions : List (Signature × Block) := []
  blocks : Nat := 0

namespace Module

/-- The module without predicates. -/
def empty : Module := {}

/-- A new predicate block with its own label. -/
def newBlock (m : Module) (code : List Instr) : Block × Module :=
  (⟨.predicate m.blocks, code⟩, { m with blocks := m.blocks + 1 })

/-- Make `block` the definition of `sig`, in place of an earlier one. -/
def install (m : Module) (sig : Signature) (block : Block) : Module :=
  { m with definitions := m.definitions.filter (·.1 ≠ sig) ++ [(sig, block)] }

/-- Define `name/arity` by a new block. -/
def define (m : Module) (name : String) (arity : Nat) (code : List Instr) : Module :=
  let (block, m) := m.newBlock code
  m.install ⟨name, arity⟩ block

/-- The block that defines `sig`. -/
def get? (m : Module) (sig : Signature) : Option Block :=
  (m.definitions.find? (·.1 = sig)).map (·.2)

/-- The signatures that have a definition. -/
def signatures (m : Module) : List Signature := m.definitions.map (·.1)

/-- The arities for which `name` is defined, ascending. -/
def arities (m : Module) (name : String) : List Nat :=
  ((m.signatures.filter (·.name = name)).map (·.arity)).mergeSort

/-- The block that defines `sig`, or what is wrong with calling it. -/
def lookup (m : Module) (sig : Signature) : Except ProgramError Block :=
  match m.get? sig with
  | some block => .ok block
  | none =>
    match m.arities sig.name with
    | [] => .error (.undefinedPredicate sig)
    | known => .error (.arityMismatch sig.name sig.arity known)

/-- A program without definitions defines nothing. -/
@[simp] theorem get?_empty (sig : Signature) : empty.get? sig = none := rfl

/-- What defines a signature is one of the definitions. -/
theorem mem_of_get? {m : Module} {sig : Signature} {block : Block} (h : m.get? sig = some block) :
    (sig, block) ∈ m.definitions := by
  obtain ⟨⟨sig', block'⟩, hfind, rfl⟩ := Option.map_eq_some_iff.mp h
  obtain rfl : sig' = sig := by simpa using List.find?_some hfind
  exact List.mem_of_find?_eq_some hfind

/-- A look-up succeeds exactly for the signatures that are defined. -/
theorem lookup_eq_ok_iff {m : Module} {sig : Signature} {block : Block} :
    m.lookup sig = .ok block ↔ m.get? sig = some block := by
  unfold lookup
  cases m.get? sig with
  | some b => simp
  | none => cases m.arities sig.name <;> simp

end Module

end LogicMachine
