import LogicMachine.Code.Instr
import LogicMachine.Constraint.Store
import LogicMachine.Subst.Basic

/-!
# Frames

The state of one branch of a search: what is running, for which callers, and what the branch knows
about variables and constraints.
-/

namespace LogicMachine

/-- What an activation runs. -/
inductive Origin
  | query
  | predicate (sig : Signature)
  | rule (index : Nat)
  deriving DecidableEq

/-- The text of an origin. -/
def Origin.render : Origin → String
  | .query => "?-"
  | .predicate sig => sig.render
  | .rule index => "rule #" ++ toString index

/-- A block being run over its registers. `pc` is the place of the next instruction. -/
structure Activation where
  origin : Origin
  env : Env
  block : Block
  pc : Nat := 0

/-- The instruction about to run. -/
def Activation.current? (a : Activation) : Option Instr := a.block.code[a.pc]?

/-- A point of execution: the running activation and its callers, innermost first. `depth` is the
number of callers. -/
structure Continuation where
  running : Activation
  callers : List Activation := []
  depth : Nat := callers.length
  depth_eq : depth = callers.length := by rfl

namespace Continuation

/-- Does the running activation or one of its callers run the block with that label? -/
def isActive (k : Continuation) (label : BlockLabel) : Bool :=
  (k.running :: k.callers).any (·.block.label = label)

/-- Go on at `pc`. -/
def resumeAt (k : Continuation) (pc : Nat) : Continuation :=
  { k with running := { k.running with pc } }

/-- Where a jump leads, counted from the program counter. The end of the block is still a place to
jump to, although nothing can run there. -/
def target (k : Continuation) (offset : Int) : Except ProgramError Nat :=
  let place := (k.running.pc : Int) + offset
  if 0 ≤ place ∧ place ≤ k.running.block.code.length then .ok place.toNat
  else .error (.jumpOutOfBlock k.running.pc offset)

/-- Put terms in front of the registers. -/
def prepend (k : Continuation) (terms : List Term) : Continuation :=
  { k with running := { k.running with env := terms ++ k.running.env } }

/-- Call a block: what was running becomes its caller. -/
def call (k : Continuation) (origin : Origin) (env : Env) (block : Block) : Continuation where
  running := ⟨origin, env, block, 0⟩
  callers := k.running :: k.callers
  depth := k.depth + 1
  depth_eq := by simp [k.depth_eq]

/-- Return to the caller, if there is one. -/
def return? (k : Continuation) : Option Continuation :=
  match h : k.callers with
  | [] => none
  | caller :: callers => some ⟨caller, callers, k.depth - 1, by simp [k.depth_eq, h]⟩

/-- A jump leads to the place that it names, which lies within the block or right behind it. -/
theorem target_eq_ok_iff {k : Continuation} {offset : Int} {pc : Nat} :
    k.target offset = .ok pc ↔
      (pc : Int) = k.running.pc + offset ∧ pc ≤ k.running.block.code.length := by
  simp only [target]
  split
  · rw [Except.ok.injEq]
    omega
  · simp only [reduceCtorEq, false_iff]
    omega

/-- A return goes to the innermost caller, and the others stay. -/
theorem callers_of_return? {k k' : Continuation} (h : k.return? = some k') :
    k.callers = k'.running :: k'.callers := by
  obtain ⟨running, _ | ⟨caller, callers⟩, depth, hdepth⟩ := k
  · cases h
  · obtain rfl := Option.some.inj h
    rfl

/-- Only what has no caller cannot return. -/
theorem callers_eq_nil_of_return? {k : Continuation} (h : k.return? = none) : k.callers = [] := by
  obtain ⟨running, _ | ⟨caller, callers⟩, depth, hdepth⟩ := k
  · rfl
  · cases h

end Continuation

/-- The state of one branch. `alt` is the innermost choice point it could go back to. -/
structure Frame where
  alt : Option Nat := none
  subst : Subst := .empty
  store : Store := .empty
  cont : Continuation

namespace Frame

/-- The frame of a query that is about to start. -/
def start (env : Env) (code : List Instr) : Frame where
  cont := { running := ⟨.query, env, ⟨.query, code⟩, 0⟩ }

end Frame

end LogicMachine
