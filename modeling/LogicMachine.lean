import LogicMachine.Code.Expr
import LogicMachine.Code.Instr
import LogicMachine.Code.Layout
import LogicMachine.Code.Module
import LogicMachine.Console.Color
import LogicMachine.Console.Demo
import LogicMachine.Console.Options
import LogicMachine.Console.Session
import LogicMachine.Constraint.Basic
import LogicMachine.Constraint.Guard
import LogicMachine.Constraint.Matching
import LogicMachine.Constraint.Odometer
import LogicMachine.Constraint.Rule
import LogicMachine.Constraint.Store
import LogicMachine.Counter
import LogicMachine.Main
import LogicMachine.Names
import LogicMachine.ProgramError
import LogicMachine.Samples
import LogicMachine.Search.Answers
import LogicMachine.Search.Basic
import LogicMachine.Search.ChoicePoints
import LogicMachine.Search.Frame
import LogicMachine.Search.Instruction
import LogicMachine.Search.Reactivation
import LogicMachine.Search.Report
import LogicMachine.Search.Strategy
import LogicMachine.Signature
import LogicMachine.Subst.Basic
import LogicMachine.Subst.Unification
import LogicMachine.Subst.Walk
import LogicMachine.Term.Arithmetic
import LogicMachine.Term.Basic
import LogicMachine.Term.Instantiation
import LogicMachine.Term.Rendering
import LogicMachine.Text.Blank
import LogicMachine.Text.CodePoints
import LogicMachine.Text.DefaultIgnorable
import LogicMachine.Text.GraphemeExtend
import LogicMachine.Text.Quoted
import LogicMachine.Text.Unprintable
import LogicMachine.Proofs.ChoicePoints.Chain
import LogicMachine.Proofs.ChoicePoints.Sound
import LogicMachine.Proofs.ChoicePoints.Operations
import LogicMachine.Proofs.ChoicePoints.Sweep
import LogicMachine.Proofs.ChoicePoints.Tidy
import LogicMachine.Proofs.ChoicePoints.Strict
import LogicMachine.Proofs.Search.Branch
import LogicMachine.Proofs.Search.Step
import LogicMachine.Proofs.Search.Exploration
import LogicMachine.Proofs.Search.DepthFirst
import LogicMachine.Proofs.ChoicePoints.Suspension
import LogicMachine.Proofs.Search.Suspended
import LogicMachine.Proofs.Renaming.Pairing
import LogicMachine.Proofs.Constraints.Combinations
import LogicMachine.Proofs.Constraints.Contents
import LogicMachine.Proofs.Constraints.Pass
import LogicMachine.Proofs.Constraints.Log
import LogicMachine.Proofs.Renaming.Subst
import LogicMachine.Proofs.Renaming.Store
import LogicMachine.Proofs.Renaming.Matching
import LogicMachine.Proofs.Renaming.Frame
import LogicMachine.Proofs.Renaming.Advance
import LogicMachine.Proofs.Search.Fate
import LogicMachine.Proofs.Search.Pool
import LogicMachine.Proofs.Search.Strategies
import LogicMachine.Proofs.Subst.Acyclic
import LogicMachine.Proofs.Subst.Solutions
import LogicMachine.Proofs.Subst.Reading
import LogicMachine.Proofs.Subst.Unification
import LogicMachine.Proofs.Subst.Unifiable
import LogicMachine.Proofs.Subst.MostGeneral
import LogicMachine.Proofs.Subst.ReadingRules
import LogicMachine.Proofs.Subst.Termination
import LogicMachine.Proofs.Subst.Extension
import LogicMachine.Proofs.Constraints.Guards
import LogicMachine.Proofs.Constraints.Backlinks
import LogicMachine.Proofs.Constraints.Settled
import LogicMachine.Proofs.Search.Reached
import LogicMachine.Proofs.Constraints.Tended
import LogicMachine.Proofs.Clauses.Program
import LogicMachine.Proofs.Clauses.Reading
import LogicMachine.Proofs.Clauses.Frame
import LogicMachine.Proofs.Clauses.Step
import LogicMachine.Proofs.Clauses.Answers
import LogicMachine.Proofs.Search.Performing
import LogicMachine.Proofs.Constraints.Noted
import LogicMachine.Proofs.Checking.Blocks
import LogicMachine.Proofs.Checking.Safety
import LogicMachine.Proofs.ChoicePoints.Mirrors
import LogicMachine.Proofs.Search.Sweeping
import LogicMachine.Proofs.Constraints.Spent
import LogicMachine.Proofs.Subst.Variables
import LogicMachine.Proofs.Search.Single
import LogicMachine.Proofs.Order.Closing
import LogicMachine.Proofs.Order.Running
import LogicMachine.Proofs.Order.Answer
import LogicMachine.Proofs.Search.Depth
import LogicMachine.Proofs.Search.Slots
import LogicMachine.Proofs.ChoicePoints.Tied
import LogicMachine.Proofs.Search.Memory
import LogicMachine.Proofs.Search.Hoarding
import LogicMachine.Proofs.Search.Redo
import LogicMachine.Proofs.Subst.Evaluated
import LogicMachine.Proofs.Search.Turns
import LogicMachine.Proofs.ChoicePoints.Occupied
import LogicMachine.Proofs.Search.Pending
import LogicMachine.Proofs.ChoicePoints.Rotation
import LogicMachine.Proofs.Search.Fairness
import LogicMachine.Proofs.Subst.Reported
import LogicMachine.Proofs.Constraints.Lasting
import LogicMachine.Proofs.Constraints.Complete
import LogicMachine.Proofs.Search.InTurn
import LogicMachine.Proofs.Layout.Places
import LogicMachine.Proofs.Layout.Moved
import LogicMachine.Proofs.Layout.Abreast
import LogicMachine.Proofs.Layout.Alternatives
import LogicMachine.Proofs.Subst.Traversals
import LogicMachine.Proofs.Checking.Registers
import LogicMachine.Proofs.Shown.Naming
import LogicMachine.Proofs.Search.Freshness
import LogicMachine.Proofs.Console.Verdict
import LogicMachine.Proofs.Shown.Constraints
