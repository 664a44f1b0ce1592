import LogicMachine.Constraint.Odometer
import LogicMachine.Constraint.Rule
import LogicMachine.Constraint.Store

/-!
# Matching

One pass of a constraint over the rules. For every head position it could fill, every combination
with live partners is tried in order; those that pass the guards fire. Deletions take effect at
once, so that later combinations of the same pass see them. The bodies are not run here.
-/

namespace LogicMachine

/-- A rule that has fired and whose body is still to run, over `env`. -/
structure Firing where
  occurrence : Occurrence
  /-- The constraints that filled the heads, in head order. -/
  participants : List Constraint
  /-- Their arguments one after another, behind what the guards have put in front. -/
  env : Env

/-- Where a pass has got to: the store so far, what has fired in order, and the fault that ended
the pass, if one did. -/
structure Pass where
  store : Store
  firings : List Firing := []
  fault : Option ProgramError := none

namespace Pass

/-- Fire: record the combination and delete the participants that the rule gives up. -/
def fire (p : Pass) (f : Firing) : Pass :=
  let rule := f.occurrence.rule
  let recorded := p.store.recordFiring f.occurrence.index (f.participants.map (·.serial))
  { p with
    store := (rule.deletes.filterMap (f.participants[·]?)).foldl Store.erase recorded
    firings := p.firings ++ [f] }

/-- May the combination fire the rule, its guards apart? Its members have to be live and distinct,
and must not have fired the rule before. -/
def admits (p : Pass) (rule : Nat) (combination : List Constraint) : Bool :=
  let serials := combination.map (·.serial)
  combination.all p.store.isAlive && decide serials.Nodup && !p.store.hasFired rule serials

/-- Try one combination. A pass with a fault does nothing more. -/
def tryCombination (s : Subst) (o : Occurrence) (p : Pass) (combination : List Constraint) : Pass :=
  if p.fault.isSome || !p.admits o.index combination then p
  else
    match Guard.checkAll s (combination.flatMap (·.args)) o.rule.guards with
    | .error e => { p with fault := some e }
    | .ok none => p
    | .ok (some env) => p.fire ⟨o, combination, env⟩

/-- The candidates for each head position: `c` alone at the position it is to fill, and the live
constraints of the right signature elsewhere. -/
def candidates (store : Store) (c : Constraint) (o : Occurrence) : List (List Constraint) :=
  o.rule.head.mapIdx fun j sig => if j = o.pos then [c] else store.lookup sig

/-- Try every combination in which `c` fills one head position. -/
def tryOccurrence (s : Subst) (c : Constraint) (p : Pass) (o : Occurrence) : Pass :=
  if p.fault.isSome then p
  else (combinations (candidates p.store c o)).foldl (tryCombination s o) p

end Pass

/-- Match `c` against all rules under `s`. -/
def Store.matchRules (st : Store) (rs : RuleSet) (s : Subst) (c : Constraint) : Pass :=
  (rs.occurrences c.sig).foldl (Pass.tryOccurrence s c) { store := st }

end LogicMachine
