/-!
# Search strategies

The two orders in which a search visits its branches. Both visit every branch of a finite search;
they differ in which one is visited next.
-/

namespace LogicMachine

/-- How the branches of a search are ordered. -/
inductive Strategy
  /-- Always go on with the innermost untried alternative. -/
  | depthFirst
  /-- After an answer or a failed unification, and when a running block is entered again, rotate
  the untried alternatives and go on with the outermost one. -/
  | interleaved
  deriving DecidableEq

end LogicMachine
