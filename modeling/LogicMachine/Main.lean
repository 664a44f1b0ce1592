import LogicMachine.Console.Session

/-!
# The command

Everything is decided by the session; what is left here is to print it.
-/

/-- Run the session that the arguments ask for, and print what it leaves. -/
def main (args : List String) : IO UInt32 := do
  match LogicMachine.Session.run? LogicMachine.Session.allowance args with
  | some outcome =>
    IO.print (LogicMachine.Session.unlines outcome.output)
    IO.eprint (LogicMachine.Session.unlines outcome.errors)
    return outcome.code.toUInt32
  | none => return 1
