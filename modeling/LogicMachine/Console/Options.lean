import LogicMachine.Search.Report
import LogicMachine.Search.Strategy
import LogicMachine.Text.Blank

/-!
# Command line options

The flags of the command and what can be wrong with them. Arguments are read from left to right; of
a flag that is given twice the last one counts.
-/

namespace LogicMachine

/-- The settings of a session. Without `watch` no event is printed. -/
structure Options where
  maxDepth : Option Nat := none
  strategy : Strategy := .depthFirst
  limit : Nat := 8
  watch : Option (List Event) := none
  help : Bool := false

/-- What can be wrong with the arguments. -/
inductive UsageError
  | unknownFlag (flag : String)
  | missingValue (flag : String)
  | badValue (flag value : String)
  | unknownEvent (name : String)
  deriving DecidableEq

/-- The text shown for a usage error. -/
def UsageError.message : UsageError → String
  | .unknownFlag flag => s!"Unknown flag `{flag}`."
  | .missingValue flag => s!"The flag `{flag}` needs a value."
  | .badValue flag value => s!"`{value}` is not a valid value for `{flag}`."
  | .unknownEvent name =>
    let names := String.join (Event.all.map fun e => "\n  - " ++ e.name)
    s!"Unknown debugger event `{name}`. Valid events are:{names}"

namespace Options

/-- The value of a decimal digit. -/
def digit? (c : Char) : Option Nat :=
  if '0' ≤ c ∧ c ≤ '9' then some (c.toNat - '0'.toNat) else none

/-- The value of a row of digits. -/
def digits? (cs : List Char) : Option Nat :=
  cs.foldlM (fun n c => (digit? c).map (10 * n + ·)) 0

/-- A number of 64 bits in decimal, with or without a plus sign. -/
def number? (s : String) : Option Nat :=
  let cs := match s.toList with
    | '+' :: cs => cs
    | cs => cs
  if cs.isEmpty then none else (digits? cs).filter (· ≤ 0xffffffffffffffff)

/-- The events named in a list between commas, or all of them for the word `all`. Blanks around a
name do not count, and neither do empty names. -/
def events (s : String) : Except UsageError (List Event) :=
  if Text.trim s.toList = "all".toList then .ok Event.all
  else
    let names := (s.splitOn ",").map fun item => String.ofList (Text.trim item.toList)
    (names.filter (!·.isEmpty)).mapM fun name =>
      match Event.ofName? name with
      | some e => .ok e
      | none => .error (.unknownEvent name)

/-- The value of a flag that wants a number. -/
def number (flag value : String) : Except UsageError Nat :=
  match number? value with
  | some n => .ok n
  | none => .error (.badValue flag value)

/-- The setting of a flag that wants a value, if it is one. -/
def setter? (flag : String) : Option (Options → String → Except UsageError Options) :=
  if flag = "--max-depth" then
    some fun o value => (number flag value).map fun n => { o with maxDepth := some n }
  else if flag = "--limit" then
    some fun o value => (number flag value).map fun n => { o with limit := n }
  else if flag = "--trace" then
    some fun o value => (events value).map fun watch => { o with watch := some watch }
  else none

/-- The setting of a flag that stands alone, if it is one. -/
def switch? (flag : String) : Option (Options → Options) :=
  if flag = "--interleave" then some fun o => { o with strategy := .interleaved }
  else if flag = "-h" ∨ flag = "--help" then some fun o => { o with help := true }
  else none

/-- Read arguments on top of options. -/
def read (o : Options) : List String → Except UsageError Options
  | [] => .ok o
  | flag :: rest =>
    match switch? flag with
    | some switch => (switch o).read rest
    | none =>
      match setter? flag, rest with
      | none, _ => .error (.unknownFlag flag)
      | some _, [] => .error (.missingValue flag)
      | some set, value :: rest =>
        match set o value with
        | .error e => .error e
        | .ok o => o.read rest

/-- The options that a list of arguments asks for. -/
def ofArgs (args : List String) : Except UsageError Options := read {} args

end Options

end LogicMachine
