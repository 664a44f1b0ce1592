/-!
# Coloured text

Pieces of text set off by the escape sequences that terminals understand.
-/

namespace LogicMachine

/-- How a piece of text is set off on a terminal. -/
inductive Color
  | red
  | green
  | yellow
  | blue
  | purple
  | cyan
  | darkGray
  | lightRed
  | boldCyan
  deriving DecidableEq

namespace Color

/-- The parameters of the escape sequence that switches a colour on. -/
def code : Color → String
  | .red => "31"
  | .green => "32"
  | .yellow => "33"
  | .blue => "34"
  | .purple => "35"
  | .cyan => "36"
  | .darkGray => "90"
  | .lightRed => "91"
  | .boldCyan => "1;36"

/-- A text between the sequence that switches the colour on and the one that resets it. -/
def paint (c : Color) (text : String) : String := "\x1b[" ++ c.code ++ "m" ++ text ++ "\x1b[0m"

end Color

end LogicMachine
