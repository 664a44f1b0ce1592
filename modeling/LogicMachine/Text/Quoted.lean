import LogicMachine.Text.DefaultIgnorable
import LogicMachine.Text.GraphemeExtend
import LogicMachine.Text.Unprintable

/-!
# Quoted text

How a text value is written: between double quotes, with short escapes for the quote, the
backslash and the four most common controls, and a hexadecimal escape for every other character
that would not show by itself. The single quote stands as it is.
-/

namespace LogicMachine.Text

/-- The escape of a character by its code point: `\u`, then lower-case hexadecimal in braces. -/
def hexEscape (c : Char) : String :=
  "\\u\x7b" ++ String.ofList (Nat.toDigits 16 c.toNat) ++ "\x7d"

/-- The modifier letters among the characters with the property Grapheme_Extend: the halfwidth
katakana sound marks. They follow a letter as a combining mark does, but fill a cell of their
own. -/
def isHalfwidthSoundMark (c : Char) : Bool := c = '\uff9e' || c = '\uff9f'

/-- Does `c` attach to the character before it, so that it does not show by itself? -/
def isCombining (c : Char) : Bool := isGraphemeExtend c && !isHalfwidthSoundMark c

/-- Would `c` not show by itself? It has no glyph, attaches to the character before it, or may show
as nothing. -/
def isHidden (c : Char) : Bool := isUnprintable c || isCombining c || isDefaultIgnorable c

/-- One character inside quotes. -/
def escapeChar (c : Char) : String :=
  if c = '"' then "\\\""
  else if c = '\\' then "\\\\"
  else if c = '\t' then "\\t"
  else if c = '\r' then "\\r"
  else if c = '\n' then "\\n"
  else if c = '\x00' then "\\0"
  else if isHidden c then hexEscape c
  else c.toString

/-- A text between double quotes. -/
def quote (s : String) : String :=
  "\"" ++ String.join (s.toList.map escapeChar) ++ "\""

end LogicMachine.Text
