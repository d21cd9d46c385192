import TreeEdit.Text.Blank
/-!
# Styles of printed text

A style is switched on by an escape sequence in front of a text and off behind
it. Without colour a text is printed as it is.
-/

namespace TreeEdit.Cli

inductive Style where
  | bold
  | dimmed
  | reversed
  | red
  | green
  | yellow
  | cyan
deriving DecidableEq, Repr

def Style.code : Style → Text
  | bold => ['1']
  | dimmed => ['2']
  | reversed => ['7']
  | red => ['3', '1']
  | green => ['3', '2']
  | yellow => ['3', '3']
  | cyan => ['3', '6']

def Style.on (s : Style) : Text := ['\x1b', '['] ++ s.code ++ ['m']

def styleOff : Text := ['\x1b', '[', '0', 'm']

/-- Switches the style on again behind every sequence in the text that switches it off. -/
def Style.keep (s : Style) : Text → Text
  | '\x1b' :: '[' :: '0' :: 'm' :: t => styleOff ++ s.on ++ s.keep t
  | c :: t => c :: s.keep t
  | [] => []

def paint (color : Bool) (s : Style) (t : Text) : Text :=
  if color then s.on ++ s.keep t ++ styleOff else t

/-- The text with spaces in front, up to eight characters. -/
def padLeft (t : Text) : Text := List.replicate (8 - t.length) ' ' ++ t

end TreeEdit.Cli
