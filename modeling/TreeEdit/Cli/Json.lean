import TreeEdit.Command
/-!
# Reports in JSON

A report is printed over several lines, two spaces for each level, with the
members of an object in the order they were given.
-/

namespace TreeEdit.Cli

inductive JsonValue where
  | null
  | bool (b : Bool)
  | number (n : Int)
  | string (t : Text)
  | array (elements : List JsonValue)
  | object (members : List (String × JsonValue))
deriving Repr

namespace JsonValue

/-- How a character is written inside a string. -/
def escapeChar (c : Char) : Text :=
  match c with
  | '"' => ['\\', '"']
  | '\\' => ['\\', '\\']
  | '\x08' => ['\\', 'b']
  | '\x0c' => ['\\', 'f']
  | '\n' => ['\\', 'n']
  | '\r' => ['\\', 'r']
  | '\t' => ['\\', 't']
  | c =>
    if c.toNat < 0x20 then
      ['\\', 'u', '0', '0', Nat.digitChar (c.toNat / 16), Nat.digitChar (c.toNat % 16)]
    else [c]

def quote (t : Text) : Text := ['"'] ++ t.flatMap escapeChar ++ ['"']

/-- The start of a line at a level. -/
def newLine (level : Nat) : Text := '\n' :: List.replicate (2 * level) ' '

mutual

/-- The value in print, at a level. -/
def print (level : Nat) : JsonValue → Text
  | null => "null".toList
  | bool b => (toString b).toList
  | number n => Numeral.printInt n
  | string t => quote t
  | array [] => ['[', ']']
  | array (v :: vs) =>
    ['['] ++ newLine (level + 1) ++ print (level + 1) v ++ printRest (level + 1) vs ++ newLine level
      ++ [']']
  | object [] => ['\x7b', '\x7d']
  | object ((k, v) :: ms) =>
    ['\x7b'] ++ newLine (level + 1) ++ quote k.toList ++ [':', ' '] ++ print (level + 1) v
      ++ printMembers (level + 1) ms ++ newLine level ++ ['\x7d']

/-- Further elements of an array. -/
def printRest (level : Nat) : List JsonValue → Text
  | [] => []
  | v :: vs => [','] ++ newLine level ++ print level v ++ printRest level vs

/-- Further members of an object. -/
def printMembers (level : Nat) : List (String × JsonValue) → Text
  | [] => []
  | (k, v) :: ms =>
    [','] ++ newLine level ++ quote k.toList ++ [':', ' '] ++ print level v ++ printMembers level ms

end

def ofNat (n : Nat) : JsonValue := .number n

def ofMove (m : Move) : JsonValue :=
  .object [("horizontal", .number m.horizontal), ("vertical", .number m.vertical)]

/-- What an edit did, and where. -/
def ofEditOutcome : EditOutcome → JsonValue
  | .deleted s => spanned "deleted" s
  | .yanked s => spanned "yanked" s
  | .pasted s => spanned "pasted" s
  | .nothing => .object [("outcome", .string "nothing".toList)]
where
  spanned (name : String) (s : Span) : JsonValue :=
    .object [("outcome", .string name.toList), ("byte_start", ofNat s.start),
      ("byte_end", ofNat s.stop)]

def outcomeMembers : CommandOutcome → List (String × JsonValue)
  | .moved m => [("kind", .string "moved".toList), ("value", ofMove m)]
  | .edited o => [("kind", .string "edited".toList), ("value", ofEditOutcome o)]
  | .answered b => [("kind", .string "predicate".toList), ("value", .bool b)]
  | .jumped p => [("kind", .string "jumped".toList), ("value", ofNat p)]

def ofNodeRef (r : NodeRef) : JsonValue :=
  .object [("id", .number 0), ("byte_start", ofNat r.span.start), ("byte_end", ofNat r.span.stop),
    ("kind", .string r.kind.toList), ("revision", ofNat r.revision)]

end JsonValue

end TreeEdit.Cli
