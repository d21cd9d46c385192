import TreeEdit.Toml.Scalar
/-!
# The outline of a document

The tokens of a document are read into a row of marks: keys, values, and the
brackets around them. Reading goes on behind a mistake, which leaves a `flaw`
among the marks: behind a wrong line with the next line, and between brackets
with the next token that makes sense.
-/

namespace TreeEdit.Toml

/-- A piece of the outline of a document. -/
inductive Mark where
  | flaw
  /-- A header, `none` if it has no key. -/
  | header (k : Option Key)
  /-- A header of an array of tables. -/
  | element (k : Option Key)
  /-- A key, `none` if it has too many parts. -/
  | key (k : Option Key)
  | equals
  | comma
  /-- A value without brackets. -/
  | scalar (v : Value)
  | openArray
  | closeArray
  | openBraces
  | closeBraces
deriving Repr

/-- The mark of a mistake. -/
def Mark.isFlaw : Mark → Bool
  | flaw => true
  | _ => false

/-- How deep arrays and tables between braces may nest. -/
def depthLimit : Nat := 80

/-- The number of parts that a key may have. -/
def partLimit : Nat := 80

/-! ## Keys and words -/

/-- The further parts of a key, `none` for a part that is missing, and the number of their
tokens. Each part stands behind a dot, and blanks may stand between. -/
def moreParts (behindDot : Bool) : List Token → List (Option Token) × Nat
  | [] => (if behindDot then [none] else [], 0)
  | t :: ts =>
    if t.kind = .blank then let (ps, n) := moreParts behindDot ts; (ps, n + 1)
    else if t.kind = .dot then
      let (ps, n) := moreParts true ts
      (if behindDot then none :: ps else ps, n + 1)
    else if behindDot then
      if t.isPart then let (ps, n) := moreParts false ts; (some t :: ps, n + 1)
      else ([none], 0)
    else ([], 0)

/-- The parts of a key that starts with `t`, and the number of their tokens behind `t`. -/
def keyParts (t : Token) (ts : List Token) : List (Option Token) × Nat :=
  let (ps, n) := moreParts (t.kind == .dot) ts
  ((if t.kind = .dot then none else some t) :: ps, n)

/-- The key of some parts. A part that is missing or wrong leaves a flaw. -/
def keyOf (ps : List (Option Token)) : List Mark × Option Key :=
  let name (p : Option Token) : Text := (p.map fun t => t.name?.getD t.text).getD []
  if partLimit < ps.length then ([.flaw], none)
  else
    (if ps.all fun p => (p.bind Token.name?).isSome then [] else [.flaw],
      some ⟨ps.dropLast.map name, name (ps.getLast?.getD none)⟩)

def keyMarks (ps : List (Option Token)) : List Mark :=
  let (flaws, k) := keyOf ps
  flaws ++ [.key k]

/-- The marks of a value without brackets, `none` if there is none. -/
def scalarMarks : Option Value → List Mark
  | some v => [.scalar v]
  | none => [.flaw, .scalar (.string [])]

/-- The marks in the place of a missing value. -/
def missingMarks : List Mark := [.flaw, .scalar .lost]

/-! ## Brackets -/

/-- What has to come next between braces. -/
inductive Need where
  | key
  | equals
  | value
  | comma
deriving DecidableEq, Repr

/-- A bracket or brace that is still open. -/
inductive Level where
  /-- An array, and whether an element stands right before. -/
  | array (full : Bool)
  | braces (need : Need)
  /-- Something to pass over up to a closing token, and the brackets and braces open in it. -/
  | skipped (closing : TokenKind) (brackets braces : Nat)
deriving DecidableEq, Repr

/-- Where a line is, outside of brackets. -/
inductive Stage where
  | start
  | equals
  | value
  | rest
  | junk
deriving DecidableEq, Repr

/-- One step of reading: its marks, what is open then, where the line is, and how many tokens
it took beyond the first. -/
structure Step where
  marks : List Mark
  levels : List Level
  stage : Stage
  more : Nat := 0

/-- Opens a bracket, unless too many are open. -/
def openLevel (mark : Mark) (level : Level) (closing : TokenKind) (levels : List Level) : Step :=
  if levels.length < depthLimit then ⟨[mark], level :: levels, .rest, 0⟩
  else ⟨[mark, .flaw], .skipped closing 0 0 :: levels, .rest, 0⟩

/-- Reads a value, or its opening bracket. The levels are those behind the value. -/
def value? (levels : List Level) (t : Token) (ts : List Token) : Option Step :=
  match t.kind with
  | .string => some ⟨scalarMarks (t.string?.map .string), levels, .rest, 0⟩
  | .bare | .dot =>
    let run := wordTokens t ts
    some ⟨scalarMarks (word? (t.text ++ run.flatMap Token.text)), levels, .rest, run.length⟩
  | .openBracket => some (openLevel .openArray (.array false) .closeBracket levels)
  | .openBrace => some (openLevel .openBraces (.braces .key) .closeBrace levels)
  | _ => none

/-- A step with marks in front. -/
def Step.after (s : Step) (ms : List Mark) : Step := { s with marks := ms ++ s.marks }

/-- A flaw where a condition fails. -/
def flawUnless (b : Bool) : List Mark := if b then [] else [.flaw]

def arrayStep (full : Bool) (ls : List Level) (t : Token) (ts : List Token) : Step :=
  match value? (.array true :: ls) t ts with
  | some s => s.after (flawUnless !full)
  | none =>
    match t.kind with
    | .comma => ⟨if full then [.comma] else [.flaw], .array false :: ls, .rest, 0⟩
    | .closeBracket => ⟨[.closeArray], ls, .rest, 0⟩
    | .equals | .closeBrace => ⟨[.flaw], .array full :: ls, .rest, 0⟩
    | _ => ⟨[], .array full :: ls, .rest, 0⟩

/-- A step between braces, at a place for a key. -/
def pairStep (need : Need) (ls : List Level) (t : Token) (ts : List Token) : Step :=
  match t.kind with
  | .openBracket => ⟨[.flaw], .skipped .closeBracket 0 0 :: .braces need :: ls, .rest, 0⟩
  | .openBrace => ⟨[.flaw], .skipped .closeBrace 0 0 :: .braces need :: ls, .rest, 0⟩
  | _ =>
    let (ps, n) := keyParts t ts
    ⟨flawUnless (need == .key) ++ keyMarks ps, .braces .equals :: ls, .rest, n⟩

def bracesStep (need : Need) (ls : List Level) (t : Token) (ts : List Token) : Step :=
  match t.kind with
  | .comma =>
    if need = .comma then ⟨[.comma], .braces .key :: ls, .rest, 0⟩
    else ⟨[.flaw], .braces need :: ls, .rest, 0⟩
  | .equals =>
    match need with
    | .key => ⟨keyMarks [none] ++ [.equals], .braces .value :: ls, .rest, 0⟩
    | .equals => ⟨[.equals], .braces .value :: ls, .rest, 0⟩
    | _ => ⟨[.flaw], .braces need :: ls, .rest, 0⟩
  | .closeBrace =>
    ⟨flawUnless (need == .key || need == .comma) ++ [.closeBraces], ls, .rest, 0⟩
  | .closeBracket => ⟨[.flaw], .braces need :: ls, .rest, 0⟩
  | .blank | .newline | .comment => ⟨[], .braces need :: ls, .rest, 0⟩
  | _ =>
    if need = .key ∨ need = .comma then pairStep need ls t ts
    else match value? (.braces .comma :: ls) t ts with
      | some s => s.after (flawUnless (need == .value))
      | none => ⟨[.flaw], .braces need :: ls, .rest, 0⟩

/-- A step in something to pass over. -/
def skippedStep (closing : TokenKind) (brackets braces : Nat) (ls : List Level) (t : Token) :
    Step :=
  match t.kind with
  | .openBracket => ⟨[], .skipped closing (brackets + 1) braces :: ls, .rest, 0⟩
  | .openBrace => ⟨[], .skipped closing brackets (braces + 1) :: ls, .rest, 0⟩
  | .closeBracket =>
    if closing = .closeBracket ∧ brackets = 0 then ⟨[.closeArray], ls, .rest, 0⟩
    else ⟨[], .skipped closing (brackets - 1) braces :: ls, .rest, 0⟩
  | .closeBrace =>
    if closing = .closeBrace ∧ braces = 0 then ⟨[.closeBraces], ls, .rest, 0⟩
    else ⟨[], .skipped closing brackets (braces - 1) :: ls, .rest, 0⟩
  | _ => ⟨[], .skipped closing brackets braces :: ls, .rest, 0⟩

/-! ## Lines -/

/-- A step in something to pass over up to the end of the line. -/
def junkStep (t : Token) : Step :=
  ⟨[], [], if t.kind = .newline ∨ t.kind = .comment then .start else .junk, 0⟩

def restStep (t : Token) : Step :=
  match t.kind with
  | .newline | .comment => ⟨[], [], .start, 0⟩
  | .blank => ⟨[], [], .rest, 0⟩
  | _ => ⟨[.flaw], [], .junk, 0⟩

def valueStep (t : Token) (ts : List Token) : Step :=
  match value? [] t ts with
  | some s => s
  | none =>
    match t.kind with
    | .blank => ⟨[], [], .value, 0⟩
    | .equals => ⟨missingMarks, [], .rest, 0⟩
    | .closeBracket => ⟨[.flaw, .openArray, .closeArray], [], .rest, 0⟩
    | .closeBrace => ⟨[.flaw, .openBraces, .closeBraces], [], .rest, 0⟩
    | _ => (restStep t).after missingMarks

/-- Reads a header behind its first bracket. -/
def headerStep (ts : List Token) : Step :=
  let double := (ts.head?.map Token.kind) == some .openBracket
  let opening := if double then 1 else 0
  let (ps, n) := moreParts true (ts.drop opening)
  let (flaws, k) := keyOf ps
  let mark := if double then Mark.element k else Mark.header k
  let closing := ((ts.drop (opening + n)).takeWhile fun t => t.kind == .closeBracket).length
  if opening < closing then ⟨flaws ++ [mark], [], .rest, opening + n + opening + 1⟩
  else ⟨flaws ++ [.flaw, mark], [], .junk, opening + n⟩

def startStep (t : Token) (ts : List Token) : Step :=
  match t.kind with
  | .openBracket => headerStep ts
  | .closeBracket => ⟨[.flaw, .header none], [], .rest, 0⟩
  | .equals => ⟨keyMarks [none] ++ [.equals], [], .value, 0⟩
  | .string | .bare | .dot =>
    let (ps, n) := keyParts t ts
    ⟨keyMarks ps, [], .equals, n⟩
  | .comma | .openBrace | .closeBrace => ⟨[.flaw], [], .junk, 0⟩
  | .blank | .newline | .comment => ⟨[], [], .start, 0⟩

def lineStep (stage : Stage) (t : Token) (ts : List Token) : Step :=
  match stage with
  | .start => startStep t ts
  | .equals =>
    if t.kind = .equals then ⟨[.equals], [], .value, 0⟩ else (junkStep t).after [.flaw]
  | .value => valueStep t ts
  | .rest => restStep t
  | .junk => junkStep t

/-! ## Documents -/

def step (levels : List Level) (stage : Stage) (t : Token) (ts : List Token) : Step :=
  match levels with
  | [] => lineStep stage t ts
  | .array full :: ls => arrayStep full ls t ts
  | .braces need :: ls => bracesStep need ls t ts
  | .skipped closing brackets braces :: ls => skippedStep closing brackets braces ls t

/-- The marks at the end of a document, with what is still open. -/
def endMarks (levels : List Level) (stage : Stage) : List Mark :=
  let closing : List Mark := levels.flatMap fun
    | .array _ => [.flaw, .closeArray]
    | .braces _ => [.flaw, .closeBraces]
    | .skipped .. => [.flaw]
  match levels, stage with
  | [], .equals => [.flaw]
  | [], .value => missingMarks
  | _, _ => closing

/-- The marks of a document from some place on. -/
def outlineFrom (levels : List Level) (stage : Stage) (ts : List Token) : List Mark :=
  match ts with
  | [] => endMarks levels stage
  | t :: rest =>
    let s := step levels stage t rest
    s.marks ++ outlineFrom s.levels s.stage (rest.drop s.more)
termination_by ts.length
decreasing_by simp only [List.length_cons, List.length_drop]; omega

def outline (ts : List Token) : List Mark :=
  flawUnless (ts.all Token.isSound) ++ outlineFrom [] .start ts

end TreeEdit.Toml
