import TreeEdit.Toml.Outline
/-!
# Reading TOML

The marks of a document are put together into entries. Values are assembled on
a stack: a closing mark of the other kind, or a key in an array, ends what is
open without finishing it.
-/

namespace TreeEdit.Toml

/-! ## Statements -/

/-- A document up to some statement. -/
structure Draft where
  entries : Entries
  /-- The table that pairs go to; `none` below a header that was refused. -/
  scope : Option (List Text)
  /-- The pairs below a header that was refused. -/
  aside : Entries
  /-- A statement was wrong. -/
  flawed : Bool

namespace Draft

def empty : Draft := ⟨[], some [], [], false⟩

/-- The draft behind a statement; `none` for a fault. A wrong statement changes nothing. -/
def settle (d : Draft) : Except Trouble Draft → Option Draft
  | .ok d => some d
  | .error .flaw => some { d with flawed := true }
  | .error .fault => none

/-- Adds a pair to the table that pairs go to. -/
def addPair (d : Draft) (k : Key) (v : Value) : Option Draft :=
  let add := Entries.addPair Entries.dottedBar k v
  d.settle <| match d.scope with
    | some path => do
      let (_, es) ← Entries.within .outer Entries.headerBar add path .header d.entries
      return { d with entries := es }
    | none => do
      let (_, es) ← add .header d.aside
      return { d with aside := es }

/-- A header that is refused: the pairs below it go nowhere. -/
def refuse (d : Draft) : Draft := { d with scope := none, aside := [], flawed := true }

def openTable (d : Draft) : Option Key → Option Draft
  | none => some d.refuse
  | some k =>
    match d.entries.openTable k with
    | .ok es => some { d with entries := es, scope := some (k.path ++ [k.name]) }
    | .error .fault => none
    | .error .flaw =>
      match d.entries.reopenTable k with
      | .ok es => some { d with entries := es, scope := some (k.path ++ [k.name]), flawed := true }
      | .error _ => some d.refuse

def openElement (d : Draft) : Option Key → Option Draft
  | none => some d.refuse
  | some k =>
    match d.entries.openElement k with
    | .ok es => some { d with entries := es, scope := some (k.path ++ [k.name]) }
    | .error .fault => none
    | .error .flaw => some d.refuse

end Draft

/-! ## Values -/

/-- Something that is still to be finished. -/
inductive Pending where
  /-- A key before its equals sign. -/
  | named (k : Key)
  /-- A key before its value. -/
  | pair (k : Key)
  | array (elements : List Value)
  /-- Braces, with the key and the value of the pair that is being read. -/
  | braces (entries : Entries) (k : Option Key) (v : Option Value)

/-- A document up to some mark. -/
structure Assembly where
  draft : Draft
  pending : List Pending
  /-- The rest of the document is passed over. -/
  ended : Bool

namespace Assembly

/-- Hands a value to what waits for it. -/
def deliver (d : Draft) (v : Value) : List Pending → Option Assembly
  | .pair k :: ps => (d.addPair k v).map fun d => ⟨d, ps, false⟩
  | .array vs :: ps => some ⟨d, .array (vs ++ [v]) :: ps, false⟩
  | .braces es k _ :: ps => some ⟨d, .braces es k (some v) :: ps, false⟩
  | ps => some ⟨d, ps, false⟩

/-- Adds the pair that is being read between braces, if there is one. -/
def finishPair (d : Draft) (es : Entries) : Option Key → Option Value → Option (Draft × Entries)
  | some k, some v =>
    match Entries.addPair Entries.bracesBar k v .braces es with
    | .ok (_, es) => some (d, es)
    | .error .flaw => some ({ d with flawed := true }, es)
    | .error .fault => none
  | _, _ => some (d, es)

def statementMark (d : Draft) : Mark → Option Assembly
  | .header k => (d.openTable k).map fun d => ⟨d, [], false⟩
  | .element k => (d.openElement k).map fun d => ⟨d, [], false⟩
  | .key (some k) => some ⟨d, [.named k], false⟩
  | .key none => some ⟨d, [], true⟩
  | _ => some ⟨d, [], false⟩

def valueMark (d : Draft) (ps : List Pending) : Mark → Option Assembly
  | .scalar v => deliver d v ps
  | .openArray => some ⟨d, .array [] :: ps, false⟩
  | .openBraces => some ⟨d, .braces [] none none :: ps, false⟩
  | _ => deliver d .lost ps

def arrayMark (d : Draft) (vs : List Value) (ps : List Pending) : Mark → Option Assembly
  | .closeArray => deliver d (.array vs) ps
  | .comma => some ⟨d, .array vs :: ps, false⟩
  | .scalar v => valueMark d (.array vs :: ps) (.scalar v)
  | .openArray => valueMark d (.array vs :: ps) .openArray
  | .openBraces => valueMark d (.array vs :: ps) .openBraces
  | _ => deliver d .lost ps

def bracesMark (d : Draft) (es : Entries) (k : Option Key) (v : Option Value)
    (ps : List Pending) : Mark → Option Assembly
  | .key k' => some ⟨d, .braces es (k' <|> k) v :: ps, false⟩
  | .equals => some ⟨d, .braces es k v :: ps, false⟩
  | .comma => do
    let (d, es) ← finishPair d es k v
    return ⟨d, .braces es none none :: ps, false⟩
  | .closeBraces => do
    let (d, es) ← finishPair d es k v
    deliver d (.table .braces es) ps
  | .scalar v' => valueMark d (.braces es k v :: ps) (.scalar v')
  | .openArray => valueMark d (.braces es k v :: ps) .openArray
  | .openBraces => valueMark d (.braces es k v :: ps) .openBraces
  | _ => deliver d (.table .unclosed es) ps

/-- Adds a mark; `none` for a fault. -/
def add (a : Assembly) (m : Mark) : Option Assembly :=
  if a.ended ∨ m.isFlaw then some a
  else match a.pending with
    | [] => statementMark a.draft m
    | .named k :: ps =>
      match m with
      | .equals => some ⟨a.draft, .pair k :: ps, false⟩
      | _ => some ⟨a.draft, [], true⟩
    | .pair k :: ps => valueMark a.draft (.pair k :: ps) m
    | .array vs :: ps => arrayMark a.draft vs ps m
    | .braces es k v :: ps => bracesMark a.draft es k v ps m

end Assembly

/-! ## Documents -/

/-- The text without a byte order mark in front. -/
def withoutMark : Text → Text
  | '\uFEFF' :: r => r
  | t => t

def read (t : Text) : Except Trouble Entries :=
  let marks := outline (Token.scan (withoutMark t))
  match marks.foldlM Assembly.add ⟨.empty, [], false⟩ with
  | none => .error .fault
  | some a =>
    if a.draft.flawed ∨ marks.any Mark.isFlaw then .error .flaw else .ok a.draft.entries

end TreeEdit.Toml
