import TreeEdit.Text.Blank
/-!
# Files

The files below a working directory, by their paths. Directories exist where a
file lies below them. Files are read as texts; one is written by replacing its
whole content, and leaves every other file as it was.
-/

namespace TreeEdit

/-- The text with the given UTF-8 form. -/
def Text.ofBytes? (bs : List UInt8) : Option Text :=
  (String.fromUTF8? (ByteArray.mk bs.toArray)).map String.toList

/-- Why a file cannot be read or written. -/
inductive FileError where
  | notFound
  | isDirectory
  | notDirectory
  /-- The content is not the UTF-8 form of a text. -/
  | notText
  /-- The path leads to no place in a directory. -/
  | invalidInput
deriving DecidableEq, Repr

def FileError.message : FileError → String
  | notFound => "No such file or directory (os error 2)"
  | isDirectory => "Is a directory (os error 21)"
  | notDirectory => "Not a directory (os error 20)"
  | notText => "stream did not contain valid UTF-8"
  | invalidInput => "path has no parent directory"

/-- The names on the way to a file. The way starts in the working directory, or with an empty
name in the root directory. -/
abbrev Place := List Text

def Place.ofPath (path : Text) : Place :=
  (if path.head? = some '/' then [[]] else [])
    ++ (path.splitWhere (· == '/')).filter fun s => !s.isEmpty && s != ['.']

abbrev Files := List (Place × List UInt8)

/-- What a path leads to. -/
inductive FileEntry where
  | file (place : Place)
  | directory
  | missing
  /-- A file stands where a directory is needed. -/
  | blocked
deriving DecidableEq, Repr

namespace Files

def content? (fs : Files) (p : Place) : Option (List UInt8) := fs.lookup p

/-- The working directory, the root directory, or a place that a file lies below. -/
def isDirectory (fs : Files) (p : Place) : Bool :=
  p == [] || p == [[]] || fs.any fun f => p.isPrefixOf f.1 && decide (p.length < f.1.length)

/-- Goes on from a directory along names. Above the working directory nothing is known. -/
def walk (fs : Files) (here : Place) : List Text → FileEntry
  | [] => .directory
  | name :: rest =>
    if name = ['.', '.'] then
      if here = [[]] then fs.walk here rest
      else if here = [] then (if rest.isEmpty then .directory else .missing)
      else fs.walk here.dropLast rest
    else
      let there := here ++ [name]
      if (fs.content? there).isSome then (if rest.isEmpty then .file there else .blocked)
      else if fs.isDirectory there then fs.walk there rest
      else .missing

/-- The path ends with a slash, or with a dot for the directory it has led to. -/
def endsInDirectory (path : Text) : Bool :=
  (path.splitWhere (· == '/')).getLast?.any fun s => s.isEmpty || s == ['.']

/-- What a path leads to. Its end may ask for a directory. -/
def entry (fs : Files) (path : Text) : FileEntry :=
  if path.isEmpty then .missing
  else
    match fs.walk [] (Place.ofPath path) with
    | .file p => if endsInDirectory path then .blocked else .file p
    | other => other

def read (fs : Files) (path : Text) : Except FileError Text :=
  match fs.entry path with
  | .missing => .error .notFound
  | .blocked => .error .notDirectory
  | .directory => .error .isDirectory
  | .file p =>
    match (fs.content? p).bind Text.ofBytes? with
    | some t => .ok t
    | none => .error .notText

def put (fs : Files) (p : Place) (bs : List UInt8) : Files :=
  if (fs.content? p).isSome then fs.map fun f => if f.1 == p then (p, bs) else f
  else fs ++ [(p, bs)]

/-- The directory part of a path; `none` if the path has no part to take off. -/
def parent? (path : Text) : Option Text :=
  let bare := (path.reverse.dropWhile (· == '/')).reverse
  if bare.isEmpty then none
  else some (bare.take (bare.length - (bare.reverse.takeWhile (· != '/')).length))

/-- Writes a text to a file, in a directory that is there. -/
def save (fs : Files) (path : Text) (t : Text) : Except FileError Files :=
  match parent? path with
  | none => .error .invalidInput
  | some dir =>
    match fs.entry (if dir.isEmpty then ['.'] else dir) with
    | .missing => .error .notFound
    | .blocked => .error .notDirectory
    | .file _ => .error .notDirectory
    | .directory =>
      match fs.entry path with
      | .directory => .error .isDirectory
      | .file p => .ok (fs.put p t.bytes)
      | _ => .ok (fs.put (Place.ofPath path) t.bytes)

end Files

end TreeEdit
