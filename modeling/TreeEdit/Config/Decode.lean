import TreeEdit.Config.Basic
import TreeEdit.Toml.Value
/-!
# Configurations from TOML

A group of settings is a table, or an array of the settings in their order. What
is left out has its usual value, and keys that mean nothing are passed over. A
value of another kind than its setting has makes the whole document wrong.
-/

namespace TreeEdit

open Toml (Value Entries)

namespace Config

/-- A group of settings: where to find one by its name and its place. -/
abbrev Group := String → Nat → Option Value

/-- The settings of a table or an array. A date has no settings. -/
def group? : Value → Option Group
  | .table _ es => some fun name _ => es.lookup name.toList
  | .array vs => some fun _ i => vs[i]?
  | .tables vs => some fun _ i => vs[i]?
  | .datetime _ => some fun _ _ => none
  | _ => none

/-- The group of a document that has no such entry. -/
def noGroup : Group := fun _ _ => none

/-- A group of a document; without an entry, one without settings. -/
def subgroup? (es : Entries) (name : String) : Option Group :=
  match es.lookup name.toList with
  | none => some noGroup
  | some v => group? v

/-- A setting; without one, its usual value. -/
def setting? {α : Type} (read : Value → Option α) (usual : α) : Option Value → Option α
  | none => some usual
  | some v => read v

def text? : Value → Option Text
  | .string t => some t
  | _ => none

def bool? : Value → Option Bool
  | .boolean b => some b
  | _ => none

def nat? : Value → Option Nat
  | .integer n => if 0 ≤ n then some n.toNat else none
  | _ => none

def list? : Value → Option (List Value)
  | .array vs => some vs
  | .tables vs => some vs
  | _ => none

/-- Something without contents. -/
def isVoid : Value → Bool
  | .table _ es => es.isEmpty
  | .array vs => vs.isEmpty
  | .tables vs => vs.isEmpty
  | _ => false

/-- One of a few names: a string, or a table with the name as its only key and nothing in it. -/
def choice? {α : Type} (ofName : Text → Option α) : Value → Option α
  | .string t => ofName t
  | .table _ [(k, v)] => if isVoid v then ofName k else none
  | _ => none

/-- A transition; none of its parts may be left out. -/
def rule? (v : Value) : Option TransitionRule := do
  let g ← group? v
  let source ← (g "from" 0).bind (choice? Mode.ofName?)
  let event ← (g "event" 1).bind (choice? ModeEvent.ofName?)
  let target ← (g "to" 2).bind (choice? Mode.ofName?)
  return ⟨source, event, target⟩

def ofEntries? (es : Entries) : Option Config := do
  let engine ← subgroup? es "engine"
  let highlight ← subgroup? es "highlight"
  let modes ← subgroup? es "modes"
  return {
    language := ← setting? text? Config.default.language (engine "language" 0)
    frontend := ←
      setting? (choice? Frontend.ofName?) Config.default.frontend (engine "frontend" 1)
    keepEmptyLines := ← setting? bool? Config.default.keepEmptyLines (engine "keep_empty_lines" 2)
    killRingCapacity := ←
      setting? nat? Config.default.killRingCapacity (engine "kill_ring_capacity" 3)
    highlight := ← setting? bool? Config.default.highlight (highlight "enabled" 0)
    transitions := ←
      setting? (fun v => (list? v).bind (·.mapM rule?)) [] (modes "transitions" 0) }

end Config

end TreeEdit
