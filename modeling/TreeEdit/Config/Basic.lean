import TreeEdit.Session
/-!
# Configurations

The settings of a session, and what has to hold of them. `issues` lists every
way in which a configuration is wrong, in a fixed order; it is valid if the list
is empty.
-/

namespace TreeEdit

structure Config where
  language : Text
  frontend : Frontend
  /-- Whether a deletion forward leaves a line standing that it made blank. -/
  keepEmptyLines : Bool
  killRingCapacity : Nat
  highlight : Bool
  /-- Transitions that go over those of the frontend. -/
  transitions : List TransitionRule
deriving DecidableEq, Repr

/-- A way in which a configuration is wrong. -/
inductive ConfigIssue where
  | missingField (field : String)
  | unknownLanguage (name : Text)
  | invalidValue (field reason : String)
  | duplicateTransition (source : Mode) (event : ModeEvent)
deriving DecidableEq, Repr

def ConfigIssue.message : ConfigIssue → Text
  | missingField f => "missing required field '".toList ++ f.toList ++ "'".toList
  | unknownLanguage n => "unsupported language '".toList ++ n ++ "'".toList
  | invalidValue f r => "invalid value for '".toList ++ f.toList ++ "': ".toList ++ r.toList
  | duplicateTransition s e => "transition from ".toList ++ s.name.toList ++ " on ".toList
      ++ e.name.toList ++ " is defined more than once".toList

namespace Config

/-- The settings of a configuration that says nothing. -/
def default : Config := ⟨"rust".toList, .modal, false, KillRing.defaultCapacity, true, []⟩

def languageIssues (c : Config) : List ConfigIssue :=
  if c.language.trim.isEmpty then [.missingField "engine.language"]
  else if (Language.ofName? c.language).isNone then [.unknownLanguage c.language]
  else []

def capacityIssues (c : Config) : List ConfigIssue :=
  if c.killRingCapacity = 0 then
    [.invalidValue "engine.kill_ring_capacity" "must be at least 1"]
  else []

/-- One issue for every rule whose mode and event were seen before. -/
def repeatedRules (seen : List (Mode × ModeEvent)) : List TransitionRule → List ConfigIssue
  | [] => []
  | r :: rs =>
    if (r.source, r.event) ∈ seen then
      .duplicateTransition r.source r.event :: repeatedRules seen rs
    else repeatedRules ((r.source, r.event) :: seen) rs

def issues (c : Config) : List ConfigIssue :=
  c.languageIssues ++ c.capacityIssues ++ repeatedRules [] c.transitions

/-- The engine on a text that a configuration asks for; `none` if its language is unknown. A
highlighter is used only if highlighting is on. -/
def engine? (c : Config) (text : Text) (h : Highlighter) : Option Engine :=
  (Language.ofName? c.language).map fun l =>
    { buffer := .ofText text l
      cursor := .empty (if c.highlight then h else .silent)
      killRing := .empty c.killRingCapacity
      keepEmptyLines := c.keepEmptyLines }

def modes (c : Config) : ModeMachine := .start c.frontend c.transitions

def session? (c : Config) (text : Text) (h : Highlighter) : Option Session :=
  (c.engine? text h).map fun e => ⟨e, c.modes⟩

end Config

end TreeEdit
