import TreeEdit.Text.Numeral
import TreeEdit.Text.Quoted
/-!
# The kill ring

Deleted and copied texts, the newest first. Deletions that follow each other
without a break share one entry; a copy always has an entry of its own. When the
ring is full the oldest entry is dropped.
-/

namespace TreeEdit

/-- The end of the newest entry that a deletion joins when it shares the entry. -/
inductive Direction where
  /-- Text from behind point, joined at the end. -/
  | forward
  /-- Text from before point, joined at the start. -/
  | backward
deriving DecidableEq, Repr

/-- Two deleted texts as one. -/
def Direction.join (d : Direction) (old new : Text) : Text :=
  match d with
  | .forward => old ++ new
  | .backward => new ++ old

/-- What the newest entry came from, as long as nothing has broken the sequence. -/
inductive Latest where
  | kill
  | copy
deriving DecidableEq, Repr

structure KillRing where
  /-- The entries, newest first. -/
  entries : List Text
  capacity : Nat
  latest : Option Latest
deriving DecidableEq, Repr

namespace KillRing

/-- The number of entries of a ring that was not asked for another. -/
def defaultCapacity : Nat := 60

/-- A ring without entries; it has room for one at least. -/
def empty (capacity : Nat) : KillRing := ⟨[], max capacity 1, none⟩

/-- Adds an entry and drops the oldest one of a full ring. -/
def push (r : KillRing) (t : Text) : KillRing :=
  { r with entries := t ::
      (if r.entries.length = r.capacity then r.entries.dropLast else r.entries) }

/-- Records a deleted text, in the newest entry if that came from the deletion just before. -/
def kill (r : KillRing) (t : Text) (d : Direction) : KillRing :=
  match r.latest, r.entries with
  | some .kill, top :: rest => { r with entries := d.join top t :: rest }
  | _, _ => { r.push t with latest := some .kill }

def copy (r : KillRing) (t : Text) : KillRing := { r.push t with latest := some .copy }

/-- Ends the sequence: the next deletion starts an entry. -/
def breakSequence (r : KillRing) : KillRing := { r with latest := none }

def top? (r : KillRing) : Option Text := r.entries.head?

def inspect (r : KillRing) : Text :=
  let latest := match r.latest with
    | none => "None"
    | some .kill => "Some(Kill)"
    | some .copy => "Some(Copy)"
  "KillRing \x7b entries: [".toList ++ [',', ' '].intercalate (r.entries.map Text.quoted)
    ++ "], capacity: ".toList ++ Numeral.print r.capacity ++ ", last: ".toList ++ latest.toList
    ++ " \x7d".toList

end KillRing

end TreeEdit
