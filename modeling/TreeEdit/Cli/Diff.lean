import TreeEdit.Text.Blank
/-!
# Differences of texts

The lines of two texts side by side: those that both have, those of the first text that
go, and those of the second text that come.

What both texts start and end with is shared. The rest is divided in two where a search
from its start and one from its end meet, and both halves are compared in the same way
(`changes`). A search keeps the furthest places that it reaches with so many lines that only
one text has. With one more such line it gets to new places, and lines that are shared from
there on cost nothing (`widen`).

Where lines are repeated, a block of new lines can stand at more than one place. It is moved
up as far as possible and then down as far as possible, and takes up the blocks that it meets
(`compact`). In the end the lines that go stand before those that come.
-/

namespace TreeEdit.Cli

/-- What becomes of a line, or of a block of new ones. -/
inductive LineChange where
  | same (line : Text)
  | removed (line : Text)
  | added (lines : List Text)
deriving DecidableEq, Repr

def LineChange.isBlock : LineChange → Bool
  | added _ => true
  | same _ | removed _ => false

/-- The lines of a text, each with the newline that ends it. -/
def linesOf : Text → List Text
  | [] => []
  | c :: t =>
    if c = '\n' then [c] :: linesOf t
    else match linesOf t with
      | [] => [[c]]
      | l :: ls => (c :: l) :: ls

/-- The line, with a newline at its end. -/
def withNewline (l : Text) : Text := if l.getLast? = some '\n' then l else l ++ ['\n']

namespace Diff

/-! ## Shared lines -/

/-- The lines that both lists start with. -/
def sharedStart : List Text → List Text → List Text
  | a :: as, b :: bs => if a = b then a :: sharedStart as bs else []
  | _, _ => []

/-- Two lists without the lines that both start with and both end with. -/
structure Trimmed where
  start : List Text
  old : List Text
  new : List Text
  stop : List Text
deriving DecidableEq, Repr

def Trimmed.of (old new : List Text) : Trimmed :=
  let start := sharedStart old new
  let old := old.drop start.length
  let new := new.drop start.length
  let stop := (sharedStart old.reverse new.reverse).reverse
  ⟨start, old.take (old.length - stop.length), new.take (new.length - stop.length), stop⟩

theorem Trimmed.length_of_le (old new : List Text) :
    (of old new).old.length ≤ old.length ∧ (of old new).new.length ≤ new.length := by
  simp only [of, List.length_take, List.length_drop]
  omega

/-! ## The middle of two lists -/

/-- A place that a search has reached in two lists. -/
structure Reach where
  /-- The number of lines before the place, in the old list and in the new one. -/
  i : Nat
  j : Nat
  /-- The lines behind it. -/
  old : List Text
  new : List Text
  /-- Where the shared lines right before it start. -/
  start : Nat × Nat
deriving DecidableEq, Repr

namespace Reach

/-- Goes on over the lines that are shared. -/
def slide (p : Reach) : Reach :=
  let n := (sharedStart p.old p.new).length
  ⟨p.i + n, p.j + n, p.old.drop n, p.new.drop n, (p.i, p.j)⟩

/-- The start of two lists. -/
def ofLists (old new : List Text) : Reach := slide ⟨0, 0, old, new, (0, 0)⟩

def passOld (p : Reach) : Reach := slide { p with i := p.i + 1, old := p.old.tail }

def passNew (p : Reach) : Reach := slide { p with j := p.j + 1, new := p.new.tail }

/-- In lists with `m` and `n` lines, the place `p` as counted from the start and `q` as counted from
the end are equally far ahead in both lists, and `p` is not before `q`. -/
def meets (m n : Nat) (p q : Reach) : Bool :=
  m ≤ p.i + q.i && p.i + q.i + n = p.j + q.j + m

end Reach

/-- The places between those of a list, each reached from the one of its two neighbours that gets
further, and the place behind the last one. -/
def narrow : List Reach → List Reach
  | [] => []
  | [p] => [p.passNew]
  | p :: q :: ps => (if q.i < p.i then p.passNew else q.passOld) :: narrow (q :: ps)

/-- The furthest places with one more line that only one list has, those with the most old lines
first. -/
def widen : List Reach → List Reach
  | [] => []
  | p :: ps => p.passOld :: narrow (p :: ps)

/-- Where the searches from both ends of lists with `m` and `n` lines meet, after so many rounds at
most. -/
def meeting? (m n : Nat) : Nat → List Reach → List Reach → Option (Nat × Nat)
  | 0, _, _ => none
  | rounds + 1, front, back =>
    let front := widen front
    match front.find? fun p => back.any (p.meets m n) with
    | some p => some p.start
    | none =>
      let back := widen back
      match back.find? fun q => front.any (·.meets m n q) with
      | some q => some (m - q.i, n - q.j)
      | none => meeting? m n rounds front back

/-- Where two lists with lines are divided: behind so many old lines and so many new ones. Both parts
have lines. -/
def middle? (old new : List Text) : Option (Nat × Nat) :=
  if old = [] ∨ new = [] then none
  else
    (meeting? old.length new.length ((old.length + new.length + 1) / 2) [.ofLists old new]
      [.ofLists old.reverse new.reverse]).filter fun p =>
        0 < p.1 + p.2 && (p.1 < old.length || p.2 < new.length)

theorem length_lt_of_middle? {old new : List Text} {p : Nat × Nat} (h : middle? old new = some p) :
    (old.take p.1).length + (new.take p.2).length < old.length + new.length ∧
    (old.drop p.1).length + (new.drop p.2).length < old.length + new.length := by
  unfold middle? at h
  split at h
  · simp at h
  · rename_i hn
    have hp : 0 < p.1 + p.2 ∧ (p.1 < old.length ∨ p.2 < new.length) := by
      simpa using (Option.filter_eq_some_iff.1 h).2
    have hn : 0 < old.length ∧ 0 < new.length := by simpa [List.length_pos_iff] using hn
    simp only [List.length_take, List.length_drop]
    omega

/-! ## Changes -/

/-- All old lines go and all new ones come. -/
def exchange (old new : List Text) : List LineChange :=
  old.map .removed ++ if new = [] then [] else [.added new]

/-- Changes that lead from one list of lines to another. -/
def changes (old new : List Text) : List LineChange :=
  let t := Trimmed.of old new
  t.start.map .same ++ (match _h : middle? t.old t.new with
    | some p =>
      changes (t.old.take p.1) (t.new.take p.2) ++ changes (t.old.drop p.1) (t.new.drop p.2)
    | none => exchange t.old t.new) ++ t.stop.map .same
termination_by old.length + new.length
decreasing_by
  all_goals
    have hp := length_lt_of_middle? ‹middle? _ _ = some _›
    have ht := Trimmed.length_of_le old new
    simp only [t] at hp
    omega

/-! ## Blocks of new lines -/

/-- A block of new lines, with the changes before it, the nearest first, and those behind it. -/
structure Floating where
  before : List LineChange
  block : List Text
  behind : List LineChange
deriving DecidableEq, Repr

/-- Moves a block up as far as possible. -/
def raise : List LineChange → List Text → List LineChange → Floating
  | [], block, behind => ⟨[], block, behind⟩
  | .same l :: before, block, behind =>
    if block.getLast? = some l then raise before (l :: block.dropLast) (.same l :: behind)
    else ⟨.same l :: before, block, behind⟩
  | .removed l :: before, block, behind => raise before block (.removed l :: behind)
  | .added ls :: before, block, behind => raise before (ls ++ block) behind

/-- Moves a block down as far as possible. -/
def lower : List LineChange → List Text → List LineChange → Floating
  | before, block, [] => ⟨before, block, []⟩
  | before, block, .same l :: behind =>
    if block.head? = some l then lower (.same l :: before) (block.tail ++ [l]) behind
    else ⟨before, block, .same l :: behind⟩
  | before, block, .removed l :: behind => lower (.removed l :: before) block behind
  | before, block, .added ls :: behind => lower before (block ++ ls) behind

/-- Moves a block up and then down. -/
def float (before : List LineChange) (block : List Text) (behind : List LineChange) : Floating :=
  let f := raise before block behind
  lower f.before f.block f.behind

theorem countP_raise (before : List LineChange) (block : List Text) (behind : List LineChange) :
    (raise before block behind).behind.countP LineChange.isBlock
      = behind.countP LineChange.isBlock := by
  fun_induction raise before block behind with
  | case1 => rfl
  | case2 _ _ _ _ _ ih => exact ih
  | case3 => rfl
  | case4 _ _ _ _ ih => exact ih
  | case5 _ _ _ _ ih => exact ih

theorem countP_lower_le (before : List LineChange) (block : List Text) (behind : List LineChange) :
    (lower before block behind).behind.countP LineChange.isBlock
      ≤ behind.countP LineChange.isBlock := by
  fun_induction lower before block behind with
  | case1 => exact Nat.le_refl _
  | case2 _ _ _ _ _ ih => exact ih
  | case3 => exact Nat.le_refl _
  | case4 _ _ _ _ ih => exact ih
  | case5 _ _ _ _ ih => exact Nat.le_trans ih (List.sublist_cons_self _ _).countP_le

theorem countP_float_le (before : List LineChange) (block : List Text) (behind : List LineChange) :
    (float before block behind).behind.countP LineChange.isBlock
      ≤ behind.countP LineChange.isBlock := by
  rw [← countP_raise before block behind]
  exact countP_lower_le ..

/-- Moves one block after the other, from the first change on. Those before are done. -/
def compact : List LineChange → List LineChange → List LineChange
  | before, [] => before.reverse
  | before, .same l :: behind => compact (.same l :: before) behind
  | before, .removed l :: behind => compact (.removed l :: before) behind
  | before, .added ls :: behind =>
    let f := float before ls behind
    compact (.added f.block :: f.before) f.behind
termination_by _ behind => (behind.countP LineChange.isBlock, behind.length)
decreasing_by
  · exact Prod.Lex.right' _ (Nat.le_refl _) (Nat.lt_succ_self _)
  · exact Prod.Lex.right' _ (Nat.le_refl _) (Nat.lt_succ_self _)
  · refine Prod.Lex.left _ _ ?_
    rw [List.countP_cons_of_pos rfl]
    exact Nat.lt_succ_of_le (countP_float_le before ls behind)

/-- Puts the lines that go before those that come, up to the next shared line. Since the last one
`gone` and `come` have been met. -/
def arrange (gone come : List Text) : List LineChange → List LineChange
  | [] => exchange gone come
  | .same l :: cs => exchange gone come ++ .same l :: arrange [] [] cs
  | .removed l :: cs => arrange (gone ++ [l]) come cs
  | .added ls :: cs => arrange gone (come ++ ls) cs

end Diff

/-- The changes that lead from one list of lines to another, as they are shown. -/
def lineChanges (old new : List Text) : List LineChange :=
  Diff.arrange [] [] (Diff.compact [] (Diff.changes old new))

end TreeEdit.Cli
