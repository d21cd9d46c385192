import TreeEdit.Span
/-!
# Syntax trees

A syntax tree as a parser answers it: every node has a kind and a span of the
text, and is named or a mere token. A node of a tree is known by its address,
the child indices on the way to it, the innermost first. So the parent of
`i :: a` is `a`, and climbing is recursion on the address.
-/

namespace TreeEdit

/-- What a parser says of a node. -/
structure Label where
  kind : String
  /-- The node is part of the grammar's vocabulary, not a token such as a bracket. -/
  named : Bool
  /-- The node covers text that the parser could not read. -/
  error : Bool
  /-- The node stands for a token that the parser missed. -/
  missing : Bool
  span : Span
deriving DecidableEq, Repr, Inhabited

/-- A node with its children in the order of the text. -/
inductive Tree where
  | node (label : Label) (children : List Tree)
deriving Repr, Inhabited

/-- The place of a node: child indices from the node up to the root. -/
abbrev Address := List Nat

namespace Tree

def label : Tree → Label
  | node l _ => l

/-- The trees below the root, in the order of the text. -/
def children : Tree → List Tree
  | node _ ts => ts

def span (t : Tree) : Span := t.label.span

def named (t : Tree) : Bool := t.label.named

/-- The part of the tree at an address. An index without a child stays at its node. -/
def sub (t : Tree) : Address → Tree
  | [] => t
  | i :: a => (t.sub a).children.getD i (t.sub a)

/-- The address leads to a node of the tree. -/
def has (t : Tree) : Address → Bool
  | [] => true
  | i :: a => t.has a && decide (i < (t.sub a).children.length)

def spanAt (t : Tree) (a : Address) : Span := (t.sub a).span

def startAt (t : Tree) (a : Address) : Nat := (t.spanAt a).start

mutual

/-- Some node stands for text that the parser could not read or missed. -/
def hasErrors : Tree → Bool
  | node l ts => l.error || l.missing || anyErrors ts

def anyErrors : List Tree → Bool
  | [] => false
  | t :: ts => t.hasErrors || anyErrors ts

end

@[simp] theorem sub_nil (t : Tree) : t.sub [] = t := rfl

theorem sub_cons (t : Tree) (i : Nat) (a : Address) :
    t.sub (i :: a) = (t.sub a).children.getD i (t.sub a) := rfl

theorem sub_cons_of_lt {t : Tree} {i : Nat} {a : Address} (h : i < (t.sub a).children.length) :
    t.sub (i :: a) = (t.sub a).children[i] := by
  simp [sub_cons, h]

theorem has_of_has_cons {t : Tree} {i : Nat} {a : Address} (h : t.has (i :: a) = true) :
    t.has a = true := by
  simp only [has, Bool.and_eq_true] at h
  exact h.1

end Tree

end TreeEdit
