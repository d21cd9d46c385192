import Mathlib.Data.List.Infix
import TreeEdit.Cli.Diff
/-!
# A difference leads from one text to the other

`Leads` says that changes account for every line: those that stay and those that go are the
old lines, and those that stay and those that come are the new ones. Dividing the lists keeps
this wherever they are divided (`leads_changes`), and so does every step of a block on its way up
or down (`Leads.raise`, `Leads.lower`): it trades a line of the block for the same line of
both texts.

`lineChanges_restore` says it of what is shown: both texts can be read off it. Nothing is shown as
changed exactly if they are the same (`lineChanges_same_iff`).
-/

namespace TreeEdit.Cli

namespace LineChange

/-- The old lines that the change is about. -/
def old : LineChange → List Text
  | same l | removed l => [l]
  | added _ => []

/-- The new lines that the change is about. -/
def new : LineChange → List Text
  | same l => [l]
  | removed _ => []
  | added ls => ls

end LineChange

namespace Diff

/-- The changes account for the lines of both lists, in their order. -/
structure Leads (cs : List LineChange) (old new : List Text) : Prop where
  old : cs.flatMap LineChange.old = old
  new : cs.flatMap LineChange.new = new

variable {cs ds before behind : List LineChange} {old old' new new' block : List Text}

theorem Leads.append (h : Leads cs old new) (h' : Leads ds old' new') :
    Leads (cs ++ ds) (old ++ old') (new ++ new') :=
  ⟨by rw [List.flatMap_append, h.old, h'.old], by rw [List.flatMap_append, h.new, h'.new]⟩

theorem leads_same (ls : List Text) : Leads (ls.map .same) ls ls := by
  constructor <;> simp [List.flatMap_map, LineChange.old, LineChange.new]

theorem leads_exchange (old new : List Text) : Leads (exchange old new) old new := by
  unfold exchange
  split
  · rename_i hn
    constructor <;> simp [List.flatMap_map, LineChange.old, LineChange.new, hn]
  · constructor <;> simp [List.flatMap_map, LineChange.old, LineChange.new]

/-! ## Dividing -/

theorem sharedStart_isPrefix (old new : List Text) :
    sharedStart old new <+: old ∧ sharedStart old new <+: new := by
  fun_induction sharedStart old new with
  | case1 as a bs ih => exact ⟨(List.prefix_cons_inj a).2 ih.1, (List.prefix_cons_inj a).2 ih.2⟩
  | case2 => exact ⟨List.nil_prefix, List.nil_prefix⟩
  | case3 => exact ⟨List.nil_prefix, List.nil_prefix⟩

/-- The shared ends and what is between them are the two lists. -/
theorem Trimmed.append_of (old new : List Text) :
    (of old new).start ++ (of old new).old ++ (of old new).stop = old ∧
    (of old new).start ++ (of old new).new ++ (of old new).stop = new := by
  obtain ⟨ho, hn⟩ := sharedStart_isPrefix old new
  obtain ⟨ho', hn'⟩ := sharedStart_isPrefix (old.drop (sharedStart old new).length).reverse
    (new.drop (sharedStart old new).length).reverse
  rw [← List.reverse_suffix, List.reverse_reverse] at ho' hn'
  simp only [of, List.append_assoc]
  rw [List.suffix_iff_eq_append.1 ho', List.suffix_iff_eq_append.1 hn']
  exact ⟨(List.prefix_append_drop ho).symm, (List.prefix_append_drop hn).symm⟩

/-- Changes of what is between the shared ends make up changes of the whole. -/
theorem Leads.between (h : Leads cs (Trimmed.of old new).old (Trimmed.of old new).new) :
    Leads ((Trimmed.of old new).start.map .same ++ cs ++ (Trimmed.of old new).stop.map .same)
      old new := by
  obtain ⟨ho, hn⟩ := Trimmed.append_of old new
  have hends := ((leads_same (Trimmed.of old new).start).append h).append
    (leads_same (Trimmed.of old new).stop)
  rwa [ho, hn] at hends

/-- Wherever the lists are divided, the changes of both parts are changes of the whole. -/
theorem leads_changes (old new : List Text) : Leads (changes old new) old new := by
  induction old, new using changes.induct with
  | case1 old new t ih₁ ih₂ =>
    rw [changes]
    apply Leads.between
    split
    · rename_i p hp
      have h := (ih₁ p hp).append (ih₂ p hp)
      rwa [List.take_append_drop, List.take_append_drop] at h
    · exact leads_exchange t.old t.new

/-- Lists that differ on both sides of a line that they share are divided there. -/
example : middle? [['b'], ['c'], ['d']] [['x'], ['c'], ['y']] = some (1, 1) := by decide

/-! ## Moving blocks -/

/-- The changes with the block in its place. -/
def Floating.changes (f : Floating) : List LineChange :=
  f.before.reverse ++ .added f.block :: f.behind

theorem leads_floating_iff : Leads (Floating.changes ⟨before, block, behind⟩) old new ↔
    before.reverse.flatMap LineChange.old ++ behind.flatMap LineChange.old = old ∧
    before.reverse.flatMap LineChange.new ++ (block ++ behind.flatMap LineChange.new) = new := by
  constructor
  · rintro ⟨rfl, rfl⟩
    simp [Floating.changes, LineChange.old, LineChange.new]
  · rintro ⟨rfl, rfl⟩
    constructor <;> simp [Floating.changes, LineChange.old, LineChange.new]

/-- A step up over a shared line puts the line into the block and takes the last line, which is the
same, out of it. -/
theorem Leads.raise (h : Leads (Floating.changes ⟨before, block, behind⟩) old new) :
    Leads (Diff.raise before block behind).changes old new := by
  fun_induction Diff.raise before block behind with
  | case1 | case3 => exact h
  | case2 l before block behind hl ih =>
    obtain ⟨ls, rfl⟩ := List.getLast?_eq_some_iff.1 hl
    rw [leads_floating_iff] at h
    exact ih (leads_floating_iff.2 (by simpa [LineChange.old, LineChange.new] using h))
  | case4 l before block behind ih =>
    rw [leads_floating_iff] at h
    exact ih (leads_floating_iff.2 (by simpa [LineChange.old, LineChange.new] using h))
  | case5 ls before block behind ih =>
    rw [leads_floating_iff] at h
    exact ih (leads_floating_iff.2 (by simpa [LineChange.old, LineChange.new] using h))

theorem Leads.lower (h : Leads (Floating.changes ⟨before, block, behind⟩) old new) :
    Leads (Diff.lower before block behind).changes old new := by
  fun_induction Diff.lower before block behind with
  | case1 | case3 => exact h
  | case2 before block l behind hl ih =>
    obtain ⟨ls, rfl⟩ := List.head?_eq_some_iff.1 hl
    rw [leads_floating_iff] at h
    exact ih (leads_floating_iff.2 (by simpa [LineChange.old, LineChange.new] using h))
  | case4 before block l behind ih =>
    rw [leads_floating_iff] at h
    exact ih (leads_floating_iff.2 (by simpa [LineChange.old, LineChange.new] using h))
  | case5 before block ls behind ih =>
    rw [leads_floating_iff] at h
    exact ih (leads_floating_iff.2 (by simpa [LineChange.old, LineChange.new] using h))

/-- A block that repeats the line behind it moves below that line. -/
example : float [.same ['b']] [['c']] [.same ['c'], .same ['d']]
    = ⟨[.same ['c'], .same ['b']], [['c']], [.same ['d']]⟩ := by decide

theorem Leads.compact (h : Leads (before.reverse ++ behind) old new) :
    Leads (Diff.compact before behind) old new := by
  induction before, behind using Diff.compact.induct with
  | case1 before =>
    rw [Diff.compact]
    simpa using h
  | case2 before l behind ih =>
    rw [Diff.compact]
    exact ih (by simpa using h)
  | case3 before l behind ih =>
    rw [Diff.compact]
    exact ih (by simpa using h)
  | case4 before ls behind f ih =>
    rw [Diff.compact]
    have hf : Leads f.changes old new := Leads.lower (Leads.raise h)
    exact ih (by simpa [Floating.changes] using hf)

theorem leads_arrange (gone come : List Text) (cs : List LineChange) :
    Leads (arrange gone come cs) (gone ++ cs.flatMap LineChange.old)
      (come ++ cs.flatMap LineChange.new) := by
  induction cs generalizing gone come with
  | nil => simpa [arrange] using leads_exchange gone come
  | cons c cs ih =>
    cases c with
    | same l => exact (leads_exchange gone come).append ((leads_same [l]).append (ih [] []))
    | removed l => simpa [arrange, LineChange.old, LineChange.new] using ih (gone ++ [l]) come
    | added ls => simpa [arrange, LineChange.old, LineChange.new] using ih gone (come ++ ls)

/-! ## Equal lists -/

theorem sharedStart_self (ls : List Text) : sharedStart ls ls = ls := by
  induction ls with
  | nil => rfl
  | cons l ls ih => rw [sharedStart, if_pos rfl, ih]

theorem changes_self (ls : List Text) : changes ls ls = ls.map .same := by
  have ht : Trimmed.of ls ls = ⟨ls, [], [], []⟩ := by simp [Trimmed.of, sharedStart_self]
  rw [changes, ht]
  simp [middle?, exchange]

theorem compact_same (before : List LineChange) (ls : List Text) :
    compact before (ls.map .same) = before.reverse ++ ls.map .same := by
  induction ls generalizing before with
  | nil => simp [compact]
  | cons l ls ih => rw [List.map_cons, compact, ih, List.reverse_cons, List.append_assoc]; rfl

theorem arrange_same (ls : List Text) : arrange [] [] (ls.map .same) = ls.map .same := by
  induction ls with
  | nil => rfl
  | cons l ls ih => rw [List.map_cons, arrange, ih]; rfl

end Diff

/-- The lines of a text put together are the text. -/
theorem flatten_linesOf (t : Text) : (linesOf t).flatten = t := by
  induction t with
  | nil => rfl
  | cons c t ih =>
    unfold linesOf
    split
    · simp [ih]
    · split
      · rename_i h
        rw [h] at ih
        simp_all
      · rename_i l ls h
        rw [h] at ih
        simp_all

theorem leads_lineChanges (old new : List Text) : Diff.Leads (lineChanges old new) old new := by
  have hc : Diff.Leads (Diff.compact [] (Diff.changes old new)) old new :=
    Diff.Leads.compact (Diff.leads_changes old new)
  have h := Diff.leads_arrange [] [] (Diff.compact [] (Diff.changes old new))
  rwa [hc.old, hc.new] at h

/-- What is shown of two texts holds both: the old text is what stays and what goes, and the new one
is what stays and what comes. -/
theorem lineChanges_restore (old new : Text) :
    ((lineChanges (linesOf old) (linesOf new)).flatMap LineChange.old).flatten = old ∧
    ((lineChanges (linesOf old) (linesOf new)).flatMap LineChange.new).flatten = new := by
  have h := leads_lineChanges (linesOf old) (linesOf new)
  rw [h.old, h.new]
  exact ⟨flatten_linesOf old, flatten_linesOf new⟩

/-- No line is shown as gone or new exactly if the texts are the same. -/
theorem lineChanges_same_iff (old new : Text) :
    (∀ c ∈ lineChanges (linesOf old) (linesOf new), ∃ l, c = .same l) ↔ old = new := by
  constructor
  · intro h
    obtain ⟨ho, hn⟩ := lineChanges_restore old new
    have heq : (lineChanges (linesOf old) (linesOf new)).flatMap LineChange.old
        = (lineChanges (linesOf old) (linesOf new)).flatMap LineChange.new := by
      refine List.flatMap_congr fun c hc => ?_
      obtain ⟨l, rfl⟩ := h c hc
      rfl
    rw [← ho, heq, hn]
  · rintro rfl
    rw [lineChanges, Diff.changes_self, Diff.compact_same, List.reverse_nil, List.nil_append,
      Diff.arrange_same]
    simp

end TreeEdit.Cli
