import TreeEdit.Proofs.Buffer.Apply
import TreeEdit.Proofs.Text.Block
/-!
# A line and its indentation

Of the line at an offset it is asked where it starts and stops, where its content stops, and
where its indentation does. `Line.Bounds` says by the text what these offsets are. Every
boundary from the start of a line to its stop has that line (`Delimits.lineAt?_eq`), so it
makes no difference at which of them it is asked.

A new indentation takes the place of the old one, and the line then starts with it, so the
same request once more has nothing to do. `line_queries_agree` puts the two together.
-/

namespace TreeEdit

namespace Text

/-! ## The start and the end of a line -/

theorem size_le_of_prefix {x y : Text} (h : x <+: y) : x.size ≤ y.size := by
  obtain ⟨z, rfl⟩ := h
  simp

theorem dropReturn_prefix (w : Text) : w.dropReturn <+: w := by
  unfold dropReturn
  split
  · exact List.dropLast_prefix w
  · exact List.prefix_refl w

theorem indentation_return (m : Text) : (m ++ ['\r']).indentation = m.indentation := by
  induction m with
  | nil => rfl
  | cons c m ih =>
    unfold indentation at ih ⊢
    rw [List.cons_append, List.takeWhile_cons, List.takeWhile_cons, ih]

/-- A carriage return at the end of a line is no part of its indentation. -/
theorem indentation_dropReturn (w : Text) : w.dropReturn.indentation = w.indentation := by
  unfold dropReturn
  split
  · rename_i hl
    obtain ⟨m, rfl⟩ := List.getLast?_eq_some_iff.1 hl
    rw [List.dropLast_concat, indentation_return]
  · rfl

end Text

namespace Line

variable {l : Line} {t : Text} {o : Nat}

theorem firstNonBlank_le_contentStop (l : Line) : l.firstNonBlank ≤ l.contentStop := by
  have h : l.content.dropReturn.indentation <+: l.content.dropReturn := List.takeWhile_prefix _
  have hle := Text.size_le_of_prefix h
  rw [Text.indentation_dropReturn] at hle
  rw [l.contentStop_eq]
  exact Nat.add_le_add_left hle _

theorem contentStop_le_stop (l : Line) : l.contentStop ≤ l.stop := by
  rw [l.contentStop_eq]
  exact Nat.add_le_add_left (Text.size_le_of_prefix l.content.dropReturn_prefix) _

/-- What the offsets of a line say about the text. -/
structure Bounds (l : Line) (t : Text) (o : Nat) : Prop where
  start_le : l.start ≤ o
  le_stop : o ≤ l.stop
  /-- No newline stands between start and stop, and the content is what is left of that without a
  carriage return at its end. -/
  content : ∃ w, t.slice? l.start l.stop = some w ∧ '\n' ∉ w ∧
    t.slice? l.start l.contentStop = some w.dropReturn
  start : l.start = 0 ∨ t.slice? (l.start - 1) l.start = some ['\n']
  stop : l.stop = t.size ∨ t.slice? l.stop (l.stop + 1) = some ['\n']
  start_le_firstNonBlank : l.start ≤ l.firstNonBlank
  firstNonBlank_le_contentStop : l.firstNonBlank ≤ l.contentStop
  contentStop_le_stop : l.contentStop ≤ l.stop
  /-- From the start to the first character that is not blank there are only spaces and tabs, and
  this is the indentation. -/
  indentation : t.slice? l.start l.firstNonBlank = some l.indentation ∧
    ∀ c ∈ l.indentation, isIndent c = true
  /-- There is no further space or tab. -/
  solid : ∃ z, t.behind? l.firstNonBlank = some z ∧ ∀ c ∈ z.head?, isIndent c = false

namespace Delimits

/-! ## The text at the offsets of a line -/

theorem slice_content (h : l.Delimits t o) : t.slice? l.start l.stop = some l.content :=
  Text.slice?_eq_some_iff.2 ⟨l.before, l.behind, h.text, rfl, Text.size_append _ _⟩

theorem slice_dropReturn (h : l.Delimits t o) :
    t.slice? l.start l.contentStop = some l.content.dropReturn := by
  obtain ⟨r, hr⟩ := l.content.dropReturn_prefix
  refine Text.slice?_eq_some_iff.2 ⟨l.before, r ++ l.behind, ?_, rfl, ?_⟩
  · rw [← List.append_assoc, List.append_assoc l.before, hr, h.text]
  · rw [l.contentStop_eq, Text.size_append, Line.start]

theorem newline_before (h : l.Delimits t o) :
    l.start = 0 ∨ t.slice? (l.start - 1) l.start = some ['\n'] := by
  have hn : Char.utf8Size '\n' = 1 := rfl
  rcases h.before with hb | ⟨u, hb⟩
  · exact .inl (by simp [Line.start, hb])
  · refine .inr (Text.slice?_eq_some_iff.2 ⟨u, l.content ++ l.behind, ?_, ?_, ?_⟩)
    · rw [h.text, hb, List.append_assoc]
    · simp [Line.start, hb, hn]
    · simp [Line.start, hb, hn]

theorem newline_behind (h : l.Delimits t o) :
    l.stop = t.size ∨ t.slice? l.stop (l.stop + 1) = some ['\n'] := by
  have hn : Char.utf8Size '\n' = 1 := rfl
  rcases h.behind with hv | ⟨v, hv⟩
  · refine .inl ?_
    rw [h.text, hv, List.append_nil, Text.size_append, Line.stop]
  · refine .inr (Text.slice?_eq_some_iff.2 ⟨l.before ++ l.content, v, ?_, ?_, ?_⟩)
    · rw [h.text, hv, List.append_assoc _ ['\n'], List.singleton_append]
    · simp [Line.stop]
    · simp [Line.stop, hn, Nat.add_assoc]

/-- The text before, in and behind the indentation. -/
theorem cut_indentation (h : l.Delimits t o) : t.cut? l.start l.firstNonBlank
    = some (l.before, l.indentation, l.content.dropWhile isIndent ++ l.behind) := by
  refine Text.cut?_eq_some_iff.2 ⟨h.text.trans l.append_indentation.symm, rfl, ?_⟩
  rw [Text.size_append, Line.firstNonBlank, Line.start]

theorem behind_indentation (h : l.Delimits t o) :
    t.behind? l.firstNonBlank = some (l.content.dropWhile isIndent ++ l.behind) := by
  obtain ⟨ht, -, hf⟩ := Text.cut?_eq_some_iff.1 h.cut_indentation
  rw [← hf, ht, Text.behind?, Text.splitAt?_size_append, Option.map_some]

/-- No space or tab comes right behind the indentation: what comes is the rest of the line, or the
newline that ends it, or nothing. -/
theorem head?_behind_indentation (h : l.Delimits t o) :
    ∀ c ∈ (l.content.dropWhile isIndent ++ l.behind).head?, isIndent c = false := by
  intro c hc
  cases hd : l.content.dropWhile isIndent with
  | cons d ds =>
    have hs := List.head?_dropWhile_not isIndent l.content
    rw [hd] at hc hs
    obtain rfl : d = c := by simpa using hc
    simpa using hs
  | nil =>
    rw [hd, List.nil_append] at hc
    rcases h.behind with hv | ⟨v, hv⟩
    · simp [hv] at hc
    · rw [hv] at hc
      obtain rfl : '\n' = c := by simpa using hc
      decide

theorem indentation_behind (h : l.Delimits t o) :
    Text.indentation (l.content.dropWhile isIndent ++ l.behind) = [] := by
  have hs := h.head?_behind_indentation
  cases hz : l.content.dropWhile isIndent ++ l.behind with
  | nil => rfl
  | cons c z =>
    rw [hz] at hs
    rw [Text.indentation, List.takeWhile_cons_of_neg (by simp [hs c rfl])]

theorem bounds (h : l.Delimits t o) : l.Bounds t o where
  start_le := h.start_le
  le_stop := h.le_stop
  content := ⟨l.content, h.slice_content, h.newline_not_mem, h.slice_dropReturn⟩
  start := h.newline_before
  stop := h.newline_behind
  start_le_firstNonBlank := Nat.le_add_right _ _
  firstNonBlank_le_contentStop := l.firstNonBlank_le_contentStop
  contentStop_le_stop := l.contentStop_le_stop
  indentation := ⟨by rw [Text.slice?, h.cut_indentation, Option.map_some],
    l.content.isIndent_of_mem_indentation⟩
  solid := ⟨_, h.behind_indentation, h.head?_behind_indentation⟩

/-! ## One line at many offsets -/

/-- Every boundary from the start of a line to its stop has that line. -/
theorem lineAt?_eq (h : l.Delimits t o) {n : Nat} (hn : t.isBoundary n = true) (hs : l.start ≤ n)
    (he : n ≤ l.stop) : t.lineAt? n = some l := by
  obtain ⟨x, y, ht, rfl⟩ := Text.isBoundary_iff.1 hn
  -- The place splits the content of the line in `k` and `m`.
  have hx : l.before ++ (l.content ++ l.behind) = x ++ y := by
    rw [← ht, h.text, List.append_assoc]
  obtain ⟨k, rfl, hk⟩ := Text.append_of_size_le hx hs
  have hkc : k.size ≤ l.content.size := by
    rw [Text.size_append] at he
    exact Nat.le_of_add_le_add_left he
  obtain ⟨m, hm, rfl⟩ := Text.append_of_size_le hk.symm hkc
  have hnot := h.newline_not_mem
  rw [hm, List.mem_append, not_or] at hnot
  have hin := Text.inLine_of_not_mem hnot.2
  rw [ht, Text.lineAt?_size_append, Text.lineBetween_of_lineStart h.before hnot.1,
    List.takeWhile_append_of_pos hin, List.dropWhile_append_of_pos hin]
  have hb : l.behind.takeWhile Text.inLine = [] ∧ l.behind.dropWhile Text.inLine = l.behind := by
    rcases h.behind with hv | ⟨v, hv⟩ <;> simp [hv, Text.inLine]
  rw [hb.1, hb.2, List.append_nil, ← hm]

end Delimits

end Line

namespace Buffer

variable {b : Buffer} {l : Line} {o : Nat} {indent : Text}

/-- A new indentation stands between what was before the old one and what was behind it, and to ask
for it again changes nothing. -/
theorem reindent_twice (hl : b.text.lineAt? o = some l) (hd : l.Delimits b.text (min o b.text.size))
    (hi : ∀ c ∈ indent, isIndent c = true) :
    ∃ b', (reindent o indent).perform b = (.ok ((b'.text.size : Int) - b.text.size), b') ∧
      b'.text = l.before ++ indent ++ (l.content.dropWhile isIndent ++ l.behind) ∧
      (reindent l.start indent).perform b' = (.ok 0, b') := by
  have ht := hd.text.trans l.append_indentation.symm
  have ht' : (b.splice l.before l.indentation indent
        (l.content.dropWhile isIndent ++ l.behind)).text
      = l.before ++ indent ++ (l.content.dropWhile isIndent ++ l.behind) := splice_text ht
  refine ⟨_, ?_, ht', ?_⟩
  · rw [perform_reindent hl, ht']
    conv => rhs; rw [ht]
    simp only [Text.size_append, Int.natCast_add]
    congr 2
    omega
  · -- The line starts with the new indentation, so there is nothing to replace.
    rw [List.append_assoc] at ht'
    rw [Line.start, perform_reindent_of_lineStart hd.before ht', Text.indentation_append hi,
      hd.indentation_behind, List.append_nil, Int.sub_self, splice, if_pos rfl]

/-- An offset that is a boundary, or past the end, has a line, and what the offsets of the line say
about the text is so. Every boundary in the line has the same line. If the line is given another
indentation of spaces and tabs, that takes the place of the old one, the answer is by how much the
text has grown, and the same request at the start of the line changes nothing. -/
theorem line_queries_agree (b : Buffer) (o : Nat)
    (ho : b.text.isBoundary (min o b.text.size) = true) :
    ∃ l, b.text.lineAt? o = some l ∧ l.Bounds b.text (min o b.text.size) ∧
      (∀ n, b.text.isBoundary n = true → l.start ≤ n → n ≤ l.stop → b.text.lineAt? n = some l) ∧
      ∀ indent, (∀ c ∈ indent, isIndent c = true) →
        ∃ x z b', b.text.cut? l.start l.firstNonBlank = some (x, l.indentation, z) ∧
          (reindent o indent).perform b = (.ok ((b'.text.size : Int) - b.text.size), b') ∧
          b'.text = x ++ indent ++ z ∧ (reindent l.start indent).perform b' = (.ok 0, b') := by
  rw [← Text.isSome_lineAt?] at ho
  obtain ⟨l, hl⟩ := Option.isSome_iff_exists.1 ho
  have hmin : b.text.lineAt? (min o b.text.size) = some l := by
    rw [← hl, Text.lineAt?, Text.lineAt?, Nat.min_assoc, Nat.min_self]
  have hd := Text.delimits_of_lineAt? hmin (Nat.min_le_right _ _)
  refine ⟨l, hl, hd.bounds, fun n => hd.lineAt?_eq, fun indent hi => ?_⟩
  obtain ⟨b', hp, ht, hagain⟩ := reindent_twice hl hd hi
  exact ⟨l.before, _, b', hd.cut_indentation, hp, ht, hagain⟩

/-- Three lines, of which the second one starts with a tab and a space and ends with a carriage
return. -/
def tabbed : Buffer := .ofText ['é', '\n', '\t', ' ', 'b', '\r', '\n', 'c'] .json

/-- Asked for at its newline, the second line is that at its start. Its indentation becomes a single
space, and stays so. -/
theorem line_queries_agree_tabbed :
    ∃ l b', tabbed.text.lineAt? 7 = some l ∧ l.Bounds tabbed.text 7 ∧ l.start = 3 ∧
      l.firstNonBlank = 5 ∧ l.contentStop = 6 ∧ l.stop = 7 ∧ tabbed.text.lineAt? 3 = some l ∧
      (reindent 7 [' ']).perform tabbed = (.ok (-1), b') ∧
      b'.text = ['é', '\n', ' ', 'b', '\r', '\n', 'c'] ∧
      (reindent 3 [' ']).perform b' = (.ok 0, b') := by
  obtain ⟨l, hl, hb, hsame, hre⟩ := line_queries_agree tabbed 7 (by decide)
  obtain ⟨x, z, b', -, hp, -, hagain⟩ := hre [' '] (by simp [isIndent])
  obtain rfl : ⟨['é', '\n'], ['\t', ' ', 'b', '\r'], ['\n', 'c']⟩ = l := Option.some.inj hl
  obtain ⟨-, rfl⟩ := Prod.mk.inj hp
  exact ⟨_, _, hl, hb, rfl, rfl, rfl, rfl, hsame 3 (by decide) (by decide) (by decide), rfl, rfl,
    hagain⟩

end Buffer

end TreeEdit
