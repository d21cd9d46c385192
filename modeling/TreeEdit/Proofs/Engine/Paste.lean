import TreeEdit.Engine.Structural
import TreeEdit.Proofs.Engine.Basic
import TreeEdit.Proofs.Tree.WellFormed
/-!
# Where a paste is true to its report

A paste reports the span of what it pasted. `paste_truthful_iff` says when the
report is true and nothing else has changed: always next to a node inside a line,
and on lines of its own exactly if the indentation that is stripped there is the
end of the indentation that is put in its place.
-/

namespace TreeEdit

namespace Text

/-! ## What is pasted -/

/-- The indentation of the line that holds an offset. -/
def indentAt (t : Text) (o : Nat) : Text := (t.lineAt? o).elim [] Line.indentation

/-- What stands between a node and the text pasted next to it, and between the copies. -/
def separator (t : Text) (node : Span) : Text :=
  if t.isBlock? node = some true then t.lineEnding ++ t.indentAt node.start else [' ']

/-- The copies of an entry that are pasted next to a node. -/
def pasted (t : Text) (node : Span) (entry : Text) (count : Nat) : Text :=
  (if t.isBlock? node = some true then entry.rebase (t.indentAt node.start) else entry).copies
    (t.separator node) count

/-- The text from an offset on. -/
def tailFrom (t : Text) (o : Nat) : Text := (t.splitAt? o).elim [] Prod.snd

/-- The text that comes to stand behind the new line break. -/
def broken (t : Text) (node : Span) (content : Text) : Placement → Text
  | .before => t.tailFrom node.start
  | .after => content ++ t.tailFrom node.stop

end Text

/-- The offset at which a text next to the node goes in. -/
def Placement.offset (node : Span) : Placement → Nat
  | before => node.start
  | after => node.stop

namespace Text

variable {x y z : Text}

theorem indentAt_size_append (x y : Text) :
    (x ++ y).indentAt x.size = (lineBetween x y).indentation := by
  rw [indentAt, lineAt?_size_append]
  rfl

theorem tailFrom_size_append (x y : Text) : (x ++ y).tailFrom x.size = y := by
  rw [tailFrom, splitAt?_size_append]
  rfl

theorem slice?_of_append {t : Text} {n : Nat} (h : t = x ++ y ++ z) (hn : x.size = n) :
    t.slice? n (n + y.size) = some y :=
  slice?_eq_some_iff.2 ⟨x, z, h, hn, by rw [size_append, hn]⟩

end Text

namespace Engine

variable {b b' : Buffer} {x y z : Text} {node : Span}

/-! ## Pasting on lines of its own -/

theorem spanFrom_eq_ok {start : Int} {size : Nat} {span : Span}
    (h : (spanFrom start size).perform b = (.ok span, b')) :
    span.start = (start % (wordLimit : Int)).toNat ∧ span.stop = span.start + size ∧ b' = b := by
  unfold spanFrom at h
  dsimp only at h
  split at h
  · obtain ⟨hs, rfl⟩ := Prod.mk.inj h
    obtain rfl := Except.ok.inj hs
    exact ⟨rfl, rfl, rfl⟩
  · simp at h

theorem spanFrom_eq_error {start : Int} {size : Nat} {f : Failure}
    (h : (spanFrom start size).perform b = (.error f, b')) : ∃ g, f = .fault g := by
  unfold spanFrom at h
  dsimp only at h
  split at h
  · simp at h
  · exact ⟨.overflow, by simpa using (Prod.mk.inj h).1.symm⟩

theorem spanFrom_natCast {n size : Nat} (h : n + size < wordLimit) (b : Buffer) :
    (spanFrom n size).perform b = (.ok ⟨n, n + size⟩, b) := by
  have hn : ((n : Int) % (wordLimit : Int)).toNat = n := by
    rw [Int.emod_eq_of_lt (by omega) (by omega), Int.toNat_natCast]
  unfold spanFrom
  dsimp only
  rw [hn, if_pos h]
  rfl

/-- A text with a line break in it is inserted, and the line behind the break indented anew. -/
theorem perform_insert_reindent {p q eol : Text} (h : b.text = p ++ q) (he : ∃ u, eol = u ++ ['\n'])
    (l r indent : Text) : ∃ res b₁ b₂,
      b₂.text = p ++ l ++ eol ++ indent ++ (r ++ q).dropWhile isIndent ∧
      (Buffer.insert p.size (l ++ eol ++ r)).perform b = (.ok res, b₁) ∧
      (Buffer.reindent (p.size + l.size + eol.size) indent).perform b₁
        = (.ok ((indent.size : Int) - Text.size (Text.indentation (r ++ q))), b₂) := by
  obtain ⟨u, rfl⟩ := he
  obtain ⟨res, hr⟩ := Buffer.perform_insert h (l ++ (u ++ ['\n']) ++ r)
  have ht : (b.splice p [] (l ++ (u ++ ['\n']) ++ r) q).text
      = (p ++ l ++ u) ++ ['\n'] ++ (r ++ q) := by
    rw [Buffer.splice_text (by simpa using h)]
    simp
  have hi := Buffer.perform_reindent_of_lineStart (.inr ⟨_, rfl⟩) ht indent
  have ho : p.size + l.size + (u ++ ['\n']).size = (p ++ l ++ u ++ ['\n']).size := by
    simp only [Text.size_append]
    omega
  refine ⟨res, _, _, ?_, hr, ho ▸ hi⟩
  rw [Buffer.splice_text]
  · simp
  · rw [ht, List.append_assoc _ (Text.indentation _), Text.indentation_append_dropWhile]

/-- On either side of the node the text is broken once, and what stands behind the break loses its
indentation to that of the node's line. The span behind the node is computed from the sizes of
both; the span in front of it is plain. -/
theorem perform_pasteBlock (h : b.text = x ++ y ++ z) (hs : x.size = node.start)
    (ht : (x ++ y).size = node.stop) (hb : b.text.isBlock? node = some true) {entry content : Text}
    {count : Nat} (hc : b.text.pasted node entry count = content) :
    (∃ b', b'.text = x ++ y ++ b.text.separator node ++ (content ++ z).dropWhile isIndent ∧
      (pasteBlock entry count .after node).perform b
        = (spanFrom ((x ++ y ++ b.text.separator node).size
            - Text.size (Text.indentation (content ++ z))) content.size).perform b') ∧
    ∃ b', b'.text = x ++ content ++ b.text.separator node ++ (y ++ z).dropWhile isIndent ∧
      (pasteBlock entry count .before node).perform b
        = (.ok ⟨node.start, node.start + content.size⟩, b') := by
  have hx : b.text = x ++ (y ++ z) := by rw [h, List.append_assoc]
  have hi : (Text.lineBetween x (y ++ z)).indentation = b.text.indentAt node.start := by
    rw [hx, ← hs, Text.indentAt_size_append]
  have hsep : b.text.separator node = b.text.lineEnding ++ b.text.indentAt node.start := if_pos hb
  rw [Text.pasted, if_pos hb, hsep] at hc
  have hl := Buffer.perform_lineAt hx
  rw [hs] at hl
  unfold pasteBlock
  rw [hsep]
  constructor
  · -- The break comes first, and the content stands behind it.
    obtain ⟨r, b₁, b₂, h₂, hins, hre⟩ := perform_insert_reindent h b.text.exists_lineEnding []
      content (b.text.indentAt node.start)
    rw [ht, List.nil_append] at hins
    rw [ht, Text.size_nil, Nat.add_zero] at hre
    refine ⟨b₂, by simpa using h₂, ?_⟩
    rw [Action.perform_bind_of_ok hl, Action.perform_bind_of_ok (Action.perform_get b), hi]
    dsimp only
    rw [hc, Action.perform_bind_of_ok hins, Action.perform_bind_of_ok hre, ← ht]
    congr 2
    simp only [Text.size_append]
    omega
  · -- The content comes first, and the node itself stands behind the break.
    obtain ⟨r, b₁, b₂, h₂, hins, hre⟩ := perform_insert_reindent hx b.text.exists_lineEnding content
      [] (b.text.indentAt node.start)
    rw [hs, List.append_nil] at hins
    rw [hs, Nat.add_assoc, ← Text.size_append] at hre
    refine ⟨b₂, by simpa using h₂, ?_⟩
    rw [Action.perform_bind_of_ok hl, Action.perform_bind_of_ok (Action.perform_get b), hi]
    dsimp only
    rw [hc, Action.perform_bind_of_ok hins, Action.perform_bind_of_ok hre]
    rfl

/-- Next to a node inside a line nothing is stripped. -/
theorem perform_pasteInline (h : b.text = x ++ y ++ z) (hs : x.size = node.start)
    (ht : (x ++ y).size = node.stop) (hb : b.text.isBlock? node ≠ some true) {entry content : Text}
    {count : Nat} (hc : b.text.pasted node entry count = content) :
    (∃ b', b'.text = x ++ y ++ b.text.separator node ++ (content ++ z) ∧
      (pasteInline entry count .after node).perform b
        = (.ok ⟨node.stop + 1, node.stop + 1 + content.size⟩, b')) ∧
    ∃ b', b'.text = x ++ content ++ b.text.separator node ++ (y ++ z) ∧
      (pasteInline entry count .before node).perform b
        = (.ok ⟨node.start, node.start + content.size⟩, b') := by
  have hx : b.text = x ++ (y ++ z) := by rw [h, List.append_assoc]
  have hsep : b.text.separator node = [' '] := if_neg hb
  rw [Text.pasted, if_neg hb, hsep] at hc
  unfold pasteInline
  rw [hsep, hc]
  constructor
  · obtain ⟨r, hr⟩ := Buffer.perform_insert h (' ' :: content)
    rw [ht] at hr
    refine ⟨_, ?_, Action.perform_bind_of_ok hr⟩
    rw [Buffer.splice_text (by simpa using h)]
    simp
  · obtain ⟨r, hr⟩ := Buffer.perform_insert hx (content ++ [' '])
    rw [hs] at hr
    refine ⟨_, ?_, Action.perform_bind_of_ok hr⟩
    rw [Buffer.splice_text (by simpa using hx)]
    simp

theorem perform_pasteText (h : b.text.isBoundary node.start = true) (entry : Text) (count : Nat)
    (placement : Placement) : (pasteText entry count placement node).perform b =
      if copyLimit < count then (.error (.fault .overflow), b)
      else if b.text.isBlock? node = some true then
        (pasteBlock entry count placement node).perform b
      else (pasteInline entry count placement node).perform b := by
  obtain ⟨x, z, hx, hs⟩ := Text.isBoundary_iff.1 h
  obtain ⟨block, hb⟩ : ∃ block, b.text.isBlock? node = some block := by
    rw [Text.isBlock?, hx, ← hs, Text.lineAt?_size_append]
    exact ⟨_, rfl⟩
  unfold pasteText
  rw [Action.perform_bind_of_ok (Action.perform_get b), hb,
    Action.perform_bind_of_ok (Action.perform_require_some _ _ _)]
  split
  · rfl
  · cases block <;> rfl

/-- A paste at boundaries is never rejected; if it fails, it has no answer. -/
theorem pasteText_eq_error (h : b.text = x ++ y ++ z) (hs : x.size = node.start)
    (ht : (x ++ y).size = node.stop) {entry : Text} {count : Nat} {placement : Placement}
    {f : Failure} (hf : (pasteText entry count placement node).perform b = (.error f, b')) :
    ∃ g, f = .fault g := by
  have hstart : b.text.isBoundary node.start = true :=
    Text.isBoundary_iff.2 ⟨x, y ++ z, by rw [h, List.append_assoc], hs⟩
  rw [perform_pasteText hstart] at hf
  split at hf
  · exact ⟨.overflow, by simpa using (Prod.mk.inj hf).1.symm⟩
  · split at hf
    · rename_i hb
      obtain ⟨⟨b₁, -, hp₁⟩, ⟨b₂, -, hp₂⟩⟩ := perform_pasteBlock h hs ht hb rfl
      cases placement with
      | before =>
        rw [hp₂] at hf
        simp at hf
      | after =>
        rw [hp₁] at hf
        exact spanFrom_eq_error hf
    · rename_i hb
      obtain ⟨⟨b₁, -, hp₁⟩, ⟨b₂, -, hp₂⟩⟩ := perform_pasteInline h hs ht hb
        (rfl : b.text.pasted node entry count = _)
      cases placement with
      | before =>
        rw [hp₂] at hf
        simp at hf
      | after =>
        rw [hp₁] at hf
        simp at hf

/-! ## Truthful reports -/

/-- The text `t'` is `t` with something inserted at the side of the node, and the reported span
holds the content. -/
def Truthful (t : Text) (node : Span) (content : Text) (placement : Placement) (span : Span)
    (t' : Text) : Prop :=
  (∃ u v w, t = u ++ w ∧ u.size = placement.offset node ∧ t' = u ++ v ++ w) ∧
    t'.slice? span.start span.stop = some content

/-- What is stripped behind the line break of a paste is given back by the indentation there. -/
def KeepsIndentation (t : Text) (node : Span) (content : Text) (placement : Placement) : Prop :=
  t.isBlock? node = some true →
    (t.broken node content placement).indentation <:+ t.indentAt node.start

instance (t : Text) (node : Span) (content : Text) (placement : Placement) :
    Decidable (KeepsIndentation t node content placement) :=
  inferInstanceAs (Decidable (_ → _))

/-- Content that stands where the span behind a line break says it does shows that the indentation
`w`, stripped there, is the end of what precedes it. -/
theorem suffix_of_slice {t q w rest content z : Text} {n : Nat} (ht : t = q ++ rest)
    (hw : content ++ z = w ++ rest) (hz : z <:+ t) (hn : n + w.size = q.size)
    (hs : t.slice? n (n + content.size) = some content) : w <:+ q := by
  obtain ⟨m, r, hm, hmn, -⟩ := Text.slice?_eq_some_iff.1 hs
  obtain ⟨v, hv⟩ := hz
  -- Nothing was lost or gained in size, so what stands behind the content is `z`.
  have hsize : Text.size v = (m ++ content).size := by
    have h₁ := congrArg Text.size ht
    have h₂ := congrArg Text.size hw
    have h₃ := congrArg Text.size hv
    simp only [Text.size_append] at h₁ h₂ h₃ ⊢
    omega
  obtain ⟨rfl, -⟩ := Text.append_inj_of_size (hv.trans hm) hsize
  refine ⟨m, List.append_cancel_right (?_ : m ++ w ++ rest = q ++ rest)⟩
  rw [List.append_assoc, ← hw, ← List.append_assoc, hv, ht]

/-- The action reports a span, and the report is true. -/
def Reports (a : Action Buffer Span) (b : Buffer) (node : Span) (content : Text)
    (placement : Placement) : Prop :=
  ∃ span b', a.perform b = (.ok span, b') ∧ Truthful b.text node content placement span b'.text

section

variable {entry content : Text} {count : Nat}

/-- In front of the node the content is always where the report says, but the node itself may
have lost its first bytes. -/
theorem pasteBlock_before_reports_iff (h : b.text = x ++ y ++ z) (hs : x.size = node.start)
    (ht : (x ++ y).size = node.stop) (hb : b.text.isBlock? node = some true)
    (hc : b.text.pasted node entry count = content) :
    Reports (pasteBlock entry count .before node) b node content .before ↔
      Text.indentation (y ++ z) <:+ b.text.indentAt node.start := by
  obtain ⟨-, b', hb', hp⟩ := perform_pasteBlock h hs ht hb hc
  obtain ⟨u, hu⟩ := b.text.exists_lineEnding
  have hx : b.text = x ++ (y ++ z) := by rw [h, List.append_assoc]
  have hsep : b.text.separator node = u ++ ['\n'] ++ b.text.indentAt node.start := by
    rw [Text.separator, if_pos hb, hu]
  rw [hsep] at hb'
  constructor
  · rintro ⟨span, b'', hr, ⟨u', v, w, hw, hu', ht'⟩, -⟩
    obtain ⟨-, rfl⟩ := Prod.mk.inj (hp.symm.trans hr)
    obtain ⟨rfl, rfl⟩ := Text.append_inj_of_size (hw.symm.trans hx) (hu'.trans hs.symm)
    -- The old text behind `x` is the end of the new one, and what is not stripped cancels out.
    have hsuf : Text.indentation (y ++ z) ++ (y ++ z).dropWhile isIndent <:+ b'.text := by
      rw [Text.indentation_append_dropWhile, ht']
      exact List.suffix_append _ _
    rw [hb', List.suffix_append_self_iff, ← List.append_assoc, ← List.append_assoc] at hsuf
    exact Text.suffix_of_suffix_newline hsuf (Text.newline_not_mem_indentation _)
  · rintro ⟨j, hj⟩
    refine ⟨_, b', hp, ⟨x, content ++ u ++ ['\n'] ++ j, y ++ z, hx, hs, ?_⟩, ?_⟩
    · rw [hb', ← hj]
      simp only [List.append_assoc, Text.indentation_append_dropWhile]
    · exact Text.slice?_of_append (hb'.trans (List.append_assoc (x ++ content) _ _)) hs

/-- Behind the node nothing of the old text is lost unless the content is all indentation, but the
reported start is right only if what is stripped is given back. -/
theorem pasteBlock_after_reports_iff (h : b.text = x ++ y ++ z) (hs : x.size = node.start)
    (ht : (x ++ y).size = node.stop) (hb : b.text.isBlock? node = some true)
    (hc : b.text.pasted node entry count = content) (hsize : b.text.size < signedLimit)
    (hins : (b.text.separator node ++ content).size < signedLimit) :
    Reports (pasteBlock entry count .after node) b node content .after ↔
      Text.indentation (content ++ z) <:+ b.text.indentAt node.start := by
  obtain ⟨⟨b', hb', hp⟩, -⟩ := perform_pasteBlock h hs ht hb hc
  obtain ⟨u, hu⟩ := b.text.exists_lineEnding
  have hsep : b.text.separator node = u ++ ['\n'] ++ b.text.indentAt node.start := by
    rw [Text.separator, if_pos hb, hu]
  have hstrip := Text.indentation_append_dropWhile (content ++ z)
  have hlen := congrArg Text.size hstrip
  rw [h] at hsize
  simp only [Text.size_append] at hsize hins hlen
  constructor
  · rintro ⟨span, b'', hr, ⟨u', v, w, hw, hu', ht'⟩, hslice⟩
    obtain ⟨hstart, hstop, rfl⟩ := spanFrom_eq_ok (hp.symm.trans hr)
    obtain ⟨rfl, rfl⟩ := Text.append_inj_of_size (hw.symm.trans h) (hu'.trans ht.symm)
    have hz : w <:+ b''.text := ht' ▸ List.suffix_append _ _
    rw [hstop] at hslice
    have hn : span.start + Text.size (Text.indentation (content ++ w))
        = (x ++ y ++ b.text.separator node).size := by
      -- A start below zero would be read as one past the end of the text.
      obtain ⟨m, r, hm, hmn, -⟩ := Text.slice?_eq_some_iff.1 hslice
      have hm' := congrArg Text.size (hb'.symm.trans hm)
      simp only [Text.size_append, wordLimit, signedLimit] at *
      omega
    have hsuf := suffix_of_slice hb' hstrip.symm hz hn hslice
    rw [hsep, ← List.append_assoc, ← List.append_assoc] at hsuf
    exact Text.suffix_of_suffix_newline hsuf (Text.newline_not_mem_indentation _)
  · rintro ⟨j, hj⟩
    have hstart : ((x ++ y ++ b.text.separator node).size : Int)
        - Text.size (Text.indentation (content ++ z))
          = ((x ++ y ++ u ++ ['\n'] ++ j).size : Nat) := by
      rw [hsep, ← hj]
      simp only [Text.size_append]
      omega
    have hfit : (x ++ y ++ u ++ ['\n'] ++ j).size + content.size < wordLimit := by
      rw [hsep, ← hj] at hins
      simp only [Text.size_append, wordLimit, signedLimit] at *
      omega
    rw [hstart, spanFrom_natCast hfit] at hp
    have hb'' : b'.text = (x ++ y ++ u ++ ['\n'] ++ j) ++ content ++ z := by
      rw [hb', hsep, ← hj]
      simp only [List.append_assoc, Text.indentation_append_dropWhile]
    refine ⟨_, b', hp, ⟨x ++ y, u ++ ['\n'] ++ j ++ content, z, h, ht, ?_⟩, ?_⟩
    · simp only [hb'', List.append_assoc]
    · exact Text.slice?_of_append hb'' rfl

theorem pasteInline_reports (h : b.text = x ++ y ++ z) (hs : x.size = node.start)
    (ht : (x ++ y).size = node.stop) (hb : b.text.isBlock? node ≠ some true)
    (hc : b.text.pasted node entry count = content) (placement : Placement) :
    Reports (pasteInline entry count placement node) b node content placement := by
  have hx : b.text = x ++ (y ++ z) := by rw [h, List.append_assoc]
  obtain ⟨⟨b₁, h₁, hp₁⟩, ⟨b₂, h₂, hp₂⟩⟩ := perform_pasteInline h hs ht hb hc
  rw [Text.separator, if_neg hb] at h₁ h₂
  cases placement with
  | after =>
    refine ⟨_, b₁, hp₁, ⟨x ++ y, [' '] ++ content, z, h, ht, by simp [h₁]⟩, ?_⟩
    refine Text.slice?_of_append (x := x ++ y ++ [' ']) (z := z) (by simp [h₁]) ?_
    rw [Text.size_append, ht]
    rfl
  | before =>
    refine ⟨_, b₂, hp₂, ⟨x, content ++ [' '], y ++ z, hx, hs, by simp [h₂]⟩, ?_⟩
    exact Text.slice?_of_append (h₂.trans (List.append_assoc (x ++ content) _ _)) hs

/-- A paste that is not of too many copies is true to its report exactly if the indentation behind
the line break is kept. -/
theorem pasteText_reports_iff (h : b.text = x ++ y ++ z) (hs : x.size = node.start)
    (ht : (x ++ y).size = node.stop) (hc : b.text.pasted node entry count = content)
    (hsize : b.text.size < signedLimit)
    (hins : (b.text.separator node ++ content).size < signedLimit) (placement : Placement) :
    Reports (pasteText entry count placement node) b node content placement ↔
      count ≤ copyLimit ∧ KeepsIndentation b.text node content placement := by
  have hx : b.text = x ++ (y ++ z) := by rw [h, List.append_assoc]
  have hstart : b.text.isBoundary node.start = true := Text.isBoundary_iff.2 ⟨x, y ++ z, hx, hs⟩
  unfold Reports
  rw [perform_pasteText hstart]
  by_cases hn : copyLimit < count
  · refine iff_of_false ?_ fun hk => absurd hk.1 (Nat.not_le_of_lt hn)
    rw [if_pos hn]
    rintro ⟨span, b', hr, -⟩
    simp at hr
  · rw [if_neg hn, and_iff_right (Nat.le_of_not_lt hn)]
    by_cases hb : b.text.isBlock? node = some true
    · rw [if_pos hb, KeepsIndentation, forall_prop_of_true hb]
      cases placement with
      | before =>
        have htail : b.text.tailFrom node.start = y ++ z := by
          rw [hx, ← hs, Text.tailFrom_size_append]
        rw [Text.broken, htail]
        exact pasteBlock_before_reports_iff h hs ht hb hc
      | after =>
        have htail : b.text.tailFrom node.stop = z := by
          rw [h, ← ht, Text.tailFrom_size_append]
        rw [Text.broken, htail]
        exact pasteBlock_after_reports_iff h hs ht hb hc hsize hins
    · rw [if_neg hb]
      exact iff_of_true (pasteInline_reports h hs ht hb hc placement) fun hb' => absurd hb' hb

end

/-! ## The engine -/

variable {P : Parser} {e : Engine}

/-- Pastes an entry next to a node that has been found. -/
def pasteBeside (P : Parser) (entry : Text) (count : Nat) (placement : Placement) (node : Span) :
    Action Engine EditOutcome := do
  modify breakSequence
  let span ← onBuffer (pasteText entry (max count 1) placement node)
  modify fun e => e.settle P span.start none
  return .pasted span

theorem paste_of_empty (h : e.killRing.top? = none) (n : Nat) (p : Placement) :
    (paste P n p).perform e = (.ok .nothing, e) := by
  unfold paste
  rw [Action.perform_bind_of_ok (Action.perform_get e), h]
  rfl

theorem paste_of_entry {entry : Text} (h : e.killRing.top? = some entry) (n : Nat)
    (p : Placement) : (paste P n p).perform e = match (e.current P).1 with
      | none => (.ok .nothing, (e.current P).2)
      | some r =>
        if (r.resolve (e.tree P) e.buffer.revision).isNone then (.ok .nothing, (e.current P).2)
        else (pasteBeside P entry n p r.span).perform (e.current P).2 := by
  unfold paste
  rw [Action.perform_bind_of_ok (Action.perform_get e), h]
  dsimp only
  rw [Action.perform_bind_of_ok (Action.perform_get e),
    Action.perform_bind_of_ok (Action.perform_set _ _)]
  cases (e.current P).1 with
  | none => rfl
  | some r =>
    dsimp only
    rw [current_tree, current_buffer]
    split <;> rfl

/-- A paste next to the selected node is a paste into the text, and then the engine settles. -/
theorem perform_paste {entry : Text} {r : NodeRef} (htop : e.killRing.top? = some entry)
    (hr : (e.current P).1 = some r)
    (hn : (r.resolve (e.tree P) e.buffer.revision).isNone = false) (count : Nat)
    (placement : Placement) : (paste P count placement).perform e =
      let e₁ := (e.current P).2.breakSequence
      match (pasteText entry (max count 1) placement r.span).perform e.buffer with
      | (.ok span, b) => (.ok (.pasted span), settle P { e₁ with buffer := b } span.start none)
      | (.error f, b) => (.error f, { e₁ with buffer := b }) := by
  rw [paste_of_entry htop, hr]
  dsimp only
  rw [hn, if_neg (by simp), pasteBeside, Action.perform_bind_of_ok (Action.perform_modify _ _)]
  have hb : (e.current P).2.breakSequence.buffer = e.buffer := current_buffer e
  cases hp : (pasteText entry (max count 1) placement r.span).perform e.buffer with
  | mk res b =>
    rw [← hb] at hp
    cases res with
    | error f => exact Action.perform_bind_of_error (perform_onBuffer hp)
    | ok span =>
      rw [Action.perform_bind_of_ok (perform_onBuffer hp),
        Action.perform_bind_of_ok (Action.perform_modify _ _)]
      rfl

/-- A paste does nothing, apart from looking for the selected node, unless there is an entry to
paste and a node to paste it next to. -/
theorem paste_cases (P : Parser) (e : Engine) (count : Nat) (placement : Placement) :
    (paste P count placement).perform e = (.ok .nothing, e) ∨
    (paste P count placement).perform e = (.ok .nothing, (e.current P).2) ∨
    ∃ entry r, e.killRing.top? = some entry ∧ (e.current P).1 = some r ∧
      (r.resolve (e.tree P) e.buffer.revision).isNone = false := by
  cases htop : e.killRing.top? with
  | none => exact .inl (paste_of_empty htop count placement)
  | some entry =>
    right
    rw [paste_of_entry htop]
    cases hr : (e.current P).1 with
    | none => exact .inl rfl
    | some r =>
      dsimp only
      cases hn : (r.resolve (e.tree P) e.buffer.revision).isNone with
      | true => exact .inl rfl
      | false => exact .inr ⟨entry, r, rfl, rfl, hn⟩

/-- A paste next to a node of the tree reports a span, has only inserted at the node's side, and has
put the copies where the span says, exactly if it is not asked for too many copies and, on lines of
its own, what it strips behind the line break is the end of the indentation it puts there. -/
theorem paste_truthful_iff {entry content : Text} {a : Address} {node : Span} {count : Nat}
    (placement : Placement) (hw : (e.tree P).WellFormed e.buffer.text)
    (htop : e.killRing.top? = some entry)
    (hr : (e.current P).1 = some (.capture (e.tree P) a e.buffer.revision))
    (hf : (e.focus P).1 = some a) (hnode : (e.tree P).spanAt a = node)
    (hc : e.buffer.text.pasted node entry (max count 1) = content)
    (hsize : e.buffer.text.size < signedLimit)
    (hins : (e.buffer.text.separator node ++ content).size < signedLimit) :
    (∃ span e', (paste P count placement).perform e = (.ok (.pasted span), e') ∧
      Truthful e.buffer.text node content placement span e'.buffer.text) ↔
    max count 1 ≤ copyLimit ∧ KeepsIndentation e.buffer.text node content placement := by
  have hn : ((NodeRef.capture (e.tree P) a e.buffer.revision).resolve (e.tree P)
      e.buffer.revision).isNone = false := by
    rw [focus_eq, hr] at hf
    exact Option.isNone_eq_false_iff.2 (Option.isSome_of_eq_some hf)
  obtain ⟨x, y, z, h, hs, ht⟩ := Text.exists_parts (hw.fits.start a) (hw.fits.stop a)
    (hw.ordered.spanAt_le a)
  rw [hnode] at hs ht
  have hspan : (NodeRef.capture (e.tree P) a e.buffer.revision).span = node := hnode
  rw [← pasteText_reports_iff h hs ht hc hsize hins placement, perform_paste htop hr hn, hspan]
  unfold Reports
  cases hp : (pasteText entry (max count 1) placement node).perform e.buffer with
  | mk res b =>
    cases res with
    | error f => simp
    | ok span =>
      constructor
      · rintro ⟨_, _, he, htrue⟩
        cases he
        rw [settle_text] at htrue
        exact ⟨span, b, rfl, htrue⟩
      · rintro ⟨_, _, he, htrue⟩
        cases he
        refine ⟨span, _, rfl, ?_⟩
        rwa [settle_text]

/-- An engine with one entry in its ring and nothing selected. -/
def holding (text : Text) (point : Nat) (entry : Text) : Engine :=
  ⟨⟨text, point, 0, .json⟩, .empty .silent, ⟨[entry], 60, none⟩, false⟩

/-- Two copies behind a letter on an indented line, where what is stripped is given back. -/
theorem paste_truthful_iff_indented :
    ∃ span e', (paste .letters 2 .after).perform (holding [' ', ' ', 'a'] 2 [' ', ' ', 'b'])
        = (.ok (.pasted span), e') ∧
      Truthful [' ', ' ', 'a'] ⟨2, 3⟩ [' ', ' ', 'b', '\n', ' ', ' ', ' ', ' ', 'b'] .after span
        e'.buffer.text :=
  (paste_truthful_iff (P := .letters) (e := holding [' ', ' ', 'a'] 2 [' ', ' ', 'b']) (a := [0])
    .after (Parser.wellFormed_letters _ _) rfl rfl rfl rfl rfl (by decide) (by decide)).2
    ⟨by decide, by decide⟩

/-- Behind a line without indentation, a paste that starts with two spaces loses them, and the span
that it reports starts two bytes too early. With three spaces it would start before the text. -/
theorem paste_not_truthful :
    (Parser.letters 0 ['a']).WellFormed ['a'] ∧
    (focus .letters (holding ['a'] 0 [' ', ' ', 'b'])).1 = some [] ∧
    (∃ e', (paste .letters 1 .after).perform (holding ['a'] 0 [' ', ' ', 'b'])
      = (.ok (.pasted ⟨0, 3⟩), e') ∧ e'.buffer.text = ['a', '\n', 'b']) ∧
    (¬ ∃ span e', (paste .letters 1 .after).perform (holding ['a'] 0 [' ', ' ', 'b'])
        = (.ok (.pasted span), e') ∧
      Truthful ['a'] ⟨0, 1⟩ (Text.pasted ['a'] ⟨0, 1⟩ [' ', ' ', 'b'] 1) .after span
        e'.buffer.text) ∧
    ((paste .letters 1 .after).perform (holding ['a'] 0 [' ', ' ', ' ', 'b'])).1
      = .error (.fault .overflow) := by
  refine ⟨Parser.wellFormed_letters _ _, rfl, ⟨_, rfl, rfl⟩, ?_, rfl⟩
  rintro ⟨span, e', h, -, hs⟩
  cases h
  revert hs
  decide

end Engine

end TreeEdit
