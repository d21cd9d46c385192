import TreeEdit.Engine.Structural
import TreeEdit.Proofs.Engine.Basic
import TreeEdit.Proofs.Tree.WellFormed
/-!
# What a deletion takes

A deletion takes a span out of the text and records it in the kill ring. It may
then take one more line, if that line is blank, and then it selects a node, which
changes neither the text nor the ring. `deleteSpan_outcome` sums this up.

`deletion_exact` is the account of it for both directions: every byte of the old
text is in the new text, in the ring, or in one blank line with one newline.
-/

namespace TreeEdit

/-! ## The kill ring -/

/-- The entries that a ring may have after the deletion of `t`: `t` has joined the newest entry,
if that came from a deletion just before, and else is an entry of its own, for which the oldest
entry of a full ring goes. -/
inductive KillRing.Records (r : KillRing) (t : Text) : Direction → List Text → Prop
  | append {top : Text} {rest : List Text} : r.latest = some .kill → r.entries = top :: rest →
      Records r t .forward ((top ++ t) :: rest)
  | prepend {top : Text} {rest : List Text} : r.latest = some .kill → r.entries = top :: rest →
      Records r t .backward ((t ++ top) :: rest)
  | fresh {d : Direction} : (r.latest = some .kill → r.entries = []) →
      (r.entries.length = r.capacity → r.entries = []) → Records r t d (t :: r.entries)
  | full {d : Direction} {kept : List Text} {oldest : Text} :
      (r.latest = some .kill → r.entries = []) → r.entries.length = r.capacity →
      r.entries = kept ++ [oldest] → Records r t d (t :: kept)

theorem KillRing.push_records {r : KillRing} (h : r.latest = some .kill → r.entries = [])
    (t : Text) (d : Direction) : r.Records t d (r.push t).entries := by
  unfold push
  by_cases hf : r.entries.length = r.capacity
  · rw [if_pos hf]
    rcases List.eq_nil_or_concat r.entries with he | ⟨kept, oldest, he⟩
    · have hd : r.entries.dropLast = r.entries := by simp [he]
      rw [hd]
      exact .fresh h fun _ => he
    · rw [List.concat_eq_append] at he
      have hd : r.entries.dropLast = kept := by simp [he]
      rw [hd]
      exact .full h hf he
  · rw [if_neg hf]
    exact .fresh h fun hc => absurd hc hf

theorem KillRing.kill_records (r : KillRing) (t : Text) (d : Direction) :
    r.Records t d (r.kill t d).entries := by
  unfold kill
  split
  · rename_i top rest hl he
    cases d with
    | forward => exact .append hl he
    | backward => exact .prepend hl he
  · rename_i hn
    refine push_records (fun hl => ?_) t d
    cases he : r.entries with
    | nil => rfl
    | cons top rest => exact (hn top rest hl he).elim

namespace Engine

variable {P : Parser} {e e' : Engine} {x y z : Text}

/-! ## Steps of a deletion -/

/-- A neighbour behind the span that starts no earlier than the span is long has a place in the text
that is left, and so has every neighbour before the span. -/
theorem startAfterRemoval_of_le {d : Direction} {span : Span} {neighbour : Option Span}
    (h : d = .forward → ∀ n ∈ neighbour, span.size ≤ n.start) (b : Buffer) :
    ∃ tracked, (neighbour.mapM (startAfterRemoval d span)).perform b = (.ok tracked, b) := by
  cases neighbour with
  | none => exact ⟨none, rfl⟩
  | some n =>
    cases d with
    | backward => exact ⟨some n.start, rfl⟩
    | forward =>
      refine ⟨some (n.start - span.size), ?_⟩
      simp only [Option.mapM_some, startAfterRemoval, if_pos (h rfl n rfl)]
      rfl

theorem startAfterRemoval_cases (d : Direction) (span : Span) (neighbour : Option Span)
    (b : Buffer) :
    (∃ tracked, (neighbour.mapM (startAfterRemoval d span)).perform b = (.ok tracked, b)) ∨
      (neighbour.mapM (startAfterRemoval d span)).perform b = (.error (.fault .overflow), b) := by
  by_cases h : d = .forward → ∀ n ∈ neighbour, span.size ≤ n.start
  · exact .inl (startAfterRemoval_of_le h b)
  · right
    simp only [Classical.not_imp, not_forall] at h
    obtain ⟨rfl, n, rfl, hn⟩ := h
    simp only [Option.mapM_some, startAfterRemoval, if_neg hn]
    rfl

/-- The text is not empty, and its line around the end of `x` is blank. -/
def LeftBlank (x z : Text) : Prop := x ++ z ≠ [] ∧ (Text.lineBetween x z).isBlank = true

/-- The buffer `b'` is `b` without the line around the end of `x`, if that is blank and is to go;
`tracked'` is where `tracked` is then. -/
def Tidied (clean : Bool) (x z : Text) (b b' : Buffer) (tracked tracked' : Option Nat) : Prop :=
  (¬ (clean = true ∧ LeftBlank x z) ∧ b' = b ∧ tracked' = tracked) ∨
  (clean = true ∧ LeftBlank x z ∧ tracked' = tracked.map (Text.lineBetween x z).removal.shiftPast ∧
    ∃ u v w, b.text = u ++ v ++ w ∧ u ++ w = (Text.lineBetween x z).rest ∧
      (Text.lineBetween x z).removal = ⟨u.size, (u ++ v).size⟩ ∧ b' = b.splice u v [] w)

theorem removeBlankLine_tidies {b : Buffer} (h : b.text = x ++ z) (tracked : Option Nat) :
    ∃ b' tracked', Tidied true x z b b' tracked tracked' ∧
      (removeBlankLine x.size tracked).perform b = (.ok tracked', b') := by
  unfold removeBlankLine
  rw [Action.perform_bind_of_ok (Action.perform_get b), h]
  by_cases he : x ++ z = []
  · refine ⟨b, tracked, .inl ⟨fun hc => hc.2.1 he, rfl, rfl⟩, ?_⟩
    rw [if_pos (by simp [he])]
    rfl
  · rw [if_neg (by simpa using he), Action.perform_bind_of_ok (Buffer.perform_lineAt h)]
    by_cases hb : (Text.lineBetween x z).isBlank = true
    · obtain ⟨u, v, w, ht, hr, hl, hp⟩ := Buffer.perform_deleteLine h
      refine ⟨_, _, .inr ⟨rfl, ⟨he, hb⟩, rfl, u, v, w, ht, hr, hl, rfl⟩, ?_⟩
      rw [if_pos hb, Action.perform_bind_of_ok hp]
      rfl
    · refine ⟨b, tracked, .inl ⟨fun hc => hb hc.2.2, rfl, rfl⟩, ?_⟩
      rw [if_neg hb]
      rfl

theorem Tidied.text {clean : Bool} {b b' : Buffer} {tracked tracked' : Option Nat}
    (h : Tidied clean x z b b' tracked tracked') (hb : b.text = x ++ z) :
    (¬ (clean = true ∧ LeftBlank x z) ∧ b'.text = x ++ z) ∨
      (clean = true ∧ LeftBlank x z ∧ b'.text = (Text.lineBetween x z).rest) := by
  rcases h with ⟨hn, rfl, -⟩ | ⟨hc, hl, -, u, v, w, ht, hr, -, rfl⟩
  · exact .inl ⟨hn, hb⟩
  · refine .inr ⟨hc, hl, ?_⟩
    rw [Buffer.splice_text ht, List.append_nil, hr]

/-! ## The whole deletion -/

/-- A deletion of a part `y` of the text takes `y` and the line it leaves blank and settles, if the
neighbour has a place in the text that is left. -/
theorem deleteSpan_of_tracked (h : e.buffer.text = x ++ y ++ z) {d : Direction}
    {neighbour : Option Span} {tracked : Option Nat}
    (hn : (neighbour.mapM (startAfterRemoval d ⟨x.size, (x ++ y).size⟩)).perform
      (e.buffer.splice x y [] z) = (.ok tracked, e.buffer.splice x y [] z)) (clean : Bool) :
    ∃ b tracked', Tidied clean x z (e.buffer.splice x y [] z) b tracked tracked' ∧
      (deleteSpan P d ⟨x.size, (x ++ y).size⟩ neighbour clean).perform e
        = (.ok (.deleted ⟨x.size, (x ++ y).size⟩),
          Engine.settle P { e with buffer := b, killRing := e.killRing.kill y d }
            (tracked'.getD (min b.point x.size)) (neighbour.map Span.size)) := by
  have hd : (onBuffer (Buffer.delete ⟨x.size, (x ++ y).size⟩)).perform e
      = (.ok y, { e with buffer := e.buffer.splice x y [] z }) :=
    perform_onBuffer (Buffer.perform_delete h)
  have ht : (e.buffer.splice x y [] z).text = x ++ z := by
    rw [Buffer.splice_text h, List.append_nil]
  unfold deleteSpan
  rw [Action.perform_bind_of_ok hd, Action.perform_bind_of_ok (Action.perform_modify _ _),
    Action.perform_bind_of_ok (perform_onBuffer hn)]
  cases clean with
  | false => exact ⟨_, tracked, .inl ⟨by simp, rfl, rfl⟩, rfl⟩
  | true =>
    obtain ⟨b, tracked', hb, hp⟩ := removeBlankLine_tidies ht tracked
    refine ⟨b, tracked', hb, ?_⟩
    rw [if_pos rfl, Action.perform_bind_of_ok (perform_onBuffer hp)]
    rfl

/-- A deletion of a part `y` of the text fails by an overflow, or takes `y` and the line it leaves
blank and settles. -/
theorem deleteSpan_cases (h : e.buffer.text = x ++ y ++ z) (d : Direction)
    (neighbour : Option Span) (clean : Bool) :
    (∃ s, (deleteSpan P d ⟨x.size, (x ++ y).size⟩ neighbour clean).perform e
      = (.error (.fault .overflow), s)) ∨
    ∃ b tracked tracked', Tidied clean x z (e.buffer.splice x y [] z) b tracked tracked' ∧
      (neighbour.mapM (startAfterRemoval d ⟨x.size, (x ++ y).size⟩)).perform
        (e.buffer.splice x y [] z) = (.ok tracked, e.buffer.splice x y [] z) ∧
      (deleteSpan P d ⟨x.size, (x ++ y).size⟩ neighbour clean).perform e
        = (.ok (.deleted ⟨x.size, (x ++ y).size⟩),
          Engine.settle P { e with buffer := b, killRing := e.killRing.kill y d }
            (tracked'.getD (min b.point x.size)) (neighbour.map Span.size)) := by
  rcases startAfterRemoval_cases d ⟨x.size, (x ++ y).size⟩ neighbour (e.buffer.splice x y [] z)
    with ⟨tracked, hn⟩ | hn
  · obtain ⟨b, tracked', hb, hp⟩ := deleteSpan_of_tracked (P := P) h hn clean
    exact .inr ⟨b, tracked, tracked', hb, hn, hp⟩
  · left
    have hd : (onBuffer (Buffer.delete ⟨x.size, (x ++ y).size⟩)).perform e
        = (.ok y, { e with buffer := e.buffer.splice x y [] z }) :=
      perform_onBuffer (Buffer.perform_delete h)
    unfold deleteSpan
    rw [Action.perform_bind_of_ok hd, Action.perform_bind_of_ok (Action.perform_modify _ _)]
    exact ⟨_, Action.perform_bind_of_error (perform_onBuffer hn)⟩

/-- A span that is no part of the text is rejected before anything has changed. -/
theorem deleteSpan_of_none {span : Span} (h : e.buffer.text.slice? span.start span.stop = none)
    (d : Direction) (neighbour : Option Span) (clean : Bool) :
    (deleteSpan P d span neighbour clean).perform e
      = (.error (.rejected (.invalidRange span e.buffer.text.size)), e) := by
  unfold deleteSpan
  exact Action.perform_bind_of_error (perform_onBuffer (Buffer.perform_delete_of_none h))

/-- A deletion fails, or it has taken its span out of the text, and perhaps a line, and settled
where its neighbour is then. -/
theorem deleteSpan_outcome (P : Parser) (e : Engine) (d : Direction) (span : Span)
    (neighbour : Option Span) (clean : Bool) :
    (∃ f s, (deleteSpan P d span neighbour clean).perform e = (.error f, s)) ∨
    ∃ x y z b tracked tracked', e.buffer.text = x ++ y ++ z ∧ span = ⟨x.size, (x ++ y).size⟩ ∧
      Tidied clean x z (e.buffer.splice x y [] z) b tracked tracked' ∧
      (neighbour.mapM (startAfterRemoval d span)).perform (e.buffer.splice x y [] z)
        = (.ok tracked, e.buffer.splice x y [] z) ∧
      (deleteSpan P d span neighbour clean).perform e = (.ok (.deleted span),
        settle P { e with buffer := b, killRing := e.killRing.kill y d }
          (tracked'.getD (min b.point x.size)) (neighbour.map Span.size)) := by
  cases hs : e.buffer.text.slice? span.start span.stop with
  | none => exact .inl ⟨_, _, deleteSpan_of_none hs d neighbour clean⟩
  | some y =>
    obtain ⟨x, z, ht, hx, hy⟩ := Text.slice?_eq_some_iff.1 hs
    obtain rfl : span = ⟨x.size, (x ++ y).size⟩ := by rw [hx, hy]
    rcases deleteSpan_cases ht d neighbour clean with ⟨s, hf⟩ | ⟨b, tracked, tracked', hb, hn, hp⟩
    · exact .inl ⟨_, s, hf⟩
    · exact .inr ⟨x, y, z, b, tracked, tracked', ht, rfl, hb, hn, hp⟩

/-- What is true of a deletion that reports a span. -/
theorem deleteSpan_eq_deleted {d : Direction} {span s : Span} {neighbour : Option Span}
    {clean : Bool} (h : (deleteSpan P d span neighbour clean).perform e = (.ok (.deleted s), e')) :
    ∃ x y z b tracked tracked', e.buffer.text = x ++ y ++ z ∧ s = ⟨x.size, (x ++ y).size⟩ ∧
      span = s ∧ Tidied clean x z (e.buffer.splice x y [] z) b tracked tracked' ∧
      (neighbour.mapM (startAfterRemoval d s)).perform (e.buffer.splice x y [] z)
        = (.ok tracked, e.buffer.splice x y [] z) ∧
      e' = settle P { e with buffer := b, killRing := e.killRing.kill y d }
        (tracked'.getD (min b.point x.size)) (neighbour.map Span.size) := by
  rcases deleteSpan_outcome P e d span neighbour clean with
    ⟨f, g, hf⟩ | ⟨x, y, z, b, tracked, tracked', ht, hs, hb, hn, hp⟩
  · rw [hf] at h
    simp at h
  · rw [hp] at h
    obtain ⟨h₁, rfl⟩ := Prod.mk.inj h
    obtain rfl : span = s := by simpa using h₁
    exact ⟨x, y, z, b, tracked, tracked', ht, hs, rfl, hb, hn, rfl⟩

/-- Without a node in focus nothing is deleted. -/
theorem perform_deleteForward (P : Parser) (e : Engine) (count : Nat) (keep : Bool) :
    (deleteForward P count keep).perform e = match (e.focus P).1 with
      | none => (.ok .nothing, (e.focus P).2)
      | some a =>
        (deleteSpan P .forward (forwardSpan (e.tree P) a count)
          (((e.tree P).next? (Tree.nth (e.tree P).next? (max count 1) a)).map (e.tree P).spanAt)
          !keep).perform (e.focus P).2 := by
  unfold deleteForward
  rw [Action.perform_bind_of_ok (Action.perform_get e)]
  dsimp only
  rw [Action.perform_bind_of_ok (Action.perform_set _ _), focus_tree]
  cases (e.focus P).1 <;> rfl

theorem perform_deleteBackward (P : Parser) (e : Engine) (count : Nat) :
    (deleteBackward P count).perform e = match (e.focus P).1 with
      | none => (.ok .nothing, (e.focus P).2)
      | some a =>
        (deleteSpan P .backward (backwardSpan (e.tree P) a count)
          (((e.tree P).previous? (Tree.nth (e.tree P).previous? (max count 1) a)).map
            (e.tree P).spanAt) true).perform (e.focus P).2 := by
  unfold deleteBackward
  rw [Action.perform_bind_of_ok (Action.perform_get e)]
  dsimp only
  rw [Action.perform_bind_of_ok (Action.perform_set _ _), focus_tree]
  cases (e.focus P).1 <;> rfl

/-- A copy takes the text of a span from the node in focus on. -/
theorem yank_eq (P : Parser) (e : Engine) (count : Nat) : e.yank P count =
    match (e.focus P).1 with
    | none => (.nothing, (e.focus P).2)
    | some a =>
      let span := forwardSpan (e.tree P) a count
      match e.buffer.text.slice? span.start span.stop with
      | none => (.nothing, (e.focus P).2)
      | some t => (.yanked span, { (e.focus P).2 with killRing := e.killRing.copy t }) := by
  have ht : (e.focus P).2.tree P = e.tree P := focus_tree e
  have hb : (e.focus P).2.buffer = e.buffer := focus_buffer e
  have hk : (e.focus P).2.killRing = e.killRing := focus_killRing e
  unfold yank
  rw [← ht, ← hb, ← hk]
  cases e.focus P with
  | mk a e₁ => cases a <;> rfl

/-! ## Nothing else is lost -/

/-- The engine `e'` is `e` after a deletion of the span: the text `r` of the span is gone and the
ring has recorded it. If `clean` is set, so is the line `l` where `r` stood, provided that it is
blank and some text was left. What is not blank was in `r` or is still there. -/
def Deletes (d : Direction) (clean : Bool) (span : Span) (e e' : Engine) : Prop :=
  ∃ (a r b : Text) (l : Line),
    e.buffer.text = a ++ r ++ b ∧ a.size = span.start ∧ (a ++ r).size = span.stop ∧
    e.killRing.Records r d e'.killRing.entries ∧
    l.Delimits (a ++ b) span.start ∧
    e'.buffer.text =
      (if clean = true ∧ a ++ b ≠ [] ∧ l.isBlank = true then l.rest else a ++ b) ∧
    e'.buffer.text.solid = a.solid ++ b.solid

theorem deletes_of_deleteSpan {d : Direction} {span s : Span} {neighbour : Option Span}
    {clean : Bool} (h : (deleteSpan P d span neighbour clean).perform e = (.ok (.deleted s), e')) :
    Deletes d clean s e e' := by
  obtain ⟨a, r, b, b', t, t', ht, rfl, -, hb, -, rfl⟩ := deleteSpan_eq_deleted h
  have hl := Text.delimits_lineBetween a b
  have ht' : (e.buffer.splice a r [] b).text = a ++ b := by
    rw [Buffer.splice_text ht, List.append_nil]
  refine ⟨a, r, b, Text.lineBetween a b, ht, rfl, rfl, ?_, hl, ?_⟩
  · rw [settle_killRing]
    exact e.killRing.kill_records r d
  · rw [settle_text, ← Text.solid_append]
    rcases hb.text ht' with ⟨hn, hx⟩ | ⟨hc, hn, hx⟩
    · exact ⟨hx.trans (if_neg hn).symm, congrArg Text.solid hx⟩
    · have hk : b'.text.solid = (a ++ b).solid := by rw [hx, hl.solid_rest hn.2]
      exact ⟨hx.trans (if_pos ⟨hc, hn⟩).symm, hk⟩

/-- A deletion that reports a span has taken the text of that span, recorded it in the ring, and
lost nothing else but one blank line with one newline; and that only if it was to clean up. -/
theorem deletion_exact (P : Parser) (e e' : Engine) (span : Span) :
    (∀ count keep, (deleteForward P count keep).perform e = (.ok (.deleted span), e') →
      Deletes .forward (!keep) span e e') ∧
    (∀ count, (deleteBackward P count).perform e = (.ok (.deleted span), e') →
      Deletes .backward true span e e') := by
  -- Looking for the node in focus touches neither the text nor the ring.
  have frame : ∀ d clean, Deletes d clean span (e.focus P).2 e' → Deletes d clean span e e' := by
    intro d clean h
    unfold Deletes at h ⊢
    rwa [focus_buffer, focus_killRing] at h
  constructor
  · intro count keep h
    rw [perform_deleteForward] at h
    cases hf : (e.focus P).1 with
    | none =>
      rw [hf] at h
      simp at h
    | some a =>
      rw [hf] at h
      exact frame _ _ (deletes_of_deleteSpan h)
  · intro count h
    rw [perform_deleteBackward] at h
    cases hf : (e.focus P).1 with
    | none =>
      rw [hf] at h
      simp at h
    | some a =>
      rw [hf] at h
      exact frame _ _ (deletes_of_deleteSpan h)

/-- Point stands at a letter that is alone on its line, right behind a deletion. -/
def indented : Engine where
  buffer := ⟨['a', '\n', ' ', ' ', 'b', '\n', 'c'], 4, 0, .json⟩
  cursor := .empty .silent
  killRing := ⟨[['x']], 60, some .kill⟩
  keepEmptyLines := false

/-- Either way the letter joins the newest entry and its line goes. -/
theorem deletion_exact_indented :
    (∃ e', (deleteForward .letters 1 false).perform indented = (.ok (.deleted ⟨4, 5⟩), e') ∧
      e'.buffer.text = ['a', '\n', 'c'] ∧ e'.killRing.entries = [['x', 'b']] ∧
      Deletes .forward true ⟨4, 5⟩ indented e') ∧
    ∃ e', (deleteBackward .letters 1).perform indented = (.ok (.deleted ⟨4, 5⟩), e') ∧
      e'.buffer.text = ['a', '\n', 'c'] ∧ e'.killRing.entries = [['b', 'x']] ∧
      Deletes .backward true ⟨4, 5⟩ indented e' :=
  ⟨⟨_, rfl, rfl, rfl, (deletion_exact .letters indented _ ⟨4, 5⟩).1 1 false rfl⟩,
    ⟨_, rfl, rfl, rfl, (deletion_exact .letters indented _ ⟨4, 5⟩).2 1 rfl⟩⟩

end Engine

end TreeEdit
