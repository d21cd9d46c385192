import TreeEdit.Proofs.Reachable
import TreeEdit.Proofs.Tree.Siblings
/-!
# Deletions that delete nothing

A deletion that reports a span should have taken some text. But a movement can select an
empty node, and a deletion from there may meet nothing but empty nodes at one place. It
reports the empty span all the same, and the ring gets an empty text.
`deletion_effective_iff` says that this is the only exception, and `deletion_vacuous` shows
it behind a missing token.
-/

namespace TreeEdit

theorem Span.eq_place_iff {s : Span} {p : Nat} : s = ⟨p, p⟩ ↔ s.start = p ∧ s.stop = p := by
  cases s
  exact Span.mk.injEq _ _ _ _ ▸ Iff.rfl

/-! ## The span of a deletion -/

namespace Tree

/-- The first `n` nodes of a walk are empty nodes at the place where it starts. -/
def EmptyWalk (t : Tree) (step : Address → Option Address) (n : Nat) (a : Address) : Prop :=
  ∀ i < n, t.spanAt (walk step i a) = ⟨t.startAt a, t.startAt a⟩

instance (t : Tree) (step : Address → Option Address) (n : Nat) (a : Address) :
    Decidable (t.EmptyWalk step n a) := Nat.decidableBallLT _ _

end Tree

namespace Engine

open TreeEdit.Tree

variable {t : Tree} {a : Address}

theorem forwardSpan_lt_iff (ho : t.Ordered) (count : Nat) :
    (forwardSpan t a count).start < (forwardSpan t a count).stop ↔
      ¬ t.EmptyWalk t.next? (max count 1) a := by
  constructor
  · intro hlt hall
    have hl := hall (max count 1 - 1) (by omega)
    simp only [forwardSpan, nth, hl] at hlt
    omega
  · intro hn
    simp only [EmptyWalk, not_forall] at hn
    obtain ⟨i, hi, hne⟩ := hn
    rw [Span.eq_place_iff] at hne
    -- A node of the walk that is not an empty one at the start reaches behind it.
    have hs := ho.start_le_walk i a
    have hle := ho.spanAt_le (walk t.next? i a)
    have hw := ho.stop_le_walk (max count 1 - 1 - i) (walk t.next? i a)
    rw [← walk_add, show i + (max count 1 - 1 - i) = max count 1 - 1 by omega] at hw
    simp only [forwardSpan, nth, startAt] at hne ⊢
    omega

theorem backwardSpan_lt_iff (ho : t.Ordered) (ha : t.has a = true) (count : Nat) :
    (backwardSpan t a count).start < (backwardSpan t a count).stop ↔
      ¬ t.EmptyWalk t.previous? (max count 1) a := by
  constructor
  · intro hlt hall
    have hl := hall (max count 1 - 1) (by omega)
    have h0 : t.spanAt a = ⟨t.startAt a, t.startAt a⟩ := hall 0 (by omega)
    simp only [backwardSpan, nth, startAt] at hl h0 hlt
    rw [hl, h0] at hlt
    exact Nat.lt_irrefl _ hlt
  · intro hn
    simp only [EmptyWalk, not_forall] at hn
    obtain ⟨i, hi, hne⟩ := hn
    rw [Span.eq_place_iff] at hne
    have hh : t.has (walk t.previous? i a) = true :=
      walk_induct (M := fun b => t.has b = true) (fun _ _ => has_previous) i a ha
    have hs := ho.walk_start_le i ha
    have ht := ho.walk_stop_le i ha
    have hla := ho.spanAt_le a
    have hle := ho.spanAt_le (walk t.previous? i a)
    have hw := ho.walk_start_le (max count 1 - 1 - i) hh
    rw [← walk_add, show i + (max count 1 - 1 - i) = max count 1 - 1 by omega] at hw
    simp only [backwardSpan, nth, startAt] at hne ⊢
    omega

end Engine

/-! ## What a deletion changes -/

theorem Buffer.le_revision_splice (b : Buffer) (x y new z : Text) :
    b.revision ≤ (b.splice x y new z).revision := by
  unfold splice
  split
  · exact Nat.le_refl _
  · exact Nat.le_succ _

namespace Engine

variable {P : Parser} {e e' : Engine} {d : Direction} {span s : Span} {clean : Bool}

theorem Tidied.revision_le {x z : Text} {b b' : Buffer} {tracked tracked' : Option Nat}
    (h : Tidied clean x z b b' tracked tracked') : b.revision ≤ b'.revision := by
  rcases h with ⟨-, rfl, -⟩ | ⟨-, -, -, u, v, w, -, -, -, rfl⟩
  · exact Nat.le_refl _
  · exact b.le_revision_splice u v [] w

/-- The deletion took some text: its span is not empty, the revision has gone up, and the ring has
recorded a text that is not empty. -/
structure Effective (d : Direction) (span : Span) (e e' : Engine) : Prop where
  lt : span.start < span.stop
  revision : e.buffer.revision < e'.buffer.revision
  killed : ∃ r, e.buffer.text.slice? span.start span.stop = some r ∧ r ≠ [] ∧
    e.killRing.Records r d e'.killRing.entries

/-- A deletion that reports a span is effective unless the span is empty. -/
theorem deleteSpan_effective_iff {neighbour : Option Span}
    (h : (deleteSpan P d span neighbour clean).perform e = (.ok (.deleted s), e')) :
    Effective d s e e' ↔ span.start < span.stop := by
  obtain ⟨x, y, z, b, t, t', ht, rfl, rfl, hb, -, rfl⟩ := deleteSpan_eq_deleted h
  refine ⟨fun he => he.lt, fun hlt => ?_⟩
  have hy : y ≠ [] := by
    rintro rfl
    rw [List.append_nil] at hlt
    exact Nat.lt_irrefl _ hlt
  refine ⟨hlt, ?_, y, Text.slice?_eq_some_iff.2 ⟨x, z, ht, rfl, rfl⟩, hy, ?_⟩
  · rw [settle_revision]
    refine Nat.lt_of_lt_of_le ?_ hb.revision_le
    rw [Buffer.splice, if_neg hy]
    exact Nat.lt_succ_self _
  · rw [settle_killRing]
    exact e.killRing.kill_records y d

/-- Looking for the node in focus makes no difference to a deletion. -/
theorem effective_focus : Effective d s (e.focus P).2 e' ↔ Effective d s e e' := by
  constructor
  · rintro ⟨hlt, hr, hk⟩
    rw [focus_buffer] at hr hk
    rw [focus_killRing] at hk
    exact ⟨hlt, hr, hk⟩
  · rintro ⟨hlt, hr, hk⟩
    refine ⟨hlt, ?_, ?_⟩
    · rwa [focus_buffer]
    · rwa [focus_buffer, focus_killRing]

theorem deleteSpan_ne_nothing {neighbour : Option Span} :
    (deleteSpan P d span neighbour clean).perform e ≠ (.ok .nothing, e') := by
  rcases deleteSpan_outcome P e d span neighbour clean with
    ⟨f, g, hf⟩ | ⟨x, y, z, b, t, t', -, -, -, -, hp⟩
  · simp [hf]
  · simp [hp]

/-- What a deletion from the node in focus reports, and what is true of it. -/
theorem reports_of_focus (s : Span) (e' : Engine) {x : Action Engine EditOutcome}
    {span : Address → Span} {neighbour : Address → Option Span}
    (hx : x.perform e = match (e.focus P).1 with
      | none => (.ok .nothing, (e.focus P).2)
      | some a => (deleteSpan P d (span a) (neighbour a) clean).perform (e.focus P).2) :
    (x.perform e = (.ok (.deleted s), e') → ∃ a, (e.focus P).1 = some a ∧
      (Effective d s e e' ↔ (span a).start < (span a).stop)) ∧
    (x.perform e = (.ok .nothing, e') → e'.buffer = e.buffer ∧ e'.killRing = e.killRing) := by
  rw [hx]
  cases ha : (e.focus P).1 with
  | none =>
    refine ⟨fun h => by simp at h, fun h => ?_⟩
    obtain ⟨-, rfl⟩ := Prod.mk.inj h
    exact ⟨focus_buffer e, focus_killRing e⟩
  | some a =>
    refine ⟨fun h => ⟨a, rfl, ?_⟩, fun h => (deleteSpan_ne_nothing h).elim⟩
    rw [← effective_focus (P := P)]
    exact deleteSpan_effective_iff h

/-- A deletion that reports a span took some text, advanced the revision and recorded the text,
unless all the nodes it reached over are empty nodes at one place; and a deletion that reports
nothing has changed neither the buffer nor the ring. -/
theorem deletion_effective_iff (ho : (e.tree P).Ordered) (s : Span) (e' : Engine) (count : Nat) :
    (∀ keep, (deleteForward P count keep).perform e = (.ok (.deleted s), e') →
      ∃ a, (e.focus P).1 = some a ∧ (Effective .forward s e e' ↔
        ¬ (e.tree P).EmptyWalk (e.tree P).next? (max count 1) a)) ∧
    ((deleteBackward P count).perform e = (.ok (.deleted s), e') →
      ∃ a, (e.focus P).1 = some a ∧ (Effective .backward s e e' ↔
        ¬ (e.tree P).EmptyWalk (e.tree P).previous? (max count 1) a)) ∧
    (∀ keep, (deleteForward P count keep).perform e = (.ok .nothing, e') →
      e'.buffer = e.buffer ∧ e'.killRing = e.killRing) ∧
    ((deleteBackward P count).perform e = (.ok .nothing, e') →
      e'.buffer = e.buffer ∧ e'.killRing = e.killRing) := by
  have hf (keep : Bool) := reports_of_focus s e' (perform_deleteForward P e count keep)
  have hb := reports_of_focus s e' (perform_deleteBackward P e count)
  refine ⟨fun keep h => ?_, fun h => ?_, fun keep => (hf keep).2, hb.2⟩
  · obtain ⟨a, ha, hiff⟩ := (hf keep).1 h
    exact ⟨a, ha, hiff.trans (forwardSpan_lt_iff ho count)⟩
  · obtain ⟨a, ha, hiff⟩ := hb.1 h
    exact ⟨a, ha, hiff.trans (backwardSpan_lt_iff ho (has_of_focus ha) count)⟩

end Engine

/-! ## A missing token -/

/-- The tree of a text that gives a name a value. The value is missing if its span is empty. -/
def Tree.assignment (value : Span) : Tree :=
  let token (start : Nat) : Tree := .node ⟨"token", false, false, false, ⟨start, start + 1⟩⟩ []
  let name (s : Span) : Tree := .node ⟨"name", true, false, s.isEmpty, s⟩ []
  let around (kind : String) (ts : List Tree) : Tree :=
    .node ⟨kind, true, false, false, ⟨0, value.stop + 1⟩⟩ ts
  around "document" [around "assignment" [name ⟨0, 1⟩, token 1, name value, token value.stop]]

/-- A parser that knows one such text, with the value and without it. -/
def Parser.assignment : Parser :=
  .knowing [(['a', '=', 'b', ';'], .assignment ⟨2, 3⟩), (['a', '=', ';'], .assignment ⟨2, 2⟩)]

theorem Parser.wellFormed_assignment : assignment.WellFormed := wellFormed_knowing (by decide)

namespace Engine

/-- The value has been deleted, and the missing one is selected. -/
def onMissing : Engine where
  buffer := ⟨['a', '=', ';'], 2, 1, .typeScript⟩
  cursor := ⟨some ⟨[2, 0], ⟨2, 2⟩, "name", 1⟩, some ⟨2, 2⟩, .silent⟩
  killRing := ⟨[['b']], 60, none⟩
  keepEmptyLines := false

/-- A deletion backward selects the name before the value, and a step gets from there to the missing
value. -/
theorem reachable_onMissing : Session.Reachable .assignment ⟨onMissing, .start .modal []⟩ :=
  ⟨.ofBuffer (.ofText ['a', '=', 'b', ';'] .typeScript) .silent,
    [.setPoint 2, .deleteBackward 1, .move .next 1], .plain _ _ _ _, rfl⟩

/-- From the missing value, a deletion of two nodes backward is effective: the name is one of
them. -/
theorem deletion_effective_iff_missing :
    (onMissing.focus .assignment).1 = some [2, 0] ∧
    (onMissing.tree .assignment).spanAt [2, 0] = ⟨2, 2⟩ ∧
    ∃ e', (deleteBackward .assignment 2).perform onMissing = (.ok (.deleted ⟨0, 2⟩), e') ∧
      Effective .backward ⟨0, 2⟩ onMissing e' := by
  have ho : (onMissing.tree .assignment).Ordered := (Parser.wellFormed_assignment _ _).ordered
  have hf : (onMissing.focus .assignment).1 = some [2, 0] := rfl
  obtain ⟨e', hd⟩ : ∃ e', (deleteBackward .assignment 2).perform onMissing
      = (.ok (.deleted ⟨0, 2⟩), e') := ⟨_, rfl⟩
  obtain ⟨a, ha, hiff⟩ := (deletion_effective_iff ho ⟨0, 2⟩ e' 2).2.1 hd
  obtain rfl := Option.some.inj (hf.symm.trans ha)
  exact ⟨hf, rfl, e', hd, hiff.2 (by decide)⟩

/-- A deletion of the missing value alone reports a span, but the text and the revision are the same
as before, and the ring has a new entry that is empty. -/
theorem deletion_vacuous :
    Parser.assignment.WellFormed ∧
    Session.Reachable .assignment ⟨onMissing, .start .modal []⟩ ∧
    (deleteForward .assignment 1 false).perform onMissing = (.ok (.deleted ⟨2, 2⟩),
      { onMissing with
        cursor := .empty .silent
        killRing := ⟨[[], ['b']], 60, some .kill⟩ }) :=
  ⟨Parser.wellFormed_assignment, reachable_onMissing, rfl⟩

end Engine

end TreeEdit
