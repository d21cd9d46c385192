import TreeEdit.Proofs.Engine.Highlight
import TreeEdit.Proofs.KillRing
import TreeEdit.Proofs.Totality
/-!
# Which deletions share an entry

Two deletions share an entry of the kill ring as long as nothing in between breaks the
sequence. A movement and a jump always do, and so do a copy and a paste that have something
to work on (`Event.Breaks`). A question never does. A copy or a paste that finds nothing does
not either, but then a deletion finds nothing as well, until point is moved
(`Runs.broken_of_idle`).

`Touches` is the account of what one command does to the ring. Over a run of commands that do
not break the sequence the newest entry grows at its ends (`Runs.grows`). From a break on, the
entries that were there before are never changed again, and at most as many come on top of them
as the commands report (`Runs.sealed`). `deletions_share` puts the two together for any two
deletions of a run, and `question_shares` shows two deletions with a question between them that
end up in one entry.
-/

namespace TreeEdit

/-! ## Commands -/

/-- The direction that a command deletes in, if it is one that deletes. -/
def Command.direction? : Command → Option Direction
  | delete _ | deleteKeep _ => some .forward
  | deleteBack _ => some .backward
  | _ => none

/-- The command is neither a deletion nor a question. -/
def Command.isOther : Command → Bool
  | move _ _ | goto _ | yank _ | paste _ _ => true
  | delete _ | deleteKeep _ | deleteBack _ | query _ => false

namespace Engine

/-- A command with its answer. -/
abbrev Event := Command × Except Failure CommandOutcome

namespace Event

/-- The command reports that it has deleted something. -/
def Deletes (x : Event) : Prop := ∃ s, x.2 = .ok (.edited (.deleted s))

/-- The command reports that it has deleted or copied something. -/
def records : Event → Bool
  | (_, .ok (.edited (.deleted _))) | (_, .ok (.edited (.yanked _))) => true
  | _ => false

/-- The command ends the sequence of deletions. -/
def Breaks : Event → Prop
  | (.move _ _, _) | (.goto _, _) => True
  | (.yank _, r) | (.paste _ _, r) => r ≠ .ok (.edited .nothing)
  | (.query _, _) | (.delete _, _) | (.deleteKeep _, _) | (.deleteBack _, _) => False

end Event

/-- A row of commands with their answers, from one engine to another. A fault would end it. -/
inductive Runs (P : Parser) : Engine → List Event → Engine → Prop
  | nil {e : Engine} : Runs P e [] e
  | cons {e e₁ e₂ : Engine} {c : Command} {r : Except Failure CommandOutcome} {log : List Event} :
      (execute P c).perform e = (r, e₁) → (∀ f, r ≠ .error (.fault f)) → Runs P e₁ log e₂ →
      Runs P e ((c, r) :: log) e₂

/-- What a command does to the ring of an engine. -/
inductive Touches (e : Engine) : Event → KillRing → Prop
  | kill {c : Command} {d : Direction} {s : Span} {t : Text} : c.direction? = some d →
      e.buffer.text.slice? s.start s.stop = some t →
      Touches e (c, .ok (.edited (.deleted s))) (e.killRing.kill t d)
  | spare {x : Event} : ¬ x.Breaks → ¬ x.Deletes → Touches e x e.killRing
  | breakSequence {x : Event} : x.Breaks → ¬ x.Deletes → Touches e x e.killRing.breakSequence
  | copy {x : Event} {t : Text} : x.Breaks → ¬ x.Deletes → x.records = true →
      Touches e x (e.killRing.copy t)

variable {P : Parser} {e e' : Engine}

/-! ## One command -/

theorem not_breaks_of_isOther {x : Event} (h : x.1.isOther = false) : ¬ x.Breaks := by
  obtain ⟨c, r⟩ := x
  cases c with
  | delete | deleteKeep | deleteBack | query => exact id
  | move | goto | yank | paste => simp [Command.isOther] at h

theorem not_breaks {c : Command} {d : Direction} (hc : c.direction? = some d)
    (r : Except Failure CommandOutcome) : ¬ Event.Breaks (c, r) := by
  refine not_breaks_of_isOther ?_
  cases c with
  | delete | deleteKeep | deleteBack | query => rfl
  | move | yank | paste | goto => simp [Command.direction?] at hc

/-- A command is answered as the operation that it names. -/
theorem perform_execute (P : Parser) (c : Command) (e : Engine) : (execute P c).perform e =
    match c with
    | .move m n => (.ok (.moved (e.move P m n).1), (e.move P m n).2)
    | .delete n => ((deleteForward P n e.keepEmptyLines).perform e).map (Except.map .edited) id
    | .deleteKeep n => ((deleteForward P n true).perform e).map (Except.map .edited) id
    | .deleteBack n => ((deleteBackward P n).perform e).map (Except.map .edited) id
    | .yank n => (.ok (.edited (e.yank P n).1), (e.yank P n).2)
    | .paste n p => ((paste P n p).perform e).map (Except.map .edited) id
    | .query p => (.ok (.answered (e.ask P p).1), (e.ask P p).2)
    | .goto o => (.ok (.jumped (e.setPoint o).buffer.point), e.setPoint o) := by
  have edited (x : Action Engine EditOutcome) :
      (do return CommandOutcome.edited (← x) : Action Engine CommandOutcome).perform e
        = (x.perform e).map (Except.map .edited) id := by
    rw [Action.perform_bind]
    cases x.perform e with
    | mk r e' => cases r <;> rfl
  cases c with
  | move | yank | query | goto => rfl
  | delete n => exact edited (deleteForward P n e.keepEmptyLines)
  | deleteKeep n => exact edited (deleteForward P n true)
  | deleteBack n => exact edited (deleteBackward P n)
  | paste n p => exact edited (paste P n p)

/-- The answer of a deletion from a span on, in the words of a command. -/
theorem touches_deleteSpan {c : Command} {d : Direction} (hc : c.direction? = some d) {span : Span}
    {neighbour : Option Span} {clean : Bool} {r : Except Failure EditOutcome}
    (h : (deleteSpan P d span neighbour clean).perform e = (r, e'))
    (hf : ∀ f, r ≠ .error (.fault f)) : Touches e (c, r.map .edited) e'.killRing := by
  cases hs : e.buffer.text.slice? span.start span.stop with
  | none =>
    rw [deleteSpan_of_none hs] at h
    obtain ⟨rfl, rfl⟩ := Prod.mk.inj h
    exact .spare (not_breaks hc _) fun ⟨_, hr⟩ => nomatch hr
  | some t =>
    obtain ⟨a, b, ht, ha, hst⟩ := Text.slice?_eq_some_iff.1 hs
    have hspan : span = ⟨a.size, (a ++ t).size⟩ := by rw [ha, hst]
    subst hspan
    rcases deleteSpan_cases (P := P) ht d neighbour clean with ⟨f, hp⟩ | ⟨b', _, _, -, -, hp⟩
    · rw [hp] at h
      exact absurd (Prod.mk.inj h).1.symm (hf _)
    · rw [hp] at h
      obtain ⟨rfl, rfl⟩ := Prod.mk.inj h
      rw [settle_killRing]
      exact .kill hc hs

/-- Looking for the node in focus touches neither the text nor the ring. -/
theorem Touches.of_focus {x : Event} {r : KillRing} (h : Touches (e.focus P).2 x r) :
    Touches e x r := by
  have hk : (e.focus P).2.killRing = e.killRing := focus_killRing e
  cases h with
  | kill hc hs =>
    rw [focus_buffer] at hs
    rw [hk]
    exact .kill hc hs
  | spare hb hd =>
    rw [hk]
    exact .spare hb hd
  | breakSequence hb hd =>
    rw [hk]
    exact .breakSequence hb hd
  | copy hb hd hr =>
    rw [hk]
    exact .copy hb hd hr

theorem ne_fault_of_map {r : Except Failure EditOutcome}
    (h : ∀ f, r.map CommandOutcome.edited ≠ .error (.fault f)) (f : Fault) :
    r ≠ .error (.fault f) := by
  rintro rfl
  exact h f rfl

/-- Without a node in focus nothing is deleted, and the ring is spared. -/
theorem touches_deletion {c : Command} {d : Direction} (hc : c.direction? = some d)
    {span : Address → Span} {neighbour : Address → Option Span} {clean : Bool}
    {r : Except Failure EditOutcome}
    (h : (match (e.focus P).1 with
      | none => (.ok .nothing, (e.focus P).2)
      | some a => (deleteSpan P d (span a) (neighbour a) clean).perform (e.focus P).2) = (r, e'))
    (hf : ∀ f, r ≠ .error (.fault f)) : Touches e (c, r.map .edited) e'.killRing := by
  split at h
  · obtain ⟨rfl, rfl⟩ := Prod.mk.inj h
    rw [focus_killRing]
    exact .spare (not_breaks hc _) fun ⟨_, hr⟩ => nomatch hr
  · exact (touches_deleteSpan hc h hf).of_focus

theorem touches_yank (P : Parser) (e : Engine) (n : Nat) :
    Touches e (.yank n, .ok (.edited (e.yank P n).1)) (e.yank P n).2.killRing := by
  have idle : Touches e (.yank n, .ok (.edited .nothing)) (e.focus P).2.killRing := by
    rw [focus_killRing]
    exact .spare (fun h => h rfl) fun ⟨_, hr⟩ => nomatch hr
  rw [yank_eq]
  split
  · exact idle
  · dsimp only
    split
    · exact idle
    · exact .copy (by simp [Event.Breaks]) (fun ⟨_, hr⟩ => nomatch hr) rfl

theorem touches_paste {n : Nat} {p : Placement} {r : Except Failure EditOutcome}
    (h : (paste P n p).perform e = (r, e')) :
    Touches e (.paste n p, r.map .edited) e'.killRing := by
  have idle : Touches e (.paste n p, .ok (.edited .nothing)) e.killRing :=
    .spare (fun h => h rfl) fun ⟨_, hr⟩ => nomatch hr
  rcases paste_cases P e n p with hp | hp | ⟨entry, a, htop, ha, hn⟩
  · obtain ⟨rfl, rfl⟩ := Prod.mk.inj (hp.symm.trans h)
    exact idle
  · obtain ⟨rfl, rfl⟩ := Prod.mk.inj (hp.symm.trans h)
    rw [current_killRing]
    exact idle
  · -- The sequence is broken before the text is changed, so it is even if that fails.
    rw [perform_paste htop ha hn] at h
    dsimp only at h
    have hk : (e.current P).2.breakSequence.killRing = e.killRing.breakSequence := by
      rw [breakSequence, current_killRing]
    split at h
    · obtain ⟨rfl, rfl⟩ := Prod.mk.inj h
      rw [settle_killRing, hk]
      exact .breakSequence (by simp [Event.Breaks, Except.map]) fun ⟨_, hr⟩ => nomatch hr
    · obtain ⟨rfl, rfl⟩ := Prod.mk.inj h
      rw [hk]
      exact .breakSequence (by simp [Event.Breaks, Except.map]) fun ⟨_, hr⟩ => nomatch hr

theorem move_killRing (P : Parser) (e : Engine) (m : Motion) (n : Nat) :
    (e.move P m n).2.killRing = e.killRing.breakSequence := by
  have hk : (e.focus P).2.breakSequence.killRing = e.killRing.breakSequence := by
    rw [breakSequence, focus_killRing]
  cases h : (e.focus P).1 with
  | none => rw [move_of_no_focus h, hk]
  | some a =>
    rw [move_of_focus h]
    split
    · exact hk
    · exact hk

/-- Whatever is answered, short of a fault, the ring is touched as the account says. -/
theorem touches_execute {c : Command} {r : Except Failure CommandOutcome}
    (h : (execute P c).perform e = (r, e')) (hf : ∀ f, r ≠ .error (.fault f)) :
    Touches e (c, r) e'.killRing := by
  rw [perform_execute] at h
  cases c with
  | delete n =>
    obtain ⟨rfl, rfl⟩ := Prod.mk.inj h
    exact touches_deletion rfl (perform_deleteForward P e n e.keepEmptyLines).symm
      (ne_fault_of_map hf)
  | deleteKeep n =>
    obtain ⟨rfl, rfl⟩ := Prod.mk.inj h
    exact touches_deletion rfl (perform_deleteForward P e n true).symm (ne_fault_of_map hf)
  | deleteBack n =>
    obtain ⟨rfl, rfl⟩ := Prod.mk.inj h
    exact touches_deletion rfl (perform_deleteBackward P e n).symm (ne_fault_of_map hf)
  | move m n =>
    obtain ⟨rfl, rfl⟩ := Prod.mk.inj h
    rw [move_killRing]
    exact .breakSequence trivial fun ⟨_, hr⟩ => nomatch hr
  | yank n =>
    obtain ⟨rfl, rfl⟩ := Prod.mk.inj h
    exact touches_yank P e n
  | paste n p =>
    obtain ⟨rfl, rfl⟩ := Prod.mk.inj h
    exact touches_paste rfl
  | query p =>
    obtain ⟨rfl, rfl⟩ := Prod.mk.inj h
    rw [ask_snd, focus_killRing]
    exact .spare id fun ⟨_, hr⟩ => nomatch hr
  | goto o =>
    obtain ⟨rfl, rfl⟩ := Prod.mk.inj h
    exact .breakSequence trivial fun ⟨_, hr⟩ => nomatch hr

namespace Touches

variable {x : Event} {r : KillRing}

theorem grown (h : Touches e x r) (hb : ¬ x.Breaks) {top : Text} {rest : List Text}
    (hg : e.killRing.Grown top rest) : r.Grown top rest := by
  cases h with
  | kill => exact hg.kill _ _
  | spare => exact hg
  | breakSequence hb' | copy hb' => exact absurd hb' hb

/-- Without a deletion that reports something no sequence begins. -/
theorem latest_ne (h : Touches e x r) (hd : ¬ x.Deletes)
    (hl : e.killRing.latest ≠ some .kill) : r.latest ≠ some .kill := by
  cases h with
  | kill => exact absurd ⟨_, rfl⟩ hd
  | spare => exact hl
  | breakSequence | copy => exact nofun

/-- Entries that are closed stay closed, and none comes without a report. -/
theorem sealed (h : Touches e x r) {ring : KillRing} {n : Nat} (hs : ring.Sealed n e.killRing) :
    ring.Sealed (n + [x].countP Event.records) r := by
  cases h with
  | kill => exact hs.kill _ _
  | spare => exact hs.mono (Nat.le_add_right _ _)
  | breakSequence => exact hs.breakSequence.mono (Nat.le_add_right _ _)
  | copy _ _ hr =>
    rw [List.countP_singleton, if_pos hr]
    exact hs.copy _

theorem entries_ne (h : Touches e x r) (hn : e.killRing.entries ≠ []) : r.entries ≠ [] := by
  cases h with
  | @kill _ d _ t =>
    obtain ⟨top, rest, he⟩ := e.killRing.exists_entries_kill t d
    simp [he]
  | spare | breakSequence => exact hn
  | copy => simp [KillRing.copy, KillRing.push]

/-- A break closes all entries. -/
theorem closes (h : Touches e x r) (hb : x.Breaks) :
    e.killRing.Sealed ([x].countP Event.records) r ∧ r.latest ≠ some .kill := by
  cases h with
  | kill hc => exact absurd hb (not_breaks hc _)
  | spare hb' => exact absurd hb hb'
  | breakSequence => exact ⟨e.killRing.sealed_breakSequence.mono (Nat.zero_le _), nofun⟩
  | copy _ _ hr =>
    rw [List.countP_singleton, if_pos hr]
    exact ⟨e.killRing.sealed_copy _, nofun⟩

end Touches

/-! ## Rows of commands -/

namespace Runs

theorem split {pre log : List Event} (h : Runs P e (pre ++ log) e') :
    ∃ e₁, Runs P e pre e₁ ∧ Runs P e₁ log e' := by
  induction pre generalizing e with
  | nil => exact ⟨e, .nil, h⟩
  | cons x pre ih =>
    cases h with
    | cons hx hf hr =>
      obtain ⟨e₁, h₁, h₂⟩ := ih hr
      exact ⟨e₁, .cons hx hf h₁, h₂⟩

/-- What every command of a kind leaves true of the ring, a row of them leaves true. -/
theorem keeps {I : KillRing → Prop} {Q : Event → Prop}
    (step : ∀ {e x r}, Touches e x r → Q x → I e.killRing → I r) {log : List Event}
    (h : Runs P e log e') (hq : ∀ x ∈ log, Q x) (hi : I e.killRing) : I e'.killRing := by
  induction h with
  | nil => exact hi
  | cons hx hf _ ih =>
    obtain ⟨hq, hqs⟩ := List.forall_mem_cons.1 hq
    exact ih hqs (step (touches_execute hx hf) hq hi)

variable {log : List Event} (h : Runs P e log e')
include h

/-- If no command breaks the sequence, the entry that was growing still is, and all others are as
before. -/
theorem grows (hb : ∀ x ∈ log, ¬ x.Breaks) {top : Text} {rest : List Text}
    (hg : e.killRing.Grown top rest) : e'.killRing.Grown top rest :=
  h.keeps (fun ht hb hg => ht.grown hb hg) hb hg

theorem latest_ne (hd : ∀ x ∈ log, ¬ x.Deletes) (hl : e.killRing.latest ≠ some .kill) :
    e'.killRing.latest ≠ some .kill :=
  h.keeps (I := fun r => r.latest ≠ some .kill) (fun ht hd hl => ht.latest_ne hd hl) hd hl

theorem sealed {ring : KillRing} {n : Nat} (hs : ring.Sealed n e.killRing) :
    ring.Sealed (n + log.countP Event.records) e'.killRing := by
  induction h generalizing n with
  | nil => exact hs
  | @cons _ _ _ c r log hx hf _ ih =>
    have hrow := ih ((touches_execute hx hf).sealed hs)
    rwa [Nat.add_assoc, ← List.countP_append] at hrow

theorem entries_ne (hn : e.killRing.entries ≠ []) : e'.killRing.entries ≠ [] :=
  h.keeps (I := fun r => r.entries ≠ []) (fun ht _ hn => ht.entries_ne hn) (fun _ _ => trivial) hn

end Runs

theorem exists_kill {c : Command} {s : Span}
    (h : (execute P c).perform e = (.ok (.edited (.deleted s)), e')) :
    ∃ d t, c.direction? = some d ∧ e.buffer.text.slice? s.start s.stop = some t ∧
      e'.killRing = e.killRing.kill t d := by
  have ht := touches_execute h nofun
  generalize e'.killRing = r at ht
  cases ht with
  | kill hc hs => exact ⟨_, _, hc, hs, rfl⟩
  | spare _ hd | breakSequence _ hd | copy _ hd => exact absurd ⟨s, rfl⟩ hd

/-- At an engine with the ring `ring` a command has broken the sequence, and the row that starts
with it has led to the engine `e'`. -/
inductive Broken (P : Parser) (ring : KillRing) : List Event → Engine → Prop
  | intro {e₁ e₂ e' : Engine} {c : Command} {r : Except Failure CommandOutcome}
      {post : List Event} : e₁.killRing = ring → (execute P c).perform e₁ = (r, e₂) →
      (∀ f, r ≠ .error (.fault f)) → Event.Breaks (c, r) → Runs P e₂ post e' →
      Broken P ring ((c, r) :: post) e'

/-- A deletion that comes after a break is recorded in a newer entry than those before the break,
and in one of its own if it is the first. -/
theorem Broken.above_kill {ring : KillRing} {x : Event} {post : List Event}
    (h : Broken P ring (x :: post) e) (t : Text) (d : Direction) :
    (∃ new news old, ring.Above (d.join new t :: news) old (e.killRing.kill t d) ∧
      news.length ≤ (x :: post).countP Event.records) ∧
    ((∀ y ∈ post, ¬ y.Deletes) → (e.killRing.kill t d).entries = (e.killRing.push t).entries) := by
  cases h with
  | intro hk hx hf hb hr =>
    subst hk
    obtain ⟨hs, hl⟩ := (touches_execute hx hf).closes hb
    have hs' := hr.sealed hs
    rw [← List.countP_append] at hs'
    refine ⟨hs'.above_kill t d, fun hd => ?_⟩
    rw [KillRing.kill_of_other (hr.latest_ne hd hl)]

/-! ## Commands that find nothing -/

/-- Looking again does not find a node that was not found. -/
theorem focus_none (h : (e.focus P).1 = none) : ((e.focus P).2.focus P).1 = none := by
  cases hr : (e.current P).1 with
  | some r =>
    have hc : (e.focus P).2.cursor.currentAt (e.focus P).2.buffer.revision = some r := by
      rw [focus_eq, current_buffer]
      exact currentAt_current hr
    rw [focus_eq, current_of_currentAt hc, focus_tree, focus_buffer]
    rwa [focus_eq, hr] at h
  | none =>
    have hc : e.cursor.currentAt e.buffer.revision = none := by
      cases hc : e.cursor.currentAt e.buffer.revision with
      | none => rfl
      | some r =>
        rw [current_of_currentAt hc] at hr
        cases hr
    rw [current_of_no_currentAt hc] at hr
    dsimp only at hr
    split at hr
    · rename_i hn
      have hs : (e.focus P).2 = e.invalidate := by
        rw [focus_eq, current_of_no_currentAt hc]
        exact congrArg Prod.snd (if_pos hn)
      have hi : e.invalidate.current P = (none, e.invalidate.invalidate) := by
        rw [current_of_no_currentAt rfl]
        exact if_pos hn
      rw [hs, focus_eq, hi]
      rfl
    · cases hr

/-- Without a node in focus there is none later on, unless a command breaks the sequence. -/
theorem idle_execute (h : (e.focus P).1 = none) {c : Command} {r : Except Failure CommandOutcome}
    (hx : (execute P c).perform e = (r, e')) (hb : ¬ Event.Breaks (c, r)) :
    (e'.focus P).1 = none ∧ e'.killRing = e.killRing ∧ ¬ Event.Deletes (c, r) := by
  -- The command has looked for the node at most.
  have hs : (e' = e ∨ e' = (e.focus P).2) ∧ ¬ Event.Deletes (c, r) := by
    rw [perform_execute] at hx
    cases c with
    | move | goto => exact absurd trivial hb
    | delete n | deleteKeep n =>
      dsimp only at hx
      rw [perform_deleteForward, h] at hx
      obtain ⟨rfl, rfl⟩ := Prod.mk.inj hx
      exact ⟨.inr rfl, fun ⟨_, hr⟩ => nomatch hr⟩
    | deleteBack n =>
      dsimp only at hx
      rw [perform_deleteBackward, h] at hx
      obtain ⟨rfl, rfl⟩ := Prod.mk.inj hx
      exact ⟨.inr rfl, fun ⟨_, hr⟩ => nomatch hr⟩
    | yank n =>
      dsimp only at hx
      rw [yank_eq, h] at hx
      obtain ⟨rfl, rfl⟩ := Prod.mk.inj hx
      exact ⟨.inr rfl, fun ⟨_, hr⟩ => nomatch hr⟩
    | query p =>
      obtain ⟨rfl, rfl⟩ := Prod.mk.inj hx
      exact ⟨.inr (ask_snd P e p), fun ⟨_, hr⟩ => nomatch hr⟩
    | paste n p =>
      have hc : (e.current P).2 = (e.focus P).2 := by rw [focus_eq]
      dsimp only at hx
      rcases paste_cases P e n p with hp | hp | ⟨entry, a, -, ha, hn⟩
      · rw [hp] at hx
        obtain ⟨rfl, rfl⟩ := Prod.mk.inj hx
        exact ⟨.inl rfl, fun ⟨_, hr⟩ => nomatch hr⟩
      · rw [hp] at hx
        obtain ⟨rfl, rfl⟩ := Prod.mk.inj hx
        exact ⟨.inr hc, fun ⟨_, hr⟩ => nomatch hr⟩
      · rw [focus_eq, ha] at h
        simp [show a.resolve (e.tree P) e.buffer.revision = none from h] at hn
  obtain ⟨rfl | rfl, hd⟩ := hs
  · exact ⟨h, rfl, hd⟩
  · exact ⟨focus_none h, focus_killRing e, hd⟩

/-- If there is no node in focus and something is deleted later, the sequence was broken first. -/
theorem Runs.broken_of_idle {log : List Event} (h : Runs P e log e') (hf : (e.focus P).1 = none)
    {c : Command} {s : Span} {e'' : Engine}
    (hd : (execute P c).perform e' = (.ok (.edited (.deleted s)), e'')) :
    ∃ x post, x :: post <:+ log ∧ Broken P e.killRing (x :: post) e' := by
  induction h with
  | nil =>
    obtain ⟨d, t, hc, -, -⟩ := exists_kill hd
    exact absurd ⟨s, rfl⟩ (idle_execute hf hd (not_breaks hc _)).2.2
  | @cons e e₁ e₂ c r log hx hr hruns ih =>
    by_cases hb : Event.Breaks (c, r)
    · exact ⟨_, log, List.suffix_refl _, .intro rfl hx hr hb hruns⟩
    · obtain ⟨hf₁, hk, -⟩ := idle_execute hf hx hb
      obtain ⟨x, post, hpost, h⟩ := ih hf₁ hd
      exact ⟨x, post, hpost.trans (List.suffix_cons _ _), hk ▸ h⟩

theorem paste_nothing {n : Nat} {p : Placement} (hn : e.killRing.entries ≠ [])
    (h : ((paste P n p).perform e).1 = .ok .nothing) : (e.focus P).1 = none := by
  obtain ⟨entry, htop⟩ : ∃ entry, e.killRing.top? = some entry :=
    ⟨_, List.head?_eq_some_head hn⟩
  rw [focus_eq]
  cases hr : (e.current P).1 with
  | none => rfl
  | some r =>
    cases hs : (r.resolve (e.tree P) e.buffer.revision).isNone with
    | true => exact Option.isNone_iff_eq_none.1 hs
    | false =>
      rw [perform_paste htop hr hs] at h
      dsimp only at h
      split at h <;> cases h

/-- A copy or a paste that does not break the sequence has found no node. -/
theorem focus_of_not_breaks (hP : P.WellFormed) (hn : e.killRing.entries ≠ []) {c : Command}
    {r : Except Failure CommandOutcome} (hx : (execute P c).perform e = (r, e'))
    (hc : c.isOther = true) (hb : ¬ Event.Breaks (c, r)) : (e.focus P).1 = none := by
  rw [perform_execute] at hx
  cases c with
  | move | goto => exact absurd trivial hb
  | delete | deleteKeep | deleteBack | query => simp [Command.isOther] at hc
  | yank n =>
    obtain ⟨rfl, rfl⟩ := Prod.mk.inj hx
    have hr := not_not.1 hb
    exact yank_nothing hP (CommandOutcome.edited.inj (Except.ok.inj hr))
  | paste n p =>
    dsimp only at hx
    cases hp : (paste P n p).perform e with
    | mk res e₁ =>
      rw [hp] at hx
      obtain ⟨rfl, rfl⟩ := Prod.mk.inj hx
      have hr := not_not.1 hb
      refine paste_nothing hn (n := n) (p := p) ?_
      rw [hp]
      cases res with
      | error f => cases hr
      | ok o => rw [CommandOutcome.edited.inj (Except.ok.inj hr)]

/-- After a command that is neither a deletion nor a question nothing is deleted before the sequence
is broken. -/
theorem Runs.broken_of_other (hP : P.WellFormed) {x : Event} {log : List Event}
    (h : Runs P e (x :: log) e') (hn : e.killRing.entries ≠ []) (hx : x.1.isOther = true)
    {c : Command} {s : Span} {e'' : Engine}
    (hd : (execute P c).perform e' = (.ok (.edited (.deleted s)), e'')) :
    ∃ y post, y :: post <:+ x :: log ∧ Broken P e.killRing (y :: post) e' := by
  cases h with
  | @cons _ e₁ _ c r _ hc hf hr =>
    by_cases hb : Event.Breaks (c, r)
    · exact ⟨_, log, List.suffix_refl _, .intro rfl hc hf hb hr⟩
    · obtain ⟨hf₁, hk, -⟩ := idle_execute (focus_of_not_breaks hP hn hc hx hb) hc hb
      obtain ⟨y, post, hpost, hy⟩ := hr.broken_of_idle hf₁ hd
      exact ⟨y, post, hpost.trans (List.suffix_cons _ _), hk ▸ hy⟩

/-! ## Two deletions -/

/-- Of two deletions of a run, let `top` be the entry of the first and `t` the text of the second.
If there are only deletions and questions between them, `t` is joined to the entry that `top` has
grown to. If there is another command, `t` is in an entry that was started later, and it has started
that entry itself unless another deletion came in between. The entries from before that command,
among them the one that `top` has grown to, are left alone: between them and the entry of `t` there
are at most as many as deletions and copies were reported since, and they are all there unless the
ring is full. -/
theorem deletions_share (hP : P.WellFormed) {c c' : Command} {s s' : Span} {e₀ e₁ e₂ e₃ : Engine}
    {log : List Event} (h₁ : (execute P c).perform e₀ = (.ok (.edited (.deleted s)), e₁))
    (hr : Runs P e₁ log e₂)
    (h₂ : (execute P c').perform e₂ = (.ok (.edited (.deleted s')), e₃)) :
    ∃ top rest d t, e₁.killRing.entries = top :: rest ∧ c'.direction? = some d ∧
      e₂.buffer.text.slice? s'.start s'.stop = some t ∧
      ((∀ x ∈ log, x.1.isOther = false) → ∃ u v, e₂.killRing.entries = (u ++ top ++ v) :: rest ∧
        e₃.killRing.entries = d.join (u ++ top ++ v) t :: rest) ∧
      ∀ pre x post, log = pre ++ x :: post → x.1.isOther = true → ∃ e new news old,
        Runs P e₁ pre e ∧
        ((∀ y ∈ pre, y.1.isOther = false) →
          ∃ u v, e.killRing.entries = (u ++ top ++ v) :: rest) ∧
        e.killRing.Above (d.join new t :: news) old e₃.killRing ∧
        news.length ≤ (x :: post).countP Event.records ∧
        ((∀ y ∈ post, ¬ y.Deletes) → e₃.killRing.entries = (e₂.killRing.push t).entries) := by
  obtain ⟨d₁, t₁, -, -, hk₁⟩ := exists_kill h₁
  obtain ⟨d, t, hd, ht, hk⟩ := exists_kill h₂
  obtain ⟨top, rest, htop⟩ := e₀.killRing.exists_entries_kill t₁ d₁
  rw [← hk₁] at htop
  have hg : e₁.killRing.Grown top rest :=
    ⟨by rw [hk₁, KillRing.latest_kill], [], [], by simpa using htop⟩
  rw [hk]
  refine ⟨top, rest, d, t, htop, hd, ht, fun ho => ?_, ?_⟩
  · obtain ⟨hl, u, v, he⟩ := hr.grows (fun x hx => not_breaks_of_isOther (ho x hx)) hg
    refine ⟨u, v, he, ?_⟩
    rw [KillRing.kill_of_kill hl he]
  · rintro pre x post rfl hx
    obtain ⟨e, hpre, hr⟩ := hr.split
    have hn : e.killRing.entries ≠ [] := hpre.entries_ne (by simp [htop])
    obtain ⟨y, post', hpost, hbroken⟩ := hr.broken_of_other hP hn hx h₂
    obtain ⟨⟨new, news, old, ha, hnews⟩, hfirst⟩ := hbroken.above_kill t d
    refine ⟨e, new, news, old, hpre, fun ho => ?_, ha, ?_, fun h => hfirst fun z hz => h z ?_⟩
    · exact (hpre.grows (fun y hy => not_breaks_of_isOther (ho y hy)) hg).2
    · exact hnews.trans (hpost.sublist.countP_le)
    · -- The break is the other command, or comes after it.
      rcases List.suffix_cons_iff.1 hpost with heq | hsuffix
      · rwa [(List.cons.inj heq).2] at hz
      · exact hsuffix.subset (List.mem_cons_of_mem y hz)

/-- Letters with blanks between them, and point at the second one. -/
def lettered : Engine :=
  (Engine.ofBuffer (.ofText ['x', ' ', 'a', ' ', 'b'] .json) .silent).setPoint 2

/-- A movement between two deletions, each of which has an entry of its own. -/
theorem deletions_share_lettered :
    ∃ e₁ e₂ e₃, (execute .letters (.delete 1)).perform lettered
        = (.ok (.edited (.deleted ⟨2, 3⟩)), e₁) ∧
      Runs .letters e₁ [(.move .previous 1, .ok (.moved .previous))] e₂ ∧
      (execute .letters (.deleteBack 1)).perform e₂ = (.ok (.edited (.deleted ⟨0, 1⟩)), e₃) ∧
      e₃.killRing.entries = [['x'], ['a']] := by
  have run : ∃ e₁ e₂ e₃, (execute .letters (.delete 1)).perform lettered
        = (.ok (.edited (.deleted ⟨2, 3⟩)), e₁) ∧
      Runs .letters e₁ [(.move .previous 1, .ok (.moved .previous))] e₂ ∧
      (execute .letters (.deleteBack 1)).perform e₂ = (.ok (.edited (.deleted ⟨0, 1⟩)), e₃) ∧
      e₂.buffer.text.slice? 0 1 = some ['x'] ∧
      (e₂.killRing.push ['x']).entries = [['x'], ['a']] :=
    ⟨_, _, _, rfl, .cons rfl nofun .nil, rfl, rfl, rfl⟩
  obtain ⟨e₁, e₂, e₃, h₁, hr, h₂, hx, hp⟩ := run
  obtain ⟨top, rest, d, t, -, -, ht, -, hs⟩ := deletions_share Parser.wellFormed_letters h₁ hr h₂
  obtain ⟨_, _, _, _, -, -, -, -, he⟩ := hs [] _ [] rfl rfl
  obtain rfl := Option.some.inj (hx.symm.trans ht)
  exact ⟨e₁, e₂, e₃, h₁, hr, h₂, (he nofun).trans hp⟩

/-- A question between two deletions does not break the sequence, and they end up in one entry. -/
theorem question_shares : ¬ ∀ (P : Parser) (c c' : Command) (s s' : Span) (e₀ e₁ e₂ e₃ : Engine)
    (log : List Event) (t : Text), P.WellFormed →
    (execute P c).perform e₀ = (.ok (.edited (.deleted s)), e₁) → Runs P e₁ log e₂ →
    (execute P c').perform e₂ = (.ok (.edited (.deleted s')), e₃) →
    e₂.buffer.text.slice? s'.start s'.stop = some t →
    log ≠ [] → (∀ x ∈ log, x.1.direction? = none) →
    e₃.killRing.entries = (e₂.killRing.push t).entries := by
  intro h
  have run : ∃ e₁ e₂ e₃, (execute .letters (.delete 1)).perform lettered
        = (.ok (.edited (.deleted ⟨2, 3⟩)), e₁) ∧
      Runs .letters e₁ [(.query .last, .ok (.answered true))] e₂ ∧
      (execute .letters (.delete 1)).perform e₂ = (.ok (.edited (.deleted ⟨3, 4⟩)), e₃) ∧
      e₂.buffer.text.slice? 3 4 = some ['b'] ∧
      (e₂.killRing.push ['b']).entries = [['b'], ['a']] ∧ e₃.killRing.entries = [['a', 'b']] :=
    ⟨_, _, _, rfl, .cons rfl nofun .nil, rfl, rfl, rfl, rfl⟩
  obtain ⟨e₁, e₂, e₃, h₁, hr, h₂, hs, hp, he⟩ := run
  have hnew := h .letters _ _ _ _ _ _ _ _ _ _ Parser.wellFormed_letters h₁ hr h₂ hs
    (List.cons_ne_nil _ _) (List.forall_mem_singleton.2 rfl)
  rw [hp, he] at hnew
  exact absurd hnew (by decide)

end Engine

end TreeEdit
