import TreeEdit.Command
import TreeEdit.Proofs.Engine.Deletion
import TreeEdit.Proofs.Engine.Navigation
import TreeEdit.Proofs.Engine.Paste
/-!
# Highlighting is only for show

A highlighter is told what is selected and is never asked. So an engine with another
highlighter answers the same and does the same (`Blind`), and only what the highlighter
has been told differs in the end.

An action is blind if its parts are (`blind_bind`), so it takes the small parts of an edit
to see it of the edit.
-/

namespace TreeEdit.Engine

variable {P : Parser} {α β : Type}

/-- The engine with another highlighter. -/
def showOn (e : Engine) (h : Highlighter) : Engine :=
  { e with cursor := { e.cursor with highlighter := h } }

@[simp] theorem showOn_buffer (e : Engine) (h : Highlighter) : (e.showOn h).buffer = e.buffer := rfl

@[simp] theorem showOn_killRing (e : Engine) (h : Highlighter) :
    (e.showOn h).killRing = e.killRing := rfl

@[simp] theorem showOn_tree (e : Engine) (h : Highlighter) : (e.showOn h).tree P = e.tree P := rfl

/-- With another highlighter the answer is the same, and the engine that is left behind is the same
but for the highlighter. -/
def Blind (f : Engine → α × Engine) : Prop :=
  ∀ e h, ∃ h', f (e.showOn h) = ((f e).1, (f e).2.showOn h')

/-! ## Selecting -/

/-- Without a selected node the topmost node at point is selected, unless it is empty. -/
theorem current_of_no_currentAt {e : Engine} (h : e.cursor.currentAt e.buffer.revision = none) :
    e.current P =
      let r := NodeRef.capture (e.tree P) ((e.tree P).topmost e.buffer.point) e.buffer.revision
      if ((e.tree P).spanAt ((e.tree P).topmost e.buffer.point)).isEmpty then (none, e.invalidate)
      else (some r, { e with cursor := e.cursor.select r }) := by
  unfold current
  rw [h]

theorem blind_current (P : Parser) : Blind (current P) := by
  intro e h
  cases hc : e.cursor.currentAt e.buffer.revision with
  | some r =>
    have hc' : (e.showOn h).cursor.currentAt (e.showOn h).buffer.revision = some r := hc
    exact ⟨h, by rw [current_of_currentAt hc, current_of_currentAt hc']⟩
  | none =>
    have hc' : (e.showOn h).cursor.currentAt (e.showOn h).buffer.revision = none := hc
    rw [current_of_no_currentAt hc, current_of_no_currentAt hc', showOn_tree, showOn_buffer]
    dsimp only
    by_cases hn : ((e.tree P).spanAt ((e.tree P).topmost e.buffer.point)).isEmpty = true
    · rw [if_pos hn, if_pos hn]
      exact ⟨_, rfl⟩
    · rw [if_neg hn, if_neg hn]
      exact ⟨_, rfl⟩

theorem blind_focus (P : Parser) : Blind (focus P) := by
  intro e h
  obtain ⟨h', hc⟩ := blind_current P e h
  refine ⟨h', ?_⟩
  rw [focus_eq, focus_eq, hc]
  rfl

/-- The node that settling finds in a buffer. -/
def landing (P : Parser) (b : Buffer) (size : Option Nat) : Address :=
  let t := P b.revision b.text
  (size.bind fun n => t.spanning? ⟨b.point, b.point + n⟩).getD (t.topmost b.point)

theorem settle_eq (P : Parser) (e : Engine) (o : Nat) (size : Option Nat) : e.settle P o size =
    let b := e.buffer.setPoint o
    let t := P b.revision b.text
    if (t.spanAt (landing P b size)).isEmpty then { e with buffer := b }.invalidate
    else { e with buffer := b }.select (.capture t (landing P b size) b.revision) := rfl

theorem settle_showOn (P : Parser) (e : Engine) (h : Highlighter) (o : Nat) (size : Option Nat) :
    ∃ h', (e.showOn h).settle P o size = (e.settle P o size).showOn h' := by
  rw [settle_eq, settle_eq, showOn_buffer]
  dsimp only
  generalize e.buffer.setPoint o = b
  by_cases hn : ((P b.revision b.text).spanAt (landing P b size)).isEmpty = true
  · rw [if_pos hn, if_pos hn]
    exact ⟨_, rfl⟩
  · rw [if_neg hn, if_neg hn]
    exact ⟨_, rfl⟩

/-! ## Movements, predicates and copies -/

theorem blind_move (P : Parser) (m : Motion) (n : Nat) : Blind (move P m n) := by
  intro e h
  obtain ⟨h', hf⟩ := blind_focus P e h
  have hf₁ : ((e.showOn h).focus P).1 = (e.focus P).1 := by rw [hf]
  cases ha : (e.focus P).1 with
  | none =>
    rw [move_of_no_focus ha, move_of_no_focus (hf₁.trans ha), hf]
    exact ⟨h', rfl⟩
  | some a =>
    rw [move_of_focus ha, move_of_focus (hf₁.trans ha), hf, showOn_tree, showOn_buffer]
    by_cases hk : (Tree.stepsFrom (m.step (e.tree P)) n a).1 = 0
    · rw [if_pos hk, if_pos hk]
      exact ⟨h', rfl⟩
    · rw [if_neg hk, if_neg hk]
      exact ⟨_, rfl⟩

theorem blind_ask (P : Parser) (p : Predicate) : Blind (ask P p) := by
  intro e h
  obtain ⟨h', hf⟩ := blind_focus P e h
  refine ⟨h', ?_⟩
  unfold ask
  rw [hf]
  cases e.focus P with
  | mk a e₁ => cases a <;> rfl

theorem blind_yank (P : Parser) (n : Nat) : Blind (yank P n) := by
  intro e h
  obtain ⟨h', hf⟩ := blind_focus P e h
  refine ⟨h', ?_⟩
  unfold yank
  rw [hf]
  cases e.focus P with
  | mk a e₁ =>
    cases a with
    | none => rfl
    | some a =>
      dsimp only
      rw [showOn_tree, showOn_buffer]
      split <;> rfl

/-! ## Actions -/

theorem blind_pure (a : α) : Blind (pure a : Action Engine α).perform := fun _ h => ⟨h, rfl⟩

theorem blind_bind {x : Action Engine α} {f : α → Action Engine β} (hx : Blind x.perform)
    (hf : ∀ a, Blind (f a).perform) : Blind (x >>= f).perform := by
  intro e h
  obtain ⟨h', hp⟩ := hx e h
  simp only [Action.perform_bind, hp]
  cases x.perform e with
  | mk r e₁ =>
    cases r with
    | error err => exact ⟨h', rfl⟩
    | ok a => exact hf a e₁ h'

/-- What is done to the buffer leaves the cursor alone. -/
theorem blind_onBuffer (x : Action Buffer α) : Blind (onBuffer x).perform := fun _ h => ⟨h, rfl⟩

theorem blind_modify {f : Engine → Engine}
    (hf : ∀ e h, ∃ h', f (e.showOn h) = (f e).showOn h') :
    Blind (modify f : Action Engine Unit).perform := by
  intro e h
  obtain ⟨h', he⟩ := hf e h
  exact ⟨h', by rw [Action.perform_modify, Action.perform_modify, he]⟩

theorem blind_settle (P : Parser) (o : Engine → Nat) (n : Option Nat)
    (ho : ∀ e h, o (e.showOn h) = o e) :
    Blind (modify fun e => e.settle P (o e) n : Action Engine Unit).perform := by
  refine blind_modify fun e h => ?_
  rw [ho]
  exact settle_showOn P e h (o e) n

theorem blind_deleteSpan (P : Parser) (d : Direction) (span : Span) (neighbour : Option Span)
    (clean : Bool) : Blind (deleteSpan P d span neighbour clean).perform := by
  unfold deleteSpan
  refine blind_bind (blind_onBuffer _) fun removed => ?_
  refine blind_bind (blind_modify fun e h => ⟨h, rfl⟩) fun _ => ?_
  refine blind_bind (blind_onBuffer _) fun tracked => ?_
  dsimp only
  split
  · refine blind_bind (blind_onBuffer _) fun tracked => ?_
    exact blind_bind (blind_settle P _ _ fun _ _ => rfl) fun _ => blind_pure _
  · refine blind_bind (blind_pure _) fun tracked => ?_
    exact blind_bind (blind_settle P _ _ fun _ _ => rfl) fun _ => blind_pure _

theorem blind_deleteForward (P : Parser) (n : Nat) (keep : Bool) :
    Blind (deleteForward P n keep).perform := by
  intro e h
  obtain ⟨h', hf⟩ := blind_focus P e h
  rw [perform_deleteForward, perform_deleteForward, hf, showOn_tree]
  cases (e.focus P).1 with
  | none => exact ⟨h', rfl⟩
  | some a => exact blind_deleteSpan P _ _ _ _ (e.focus P).2 h'

theorem blind_deleteBackward (P : Parser) (n : Nat) : Blind (deleteBackward P n).perform := by
  intro e h
  obtain ⟨h', hf⟩ := blind_focus P e h
  rw [perform_deleteBackward, perform_deleteBackward, hf, showOn_tree]
  cases (e.focus P).1 with
  | none => exact ⟨h', rfl⟩
  | some a => exact blind_deleteSpan P _ _ _ _ (e.focus P).2 h'

/-! ## Pasting -/

theorem blind_pasteBeside (P : Parser) (entry : Text) (n : Nat) (p : Placement) (node : Span) :
    Blind (pasteBeside P entry n p node).perform := by
  unfold pasteBeside
  refine blind_bind (blind_modify fun e h => ⟨h, rfl⟩) fun _ => ?_
  refine blind_bind (blind_onBuffer _) fun span => ?_
  exact blind_bind (blind_settle P _ _ fun _ _ => rfl) fun _ => blind_pure _

theorem blind_paste (P : Parser) (n : Nat) (p : Placement) : Blind (paste P n p).perform := by
  intro e h
  cases htop : e.killRing.top? with
  | none => exact ⟨h, by rw [paste_of_empty htop, paste_of_empty (e := e.showOn h) htop]⟩
  | some entry =>
    obtain ⟨h', hc⟩ := blind_current P e h
    rw [paste_of_entry htop, paste_of_entry (e := e.showOn h) htop, hc, showOn_tree, showOn_buffer]
    cases (e.current P).1 with
    | none => exact ⟨h', rfl⟩
    | some r =>
      dsimp only
      by_cases hn : (r.resolve (e.tree P) e.buffer.revision).isNone = true
      · rw [if_pos hn, if_pos hn]
        exact ⟨h', rfl⟩
      · rw [if_neg hn, if_neg hn]
        exact blind_pasteBeside P entry n p r.span (e.current P).2 h'

end TreeEdit.Engine
