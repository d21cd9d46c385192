import Mathlib.Order.Bounds.Defs
import TreeEdit.Proofs.Buffer.Apply
/-!
# The revision stands for the text

Every operation on a buffer moves point or asks for one edit at most (`Operation.edit?`), and
what it leaves behind is what that edit leaves behind (`step_snd`). An edit that is
applied changes the text and counts up the revision, any other edit changes neither. So over
a run the revision counts the applied edits, and as long as it stays the same so does the text.

`revision_identifies_text` says this of two moments of a run, the later one reached by `post`
from the earlier one.
-/

namespace TreeEdit

namespace Buffer

/-! ## Operations and runs -/

/-- What can be done to a buffer. -/
inductive Operation where
  | setPoint (offset : Nat)
  | insert (offset : Nat) (t : Text)
  | delete (span : Span)
  | apply (e : Edit)
  | deleteLine (offset : Nat)
  | reindent (offset : Nat) (indent : Text)
deriving DecidableEq, Repr

/-- An action without its answer: whether it failed, and the buffer it leaves behind. -/
def attempt {α : Type} (x : Action Buffer α) (b : Buffer) : Except Failure Unit × Buffer :=
  ((x.perform b).1.map fun _ => (), (x.perform b).2)

def step (b : Buffer) : Operation → Except Failure Unit × Buffer
  | .setPoint o => (.ok (), b.setPoint o)
  | .insert o t => attempt (insert o t) b
  | .delete s => attempt (delete s) b
  | .apply e => attempt (apply e) b
  | .deleteLine o => attempt (deleteLine o) b
  | .reindent o indent => attempt (reindent o indent) b

/-- A row of operations, rejected or not: the buffer after it, or `none` if a fault ended it. -/
def run (b : Buffer) : List Operation → Option Buffer
  | [] => some b
  | o :: os =>
    match b.step o with
    | (.error (.fault _), _) => none
    | (_, b') => b'.run os

/-! ## The edits of a run -/

/-- The edit that removes a span of the text, if the span has a text. -/
def removal? (b : Buffer) (s : Span) : Option Edit :=
  (b.text.slice? s.start s.stop).map (Edit.delete s)

/-- The edit that an operation asks for. -/
def Operation.edit? (b : Buffer) : Operation → Option Edit
  | setPoint _ => none
  | insert o t => some (.insert o t)
  | delete s => b.removal? s
  | apply e => some e
  | deleteLine o => (b.text.lineAt? o).bind fun l => b.removal? l.removal
  | reindent o indent => (b.text.lineAt? o).bind fun l =>
    if l.indentation = indent then none
    else some (.replace ⟨l.start, l.firstNonBlank⟩ indent l.indentation)

/-- The operation asks for an edit, and the answer is that it was applied. -/
def Operation.applies (b : Buffer) (o : Operation) : Bool :=
  match (o.edit? b).map fun e => ((Buffer.apply e).perform b).1 with
  | some (.ok (.applied _ _ _)) => true
  | _ => false

/-- The number of edits that are applied in the course of a row of operations. -/
def applied (b : Buffer) : List Operation → Nat
  | [] => 0
  | o :: os => (if o.applies b then 1 else 0) + (b.step o).2.applied os

/-- The buffer after an edit, applied or not, if there is one. -/
def edited (b : Buffer) : Option Edit → Buffer
  | none => b
  | some e => ((apply e).perform b).2

variable {b b' : Buffer} {o : Operation} {n : Nat}

theorem delete_snd (b : Buffer) (s : Span) :
    ((delete s).perform b).2 = b.edited (b.removal? s) := by
  unfold delete removal?
  rw [Action.perform_bind_of_ok (Action.perform_get b)]
  cases b.text.slice? s.start s.stop with
  | none => rfl
  | some removed => exact congrArg Prod.snd (Action.perform_map _ (fun _ => removed) b)

theorem lineAt_of_none (h : b.text.lineAt? n = none) :
    (lineAt n).perform b = (.error (.fault .insideCharacter), b) := by
  unfold lineAt
  rw [Action.perform_bind_of_ok (Action.perform_get b), h]
  rfl

/-- An operation moves point, or all that it does to a buffer is the edit that it asks for. -/
theorem step_snd (b : Buffer) (o : Operation) :
    (∃ n, o = .setPoint n) ∨ (b.step o).2 = b.edited (o.edit? b) := by
  cases o with
  | setPoint n => exact .inl ⟨n, rfl⟩
  | insert n t => exact .inr rfl
  | apply e => exact .inr rfl
  | delete s => exact .inr (delete_snd b s)
  | deleteLine n =>
    right
    simp only [step, attempt, deleteLine, Operation.edit?]
    cases hl : b.text.lineAt? n with
    | none =>
      rw [Action.perform_bind_of_error (lineAt_of_none hl)]
      rfl
    | some l =>
      rw [Action.perform_bind_of_ok (lineAt_of_some hl), Option.bind_some, ← delete_snd]
      exact congrArg Prod.snd (Action.perform_map _ (fun _ => l.removal) b)
  | reindent n indent =>
    right
    simp only [step, attempt, reindent, Operation.edit?]
    cases hl : b.text.lineAt? n with
    | none =>
      rw [Action.perform_bind_of_error (lineAt_of_none hl)]
      rfl
    | some l =>
      rw [Action.perform_bind_of_ok (lineAt_of_some hl), Option.bind_some]
      split
      · rfl
      · exact congrArg Prod.snd (Action.perform_map _ (fun _ => Edit.delta _) b)

/-! ## One operation -/

/-- An edit that is applied changes the text. -/
theorem text_ne_of_applied {e : Edit}
    (h : ((apply e).perform b).1 = .ok (.applied e.span.start e.span.size e.replacement.size))
    (hs : Splices e b b') : b'.text ≠ b.text := by
  obtain ⟨y, hy, hne, -⟩ := (verdict_apply b e).applied.1 h
  obtain ⟨x, y', z, ht, hx, hz, ht'⟩ := hs.text
  have hy' : b.text.slice? e.span.start e.span.stop = some y' :=
    Text.slice?_eq_some_iff.2 ⟨x, z, ht, hx, hz⟩
  obtain rfl : y = y' := Option.some.inj (hy.symm.trans hy')
  intro heq
  rw [ht, ht', List.append_left_inj, List.append_right_inj] at heq
  exact hne heq.symm

/-- What an edit can do to the text and the revision. -/
theorem edited_cases (b : Buffer) (o : Operation) :
    (o.applies b = true ∧ (b.edited (o.edit? b)).revision = b.revision + 1 ∧
      (b.edited (o.edit? b)).text ≠ b.text) ∨
    (o.applies b = false ∧ b.edited (o.edit? b) = b) := by
  unfold Operation.applies
  cases he : o.edit? b with
  | none => exact .inr ⟨rfl, rfl⟩
  | some e =>
    rw [Option.map_some]
    rcases apply_splices b e with ⟨ha, hs⟩ | ⟨ha, hs⟩
    · rw [ha]
      exact .inl ⟨rfl, hs.revision, text_ne_of_applied ha hs⟩
    · refine .inr ⟨?_, hs⟩
      split
      · rename_i h
        exact absurd (Option.some.inj h) (ha _ _ _)
      · rfl

/-- An operation applies an edit, counts it, and changes the text, or it leaves the text and the
revision alone. -/
theorem step_cases (b : Buffer) (o : Operation) :
    (o.applies b = true ∧ (b.step o).2.revision = b.revision + 1 ∧
      (b.step o).2.text ≠ b.text) ∨
    (o.applies b = false ∧ (b.step o).2.revision = b.revision ∧ (b.step o).2.text = b.text) := by
  rcases step_snd b o with ⟨n, rfl⟩ | hs
  · exact .inr ⟨rfl, rfl, rfl⟩
  · rw [hs]
    rcases edited_cases b o with h | ⟨ha, he⟩
    · exact .inl h
    · exact .inr ⟨ha, by rw [he], by rw [he]⟩

theorem valid_step (h : b.Valid) (o : Operation) : (b.step o).2.Valid := by
  rcases step_snd b o with ⟨n, rfl⟩ | hs
  · exact b.valid_setPoint n
  · rw [hs]
    cases o.edit? b with
    | none => exact h
    | some e => exact valid_apply h e

/-! ## Runs -/

theorem run_cons {os : List Operation} (h : b.run (o :: os) = some b') :
    (b.step o).2.run os = some b' := by
  unfold run at h
  split at h
  · simp at h
  · rename_i r b₁ _ hs
    rw [hs]
    exact h

theorem applied_append {pre post : List Operation} (h : b.run pre = some b') :
    b.applied (pre ++ post) = b.applied pre + b'.applied post := by
  induction pre generalizing b with
  | nil =>
    obtain rfl := Option.some.inj h
    simp [applied]
  | cons o os ih =>
    simp only [List.cons_append, applied, ih (run_cons h)]
    omega

/-- The revision grows by the number of applied edits. -/
theorem revision_run {ops : List Operation} (h : b.run ops = some b') :
    b'.revision = b.revision + b.applied ops := by
  induction ops generalizing b with
  | nil => exact Option.some.inj h ▸ rfl
  | cons o os ih =>
    have hr := ih (run_cons h)
    simp only [applied]
    rcases step_cases b o with ⟨ha, hs, -⟩ | ⟨ha, hs, -⟩
    · rw [if_pos ha]
      omega
    · rw [if_neg (by simp [ha])]
      omega

/-- Where no edit is applied, the text stays. -/
theorem text_run {ops : List Operation} (h : b.run ops = some b') (hn : b.applied ops = 0) :
    b'.text = b.text := by
  induction ops generalizing b with
  | nil => exact Option.some.inj h ▸ rfl
  | cons o os ih =>
    simp only [applied, Nat.add_eq_zero_iff] at hn
    rcases step_cases b o with ⟨ha, -, -⟩ | ⟨-, -, ht⟩
    · rw [if_pos ha] at hn
      omega
    · rw [ih (run_cons h) hn.2, ht]

theorem valid_run {ops : List Operation} (hb : b.Valid) (h : b.run ops = some b') : b'.Valid := by
  induction ops generalizing b with
  | nil => exact Option.some.inj h ▸ hb
  | cons o os ih => exact ih (valid_step hb o) (run_cons h)

theorem isGreatest_setPoint (b : Buffer) (n : Nat) :
    IsGreatest {m | b.text.isBoundary m = true ∧ m ≤ min n b.text.size} (b.setPoint n).point := by
  have hb := b.valid_setPoint n
  refine ⟨⟨hb, ?_⟩, fun m hm => ?_⟩
  · exact Nat.le_min.2 ⟨Text.floor_le b.text n, Text.le_size_of_isBoundary hb⟩
  · exact Text.le_floor hm.1 (Nat.le_trans hm.2 (Nat.min_le_left _ _))

/-- At two moments of a run, first after `pre` and then after `post` as well: the revision is the
number of edits applied so far and never falls, and where it is the same the text is the same. An
operation changes the text exactly if it applies an edit. Point is a boundary within the text, and
moving it finds the greatest boundary that is not past the place asked for. -/
theorem revision_identifies_text {text : Text} {l : Language} {pre post : List Operation}
    (h : (ofText text l).run pre = some b) (h' : b.run post = some b') :
    b.revision = (ofText text l).applied pre ∧
    b'.revision = (ofText text l).applied (pre ++ post) ∧
    b.revision ≤ b'.revision ∧
    (b.revision = b'.revision → b.text = b'.text) ∧
    (∀ o : Operation, o.applies b = true ↔ (b.step o).2.text ≠ b.text) ∧
    b.text.isBoundary b.point = true ∧ b.point ≤ b.text.size ∧
    ∀ n, IsGreatest {m | b.text.isBoundary m = true ∧ m ≤ min n b.text.size}
      (b.step (.setPoint n)).2.point := by
  have hr : b.revision = (ofText text l).applied pre := by
    simpa [ofText] using revision_run h
  have hr' := revision_run h'
  have hv : b.Valid := valid_run (valid_ofText text l) h
  refine ⟨hr, ?_, by omega, fun heq => ?_, fun o => ?_, hv, ?_, b.isGreatest_setPoint⟩
  · rw [applied_append h, ← hr, hr']
  · exact (text_run h' (by omega)).symm
  · rcases step_cases b o with ⟨ha, -, hne⟩ | ⟨ha, -, ht⟩
    · exact iff_of_true ha hne
    · exact iff_of_false (by simp [ha]) (not_not.2 ht)
  · exact Text.le_size_of_isBoundary hv

/-- A letter goes in behind `é`; then an edit that is done already, a span that ends inside `é`, and
an attempt to put point there. -/
theorem revision_identifies_text_accent :
    ∃ b b', (ofText ['é', '\n', 'b'] .json).run [.insert 2 ['x'], .setPoint 9] = some b ∧
      b.run [.apply (.insert 0 []), .delete ⟨0, 1⟩, .setPoint 1] = some b' ∧
      b.revision = 1 ∧ b'.revision = 1 ∧ b'.point = 0 ∧ b.text = b'.text := by
  have hb : ∃ b b', (ofText ['é', '\n', 'b'] .json).run [.insert 2 ['x'], .setPoint 9] = some b ∧
      b.run [.apply (.insert 0 []), .delete ⟨0, 1⟩, .setPoint 1] = some b' ∧
      b.revision = 1 ∧ b'.revision = 1 ∧ b'.point = 0 := ⟨_, _, rfl, rfl, rfl, rfl, rfl⟩
  obtain ⟨b, b', h, h', hr, hr', hp⟩ := hb
  obtain ⟨-, -, -, htext, -⟩ := revision_identifies_text h h'
  exact ⟨b, b', h, h', hr, hr', hp, htext (hr.trans hr'.symm)⟩

end Buffer

end TreeEdit
