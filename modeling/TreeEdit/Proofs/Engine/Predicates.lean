import TreeEdit.Proofs.Engine.Saturation
import TreeEdit.Proofs.Reachable
/-!
# Predicates and movements

A predicate looks at the address of the node in focus and at the siblings next to it. A
movement takes steps that may skip nodes, and gets nowhere if the first step leads to no
other node. `stays_iff_holds` says that these are the same three times: at the first and at
the last sibling, and at the root.

`predicates_agree` states this of the engine, together with how the six predicates hang
together and what they leave alone.
-/

namespace TreeEdit

/-! ## Steps that lead nowhere -/

namespace Tree

variable {t : Tree} {a b : Address}

theorem previous?_ne (h : t.previous? a = some b) : b ≠ a := by
  cases a with
  | nil => simp [previous?] at h
  | cons i a =>
    obtain ⟨j, rfl, hj, -⟩ := previous?_cons h
    intro he
    have hji := (List.cons.inj he).1
    omega

theorem next?_ne (h : t.next? a = some b) : b ≠ a := by
  cases a with
  | nil => simp [next?] at h
  | cons i a =>
    obtain ⟨j, rfl, hj, -⟩ := next?_cons_eq_some_iff.1 h
    intro he
    have hji := (List.cons.inj he).1
    have hij := hj.1
    omega

/-- However many wrappers a node has, climbing from it ends at another node. Only the root stays. -/
theorem visibleParent_eq_self_iff : t.visibleParent a = a ↔ a = [] := by
  cases a with
  | nil => exact iff_of_true rfl rfl
  | cons i a => exact iff_of_false (t.nearestAbove_visibleParent i a).ne (by simp)

/-- No step is taken exactly if none is asked for or the first one leads nowhere. -/
theorem stepsFrom_eq_zero_iff {step : Address → Option Address} {n : Nat} :
    (stepsFrom step n a).1 = 0 ↔ n = 0 ∨ ∀ b, step a = some b → b = a := by
  constructor
  · intro h
    cases n with
    | zero => exact .inl rfl
    | succ n =>
      refine .inr fun b hb => ?_
      by_contra hne
      simp [stepsFrom, hb, hne] at h
  · rintro (rfl | hs)
    · rfl
    · rw [stepsFrom_of_stuck hs]

end Tree

namespace Motion

/-- The predicate that tells whether a movement can get anywhere. There is none for the movement to
a child. -/
def limit? : Motion → Option Predicate
  | previous => some .first
  | next => some .last
  | parent => some .root
  | child => none

/-- A step that never stays leads nowhere exactly if there is none. -/
theorem stays_iff_isNone {o : Option Address} {a : Address} (h : ∀ b, o = some b → b ≠ a) :
    (∀ b, o = some b → b = a) ↔ o.isNone = true := by
  cases o with
  | none => simp
  | some b => exact iff_of_false (fun hs => h b rfl (hs b rfl)) (by simp)

/-- A step leads nowhere exactly where its predicate holds. -/
theorem stays_iff_holds {m : Motion} {p : Predicate} (hp : m.limit? = some p) (t : Tree)
    (a : Address) : (∀ b, m.step t a = some b → b = a) ↔ p.holds t a = true := by
  cases m with
  | previous =>
    obtain rfl := Option.some.inj hp
    exact stays_iff_isNone fun b => Tree.previous?_ne
  | next =>
    obtain rfl := Option.some.inj hp
    exact stays_iff_isNone fun b => Tree.next?_ne
  | parent =>
    obtain rfl := Option.some.inj hp
    simp only [step, Option.some.injEq, forall_eq', Tree.visibleParent_eq_self_iff, Predicate.holds,
      beq_iff_eq, List.length_eq_zero_iff]
  | child => simp [limit?] at hp

theorem times_unit_eq_none_iff (m : Motion) (k : Nat) : m.unit.times k = .none ↔ k = 0 := by
  cases m <;> simp [unit, Move.times, Move.none, Move.previous, Move.next, Move.parent, Move.child]

end Motion

namespace Engine

variable {P : Parser} {e : Engine} {a : Address}

/-! ## Asking and moving -/

theorem ask_of_focus (h : (e.focus P).1 = some a) (p : Predicate) :
    (e.ask P p).1 = p.holds (e.tree P) a := by
  have hf : e.focus P = (some a, (e.focus P).2) := by rw [← h]
  rw [ask, hf]
  dsimp only
  rw [focus_tree]

/-- What is asked has no influence on what is answered next. -/
theorem ask_ask (P : Parser) (e : Engine) (p q : Predicate) :
    (e.ask P p).2.ask P q = e.ask P q := by
  rw [ask_snd, focus_eq]
  exact looks_ask P q e

theorem move_eq_none_iff (h : (e.focus P).1 = some a) (m : Motion) (n : Nat) :
    (e.move P m n).1 = .none ↔ n = 0 ∨ ∀ b, m.step (e.tree P) a = some b → b = a := by
  rw [move_fst h, m.times_unit_eq_none_iff, Tree.stepsFrom_eq_zero_iff]

/-- A predicate holds exactly where the movement that it belongs to gets nowhere. -/
theorem ask_iff_move (h : (e.focus P).1 = some a) {m : Motion} {p : Predicate}
    (hp : m.limit? = some p) : (e.ask P p).1 = true ↔ ∀ n, (e.move P m n).1 = .none := by
  rw [ask_of_focus h, ← m.stays_iff_holds hp]
  constructor
  · exact fun hs n => (move_eq_none_iff h m n).2 (.inr hs)
  · exact fun hn => ((move_eq_none_iff h m 1).1 (hn 1)).resolve_left (by simp)

/-- The predicates agree with the movements and with each other. -/
structure Agrees (P : Parser) (e : Engine) : Prop where
  first : (e.ask P .first).1 = true ↔ ∀ n, (e.move P .previous n).1 = .none
  last : (e.ask P .last).1 = true ↔ ∀ n, (e.move P .next n).1 = .none
  root : (e.ask P .root).1 = true ↔ ∀ n, (e.move P .parent n).1 = .none
  alone : (e.ask P .root).1 = true → (e.ask P .first).1 = true ∧ (e.ask P .last).1 = true
  apart : ¬ ((e.ask P .root).1 = true ∧ (e.ask P .treeRoot).1 = true)
  initial : (e.ask P .initial).1 = ((e.ask P .treeRoot).1 && (e.ask P .first).1)
  final : (e.ask P .final).1 = ((e.ask P .treeRoot).1 && (e.ask P .last).1)

theorem agrees_of_focus (h : (e.focus P).1 = some a) : e.Agrees P where
  first := ask_iff_move h rfl
  last := ask_iff_move h rfl
  root := ask_iff_move h rfl
  alone := by
    simp only [ask_of_focus h, Predicate.holds, beq_iff_eq, List.length_eq_zero_iff]
    rintro rfl
    exact ⟨rfl, rfl⟩
  apart := by
    simp only [ask_of_focus h, Predicate.holds, beq_iff_eq]
    omega
  initial := by simp only [ask_of_focus h, Predicate.holds]
  final := by simp only [ask_of_focus h, Predicate.holds]

/-- With a node in focus the predicates agree with the movements. Without one, no predicate holds
and no movement gets anywhere. A predicate leaves the text, point, the revision and the kill ring
alone, and whatever is asked next. -/
theorem predicates_agree (P : Parser) (e : Engine) :
    (∀ a, (e.focus P).1 = some a → e.Agrees P) ∧
    ((e.focus P).1 = none →
      (∀ p, (e.ask P p).1 = false) ∧ ∀ m n, (e.move P m n).1 = .none) ∧
    ∀ p, (e.ask P p).2.buffer = e.buffer ∧ (e.ask P p).2.killRing = e.killRing ∧
      ∀ q, (e.ask P p).2.ask P q = e.ask P q := by
  refine ⟨fun a h => agrees_of_focus h, fun h => ?_, fun p => ⟨?_, ?_, ask_ask P e p⟩⟩
  · have hs := stuck_of_no_focus h
    exact ⟨hs.ask, hs.move⟩
  · rw [ask_snd, focus_buffer]
  · rw [ask_snd, focus_killRing]

/-- The first letter of the inner list has no sibling before it, but one behind it. At the root all
three movements get nowhere. In an empty text there is nothing to ask about. -/
theorem predicates_agree_list :
    ((onList 4).focus fun _ _ => listTree).1 = some [1, 2, 0] ∧
    (∀ n, ((onList 4).move (fun _ _ => listTree) .previous n).1 = .none) ∧
    (¬ ∀ n, ((onList 4).move (fun _ _ => listTree) .next n).1 = .none) ∧
    ((onList 0).focus fun _ _ => listTree).1 = some [] ∧
    (∀ n, ((onList 0).move (fun _ _ => listTree) .parent n).1 = .none) ∧
    (∀ n, ((onList 0).move (fun _ _ => listTree) .next n).1 = .none) ∧
    ((ofBuffer (.ofText [] .json) .silent).focus .letters).1 = none ∧
    ((ofBuffer (.ofText [] .json) .silent).ask .letters .last).1 = false := by
  have hfirst : ((onList 4).focus fun _ _ => listTree).1 = some [1, 2, 0] := by decide
  have hroot : ((onList 0).focus fun _ _ => listTree).1 = some [] := by decide
  have hempty : ((ofBuffer (.ofText [] .json) .silent).focus .letters).1 = none := by decide
  have inner := (predicates_agree (fun _ _ => listTree) (onList 4)).1 _ hfirst
  have outer := (predicates_agree (fun _ _ => listTree) (onList 0)).1 _ hroot
  have empty := (predicates_agree .letters (ofBuffer (.ofText [] .json) .silent)).2.1 hempty
  refine ⟨hfirst, inner.first.1 (by decide), fun h => ?_, hroot, outer.root.1 (by decide),
    outer.last.1 (outer.alone (by decide)).2, hempty, empty.1 .last⟩
  exact absurd (inner.last.2 h) (by decide)

end Engine

end TreeEdit
