import Mathlib.Data.List.Induction
import Mathlib.Data.Nat.Digits.Defs
import TreeEdit.Command
/-!
# The language of commands

A text is read as its words, and `Reads` lists the words of every command: six
questions, ten names with a count that may be left out, and `goto` with an
offset. `Refuses` lists all other rows of words with the error that each is
answered with.

No row of words is in both lists and none is in neither (`reads_or_refuses`), so
it takes one direction of each to know what a text is read as.
`parse_exact` says that, and that a command in print is read as the command.
-/

namespace TreeEdit

/-! ## Words -/

namespace Text

/-- The text has a character, and none that is blank. -/
def IsWord (t : Text) : Prop := t ≠ [] ∧ ∀ c ∈ t, isBlank c = false

theorem isWord_of_all {t : Text} (h : (!t.isEmpty && t.all fun c => !isBlank c) = true) :
    t.IsWord := by
  simpa [IsWord] using h

/-- The words of a text from left to right. On either side of a word stands a blank or an end of the
text. -/
inductive Worded : Text → List Text → Prop
  | none {t : Text} : (∀ c ∈ t, isBlank c = true) → Worded t []
  | word {b w t : Text} {ws : List Text} : (∀ c ∈ b, isBlank c = true) → w.IsWord →
      (∀ c ∈ t.head?, isBlank c = true) → Worded t ws → Worded (b ++ w ++ t) (w :: ws)

theorem splitWhere_append {p : Char → Bool} {w : Text} (h : ∀ c ∈ w, p c = false) {t v : Text}
    {vs : List Text} (ht : splitWhere p t = v :: vs) : splitWhere p (w ++ t) = (w ++ v) :: vs := by
  induction w with
  | nil => exact ht
  | cons c w ih =>
    obtain ⟨hc, hw⟩ := List.forall_mem_cons.1 h
    rw [List.cons_append, splitWhere, if_neg (by simp [hc]), ih hw]
    rfl

/-- Blanks in front of a text add no word. -/
theorem words_blanks_append {b : Text} (h : ∀ c ∈ b, isBlank c = true) (t : Text) :
    words (b ++ t) = words t := by
  induction b with
  | nil => rfl
  | cons c b ih =>
    obtain ⟨hc, hb⟩ := List.forall_mem_cons.1 h
    rw [List.cons_append, ← ih hb, words, splitWhere, if_pos hc]
    rfl

theorem words_word_append {w : Text} (hw : w.IsWord) {t : Text}
    (ht : ∀ c ∈ t.head?, isBlank c = true) : words (w ++ t) = w :: words t := by
  obtain ⟨vs, hv, hs⟩ : ∃ vs, splitWhere isBlank t = [] :: vs ∧
      words t = vs.filter fun w => !w.isEmpty := by
    cases t with
    | nil => exact ⟨[], rfl, rfl⟩
    | cons c t =>
      have hc : splitWhere isBlank (c :: t) = [] :: splitWhere isBlank t := by
        rw [splitWhere, if_pos (ht c rfl)]
      exact ⟨_, hc, by rw [words, hc]; rfl⟩
  rw [words, splitWhere_append hw.2 hv, hs, List.append_nil,
    List.filter_cons_of_pos (by simpa using hw.1)]

theorem words_word {w : Text} (hw : w.IsWord) : words w = [w] := by
  have h := words_word_append hw (t := []) (by simp)
  rwa [List.append_nil] at h

theorem words_of_worded {t : Text} {ws : List Text} (h : Worded t ws) : t.words = ws := by
  induction h with
  | @none t ht =>
    have := words_blanks_append ht []
    rwa [List.append_nil] at this
  | word hb hw hr _ ih =>
    rw [List.append_assoc, words_blanks_append hb, words_word_append hw hr, ih]

/-- Every text has words: a character in front of it is a blank more, a word of its own, or the
start of the first word. -/
theorem exists_worded (t : Text) : ∃ ws, Worded t ws := by
  induction t with
  | nil => exact ⟨[], .none (by simp)⟩
  | cons c t ih =>
    obtain ⟨ws, h⟩ := ih
    cases hc : isBlank c with
    | true =>
      cases h with
      | none ht => exact ⟨[], .none (List.forall_mem_cons.2 ⟨hc, ht⟩)⟩
      | word hb hw hr h => exact ⟨_, .word (List.forall_mem_cons.2 ⟨hc, hb⟩) hw hr h⟩
    | false =>
      have alone (ht : ∀ d ∈ t.head?, isBlank d = true) : Worded (c :: t) ([c] :: ws) :=
        .word (b := []) (w := [c]) (by simp) ⟨by simp, by simpa using hc⟩ ht h
      cases h with
      | none ht => exact ⟨_, alone fun d hd => ht d (List.mem_of_mem_head? hd)⟩
      | @word b w t ws hb hw hr h =>
        cases b with
        | nil =>
          have hcw : Text.IsWord (c :: w) := ⟨by simp, List.forall_mem_cons.2 ⟨hc, hw.2⟩⟩
          exact ⟨_, .word (b := []) (by simp) hcw hr h⟩
        | cons d b =>
          refine ⟨_, alone fun d' hd => ?_⟩
          obtain rfl : d = d' := by simpa using hd
          exact hb d List.mem_cons_self

theorem worded_iff {t : Text} {ws : List Text} : Worded t ws ↔ t.words = ws := by
  refine ⟨words_of_worded, ?_⟩
  rintro rfl
  obtain ⟨ws, h⟩ := exists_worded t
  rwa [words_of_worded h]

end Text

/-! ## Numerals -/

namespace Numeral

/-- The text is a numeral for `n`: decimal digits, with a `+` in front of them or without one, whose
value fits 64 bits. -/
def Writes (t : Text) (n : Nat) : Prop :=
  ∃ ds : Text, (t = ds ∨ t = '+' :: ds) ∧ ds ≠ [] ∧ (∀ c ∈ ds, '0' ≤ c ∧ c ≤ '9') ∧
    Nat.ofDigits 10 (ds.reverse.map fun c => c.toNat - '0'.toNat) = n ∧ n < 2 ^ 64

/-- Reading digits from the left adds up their places. -/
theorem value_eq_ofDigits (t : Text) :
    value t = Nat.ofDigits 10 (t.reverse.map fun c => c.toNat - '0'.toNat) := by
  induction t using List.reverseRecOn with
  | nil => rfl
  | append_singleton t c ih =>
    rw [List.reverse_append, List.reverse_singleton, List.singleton_append, List.map_cons,
      Nat.ofDigits_cons, ← ih]
    simp only [value, List.foldl_append, List.foldl_cons, List.foldl_nil]
    omega

theorem isDigit_iff {c : Char} : c.isDigit = true ↔ '0' ≤ c ∧ c ≤ '9' := by
  simp [Char.isDigit, Char.le_def]

theorem digits?_eq_some_iff {t : Text} {n : Nat} : digits? t = some n ↔
    t ≠ [] ∧ (∀ c ∈ t, '0' ≤ c ∧ c ≤ '9') ∧
      Nat.ofDigits 10 (t.reverse.map fun c => c.toNat - '0'.toNat) = n := by
  unfold digits?
  rw [value_eq_ofDigits]
  simp [isDigit_iff, and_assoc]

theorem word?_eq_some_iff {t : Text} {n : Nat} : word? t = some n ↔ Writes t n := by
  unfold word?
  rw [Option.filter_eq_some_iff, digits?_eq_some_iff, decide_eq_true_iff]
  constructor
  · rintro ⟨⟨hn, hd, hv⟩, hlt⟩
    refine ⟨_, ?_, hn, hd, hv, hlt⟩
    split
    · rename_i hp
      obtain ⟨ds, rfl⟩ := List.head?_eq_some_iff.1 hp
      exact .inr rfl
    · exact .inl rfl
  · rintro ⟨ds, rfl | rfl, hn, hd, hv, hlt⟩
    · -- A digit is no `+`.
      have hp : ¬ t.head? = some '+' := fun h => by
        have := hd '+' (List.mem_of_mem_head? h)
        exact absurd this (by decide)
      rw [if_neg hp]
      exact ⟨⟨hn, hd, hv⟩, hlt⟩
    · exact ⟨⟨hn, hd, hv⟩, hlt⟩

theorem writes_print {n : Nat} (h : n < 2 ^ 64) : Writes (print n) n := by
  refine ⟨print n, .inl rfl, Nat.toDigits_ne_nil, fun c hc => ?_, ?_, h⟩
  · exact isDigit_iff.1 (Nat.isDigit_of_mem_toDigits (by decide) (by decide) hc)
  · rw [← value_eq_ofDigits]
    exact Nat.ofDigitChars_ten_toDigits

end Numeral

namespace Command

/-! ## The grammar -/

/-- The questions that can be asked. -/
inductive Question : String → Predicate → Prop
  | root : Question "root?" .root
  | top : Question "top?" .treeRoot
  | first : Question "first?" .first
  | last : Question "last?" .last
  | initial : Question "initial?" .initial
  | final : Question "final?" .final

/-- The names that a count may follow. -/
inductive Counted : String → (Nat → Command) → Prop
  | next : Counted "next" (move .next)
  | prev : Counted "prev" (move .previous)
  | parent : Counted "parent" (move .parent)
  | child : Counted "child" (move .child)
  | delete : Counted "delete" delete
  | deleteKeep : Counted "delete-keep" deleteKeep
  | deleteBack : Counted "delete-back" deleteBack
  | yank : Counted "yank" yank
  | pasteAfter : Counted "paste-after" (paste · .after)
  | pasteBefore : Counted "paste-before" (paste · .before)

/-- The words that a command is read from. -/
inductive Reads : List Text → Command → Prop
  | question {q : String} {p : Predicate} : Question q p → Reads [q.toList] (query p)
  | once {n : String} {f : Nat → Command} : Counted n f → Reads [n.toList] (f 1)
  | counted {n : String} {f : Nat → Command} {v : Text} {k : Nat} : Counted n f →
      Numeral.Writes v k → Reads [n.toList, v] (f k)
  | goto {v : Text} {k : Nat} : Numeral.Writes v k → Reads ["goto".toList, v] (goto k)

/-- The word is no name of a command without a question mark. -/
def Unnamed (name : Text) : Prop :=
  name ≠ "goto".toList ∧ ∀ n f, Counted n f → name ≠ n.toList

/-- The words that no command is read from, and why. -/
inductive Refuses : List Text → CommandError → Prop
  | empty : Refuses [] .empty
  /-- A third word is refused before the name is looked at. -/
  | third {name argument extra : Text} {more : List Text} :
      Refuses (name :: argument :: extra :: more) (.unexpectedArgument name extra)
  | argument {name argument : Text} : name.getLast? = some '?' →
      Refuses [name, argument] (.unexpectedArgument name argument)
  | question {name : Text} : name.getLast? = some '?' → (∀ q p, Question q p → name ≠ q.toList) →
      Refuses [name] (.unknown name)
  | unknown {name : Text} {arguments : List Text} : name.getLast? ≠ some '?' → Unnamed name →
      arguments.length ≤ 1 → Refuses (name :: arguments) (.unknown name)
  | offset : Refuses ["goto".toList] (.missingOffset "goto".toList)
  | count {name value : Text} : name.getLast? ≠ some '?' → ¬ Unnamed name →
      (∀ k, ¬ Numeral.Writes value k) → Refuses [name, value] (.invalidCount name value)

/-! ## Reading words -/

theorem number_of_writes {name v : Text} {k : Nat} (h : Numeral.Writes v k) :
    number name v = .ok k := by
  rw [number, Numeral.word?_eq_some_iff.2 h]

theorem number_of_not_writes {name v : Text} (h : ∀ k, ¬ Numeral.Writes v k) :
    number name v = .error (.invalidCount name v) := by
  have hn : Numeral.word? v = none := Option.eq_none_iff_forall_ne_some.2 fun k hk =>
    h k (Numeral.word?_eq_some_iff.1 hk)
  rw [number, hn]

theorem ofWords_question {q : String} {p : Predicate} (h : Question q p) :
    ofWords q.toList none = .ok (query p) := by
  cases h <;> rfl

theorem ofWords_counted {n : String} {f : Nat → Command} (h : Counted n f)
    (argument : Option Text) :
    ofWords n.toList argument = match argument with
      | some v => f <$> number n.toList v
      | none => .ok (f 1) := by
  cases h <;> rfl

theorem ofWords_goto (argument : Option Text) :
    ofWords "goto".toList argument = match argument with
      | some v => goto <$> number "goto".toList v
      | none => .error (.missingOffset "goto".toList) := rfl

theorem exists_question (p : Predicate) : ∃ q, Question q p ∧ p.print = q.toList := by
  cases p
  exacts [⟨_, .root, rfl⟩, ⟨_, .top, rfl⟩, ⟨_, .first, rfl⟩, ⟨_, .last, rfl⟩, ⟨_, .initial, rfl⟩,
    ⟨_, .final, rfl⟩]

theorem ofWords_of_unknown_question {name : Text} (hq : name.getLast? = some '?')
    (h : ∀ q p, Question q p → name ≠ q.toList) : ofWords name none = .error (.unknown name) := by
  have hf : Predicate.all.find? (fun p => p.print == name) = none := by
    refine List.find?_eq_none.2 fun p _ => ?_
    obtain ⟨q, hp, hqp⟩ := exists_question p
    rw [hqp]
    simpa using fun he => h q p hp he.symm
  rw [ofWords, if_pos hq, hf]

theorem counted_of_mem {c : String × (Nat → Command)} (h : c ∈ counted) : Counted c.1 c.2 := by
  simp only [counted, List.mem_cons, List.not_mem_nil, or_false] at h
  rcases h with rfl | rfl | rfl | rfl | rfl | rfl | rfl | rfl | rfl | rfl
  exacts [.next, .prev, .parent, .child, .delete, .deleteKeep, .deleteBack, .yank, .pasteAfter,
    .pasteBefore]

theorem ofWords_of_unnamed {name : Text} (hq : name.getLast? ≠ some '?') (h : Unnamed name)
    (argument : Option Text) : ofWords name argument = .error (.unknown name) := by
  have hf : counted.find? (fun c => c.1.toList == name) = none := by
    refine List.find?_eq_none.2 fun c hc => ?_
    simpa using fun he => h.2 c.1 c.2 (counted_of_mem hc) he.symm
  unfold ofWords
  rw [if_neg hq, if_neg h.1, hf]

/-- A name that is known takes an argument as a number. -/
theorem ofWords_of_not_writes {name v : Text} (hn : ¬ Unnamed name)
    (hv : ∀ k, ¬ Numeral.Writes v k) : ofWords name (some v) = .error (.invalidCount name v) := by
  by_cases hg : name = "goto".toList
  · subst hg
    rw [ofWords_goto]
    dsimp only
    rw [number_of_not_writes hv]
    rfl
  · simp only [Unnamed, not_and, not_forall, not_not] at hn
    obtain ⟨n, f, hc, rfl⟩ := hn hg
    rw [ofWords_counted hc]
    dsimp only
    rw [number_of_not_writes hv]
    rfl

theorem parse_of_reads {t : Text} {c : Command} (h : Reads t.words c) : parse t = .ok c := by
  unfold parse
  generalize t.words = ws at h
  cases h with
  | question h => exact ofWords_question h
  | once h => exact ofWords_counted h none
  | @counted n f v k h hv =>
    dsimp only
    rw [ofWords_counted h]
    dsimp only
    rw [number_of_writes hv]
    rfl
  | @goto v k hv =>
    dsimp only
    rw [ofWords_goto]
    dsimp only
    rw [number_of_writes hv]
    rfl

theorem parse_of_refuses {t : Text} {e : CommandError} (h : Refuses t.words e) :
    parse t = .error e := by
  unfold parse
  generalize t.words = ws at h
  cases h with
  | empty => rfl
  | third => rfl
  | argument hq =>
    dsimp only
    rw [ofWords, if_pos hq]
  | question hq h => exact ofWords_of_unknown_question hq h
  | @unknown name arguments hq h hl =>
    match arguments, hl with
    | [], _ => exact ofWords_of_unnamed hq h none
    | [a], _ => exact ofWords_of_unnamed hq h (some a)
  | offset => rfl
  | count hq hn hv => exact ofWords_of_not_writes hn hv

/-- Some command is read from the words, or they are refused. -/
theorem reads_or_refuses (ws : List Text) : (∃ c, Reads ws c) ∨ ∃ e, Refuses ws e := by
  match ws with
  | [] => exact .inr ⟨_, .empty⟩
  | _ :: _ :: _ :: _ => exact .inr ⟨_, .third⟩
  | [name] =>
    by_cases hq : name.getLast? = some '?'
    · by_cases h : ∃ q p, Question q p ∧ name = q.toList
      · obtain ⟨q, p, hp, rfl⟩ := h
        exact .inl ⟨_, .question hp⟩
      · exact .inr ⟨_, .question hq fun q p hp he => h ⟨q, p, hp, he⟩⟩
    · by_cases hg : name = "goto".toList
      · subst hg
        exact .inr ⟨_, .offset⟩
      · by_cases h : ∃ n f, Counted n f ∧ name = n.toList
        · obtain ⟨n, f, hc, rfl⟩ := h
          exact .inl ⟨_, .once hc⟩
        · exact .inr ⟨_, .unknown hq ⟨hg, fun n f hc he => h ⟨n, f, hc, he⟩⟩ (Nat.zero_le _)⟩
  | [name, v] =>
    by_cases hq : name.getLast? = some '?'
    · exact .inr ⟨_, .argument hq⟩
    · by_cases hn : Unnamed name
      · exact .inr ⟨_, .unknown hq hn (Nat.le_refl _)⟩
      · by_cases hv : ∃ k, Numeral.Writes v k
        · obtain ⟨k, hk⟩ := hv
          by_cases hg : name = "goto".toList
          · subst hg
            exact .inl ⟨_, .goto hk⟩
          · simp only [Unnamed, not_and, not_forall, not_not] at hn
            obtain ⟨n, f, hc, rfl⟩ := hn hg
            exact .inl ⟨_, .counted hc hk⟩
        · exact .inr ⟨_, .count hq hn (not_exists.1 hv)⟩

theorem parse_eq_ok_iff {t : Text} {c : Command} : parse t = .ok c ↔ Reads t.words c := by
  refine ⟨fun h => ?_, parse_of_reads⟩
  obtain ⟨c', hc⟩ | ⟨e, he⟩ := reads_or_refuses t.words
  · obtain rfl := Except.ok.inj ((parse_of_reads hc).symm.trans h)
    exact hc
  · cases (parse_of_refuses he).symm.trans h

theorem parse_eq_error_iff {t : Text} {e : CommandError} :
    parse t = .error e ↔ Refuses t.words e := by
  refine ⟨fun h => ?_, parse_of_refuses⟩
  obtain ⟨c, hc⟩ | ⟨e', he⟩ := reads_or_refuses t.words
  · cases (parse_of_reads hc).symm.trans h
  · obtain rfl := Except.error.inj ((parse_of_refuses he).symm.trans h)
    exact he

/-! ## Commands in print -/

/-- The count or offset of a command. -/
def number? : Command → Option Nat
  | move _ n | delete n | deleteKeep n | deleteBack n | yank n | paste n _ | goto n => some n
  | query _ => none

theorem Counted.isWord {n : String} {f : Nat → Command} (h : Counted n f) :
    Text.IsWord n.toList := by
  cases h <;> exact Text.isWord_of_all (by decide)

theorem Question.isWord {q : String} {p : Predicate} (h : Question q p) :
    Text.IsWord q.toList := by
  cases h <;> exact Text.isWord_of_all (by decide)

theorem not_isBlank_of_isDigit {c : Char} (h : c.isDigit = true) : isBlank c = false := by
  have hc : 48 ≤ c.toNat ∧ c.toNat ≤ 57 := by
    simpa [Char.isDigit, UInt32.le_iff_toNat_le] using h
  simp only [isBlank, blankRanges, List.any_cons, List.any_nil, Bool.or_false, Bool.or_eq_false_iff,
    Bool.and_eq_false_iff, decide_eq_false_iff_not]
  omega

/-- A name with a number behind it has two words. -/
theorem words_name_number {name : Text} (h : name.IsWord) (k : Nat) :
    Text.words (name ++ ' ' :: Numeral.print k) = [name, Numeral.print k] := by
  have hd : (Numeral.print k).IsWord := by
    refine ⟨Nat.toDigits_ne_nil, fun c hc => not_isBlank_of_isDigit ?_⟩
    exact Nat.isDigit_of_mem_toDigits (by decide) (by decide) hc
  have hs : Text.words (' ' :: Numeral.print k) = [Numeral.print k] := by
    rw [← Text.words_word hd]
    exact Text.words_blanks_append (List.forall_mem_singleton.2 rfl) _
  rw [Text.words_word_append h (by rintro c ⟨⟩; decide), hs]

theorem spaced {name word : Text} (h : word = name ++ [' ']) (k : Nat) :
    word ++ Numeral.print k = name ++ ' ' :: Numeral.print k := by
  rw [h, List.append_assoc]
  rfl

theorem Counted.print_eq {n : String} {f : Nat → Command} (h : Counted n f) (k : Nat) :
    (f k).print = n.toList ++ ' ' :: Numeral.print k := by
  cases h <;> exact spaced (by decide) k

theorem Counted.number?_eq {n : String} {f : Nat → Command} (h : Counted n f) (k : Nat) :
    (f k).number? = some k := by
  cases h <;> rfl

/-- A command is a question, a counted name with its count, or `goto` with its offset. -/
theorem forms (c : Command) :
    (∃ p, c = query p) ∨ (∃ n f k, Counted n f ∧ c = f k) ∨ ∃ k, c = goto k := by
  cases c with
  | query p => exact .inl ⟨p, rfl⟩
  | goto k => exact .inr (.inr ⟨k, rfl⟩)
  | move m k =>
    cases m with
    | next => exact .inr (.inl ⟨_, _, k, .next, rfl⟩)
    | previous => exact .inr (.inl ⟨_, _, k, .prev, rfl⟩)
    | parent => exact .inr (.inl ⟨_, _, k, .parent, rfl⟩)
    | child => exact .inr (.inl ⟨_, _, k, .child, rfl⟩)
  | delete k => exact .inr (.inl ⟨_, _, k, .delete, rfl⟩)
  | deleteKeep k => exact .inr (.inl ⟨_, _, k, .deleteKeep, rfl⟩)
  | deleteBack k => exact .inr (.inl ⟨_, _, k, .deleteBack, rfl⟩)
  | yank k => exact .inr (.inl ⟨_, _, k, .yank, rfl⟩)
  | paste k p =>
    cases p with
    | after => exact .inr (.inl ⟨_, _, k, .pasteAfter, rfl⟩)
    | before => exact .inr (.inl ⟨_, _, k, .pasteBefore, rfl⟩)

theorem reads_print {c : Command} (hc : ∀ k ∈ c.number?, k < 2 ^ 64) : Reads c.print.words c := by
  obtain ⟨p, rfl⟩ | ⟨n, f, k, hf, rfl⟩ | ⟨k, rfl⟩ := forms c
  · obtain ⟨q, hq, hp⟩ := exists_question p
    have hp : (query p).print = q.toList := hp
    rw [hp, Text.words_word hq.isWord]
    exact .question hq
  · rw [hf.print_eq, words_name_number hf.isWord]
    exact .counted hf (Numeral.writes_print (hc k (hf.number?_eq k)))
  · have hp : (goto k).print = "goto".toList ++ ' ' :: Numeral.print k := spaced (by decide) k
    rw [hp, words_name_number (Text.isWord_of_all (by decide))]
    exact .goto (Numeral.writes_print (hc k rfl))

/-! ## Texts -/

/-- The text of a command is read as the command. A text has one row of words: those that are
listed for a command are read as that command, and all others are refused with the error that is
listed for them. -/
theorem parse_exact :
    (∀ c : Command, (∀ k ∈ c.number?, k < 2 ^ 64) → parse c.print = .ok c) ∧
    ∀ t : Text, ∃ ws, (∀ us, Text.Worded t us ↔ us = ws) ∧
      (∀ c, parse t = .ok c ↔ Reads ws c) ∧ ∀ e, parse t = .error e ↔ Refuses ws e := by
  refine ⟨fun c hc => parse_of_reads (reads_print hc), fun t => ?_⟩
  refine ⟨t.words, fun us => ?_, fun c => parse_eq_ok_iff, fun e => parse_eq_error_iff⟩
  rw [Text.worded_iff, eq_comm]

/-- The largest count is read back from print. A count may have a sign, leading zeros and odd blanks
around it. A third word is refused even behind a name that takes none. -/
theorem parse_exact_samples :
    parse (deleteKeep 18446744073709551615).print = .ok (deleteKeep 18446744073709551615) ∧
    parse "　prev\t+007".toList = .ok (move .previous 7) ∧
    parse "first? 1 2".toList = .error (.unexpectedArgument "first?".toList "2".toList) := by
  refine ⟨parse_exact.1 _ (by decide), ?_, ?_⟩
  · obtain ⟨ws, hw, hr, -⟩ := parse_exact.2 "　prev\t+007".toList
    obtain rfl := (hw _).1 (Text.worded_iff.2 rfl)
    exact (hr _).2 (.counted .prev (Numeral.word?_eq_some_iff.1 rfl))
  · obtain ⟨ws, hw, -, hf⟩ := parse_exact.2 "first? 1 2".toList
    obtain rfl := (hw _).1 (Text.worded_iff.2 rfl)
    exact (hf _).2 .third

end Command

end TreeEdit
