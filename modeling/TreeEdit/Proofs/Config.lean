import Mathlib.Data.List.Nodup
import Mathlib.Data.List.TakeWhile
import TreeEdit.Config.Basic
import TreeEdit.Proofs.Command
/-!
# Valid configurations

A configuration is valid if its language has a name that is known, the kill ring has room
for an entry, and no two rules are for the same mode and event. The list of issues is empty
exactly then (`issues_eq_nil_iff`), and else it names every reason, in a fixed order.
`validation_exact` is the account of both.

Of several rules for the same mode and event the last one counts. In a valid configuration
there are no such rules, so their order is of no importance: `target_perm` says so of the
machine that they make.
-/

namespace TreeEdit

/-! ## Names of languages -/

namespace Text

/-- Around a word the blanks are taken away. -/
theorem trim_word {b w b' : Text} (hb : ∀ c ∈ b, isBlank c = true) (hw : w.IsWord)
    (hb' : ∀ c ∈ b', isBlank c = true) : (b ++ w ++ b').trim = w := by
  obtain ⟨hne, hn⟩ := hw
  -- A word starts with a character that is not blank, and so does its reverse.
  have hd : ∀ {v : Text}, v ≠ [] → (∀ c ∈ v, isBlank c = false) → ∀ t : Text,
      (v ++ t).dropWhile isBlank = v ++ t := by
    intro v hv hc t
    obtain ⟨c, v, rfl⟩ := List.exists_cons_of_ne_nil hv
    rw [List.cons_append, List.dropWhile_cons_of_neg (by simp [hc])]
  have hr : ∀ c ∈ b'.reverse, isBlank c = true := fun c hc => hb' c (List.mem_reverse.1 hc)
  have hw' := hd (v := w.reverse) (by simpa using hne)
    (fun c hc => hn c (List.mem_reverse.1 hc)) []
  rw [List.append_nil] at hw'
  rw [trim, List.append_assoc, List.dropWhile_append_of_pos hb, hd hne hn, List.reverse_append,
    List.dropWhile_append_of_pos hr, hw', List.reverse_reverse]

/-- What is taken away are blanks on both sides. -/
theorem exists_trim (t : Text) : ∃ b b', t = b ++ t.trim ++ b' ∧
    (∀ c ∈ b, isBlank c = true) ∧ ∀ c ∈ b', isBlank c = true := by
  have hb (v : Text) : ∀ c ∈ v.takeWhile isBlank, isBlank c = true := fun c hc =>
    List.all_eq_true.1 List.all_takeWhile c hc
  refine ⟨t.takeWhile isBlank, ((t.dropWhile isBlank).reverse.takeWhile isBlank).reverse, ?_, hb t,
    fun c hc => hb _ c (List.mem_reverse.1 hc)⟩
  rw [trim, List.append_assoc, ← List.reverse_append, List.takeWhile_append_dropWhile,
    List.reverse_reverse, List.takeWhile_append_dropWhile]

theorem trim_eq_nil_iff {t : Text} : t.trim = [] ↔ t.allBlank = true := by
  constructor
  · intro h
    obtain ⟨b, b', ht, hb, hb'⟩ := t.exists_trim
    rw [ht, h, List.append_nil, allBlank, List.all_append, List.all_eq_true.2 hb,
      List.all_eq_true.2 hb', Bool.and_self]
  · intro h
    have hd : t.dropWhile isBlank = [] := List.dropWhile_eq_nil_iff.2 (List.all_eq_true.1 h)
    rw [trim, hd]
    rfl

end Text

namespace Language

/-- One of the names of the language is this one, without regard to blanks around it and to the case
of letters. -/
def GoesBy (l : Language) (name : Text) : Prop :=
  ∃ n ∈ l.names, ∃ b w b', name = b ++ w ++ b' ∧ w.map Char.toLower = n.toList ∧
    (∀ c ∈ b, isBlank c = true) ∧ ∀ c ∈ b', isBlank c = true

theorem mem_all (l : Language) : l ∈ all := by cases l <;> decide

theorem isWord_of_mem_names {l : Language} {n : String} (h : n ∈ l.names) :
    Text.IsWord n.toList := by
  have ha : ∀ n ∈ l.names, (!n.toList.isEmpty && n.toList.all fun c => !isBlank c) = true := by
    cases l <;> decide
  exact Text.isWord_of_all (ha n h)

/-- A blank is no letter, so it has no other case. -/
theorem toLower_of_isBlank {c : Char} (h : isBlank c = true) : c.toLower = c := by
  unfold Char.toLower
  refine dif_neg fun hu => ?_
  have hA : 'A'.toNat = 65 := rfl
  have hZ : 'Z'.toNat = 90 := rfl
  simp only [ge_iff_le, UInt32.le_iff_toNat_le, Char.toNat_val] at hu
  simp only [isBlank, blankRanges, List.any_cons, List.any_nil, Bool.or_eq_true, Bool.and_eq_true,
    decide_eq_true_eq, Bool.false_eq_true, or_false] at h
  omega

/-- To go by a name is to have it when the blanks around it are gone and its letters are small. -/
theorem goesBy_iff {l : Language} {name : Text} :
    l.GoesBy name ↔ ∃ n ∈ l.names, n.toList = name.trim.map Char.toLower := by
  constructor
  · rintro ⟨n, hn, b, w, b', rfl, hw, hb, hb'⟩
    have hword : Text.IsWord w := by
      obtain ⟨hne, hc⟩ := isWord_of_mem_names hn
      rw [← hw] at hne hc
      refine ⟨by simpa using hne, fun c hcw => ?_⟩
      cases hbl : isBlank c with
      | false => rfl
      | true =>
        have hl := hc _ (List.mem_map_of_mem hcw)
        rw [toLower_of_isBlank hbl, hbl] at hl
        simp at hl
    exact ⟨n, hn, by rw [Text.trim_word hb hword hb', hw]⟩
  · rintro ⟨n, hn, hname⟩
    obtain ⟨b, b', ht, hb, hb'⟩ := name.exists_trim
    exact ⟨n, hn, b, name.trim, b', ht, hname.symm, hb, hb'⟩

theorem goesBy_of_ofName? {l : Language} {name : Text} (h : ofName? name = some l) :
    l.GoesBy name := by
  have hl := List.find?_some h
  simp only [List.any_eq_true, beq_iff_eq] at hl
  exact goesBy_iff.2 hl

theorem ofName?_eq_none_iff {name : Text} :
    ofName? name = none ↔ ∀ l : Language, ¬ l.GoesBy name := by
  simp only [ofName?, List.find?_eq_none, List.any_eq_true, beq_iff_eq, goesBy_iff]
  exact ⟨fun h l => h l (mem_all l), fun h l _ => h l⟩

/-- No language goes by a blank name. -/
theorem not_goesBy_of_allBlank {name : Text} (h : name.allBlank = true) (l : Language) :
    ¬ l.GoesBy name := by
  rw [goesBy_iff, Text.trim_eq_nil_iff.2 h]
  rintro ⟨n, hn, he⟩
  exact (isWord_of_mem_names hn).1 he

end Language

/-! ## Rules -/

/-- The mode and the event that the rule is for. -/
def TransitionRule.key (r : TransitionRule) : Mode × ModeEvent := (r.source, r.event)

namespace Config

/-- The rules with an earlier one for the same mode and event, in their order. -/
def repeats (rules : List TransitionRule) : List TransitionRule :=
  (rules.zipIdx.filter fun p =>
    ((rules.take p.2).map TransitionRule.key).contains p.1.key).map Prod.fst

/-- The scan has seen the keys of the rules before, and goes on with the rest. -/
theorem repeatedRules_append (seen : List (Mode × ModeEvent)) (before rest : List TransitionRule)
    (h : ∀ k, k ∈ seen ↔ k ∈ before.map TransitionRule.key) :
    repeatedRules seen rest = (((rest.zipIdx before.length).filter fun p =>
      (((before ++ rest).take p.2).map TransitionRule.key).contains p.1.key).map Prod.fst).map
        fun r => .duplicateTransition r.source r.event := by
  induction rest generalizing seen before with
  | nil => rfl
  | cons r rest ih =>
    have ha : before ++ r :: rest = (before ++ [r]) ++ rest := by simp
    have hl : before.length + 1 = (before ++ [r]).length := by simp
    have ht : (before ++ r :: rest).take before.length = before := List.take_left
    have hk : (r.source, r.event) ∈ seen ↔ r.key ∈ before.map TransitionRule.key := h r.key
    rw [repeatedRules, List.zipIdx_cons, hl]
    by_cases hs : (r.source, r.event) ∈ seen
    · rw [if_pos hs, List.filter_cons_of_pos (by rw [ht]; simpa using hk.1 hs), ha]
      refine congrArg _ (ih seen (before ++ [r]) fun k => ?_)
      rw [h, List.map_append, List.mem_append, List.map_singleton, List.mem_singleton]
      exact ⟨.inl, fun h => h.elim id fun he => he ▸ hk.1 hs⟩
    · rw [if_neg hs, List.filter_cons_of_neg (by rw [ht]; simpa using fun h => hs (hk.2 h)), ha]
      refine ih _ (before ++ [r]) fun k => ?_
      rw [List.mem_cons, h, List.map_append, List.mem_append, List.map_singleton,
        List.mem_singleton]
      exact or_comm

theorem repeatedRules_eq (rules : List TransitionRule) : repeatedRules [] rules =
    (repeats rules).map fun r => .duplicateTransition r.source r.event :=
  repeatedRules_append [] [] rules (by simp)

theorem repeats_concat (rules : List TransitionRule) (r : TransitionRule) :
    repeats (rules ++ [r]) =
      repeats rules ++ if r.key ∈ rules.map TransitionRule.key then [r] else [] := by
  unfold repeats
  rw [List.zipIdx_append, List.filter_append, List.map_append]
  congr 1
  · refine congrArg _ (List.filter_congr fun p hp => ?_)
    rw [List.take_append_of_le_length (Nat.le_of_lt (List.snd_lt_of_mem_zipIdx hp))]
  · by_cases hr : r.key ∈ rules.map TransitionRule.key
    · simp [hr]
    · simp [hr]

/-- No rule is a repetition exactly if no two rules have the same key. -/
theorem repeats_eq_nil_iff {rules : List TransitionRule} :
    repeats rules = [] ↔ (rules.map TransitionRule.key).Nodup := by
  induction rules using List.reverseRecOn with
  | nil => simp [repeats]
  | append_singleton rules r ih =>
    rw [repeats_concat, List.append_eq_nil_iff, ih, List.map_append, List.map_singleton,
      List.nodup_append]
    simp

/-! ## Issues -/

/-- What is wrong with the name of a language, if anything. -/
inductive LanguageIssues (name : Text) : List ConfigIssue → Prop
  | missing : name.allBlank = true → LanguageIssues name [.missingField "engine.language"]
  | unknown : name.allBlank = false → (∀ l : Language, ¬ l.GoesBy name) →
      LanguageIssues name [.unknownLanguage name]
  | none {l : Language} : l.GoesBy name → LanguageIssues name []

/-- The configuration asks for a known language, a ring with room, and no two things at once. -/
structure Valid (c : Config) : Prop where
  language : ∃ l : Language, l.GoesBy c.language
  capacity : 1 ≤ c.killRingCapacity
  rules : (c.transitions.map TransitionRule.key).Nodup

variable {c : Config}

theorem languageIssues_issues (c : Config) : LanguageIssues c.language c.languageIssues := by
  unfold languageIssues
  cases hb : c.language.allBlank with
  | true =>
    rw [if_pos (by simpa using Text.trim_eq_nil_iff.2 hb)]
    exact .missing hb
  | false =>
    rw [if_neg (by simpa [Text.trim_eq_nil_iff] using hb)]
    cases hn : Language.ofName? c.language with
    | none => exact .unknown hb (Language.ofName?_eq_none_iff.1 hn)
    | some l => exact .none (Language.goesBy_of_ofName? hn)

theorem languageIssues_eq_nil_iff :
    c.languageIssues = [] ↔ ∃ l : Language, l.GoesBy c.language := by
  have h := c.languageIssues_issues
  generalize c.languageIssues = issues at h ⊢
  cases h with
  | missing hb =>
    refine iff_of_false (by simp) ?_
    rintro ⟨l, hl⟩
    exact Language.not_goesBy_of_allBlank hb l hl
  | unknown hb hl => exact iff_of_false (by simp) fun ⟨l, h⟩ => hl l h
  | none hl => exact iff_of_true rfl ⟨_, hl⟩

/-- A configuration without issues is valid, and a valid one has none. -/
theorem issues_eq_nil_iff : c.issues = [] ↔ c.Valid := by
  have hcap : c.capacityIssues = [] ↔ 1 ≤ c.killRingCapacity := by
    unfold capacityIssues
    split <;> simp <;> omega
  rw [issues, List.append_eq_nil_iff, List.append_eq_nil_iff, languageIssues_eq_nil_iff, hcap,
    repeatedRules_eq, List.map_eq_nil_iff, repeats_eq_nil_iff]
  exact ⟨fun ⟨⟨hl, hc⟩, hr⟩ => ⟨hl, hc, hr⟩, fun ⟨hl, hc, hr⟩ => ⟨⟨hl, hc⟩, hr⟩⟩

/-- The language of a valid configuration is found by its name. -/
theorem exists_language (h : c.issues = []) : ∃ l, Language.ofName? c.language = some l := by
  cases hl : Language.ofName? c.language with
  | some l => exact ⟨l, rfl⟩
  | none =>
    obtain ⟨l, hg⟩ := (issues_eq_nil_iff.1 h).language
    exact absurd hg (Language.ofName?_eq_none_iff.1 hl l)

end Config

/-! ## Machines -/

namespace ModeMachine

/-- Where an event leads from a mode: a rule says it, or else the frontend, and if neither does the
mode stays. -/
inductive Leads (f : Frontend) (rules : List TransitionRule) (source : Mode) (event : ModeEvent) :
    Mode → Prop
  | rule {r : TransitionRule} : r ∈ rules → r.key = (source, event) →
      Leads f rules source event r.target
  | frontend {m : Mode} : (∀ r ∈ rules, r.key ≠ (source, event)) →
      f.transition? source event = some m → Leads f rules source event m
  | same : (∀ r ∈ rules, r.key ≠ (source, event)) → f.transition? source event = none →
      Leads f rules source event source

variable {f : Frontend} {rules rules' : List TransitionRule} {source m m' : Mode}
  {event : ModeEvent}

theorem Leads.perm (h : Leads f rules source event m) (hp : rules'.Perm rules) :
    Leads f rules' source event m := by
  cases h with
  | rule hr hk => exact .rule (hp.mem_iff.2 hr) hk
  | frontend hn hm => exact .frontend (fun r hr => hn r (hp.mem_iff.1 hr)) hm
  | same hn hm => exact .same (fun r hr => hn r (hp.mem_iff.1 hr)) hm

/-- Rules with different keys lead to one mode. -/
theorem Leads.unique (hn : (rules.map TransitionRule.key).Nodup)
    (h : Leads f rules source event m) (h' : Leads f rules source event m') : m = m' := by
  cases h with
  | rule hr hk =>
    cases h' with
    | rule hr' hk' => rw [List.inj_on_of_nodup_map hn hr hr' (hk.trans hk'.symm)]
    | frontend hno _ => exact absurd hk (hno _ hr)
    | same hno _ => exact absurd hk (hno _ hr)
  | frontend hno hm =>
    cases h' with
    | rule hr' hk' => exact absurd hk' (hno _ hr')
    | frontend _ hm' => exact Option.some.inj (hm.symm.trans hm')
    | same _ hm' => simp [hm] at hm'
  | same hno hm =>
    cases h' with
    | rule hr' hk' => exact absurd hk' (hno _ hr')
    | frontend _ hm' => simp [hm] at hm'
    | same _ _ => rfl

/-- The machine goes where its rules and its frontend lead. -/
theorem leads_target (f : Frontend) (rules : List TransitionRule) (mode : Mode)
    (event : ModeEvent) : Leads f rules mode event (target ⟨mode, f, rules⟩ event) := by
  have hkey (r : TransitionRule) :
      (r.source == mode && r.event == event) = true ↔ r.key = (mode, event) := by
    simp [TransitionRule.key]
  unfold target targetFrom
  split
  · rename_i r hr
    have hs := List.find?_some hr
    exact .rule (List.mem_reverse.1 (List.mem_of_find?_eq_some hr)) ((hkey r).1 hs)
  · rename_i hr
    have hno : ∀ r ∈ rules, r.key ≠ (mode, event) := fun r hm hk =>
      List.find?_eq_none.1 hr r (List.mem_reverse.2 hm) ((hkey r).2 hk)
    cases hf : f.transition? mode event with
    | none => exact .same hno hf
    | some m => exact .frontend hno hf

/-- The order of rules with different keys makes no difference, whatever mode is on. -/
theorem target_perm (hp : rules'.Perm rules) (hn : (rules.map TransitionRule.key).Nodup)
    (f : Frontend) (mode : Mode) (event : ModeEvent) :
    target ⟨mode, f, rules'⟩ event = target ⟨mode, f, rules⟩ event :=
  ((leads_target f rules' mode event).perm hp.symm).unique hn (leads_target f rules mode event)

end ModeMachine

namespace Config

/-- The list of issues is empty exactly for a valid configuration. It holds at most one issue with
the language, then the one with the capacity, then one for every rule whose mode and event an
earlier rule has. If the configuration is valid, so it is with the rules in any other order, and
from every mode every event leads to the same mode then: where a rule says, or else the frontend, or
nowhere else. And it opens an engine on every text, in a language that goes by the name. -/
theorem validation_exact (c : Config) :
    (c.issues = [] ↔ c.Valid) ∧
    (∃ ls, LanguageIssues c.language ls ∧ c.issues = ls ++
      (if c.killRingCapacity = 0 then
        [.invalidValue "engine.kill_ring_capacity" "must be at least 1"] else []) ++
      (repeats c.transitions).map fun r => .duplicateTransition r.source r.event) ∧
    (c.issues = [] → ∀ rules, rules.Perm c.transitions →
      { c with transitions := rules }.issues = [] ∧
      ∀ mode event,
        { { c with transitions := rules }.modes with current := mode }.target event
          = { c.modes with current := mode }.target event ∧
        ModeMachine.Leads c.frontend c.transitions mode event
          ({ c.modes with current := mode }.target event)) ∧
    (c.issues = [] → ∀ text h, ∃ l e, Language.GoesBy l c.language ∧
      c.engine? text h = some e ∧ e.buffer = .ofText text l) := by
  refine ⟨issues_eq_nil_iff, ⟨_, c.languageIssues_issues, ?_⟩, fun hc rules hp => ?_,
    fun hc text h => ?_⟩
  · rw [issues, repeatedRules_eq]
    rfl
  · obtain ⟨hl, hcap, hr⟩ := issues_eq_nil_iff.1 hc
    refine ⟨issues_eq_nil_iff.2 ⟨hl, hcap, (hp.map _).nodup_iff.2 hr⟩, fun mode event => ⟨?_, ?_⟩⟩
    · exact ModeMachine.target_perm hp hr c.frontend mode event
    · exact ModeMachine.leads_target c.frontend c.transitions mode event
  · obtain ⟨l, hl⟩ := exists_language hc
    exact ⟨l, _, Language.goesBy_of_ofName? hl, by rw [engine?, hl]; rfl, rfl⟩

/-- Two rules for a plain frontend. -/
def rewiring : Config :=
  { default with
    language := " JSON".toList
    frontend := .plain
    transitions := [⟨.insert, .escape, .structural⟩, ⟨.structural, .escape, .normal⟩] }

/-- With the rules the other way round the machine leads to the same modes, and the frontend has its
say where no rule has one. -/
theorem validation_exact_rewiring :
    rewiring.issues = [] ∧ rewiring.Valid ∧
    { { rewiring with transitions := rewiring.transitions.reverse }.modes with
      current := .insert }.target .escape = .structural ∧
    { { rewiring with transitions := rewiring.transitions.reverse }.modes with
      current := .structural }.target .enterInsert = .insert ∧
    ∃ l e, Language.GoesBy l " JSON".toList ∧
      rewiring.engine? ['1'] .silent = some e ∧ e.buffer = .ofText ['1'] l := by
  have hi : rewiring.issues = [] := by decide
  obtain ⟨hv, -, hp, he⟩ := validation_exact rewiring
  obtain ⟨-, ht⟩ := hp hi _ (List.reverse_perm _)
  exact ⟨hi, hv.1 hi, (ht .insert .escape).1, (ht .structural .enterInsert).1, he hi _ _⟩

/-- A second rule for what the first one is for, a blank name and a ring without room. -/
example : issues ⟨" ".toList, .plain, false, 0, true,
    [⟨.insert, .escape, .structural⟩, ⟨.insert, .escape, .normal⟩]⟩ =
    [.missingField "engine.language",
      .invalidValue "engine.kill_ring_capacity" "must be at least 1",
      .duplicateTransition .insert .escape] := by decide

end Config

end TreeEdit
