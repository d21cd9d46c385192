import Mathlib.Data.List.Forall2
import TreeEdit.Cli.Run
import TreeEdit.Proofs.Engine.Basic
/-!
# What a run does to the files

A run writes once, at its end, and only to the file it works on. `run_cases` follows the
run to that point: it leaves the files alone, or it was ready (`Ready`), all commands went
through (`Executes`), the text has changed in place, and the files are what saving has
made of them.

How a file is saved is left open. All that `run_replaces` asks is that a save that does not
fail has replaced the content of that file (`Files.Faithful`).
-/

namespace TreeEdit

/-! ## Files -/

namespace Files

variable {fs fs' : Files} {p q : Place}

theorem lookup_map_replace (fs : Files) (p q : Place) (bs : List UInt8) :
    (fs.map fun f => if f.1 = p then (p, bs) else f).lookup q
      = if q = p then (fs.lookup p).map fun _ => bs else fs.lookup q := by
  induction fs with
  | nil => simp
  | cons f fs ih =>
    obtain ⟨a, cs⟩ := f
    rw [List.map_cons]
    by_cases ha : a = p
    · subst ha
      by_cases hq : q = a
      · simp [hq]
      · have hn : (q == a) = false := by simpa using hq
        simp [List.lookup_cons, hn, ih, hq]
    · by_cases hq : q = p
      · have hn : (p == a) = false := by simpa using Ne.symm ha
        subst hq
        simp [List.lookup_cons, hn, ih, ha]
      · simp [List.lookup_cons, ih, ha, hq]

/-- Putting a content in a place changes no other place. -/
theorem content?_put (fs : Files) (p q : Place) (bs : List UInt8) :
    (fs.put p bs).content? q = if q = p then some bs else fs.content? q := by
  simp only [put, content?, beq_iff_eq]
  cases hc : fs.lookup p with
  | some cs =>
    rw [if_pos (by simp), lookup_map_replace, hc]
    rfl
  | none =>
    rw [if_neg (by simp), List.lookup_append]
    by_cases hq : q = p
    · subst hq
      simp [hc]
    · have hn : (q == p) = false := by simpa using hq
      simp [List.lookup_cons, hn, hq]

/-- The files are those of `fs`, but the file that the path leads to has the text for its
content. -/
def Replaced (fs : Files) (path t : Text) (fs' : Files) : Prop :=
  ∀ p, fs.entry path = .file p → fs'.content? p = some t.bytes ∧
    ∀ q, q ≠ p → fs'.content? q = fs.content? q

/-- A save that does not fail replaces the content of the file it is asked to write. -/
def Faithful (fs : Files) (save : Text → Text → Except FileError Files) : Prop :=
  ∀ path t fs', save path t = .ok fs' → fs.Replaced path t fs'

theorem faithful_save (fs : Files) : fs.Faithful fs.save := by
  intro path t fs' h p hp
  have hput : fs' = fs.put p t.bytes := by
    unfold save at h
    rw [hp] at h
    split at h
    · cases h
    · split at h
      · cases h
      · cases h
      · cases h
      · exact (Except.ok.inj h).symm
  subst hput
  refine ⟨?_, fun q hq => ?_⟩
  · rw [content?_put, if_pos rfl]
  · rw [content?_put, if_neg hq]

theorem exists_file_of_read {path t : Text} (h : fs.read path = .ok t) :
    ∃ p, fs.entry path = .file p := by
  unfold read at h
  split at h
  · cases h
  · cases h
  · cases h
  · exact ⟨_, ‹_›⟩

end Files

namespace Cli

variable {s : Setting} {r : RunRequest} {job : Job}

/-! ## Getting ready -/

theorem bind_eq_ok_iff {ε α β : Type} {x : Except ε α} {f : α → Except ε β} {b : β} :
    x >>= f = .ok b ↔ ∃ a, x = .ok a ∧ f a = .ok b := by
  cases x with
  | error e => exact ⟨nofun, fun ⟨_, h, _⟩ => nomatch h⟩
  | ok a =>
    refine ⟨fun h => ⟨a, rfl, h⟩, ?_⟩
    rintro ⟨_, ⟨⟩, h⟩
    exact h

/-- The configuration of a call: that of a file, or the usual one if no file is given. -/
def Loads (s : Setting) : Option Text → Config → Prop
  | none, c => c = Config.default
  | some path, c => Config.loadFile s.files path = .ok c

/-- Everything that has to go well before the first command. -/
structure Ready (s : Setting) (r : RunRequest) (job : Job) : Prop where
  config : ∃ c language, Loads s r.config c ∧ chooseLanguage r.language r.file c = .ok language ∧
    job.config = { c with language := language }
  commands : List.Forall₂ (fun t c => Command.parse t = .ok c) r.commands job.commands
  source : s.files.read r.file = .ok job.source
  known : (Language.ofName? job.config.language).isSome = true
  /-- Structural mode is entered from the point that is asked for. -/
  engine : ∃ e m, job.config.engine? job.source .silent = some e ∧
    job.config.modes.handle s.parser .enterStructural (e.setPoint r.offset) = (m, job.engine) ∧
    m.current = .structural

theorem loadConfig_eq_ok_iff {path : Option Text} {c : Config} :
    loadConfig s path = .ok c ↔ Loads s path c := by
  cases path with
  | none => exact ⟨fun h => (Except.ok.inj h).symm, fun h => congrArg Except.ok h.symm⟩
  | some path =>
    simp only [loadConfig, Loads]
    cases Config.loadFile s.files path with
    | ok c' => simp
    | error e => cases e <;> simp [complain]

theorem readCommands_eq_ok_iff {ts : List Text} {cs : List Command} :
    readCommands ts = .ok cs ↔ List.Forall₂ (fun t c => Command.parse t = .ok c) ts cs := by
  unfold readCommands
  induction ts generalizing cs with
  | nil =>
    rw [List.mapM_nil, List.forall₂_nil_left_iff]
    exact ⟨fun h => (Except.ok.inj h).symm, fun h => congrArg Except.ok h.symm⟩
  | cons t ts ih =>
    rw [List.mapM_cons, List.forall₂_cons_left_iff]
    simp only [bind_eq_ok_iff, ih]
    cases Command.parse t with
    | error e => simp [complain]
    | ok c =>
      simp [pure, Except.pure, eq_comm]

theorem readSource_eq_ok_iff {file t : Text} :
    readSource s file = .ok t ↔ s.files.read file = .ok t := by
  unfold readSource
  cases s.files.read file <;> simp [complain]

theorem openEngine_eq_ok_iff {c : Config} {t : Text} {e : Engine} :
    openEngine c t = .ok e ↔ c.engine? t .silent = some e := by
  unfold openEngine
  cases c.engine? t .silent <;> simp [complain]

theorem prepare_eq_ok_iff : prepare s r = .ok job ↔ Ready s r job := by
  unfold prepare
  simp only [bind_eq_ok_iff, loadConfig_eq_ok_iff, readCommands_eq_ok_iff, readSource_eq_ok_iff,
    openEngine_eq_ok_iff]
  constructor
  · rintro ⟨c, hc, language, hl, commands, hcs, source, hs, e, he, h⟩
    split at h
    · cases h
    · rename_i hm
      obtain rfl := Except.ok.inj h
      obtain ⟨l, hk, -⟩ := Option.map_eq_some_iff.1 he
      refine ⟨⟨c, language, hc, hl, rfl⟩, hcs, hs, ?_, e, _, he, rfl, not_not.1 hm⟩
      exact Option.isSome_of_eq_some hk
  · obtain ⟨config, commands, source, engine⟩ := job
    rintro ⟨⟨c, language, hc, hl, rfl⟩, hcs, hs, -, e, m, he, hh, hm⟩
    refine ⟨c, hc, language, hl, commands, hcs, source, hs, e, he, ?_⟩
    dsimp only at hh ⊢
    rw [hh, if_neg (not_not.2 hm)]
    rfl

/-! ## Running -/

/-- The commands go through one after the other, from one engine to another. -/
inductive Executes (P : Parser) : Engine → List Command → Engine → Prop
  | nil {e : Engine} : Executes P e [] e
  | cons {e e₁ e' : Engine} {c : Command} {o : CommandOutcome} {cs : List Command} :
      (Engine.execute P c).perform e = (.ok o, e₁) → Executes P e₁ cs e' → Executes P e (c :: cs) e'

theorem execAll_eq_ok_iff {P : Parser} {e e' : Engine} {cs : List Command} :
    (execAll P e cs).2 = .ok e' ↔ Executes P e cs e' := by
  induction cs generalizing e with
  | nil =>
    constructor
    · rintro ⟨⟩
      exact .nil
    · rintro ⟨⟩
      rfl
  | cons c cs ih =>
    unfold execAll
    cases hx : (Engine.execute P c).perform e with
    | mk res e₁ =>
      cases res with
      | error f =>
        refine ⟨nofun, ?_⟩
        rintro (_ | ⟨hc, -⟩)
        cases hx.symm.trans hc
      | ok o =>
        dsimp only
        rw [ih]
        refine ⟨fun h => .cons hx h, ?_⟩
        rintro (_ | ⟨hc, h⟩)
        cases hx.symm.trans hc
        exact h

/-- The run gets to its end: everything is ready, and all commands go through. -/
def Completes (s : Setting) (r : RunRequest) (job : Job) (e : Engine) : Prop :=
  Ready s r job ∧ Executes s.parser job.engine job.commands e

variable {save : Text → Text → Except FileError Files}

/-- Writing back saves if that is asked for and the text has changed. -/
theorem writeBack_files (stdout stderr : Text) (e : Engine) :
    (writeBack save s r job stdout stderr e).files =
      if r.inPlace = true ∧ e.buffer.text ≠ job.source then
        match save r.file e.buffer.text with
        | .ok fs => fs
        | .error _ => s.files
      else s.files := by
  unfold writeBack
  by_cases h : r.inPlace = true ∧ e.buffer.text ≠ job.source
  · rw [if_pos (by simpa using h), if_pos h]
    cases save r.file e.buffer.text <;> rfl
  · rw [if_neg (by simpa using h), if_neg h]

theorem outcome_files (e : Ending) (stderr : Text) (fs : Files) :
    (e.outcome stderr fs).files = fs := by
  cases e <;> rfl

/-- A run to the end writes back. -/
theorem runWith_files {e : Engine} (h : Completes s r job e) : (runWith save s r).files =
    if r.inPlace = true ∧ e.buffer.text ≠ job.source then
      match save r.file e.buffer.text with
      | .ok fs => fs
      | .error _ => s.files
    else s.files := by
  have hx := execAll_eq_ok_iff.2 h.2
  unfold runWith
  rw [prepare_eq_ok_iff.2 h.1]
  dsimp only
  rw [hx]
  dsimp only
  rw [writeBack_files, Engine.current_buffer]

/-- A run that does not get to its end leaves the files alone. -/
theorem runWith_files_of_not (h : ∀ job e, ¬ Completes s r job e) :
    (runWith save s r).files = s.files := by
  unfold runWith
  split
  · exact outcome_files _ _ _
  · rename_i job hp
    dsimp only
    split
    · exact outcome_files _ _ _
    · exact outcome_files _ _ _
    · rename_i e he
      exact absurd ⟨prepare_eq_ok_iff.1 hp, execAll_eq_ok_iff.1 he⟩ (h job e)

/-- A run leaves the files alone, or it has got to its end, was to write in place, has changed the
text, and has saved it. -/
theorem run_cases (save : Text → Text → Except FileError Files) (s : Setting) (r : RunRequest) :
    (runWith save s r).files = s.files ∨
    ∃ job e, Completes s r job e ∧ r.inPlace = true ∧ e.buffer.text ≠ job.source ∧
      save r.file e.buffer.text = .ok (runWith save s r).files := by
  by_cases h : ∃ job e, Completes s r job e
  · obtain ⟨job, e, h⟩ := h
    have hf : (runWith save s r).files = _ := runWith_files h
    split at hf
    · rename_i hc
      split at hf
      · rename_i fs hs
        right
        exact ⟨job, e, h, hc.1, hc.2, by rw [hs, hf]⟩
      · exact .inl hf
    · exact .inl hf
  · exact .inl (runWith_files_of_not fun job e hc => h ⟨job, e, hc⟩)

/-- Saving replaces the file it is given, or fails. With any save of which this holds, a run changes
no other file than the one it works on. That one it leaves as it was, unless the run was to write in
place, has got to its end and has changed the text; its content is the text after all commands
then. And if all of this is so and saving does not fail, the files are what saving has made of
them. -/
theorem run_replaces (s : Setting) (r : RunRequest) : s.files.Faithful s.files.save ∧
    ∀ save, s.files.Faithful save →
      (∀ q, s.files.entry r.file ≠ .file q →
        (runWith save s r).files.content? q = s.files.content? q) ∧
      (∀ p, s.files.entry r.file = .file p →
        (runWith save s r).files.content? p = s.files.content? p ∨
        ∃ job e, Completes s r job e ∧ r.inPlace = true ∧ e.buffer.text ≠ job.source ∧
          (runWith save s r).files.content? p = some e.buffer.text.bytes) ∧
      ∀ job e fs, Completes s r job e → r.inPlace = true → e.buffer.text ≠ job.source →
        save r.file e.buffer.text = .ok fs → (runWith save s r).files = fs := by
  refine ⟨s.files.faithful_save, fun save hs => ⟨fun q hq => ?_, fun p hp => ?_, ?_⟩⟩
  · rcases run_cases save s r with hf | ⟨job, e, hc, -, -, hf⟩
    · rw [hf]
    · obtain ⟨p, hp⟩ := Files.exists_file_of_read hc.1.source
      refine (hs _ _ _ hf p hp).2 q ?_
      rintro rfl
      exact hq hp
  · rcases run_cases save s r with hf | ⟨job, e, hc, hi, ht, hf⟩
    · exact .inl (by rw [hf])
    · exact .inr ⟨job, e, hc, hi, ht, (hs _ _ _ hf p hp).1⟩
  · intro job e fs hc hi ht hsave
    rw [runWith_files hc, if_pos ⟨hi, ht⟩, hsave]

/-- Two files, one of which is no text. -/
def shelf : Setting where
  files := [(["a.json".toList], [120, 32, 97]), (["b.json".toList], [255])]
  color := false
  parser := .letters

/-- Deletes the letter at offset 2 of the first file, in place. -/
def deletesLetter : RunRequest where
  file := "a.json".toList
  language := none
  config := none
  offset := 2
  commands := ["delete".toList]
  diff := false
  json := false
  inPlace := true

/-- What that run works with: the language is that of the extension, and the letter at the offset is
selected. -/
def letterJob : Job where
  config := { Config.default with language := "json".toList }
  commands := [.delete 1]
  source := ['x', ' ', 'a']
  engine := ((Config.default.modes).handle shelf.parser .enterStructural
    (Engine.setPoint (.ofBuffer (.ofText ['x', ' ', 'a'] .json) .silent) 2)).2

theorem ready_letterJob : Ready shelf deletesLetter letterJob where
  config := ⟨Config.default, "json".toList, rfl, rfl, rfl⟩
  commands := .cons rfl .nil
  source := rfl
  known := rfl
  engine := ⟨_, _, rfl, rfl, rfl⟩

/-- The first file has lost its letter, and the other one is as it was. -/
theorem run_replaces_shelf :
    (run shelf deletesLetter).files.content? ["a.json".toList] = some [120, 32] ∧
    (run shelf deletesLetter).files.content? ["b.json".toList] = some [255] := by
  obtain ⟨hf, h⟩ := run_replaces shelf deletesLetter
  obtain ⟨hother, -, hdone⟩ := h _ hf
  have hx : ∃ e, Executes shelf.parser letterJob.engine letterJob.commands e ∧
      e.buffer.text = ['x', ' '] := ⟨_, .cons rfl .nil, rfl⟩
  have hw : ∃ fs, shelf.files.save deletesLetter.file ['x', ' '] = .ok fs ∧
      fs.content? ["a.json".toList] = some [120, 32] := ⟨_, rfl, rfl⟩
  obtain ⟨e, hx, ht⟩ := hx
  obtain ⟨fs, hsave, hcontent⟩ := hw
  have hrun : (run shelf deletesLetter).files = fs := by
    refine hdone letterJob e fs ⟨ready_letterJob, hx⟩ rfl ?_ (by rw [ht, hsave])
    rw [ht]
    decide
  exact ⟨by rw [hrun, hcontent], hother ["b.json".toList] (by decide)⟩

end Cli

end TreeEdit
