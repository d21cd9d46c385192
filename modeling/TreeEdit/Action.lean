import TreeEdit.Edit
/-!
# Actions

An action reads and changes a state and may fail. It leaves a state behind in
either case, so what a failure does to the state is part of what an action says.

A failure is either a rejected edit, which is an answer, or a fault: the action
was asked for something that has no answer, and the run it belongs to ends.
-/

namespace TreeEdit

/-- A request without an answer. -/
inductive Fault where
  /-- A line was asked for at an offset inside a character. -/
  | insideCharacter
  /-- A number does not fit 64 bits. -/
  | overflow
deriving DecidableEq, Repr

/-- How an action fails. -/
inductive Failure where
  | rejected (e : EditError)
  | fault (f : Fault)
deriving DecidableEq, Repr

/-- A step on a state of type `σ` that may fail. -/
abbrev Action (σ : Type) := ExceptT Failure (StateM σ)

namespace Action

variable {σ τ α β : Type}

/-- The answer of an action and the state it leaves behind. -/
def perform (x : Action σ α) (s : σ) : Except Failure α × σ := (ExceptT.run x).run s

def ofFun (f : σ → Except Failure α × σ) : Action σ α := ExceptT.mk (fun s => f s)

/-- Fails with a fault if there is no value. -/
def require (f : Fault) (o : Option α) : Action σ α :=
  match o with
  | some a => pure a
  | none => throw (.fault f)

def onPart (get : σ → τ) (put : σ → τ → σ) (x : Action τ α) : Action σ α :=
  ofFun fun s => let r := x.perform (get s); (r.1, put s r.2)

@[simp] theorem perform_ofFun (f : σ → Except Failure α × σ) (s : σ) :
    (ofFun f).perform s = f s := rfl

@[simp] theorem perform_pure (a : α) (s : σ) : (pure a : Action σ α).perform s = (.ok a, s) := rfl

@[simp] theorem perform_throw (f : Failure) (s : σ) :
    (throw f : Action σ α).perform s = (.error f, s) := rfl

/-- The second action starts where the first one ended, unless the first one failed. -/
theorem perform_bind (x : Action σ α) (f : α → Action σ β) (s : σ) :
    (x >>= f).perform s = match x.perform s with
      | (.ok a, s') => (f a).perform s'
      | (.error e, s') => (.error e, s') := by
  change (StateT.bind x (ExceptT.bindCont f)) s = _
  simp only [StateT.bind, perform, ExceptT.run, StateT.run, bind]
  cases h : x s with
  | mk r s' => cases r <;> rfl

@[simp] theorem perform_get (s : σ) : (get : Action σ σ).perform s = (.ok s, s) := rfl

@[simp] theorem perform_set (s s' : σ) : (set s' : Action σ PUnit).perform s = (.ok ⟨⟩, s') := rfl

@[simp] theorem perform_require_some (f : Fault) (a : α) (s : σ) :
    (require f (some a) : Action σ α).perform s = (.ok a, s) := rfl

@[simp] theorem perform_require_none (f : Fault) (s : σ) :
    (require f none : Action σ α).perform s = (.error (.fault f), s) := rfl

@[simp] theorem perform_modify (f : σ → σ) (s : σ) :
    (modify f : Action σ Unit).perform s = (.ok (), f s) := rfl

@[simp] theorem perform_onPart (get : σ → τ) (put : σ → τ → σ) (x : Action τ α) (s : σ) :
    (onPart get put x).perform s = ((x.perform (get s)).1, put s (x.perform (get s)).2) := rfl

end Action

end TreeEdit
