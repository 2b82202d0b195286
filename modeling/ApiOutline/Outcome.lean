import ApiOutline.Trace

/-!
# Outcomes

A computation leaves a trace and ends with a value or a failure. A failure stops what would
follow and keeps the trace so far; a scope is closed however its body ends.
-/

namespace ApiOutline

/-- How a computation went. -/
structure Outcome (ε α : Type) where
  trace : List Event
  result : Except ε α

namespace Outcome

variable {ε α β : Type}

/-- A computation with a value and nothing to log. -/
def ok (a : α) : Outcome ε α :=
  ⟨[], .ok a⟩

/-- A computation that fails with nothing to log. -/
def fail (e : ε) : Outcome ε α :=
  ⟨[], .error e⟩

/-- Continues with the value, if there is one. -/
def andThen (x : Outcome ε α) (f : α → Outcome ε β) : Outcome ε β :=
  match x.result with
  | .ok a =>
    let y := f a
    ⟨x.trace ++ y.trace, y.result⟩
  | .error e => ⟨x.trace, .error e⟩

instance : Monad (Outcome ε) where
  pure := ok
  bind := andThen

/-- A result that logs nothing. -/
def ofExcept (x : Except ε α) : Outcome ε α :=
  ⟨[], x⟩

/-- Logs a note. -/
def log (level : Log.Level) (channel : Log.Channel) (text : String) : Outcome ε Unit :=
  ⟨[.note ⟨level, channel, text⟩], .ok ()⟩

/-- Prints a text; whether it is taken is for the sink to say. -/
def print (text : String) : Outcome ε Unit :=
  ⟨[.print text], .ok ()⟩

/-- Prints some texts one after the other. -/
def printEach (texts : List String) : Outcome ε Unit :=
  ⟨texts.map .print, .ok ()⟩

/-- The same computation with its failure seen as another. -/
def mapError {ε' : Type} (f : ε → ε') (x : Outcome ε α) : Outcome ε' α :=
  ⟨x.trace, x.result.mapError f⟩

/-- Goes on after a failure. -/
def recover {ε' : Type} (x : Outcome ε α) (f : ε → Outcome ε' α) : Outcome ε' α :=
  match x.result with
  | .ok a => ⟨x.trace, .ok a⟩
  | .error e =>
    let y := f e
    ⟨x.trace ++ y.trace, y.result⟩

/-- Runs `x` inside a scope. -/
def within (scope : Log.Scope) (name : String) (x : Outcome ε α) : Outcome ε α :=
  ⟨.enter scope name :: (x.trace ++ [.leave]), x.result⟩

/-! ### Equations -/

@[simp]
theorem pure_eq (a : α) : (pure a : Outcome ε α) = ok a := rfl

@[simp]
theorem bind_eq (x : Outcome ε α) (f : α → Outcome ε β) : (x >>= f) = x.andThen f := rfl

@[simp]
theorem ok_andThen (a : α) (f : α → Outcome ε β) : (ok a).andThen f = f a := by
  simp [ok, andThen]

@[simp]
theorem fail_andThen (e : ε) (f : α → Outcome ε β) : (fail e : Outcome ε α).andThen f = fail e :=
  rfl

theorem andThen_assoc {γ : Type} (x : Outcome ε α) (f : α → Outcome ε β) (g : β → Outcome ε γ) :
    (x.andThen f).andThen g = x.andThen fun a => (f a).andThen g := by
  obtain ⟨trace, result⟩ := x
  cases result with
  | error e => rfl
  | ok a =>
    simp only [andThen]
    cases (f a).result <;> simp

@[simp]
theorem andThen_ok (x : Outcome ε α) : x.andThen ok = x := by
  obtain ⟨trace, result⟩ := x
  cases result <;> simp [andThen, ok]

instance : LawfulMonad (Outcome ε) :=
  LawfulMonad.mk' _ (fun x => andThen_ok x) (fun a f => ok_andThen a f)
    (fun x f g => andThen_assoc x f g)

/-- A closed scope leaves the context as it found it, if its body does. -/
theorem after_within (c : Log.Context) (scope : Log.Scope) (name : String) (x : Outcome ε α)
    (h : (c.enter scope name).after x.trace = c.enter scope name) :
    c.after (within scope name x).trace = c := by
  have : (c.enter scope name).after (x.trace ++ [.leave]) = c := by
    rw [Log.Context.after_append, h]
    simp [Log.Context.after, Log.Context.step]
  simpa [within, Log.Context.after, Log.Context.step] using this

end Outcome

end ApiOutline
