import ApiOutline.Failure

/-!
# How outcomes end

Forgetting the trace of an outcome leaves its result, and this respects running one computation
after another. So a statement about what a computation returns is one about `Except`, and the
lemmas here push `Outcome.result` through the operations from which computations are built. What a
settled problem leaves depends on the mode alone: the fallback, or the problem as failure.

Of the trace only what is printed and the first warning about a configuration are looked at. A
computation that prints nothing is *silent*, and one without such a warning *quiet*. All
computations are that print nothing and settle no problem, whatever else they log; those that are
built so are *plain*, and plainness is what is proved of the computations of the library, so that it
can be used for other statements about traces, too. A *bare* one does not fail with a problem of the
configuration either.
-/

namespace ApiOutline

/-! ### Results -/

theorem Except.map_eq_ok_iff {ε α β : Type} {f : α → β} {x : Except ε α} {b : β} :
    x.map f = .ok b ↔ ∃ a, x = .ok a ∧ f a = b := by
  cases x <;> simp [Except.map]

theorem Except.bind_eq_ok_iff {ε α β : Type} {x : Except ε α} {f : α → Except ε β} {b : β} :
    (x >>= f) = .ok b ↔ ∃ a, x = .ok a ∧ f a = .ok b := by
  cases x <;> simp [Bind.bind, Except.bind]

theorem Except.exists_bind_eq_ok_iff {ε α β : Type} {x : Except ε α} {f : α → Except ε β} :
    (∃ b, (x >>= f) = .ok b) ↔ ∃ a, x = .ok a ∧ ∃ b, f a = .ok b := by
  cases x <;> simp [Bind.bind, Except.bind]

theorem Except.bind_eq_error_iff {ε α β : Type} {x : Except ε α} {f : α → Except ε β} {e : ε} :
    (x >>= f) = .error e ↔ x = .error e ∨ ∃ a, x = .ok a ∧ f a = .error e := by
  cases x <;> simp [Bind.bind, Except.bind]

/-- What fails along a list fails at one of its items. -/
theorem Except.exists_of_foldlM_eq_error {ε α β : Type} {f : α → β → Except ε α} {init : α}
    {items : List β} {e : ε} (h : items.foldlM f init = .error e) :
    ∃ item ∈ items, ∃ a, f a item = .error e := by
  induction items generalizing init with
  | nil => cases h
  | cons item rest ih =>
    rw [List.foldlM_cons] at h
    rcases Except.bind_eq_error_iff.mp h with h | ⟨a, -, h⟩
    · exact ⟨item, List.mem_cons_self, init, h⟩
    · obtain ⟨other, hother, a, h⟩ := ih h
      exact ⟨other, List.mem_cons_of_mem _ hother, a, h⟩

/-- What every step keeps holds at the end. -/
theorem Except.of_foldlM_eq_ok {ε α β : Type} {P : α → Prop} {f : α → β → Except ε α} {init a : α}
    {items : List β} (h : items.foldlM f init = .ok a) (hinit : P init)
    (hstep : ∀ item ∈ items, ∀ b c, P b → f b item = .ok c → P c) : P a := by
  induction items generalizing init with
  | nil => exact Except.ok.inj h ▸ hinit
  | cons item rest ih =>
    rw [List.foldlM_cons] at h
    obtain ⟨b, hb, h⟩ := Except.bind_eq_ok_iff.mp h
    exact ih h (hstep item List.mem_cons_self init b hinit hb) fun other hother =>
      hstep other (List.mem_cons_of_mem item hother)

theorem Except.mapError_eq_ok_iff {ε ε' α : Type} {f : ε → ε'} {x : Except ε α} {a : α} :
    x.mapError f = .ok a ↔ x = .ok a := by
  cases x with
  | error e => exact ⟨nofun, nofun⟩
  | ok b =>
    constructor
    · intro h
      rw [Except.ok.inj h]
    · intro h
      rw [Except.ok.inj h]
      rfl

theorem Except.mapError_eq_error_iff {ε ε' α : Type} {f : ε → ε'} {x : Except ε α} {e' : ε'} :
    x.mapError f = .error e' ↔ ∃ e, x = .error e ∧ f e = e' := by
  cases x with
  | error e =>
    constructor
    · intro h
      exact ⟨e, rfl, Except.error.inj h⟩
    · rintro ⟨_, h, rfl⟩
      rw [Except.error.inj h]
      rfl
  | ok a =>
    constructor
    · intro h
      cases h
    · rintro ⟨_, h, -⟩
      cases h

theorem Except.map_eq_error_iff {ε α β : Type} {f : α → β} {x : Except ε α} {e : ε} :
    x.map f = .error e ↔ x = .error e := by
  cases x <;> simp [Except.map]

/-- What is gathered along a list comes from its items, and every item gives something. -/
theorem Except.mem_of_mapM_eq_ok {ε α β : Type} {f : α → Except ε β} {items : List α}
    {results : List β} (h : items.mapM f = .ok results) :
    (∀ b ∈ results, ∃ a ∈ items, f a = .ok b) ∧ ∀ a ∈ items, ∃ b ∈ results, f a = .ok b := by
  induction items generalizing results with
  | nil =>
    obtain rfl := Except.ok.inj h
    simp
  | cons item rest ih =>
    rw [List.mapM_cons] at h
    obtain ⟨first, hfirst, h⟩ := Except.bind_eq_ok_iff.mp h
    obtain ⟨others, hothers, h⟩ := Except.bind_eq_ok_iff.mp h
    obtain rfl := Except.ok.inj h
    obtain ⟨hfrom, hto⟩ := ih hothers
    refine ⟨fun b hb => ?_, fun a ha => ?_⟩
    · rcases List.mem_cons.mp hb with rfl | hb
      · exact ⟨item, List.mem_cons_self, hfirst⟩
      · obtain ⟨a, ha, hab⟩ := hfrom b hb
        exact ⟨a, List.mem_cons_of_mem _ ha, hab⟩
    · rcases List.mem_cons.mp ha with rfl | ha
      · exact ⟨first, List.mem_cons_self, hfirst⟩
      · obtain ⟨b, hb, hab⟩ := hto a ha
        exact ⟨b, List.mem_cons_of_mem _ hb, hab⟩

/-- Something is gathered along a list exactly when every item gives something. -/
theorem Except.exists_mapM_eq_ok_iff {ε α β : Type} {f : α → Except ε β} {items : List α} :
    (∃ results, items.mapM f = .ok results) ↔ ∀ a ∈ items, ∃ b, f a = .ok b := by
  constructor
  · rintro ⟨results, h⟩ a ha
    obtain ⟨b, -, hb⟩ := (Except.mem_of_mapM_eq_ok h).2 a ha
    exact ⟨b, hb⟩
  · intro h
    induction items with
    | nil => exact ⟨[], rfl⟩
    | cons item rest ih =>
      obtain ⟨⟨first, hfirst⟩, hrest⟩ := List.forall_mem_cons.mp h
      obtain ⟨others, hothers⟩ := ih hrest
      rw [List.mapM_cons, hfirst, hothers]
      exact ⟨first :: others, rfl⟩

instance Except.decidableExistsOk {ε α : Type} (x : Except ε α) (p : α → Prop) [DecidablePred p] :
    Decidable (∃ a, x = .ok a ∧ p a) :=
  match x with
  | .ok a => decidable_of_iff (p a) (by simp)
  | .error _ => isFalse (by simp)

/-- A given value can be looked for where results cannot be compared. -/
theorem Except.eq_ok_of_exists {ε α : Type} {x : Except ε α} {a : α}
    (h : ∃ b, x = .ok b ∧ b = a) : x = .ok a := by
  obtain ⟨_, hx, rfl⟩ := h
  exact hx

instance Except.decidableExistsError {ε α : Type} (x : Except ε α) (p : ε → Prop)
    [DecidablePred p] : Decidable (∃ e, x = .error e ∧ p e) :=
  match x with
  | .ok _ => isFalse (by simp)
  | .error e => decidable_of_iff (p e) (by simp)

theorem Except.exists_eq_ok_of_toBool {ε α : Type} {x : Except ε α} (h : x.toBool = true) :
    ∃ a, x = .ok a := by
  cases x with
  | ok a => exact ⟨a, rfl⟩
  | error e => cases h

/-- A given failure can be looked for where results cannot be compared. -/
theorem Except.eq_error_of_exists {ε α : Type} {x : Except ε α} {e : ε}
    (h : ∃ other, x = .error other ∧ other = e) : x = .error e := by
  obtain ⟨_, hx, rfl⟩ := h
  exact hx

/-! ### Prints -/

theorem printed_append (xs ys : List Event) : printed (xs ++ ys) = printed xs ++ printed ys := by
  rw [printed, List.map_append, String.join_append]
  rfl

/-- Where nothing is printed, nothing is printed before. -/
theorem printed_eq_empty_of_isPrefix {xs ys : List Event} (h : xs <+: ys) (hys : printed ys = "") :
    printed xs = "" := by
  obtain ⟨rest, rfl⟩ := h
  rw [printed_append, String.append_eq_empty_iff] at hys
  exact hys.1

/-- The text of an event that is a warning about a configuration. -/
def Event.configWarning? : Event → Option String
  | .note n => if n.level = .warning ∧ n.channel = .config then some n.text else none
  | _ => none

namespace Outcome

variable {ε α β : Type}

@[simp]
theorem result_ok (a : α) : (ok a : Outcome ε α).result = .ok a := rfl

@[simp]
theorem result_fail (e : ε) : (fail e : Outcome ε α).result = .error e := rfl

@[simp]
theorem result_ofExcept (x : Except ε α) : (ofExcept x).result = x := rfl

@[simp]
theorem result_ofPath (x : Except Path.Fault α) : (ofPath x).result = x.mapError .path := rfl

@[simp]
theorem result_log (level : Log.Level) (channel : Log.Channel) (text : String) :
    (log level channel text : Outcome ε Unit).result = .ok () := rfl

@[simp]
theorem result_print (text : String) : (print text : Outcome ε Unit).result = .ok () := rfl

/-- The result of one computation after another is the result of the second on that of the first. -/
theorem result_andThen (x : Outcome ε α) (f : α → Outcome ε β) :
    (x.andThen f).result = x.result >>= fun a => (f a).result := by
  obtain ⟨trace, result⟩ := x
  cases result <;> rfl

theorem result_andThen_eq_ok_iff {x : Outcome ε α} {f : α → Outcome ε β} {b : β} :
    (x.andThen f).result = .ok b ↔ ∃ a, x.result = .ok a ∧ (f a).result = .ok b := by
  rw [result_andThen, Except.bind_eq_ok_iff]

/-- Only what follows the value counts. -/
theorem andThen_congr {x : Outcome ε α} {f g : α → Outcome ε β}
    (h : ∀ a, x.result = .ok a → f a = g a) : x.andThen f = x.andThen g := by
  cases hresult : x.result with
  | error e => simp only [andThen, hresult]
  | ok a => simp only [andThen, hresult, h a hresult]

theorem result_andThen_pure (x : Outcome ε α) (f : α → β) :
    (x.andThen fun a => pure (f a)).result = x.result.map f := by
  rw [result_andThen]
  cases x.result <;> rfl

/-- The result of a computation repeated along a list. -/
theorem result_foldlM {γ : Type} (f : α → γ → Outcome ε α) (init : α) (items : List γ) :
    (items.foldlM f init).result = items.foldlM (fun a item => (f a item).result) init := by
  induction items generalizing init with
  | nil => rfl
  | cons item rest ih =>
    rw [List.foldlM_cons, List.foldlM_cons, bind_eq, result_andThen]
    congr 1
    exact funext fun a => ih a

/-- A settled problem leaves the fallback when problems do not stop the work. -/
@[simp]
theorem result_settle_false (problem : Config.Problem) (fallback : α) :
    (settle false problem fallback).result = .ok fallback := rfl

/-- A settled problem is the failure when problems stop the work. -/
@[simp]
theorem result_settle_true (problem : Config.Problem) (fallback : α) :
    (settle true problem fallback).result = .error (.config problem) := rfl

theorem eq_of_result_settle {strict : Bool} {problem : Config.Problem} {fallback a : α}
    (h : (settle strict problem fallback).result = .ok a) : a = fallback := by
  cases strict with
  | false => exact (Except.ok.inj h).symm
  | true => cases h

/-! ### Warnings about a configuration -/

/-- The first warning about a configuration. -/
def firstWarning? (x : Outcome ε α) : Option String :=
  x.trace.findSome? Event.configWarning?

/-- No warning is made about a configuration. -/
def Quiet (x : Outcome ε α) : Prop :=
  x.firstWarning? = none

theorem firstWarning?_of_ok {x : Outcome ε α} {f : α → Outcome ε β} {a : α}
    (h : x.result = .ok a) :
    (x.andThen f).firstWarning? = x.firstWarning?.or (f a).firstWarning? := by
  simp only [andThen, h]
  exact List.findSome?_append

theorem andThen_of_ok {x : Outcome ε α} {f : α → Outcome ε β} {a : α} (h : x.result = .ok a) :
    x.andThen f = ⟨x.trace ++ (f a).trace, (f a).result⟩ := by
  simp only [andThen, h]

theorem andThen_of_error {x : Outcome ε α} {f : α → Outcome ε β} {e : ε}
    (h : x.result = .error e) : x.andThen f = ⟨x.trace, .error e⟩ := by
  simp only [andThen, h]

theorem recover_of_ok {ε' : Type} {x : Outcome ε α} {f : ε → Outcome ε' α} {a : α}
    (h : x.result = .ok a) : x.recover f = ⟨x.trace, .ok a⟩ := by
  simp only [recover, h]

theorem recover_of_error {ε' : Type} {x : Outcome ε α} {f : ε → Outcome ε' α} {e : ε}
    (h : x.result = .error e) : x.recover f = ⟨x.trace ++ (f e).trace, (f e).result⟩ := by
  simp only [recover, h]

namespace Quiet

theorem ok (a : α) : Quiet (ok a : Outcome ε α) := rfl

theorem ofExcept (x : Except ε α) : Quiet (ofExcept x) := rfl

theorem log {level : Log.Level} {channel : Log.Channel}
    (h : ¬(level = .warning ∧ channel = .config)) (text : String) :
    Quiet (log level channel text : Outcome ε Unit) := by
  simp [Quiet, firstWarning?, Outcome.log, Event.configWarning?, h]

/-- Quiet computations in a row are quiet. -/
theorem bind {x : Outcome ε α} {f : α → Outcome ε β} (hx : x.Quiet) (hf : ∀ a, (f a).Quiet) :
    (x >>= f).Quiet := by
  rw [bind_eq]
  cases hresult : x.result with
  | error e =>
    rw [andThen_of_error hresult]
    exact hx
  | ok a =>
    rw [Quiet, firstWarning?_of_ok hresult, hx, hf a]
    rfl

end Quiet

/-! ### Silent computations -/

/-- Nothing is printed. -/
def Silent (x : Outcome ε α) : Prop :=
  printed x.trace = ""

theorem printed_andThen_of_ok {x : Outcome ε α} {f : α → Outcome ε β} {a : α}
    (h : x.result = .ok a) :
    printed (x.andThen f).trace = printed x.trace ++ printed (f a).trace := by
  rw [andThen_of_ok h]
  exact printed_append _ _

theorem printed_andThen_of_error {x : Outcome ε α} {f : α → Outcome ε β} {e : ε}
    (h : x.result = .error e) : printed (x.andThen f).trace = printed x.trace := by
  rw [andThen_of_error h]

@[simp]
theorem printed_ok (a : α) : printed (ok a : Outcome ε α).trace = "" := by
  simp [ok, printed]

@[simp]
theorem printed_print (text : String) : printed (print text : Outcome ε Unit).trace = text := by
  simp [print, printed]

@[simp]
theorem printed_printEach (texts : List String) :
    printed (printEach texts : Outcome ε Unit).trace = String.join texts := by
  rw [printed, printEach, List.map_map]
  exact congrArg String.join (List.map_id texts)

namespace Silent

theorem ofExcept (x : Except ε α) : Silent (ofExcept x) := by
  simp [Silent, Outcome.ofExcept, printed]

theorem ok (a : α) : Silent (ok a : Outcome ε α) :=
  ofExcept (.ok a)

theorem fail (e : ε) : Silent (fail e : Outcome ε α) :=
  ofExcept (.error e)

theorem log (level : Log.Level) (channel : Log.Channel) (text : String) :
    Silent (log level channel text : Outcome ε Unit) := by
  simp [Silent, Outcome.log, printed]

/-- Silent computations in a row are silent. -/
theorem bind {x : Outcome ε α} {f : α → Outcome ε β} (hx : x.Silent) (hf : ∀ a, (f a).Silent) :
    (x >>= f).Silent := by
  rw [bind_eq, Silent]
  cases hresult : x.result with
  | error e => rw [printed_andThen_of_error hresult, hx]
  | ok a => rw [printed_andThen_of_ok hresult, hx, hf a, String.append_empty]

theorem settle (strict : Bool) (problem : Config.Problem) (fallback : α) :
    Silent (settle strict problem fallback) := by
  cases strict with
  | false => exact .bind (.log _ _ _) fun _ => .ok fallback
  | true => exact .fail _

end Silent

theorem printed_andThen_of_silent {x : Outcome ε α} {f : α → Outcome ε β}
    (hf : ∀ a, (f a).Silent) : printed (x.andThen f).trace = printed x.trace := by
  cases hresult : x.result with
  | error e => rw [printed_andThen_of_error hresult]
  | ok a => rw [printed_andThen_of_ok hresult, hf a, String.append_empty]

/-- A scope prints what its body prints. -/
theorem printed_within (scope : Log.Scope) (name : String) (x : Outcome ε α) :
    printed (within scope name x).trace = printed x.trace := by
  change printed ([.enter scope name] ++ (x.trace ++ [.leave])) = _
  rw [printed_append, printed_append]
  simp [printed]

/-! ### Plain computations -/

/-- A computation is put together from results and notes other than warnings about a configuration:
it prints nothing, settles no problem and opens no scope. -/
inductive Plain : ∀ {ε α : Type}, Outcome ε α → Prop
  | ofExcept {ε α : Type} (x : Except ε α) : Plain (ofExcept x)
  | log {ε : Type} {level : Log.Level} {channel : Log.Channel}
      (h : ¬(level = .warning ∧ channel = .config)) (text : String) :
      Plain (log level channel text : Outcome ε Unit)
  | mapError {ε ε' α : Type} {x : Outcome ε α} (h : Plain x) (f : ε → ε') : Plain (x.mapError f)
  | bind {ε α β : Type} {x : Outcome ε α} {f : α → Outcome ε β} (hx : Plain x)
      (hf : ∀ a, Plain (f a)) : Plain (x >>= f)

namespace Plain

theorem ok (a : α) : Plain (ok a : Outcome ε α) :=
  .ofExcept (.ok a)

theorem quiet {x : Outcome ε α} (h : x.Plain) : x.Quiet := by
  induction h with
  | ofExcept x => exact .ofExcept x
  | log h text => exact .log h text
  | mapError _ f ih => exact ih
  | bind _ _ hx hf => exact .bind hx hf

theorem silent {x : Outcome ε α} (h : x.Plain) : x.Silent := by
  induction h with
  | ofExcept x => exact .ofExcept x
  | log _ text => exact .log _ _ text
  | mapError _ f ih => exact ih
  | bind _ _ hx hf => exact .bind hx hf

end Plain

/-- A plain computation that does not fail with a problem of the configuration. -/
structure Bare (x : Outcome Failure α) : Prop where
  plain : x.Plain
  ne_config : ∀ problem, x.result ≠ .error (.config problem)

namespace Bare

theorem ofExcept {x : Except Failure α} (h : ∀ problem, x ≠ .error (.config problem)) :
    Bare (ofExcept x) :=
  ⟨.ofExcept x, h⟩

theorem ok (a : α) : Bare (ok a) :=
  ofExcept nofun

theorem fail {e : Failure} (h : ∀ problem, e ≠ .config problem) :
    Bare (fail e : Outcome Failure α) :=
  ofExcept fun problem heq => h problem (Except.error.inj heq)

/-- A failure of another kind stays what it is. -/
theorem ofMapError {x : Except ε α} {f : ε → Failure} (h : ∀ e problem, f e ≠ .config problem) :
    Bare (Outcome.ofExcept (x.mapError f)) := by
  refine ofExcept fun problem heq => ?_
  obtain ⟨e, -, he⟩ := Except.mapError_eq_error_iff.mp heq
  exact h e problem he

theorem ofPath (x : Except Path.Fault α) : Bare (ofPath x) :=
  ofMapError nofun

theorem log {level : Log.Level} {channel : Log.Channel}
    (h : ¬(level = .warning ∧ channel = .config)) (text : String) :
    Bare (log level channel text : Outcome Failure Unit) :=
  ⟨.log h text, nofun⟩

theorem bind {x : Outcome Failure α} {f : α → Outcome Failure β} (hx : x.Bare)
    (hf : ∀ a, (f a).Bare) : (x >>= f).Bare := by
  refine ⟨.bind hx.plain fun a => (hf a).plain, fun problem h => ?_⟩
  rw [bind_eq, result_andThen] at h
  rcases Except.bind_eq_error_iff.mp h with h | ⟨a, -, h⟩
  · exact hx.ne_config problem h
  · exact (hf a).ne_config problem h

end Bare

end Outcome

end ApiOutline
