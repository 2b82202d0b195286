import ApiOutline.Proofs.Outcome

/-!
# What a sink takes

A sink takes the texts of a trace up to the first one that it refuses, and cuts the trace off there
(`exists_of_cut`). A computation whose texts are all taken goes through a sink as it is, and any
other fails there with the beginning of its trace (`through_cases`). The sink that writes UTF-8
takes the texts without lone surrogates and no others (`not_refuses_utf8_iff`).
-/

namespace ApiOutline

namespace Sink

variable {out : Sink} {events before : List Event} {complaint : String}

/-- A text is refused. -/
def Refuses (out : Sink) (text : String) : Prop :=
  ∃ complaint, out.refusal? text = some complaint

/-- No text of a trace is refused. -/
def Takes (out : Sink) (events : List Event) : Prop :=
  ∀ text, .print text ∈ events → ¬out.Refuses text

private theorem not_refuses_iff {text : String} : ¬out.Refuses text ↔ out.refusal? text = none := by
  rw [Refuses, ← Option.isSome_iff_exists, Bool.not_eq_true, Option.isSome_eq_false_iff,
    Option.isNone_iff_eq_none]

private theorem takes_iff : out.Takes events ↔ ∀ event ∈ events, out.complaint? event = none := by
  refine ⟨fun h event hevent => ?_, fun h text htext => not_refuses_iff.mpr (h _ htext)⟩
  cases event with
  | print text => exact not_refuses_iff.mp (h text hevent)
  | _ => rfl

/-- Nothing is cut off exactly where all texts are taken. -/
private theorem cut_eq_none_iff : out.cut events = none ↔ out.Takes events := by
  rw [takes_iff]
  induction events with
  | nil => exact iff_of_true rfl (List.forall_mem_nil _)
  | cons event rest ih =>
    rw [cut, List.forall_mem_cons]
    cases hevent : out.complaint? event with
    | none => simp [ih]
    | some complaint => simp

/-- **A trace is cut off** right before the first text that is refused. -/
theorem exists_of_cut (h : out.cut events = some (before, complaint)) : out.Takes before ∧
    ∃ text after, events = before ++ .print text :: after ∧
      out.refusal? text = some complaint := by
  rw [takes_iff]
  induction events generalizing before with
  | nil => cases h
  | cons event rest ih =>
    rw [cut] at h
    cases hevent : out.complaint? event with
    | none =>
      rw [hevent] at h
      obtain ⟨⟨before, _⟩, hcut, heq⟩ := Option.map_eq_some_iff.mp h
      obtain ⟨rfl, rfl⟩ := Prod.mk.inj heq
      obtain ⟨hbefore, text, after, rfl, htext⟩ := ih hcut
      exact ⟨List.forall_mem_cons.mpr ⟨hevent, hbefore⟩, text, after, rfl, htext⟩
    | some _ =>
      rw [hevent] at h
      obtain ⟨rfl, rfl⟩ := Prod.mk.inj (Option.some.inj h)
      cases event with
      | print text => exact ⟨List.forall_mem_nil _, text, rest, rfl, hevent⟩
      | _ => cases hevent

private theorem firstLone_eq_none_iff {position : Nat} {symbols : List Symbol} :
    firstLone position symbols = none ↔ ∀ a ∈ symbols, a.isLone = false := by
  induction symbols generalizing position with
  | nil => exact iff_of_true rfl (List.forall_mem_nil _)
  | cons a rest ih =>
    rw [List.forall_mem_cons]
    cases a with
    | lone unit => exact iff_of_false nofun nofun
    | char c => exact ih.trans (and_iff_right rfl).symm
    | stray => exact ih.trans (and_iff_right rfl).symm

/-- **The sink that writes UTF-8** takes exactly the texts without lone surrogates. -/
theorem not_refuses_utf8_iff {text : String} :
    ¬utf8.Refuses text ↔ ∀ a ∈ Text.symbols text, a.isLone = false := by
  rw [not_refuses_iff, utf8, Option.map_eq_none_iff, firstLone_eq_none_iff]

end Sink

namespace Outcome

variable {α : Type} {out : Sink} {x : Outcome Failure α}

/-- **A computation goes through a sink** as it is, or it fails at the first text that is
refused. -/
theorem through_cases (out : Sink) (x : Outcome Failure α) :
    (out.Takes x.trace ∧ x.through out = x) ∨
      ∃ before text after complaint, x.trace = before ++ .print text :: after ∧
        out.refusal? text = some complaint ∧
        x.through out = ⟨before, .error (.refused complaint)⟩ := by
  cases hcut : out.cut x.trace with
  | none => exact .inl ⟨Sink.cut_eq_none_iff.mp hcut, by rw [through, hcut]⟩
  | some cut =>
    obtain ⟨before, complaint⟩ := cut
    obtain ⟨-, text, after, htrace, htext⟩ := Sink.exists_of_cut hcut
    exact .inr ⟨before, text, after, complaint, htrace, htext, by rw [through, hcut]⟩

theorem through_of_takes (h : out.Takes x.trace) : x.through out = x := by
  rw [through, Sink.cut_eq_none_iff.mpr h]

/-- Behind a sink a computation fails where it fails before it or a text is refused. -/
theorem exists_result_through_eq_error_iff : (∃ e, (x.through out).result = .error e) ↔
    (∃ e, x.result = .error e) ∨ ∃ text, .print text ∈ x.trace ∧ out.Refuses text := by
  rcases through_cases out x with
    ⟨htakes, heq⟩ | ⟨before, text, after, complaint, htrace, htext, heq⟩
  · rw [heq, or_iff_left]
    exact fun ⟨text, htext, hrefuses⟩ => htakes text htext hrefuses
  · have hmem : .print text ∈ x.trace := htrace ▸ List.mem_append_right _ List.mem_cons_self
    rw [heq]
    exact iff_of_true ⟨_, rfl⟩ (.inr ⟨text, hmem, complaint, htext⟩)

/-- Behind a sink a computation with a value is the computation itself. -/
theorem through_of_result_eq_ok {a : α} (h : (x.through out).result = .ok a) :
    x.through out = x := by
  rcases through_cases out x with ⟨-, heq⟩ | ⟨_, _, _, _, -, -, heq⟩
  · exact heq
  · rw [heq] at h
    cases h

theorem trace_through_isPrefix (out : Sink) (x : Outcome Failure α) :
    (x.through out).trace <+: x.trace := by
  rcases through_cases out x with ⟨-, heq⟩ | ⟨before, text, after, _, htrace, -, heq⟩
  · exact heq.symm ▸ List.prefix_rfl
  · rw [heq, htrace]
    exact List.prefix_append _ _

end Outcome

end ApiOutline
