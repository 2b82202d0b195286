import ApiOutline.Config.Load
import ApiOutline.Proofs.Outcome
import Mathlib.Data.List.Nodup

/-!
# Objects with distinct names

An object that was read holds each name once: the reader sets one field after the other, and
setting a field that is there replaces it. For such objects laying one over another has a plain
description (`Fields.get?_putAll`): a name has the value of the upper object, or else that of the
lower one. Without distinct names this is false, since a look-up takes the first of two fields and
laying over takes the last.

The property is shallow on purpose: `Json.HasDistinctNames` speaks of the object itself and not of
what it holds, so it holds of every value that is read without an induction over values. What is
needed of a configuration, that it and the objects in its fields have distinct names, is
`Config.distinct_of_loadWithin`.
-/

namespace ApiOutline

namespace Json

/-! ### Setting fields -/

/-- Every name comes once. -/
def Fields.Distinct (fields : Fields) : Prop :=
  (fields.map Prod.fst).Nodup

private theorem Fields.mem_of_get? {fields : Fields} {name : String} {value : Json}
    (h : fields.get? name = some value) : (name, value) ∈ fields := by
  induction fields with
  | nil => exact absurd h (by simp [Fields.get?])
  | cons field rest ih =>
    obtain ⟨n, v⟩ := field
    rw [Fields.get?_cons] at h
    split_ifs at h with hn
    · subst hn
      rw [Option.some.inj h]
      exact List.mem_cons_self
    · exact List.mem_cons_of_mem _ (ih h)

private theorem Fields.get?_eq_none_of_not_mem {fields : Fields} {name : String}
    (h : name ∉ fields.map Prod.fst) : fields.get? name = none := by
  cases hv : fields.get? name with
  | none => rfl
  | some value => exact absurd (List.mem_map_of_mem (Fields.mem_of_get? hv)) h

/-- The fields after one is set are that one and some of those from before. -/
theorem Fields.mem_put {fields : Fields} {name : String} {value : Json} {field : String × Json}
    (h : field ∈ fields.put name value) : field = (name, value) ∨ field ∈ fields := by
  induction fields with
  | nil => exact .inl (List.mem_singleton.mp h)
  | cons first rest ih =>
    obtain ⟨n, v⟩ := first
    rw [Fields.put] at h
    split_ifs at h with hn
    · subst hn
      exact (List.mem_cons.mp h).imp_right (List.mem_cons_of_mem _)
    · rcases List.mem_cons.mp h with rfl | h
      · exact .inr List.mem_cons_self
      · exact (ih h).imp_right (List.mem_cons_of_mem _)

private theorem Fields.mem_names_put {fields : Fields} {name other : String} {value : Json} :
    other ∈ (fields.put name value).map Prod.fst ↔ other = name ∨ other ∈ fields.map Prod.fst := by
  induction fields with
  | nil => simp [Fields.put]
  | cons first rest ih =>
    obtain ⟨n, v⟩ := first
    rw [Fields.put]
    split_ifs with hn
    · subst hn
      simp
    · simp only [List.map_cons, List.mem_cons, ih]
      exact or_left_comm

theorem Fields.Distinct.put {fields : Fields} (h : fields.Distinct) (name : String) (value : Json) :
    (fields.put name value).Distinct := by
  induction fields with
  | nil => exact List.nodup_singleton name
  | cons first rest ih =>
    obtain ⟨n, v⟩ := first
    obtain ⟨hfresh, hrest⟩ := List.nodup_cons.mp h
    rw [Fields.put]
    split_ifs with hn
    · exact h
    · refine List.nodup_cons.mpr ⟨fun hmem => ?_, ih hrest⟩
      rcases Fields.mem_names_put.mp hmem with heq | hmem
      · exact hn heq
      · exact hfresh hmem

theorem Fields.Distinct.without {fields : Fields} (h : fields.Distinct) (name : String) :
    (fields.without name).Distinct :=
  h.sublist (List.Sublist.map _ List.filter_sublist)

/-! ### Laying one object over another -/

private theorem Fields.putAll_cons (fields : Fields) (name : String) (value : Json)
    (rest : Fields) :
    fields.putAll ((name, value) :: rest) = (fields.put name value).putAll rest := rfl

theorem Fields.Distinct.putAll {fields : Fields} (h : fields.Distinct) (extra : Fields) :
    (fields.putAll extra).Distinct := by
  induction extra generalizing fields with
  | nil => exact h
  | cons field rest ih => exact ih (h.put field.1 field.2)

private theorem Fields.mem_putAll {fields extra : Fields} {field : String × Json}
    (h : field ∈ fields.putAll extra) : field ∈ fields ∨ field ∈ extra := by
  induction extra generalizing fields with
  | nil => exact .inl h
  | cons first rest ih =>
    rcases ih h with h | h
    · rcases Fields.mem_put h with rfl | h
      · exact .inr List.mem_cons_self
      · exact .inl h
    · exact .inr (List.mem_cons_of_mem _ h)

/-- **Laying over.** A name has the value of the upper object, or else that of the lower one. -/
theorem Fields.get?_putAll {extra : Fields} (h : extra.Distinct) (fields : Fields) (name : String) :
    (fields.putAll extra).get? name = (extra.get? name).or (fields.get? name) := by
  induction extra generalizing fields with
  | nil => rfl
  | cons first rest ih =>
    obtain ⟨n, v⟩ := first
    obtain ⟨hfresh, hrest⟩ := List.nodup_cons.mp h
    rw [Fields.putAll_cons, ih hrest, Fields.get?_put, Fields.get?_cons]
    split_ifs with hn
    · -- the name does not come again, so its value stays
      subst hn
      rw [Fields.get?_eq_none_of_not_mem hfresh]
      rfl
    · rfl

private theorem Fields.put_of_not_mem {fields : Fields} {name : String}
    (h : name ∉ fields.map Prod.fst) (value : Json) :
    fields.put name value = fields ++ [(name, value)] := by
  induction fields with
  | nil => rfl
  | cons first rest ih =>
    obtain ⟨n, v⟩ := first
    obtain ⟨hn, hrest⟩ := List.ne_and_not_mem_of_not_mem_cons h
    rw [Fields.put, if_neg hn.symm, ih hrest, List.cons_append]

/-- Fields whose names are all new are set one after the other. -/
private theorem Fields.putAll_eq_append {fields extra : Fields}
    (h : Fields.Distinct (fields ++ extra)) :
    fields.putAll extra = fields ++ extra := by
  induction extra generalizing fields with
  | nil => rw [List.append_nil, Fields.putAll, List.foldl_nil]
  | cons first rest ih =>
    obtain ⟨n, v⟩ := first
    have hfresh : n ∉ fields.map Prod.fst := by
      rw [Fields.Distinct, List.map_append, List.map_cons] at h
      exact fun hmem => List.disjoint_of_nodup_append h hmem List.mem_cons_self
    rw [List.append_cons] at h
    rw [Fields.putAll_cons, Fields.put_of_not_mem hfresh, ih h, List.append_cons fields (n, v) rest]

theorem Fields.Distinct.putAll_nil {fields : Fields} (h : fields.Distinct) :
    Fields.putAll [] fields = fields :=
  Fields.putAll_eq_append h

theorem Fields.Distinct.get?_eq_some_iff {fields : Fields} (h : fields.Distinct) {name : String}
    {value : Json} : fields.get? name = some value ↔ (name, value) ∈ fields := by
  refine ⟨Fields.mem_of_get?, fun hmem => ?_⟩
  induction fields with
  | nil => cases hmem
  | cons first rest ih =>
    obtain ⟨n, v⟩ := first
    obtain ⟨hfresh, hrest⟩ := List.nodup_cons.mp h
    rw [Fields.get?_cons]
    rcases List.mem_cons.mp hmem with heq | hrestmem
    · obtain ⟨rfl, rfl⟩ := Prod.mk.inj heq
      exact if_pos rfl
    · have hne : name ≠ n := by
        rintro rfl
        exact hfresh (List.mem_map.mpr ⟨_, hrestmem, rfl⟩)
      rw [if_neg hne, ih hrest hrestmem]

/-! ### Objects that were read -/

/-- A value that is an object holds each name once. -/
def HasDistinctNames : Json → Prop
  | .obj fields => Fields.Distinct fields
  | _ => True

theorem Fields.Distinct.nil : Fields.Distinct [] :=
  List.nodup_nil

private theorem readNumber_ne_obj (cs left : List Char) (fields : Fields) :
    readNumber cs ≠ .ok (.obj fields, left) := by
  intro h
  simp only [readNumber] at h
  split_ifs at h <;> cases (Prod.mk.inj (Except.ok.inj h)).1

private theorem readScalar_ne_obj (cs left : List Char) (fields : Fields) :
    readScalar cs ≠ .ok (.obj fields, left) := by
  intro h
  simp only [readScalar] at h
  split at h
  · next step hstep =>
    obtain rfl := Except.ok.inj h
    simp only [HOrElse.hOrElse, OrElse.orElse, Option.orElse_eq_or, Option.or_eq_some_iff,
      Option.ite_none_right_eq_some, Option.some.injEq, Prod.mk.injEq, reduceCtorEq, false_and,
      and_false, or_false] at hstep
  · exact readNumber_ne_obj cs left fields h

/-- An object that is read has fields that were read one by one and set one after the other. -/
private theorem readValue_eq_obj {fuel room : Nat} {cs left : List Char} {fields : Fields}
    (h : readValue fuel room cs = .ok (.obj fields, left)) :
    fields = [] ∨ ∃ fuel room cs left named,
      readFields fuel room cs = .ok (named, left) ∧ fields = Fields.putAll [] named := by
  cases fuel with
  | zero => cases h
  | succ fuel =>
    rw [readValue.eq_def] at h
    dsimp only at h
    -- of a text, an array, an object and a scalar only the third can be an object
    split at h
    · obtain ⟨_, -, heq⟩ := Except.map_eq_ok_iff.mp h
      cases (Prod.mk.inj heq).1
    · split_ifs at h
      split at h
      · cases (Prod.mk.inj (Except.ok.inj h)).1
      · obtain ⟨_, -, heq⟩ := Except.map_eq_ok_iff.mp h
        cases (Prod.mk.inj heq).1
    · split_ifs at h
      split at h
      · exact .inl (Json.obj.inj (Prod.mk.inj (Except.ok.inj h)).1).symm
      · obtain ⟨⟨named, rest⟩, hread, heq⟩ := Except.map_eq_ok_iff.mp h
        exact .inr ⟨_, _, _, _, named, hread, (Json.obj.inj (Prod.mk.inj heq).1).symm⟩
    · exact absurd h (readScalar_ne_obj _ _ _)

private theorem hasDistinctNames_of_readValue {fuel room : Nat} {cs left : List Char} {value : Json}
    (h : readValue fuel room cs = .ok (value, left)) : value.HasDistinctNames := by
  cases value with
  | obj fields =>
    rcases readValue_eq_obj h with rfl | ⟨_, _, _, _, named, -, rfl⟩
    · exact Fields.Distinct.nil
    · exact Fields.Distinct.nil.putAll named
  | _ => trivial

private theorem hasDistinctNames_of_readFields {fuel room : Nat} {cs left : List Char}
    {fields : Fields}
    (h : readFields fuel room cs = .ok (fields, left)) :
    ∀ field ∈ fields, field.2.HasDistinctNames := by
  induction fuel generalizing cs fields left with
  | zero => cases h
  | succ fuel ih =>
    rw [readFields.eq_def] at h
    dsimp only at h
    split at h
    · obtain ⟨⟨name, rest⟩, -, h⟩ := Except.bind_eq_ok_iff.mp h
      dsimp only at h
      split at h
      · obtain ⟨⟨value, rest⟩, hvalue, h⟩ := Except.bind_eq_ok_iff.mp h
        have hv := hasDistinctNames_of_readValue hvalue
        dsimp only at h
        split at h
        · obtain ⟨rfl, -⟩ := Prod.mk.inj (Except.ok.inj h)
          intro field hfield
          rw [List.mem_singleton.mp hfield]
          exact hv
        · obtain ⟨⟨others, rest⟩, hothers, h⟩ := Except.bind_eq_ok_iff.mp h
          obtain ⟨rfl, -⟩ := Prod.mk.inj (Except.ok.inj h)
          intro field hfield
          rcases List.mem_cons.mp hfield with rfl | hfield
          · exact hv
          · exact ih hothers field hfield
        · cases h
      · cases h
    · cases h

/-- The object and the objects in its fields hold each name once. -/
structure Fields.DistinctWithin (fields : Fields) : Prop where
  names : fields.Distinct
  inner : ∀ {name options}, fields.get? name = some (.obj options) → Fields.Distinct options

theorem Fields.DistinctWithin.nil : Fields.DistinctWithin [] :=
  ⟨Fields.Distinct.nil, fun h => absurd h (by simp [Fields.get?])⟩

private theorem distinctWithin_of_readWithin {room : Nat} {text : String} {fields : Fields}
    (h : readWithin room text = .ok (.obj fields)) : fields.DistinctWithin := by
  rw [readWithin] at h
  split at h
  · next value hvalue =>
    obtain rfl := Except.ok.inj h
    rw [readChars] at hvalue
    split_ifs at hvalue
    obtain ⟨⟨value, left⟩, hread, hvalue⟩ := Except.bind_eq_ok_iff.mp hvalue
    dsimp only at hvalue
    split at hvalue
    · obtain rfl := Except.ok.inj hvalue
      rcases readValue_eq_obj hread with rfl | ⟨_, _, _, _, named, hnamed, rfl⟩
      · exact Fields.DistinctWithin.nil
      · refine ⟨Fields.Distinct.nil.putAll named, fun hget => ?_⟩
        -- a field that is there in the end was read as it is
        rcases Fields.mem_putAll (Fields.mem_of_get? hget) with hmem | hmem
        · cases hmem
        · exact hasDistinctNames_of_readFields hnamed _ hmem
    · cases hvalue
  · cases h

end Json

namespace Config

private theorem distinctWithin_of_settle {strict : Bool} {problem : Problem} {fields : Json.Fields}
    (h : (Outcome.settle strict problem ([] : Json.Fields)).result = .ok fields) :
    fields.DistinctWithin := by
  rw [Outcome.eq_of_result_settle h]
  exact Json.Fields.DistinctWithin.nil

private theorem distinct_of_parse {room : Nat} {path text : String} {strict comments : Bool}
    {fields : Json.Fields} (h : (parse room path text strict comments).result = .ok fields) :
    fields.DistinctWithin := by
  simp only [parse] at h
  generalize (if comments = true then Json.stripComments text else text) = plain at h
  split_ifs at h
  · exact distinctWithin_of_settle h
  · split at h
    · next hread =>
      obtain rfl := Except.ok.inj h
      exact Json.distinctWithin_of_readWithin hread
    · exact distinctWithin_of_settle h
    · exact distinctWithin_of_settle h
    · cases h

/-- **Loaded configurations have distinct names**, and so have the objects in their fields. -/
theorem distinct_of_loadWithin {room : Nat} {d : Disk} {path : String} {strict comments : Bool}
    {fields : Json.Fields} (h : (loadWithin room d path strict comments).result = .ok fields) :
    fields.DistinctWithin := by
  rw [loadWithin] at h
  split at h
  · exact distinctWithin_of_settle h
  · cases h
  · split at h
    · cases h
    · exact distinct_of_parse h

end Config

end ApiOutline
