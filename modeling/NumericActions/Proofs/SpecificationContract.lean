import NumericActions.Proofs.InvocationContract
import NumericActions.Proofs.NameLanguage
import NumericActions.Proofs.Outcome

/-!
# The contract of specifications

A specification is read from fields, with a coercion that may take values of other types,
and it is published as an object. The object has values of the types of the fields only. It
obeys the contract of specifications, and reading it gives the same specification again.

* `ActionSpec.Reads`, `ActionSpec.read?_eq_ok_iff`: the fields that specify an action.
* `ActionSpec.reads_toFields`: the fields of a specification specify it.
* `Contract.specification_eq_nil_iff`: what the contract of specifications asks of an object.
* `Contract.reportBy_toValue`: a published specification obeys its contract.
* `ActionSpec.round_trip`: all of this for everything that is read.
-/

namespace NumericActions

/-! ## Reading -/

/-- A field that must be there. -/
theorem Field.find_required_eq_ok_iff {α : Type} {read : Value → Except FieldCause α}
    {fields : List (String × Value)} {field : String} {a : α} :
    Field.find (.error .missing) read fields field = .ok a ↔
      ∃ v, fields.lookup field = some v ∧ read v = .ok a := by
  rw [Field.find, mapError_eq_ok_iff]
  cases fields.lookup field <;> simp

/-- A field with a standard value. -/
theorem Field.find_optional_eq_ok_iff {α : Type} {standard : α}
    {read : Value → Except FieldCause α} {fields : List (String × Value)} {field : String}
    {a : α} :
    Field.find (.ok standard) read fields field = .ok a ↔
      match fields.lookup field with
      | none => a = standard
      | some v => read v = .ok a := by
  rw [Field.find, mapError_eq_ok_iff]
  cases fields.lookup field with
  | none => rw [Option.elim_none, Except.ok.injEq, eq_comm]
  | some v => rfl

theorem ActionName.of?_eq_ok_iff {text : String} {name : ActionName} :
    ActionName.of? text = .ok name ↔ text = name.text := by
  unfold ActionName.of?
  split
  · rename_i h
    rw [Except.ok.injEq]
    constructor
    · rintro rfl
      rfl
    · rintro rfl
      rfl
  · rename_i segment h
    constructor
    · intro h
      cases h
    · rintro rfl
      rw [name.valid] at h
      cases h

theorem ActionName.isEmpty_text (name : ActionName) : name.text.isEmpty = false := by
  refine Bool.eq_false_iff.mpr fun h => ?_
  have hvalid := name.valid
  rw [String.isEmpty_iff.mp h] at hvalid
  cases hvalid

namespace Coercion

variable {coercion : Coercion} {v : Value}

theorem name_eq_ok_iff {name : ActionName} :
    coercion.name v = .ok name ↔ coercion.text v = .ok name.text := by
  unfold Coercion.name
  cases coercion.text v with
  | error cause => simp [bind, Except.bind]
  | ok s =>
    simp only [bind, Except.bind, Except.ok.injEq]
    constructor
    · intro h
      split at h
      · cases h
      · exact ActionName.of?_eq_ok_iff.mp (mapError_eq_ok_iff.mp h)
    · rintro rfl
      rw [name.isEmpty_text, if_neg Bool.false_ne_true, mapError_eq_ok_iff]
      exact ActionName.of?_eq_ok_iff.mpr rfl

theorem natural_eq_ok_iff {n : Nat} :
    coercion.natural v = .ok n ↔ coercion.integer v = .ok (n : Int) := by
  unfold Coercion.natural
  cases coercion.integer v with
  | error cause => simp [bind, Except.bind]
  | ok m =>
    simp only [bind, Except.bind, Except.ok.injEq]
    split
    · rename_i h
      constructor
      · intro h
        cases h
      · intro h
        omega
    · rw [Except.ok.injEq]
      omega

end Coercion

namespace ActionSpec

/-- The fields state a specification: the values that a coercion finds in them are those of
the specification. A description that is missing is empty. -/
structure Reads (coercion : Coercion) (fields : List (String × Value)) (spec : ActionSpec) :
    Prop where
  name : ∃ v, fields.lookup "name" = some v ∧ coercion.text v = .ok spec.name.text
  minimalArguments : ∃ v, fields.lookup "minimal_arguments" = some v ∧
    coercion.integer v = .ok (spec.minimalArguments : Int)
  discipline : ∃ v, fields.lookup "discipline" = some v ∧
    coercion.discipline v = .ok spec.discipline
  description : match fields.lookup "description" with
    | none => spec.description = ""
    | some v => coercion.text v = .ok spec.description

/-- A specification is read exactly if each of its fields is. -/
theorem read?_eq_ok_iff_find {coercion : Coercion} {fields : List (String × Value)}
    {spec : ActionSpec} :
    read? coercion fields = .ok spec ↔
      Field.find (.error .missing) coercion.name fields "name" = .ok spec.name ∧
      Field.find (.error .missing) coercion.natural fields "minimal_arguments" =
        .ok spec.minimalArguments ∧
      Field.find (.error .missing) coercion.discipline fields "discipline" =
        .ok spec.discipline ∧
      Field.find (.ok "") coercion.text fields "description" = .ok spec.description := by
  unfold read?
  dsimp only
  constructor
  · intro h
    split at h
    · rename_i hname hminimum hdiscipline hdescription
      cases h
      exact ⟨hname, hminimum, hdiscipline, hdescription⟩
    · cases h
  · rintro ⟨hname, hminimum, hdiscipline, hdescription⟩
    rw [hname, hminimum, hdiscipline, hdescription]

theorem read?_eq_ok_iff {coercion : Coercion} {fields : List (String × Value)}
    {spec : ActionSpec} : read? coercion fields = .ok spec ↔ Reads coercion fields spec := by
  rw [read?_eq_ok_iff_find, Field.find_required_eq_ok_iff, Field.find_required_eq_ok_iff,
    Field.find_required_eq_ok_iff, Field.find_optional_eq_ok_iff]
  simp only [Coercion.name_eq_ok_iff, Coercion.natural_eq_ok_iff]
  constructor
  · rintro ⟨hname, hminimum, hdiscipline, hdescription⟩
    exact ⟨hname, hminimum, hdiscipline, hdescription⟩
  · intro h
    exact ⟨h.name, h.minimalArguments, h.discipline, h.description⟩

/-! ## The fields of a specification -/

theorem reads_toFields {coercion : Coercion} (h : coercion.KeepsPlain) (spec : ActionSpec) :
    Reads coercion spec.toFields spec :=
  ⟨⟨_, rfl, h.text _⟩, ⟨_, rfl, h.integer _⟩, ⟨_, rfl, h.discipline _⟩, h.text _⟩

end ActionSpec

theorem ActionName.isName (name : ActionName) : IsName name.text :=
  isName_iff.mpr (badSegment?_eq_none_iff.mp name.valid)

/-! ## Objects that obey the contract -/

def specificationKeys : List String :=
  ["name", "minimal_arguments", "discipline", "description"]

structure SpecificationEntries (entries : List (String × Value)) : Prop where
  keys : ∀ key ∈ entries.map (·.1), key ∈ specificationKeys
  name : ∃ name, entries.lookup "name" = some (.text name) ∧
    Contract.namePattern.occursIn name = true
  minimalArguments : ∃ n, entries.lookup "minimal_arguments" = some (.number n) ∧
    SchemaType.integer.holds (.number n) = true ∧ n.lt (.int 0) = false
  discipline : ∃ d : Discipline, entries.lookup "discipline" = some (.text d.name)
  description : ∀ v, entries.lookup "description" = some v → ∃ text, v = .text text

namespace Contract

theorem violationUnless_eq_nil_iff {allowed : Bool} {value : Value} {cause : ViolationCause} :
    violationUnless allowed value cause = [] ↔ allowed = true := by
  unfold violationUnless
  split <;> simp_all

theorem required_eq_nil_iff {resolve : String → Value → List Violation} {known : List String}
    {entries : List (String × Value)} {keys : List String} :
    Keyword.violations resolve known (.dict entries) (.required keys) = [] ↔
      ∀ key ∈ keys, key ∈ entries.map (·.1) := by
  simp [Keyword.violations, List.filter_eq_nil_iff]

theorem closed_eq_nil_iff {resolve : String → Value → List Violation} {known : List String}
    {entries : List (String × Value)} :
    Keyword.violations resolve known (.dict entries) .closed = [] ↔
      ∀ key ∈ entries.map (·.1), key ∈ known := by
  simp [Keyword.violations, violationUnless_eq_nil_iff, List.filter_eq_nil_iff]

/-- The keywords for each field of a specification. -/
theorem nameSchema_eq_nil_iff {resolve : String → Value → List Violation} {v : Value} :
    Schema.violations resolve [.type .string, .pattern namePattern] v = [] ↔
      ∃ name, v = .text name ∧ namePattern.occursIn name = true := by
  cases v <;> simp [Schema.violations, Keyword.allViolations, Keyword.violations,
    violationUnless_eq_nil_iff, SchemaType.holds]

theorem minimumSchema_eq_nil_iff {resolve : String → Value → List Violation} {v : Value} :
    Schema.violations resolve [.type .integer, .minimum 0] v = [] ↔
      ∃ n, v = .number n ∧ SchemaType.integer.holds (.number n) = true ∧
        n.lt (.int 0) = false := by
  cases v <;> simp [Schema.violations, Keyword.allViolations, Keyword.violations,
    violationUnless_eq_nil_iff, SchemaType.holds]

theorem disciplineSchema_eq_nil_iff {resolve : String → Value → List Violation} {v : Value} :
    Schema.violations resolve [.type .string,
        .options ["elementwise", "windowed", "aggregate", "parameterized"]] v = [] ↔
      ∃ d : Discipline, v = .text d.name := by
  have hnames : ∀ text : String,
      text ∈ ["elementwise", "windowed", "aggregate", "parameterized"] ↔
        ∃ d : Discipline, text = d.name := by
    intro text
    constructor
    · intro h
      obtain ⟨d, -, hd⟩ := List.mem_map.mp (show text ∈ Discipline.all.map Discipline.name from h)
      exact ⟨d, hd.symm⟩
    · rintro ⟨d, rfl⟩
      cases d <;> decide
  cases v with
  | text text =>
    simp only [Schema.violations, Keyword.allViolations, Keyword.violations, List.append_nil,
      List.append_eq_nil_iff, violationUnless_eq_nil_iff, SchemaType.holds, true_and,
      Value.isOneOf, List.contains_iff_mem, hnames, Value.text.injEq]
  | _ => simp [Schema.violations, Keyword.allViolations, Keyword.violations,
    violationUnless_eq_nil_iff, SchemaType.holds]

theorem descriptionSchema_eq_nil_iff {resolve : String → Value → List Violation} {v : Value} :
    Schema.violations resolve [.type .string] v = [] ↔ ∃ text, v = .text text := by
  cases v <;> simp [Schema.violations, Keyword.allViolations, Keyword.violations,
    violationUnless_eq_nil_iff, SchemaType.holds]

section

variable {entries : List (String × Value)} {key : String} {P : Value → Prop}

theorem exists_lookup_of_mem (h : key ∈ entries.map (·.1))
    (hall : ∀ v, entries.lookup key = some v → P v) : ∃ v, entries.lookup key = some v ∧ P v := by
  obtain ⟨v, hv⟩ := mem_keys_iff.mp h
  exact ⟨v, hv, hall v hv⟩

theorem forall_of_lookup {v : Value} (h : entries.lookup key = some v) (hv : P v) :
    ∀ w, entries.lookup key = some w → P w := by
  intro w hw
  rw [h] at hw
  cases hw
  exact hv

end

/-- The contract of specifications, keyword by keyword. -/
theorem specification_eq_nil_iff {entries : List (String × Value)} :
    specification.violations (.dict entries) = [] ↔ SpecificationEntries entries := by
  have hkeys : specificationSchema.propertyKeys = specificationKeys := rfl
  have hobject : ∀ resolve known,
      Keyword.violations resolve known (.dict entries) (.type .object) = [] := fun _ _ => rfl
  have hremark : ∀ resolve known key value,
      Keyword.violations resolve known (.dict entries) (.remark key value) = [] :=
    fun _ _ _ _ => by rw [Keyword.violations]
  have hproperties : ∀ resolve known schemas,
      Keyword.violations resolve known (.dict entries) (.properties schemas) =
        Keyword.propertyViolations resolve entries schemas :=
    fun _ _ _ => by rw [Keyword.violations]
  unfold Contract.violations schema Schema.validate Schema.violations
  simp only [hkeys]
  simp only [specificationSchema, header, List.cons_append, List.nil_append,
    Keyword.allViolations, hremark, hobject, hproperties, Keyword.propertyViolations_eq,
    List.flatMap_cons, List.flatMap_nil, List.append_nil, List.append_eq_nil_iff,
    required_eq_nil_iff, closed_eq_nil_iff, entryViolations_eq_nil_iff, nameSchema_eq_nil_iff,
    minimumSchema_eq_nil_iff, disciplineSchema_eq_nil_iff, descriptionSchema_eq_nil_iff]
  have hrequired : (∀ key ∈ ["name", "minimal_arguments", "discipline"],
      key ∈ entries.map (·.1)) ↔ "name" ∈ entries.map (·.1) ∧
        "minimal_arguments" ∈ entries.map (·.1) ∧ "discipline" ∈ entries.map (·.1) := by simp
  rw [hrequired]
  constructor
  · rintro ⟨⟨hname, hminimum, hdiscipline⟩, hclosed, hname', hminimum', hdiscipline', htext⟩
    obtain ⟨_, hv, name, rfl, hpattern⟩ := exists_lookup_of_mem hname hname'
    obtain ⟨_, hw, n, rfl, hn⟩ := exists_lookup_of_mem hminimum hminimum'
    obtain ⟨_, hu, d, rfl⟩ := exists_lookup_of_mem hdiscipline hdiscipline'
    exact ⟨hclosed, ⟨name, hv, hpattern⟩, ⟨n, hw, hn⟩, ⟨d, hu⟩, htext⟩
  · rintro ⟨hclosed, ⟨name, hv, hpattern⟩, ⟨n, hw, hn⟩, ⟨d, hu⟩, htext⟩
    exact ⟨⟨mem_keys_iff.mpr ⟨_, hv⟩, mem_keys_iff.mpr ⟨_, hw⟩, mem_keys_iff.mpr ⟨_, hu⟩⟩, hclosed,
      forall_of_lookup hv ⟨name, rfl, hpattern⟩, forall_of_lookup hw ⟨n, rfl, hn⟩,
      forall_of_lookup hu ⟨d, rfl⟩, htext⟩

theorem specificationEntries_toFields (spec : ActionSpec) :
    SpecificationEntries spec.toFields := by
  constructor
  · simp [ActionSpec.toFields, specificationKeys]
  · exact ⟨_, rfl, occursIn_namePattern.mpr (.inl spec.name.isName)⟩
  · refine ⟨_, rfl, rfl, ?_⟩
    rw [Number.lt_int, decide_eq_false_iff_not]
    omega
  · exact ⟨_, rfl⟩
  · rintro v hv
    cases hv
    exact ⟨_, rfl⟩

/-- A published specification obeys the contract. -/
theorem reportBy_toValue {ε : Type} {V : Validator ε} {reach : Contract → Schema → Value → Prop}
    (h : V.Lawful reach) (spec : ActionSpec)
    (hreach : reach specification specification.schema spec.toValue) :
    specification.reportBy V spec.toValue = .ok [] := by
  obtain ⟨texts, hreport⟩ := exists_report h hreach
  have hviolations : specification.violations spec.toValue = [] :=
    specification_eq_nil_iff.mpr (specificationEntries_toFields spec)
  rw [hreport, (eq_nil_iff_of_reportBy h hreport).mpr hviolations]

end Contract

namespace ActionSpec

/-! ## Reading what is published -/

/-- The object of a specification obeys the contract, by every validator that can go through it,
and a specification that is read from the object is the same and has the same object. -/
structure ReadsBack (spec : ActionSpec)
    (read : List (String × Value) → Except (List FieldError) ActionSpec) : Prop where
  report : ∀ {ε : Type} (V : Validator ε) (reach : Contract → Schema → Value → Prop),
    V.Lawful reach → reach .specification Contract.specification.schema spec.toValue →
    Contract.specification.reportBy V spec.toValue = .ok []
  again : ∃ entries again, spec.toValue = .dict entries ∧ read entries = .ok again ∧
    again = spec ∧ again.toValue = spec.toValue

theorem readsBack {coercion : Coercion} (h : coercion.KeepsPlain) (spec : ActionSpec) :
    spec.ReadsBack (read? coercion) := by
  refine ⟨fun _ _ hV => Contract.reportBy_toValue hV spec, spec.toFields, spec, rfl, ?_, rfl, rfl⟩
  exact read?_eq_ok_iff.mpr (reads_toFields h spec)

/-- For any fields: a specification that is read from them, by the lax coercion or by any other
coercion that keeps values of the right type, has the values that the coercion finds in the
fields, and what is published of it can be read back. -/
theorem round_trip (fields : List (String × Value)) :
    (∀ spec, ofFields? fields = .ok spec →
      Reads .lax fields spec ∧ spec.ReadsBack ofFields?) ∧
    ∀ coercion : Coercion, coercion.KeepsPlain → ∀ spec, read? coercion fields = .ok spec →
      Reads coercion fields spec ∧ spec.ReadsBack (read? coercion) := by
  have hall : ∀ coercion : Coercion, coercion.KeepsPlain → ∀ spec,
      read? coercion fields = .ok spec →
        Reads coercion fields spec ∧ spec.ReadsBack (read? coercion) := by
    intro coercion hplain spec hspec
    exact ⟨read?_eq_ok_iff.mp hspec, readsBack hplain spec⟩
  exact ⟨hall .lax Coercion.lax_keepsPlain, hall⟩

/-- A truth value as a number of arguments is published as the integer that it counts for, and a
field of another name is not published. -/
theorem round_trip_coerced :
    ∃ spec, ofFields? [("discipline", .text "windowed"), ("minimal_arguments", .bool true),
        ("name", .text "a/b_1/c-d"), ("note", .null)] = .ok spec ∧
      spec.toValue = .dict [("name", .text "a/b_1/c-d"), ("minimal_arguments", .int 1),
        ("discipline", .text "windowed"), ("description", .text "")] ∧
      spec.ReadsBack ofFields? := by
  obtain ⟨spec, hspec⟩ := exists_eq_ok
    (show (ofFields? [("discipline", .text "windowed"), ("minimal_arguments", .bool true),
      ("name", .text "a/b_1/c-d"), ("note", .null)]).isOk by decide +kernel)
  obtain ⟨hreads, hback⟩ := (round_trip _).1 spec hspec
  refine ⟨spec, hspec, ?_, hback⟩
  obtain ⟨_, hv, hname⟩ := hreads.name
  obtain ⟨_, hw, hminimum⟩ := hreads.minimalArguments
  obtain ⟨_, hu, hdiscipline⟩ := hreads.discipline
  have hdescription : spec.description = "" := hreads.description
  cases hv
  cases hw
  cases hu
  have hone : (1 : Int) = spec.minimalArguments := Except.ok.inj hminimum
  have htext : "a/b_1/c-d" = spec.name.text := Except.ok.inj hname
  have hwindowed : Discipline.windowed = spec.discipline := Except.ok.inj hdiscipline
  rw [toValue, toFields, ← htext, ← hone, ← hwindowed, hdescription]
  rfl

end ActionSpec

end NumericActions
