import SchemaLang.Proofs.Numerals
import SchemaLang.Proofs.WellFormed
import SchemaLang.Source

/-!
# Valid opcodes

Which payloads of attributes are valid, and what checking them does.

* `IsOpcode` says what an opcode may be: a number of 32 bits, or four ASCII characters. All other attributes are valid
  (`Attribute.invalid?_eq_none_iff`).
* `Definition.FirstInvalid` is the first attribute that is not valid, of the first definition that has one. Validation
  fails there (`Definition.validate_eq_error_iff`).
* A field of a schema that was read has no opcode, so only the attributes in front of the definitions count
  (`Schema.isValid_of_deprecated`).
* Main result: `Schema.compileText_filters`.
-/

namespace SchemaLang

/-! ## Attributes -/

/-- The texts that an opcode may have: as a number, digits behind a plus sign or no sign, with a value of 32 bits;
otherwise, four ASCII characters. -/
def IsOpcode (value : String) : Bool → Prop
  | true => ∃ n, Text.DenotesUnsigned value.toList n ∧ n ≤ 2 ^ 32 - 1
  | false => value.toList.length = 4 ∧ ∀ c ∈ value.toList, c.toNat < 128

namespace Attribute

/-- An attribute is valid unless it is an opcode with a text that none may have. -/
def IsValid (a : Attribute) : Prop := ∀ value isNumber, a = opcode value isNumber → IsOpcode value isNumber

theorem isValid_opcode_iff {value : String} {isNumber : Bool} :
    (opcode value isNumber).IsValid ↔ IsOpcode value isNumber := by
  constructor
  · exact fun h => h value isNumber rfl
  · rintro h _ _ ⟨⟩
    exact h

/-- Only an opcode may not be valid. -/
theorem exists_opcode {a : Attribute} (h : ¬ a.IsValid) :
    ∃ value isNumber, a = opcode value isNumber ∧ ¬ IsOpcode value isNumber := by
  unfold IsValid at h
  push Not at h
  exact h

/-- There is a reason against an attribute exactly if it is not valid. -/
theorem invalid?_eq_none_iff {a : Attribute} : a.invalid? = none ↔ a.IsValid := by
  cases a with
  | opcode value isNumber =>
    rw [isValid_opcode_iff]
    cases isNumber with
    | true => simp [invalid?, IsOpcode, Option.isSome_iff_exists, Text.unsigned32?_eq_some_iff]
    | false => simp [invalid?, IsOpcode, isFourCharacterCode]
  | deprecated | query | command | authorize => simp [invalid?, IsValid]

end Attribute

/-! ## Definitions -/

namespace Definition

/-- The first definition with an attribute that is not valid, of those attributes that are looked at, and the first of
these. -/
structure FirstInvalid (attributes : Definition → List Attribute) (ds : List Definition) (d : Definition)
    (a : Attribute) : Prop where
  definition_first : ∃ before after, ds = before ++ d :: after ∧ ∀ b ∈ before, ∀ c ∈ attributes b, c.IsValid
  attribute_first : ∃ before after, attributes d = before ++ a :: after ∧ ∀ c ∈ before, c.IsValid
  not_isValid : ¬ a.IsValid

variable {ds : List Definition} {d : Definition} {a : Attribute} {problem : Diagnostic}

theorem FirstInvalid.mem {attributes : Definition → List Attribute} (h : FirstInvalid attributes ds d a) :
    d ∈ ds ∧ a ∈ attributes d := by
  obtain ⟨⟨before, after, hds, -⟩, ⟨pre, post, ha, -⟩, -⟩ := h
  simp [hds, ha]

theorem invalidAttribute?_eq_none_iff : d.invalidAttribute? = none ↔ ∀ a ∈ d.remarks, a.IsValid := by
  simp [invalidAttribute?, List.findSome?_eq_none_iff, Attribute.invalid?_eq_none_iff]

/-- Validation fails with the first attribute that is not valid: the attributes of a definition come before those of its
fields, and all of these before those of the next definition. -/
theorem validate_eq_error_iff : validate ds = .error problem ↔ ∃ d a reason, FirstInvalid remarks ds d a ∧
    a.invalid? = some reason ∧ problem = .invalidAttribute a.keyword reason d.name d.span := by
  have hvalidate : validate ds = .error problem ↔ ds.findSome? invalidAttribute? = some problem := by
    rw [validate]
    cases ds.findSome? invalidAttribute? <;> simp
  rw [hvalidate, List.findSome?_eq_some_iff]
  constructor
  · rintro ⟨before, d, after, hds, hd, hbefore⟩
    obtain ⟨pre, a, post, hremarks, ha, hpre⟩ := List.findSome?_eq_some_iff.1 hd
    obtain ⟨reason, hreason, rfl⟩ := Option.map_eq_some_iff.1 ha
    refine ⟨d, a, reason, ⟨⟨before, after, hds, fun b hb => invalidAttribute?_eq_none_iff.1 (hbefore b hb)⟩,
      ⟨pre, post, hremarks, fun c hc => ?_⟩, fun hv => ?_⟩, hreason, rfl⟩
    · exact Attribute.invalid?_eq_none_iff.1 (Option.map_eq_none_iff.1 (hpre c hc))
    · rw [Attribute.invalid?_eq_none_iff.2 hv] at hreason
      cases hreason
  · rintro ⟨d, a, reason, ⟨⟨before, after, hds, hbefore⟩, ⟨pre, post, hremarks, hpre⟩, _⟩, hreason, rfl⟩
    refine ⟨before, d, after, hds, ?_, fun b hb => invalidAttribute?_eq_none_iff.2 (hbefore b hb)⟩
    refine List.findSome?_eq_some_iff.2 ⟨pre, a, post, hremarks, by rw [hreason]; rfl, fun c hc => ?_⟩
    rw [Attribute.invalid?_eq_none_iff.2 (hpre c hc)]
    rfl

/-- Validation fails exactly if some definition or some field in one has an opcode that is not valid. -/
theorem exists_validate_eq_error_iff : (∃ problem, validate ds = .error problem) ↔
    ∃ d ∈ ds, ∃ value isNumber, (.opcode value isNumber ∈ d.attributes ∨
      ∃ f ∈ d.fields, f.deprecated = some (.opcode value isNumber)) ∧ ¬ IsOpcode value isNumber := by
  constructor
  · rintro ⟨problem, h⟩
    obtain ⟨d, a, _, hfirst, _⟩ := validate_eq_error_iff.1 h
    obtain ⟨hd, ha⟩ := hfirst.mem
    obtain ⟨value, isNumber, rfl, ho⟩ := Attribute.exists_opcode hfirst.not_isValid
    exact ⟨d, hd, value, isNumber, by simpa [remarks] using ha, ho⟩
  · rintro ⟨d, hd, value, isNumber, hmem, hnot⟩
    cases h : validate ds with
    | error problem => exact ⟨problem, rfl⟩
    | ok _ =>
      have ha : .opcode value isNumber ∈ d.remarks := by simpa [remarks] using hmem
      have hvalid := Attribute.invalid?_eq_none_iff.1 (validate_eq_ok_iff.1 h d hd _ ha)
      exact absurd (Attribute.isValid_opcode_iff.1 hvalid) hnot

/-- If the fields have no attribute that is not valid, the first one is among the attributes of the definitions. -/
theorem FirstInvalid.attributes (h : FirstInvalid remarks ds d a)
    (hfields : ∀ e ∈ ds, ∀ f ∈ e.fields, ∀ c ∈ f.deprecated, c.IsValid) :
    FirstInvalid Definition.attributes ds d a := by
  obtain ⟨⟨before, after, hds, hbefore⟩, ⟨pre, post, hremarks, hpre⟩, hnot⟩ := h
  refine ⟨⟨before, after, hds, fun b hb c hc => hbefore b hb c (List.mem_append_left _ hc)⟩, ?_, hnot⟩
  have hslots : a ∉ d.fields.filterMap Field.deprecated := by
    intro ha
    obtain ⟨f, hf, hslot⟩ := List.mem_filterMap.1 ha
    exact hnot (hfields d (by simp [hds]) f hf a hslot)
  rcases List.append_eq_append_iff.1 hremarks with ⟨qs, hq, hslot⟩ | ⟨qs, hq, hslot⟩
  · exact absurd (hslot ▸ List.mem_append_right qs List.mem_cons_self) hslots
  · cases qs with
    | nil =>
      rw [List.nil_append] at hslot
      exact absurd (hslot ▸ List.mem_cons_self) hslots
    | cons c qs =>
      obtain ⟨rfl, _⟩ := List.cons.inj hslot
      exact ⟨pre, qs, hq, hpre⟩

end Definition

/-! ## Schemas -/

namespace Schema

variable {disk : Disk} {sources : List Source} {text ns : String} {s : Schema} {problem : Diagnostic}

theorem validated_eq_ok_iff {t : Schema} :
    s.validated = .ok t ↔ s = t ∧ ∀ d ∈ s.definitions, ∀ a ∈ d.remarks, a.IsValid := by
  simp only [← Attribute.invalid?_eq_none_iff, ← Definition.validate_eq_ok_iff, validated]
  cases Definition.validate s.definitions <;> simp [Except.map]

/-- Compiling is reading and then validating. -/
theorem compileSources_eq (disk : Disk) (sources : List Source) (ns : String) :
    compileSources disk sources ns = ofSources disk sources ns >>= validated := by
  rw [compileSources, ofSources]
  cases Source.stream disk sources <;> rfl

/-- The attribute that deprecates a field of a schema that was read is valid. -/
theorem isValid_of_deprecated (h : ofSources disk sources ns = .ok s) :
    ∀ d ∈ s.definitions, ∀ f ∈ d.fields, ∀ a ∈ f.deprecated, a.IsValid := by
  intro d hd f hf a ha
  cases hts : Source.stream disk sources with
  | error problem =>
    rw [ofSources, hts] at h
    cases h
  | ok tokens =>
    rw [ofSources, hts] at h
    obtain ⟨D, _, rfl⟩ := exists_derivation h
    obtain ⟨reason, rfl⟩ := ((D.wellFormed ns).fields d hd f hf).deprecated_eq a ha
    rintro value isNumber ⟨⟩

/-- What is compiled is what was read, if all of its attributes are valid. -/
theorem compileSources_eq_ok_iff : compileSources disk sources ns = .ok s ↔
    ofSources disk sources ns = .ok s ∧ ∀ d ∈ s.definitions, ∀ a ∈ d.remarks, a.IsValid := by
  rw [compileSources_eq]
  cases ofSources disk sources ns with
  | error problem => simp [bind, Except.bind]
  | ok t =>
    change t.validated = .ok s ↔ _
    rw [validated_eq_ok_iff, Except.ok.injEq]
    exact and_congr_right fun h => h ▸ Iff.rfl

/-- Where the attributes of all definitions are valid, so are those of the fields, and nothing is changed. -/
theorem compileSources_of_isValid (h : ofSources disk sources ns = .ok s)
    (hv : ∀ d ∈ s.definitions, ∀ a ∈ d.attributes, a.IsValid) : compileSources disk sources ns = .ok s := by
  refine compileSources_eq_ok_iff.2 ⟨h, fun d hd a ha => ?_⟩
  rcases List.mem_append.1 ha with ha | ha
  · exact hv d hd a ha
  · obtain ⟨f, hf, hslot⟩ := List.mem_filterMap.1 ha
    exact isValid_of_deprecated h d hd f hf a hslot

/-- Where not all are valid, the first one that is not is the problem. -/
theorem compileSources_of_not_isValid (h : ofSources disk sources ns = .ok s)
    (hv : ¬ ∀ d ∈ s.definitions, ∀ a ∈ d.attributes, a.IsValid) :
    ∃ d a reason, Definition.FirstInvalid Definition.attributes s.definitions d a ∧ a.invalid? = some reason ∧
      compileSources disk sources ns = .error (.invalidAttribute a.keyword reason d.name d.span) := by
  rw [compileSources_eq, h]
  cases hs : Definition.validate s.definitions with
  | error problem =>
    obtain ⟨d, a, reason, hfirst, hreason, rfl⟩ := Definition.validate_eq_error_iff.1 hs
    refine ⟨d, a, reason, hfirst.attributes (isValid_of_deprecated h), hreason, ?_⟩
    change s.validated = _
    rw [validated, hs]
    rfl
  | ok _ =>
    refine absurd (fun d hd a ha => ?_) hv
    exact Attribute.invalid?_eq_none_iff.1 (Definition.validate_eq_ok_iff.1 hs d hd a (List.mem_append_left _ ha))

/-- Compiling a text fails with the problem that reading it has. A schema that is read is compiled to itself if the
attributes of its definitions are valid; otherwise the problem is the first attribute that is not, of the first
definition that has one. On any definitions, validation looks at the attributes of a definition, then at those of its
fields, and then at the next definition, and it fails exactly if it finds an opcode that is not valid. So there are only
valid opcodes in what is compiled. -/
theorem compileText_filters (text ns : String) :
    (∀ problem, ofText text ns = .error problem → compileText text ns = .error problem) ∧
    (∀ s, ofText text ns = .ok s → (∀ d ∈ s.definitions, ∀ a ∈ d.attributes, a.IsValid) →
      compileText text ns = .ok s) ∧
    (∀ s, ofText text ns = .ok s → (¬ ∀ d ∈ s.definitions, ∀ a ∈ d.attributes, a.IsValid) →
      ∃ d a reason, Definition.FirstInvalid Definition.attributes s.definitions d a ∧ a.invalid? = some reason ∧
        compileText text ns = .error (.invalidAttribute a.keyword reason d.name d.span)) ∧
    (∀ ds problem, Definition.validate ds = .error problem ↔ ∃ d a reason,
      Definition.FirstInvalid (fun e => e.attributes ++ e.fields.filterMap Field.deprecated) ds d a ∧
        a.invalid? = some reason ∧ problem = .invalidAttribute a.keyword reason d.name d.span) ∧
    (∀ ds, (∃ problem, Definition.validate ds = .error problem) ↔ ∃ d ∈ ds, ∃ value isNumber,
      (.opcode value isNumber ∈ d.attributes ∨ ∃ f ∈ d.fields, f.deprecated = some (.opcode value isNumber)) ∧
        ¬ IsOpcode value isNumber) ∧
    (∀ value isNumber, (Attribute.opcode value isNumber).invalid? = none ↔ IsOpcode value isNumber) ∧
    ∀ disk sources s, compileSources disk sources ns = .ok s → ∀ d ∈ s.definitions, ∀ value isNumber,
      .opcode value isNumber ∈ d.remarks → IsOpcode value isNumber := by
  refine ⟨fun problem h => ?_, fun s h hv => compileSources_of_isValid h hv,
    fun s h hv => compileSources_of_not_isValid h hv, fun ds problem => Definition.validate_eq_error_iff,
    fun ds => Definition.exists_validate_eq_error_iff, fun value isNumber => ?_,
    fun disk sources s h d hd value isNumber ha => ?_⟩
  · rw [compileText, compileSources_eq, ← ofText, h]
    rfl
  · rw [Attribute.invalid?_eq_none_iff, Attribute.isValid_opcode_iff]
  · exact Attribute.isValid_opcode_iff.1 ((compileSources_eq_ok_iff.1 h).2 d hd _ ha)

/-- The second attribute of the second definition is the first that is not valid: three characters of four bytes. The
largest number of 32 bits is valid, and the opcode of a field is not kept. -/
theorem compileText_filters_second_attribute :
    let text := "struct A \x7b [opcode('')] A a; \x7d [opcode(04294967295)] [opcode('\u00e912')] struct B \x7b \x7d"
    ∃ s, ofText text "N" = .ok s ∧ (¬ ∀ d ∈ s.definitions, ∀ a ∈ d.attributes, a.IsValid) ∧
      ∃ d a reason, Definition.FirstInvalid Definition.attributes s.definitions d a ∧ a.invalid? = some reason ∧
        compileText text "N" = .error (.invalidAttribute a.keyword reason d.name d.span) := by
  intro text
  have hread : (ofText text "N").isOk = true := by decide +kernel
  have hcompiled : (compileText text "N").isOk = false := by decide +kernel
  obtain ⟨s, h⟩ := exists_of_isOk hread
  obtain ⟨_, hvalid, hinvalid, _⟩ := compileText_filters text "N"
  have hnot : ¬ ∀ d ∈ s.definitions, ∀ a ∈ d.attributes, a.IsValid := fun hv => by
    rw [hvalid s h hv] at hcompiled
    cases hcompiled
  exact ⟨s, h, hnot, hinvalid s h hnot⟩

end Schema

end SchemaLang
