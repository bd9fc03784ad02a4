import ProjectScope.Proofs.DefaultScope
import ProjectScope.Proofs.FailingFolds

/-! # The strict and the lenient reading of a configuration

What an object states is told field by field and apart from both readings (`StatedBy`): a list of
strings may be missing or `null`, and so may the compiler options. The strict reading takes just the
objects that state a configuration (`ofJson?_eq_some_iff`), and the lenient one reads the same from
them (`StatedBy.ofJson_eq`). The object that a configuration is written as states it
(`statedBy_toJson`). Main statement: `readings_agree`. -/
namespace ProjectScope.Config

open Json (Value)

/-! ## Lists of strings -/

/-- What a field states of a list of strings. -/
inductive StatesStrings : Option Value → Option (List String) → Prop
  | missing : StatesStrings none none
  | null : StatesStrings (some .null) none
  | list (ss : List String) : StatesStrings (some (.list (ss.map .string))) (some ss)

theorem strictStrings?_eq_some_iff {field : Option Value} {ss : Option (List String)} :
    strictStrings? field = some ss ↔ StatesStrings field ss := by
  refine ⟨?_, ?_⟩
  · intro h
    unfold strictStrings? at h
    split at h
    · cases h
      exact .missing
    · cases h
      exact .null
    · obtain ⟨ss, hss, rfl⟩ := Option.map_eq_some_iff.mp h
      obtain rfl := (mapM_eq_some_iff fun _ _ => string?_eq_some_iff).mp hss
      exact .list ss
    · cases h
  · intro h
    cases h with
    | missing => rfl
    | null => rfl
    | list ss =>
      exact Option.map_eq_some_iff.mpr
        ⟨ss, (mapM_eq_some_iff fun _ _ => string?_eq_some_iff).mpr rfl, rfl⟩

theorem StatesStrings.lenientStrings_eq {field : Option Value} {ss : Option (List String)}
    (h : StatesStrings field ss) : lenientStrings field = ss := by
  cases h with
  | missing => rfl
  | null => rfl
  | list ss =>
    have hall : ss.filterMap (Value.string? ∘ .string) = ss := List.filterMap_some
    rw [lenientStrings, Option.bind_some, Value.items?, Option.map_some, List.filterMap_map, hall]

/-! ## Compiler options -/

/-- What a field states of something that is false unless it is set. -/
inductive StatesFlag : Option Value → Bool → Prop
  | missing : StatesFlag none false
  | told (b : Bool) : StatesFlag (some (.bool b)) b

/-- What a field states of compiler options, unless they are given in order. -/
inductive StatesOptions : Option Value → Option CompilerOptions → Prop
  | missing : StatesOptions none none
  | null : StatesOptions (some .null) none
  | object {fields} {o : CompilerOptions} :
      StatesFlag ((Value.object fields).field? "allowJs") o.allowJs →
      StatesOptions (some (.object fields)) (some o)

theorem ofField?_eq_some_iff {field : Option Value} {o : CompilerOptions} :
    CompilerOptions.ofField? field = some o ↔ StatesFlag field o.allowJs := by
  refine ⟨?_, ?_⟩
  · intro h
    unfold CompilerOptions.ofField? at h
    split at h
    · cases h
      exact .missing
    · cases h
      exact .told _
    · cases h
  · intro h
    obtain ⟨b⟩ := o
    cases h with
    | missing => rfl
    | told b => rfl

theorem strictOptions?_eq_some_iff {field : Option Value} {o : Option CompilerOptions}
    (hfield : ∀ items, field ≠ some (.list items)) :
    strictOptions? field = some o ↔ StatesOptions field o := by
  refine ⟨?_, ?_⟩
  · intro h
    unfold strictOptions? at h
    split at h
    · cases h
      exact .missing
    · cases h
      exact .null
    · obtain ⟨o, ho, rfl⟩ := Option.map_eq_some_iff.mp h
      unfold CompilerOptions.ofJson? at ho
      split at ho
      · exact .object (ofField?_eq_some_iff.mp ho)
      · exact absurd rfl (hfield _)
      · exact absurd rfl (hfield _)
      · cases ho
  · intro h
    cases h with
    | missing => rfl
    | null => rfl
    | object hflag => exact Option.map_eq_some_iff.mpr ⟨_, ofField?_eq_some_iff.mpr hflag, rfl⟩

theorem StatesFlag.isTruthy_eq {field : Option Value} {b : Bool} (h : StatesFlag field b) :
    field.any Value.isTruthy = b := by
  cases h with
  | missing => rfl
  | told b => rfl

theorem StatesOptions.lenient_eq {field : Option Value} {o : Option CompilerOptions}
    (h : StatesOptions field o) :
    (field.filter Value.isObject).map CompilerOptions.ofJson = o := by
  cases h with
  | missing => rfl
  | null => rfl
  | object hflag =>
    rw [Option.filter_some_pos rfl, Option.map_some, CompilerOptions.ofJson, hflag.isTruthy_eq]

/-! ## Objects -/

/-- The object states the configuration, whatever other fields it has. -/
structure StatedBy (c : Config) (v : Value) : Prop where
  files : StatesStrings (v.field? "files") c.files
  includes : StatesStrings (v.field? "include") c.includes
  excludes : StatesStrings (v.field? "exclude") c.excludes
  options : StatesOptions (v.field? "compilerOptions") c.compilerOptions

theorem ofFields?_eq_some_iff {files includes excludes options : Option Value} {c : Config} :
    ofFields? files includes excludes options = some c ↔
      strictStrings? files = some c.files ∧ strictStrings? includes = some c.includes ∧
        strictStrings? excludes = some c.excludes ∧
        strictOptions? options = some c.compilerOptions := by
  simp only [ofFields?, Option.bind_eq_bind, Option.bind_eq_some_iff, Option.pure_def,
    Option.some.injEq]
  refine ⟨?_, ?_⟩
  · intro h
    obtain ⟨f, hf, i, hi, e, he, o, ho, rfl⟩ := h
    exact ⟨hf, hi, he, ho⟩
  · intro h
    obtain ⟨hf, hi, he, ho⟩ := h
    exact ⟨_, hf, _, hi, _, he, _, ho, rfl⟩

theorem ofJson?_eq_some_iff {v : Value} {c : Config} (hobject : v.isObject = true)
    (hoptions : ∀ items, v.field? "compilerOptions" ≠ some (.list items)) :
    ofJson? v = some c ↔ c.StatedBy v := by
  cases v with
  | object fields =>
    rw [ofJson?, ofFields?_eq_some_iff, strictStrings?_eq_some_iff, strictStrings?_eq_some_iff,
      strictStrings?_eq_some_iff, strictOptions?_eq_some_iff hoptions]
    exact ⟨fun ⟨hf, hi, he, ho⟩ => ⟨hf, hi, he, ho⟩,
      fun ⟨hf, hi, he, ho⟩ => ⟨hf, hi, he, ho⟩⟩
  | _ => cases hobject

theorem StatedBy.ofJson_eq {v : Value} {c : Config} (h : c.StatedBy v) : ofJson v = c := by
  rw [ofJson, h.files.lenientStrings_eq, h.includes.lenientStrings_eq,
    h.excludes.lenientStrings_eq, h.options.lenient_eq]

/-! ## The object that a configuration is written as -/

/-- The value of a list of strings. -/
def listOf (ss : List String) : Value := .list (ss.map .string)

theorem lookup_toList {α : Type} (name : String) (x : Option α) (write : α → Value)
    (wanted : String) : ((x.map fun a => (name, write a)).toList.reverse).lookup wanted =
      if wanted = name then x.map write else none := by
  cases x with
  | none => simp
  | some a =>
    by_cases h : wanted = name
    · simp [h]
    · simp [List.lookup_cons, h, beq_false_of_ne h]

theorem field?_toJson (c : Config) (name : String) :
    c.toJson.field? name =
      (if name = "compilerOptions" then c.compilerOptions.map CompilerOptions.toJson else none).or
        ((if name = "exclude" then c.excludes.map listOf else none).or
          ((if name = "include" then c.includes.map listOf else none).or
            (if name = "files" then c.files.map listOf else none))) := by
  rw [toJson, Value.field?, List.reverse_append, List.reverse_append, List.reverse_append,
    List.lookup_append, List.lookup_append, List.lookup_append, lookup_toList, stringsField,
    stringsField, stringsField, lookup_toList, lookup_toList, lookup_toList]
  rfl

theorem statesStrings_map (ss : Option (List String)) : StatesStrings (ss.map listOf) ss := by
  cases ss with
  | none => exact .missing
  | some ss => exact .list ss

theorem statesOptions_map (o : Option CompilerOptions) :
    StatesOptions (o.map CompilerOptions.toJson) o := by
  cases o with
  | none => exact .missing
  | some o => exact .object (.told o.allowJs)

theorem statedBy_toJson (c : Config) : c.StatedBy c.toJson := by
  refine ⟨?_, ?_, ?_, ?_⟩
  · simpa [field?_toJson] using statesStrings_map c.files
  · simpa [field?_toJson] using statesStrings_map c.includes
  · simpa [field?_toJson] using statesStrings_map c.excludes
  · simpa [field?_toJson] using statesOptions_map c.compilerOptions

theorem options_toJson (c : Config) (items : List Value) :
    c.toJson.field? "compilerOptions" ≠ some (.list items) := by
  have hstates := (statedBy_toJson c).options
  intro h
  rw [h] at hstates
  cases hstates

/-! ## Lists that are absent and lists that are empty -/

/-- The lists of a configuration, by the names of their fields. -/
def lists (c : Config) : List (String × Option (List String)) :=
  [("files", c.files), ("include", c.includes), ("exclude", c.excludes)]

theorem StatesStrings.isSome_iff {field : Option Value} {ss : Option (List String)}
    (h : StatesStrings field ss) : ss.isSome = true ↔ ∃ items, field = some (.list items) := by
  cases h with
  | missing => simp
  | null => simp
  | list ss => simp

theorem isSome_lenientStrings_iff (field : Option Value) :
    (lenientStrings field).isSome = true ↔ ∃ items, field = some (.list items) := by
  rw [Option.isSome_iff_ne_none, ne_eq, lenientStrings_eq_none_iff]
  simp

theorem statesStrings_of_mem_lists {v : Value} {c : Config} (hobject : v.isObject = true)
    (h : ofJson? v = some c) {entry : String × Option (List String)} (hmem : entry ∈ c.lists) :
    StatesStrings (v.field? entry.1) entry.2 := by
  cases v with
  | object fields =>
    rw [ofJson?, ofFields?_eq_some_iff] at h
    obtain ⟨hf, hi, he, -⟩ := h
    simp only [lists, List.mem_cons, List.not_mem_nil, or_false] at hmem
    rcases hmem with rfl | rfl | rfl
    · exact strictStrings?_eq_some_iff.mp hf
    · exact strictStrings?_eq_some_iff.mp hi
    · exact strictStrings?_eq_some_iff.mp he
  | _ => cases hobject

theorem eq_lenientStrings_of_mem_lists {v : Value} {entry : String × Option (List String)}
    (hmem : entry ∈ (ofJson v).lists) : entry.2 = lenientStrings (v.field? entry.1) := by
  simp only [lists, List.mem_cons, List.not_mem_nil, or_false] at hmem
  rcases hmem with rfl | rfl | rfl <;> rfl

/-! ## Both readings -/

/-- The strict reading takes the objects that state a configuration and no others, the lenient one
reads the same from these, and neither takes a list that is absent for one that is empty. -/
theorem readings_agree :
    (∀ v : Value, v.isObject = true → (∀ items, v.field? "compilerOptions" ≠ some (.list items)) →
      ∀ c, (ofJson? v = some c ↔ c.StatedBy v) ∧ (ofJson? v = some c → ofJson v = c)) ∧
    (∀ c : Config, ofJson? c.toJson = some c ∧ ofJson c.toJson = c) ∧
    ∀ (v : Value) (c : Config), v.isObject = true ∧ ofJson? v = some c ∨ ofJson v = c →
      ∀ entry ∈ c.lists,
        (entry.2.isSome = true ↔ ∃ items, v.field? entry.1 = some (.list items)) := by
  refine ⟨?_, ?_, ?_⟩
  · intro v hobject hoptions c
    have hiff := ofJson?_eq_some_iff (c := c) hobject hoptions
    exact ⟨hiff, fun h => (hiff.mp h).ofJson_eq⟩
  · intro c
    have hstated := statedBy_toJson c
    exact ⟨(ofJson?_eq_some_iff rfl (options_toJson c)).mpr hstated, hstated.ofJson_eq⟩
  · intro v c h entry hmem
    rcases h with ⟨hobject, hstrict⟩ | rfl
    · exact (statesStrings_of_mem_lists hobject hstrict hmem).isSome_iff
    · rw [eq_lenientStrings_of_mem_lists hmem]
      exact isSome_lenientStrings_iff _

/-- A field that is `null`, one that is an empty list, and fields of other names. -/
def sparseValue : Value :=
  .object [("extends", .string "../base.json"), ("files", .null), ("include", .list []),
    ("compilerOptions", .object [("strict", .bool true), ("allowJs", .bool true)])]

theorem sparseValue_readings :
    (sparseValue.isObject = true ∧
      ∀ items, sparseValue.field? "compilerOptions" ≠ some (.list items)) ∧
    ofJson? sparseValue = some ⟨none, some [], none, some ⟨true⟩⟩ ∧
    ofJson sparseValue = ⟨none, some [], none, some ⟨true⟩⟩ ∧
    ∀ items, sparseValue.field? "files" ≠ some (.list items) := by
  have hoptions : ∀ items, sparseValue.field? "compilerOptions" ≠ some (.list items) := by
    simp [sparseValue, Value.field?]
  have hstrict : ofJson? sparseValue = some ⟨none, some [], none, some ⟨true⟩⟩ := by decide
  have hlenient := (readings_agree.1 sparseValue rfl hoptions _).2 hstrict
  refine ⟨⟨rfl, hoptions⟩, hstrict, hlenient, ?_⟩
  have hfiles := readings_agree.2.2 sparseValue _ (.inr hlenient) ("files", none) (.head _)
  simpa using hfiles

end ProjectScope.Config
