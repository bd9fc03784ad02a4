import ProjectScope.Proofs.ConfigReadings
import ProjectScope.Proofs.RecordReading

/-! # The strict reading of a text and of its value

A text is read strictly in one pass over its tokens, without a value in between. Where the text
holds a value, that reading and the strict reading of the value take the same configuration from it,
except that one pass refuses a known field that is given twice, while of a value the last field
counts. Main statement: `ofText_eq_ok_iff`. -/
namespace ProjectScope.Config.OfText

open Json (Token Fault Value)

variable {ts rest : List Token}

/-! ## Booleans and lists of strings -/

def boolOf : Value → Option Bool
  | .bool b => some b
  | _ => none

theorem bool_follows : Follows bool boolOf := by
  intro v rest b ts
  cases v <;> simp [Value.tokens, bool, boolOf, refuse, eq_comm]

/-- The first item of a list is read as any other. -/
theorem strings_first (v : Value) (found : List String) (ts : List Token) :
    strings found .first (v.tokens ++ ts) = strings found .item (v.tokens ++ ts) := by
  cases v <;> rfl

theorem strings_item_eq_ok {v : Value} {found ss : List String} :
    strings found .item (v.tokens ++ rest) = .ok (ss, ts) ↔
      ∃ s, v.string? = some s ∧ strings (s :: found) .afterItem rest = .ok (ss, ts) := by
  cases v with
  | string s =>
    have hread : strings found .item ((Value.string s).tokens ++ rest) =
        strings (s :: found) .afterItem rest := rfl
    rw [hread]
    simp [Value.string?]
  | _ => exact iff_of_false refuse_ne_ok (by simp [Value.string?])

theorem strings_afterItem_eq_ok {items : List Value} {found ss : List String} :
    strings found .afterItem (Value.moreItemTokens items ++ rest) = .ok (ss, ts) ↔
      ∃ more, items.mapM Value.string? = some more ∧ ss = found.reverse ++ more ∧ ts = rest := by
  induction items generalizing found with
  | nil =>
    have hread : strings found .afterItem (Value.moreItemTokens [] ++ rest) =
        .ok (found.reverse, rest) := rfl
    rw [hread]
    simp [eq_comm]
  | cons v items ih =>
    have hread : strings found .afterItem (Value.moreItemTokens (v :: items) ++ rest) =
        strings found .item (v.tokens ++ Value.moreItemTokens items ++ rest) := rfl
    rw [hread, List.append_assoc, strings_item_eq_ok]
    simp only [ih, List.mapM_cons, Option.bind_eq_bind, Option.bind_eq_some_iff, Option.pure_def,
      Option.some.injEq, List.reverse_cons, List.append_assoc, List.singleton_append]
    refine ⟨?_, ?_⟩
    · intro h
      obtain ⟨s, hs, more, hmore, hss, hts⟩ := h
      exact ⟨s :: more, ⟨s, hs, more, hmore, rfl⟩, hss, hts⟩
    · intro h
      obtain ⟨_, ⟨s, hs, more, hmore, rfl⟩, hss, hts⟩ := h
      exact ⟨s, hs, more, hmore, hss, hts⟩

theorem strings_first_eq_ok {items : List Value} {ss : List String} :
    strings [] .first (Value.itemTokens items ++ rest) = .ok (ss, ts) ↔
      items.mapM Value.string? = some ss ∧ ts = rest := by
  cases items with
  | nil =>
    have hread : strings [] .first (Value.itemTokens [] ++ rest) = .ok ([], rest) := rfl
    rw [hread]
    simp [eq_comm]
  | cons v items =>
    -- The first item is read as one that comes after a comma.
    have hread : strings [] .first (Value.itemTokens (v :: items) ++ rest) =
        strings [] .afterItem (Value.moreItemTokens (v :: items) ++ rest) := by
      rw [Value.itemTokens, List.append_assoc, strings_first, ← List.append_assoc]
      rfl
    rw [hread, strings_afterItem_eq_ok]
    simp

theorem optionalStrings_follows : Follows optionalStrings fun v => strictStrings? (some v) := by
  intro v rest ss ts
  cases v with
  | null =>
    have hread : optionalStrings (Value.null.tokens ++ rest) = .ok (none, rest) := rfl
    rw [hread]
    simp [strictStrings?, eq_comm]
  | list items =>
    have hread : optionalStrings ((Value.list items).tokens ++ rest) =
        (strings [] .first (Value.itemTokens items ++ rest)).map fun read =>
          (some read.1, read.2) := rfl
    simp only [hread, map_eq_ok, strings_first_eq_ok, strictStrings?, Option.map_eq_some_iff]
    grind
  | _ => simp [Value.tokens, optionalStrings, refuse, strictStrings?]

/-! ## Configurations -/

/-- What the fields of compiler options mean, told the latest first. -/
def optionsMeaning (told : List (String × Value)) : Option CompilerOptions :=
  CompilerOptions.ofField? (told.lookup "allowJs")

theorem optionFields_describe : Describes optionFields {} optionsMeaning where
  untold := rfl
  unknown v told hname := by
    rw [optionsMeaning, lookup_cons_of_ne v (ne_of_unknown hname _ (by decide))]
    rfl
  earlier hname hmeaning := exists_meaning_before rfl hname hmeaning
  field hknown hname hmeaning := by
    obtain ⟨rfl, rfl⟩ := Prod.mk.inj (List.mem_singleton.mp (mem_of_lookup_eq_some hknown))
    refine (bool_follows.map _).congr fun v => ?_
    cases v <;> rfl

/-- Compiler options or `null`; a record of them names no known field twice. -/
def optionsOf : Value → Option (Option CompilerOptions)
  | .null => some none
  | v => (recordOf optionFields optionsMeaning v).map some

theorem optionsOf_of_ne_null {v : Value} (h : v ≠ .null) :
    optionsOf v = (recordOf optionFields optionsMeaning v).map some := by
  cases v <;> first | rfl | exact absurd rfl h

theorem optionalOptions_follows : Follows optionalOptions optionsOf := by
  have hrecord := (optionFields_describe.record_follows (by decide)).map some
  intro v rest o ts
  by_cases hnull : v = .null
  · subst hnull
    have hread : optionalOptions (Value.null.tokens ++ rest) = .ok (none, rest) := rfl
    rw [hread]
    simp [optionsOf, eq_comm]
  · have hread : optionalOptions (v.tokens ++ rest) =
        (record optionFields {} (v.tokens ++ rest)).map fun read => (some read.1, read.2) := by
      cases v <;> first | rfl | exact absurd rfl hnull
    rw [hread, optionsOf_of_ne_null hnull]
    exact hrecord v rest o ts

/-- What the fields of a configuration mean, told the latest first. -/
def configMeaning (told : List (String × Value)) : Option Config := do
  return ⟨← strictStrings? (told.lookup "files"), ← strictStrings? (told.lookup "include"),
    ← strictStrings? (told.lookup "exclude"),
    ← (told.lookup "compilerOptions").elim (some none) optionsOf⟩

theorem configMeaning_eq_some_iff {told : List (String × Value)} {c : Config} :
    configMeaning told = some c ↔
      strictStrings? (told.lookup "files") = some c.files ∧
        strictStrings? (told.lookup "include") = some c.includes ∧
          strictStrings? (told.lookup "exclude") = some c.excludes ∧
            (told.lookup "compilerOptions").elim (some none) optionsOf =
              some c.compilerOptions := by
  simp only [configMeaning, Option.bind_eq_bind, Option.bind_eq_some_iff, Option.pure_def,
    Option.some.injEq]
  refine ⟨?_, ?_⟩
  · intro h
    obtain ⟨f, hf, i, hi, e, he, o, ho, rfl⟩ := h
    exact ⟨hf, hi, he, ho⟩
  · intro h
    obtain ⟨hf, hi, he, ho⟩ := h
    exact ⟨_, hf, _, hi, _, he, _, ho, rfl⟩

theorem configFields_describe : Describes configFields {} configMeaning where
  untold := rfl
  unknown v told hname := by
    have hne := ne_of_unknown hname
    rw [configMeaning, lookup_cons_of_ne v (hne "files" (by decide)),
      lookup_cons_of_ne v (hne "include" (by decide)),
      lookup_cons_of_ne v (hne "exclude" (by decide)),
      lookup_cons_of_ne v (hne "compilerOptions" (by decide))]
    rfl
  earlier hname hmeaning := by
    rw [configMeaning_eq_some_iff] at hmeaning
    obtain ⟨hfiles, hincludes, hexcludes, hoptions⟩ := hmeaning
    obtain ⟨files, hfiles⟩ := exists_meaning_before (m := strictStrings?) rfl hname hfiles
    obtain ⟨includes, hincludes⟩ := exists_meaning_before (m := strictStrings?) rfl hname hincludes
    obtain ⟨excludes, hexcludes⟩ := exists_meaning_before (m := strictStrings?) rfl hname hexcludes
    obtain ⟨options, hoptions⟩ :=
      exists_meaning_before (m := fun o => o.elim (some none) optionsOf) rfl hname hoptions
    exact ⟨⟨files, includes, excludes, options⟩,
      configMeaning_eq_some_iff.mpr ⟨hfiles, hincludes, hexcludes, hoptions⟩⟩
  field := by
    intro name told c readField hknown _ hmeaning
    have hmem := mem_of_lookup_eq_some hknown
    simp only [configFields, List.mem_cons, List.not_mem_nil, or_false, Prod.mk.injEq] at hmem
    obtain ⟨hfiles, hincludes, hexcludes, hoptions⟩ := configMeaning_eq_some_iff.mp hmeaning
    rcases hmem with ⟨rfl, rfl⟩ | ⟨rfl, rfl⟩ | ⟨rfl, rfl⟩ | ⟨rfl, rfl⟩
    · refine (optionalStrings_follows.map fun ss => { c with files := ss }).congr fun v => ?_
      cases hv : strictStrings? (some v) <;>
        simp [configMeaning, List.lookup_cons, hv, hincludes, hexcludes, hoptions]
    · refine (optionalStrings_follows.map fun ss => { c with includes := ss }).congr fun v => ?_
      cases hv : strictStrings? (some v) <;>
        simp [configMeaning, List.lookup_cons, hv, hfiles, hexcludes, hoptions]
    · refine (optionalStrings_follows.map fun ss => { c with excludes := ss }).congr fun v => ?_
      cases hv : strictStrings? (some v) <;>
        simp [configMeaning, List.lookup_cons, hv, hfiles, hincludes, hoptions]
    · refine (optionalOptions_follows.map fun o => { c with compilerOptions := o }).congr ?_
      intro v
      cases hv : optionsOf v <;>
        simp [configMeaning, List.lookup_cons, hv, hfiles, hincludes, hexcludes]

/-! ## Known fields that are given once -/

theorem options_eq_some_iff {v : Value} {o : CompilerOptions} :
    recordOf optionFields optionsMeaning v = some o ↔
      CompilerOptions.ofJson? v = some o ∧ NamesOnce ["allowJs"] v := by
  cases v with
  | object fields =>
    simp only [recordOf, nodup_seen_reverse, Option.ite_none_right_eq_some]
    exact and_comm
  | list items =>
    have hlist : recordOf optionFields optionsMeaning (.list items) =
        CompilerOptions.ofJson? (.list items) := by
      rcases items with _ | ⟨v, _ | ⟨w, more⟩⟩ <;> rfl
    simp [hlist, NamesOnce]
  | _ => simp [recordOf, CompilerOptions.ofJson?]

theorem optionsOf_eq_some_iff {v : Value} {o : Option CompilerOptions} :
    optionsOf v = some o ↔ strictOptions? (some v) = some o ∧ NamesOnce ["allowJs"] v := by
  by_cases hnull : v = .null
  · subst hnull
    simp [optionsOf, strictOptions?, NamesOnce]
  · have hstrict : strictOptions? (some v) = (CompilerOptions.ofJson? v).map some := by
      cases v <;> first | rfl | exact absurd rfl hnull
    simp only [optionsOf_of_ne_null hnull, hstrict, Option.map_eq_some_iff, options_eq_some_iff]
    grind

/-- The value of the compiler options, in an object the last of that name. -/
def optionsField : Value → Option Value
  | .list items => items[3]?
  | v => v.field? "compilerOptions"

/-- No known field is given twice, neither in the value nor in its compiler options. -/
structure GivenOnce (v : Value) : Prop where
  fields : NamesOnce ["files", "include", "exclude", "compilerOptions"] v
  options : ∀ o, optionsField v = some o → NamesOnce ["allowJs"] o

theorem configMeaning_iff_ofFields? {told : List (String × Value)} {c : Config} :
    configMeaning told = some c ↔
      ofFields? (told.lookup "files") (told.lookup "include") (told.lookup "exclude")
          (told.lookup "compilerOptions") = some c ∧
        ∀ o, told.lookup "compilerOptions" = some o → NamesOnce ["allowJs"] o := by
  rw [configMeaning_eq_some_iff, ofFields?_eq_some_iff]
  cases told.lookup "compilerOptions" with
  | none => simp [strictOptions?]
  | some o =>
    simp only [Option.elim_some, optionsOf_eq_some_iff, Option.some.injEq, forall_eq', and_assoc]

theorem lookup_zip_configFields (items : List Value) (h : items.length ≤ 4) :
    let told := ((configFields.map Prod.fst).zip items).reverse
    told.lookup "files" = items[0]? ∧ told.lookup "include" = items[1]? ∧
      told.lookup "exclude" = items[2]? ∧ told.lookup "compilerOptions" = items[3]? := by
  match items with
  | [] | [_] | [_, _] | [_, _, _] | [_, _, _, _] => exact ⟨rfl, rfl, rfl, rfl⟩
  | _ :: _ :: _ :: _ :: _ :: _ =>
    simp only [List.length_cons] at h
    omega

theorem config_eq_some_iff {v : Value} {c : Config} :
    recordOf configFields configMeaning v = some c ↔ ofJson? v = some c ∧ GivenOnce v := by
  cases v with
  | object fields =>
    simp only [recordOf, nodup_seen_reverse, Option.ite_none_right_eq_some,
      configMeaning_iff_ofFields?]
    refine ⟨?_, ?_⟩
    · intro h
      exact ⟨h.2.1, h.1, h.2.2⟩
    · intro h
      exact ⟨h.2.fields, h.1, h.2.options⟩
  | list items =>
    have hlist : items.length ≤ configFields.length ↔ items.length ≤ 4 := Iff.rfl
    by_cases hlength : items.length ≤ 4
    · obtain ⟨hfiles, hincludes, hexcludes, hoptions⟩ := lookup_zip_configFields items hlength
      rw [recordOf, if_pos (hlist.mpr hlength), configMeaning_iff_ofFields?, ofJson?,
        if_pos hlength, hfiles, hincludes, hexcludes, hoptions]
      exact and_congr_right fun _ => ⟨fun h => ⟨trivial, h⟩, fun h => h.options⟩
    · simp [recordOf, ofJson?, hlist, hlength]
  | _ => simp [recordOf, ofJson?]

/-! ## The strict reading of a text -/

/-- A text that holds a value is read in one pass as its value is, but for fields given twice: the
value keeps the last of them, where one pass refuses the second. -/
theorem ofText_eq_ok_iff {text : List Char} {v : Value} (h : Json.read text = .ok v) {c : Config} :
    Config.ofText text = .ok c ↔ ofJson? v = some c ∧ GivenOnce v := by
  have hwhole : Config.ofText text = .ok c ↔
      record configFields {} (Token.ofChars text) = .ok (c, []) := by
    unfold Config.ofText
    split <;> simp_all
  have hfollows := configFields_describe.record_follows (by decide) v [] c []
  rw [List.append_nil, ← Json.tokens_of_read h, config_eq_some_iff] at hfollows
  rw [hwhole, hfollows, and_iff_left rfl]

end ProjectScope.Config.OfText
