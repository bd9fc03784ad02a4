import ProjectScope.Config.OfJson
import ProjectScope.Proofs.RuleDecisions

/-! # What is in scope without names and entries

A value that gives neither a list of names nor a list of entries to include puts in scope every file
that is not excluded and whose name ends with an extension. Names are bytes of any kind while
extensions are looked for in readable text; since the extensions are ASCII, the bytes themselves end
with them (`hasExtension_relative_iff`). A list that is there but has no string in it puts nothing
in scope. Main statement: `default_scope`. -/
namespace ProjectScope

open Json (Value)

/-! ## Names that end with an extension -/

namespace Path

theorem suffix_append_separator_iff {e : Bytes} (he : separator ∉ e) (s n : Bytes) :
    e <:+ s ++ separator :: n ↔ e <:+ n := by
  have hn : n <:+ s ++ separator :: n :=
    (List.suffix_cons separator n).trans (List.suffix_append s _)
  refine ⟨?_, fun h => h.trans hn⟩
  intro h
  rcases List.suffix_or_suffix_of_suffix h (List.suffix_append s (separator :: n)) with h | h
  · rcases List.suffix_cons_iff.mp h with rfl | h
    · exact absurd List.mem_cons_self he
    · exact h
  · exact absurd (h.subset List.mem_cons_self) he

/-- What ends the path of a place ends the last name. -/
theorem suffix_relative_iff {e : Bytes} (he : separator ∉ e) (place : List Name) (name : Name) :
    e <:+ (relative (place ++ [name])).text ↔ e <:+ name := by
  have hone : (relative [name]).text = name := by simp [relative]
  by_cases hp : place = []
  · rw [hp, List.nil_append, hone]
  · rw [text_relative_append hp (by simp), hone, suffix_append_separator_iff he]

end Path

/-- The name ends with one of the extensions, byte by byte. -/
def EndsWithOne (extensions : List String) (name : Name) : Prop :=
  ∃ e ∈ extensions, Utf8.encodeString e <:+ name

instance (extensions : List String) (name : Name) : Decidable (EndsWithOne extensions name) :=
  inferInstanceAs (Decidable (∃ e ∈ extensions, Utf8.encodeString e <:+ name))

theorem hasExtension_relative_iff {extensions : List String}
    (hx : extensions ⊆ typescriptExtensions ++ javascriptExtensions) (place : List Name)
    (name : Name) :
    Entry.HasExtension extensions (Utf8.lossy (Path.relative (place ++ [name])).text) ↔
      EndsWithOne extensions name := by
  have hall : ∀ e ∈ typescriptExtensions ++ javascriptExtensions,
      Glob.PlainText e.toList ∧ Path.separator ∉ Utf8.encodeString e := by
    decide +kernel
  refine exists_congr fun e => and_congr_right fun he => ?_
  obtain ⟨hplain, hslash⟩ := hall e (hx he)
  rw [Utf8.suffix_lossy_iff fun d hd => (hplain d hd).2]
  exact Path.suffix_relative_iff hslash place name

/-! ## Values that configurations are read from -/

namespace Json.Value

/-- What a condition in JavaScript takes for false. -/
inductive Falsy : Value → Prop
  | null : Falsy .null
  | no : Falsy (.bool false)
  | zero {x : Float} : (x == 0) = true → Falsy (.number x)
  | notANumber {x : Float} : x.isNaN = true → Falsy (.number x)
  | emptyString : Falsy (.string "")

theorem isTruthy_iff (v : Value) : v.isTruthy = true ↔ ¬ v.Falsy := by
  refine ⟨?_, ?_⟩
  · intro h hf
    cases hf with
    | null => cases h
    | no => cases h
    | zero hx =>
      rw [isTruthy, bne, hx] at h
      cases h
    | notANumber hx =>
      rw [isTruthy, hx, Bool.not_true, Bool.and_false] at h
      cases h
    | emptyString => cases h
  · intro h
    cases v with
    | null => exact absurd .null h
    | bool b =>
      cases b with
      | false => exact absurd .no h
      | true => rfl
    | number x =>
      have hzero : (x == 0) = false := Bool.eq_false_iff.mpr fun hx => h (.zero hx)
      have hnan : x.isNaN = false := Bool.eq_false_iff.mpr fun hx => h (.notANumber hx)
      rw [isTruthy, bne, hzero, hnan]
      rfl
    | string s =>
      have hs : s ≠ "" := by
        rintro rfl
        exact h .emptyString
      simpa [isTruthy] using hs
    | list items => rfl
    | object fields => rfl

/-- The compiler options are an object, and JavaScript takes what it allows for true. -/
def AsksForJs (v : Value) : Prop :=
  ∃ options allowed, v.field? "compilerOptions" = some (.object options) ∧
    (Value.object options).field? "allowJs" = some allowed ∧ ¬ allowed.Falsy

end Json.Value

namespace Config

theorem allowsJs_ofJson (v : Value) : (ofJson v).allowsJs = true ↔ v.AsksForJs := by
  have hobject : ∀ w : Value, w.isObject = true ↔ ∃ options, w = .object options := by
    intro w
    cases w <;> simp [Value.isObject]
  simp only [allowsJs, ofJson, Option.any_map, Option.any_eq_true, Option.filter_eq_some_iff,
    hobject, CompilerOptions.ofJson, Value.isTruthy_iff, Value.AsksForJs]
  refine ⟨?_, ?_⟩
  · intro h
    obtain ⟨_, ⟨hfield, options, rfl⟩, allowed, hallowed, htrue⟩ := h
    exact ⟨options, allowed, hfield, hallowed, htrue⟩
  · intro h
    obtain ⟨options, allowed, hfield, hallowed, htrue⟩ := h
    exact ⟨_, ⟨hfield, options, rfl⟩, allowed, hallowed, htrue⟩

theorem lenientStrings_eq_none_iff (v : Option Value) :
    lenientStrings v = none ↔ ∀ items, v ≠ some (.list items) := by
  rcases v with _ | v
  · simp [lenientStrings]
  · cases v <;> simp [lenientStrings, Value.items?]

theorem string?_eq_some_iff {v : Value} {s : String} : v.string? = some s ↔ v = .string s := by
  cases v <;> simp [Value.string?]

theorem mem_lenientStrings_iff (v : Option Value) (s : String) :
    s ∈ (lenientStrings v).getD [] ↔ ∃ items, v = some (.list items) ∧ .string s ∈ items := by
  rcases v with _ | v
  · simp [lenientStrings]
  · cases v <;> simp [lenientStrings, Value.items?, string?_eq_some_iff]

theorem endsWithOne_extensions_iff (v : Value) (name : Name) :
    EndsWithOne (ofJson v).extensions name ↔ EndsWithOne typescriptExtensions name ∨
      v.AsksForJs ∧ EndsWithOne javascriptExtensions name := by
  rw [extensions, ← allowsJs_ofJson]
  cases (ofJson v).allowsJs with
  | true => simp [EndsWithOne, or_and_right, exists_or]
  | false => simp [EndsWithOne]

/-- Without a list of names and one of entries, the extension decides. -/
theorem includes_ofJson_iff {v : Value}
    (h : ∀ field ∈ ["files", "include"], ∀ items, v.field? field ≠ some (.list items))
    (text : List Char) :
    (ofJson v).Includes text ↔ Entry.HasExtension (ofJson v).extensions text := by
  have hfiles : (ofJson v).files = none :=
    (lenientStrings_eq_none_iff _).mpr (h "files" (.head _))
  have hincludes : (ofJson v).includes = none :=
    (lenientStrings_eq_none_iff _).mpr (h "include" (.tail _ (.head _)))
  simp [Includes, hfiles, hincludes]

/-- Lists without a string in them include nothing. -/
theorem not_includes_ofJson {v : Value}
    (h : ∃ field ∈ ["files", "include"], ∃ items, v.field? field = some (.list items))
    (hempty : ∀ field ∈ ["files", "include"], ∀ items, v.field? field = some (.list items) →
      ∀ s, .string s ∉ items) (text : List Char) : ¬ (ofJson v).Includes text := by
  have hnone : ∀ field ∈ ["files", "include"], ∀ s,
      s ∉ (lenientStrings (v.field? field)).getD [] := by
    intro field hfield s hs
    obtain ⟨items, hitems, hm⟩ := (mem_lenientStrings_iff _ s).mp hs
    exact hempty field hfield items hitems s hm
  rintro (⟨hfiles, hincludes, -⟩ | ⟨file, hfile, -⟩ | ⟨entry, hentry, -⟩)
  · obtain ⟨field, hfield, items, hitems⟩ := h
    have hlists : ∀ field ∈ ["files", "include"], lenientStrings (v.field? field) = none := by
      simpa using ⟨hfiles, hincludes⟩
    exact (lenientStrings_eq_none_iff _).mp (hlists field hfield) items hitems
  · exact hnone "files" (.head _) file hfile
  · exact hnone "include" (.tail _ (.head _)) entry hentry

end Config

/-! ## The files -/

theorem Leads.exists_last {entries : List (Name × Node)} {names : List Name} {node : Node}
    (h : Leads entries names node) : ∃ place name, names = place ++ [name] :=
  ⟨_, _, (List.dropLast_append_getLast h.ne_nil).symm⟩

theorem default_scope (fs : FileSystem) (hs : fs.Sound) {root : Path}
    {entries : List (Name × Node)} (hr : ReadableFrom fs root entries) (form : Form) (v : Value) :
    ((∀ field ∈ ["files", "include"], ∀ items, v.field? field ≠ some (.list items)) →
      ∃ rules files, (Config.ofJson v).rules.result = .ok rules ∧
        (filesOfConfig form fs (Config.ofJson v) root).result = .ok files ∧
        Walk.Ordered files ∧
        ∀ p, p ∈ files ↔ ∃ place name node, Leads entries (place ++ [name]) node ∧
          p = Path.relative (place ++ [name]) ∧
          IsRegular fs (root.below (place ++ [name])) node ∧
          rules.classify (Utf8.lossy p.text) ≠ .excluded ∧
          (EndsWithOne typescriptExtensions name ∨
            v.AsksForJs ∧ EndsWithOne javascriptExtensions name)) ∧
    ((∃ field ∈ ["files", "include"], ∃ items, v.field? field = some (.list items)) →
      (∀ field ∈ ["files", "include"], ∀ items, v.field? field = some (.list items) →
        ∀ s, .string s ∉ items) →
      (filesOfConfig form fs (Config.ofJson v) root).result = .ok []) := by
  obtain ⟨rules, hrules⟩ := exists_rules (Config.ofJson v)
  obtain ⟨files, hfiles, hselects⟩ := filesOfConfig_selects hs hr form (Config.ofJson v)
  refine ⟨?_, ?_⟩
  · intro hdefault
    refine ⟨rules, files, hrules, hfiles, hselects.ordered, ?_⟩
    intro p
    rw [hselects.mem_iff, Config.includes_ofJson_iff hdefault, ← classify_excluded_iff hrules]
    refine ⟨?_, ?_⟩
    · intro h
      obtain ⟨⟨names, node, hl, rfl, hreg⟩, hx, hends⟩ := h
      obtain ⟨place, name, rfl⟩ := hl.exists_last
      rw [hasExtension_relative_iff (extensions_subset _), Config.endsWithOne_extensions_iff]
        at hends
      exact ⟨place, name, node, hl, rfl, hreg, hx, hends⟩
    · intro h
      obtain ⟨place, name, node, hl, rfl, hreg, hx, hends⟩ := h
      rw [← Config.endsWithOne_extensions_iff,
        ← hasExtension_relative_iff (extensions_subset _) place] at hends
      exact ⟨⟨_, node, hl, rfl, hreg⟩, hx, hends⟩
  · intro hlist hempty
    have hnil : files = [] := by
      refine List.eq_nil_iff_forall_not_mem.mpr ?_
      intro p hp
      exact Config.not_includes_ofJson hlist hempty _ ((hselects.mem_iff p).mp hp).2.2
    rw [hfiles, hnil]

/-! ## Names that are no text -/

open Walk (sampleName)

def brokenBefore : Name := 0xFF :: sampleName ".ts"

def brokenAfter : Name := sampleName "c.ts" ++ [0xFF]

def brokenEntries : List (Name × Node) :=
  [(brokenBefore, .file [] true), (brokenAfter, .file [] true),
    (sampleName "lib", .directory true
      [(sampleName "b.jsx", .link (sampleName "../" ++ brokenBefore))])]

def brokenTree : FileSystem := ⟨.directory true brokenEntries, []⟩

/-- A list to include that is none, and a string that JavaScript takes for true. -/
def askingValue : Value :=
  .object [("include", .string "lib"), ("compilerOptions", .object [("allowJs", .string "no")])]

theorem brokenTree_sound : brokenTree.Sound := by decide

theorem brokenTree_readable : ReadableFrom brokenTree ⟨Path.dot⟩ brokenEntries :=
  Walk.readableFrom_of_layout rfl (by decide)

theorem asksForJs_askingValue : askingValue.AsksForJs := by
  exact ⟨[("allowJs", .string "no")], .string "no", rfl, rfl, (Value.isTruthy_iff _).mp rfl⟩

theorem extensions_of_broken_names :
    brokenTree.Sound ∧ ReadableFrom brokenTree ⟨Path.dot⟩ brokenEntries ∧ ∃ files,
      (filesOfConfig .suspending brokenTree (Config.ofJson askingValue) ⟨Path.dot⟩).result =
        .ok files ∧
      Path.relative [brokenBefore] ∈ files ∧
      Path.relative [sampleName "lib", sampleName "b.jsx"] ∈ files ∧
      Path.relative [brokenAfter] ∉ files ∧
      (filesOfConfig .suspending brokenTree (Config.ofJson (.object [("files", .list [.null])]))
        ⟨Path.dot⟩).result = .ok [] := by
  have hscope := default_scope brokenTree brokenTree_sound brokenTree_readable .suspending
  have hdefault : ∀ field ∈ ["files", "include"], ∀ items,
      askingValue.field? field ≠ some (.list items) := by
    have hfiles : askingValue.field? "files" = none := rfl
    have hinclude : askingValue.field? "include" = some (.string "lib") := rfl
    simp [hfiles, hinclude]
  obtain ⟨rules, files, hrules, hfiles, -, hm⟩ := (hscope askingValue).1 hdefault
  have hkept : ∀ text, rules.classify text ≠ .excluded := by
    intro text hx
    obtain ⟨entry, hentry, -⟩ := (classify_excluded_iff hrules text).mp hx
    cases hentry
  refine ⟨brokenTree_sound, brokenTree_readable, files, hfiles, ?_, ?_, ?_, ?_⟩
  · refine (hm _).mpr ⟨[], brokenBefore, .file [] true, ?_, rfl, .inl rfl, hkept _, ?_⟩
    · exact .here (.head _)
    · exact .inl (by decide)
  · refine (hm _).mpr ⟨[sampleName "lib"], sampleName "b.jsx",
      .link (sampleName "../" ++ brokenBefore), ?_, rfl, ?_, hkept _, ?_⟩
    · exact .under (.tail _ (.tail _ (.head _))) (.here (.head _))
    · exact countsAsFile_iff.mp (by decide)
    · exact .inr ⟨asksForJs_askingValue, by decide⟩
  · intro hp
    obtain ⟨place, name, -, -, hpath, -, -, hends⟩ := (hm _).mp hp
    have hextension := hasExtension_relative_iff (extensions_subset (Config.ofJson askingValue))
    rw [← Config.endsWithOne_extensions_iff, ← hextension place, ← hpath] at hends
    exact absurd ((hextension [] brokenAfter).mp hends) (by decide)
  · have hlist : (Value.object [("files", .list [.null])]).field? "files" =
        some (.list [.null]) := rfl
    have hinclude : (Value.object [("files", .list [.null])]).field? "include" = none := rfl
    refine (hscope _).2 ⟨"files", by simp, _, hlist⟩ ?_
    simp [hlist, hinclude]

end ProjectScope
