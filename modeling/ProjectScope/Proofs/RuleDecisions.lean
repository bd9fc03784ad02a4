import ProjectScope.Proofs.BareEntry
import ProjectScope.Proofs.WalkResult

/-! # What the rules of a configuration decide

Rules are compiled from patterns, and patterns are made from entries. Here decisions are told by
what they come from: a path is excluded just when an entry to exclude accepts it
(`classify_excluded_iff`), and included when it is not and a name or an entry to include accepts it
(`classify_included_iff`). A resolution gives what a walk by the rules gives
(`filesOfConfig_selects`), and it fails as soon as one directory cannot be listed (`run_fails`). -/
namespace ProjectScope

namespace Matcher

/-- The pattern is compiled to a matcher that accepts the path. -/
def Covers (p : String) (text : List Char) : Prop :=
  ∃ m, (compile p).result = .ok m ∧ m.accepts text = true

theorem any_accepts_iff {ps : List String} (text : List Char) :
    ∀ {ms : List Matcher}, (compileAll ps).result = .ok ms →
      (ms.any (·.accepts text) = true ↔ ∃ p ∈ ps, Covers p text) := by
  induction ps with
  | nil =>
    intro ms h
    cases h
    simp
  | cons p ps ih =>
    intro ms h
    rw [compileAll, Logged.result_bind_eq_ok] at h
    obtain ⟨m, hm, h⟩ := h
    rw [Logged.result_bind_eq_ok] at h
    obtain ⟨others, ho, h⟩ := h
    cases h
    have hp : Covers p text ↔ m.accepts text = true := by
      simp [Covers, hm]
    rw [List.any_cons, Bool.or_eq_true, ih ho, ← hp]
    simp

end Matcher

open Matcher (Covers)

namespace Rules

variable {patterns : PatternSet} {rules : Rules} (text : List Char)

theorem compile_parts (h : (compile patterns).result = .ok rules) :
    (Matcher.compileAll patterns.includes).result = .ok rules.includes ∧
      (Matcher.compileAll patterns.excludes).result = .ok rules.excludes := by
  rw [compile, Logged.result_bind_eq_ok] at h
  obtain ⟨includes, hi, h⟩ := h
  rw [Logged.result_bind_eq_ok] at h
  obtain ⟨excludes, he, h⟩ := h
  cases h
  exact ⟨hi, he⟩

theorem classify_eq_excluded :
    rules.classify text = .excluded ↔ rules.excludes.any (·.accepts text) = true := by
  unfold classify
  split
  · simp [*]
  · split <;> simp [*]

theorem classify_eq_included :
    rules.classify text = .included ↔ ¬ rules.excludes.any (·.accepts text) = true ∧
      rules.includes.any (·.accepts text) = true := by
  unfold classify
  split
  · simp [*]
  · split <;> simp [*]

end Rules

/-! ## Entries -/

/-- One of the entries to exclude accepts the path. -/
def Config.Excludes (c : Config) (text : List Char) : Prop :=
  ∃ entry ∈ c.excludes.getD [],
    Entry.Accepts (Entry.normalize entry) PatternSet.anyExtension text

theorem covers_excludes_iff (c : Config) (text : List Char) :
    (∃ p ∈ (PatternSet.ofConfig c).excludes, Covers p text) ↔ c.Excludes text := by
  refine ⟨?_, ?_⟩
  · intro h
    obtain ⟨p, hp, hc⟩ := h
    obtain ⟨entry, he, hp⟩ := List.mem_flatMap.mp hp
    exact ⟨entry, he, p, hp, hc⟩
  · intro h
    obtain ⟨entry, he, p, hp, hc⟩ := h
    exact ⟨p, List.mem_flatMap.mpr ⟨entry, he, hp⟩, hc⟩

/-- One of the file names or of the entries to include accepts the path. With neither list there,
its extension does. -/
def Config.Includes (c : Config) (text : List Char) : Prop :=
  (c.files = none ∧ c.includes = none ∧ Entry.HasExtension c.extensions text) ∨
    (∃ file ∈ c.files.getD [], Covers (Entry.escapeLiteral (Entry.normalize file)) text) ∨
    ∃ entry ∈ c.includes.getD [], Entry.Accepts (Entry.normalize entry) c.extensions text

theorem covers_anywhere_iff (c : Config) (text : List Char) :
    (∃ p ∈ Entry.anywhere c.extensions, Covers p text) ↔
      Entry.HasExtension c.extensions text := by
  have hroot : Entry.NamesRoot "" := .inl rfl
  have hstar : "".toList.getLast? ≠ some '*' := by simp
  rw [← Entry.accepts_root (Entry.plainText_of_scope (.inl rfl)) hstar hroot, Entry.Accepts,
    Entry.expand_root hstar hroot]
  rfl

theorem includes_of_lists {c : Config} (h : ¬ (c.files = none ∧ c.includes = none)) :
    (PatternSet.ofConfig c).includes =
      (c.files.getD []).map (fun file => Entry.escapeLiteral (Entry.normalize file)) ++
        (c.includes.getD []).flatMap
          fun entry => Entry.expand (Entry.normalize entry) c.extensions := by
  obtain ⟨files, includes, excludes, options⟩ := c
  cases files with
  | some files => rfl
  | none =>
    cases includes with
    | some includes => rfl
    | none => exact absurd ⟨rfl, rfl⟩ h

theorem covers_includes_iff (c : Config) (text : List Char) :
    (∃ p ∈ (PatternSet.ofConfig c).includes, Covers p text) ↔ c.Includes text := by
  by_cases h : c.files = none ∧ c.includes = none
  · obtain ⟨hf, hi⟩ := h
    have hdefault : (PatternSet.ofConfig c).includes = Entry.anywhere c.extensions := by
      simp only [PatternSet.ofConfig, PatternSet.withExtensions, PatternSet.includesOf, hf, hi]
    rw [hdefault, covers_anywhere_iff]
    simp [Config.Includes, hf, hi]
  · rw [includes_of_lists h]
    refine ⟨?_, ?_⟩
    · intro hp
      obtain ⟨p, hp, hc⟩ := hp
      rcases List.mem_append.mp hp with hp | hp
      · obtain ⟨file, hfile, rfl⟩ := List.mem_map.mp hp
        exact .inr (.inl ⟨file, hfile, hc⟩)
      · obtain ⟨entry, he, hp⟩ := List.mem_flatMap.mp hp
        exact .inr (.inr ⟨entry, he, p, hp, hc⟩)
    · intro hi
      rcases hi with ⟨hf, hi, -⟩ | ⟨file, hfile, hc⟩ | ⟨entry, he, p, hp, hc⟩
      · exact absurd ⟨hf, hi⟩ h
      · exact ⟨_, List.mem_append_left _ (List.mem_map_of_mem hfile), hc⟩
      · exact ⟨p, List.mem_append_right _ (List.mem_flatMap.mpr ⟨entry, he, hp⟩), hc⟩

theorem result_rules (c : Config) :
    c.rules.result = (Rules.compile (PatternSet.ofConfig c)).result := rfl

theorem exists_rules (c : Config) : ∃ rules, c.rules.result = .ok rules := by
  obtain ⟨rules, h, -⟩ := compile_ofConfig c
  exact ⟨rules, by rw [result_rules, h]⟩

theorem classify_excluded_iff {c : Config} {rules : Rules} (h : c.rules.result = .ok rules)
    (text : List Char) : rules.classify text = .excluded ↔ c.Excludes text := by
  rw [result_rules] at h
  rw [Rules.classify_eq_excluded, Matcher.any_accepts_iff text (Rules.compile_parts h).2,
    covers_excludes_iff]

theorem classify_included_iff {c : Config} {rules : Rules} (h : c.rules.result = .ok rules)
    (text : List Char) :
    rules.classify text = .included ↔ ¬ c.Excludes text ∧ c.Includes text := by
  rw [← classify_excluded_iff h, Rules.classify_eq_excluded, Rules.classify_eq_included,
    ← covers_includes_iff]
  rw [result_rules] at h
  rw [Matcher.any_accepts_iff text (Rules.compile_parts h).1]

theorem filesOfConfig_result {c : Config} {rules : Rules} (h : c.rules.result = .ok rules)
    (form : Form) (fs : FileSystem) (root : Path) :
    (filesOfConfig form fs c root).result = (Walk.run form fs rules root).result := by
  rw [filesOfConfig, Logged.bind_of_ok h]
  cases hw : (Walk.run form fs rules root).result with
  | ok files => simp only [Logged.bind_of_ok hw]; rfl
  | error e => simp only [Logged.bind_of_error hw]

/-! ## A directory that cannot be listed -/

namespace Walk

variable {fs : FileSystem} {rules : Rules} {root : Path}

theorem pass_fails {encounter : Encounter} {ahead : List Sight} {sight : Sight}
    (hm : sight ∈ ahead) (hf : faultAt? sight.1 sight.2 ≠ none) :
    ∃ e, (pass encounter fs rules root ahead).result = .error e := by
  induction ahead with
  | nil => cases hm
  | cons first ahead ih =>
    obtain ⟨path, node⟩ := first
    rw [pass, passThen]
    cases hfirst : faultAt? path node with
    | some fault => exact ⟨_, rfl⟩
    | none =>
      rcases List.mem_cons.mp hm with rfl | hm
      · exact absurd hfirst hf
      obtain ⟨e, he⟩ := ih hm
      cases hv : (visit fs rules root path node.kind).result with
      | error e' =>
        refine ⟨e', ?_⟩
        rw [Logged.result_bind_eq_error]
        exact .inl hv
      | ok found =>
        refine ⟨e, ?_⟩
        rw [Logged.result_bind_eq_error]
        refine .inr ⟨found, hv, ?_⟩
        rw [Logged.result_bind_eq_error]
        exact .inl he

/-- A walk does not succeed unless it can list the root and every directory below it. -/
theorem run_fails (form : Form) (h : ¬ ∃ entries, ReadableFrom fs root entries) :
    ∃ e, (run form fs rules root).result = .error e := by
  cases hl : fs.list root with
  | error fault =>
    rw [run_of_fault fs rules root form hl]
    exact ⟨_, rfl⟩
  | ok entries =>
    have hb : ∃ names readable inner, Leads entries names (.directory readable inner) ∧
        FileSystem.listingFault? (root.below names) readable ≠ none := by
      by_contra hn
      refine h ⟨entries, hl, ?_⟩
      intro names readable inner hd
      by_contra hf
      exact hn ⟨names, readable, inner, hd, hf⟩
    obtain ⟨names, readable, inner, hd, hf⟩ := hb
    rw [run_eq_pass fs rules root form hl]
    exact pass_fails (List.mem_map_of_mem (mem_layout_iff.mpr hd)) hf

end Walk

/-! ## The files that a configuration selects -/

/-- A regular file stands below the root, at a place with this path. -/
def Walk.FileBelow (fs : FileSystem) (root : Path) (entries : List (Name × Node)) (p : Path) :
    Prop :=
  ∃ names node, Leads entries names node ∧ p = Path.relative names ∧
    IsRegular fs (root.below names) node

/-- Paths strictly increase, segment by segment, which is how a walk comes by them. -/
def Walk.Ordered (files : List Path) : Prop :=
  files.Pairwise fun p q =>
    p.components.map Path.Component.text < q.components.map Path.Component.text

/-- The list holds the files below a root that are not excluded and included. -/
structure Config.Selects (c : Config) (fs : FileSystem) (root : Path)
    (entries : List (Name × Node)) (files : List Path) : Prop where
  ordered : Walk.Ordered files
  mem_iff : ∀ p, p ∈ files ↔ Walk.FileBelow fs root entries p ∧
    ¬ c.Excludes (Utf8.lossy p.text) ∧ c.Includes (Utf8.lossy p.text)

theorem filesOfConfig_selects {fs : FileSystem} {root : Path} {entries : List (Name × Node)}
    (hs : fs.Sound) (hr : ReadableFrom fs root entries) (form : Form) (c : Config) :
    ∃ files, (filesOfConfig form fs c root).result = .ok files ∧
      c.Selects fs root entries files := by
  obtain ⟨rules, hrules⟩ := exists_rules c
  have hd := FileSystem.list_sound hs hr.listed
  rw [filesOfConfig_result hrules]
  refine ⟨_, Walk.run_ok form hs hr, Walk.filesInScope_pairwise hd, ?_⟩
  intro p
  rw [Walk.mem_filesInScope_iff, ← classify_included_iff hrules]
  refine ⟨?_, ?_⟩
  · intro h
    obtain ⟨names, node, hl, rfl, hreg, hin⟩ := h
    exact ⟨⟨names, node, hl, rfl, hreg⟩, hin⟩
  · intro h
    obtain ⟨⟨names, node, hl, rfl, hreg⟩, hin⟩ := h
    exact ⟨names, node, hl, rfl, hreg, hin⟩

theorem filesOfConfig_fails {fs : FileSystem} {root : Path}
    (h : ¬ ∃ entries, ReadableFrom fs root entries) (form : Form) (c : Config) :
    ∃ e, (filesOfConfig form fs c root).result = .error e := by
  obtain ⟨rules, hrules⟩ := exists_rules c
  rw [filesOfConfig_result hrules]
  exact Walk.run_fails form h

/-! ## Configuration files -/

end ProjectScope
