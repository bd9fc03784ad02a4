import ProjectScope.Proofs.PrunedWalk
import ProjectScope.Proofs.RuleDecisions

/-! # Scope as a set expression over entries

Which files a configuration selects depends on what its lists hold and not on how they are written
down: order and repetition do not matter. An entry more to exclude takes away just the files that it
accepts. A name or an entry more to include brings in just the files that it accepts and that are
not excluded, as long as one of the two lists is there already; a first list would take the place of
the extensions that decide without any. Main statement: `resolution_by_entries`. -/
namespace ProjectScope

open Matcher (Covers)

namespace Matcher

theorem covers_iff_compile (p : String) (text : List Char) :
    (match (compile p).result with
      | .ok m => m.accepts text
      | .error _ => false) = true ↔ Covers p text := by
  unfold Covers
  cases (compile p).result with
  | ok m => simp
  | error e => simp

instance (p : String) (text : List Char) : Decidable (Covers p text) :=
  decidable_of_iff _ (covers_iff_compile p text)

end Matcher

instance (entry : String) (extensions : List String) (text : List Char) :
    Decidable (Entry.Accepts entry extensions text) :=
  inferInstanceAs (Decidable (∃ p ∈ Entry.expand entry extensions, Covers p text))

/-! ## Lists in the order of a walk -/

namespace Walk

variable {xs ys : List Path}

theorem Ordered.filter (h : Ordered xs) (keep : Path → Bool) : Ordered (xs.filter keep) :=
  h.sublist List.filter_sublist

theorem Ordered.sublist (hx : Ordered xs) (hy : Ordered ys) (h : ∀ p ∈ xs, p ∈ ys) :
    xs.Sublist ys := by
  have hcut : xs = ys.filter (· ∈ xs) := by
    refine eq_of_mem_iff hx (hy.filter _) ?_
    intro p
    simpa using h p
  rw [hcut]
  exact List.filter_sublist

end Walk

/-! ## Configurations -/

/-- Both lists are there or both are absent, and they hold the same entries, in whatever order and
however often. -/
def SameEntries (xs ys : Option (List String)) : Prop :=
  xs.isSome = ys.isSome ∧ ∀ x, x ∈ xs.getD [] ↔ x ∈ ys.getD []

theorem SameEntries.eq_none_iff {xs ys : Option (List String)} (h : SameEntries xs ys) :
    xs = none ↔ ys = none := by
  rw [← Option.isNone_iff_eq_none, ← Option.isNone_iff_eq_none, ← Option.not_isSome,
    ← Option.not_isSome, h.1]

theorem SameEntries.exists_iff {xs ys : Option (List String)} (h : SameEntries xs ys)
    (P : String → Prop) : (∃ x ∈ xs.getD [], P x) ↔ ∃ x ∈ ys.getD [], P x :=
  exists_congr fun x => and_congr_left fun _ => h.2 x

/-- A list with one entry more at its end. An absent list counts as empty. -/
def appended (xs : Option (List String)) (x : String) : Option (List String) :=
  some (xs.getD [] ++ [x])

theorem exists_appended_iff (xs : Option (List String)) (x : String) (P : String → Prop) :
    (∃ y ∈ (appended xs x).getD [], P y) ↔ (∃ y ∈ xs.getD [], P y) ∨ P x := by
  simp only [appended, Option.getD_some, List.mem_append, List.mem_singleton, or_and_right,
    exists_or, exists_eq_left]

namespace Config

/-- The same configuration, but for the order and the repetition of what its lists hold. -/
structure Rearranges (c c' : Config) : Prop where
  files : SameEntries c.files c'.files
  includes : SameEntries c.includes c'.includes
  excludes : SameEntries c.excludes c'.excludes
  options : c.compilerOptions = c'.compilerOptions

def withFile (c : Config) (x : String) : Config := { c with files := appended c.files x }

def withInclude (c : Config) (x : String) : Config := { c with includes := appended c.includes x }

def withExclude (c : Config) (x : String) : Config := { c with excludes := appended c.excludes x }

variable {c c' : Config} {text : List Char}

theorem Rearranges.excludes_iff (h : c.Rearranges c') : c.Excludes text ↔ c'.Excludes text :=
  h.excludes.exists_iff _

theorem Rearranges.includes_iff (h : c.Rearranges c') : c.Includes text ↔ c'.Includes text := by
  have hx : c.extensions = c'.extensions := by
    rw [extensions, extensions, allowsJs, allowsJs, h.options]
  simp only [Includes, h.files.eq_none_iff, h.includes.eq_none_iff, h.files.exists_iff,
    h.includes.exists_iff, hx]

theorem excludes_withExclude (c : Config) (x : String) : (c.withExclude x).Excludes text ↔
    c.Excludes text ∨ Entry.Accepts (Entry.normalize x) PatternSet.anyExtension text :=
  exists_appended_iff c.excludes x _

/-- With one of the lists there, extensions decide nothing by themselves. -/
theorem includes_iff_of_lists (h : c.files ≠ none ∨ c.includes ≠ none) : c.Includes text ↔
    (∃ file ∈ c.files.getD [], Covers (Entry.escapeLiteral (Entry.normalize file)) text) ∨
      ∃ entry ∈ c.includes.getD [], Entry.Accepts (Entry.normalize entry) c.extensions text := by
  refine or_iff_right ?_
  intro hn
  obtain ⟨hf, hi, -⟩ := hn
  exact h.elim (· hf) (· hi)

theorem includes_withFile (h : c.files ≠ none ∨ c.includes ≠ none) (x : String) :
    (c.withFile x).Includes text ↔
      c.Includes text ∨ Covers (Entry.escapeLiteral (Entry.normalize x)) text := by
  have hfiles := exists_appended_iff c.files x
    fun y => Covers (Entry.escapeLiteral (Entry.normalize y)) text
  rw [includes_iff_of_lists h, includes_iff_of_lists (.inl (Option.some_ne_none _)), or_right_comm]
  exact or_congr_left hfiles

theorem includes_withInclude (h : c.files ≠ none ∨ c.includes ≠ none) (x : String) :
    (c.withInclude x).Includes text ↔
      c.Includes text ∨ Entry.Accepts (Entry.normalize x) c.extensions text := by
  have hincludes := exists_appended_iff c.includes x
    fun y => Entry.Accepts (Entry.normalize y) c.extensions text
  rw [includes_iff_of_lists h, includes_iff_of_lists (.inr (Option.some_ne_none _)), or_assoc]
  exact or_congr_right hincludes

end Config

/-! ## Selections -/

namespace Config

variable {c c' : Config} {fs : FileSystem} {root : Path} {entries : List (Name × Node)}
  {files files' : List Path}

theorem Selects.unique (h : c.Selects fs root entries files)
    (h' : c'.Selects fs root entries files')
    (hx : ∀ text, c.Excludes text ↔ c'.Excludes text)
    (hi : ∀ text, c.Includes text ↔ c'.Includes text) : files = files' := by
  refine Walk.eq_of_mem_iff h.ordered h'.ordered ?_
  intro p
  rw [h.mem_iff, h'.mem_iff, hx, hi]

theorem Selects.withExclude (h : c.Selects fs root entries files) (x : String) :
    (c.withExclude x).Selects fs root entries (files.filter fun p =>
      ¬ Entry.Accepts (Entry.normalize x) PatternSet.anyExtension (Utf8.lossy p.text)) := by
  refine ⟨h.ordered.filter _, ?_⟩
  intro p
  have hi : (c.withExclude x).Includes (Utf8.lossy p.text) ↔ c.Includes (Utf8.lossy p.text) :=
    Iff.rfl
  rw [List.mem_filter, h.mem_iff, decide_eq_true_iff, excludes_withExclude, hi, not_or]
  refine ⟨?_, ?_⟩
  · intro hp
    obtain ⟨⟨hbelow, hkept, hin⟩, hx⟩ := hp
    exact ⟨hbelow, ⟨hkept, hx⟩, hin⟩
  · intro hp
    obtain ⟨hbelow, ⟨hkept, hx⟩, hin⟩ := hp
    exact ⟨⟨hbelow, hkept, hin⟩, hx⟩

/-- The union of a selection with the files below the root that are accepted and not excluded, in
the order of a walk. -/
structure Unites (c : Config) (fs : FileSystem) (root : Path) (entries : List (Name × Node))
    (files : List Path) (accepted : List Char → Prop) (union : List Path) : Prop where
  ordered : Walk.Ordered union
  /-- Nothing is lost, and what was there keeps its order. -/
  keeps : files.Sublist union
  mem_iff : ∀ p, p ∈ union ↔ p ∈ files ∨ Walk.FileBelow fs root entries p ∧
    ¬ c.Excludes (Utf8.lossy p.text) ∧ accepted (Utf8.lossy p.text)

theorem Selects.unites {accepted : List Char → Prop} (h : c.Selects fs root entries files)
    (h' : c'.Selects fs root entries files')
    (hx : ∀ text, c'.Excludes text ↔ c.Excludes text)
    (hi : ∀ text, c'.Includes text ↔ c.Includes text ∨ accepted text) :
    c.Unites fs root entries files accepted files' := by
  have hmem : ∀ p, p ∈ files' ↔ p ∈ files ∨ Walk.FileBelow fs root entries p ∧
      ¬ c.Excludes (Utf8.lossy p.text) ∧ accepted (Utf8.lossy p.text) := by
    intro p
    rw [h.mem_iff, h'.mem_iff, hx, hi, and_or_left, and_or_left]
  exact ⟨h'.ordered, h.ordered.sublist h'.ordered fun p hp => (hmem p).mpr (.inl hp), hmem⟩

end Config

/-! ## Resolutions -/

theorem resolution_by_entries (fs : FileSystem) (hs : fs.Sound) (root : Path) (form : Form)
    (c : Config) :
    (∃ entries files, ReadableFrom fs root entries ∧
      (filesOfConfig form fs c root).result = .ok files ∧
      (∀ c', c.Rearranges c' → (filesOfConfig form fs c' root).result = .ok files) ∧
      (∀ x, (filesOfConfig form fs (c.withExclude x) root).result = .ok (files.filter fun p =>
        ¬ Entry.Accepts (Entry.normalize x) PatternSet.anyExtension (Utf8.lossy p.text))) ∧
      (c.files ≠ none ∨ c.includes ≠ none →
        (∀ x, ∃ union, (filesOfConfig form fs (c.withFile x) root).result = .ok union ∧
          c.Unites fs root entries files
            (Covers (Entry.escapeLiteral (Entry.normalize x))) union) ∧
        ∀ x, ∃ union, (filesOfConfig form fs (c.withInclude x) root).result = .ok union ∧
          c.Unites fs root entries files
            (Entry.Accepts (Entry.normalize x) c.extensions) union)) ∨
    (¬ ∃ entries, ReadableFrom fs root entries) ∧
      ∀ c' : Config, ∃ e, (filesOfConfig form fs c' root).result = .error e := by
  by_cases hr : ∃ entries, ReadableFrom fs root entries
  · obtain ⟨entries, hr⟩ := hr
    have hselects := filesOfConfig_selects hs hr form
    obtain ⟨files, hfiles, hc⟩ := hselects c
    refine .inl ⟨entries, files, hr, hfiles, ?_, ?_, ?_⟩
    · intro c' h
      obtain ⟨files', hfiles', hc'⟩ := hselects c'
      rw [hfiles', hc.unique hc' (fun _ => h.excludes_iff) fun _ => h.includes_iff]
    · intro x
      obtain ⟨files', hfiles', hc'⟩ := hselects (c.withExclude x)
      rw [hfiles', hc'.unique (hc.withExclude x) (fun _ => Iff.rfl) fun _ => Iff.rfl]
    · intro hlists
      refine ⟨?_, ?_⟩
      · intro x
        obtain ⟨union, hunion, hc'⟩ := hselects (c.withFile x)
        exact ⟨union, hunion,
          hc.unites hc' (fun _ => Iff.rfl) fun _ => Config.includes_withFile hlists x⟩
      · intro x
        obtain ⟨union, hunion, hc'⟩ := hselects (c.withInclude x)
        exact ⟨union, hunion,
          hc.unites hc' (fun _ => Iff.rfl) fun _ => Config.includes_withInclude hlists x⟩
  · exact .inr ⟨hr, filesOfConfig_fails hr form⟩

/-! ## A named file and a directory of sources -/

open Walk (sampleName)

def sourceEntries : List (Name × Node) :=
  [(sampleName "a.ts", .file [] true),
    (sampleName "src", .directory true [(sampleName "b.ts", .file [] true)])]

def sourceTree : FileSystem := ⟨.directory true sourceEntries, []⟩

def namingConfig : Config := { files := some ["./a.ts"] }

theorem sourceTree_sound : sourceTree.Sound := by decide

theorem sourceTree_readable : ReadableFrom sourceTree ⟨Path.dot⟩ sourceEntries :=
  Walk.readableFrom_of_layout rfl (by decide)

/-- The named file stays when it is named twice and when sources are brought in, and goes when its
name is excluded. -/
theorem sources_added_and_excluded :
    sourceTree.Sound ∧ ∃ files,
      (filesOfConfig .blocking sourceTree namingConfig ⟨Path.dot⟩).result = .ok files ∧
      Path.relative [sampleName "a.ts"] ∈ files ∧
      (filesOfConfig .blocking sourceTree (namingConfig.withFile "./a.ts") ⟨Path.dot⟩).result =
        .ok files ∧
      (∃ union, (filesOfConfig .blocking sourceTree (namingConfig.withInclude "src/")
        ⟨Path.dot⟩).result = .ok union ∧ files.Sublist union ∧
        Path.relative [sampleName "src", sampleName "b.ts"] ∈ union) ∧
      ∃ fewer, (filesOfConfig .blocking sourceTree (namingConfig.withExclude ".\\a*")
        ⟨Path.dot⟩).result = .ok fewer ∧ Path.relative [sampleName "a.ts"] ∉ fewer := by
  refine ⟨sourceTree_sound, ?_⟩
  obtain ⟨entries, files, hr, hfiles, hsame, hexclude, hadd⟩ | ⟨hn, -⟩ :=
    resolution_by_entries sourceTree sourceTree_sound ⟨Path.dot⟩ .blocking namingConfig
  · have he := Except.ok.inj (hr.listed.symm.trans sourceTree_readable.listed)
    subst he
    have hnamed : files = [Path.relative [sampleName "a.ts"]] := (Except.ok.inj hfiles).symm
    obtain ⟨union, hunion, hunites⟩ := (hadd (.inl (Option.some_ne_none _))).2 "src/"
    have htwice : namingConfig.Rearranges (namingConfig.withFile "./a.ts") :=
      ⟨⟨rfl, by simp [namingConfig, Config.withFile, appended]⟩, ⟨rfl, fun _ => Iff.rfl⟩,
        ⟨rfl, fun _ => Iff.rfl⟩, rfl⟩
    refine ⟨files, hfiles, by simp [hnamed], hsame _ htwice, ⟨union, hunion, hunites.keeps, ?_⟩,
      _, hexclude ".\\a*", ?_⟩
    · refine (hunites.mem_iff _).mpr (.inr ⟨⟨_, .file [] true, ?_, rfl, .inl rfl⟩, ?_, by decide⟩)
      · exact .under (.tail _ (.head _)) (.here (.head _))
      · rintro ⟨entry, hentry, -⟩
        cases hentry
    · intro hm
      have hkept := (List.mem_filter.mp hm).2
      exact absurd hkept (by decide)
  · exact absurd ⟨_, sourceTree_readable⟩ hn

end ProjectScope
