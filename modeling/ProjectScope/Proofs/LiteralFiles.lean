import ProjectScope.Proofs.RuleDecisions

/-! # File names stand for themselves

The pattern of a file name is a glob for the name alone, whatever characters it has. So with nothing
but file names in a configuration, a resolution finds just the files with these names, and it fails
only where the tree cannot be listed. Main statement: `files_found_by_name`. -/
namespace ProjectScope

theorem Matcher.compile_fileName (file : String) :
    ∃ m, compile (Entry.escapeLiteral (Entry.normalize file)) = pure m ∧
      ∀ text, m.accepts text = true ↔ text = (Entry.normalize file).toList := by
  obtain ⟨g, hread, hg⟩ := read_fileName (Entry.backslash_notMem_normalize file)
  refine ⟨⟨_, g⟩, compile_of_read hread, ?_⟩
  intro text
  rw [accepts, Glob.accepts_iff, hg]
  exact ⟨Utf8.encode_injective, congrArg Utf8.encode⟩

theorem Matcher.covers_fileName (file : String) (text : List Char) :
    Covers (Entry.escapeLiteral (Entry.normalize file)) text ↔
      text = (Entry.normalize file).toList := by
  obtain ⟨m, hm, hacc⟩ := compile_fileName file
  exact (compiled_accepts_iff hm text).trans (hacc text)

/-- A configuration that has nothing but file names. -/
def Config.ofFiles (names : List String) : Config := { files := some names }

/-- The text is the spelling of one of the names. -/
def Spells (names : List String) (text : List Char) : Prop :=
  ∃ name ∈ names, text = (Entry.normalize name).toList

theorem includes_ofFiles_iff (names : List String) (text : List Char) :
    (Config.ofFiles names).Includes text ↔ Spells names text := by
  simp [Config.Includes, Config.ofFiles, Spells, Matcher.covers_fileName]

theorem classify_ofFiles {names : List String} {rules : Rules}
    (h : (Config.ofFiles names).rules.result = .ok rules) (text : List Char) :
    rules.classify text = .included ↔ Spells names text := by
  have hx : ¬ (Config.ofFiles names).Excludes text := by
    rintro ⟨entry, he, -⟩
    cases he
  rw [classify_included_iff h, includes_ofFiles_iff]
  exact and_iff_right hx

/-- The files below a root whose readable path spells one of the names, in the order of a walk. -/
structure FoundByName (fs : FileSystem) (root : Path) (entries : List (Name × Node))
    (names : List String) (files : List Path) : Prop where
  mem_iff : ∀ p, p ∈ files ↔ ∃ place node, Leads entries place node ∧ p = Path.relative place ∧
    IsRegular fs (root.below place) node ∧ Spells names (Utf8.lossy p.text)
  /-- Paths strictly increase, segment by segment, so that none is there twice. -/
  ordered : files.Pairwise fun p q =>
    p.components.map Path.Component.text < q.components.map Path.Component.text

theorem files_found_by_name (fs : FileSystem) (hs : fs.Sound) (names : List String) (root : Path)
    (form : Form) :
    (∀ name : String, ∃ m,
      Matcher.compile (Entry.escapeLiteral (Entry.normalize name)) = pure m ∧
        ∀ text, m.accepts text = true ↔ text = (Entry.normalize name).toList) ∧
    ((∃ entries files, ReadableFrom fs root entries ∧
        (filesOfConfig form fs (.ofFiles names) root).result = .ok files ∧
        FoundByName fs root entries names files) ∨
      (¬ ∃ entries, ReadableFrom fs root entries) ∧
        ∃ e, (filesOfConfig form fs (.ofFiles names) root).result = .error e) := by
  refine ⟨Matcher.compile_fileName, ?_⟩
  obtain ⟨rules, hrules⟩ := exists_rules (.ofFiles names)
  rw [filesOfConfig_result hrules]
  by_cases hr : ∃ entries, ReadableFrom fs root entries
  · obtain ⟨entries, hr⟩ := hr
    have hd := FileSystem.list_sound hs hr.listed
    refine .inl ⟨entries, _, hr, Walk.run_ok form hs hr, ?_, Walk.filesInScope_pairwise hd⟩
    intro p
    simp only [Walk.mem_filesInScope_iff, classify_ofFiles hrules]
  · exact .inr ⟨hr, Walk.run_fails form hr⟩

/-! ## A name that reads as a class, a wildcard and alternatives -/

open Walk (sampleName)

def strangeName : Name := sampleName "[\x7bé,*\x7d].ts"

def strangeEntries : List (Name × Node) :=
  [(sampleName "é.ts", .file [] true), (strangeName, .file [] true)]

def strangeTree : FileSystem := ⟨.directory true strangeEntries, []⟩

theorem strangeTree_sound : strangeTree.Sound := by decide

theorem strangeTree_readable : ReadableFrom strangeTree ⟨Path.dot⟩ strangeEntries :=
  Walk.readableFrom_of_layout rfl (by decide)

theorem strange_name_found :
    strangeTree.Sound ∧ ∃ files,
      (filesOfConfig .blocking strangeTree (.ofFiles [".\\[\x7bé,*\x7d].ts"])
        ⟨Path.dot⟩).result = .ok files ∧
      Path.relative [strangeName] ∈ files ∧ Path.relative [sampleName "é.ts"] ∉ files := by
  refine ⟨strangeTree_sound, ?_⟩
  obtain ⟨-, ⟨entries, files, hr, hfiles, hfound⟩ | ⟨hn, -⟩⟩ :=
    files_found_by_name strangeTree strangeTree_sound [".\\[\x7bé,*\x7d].ts"] ⟨Path.dot⟩ .blocking
  · have he := Except.ok.inj (hr.listed.symm.trans strangeTree_readable.listed)
    subst he
    refine ⟨files, hfiles, (hfound.mem_iff _).mpr ⟨[strangeName], .file [] true, ?_, rfl, .inl rfl,
      _, List.mem_singleton_self _, by decide⟩, ?_⟩
    · exact .here (.tail _ (.head _))
    · intro hm
      obtain ⟨-, -, -, -, -, name, hname, ht⟩ := (hfound.mem_iff _).mp hm
      rw [List.mem_singleton.mp hname] at ht
      exact absurd ht (by decide)
  · exact absurd ⟨_, strangeTree_readable⟩ hn

end ProjectScope
