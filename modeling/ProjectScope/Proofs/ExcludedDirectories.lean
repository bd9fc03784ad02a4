import ProjectScope.Proofs.DownwardEntries
import ProjectScope.Proofs.PrunedWalk
import ProjectScope.Proofs.RuleDecisions

/-! # Directories that need no descent

A walk descends into every directory, also into one that is excluded. Where an entry that takes in
all beneath what it accepts excludes the directory, nothing is lost by passing over it. Entries that
end in an asterisk need not be of this kind: one asterisk may accept a directory and nothing beneath
it (`files_beneath_wildcard`). Main statement: `passing_over_excluded_directories`. -/
namespace ProjectScope

open Walk (textAt)

/-- An entry excludes the path and all that may lie beneath it. -/
def Config.ExcludesThroughout (c : Config) (text : List Char) : Prop :=
  ∃ entry ∈ c.excludes.getD [], Entry.TakesInBeneath (Entry.normalize entry) ∧
    Entry.Accepts (Entry.normalize entry) PatternSet.anyExtension text

theorem Config.ExcludesThroughout.excludes {c : Config} {text : List Char}
    (h : c.ExcludesThroughout text) : c.Excludes text := by
  obtain ⟨entry, he, -, ha⟩ := h
  exact ⟨entry, he, ha⟩

theorem Config.ExcludesThroughout.beneath {c : Config} {text : List Char}
    (h : c.ExcludesThroughout text) (rest : List Char) :
    c.ExcludesThroughout (text ++ '/' :: rest) := by
  obtain ⟨entry, he, ht, ha⟩ := h
  exact ⟨entry, he, ht, Entry.accepts_beneath ht ha rest⟩

theorem Walk.textAt_append {above beneath : List Name} (ha : above ≠ []) (hb : beneath ≠ []) :
    textAt (above ++ beneath) = textAt above ++ '/' :: textAt beneath := by
  rw [textAt, Path.text_relative_append ha hb, Utf8.lossy_append_ascii (by decide)]
  rfl

theorem classify_beneath {c : Config} {rules : Rules} (h : c.rules.result = .ok rules)
    {above beneath : List Name} (ha : above ≠ []) (hb : beneath ≠ [])
    (hx : c.ExcludesThroughout (textAt above)) :
    rules.classify (textAt (above ++ beneath)) = .excluded := by
  rw [classify_excluded_iff h, Walk.textAt_append ha hb]
  exact (hx.beneath _).excludes

theorem passing_over_excluded_directories (c : Config) (fs : FileSystem) (hs : fs.Sound)
    (root : Path) {entries : List (Name × Node)} (hr : ReadableFrom fs root entries) (form : Form) :
    ∃ rules files, c.rules.result = .ok rules ∧
      (filesOfConfig form fs c root).result = .ok files ∧
      (∀ above beneath, above ≠ [] → beneath ≠ [] → c.ExcludesThroughout (textAt above) →
        rules.classify (textAt above) = .excluded ∧
          rules.classify (textAt (above ++ beneath)) = .excluded) ∧
      (∀ cut : List Name → Bool,
        (∀ place, cut place = true → c.ExcludesThroughout (textAt place)) →
          (Walk.pruning fs rules cut root).result = .ok files) ∧
      ((∀ entry ∈ c.excludes.getD [], Entry.TakesInBeneath (Entry.normalize entry)) →
        (Walk.pruning fs rules (fun place => rules.classify (textAt place) == .excluded)
          root).result = .ok files) := by
  obtain ⟨rules, hrules⟩ := exists_rules c
  have hprune : ∀ cut : List Name → Bool,
      (∀ place, cut place = true → c.ExcludesThroughout (textAt place)) →
        (Walk.pruning fs rules cut root).result =
          .ok (Walk.filesInScope fs rules root entries) := by
    intro cut hcut
    refine Walk.pruning_result hs hr ?_
    intro above beneath hc ha hb hin
    rw [classify_beneath hrules ha hb (hcut above hc)] at hin
    cases hin
  refine ⟨rules, _, hrules, ?_, ?_, hprune, ?_⟩
  · rw [filesOfConfig_result hrules, Walk.run_ok form hs hr]
  · intro above beneath ha hb hx
    exact ⟨(classify_excluded_iff hrules _).mpr hx.excludes, classify_beneath hrules ha hb hx⟩
  · intro hall
    refine hprune _ ?_
    intro place hc
    obtain ⟨entry, he, ha⟩ := (classify_excluded_iff hrules _).mp (beq_iff_eq.mp hc)
    exact ⟨entry, he, hall entry he, ha⟩

/-! ## A directory that an entry excludes throughout, and one that only a wildcard excludes -/

open Walk (sampleName)

def builtEntries : List (Name × Node) :=
  [(sampleName "dist", .directory true [(sampleName "a.ts", .file [] true)]),
    (sampleName "gen", .directory true [(sampleName "b.ts", .file [] true)])]

def builtTree : FileSystem := ⟨.directory true builtEntries, []⟩

def builtConfig : Config := { excludes := some ["dist*", "gen"] }

theorem builtTree_sound : builtTree.Sound := by decide

theorem builtTree_readable : ReadableFrom builtTree ⟨Path.dot⟩ builtEntries :=
  Walk.readableFrom_of_layout rfl (by decide)

theorem builtConfig_excludesThroughout :
    builtConfig.ExcludesThroughout (textAt [sampleName "gen"]) := by
  have hbare : Entry.TakesInBeneath (Entry.normalize "gen") := by
    rw [Entry.TakesInBeneath, if_neg (by decide)]
    exact .inr (Matcher.warning?_eq_none_iff.mp (by decide))
  have hone : "gen" ∈ Entry.expand (Entry.normalize "gen") PatternSet.anyExtension := by decide
  have hacc : (Matcher.compile "gen").result.map
      (fun m => m.accepts (textAt [sampleName "gen"])) = .ok true := by decide
  obtain ⟨g, -, hm⟩ := Matcher.compile_of_log_nil (by decide : (Matcher.compile "gen").log = [])
  rw [hm] at hacc
  exact ⟨"gen", .tail _ (.head _), hbare, "gen", hone, _, congrArg Logged.result hm,
    Except.ok.inj hacc⟩

theorem passing_over_built_directory :
    builtTree.Sound ∧ ReadableFrom builtTree ⟨Path.dot⟩ builtEntries ∧
    ∃ rules files, builtConfig.rules.result = .ok rules ∧
      (filesOfConfig .blocking builtTree builtConfig ⟨Path.dot⟩).result = .ok files ∧
      rules.classify (textAt [sampleName "gen", sampleName "b.ts"]) = .excluded ∧
      (Walk.pruning builtTree rules (· == [sampleName "gen"]) ⟨Path.dot⟩).result = .ok files := by
  refine ⟨builtTree_sound, builtTree_readable, ?_⟩
  obtain ⟨rules, files, hrules, hfiles, hbeneath, hprune, -⟩ :=
    passing_over_excluded_directories builtConfig builtTree builtTree_sound ⟨Path.dot⟩
      builtTree_readable .blocking
  refine ⟨rules, files, hrules, hfiles, ?_, hprune _ ?_⟩
  · exact (hbeneath [sampleName "gen"] [sampleName "b.ts"] (by simp) (by simp)
      builtConfig_excludesThroughout).2
  · intro place hc
    rw [beq_iff_eq.mp hc]
    exact builtConfig_excludesThroughout

/-- A file beneath an excluded directory is included, and passing over the directory loses it. -/
theorem files_beneath_wildcard :
    builtTree.Sound ∧ ReadableFrom builtTree ⟨Path.dot⟩ builtEntries ∧
    ∃ rules, builtConfig.rules.result = .ok rules ∧
      rules.classify (textAt [sampleName "dist"]) = .excluded ∧
      rules.classify (textAt [sampleName "dist", sampleName "a.ts"]) = .included ∧
      (filesOfConfig .blocking builtTree builtConfig ⟨Path.dot⟩).result =
        .ok [Path.relative [sampleName "dist", sampleName "a.ts"]] ∧
      (Walk.pruning builtTree rules (fun place => rules.classify (textAt place) == .excluded)
        ⟨Path.dot⟩).result = .ok [] := by
  refine ⟨builtTree_sound, builtTree_readable, ?_⟩
  obtain ⟨rules, hrules⟩ := exists_rules builtConfig
  have hout : builtConfig.rules.result.map (fun rules =>
      (rules.classify (textAt [sampleName "dist"]),
        rules.classify (textAt [sampleName "dist", sampleName "a.ts"]),
        (Walk.pruning builtTree rules (fun place => rules.classify (textAt place) == .excluded)
          ⟨Path.dot⟩).result)) = .ok (.excluded, .included, .ok []) := by decide +kernel
  rw [hrules] at hout
  simp only [Except.map, Except.ok.injEq, Prod.mk.injEq] at hout
  exact ⟨rules, hrules, hout.1, hout.2.1, by decide, hout.2.2⟩

end ProjectScope
