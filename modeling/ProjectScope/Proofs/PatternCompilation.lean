import ProjectScope.Proofs.LiteralGlobs
import ProjectScope.Proofs.WalkPass

/-! # Every configuration can be compiled

No backslash is left in an entry once it is normalized, and the extensions bring none in. A pattern
without backslashes that is no glob is one once its wildcards are in classes, and then stands for
its own text. The pattern of a literal file name has backslashes, each before the character that it
escapes, and is a glob as it is. Main statement: `ofConfig_compiles`. -/
namespace ProjectScope

/-! ## Backslashes -/

namespace Entry

theorem dropDots_suffix (cs : List Char) : dropDots cs <:+ cs := by
  fun_induction dropDots cs with
  | case1 rest ih => exact ih.trans ⟨['.', '/'], rfl⟩
  | case2 cs _ => exact List.suffix_refl cs

theorem backslash_notMem_map_unifySlash (cs : List Char) : '\\' ∉ cs.map unifySlash := by
  intro hm
  obtain ⟨c, -, hc⟩ := List.mem_map.mp hm
  unfold unifySlash at hc
  split at hc
  · exact absurd hc (by decide)
  · next hne => exact hne hc

theorem backslash_notMem_normalize (entry : String) : '\\' ∉ (normalize entry).toList := by
  rw [normalize, String.toList_ofList]
  exact fun hm => backslash_notMem_map_unifySlash _ ((dropDots_suffix _).subset hm)

theorem base_subset (entry : String) : base entry ⊆ entry.toList := by
  unfold base
  split
  · exact List.dropLast_subset _
  · exact List.Subset.refl _

theorem backslash_notMem_anywhere {extensions : List String}
    (hx : ∀ e ∈ extensions, '\\' ∉ e.toList) :
    ∀ p ∈ anywhere extensions, '\\' ∉ p.toList := by
  intro p hp
  obtain ⟨e, he, rfl⟩ := List.mem_map.mp hp
  simp [hx e he]

theorem backslash_notMem_expand {entry : String} {extensions : List String}
    (h : '\\' ∉ entry.toList) (hx : ∀ e ∈ extensions, '\\' ∉ e.toList) :
    ∀ p ∈ expand entry extensions, '\\' ∉ p.toList := by
  have hb : '\\' ∉ base entry := fun hm => h (base_subset entry hm)
  intro p hp
  unfold expand at hp
  split at hp
  · rw [List.mem_singleton.mp hp]
    exact h
  dsimp only at hp
  split at hp
  · exact backslash_notMem_anywhere hx p hp
  rcases List.mem_cons.mp hp with rfl | hp
  · simpa using hb
  · obtain ⟨e, he, rfl⟩ := List.mem_map.mp hp
    simp [beneath, hb, hx e he]

end Entry

theorem extensions_subset (c : Config) :
    c.extensions ⊆ typescriptExtensions ++ javascriptExtensions := by
  unfold Config.extensions
  split
  · exact List.Subset.refl _
  · simp

theorem backslash_notMem_extensions (c : Config) : ∀ e ∈ c.extensions, '\\' ∉ e.toList := by
  have hall : ∀ e ∈ typescriptExtensions ++ javascriptExtensions, '\\' ∉ e.toList := by decide
  intro e he
  exact hall e (extensions_subset c he)

/-! ## Where a pattern comes from -/

/-- The pattern of a literal file name. -/
def IsFilePattern (c : Config) (p : String) : Prop :=
  ∃ file ∈ c.files.getD [], p = Entry.escapeLiteral (Entry.normalize file)

theorem mem_includes (c : Config) {p : String} (h : p ∈ (PatternSet.ofConfig c).includes) :
    IsFilePattern c p ∨ '\\' ∉ p.toList := by
  have hx := backslash_notMem_extensions c
  unfold PatternSet.ofConfig PatternSet.withExtensions PatternSet.includesOf at h
  dsimp only at h
  split at h
  · exact .inr (Entry.backslash_notMem_anywhere hx p h)
  · rcases List.mem_append.mp h with h | h
    · obtain ⟨file, hf, rfl⟩ := List.mem_map.mp h
      exact .inl ⟨file, hf, rfl⟩
    · obtain ⟨entry, -, hp⟩ := List.mem_flatMap.mp h
      exact .inr (Entry.backslash_notMem_expand (Entry.backslash_notMem_normalize entry) hx p hp)

theorem mem_excludes (c : Config) {p : String} (h : p ∈ (PatternSet.ofConfig c).excludes) :
    '\\' ∉ p.toList := by
  obtain ⟨entry, -, hp⟩ := List.mem_flatMap.mp h
  have hx : ∀ e ∈ PatternSet.anyExtension, '\\' ∉ e.toList := by decide
  exact Entry.backslash_notMem_expand (Entry.backslash_notMem_normalize entry) hx p hp

/-! ## Patterns as written characters -/

namespace Matcher

open Glob (Spelling)

def isBrace (c : Char) : Bool := c == '\x7b' || c == '\x7d'

/-- How a character is written when nothing in the pattern is a wildcard. -/
def quoted (c : Char) : Spelling := if isMeta c then .bracketed c else .bare c

/-- How a character of a file name is written once the braces are in classes. -/
def inFileName (c : Char) : Spelling :=
  if Entry.isSpecial c then .escaped c else if isBrace c then .bracketed c else .bare c

theorem quoted_safe {c : Char} (h : c ≠ '\\') : (quoted c).Safe := by
  unfold quoted
  by_cases hc : isMeta c = true
  · rw [if_pos hc]
    simp only [isMeta, Bool.or_eq_true, beq_iff_eq] at hc
    rcases hc with ((((rfl | rfl) | rfl) | rfl) | rfl) | rfl <;>
      exact ⟨by decide, by decide, by decide⟩
  · rw [if_neg hc]
    simp only [isMeta, Bool.or_eq_true, beq_iff_eq, not_or] at hc
    obtain ⟨⟨⟨⟨⟨h₁, h₂⟩, h₃⟩, -⟩, h₄⟩, h₅⟩ := hc
    exact ⟨h₁, h₂, h₃, h₄, h₅, h⟩

theorem inFileName_safe {c : Char} (h : c ≠ '\\') : (inFileName c).Safe := by
  unfold inFileName
  by_cases hs : Entry.isSpecial c = true
  · rw [if_pos hs]
    trivial
  · rw [if_neg hs]
    simp only [Entry.isSpecial, Bool.or_eq_true, beq_iff_eq, not_or] at hs
    obtain ⟨⟨⟨h₁, h₂⟩, h₃⟩, -⟩ := hs
    by_cases hb : isBrace c = true
    · rw [if_pos hb]
      simp only [isBrace, Bool.or_eq_true, beq_iff_eq] at hb
      rcases hb with rfl | rfl <;> exact ⟨by decide, by decide, by decide⟩
    · rw [if_neg hb]
      simp only [isBrace, Bool.or_eq_true, beq_iff_eq, not_or] at hb
      exact ⟨h₂, h₁, h₃, hb.1, hb.2, h⟩

theorem literalAll_eq_written (cs : List Char) :
    literalAll cs = Glob.written (cs.map quoted) := by
  have hw : ∀ c, (if isMeta c then inBrackets c else [c]) = (quoted c).written := by
    intro c
    unfold quoted
    split <;> rfl
  simp only [literalAll, Glob.written, List.flatMap_map, hw]

theorem meant_quoted (cs : List Char) : Glob.meant (cs.map quoted) = cs := by
  have hc : ∀ c, (quoted c).char = c := by
    intro c
    unfold quoted
    split <;> rfl
  simp [Glob.meant, Function.comp_def, hc]

theorem literalBraces_escapeLiteral (file : String) :
    literalBraces (Entry.escapeLiteral file).toList =
      Glob.written (file.toList.map inFileName) := by
  have hw : ∀ c, literalBraces (if Entry.isSpecial c then ['\\', c] else [c]) =
      (inFileName c).written := by
    intro c
    unfold inFileName
    by_cases hs : Entry.isSpecial c = true
    · simp only [hs, if_true]
      simp only [Entry.isSpecial, Bool.or_eq_true, beq_iff_eq] at hs
      rcases hs with ((rfl | rfl) | rfl) | rfl <;> decide
    · simp only [hs, if_false, Bool.false_eq_true]
      by_cases hb : isBrace c = true
      · simp only [hb, if_true]
        simp only [isBrace, Bool.or_eq_true, beq_iff_eq] at hb
        simp [literalBraces, hb, Spelling.written, inBrackets]
      · simp only [hb, if_false, Bool.false_eq_true]
        simp only [isBrace, Bool.or_eq_true, beq_iff_eq] at hb
        simp [literalBraces, hb, Spelling.written]
  simp only [← hw, Glob.written, List.flatMap_map, Entry.escapeLiteral, String.toList_ofList]
  simp only [literalBraces, List.flatMap_assoc]

theorem meant_inFileName (cs : List Char) : Glob.meant (cs.map inFileName) = cs := by
  have hc : ∀ c, (inFileName c).char = c := by
    intro c
    unfold inFileName
    split
    · rfl
    · split <;> rfl
  simp [Glob.meant, Function.comp_def, hc]

/-! ## Compiling one pattern -/

/-- What is logged for a pattern that is matched literally. -/
def warning? (p : String) : Option Record :=
  match Glob.read (literalBraces p.toList) with
  | .ok _ => none
  | .error fault => some (.literally p (String.ofList (literalBraces p.toList)) fault)

/-- The pattern is no glob once its braces are in classes. -/
def Rejected (p : String) : Prop := ∃ fault, Glob.read (literalBraces p.toList) = .error fault

theorem warning?_eq_none_iff {p : String} : warning? p = none ↔ ¬ Rejected p := by
  unfold warning? Rejected
  split
  · next h => simp [h]
  · next h => simp [h]

/-- A warning is about the pattern that it names. -/
theorem eq_of_warning? {p q : String} {glob : String} {fault : Glob.Fault}
    (h : warning? q = some (.literally p glob fault)) : q = p := by
  unfold warning? at h
  split at h
  · cases h
  · cases h
    rfl

theorem compile_of_read {p : String} {g : Glob} (h : Glob.read (literalBraces p.toList) = .ok g) :
    compile p = pure ⟨p, g⟩ := by
  simp [compile, h]

/-- Without backslashes the second reading succeeds, for the text of the pattern alone. -/
theorem compile_of_rejected {p : String} (h : Rejected p) (hp : '\\' ∉ p.toList) :
    ∃ m, compile p = ⟨(warning? p).toList, .ok m⟩ ∧ m.pattern = p ∧
      ∀ text, m.accepts text = true ↔ text = p.toList := by
  obtain ⟨fault, hf⟩ := h
  have hs : ∀ x ∈ p.toList.map quoted, x.Safe := by
    intro x hx
    obtain ⟨c, hc, rfl⟩ := List.mem_map.mp hx
    exact quoted_safe fun he => hp (he ▸ hc)
  obtain ⟨g, hg, hm⟩ := Glob.read_written hs
  rw [← literalAll_eq_written] at hg
  rw [meant_quoted] at hm
  refine ⟨⟨p, g⟩, ?_, rfl, ?_⟩
  · simp only [compile, warning?, hf, hg]
    rfl
  · intro text
    rw [accepts, Glob.accepts_iff, hm]
    exact ⟨Utf8.encode_injective, congrArg Utf8.encode⟩

theorem read_fileName {file : String} (h : '\\' ∉ file.toList) :
    ∃ g, Glob.read (literalBraces (Entry.escapeLiteral file).toList) = .ok g ∧
      ∀ w, g.Matches w ↔ w = Utf8.encode file.toList := by
  have hs : ∀ x ∈ file.toList.map inFileName, x.Safe := by
    intro x hx
    obtain ⟨c, hc, rfl⟩ := List.mem_map.mp hx
    exact inFileName_safe fun he => h (he ▸ hc)
  obtain ⟨g, hg, hm⟩ := Glob.read_written hs
  rw [meant_inFileName] at hm
  exact ⟨g, literalBraces_escapeLiteral file ▸ hg, hm⟩

theorem not_rejected_fileName (file : String) :
    ¬ Rejected (Entry.escapeLiteral (Entry.normalize file)) := by
  intro h
  obtain ⟨fault, hf⟩ := h
  obtain ⟨g, hg, -⟩ := read_fileName (Entry.backslash_notMem_normalize file)
  rw [hg] at hf
  cases hf

/-! ## Compiling all patterns -/

/-- The pattern is a glob as it is, or has no backslash that could spoil the second reading. -/
def Compilable (p : String) : Prop := ¬ Rejected p ∨ '\\' ∉ p.toList

theorem compile_spec {p : String} (h : Compilable p) :
    ∃ m, compile p = ⟨(warning? p).toList, .ok m⟩ ∧ m.pattern = p ∧
      (Rejected p → '\\' ∉ p.toList → ∀ text, m.accepts text = true ↔ text = p.toList) := by
  by_cases hr : Rejected p
  · have hp := h.resolve_left (not_not_intro hr)
    obtain ⟨m, hm, hpat, hacc⟩ := compile_of_rejected hr hp
    exact ⟨m, hm, hpat, fun _ _ => hacc⟩
  · cases hg : Glob.read (literalBraces p.toList) with
    | error fault => exact absurd ⟨fault, hg⟩ hr
    | ok g =>
      refine ⟨⟨p, g⟩, ?_, rfl, fun hr' => absurd hr' hr⟩
      rw [compile_of_read hg, warning?_eq_none_iff.mpr hr]
      rfl

theorem compileAll_spec {ps : List String} (h : ∀ p ∈ ps, Compilable p) :
    ∃ ms, compileAll ps = ⟨ps.filterMap warning?, .ok ms⟩ ∧ ms.map pattern = ps ∧
      ∀ m ∈ ms, Rejected m.pattern → '\\' ∉ m.pattern.toList →
        ∀ text, m.accepts text = true ↔ text = m.pattern.toList := by
  induction ps with
  | nil => exact ⟨[], rfl, rfl, by simp⟩
  | cons p ps ih =>
    obtain ⟨m, hm, hp, hacc⟩ := compile_spec (h p List.mem_cons_self)
    obtain ⟨ms, hms, hps, haccs⟩ := ih fun q hq => h q (List.mem_cons_of_mem p hq)
    refine ⟨m :: ms, ?_, by rw [List.map_cons, hp, hps], ?_⟩
    · rw [compileAll, hm, Logged.bind_of_ok rfl, hms, Logged.bind_of_ok rfl]
      cases hw : warning? p with
      | none => simp [hw]
      | some r => simp [hw]
    · intro k hk
      rcases List.mem_cons.mp hk with rfl | hk
      · rw [hp]
        exact hacc
      · exact haccs k hk

end Matcher

open Matcher (warning? Rejected)

theorem includes_compilable (c : Config) :
    ∀ p ∈ (PatternSet.ofConfig c).includes, Matcher.Compilable p := by
  intro p hp
  rcases mem_includes c hp with ⟨file, -, rfl⟩ | hb
  · exact .inl (Matcher.not_rejected_fileName file)
  · exact .inr hb

theorem compile_ofConfig (c : Config) :
    ∃ rules, Rules.compile (PatternSet.ofConfig c) =
        ⟨((PatternSet.ofConfig c).includes ++ (PatternSet.ofConfig c).excludes).filterMap warning?,
          .ok rules⟩ ∧
      rules.includes.map Matcher.pattern = (PatternSet.ofConfig c).includes ∧
      rules.excludes.map Matcher.pattern = (PatternSet.ofConfig c).excludes ∧
      ∀ m ∈ rules.includes ++ rules.excludes, Rejected m.pattern → '\\' ∉ m.pattern.toList →
        ∀ text, m.accepts text = true ↔ text = m.pattern.toList := by
  obtain ⟨includes, hi, hip, hia⟩ := Matcher.compileAll_spec (includes_compilable c)
  obtain ⟨excludes, he, hep, hea⟩ := Matcher.compileAll_spec
    fun p (hp : p ∈ (PatternSet.ofConfig c).excludes) => .inr (mem_excludes c hp)
  refine ⟨⟨includes, excludes⟩, ?_, hip, hep, ?_⟩
  · rw [Rules.compile, hi, Logged.bind_of_ok rfl, he, Logged.bind_of_ok rfl, List.filterMap_append]
    simp
  · intro m hm
    rcases List.mem_append.mp hm with hm | hm
    · exact hia m hm
    · exact hea m hm

/-! ## What is left to fail -/

/-- The error comes from the walk. -/
def Error.OfWalk : Error → Prop
  | .walk _ _ _ | .outsideRoot _ _ => True
  | _ => False

open Logged (failsOnly_ok failsOnly_fail)

theorem pass_failsOnly (encounter : Encounter) (fs : FileSystem) (rules : Rules) (root : Path)
    (ahead : List Walk.Sight) :
    (Walk.pass encounter fs rules root ahead).FailsOnly Error.OfWalk := by
  induction ahead with
  | nil => exact failsOnly_ok _ _
  | cons sight ahead ih =>
    obtain ⟨path, node⟩ := sight
    rw [Walk.pass, Walk.passThen]
    split
    · exact failsOnly_fail trivial
    · have hv := Walk.visit_failsOnly fs rules root path node.kind
      refine (hv.mono ?_).bind fun _ => ih.bind fun _ => failsOnly_ok _ _
      intro e he
      exact he ▸ trivial

theorem run_failsOnly (form : Form) (fs : FileSystem) (rules : Rules) (root : Path) :
    (Walk.run form fs rules root).FailsOnly Error.OfWalk := by
  cases hl : fs.list root with
  | error fault =>
    rw [Walk.run_of_fault fs rules root form hl]
    exact failsOnly_fail trivial
  | ok entries =>
    rw [Walk.run_eq_pass fs rules root form hl]
    exact pass_failsOnly _ fs rules root _

theorem rules_failsOnly {c : Config} {log : List Record} {rules : Rules} {P : Error → Prop}
    (h : Rules.compile (PatternSet.ofConfig c) = ⟨log, .ok rules⟩) : c.rules.FailsOnly P := by
  refine (failsOnly_ok _ _).bind fun _ => (failsOnly_ok _ _).bind fun _ =>
    (failsOnly_ok _ _).bind fun _ => ?_
  rw [h]
  exact failsOnly_ok _ _

theorem filesOfConfig_failsOnly (form : Form) (fs : FileSystem) (c : Config) (root : Path) :
    (filesOfConfig form fs c root).FailsOnly Error.OfWalk := by
  obtain ⟨rules, hc, -⟩ := compile_ofConfig c
  exact (rules_failsOnly hc).bind fun rules => (run_failsOnly form fs rules root).bind fun _ =>
    (failsOnly_ok _ _).bind fun _ => failsOnly_ok _ _

theorem no_warning_of_file {c : Config} {p : String} (hp : IsFilePattern c p)
    (patterns : List String) (glob : String) (fault : Glob.Fault) :
    .literally p glob fault ∉ patterns.filterMap warning? := by
  intro hm
  obtain ⟨file, -, rfl⟩ := hp
  obtain ⟨q, -, hq⟩ := List.mem_filterMap.mp hm
  obtain rfl := Matcher.eq_of_warning? hq
  rw [Matcher.warning?_eq_none_iff.mpr (Matcher.not_rejected_fileName file)] at hq
  cases hq

/-- Only a pattern without backslashes is rejected. -/
theorem backslash_notMem_of_rejected {c : Config} {p : String} (h : Rejected p)
    (hp : p ∈ (PatternSet.ofConfig c).includes ++ (PatternSet.ofConfig c).excludes) :
    '\\' ∉ p.toList := by
  rcases List.mem_append.mp hp with hp | hp
  · rcases mem_includes c hp with ⟨file, -, rfl⟩ | hb
    · exact absurd h (Matcher.not_rejected_fileName file)
    · exact hb
  · exact mem_excludes c hp

theorem ofConfig_compiles (c : Config) :
    ∃ rules, Rules.compile (PatternSet.ofConfig c) =
        ⟨((PatternSet.ofConfig c).includes ++ (PatternSet.ofConfig c).excludes).filterMap warning?,
          .ok rules⟩ ∧
      rules.includes.map Matcher.pattern = (PatternSet.ofConfig c).includes ∧
      rules.excludes.map Matcher.pattern = (PatternSet.ofConfig c).excludes ∧
      (∀ m ∈ rules.includes ++ rules.excludes, Rejected m.pattern →
        ∀ text, m.accepts text = true ↔ text = m.pattern.toList) ∧
      (∀ p, IsFilePattern c p → ∀ glob fault,
        .literally p glob fault ∉ (Rules.compile (PatternSet.ofConfig c)).log) ∧
      ∀ form fs root, (filesOfConfig form fs c root).FailsOnly Error.OfWalk := by
  obtain ⟨rules, hc, hi, he, hacc⟩ := compile_ofConfig c
  refine ⟨rules, hc, hi, he, ?_, ?_, ?_⟩
  · intro m hm hr
    refine hacc m hm hr (backslash_notMem_of_rejected (c := c) hr ?_)
    rw [← hi, ← he, ← List.map_append]
    exact List.mem_map_of_mem hm
  · intro p hp
    rw [hc]
    exact no_warning_of_file hp _
  · exact fun form fs root => filesOfConfig_failsOnly form fs c root

end ProjectScope
