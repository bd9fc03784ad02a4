import ProjectScope.Proofs.DefaultScope
import ProjectScope.Proofs.MalformedEntries
import ProjectScope.Proofs.ScopeAlgebra
import ProjectScope.Proofs.WalkFailure

/-! # What allowing JavaScript adds

More extensions mean more patterns for the entries to include, and each pattern that comes with an
extension ends with it as it is written: the base before it can neither make a wildcard of it nor
draw it into a class (`accepts_or_hasExtension`). So the files that come in have one of the new
extensions, and since nothing else changes, none goes. Main statement:
`allowing_js_adds_scripts`. -/
namespace ProjectScope

open Matcher (Covers Rejected)

/-! ## Entries with more extensions -/

namespace Entry

open Glob (PlainText)

variable {entry : String} {xs ys : List String} {text : List Char}

theorem hasExtension_append_iff :
    HasExtension (xs ++ ys) text ↔ HasExtension xs text ∨ HasExtension ys text := by
  simp only [HasExtension, List.mem_append, or_and_right, exists_or]

theorem HasExtension.of_suffix {rest : List Char} (h : HasExtension xs rest)
    (hsuffix : rest <:+ text) : HasExtension xs text := by
  obtain ⟨e, he, hrest⟩ := h
  exact ⟨e, he, hrest.trans hsuffix⟩

theorem expand_subset (entry : String) (xs ys : List String) :
    expand entry xs ⊆ expand entry (xs ++ ys) := by
  unfold expand
  split
  · exact List.Subset.refl _
  · dsimp only
    split
    · rw [anywhere, anywhere, List.map_append]
      exact List.subset_append_left _ _
    · rw [List.map_append, ← List.cons_append]
      exact List.subset_append_left _ _

theorem Accepts.append (h : Accepts entry xs text) (ys : List String) :
    Accepts entry (xs ++ ys) text := by
  obtain ⟨p, hp, hc⟩ := h
  exact ⟨p, expand_subset entry xs ys hp, hc⟩

/-- What an entry accepts only with more extensions has one of them. -/
theorem accepts_or_hasExtension (hback : '\\' ∉ entry.toList)
    (hx : ∀ e ∈ xs ++ ys, PlainText e.toList ∧ ']' ∉ e.toList)
    (h : Accepts entry (xs ++ ys) text) : Accepts entry xs text ∨ HasExtension ys text := by
  have hxs : ∀ e ∈ xs, PlainText e.toList ∧ ']' ∉ e.toList := fun e he =>
    hx e (List.mem_append_left _ he)
  by_cases hstar : entry.toList.getLast? = some '*'
  · -- An entry that is used as written does without extensions.
    rw [Accepts, expand, if_pos hstar] at h
    rw [Accepts, expand, if_pos hstar]
    exact .inl h
  by_cases hroot : NamesRoot entry
  · rw [accepts_root (fun e he => (hx e he).1) hstar hroot, hasExtension_append_iff] at h
    rwa [accepts_root (fun e he => (hxs e he).1) hstar hroot]
  cases hread : Glob.read (Matcher.literalBraces (base entry)) with
  | ok g =>
    have hlog : (Matcher.compile (String.ofList (base entry))).log = [] := by
      rw [Matcher.compile_of_read (by rwa [String.toList_ofList])]
      rfl
    obtain ⟨m, hm, hmore⟩ := accepts_base (fun e he => (hx e he).1) hstar hroot hlog
    obtain ⟨m', hm', hfewer⟩ := accepts_base (fun e he => (hxs e he).1) hstar hroot hlog
    obtain rfl := Except.ok.inj (hm.symm.trans hm')
    rcases (hmore text).mp h with hself | ⟨q, r, rfl, hq, hr⟩
    · exact .inl ((hfewer text).mpr (.inl hself))
    · rcases hasExtension_append_iff.mp hr with hr | hr
      · exact .inl ((hfewer _).mpr (.inr ⟨q, r, rfl, hq, hr⟩))
      · exact .inr (hr.of_suffix ((List.suffix_cons _ _).trans (List.suffix_append _ _)))
  | error fault =>
    have hr : Rejected (String.ofList (base entry)) := ⟨fault, by rwa [String.toList_ofList]⟩
    rw [accepts_malformed_base_iff hback hstar hr hxs]
    rcases (accepts_malformed_base_iff hback hstar hr hx text).mp h with hself | ⟨e, he, htext⟩
    · exact .inl (.inl hself)
    · rcases List.mem_append.mp he with he | he
      · exact .inl (.inr ⟨e, he, htext⟩)
      · exact .inr ⟨e, he, htext ▸ List.suffix_append _ _⟩

end Entry

/-! ## Configurations -/

namespace Config

/-- The second configuration allows JavaScript, the first does not, and they are equal in all else
that decides. -/
structure GainsJs (c c' : Config) : Prop where
  files : c'.files = c.files
  includes : c'.includes = c.includes
  excludes : c'.excludes = c.excludes
  withheld : c.allowsJs = false
  allowed : c'.allowsJs = true

variable {c c' : Config} {text : List Char}

theorem GainsJs.extensions_eq (h : c.GainsJs c') :
    c'.extensions = c.extensions ++ javascriptExtensions := by
  simp [extensions, h.withheld, h.allowed]

theorem GainsJs.excludes_iff (h : c.GainsJs c') : c'.Excludes text ↔ c.Excludes text := by
  rw [Excludes, Excludes, h.excludes]

theorem GainsJs.includes_of_includes (h : c.GainsJs c') (hc : c.Includes text) : c'.Includes text := by
  rw [Includes, h.files, h.includes, h.extensions_eq]
  rcases hc with ⟨hf, hi, hx⟩ | hfile | ⟨entry, he, hacc⟩
  · exact .inl ⟨hf, hi, Entry.hasExtension_append_iff.mpr (.inl hx)⟩
  · exact .inr (.inl hfile)
  · exact .inr (.inr ⟨entry, he, hacc.append _⟩)

theorem GainsJs.includes_or_hasExtension (h : c.GainsJs c') (hc : c'.Includes text) :
    c.Includes text ∨ Entry.HasExtension javascriptExtensions text := by
  have hplain := Entry.plain_of_scope (c := c') (.inl rfl)
  rw [h.extensions_eq] at hplain
  rw [Includes, h.files, h.includes, h.extensions_eq] at hc
  rcases hc with ⟨hf, hi, hx⟩ | hfile | ⟨entry, he, hacc⟩
  · exact (Entry.hasExtension_append_iff.mp hx).imp_left fun hx => .inl ⟨hf, hi, hx⟩
  · exact .inl (.inr (.inl hfile))
  · have hback := Entry.backslash_notMem_normalize entry
    exact (Entry.accepts_or_hasExtension hback hplain hacc).imp_left fun hacc =>
      .inr (.inr ⟨entry, he, hacc⟩)

end Config

/-! ## Resolutions -/

/-- The second list has the files of the first, in their order, and besides them none but those
whose names end with an extension of JavaScript. -/
structure AddsScripts (entries : List (Name × Node)) (fewer more : List Path) : Prop where
  keeps : fewer.Sublist more
  added : ∀ p ∈ more, p ∉ fewer → ∃ place name node, Leads entries (place ++ [name]) node ∧
    p = Path.relative (place ++ [name]) ∧ EndsWithOne javascriptExtensions name

theorem Config.GainsJs.addsScripts {c c' : Config} (h : c.GainsJs c') {fs : FileSystem}
    {root : Path} {entries : List (Name × Node)} {fewer more : List Path}
    (hc : c.Selects fs root entries fewer) (hc' : c'.Selects fs root entries more) :
    AddsScripts entries fewer more := by
  constructor
  case keeps =>
    refine hc.ordered.sublist hc'.ordered ?_
    intro p hp
    obtain ⟨hbelow, hkept, hin⟩ := (hc.mem_iff p).mp hp
    exact (hc'.mem_iff p).mpr ⟨hbelow, fun hx => hkept (h.excludes_iff.mp hx), h.includes_of_includes hin⟩
  case added =>
    intro p hp hno
    obtain ⟨hbelow, hkept, hin⟩ := (hc'.mem_iff p).mp hp
    have hextension : Entry.HasExtension javascriptExtensions (Utf8.lossy p.text) := by
      refine (h.includes_or_hasExtension hin).resolve_left ?_
      intro hin
      exact hno ((hc.mem_iff p).mpr ⟨hbelow, fun hx => hkept (h.excludes_iff.mpr hx), hin⟩)
    obtain ⟨names, node, hl, rfl, -⟩ := hbelow
    obtain ⟨place, name, rfl⟩ := hl.exists_last
    have hends := (hasExtension_relative_iff (List.subset_append_right _ _) place name).mp
      hextension
    exact ⟨place, name, node, hl, rfl, hends⟩

/-- Both resolutions succeed, and the one that allows JavaScript adds scripts and nothing else, or
both fail with the same error. -/
theorem allowing_js_adds_scripts {c c' : Config} (h : c.GainsJs c') {fs : FileSystem}
    (hs : fs.Sound) (form : Form) (root : Path) :
    (∃ entries fewer more, ReadableFrom fs root entries ∧
      (filesOfConfig form fs c root).result = .ok fewer ∧
      (filesOfConfig form fs c' root).result = .ok more ∧ AddsScripts entries fewer more) ∨
    ∃ e, (filesOfConfig form fs c root).result = .error e ∧
      (filesOfConfig form fs c' root).result = .error e := by
  by_cases hr : ∃ entries, ReadableFrom fs root entries
  · obtain ⟨entries, hr⟩ := hr
    obtain ⟨fewer, hfewer, hc⟩ := filesOfConfig_selects hs hr form c
    obtain ⟨more, hmore, hc'⟩ := filesOfConfig_selects hs hr form c'
    exact .inl ⟨entries, fewer, more, hr, hfewer, hmore, h.addsScripts hc hc'⟩
  · obtain ⟨e, he⟩ := filesOfConfig_fails hr form c
    obtain ⟨rules, hrules⟩ := exists_rules c
    obtain ⟨rules', hrules'⟩ := exists_rules c'
    refine .inr ⟨e, he, ?_⟩
    rw [filesOfConfig_result hrules, Walk.run_eq_error_iff hs] at he
    rw [filesOfConfig_result hrules', Walk.run_eq_error_iff hs]
    exact he

/-! ## Scripts beneath a class that is left open -/

open Walk (sampleName)

def scriptEntries : List (Name × Node) :=
  [(sampleName "lib", .directory true
      [(sampleName "a.ts", .file [] true), (sampleName "b.jsx", .file [] true)]),
    (sampleName "[x", .directory true
      [(sampleName "**", .directory true [(sampleName "*.js", .file [] true)])])]

def scriptTree : FileSystem := ⟨.directory true scriptEntries, []⟩

theorem scriptTree_readable : ReadableFrom scriptTree ⟨Path.dot⟩ scriptEntries :=
  Walk.readableFrom_of_layout rfl (by decide)

/-- The first entry has a class that is left open, so its patterns are matched as they are written;
the second names a directory. -/
def openClassConfig (options : Option CompilerOptions) : Config :=
  { includes := some ["[x/", "lib"], compilerOptions := options }

def plainFiles : List Path := [.ofString "lib/a.ts"]

def scriptFiles : List Path :=
  [.ofString "[x/**/*.js", .ofString "lib/a.ts", .ofString "lib/b.jsx"]

theorem scripts_beneath_open_class :
    (openClassConfig none).GainsJs (openClassConfig (some ⟨true⟩)) ∧ scriptTree.Sound ∧
    (filesOfConfig .blocking scriptTree (openClassConfig none) ⟨Path.dot⟩).result =
      .ok plainFiles ∧
    (filesOfConfig .blocking scriptTree (openClassConfig (some ⟨true⟩)) ⟨Path.dot⟩).result =
      .ok scriptFiles ∧
    AddsScripts scriptEntries plainFiles scriptFiles := by
  have hsound : scriptTree.Sound := by decide
  have hgains : (openClassConfig none).GainsJs (openClassConfig (some ⟨true⟩)) :=
    ⟨rfl, rfl, rfl, rfl, rfl⟩
  have hplain : (filesOfConfig .blocking scriptTree (openClassConfig none) ⟨Path.dot⟩).result =
      .ok plainFiles := by decide +kernel
  have hscripts : (filesOfConfig .blocking scriptTree (openClassConfig (some ⟨true⟩))
      ⟨Path.dot⟩).result = .ok scriptFiles := by decide +kernel
  refine ⟨hgains, hsound, hplain, hscripts, ?_⟩
  obtain ⟨entries, fewer, more, hr, hfewer, hmore, hadds⟩ | ⟨e, he, -⟩ :=
    allowing_js_adds_scripts hgains hsound .blocking ⟨Path.dot⟩
  · obtain rfl := Except.ok.inj (hr.listed.symm.trans scriptTree_readable.listed)
    obtain rfl := Except.ok.inj (hfewer.symm.trans hplain)
    obtain rfl := Except.ok.inj (hmore.symm.trans hscripts)
    exact hadds
  · rw [hplain] at he
    cases he

end ProjectScope
