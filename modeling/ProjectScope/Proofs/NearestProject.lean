import ProjectScope.Proofs.LinkFreeTree
import ProjectScope.Proofs.Location

/-! # The nearest configuration in a tree without links

The search drops the last component of a path again and again, and so goes up as long as it drops
names. Where the path does not leave the directory that is found by a double dot, this directory is
the one the search started from or lies above it, and none nearer holds a configuration that the
file system lets the search look at (`located_in_own_ancestry`). To drop a double dot is to go down:
where the path leaves the directory again, it belongs to another project
(`located_off_the_ancestry`). -/
namespace ProjectScope

open ProjectScope.Path (Component)
open Locate (candidate)

/-! ## Ways that do not leave the place they start from -/

namespace Path

def Component.isName : Component → Bool
  | name _ => true
  | root | here | up => false

section
variable (cs : List Component) (n : Name)

theorem count_concat_name : (cs ++ [Component.name n]).count .up = cs.count .up := by simp

theorem countP_concat_name : (cs ++ [Component.name n]).countP Component.isName =
    cs.countP Component.isName + 1 := by simp [Component.isName]

theorem count_concat_up : (cs ++ [Component.up]).count .up = cs.count .up + 1 := by simp

theorem countP_concat_up : (cs ++ [Component.up]).countP Component.isName =
    cs.countP Component.isName := by simp [Component.isName]

end

/-- Nowhere have there been more double dots than names. -/
def StaysBelow (cs : List Component) : Prop :=
  ∀ passed, passed <+: cs → passed.count .up ≤ passed.countP Component.isName

theorem StaysBelow.of_append {xs ys : List Component} (h : StaysBelow (xs ++ ys)) :
    StaysBelow xs := fun passed hp => h passed (hp.trans (List.prefix_append _ _))

instance (cs : List Component) : Decidable (StaysBelow cs) :=
  decidable_of_iff (∀ passed ∈ cs.inits, passed.count .up ≤ passed.countP Component.isName) <| by
    simp only [List.mem_inits]
    rfl

end Path

namespace FileSystem

variable {fs : FileSystem}

theorem stepTo?_name {trail trail' : Trail} {n : Name}
    (h : fs.stepTo? trail (.name n) = some trail') : ∃ node, trail' = (n, node) :: trail := by
  obtain ⟨searchable, entries, hd⟩ := directory_of_stepTo? h
  simp only [stepTo?, hd, Option.map_eq_some_iff] at h
  obtain ⟨node, -, rfl⟩ := h
  exact ⟨node, rfl⟩

theorem stepTo?_up {trail trail' : Trail} (h : fs.stepTo? trail .up = some trail') :
    trail' = trail.tail := by
  obtain ⟨searchable, entries, hd⟩ := directory_of_stepTo? h
  simp only [stepTo?, hd, Option.some.injEq] at h
  exact h.symm

/-- Where a way ends, if it never leaves the place that it starts from. -/
structure LeadsWithin (fs : FileSystem) (above : Trail) (cs : List Component) (trail : Trail) :
    Prop where
  suffix : above <:+ trail
  length_eq : trail.length + cs.count .up = above.length + cs.countP Component.isName
  /-- All between the two ends is passed on the way. -/
  between : ∀ nearer, above <:+ nearer → nearer <:+ trail →
    ∃ passed, passed <+: cs ∧ fs.place? above passed = some nearer

theorem LeadsWithin.nil (above : Trail) : fs.LeadsWithin above [] above := by
  refine ⟨List.suffix_rfl, rfl, ?_⟩
  intro nearer hlow hhigh
  refine ⟨[], List.nil_prefix, ?_⟩
  rw [hlow.eq_of_length_le hhigh.length_le]
  rfl

theorem LeadsWithin.name {above trail trail' : Trail} {cs : List Component} {n : Name}
    (h : fs.LeadsWithin above cs trail) (hstep : fs.stepTo? trail (.name n) = some trail')
    (hplace : fs.place? above (cs ++ [.name n]) = some trail') :
    fs.LeadsWithin above (cs ++ [.name n]) trail' := by
  obtain ⟨node, rfl⟩ := stepTo?_name hstep
  refine ⟨h.suffix.trans (List.suffix_cons _ _), ?_, ?_⟩
  · have hl := h.length_eq
    rw [Path.count_concat_name, Path.countP_concat_name, List.length_cons]
    omega
  · intro nearer hlow hhigh
    rcases List.suffix_cons_iff.mp hhigh with rfl | hin
    · exact ⟨_, List.prefix_rfl, hplace⟩
    · obtain ⟨passed, hpre, hpassed⟩ := h.between nearer hlow hin
      exact ⟨passed, hpre.trans (List.prefix_append _ _), hpassed⟩

theorem LeadsWithin.up {above trail trail' : Trail} {cs : List Component}
    (h : fs.LeadsWithin above cs trail) (hstep : fs.stepTo? trail .up = some trail')
    (hroom : cs.count .up < cs.countP Component.isName) :
    fs.LeadsWithin above (cs ++ [.up]) trail' := by
  obtain rfl := stepTo?_up hstep
  have hl := h.length_eq
  cases trail with
  | nil =>
    simp only [List.length_nil] at hl
    omega
  | cons last rest =>
    have hsuffix : above <:+ rest := by
      rcases List.suffix_cons_iff.mp h.suffix with rfl | hin
      · simp only [List.length_cons] at hl
        omega
      · exact hin
    refine ⟨hsuffix, ?_, ?_⟩
    · rw [List.length_cons] at hl
      rw [Path.count_concat_up, Path.countP_concat_up, List.tail_cons]
      omega
    · intro nearer hlow hhigh
      obtain ⟨passed, hpre, hpassed⟩ := h.between nearer hlow (hhigh.trans (List.suffix_cons _ _))
      exact ⟨passed, hpre.trans (List.prefix_append _ _), hpassed⟩

theorem leadsWithin_of_staysBelow {above : Trail} {cs : List Component}
    (hcs : ∀ c ∈ cs, c.isStep = true) (hbelow : Path.StaysBelow cs) :
    ∀ {trail : Trail}, fs.place? above cs = some trail → fs.LeadsWithin above cs trail := by
  induction cs using List.reverseRecOn with
  | nil =>
    intro trail h
    cases h
    exact .nil above
  | append_singleton cs c ih =>
    intro trail h
    obtain ⟨t, ht, hlast⟩ := place?_append_eq_some.mp h
    obtain ⟨u, hstep, he⟩ := place?_cons_eq_some.mp hlast
    cases he
    have hin := ih (fun d hd => hcs d (List.mem_append_left _ hd)) hbelow.of_append ht
    cases c with
    | name n => exact hin.name hstep h
    | up =>
      have hroom := hbelow _ List.prefix_rfl
      rw [Path.count_concat_up, Path.countP_concat_up] at hroom
      exact hin.up hstep hroom
    | root => cases hcs .root (by simp)
    | here => cases hcs .here (by simp)

/-- The directory at the end of the trail holds a regular file that is named as a configuration. -/
def HoldsConfig (fs : FileSystem) (trail : Trail) : Prop :=
  ∃ content readable, Node.entry? configName (fs.nodeAt trail) = some (.file content readable)

theorem place?_config {trail : Trail} (h : fs.HoldsConfig trail) :
    ∃ content readable, fs.place? trail [.name configName] =
      some ((configName, .file content readable) :: trail) := by
  obtain ⟨content, readable, he⟩ := h
  refine ⟨content, readable, ?_⟩
  cases hd : fs.nodeAt trail with
  | directory searchable entries =>
    rw [hd, Node.entry?] at he
    simp [place?, stepTo?, hd, he]
  | file content readable => simp [hd, Node.entry?] at he
  | fifo => simp [hd, Node.entry?] at he
  | link target => simp [hd, Node.entry?] at he

theorem holdsConfig_of_place? {trail trail' : Trail}
    (h : fs.place? trail [.name configName] = some trail')
    (hfile : (fs.nodeAt trail').isFile = true) : fs.HoldsConfig trail := by
  obtain ⟨t, hstep, he⟩ := place?_cons_eq_some.mp h
  cases he
  obtain ⟨searchable, entries, hd⟩ := directory_of_stepTo? hstep
  simp only [stepTo?, hd, Option.map_eq_some_iff] at hstep
  obtain ⟨node, hl, rfl⟩ := hstep
  cases node with
  | file content readable => exact ⟨content, readable, by rw [hd, Node.entry?, hl]⟩
  | fifo => cases hfile
  | link target => cases hfile
  | directory readable entries => cases hfile

/-- Where a path leads to something, its beginning leads to a directory. -/
theorem resolve_of_cutAt (hfree : fs.LinkFree) {p q : Path} {upTo : List (Component × Bytes)}
    (hcut : Path.CutAt p q upTo) (ha : p.isAbsolute = true) {trail : Trail}
    (h : fs.resolve p = .ok trail) (hmore : q.steps ≠ p.steps) :
    ∃ above, fs.resolve q = .ok above := by
  obtain ⟨hrequest, hmoves⟩ := (resolve_eq_ok_iff hfree (start?_of_isAbsolute ha)).mp h
  obtain ⟨moves, ⟨rest, hrest⟩, hq⟩ := hcut.moves
  rw [← hrest, foldlM_append_eq_ok] at hmoves
  obtain ⟨above, habove, hlast⟩ := hmoves
  have hq' : IsRequest q.text := by
    refine ⟨?_, Path.text_ne_nil hcut.isAbsolute, ?_⟩
    · rw [Bool.eq_false_iff]
      intro hz
      refine Bool.eq_false_iff.mp hrequest.no_zero ?_
      rw [List.contains_iff_mem] at hz ⊢
      exact hcut.text_prefix.subset hz
    · exact Nat.lt_of_le_of_lt hcut.text_prefix.length_le hrequest.short
  refine ⟨above, (resolve_eq_ok_iff hfree (start?_of_isAbsolute hcut.isAbsolute)).mpr ⟨hq', ?_⟩⟩
  rcases hq with hq | hq
  · rw [hq]
    exact habove
  · -- What follows asks for a directory as well.
    have hne : rest ≠ [] := by
      rintro rfl
      refine hmore ?_
      rw [← movesOf_component? p, ← movesOf_component? q, hq, ← hrest]
      simp [Move.component?]
    obtain ⟨m, rest, rfl⟩ := List.exists_cons_of_ne_nil hne
    obtain ⟨t, hm, -⟩ := foldlM_cons_eq_ok.mp hlast
    obtain ⟨searchable, entries, hd, -⟩ := directory_of_move hm
    rw [hq, foldlM_append_eq_ok]
    exact ⟨above, habove, foldlM_cons_eq_ok.mpr ⟨above, by simp [move, hd], rfl⟩⟩

end FileSystem

/-- A search that starts at a directory starts at the path itself. -/
theorem startOf_of_directory {fs : FileSystem} (hfree : fs.LinkFree) {start : Path}
    (ha : start.isAbsolute = true) {t : Trail}
    (hplace : fs.place? [] start.steps = some t) (hdir : (fs.nodeAt t).isFile = false) :
    Locate.startOf fs start = start := by
  rw [Locate.startOf, if_neg]
  intro hfile
  obtain ⟨u, hu, hf⟩ := FileSystem.exists_resolve_of_isFile hfile
  have hplace' := FileSystem.place?_of_resolve hfree (FileSystem.start?_of_isAbsolute ha) hu
  rw [hplace] at hplace'
  cases hplace'
  rw [hdir] at hf
  cases hf

/-- The directory that a configuration is found in is there, and holds it. -/
theorem exists_above {fs : FileSystem} (hfree : fs.LinkFree) {d : Path} (ha : d.isAbsolute = true)
    (hfile : fs.isFile (candidate d) = true) :
    ∃ above, fs.resolve (projectDirectory (candidate d)) = .ok above ∧
      fs.place? [] d.steps = some above ∧ fs.HoldsConfig above := by
  obtain ⟨t, ht, htf⟩ := FileSystem.exists_resolve_of_isFile hfile
  obtain ⟨⟨upTo, hcut⟩, hproject⟩ := projectDirectory_candidate ha
  obtain ⟨hca, hcand⟩ := Path.steps_of_components_append ha (components_candidate d)
  have hdsteps : (projectDirectory (candidate d)).steps = d.steps := by
    rw [Path.steps, hproject, ← Path.steps]
  obtain ⟨above, habove⟩ := FileSystem.resolve_of_cutAt hfree hcut hca ht (by
    rw [hdsteps, hcand]
    simp)
  have hplace := FileSystem.place?_of_resolve hfree
    (FileSystem.start?_of_isAbsolute hcut.isAbsolute) habove
  have htplace := FileSystem.place?_of_resolve hfree (FileSystem.start?_of_isAbsolute hca) ht
  rw [hdsteps] at hplace
  rw [hcand, FileSystem.place?_append, hplace] at htplace
  exact ⟨above, habove, hplace, FileSystem.holdsConfig_of_place? htplace htf⟩

/-- A configuration that is there is found, or withheld. -/
theorem withheld_of_holdsConfig {fs : FileSystem} (hfree : fs.LinkFree) {d : Path}
    (ha : d.isAbsolute = true) {trail : Trail} (hplace : fs.place? [] d.steps = some trail) (hholds : fs.HoldsConfig trail)
    (hno : fs.isFile (candidate d) = false) :
    ∃ fault, fs.resolve (candidate d) = .error fault ∧ fault.Withholds := by
  obtain ⟨content, readable, hconfig⟩ := FileSystem.place?_config hholds
  rcases FileSystem.resolve_of_place? hfree ha configName_isName
    (FileSystem.place?_append_eq_some.mpr ⟨trail, hplace, hconfig⟩) with hok | hfault
  · have hyes : fs.isFile (candidate d) = true := FileSystem.isFile_of_resolve hok
    rw [hno] at hyes
    cases hyes
  · exact hfault

theorem located_in_own_ancestry {fs : FileSystem} (hs : fs.Sound) (hfree : fs.LinkFree)
    (form : Form) {cwd start file : Path} {trail : Trail} (hcwd : fs.resolve cwd = .ok trail)
    (hdir : (fs.nodeAt trail).kind = .directory)
    (hstart : Path.absolute? fs.cwdPath cwd = some start)
    (hfile : (locate form fs cwd).result = .ok file)
    (hbelow : Path.StaysBelow
      (start.components.drop (projectDirectory file).components.length)) :
    ∃ above, fs.resolve (projectDirectory file) = .ok above ∧ above <:+ trail ∧
      fs.HoldsConfig above ∧
      ∀ nearer, above <:+ nearer → nearer <:+ trail → nearer ≠ above → fs.HoldsConfig nearer →
        ∃ directory ∈ start.ancestors, fs.place? [] directory.steps = some nearer ∧
          ∃ fault, fs.resolve (candidate directory) = .error fault ∧ fault.Withholds := by
  obtain ⟨ha, hplace⟩ := FileSystem.place?_absolute? hs hfree hcwd hstart
  have hnofile : (fs.nodeAt trail).isFile = false := by
    cases hn : fs.nodeAt trail <;> rw [hn] at hdir <;> first | rfl | cases hdir
  have hsame := startOf_of_directory hfree ha hplace hnofile
  -- What the search finds, and what it has passed over.
  obtain ⟨start', hstart', hsearch⟩ := locate_eq_ok.mp hfile
  obtain rfl := Option.some.inj (hstart.symm.trans (FileSystem.absolute_eq_ok.mp hstart').1)
  obtain ⟨d, hd, rfl, hisFile, ⟨dropped, hdropped⟩, hpassed⟩ :=
    exists_nearest (by rw [hsame]; exact ha) hsearch
  rw [hsame] at hd hdropped hpassed
  have hda := Path.isAbsolute_of_mem_ancestors ha hd
  obtain ⟨above, habove, hdplace, hholds⟩ := exists_above hfree hda hisFile
  -- From there, the components that were dropped lead down to where the path leads.
  have hsteps := (Path.steps_of_components_append hda hdropped.symm).2
  have hstep : ∀ c ∈ dropped, c.isStep = true := fun c hc =>
    (List.mem_filter.mp (hsteps ▸ List.mem_append_right _ hc : c ∈ start.steps)).2
  rw [(projectDirectory_candidate hda).2, ← hdropped, List.drop_left] at hbelow
  rw [hsteps, FileSystem.place?_append, hdplace] at hplace
  have hwithin := FileSystem.leadsWithin_of_staysBelow hstep hbelow hplace
  refine ⟨above, habove, hwithin.suffix, hholds, ?_⟩
  intro nearer hlow hhigh hne hnearer
  obtain ⟨passed, hpre, hplaced⟩ := hwithin.between nearer hlow hhigh
  have hpne : passed ≠ [] := by
    rintro rfl
    cases hplaced
    exact hne rfl
  obtain ⟨a, hmem, hac, hno⟩ := hpassed (d.components ++ passed) (List.prefix_append _ _)
    (hdropped ▸ (List.prefix_append_right_inj _).mpr hpre) (by simpa using hpne)
  have haa := Path.isAbsolute_of_mem_ancestors ha hmem
  have haplace : fs.place? [] a.steps = some nearer := by
    rw [(Path.steps_of_components_append hda hac).2, FileSystem.place?_append, hdplace]
    exact hplaced
  exact ⟨a, hmem, haplace, withheld_of_holdsConfig hfree haa haplace hnearer hno⟩

/-! ## A directory that is named through another project -/

open Utf8 (encodeString)

def emptyConfig : Node := .file (encodeString "\x7b\x7d") true

def innerProject : Node :=
  .directory true [(configName, emptyConfig), (encodeString "inner.ts", .file [] true)]

def middleDirectory : Node :=
  .directory true [(encodeString "b", .emptyDirectory), (encodeString "a", innerProject)]

/-- A project that lies in a directory of another. -/
def nestedTree : FileSystem :=
  ⟨.directory true [(configName, emptyConfig), (encodeString "outer.ts", .file [] true),
    (encodeString "m", middleDirectory)], []⟩

theorem nestedTree_sound : nestedTree.Sound := by decide

theorem nestedTree_linkFree : nestedTree.LinkFree := by
  have hconfig : emptyConfig.LinkFree := .file _ _
  have hempty : Node.emptyDirectory.LinkFree := .directory (by simp)
  have hinner : innerProject.LinkFree := .directory (by simp [hconfig, Node.LinkFree.file])
  have hmiddle : middleDirectory.LinkFree := .directory (by simp [hempty, hinner])
  exact .directory (by simp [hconfig, hmiddle, Node.LinkFree.file])

/-- The path goes up again, but not out of the project. -/
theorem located_around_double_dot :
    nestedTree.Sound ∧ nestedTree.LinkFree ∧
    nestedTree.resolve (.ofString "m/b/..//.") = .ok [(encodeString "m", middleDirectory)] ∧
    (locate .blocking nestedTree (.ofString "m/b/..//.")).result =
      .ok (.ofString "/tsconfig.json") ∧
    ∃ above, nestedTree.resolve (projectDirectory (.ofString "/tsconfig.json")) = .ok above ∧
      above <:+ [(encodeString "m", middleDirectory)] := by
  have hcwd : nestedTree.resolve (.ofString "m/b/..//.") =
      .ok [(encodeString "m", middleDirectory)] := rfl
  have hstart : Path.absolute? nestedTree.cwdPath (.ofString "m/b/..//.") =
      some (.ofString "/m/b/..") := by decide
  have hfile : (locate .blocking nestedTree (.ofString "m/b/..//.")).result =
      .ok (.ofString "/tsconfig.json") := by decide
  obtain ⟨above, habove, hsuffix, -, -⟩ := located_in_own_ancestry nestedTree_sound
    nestedTree_linkFree .blocking hcwd rfl hstart hfile (by decide)
  exact ⟨nestedTree_sound, nestedTree_linkFree, hcwd, hfile, above, habove, hsuffix⟩

/-- The path leaves the inner project by a double dot, and its configuration is taken. -/
theorem located_off_the_ancestry :
    nestedTree.Sound ∧ nestedTree.LinkFree ∧
    nestedTree.resolve (.ofString "m/a/..") = .ok [(encodeString "m", middleDirectory)] ∧
    (locate .blocking nestedTree (.ofString "m/a/..")).result =
      .ok (.ofString "/m/a/tsconfig.json") ∧
    nestedTree.resolve (projectDirectory (.ofString "/m/a/tsconfig.json")) =
      .ok [(encodeString "a", innerProject), (encodeString "m", middleDirectory)] ∧
    ¬ [(encodeString "a", innerProject), (encodeString "m", middleDirectory)] <:+
      [(encodeString "m", middleDirectory)] := by
  refine ⟨nestedTree_sound, nestedTree_linkFree, rfl, by decide, rfl, ?_⟩
  intro h
  exact absurd h.length_le (by decide)

end ProjectScope
