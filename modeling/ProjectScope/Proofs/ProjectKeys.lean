import Mathlib.Data.List.Pairwise
import ProjectScope.Proofs.BatchResolution
import ProjectScope.Proofs.StableLocation

/-! # The keys of a batch as directories

Entries are kept apart by the components of their keys, and a double dot is a component like any
other. The tree does not take it so: without links a double dot takes the name before it away
(`names_of_place?`), and the names that are left tell the directory (`FromRoot.unique`). So two keys
are one directory just when the same names are left of both, and keys that are written without
double dots are different directories. Main statement: `keyed_by_directory`. -/
namespace ProjectScope

open ProjectScope.Path (Component)
open Locate (candidate)

namespace Path

/-! ## The names that are left -/

/-- The names on the way down after one more component, the last name first. -/
def stepNames (names : List Name) : Component → List Name
  | .up => names.tail
  | .name n => n :: names
  | .root | .here => names

/-- The names that are left of components, when every double dot has taken away the name before
it. -/
def namesLeft (cs : List Component) : List Name := (cs.foldl stepNames []).reverse

theorem namesLeft_components {p : Path} (ha : p.isAbsolute = true) :
    namesLeft p.components = namesLeft p.steps := by
  rw [components_of_isAbsolute ha]
  rfl

theorem namesLeft_concat_name (cs : List Component) (n : Name) :
    namesLeft (cs ++ [.name n]) = namesLeft cs ++ [n] := by
  rw [namesLeft, List.foldl_append, namesLeft, ← List.reverse_cons]
  rfl

/-- Of names alone, all are left. -/
theorem namesLeft_names (names : List Name) : namesLeft (names.map .name) = names := by
  induction names using List.reverseRecOn with
  | nil => rfl
  | append_singleton names n ih =>
    rw [List.map_append, List.map_singleton, namesLeft_concat_name, ih]

theorem exists_names {cs : List Component} (hstep : ∀ c ∈ cs, c.isStep = true)
    (hup : .up ∉ cs) : ∃ names : List Name, cs = names.map .name := by
  induction cs with
  | nil => exact ⟨[], rfl⟩
  | cons c cs ih =>
    obtain ⟨hc, hcs⟩ := List.forall_mem_cons.mp hstep
    obtain ⟨names, rfl⟩ := ih hcs (List.not_mem_of_not_mem_cons hup)
    cases c with
    | name n => exact ⟨n :: names, rfl⟩
    | up => exact absurd List.mem_cons_self hup
    | root => cases hc
    | here => cases hc

/-- Paths without double dots are told apart by the names that are left. -/
theorem components_eq_of_namesLeft {p q : Path} (hp : p.isAbsolute = true)
    (hq : q.isAbsolute = true) (hpu : .up ∉ p.components) (hqu : .up ∉ q.components)
    (h : namesLeft p.components = namesLeft q.components) : p.components = q.components := by
  have hsteps : ∀ {r : Path}, r.isAbsolute = true → .up ∉ r.components →
      r.steps = (namesLeft r.components).map .name := by
    intro r hr hru
    have hstep : ∀ c ∈ r.steps, c.isStep = true := fun c hc => (List.mem_filter.mp hc).2
    obtain ⟨names, hnames⟩ := exists_names hstep fun hu => hru (List.mem_of_mem_filter hu)
    rw [namesLeft_components hr, hnames, namesLeft_names]
  rw [components_of_isAbsolute hp, components_of_isAbsolute hq, hsteps hp hpu, hsteps hq hqu, h]

end Path

/-! ## A directory is known by its names -/

namespace FileSystem

variable {fs : FileSystem}

/-- The trail leads down from the root, at each step to the entry of that name. -/
inductive FromRoot (fs : FileSystem) : Trail → Prop
  | nil : FromRoot fs []
  | cons {trail n node} : FromRoot fs trail → Node.entry? n (fs.nodeAt trail) = some node →
      FromRoot fs ((n, node) :: trail)

theorem FromRoot.tail {trail : Trail} (h : fs.FromRoot trail) : fs.FromRoot trail.tail := by
  cases h with
  | nil => exact .nil
  | cons h _ => exact h

theorem FromRoot.unique {trail trail' : Trail} (h : fs.FromRoot trail) (h' : fs.FromRoot trail')
    (hnames : trail.map Prod.fst = trail'.map Prod.fst) : trail = trail' := by
  induction h generalizing trail' with
  | nil => exact (List.map_eq_nil_iff.mp hnames.symm).symm
  | @cons trail n node _ hentry ih =>
    cases h' with
    | nil => cases hnames
    | @cons trail' n' node' h' hentry' =>
      obtain ⟨rfl, hrest⟩ := List.cons_eq_cons.mp hnames
      obtain rfl := ih h' hrest
      rw [Option.some.inj (hentry.symm.trans hentry')]

theorem FromRoot.stepTo? {trail trail' : Trail} {c : Component} (h : fs.FromRoot trail)
    (hstep : fs.stepTo? trail c = some trail') :
    fs.FromRoot trail' ∧ trail'.map Prod.fst = Path.stepNames (trail.map Prod.fst) c := by
  obtain ⟨searchable, entries, hd⟩ := directory_of_stepTo? hstep
  cases c with
  | up =>
    obtain rfl := stepTo?_up hstep
    exact ⟨h.tail, List.map_tail⟩
  | name n =>
    simp only [FileSystem.stepTo?, hd, Option.map_eq_some_iff] at hstep
    obtain ⟨node, hl, rfl⟩ := hstep
    exact ⟨h.cons (by rw [hd]; exact hl), rfl⟩
  | root =>
    simp only [FileSystem.stepTo?, hd, Option.some.injEq] at hstep
    exact hstep ▸ ⟨h, rfl⟩
  | here =>
    simp only [FileSystem.stepTo?, hd, Option.some.injEq] at hstep
    exact hstep ▸ ⟨h, rfl⟩

theorem FromRoot.names_of_place? {cs : List Component} : ∀ {trail trail' : Trail},
    fs.FromRoot trail → fs.place? trail cs = some trail' →
      fs.FromRoot trail' ∧ trail'.map Prod.fst = cs.foldl Path.stepNames (trail.map Prod.fst) := by
  induction cs with
  | nil =>
    intro trail trail' h hplace
    cases hplace
    exact ⟨h, rfl⟩
  | cons c cs ih =>
    intro trail trail' h hplace
    obtain ⟨t, hstep, hrest⟩ := place?_cons_eq_some.mp hplace
    obtain ⟨ht, hnames⟩ := h.stepTo? hstep
    rw [List.foldl_cons, ← hnames]
    exact ih ht hrest

/-- Components lead from the root to one place just when the same names are left of them. -/
theorem place?_eq_iff {xs ys : List Component} {a b : Trail} (ha : fs.place? [] xs = some a)
    (hb : fs.place? [] ys = some b) : a = b ↔ Path.namesLeft xs = Path.namesLeft ys := by
  obtain ⟨hfrom, hnames⟩ := FromRoot.nil.names_of_place? ha
  obtain ⟨hfrom', hnames'⟩ := FromRoot.nil.names_of_place? hb
  rw [Path.namesLeft, Path.namesLeft, List.reverse_inj]
  refine ⟨?_, ?_⟩
  · rintro rfl
    exact hnames.symm.trans hnames'
  · intro h
    exact hfrom.unique hfrom' (hnames.trans (h.trans hnames'.symm))

/-- Both paths lead to the same place of the tree. -/
def SamePlace (fs : FileSystem) (p q : Path) : Prop :=
  ∃ trail, fs.resolve p = .ok trail ∧ fs.resolve q = .ok trail

theorem samePlace_iff {p q : Path} {a b : Trail} (hp : fs.resolve p = .ok a)
    (hq : fs.resolve q = .ok b) : fs.SamePlace p q ↔ a = b := by
  refine ⟨?_, ?_⟩
  · intro h
    obtain ⟨t, ht, ht'⟩ := h
    rw [Except.ok.inj (hp.symm.trans ht), Except.ok.inj (hq.symm.trans ht')]
  · rintro rfl
    exact ⟨a, hp, hq⟩

end FileSystem

/-! ## The directory of a located configuration -/

/-- A path that leads to a directory with a configuration, along its steps. -/
structure DirectoryAt (fs : FileSystem) (directory : Path) (above : Trail) : Prop where
  isAbsolute : directory.isAbsolute = true
  resolve : fs.resolve directory = .ok above
  place : fs.place? [] directory.steps = some above
  holds : fs.HoldsConfig above

section
variable {fs : FileSystem} {form : Form} {cwd file : Path}

theorem directoryAt_of_locate (hs : fs.Sound) (hfree : fs.LinkFree)
    (h : (locate form fs cwd).result = .ok file) :
    ∃ above, DirectoryAt fs (projectDirectory file) above := by
  obtain ⟨d, hfound⟩ := exists_foundBelow hs h
  obtain rfl := hfound.file_eq
  have hda := hfound.spelled.isAbsolute
  obtain ⟨⟨_, hcut⟩, hc⟩ := projectDirectory_candidate hda
  obtain ⟨above, hresolve, hplace, hholds⟩ := exists_above hfree hda hfound.isFile
  have hsteps : (projectDirectory (candidate d)).steps = d.steps := by
    rw [Path.steps, hc, ← Path.steps]
  exact ⟨above, hcut.isAbsolute, hresolve, hsteps ▸ hplace, hholds⟩

theorem DirectoryAt.samePlace_iff {p q : Path} {a b : Trail} (hp : DirectoryAt fs p a)
    (hq : DirectoryAt fs q b) :
    fs.SamePlace p q ↔ Path.namesLeft p.components = Path.namesLeft q.components := by
  rw [FileSystem.samePlace_iff hp.resolve hq.resolve, FileSystem.place?_eq_iff hp.place hq.place,
    Path.namesLeft_components hp.isAbsolute, Path.namesLeft_components hq.isAbsolute]

/-- A double dot in the path of the directory comes from the path that the search began with, since
the working directory is told by names. -/
theorem up_mem_of_locate (hs : fs.Sound) (h : (locate form fs cwd).result = .ok file)
    (hup : .up ∈ (projectDirectory file).components) : .up ∈ cwd.components := by
  obtain ⟨start, d, names, hfrom⟩ := exists_foundFrom hs h
  obtain rfl := hfrom.file_eq
  have ha := hfrom.spelled.isAbsolute
  have hda := Path.isAbsolute_of_mem_ancestors ha hfrom.mem_ancestors
  obtain ⟨before, after, hsplit⟩ := List.append_of_mem hfrom.mem_ancestors
  rw [(projectDirectory_candidate hda).2] at hup
  have hstart := (Path.exists_before ha hsplit).1.subset hup
  have hnames := Path.components_ofNames hfrom.isName
  have hcwd := Path.isAbsolute_of_components hnames
  rw [Path.components_of_isAbsolute hcwd] at hnames
  rw [Path.components_of_isAbsolute ha, (Path.steps_of_absolute? hcwd hfrom.absolute?).2] at hstart
  rcases List.mem_append.mp ((List.mem_cons.mp hstart).resolve_left (by simp)) with hm | hm
  · split at hm
    · cases hm
    · rw [(List.cons_eq_cons.mp hnames).2] at hm
      obtain ⟨n, -, hn⟩ := List.mem_map.mp hm
      cases hn
  · exact List.mem_of_mem_filter hm

end

namespace Projects

/-! ## Keys -/

/-- The entries are keyed by directories. Two keys are the same directory just when the same names
are left of them, so of keys without double dots each has a directory for itself, and paths whose
projects are found there share an entry. -/
structure KeyedByDirectory (fs : FileSystem) (cwds : List Path)
    (projects : List (Path × List Path)) : Prop where
  directory : ∀ p ∈ projects, ∃ above, DirectoryAt fs p.1 above
  once : projects.Pairwise fun p q => p.1.components ≠ q.1.components
  same_iff : ∀ p ∈ projects, ∀ q ∈ projects, fs.SamePlace p.1 q.1 ↔
    Path.namesLeft p.1.components = Path.namesLeft q.1.components
  apart : ∀ p ∈ projects, ∀ q ∈ projects, .up ∉ p.1.components → .up ∉ q.1.components →
    fs.SamePlace p.1 q.1 → p = q
  shared : ∀ cwd ∈ cwds, ∀ cwd' ∈ cwds, ∀ file file',
    (locate .blocking fs cwd).result = .ok file → (locate .blocking fs cwd').result = .ok file' →
    .up ∉ (projectDirectory file).components → .up ∉ (projectDirectory file').components →
    fs.SamePlace (projectDirectory file) (projectDirectory file') →
    ∃ p ∈ projects, p.1.sameAs (projectDirectory file) = true ∧
      p.1.sameAs (projectDirectory file') = true
  climbs : ∀ p ∈ projects, .up ∈ p.1.components → ∃ cwd ∈ cwds, .up ∈ cwd.components

variable {fs : FileSystem} {cwds : List Path}

theorem keyed_of_resolved (hs : fs.Sound) (hfree : fs.LinkFree) {files order : List Path}
    {listed projects : List (Path × List Path)} (hl : (locateAll fs cwds).result = .ok files)
    (horder : order.Perm (distinct files)) (hr : (resolveAll fs order).result = .ok listed)
    (hp : projects.Perm listed) : KeyedByDirectory fs cwds projects := by
  have hloc := located_of_locateAll hl
  obtain ⟨hkey, honce⟩ := keys_of_resolved hs hloc horder hr hp
  have hdirectory : ∀ p ∈ projects, ∃ above, DirectoryAt fs p.1 above := by
    intro p hm
    obtain ⟨cwd, -, file, h, hpd, -⟩ := hkey p hm
    rw [hpd]
    exact directoryAt_of_locate hs hfree h
  have hsame : ∀ p ∈ projects, ∀ q ∈ projects, fs.SamePlace p.1 q.1 ↔
      Path.namesLeft p.1.components = Path.namesLeft q.1.components := by
    intro p hm q hm'
    obtain ⟨a, ha⟩ := hdirectory p hm
    obtain ⟨b, hb⟩ := hdirectory q hm'
    exact ha.samePlace_iff hb
  constructor
  case directory => exact hdirectory
  case once => exact honce
  case same_iff => exact hsame
  case apart =>
    intro p hm q hm' hpu hqu hplace
    obtain ⟨a, ha⟩ := hdirectory p hm
    obtain ⟨b, hb⟩ := hdirectory q hm'
    have hc := Path.components_eq_of_namesLeft ha.isAbsolute hb.isAbsolute hpu hqu
      ((hsame p hm q hm').mp hplace)
    have hsymm : Std.Symm fun p q : Path × List Path => p.1.components ≠ q.1.components :=
      ⟨fun _ _ h => h.symm⟩
    by_contra hne
    exact honce.forall hm hm' hne hc
  case shared =>
    intro cwd hc cwd' hc' file file' h h' hu hu' hplace
    obtain ⟨a, ha⟩ := directoryAt_of_locate hs hfree h
    obtain ⟨b, hb⟩ := directoryAt_of_locate hs hfree h'
    have hcomp := Path.components_eq_of_namesLeft ha.isAbsolute hb.isAbsolute hu hu'
      ((ha.samePlace_iff hb).mp hplace)
    obtain ⟨p, hm, hpc, -⟩ := exists_entry hs hloc horder hr hc h
    exact ⟨p, hp.mem_iff.mpr hm, Path.sameAs_iff.mpr hpc, Path.sameAs_iff.mpr (hpc.trans hcomp)⟩
  case climbs =>
    intro p hm hup
    obtain ⟨cwd, hc, file, h, hpd, -⟩ := hkey p hm
    rw [hpd] at hup
    exact ⟨cwd, hc, up_mem_of_locate hs h hup⟩

theorem keyed_by_directory (hs : fs.Sound) (hfree : fs.LinkFree)
    {projects : List (Path × List Path)}
    (h : (filesByProject fs cwds).result = .ok projects) :
    KeyedByDirectory fs cwds projects := by
  have hends := ends_filesByProject fs cwds
  rw [h] at hends
  cases hends with
  | resolved hl horder hr hp => exact keyed_of_resolved hs hfree hl horder hr hp

/-! ## One directory by two keys -/

open Utf8 (encodeString)

/-- The double dots of the paths are not in the keys. -/
theorem keyed_around_double_dot :
    nestedTree.Sound ∧ nestedTree.LinkFree ∧
    (filesByProject nestedTree [.ofString "./m//b/..", .ofString "m/a/inner.ts",
      .ofString "m/a/"]).result = .ok [(.ofString "/", [.ofString "m/a/inner.ts",
        .ofString "outer.ts"]), (.ofString "/m/a", [.ofString "inner.ts"])] ∧
    KeyedByDirectory nestedTree
      [.ofString "./m//b/..", .ofString "m/a/inner.ts", .ofString "m/a/"]
      [(.ofString "/", [.ofString "m/a/inner.ts", .ofString "outer.ts"]),
        (.ofString "/m/a", [.ofString "inner.ts"])] := by
  have hprojects : (filesByProject nestedTree [.ofString "./m//b/..", .ofString "m/a/inner.ts",
      .ofString "m/a/"]).result = .ok [(.ofString "/", [.ofString "m/a/inner.ts",
        .ofString "outer.ts"]), (.ofString "/m/a", [.ofString "inner.ts"])] := by decide +kernel
  exact ⟨nestedTree_sound, nestedTree_linkFree, hprojects,
    keyed_by_directory nestedTree_sound nestedTree_linkFree hprojects⟩

/-- A double dot before the name of the project stays in the key. -/
theorem two_keys_for_one_directory :
    nestedTree.Sound ∧ nestedTree.LinkFree ∧
    nestedTree.resolve (.ofString "m/a") =
      .ok [(encodeString "a", innerProject), (encodeString "m", middleDirectory)] ∧
    nestedTree.resolve (.ofString "m/b/../a") =
      .ok [(encodeString "a", innerProject), (encodeString "m", middleDirectory)] ∧
    (filesByProject nestedTree [.ofString "m/a", .ofString "m/b/../a"]).result =
      .ok [(.ofString "/m/a", [.ofString "inner.ts"]),
        (.ofString "/m/b/../a", [.ofString "inner.ts"])] ∧
    (Path.ofString "/m/a").sameAs (.ofString "/m/b/../a") = false ∧
    nestedTree.SamePlace (.ofString "/m/a") (.ofString "/m/b/../a") :=
  ⟨nestedTree_sound, nestedTree_linkFree, rfl, rfl, by decide +kernel, by decide,
    [(encodeString "a", innerProject), (encodeString "m", middleDirectory)], rfl, rfl⟩

end Projects

end ProjectScope
