import Mathlib.Data.List.TakeWhile
import ProjectScope.Proofs.FormAgreement
import ProjectScope.Proofs.PathAncestors
import ProjectScope.Proofs.PatternCompilation

/-! # Where a configuration is located

The search looks at the ancestors of where it starts, in order, and takes the first that holds a
configuration (`locate_result`, `exists_nearest`). The directory of the project is that ancestor
again, by its components (`projectDirectory_candidate`). The files around a path are those of the
project that is located, and the path has no project just where it cannot be located
(`locate_eq_error_iff`). -/
namespace ProjectScope

open Locate (candidate)

/-- The name of a configuration file. -/
def configName : Name := Utf8.encodeString Config.fileName

theorem configName_isName : Path.IsName configName := by decide

theorem components_candidate (d : Path) :
    (candidate d).components = d.components ++ [.name configName] :=
  Path.components_joinName d configName_isName

theorem isAbsolute_candidate {d : Path} (ha : d.isAbsolute = true) :
    (candidate d).isAbsolute = true :=
  (Path.steps_of_components_append ha (components_candidate d)).1

/-- The directory of a project is where its configuration file is cut before the name. -/
theorem projectDirectory_candidate {d : Path} (ha : d.isAbsolute = true) :
    (∃ upTo, Path.CutAt (candidate d) (projectDirectory (candidate d)) upTo) ∧
      (projectDirectory (candidate d)).components = d.components := by
  have hca := isAbsolute_candidate ha
  have hc := components_candidate d
  obtain ⟨init, last, hall⟩ : ∃ init last, (candidate d).stops = init ++ [last] :=
    ⟨_, _, (List.dropLast_concat_getLast (Path.stops_ne_nil hca)).symm⟩
  have hinit : init.map Prod.fst = d.components := by
    rw [Path.components, hall, List.map_append] at hc
    exact (List.append_inj' hc rfl).1
  have hne : init ≠ [] := by
    rintro rfl
    rw [Path.components_of_isAbsolute ha] at hinit
    cases hinit
  obtain ⟨xs, stop, rfl⟩ : ∃ xs stop, init = xs ++ [stop] :=
    ⟨_, _, (List.dropLast_concat_getLast hne).symm⟩
  have hdir : projectDirectory (candidate d) = ⟨stop.2⟩ := by
    rw [projectDirectory, Path.parent?_of_stops hca hall]
    rfl
  rw [List.append_assoc, List.singleton_append] at hall
  have hcut := Path.cutAt_of_split hca hall
  rw [← hdir] at hcut
  exact ⟨⟨_, hcut⟩, by rw [Path.components, hcut.stops_eq, hinit]⟩

/-! ## The search -/

/-- The first candidate that is a regular file. -/
def search (fs : FileSystem) (start : Path) : Option Path :=
  ((Locate.startOf fs start).ancestors.map candidate).find? fs.isFile

theorem find_result (form : Form) (fs : FileSystem) (start : Path) :
    (Locate.find form fs start).result = .ok (search fs start) := by
  have hn : (Locate.nearest fs start).result = .ok (search fs start) := by
    rw [Locate.nearest, List.span_eq_takeWhile_dropWhile, search,
      List.find?_eq_head?_dropWhile_not]
  cases form with
  | blocking => exact hn
  | suspending => rw [Locate.find, Locate.climb_eq_nearest, hn]

theorem FileSystem.absolute_eq_ok {fs : FileSystem} {p q : Path} : fs.absolute p = .ok q ↔
    Path.absolute? fs.cwdPath p = some q ∧ ∃ start, fs.start? p = some start := by
  unfold FileSystem.absolute
  cases Path.absolute? fs.cwdPath p with
  | none => simp
  | some q' => cases fs.start? p <;> simp

theorem locate_result (form : Form) (fs : FileSystem) (cwd : Path) :
    (locate form fs cwd).result =
      match fs.absolute cwd with
      | .error fault => .error (.absolutePath cwd fault)
      | .ok start =>
        match search fs start with
        | none => .error (.configNotFound start)
        | some file => .ok file := by
  unfold locate
  cases fs.absolute cwd with
  | error fault => rfl
  | ok start =>
    simp only [Logged.bind_of_ok (find_result form fs start)]
    cases search fs start <;> rfl

theorem locate_eq_ok {form : Form} {fs : FileSystem} {cwd file : Path} :
    (locate form fs cwd).result = .ok file ↔
      ∃ start, fs.absolute cwd = .ok start ∧ search fs start = some file := by
  rw [locate_result]
  cases fs.absolute cwd with
  | error fault => simp
  | ok start => cases hs : search fs start <;> simp [hs]

/-- Whatever has the components of the directory that is found, and more of those that the search
starts with, has been passed over. -/
theorem exists_nearest {fs : FileSystem} {start file : Path}
    (ha : (Locate.startOf fs start).isAbsolute = true) (h : search fs start = some file) :
    ∃ d ∈ (Locate.startOf fs start).ancestors, file = candidate d ∧ fs.isFile file = true ∧
      d.components <+: (Locate.startOf fs start).components ∧
      ∀ cs, d.components <+: cs → cs <+: (Locate.startOf fs start).components →
        cs ≠ d.components → ∃ a ∈ (Locate.startOf fs start).ancestors, a.components = cs ∧
          fs.isFile (candidate a) = false := by
  obtain ⟨hfile, passed, rest, hsplit, hpassed⟩ := List.find?_eq_some_iff_append.mp h
  obtain ⟨before, others, hall, hb, ho⟩ := List.map_eq_append_iff.mp hsplit
  obtain ⟨d, after, rfl, rfl, -⟩ := List.map_eq_cons_iff.mp ho
  obtain ⟨hpre, hbefore⟩ := Path.exists_before ha hall
  refine ⟨d, by simp [hall], rfl, hfile, hpre, ?_⟩
  intro cs hlow hhigh hne
  obtain ⟨a, hab, hc⟩ := hbefore cs hlow hhigh hne
  refine ⟨a, by simp [hall, hab], hc, ?_⟩
  have hp := hpassed (candidate a) (hb ▸ List.mem_map_of_mem hab)
  simpa using hp

/-! ## The files around a path -/

section
variable {form : Form} {fs : FileSystem}

theorem filesOfProject_failsOnly (file : Path) :
    (filesOfProject form fs file).FailsOnly fun e => ¬ e.Unlocated := by
  refine Logged.FailsOnly.bind ?_ fun c => ?_
  · refine (ofFile_failsOnly fs file).mono ?_
    intro e he
    obtain ⟨fault, rfl⟩ := he
    exact id
  · refine (filesOfConfig_failsOnly form fs c _).mono ?_
    intro e he
    cases e <;> first | exact id | exact he.elim

theorem filesAround_of_located {cwd file : Path} (h : (locate form fs cwd).result = .ok file) :
    (filesAround form fs cwd).result = (filesOfProject form fs file).result := by
  rw [filesAround, Logged.bind_of_ok h]
  rfl

theorem filesAround_of_unlocated {cwd : Path} {e : Error}
    (h : (locate form fs cwd).result = .error e) :
    (filesAround form fs cwd).result = .error e := by
  rw [filesAround, Logged.bind_of_error h]

theorem unlocated_of_locate {cwd : Path} {e : Error}
    (h : (locate form fs cwd).result = .error e) : e.Unlocated := by
  cases form with
  | blocking => exact locate_failsOnly fs cwd e h
  | suspending => exact locate_failsOnly fs cwd e (locate_suspending fs cwd ▸ h)

theorem locate_eq_error_iff {cwd : Path} {e : Error} :
    (locate form fs cwd).result = .error e ↔
      (filesAround form fs cwd).result = .error e ∧ e.Unlocated := by
  refine ⟨fun h => ⟨filesAround_of_unlocated h, unlocated_of_locate h⟩, ?_⟩
  intro ⟨h, hu⟩
  cases hl : (locate form fs cwd).result with
  | ok file =>
    rw [filesAround_of_located hl] at h
    exact absurd hu (filesOfProject_failsOnly file e h)
  | error e' =>
    have he := (filesAround_of_unlocated hl).symm.trans h
    exact congrArg Except.error (Except.error.inj he)

end

end ProjectScope
