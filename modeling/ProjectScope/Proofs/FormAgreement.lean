import Mathlib.Data.List.TakeDrop
import ProjectScope.Proofs.WalkPass

/-! # The blocking and the suspending form agree

Both forms of a resolution log the same records and give the same list or the same error. The one
exception is a directory strictly below the root of the walk that cannot be listed: the blocking
form meets it in its stream, the suspending form when it asks for the entries. Everything before
the walk has one definition for both forms but for the upward search, which is a pass over all
candidates in one and a loop in the other (`climb_eq_nearest`). Main statement: `forms_agree`. -/
namespace ProjectScope

/-! ## What it means to agree -/

/-- A directory strictly below the root that a walk comes to and cannot list. -/
def UnreadableBelow (fs : FileSystem) (root directory : Path) (fault : FileSystem.Fault) : Prop :=
  ∃ entries names readable inner, fs.list root = .ok entries ∧
    Leads entries names (.directory readable inner) ∧ directory = root.below names ∧
    FileSystem.listingFault? directory readable = some fault

/-- The error of the blocking form beside that of the suspending form. -/
inductive ErrorsAgree (fs : FileSystem) (IsRoot : Path → Prop) : Error → Error → Prop
  | same {e} : (∀ d fault, e ≠ .walk d .stream fault) →
      (∀ d fault, e = .walk d .listing fault → IsRoot d ∧ fs.list d = .error fault) →
      ErrorsAgree fs IsRoot e e
  | below {root d fault} : IsRoot root → UnreadableBelow fs root d fault →
      ErrorsAgree fs IsRoot (.walk d .stream fault) (.walk d .listing fault)

inductive OutcomesAgree (fs : FileSystem) (IsRoot : Path → Prop) :
    Except Error (List Path) → Except Error (List Path) → Prop
  | ok (files) : OutcomesAgree fs IsRoot (.ok files) (.ok files)
  | error {e e'} : ErrorsAgree fs IsRoot e e' → OutcomesAgree fs IsRoot (.error e) (.error e')

structure FormsAgree (fs : FileSystem) (IsRoot : Path → Prop)
    (blocking suspending : Logged (List Path)) : Prop where
  log : blocking.log = suspending.log
  result : OutcomesAgree fs IsRoot blocking.result suspending.result

/-! ## Failing for other reasons than a directory -/

def Error.NoDirectory (e : Error) : Prop := ∀ d encounter fault, e ≠ .walk d encounter fault

open Logged (failsOnly_ok failsOnly_fail)

theorem compile_noDirectory (pattern : String) :
    (Matcher.compile pattern).FailsOnly Error.NoDirectory := by
  unfold Matcher.compile
  dsimp only
  split
  · exact failsOnly_ok _ _
  · refine (failsOnly_ok _ _).bind fun _ => ?_
    split
    · exact failsOnly_ok _ _
    · exact failsOnly_fail (by simp [Error.NoDirectory])

theorem compileAll_noDirectory (patterns : List String) :
    (Matcher.compileAll patterns).FailsOnly Error.NoDirectory := by
  induction patterns with
  | nil => exact failsOnly_ok _ _
  | cons p ps ih =>
    exact (compile_noDirectory p).bind fun _ => ih.bind fun _ => failsOnly_ok _ _

theorem rules_noDirectory (c : Config) : c.rules.FailsOnly Error.NoDirectory := by
  have hc : (Rules.compile (PatternSet.ofConfig c)).FailsOnly Error.NoDirectory :=
    (compileAll_noDirectory _).bind fun _ => (compileAll_noDirectory _).bind fun _ =>
      failsOnly_ok _ _
  exact (failsOnly_ok _ _).bind fun _ => (failsOnly_ok _ _).bind fun _ =>
    (failsOnly_ok _ _).bind fun _ => hc

theorem visit_noDirectory (fs : FileSystem) (rules : Rules) (root path : Path) (kind : Kind) :
    (Walk.visit fs rules root path kind).FailsOnly Error.NoDirectory := by
  refine (Walk.visit_failsOnly fs rules root path kind).mono ?_
  intro e he
  simp [he, Error.NoDirectory]

theorem ofFile_failsOnly (fs : FileSystem) (file : Path) :
    (Logged.ofExcept (Config.ofFile fs file)).FailsOnly fun e => ∃ fault, e = .config file fault := by
  intro e h
  unfold Logged.ofExcept Config.ofFile at h
  cases hc : fs.content file >>= Config.ofContent with
  | ok c =>
    rw [hc] at h
    cases h
  | error fault =>
    rw [hc] at h
    exact ⟨fault, (Except.error.inj h).symm⟩

theorem ofFile_noDirectory (fs : FileSystem) (file : Path) :
    (Logged.ofExcept (Config.ofFile fs file)).FailsOnly Error.NoDirectory := by
  refine (ofFile_failsOnly fs file).mono ?_
  intro e he
  obtain ⟨fault, rfl⟩ := he
  simp [Error.NoDirectory]

/-! ## Agreement is kept -/

section
variable {fs : FileSystem} {IsRoot : Path → Prop} {α : Type}

theorem FormsAgree.mono {IsRoot' : Path → Prop} {x y : Logged (List Path)}
    (h : FormsAgree fs IsRoot x y) (hr : ∀ r, IsRoot r → IsRoot' r) :
    FormsAgree fs IsRoot' x y := by
  obtain ⟨log, rx⟩ := x
  obtain ⟨log', ry⟩ := y
  refine ⟨h.log, ?_⟩
  have hx : OutcomesAgree fs IsRoot rx ry := h.result
  cases hx with
  | ok files => exact .ok files
  | error he =>
    refine .error ?_
    cases he with
    | same hs hl => exact .same hs fun d fault h => ⟨hr d (hl d fault h).1, (hl d fault h).2⟩
    | below hroot hu => exact .below (hr _ hroot) hu

/-- What comes first in both forms is the same and fails for other reasons. -/
theorem FormsAgree.after {x : Logged α} {f g : α → Logged (List Path)}
    (hx : x.FailsOnly Error.NoDirectory)
    (h : ∀ a, x.result = .ok a → FormsAgree fs IsRoot (f a) (g a)) :
    FormsAgree fs IsRoot (x >>= f) (x >>= g) := by
  cases hr : x.result with
  | ok a =>
    rw [Logged.bind_of_ok hr, Logged.bind_of_ok hr]
    have ha := h a hr
    exact ⟨congrArg (x.log ++ ·) ha.log, ha.result⟩
  | error e =>
    rw [Logged.bind_of_error hr, Logged.bind_of_error hr]
    have hne := hx e hr
    exact ⟨rfl, .error (.same (fun d fault => hne d .stream fault)
      fun d fault he => absurd he (hne d .listing fault))⟩

/-- What comes last in both forms is the same and does not fail. -/
theorem FormsAgree.before {x y : Logged (List Path)} {f : List Path → Logged (List Path)}
    (h : FormsAgree fs IsRoot x y) (hf : ∀ files, ∃ files', (f files).result = .ok files') :
    FormsAgree fs IsRoot (x >>= f) (y >>= f) := by
  have hl := h.log
  have hr := h.result
  obtain ⟨log, rx⟩ := x
  obtain ⟨log', ry⟩ := y
  dsimp only at hl hr
  subst hl
  cases hr with
  | ok files =>
    obtain ⟨files', hfiles⟩ := hf files
    rw [Logged.bind_of_ok rfl]
    refine ⟨rfl, ?_⟩
    dsimp only
    rw [hfiles]
    exact .ok files'
  | error he =>
    rw [Logged.bind_of_error rfl, Logged.bind_of_error rfl]
    exact ⟨rfl, .error he⟩

end

/-! ## The walk -/

theorem pass_agree {fs : FileSystem} {root : Path} (rules : Rules) (ahead : List Walk.Sight)
    (h : ∀ sight ∈ ahead, ∀ fault, Walk.faultAt? sight.1 sight.2 = some fault →
      UnreadableBelow fs root sight.1 fault) :
    FormsAgree fs (· = root) (Walk.pass .stream fs rules root ahead)
      (Walk.pass .listing fs rules root ahead) := by
  induction ahead with
  | nil => exact ⟨rfl, .ok []⟩
  | cons sight ahead ih =>
    obtain ⟨path, node⟩ := sight
    have hr := ih fun s hs => h s (List.mem_cons_of_mem _ hs)
    rw [Walk.pass, Walk.pass, Walk.passThen, Walk.passThen]
    cases hf : Walk.faultAt? path node with
    | some fault => exact ⟨rfl, .error (.below rfl (h _ List.mem_cons_self fault hf))⟩
    | none =>
      refine FormsAgree.after (visit_noDirectory fs rules root path node.kind) fun found _ => ?_
      exact hr.before fun files => ⟨found.toList ++ files, rfl⟩

theorem unreadableBelow_of_mem {fs : FileSystem} {root : Path} {entries : List (Name × Node)}
    (hl : fs.list root = .ok entries) {sight : Walk.Sight}
    (hs : sight ∈ Walk.sightsBelow root entries) {fault : FileSystem.Fault}
    (hf : Walk.faultAt? sight.1 sight.2 = some fault) : UnreadableBelow fs root sight.1 fault := by
  obtain ⟨⟨names, node⟩, hm, rfl⟩ := List.mem_map.mp hs
  have hp := mem_layout_iff.mp hm
  cases node with
  | directory readable inner => exact ⟨entries, names, readable, inner, hl, hp, rfl, hf⟩
  | file content readable => cases hf
  | fifo => cases hf
  | link target => cases hf

theorem walks_agree (fs : FileSystem) (rules : Rules) (root : Path) :
    FormsAgree fs (· = root) (Walk.run .blocking fs rules root)
      (Walk.run .suspending fs rules root) := by
  cases hl : fs.list root with
  | error fault =>
    rw [Walk.run_of_fault fs rules root .blocking hl,
      Walk.run_of_fault fs rules root .suspending hl]
    refine ⟨rfl, .error (.same (by simp) ?_)⟩
    intro d fault' he
    cases he
    exact ⟨rfl, hl⟩
  | ok entries =>
    rw [Walk.run_eq_pass fs rules root .blocking hl, Walk.run_eq_pass fs rules root .suspending hl]
    exact pass_agree rules _ fun sight hs fault hf => unreadableBelow_of_mem hl hs hf

theorem filesOfConfig_agree (fs : FileSystem) (c : Config) (root : Path) :
    FormsAgree fs (· = root) (filesOfConfig .blocking fs c root)
      (filesOfConfig .suspending fs c root) := by
  refine FormsAgree.after (rules_noDirectory c) fun rules _ => ?_
  exact (walks_agree fs rules root).before fun files => ⟨files, rfl⟩

/-! ## The search -/

theorem Locate.climb_eq (fs : FileSystem) (directories : List Path) :
    climb fs directories =
      ⟨(((directories.map candidate).takeWhile fun c => !fs.isFile c) ++
          ((directories.map candidate).dropWhile fun c => !fs.isFile c).take 1).map .lookingFor,
        .ok ((directories.map candidate).dropWhile fun c => !fs.isFile c).head?⟩ := by
  induction directories with
  | nil => rfl
  | cons directory directories ih =>
    rw [climb, Logged.bind_of_ok rfl]
    by_cases hf : fs.isFile (candidate directory) = true
    · simp only [hf, if_true, List.map_cons, List.takeWhile_cons, List.dropWhile_cons]
      rfl
    · rw [if_neg hf, ih]
      simp [hf, Logged.emit]

theorem Locate.climb_eq_nearest (fs : FileSystem) (p : Path) :
    climb fs (startOf fs p).ancestors = nearest fs p := by
  rw [climb_eq, nearest, List.span_eq_takeWhile_dropWhile]

theorem locate_suspending (fs : FileSystem) (cwd : Path) :
    locate .suspending fs cwd = locate .blocking fs cwd := by
  have hf : ∀ p, Locate.find .suspending fs p = Locate.find .blocking fs p :=
    Locate.climb_eq_nearest fs
  unfold locate
  simp only [hf]

/-- No configuration is located. -/
def Error.Unlocated : Error → Prop
  | .absolutePath _ _ | .configNotFound _ => True
  | _ => False

theorem locate_failsOnly (fs : FileSystem) (cwd : Path) :
    (locate .blocking fs cwd).FailsOnly Error.Unlocated := by
  unfold locate
  split
  · exact failsOnly_fail trivial
  · refine (failsOnly_ok _ _).bind fun found => ?_
    cases found with
    | none => exact failsOnly_fail trivial
    | some file => exact failsOnly_ok _ _

theorem locate_noDirectory (fs : FileSystem) (cwd : Path) :
    (locate .blocking fs cwd).FailsOnly Error.NoDirectory := by
  refine (locate_failsOnly fs cwd).mono ?_
  rintro e he d encounter fault rfl
  exact he

/-- The root of the walk is the directory of the project that a path lies in. -/
def IsProjectRoot (fs : FileSystem) (cwd root : Path) : Prop :=
  ∃ file, (locate .blocking fs cwd).result = .ok file ∧ root = projectDirectory file

theorem forms_agree (fs : FileSystem) (cwd : Path) :
    (∀ c, FormsAgree fs (· = cwd) (filesOfConfig .blocking fs c cwd)
      (filesOfConfig .suspending fs c cwd)) ∧
    FormsAgree fs (IsProjectRoot fs cwd) (filesAround .blocking fs cwd)
      (filesAround .suspending fs cwd) := by
  refine ⟨fun c => filesOfConfig_agree fs c cwd, ?_⟩
  unfold filesAround
  rw [locate_suspending]
  refine FormsAgree.after (locate_noDirectory fs cwd) fun file hfile => ?_
  refine FormsAgree.after (failsOnly_ok _ _) fun _ _ => ?_
  refine FormsAgree.after (ofFile_noDirectory fs file) fun c _ => ?_
  refine (filesOfConfig_agree fs c (projectDirectory file)).mono fun root hroot => ?_
  exact ⟨file, hfile, hroot⟩

end ProjectScope
