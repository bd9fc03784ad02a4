import ProjectScope.CommandLine
import ProjectScope.Proofs.DecodedText
import ProjectScope.Proofs.Location
import ProjectScope.Proofs.NearestProject
import ProjectScope.Proofs.PrintedJson

/-! # The files of a project, listed as JSON

The list is printed only when every path in it can be decoded (`jsonList?_eq_some_iff`), and then
what is printed is decoded and read back as the same paths (`prints_json`). A directory is taken for
no option unless it begins with a hyphen (`parse_json`), so what a run does is told by the search
around it. Main statement: `json_faithful_or_silent`. -/
namespace ProjectScope

/-- The path is the encoding of a text. -/
def Path.IsUtf8 (p : Path) : Prop := ∃ s, p = .ofString s

theorem Path.string?_eq_some_iff {p : Path} {s : String} :
    Utf8.string? p.text = some s ↔ p = .ofString s := by
  obtain ⟨text⟩ := p
  rw [Utf8.string?_eq_some_iff, Path.ofString, Path.mk.injEq]

namespace CommandLine

/-! ## The printed list -/

/-- The output is one array and a newline, and is read back as the paths in their order. -/
def Prints (output : Bytes) (files : List Path) : Prop :=
  ∃ (inner : List Char) (names : List String),
    Utf8.decode? output = some ('[' :: inner ++ [']', '\n']) ∧
    Json.read ('[' :: inner ++ [']']) = .ok (.list (names.map .string)) ∧
    Json.read ('[' :: inner ++ [']', '\n']) = .ok (.list (names.map .string)) ∧
    files = names.map Path.ofString

theorem jsonList?_eq_some_iff {files : List Path} {output : Bytes} :
    jsonList? files = some output ↔ ∃ names, files = names.map Path.ofString ∧
      Utf8.encode (Json.Printer.strings names ++ ['\n']) = output := by
  rw [jsonList?, Option.map_eq_some_iff]
  simp only [mapM_eq_some_iff fun _ _ => Path.string?_eq_some_iff]

theorem prints_json (names : List String) :
    Prints (Utf8.encode (Json.Printer.strings names ++ ['\n'])) (names.map Path.ofString) := by
  obtain ⟨inner, hinner⟩ := Json.Printer.exists_brackets names
  have hread := Json.read_strings names [] rfl
  have hline := Json.read_strings names ['\n'] rfl
  rw [hinner, List.append_nil] at hread
  rw [hinner, List.append_assoc] at hline
  refine ⟨inner, names, ?_, hread, hline, rfl⟩
  rw [Utf8.decode?_encode, hinner, List.append_assoc]
  rfl

theorem exists_names_iff {files : List Path} :
    (∃ names : List String, files = names.map Path.ofString) ↔ ∀ p ∈ files, p.IsUtf8 := by
  refine ⟨?_, ?_⟩
  · rintro ⟨names, rfl⟩
    exact List.forall_mem_map.mpr fun s _ => ⟨s, rfl⟩
  · intro h
    induction files with
    | nil => exact ⟨[], rfl⟩
    | cons p files ih =>
      obtain ⟨⟨s, rfl⟩, hfiles⟩ := List.forall_mem_cons.mp h
      obtain ⟨names, rfl⟩ := ih hfiles
      exact ⟨s :: names, rfl⟩

/-! ## Arguments -/

/-- The option that asks for JSON. -/
def jsonFlag : Bytes := Utf8.encodeString "--json"

variable {cwd : Bytes}

theorem parseFrom_cwd (hcwd : cwd.head? ≠ some hyphen) (hne : cwd ≠ []) {o : Options}
    (ho : o.cwd = none) (rest : List Bytes) :
    parseFrom o false (cwd :: rest) = parseFrom { o with cwd := some ⟨cwd⟩ } false rest := by
  have hother : ∀ argument : Bytes, argument.head? = some hyphen → cwd ≠ argument := by
    rintro argument h rfl
    exact hcwd h
  have hshort : ¬ shortHelp.isPrefixOf cwd = true := by
    intro h
    obtain ⟨rest, rfl⟩ := List.isPrefixOf_iff_prefix.mp h
    exact hcwd rfl
  have hwith : withCwd o cwd = some { o with cwd := some ⟨cwd⟩ } := by
    rw [withCwd, ho, if_pos ⟨rfl, hne⟩]
  rw [parseFrom, if_neg (hother _ rfl), if_neg (hother _ (by decide)),
    if_neg (not_or.mpr ⟨hother _ (by decide), hshort⟩), if_neg (fun h => hcwd h.1), hwith]

theorem parseFrom_flag (cwd? : Option Path) (rest : List Bytes) :
    parseFrom ⟨false, cwd?⟩ false (jsonFlag :: rest) = parseFrom ⟨true, cwd?⟩ false rest := by
  have hplain : jsonFlag ≠ [hyphen, hyphen] := by decide
  have hflag : jsonFlag = Utf8.encodeString "--json" := rfl
  rw [parseFrom, if_neg hplain, if_pos hflag]
  rfl

/-- The option and a directory, in either order; there is no directory of an empty name. -/
theorem parse_json (hcwd : cwd.head? ≠ some hyphen) {arguments : List Bytes}
    (h : arguments ∈ [[jsonFlag, cwd], [cwd, jsonFlag]]) :
    parse arguments = if cwd = [] then .misuse else .list ⟨true, some ⟨cwd⟩⟩ := by
  simp only [List.mem_cons, List.not_mem_nil, or_false] at h
  split
  · next hempty =>
    subst hempty
    rcases h with rfl | rfl <;> rfl
  · next hne =>
    rcases h with rfl | rfl
    · rw [parse, parseFrom_flag, parseFrom_cwd hcwd hne rfl]
      rfl
    · rw [parse, parseFrom_cwd hcwd hne rfl]
      exact parseFrom_flag _ _

theorem filesAround_nil (fs : FileSystem) :
    (filesAround .blocking fs ⟨[]⟩).result = .error (.absolutePath ⟨[]⟩ .invalidPath) :=
  filesAround_of_unlocated rfl

/-! ## Runs -/

/-- The files of the project around the directory are found, and these are their paths as texts. -/
def Finds (fs : FileSystem) (cwd : Path) (names : List String) : Prop :=
  (filesAround .blocking fs cwd).result = .ok (names.map Path.ofString)

/-- A list is printed whole, or the run fails before anything is printed. -/
theorem list_ends (fs : FileSystem) (cwd : Path) :
    (∃ names, Finds fs cwd names ∧ list fs ⟨true, some cwd⟩ =
      ⟨0, Utf8.encode (Json.Printer.strings names ++ ['\n'])⟩) ∨
    (∀ names, ¬ Finds fs cwd names) ∧ list fs ⟨true, some cwd⟩ = ⟨1, []⟩ := by
  cases hfiles : (filesAround .blocking fs cwd).result with
  | error e =>
    refine .inr ⟨?_, ?_⟩
    · intro names hnames
      cases hfiles.symm.trans hnames
    · rw [list, Option.getD_some, hfiles]
  | ok files =>
    cases hprinted : jsonList? files with
    | some output =>
      obtain ⟨names, rfl, houtput⟩ := jsonList?_eq_some_iff.mp hprinted
      refine .inl ⟨names, hfiles, ?_⟩
      rw [list, Option.getD_some, hfiles]
      dsimp only
      rw [if_pos rfl, hprinted, houtput]
    | none =>
      refine .inr ⟨?_, ?_⟩
      · intro names hnames
        obtain rfl := Except.ok.inj (hfiles.symm.trans hnames)
        cases hprinted.symm.trans (jsonList?_eq_some_iff.mpr ⟨names, rfl, rfl⟩)
      · rw [list, Option.getD_some, hfiles]
        dsimp only
        rw [if_pos rfl, hprinted]

theorem run_ends (fs : FileSystem) (hcwd : cwd.head? ≠ some hyphen) {arguments : List Bytes}
    (h : arguments ∈ [[jsonFlag, cwd], [cwd, jsonFlag]]) :
    (∃ names, Finds fs ⟨cwd⟩ names ∧ run fs arguments =
      ⟨0, Utf8.encode (Json.Printer.strings names ++ ['\n'])⟩) ∨
    (∀ names, ¬ Finds fs ⟨cwd⟩ names) ∧ (run fs arguments).exitCode ≠ 0 ∧
      (run fs arguments).output = [] := by
  by_cases hempty : cwd = []
  · have hrun : run fs arguments = ⟨2, []⟩ := by rw [run, parse_json hcwd h, if_pos hempty]
    rw [hrun]
    refine .inr ⟨?_, Nat.succ_ne_zero 1, rfl⟩
    intro names hnames
    rw [hempty] at hnames
    cases (filesAround_nil fs).symm.trans hnames
  · have hrun : run fs arguments = list fs ⟨true, some ⟨cwd⟩⟩ := by
      rw [run, parse_json hcwd h, if_neg hempty]
    rw [hrun]
    rcases list_ends fs ⟨cwd⟩ with hprinted | ⟨hnone, hfails⟩
    · exact .inl hprinted
    · rw [hfails]
      exact .inr ⟨hnone, Nat.succ_ne_zero 0, rfl⟩

/-- A run prints the files of the project around the directory, all of them and as they are, or it
fails and prints nothing. -/
theorem json_faithful_or_silent (fs : FileSystem) (hcwd : cwd.head? ≠ some hyphen)
    {arguments : List Bytes} (h : arguments ∈ [[jsonFlag, cwd], [cwd, jsonFlag]]) :
    ((run fs arguments).exitCode = 0 ↔ ∃ files,
      (filesAround .blocking fs ⟨cwd⟩).result = .ok files ∧ ∀ p ∈ files, p.IsUtf8) ∧
    ((run fs arguments).exitCode = 0 → ∀ files,
      (filesAround .blocking fs ⟨cwd⟩).result = .ok files →
        Prints (run fs arguments).output files) ∧
    ((run fs arguments).exitCode ≠ 0 → (run fs arguments).output = []) := by
  rcases run_ends fs hcwd h with ⟨names, hnames, hrun⟩ | ⟨hnone, hfails, hsilent⟩
  · rw [hrun]
    refine ⟨⟨fun _ => ⟨_, hnames, exists_names_iff.mp ⟨names, rfl⟩⟩, fun _ => rfl⟩, ?_, ?_⟩
    · intro _ files hfiles
      obtain rfl := Except.ok.inj (hnames.symm.trans hfiles)
      exact prints_json names
    · intro hcode
      exact absurd rfl hcode
  · refine ⟨⟨fun hcode => absurd hcode hfails, ?_⟩, fun hcode => absurd hcode hfails,
      fun _ => hsilent⟩
    rintro ⟨files, hfiles, hutf8⟩
    obtain ⟨names, rfl⟩ := exists_names_iff.mpr hutf8
    exact absurd hfiles (hnone names)

/-- A name with a quote, a backslash, a line break, a control character and one above ASCII. -/
def oddName : String := "\"\\\n\x01é.ts"

def oddProject : Node :=
  .directory true [(configName, emptyConfig), (Utf8.encodeString oddName, .file [] true)]

def undecodableProject : Node :=
  .directory true [(configName, emptyConfig), (0xFF :: Utf8.encodeString ".ts", .file [] true)]

/-- A project with an odd name in it, and one with a name that cannot be decoded. -/
def twoProjects : FileSystem :=
  ⟨.directory true [(Utf8.encodeString "b", oddProject),
    (Utf8.encodeString "c", undecodableProject)], []⟩

theorem odd_name_printed :
    (∀ cwd ∈ ["b", "c"], (Utf8.encodeString cwd).head? ≠ some hyphen) ∧
    (run twoProjects [jsonFlag, Utf8.encodeString "b"]).exitCode = 0 ∧
    Prints (run twoProjects [jsonFlag, Utf8.encodeString "b"]).output [.ofString oddName] ∧
    (run twoProjects [Utf8.encodeString "c", jsonFlag]).exitCode = 1 ∧
    (run twoProjects [Utf8.encodeString "c", jsonFlag]).output = [] := by
  have hcwd : ∀ cwd ∈ ["b", "c"], (Utf8.encodeString cwd).head? ≠ some hyphen := by decide
  have hfiles : (filesAround .blocking twoProjects ⟨Utf8.encodeString "b"⟩).result =
      .ok [.ofString oddName] := by decide +kernel
  have hbroken : (run twoProjects [Utf8.encodeString "c", jsonFlag]).exitCode = 1 := by
    decide +kernel
  obtain ⟨hexit, hprints, -⟩ :=
    json_faithful_or_silent twoProjects (hcwd "b" (.head _)) (.head _)
  obtain ⟨-, -, hsilent⟩ :=
    json_faithful_or_silent twoProjects (hcwd "c" (.tail _ (.head _))) (.tail _ (.head _))
  have hcode := hexit.mpr ⟨_, hfiles, List.forall_mem_singleton.mpr ⟨_, rfl⟩⟩
  exact ⟨hcwd, hcode, hprints hcode _ hfiles, hbroken, hsilent (hbroken ▸ Nat.one_ne_zero)⟩

end CommandLine

end ProjectScope
