import ProjectScope.Proofs.RuleDecisions

/-! # One walk from two roots

A walk asks the file system for the entries of its root, whether a directory below may be listed,
and what a link below leads to. If below two roots the answers are the same, so are the walks: they
find the same files, or stop at the same place with the same fault (`run_alike`). -/
namespace ProjectScope

/-- No directory and no link below a directory is too far down for its path. -/
def Roomy (fs : FileSystem) (root : Path) : Prop :=
  ∀ entries names node, fs.list root = .ok entries → Leads entries names node →
    node.kind = .directory ∨ node.kind = .link →
    (root.below names).text.length < FileSystem.pathLimit

namespace Walk

/-- What a walk asks the file system below two roots, it is told the same. -/
structure SameBelow (fs : FileSystem) (root root' : Path) (entries : List (Name × Node)) :
    Prop where
  isFile : ∀ names target, Leads entries names (.link target) →
    fs.isFile (root.below names) = fs.isFile (root'.below names)
  listingFault? : ∀ names readable inner, Leads entries names (.directory readable inner) →
    FileSystem.listingFault? (root.below names) readable =
      FileSystem.listingFault? (root'.below names) readable

variable {fs : FileSystem} {root root' : Path} {entries : List (Name × Node)}
  {names : List Name} {node : Node}

theorem SameBelow.faultAt?_eq (h : SameBelow fs root root' entries)
    (hl : Leads entries names node) :
    faultAt? (root.below names) node = faultAt? (root'.below names) node := by
  cases node with
  | directory readable inner => exact h.listingFault? names readable inner hl
  | file content readable => rfl
  | fifo => rfl
  | link target => rfl

theorem SameBelow.countsAsFile_eq (h : SameBelow fs root root' entries)
    (hl : Leads entries names node) :
    countsAsFile fs (root.below names) node.kind =
      countsAsFile fs (root'.below names) node.kind := by
  cases node with
  | link target => exact h.isFile names target hl
  | file content readable => rfl
  | fifo => rfl
  | directory readable inner => rfl

theorem SameBelow.inScope_eq (h : SameBelow fs root root' entries) (rules : Rules)
    (hl : Leads entries names node) :
    inScope fs rules root (names, node) = inScope fs rules root' (names, node) := by
  rw [inScope, inScope, h.countsAsFile_eq hl]

/-- The sights of places below a root. -/
abbrev sightsFrom (root : Path) (places : List Place) : List Sight :=
  places.map fun place => (root.below place.1, place.2)

theorem pass_alike (encounter : Encounter) (rules : Rules)
    (hsame : SameBelow fs root root' entries) {places : List Place}
    (h : ∀ place ∈ places, Leads entries place.1 place.2 ∧ ∀ n ∈ place.1, Path.IsName n) :
    (∃ files, (pass encounter fs rules root (sightsFrom root places)).result = .ok files ∧
      (pass encounter fs rules root' (sightsFrom root' places)).result = .ok files) ∨
    ∃ place ∈ places, ∃ fault,
      (pass encounter fs rules root (sightsFrom root places)).result =
        .error (.walk (root.below place.1) encounter fault) ∧
      (pass encounter fs rules root' (sightsFrom root' places)).result =
        .error (.walk (root'.below place.1) encounter fault) := by
  induction places with
  | nil => exact .inl ⟨[], rfl, rfl⟩
  | cons place places ih =>
    obtain ⟨hl, hn⟩ := h place List.mem_cons_self
    have hfault := hsame.faultAt?_eq hl
    have hscope := hsame.inScope_eq rules hl
    simp only [sightsFrom, List.map_cons, pass_cons encounter hn, ← hfault, ← hscope]
    cases faultAt? (root.below place.1) place.2 with
    | some fault => exact .inr ⟨place, List.mem_cons_self, fault, rfl, rfl⟩
    | none =>
      rcases ih fun p hp => h p (List.mem_cons_of_mem _ hp) with
        ⟨files, hfiles, hfiles'⟩ | ⟨p, hp, fault, herror, herror'⟩
      · exact .inl ⟨_, by rw [hfiles]; rfl, by rw [hfiles']; rfl⟩
      · exact .inr ⟨p, List.mem_cons_of_mem _ hp, fault, by rw [herror]; rfl, by rw [herror']; rfl⟩

theorem run_alike (form : Form) (hs : fs.Sound) (hl : fs.list root = .ok entries)
    (hl' : fs.list root' = .ok entries) (hsame : SameBelow fs root root' entries)
    (rules : Rules) :
    (∃ files, (run form fs rules root).result = .ok files ∧
      (run form fs rules root').result = .ok files) ∨
    ∃ names node fault, Leads entries names node ∧
      (run form fs rules root).result =
        .error (.walk (root.below names) (encounterOf form) fault) ∧
      (run form fs rules root').result =
        .error (.walk (root'.below names) (encounterOf form) fault) := by
  have hd := FileSystem.list_sound hs hl
  have hplaces : ∀ place ∈ layout entries, Leads entries place.1 place.2 ∧
      ∀ n ∈ place.1, Path.IsName n := by
    intro place hm
    have hlead : Leads entries place.1 place.2 := mem_layout_iff.mp hm
    exact ⟨hlead, hlead.isName hd⟩
  rw [run_eq_pass fs rules root form hl, run_eq_pass fs rules root' form hl']
  rcases pass_alike (encounterOf form) rules hsame hplaces with
    hok | ⟨place, hm, fault, herror, herror'⟩
  · exact .inl hok
  · exact .inr ⟨place.1, place.2, fault, mem_layout_iff.mp hm, herror, herror'⟩

end Walk

end ProjectScope
