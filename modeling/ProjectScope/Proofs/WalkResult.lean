import Mathlib.Data.List.Nodup
import ProjectScope.Proofs.SoundTree
import ProjectScope.Proofs.WalkPass

/-! # What a walk gives on a tree that can be read throughout

The pass over the layout never stops then, and no visit fails, because what a visited path adds to
the root is the path of the names that lead there. So the result is the layout, cut down to the
files in scope (`run_ok`). Main statement: `run_lists_files_in_scope`. -/
namespace ProjectScope

/-! ## Places of a sound tree -/

theorem Leads.isName {entries names node} (h : Leads entries names node) :
    ∀ {readable}, (Node.directory readable entries).Sound → ∀ n ∈ names, Path.IsName n := by
  induction h with
  | here hm =>
    intro readable hs n hn
    cases hs with
    | directory _ hnames _ => exact List.mem_singleton.mp hn ▸ hnames _ hm
  | under hm _ ih =>
    intro readable hs n hn
    cases hs with
    | directory _ hnames hall =>
      rcases List.mem_cons.mp hn with rfl | hn
      · exact hnames _ hm
      · exact ih (hall _ hm) n hn

theorem Leads.unique {entries names x} (hx : Leads entries names x) :
    ∀ {readable y}, (Node.directory readable entries).Sound → Leads entries names y → x = y := by
  induction hx with
  | @here entries n x hm =>
    intro readable y hs hy
    cases hs with
    | directory hnd _ _ =>
      cases hy with
      | here hm' => exact congrArg Prod.snd (List.inj_on_of_nodup_map hnd hm hm' rfl)
      | under _ hl => exact absurd rfl hl.ne_nil
  | @under entries n readable inner names x hm hl ih =>
    intro readable' y hs hy
    cases hs with
    | directory hnd _ hall =>
      cases hy with
      | here _ => exact absurd rfl hl.ne_nil
      | under hm' hl' =>
        have he := congrArg Prod.snd (List.inj_on_of_nodup_map hnd hm hm' rfl)
        cases he
        exact ih (hall _ hm) hl'

/-- The root and every directory reached from it can be listed by the path of the walk. -/
structure ReadableFrom (fs : FileSystem) (root : Path) (entries : List (Name × Node)) : Prop where
  listed : fs.list root = .ok entries
  below : ∀ names readable inner, Leads entries names (.directory readable inner) →
    FileSystem.listingFault? (root.below names) readable = none

/-- The entry is a regular file, or a link that its path leads through to one. -/
def IsRegular (fs : FileSystem) (path : Path) (node : Node) : Prop :=
  node.isFile = true ∨ (∃ target, node = .link target) ∧ fs.isFile path = true

theorem countsAsFile_iff {fs : FileSystem} {path : Path} {node : Node} :
    Walk.countsAsFile fs path node.kind = true ↔ IsRegular fs path node := by
  cases node <;> simp [Walk.countsAsFile, Node.kind, IsRegular, Node.isFile]

namespace Walk

variable {fs : FileSystem} {rules : Rules} {root : Path} {entries : List (Name × Node)}

/-! ## The pass -/

theorem visit_result (fs : FileSystem) (rules : Rules) {path relative : Path} (kind : Kind)
    (h : path.relativeTo? root = some relative) :
    (visit fs rules root path kind).result = .ok (if countsAsFile fs path kind = true ∧
      rules.classify (Utf8.lossy relative.text) = .included then some relative else none) := by
  unfold visit
  by_cases hc : countsAsFile fs path kind = true
  · rw [if_pos hc, h]
    simp only [hc, true_and]
    rfl
  · rw [if_neg hc, if_neg fun h => hc h.1]
    rfl

/-- Whether the entry at a place is a file in scope. -/
def inScope (fs : FileSystem) (rules : Rules) (root : Path) (place : Place) : Bool :=
  countsAsFile fs (root.below place.1) place.2.kind &&
    rules.classify (Utf8.lossy (Path.relative place.1).text) == .included

/-- What a pass makes of the first place ahead of it. -/
theorem pass_cons (encounter : Encounter) {names : List Name} (hn : ∀ n ∈ names, Path.IsName n)
    (node : Node) (ahead : List Sight) :
    (pass encounter fs rules root ((root.below names, node) :: ahead)).result =
      match faultAt? (root.below names) node with
      | some fault => .error (.walk (root.below names) encounter fault)
      | none => (pass encounter fs rules root ahead).result.map fun others =>
          if inScope fs rules root (names, node) = true then Path.relative names :: others
          else others := by
  have hv := visit_result fs rules node.kind (Path.relativeTo?_below hn root)
  rw [pass, passThen]
  cases faultAt? (root.below names) node with
  | some fault => rfl
  | none =>
    dsimp only
    rw [Logged.bind_of_ok hv, ← pass]
    dsimp only
    cases hrest : (pass encounter fs rules root ahead).result with
    | error e => rw [Logged.bind_of_error hrest]; rfl
    | ok others =>
      rw [Logged.bind_of_ok hrest]
      simp only [inScope, Bool.and_eq_true, beq_iff_eq]
      split <;> rfl

/-- The error that a pass ends with at a place, if it cannot go past it. -/
def stopAt? (encounter : Encounter) (root : Path) (place : Place) : Option Error :=
  (faultAt? (root.below place.1) place.2).map (.walk (root.below place.1) encounter)

/-- A pass ends with the error of the first place that it cannot go past, else with the files in
scope. -/
theorem pass_ends (encounter : Encounter) {places : List Place}
    (hn : ∀ place ∈ places, ∀ n ∈ place.1, Path.IsName n) :
    (pass encounter fs rules root
        (places.map fun place => (root.below place.1, place.2))).result =
      match places.findSome? (stopAt? encounter root) with
      | some e => .error e
      | none =>
        .ok ((places.filter (inScope fs rules root)).map fun place => Path.relative place.1) := by
  induction places with
  | nil => rfl
  | cons place places ih =>
    obtain ⟨hfirst, hrest⟩ := List.forall_mem_cons.mp hn
    rw [List.map_cons, pass_cons encounter hfirst, ih hrest, List.findSome?_cons, stopAt?,
      List.filter_cons]
    cases faultAt? (root.below place.1) place.2 with
    | some fault => rfl
    | none =>
      dsimp only [Option.map_none]
      cases places.findSome? (stopAt? encounter root) with
      | some e => rfl
      | none =>
        dsimp only [Except.map]
        split <;> rfl

theorem pass_result (encounter : Encounter) {places : List Place}
    (h : ∀ place ∈ places, faultAt? (root.below place.1) place.2 = none ∧
      ∀ n ∈ place.1, Path.IsName n) :
    (pass encounter fs rules root
        (places.map fun place => (root.below place.1, place.2))).result =
      .ok ((places.filter (inScope fs rules root)).map fun place => Path.relative place.1) := by
  have hnone : places.findSome? (stopAt? encounter root) = none := by
    refine List.findSome?_eq_none_iff.mpr ?_
    intro place hm
    rw [stopAt?, (h place hm).1, Option.map_none]
  rw [pass_ends encounter fun place hm => (h place hm).2, hnone]

theorem faultAt?_of_readable (hr : ReadableFrom fs root entries) {names node}
    (h : Leads entries names node) : faultAt? (root.below names) node = none := by
  cases node with
  | directory readable inner => exact hr.below names readable inner h
  | file content readable => rfl
  | fifo => rfl
  | link target => rfl

/-- The layout of the tree, cut down to the files in scope. -/
def filesInScope (fs : FileSystem) (rules : Rules) (root : Path) (entries : List (Name × Node)) :
    List Path :=
  ((layout entries).filter (inScope fs rules root)).map fun place => Path.relative place.1

theorem run_ok (form : Form) (hs : fs.Sound) (hr : ReadableFrom fs root entries) :
    (run form fs rules root).result = .ok (filesInScope fs rules root entries) := by
  rw [run_eq_pass fs rules root form hr.listed]
  refine pass_result (encounterOf form) ?_
  intro place hm
  obtain ⟨names, node⟩ := place
  have hl := mem_layout_iff.mp hm
  exact ⟨faultAt?_of_readable hr hl, hl.isName (FileSystem.list_sound hs hr.listed)⟩

/-! ## The files in scope -/

theorem inScope_iff {names : List Name} {node : Node} :
    inScope fs rules root (names, node) = true ↔ IsRegular fs (root.below names) node ∧
      rules.classify (Utf8.lossy (Path.relative names).text) = .included := by
  rw [inScope, Bool.and_eq_true, beq_iff_eq, countsAsFile_iff]

theorem mem_filesInScope_iff {p : Path} : p ∈ filesInScope fs rules root entries ↔
    ∃ names node, Leads entries names node ∧ p = Path.relative names ∧
      IsRegular fs (root.below names) node ∧
      rules.classify (Utf8.lossy p.text) = .included := by
  rw [filesInScope, List.mem_map]
  refine ⟨?_, ?_⟩
  · intro hp
    obtain ⟨⟨names, node⟩, hm, rfl⟩ := hp
    obtain ⟨hl, hin⟩ := List.mem_filter.mp hm
    exact ⟨names, node, mem_layout_iff.mp hl, rfl, inScope_iff.mp hin⟩
  · intro hp
    obtain ⟨names, node, hl, rfl, hin⟩ := hp
    exact ⟨(names, node), List.mem_filter.mpr ⟨mem_layout_iff.mpr hl, inScope_iff.mpr hin⟩, rfl⟩

theorem text_name (names : List Name) :
    (names.map Path.Component.name).map Path.Component.text = names := by
  rw [List.map_map]
  exact List.map_id'' (fun _ => rfl) names

variable {readable : Bool} (hd : (Node.directory readable entries).Sound)
include hd

theorem filesInScope_pairwise : (filesInScope fs rules root entries).Pairwise fun p q =>
    p.components.map Path.Component.text < q.components.map Path.Component.text := by
  rw [filesInScope, List.pairwise_map]
  refine ((layout_pairwise hd).sublist List.filter_sublist).imp_of_mem ?_
  intro a b hx hy hlt
  obtain ⟨xs, x⟩ := a
  obtain ⟨ys, y⟩ := b
  have hxs := (mem_layout_iff.mp (List.mem_of_mem_filter hx)).isName hd
  have hys := (mem_layout_iff.mp (List.mem_of_mem_filter hy)).isName hd
  rw [Path.components_relative hxs, Path.components_relative hys, text_name, text_name]
  exact hlt

theorem components_ne_nil {p : Path} (hp : p ∈ filesInScope fs rules root entries) :
    p.components ≠ [] := by
  obtain ⟨names, node, hl, rfl, -⟩ := mem_filesInScope_iff.mp hp
  rw [Path.components_relative (hl.isName hd)]
  simpa using hl.ne_nil

theorem notMem_filesInScope {names : List Name} {node : Node} (hl : Leads entries names node)
    (hreg : ¬ IsRegular fs (root.below names) node) :
    Path.relative names ∉ filesInScope fs rules root entries := by
  intro hp
  obtain ⟨names', node', hl', he, hreg', -⟩ := mem_filesInScope_iff.mp hp
  have hn := Path.relative_injective (hl.isName hd) (hl'.isName hd) he
  subst hn
  exact hreg (hl.unique hd hl' ▸ hreg')

omit hd

/-! ## A tree with a file, two links, a FIFO and a name that sorts after a directory's contents -/

theorem readableFrom_of_layout (hl : fs.list root = .ok entries)
    (h : ∀ place ∈ layout entries, faultAt? (root.below place.1) place.2 = none) :
    ReadableFrom fs root entries := by
  refine ⟨hl, ?_⟩
  intro names readable inner hp
  exact h (names, .directory readable inner) (mem_layout_iff.mpr hp)

def sampleName (s : String) : Name := Utf8.encodeString s

def sampleEntries : List (Name × Node) :=
  [(sampleName "a-b", .file [] true),
    (sampleName "a", .directory true [(sampleName "x", .file [] true),
      (sampleName "l", .link (sampleName "x")), (sampleName "d", .link (sampleName ".."))]),
    (sampleName "p", .fifo)]

def sampleTree : FileSystem := ⟨.directory true sampleEntries, []⟩

def sampleRules : Rules := ⟨[⟨"**", .atom .everything⟩], [⟨"p", .atom (.literal 'p')⟩]⟩

theorem sampleTree_sound : sampleTree.Sound := by decide

theorem sampleTree_readable : ReadableFrom sampleTree ⟨Path.dot⟩ sampleEntries :=
  readableFrom_of_layout rfl (by decide)

/-! ## The list -/

theorem run_lists_files_in_scope (rules : Rules) (form : Form) (hs : fs.Sound)
    (hr : ReadableFrom fs root entries) :
    ∃ files, (run form fs rules root).result = .ok files ∧
      (∀ p, p ∈ files ↔ ∃ names node, Leads entries names node ∧ p = Path.relative names ∧
        IsRegular fs (root.below names) node ∧
        rules.classify (Utf8.lossy p.text) = .included) ∧
      files.Pairwise (fun p q =>
        p.components.map Path.Component.text < q.components.map Path.Component.text) ∧
      (∀ p ∈ files, p.components ≠ []) ∧
      ∀ names node, Leads entries names node → ¬ IsRegular fs (root.below names) node →
        Path.relative names ∉ files := by
  have hd := FileSystem.list_sound hs hr.listed
  refine ⟨_, run_ok form hs hr, fun p => mem_filesInScope_iff, filesInScope_pairwise hd, ?_, ?_⟩
  · exact fun p hp => components_ne_nil hd hp
  · exact fun names node hl hreg => notMem_filesInScope hd hl hreg

/-- The link to a file is in the list, the link to a directory and the FIFO are not. -/
theorem run_lists_sample_files :
    sampleTree.Sound ∧ ReadableFrom sampleTree ⟨Path.dot⟩ sampleEntries ∧
      ∃ files, (run .suspending sampleTree sampleRules ⟨Path.dot⟩).result = .ok files ∧
        Path.relative [sampleName "a", sampleName "l"] ∈ files ∧
        Path.relative [sampleName "a", sampleName "d"] ∉ files ∧
        Path.relative [sampleName "p"] ∉ files := by
  refine ⟨sampleTree_sound, sampleTree_readable, ?_⟩
  obtain ⟨files, hr, hm, -, -, hn⟩ :=
    run_lists_files_in_scope sampleRules .suspending sampleTree_sound sampleTree_readable
  refine ⟨files, hr, (hm _).mpr ⟨_, .link (sampleName "x"), ?_, rfl, ?_, by decide⟩,
    hn _ (.link (sampleName "..")) ?_ ?_, hn _ .fifo ?_ ?_⟩
  · exact .under (.tail _ (.head _)) (.here (.tail _ (.head _)))
  · exact countsAsFile_iff.mp (by decide)
  · exact .under (.tail _ (.head _)) (.here (.tail _ (.tail _ (.head _))))
  · exact fun h => absurd (countsAsFile_iff.mpr h) (by decide)
  · exact .here (.tail _ (.tail _ (.head _)))
  · exact fun h => absurd (countsAsFile_iff.mpr h) (by decide)

end Walk

end ProjectScope
