import Mathlib.Data.List.Perm.Basic
import ProjectScope.Proofs.WalkResult

/-! # A walk that does not descend into some directories

Such a walk takes the stream of the tree in which these directories are empty; links are still
resolved in the whole tree. It loses only what lies beneath them (`Leads.prune`) and finds nothing
new (`Leads.of_prune`), so it gives the list of the full walk as long as no file in scope lies there.
Main statement: `pruning_result`. -/
namespace ProjectScope

variable {cut : List Name → Bool}

namespace Node

mutual

/-- The node at a place, with every directory that is cut emptied. -/
def prune (cut : List Name → Bool) (place : List Name) : Node → Node
  | .directory readable entries =>
    if cut place then emptyDirectory else .directory readable (pruneEntries cut place entries)
  | .file content readable => .file content readable
  | .fifo => .fifo
  | .link target => .link target

/-- The entries of the directory at a place. -/
def pruneEntries (cut : List Name → Bool) (place : List Name) :
    List (Name × Node) → List (Name × Node)
  | [] => []
  | (n, node) :: entries => (n, node.prune cut (place ++ [n])) :: pruneEntries cut place entries

end

theorem pruneEntries_eq_map (place : List Name) (entries : List (Name × Node)) :
    pruneEntries cut place entries =
      entries.map fun e => (e.1, e.2.prune cut (place ++ [e.1])) := by
  induction entries with
  | nil => rfl
  | cons e entries ih => rw [pruneEntries, ih, List.map_cons]

theorem prune_kind (node : Node) (place : List Name) : (node.prune cut place).kind = node.kind := by
  cases node with
  | directory readable entries =>
    rw [prune]
    split <;> rfl
  | file content readable => rfl
  | fifo => rfl
  | link target => rfl

theorem pruneEntries_sound {place : List Name} {readable : Bool} {entries : List (Name × Node)}
    (h : (directory readable entries).Sound)
    (hall : ∀ e ∈ entries, (e.2.prune cut (place ++ [e.1])).Sound) :
    (directory readable (pruneEntries cut place entries)).Sound := by
  rw [pruneEntries_eq_map]
  cases h with
  | directory hnd hnames _ =>
    refine .directory ?_ ?_ ?_
    · rw [List.map_map]
      exact hnd
    · exact List.forall_mem_map.mpr hnames
    · exact List.forall_mem_map.mpr hall

theorem prune_sound {node : Node} :
    ∀ {place : List Name}, node.Sound → (node.prune cut place).Sound := by
  induction node using Node.induct with
  | file content readable => exact fun h => h
  | fifo => exact fun h => h
  | link target => exact fun h => h
  | directory readable entries ih =>
    intro place h
    rw [prune]
    split
    · exact .directory (by simp) (by simp) (by simp)
    · refine pruneEntries_sound h ?_
      cases h with
      | directory _ _ hall => exact fun e he => ih e he (hall e he)

end Node

open Node (pruneEntries pruneEntries_eq_map)

/-! ## Places of the tree and of what is left of it -/

theorem Leads.of_prune {entries : List (Name × Node)} {place names : List Name} {x : Node}
    (h : Leads (pruneEntries cut place entries) names x) :
    ∃ node, Leads entries names node ∧ x = node.prune cut (place ++ names) := by
  generalize hes : pruneEntries cut place entries = pruned at h
  induction h generalizing place entries with
  | @here pruned n x hm =>
    subst hes
    rw [pruneEntries_eq_map] at hm
    obtain ⟨e, he, hx⟩ := List.mem_map.mp hm
    cases hx
    exact ⟨e.2, .here he, rfl⟩
  | @under pruned n readable inner names x hm hl ih =>
    subst hes
    rw [pruneEntries_eq_map] at hm
    obtain ⟨⟨m, node⟩, he, hx⟩ := List.mem_map.mp hm
    obtain ⟨rfl, hnode⟩ := Prod.mk.inj hx
    cases node with
    | file content readable => cases hnode
    | fifo => cases hnode
    | link target => cases hnode
    | directory readable' inner' =>
      rw [Node.prune] at hnode
      split at hnode
      · -- Nothing stands beneath a directory that has been emptied.
        cases hnode
        cases hl with
        | here hm => cases hm
        | under hm _ => cases hm
      · cases hnode
        obtain ⟨node, hl', rfl⟩ := ih rfl
        exact ⟨node, .under he hl', by simp⟩

theorem Leads.prune {entries : List (Name × Node)} {names : List Name} {node : Node}
    (h : Leads entries names node) : ∀ place : List Name,
    (∀ above beneath, names = above ++ beneath → above ≠ [] → beneath ≠ [] →
      cut (place ++ above) = false) →
    Leads (pruneEntries cut place entries) names (node.prune cut (place ++ names)) := by
  induction h with
  | @here entries n node hm =>
    intro place _
    refine .here ?_
    rw [pruneEntries_eq_map]
    exact List.mem_map.mpr ⟨_, hm, rfl⟩
  | @under entries n readable inner names node hm hl ih =>
    intro place hcut
    have hopen : cut (place ++ [n]) = false := hcut [n] names rfl (by simp) hl.ne_nil
    have hinner := ih (place ++ [n]) fun above beneath hsplit _ hb => by
      have hc := hcut (n :: above) beneath (by rw [hsplit]; rfl) (by simp) hb
      simpa using hc
    rw [List.append_assoc, List.singleton_append] at hinner
    have hkept : (n, .directory readable (pruneEntries cut (place ++ [n]) inner)) ∈
        pruneEntries cut place entries := by
      rw [pruneEntries_eq_map]
      refine List.mem_map.mpr ⟨_, hm, ?_⟩
      rw [Node.prune, hopen]
      rfl
    exact .under hkept hinner

/-! ## The walk -/

namespace Walk

/-- The text by which rules decide on what stands at a place. -/
def textAt (place : List Name) : List Char := Utf8.lossy (Path.relative place).text

/-- The files in scope below a root, by a walk that descends into no directory that is cut. -/
def pruning (fs : FileSystem) (rules : Rules) (cut : List Name → Bool) (root : Path) :
    Logged (List Path) :=
  match fs.list root with
  | .error fault => Logged.fail (.walk root .listing fault)
  | .ok entries => collect fs rules root (stream root (pruneEntries cut [] entries))

variable {fs : FileSystem} {rules : Rules} {root : Path} {entries : List (Name × Node)}

theorem faultAt?_prune {path : Path} {node : Node} (place : List Name)
    (h : faultAt? path node = none) : faultAt? path (node.prune cut place) = none := by
  cases node with
  | file content readable => rfl
  | fifo => rfl
  | link target => rfl
  | directory readable entries =>
    rw [Node.prune]
    split
    · -- A directory that can be listed has a path that is short enough.
      have hshort : ¬ FileSystem.pathLimit ≤ path.text.length := by
        intro hlong
        rw [faultAt?, FileSystem.listingFault?, if_pos hlong] at h
        cases h
      rw [Node.emptyDirectory, faultAt?, FileSystem.listingFault?, if_neg hshort, if_pos rfl]
    · exact h

theorem isRegular_prune {path : Path} {node : Node} (place : List Name) :
    IsRegular fs path (node.prune cut place) ↔ IsRegular fs path node := by
  rw [← countsAsFile_iff, ← countsAsFile_iff, Node.prune_kind]

/-- Files in scope stand in no directory that is cut. -/
theorem mem_filesInScope_prune
    (hcut : ∀ above beneath, cut above = true → above ≠ [] → beneath ≠ [] →
      rules.classify (textAt (above ++ beneath)) ≠ .included) (p : Path) :
    p ∈ filesInScope fs rules root (pruneEntries cut [] entries) ↔
      p ∈ filesInScope fs rules root entries := by
  rw [mem_filesInScope_iff, mem_filesInScope_iff]
  refine ⟨?_, ?_⟩
  · intro h
    obtain ⟨names, x, hl, hp, hreg, hin⟩ := h
    obtain ⟨node, hl', rfl⟩ := hl.of_prune
    exact ⟨names, node, hl', hp, (isRegular_prune _).mp hreg, hin⟩
  · intro h
    obtain ⟨names, node, hl, rfl, hreg, hin⟩ := h
    have hkept : Leads (pruneEntries cut [] entries) names (node.prune cut ([] ++ names)) := by
      refine hl.prune [] ?_
      intro above beneath hsplit ha hb
      refine Bool.eq_false_iff.mpr fun hc => hcut above beneath hc ha hb ?_
      rw [← hsplit]
      exact hin
    exact ⟨names, _, hkept, rfl, (isRegular_prune _).mpr hreg, hin⟩

/-- Lists in the order of a walk are told by their members. -/
theorem eq_of_mem_iff {xs ys : List Path}
    (hx : xs.Pairwise fun p q =>
      p.components.map Path.Component.text < q.components.map Path.Component.text)
    (hy : ys.Pairwise fun p q =>
      p.components.map Path.Component.text < q.components.map Path.Component.text)
    (h : ∀ p, p ∈ xs ↔ p ∈ ys) : xs = ys := by
  have hirr : ∀ p q : Path, p.components.map Path.Component.text <
      q.components.map Path.Component.text → p ≠ q := by
    rintro p _ hlt rfl
    exact List.lt_irrefl _ hlt
  have hperm : xs.Perm ys :=
    (List.perm_ext_iff_of_nodup (hx.imp (hirr _ _)) (hy.imp (hirr _ _))).mpr h
  exact hperm.eq_of_pairwise (fun p q _ _ hpq hqp => absurd hqp (List.lt_asymm hpq)) hx hy

theorem pruning_result (hs : fs.Sound) (hr : ReadableFrom fs root entries)
    (hcut : ∀ above beneath, cut above = true → above ≠ [] → beneath ≠ [] →
      rules.classify (textAt (above ++ beneath)) ≠ .included) :
    (pruning fs rules cut root).result = .ok (filesInScope fs rules root entries) := by
  have hd := FileSystem.list_sound hs hr.listed
  have hd' : (Node.directory true (pruneEntries cut [] entries)).Sound := by
    refine Node.pruneEntries_sound hd ?_
    cases hd with
    | directory _ _ hall => exact fun e he => Node.prune_sound (hall e he)
  have hpass : (pruning fs rules cut root).result =
      .ok (filesInScope fs rules root (pruneEntries cut [] entries)) := by
    rw [pruning, hr.listed]
    dsimp only
    rw [collect_stream]
    refine pass_result .stream ?_
    intro place hm
    obtain ⟨names, x⟩ := place
    have hl := mem_layout_iff.mp hm
    refine ⟨?_, hl.isName hd'⟩
    obtain ⟨node, hl', rfl⟩ := hl.of_prune
    exact faultAt?_prune _ (faultAt?_of_readable hr hl')
  rw [hpass, eq_of_mem_iff (filesInScope_pairwise hd') (filesInScope_pairwise hd)
    (mem_filesInScope_prune hcut)]

end Walk

end ProjectScope
