import ProjectScope.FileSystem.Basic
import ProjectScope.Proofs.PathBelow
import ProjectScope.Text.Order

/-! # The tree below a directory, laid out in the order of a walk

A place below a directory is the list of names that lead there, through real directories only. The
layout lists every place with its node, a directory before what it holds and children by name.
Main statements: the layout holds exactly the places (`mem_layout_iff`), and its places strictly
increase when no directory holds a name twice (`layout_pairwise`). -/
namespace ProjectScope

theorem sortByKey_map {α β : Type} (f : Bytes × α → β) (xs : List (Bytes × α)) :
    sortByKey (xs.map fun x => (x.1, f x)) = (sortByKey xs).map fun x => (x.1, f x) := by
  have hi : ∀ (x : Bytes × α) (ys : List (Bytes × α)),
      insertByKey (x.1, f x) (ys.map fun y => (y.1, f y)) =
        (insertByKey x ys).map fun y => (y.1, f y) := by
    intro x ys
    induction ys with
    | nil => rfl
    | cons y ys ih =>
      simp only [List.map_cons, insertByKey]
      by_cases hxy : x.1 ≤ y.1
      · simp [hxy]
      · simp [hxy, ih]
  induction xs with
  | nil => rfl
  | cons x xs ih => rw [List.map_cons, sortByKey, sortByKey, ih, hi]

theorem mem_sortByKey {α : Type} {x : Bytes × α} {xs : List (Bytes × α)} :
    x ∈ sortByKey xs ↔ x ∈ xs := (sortByKey_perm xs).mem_iff

/-- Without equal keys the order is strict. -/
theorem sortByKey_pairwise_lt {α : Type} {xs : List (Bytes × α)}
    (h : (xs.map Prod.fst).Nodup) : (sortByKey xs).Pairwise fun a b => a.1 < b.1 := by
  have hn : ((sortByKey xs).map Prod.fst).Nodup :=
    ((sortByKey_perm xs).map Prod.fst).nodup_iff.mpr h
  have hne := List.pairwise_map.mp hn
  refine ((sortByKey_sorted xs).and hne).imp ?_
  intro a b hab
  exact Std.lt_of_le_of_ne hab.1 hab.2

theorem Node.induct {P : Node → Prop} (file : ∀ content readable, P (.file content readable))
    (fifo : P .fifo) (link : ∀ target, P (.link target))
    (directory : ∀ readable entries, (∀ e ∈ entries, P e.2) → P (.directory readable entries)) :
    ∀ node, P node
  | .file content readable => file content readable
  | .fifo => fifo
  | .link target => link target
  | .directory readable entries => directory readable entries fun e _ =>
      Node.induct file fifo link directory e.2
termination_by node => sizeOf node
decreasing_by
  rename_i he
  have h := List.sizeOf_lt_of_mem he
  cases e
  simp only [Prod.mk.sizeOf_spec, Node.directory.sizeOf_spec] at h ⊢
  omega

/-! ## Places -/

/-- The names lead from a directory with these entries down to the node. A link is never entered. -/
inductive Leads : List (Name × Node) → List Name → Node → Prop
  | here {entries n node} : (n, node) ∈ entries → Leads entries [n] node
  | under {entries n readable inner names node} : (n, .directory readable inner) ∈ entries →
      Leads inner names node → Leads entries (n :: names) node

theorem Leads.ne_nil {entries names node} (h : Leads entries names node) : names ≠ [] := by
  cases h <;> simp

/-- What stands at a place counted from a node, which is itself at the empty place. -/
def Node.HasAt (node : Node) (names : List Name) (x : Node) : Prop :=
  names = [] ∧ x = node ∨ ∃ readable entries, node = .directory readable entries ∧
    Leads entries names x

theorem leads_iff {entries names x} : Leads entries names x ↔
    ∃ e ∈ entries, ∃ rest, names = e.1 :: rest ∧ e.2.HasAt rest x := by
  refine ⟨?_, ?_⟩
  · intro h
    cases h with
    | here hm => exact ⟨_, hm, [], rfl, .inl ⟨rfl, rfl⟩⟩
    | under hm hl => exact ⟨_, hm, _, rfl, .inr ⟨_, _, rfl, hl⟩⟩
  · intro h
    obtain ⟨⟨n, node⟩, hm, rest, rfl, hx⟩ := h
    rcases hx with ⟨rfl, rfl⟩ | ⟨readable, inner, rfl, hl⟩
    · exact .here hm
    · exact .under hm hl

abbrev Place := List Name × Node

def Place.under (n : Name) (p : Place) : Place := (n :: p.1, p.2)

mutual

/-- The places of a node and of all beneath it. -/
def Node.layout : Node → List Place
  | .directory readable entries =>
    ([], .directory readable entries) :: (sortByKey (Node.layouts entries)).flatMap Prod.snd
  | .file content readable => [([], .file content readable)]
  | .fifo => [([], .fifo)]
  | .link target => [([], .link target)]

/-- The places that each entry of a directory brings in. -/
def Node.layouts : List (Name × Node) → List (Name × List Place)
  | [] => []
  | (n, node) :: entries => (n, node.layout.map (Place.under n)) :: Node.layouts entries

end

/-- The places below a directory with these entries. -/
def layout (entries : List (Name × Node)) : List Place :=
  (sortByKey entries).flatMap fun e => e.2.layout.map (Place.under e.1)

theorem layouts_eq_map (entries : List (Name × Node)) :
    Node.layouts entries = entries.map fun e => (e.1, e.2.layout.map (Place.under e.1)) := by
  induction entries with
  | nil => rfl
  | cons e entries ih => rw [Node.layouts, ih, List.map_cons]

theorem layout_directory (readable : Bool) (entries : List (Name × Node)) :
    (Node.directory readable entries).layout =
      ([], .directory readable entries) :: layout entries := by
  rw [Node.layout, layouts_eq_map, sortByKey_map, layout, List.flatMap_map]

theorem mem_layout {entries : List (Name × Node)} {names x} : (names, x) ∈ layout entries ↔
    ∃ e ∈ entries, ∃ rest, names = e.1 :: rest ∧ (rest, x) ∈ e.2.layout := by
  simp only [layout, List.mem_flatMap, List.mem_map, mem_sortByKey]
  refine ⟨?_, ?_⟩
  · intro h
    obtain ⟨e, he, ⟨rest, y⟩, hp, hq⟩ := h
    obtain ⟨rfl, rfl⟩ := Prod.mk.inj hq
    exact ⟨e, he, rest, rfl, hp⟩
  · intro h
    obtain ⟨e, he, rest, rfl, hp⟩ := h
    exact ⟨e, he, (rest, x), hp, rfl⟩

theorem mem_node_layout {node : Node} : ∀ {names x},
    (names, x) ∈ node.layout ↔ node.HasAt names x := by
  induction node using Node.induct with
  | file content readable => intro names x; simp [Node.layout, Node.HasAt]
  | fifo => intro names x; simp [Node.layout, Node.HasAt]
  | link target => intro names x; simp [Node.layout, Node.HasAt]
  | directory readable entries ih =>
    intro names x
    have hl : (names, x) ∈ layout entries ↔ Leads entries names x := by
      rw [mem_layout, leads_iff]
      refine ⟨?_, ?_⟩
      · intro h
        obtain ⟨e, he, rest, hn, hp⟩ := h
        exact ⟨e, he, rest, hn, (ih e he).mp hp⟩
      · intro h
        obtain ⟨e, he, rest, hn, hp⟩ := h
        exact ⟨e, he, rest, hn, (ih e he).mpr hp⟩
    rw [layout_directory, List.mem_cons, hl]
    refine ⟨?_, ?_⟩
    · intro h
      rcases h with he | h
      · exact .inl (Prod.mk.inj he)
      · exact .inr ⟨_, _, rfl, h⟩
    · intro h
      rcases h with ⟨rfl, rfl⟩ | ⟨_, _, he, h⟩
      · exact .inl rfl
      · cases he
        exact .inr h

theorem mem_layout_iff {entries : List (Name × Node)} {names x} :
    (names, x) ∈ layout entries ↔ Leads entries names x := by
  rw [mem_layout, leads_iff]
  simp only [mem_node_layout]

/-! ## Order -/

/-- The tree keeps the rules of a file system: no directory holds a name twice, and every name is
one that a path can spell. -/
inductive Node.Sound : Node → Prop
  | file (content readable) : Sound (.file content readable)
  | fifo : Sound .fifo
  | link (target) : Sound (.link target)
  | directory {readable entries} : (entries.map Prod.fst).Nodup →
      (∀ e ∈ entries, Path.IsName e.1) → (∀ e ∈ entries, Sound e.2) →
      Sound (.directory readable entries)

mutual

/-- Whether the tree keeps the rules, as it is computed. -/
def Node.isSound : Node → Bool
  | .directory _ entries => decide (entries.map Prod.fst).Nodup && Node.areSound entries
  | .file _ _ | .fifo | .link _ => true

def Node.areSound : List (Name × Node) → Bool
  | [] => true
  | (n, node) :: entries => decide (Path.IsName n) && node.isSound && Node.areSound entries

end

theorem Node.areSound_iff (entries : List (Name × Node)) : Node.areSound entries = true ↔
    ∀ e ∈ entries, Path.IsName e.1 ∧ e.2.isSound = true := by
  induction entries with
  | nil => simp [Node.areSound]
  | cons e entries ih =>
    rw [Node.areSound, List.forall_mem_cons, Bool.and_eq_true, Bool.and_eq_true, ih,
      decide_eq_true_iff]

theorem Node.isSound_iff (node : Node) : node.isSound = true ↔ node.Sound := by
  induction node using Node.induct with
  | file content readable => exact ⟨fun _ => .file _ _, fun _ => rfl⟩
  | fifo => exact ⟨fun _ => .fifo, fun _ => rfl⟩
  | link target => exact ⟨fun _ => .link _, fun _ => rfl⟩
  | directory readable entries ih =>
    rw [Node.isSound, Bool.and_eq_true, Node.areSound_iff, decide_eq_true_iff]
    refine ⟨?_, ?_⟩
    · intro ⟨hnd, hall⟩
      exact .directory hnd (fun e he => (hall e he).1) fun e he => (ih e he).mp (hall e he).2
    · intro h
      cases h with
      | directory hnd hnames hall =>
        exact ⟨hnd, fun e he => ⟨hnames e he, (ih e he).mpr (hall e he)⟩⟩

instance (node : Node) : Decidable node.Sound := decidable_of_iff _ node.isSound_iff

theorem layout_pairwise_of {entries : List (Name × Node)} (hn : (entries.map Prod.fst).Nodup)
    (h : ∀ e ∈ entries, e.2.layout.Pairwise fun a b => a.1 < b.1) :
    (layout entries).Pairwise fun a b => a.1 < b.1 := by
  rw [layout, List.pairwise_flatMap]
  refine ⟨?_, ?_⟩
  · intro e he
    rw [List.pairwise_map]
    refine (h e (mem_sortByKey.mp he)).imp ?_
    intro a b hab
    exact List.cons_lt_cons_iff.mpr (.inr ⟨rfl, hab⟩)
  · refine (sortByKey_pairwise_lt hn).imp ?_
    intro a b hab x hx y hy
    obtain ⟨p, -, rfl⟩ := List.mem_map.mp hx
    obtain ⟨q, -, rfl⟩ := List.mem_map.mp hy
    exact List.cons_lt_cons_iff.mpr (.inl hab)

theorem node_layout_pairwise {node : Node} (h : node.Sound) :
    node.layout.Pairwise fun a b => a.1 < b.1 := by
  induction node using Node.induct with
  | file content readable => simp [Node.layout]
  | fifo => simp [Node.layout]
  | link target => simp [Node.layout]
  | directory readable entries ih =>
    cases h with
    | directory hn _ hs =>
      rw [layout_directory, List.pairwise_cons]
      refine ⟨?_, ?_⟩
      · intro place hm
        obtain ⟨names, x⟩ := place
        have hne := (mem_layout_iff.mp hm).ne_nil
        cases names with
        | nil => exact absurd rfl hne
        | cons n names => exact List.nil_lt_cons n names
      · exact layout_pairwise_of hn fun e he => ih e he (hs e he)

theorem layout_pairwise {readable entries} (h : (Node.directory readable entries).Sound) :
    (layout entries).Pairwise fun a b => a.1 < b.1 := by
  have hp := node_layout_pairwise h
  rw [layout_directory] at hp
  exact (List.pairwise_cons.mp hp).2

end ProjectScope
