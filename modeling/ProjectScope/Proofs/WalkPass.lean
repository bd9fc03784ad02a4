import ProjectScope.Proofs.TreeLayout
import ProjectScope.Resolution

/-! # Both walks are one pass over the layout of the tree

The blocking walk lays the tree out as a stream of items before it takes the first of them; the
suspending walk keeps a stack of what is still to be visited. Here both are shown to be the same
pass over the nodes below the root, which stops at the first directory that cannot be listed; they
differ only in how they say that they came upon it (`run_eq_pass`). -/
namespace ProjectScope.Walk

/-- A node and the path at which a walk comes by it. -/
abbrev Sight := Path × Node

def sightsOf (path : Path) (node : Node) : List Sight :=
  node.layout.map fun place => (path.below place.1, place.2)

def sightsBelow (directory : Path) (entries : List (Name × Node)) : List Sight :=
  (layout entries).map fun place => (directory.below place.1, place.2)

theorem sightsOf_directory (path : Path) (readable : Bool) (entries : List (Name × Node)) :
    sightsOf path (.directory readable entries) =
      (path, .directory readable entries) :: sightsBelow path entries := by
  rw [sightsOf, layout_directory, List.map_cons, Path.below_nil, sightsBelow]

theorem sightsOf_other (path : Path) {node : Node}
    (h : ∀ readable entries, node ≠ .directory readable entries) :
    sightsOf path node = [(path, node)] := by
  cases node with
  | directory readable entries => exact absurd rfl (h readable entries)
  | file content readable => rfl
  | fifo => rfl
  | link target => rfl

theorem sightsBelow_eq_flatMap (directory : Path) (entries : List (Name × Node)) :
    sightsBelow directory entries =
      (sortByKey entries).flatMap fun e => sightsOf (directory.joinName e.1) e.2 := by
  simp only [sightsBelow, layout, List.map_flatMap, List.map_map]
  rfl

/-- Why the node cannot be listed at this path, if it is a directory. -/
def faultAt? (path : Path) : Node → Option FileSystem.Fault
  | .directory readable _ => FileSystem.listingFault? path readable
  | _ => none

theorem faultAt?_other (path : Path) {node : Node}
    (h : ∀ readable entries, node ≠ .directory readable entries) : faultAt? path node = none := by
  cases node with
  | directory readable entries => exact absurd rfl (h readable entries)
  | file content readable => rfl
  | fifo => rfl
  | link target => rfl

section
variable (encounter : Encounter) (fs : FileSystem) (rules : Rules) (root : Path)

/-- Visits what lies ahead in order, and goes on with `last`. -/
def passThen (last : Logged (List Path)) : List Sight → Logged (List Path)
  | [] => last
  | (path, node) :: ahead =>
    match faultAt? path node with
    | some fault => Logged.fail (.walk path encounter fault)
    | none => do
      let found ← visit fs rules root path node.kind
      let others ← passThen last ahead
      return found.toList ++ others

def pass (ahead : List Sight) : Logged (List Path) :=
  passThen encounter fs rules root (pure []) ahead

theorem passThen_append (last : Logged (List Path)) (xs ys : List Sight) :
    passThen encounter fs rules root last (xs ++ ys) =
      passThen encounter fs rules root (passThen encounter fs rules root last ys) xs := by
  induction xs with
  | nil => rfl
  | cons sight xs ih =>
    obtain ⟨path, node⟩ := sight
    rw [List.cons_append, passThen, passThen, ih]

end

variable (fs : FileSystem) (rules : Rules) (root : Path)

theorem visit_directory (path : Path) : visit fs rules root path .directory = pure none := rfl

theorem visit_failsOnly (path : Path) (kind : Kind) :
    (visit fs rules root path kind).FailsOnly (· = .outsideRoot root path) := by
  unfold visit
  split
  · split
    · exact Logged.failsOnly_fail rfl
    · exact (Logged.failsOnly_ok _ _).bind fun _ => Logged.failsOnly_ok _ _
  · exact Logged.failsOnly_ok _ _

/-! ## The stream -/

theorem stretches_eq_map (directory : Path) (entries : List (Name × Node)) :
    stretches directory entries =
      entries.map fun e => (e.1, stretch (directory.joinName e.1) e.2) := by
  induction entries with
  | nil => rfl
  | cons e entries ih => rw [stretches, ih, List.map_cons]

theorem stream_eq_flatMap (directory : Path) (entries : List (Name × Node)) :
    stream directory entries =
      (sortByKey entries).flatMap fun e => stretch (directory.joinName e.1) e.2 := by
  rw [stream, stretches_eq_map,
    sortByKey_map fun e : Name × Node => stretch (directory.joinName e.1) e.2, List.flatMap_map]

theorem collect_flatMap {entries : List (Name × Node)} (directory : Path)
    (h : ∀ e ∈ entries, ∀ path items, collect fs rules root (stretch path e.2 ++ items) =
      passThen .stream fs rules root (collect fs rules root items) (sightsOf path e.2))
    (items : List Item) :
    collect fs rules root
        ((entries.flatMap fun e => stretch (directory.joinName e.1) e.2) ++ items) =
      passThen .stream fs rules root (collect fs rules root items)
        (entries.flatMap fun e => sightsOf (directory.joinName e.1) e.2) := by
  induction entries with
  | nil => rfl
  | cons e entries ih =>
    have he := h e List.mem_cons_self
    have hr := ih fun x hx => h x (List.mem_cons_of_mem e hx)
    rw [List.flatMap_cons, List.flatMap_cons, List.append_assoc, he, passThen_append, hr]

theorem collect_stretch (node : Node) : ∀ path items,
    collect fs rules root (stretch path node ++ items) =
      passThen .stream fs rules root (collect fs rules root items) (sightsOf path node) := by
  induction node using Node.induct with
  | file content readable => intro path items; rfl
  | fifo => intro path items; rfl
  | link target => intro path items; rfl
  | directory readable entries ih =>
    intro path items
    have hs : (sortByKey (stretches path entries)).flatMap Prod.snd = stream path entries := rfl
    rw [stretch, hs, List.cons_append, collect, visit_directory, sightsOf_directory, passThen]
    simp only [faultAt?, Node.kind, visit_directory, pure_bind, Option.toList_none, List.nil_append,
      bind_pure]
    cases hf : FileSystem.listingFault? path readable with
    | some fault => rfl
    | none =>
      simp only
      rw [stream_eq_flatMap, sightsBelow_eq_flatMap]
      exact collect_flatMap fs rules root path (fun e he => ih e (mem_sortByKey.mp he)) items

theorem collect_stream (directory : Path) (entries : List (Name × Node)) :
    collect fs rules root (stream directory entries) =
      pass .stream fs rules root (sightsBelow directory entries) := by
  have h := collect_flatMap fs rules root directory
    (fun e (_ : e ∈ sortByKey entries) => collect_stretch fs rules root e.2) []
  rw [List.append_nil] at h
  rw [stream_eq_flatMap, h, sightsBelow_eq_flatMap]
  rfl

/-! ## The stack -/

/-- What lies ahead of a stack, from its top down. -/
def ahead (stack : List Pending) : List Sight := stack.flatMap fun p => sightsOf p.path p.node

theorem ahead_cons (p : Pending) (stack : List Pending) :
    ahead (p :: stack) = sightsOf p.path p.node ++ ahead stack := List.flatMap_cons

theorem ahead_batch (directory : Path) (entries : List (Name × Node)) (stack : List Pending) :
    ahead (batch directory entries ++ stack) = sightsBelow directory entries ++ ahead stack := by
  rw [ahead, List.flatMap_append, batch, List.flatMap_map, sightsBelow_eq_flatMap, ahead]

theorem drain_eq_pass (accepted : List Path) (stack : List Pending) :
    drain fs rules root accepted stack =
      (accepted ++ ·) <$> pass .listing fs rules root (ahead stack) := by
  fun_induction drain fs rules root accepted stack with
  | case1 accepted => simp [ahead, pass, passThen]
  | case2 accepted path readable entries stack fault hf =>
    rw [ahead_cons, sightsOf_directory, List.cons_append, pass, passThen]
    simp only [faultAt?, hf]
    rfl
  | case3 accepted path readable entries stack hf ih =>
    rw [ih, ahead_batch, ahead_cons, sightsOf_directory, List.cons_append, pass, pass]
    simp only [passThen, faultAt?, hf, Node.kind, visit_directory, pure_bind, Option.toList_none,
      List.nil_append, bind_pure]
  | case4 accepted path node stack hnd ih =>
    rw [ahead_cons, sightsOf_other path hnd, List.singleton_append, pass, passThen]
    simp only [ih, faultAt?_other path hnd, pass, map_eq_pure_bind, bind_assoc, pure_bind,
      List.append_assoc]

/-! ## Both forms -/

/-- How a form says that it came upon a directory that cannot be listed. -/
def encounterOf : Form → Encounter
  | .blocking => .stream
  | .suspending => .listing

theorem run_of_fault {fault : FileSystem.Fault} (form : Form) (h : fs.list root = .error fault) :
    run form fs rules root = Logged.fail (.walk root .listing fault) := by
  cases form with
  | blocking => simp [run, blocking, h]
  | suspending => simp [run, suspending, h]

theorem run_eq_pass {entries : List (Name × Node)} (form : Form) (h : fs.list root = .ok entries) :
    run form fs rules root =
      pass (encounterOf form) fs rules root (sightsBelow root entries) := by
  cases form with
  | blocking =>
    simp only [run, blocking, h]
    exact collect_stream fs rules root root entries
  | suspending =>
    have ha := ahead_batch root entries []
    rw [List.append_nil] at ha
    simp only [run, suspending, h]
    rw [drain_eq_pass, ha]
    simp [ahead, encounterOf]

end ProjectScope.Walk
