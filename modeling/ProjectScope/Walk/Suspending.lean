import ProjectScope.Text.Order
import ProjectScope.Walk.Visit

/-!
The walk as a loop that may be suspended at every directory. What is still to be visited stands on a
stack; a directory is taken off it and its entries are put on it in its place, sorted by name. The
nodes on the stack, counted with all beneath them, grow fewer with every round.
-/

namespace ProjectScope

mutual

/-- How many nodes there are from a node downward. -/
def Node.size : Node → Nat
  | .directory _ entries => 1 + Node.sizeOfEntries entries
  | .file _ _ | .fifo | .link _ => 1

def Node.sizeOfEntries : List (Name × Node) → Nat
  | [] => 0
  | (_, node) :: entries => node.size + Node.sizeOfEntries entries

end

namespace Walk

/-- An entry still to be visited. -/
structure Pending where
  path : Path
  node : Node

/-- How many nodes a stack holds, with all beneath them. -/
def sizeOfStack : List Pending → Nat
  | [] => 0
  | p :: stack => p.node.size + sizeOfStack stack

def batch (directory : Path) (entries : List (Name × Node)) : List Pending :=
  (sortByKey entries).map fun (n, node) => ⟨directory.joinName n, node⟩

theorem sizeOfStack_append (xs ys : List Pending) :
    sizeOfStack (xs ++ ys) = sizeOfStack xs + sizeOfStack ys := by
  induction xs with
  | nil => simp [sizeOfStack]
  | cons x xs ih =>
    rw [List.cons_append, sizeOfStack, sizeOfStack, ih, Nat.add_assoc]

theorem sizeOfEntries_perm {xs ys : List (Name × Node)} (h : xs.Perm ys) :
    Node.sizeOfEntries xs = Node.sizeOfEntries ys := by
  induction h with
  | nil => rfl
  | cons x _ ih => rw [Node.sizeOfEntries, Node.sizeOfEntries, ih]
  | swap x y xs =>
    simp only [Node.sizeOfEntries]
    omega
  | trans _ _ ih ih' => exact ih.trans ih'

theorem sizeOfStack_batch (directory : Path) (entries : List (Name × Node)) :
    sizeOfStack (batch directory entries) = Node.sizeOfEntries entries := by
  have hm : ∀ es : List (Name × Node),
      sizeOfStack (es.map fun (n, node) => ⟨directory.joinName n, node⟩) =
        Node.sizeOfEntries es := by
    intro es
    induction es with
    | nil => rfl
    | cons e es ih => rw [List.map_cons, sizeOfStack, ih, Node.sizeOfEntries]
  rw [batch, hm, sizeOfEntries_perm (sortByKey_perm entries)]

theorem size_pos (node : Node) : 0 < node.size := by
  cases node with
  | directory readable entries =>
    rw [Node.size]
    omega
  | file content readable => exact Nat.one_pos
  | fifo => exact Nat.one_pos
  | link target => exact Nat.one_pos

/-- Visits what is on a stack, from the top down. `accepted` holds the files found before. -/
def drain (fs : FileSystem) (rules : Rules) (root : Path) (accepted : List Path) :
    (stack : List Pending) → Logged (List Path)
  | [] => pure accepted
  | ⟨path, .directory readable entries⟩ :: stack =>
    match FileSystem.listingFault? path readable with
    | some fault => Logged.fail (.walk path .listing fault)
    | none => drain fs rules root accepted (batch path entries ++ stack)
  | ⟨path, node⟩ :: stack => do
    let found ← visit fs rules root path node.kind
    drain fs rules root (accepted ++ found.toList) stack
termination_by stack => sizeOfStack stack
decreasing_by
  · rw [sizeOfStack_append, sizeOfStack_batch, sizeOfStack, Node.size]
    omega
  · have h := size_pos node
    show sizeOfStack stack < node.size + sizeOfStack stack
    omega

/-- The files in scope below a root. -/
def suspending (fs : FileSystem) (rules : Rules) (root : Path) : Logged (List Path) :=
  match fs.list root with
  | .error fault => Logged.fail (.walk root .listing fault)
  | .ok entries => drain fs rules root [] (batch root entries)

end Walk

end ProjectScope
