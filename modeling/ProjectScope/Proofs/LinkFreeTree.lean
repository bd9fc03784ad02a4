import ProjectScope.Proofs.FailingFolds
import ProjectScope.Proofs.PathAncestors
import ProjectScope.Proofs.SoundTree

/-! # Paths in a tree without links

Without links, to follow a path is to make one move after the other (`follow_eq_foldlM`). So a path
leads where its steps lead in the tree (`place?_of_resolve`), and if the file system does not follow
it there, it is because it withholds it: a directory may not be searched, or a limit is passed
(`resolve_of_place?`). -/
namespace ProjectScope

/-- There are no links in the tree. -/
inductive Node.LinkFree : Node → Prop
  | file (content readable) : LinkFree (.file content readable)
  | fifo : LinkFree .fifo
  | directory {readable entries} : (∀ e ∈ entries, LinkFree e.2) →
      LinkFree (.directory readable entries)

namespace FileSystem

open ProjectScope.Path (Component)

def LinkFree (fs : FileSystem) : Prop := fs.root.LinkFree

/-- The fault does not tell that something is not there, only that it may not be looked at. -/
def Fault.Withholds (fault : Fault) : Prop :=
  fault = .permissionDenied ∨ fault = .nameTooLong ∨ fault = .invalidPath

/-- The component that a move comes from, if it leads up or down. -/
def Move.component? : Move → Option Component
  | up => some .up
  | enter n => some (.name n)
  | stay | inDirectory => none

/-- Makes one move. A link is entered like any other node. -/
def move (fs : FileSystem) (trail : Trail) (m : Move) : Except Fault Trail :=
  match fs.nodeAt trail with
  | .directory searchable entries =>
    if m ≠ .inDirectory ∧ searchable = false then .error .permissionDenied
    else
      match m with
      | .stay | .inDirectory => .ok trail
      | .up => .ok trail.tail
      | .enter n =>
        if nameLimit < n.length then .error .nameTooLong
        else
          match entries.lookup n with
          | none => .error .notFound
          | some node => .ok ((n, node) :: trail)
  | _ => .error .notADirectory

/-- Where a component leads in the tree, whether or not the file system goes there. -/
def stepTo? (fs : FileSystem) (trail : Trail) (c : Component) : Option Trail :=
  match fs.nodeAt trail with
  | .directory _ entries =>
    match c with
    | .up => some trail.tail
    | .name n => (entries.lookup n).map fun node => (n, node) :: trail
    | .root | .here => some trail
  | _ => none

/-- Where components lead in the tree, one after the other. -/
def place? (fs : FileSystem) (trail : Trail) (cs : List Component) : Option Trail :=
  cs.foldlM fs.stepTo? trail

variable {fs : FileSystem}

theorem place?_append (trail : Trail) (xs ys : List Component) :
    fs.place? trail (xs ++ ys) = (fs.place? trail xs).bind fun t => fs.place? t ys :=
  List.foldlM_append

theorem place?_append_eq_some {trail trail' : Trail} {xs ys : List Component} :
    fs.place? trail (xs ++ ys) = some trail' ↔
      ∃ t, fs.place? trail xs = some t ∧ fs.place? t ys = some trail' := by
  rw [place?_append, Option.bind_eq_some_iff]

theorem place?_cons_eq_some {trail trail' : Trail} {c : Component} {cs : List Component} :
    fs.place? trail (c :: cs) = some trail' ↔
      ∃ t, fs.stepTo? trail c = some t ∧ fs.place? t cs = some trail' := by
  rw [place?, List.foldlM_cons]
  exact Option.bind_eq_some_iff

theorem directory_of_stepTo? {trail trail' : Trail} {c : Component}
    (h : fs.stepTo? trail c = some trail') :
    ∃ searchable entries, fs.nodeAt trail = .directory searchable entries := by
  unfold stepTo? at h
  cases hd : fs.nodeAt trail with
  | directory searchable entries => exact ⟨_, _, rfl⟩
  | file content readable => simp [hd] at h
  | fifo => simp [hd] at h
  | link target => simp [hd] at h

/-! ## Moves -/

theorem directory_of_move {trail trail' : Trail} {m : Move} (h : fs.move trail m = .ok trail') :
    ∃ searchable entries, fs.nodeAt trail = .directory searchable entries ∧
      ¬ (m ≠ .inDirectory ∧ searchable = false) := by
  unfold move at h
  cases hd : fs.nodeAt trail with
  | directory searchable entries =>
    refine ⟨_, _, rfl, ?_⟩
    intro hs
    simp only [hd, if_pos hs] at h
    cases h
  | file content readable => simp [hd] at h
  | fifo => simp [hd] at h
  | link target => simp [hd] at h

/-- A move that is made leads where its component leads. -/
theorem place?_of_move {trail trail' : Trail} {m : Move} (h : fs.move trail m = .ok trail') :
    fs.place? trail m.component?.toList = some trail' := by
  obtain ⟨searchable, entries, hd, hs⟩ := directory_of_move h
  unfold move at h
  simp only [hd, if_neg hs] at h
  cases m with
  | inDirectory =>
    cases h
    rfl
  | stay =>
    cases h
    rfl
  | up =>
    cases h
    simp [Move.component?, place?, stepTo?, hd]
  | enter n =>
    dsimp only at h
    split at h
    · cases h
    · split at h
      · cases h
      · next hl =>
        cases h
        simp [Move.component?, place?, stepTo?, hd, hl]

theorem filterMap_component?_cons (m : Move) (moves : List Move) :
    (m :: moves).filterMap Move.component? =
      m.component?.toList ++ moves.filterMap Move.component? := by
  rw [List.filterMap_cons]
  cases m.component? <;> rfl

theorem place?_of_moves {moves : List Move} : ∀ {trail trail' : Trail},
    moves.foldlM fs.move trail = .ok trail' →
      fs.place? trail (moves.filterMap Move.component?) = some trail' := by
  induction moves with
  | nil =>
    intro trail trail' h
    cases h
    rfl
  | cons m moves ih =>
    intro trail trail' h
    obtain ⟨t, hm, h⟩ := foldlM_cons_eq_ok.mp h
    rw [filterMap_component?_cons, place?_append_eq_some]
    exact ⟨t, place?_of_move hm, ih h⟩

/-- Where there is a directory, a move that has a place to lead to is made or withheld. -/
theorem move_of_place? {trail trail' : Trail} {m : Move} {searchable : Bool}
    {entries : List (Name × Node)} (hd : fs.nodeAt trail = .directory searchable entries)
    (h : fs.place? trail m.component?.toList = some trail') :
    fs.move trail m = .ok trail' ∨ ∃ fault, fs.move trail m = .error fault ∧ fault.Withholds := by
  by_cases hs : m ≠ .inDirectory ∧ searchable = false
  · exact .inr ⟨.permissionDenied, by simp only [move, hd, if_pos hs], .inl rfl⟩
  simp only [move, hd, if_neg hs]
  cases m with
  | inDirectory =>
    cases h
    exact .inl rfl
  | stay =>
    cases h
    exact .inl rfl
  | up =>
    simp only [Move.component?, place?, stepTo?, hd, Option.toList_some, List.foldlM_cons,
      List.foldlM_nil, bind_pure, Option.some.injEq] at h
    exact .inl (congrArg _ h)
  | enter n =>
    simp only [Move.component?, place?, stepTo?, hd, Option.toList_some, List.foldlM_cons,
      List.foldlM_nil, bind_pure, Option.map_eq_some_iff] at h
    obtain ⟨node, hl, rfl⟩ := h
    by_cases hlong : nameLimit < n.length
    · exact .inr ⟨.nameTooLong, by simp only [if_pos hlong], .inr (.inl rfl)⟩
    · exact .inl (by simp only [if_neg hlong, hl])

theorem directory_of_place? {trail trail' : Trail} {cs : List Component} (hne : cs ≠ [])
    (h : fs.place? trail cs = some trail') :
    ∃ searchable entries, fs.nodeAt trail = .directory searchable entries := by
  cases cs with
  | nil => exact absurd rfl hne
  | cons c cs =>
    obtain ⟨t, hstep, -⟩ := place?_cons_eq_some.mp h
    exact directory_of_stepTo? hstep

/-- Moves that end by entering a name: there is a directory wherever one of them is made. -/
theorem moves_of_place? {n : Name} {moves : List Move} : ∀ {trail trail' : Trail},
    fs.place? trail (moves.filterMap Move.component? ++ [.name n]) = some trail' →
      (moves ++ [Move.enter n]).foldlM fs.move trail = .ok trail' ∨
        ∃ fault, (moves ++ [Move.enter n]).foldlM fs.move trail = .error fault ∧
          fault.Withholds := by
  have hone : ∀ {m : Move} {moves : List Move} {trail : Trail} {fault : Fault},
      fs.move trail m = .error fault → (m :: moves).foldlM fs.move trail = .error fault := by
    intro m moves trail fault he
    rw [List.foldlM_cons, he]
    rfl
  induction moves with
  | nil =>
    intro trail trail' h
    obtain ⟨searchable, entries, hd⟩ := directory_of_place? (by simp) h
    rcases move_of_place? (m := .enter n) hd h with hm | ⟨fault, hm, hw⟩
    · exact .inl (foldlM_cons_eq_ok.mpr ⟨trail', hm, rfl⟩)
    · exact .inr ⟨fault, hone hm, hw⟩
  | cons m moves ih =>
    intro trail trail' h
    obtain ⟨searchable, entries, hd⟩ := directory_of_place? (by simp) h
    rw [filterMap_component?_cons, List.append_assoc, place?_append_eq_some] at h
    obtain ⟨t, hstep, h⟩ := h
    rcases move_of_place? hd hstep with hm | ⟨fault, hm, hw⟩
    · rcases ih h with hrest | ⟨fault, hrest, hw⟩
      · exact .inl (foldlM_cons_eq_ok.mpr ⟨t, hm, hrest⟩)
      · refine .inr ⟨fault, ?_, hw⟩
        rw [List.cons_append, List.foldlM_cons, hm]
        exact hrest
    · exact .inr ⟨fault, hone hm, hw⟩

/-! ## Following a path -/

theorem LinkFree.of_mem {readable : Bool} {entries : List (Name × Node)}
    (h : (Node.directory readable entries).LinkFree) : ∀ e ∈ entries, e.2.LinkFree := by
  cases h with
  | directory h => exact h

/-- Without links, moves are made one after the other. -/
theorem makeMoves_eq_foldlM (hfree : fs.LinkFree)
    (followLink : Trail → Bytes → List Move → Except Fault Trail) {moves : List Move} :
    ∀ {trail : Trail}, (∀ step ∈ trail, step.2.LinkFree) →
      fs.makeMoves followLink trail moves = moves.foldlM fs.move trail := by
  induction moves with
  | nil => exact fun _ => rfl
  | cons m moves ih =>
    intro trail ht
    have hnode := nodeAt_keeps hfree ht
    rw [makeMoves, List.foldlM_cons, move]
    cases hd : fs.nodeAt trail with
    | file content readable => rfl
    | fifo => rfl
    | link target => rfl
    | directory searchable entries =>
      rw [hd] at hnode
      by_cases hm : m = .inDirectory
      · subst hm
        exact ih ht
      · cases searchable with
        | false =>
          simp only [hm, ne_eq, not_false_eq_true, and_self, if_true, if_false, Bool.not_false]
          rfl
        | true =>
          simp only [hm, Bool.not_true, Bool.true_eq_false, Bool.false_eq_true, and_false, if_false]
          cases m with
          | inDirectory => exact absurd rfl hm
          | stay => exact ih ht
          | up => exact ih fun step hs => ht step (List.mem_of_mem_tail hs)
          | enter n =>
            dsimp only
            split
            · rfl
            · cases hl : entries.lookup n with
              | none => rfl
              | some node =>
                obtain ⟨l, r, he, -⟩ := List.lookup_eq_some_iff.mp hl
                have hfree' : node.LinkFree := LinkFree.of_mem hnode (n, node) (by simp [he])
                have hnext : fs.makeMoves followLink ((n, node) :: trail) moves = _ :=
                  ih (List.forall_mem_cons.mpr ⟨hfree', ht⟩)
                cases hfree' <;> exact hnext

theorem follow_eq_foldlM (hfree : fs.LinkFree) (links : Nat) {moves : List Move} {trail : Trail}
    (ht : ∀ step ∈ trail, step.2.LinkFree) :
    fs.follow links trail moves = moves.foldlM fs.move trail := by
  cases links with
  | zero => exact makeMoves_eq_foldlM hfree _ ht
  | succ links => exact makeMoves_eq_foldlM hfree _ ht

theorem resolve_eq_ok_iff (hfree : fs.LinkFree) {p : Path} {start : Trail}
    (hstart : fs.start? p = some start) {trail : Trail} : fs.resolve p = .ok trail ↔
      IsRequest p.text ∧ (movesOf p.text).foldlM fs.move start = .ok trail := by
  have hf : fs.follow linkLimit start (movesOf p.text) = (movesOf p.text).foldlM fs.move start :=
    follow_eq_foldlM hfree linkLimit
      (start?_keeps (P := Node.LinkFree) (fun _ _ h => LinkFree.of_mem h) hfree hstart)
  rw [resolve_eq_ok, ← hf]
  simp [hstart]

theorem isFile_of_resolve {p : Path} {trail : Trail} (h : fs.resolve p = .ok trail) :
    fs.isFile p = (fs.nodeAt trail).isFile := by
  simp [isFile, node, h, Except.map]

theorem exists_resolve_of_isFile {p : Path} (h : fs.isFile p = true) :
    ∃ trail, fs.resolve p = .ok trail ∧ (fs.nodeAt trail).isFile = true := by
  cases hr : fs.resolve p with
  | error fault => simp [isFile, node, hr, Except.map] at h
  | ok trail => exact ⟨trail, rfl, by rwa [isFile_of_resolve hr] at h⟩

/-- The moves that a path asks for lead where its steps do. -/
theorem component?_moveOf? (segment : Bytes) :
    (moveOf? segment).bind Move.component? = Component.ofSegment? segment := by
  unfold moveOf? Component.ofSegment?
  by_cases hn : segment = []
  · simp [hn]
  by_cases hd : segment = Path.dot
  · subst hd
    rfl
  by_cases hu : segment = Path.dotDot
  · subst hu
    rfl
  simp [hn, hd, hu, Move.component?]

theorem movesOf_component? (p : Path) :
    (movesOf p.text).filterMap Move.component? = p.steps := by
  have hend : (if p.text.getLast? = some Path.separator then [Move.inDirectory] else []).filterMap
      Move.component? = [] := by
    split <;> rfl
  rw [movesOf, List.filterMap_append, hend, List.append_nil, List.filterMap_filterMap,
    Path.steps_eq_filterMap]
  exact List.filterMap_congr fun piece _ => component?_moveOf? piece.1

/-- A path leads where its steps lead in the tree. -/
theorem place?_of_resolve (hfree : fs.LinkFree) {p : Path} {start : Trail}
    (hstart : fs.start? p = some start) {trail : Trail} (h : fs.resolve p = .ok trail) :
    fs.place? start p.steps = some trail := by
  have hmoves := place?_of_moves ((resolve_eq_ok_iff hfree hstart).mp h).2
  rwa [movesOf_component?] at hmoves

/-- The moves of a path below a path end by entering the name. -/
theorem movesOf_joinName (p : Path) {n : Name} (hn : Path.IsName n) :
    ∃ moves, movesOf (p.joinName n).text = moves ++ [.enter n] ∧
      moves.filterMap Move.component? = p.steps := by
  have hmoves : movesOf (p.joinName n).text = segmentMoves p.text ++ [.enter n] := by
    rw [movesOf, if_neg (p.getLast?_text_joinName hn), List.append_nil, ← segmentMoves,
      segmentMoves_joinName p hn]
  refine ⟨_, hmoves, ?_⟩
  have hsteps := movesOf_component? (p.joinName n)
  rw [hmoves, List.filterMap_append, Path.steps, Path.components_joinName p hn, List.filter_append]
    at hsteps
  exact List.append_cancel_right hsteps

/-- The file system follows a path to a name that is there in the tree, or withholds it. -/
theorem resolve_of_place? (hfree : fs.LinkFree) {p : Path} (ha : p.isAbsolute = true) {n : Name} (hn : Path.IsName n) {trail : Trail}
    (h : fs.place? [] (p.steps ++ [.name n]) = some trail) :
    fs.resolve (p.joinName n) = .ok trail ∨
      ∃ fault, fs.resolve (p.joinName n) = .error fault ∧ fault.Withholds := by
  obtain ⟨moves, hmoves, hsteps⟩ := movesOf_joinName p hn
  obtain ⟨ha', -⟩ := Path.steps_of_components_append ha (Path.components_joinName p hn)
  have hfollow : fs.follow linkLimit [] (movesOf (p.joinName n).text) =
      (moves ++ [Move.enter n]).foldlM fs.move [] := by
    rw [hmoves]
    exact follow_eq_foldlM hfree linkLimit (by simp)
  rw [resolve, start?_of_isAbsolute ha', if_neg (Path.text_ne_nil ha')]
  dsimp only
  rw [hfollow]
  split
  · exact .inr ⟨.invalidPath, rfl, .inr (.inr rfl)⟩
  split
  · exact .inr ⟨.nameTooLong, rfl, .inr (.inl rfl)⟩
  · exact moves_of_place? (hsteps ▸ h)

/-! ## The working directory -/

theorem place?_of_descend? {names : List Name} : ∀ {trail trail' : Trail},
    descend? trail (fs.nodeAt trail) names = some trail' →
      fs.place? trail (names.map .name) = some trail' := by
  induction names with
  | nil => exact fun h => h
  | cons n names ih =>
    intro trail trail' h
    rw [descend?] at h
    cases hd : fs.nodeAt trail with
    | file content readable => simp [hd, Node.entry?] at h
    | fifo => simp [hd, Node.entry?] at h
    | link target => simp [hd, Node.entry?] at h
    | directory searchable entries =>
      rw [hd, Node.entry?] at h
      cases hl : entries.lookup n with
      | none => simp [hl] at h
      | some child =>
        simp only [hl] at h
        rw [List.map_cons, place?_cons_eq_some]
        exact ⟨(n, child) :: trail, by simp [stepTo?, hd, hl], ih h⟩

theorem isName_of_descend? {names : List Name} : ∀ {trail trail' : Trail} {node : Node},
    node.Sound → descend? trail node names = some trail' → ∀ n ∈ names, Path.IsName n := by
  induction names with
  | nil => simp
  | cons n names ih =>
    intro trail trail' node hs h
    rw [descend?] at h
    cases node with
    | file content readable => simp [Node.entry?] at h
    | fifo => simp [Node.entry?] at h
    | link target => simp [Node.entry?] at h
    | directory searchable entries =>
      rw [Node.entry?] at h
      cases hl : entries.lookup n with
      | none => simp [hl] at h
      | some child =>
        simp only [hl] at h
        obtain ⟨l, r, he, -⟩ := List.lookup_eq_some_iff.mp hl
        have hm : (n, child) ∈ entries := by simp [he]
        cases hs with
        | directory _ hnames hall =>
          exact List.forall_mem_cons.mpr ⟨hnames _ hm, ih (hall _ hm) h⟩

theorem place?_cwdPath (hs : fs.Sound) {cwd : Trail} (hcwd : fs.cwdTrail? = some cwd) :
    fs.place? [] fs.cwdPath.steps = some cwd := by
  have hc := Path.components_ofNames (isName_of_descend? hs hcwd)
  rw [Path.components_of_isAbsolute (Path.isAbsolute_of_components hc)] at hc
  exact (List.cons_eq_cons.mp hc).2 ▸ place?_of_descend? hcwd

/-- The absolute form of a path leads, in the tree, where the path leads. -/
theorem place?_absolute? (hs : fs.Sound) (hfree : fs.LinkFree) {p q : Path} {trail : Trail}
    (h : fs.resolve p = .ok trail) (hq : Path.absolute? fs.cwdPath p = some q) :
    q.isAbsolute = true ∧ fs.place? [] q.steps = some trail := by
  obtain ⟨hqa, hsteps⟩ := Path.steps_of_absolute? (Path.isAbsolute_ofNames fs.cwd) hq
  refine ⟨hqa, ?_⟩
  rw [hsteps]
  by_cases habs : p.isAbsolute = true
  · rw [if_pos habs, List.nil_append, place?_of_resolve hfree (start?_of_isAbsolute habs) h]
  · obtain ⟨-, cwd, hstart, -⟩ := resolve_eq_ok.mp h
    have hcwd : fs.cwdTrail? = some cwd := by rwa [start?, if_neg habs] at hstart
    rw [if_neg habs, place?_append_eq_some]
    exact ⟨cwd, place?_cwdPath hs hcwd, place?_of_resolve hfree hstart h⟩

end FileSystem

end ProjectScope
