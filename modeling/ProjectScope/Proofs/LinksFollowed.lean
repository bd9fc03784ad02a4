import ProjectScope.FileSystem.Resolve
import ProjectScope.Proofs.PathBelow

/-! # Paths that go on where others end

A move leads to a trail, comes upon a link, or fails; how links are followed and what is still to be
done does not change which (`moveEnds`), and so with several moves (`ends`). A path that goes on
from where another path leads is therefore followed from there, with the links that the other has
left over (`follow_append`). If the limit on links is not what stops a path, further links change
nothing (`follow_more`). -/
namespace ProjectScope.FileSystem

variable {fs : FileSystem}

abbrev FollowLink := Trail → Bytes → List Move → Except Fault Trail

/-! ## One move -/

/-- How a move from a trail ends, whatever comes after it. -/
inductive MoveEnds (fs : FileSystem) (trail : Trail) (m : Move) : Prop
  /-- Every step of the trail led to is a step of the trail before, or an entry where that ends. -/
  | there (t : Trail) : (∀ (followLink : FollowLink) rest,
      fs.makeMoves followLink trail (m :: rest) = fs.makeMoves followLink t rest) →
      (∀ step ∈ t, step ∈ trail ∨ ∃ searchable entries,
        fs.nodeAt trail = .directory searchable entries ∧ step ∈ entries) → MoveEnds fs trail m
  | link (target : Bytes) : (∀ (followLink : FollowLink) rest,
      fs.makeMoves followLink trail (m :: rest) = followLink trail target rest) →
      MoveEnds fs trail m
  | fault (fault : Fault) : (∀ (followLink : FollowLink) rest,
      fs.makeMoves followLink trail (m :: rest) = .error fault) → MoveEnds fs trail m

theorem moveEnds (fs : FileSystem) (trail : Trail) (m : Move) : MoveEnds fs trail m := by
  cases hd : fs.nodeAt trail with
  | file content readable => exact .fault .notADirectory fun _ _ => by simp [makeMoves, hd]
  | fifo => exact .fault .notADirectory fun _ _ => by simp [makeMoves, hd]
  | link target => exact .fault .notADirectory fun _ _ => by simp [makeMoves, hd]
  | directory searchable entries =>
    by_cases hm : m = .inDirectory
    · exact .there trail (fun _ _ => by simp [makeMoves, hd, hm]) fun _ hs => .inl hs
    cases searchable with
    | false => exact .fault .permissionDenied fun _ _ => by simp [makeMoves, hd, hm]
    | true =>
      cases m with
      | inDirectory => exact absurd rfl hm
      | stay => exact .there trail (fun _ _ => by simp [makeMoves, hd]) fun _ hs => .inl hs
      | up =>
        exact .there trail.tail (fun _ _ => by simp [makeMoves, hd])
          fun _ hs => .inl (List.mem_of_mem_tail hs)
      | enter name =>
        by_cases hlong : nameLimit < name.length
        · exact .fault .nameTooLong fun _ _ => by simp [makeMoves, hd, hlong]
        cases hl : entries.lookup name with
        | none => exact .fault .notFound fun _ _ => by simp [makeMoves, hd, hlong, hl]
        | some node =>
          obtain ⟨before, after, he, -⟩ := List.lookup_eq_some_iff.mp hl
          have hentered : ∀ step ∈ (name, node) :: trail, step ∈ trail ∨
              ∃ searchable entries, fs.nodeAt trail = .directory searchable entries ∧
                step ∈ entries := by
            intro step hs
            rcases List.mem_cons.mp hs with rfl | hs
            · exact .inr ⟨true, entries, hd, by simp [he]⟩
            · exact .inl hs
          cases node with
          | link target => exact .link target fun _ _ => by simp [makeMoves, hd, hlong, hl]
          | file content readable =>
            exact .there _ (fun _ _ => by simp [makeMoves, hd, hlong, hl]) hentered
          | fifo => exact .there _ (fun _ _ => by simp [makeMoves, hd, hlong, hl]) hentered
          | directory readable inner =>
            exact .there _ (fun _ _ => by simp [makeMoves, hd, hlong, hl]) hentered

/-! ## Moves one after the other -/

/-- How moves from a trail end, whatever comes after them. -/
inductive Ends (fs : FileSystem) (trail : Trail) (moves : List Move) : Prop
  | there (t : Trail) : (∀ (followLink : FollowLink) rest,
      fs.makeMoves followLink trail (moves ++ rest) = fs.makeMoves followLink t rest) →
      Ends fs trail moves
  /-- A link is come upon, with moves left to make. -/
  | link (directory : Trail) (target : Bytes) (left : List Move) :
      (∀ (followLink : FollowLink) rest, fs.makeMoves followLink trail (moves ++ rest) =
        followLink directory target (left ++ rest)) → Ends fs trail moves
  | fault (fault : Fault) : (∀ (followLink : FollowLink) rest,
      fs.makeMoves followLink trail (moves ++ rest) = .error fault) → Ends fs trail moves

theorem ends (fs : FileSystem) (moves : List Move) : ∀ trail : Trail, Ends fs trail moves := by
  induction moves with
  | nil => exact fun trail => .there trail fun _ _ => rfl
  | cons m moves ih =>
    intro trail
    cases moveEnds fs trail m with
    | link target h => exact .link trail target moves fun _ _ => h _ _
    | fault fault h => exact .fault fault fun _ _ => h _ _
    | there t h _ =>
      cases ih t with
      | there t' h' => exact .there t' fun _ _ => (h _ _).trans (h' _ _)
      | link directory target left h' =>
        exact .link directory target left fun _ _ => (h _ _).trans (h' _ _)
      | fault fault h' => exact .fault fault fun _ _ => (h _ _).trans (h' _ _)

/-! ## Following links -/

/-- What is done at a link, with so many links still to be followed. -/
def onLink (fs : FileSystem) : (links : Nat) → FollowLink
  | 0 => fun _ _ _ => .error .linkLoop
  | links + 1 => fun trail target moves =>
      fs.follow links (startOf trail target) (movesOf target ++ moves)

theorem onLink_succ (links : Nat) (trail : Trail) (target : Bytes) (moves : List Move) :
    onLink fs (links + 1) trail target moves =
      fs.follow links (startOf trail target) (movesOf target ++ moves) := rfl

theorem follow_eq_makeMoves (links : Nat) : fs.follow links = fs.makeMoves (onLink fs links) := by
  cases links <;> rfl

/-- A path that leads to a trail can be gone on from there with the links it leaves over. -/
theorem follow_append (links : Nat) {trail t : Trail} {moves : List Move}
    (h : fs.follow links trail moves = .ok t) : ∃ left, ∀ more rest,
      fs.follow (links + more) trail (moves ++ rest) = fs.follow (left + more) t rest := by
  rw [follow_eq_makeMoves, ← List.append_nil moves] at h
  cases ends fs moves trail with
  | there t' hend =>
    rw [hend] at h
    cases h
    exact ⟨links, fun more rest => by rw [follow_eq_makeMoves, hend]⟩
  | link directory target left hend =>
    rw [hend] at h
    cases links with
    | zero => cases h
    | succ links =>
      -- The target of the link and the moves after it are one path with a link less to follow.
      obtain ⟨spare, hspare⟩ := follow_append links h
      refine ⟨spare, ?_⟩
      intro more rest
      rw [← hspare, follow_eq_makeMoves, hend, Nat.succ_add, onLink_succ, List.append_nil,
        List.append_assoc]
  | fault fault hend =>
    rw [hend] at h
    cases h

/-- If the limit is not what stops a path, it leads to the same with more links to follow. -/
theorem follow_more (links : Nat) {trail : Trail} {moves : List Move}
    (h : fs.follow links trail moves ≠ .error .linkLoop) (more : Nat) :
    fs.follow (links + more) trail moves = fs.follow links trail moves := by
  rw [follow_eq_makeMoves, ← List.append_nil moves] at h ⊢
  rw [follow_eq_makeMoves]
  cases ends fs moves trail with
  | there t hend => rw [hend, hend]; rfl
  | link directory target left hend =>
    rw [hend] at h
    rw [hend, hend]
    cases links with
    | zero => exact absurd rfl h
    | succ links =>
      rw [Nat.succ_add]
      exact follow_more links h more
  | fault fault hend => rw [hend, hend]

/-- A path goes on from a directory or fails, so to ask for a directory before asks for nothing. -/
theorem makeMoves_inDirectory (followLink : FollowLink) (trail : Trail) (m : Move)
    (rest : List Move) : fs.makeMoves followLink trail (.inDirectory :: m :: rest) =
      fs.makeMoves followLink trail (m :: rest) := by
  cases hd : fs.nodeAt trail <;> simp [makeMoves, hd]

theorem follow_inDirectory (links : Nat) (trail : Trail) (moves : List Move) (m : Move)
    (rest : List Move) : fs.follow links trail (moves ++ .inDirectory :: m :: rest) =
      fs.follow links trail (moves ++ m :: rest) := by
  rw [follow_eq_makeMoves]
  cases ends fs moves trail with
  | there t hend => rw [hend, hend, makeMoves_inDirectory]
  | link directory target left hend =>
    rw [hend, hend]
    cases links with
    | zero => rfl
    | succ links =>
      rw [onLink_succ, onLink_succ, ← List.append_assoc, ← List.append_assoc]
      exact follow_inDirectory links _ _ m rest
  | fault fault hend => rw [hend, hend]

/-! ## Paths below a path -/

/-- The moves that the segments of a path ask for. -/
def segmentMoves (text : Bytes) : List Move :=
  (Path.cut [] [] text).filterMap fun segment => moveOf? segment.1

theorem segmentMoves_joinName (p : Path) {n : Name} (hn : Path.IsName n) :
    segmentMoves (p.joinName n).text = segmentMoves p.text ++ [.enter n] := by
  have hmove : moveOf? n = some (.enter n) := by
    simp [moveOf?, hn.ne_nil, hn.ne_dot, hn.ne_dotDot]
  obtain ⟨xs, ys, hp, hys, hq, -⟩ := Path.cut_join_segment p hn.no_separator
  have hgone : ys.filterMap (fun segment => moveOf? segment.1) = [] := by
    rcases hys with rfl | rfl <;> rfl
  rw [segmentMoves, segmentMoves, Path.joinName, hp, hq, List.filterMap_append,
    List.filterMap_append, hgone, List.append_nil]
  simp [hmove]

end ProjectScope.FileSystem
