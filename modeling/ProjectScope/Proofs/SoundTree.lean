import ProjectScope.Proofs.LinksFollowed
import ProjectScope.Proofs.TreeLayout

/-! # What a path leads to lies in the tree

A path is followed from the root or from the working directory, down through entries and up again,
and links only restart it. So whatever a tree has in all its parts, the node that a path leads to
has as well (`node_keeps`); in particular the entries that are listed come from a sound directory
when the tree is sound (`list_sound`). -/
namespace ProjectScope.FileSystem

/-- The tree keeps the rules of a file system. -/
def Sound (fs : FileSystem) : Prop := fs.root.Sound

instance (fs : FileSystem) : Decidable fs.Sound := inferInstanceAs (Decidable fs.root.Sound)

/-- A text that the file system takes for a path. -/
structure IsRequest (text : Bytes) : Prop where
  no_zero : text.contains 0 = false
  ne_nil : text ≠ []
  short : text.length < pathLimit

/-- A path that leads somewhere is followed there from the root or from the working directory. -/
theorem resolve_eq_ok {fs : FileSystem} {p : Path} {trail : Trail} : fs.resolve p = .ok trail ↔
    IsRequest p.text ∧ ∃ start, fs.start? p = some start ∧
      fs.follow linkLimit start (movesOf p.text) = .ok trail := by
  unfold resolve
  refine ⟨?_, ?_⟩
  · intro h
    split at h
    · cases h
    · next hz =>
      split at h
      · cases h
      · next he =>
        split at h
        · cases h
        · next hs =>
          refine ⟨⟨Bool.eq_false_iff.mpr hz, he, Nat.lt_of_not_le hs⟩, ?_⟩
          cases hstart : fs.start? p with
          | none => simp [hstart] at h
          | some start =>
            rw [hstart] at h
            exact ⟨start, rfl, h⟩
  · intro ⟨hr, start, hstart, h⟩
    rw [if_neg (Bool.eq_false_iff.mp hr.no_zero), if_neg hr.ne_nil,
      if_neg (Nat.not_le.mpr hr.short), hstart]
    exact h

theorem start?_of_isAbsolute {fs : FileSystem} {p : Path} (ha : p.isAbsolute = true) :
    fs.start? p = some [] := if_pos ha

section
variable {fs : FileSystem} {P : Node → Prop}

theorem nodeAt_keeps (hroot : P fs.root) {trail : Trail} (ht : ∀ step ∈ trail, P step.2) :
    P (fs.nodeAt trail) := by
  cases trail with
  | nil => exact hroot
  | cons step trail => exact ht step List.mem_cons_self

variable (hdown : ∀ readable entries, P (.directory readable entries) → ∀ e ∈ entries, P e.2)
include hdown

theorem descend?_keeps {names : List Name} : ∀ {trail node trail'}, P node →
    (∀ step ∈ trail, P step.2) → descend? trail node names = some trail' →
    ∀ step ∈ trail', P step.2 := by
  induction names with
  | nil =>
    intro trail node trail' _ ht h
    exact Option.some.inj h ▸ ht
  | cons n names ih =>
    intro trail node trail' hn ht h
    rw [descend?] at h
    cases he : node.entry? n with
    | none => simp [he] at h
    | some child =>
      have hc : P child := by
        cases node with
        | directory readable entries =>
          obtain ⟨l, r, hl, -⟩ := List.lookup_eq_some_iff.mp he
          exact hdown readable entries hn (n, child) (by simp [hl])
        | file content readable => cases he
        | fifo => cases he
        | link target => cases he
      simp only [he] at h
      exact ih hc (List.forall_mem_cons.mpr ⟨hc, ht⟩) h

theorem makeMoves_keeps (hroot : P fs.root)
    {followLink : Trail → Bytes → List Move → Except Fault Trail}
    (hlink : ∀ trail target moves trail', (∀ step ∈ trail, P step.2) →
      followLink trail target moves = .ok trail' → ∀ step ∈ trail', P step.2) (moves : List Move) :
    ∀ {trail trail'}, (∀ step ∈ trail, P step.2) →
      fs.makeMoves followLink trail moves = .ok trail' → ∀ step ∈ trail', P step.2 := by
  induction moves with
  | nil =>
    intro trail trail' ht h
    exact Except.ok.inj h ▸ ht
  | cons move moves ih =>
    intro trail trail' ht h
    cases moveEnds fs trail move with
    | fault fault hend =>
      rw [hend] at h
      cases h
    | link target hend =>
      rw [hend] at h
      exact hlink _ _ _ _ ht h
    | there t hend hsteps =>
      rw [hend] at h
      refine ih ?_ h
      intro step hs
      rcases hsteps step hs with hs | ⟨searchable, entries, hd, hs⟩
      · exact ht step hs
      · exact hdown searchable entries (hd ▸ nodeAt_keeps hroot ht) step hs

theorem follow_keeps (hroot : P fs.root) (links : Nat) : ∀ {moves trail trail'},
    (∀ step ∈ trail, P step.2) → fs.follow links trail moves = .ok trail' →
    ∀ step ∈ trail', P step.2 := by
  induction links with
  | zero =>
    intro moves trail trail' ht h
    refine makeMoves_keeps hdown hroot ?_ moves ht h
    intro _ _ _ _ _ he
    cases he
  | succ links ih =>
    intro moves trail trail' ht h
    refine makeMoves_keeps hdown hroot ?_ moves ht h
    intro trail target moves trail' ht h
    refine ih ?_ h
    unfold startOf
    split
    · simp
    · exact ht

theorem start?_keeps (hroot : P fs.root) {p : Path} {start : Trail} (h : fs.start? p = some start) :
    ∀ step ∈ start, P step.2 := by
  unfold start? at h
  split at h
  · obtain rfl := Option.some.inj h
    simp
  · exact descend?_keeps hdown hroot (by simp) h

/-- What every part of the tree has, the node that a path leads to has. -/
theorem node_keeps (hroot : P fs.root) {p : Path} {node : Node} (h : fs.node p = .ok node) :
    P node := by
  unfold FileSystem.node at h
  cases hr : fs.resolve p with
  | error fault => simp [hr, Except.map] at h
  | ok trail =>
    obtain ⟨-, start, hstart, hf⟩ := resolve_eq_ok.mp hr
    have hs := start?_keeps hdown hroot hstart
    rw [hr] at h
    have hp := nodeAt_keeps hroot (follow_keeps hdown hroot linkLimit hs hf)
    exact Except.ok.inj h ▸ hp

end

theorem list_eq_ok {fs : FileSystem} {p : Path} {entries : List (Name × Node)}
    (h : fs.list p = .ok entries) : fs.node p = .ok (.directory true entries) := by
  unfold list at h
  split at h
  · cases h
  · next hn => exact Except.ok.inj h ▸ hn
  · cases h
  · cases h

theorem list_sound {fs : FileSystem} (hs : fs.Sound) {p : Path} {entries : List (Name × Node)}
    (h : fs.list p = .ok entries) : (Node.directory true entries).Sound := by
  refine node_keeps (P := Node.Sound) ?_ hs (list_eq_ok h)
  intro readable entries hd
  cases hd with
  | directory _ _ hall => exact hall

end ProjectScope.FileSystem
