import ProjectScope.Glob.Language
import ProjectScope.Glob.Scan
import ProjectScope.Proofs.AsciiText

/-! # Globs that stand for one text

A character stands for itself as it is, after a backslash, or in a class of its own. A text written
in these ways is read without a fault outside groups, and its pieces match exactly its characters
(`read_written`, `matches_written`). The pieces of a branch are kept the latest first; what they
match is told by `matches_ofPieces_cons`. -/
namespace ProjectScope.Glob

/-! ## Pieces one after the other -/

theorem matches_foldl (ps : List Glob) : ∀ (acc : Glob) (w : Bytes),
    (ps.foldl (fun g p => seq p g) acc).Matches w ↔
      ∃ u v, w = u ++ v ∧ (ofPieces ps).Matches u ∧ acc.Matches v := by
  induction ps with
  | nil =>
    intro acc w
    refine ⟨?_, ?_⟩
    · intro h
      exact ⟨[], w, rfl, rfl, h⟩
    · intro h
      obtain ⟨u, v, rfl, hu, hv⟩ := h
      have hn : u = [] := hu
      subst hn
      exact hv
  | cons p ps ih =>
    intro acc w
    rw [List.foldl_cons, ih]
    simp only [ofPieces, List.foldl_cons] at ih ⊢
    refine ⟨?_, ?_⟩
    · intro h
      obtain ⟨u, v, rfl, hu, x, y, rfl, hx, hy⟩ := h
      exact ⟨u ++ x, y, by simp, (ih _ _).mpr ⟨u, x, rfl, hu, x, [], by simp, hx, rfl⟩, hy⟩
    · intro h
      obtain ⟨u, v, rfl, hu, hv⟩ := h
      obtain ⟨x, y, rfl, hx, y', z, rfl, hy, hz⟩ := (ih _ _).mp hu
      have hn : z = [] := hz
      subst hn
      exact ⟨x, y' ++ v, by simp, hx, y', v, rfl, hy, hv⟩

theorem matches_ofPieces_nil (w : Bytes) : (ofPieces []).Matches w ↔ w = [] := Iff.rfl

theorem matches_ofPieces_cons (p : Glob) (ps : List Glob) (w : Bytes) :
    (ofPieces (p :: ps)).Matches w ↔
      ∃ u v, w = u ++ v ∧ (ofPieces ps).Matches u ∧ p.Matches v := by
  rw [ofPieces, List.foldl_cons, matches_foldl]
  refine ⟨?_, ?_⟩
  · intro h
    obtain ⟨u, v, rfl, hu, x, y, rfl, hx, hy⟩ := h
    have hn : y = [] := hy
    subst hn
    exact ⟨u, x, by simp, hu, hx⟩
  · intro h
    obtain ⟨u, v, rfl, hu, hv⟩ := h
    exact ⟨u, v, rfl, hu, v, [], by simp, hv, rfl⟩

/-! ## Reading on -/

theorem foldlM_step_cons {s t : Scan} {c : Char} (h : s.step c = .ok t) (cs : List Char) :
    (c :: cs).foldlM Scan.step s = cs.foldlM Scan.step t := by
  rw [List.foldlM_cons, h]
  rfl

theorem foldlM_step_append {s t : Scan} {xs : List Char} (h : xs.foldlM Scan.step s = .ok t)
    (ys : List Char) : (xs ++ ys).foldlM Scan.step s = ys.foldlM Scan.step t := by
  rw [List.foldlM_append, h]
  rfl

/-! ## Ways to write a character -/

inductive Spelling
  | bare (c : Char)
  | escaped (c : Char)
  | bracketed (c : Char)

namespace Spelling

def char : Spelling → Char
  | bare c | escaped c | bracketed c => c

def written : Spelling → List Char
  | bare c => [c]
  | escaped c => ['\\', c]
  | bracketed c => ['[', c, ']']

/-- The character is read as itself when it is written in this way. -/
def Safe : Spelling → Prop
  | bare c => c ≠ '?' ∧ c ≠ '*' ∧ c ≠ '[' ∧ c ≠ '\x7b' ∧ c ≠ '\x7d' ∧ c ≠ '\\'
  | escaped _ => True
  | bracketed c => c ≠ '!' ∧ c ≠ '^' ∧ c.toNat < 0x80

def piece : Spelling → Glob
  | bare c | escaped c => .atom (.literal c)
  | bracketed c => .atom (.oneOf false [(c, c)])

theorem piece_ne_descent (x : Spelling) : x.piece ≠ .atom .descent := by
  cases x <;> simp [piece]

theorem matches_piece {x : Spelling} (h : x.Safe) (w : Bytes) :
    x.piece.Matches w ↔ w = String.utf8EncodeChar x.char := by
  cases x with
  | bare c => exact Iff.rfl
  | escaped c => exact Iff.rfl
  | bracketed c =>
    have hc := Utf8.encodeChar_of_ascii h.2.2
    simp only [piece, Matches, Atom.Matches, char, hc]
    refine ⟨?_, ?_⟩
    · intro hm
      obtain ⟨b, rfl, hb⟩ := hm
      simp only [classHas, List.any_cons, List.any_nil, Bool.or_false, if_pos, hc, ne_eq,
        Bool.not_eq_false, List.contains_iff_mem, List.mem_singleton] at hb
      rw [hb]
    · intro hm
      exact ⟨_, hm, by simp [classHas, hc]⟩

/-- One written character, read outside groups. -/
theorem step_written {x : Spelling} (h : x.Safe) {s : Scan} (hm : s.mode = .plain)
    (hg : s.groups = []) : ∃ c, x.written.foldlM Scan.step s = .ok ((s.push x.piece).after c) := by
  cases x with
  | bare c =>
    obtain ⟨h₁, h₂, h₃, h₄, h₅, h₆⟩ := h
    refine ⟨c, ?_⟩
    have hs : s.step c = .ok ((s.pushAtom (.literal c)).after c) := by
      by_cases hcomma : c = ','
      · subst hcomma
        simp [Scan.step, hm, Scan.stepPlain, Scan.comma, hg]
      · simp [Scan.step, hm, Scan.stepPlain]
    rw [written, foldlM_step_cons hs]
    rfl
  | escaped c =>
    refine ⟨c, ?_⟩
    have hb : s.step '\\' = .ok { s with mode := .backslash, previous := some '\\' } := by
      simp [Scan.step, hm, Scan.stepPlain]
    rw [written, foldlM_step_cons hb]
    rfl
  | bracketed c =>
    obtain ⟨h₁, h₂, -⟩ := h
    refine ⟨']', ?_⟩
    have hb : s.step '[' = .ok { s with mode := .bracket, previous := some '[' } := by
      simp [Scan.step, hm, Scan.stepPlain]
    have hc : Scan.step { s with mode := .bracket, previous := some '[' } c =
        .ok { s with
          mode := .inClass (Scan.addMember { negated := false } c)
          previous := some '[' } := by
      simp [Scan.step, h₁, h₂, Scan.stepClass]
    rw [written, foldlM_step_cons hb, foldlM_step_cons hc]
    rfl

end Spelling

/-- The text of characters, each written in its way. -/
def written (xs : List Spelling) : List Char := xs.flatMap Spelling.written

/-- The characters that are meant. -/
def meant (xs : List Spelling) : List Char := xs.map Spelling.char

/-- Written characters add their pieces and nothing else. -/
theorem steps_written {xs : List Spelling} (h : ∀ x ∈ xs, x.Safe) : ∀ {s : Scan},
    s.mode = .plain → s.groups = [] → ∃ s', (written xs).foldlM Scan.step s = .ok s' ∧
      s'.mode = .plain ∧ s'.groups = [] ∧
      s'.pieces = (xs.map Spelling.piece).reverse ++ s.pieces := by
  induction xs with
  | nil =>
    intro s hm hg
    exact ⟨s, rfl, hm, hg, rfl⟩
  | cons x xs ih =>
    intro s hm hg
    obtain ⟨c, hx⟩ := Spelling.step_written (h x List.mem_cons_self) hm hg
    obtain ⟨s', hs, hm', hg', hp⟩ :=
      ih (fun y hy => h y (List.mem_cons_of_mem _ hy)) (s := (s.push x.piece).after c) rfl hg
    refine ⟨s', ?_, hm', hg', ?_⟩
    · rw [written, List.flatMap_cons, foldlM_step_append hx]
      exact hs
    · rw [hp]
      simp [Scan.push, Scan.after]

theorem matches_written {xs : List Spelling} (h : ∀ x ∈ xs, x.Safe) :
    ∀ (ps : List Glob) (w : Bytes),
      (ofPieces ((xs.map Spelling.piece).reverse ++ ps)).Matches w ↔
        ∃ u, (ofPieces ps).Matches u ∧ w = u ++ Utf8.encode (meant xs) := by
  induction xs with
  | nil => intro ps w; simp [meant]
  | cons x xs ih =>
    intro ps w
    have hi := ih (fun y hy => h y (List.mem_cons_of_mem _ hy)) (x.piece :: ps) w
    have hx := Spelling.matches_piece (h x List.mem_cons_self)
    rw [List.map_cons, List.reverse_cons, List.append_assoc, List.singleton_append, hi]
    simp only [matches_ofPieces_cons, hx, meant, List.map_cons, Utf8.encode_cons]
    refine ⟨?_, ?_⟩
    · intro hw
      obtain ⟨u, ⟨a, b, rfl, ha, rfl⟩, rfl⟩ := hw
      exact ⟨a, ha, by simp⟩
    · intro hw
      obtain ⟨a, ha, rfl⟩ := hw
      exact ⟨_, ⟨a, _, rfl, ha, rfl⟩, by simp⟩

/-- A scan that ends outside a class, an escape and a group is read as its pieces. -/
theorem finish_of_plain {s : Scan} (hm : s.mode = .plain) (hg : s.groups = [])
    (hp : s.pieces ≠ [.atom .descent]) : s.finish = .ok (ofPieces s.pieces) := by
  simp [Scan.finish, Scan.settle, hm, hg, hp, bind, Except.bind]
  rfl

/-- A text of characters that stand for themselves is a glob for this text alone. -/
theorem read_written {xs : List Spelling} (h : ∀ x ∈ xs, x.Safe) :
    ∃ g, read (written xs) = .ok g ∧ ∀ w, g.Matches w ↔ w = Utf8.encode (meant xs) := by
  obtain ⟨s, hs, hm, hg, hp⟩ := steps_written h (s := {}) rfl rfl
  have hne : s.pieces ≠ [.atom .descent] := by
    intro he
    have hmem : (.atom .descent : Glob) ∈ s.pieces := by simp [he]
    rw [hp] at hmem
    simp only [List.append_nil, List.mem_reverse, List.mem_map] at hmem
    obtain ⟨x, -, hx⟩ := hmem
    exact x.piece_ne_descent hx
  refine ⟨ofPieces s.pieces, ?_, ?_⟩
  · rw [read, hs]
    exact finish_of_plain hm hg hne
  · intro w
    rw [hp, matches_written h]
    simp [matches_ofPieces_nil]

end ProjectScope.Glob
