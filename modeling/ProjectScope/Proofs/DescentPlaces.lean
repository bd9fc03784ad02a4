import ProjectScope.Glob.Scan

/-! # Where a glob may descend from its start

Two asterisks and a slash at the start of a branch stand for nothing or for directories. The scan
looks back at the pieces that it has taken, so it matters that this piece is never found anywhere
but at the start of its branch. Main statement: every scan of a text keeps this
(`rooted_of_foldlM`). -/
namespace ProjectScope.Glob

/-- Of pieces, the latest first, only the last may descend from the start. -/
def RootedPieces : List Glob → Prop
  | [] => True
  | p :: ps => (p = .atom .descent → ps = []) ∧ RootedPieces ps

theorem RootedPieces.cons {ps : List Glob} (h : RootedPieces ps) {p : Glob}
    (hp : p ≠ .atom .descent) : RootedPieces (p :: ps) := ⟨fun he => absurd he hp, h⟩

theorem ofPieces_ne_atom (ps : List Glob) (a : Atom) : ofPieces ps ≠ .atom a := by
  have hf : ∀ (ps : List Glob) (g : Glob), g ≠ .atom a →
      ps.foldl (fun g p => seq p g) g ≠ .atom a := by
    intro ps
    induction ps with
    | nil => exact fun g hg => hg
    | cons p ps ih => exact fun g _ => ih (seq p g) (by simp)
  exact hf ps .nothing (by simp)

theorem ofBranches_ne_atom {branches : List Glob} {a : Atom} (h : .atom a ∉ branches) :
    ofBranches branches ≠ .atom a := by
  have hf : ∀ (gs : List Glob) (g : Glob), g ≠ .atom a → gs.foldl either g ≠ .atom a := by
    intro gs
    induction gs with
    | nil => exact fun g hg => hg
    | cons k gs ih => exact fun g _ => ih (either g k) (by simp)
  unfold ofBranches
  split
  · simp
  · next g gs he =>
    refine hf gs g fun hg => h ?_
    have hm : g ∈ branches.filter (!·.isBlank) := he ▸ List.mem_cons_self
    exact hg ▸ (List.mem_filter.mp hm).1

namespace Scan

/-- The same of the current branch and of those around it. -/
structure Rooted (s : Scan) : Prop where
  pieces : RootedPieces s.pieces
  groups : ∀ g ∈ s.groups, RootedPieces g.before ∧ .atom .descent ∉ g.branches

variable {s t : Scan}

theorem Rooted.pushAtom (h : s.Rooted) {a : Atom} (ha : a ≠ .descent) : (s.pushAtom a).Rooted :=
  ⟨h.pieces.cons (by simpa using ha), h.groups⟩

theorem Rooted.after (h : s.Rooted) (c : Char) : (s.after c).Rooted := ⟨h.pieces, h.groups⟩

theorem Rooted.pushStretches (h : s.Rooted) : s.pushStretches.Rooted :=
  ((h.pushAtom (by simp)).pushAtom (by simp)).after '*'

theorem Rooted.replaceLast (h : s.Rooted) {a : Atom} (ha : a ≠ .descent) :
    (s.replaceLast a).Rooted := by
  unfold Scan.replaceLast
  split
  · exact h.pushAtom ha
  · exact h
  · exact h
  · next p earlier _ _ he =>
    have hp := h.pieces
    rw [he] at hp
    exact ⟨hp.2.cons (by simpa using ha), h.groups⟩

theorem Rooted.comma (h : s.Rooted) : s.comma.Rooted := by
  unfold Scan.comma
  split
  · exact h.pushAtom (by simp)
  · next g outer hg =>
    have hall := h.groups
    rw [hg, List.forall_mem_cons] at hall
    refine ⟨trivial, List.forall_mem_cons.mpr ⟨⟨hall.1.1, ?_⟩, hall.2⟩⟩
    intro hm
    rcases List.mem_cons.mp hm with he | hm
    · exact ofPieces_ne_atom s.pieces .descent he.symm
    · exact hall.1.2 hm

theorem Rooted.closeGroup (h : s.Rooted) (hs : s.closeGroup = .ok t) : t.Rooted := by
  unfold Scan.closeGroup at hs
  split at hs
  · cases hs
  · next g outer hg =>
    cases hs
    have hall := h.groups
    rw [hg, List.forall_mem_cons] at hall
    refine ⟨hall.1.1.cons (ofBranches_ne_atom ?_), hall.2⟩
    intro hm
    rcases List.mem_cons.mp (List.mem_reverse.mp hm) with he | hm
    · exact ofPieces_ne_atom s.pieces .descent he.symm
    · exact hall.1.2 hm

theorem Rooted.stepPlain (h : s.Rooted) {c : Char} (hs : s.stepPlain c = .ok t) : t.Rooted := by
  unfold Scan.stepPlain at hs
  split at hs
  · cases hs
    exact (h.pushAtom (by simp)).after _
  · cases hs
    exact ⟨h.pieces, h.groups⟩
  · cases hs
    exact ⟨h.pieces, h.groups⟩
  · cases hs
    exact ⟨trivial, List.forall_mem_cons.mpr ⟨⟨h.pieces, by simp⟩, h.groups⟩⟩
  · cases hc : s.closeGroup with
    | error fault =>
      rw [hc] at hs
      cases hs
    | ok u =>
      rw [hc] at hs
      cases hs
      exact (h.closeGroup hc).after _
  · cases hs
    exact h.comma.after _
  · cases hs
    exact ⟨h.pieces, h.groups⟩
  · cases hs
    exact (h.pushAtom (by simp)).after _

theorem Rooted.stepClass (h : s.Rooted) {k : ClassScan} {c : Char}
    (hs : s.stepClass k c = .ok t) : t.Rooted := by
  unfold Scan.stepClass at hs
  split at hs
  · cases hs
    exact (h.pushAtom (by simp)).after _
  split at hs
  · cases hs
    exact ⟨h.pieces, h.groups⟩
  split at hs
  · cases hk : endRange k c with
    | error fault =>
      rw [hk] at hs
      cases hs
    | ok k' =>
      rw [hk] at hs
      cases hs
      exact ⟨h.pieces, h.groups⟩
  · cases hs
    exact ⟨h.pieces, h.groups⟩

theorem Rooted.stepStars (h : s.Rooted) {c : Char} (hs : s.stepStars c = .ok t) : t.Rooted := by
  unfold Scan.stepStars at hs
  split at hs
  · cases hs
    refine Rooted.after ?_ _
    by_cases he : s.pieces.isEmpty = true
    · rw [if_pos he]
      have hp : s.pieces = [] := List.isEmpty_iff.mp he
      exact ⟨⟨fun _ => hp, h.pieces⟩, h.groups⟩
    · rw [if_neg he]
      exact h.replaceLast (by simp)
  split at hs
  · exact ((h.replaceLast (by simp)).after '*').stepPlain hs
  · exact h.pushStretches.stepPlain hs

theorem Rooted.step (h : s.Rooted) {c : Char} (hs : s.step c = .ok t) : t.Rooted := by
  unfold Scan.step at hs
  split at hs
  · exact h.stepPlain hs
  · split at hs
    · cases hs
      split
      · exact ⟨h.pieces, h.groups⟩
      · exact h.pushStretches
    · exact ((h.pushAtom (by simp)).after '*').stepPlain hs
  · exact h.stepStars hs
  · cases hs
    exact (h.pushAtom (by simp)).after _
  · split at hs
    · cases hs
      exact ⟨h.pieces, h.groups⟩
    · exact h.stepClass hs
  · exact h.stepClass hs

theorem rooted_of_foldlM {text : List Char} : ∀ {s t : Scan}, s.Rooted →
    text.foldlM Scan.step s = .ok t → t.Rooted := by
  induction text with
  | nil =>
    intro s t h hs
    cases hs
    exact h
  | cons c text ih =>
    intro s t h hs
    rw [List.foldlM_cons] at hs
    cases hc : s.step c with
    | error fault =>
      rw [hc] at hs
      cases hs
    | ok u =>
      rw [hc] at hs
      exact ih (h.step hc) hs

theorem rooted_start : Rooted {} := ⟨trivial, by simp⟩

end Scan

end ProjectScope.Glob
