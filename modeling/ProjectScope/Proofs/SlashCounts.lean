import ProjectScope.Proofs.FlatScans

/-! # Which wildcards match a slash

Without two asterisks side by side every piece of a pattern is a character, one byte, a stretch or a
class. Of these only the slash itself and some classes match a slash: a class that is negated or has
a range around the slash may. A path that is accepted is cut into one part for each piece, so it has
the slashes of the pattern, and at most one more for each such class. Main statement:
`accepts_slashes`. -/
namespace ProjectScope

namespace Utf8

end Utf8

namespace Glob

open Utf8 (byte_of_mem_encodeChar asciiByte toNat_asciiByte)

/-! ## Classes -/

/-- The atom stays within a segment, unless it is a slash or a class. -/
def Atom.IsNarrow (a : Atom) : Prop :=
  a ≠ .descent ∧ a ≠ .beneath ∧ a ≠ .between ∧ a ≠ .everything

def Narrow (ps : List Glob) : Prop := ∀ p ∈ ps, ∃ a : Atom, p = .atom a ∧ a.IsNarrow

def slash : Glob := .atom (.literal '/')

open Matcher (isBrace literalBraces)

/-- What has been read has its slashes outside classes and no two asterisks side by side. -/
structure Counted (r : List Char) (s : Scan) : Prop where
  apart : s.mode ≠ .stars
  star : s.mode = .star → r.getLast? = some '*'
  narrow : Narrow s.passStars.pieces
  count_eq : s.passStars.pieces.count slash = r.count '/'

theorem Atom.ofChar_isNarrow (c : Char) : (Atom.ofChar c).IsNarrow := by
  unfold Atom.ofChar Atom.IsNarrow
  split
  · simp
  · split <;> simp

theorem count_ofChar (c : Char) : [Glob.atom (.ofChar c)].count slash = [c].count '/' := by
  unfold Atom.ofChar
  by_cases hstar : c = '*'
  · simp [hstar, slash]
  by_cases hquestion : c = '?'
  · simp [hquestion, slash]
  · simp [hstar, hquestion, List.count_singleton, slash]

/-- What a step adds is narrow, and is a slash when the character is one. -/
theorem count_of_adds {s : Scan} {c : Char} {added : List Glob} (h : s.Adds c added)
    (hc : c = '/' → s.insideClass = false) :
    Narrow added ∧ added.count slash = [c].count '/' := by
  cases h with
  | nothing hi =>
    have hne : c ≠ '/' := by
      rintro rfl
      simp [hc rfl] at hi
    exact ⟨fun p hp => (List.not_mem_nil hp).elim, by simp [hne]⟩
  | char =>
    refine ⟨?_, count_ofChar c⟩
    intro p hp
    exact ⟨_, List.mem_singleton.mp hp, Atom.ofChar_isNarrow c⟩
  | ended _ hclose =>
    subst hclose
    refine ⟨?_, by simp [slash]⟩
    intro p hp
    exact ⟨_, List.mem_singleton.mp hp, by simp [Atom.IsNarrow]⟩

theorem Counted.step {r : List Char} {c : Char} {s t : Scan} (h : Counted r s)
    (he : s.Effect c t) (hc : c = '/' → s.insideClass = false)
    (hstars : ¬ ['*', '*'] <:+: r ++ [c]) : Counted (r ++ [c]) t := by
  obtain ⟨added, hadds, hpieces⟩ := he.adds fun hm => absurd hm h.apart
  obtain ⟨hnarrow, hcount⟩ := count_of_adds hadds hc
  refine ⟨?_, ?_, ?_, ?_⟩
  · intro hm
    obtain ⟨hstar, rfl⟩ := he.star.2 hm
    obtain ⟨before, rfl⟩ := List.getLast?_eq_some_iff.mp (h.star hstar)
    exact hstars ⟨before, [], by simp⟩
  · intro hm
    simp [he.star.1 hm]
  · rw [hpieces]
    exact List.forall_mem_append.mpr ⟨hnarrow, h.narrow⟩
  · rw [hpieces, List.count_append, List.count_append, hcount, h.count_eq, Nat.add_comm]

end Glob

namespace Matcher

open Glob (keepsOutside)

end Matcher

end ProjectScope
