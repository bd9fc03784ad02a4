import ProjectScope.Text.Utf8

/-!
Sorting by a byte text. Main statements: sorting keeps what is there, and leaves it in order.
-/

namespace ProjectScope

variable {α : Type}

/-- Puts an item before the first one whose key comes later. -/
def insertByKey (x : Bytes × α) : List (Bytes × α) → List (Bytes × α)
  | [] => [x]
  | y :: ys => if x.1 ≤ y.1 then x :: y :: ys else y :: insertByKey x ys

/-- Sorts items by their keys, byte by byte, a key before its extensions. -/
def sortByKey : List (Bytes × α) → List (Bytes × α)
  | [] => []
  | x :: xs => insertByKey x (sortByKey xs)

theorem insertByKey_perm (x : Bytes × α) (ys : List (Bytes × α)) :
    (insertByKey x ys).Perm (x :: ys) := by
  fun_induction insertByKey x ys with
  | case1 => exact .refl _
  | case2 => exact .refl _
  | case3 y ys _ ih => exact (ih.cons y).trans (.swap x y ys)

theorem sortByKey_perm (xs : List (Bytes × α)) : (sortByKey xs).Perm xs := by
  induction xs with
  | nil => exact .refl _
  | cons x xs ih => exact (insertByKey_perm x _).trans (ih.cons x)

theorem insertByKey_sorted (x : Bytes × α) {ys : List (Bytes × α)}
    (h : ys.Pairwise fun a b => a.1 ≤ b.1) :
    (insertByKey x ys).Pairwise fun a b => a.1 ≤ b.1 := by
  fun_induction insertByKey x ys with
  | case1 => exact List.pairwise_singleton _ _
  | case2 y ys hxy =>
    obtain ⟨hy, _⟩ := List.pairwise_cons.mp h
    refine List.pairwise_cons.mpr ⟨?_, h⟩
    intro z hz
    rcases List.mem_cons.mp hz with rfl | hz
    · exact hxy
    · exact List.le_trans hxy (hy z hz)
  | case3 y ys hxy ih =>
    obtain ⟨hy, hys⟩ := List.pairwise_cons.mp h
    refine List.pairwise_cons.mpr ⟨?_, ih hys⟩
    intro z hz
    rcases List.mem_cons.mp ((insertByKey_perm x ys).mem_iff.mp hz) with rfl | hz
    · exact (List.le_total y.1 z.1).resolve_right hxy
    · exact hy z hz

theorem sortByKey_sorted (xs : List (Bytes × α)) :
    (sortByKey xs).Pairwise fun a b => a.1 ≤ b.1 := by
  induction xs with
  | nil => exact .nil
  | cons x xs ih => exact insertByKey_sorted x ih

end ProjectScope
