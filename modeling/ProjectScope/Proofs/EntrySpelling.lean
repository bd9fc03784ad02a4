import Mathlib.Data.List.Forall2
import Mathlib.Data.Option.Basic
import Mathlib.Logic.Relation
import ProjectScope.Proofs.PatternCompilation

/-! # Spellings of an entry

An entry may be spelled with slashes or with backslashes, and with any number of `./` or `.\` before
it. Normalizing takes each entry to one spelling (`normalize_of_respells`), and two entries to the
same one only if such changes lead from one to the other (`normalize_eq_iff`). So configurations
that differ in spelling alone stand for the same patterns. Main statement: `spelling_irrelevant`. -/
namespace ProjectScope

namespace Entry

/-! ## What normalizing leaves -/

theorem dropDots_ne_dots (cs rest : List Char) : dropDots cs ≠ '.' :: '/' :: rest := by
  fun_induction dropDots cs with
  | case1 _ ih => exact ih
  | case2 cs hcs => exact hcs rest

theorem dropDots_of_ne_dots {cs : List Char} (h : ∀ rest, cs ≠ '.' :: '/' :: rest) :
    dropDots cs = cs := by
  fun_cases dropDots cs with
  | case1 rest => exact absurd rfl (h rest)
  | case2 => rfl

theorem map_unifySlash_of_notMem {cs : List Char} (h : '\\' ∉ cs) : cs.map unifySlash = cs := by
  have hfixed : ∀ c ∈ cs, unifySlash c = id c := fun c hc => if_neg (ne_of_mem_of_not_mem hc h)
  rw [List.map_congr_left hfixed, List.map_id]

theorem toList_normalize (entry : String) :
    (normalize entry).toList = dropDots (entry.toList.map unifySlash) := String.toList_ofList

theorem normalize_normalize (entry : String) : normalize (normalize entry) = normalize entry := by
  refine String.toList_injective ?_
  have hplain := map_unifySlash_of_notMem (backslash_notMem_normalize entry)
  rw [toList_normalize, hplain, toList_normalize]
  exact dropDots_of_ne_dots (dropDots_ne_dots _)

/-! ## Changes of spelling -/

/-- The same character, or both separate segments. -/
def SameButSlash (c d : Char) : Prop := c = d ∨ (c = '/' ∨ c = '\\') ∧ (d = '/' ∨ d = '\\')

/-- Some slashes of the one are backslashes of the other. -/
def SameButSlashes (s t : String) : Prop := List.Forall₂ SameButSlash s.toList t.toList

/-- The directory itself, as the start of an entry. -/
def IsHere (piece : String) : Prop := piece = "./" ∨ piece = ".\\"

inductive Respells : String → String → Prop
  | slashes {s t} : SameButSlashes s t → Respells s t
  | dots {w s} : (∀ piece ∈ w, IsHere piece) → Respells (String.join w ++ s) s

/-- Changes of spelling lead from one entry to the other. -/
def SameSpelling : String → String → Prop := Relation.EqvGen Respells

theorem unifySlash_eq_iff {c d : Char} : unifySlash c = unifySlash d ↔ SameButSlash c d := by
  unfold unifySlash SameButSlash
  grind

theorem map_unifySlash_eq_iff {s t : String} :
    s.toList.map unifySlash = t.toList.map unifySlash ↔ SameButSlashes s t := by
  rw [SameButSlashes, ← List.forall₂_eq_eq_eq, List.forall₂_map_left_iff,
    List.forall₂_map_right_iff]
  simp only [unifySlash_eq_iff]

theorem normalize_of_sameButSlashes {s t : String} (h : SameButSlashes s t) :
    normalize s = normalize t := by
  rw [normalize, normalize, map_unifySlash_eq_iff.mpr h]

theorem normalize_join_append {w : List String} (h : ∀ piece ∈ w, IsHere piece) (s : String) :
    normalize (String.join w ++ s) = normalize s := by
  induction w with
  | nil => simp [String.join]
  | cons piece w ih =>
    obtain ⟨hpiece, hw⟩ := List.forall_mem_cons.mp h
    refine Eq.trans (String.toList_injective ?_) (ih hw)
    have hdots : piece.toList.map unifySlash = ['.', '/'] := by
      rcases hpiece with rfl | rfl <;> decide
    rw [toList_normalize, toList_normalize, String.join_cons, String.append_assoc,
      String.toList_append, List.map_append, hdots]
    rfl

theorem normalize_of_respells {s t : String} (h : Respells s t) : normalize s = normalize t := by
  cases h with
  | slashes h => exact normalize_of_sameButSlashes h
  | dots h => exact normalize_join_append h t

/-! ## Entries with one normal form -/

/-- What is dropped from the front of a text is made of pieces. -/
theorem exists_pieces_of_dropDots (cs : List Char) : ∃ w : List String,
    (∀ piece ∈ w, IsHere piece) ∧ cs = (String.join w).toList ++ dropDots cs := by
  fun_induction dropDots cs with
  | case1 rest ih =>
    obtain ⟨w, hw, heq⟩ := ih
    refine ⟨"./" :: w, List.forall_mem_cons.mpr ⟨.inl rfl, hw⟩, ?_⟩
    rw [String.join_cons, String.toList_append, List.append_assoc, ← heq]
    rfl
  | case2 cs _ => exact ⟨[], by simp, by simp [String.join]⟩

theorem sameSpelling_normalize (s : String) : SameSpelling s (normalize s) := by
  obtain ⟨w, hw, heq⟩ := exists_pieces_of_dropDots (s.toList.map unifySlash)
  have hslashed : s.toList.map unifySlash = (String.join w ++ normalize s).toList := by
    rw [String.toList_append, toList_normalize, ← heq]
  have hplain : '\\' ∉ (String.join w ++ normalize s).toList := by
    rw [← hslashed]
    exact backslash_notMem_map_unifySlash _
  have hslashes : SameButSlashes s (String.join w ++ normalize s) := by
    rw [← map_unifySlash_eq_iff, map_unifySlash_of_notMem hplain, hslashed]
  exact .trans _ _ _ (.rel _ _ (.slashes hslashes)) (.rel _ _ (.dots hw))

theorem normalize_eq_iff {s t : String} : normalize s = normalize t ↔ SameSpelling s t := by
  refine ⟨?_, ?_⟩
  · intro h
    have hs := sameSpelling_normalize s
    rw [h] at hs
    exact .trans _ _ _ hs (.symm _ _ (sameSpelling_normalize t))
  · intro h
    induction h with
    | rel _ _ h => exact normalize_of_respells h
    | refl _ => rfl
    | symm _ _ _ ih => exact ih.symm
    | trans _ _ _ _ _ ih ih' => exact ih.trans ih'

end Entry

/-! ## Configurations -/

namespace Config

open Entry (normalize SameSpelling IsHere SameButSlashes)

/-- The configurations differ only in how their entries are spelled. -/
structure SameButSpelling (c d : Config) : Prop where
  files : Option.Rel (List.Forall₂ SameSpelling) c.files d.files
  includes : Option.Rel (List.Forall₂ SameSpelling) c.includes d.includes
  excludes : Option.Rel (List.Forall₂ SameSpelling) c.excludes d.excludes
  compilerOptions : c.compilerOptions = d.compilerOptions

/-- The configuration with its entries spelled in one way. -/
def normalized (c : Config) : Config where
  files := c.files.map (List.map normalize)
  includes := c.includes.map (List.map normalize)
  excludes := c.excludes.map (List.map normalize)
  compilerOptions := c.compilerOptions

theorem map_normalize_eq {xs ys : Option (List String)}
    (h : Option.Rel (List.Forall₂ SameSpelling) xs ys) :
    xs.map (List.map normalize) = ys.map (List.map normalize) := by
  cases h with
  | none => rfl
  | some h =>
    rw [Option.map_some, Option.map_some, Option.some.injEq, ← List.forall₂_eq_eq_eq,
      List.forall₂_map_left_iff, List.forall₂_map_right_iff]
    exact h.imp fun _ _ hst => Entry.normalize_eq_iff.mpr hst

theorem SameButSpelling.normalized_eq {c d : Config} (h : c.SameButSpelling d) :
    c.normalized = d.normalized := by
  rw [normalized, normalized, map_normalize_eq h.files, map_normalize_eq h.includes,
    map_normalize_eq h.excludes, h.compilerOptions]

theorem withExtensions_normalized (c : Config) (extensions : List String) :
    PatternSet.withExtensions c.normalized extensions = PatternSet.withExtensions c extensions := by
  have hexcludes : PatternSet.excludesOf c.normalized = PatternSet.excludesOf c := by
    rw [PatternSet.excludesOf, PatternSet.excludesOf, normalized]
    cases c.excludes with
    | none => rfl
    | some entries => simp [List.flatMap_map, Entry.normalize_normalize]
  have hincludes : PatternSet.includesOf c.normalized extensions =
      PatternSet.includesOf c extensions := by
    obtain ⟨files, includes, excludes, options⟩ := c
    rw [PatternSet.includesOf, PatternSet.includesOf, normalized]
    cases files <;> cases includes <;>
      simp [List.flatMap_map, Function.comp_def, Entry.normalize_normalize]
  rw [PatternSet.withExtensions, PatternSet.withExtensions, hincludes, hexcludes]

theorem rules_normalized (c : Config) : c.normalized.rules = c.rules := by
  have hextensions : c.normalized.extensions = c.extensions := rfl
  rw [rules, rules, PatternSet.ofConfig, PatternSet.ofConfig, hextensions,
    withExtensions_normalized]

theorem filesOfConfig_normalized (form : Form) (fs : FileSystem) (c : Config) (root : Path) :
    filesOfConfig form fs c.normalized root = filesOfConfig form fs c root := by
  rw [filesOfConfig, filesOfConfig, rules_normalized]

/-! ## The one spelling -/

/-- Normalizing leaves no backslash and no `./` in front, and changes nothing a second time. Entries
become one just when changes of spelling lead from one to the other, and configurations whose
entries are spelled in different ways do the same on every tree. -/
theorem spelling_irrelevant :
    (∀ s, '\\' ∉ (normalize s).toList ∧ ¬ "./".toList <+: (normalize s).toList ∧
      normalize (normalize s) = normalize s) ∧
    (∀ s t, SameButSlashes s t → normalize s = normalize t) ∧
    (∀ w s, (∀ piece ∈ w, IsHere piece) → normalize (String.join w ++ s) = normalize s) ∧
    (∀ s t, normalize s = normalize t ↔ SameSpelling s t) ∧
    ∀ c d : Config, c.SameButSpelling d →
      (∀ extensions, PatternSet.withExtensions c extensions =
        PatternSet.withExtensions d extensions) ∧
      PatternSet.ofConfig c = PatternSet.ofConfig d ∧
      ∀ form fs root, filesOfConfig form fs c root = filesOfConfig form fs d root := by
  refine ⟨?_, fun _ _ => Entry.normalize_of_sameButSlashes,
    fun _ s hw => Entry.normalize_join_append hw s, fun _ _ => Entry.normalize_eq_iff, ?_⟩
  · intro s
    refine ⟨Entry.backslash_notMem_normalize s, ?_, Entry.normalize_normalize s⟩
    rintro ⟨rest, hrest⟩
    rw [Entry.toList_normalize] at hrest
    exact Entry.dropDots_ne_dots _ rest hrest.symm
  · intro c d h
    have heq := h.normalized_eq
    have hpatterns : ∀ extensions, PatternSet.withExtensions c extensions =
        PatternSet.withExtensions d extensions := by
      intro extensions
      rw [← withExtensions_normalized, heq, withExtensions_normalized]
    have hextensions : c.extensions = d.extensions := by
      rw [extensions, extensions, allowsJs, allowsJs, h.compilerOptions]
    refine ⟨hpatterns, ?_, ?_⟩
    · rw [PatternSet.ofConfig, PatternSet.ofConfig, hextensions, hpatterns]
    · intro form fs root
      rw [← filesOfConfig_normalized, heq, filesOfConfig_normalized]

def slashedConfig : Config where
  files := some ["main.ts"]
  includes := some ["src/pages", "lib/*"]

def backslashedConfig : Config where
  files := some ["././main.ts"]
  includes := some [".\\./src\\pages", "lib\\*"]

theorem backslashes_like_slashes :
    (SameButSlashes "src\\pages" "src/pages" ∧ (∀ piece ∈ [".\\", "./"], IsHere piece) ∧
      backslashedConfig.SameButSpelling slashedConfig) ∧
    normalize "src\\pages" = normalize "src/pages" ∧
    normalize (String.join [".\\", "./"] ++ "src\\pages") = normalize "src\\pages" ∧
    ∀ form fs root, filesOfConfig form fs backslashedConfig root =
      filesOfConfig form fs slashedConfig root := by
  have hslashes : SameButSlashes "src\\pages" "src/pages" :=
    Entry.map_unifySlash_eq_iff.mp (by decide)
  have hpieces : ∀ piece ∈ [".\\", "./"], IsHere piece :=
    List.forall_mem_cons.mpr ⟨.inr rfl, List.forall_mem_singleton.mpr (.inl rfl)⟩
  have hmain : SameSpelling "././main.ts" "main.ts" := Entry.normalize_eq_iff.mp (by decide)
  have hpages : SameSpelling ".\\./src\\pages" "src/pages" :=
    Entry.normalize_eq_iff.mp (by decide)
  have hlib : SameSpelling "lib\\*" "lib/*" := Entry.normalize_eq_iff.mp (by decide)
  have hsame : backslashedConfig.SameButSpelling slashedConfig :=
    ⟨.some (.cons hmain .nil), .some (.cons hpages (.cons hlib .nil)), .none, rfl⟩
  obtain ⟨-, hnormal, hjoin, -, hconfigs⟩ := spelling_irrelevant
  exact ⟨⟨hslashes, hpieces, hsame⟩, hnormal _ _ hslashes, hjoin _ _ hpieces,
    (hconfigs _ _ hsame).2.2⟩

end Config

end ProjectScope
