import ProjectScope.Proofs.FlatScans
import ProjectScope.Proofs.RuleDecisions

/-! # Entries that are no globs

A bare entry stands for its base and for what lies beneath it. If the base is no glob, then neither
is any pattern for what lies beneath: a fault in the base stays, and a class that the base leaves
open is not closed by what follows. So each of these patterns is matched literally, and nothing that
could be called beneath the base is in scope. Main statement: `malformed_entry_alone`. -/
namespace ProjectScope

namespace Glob

open Matcher (literalBraces)

/-- What follows a text that is no glob does not make it one, unless it closes a class. -/
theorem read_append_eq_error {p rest : List Char} (hp : '\\' ∉ p) (hc : ']' ∉ rest) {fault : Fault}
    (h : read (literalBraces p) = .error fault) :
    ∃ fault, read (literalBraces p ++ rest) = .error fault := by
  cases hread : read (literalBraces p ++ rest) with
  | error fault => exact ⟨fault, rfl⟩
  | ok g =>
    obtain ⟨t, ht, hg⟩ := bind_eq_ok.mp hread
    obtain ⟨s, hs, ht⟩ := foldlM_append_eq_ok.mp ht
    have hi : s.insideClass = true := by
      by_contra ho
      obtain ⟨g, hg⟩ :=
        Scan.exists_finish (flat_of_literalBraces hp hs) (Bool.not_eq_true _ ▸ ho)
      rw [read_of_foldlM hs hg] at h
      cases h
    rw [Scan.finish_insideClass (Scan.insideClass_of_foldlM hc hi ht)] at hg
    cases hg

end Glob

namespace Matcher

theorem rejected_beneath {base : List Char} (hb : '\\' ∉ base) {e : String}
    (he : Glob.PlainText e.toList) (hc : ']' ∉ e.toList)
    (h : Rejected (String.ofList base)) : Rejected (Entry.beneath base e) := by
  obtain ⟨fault, hfault⟩ := h
  rw [String.toList_ofList] at hfault
  have hrest : ']' ∉ "/**/*".toList ++ e.toList := by
    simpa using hc
  obtain ⟨fault', h⟩ := Glob.read_append_eq_error hb hrest hfault
  refine ⟨fault', ?_⟩
  rw [Entry.beneath, String.toList_ofList, List.append_assoc, literalBraces_append,
    literalBraces_append, literalBraces_plain he]
  exact h

/-- A pattern that is rejected covers its own text alone. -/
theorem covers_rejected_iff {p : String} (hr : Rejected p) (hp : '\\' ∉ p.toList)
    (text : List Char) : Covers p text ↔ text = p.toList := by
  obtain ⟨m, hm, -, hacc⟩ := compile_of_rejected hr hp
  simp [Covers, hm, hacc]

end Matcher

namespace Entry

open Glob (PlainText)
open Matcher (Rejected)

theorem base_of_unended {entry : String} (h : entry.toList.getLast? ≠ some '/') :
    base entry = entry.toList := if_neg h

theorem not_namesRoot_of_rejected {entry : String} (hr : Rejected (String.ofList (base entry))) :
    ¬ NamesRoot entry := by
  have hnil : ∃ g, Glob.read (Matcher.literalBraces []) = .ok g := ⟨_, rfl⟩
  have hdot : ∃ g, Glob.read (Matcher.literalBraces ['.']) = .ok g := ⟨_, rfl⟩
  obtain ⟨fault, hr⟩ := hr
  rw [String.toList_ofList] at hr
  rintro (he | he)
  · obtain ⟨g, hg⟩ := hnil
    rw [he, hg] at hr
    cases hr
  · obtain ⟨g, hg⟩ := hdot
    rw [he, hg] at hr
    cases hr

theorem backslash_notMem_base {entry : String} (h : '\\' ∉ entry.toList) :
    '\\' ∉ base entry := by
  unfold base
  split
  · exact fun hm => h (List.dropLast_subset _ hm)
  · exact h

/-- An entry with a malformed base accepts the base and the text of each pattern that is made of
it. -/
theorem accepts_malformed_base_iff {entry : String} {extensions : List String}
    (hback : '\\' ∉ entry.toList) (hstar : entry.toList.getLast? ≠ some '*')
    (hr : Rejected (String.ofList (base entry)))
    (hx : ∀ e ∈ extensions, PlainText e.toList ∧ ']' ∉ e.toList) (text : List Char) :
    Accepts entry extensions text ↔
      text = base entry ∨ ∃ e ∈ extensions, text = base entry ++ "/**/*".toList ++ e.toList := by
  have hb := backslash_notMem_base hback
  have hself : '\\' ∉ (String.ofList (base entry)).toList := by rwa [String.toList_ofList]
  have hfirst := Matcher.covers_rejected_iff hr hself text
  rw [String.toList_ofList] at hfirst
  have hbelow : ∀ e ∈ extensions, Matcher.Covers (beneath (base entry) e) text ↔
      text = base entry ++ "/**/*".toList ++ e.toList := by
    intro e he
    obtain ⟨hplain, hc⟩ := hx e he
    have hrej := Matcher.rejected_beneath hb hplain hc hr
    have hclean : '\\' ∉ (beneath (base entry) e).toList := by
      have hne : '\\' ∉ e.toList := fun hm => (hplain _ hm).1.2.2.2.2.2 rfl
      simp [beneath, hb, hne]
    rw [Matcher.covers_rejected_iff hrej hclean, beneath, String.toList_ofList]
  change (∃ p ∈ expand entry extensions, Matcher.Covers p text) ↔ _
  rw [expand_base hstar (not_namesRoot_of_rejected hr)]
  simp only [List.mem_cons, List.mem_map, exists_eq_or_imp, exists_exists_and_eq_and, hfirst]
  exact or_congr_right (exists_congr fun e => and_congr_right (hbelow e))

/-- A malformed entry accepts itself and the text of each pattern that is made of it. -/
theorem accepts_malformed_iff {entry : String} {extensions : List String}
    (hback : '\\' ∉ entry.toList) (hstar : entry.toList.getLast? ≠ some '*')
    (hslash : entry.toList.getLast? ≠ some '/') (hr : Rejected entry)
    (hx : ∀ e ∈ extensions, PlainText e.toList ∧ ']' ∉ e.toList) (text : List Char) :
    Accepts entry extensions text ↔
      text = entry.toList ∨
        ∃ e ∈ extensions, text = entry.toList ++ "/**/*".toList ++ e.toList := by
  have hbase := base_of_unended hslash
  have hself : Rejected (String.ofList (base entry)) := by rwa [hbase, String.ofList_toList]
  rw [accepts_malformed_base_iff hback hstar hself hx, hbase]

theorem plain_of_scope {extensions : List String} {c : Config}
    (hx : extensions = c.extensions ∨ extensions = PatternSet.anyExtension) :
    ∀ e ∈ extensions, PlainText e.toList ∧ ']' ∉ e.toList := by
  have hall : ∀ e ∈ typescriptExtensions ++ javascriptExtensions, ']' ∉ e.toList := by decide
  have hany : ∀ e ∈ PatternSet.anyExtension, ']' ∉ e.toList := by decide
  intro e he
  refine ⟨plainText_of_scope hx e he, ?_⟩
  rcases hx with rfl | rfl
  · exact hall e (extensions_subset c he)
  · exact hany e he

end Entry

open Entry (normalize)
open Matcher (Rejected)

/-- The configuration whose only entry is one to include. -/
def Config.including (entry : String) (options : Option CompilerOptions) : Config :=
  { includes := some [entry], compilerOptions := options }

/-- The configuration whose only entry is one to exclude. -/
def Config.excluding (entry : String) (options : Option CompilerOptions) : Config :=
  { excludes := some [entry], compilerOptions := options }

theorem includes_including_iff {entry : String} {options : Option CompilerOptions}
    (text : List Char) : (Config.including entry options).Includes text ↔
      Entry.Accepts (normalize entry) (Config.including entry options).extensions text := by
  simp [Config.Includes, Config.including]

theorem excludes_excluding_iff {entry : String} {options : Option CompilerOptions}
    (text : List Char) : (Config.excluding entry options).Excludes text ↔
      Entry.Accepts (normalize entry) PatternSet.anyExtension text := by
  simp [Config.Excludes, Config.excluding]

theorem malformed_entry_alone {entry : String} (options : Option CompilerOptions)
    (hstar : (normalize entry).toList.getLast? ≠ some '*')
    (hslash : (normalize entry).toList.getLast? ≠ some '/') (hr : Rejected (normalize entry)) :
    (∃ rules, (Config.including entry options).rules.result = .ok rules ∧
      ∀ text, rules.classify text = .included ↔
        text = (normalize entry).toList ∨
          ∃ e ∈ (Config.including entry options).extensions,
            text = (normalize entry).toList ++ "/**/*".toList ++ e.toList) ∧
    (∃ rules, (Config.excluding entry options).rules.result = .ok rules ∧
      ∀ text, rules.classify text = .excluded ↔
        text = (normalize entry).toList ∨
          text = (normalize entry).toList ++ "/**/*".toList) := by
  have hback := Entry.backslash_notMem_normalize entry
  refine ⟨?_, ?_⟩
  · obtain ⟨rules, hrules⟩ := exists_rules (Config.including entry options)
    refine ⟨rules, hrules, ?_⟩
    intro text
    have hnone : ¬ (Config.including entry options).Excludes text := by
      simp [Config.Excludes, Config.including]
    rw [classify_included_iff hrules, and_iff_right hnone, includes_including_iff]
    exact Entry.accepts_malformed_iff hback hstar hslash hr (Entry.plain_of_scope (.inl rfl)) text
  · obtain ⟨rules, hrules⟩ := exists_rules (Config.excluding entry options)
    refine ⟨rules, hrules, ?_⟩
    intro text
    have hany := Entry.plain_of_scope (c := {}) (.inr (rfl : PatternSet.anyExtension = _))
    rw [classify_excluded_iff hrules, excludes_excluding_iff,
      Entry.accepts_malformed_iff hback hstar hslash hr hany]
    simp [PatternSet.anyExtension]

/-- A range that is still open, after a backslash that separates segments. -/
theorem open_range_alone :
    Rejected (normalize ".\\src\\[gen-") ∧
    (∃ rules, (Config.including ".\\src\\[gen-" (some ⟨true⟩)).rules.result = .ok rules ∧
      ∀ text, rules.classify text = .included ↔
        text = (normalize ".\\src\\[gen-").toList ∨
          ∃ e ∈ (Config.including ".\\src\\[gen-" (some ⟨true⟩)).extensions,
            text = (normalize ".\\src\\[gen-").toList ++ "/**/*".toList ++ e.toList) ∧
    (∃ rules, (Config.excluding ".\\src\\[gen-" (some ⟨true⟩)).rules.result = .ok rules ∧
      ∀ text, rules.classify text = .excluded ↔
        text = (normalize ".\\src\\[gen-").toList ∨
          text = (normalize ".\\src\\[gen-").toList ++ "/**/*".toList) := by
  have hr : Rejected (normalize ".\\src\\[gen-") := ⟨.unclosedClass, by decide⟩
  exact ⟨hr, malformed_entry_alone (some ⟨true⟩) (by decide) (by decide) hr⟩

/-- A file with an extension beneath the entry is neither included nor excluded. -/
theorem files_beneath_malformed :
    Rejected (normalize "[old") ∧
    (∃ rules, (Config.including "[old" none).rules.result = .ok rules ∧
      rules.classify "[old".toList = .included ∧
      rules.classify "[old/a.ts".toList = .notIncluded) ∧
    (∃ rules, (Config.excluding "[old" none).rules.result = .ok rules ∧
      rules.classify "[old".toList = .excluded ∧
      rules.classify "[old/a.ts".toList = .included) := by
  refine ⟨⟨.unclosedClass, by decide⟩, ?_, ?_⟩
  · exact ⟨_, rfl, by decide, by decide⟩
  · exact ⟨_, rfl, by decide, by decide⟩

end ProjectScope
