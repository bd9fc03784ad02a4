import ProjectScope.Proofs.BeneathGlobs
import ProjectScope.Proofs.PatternCompilation

/-! # What a bare entry stands for

An entry that does not end in an asterisk stands for its base and for what lies beneath a match of
the base and has an extension. If it names the directory of the project, it stands for all that has
an extension. Main statement: `accepts_iff_base_or_beneath`. -/
namespace ProjectScope

open Glob (PlainText)

namespace Matcher

theorem literalBraces_append (xs ys : List Char) :
    literalBraces (xs ++ ys) = literalBraces xs ++ literalBraces ys := List.flatMap_append

theorem literalBraces_of_unbraced {text : List Char} (h : ∀ c ∈ text, isBrace c = false) :
    literalBraces text = text := by
  induction text with
  | nil => rfl
  | cons c text ih =>
    obtain ⟨hc, htext⟩ := List.forall_mem_cons.mp h
    simp only [isBrace, Bool.or_eq_false_iff, beq_eq_false_iff_ne] at hc
    have hcons : literalBraces (c :: text) = [c] ++ literalBraces text := by
      simp [literalBraces, hc]
    rw [hcons, ih htext]
    rfl

theorem literalBraces_plain {e : List Char} (he : PlainText e) : literalBraces e = e := by
  refine literalBraces_of_unbraced ?_
  intro c hc
  obtain ⟨⟨-, -, -, hopen, hclose, -⟩, -⟩ := he c hc
  simp [isBrace, hopen, hclose]

theorem compile_anywhere {e : String} (he : PlainText e.toList) :
    ∃ m, compile ("**/*" ++ e) = pure m ∧
      ∀ text, m.accepts text = true ↔ e.toList <:+ text := by
  obtain ⟨g, hread, hg⟩ := Glob.read_anywhere he
  have hw : literalBraces ("**/*" ++ e).toList = "**/*".toList ++ e.toList := by
    rw [String.toList_append, literalBraces_append, literalBraces_plain he]
    rfl
  refine ⟨⟨"**/*" ++ e, g⟩, compile_of_read (hw ▸ hread), ?_⟩
  intro text
  rw [accepts, Glob.accepts_iff, hg]
  refine ⟨?_, ?_⟩
  · intro h
    obtain ⟨v, hv⟩ := h
    obtain ⟨x, rfl, -⟩ := Utf8.encode_eq_append_ascii (fun c hc => (he c hc).2) hv
    exact List.suffix_append x e.toList
  · intro h
    obtain ⟨x, rfl⟩ := h
    exact ⟨Utf8.encode x, Utf8.encode_append x e.toList⟩

theorem compile_beneath {base : List Char} {g : Glob}
    (h : Glob.read (literalBraces base) = .ok g) {e : String} (he : PlainText e.toList) :
    ∃ m, compile (Entry.beneath base e) = pure m ∧
      ∀ text, (g.accepts (Utf8.encode text) = true ∨ m.accepts text = true) ↔
        (g.accepts (Utf8.encode text) = true ∨
          ∃ q r, text = q ++ '/' :: r ∧ g.accepts (Utf8.encode q) = true ∧ e.toList <:+ r) := by
  obtain ⟨g', hread, hg'⟩ := Glob.read_beneath h he
  have hw : literalBraces (Entry.beneath base e).toList =
      literalBraces base ++ "/**/*".toList ++ e.toList := by
    rw [Entry.beneath, String.toList_ofList, literalBraces_append, literalBraces_append,
      literalBraces_plain he]
    rfl
  refine ⟨⟨Entry.beneath base e, g'⟩, compile_of_read (hw ▸ hread), ?_⟩
  intro text
  simp only [accepts, Glob.accepts_iff, hg', Glob.beneath_encode_iff he]

/-- Without a warning the pattern has been read as a glob. -/
theorem compile_of_log_nil {p : String} (h : (compile p).log = []) :
    ∃ g, Glob.read (literalBraces p.toList) = .ok g ∧ compile p = pure ⟨p, g⟩ := by
  cases hg : Glob.read (literalBraces p.toList) with
  | ok g => exact ⟨g, rfl, compile_of_read hg⟩
  | error fault =>
    simp only [compile, hg] at h
    cases h

theorem compiled_accepts_iff {p : String} {m : Matcher} (h : compile p = pure m)
    (text : List Char) :
    (∃ k, (compile p).result = .ok k ∧ k.accepts text = true) ↔ m.accepts text = true := by
  rw [h]
  refine ⟨?_, ?_⟩
  · intro hk
    obtain ⟨k, hk, hacc⟩ := hk
    cases hk
    exact hacc
  · exact fun hacc => ⟨m, rfl, hacc⟩

end Matcher

namespace Entry

/-- One of the patterns that an entry stands for accepts the path. -/
def Accepts (entry : String) (extensions : List String) (text : List Char) : Prop :=
  ∃ p ∈ expand entry extensions, ∃ m, (Matcher.compile p).result = .ok m ∧ m.accepts text = true

/-- The text ends with one of the extensions. -/
def HasExtension (extensions : List String) (text : List Char) : Prop :=
  ∃ e ∈ extensions, e.toList <:+ text

/-- The entry names the directory of the project. -/
def NamesRoot (entry : String) : Prop := base entry = [] ∨ base entry = ['.']

instance (entry : String) : Decidable (NamesRoot entry) :=
  inferInstanceAs (Decidable (base entry = [] ∨ base entry = ['.']))

variable {entry : String} {extensions : List String}

theorem expand_root (hn : entry.toList.getLast? ≠ some '*') (hb : NamesRoot entry) :
    expand entry extensions = anywhere extensions := by
  rw [expand, if_neg hn]
  exact if_pos hb

theorem expand_base (hn : entry.toList.getLast? ≠ some '*') (hb : ¬ NamesRoot entry) :
    expand entry extensions =
      String.ofList (base entry) :: extensions.map (beneath (base entry)) := by
  rw [expand, if_neg hn]
  exact if_neg hb

theorem accepts_root (hx : ∀ e ∈ extensions, PlainText e.toList)
    (hn : entry.toList.getLast? ≠ some '*') (hb : NamesRoot entry) (text : List Char) :
    Accepts entry extensions text ↔ HasExtension extensions text := by
  have hone : ∀ e ∈ extensions, (∃ m, (Matcher.compile ("**/*" ++ e)).result = .ok m ∧
      m.accepts text = true) ↔ e.toList <:+ text := by
    intro e he
    obtain ⟨m, hm, hacc⟩ := Matcher.compile_anywhere (hx e he)
    exact (Matcher.compiled_accepts_iff hm text).trans (hacc text)
  rw [Accepts, expand_root hn hb]
  refine ⟨?_, ?_⟩
  · intro h
    obtain ⟨p, hp, h⟩ := h
    obtain ⟨e, he, rfl⟩ := List.mem_map.mp hp
    exact ⟨e, he, (hone e he).mp h⟩
  · intro h
    obtain ⟨e, he, h⟩ := h
    exact ⟨_, List.mem_map_of_mem he, (hone e he).mpr h⟩

theorem accepts_base (hx : ∀ e ∈ extensions, PlainText e.toList)
    (hn : entry.toList.getLast? ≠ some '*') (hb : ¬ NamesRoot entry)
    (hlog : (Matcher.compile (String.ofList (base entry))).log = []) :
    ∃ m, (Matcher.compile (String.ofList (base entry))).result = .ok m ∧
      ∀ text, Accepts entry extensions text ↔ (m.accepts text = true ∨
        ∃ q r, text = q ++ '/' :: r ∧ m.accepts q = true ∧ HasExtension extensions r) := by
  obtain ⟨g, hread, hm⟩ := Matcher.compile_of_log_nil hlog
  rw [String.toList_ofList] at hread
  refine ⟨⟨String.ofList (base entry), g⟩, by rw [hm]; rfl, ?_⟩
  intro text
  have hbase := Matcher.compiled_accepts_iff hm text
  have hone : ∀ e ∈ extensions, (g.accepts (Utf8.encode text) = true ∨
      ∃ m, (Matcher.compile (beneath (base entry) e)).result = .ok m ∧ m.accepts text = true) ↔
      (g.accepts (Utf8.encode text) = true ∨
        ∃ q r, text = q ++ '/' :: r ∧ g.accepts (Utf8.encode q) = true ∧ e.toList <:+ r) := by
    intro e he
    obtain ⟨m, hm, hacc⟩ := Matcher.compile_beneath hread (hx e he)
    rw [Matcher.compiled_accepts_iff hm]
    exact hacc text
  rw [Accepts, expand_base hn hb]
  refine ⟨?_, ?_⟩
  · intro h
    obtain ⟨p, hp, h⟩ := h
    rcases List.mem_cons.mp hp with rfl | hp
    · exact .inl (hbase.mp h)
    · obtain ⟨e, he, rfl⟩ := List.mem_map.mp hp
      rcases (hone e he).mp (.inr h) with h | ⟨q, r, htext, hq, hr⟩
      · exact .inl h
      · exact .inr ⟨q, r, htext, hq, e, he, hr⟩
  · intro h
    rcases h with h | ⟨q, r, htext, hq, e, he, hr⟩
    · exact ⟨_, List.mem_cons_self, hbase.mpr h⟩
    · rcases (hone e he).mpr (.inr ⟨q, r, htext, hq, hr⟩) with h | h
      · exact ⟨_, List.mem_cons_self, hbase.mpr h⟩
      · exact ⟨_, List.mem_cons_of_mem _ (List.mem_map_of_mem he), h⟩

theorem plainText_of_scope {c : Config}
    (hx : extensions = c.extensions ∨ extensions = PatternSet.anyExtension) :
    ∀ e ∈ extensions, PlainText e.toList := by
  have hall : ∀ e ∈ typescriptExtensions ++ javascriptExtensions, PlainText e.toList := by
    decide
  have hany : ∀ e ∈ PatternSet.anyExtension, PlainText e.toList := by decide
  rcases hx with rfl | rfl
  · exact fun e he => hall e (extensions_subset c he)
  · exact hany

theorem accepts_iff_base_or_beneath (c : Config) (entry : String)
    (hx : extensions = c.extensions ∨ extensions = PatternSet.anyExtension)
    (hn : (normalize entry).toList.getLast? ≠ some '*') :
    (NamesRoot (normalize entry) → ∀ text,
      (Accepts (normalize entry) extensions text ↔ HasExtension extensions text) ∧
      (extensions = PatternSet.anyExtension → Accepts (normalize entry) extensions text)) ∧
    (¬ NamesRoot (normalize entry) →
      (Matcher.compile (String.ofList (base (normalize entry)))).log = [] →
      ∃ m, (Matcher.compile (String.ofList (base (normalize entry)))).result = .ok m ∧
        ∀ text, Accepts (normalize entry) extensions text ↔ (m.accepts text = true ∨
          ∃ q r, text = q ++ '/' :: r ∧ m.accepts q = true ∧ HasExtension extensions r)) := by
  have hplain := plainText_of_scope hx
  refine ⟨?_, accepts_base hplain hn⟩
  intro hb text
  have hroot := accepts_root hplain hn hb text
  refine ⟨hroot, ?_⟩
  intro he
  refine hroot.mpr ⟨"", ?_, List.nil_suffix⟩
  simp [he, PatternSet.anyExtension]

/-- Asterisks for directories at the end of a base, and an entry for the whole project. -/
theorem accepts_beneath_sources :
    (∃ m, (Matcher.compile "src/[a-c]*/**").result = .ok m ∧
      ∀ text, Accepts "src/[a-c]*/**/" typescriptExtensions text ↔ (m.accepts text = true ∨
        ∃ q r, text = q ++ '/' :: r ∧ m.accepts q = true ∧
          HasExtension typescriptExtensions r)) ∧
    Accepts "" PatternSet.anyExtension "lib/a.js".toList := by
  have hsrc := accepts_iff_base_or_beneath {} ".\\src\\[a-c]*/**/" (.inl rfl) (by decide)
  have hall := accepts_iff_base_or_beneath {} "./" (.inr rfl) (by decide)
  exact ⟨hsrc.2 (by decide) (by decide), (hall.1 (by decide) _).2 rfl⟩

end Entry

end ProjectScope
