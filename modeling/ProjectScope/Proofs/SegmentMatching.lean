import Mathlib.Computability.Language
import ProjectScope.Proofs.FlatScans
import ProjectScope.Proofs.PathBelow

/-! # Matching segment by segment

A pattern without brackets, braces and backslashes is matched as one text, in which two asterisks
take the place of the slash before them. What has been read up to the start of a segment stands for
a language, to which each segment and the slash after it add a factor (`steps_directory`), and the
last segment adds one too (`finish_name`). A path in the product is cut at its slashes to give each
segment its names (`joined_mem_textOf_iff`). Main statement: `accepts_iff_segments`. -/
namespace ProjectScope

/-! ## Segments of a pattern -/

namespace Segment

/-- The bytes that a character of a segment stands for. -/
def CharMatches (c : Char) (w : Bytes) : Prop :=
  if c = '*' then True else if c = '?' then ∃ b, w = [b] else w = String.utf8EncodeChar c

/-- The characters of a segment share a name among them. -/
def Matches : List Char → Bytes → Prop
  | [], w => w = []
  | c :: s, w => ∃ u v, w = u ++ v ∧ CharMatches c u ∧ Matches s v

/-- The segment that stands for any number of names. -/
def stars : List Char := ['*', '*']

/-- The segments share the names of a path among them, in order. At the end, the segment for any
number of names stands for one at least. -/
def MatchAll : List (List Char) → List Bytes → Prop
  | [], names => names = []
  | s :: rest, names =>
    if s = stars then
      ∃ passed others, names = passed ++ others ∧ (rest = [] → passed ≠ []) ∧ MatchAll rest others
    else ∃ name others, names = name :: others ∧ Matches s name ∧ MatchAll rest others

/-- A segment as it may stand in a pattern without brackets, braces and backslashes. -/
def IsSegment (s : List Char) : Prop := s ≠ [] ∧ ∀ c ∈ s, c ≠ '/' ∧ Glob.Inert c

instance (s : List Char) : Decidable (IsSegment s) :=
  have : Decidable (∀ c ∈ s, c ≠ '/' ∧ Glob.Inert c) := List.decidableBAll _ s
  inferInstanceAs (Decidable (s ≠ [] ∧ ∀ c ∈ s, c ≠ '/' ∧ Glob.Inert c))

/-- No segments but none at all stand for no names. -/
theorem matchAll_nil_right {segments : List (List Char)} :
    MatchAll segments [] ↔ segments = [] := by
  induction segments with
  | nil => simp [MatchAll]
  | cons s rest ih =>
    rw [MatchAll]
    split
    · simp +contextual [ih]
    · simp

end Segment

/-! ## Languages -/

namespace Glob

/-- All that an atom matches. -/
def Atom.language (a : Atom) : Language UInt8 := {w | a.Matches w}

/-- All that a glob matches. -/
def language (g : Glob) : Language UInt8 := {w | g.Matches w}

theorem language_ofPieces_nil : (ofPieces []).language = 1 := rfl

theorem language_ofPieces_cons (a : Atom) (ps : List Glob) :
    (ofPieces (.atom a :: ps)).language = (ofPieces ps).language * a.language := by
  ext w
  rw [Language.mem_mul]
  refine (matches_ofPieces_cons _ _ w).trans ⟨?_, ?_⟩
  · intro h
    obtain ⟨u, v, rfl, hu, hv⟩ := h
    exact ⟨u, hu, v, hv, rfl⟩
  · intro h
    obtain ⟨u, hu, v, hv, rfl⟩ := h
    exact ⟨u, v, rfl, hu, hv⟩

theorem mem_descent {w : Bytes} :
    w ∈ Atom.descent.language ↔ w = [] ∨ ∃ u, w = u ++ [Path.separator] := by
  change w = [] ∨ w.getLast? = some Path.separator ↔ _
  rw [List.getLast?_eq_some_iff]

theorem mem_slash {w : Bytes} : w ∈ (Atom.literal '/').language ↔ w = [Path.separator] := Iff.rfl

/-- Directories after directories are directories. -/
theorem descent_mul_descent :
    Atom.descent.language * Atom.descent.language = Atom.descent.language := by
  ext w
  rw [Language.mem_mul]
  refine ⟨?_, ?_⟩
  · intro h
    obtain ⟨u, hu, v, hv, rfl⟩ := h
    rcases mem_descent.mp hv with rfl | ⟨x, rfl⟩
    · rwa [List.append_nil]
    · exact mem_descent.mpr (.inr ⟨u ++ x, by simp⟩)
  · exact fun hw => ⟨[], mem_descent.mpr (.inl rfl), w, hw, rfl⟩

theorem slash_mul_descent :
    (Atom.literal '/').language * Atom.descent.language = Atom.between.language := by
  ext w
  rw [Language.mem_mul]
  change _ ↔ w.head? = some Path.separator ∧ w.getLast? = some Path.separator
  refine ⟨?_, ?_⟩
  · intro h
    obtain ⟨u, hu, v, hv, rfl⟩ := h
    obtain rfl := mem_slash.mp hu
    rcases mem_descent.mp hv with rfl | ⟨x, rfl⟩ <;> simp [List.getLast?_cons]
  · intro h
    obtain ⟨hhead, hlast⟩ := h
    cases w with
    | nil => cases hhead
    | cons b t =>
      obtain rfl := Option.some.inj hhead
      refine ⟨[Path.separator], mem_slash.mpr rfl, t, mem_descent.mpr ?_, rfl⟩
      cases t with
      | nil => exact .inl rfl
      | cons c t => exact .inr (List.getLast?_eq_some_iff.mp (by simpa using hlast))

theorem descent_mul_top : Atom.descent.language * ⊤ = ⊤ := by
  ext w
  exact iff_of_true (Language.mem_mul.mpr ⟨[], .inl rfl, w, trivial, rfl⟩) trivial

theorem slash_mul_top : (Atom.literal '/').language * ⊤ = Atom.beneath.language := by
  ext w
  rw [Language.mem_mul]
  change _ ↔ w.head? = some Path.separator
  refine ⟨?_, ?_⟩
  · intro h
    obtain ⟨u, hu, v, -, rfl⟩ := h
    obtain rfl := mem_slash.mp hu
    rfl
  · intro h
    cases w with
    | nil => cases h
    | cons b t =>
      obtain rfl := Option.some.inj h
      exact ⟨[Path.separator], mem_slash.mpr rfl, t, trivial, rfl⟩

end Glob

/-! ## What a segment adds -/

namespace Segment

open Glob (Atom)

/-- The names that a segment matches. -/
def language (s : List Char) : Language UInt8 := {w | Path.separator ∉ w ∧ Matches s w}

theorem mem_ofChar {c : Char} (hc : c ≠ '/') {w : Bytes} :
    w ∈ (Atom.ofChar c).language ↔ Path.separator ∉ w ∧ CharMatches c w := by
  unfold CharMatches
  change (Atom.ofChar c).Matches w ↔ _
  unfold Atom.ofChar
  split
  · exact (and_iff_left trivial).symm
  split
  · refine ⟨?_, ?_⟩
    · intro h
      obtain ⟨b, rfl, hb⟩ := h
      exact ⟨by simpa using hb.symm, b, rfl⟩
    · intro h
      obtain ⟨hsep, b, rfl⟩ := h
      exact ⟨b, rfl, by simpa using Ne.symm (List.ne_of_not_mem_cons hsep)⟩
  · have hsep : Path.separator ∉ String.utf8EncodeChar c :=
      mt (Utf8.asciiByte_mem_encodeChar_iff (by decide)).mp hc
    refine ⟨?_, And.right⟩
    rintro rfl
    exact ⟨hsep, rfl⟩

theorem language_cons {c : Char} (hc : c ≠ '/') (s : List Char) :
    language (c :: s) = (Atom.ofChar c).language * language s := by
  ext w
  rw [Language.mem_mul]
  refine ⟨?_, ?_⟩
  · intro h
    obtain ⟨hsep, u, v, rfl, hu, hv⟩ := h
    rw [List.mem_append, not_or] at hsep
    exact ⟨u, (mem_ofChar hc).mpr ⟨hsep.1, hu⟩, v, ⟨hsep.2, hv⟩, rfl⟩
  · intro h
    obtain ⟨u, hu, v, ⟨hv, hm⟩, rfl⟩ := h
    obtain ⟨hsep, hu⟩ := (mem_ofChar hc).mp hu
    exact ⟨by simp [hsep, hv], u, v, rfl, hu, hm⟩

/-- The atoms of a segment, the latest first. -/
def pieces (s : List Char) : List Glob := (s.map fun c => .atom (.ofChar c)).reverse

theorem pieces_cons (c : Char) (s : List Char) :
    pieces (c :: s) = pieces s ++ [.atom (.ofChar c)] := by
  simp [pieces]

theorem language_pieces {s : List Char} (hs : '/' ∉ s) : ∀ ps : List Glob,
    (Glob.ofPieces (pieces s ++ ps)).language = (Glob.ofPieces ps).language * language s := by
  induction s with
  | nil =>
    intro ps
    have hone : language [] = 1 := by
      ext w
      exact ⟨And.right, fun h => ⟨by simp [Language.mem_one _ |>.mp h], h⟩⟩
    rw [hone, mul_one]
    rfl
  | cons c s ih =>
    intro ps
    rw [List.mem_cons, not_or] at hs
    rw [pieces_cons, List.append_assoc, List.singleton_append, ih hs.2, Glob.language_ofPieces_cons,
      language_cons (Ne.symm hs.1), mul_assoc]

/-- The atoms of a segment are not directories. -/
theorem pieces_append_ne_descent {s : List Char} (hs : s ≠ []) (ps : List Glob) :
    pieces s ++ ps ≠ [.atom .descent] := by
  obtain ⟨c, s, rfl⟩ := List.exists_cons_of_ne_nil hs
  intro he
  have hm : .atom (.ofChar c) ∈ [Glob.atom .descent] := he ▸ by simp [pieces]
  have hc : Atom.ofChar c = .descent := Glob.atom.inj (List.mem_singleton.mp hm)
  unfold Atom.ofChar at hc
  split at hc
  · cases hc
  · split at hc <;> cases hc

/-- What a segment matches of a path, with the slash after it. -/
def directory (s : List Char) : Language UInt8 :=
  if s = stars then Atom.descent.language else language s * (Atom.literal '/').language

/-- What the last segment matches of a path. -/
def finalName (s : List Char) : Language UInt8 := if s = stars then ⊤ else language s

/-- What segments match as one text. -/
def textOf : List (List Char) → Language UInt8
  | [] => 1
  | [s] => finalName s
  | s :: rest => directory s * textOf rest

end Segment

/-! ## Reading a segment -/

namespace Glob

open Segment (stars)

/-- The pieces before a segment. -/
inductive Opening : List Glob → Prop
  | start : Opening []
  | descent : Opening [.atom .descent]
  | slash (ps : List Glob) : Opening (.atom (.literal '/') :: ps)
  | between (ps : List Glob) : Opening (.atom .between :: ps)

namespace Scan

/-- A segment begins here. -/
structure AtSegment (s : Scan) : Prop where
  plain : s.mode = .plain
  ungrouped : s.groups = []
  opening : Opening s.pieces
  previous : s.pieces = [] ∨ s.previous = some '/'

/-- Some of a segment has been read, and is not just asterisks that may stand for directories. -/
def Past (s : Scan) : Prop := s.pieces ≠ [] ∧ s.previous ≠ some '/'

/-- What has been read of a segment: only at its start asterisks may stand for directories. -/
structure Within (read : List Char) (s : Scan) : Prop where
  flat : s.Flat
  outside : s.insideClass = false
  plain : s.mode = .plain → read = [] ∨ s.Past
  star : s.mode = .star → read = ['*'] ∨ s.Past
  stars : s.mode = .stars → read = ['*', '*']

variable {s t : Scan} {c : Char} {read : List Char}

theorem AtSegment.within (h : s.AtSegment) : Within [] s := by
  have hm := h.plain
  refine ⟨⟨h.ungrouped, by simp [hm]⟩, by simp [insideClass, hm], fun _ => .inl rfl, ?_, ?_⟩
  · simp [hm]
  · simp [hm]

theorem past_pushAtom_after (s : Scan) (a : Atom) (hc : c ≠ '/') :
    ((s.pushAtom a).after c).Past := by
  refine ⟨by simp [pushAtom, push, after], by simpa [after] using hc⟩

theorem Past.mayDescend (h : s.Past) (hg : s.groups = []) : s.mayDescend = false := by
  simp [Scan.mayDescend, h.1, h.2, hg]

/-- Between pieces, once some of the segment has been read. -/
theorem within_after (hf : t.Flat) (hm : t.mode = .plain) (hp : t.Past) : Within read t := by
  refine ⟨hf, by simp [insideClass, hm], fun _ => .inr hp, ?_, ?_⟩
  · simp [hm]
  · simp [hm]

theorem Within.step (h : Within read s) (he : s.Effect c t) (hc : c ≠ '/') (hb : c ≠ '[') :
    Within (read ++ [c]) t := by
  have hf := he.flat h.flat
  cases he with
  | member _ hi | ended _ _ hi => simp [h.outside] at hi
  | opened _ he => exact absurd he hb
  | char => exact within_after hf rfl (past_pushAtom_after _ _ hc)
  | directories _ he => exact absurd he hc
  | asterisk _ hstar hm =>
    subst hstar
    refine ⟨hf, rfl, by simp, fun _ => ?_, by simp⟩
    rcases h.flat.mode_cases h.outside with hmode | hmode | hmode
    · rw [passStars_of_plain hmode]
      exact (h.plain hmode).imp (fun hr => by simp [hr]) id
    · exact absurd hmode hm
    · -- A third asterisk leaves the two before it as stretches.
      rw [passStars_of_stars hmode]
      exact .inr (past_pushAtom_after (s.pushAtom .stretch) .stretch hc)
  | asterisks hm hstar hd =>
    subst hstar
    refine ⟨hf, rfl, by simp, by simp, fun _ => ?_⟩
    rcases h.star hm with rfl | hp
    · rfl
    · simp [hp.mayDescend h.flat.ungrouped] at hd
  | stretches =>
    exact within_after hf rfl (past_pushAtom_after (s.pushAtom .stretch) .stretch (by decide))

theorem exists_steps {text : List Char} (htext : ∀ c ∈ text, c ≠ '/' ∧ Inert c) :
    ∀ {read : List Char} {s : Scan}, Within read s → ∃ t, text.foldlM step s = .ok t ∧
      Within (read ++ text) t ∧ t.passStars.pieces = Segment.pieces text ++ s.passStars.pieces := by
  induction text with
  | nil =>
    intro read s h
    exact ⟨s, rfl, by simpa using h, rfl⟩
  | cons c text ih =>
    intro read s h
    obtain ⟨⟨hslash, hc⟩, htext⟩ := List.forall_mem_cons.mp htext
    obtain ⟨u, hu, he⟩ := exists_step h.flat h.outside hc
    obtain ⟨t, ht, hwithin, hpieces⟩ := ih htext (h.step he hslash hc.1)
    refine ⟨t, (foldlM_step_cons hu text).trans ht, by simpa using hwithin, ?_⟩
    obtain ⟨added, hadds, hadded⟩ := he.adds fun _ => hslash
    cases hadds with
    | nothing hi => simp [h.outside, hc.1] at hi
    | char =>
      rw [hpieces, hadded, Segment.pieces_cons, List.append_assoc]
    | ended hi => simp [h.outside] at hi

/-! ## Asterisks that stand for directories -/

/-- Before another segment, they add directories to what comes before them. -/
theorem language_directories (h : Opening s.pieces) : Opening (s.directories .between).pieces ∧
    (ofPieces (s.directories .between).pieces).language =
      (ofPieces s.pieces).language * Atom.descent.language := by
  generalize hp : s.pieces = ps at h ⊢
  cases h with
  | start =>
    rw [pieces_directories_nil hp]
    exact ⟨.descent, language_ofPieces_cons .descent []⟩
  | descent =>
    rw [directories_cons hp, pieces_replaceLast_of_kept hp (.inl rfl), language_ofPieces_cons,
      mul_assoc, descent_mul_descent]
    exact ⟨.descent, rfl⟩
  | slash ps =>
    rw [directories_cons hp, pieces_replaceLast hp (by simp [Kept]), language_ofPieces_cons,
      language_ofPieces_cons, mul_assoc, slash_mul_descent]
    exact ⟨.between ps, rfl⟩
  | between ps =>
    rw [directories_cons hp, pieces_replaceLast hp (by simp [Kept]), language_ofPieces_cons,
      mul_assoc, ← slash_mul_descent, mul_assoc, descent_mul_descent]
    exact ⟨.between ps, rfl⟩

/-- At the end, they add anything. -/
theorem language_rest (h : Opening s.pieces) :
    (globOf (s.directories .beneath).pieces).language = (ofPieces s.pieces).language * ⊤ := by
  have htop : (globOf [.atom .descent]).language = ⊤ := by
    ext w
    exact iff_of_true (globOf_descent w) trivial
  have hbeneath : ∀ ps : List Glob, (globOf (.atom .beneath :: ps)).language =
      (ofPieces ps).language * Atom.beneath.language := by
    intro ps
    rw [globOf, if_neg (by simp), language_ofPieces_cons]
  generalize hp : s.pieces = ps at h ⊢
  cases h with
  | start => rw [pieces_directories_nil hp, htop, language_ofPieces_nil, one_mul]
  | descent =>
    rw [directories_cons hp, pieces_replaceLast_of_kept hp (.inl rfl), htop, language_ofPieces_cons,
      mul_assoc, descent_mul_top, language_ofPieces_nil, one_mul]
  | slash ps =>
    rw [directories_cons hp, pieces_replaceLast hp (by simp [Kept]), hbeneath,
      language_ofPieces_cons, mul_assoc, slash_mul_top]
  | between ps =>
    rw [directories_cons hp, pieces_replaceLast hp (by simp [Kept]), hbeneath,
      language_ofPieces_cons, mul_assoc, ← slash_mul_descent, mul_assoc, descent_mul_top,
      slash_mul_top]

/-! ## One segment and all of them -/

/-- A segment for one name adds its language and leaves no asterisks that stand for directories. -/
theorem steps_name (h : s.AtSegment) {x : List Char} (hx : Segment.IsSegment x)
    (hstars : x ≠ stars) : ∃ t, x.foldlM step s = .ok t ∧ Within x t ∧ t.mode ≠ .stars ∧
      t.passStars.pieces ≠ [.atom .descent] ∧
      (ofPieces t.passStars.pieces).language =
        (ofPieces s.pieces).language * Segment.language x := by
  obtain ⟨t, ht, hwithin, hpieces⟩ := exists_steps hx.2 h.within
  rw [passStars_of_plain h.plain] at hpieces
  have hno : '/' ∉ x := fun hm => (hx.2 '/' hm).1 rfl
  refine ⟨t, ht, hwithin, fun hm => hstars (hwithin.stars hm), ?_, ?_⟩
  · exact hpieces ▸ Segment.pieces_append_ne_descent hx.1 s.pieces
  · rw [hpieces, Segment.language_pieces hno]

/-- A segment and the slash after it lead to the start of the next. -/
theorem steps_directory (h : s.AtSegment) {x : List Char} (hx : Segment.IsSegment x) :
    ∃ t, (x ++ ['/']).foldlM step s = .ok t ∧ t.AtSegment ∧
      (ofPieces t.pieces).language = (ofPieces s.pieces).language * Segment.directory x := by
  by_cases hstars : x = stars
  · subst hstars
    obtain ⟨hopening, hlanguage⟩ := language_directories (s := { s with mode := .stars }) h.opening
    refine ⟨_, foldlM_concat (steps_stars h.plain h.previous) (step_stars_slash rfl),
      ⟨rfl, (groups_directories _ _).trans h.ungrouped, hopening, .inr rfl⟩, ?_⟩
    rw [Segment.directory, if_pos rfl]
    exact hlanguage
  · obtain ⟨t, ht, hwithin, hmode, -, hlanguage⟩ := steps_name h hx hstars
    have hslash := step_inert (c := '/') hwithin.flat hwithin.outside (by decide) (by decide)
      fun hm => absurd hm hmode
    refine ⟨_, foldlM_concat ht hslash,
      ⟨rfl, hwithin.flat.passStars.ungrouped, .slash t.passStars.pieces, .inr rfl⟩, ?_⟩
    rw [Segment.directory, if_neg hstars, ← mul_assoc, ← hlanguage]
    exact language_ofPieces_cons _ _

/-- The last segment ends the glob. -/
theorem finish_name (h : s.AtSegment) {x : List Char} (hx : Segment.IsSegment x) :
    ∃ t g, x.foldlM step s = .ok t ∧ t.finish = .ok g ∧
      g.language = (ofPieces s.pieces).language * Segment.finalName x := by
  by_cases hstars : x = stars
  · subst hstars
    refine ⟨_, _, steps_stars h.plain h.previous, finish_of_settle (settle_stars rfl)
      ((groups_directories _ _).trans h.ungrouped), ?_⟩
    rw [Segment.finalName, if_pos rfl]
    exact language_rest (s := { s with mode := .stars }) h.opening
  · obtain ⟨t, ht, hwithin, hmode, hne, hlanguage⟩ := steps_name h hx hstars
    have hsettle := settle_eq_passStars hwithin.flat hwithin.outside hmode
    refine ⟨t, _, ht, finish_of_settle hsettle hwithin.flat.passStars.ungrouped, ?_⟩
    rw [Segment.finalName, if_neg hstars, ← hlanguage, globOf, if_neg hne]

end Scan

/-- A list of segments is read to a glob that matches what they match as one text. -/
theorem foldlM_segments {segments : List (List Char)} (hne : segments ≠ [])
    (hs : ∀ x ∈ segments, Segment.IsSegment x) : ∀ {s : Scan}, s.AtSegment →
      ∃ t g, (['/'].intercalate segments).foldlM Scan.step s = .ok t ∧ t.finish = .ok g ∧
        g.language = (ofPieces s.pieces).language * Segment.textOf segments := by
  induction segments with
  | nil => exact absurd rfl hne
  | cons x rest ih =>
    intro s h
    obtain ⟨hx, hrest⟩ := List.forall_mem_cons.mp hs
    cases rest with
    | nil =>
      rw [List.intercalate_singleton]
      exact Scan.finish_name h hx
    | cons y rest =>
      obtain ⟨u, hu, hnext, hfirst⟩ := Scan.steps_directory h hx
      obtain ⟨t, g, ht, hg, hlanguage⟩ := ih (by simp) hrest hnext
      refine ⟨t, g, ?_, hg, ?_⟩
      · rw [List.intercalate_cons_cons, foldlM_step_append hu]
        exact ht
      · rw [hlanguage, hfirst, mul_assoc]
        rfl

end Glob

/-! ## Cutting a path at its slashes -/

namespace Segment

open Glob (Atom mem_descent mem_slash)

variable {names : List Bytes}

/-- The text of a path. -/
abbrev joined (names : List Bytes) : Bytes := [Path.separator].intercalate names

theorem joined_append {xs ys : List Bytes} (hx : xs ≠ []) (hy : ys ≠ []) :
    joined (xs ++ ys) = joined xs ++ Path.separator :: joined ys :=
  Path.text_relative_append hx hy

/-- A path is cut at a slash into two paths. -/
theorem exists_of_joined_eq (hn : names ≠ []) (hs : ∀ n ∈ names, Path.separator ∉ n) {a b : Bytes}
    (h : joined names = a ++ Path.separator :: b) :
    ∃ xs ys, xs ≠ [] ∧ ys ≠ [] ∧ names = xs ++ ys ∧ joined xs = a ∧ joined ys = b := by
  refine ⟨a.splitOn Path.separator, b.splitOn Path.separator, List.splitOn_ne_nil _ _,
    List.splitOn_ne_nil _ _, ?_, List.intercalate_splitOn _, List.intercalate_splitOn _⟩
  rw [← List.splitOn_intercalate Path.separator hs hn]
  change (joined names).splitOn _ = _
  rw [h]
  exact List.splitOnP_append_cons a b (beq_self_eq_true _)

/-- Without a slash, the text of a path is its only name. -/
theorem eq_singleton_of_joined (hn : names ≠ []) (h : Path.separator ∉ joined names) :
    names = [joined names] := by
  cases names with
  | nil => exact absurd rfl hn
  | cons n names =>
    cases names with
    | nil => simp
    | cons m names => simp at h

theorem joined_mem_finalName_iff (s : List Char) (hn : names ≠ [])
    (hs : ∀ n ∈ names, Path.separator ∉ n) :
    joined names ∈ finalName s ↔ MatchAll [s] names := by
  unfold finalName MatchAll
  split
  · exact iff_of_true trivial ⟨names, [], by simp, fun _ => hn, rfl⟩
  · refine ⟨?_, ?_⟩
    · intro h
      exact ⟨joined names, [], eq_singleton_of_joined hn h.1, h.2, rfl⟩
    · intro h
      obtain ⟨name, others, rfl, hname, hothers⟩ := h
      obtain rfl : others = [] := hothers
      rw [joined, List.intercalate_singleton]
      exact ⟨hs name List.mem_cons_self, hname⟩

/-- Directories are any number of names that come first. -/
theorem joined_mem_descent_mul_iff {later : Language UInt8} (hn : names ≠ [])
    (hs : ∀ n ∈ names, Path.separator ∉ n) : joined names ∈ Atom.descent.language * later ↔
      ∃ passed others, names = passed ++ others ∧ others ≠ [] ∧ joined others ∈ later := by
  rw [Language.mem_mul]
  refine ⟨?_, ?_⟩
  · intro h
    obtain ⟨a, ha, b, hb, hab⟩ := h
    rcases mem_descent.mp ha with rfl | ⟨u, rfl⟩
    · obtain rfl : b = joined names := hab
      exact ⟨[], names, rfl, hn, hb⟩
    · rw [List.append_assoc] at hab
      obtain ⟨xs, ys, -, hys, rfl, -, rfl⟩ := exists_of_joined_eq hn hs hab.symm
      exact ⟨xs, ys, rfl, hys, hb⟩
  · intro h
    obtain ⟨passed, others, rfl, hothers, hm⟩ := h
    by_cases hp : passed = []
    · subst hp
      exact ⟨[], mem_descent.mpr (.inl rfl), _, hm, rfl⟩
    · refine ⟨joined passed ++ [Path.separator], mem_descent.mpr (.inr ⟨_, rfl⟩), _, hm, ?_⟩
      rw [joined_append hp hothers, List.append_assoc]
      rfl

/-- Another segment and its slash are the first name, if others come after it. -/
theorem joined_mem_name_mul_iff (s : List Char) {later : Language UInt8} (hn : names ≠ [])
    (hs : ∀ n ∈ names, Path.separator ∉ n) :
    joined names ∈ language s * (Atom.literal '/').language * later ↔
      ∃ name others, names = name :: others ∧ others ≠ [] ∧ Matches s name ∧
        joined others ∈ later := by
  rw [Language.mem_mul]
  refine ⟨?_, ?_⟩
  · intro h
    obtain ⟨a, ha, b, hb, hab⟩ := h
    obtain ⟨x, ⟨hx, hmatch⟩, y, hy, rfl⟩ := Language.mem_mul.mp ha
    obtain rfl := mem_slash.mp hy
    rw [List.append_assoc] at hab
    obtain ⟨xs, ys, hxs, hys, rfl, rfl, rfl⟩ := exists_of_joined_eq hn hs hab.symm
    have hone := eq_singleton_of_joined hxs hx
    exact ⟨joined xs, ys, congrArg (· ++ ys) hone, hys, hmatch, hb⟩
  · intro h
    obtain ⟨name, others, rfl, hothers, hmatch, hm⟩ := h
    have hfirst : name ∈ language s := ⟨hs name List.mem_cons_self, hmatch⟩
    exact ⟨name ++ [Path.separator], Language.append_mem_mul hfirst (mem_slash.mpr rfl), _, hm,
      (List.intercalate_cons_of_ne_nil hothers).symm⟩

theorem joined_mem_directory_mul_iff (s : List Char) {rest : List (List Char)} (hr : rest ≠ [])
    {later : Language UInt8}
    (hlater : ∀ {others : List Bytes}, others ≠ [] → (∀ n ∈ others, Path.separator ∉ n) →
      (joined others ∈ later ↔ MatchAll rest others))
    (hn : names ≠ []) (hs : ∀ n ∈ names, Path.separator ∉ n) :
    joined names ∈ directory s * later ↔ MatchAll (s :: rest) names := by
  have hothers : ∀ others : List Bytes, (∀ n ∈ others, n ∈ names) →
      (others ≠ [] ∧ joined others ∈ later ↔ MatchAll rest others) := by
    intro others hsub
    by_cases ho : others = []
    · subst ho
      simp [matchAll_nil_right, hr]
    · rw [and_iff_right ho, hlater ho fun n hm => hs n (hsub n hm)]
  unfold directory MatchAll
  split
  · rw [joined_mem_descent_mul_iff hn hs]
    refine exists_congr fun passed => exists_congr fun others => and_congr_right ?_
    rintro rfl
    simp [hr, hothers others fun n hm => List.mem_append_right _ hm]
  · rw [joined_mem_name_mul_iff s hn hs]
    refine exists_congr fun name => exists_congr fun others => and_congr_right ?_
    rintro rfl
    rw [and_left_comm, hothers others fun n hm => List.mem_cons_of_mem _ hm]

/-- As one text, segments match the paths whose names they match. -/
theorem joined_mem_textOf_iff {segments : List (List Char)} (hne : segments ≠ []) :
    ∀ {names : List Bytes}, names ≠ [] → (∀ n ∈ names, Path.separator ∉ n) →
      (joined names ∈ textOf segments ↔ MatchAll segments names) := by
  induction segments with
  | nil => exact absurd rfl hne
  | cons s rest ih =>
    cases rest with
    | nil => exact joined_mem_finalName_iff s
    | cons r rest => exact joined_mem_directory_mul_iff s (by simp) (ih (by simp))

end Segment

namespace Matcher

open Segment (IsSegment MatchAll)

theorem encode_joined (names : List (List Char)) :
    Utf8.encode (['/'].intercalate names) = Segment.joined (names.map Utf8.encode) := by
  induction names with
  | nil => rfl
  | cons n names ih =>
    cases names with
    | nil => simp
    | cons m names =>
      rw [List.intercalate_cons_cons, Utf8.encode_append, Utf8.encode_append, ih]
      simp only [List.map_cons, Segment.joined, List.intercalate_cons_cons]
      rfl

theorem mem_intercalate {segments : List (List Char)} {c : Char}
    (h : c ∈ ['/'].intercalate segments) : c = '/' ∨ ∃ s ∈ segments, c ∈ s := by
  induction segments with
  | nil => cases h
  | cons s rest ih =>
    cases rest with
    | nil => exact .inr ⟨s, List.mem_cons_self, by simpa using h⟩
    | cons r rest =>
      rw [List.intercalate_cons_cons, List.mem_append, List.mem_append, List.mem_singleton] at h
      rcases h with (hc | hc) | hc
      · exact .inr ⟨s, List.mem_cons_self, hc⟩
      · exact .inl hc
      · refine (ih hc).imp id ?_
        intro he
        obtain ⟨k, hk, hc⟩ := he
        exact ⟨k, List.mem_cons_of_mem s hk, hc⟩

theorem accepts_iff_segments {segments : List (List Char)} (hne : segments ≠ [])
    (hs : ∀ s ∈ segments, IsSegment s) :
    ∃ m, compile (String.ofList (['/'].intercalate segments)) = pure m ∧
      ∀ names : List (List Char), names ≠ [] → (∀ n ∈ names, '/' ∉ n) →
        (m.accepts (['/'].intercalate names) = true ↔
          MatchAll segments (names.map Utf8.encode)) := by
  have hstart : Glob.Scan.AtSegment {} := ⟨rfl, rfl, .start, .inl rfl⟩
  obtain ⟨t, g, ht, hg, hlanguage⟩ := Glob.foldlM_segments hne hs hstart
  have hbraces : ∀ c ∈ ['/'].intercalate segments, isBrace c = false := by
    intro c hc
    rcases mem_intercalate hc with rfl | ⟨s, hm, hc⟩
    · decide
    · exact ((hs s hm).2 c hc).2.2.1
  have hread := Glob.read_of_foldlM ht hg
  rw [← literalBraces_of_unbraced hbraces,
    ← String.toList_ofList (l := ['/'].intercalate segments)] at hread
  refine ⟨_, compile_of_read hread, ?_⟩
  intro names hn hsep
  rw [accepts, Glob.accepts_iff, encode_joined]
  have hseps : ∀ n ∈ names.map Utf8.encode, Path.separator ∉ n := by
    intro n hm
    obtain ⟨name, hname, rfl⟩ := List.mem_map.mp hm
    exact mt (Utf8.asciiByte_mem_encode_iff (by decide)).mp (hsep name hname)
  rw [← Segment.joined_mem_textOf_iff hne (by simpa using hn) hseps]
  change _ ∈ g.language ↔ _
  rw [hlanguage, Glob.language_ofPieces_nil, one_mul]

/-- Any number of names in the middle, and one at least at the end. -/
def twiceStarred : List (List Char) := ["s?c".toList, "**".toList, ".!t*".toList, "**".toList]

theorem twiceStarred_segments :
    twiceStarred ≠ [] ∧ (∀ s ∈ twiceStarred, IsSegment s) ∧
    ∃ m, compile (String.ofList (['/'].intercalate twiceStarred)) = pure m ∧
      m.accepts "src/.!t/a.ts".toList = true ∧
      MatchAll twiceStarred (["src".toList, ".!t".toList, "a.ts".toList].map Utf8.encode) ∧
      m.accepts "src/.!t".toList = false ∧
      ¬ MatchAll twiceStarred (["src".toList, ".!t".toList].map Utf8.encode) := by
  have hne : twiceStarred ≠ [] := by decide
  have hs : ∀ s ∈ twiceStarred, IsSegment s := by decide
  obtain ⟨m, hm, hacc⟩ := accepts_iff_segments hne hs
  have hdecisions : (compile (String.ofList (['/'].intercalate twiceStarred))).result.toOption.map
      (fun k => (k.accepts "src/.!t/a.ts".toList, k.accepts "src/.!t".toList)) =
        some (true, false) := by
    decide
  rw [hm] at hdecisions
  obtain ⟨hyes, hno⟩ := Prod.mk.inj (Option.some.inj hdecisions)
  have hthree := hacc ["src".toList, ".!t".toList, "a.ts".toList] (by decide) (by decide)
  have htwo := hacc ["src".toList, ".!t".toList] (by decide) (by decide)
  refine ⟨hne, hs, m, hm, hyes, hthree.mp hyes, hno, ?_⟩
  intro h
  rw [← htwo] at h
  exact absurd (h.symm.trans hno) (by decide)

end Matcher

end ProjectScope
