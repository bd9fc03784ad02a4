import ProjectScope.Proofs.BeneathGlobs
import ProjectScope.Proofs.FailingFolds
import ProjectScope.Proofs.PatternCompilation

/-! # Patterns that are read again with their wildcards in classes

A pattern that is rejected is matched literally when it has no backslash. The second reading leaves
backslashes as they are, so that they still escape what follows, and then the pattern is rejected
once more or does not match its own text. For the latter it is enough to know what a match begins
with: whatever is read later, the pieces that have been read outside groups stay
(`outermost_of_foldlM`). Main statement: `rejected_pattern_literal`. -/
namespace ProjectScope

namespace Utf8

theorem pieces_encode_append (cs : List Char) (s : Bytes) :
    pieces (encode cs ++ s) = cs.map .char ++ pieces s := by
  induction cs with
  | nil => rfl
  | cons c cs ih =>
    rw [encode_cons, List.append_assoc, List.map_cons, List.cons_append, ← ih]
    exact piecesAfter_encodeChar c _

/-- Encoded text begins with another just where its characters do. -/
theorem exists_of_encode_eq_append {cs xs : List Char} {s : Bytes}
    (h : encode cs = encode xs ++ s) : ∃ ys, cs = xs ++ ys := by
  have hl := congrArg lossy h
  rw [lossy_encode, lossy, pieces_encode_append, List.map_append, List.map_map] at hl
  have hx : xs.map (Piece.shown ∘ Piece.char) = xs := List.map_id'' (fun _ => rfl) xs
  exact ⟨_, by rw [hl, hx]⟩

end Utf8

namespace Glob

open Matcher (isMeta inBrackets literalAll)

/-- The earliest pieces come first in a match. -/
theorem matches_ofPieces_append {qs ps : List Glob} {w : Bytes}
    (h : (ofPieces (qs ++ ps)).Matches w) : ∃ u v, w = u ++ v ∧ (ofPieces ps).Matches u := by
  rw [ofPieces, List.foldl_append] at h
  obtain ⟨u, v, hw, hu, -⟩ := (matches_foldl ps _ w).mp h
  exact ⟨u, v, hw, hu⟩

namespace Scan

variable {s t : Scan} {c : Char}

/-! ## Pieces outside groups -/

/-- The pieces outside all groups, the latest first. -/
def outermost (s : Scan) : List Glob := (s.groups.getLast?.map Group.before).getD s.pieces

/-- No asterisk has just been read. -/
def Settled (s : Scan) : Prop := s.mode ≠ .star ∧ s.mode ≠ .stars

theorem outermost_pushAtom (s : Scan) (a : Atom) : s.outermost <:+ (s.pushAtom a).outermost := by
  cases hg : s.groups.getLast? with
  | none => simp [outermost, pushAtom, push, hg]
  | some g => simp [outermost, pushAtom, push, hg]

theorem outermost_openGroup (s : Scan) : s.openGroup.outermost = s.outermost := by
  cases hg : s.groups with
  | nil => simp [outermost, openGroup, hg]
  | cons g outer => simp [outermost, openGroup, hg, List.getLast?_cons]

theorem outermost_comma (s : Scan) : s.outermost <:+ s.comma.outermost := by
  unfold comma
  split
  · exact outermost_pushAtom s _
  · next g outer hg => cases outer <;> simp [outermost, hg, List.getLast?_cons]

theorem outermost_closeGroup (h : s.closeGroup = .ok t) : s.outermost <:+ t.outermost := by
  unfold closeGroup at h
  split at h
  · cases h
  · next g outer hg =>
    cases h
    cases outer with
    | nil => simp [outermost, hg]
    | cons k outer => simp [outermost, hg, List.getLast?_cons]

theorem outermost_stepPlain (hc : c ≠ '*') (h : s.stepPlain c = .ok t) :
    s.outermost <:+ t.outermost ∧ t.Settled := by
  have hafter : ∀ (u : Scan) (d : Char), (u.after d).Settled := fun _ _ => ⟨by simp [after],
    by simp [after]⟩
  unfold stepPlain at h
  split at h
  · cases h
    exact ⟨outermost_pushAtom s .any, hafter _ _⟩
  · exact absurd rfl hc
  · cases h
    exact ⟨List.suffix_refl _, by simp [Settled]⟩
  · cases h
    exact ⟨(outermost_openGroup s).symm ▸ List.suffix_refl _, hafter _ _⟩
  · cases hg : s.closeGroup with
    | error fault =>
      rw [hg] at h
      cases h
    | ok u =>
      rw [hg] at h
      cases h
      have hu : s.outermost <:+ u.outermost := outermost_closeGroup hg
      exact ⟨hu, hafter _ _⟩
  · cases h
    exact ⟨outermost_comma s, hafter _ _⟩
  · cases h
    exact ⟨List.suffix_refl _, by simp [Settled]⟩
  · cases h
    exact ⟨outermost_pushAtom s _, hafter _ _⟩

theorem outermost_stepClass {k : ClassScan} (h : s.stepClass k c = .ok t) :
    s.outermost <:+ t.outermost ∧ t.Settled := by
  unfold stepClass at h
  split at h
  · cases h
    exact ⟨outermost_pushAtom s _, by simp [closeClass, after, Settled]⟩
  split at h
  · cases h
    exact ⟨List.suffix_refl _, by simp [Settled]⟩
  split at h
  · obtain ⟨k', -, h⟩ := bind_eq_ok.mp h
    cases h
    exact ⟨List.suffix_refl _, by simp [Settled]⟩
  · cases h
    exact ⟨List.suffix_refl _, by simp [Settled]⟩

/-- One character other than an asterisk. -/
theorem outermost_step (hm : s.mode ≠ .stars) (hc : c ≠ '*') (h : s.step c = .ok t) :
    s.outermost <:+ t.outermost ∧ t.Settled := by
  unfold step at h
  split at h
  · exact outermost_stepPlain hc h
  · rw [if_neg hc] at h
    obtain ⟨hsuffix, hs⟩ := outermost_stepPlain hc h
    exact ⟨(outermost_pushAtom s .stretch).trans hsuffix, hs⟩
  · next hstars => exact absurd hstars hm
  · cases h
    exact ⟨outermost_pushAtom s _, by simp [after, Settled]⟩
  · split at h
    · cases h
      exact ⟨List.suffix_refl _, by simp [Settled]⟩
    · exact outermost_stepClass h
  · exact outermost_stepClass h

/-- An asterisk that does not follow another. -/
theorem outermost_step_star (hs : s.Settled) (h : s.step '*' = .ok t) :
    s.outermost <:+ t.outermost ∧ t.mode ≠ .stars := by
  unfold step at h
  split at h
  · cases h
    exact ⟨List.suffix_refl _, by simp⟩
  · next hstar => exact absurd hstar hs.1
  · next hstars => exact absurd hstars hs.2
  · cases h
    exact ⟨outermost_pushAtom s _, by simp [after]⟩
  · rw [if_neg (by decide)] at h
    obtain ⟨hsuffix, ht⟩ := outermost_stepClass h
    exact ⟨hsuffix, ht.2⟩
  · obtain ⟨hsuffix, ht⟩ := outermost_stepClass h
    exact ⟨hsuffix, ht.2⟩

/-- What follows the opening bracket of a character in a class of its own. -/
theorem outermost_of_closing (hs : s.Settled) (h : [c, ']'].foldlM step s = .ok t) :
    s.outermost <:+ t.outermost ∧ t.Settled := by
  obtain ⟨u, hu, h⟩ := foldlM_cons_eq_ok.mp h
  obtain ⟨v, hv, h⟩ := foldlM_cons_eq_ok.mp h
  cases h
  have hfirst : s.outermost <:+ u.outermost ∧ u.mode ≠ .stars := by
    by_cases hc : c = '*'
    · subst hc
      exact outermost_step_star hs hu
    · obtain ⟨hsuffix, hu⟩ := outermost_step hs.2 hc hu
      exact ⟨hsuffix, hu.2⟩
  obtain ⟨hsuffix, ht⟩ := outermost_step hfirst.2 (by decide) hv
  exact ⟨hfirst.1.trans hsuffix, ht⟩

/-- Whatever is read with its wildcards in classes, the pieces outside groups stay. -/
theorem outermost_of_foldlM {text : List Char} : ∀ {s t : Scan}, s.Settled →
    (literalAll text).foldlM step s = .ok t → s.outermost <:+ t.outermost ∧ t.Settled := by
  induction text with
  | nil =>
    intro s t hs h
    cases h
    exact ⟨List.suffix_refl _, hs⟩
  | cons c text ih =>
    intro s t hs h
    rw [literalAll, List.flatMap_cons, ← literalAll] at h
    obtain ⟨u, hu, h⟩ := foldlM_append_eq_ok.mp h
    have hfirst : s.outermost <:+ u.outermost ∧ u.Settled := by
      by_cases hc : isMeta c = true
      · rw [if_pos hc, inBrackets] at hu
        obtain ⟨v, hv, hu⟩ := foldlM_cons_eq_ok.mp hu
        obtain ⟨hv, hsettled⟩ := outermost_step hs.2 (by decide) hv
        obtain ⟨hu, hu'⟩ := outermost_of_closing hsettled hu
        exact ⟨hv.trans hu, hu'⟩
      · rw [if_neg hc] at hu
        obtain ⟨v, hv, hu⟩ := foldlM_cons_eq_ok.mp hu
        cases hu
        exact outermost_step hs.2 (by rintro rfl; exact hc rfl) hv
    obtain ⟨hsuffix, ht⟩ := ih hfirst.2 h
    exact ⟨hfirst.1.trans hsuffix, ht⟩

/-! ## Matches of what has been read -/

/-- The scan stands outside classes, escapes and groups, and what it has read matches one text. -/
structure StandsFor (s : Scan) (text : List Char) : Prop where
  plain : s.mode = .plain
  outside : s.groups = []
  no_descent : .atom .descent ∉ s.pieces
  matches_iff : ∀ w, (ofPieces s.pieces).Matches w ↔ w = Utf8.encode text

variable {text : List Char}

theorem StandsFor.settled (h : s.StandsFor text) : s.Settled := by simp [Settled, h.plain]

theorem StandsFor.outermost_eq (h : s.StandsFor text) : s.outermost = s.pieces := by
  simp [outermost, h.outside]

theorem StandsFor.push (h : s.StandsFor text) {x : Spelling} (hx : x.Safe) (c : Char) :
    ((s.push x.piece).after c).StandsFor (text ++ [x.char]) := by
  refine ⟨rfl, h.outside, ?_, ?_⟩
  · intro hm
    rcases List.mem_cons.mp hm with he | hm
    · exact x.piece_ne_descent he.symm
    · exact h.no_descent hm
  · intro w
    simp only [after, Scan.push, matches_ofPieces_cons, h.matches_iff, Spelling.matches_piece hx,
      Utf8.encode_append, Utf8.encode_cons, Utf8.encode_nil, List.append_nil]
    refine ⟨?_, ?_⟩
    · intro hw
      obtain ⟨u, v, rfl, rfl, rfl⟩ := hw
      rfl
    · intro hw
      exact ⟨_, _, hw, rfl, rfl⟩

/-- A match begins with the text that was read before. -/
theorem StandsFor.begins (h : s.StandsFor text) (hsuffix : s.outermost <:+ t.outermost)
    (ht : t.Settled) {g : Glob} (hf : t.finish = .ok g) {w : List Char}
    (hw : g.Matches (Utf8.encode w)) : ∃ rest, w = text ++ rest := by
  obtain ⟨t', hset, hgroups, rfl⟩ := finish_eq_ok hf
  have hsame : t' = t := by
    unfold settle at hset
    cases hm : t.mode with
    | plain =>
      rw [hm] at hset
      exact (Except.ok.inj hset).symm
    | star => exact absurd hm ht.1
    | stars => exact absurd hm ht.2
    | backslash => simp [hm] at hset
    | bracket => simp [hm] at hset
    | inClass k => simp [hm] at hset
  subst hsame
  have hout : t'.outermost = t'.pieces := by simp [outermost, hgroups]
  rw [h.outermost_eq, hout] at hsuffix
  have hbegin : ∃ u v, Utf8.encode w = u ++ v ∧ (ofPieces s.pieces).Matches u := by
    unfold globOf at hw
    split at hw
    · next hd =>
      rw [hd] at hsuffix
      rcases List.suffix_cons_iff.mp hsuffix with he | hnil
      · exact absurd (he ▸ List.mem_singleton_self _) h.no_descent
      · exact ⟨[], _, rfl, List.suffix_nil.mp hnil ▸ rfl⟩
    · obtain ⟨later, hlater⟩ := hsuffix
      rw [← hlater] at hw
      exact matches_ofPieces_append hw
  obtain ⟨u, v, hw, hu⟩ := hbegin
  rw [(h.matches_iff u).mp hu] at hw
  exact Utf8.exists_of_encode_eq_append hw

end Scan

/-! ## Backslashes -/

open Scan (StandsFor)

/-- Wherever the text is read, what has been read and then the text itself is no match, if the text
has a backslash or more backslashes come before it. -/
def NoOwnMatch (p : List Char) : Prop :=
  ∀ ⦃s t : Scan⦄ ⦃text : List Char⦄ ⦃k : Nat⦄, s.StandsFor text → 0 < k ∨ '\\' ∈ p →
    (literalAll p).foldlM Scan.step s = .ok t → ∀ ⦃g : Glob⦄, t.finish = .ok g →
      ¬ g.Matches (Utf8.encode (text ++ (List.replicate k '\\' ++ p)))

/-- The match goes on with another character where the text goes on with a backslash. -/
theorem not_matches_of_next {s t : Scan} {text : List Char} {x : Char}
    (h : s.StandsFor (text ++ [x])) (hx : x ≠ '\\') (hsuffix : s.outermost <:+ t.outermost)
    (ht : t.Settled) {g : Glob} (hf : t.finish = .ok g) (rest : List Char) :
    ¬ g.Matches (Utf8.encode (text ++ '\\' :: rest)) := by
  intro hw
  obtain ⟨ys, he⟩ := h.begins hsuffix ht hf hw
  rw [List.append_assoc, List.append_cancel_left_eq] at he
  exact hx (List.cons_eq_cons.mp he).1.symm

theorem noOwnMatch_nil : NoOwnMatch [] := by
  intro s t text k h hk hfold g hf
  have hpos : 0 < k := hk.resolve_right (by simp)
  cases hfold
  have hne : s.pieces ≠ [.atom .descent] := fun he =>
    h.no_descent (he ▸ List.mem_singleton_self _)
  rw [finish_of_plain h.plain h.outside hne] at hf
  cases hf
  rw [h.matches_iff]
  intro he
  have hlen := congrArg List.length (Utf8.encode_injective he)
  simp at hlen
  omega

theorem NoOwnMatch.cons {c : Char} {p : List Char} (ih : NoOwnMatch p) (hc : c ≠ '\\') :
    NoOwnMatch (c :: p) := by
  intro s t text k h hk hfold g hf
  have hsafe := Matcher.quoted_safe hc
  have hchar : (Matcher.quoted c).char = c := by
    unfold Matcher.quoted
    split <;> rfl
  obtain ⟨d, hd⟩ := Spelling.step_written hsafe h.plain h.outside
  have hw : literalAll (c :: p) = (Matcher.quoted c).written ++ literalAll p := by
    rw [Matcher.literalAll_eq_written, Matcher.literalAll_eq_written]
    rfl
  rw [hw, foldlM_step_append hd] at hfold
  have hnext := h.push hsafe d
  rw [hchar] at hnext
  cases k with
  | zero =>
    have hp : '\\' ∈ p := (List.mem_cons.mp (hk.resolve_left (by simp))).resolve_left hc.symm
    simpa using ih (k := 0) hnext (.inr hp) hfold hf
  | succ k =>
    obtain ⟨hsuffix, ht⟩ := Scan.outermost_of_foldlM hnext.settled hfold
    exact not_matches_of_next hnext hc hsuffix ht hf _

/-- A backslash at the end escapes nothing, and the text is not read at all. -/
theorem noOwnMatch_backslash : NoOwnMatch ['\\'] := by
  intro s t text k h hk hfold g hf
  have hstep : s.step '\\' = .ok { s with mode := .backslash, previous := some '\\' } := by
    simp [Scan.step, h.plain, Scan.stepPlain]
  have hback := (foldlM_step_cons hstep []).symm.trans hfold
  cases hback
  cases hf

theorem literalAll_backslash (p : List Char) : literalAll ('\\' :: p) = '\\' :: literalAll p := rfl

/-- A backslash and a character other than a backslash: the match goes on with this character or
with the bracket that it is put into. -/
theorem noOwnMatch_escape {d : Char} (hd : d ≠ '\\') (p : List Char) :
    NoOwnMatch ('\\' :: d :: p) := by
  intro s t text k h hk hfold g hf
  obtain ⟨x, later, hx, hw, hlater⟩ : ∃ x later, x ≠ '\\' ∧ literalAll (d :: p) = x :: later ∧
      ∀ {u : Scan}, u.Settled → later.foldlM Scan.step u = .ok t →
        u.outermost <:+ t.outermost ∧ t.Settled := by
    by_cases hmeta : isMeta d = true
    · refine ⟨'[', [d, ']'] ++ literalAll p, by decide, ?_, ?_⟩
      · simp [literalAll, hmeta, inBrackets]
      · intro u hu hfold
        obtain ⟨v, hv, hfold⟩ := foldlM_append_eq_ok.mp hfold
        obtain ⟨hfirst, hv⟩ := Scan.outermost_of_closing hu hv
        obtain ⟨hsuffix, ht⟩ := Scan.outermost_of_foldlM hv hfold
        exact ⟨hfirst.trans hsuffix, ht⟩
    · exact ⟨d, literalAll p, hd, by simp [literalAll, hmeta], Scan.outermost_of_foldlM⟩
  obtain ⟨c, hc⟩ := Spelling.step_written (x := .escaped x) trivial h.plain h.outside
  have hsplit : literalAll ('\\' :: d :: p) = (Spelling.escaped x).written ++ later := by
    rw [literalAll_backslash, hw]
    rfl
  rw [hsplit, foldlM_step_append hc] at hfold
  have hnext := h.push (x := .escaped x) trivial c
  obtain ⟨hsuffix, ht⟩ := hlater hnext.settled hfold
  have hno := not_matches_of_next hnext hx hsuffix ht hf
  cases k with
  | zero => exact hno _
  | succ k => exact hno _

/-- Two backslashes match one, so that the text runs ahead of the match by one more. -/
theorem NoOwnMatch.backslashes {p : List Char} (ih : NoOwnMatch p) :
    NoOwnMatch ('\\' :: '\\' :: p) := by
  intro s t text k h hk hfold g hf
  obtain ⟨c, hc⟩ := Spelling.step_written (x := .escaped '\\') trivial h.plain h.outside
  have hsplit : literalAll ('\\' :: '\\' :: p) =
      (Spelling.escaped '\\').written ++ literalAll p := rfl
  rw [hsplit, foldlM_step_append hc] at hfold
  have hno := ih (k := k + 1) (h.push (x := .escaped '\\') trivial c) (.inl k.succ_pos) hfold hf
  have htext : text ++ (List.replicate k '\\' ++ '\\' :: '\\' :: p) =
      text ++ [(Spelling.escaped '\\').char] ++ (List.replicate (k + 1) '\\' ++ p) := by
    rw [List.append_cons, ← List.replicate_succ', List.append_cons, ← List.replicate_succ',
      List.replicate_succ, List.append_assoc]
    rfl
  rwa [htext]

theorem noOwnMatch : ∀ p : List Char, NoOwnMatch p
  | [] => noOwnMatch_nil
  | [c] => by
    by_cases hc : c = '\\'
    · subst hc
      exact noOwnMatch_backslash
    · exact noOwnMatch_nil.cons hc
  | c :: d :: p => by
    by_cases hc : c = '\\'
    · subst hc
      by_cases hd : d = '\\'
      · subst hd
        exact (noOwnMatch p).backslashes
      · exact noOwnMatch_escape hd p
    · exact (noOwnMatch (d :: p)).cons hc

end Glob

namespace Matcher

theorem compile_of_error {p : String} {fault : Glob.Fault}
    (h : Glob.read (literalBraces p.toList) = .error fault) :
    (compile p).log = [.literally p (String.ofList (literalBraces p.toList)) fault] := by
  simp only [compile, h]
  cases Glob.read (literalAll p.toList) <;> rfl

/-- A pattern that is rejected and has a backslash does not match its own text. -/
theorem not_accepts_own_of_backslash {p : String} {fault : Glob.Fault}
    (h : Glob.read (literalBraces p.toList) = .error fault) (hp : '\\' ∈ p.toList) {m : Matcher}
    (hm : (compile p).result = .ok m) : m.accepts p.toList = false := by
  simp only [compile, h] at hm
  cases hg : Glob.read (literalAll p.toList) with
  | error fault =>
    rw [hg] at hm
    cases hm
  | ok g =>
    rw [hg] at hm
    cases hm
    obtain ⟨t, ht, hf⟩ := bind_eq_ok.mp hg
    have hstart : Glob.Scan.StandsFor {} [] := ⟨rfl, rfl, by simp, fun _ => Iff.rfl⟩
    have hno := Glob.noOwnMatch p.toList (k := 0) hstart (.inr hp) ht hf
    rw [accepts, ← Bool.not_eq_true, Glob.accepts_iff]
    exact hno

theorem rejected_pattern_literal {p : String} {fault : Glob.Fault}
    (h : Glob.read (literalBraces p.toList) = .error fault) :
    (compile p).log = [.literally p (String.ofList (literalBraces p.toList)) fault] ∧
    ('\\' ∉ p.toList → ∃ m, (compile p).result = .ok m ∧
      ∀ text, m.accepts text = true ↔ text = p.toList) ∧
    ('\\' ∈ p.toList → ∀ m, (compile p).result = .ok m → m.accepts p.toList = false) := by
  refine ⟨compile_of_error h, ?_, fun hp m hm => not_accepts_own_of_backslash h hp hm⟩
  intro hp
  obtain ⟨m, hm, -, hacc⟩ := compile_of_rejected ⟨fault, h⟩ hp
  exact ⟨m, by rw [hm], hacc⟩

/-- A brace, an asterisk and a class that is not closed. -/
theorem broken_class_literal :
    Glob.read (literalBraces "src/\x7b*[b-".toList) = .error .unclosedClass ∧
    ∃ m, (compile "src/\x7b*[b-").result = .ok m ∧
      ∀ text, m.accepts text = true ↔ text = "src/\x7b*[b-".toList := by
  have h : Glob.read (literalBraces "src/\x7b*[b-".toList) = .error .unclosedClass := by decide
  exact ⟨h, (rejected_pattern_literal h).2.1 (by decide)⟩

/-- The backslash escapes the character after it, and the text that is matched lacks it. -/
theorem broken_class_with_backslash :
    Glob.read (literalBraces "[\\a".toList) = .error .unclosedClass ∧
    ∃ m, (compile "[\\a").result = .ok m ∧ m.accepts "[\\a".toList = false ∧
      m.accepts "[a".toList = true := by
  refine ⟨by decide, ⟨"[\\a", _⟩, rfl, by decide, by decide⟩

end Matcher

end ProjectScope
