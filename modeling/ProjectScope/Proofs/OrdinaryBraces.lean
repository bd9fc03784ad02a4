import ProjectScope.Proofs.FlatScans

/-! # Braces as ordinary characters

In the ordinary reading a brace stands for itself: outside classes like any character without a
meaning, inside them as a member. A pattern with its braces put into classes is read step by step to
what the ordinary reading gives, but for the classes in the place of the braces, as long as no brace
is inside a class already (`read_literalBraces`). There the brackets around it would become members
or end the class. Main statement: `compile_ordinary`. -/
namespace ProjectScope

namespace Glob

open Matcher (isBrace literalBraces)

/-! ## The ordinary reading -/

namespace Scan

/-- One more character, of those that have no meaning outside classes. -/
def stepOrdinary (s : Scan) (c : Char) : Except Fault Scan :=
  if s.insideClass then s.step c else .ok ((s.passStars.pushAtom (.literal c)).after c)

/-- One more character, where braces have no meaning. -/
def stepBraces (s : Scan) (c : Char) : Except Fault Scan :=
  if isBrace c then s.stepOrdinary c else s.step c

variable {s t : Scan} {c : Char}

/-- All other characters without a meaning are read in this way. -/
theorem step_eq_stepOrdinary (hf : s.Flat) (hc : Inert c) (hstar : c ≠ '*') (hquestion : c ≠ '?')
    (hstars : s.mode = .stars → c ≠ '/') : s.step c = s.stepOrdinary c := by
  unfold stepOrdinary
  split
  · rfl
  · next ho =>
    rw [step_inert hf (Bool.not_eq_true _ ▸ ho) hc hstar hstars]
    simp [Atom.ofChar, hstar, hquestion]

theorem stepBraces_brace (hc : isBrace c = true) (ho : s.insideClass = false) :
    s.stepBraces c = .ok ((s.passStars.pushAtom (.literal c)).after c) := by
  simp [stepBraces, hc, stepOrdinary, ho]

theorem stepBraces_other (hc : isBrace c = false) : s.stepBraces c = s.step c := by
  simp [stepBraces, hc]

theorem Flat.stepBraces (hf : s.Flat) (hc : c ≠ '\\')
    (ho : isBrace c = true → s.insideClass = false) (h : s.stepBraces c = .ok t) : t.Flat := by
  cases hb : isBrace c with
  | true =>
    rw [stepBraces_brace hb (ho hb)] at h
    cases h
    exact ⟨hf.passStars.ungrouped, by simp [after]⟩
  | false =>
    rw [stepBraces_other hb] at h
    exact (effect_of_step ⟨hf, hc, fun hbrace => by simp [hb] at hbrace⟩ h).flat hf

end Scan

/-- A text read as a glob in which braces have no meaning. -/
def readOrdinary (text : List Char) : Except Fault Glob := do
  (← text.foldlM Scan.stepBraces {}).finish

/-! ## Classes in the place of braces -/

/-- A glob with each of its braces in a class of its own. -/
def bracketBraces : Glob → Glob
  | nothing => nothing
  | atom (.literal c) => if isBrace c then atom (.oneOf false [(c, c)]) else atom (.literal c)
  | atom a => atom a
  | seq g h => seq g.bracketBraces h.bracketBraces
  | either g h => either g.bracketBraces h.bracketBraces

theorem bracketBraces_atom {a : Atom} (h : ∀ c, a = .literal c → isBrace c = false) :
    bracketBraces (.atom a) = .atom a := by
  cases a with
  | literal c => simp [bracketBraces, h c rfl]
  | _ => rfl

/-- A brace in a class of its own stands for itself. -/
theorem matches_bracketBraces (g : Glob) (w : Bytes) : g.bracketBraces.Matches w ↔ g.Matches w := by
  induction g generalizing w with
  | nothing => rfl
  | atom a =>
    cases a with
    | literal c =>
      rw [bracketBraces]
      split
      · next hc =>
        have hsafe : (Spelling.bracketed c).Safe := by
          simp only [isBrace, Bool.or_eq_true, beq_iff_eq] at hc
          rcases hc with rfl | rfl
          · decide
          · decide
        exact Spelling.matches_piece hsafe w
      · rfl
    | _ => rfl
  | seq g h ihg ihh => simp only [bracketBraces, Matches, ihg, ihh]
  | either g h ihg ihh => simp only [bracketBraces, Matches, ihg, ihh]

theorem bracketBraces_ofPieces (ps : List Glob) :
    ofPieces (ps.map bracketBraces) = (ofPieces ps).bracketBraces := by
  have hfold : ∀ acc : Glob,
      (ps.map bracketBraces).foldl (fun g p => seq p g) acc.bracketBraces =
        (ps.foldl (fun g p => seq p g) acc).bracketBraces := by
    induction ps with
    | nil => exact fun _ => rfl
    | cons p ps ih => exact fun acc => ih (seq p acc)
  exact hfold nothing

theorem bracketBraces_eq_descent {g : Glob} :
    g.bracketBraces = .atom .descent ↔ g = .atom .descent := by
  cases g with
  | atom a =>
    cases a with
    | literal c =>
      rw [bracketBraces]
      split <;> simp
    | _ => simp [bracketBraces]
  | _ => simp [bracketBraces]

namespace Scan

variable {s t : Scan} {c : Char}

/-- The scan that has read a class in the place of each brace. -/
def bracketBraces (s : Scan) : Scan :=
  { s with
    pieces := s.pieces.map Glob.bracketBraces
    previous := s.previous.map fun c => if isBrace c then ']' else c }

theorem bracketBraces_pushAtom (s : Scan) {a : Atom} (h : ∀ c, a = .literal c → isBrace c = false) :
    (s.pushAtom a).bracketBraces = s.bracketBraces.pushAtom a := by
  simp [pushAtom, push, bracketBraces, bracketBraces_atom h]

theorem bracketBraces_after (s : Scan) (hc : isBrace c = false) :
    (s.after c).bracketBraces = s.bracketBraces.after c := by
  simp [after, bracketBraces, hc]

theorem bracketBraces_replaceLast (s : Scan) {a : Atom}
    (h : ∀ c, a = .literal c → isBrace c = false) :
    (s.replaceLast a).bracketBraces = s.bracketBraces.replaceLast a := by
  have hatom := bracketBraces_atom h
  cases hp : s.pieces with
  | nil => simp [replaceLast, hp, bracketBraces, pushAtom, push, hatom]
  | cons p ps =>
    cases p with
    | atom b =>
      cases b with
      | literal d =>
        cases hd : isBrace d <;>
          simp [replaceLast, hp, bracketBraces, Glob.bracketBraces, hd, hatom]
      | _ => simp [replaceLast, hp, bracketBraces, Glob.bracketBraces, hatom]
    | _ => simp [replaceLast, hp, bracketBraces, Glob.bracketBraces, hatom]

theorem bracketBraces_pushStretch (s : Scan) :
    ((s.pushAtom .stretch).after '*').bracketBraces =
      (s.bracketBraces.pushAtom .stretch).after '*' := by
  rw [bracketBraces_after _ (by decide), bracketBraces_pushAtom _ (by simp)]

theorem bracketBraces_pushStretches (s : Scan) :
    s.pushStretches.bracketBraces = s.bracketBraces.pushStretches := by
  rw [pushStretches, bracketBraces_after _ (by decide), bracketBraces_pushAtom _ (by simp),
    bracketBraces_pushAtom _ (by simp), pushStretches]

theorem bracketBraces_passStars (s : Scan) :
    s.passStars.bracketBraces = s.bracketBraces.passStars := by
  have hmode : s.bracketBraces.mode = s.mode := rfl
  unfold passStars
  rw [hmode]
  split
  · exact bracketBraces_pushStretch s
  · exact bracketBraces_pushStretches s
  · rfl

theorem bracketBraces_directories (s : Scan) {a : Atom}
    (ha : ∀ d, a = .literal d → isBrace d = false) :
    (s.directories a).bracketBraces = s.bracketBraces.directories a := by
  have hempty : s.bracketBraces.pieces.isEmpty = s.pieces.isEmpty := by simp [bracketBraces]
  unfold directories
  rw [hempty]
  split
  · rw [bracketBraces_pushAtom _ (by simp)]
  · rw [bracketBraces_replaceLast _ ha]

theorem mayDescend_bracketBraces (hg : s.groups = []) :
    s.bracketBraces.mayDescend = s.mayDescend := by
  cases hp : s.previous with
  | none => simp [mayDescend, bracketBraces, hg, hp]
  | some d =>
    cases hd : isBrace d with
    | true =>
      have hne : d ≠ '/' := by
        rintro rfl
        exact absurd hd (by decide)
      simp [mayDescend, bracketBraces, hg, hp, hd, hne]
    | false => simp [mayDescend, bracketBraces, hg, hp, hd]

theorem bracketBraces_closeClass (s : Scan) (k : ClassScan) :
    (s.closeClass k).bracketBraces = s.bracketBraces.closeClass k := by
  rw [closeClass, bracketBraces_after _ (by decide), bracketBraces_pushAtom _ (by simp), closeClass]

theorem stepClass_bracketBraces (s : Scan) (k : ClassScan) (c : Char) :
    s.bracketBraces.stepClass k c = (s.stepClass k c).map bracketBraces := by
  unfold stepClass
  split
  · exact congrArg Except.ok (bracketBraces_closeClass s k).symm
  split
  · rfl
  split
  · cases endRange k c <;> rfl
  · rfl

theorem stepPlain_bracketBraces (hg : s.groups = []) (hc : isBrace c = false) :
    s.bracketBraces.stepPlain c = (s.stepPlain c).map bracketBraces := by
  have hg' : s.bracketBraces.groups = [] := hg
  have hpush : ∀ a : Atom, (∀ d, a = .literal d → isBrace d = false) →
      (s.bracketBraces.pushAtom a).after c = ((s.pushAtom a).after c).bracketBraces := by
    intro a ha
    rw [bracketBraces_after _ hc, bracketBraces_pushAtom _ ha]
  unfold stepPlain
  split
  · exact congrArg Except.ok (hpush .any (by simp))
  · rfl
  · rfl
  · exact absurd hc (by decide)
  · exact absurd hc (by decide)
  · have hcomma := hpush (.literal ',') (by simp [hc])
    simp only [comma, hg, hg']
    exact congrArg Except.ok hcomma
  · rfl
  · exact congrArg Except.ok (hpush (.literal c) (by simp [hc]))

theorem step_bracketBraces (hf : s.Flat) (hc : isBrace c = false) :
    s.bracketBraces.step c = (s.step c).map bracketBraces := by
  have hg := hf.ungrouped
  have hmode : s.bracketBraces.mode = s.mode := rfl
  cases hm : s.mode with
  | plain =>
    simp only [step, hmode, hm]
    exact stepPlain_bracketBraces hg hc
  | star =>
    simp only [step, hmode, hm, mayDescend_bracketBraces hg]
    split
    · split
      · rfl
      · exact congrArg Except.ok (bracketBraces_pushStretches s).symm
    · rw [← bracketBraces_pushStretch]
      exact stepPlain_bracketBraces hg hc
  | stars =>
    by_cases hslash : c = '/'
    · subst hslash
      rw [step_stars_slash (hmode.trans hm), step_stars_slash hm,
        ← bracketBraces_directories s (by simp), ← bracketBraces_after _ hc]
      rfl
    · rw [step_stars_other (hmode.trans hm) hg hslash, step_stars_other hm hg hslash,
        ← bracketBraces_pushStretches]
      exact stepPlain_bracketBraces hg hc
  | backslash => exact absurd hm hf.unescaped
  | bracket =>
    simp only [step, hmode, hm]
    split
    · rfl
    · exact stepClass_bracketBraces s _ c
  | inClass k =>
    simp only [step, hmode, hm]
    exact stepClass_bracketBraces s k c

theorem settle_bracketBraces (s : Scan) :
    s.bracketBraces.settle = s.settle.map bracketBraces := by
  have hmode : s.bracketBraces.mode = s.mode := rfl
  cases hm : s.mode with
  | plain => simp only [settle, hmode, hm]; rfl
  | star =>
    simp only [settle, hmode, hm]
    exact congrArg Except.ok (bracketBraces_pushStretch s).symm
  | stars =>
    rw [settle_stars (hmode.trans hm), settle_stars hm, ← bracketBraces_directories s (by simp),
      ← bracketBraces_after _ (by decide)]
    rfl
  | backslash | bracket | inClass k => simp only [settle, hmode, hm]; rfl

theorem finish_bracketBraces (s : Scan) :
    s.bracketBraces.finish = s.finish.map Glob.bracketBraces := by
  rw [finish, settle_bracketBraces, finish]
  cases s.settle with
  | error fault => rfl
  | ok u =>
    have hdescent : u.pieces.map Glob.bracketBraces = [.atom .descent] ↔
        u.pieces = [.atom .descent] := by
      simp [List.map_eq_cons_iff, bracketBraces_eq_descent]
    simp only [Except.map, bind, Except.bind, bracketBraces, hdescent]
    split
    · split
      · rfl
      · exact congrArg Except.ok (bracketBraces_ofPieces u.pieces)
    · rfl

/-- A brace that is not in a class, once in a class of its own and once as itself. -/
theorem steps_brace (hf : s.Flat) (ho : s.insideClass = false) (hc : isBrace c = true) :
    (literalBraces [c]).foldlM step s.bracketBraces = (s.stepBraces c).map bracketBraces := by
  have hopen := step_bracket (s := s.bracketBraces) ⟨hf.ungrouped, hf.unescaped⟩ ho
  have hmember : ∀ u : Scan, u.mode = .bracket →
      u.step c = .ok { u with mode := .inClass (addMember { negated := false } c) } := by
    intro u hu
    simp only [isBrace, Bool.or_eq_true, beq_iff_eq] at hc
    rcases hc with rfl | rfl <;> simp [step, hu, stepClass]
  rw [literalBraces_brace hc, foldlM_step_cons hopen, foldlM_step_cons (hmember _ rfl),
    stepBraces_brace hc ho, ← bracketBraces_passStars]
  simp [step, stepClass, closeClass, addMember, Except.map, after, pushAtom, push, bracketBraces,
    Glob.bracketBraces, hc]

end Scan

theorem foldlM_literalBraces {text : List Char} (hback : '\\' ∉ text) : ∀ {s : Scan}, s.Flat →
    keepsOutside Scan.stepBraces isBrace s text = true →
      (literalBraces text).foldlM Scan.step s.bracketBraces =
        (text.foldlM Scan.stepBraces s).map Scan.bracketBraces := by
  induction text with
  | nil => exact fun _ _ => rfl
  | cons c text ih =>
    intro s hf hk
    obtain ⟨hfirst, hlater⟩ := keepsOutside_cons.mp hk
    have hone : (literalBraces [c]).foldlM Scan.step s.bracketBraces =
        (s.stepBraces c).map Scan.bracketBraces := by
      cases hc : isBrace c with
      | true => exact Scan.steps_brace hf (hfirst hc) hc
      | false =>
        rw [literalBraces_other hc, Scan.stepBraces_other hc, ← Scan.step_bracketBraces hf hc,
          List.foldlM_cons]
        exact bind_pure _
    rw [literalBraces_cons, List.foldlM_append, List.foldlM_cons, hone]
    cases hs : s.stepBraces c with
    | error fault => rfl
    | ok t =>
      have ht := hf.stepBraces (fun he => hback (he ▸ List.mem_cons_self)) hfirst hs
      exact ih (fun hm => hback (List.mem_cons_of_mem c hm)) ht (hlater t hs)

/-- With no brace in a class, putting braces into classes changes nothing else. -/
theorem read_literalBraces {text : List Char} (hback : '\\' ∉ text)
    (hb : keepsOutside Scan.stepBraces isBrace {} text = true) :
    read (literalBraces text) = (readOrdinary text).map bracketBraces := by
  have hfold := foldlM_literalBraces hback Scan.flat_start hb
  have hstart : Scan.bracketBraces {} = {} := rfl
  rw [hstart] at hfold
  rw [read, hfold, readOrdinary]
  cases text.foldlM Scan.stepBraces {} with
  | error fault => rfl
  | ok s => exact s.finish_bracketBraces

end Glob

namespace Matcher

open Glob (keepsOutside readOrdinary)
open Glob.Scan (stepBraces)

/-- A pattern without backslashes compiles. With no brace in a class, it is matched as it is read
when braces are ordinary characters, and literally just when that reading rejects it. -/
theorem compile_ordinary {p : String} (hp : '\\' ∉ p.toList) :
    ∃ m, (compile p).result = .ok m ∧
      (keepsOutside stepBraces isBrace {} p.toList = true →
        (∀ g, readOrdinary p.toList = .ok g → (compile p).log = [] ∧
          ∀ text, m.accepts text = true ↔ g.Matches (Utf8.encode text)) ∧
        (∀ fault, readOrdinary p.toList = .error fault →
          (compile p).log = [.literally p (String.ofList (literalBraces p.toList)) fault] ∧
            ∀ text, m.accepts text = true ↔ text = p.toList)) := by
  obtain ⟨m, hm, -, hliteral⟩ := compile_spec (.inr hp)
  refine ⟨m, by rw [hm], ?_⟩
  intro hb
  have hread := Glob.read_literalBraces hp hb
  refine ⟨?_, ?_⟩
  · intro g hg
    rw [hg] at hread
    have hpure := compile_of_read hread
    obtain rfl : m = ⟨p, g.bracketBraces⟩ :=
      Except.ok.inj (congrArg Logged.result (hm.symm.trans hpure))
    refine ⟨by rw [hpure]; rfl, ?_⟩
    intro text
    rw [accepts, Glob.accepts_iff, Glob.matches_bracketBraces]
  · intro fault hf
    rw [hf] at hread
    refine ⟨?_, hliteral ⟨fault, hread⟩ hp⟩
    rw [hm, warning?, hread]
    rfl

/-- Braces around a comma, and braces before a range that goes backwards. -/
theorem commas_and_ranges_ordinary :
    (∃ m g, (compile "\x7ba,[b-]\x7d/**").result = .ok m ∧
      readOrdinary "\x7ba,[b-]\x7d/**".toList = .ok g ∧
      (compile "\x7ba,[b-]\x7d/**").log = [] ∧
      (∀ text, m.accepts text = true ↔ g.Matches (Utf8.encode text)) ∧
      m.accepts "\x7ba,-\x7d/b".toList = true) ∧
    ∃ m, (compile "\x7b\x7d[b-a]").result = .ok m ∧
      readOrdinary "\x7b\x7d[b-a]".toList = .error (.invalidRange 'b' 'a') ∧
      ∀ text, m.accepts text = true ↔ text = "\x7b\x7d[b-a]".toList := by
  refine ⟨?_, ?_⟩
  · obtain ⟨m, hm, hordinary⟩ := compile_ordinary (p := "\x7ba,[b-]\x7d/**") (by decide)
    obtain ⟨hread, -⟩ := hordinary (by decide)
    obtain ⟨hlog, hacc⟩ := hread _ rfl
    refine ⟨m, _, hm, rfl, hlog, hacc, ?_⟩
    rw [hacc, ← Glob.accepts_iff]
    decide
  · obtain ⟨m, hm, hordinary⟩ := compile_ordinary (p := "\x7b\x7d[b-a]") (by decide)
    obtain ⟨-, hreject⟩ := hordinary (by decide)
    have hrange : readOrdinary "\x7b\x7d[b-a]".toList = .error (.invalidRange 'b' 'a') := by decide
    exact ⟨m, hm, hrange, (hreject _ hrange).2⟩

/-- A brace in a class ends it one bracket early, and closes a class that is open to the end. -/
theorem brace_ends_class :
    (∃ m g, (compile "[\x7b]").result = .ok m ∧ readOrdinary "[\x7b]".toList = .ok g ∧
      (m.accepts "\x7b".toList = false ∧ g.Matches (Utf8.encode "\x7b".toList)) ∧
      m.accepts "\x7b]".toList = true ∧ ¬ g.Matches (Utf8.encode "\x7b]".toList)) ∧
    readOrdinary "[\x7b".toList = .error .unclosedClass ∧ (compile "[\x7b").log = [] := by
  refine ⟨⟨_, _, rfl, rfl, ⟨by decide, ?_⟩, by decide, ?_⟩, by decide, by decide⟩
  · rw [← Glob.accepts_iff]
    decide
  · rw [← Glob.accepts_iff]
    decide

end Matcher

end ProjectScope
