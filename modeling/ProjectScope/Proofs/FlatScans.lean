import Mathlib.Data.List.Induction
import ProjectScope.Proofs.BareEntry
import ProjectScope.Proofs.FailingFolds

/-! # Reading a pattern whose braces are in classes

The bracket before each brace opens a class or is a member of one, so that the brace is read inside
a class and no group is ever opened (`literalBraces_induct`). Without groups one inversion tells all
that a step can do (`effect_of_step`); what it adds to the pieces is the atom of a character, a
class that ends here, or nothing (`Effect.adds`). -/
namespace ProjectScope.Glob

open Matcher (isBrace literalBraces inBrackets)

/-- What a character outside classes stands for. -/
def Atom.ofChar (c : Char) : Atom :=
  if c = '*' then .stretch else if c = '?' then .any else .literal c

/-- The character stands for one atom outside classes, whatever comes before it. -/
def Inert (c : Char) : Prop := c ≠ '[' ∧ isBrace c = false ∧ c ≠ '\\'

instance (c : Char) : Decidable (Inert c) :=
  inferInstanceAs (Decidable (c ≠ '[' ∧ isBrace c = false ∧ c ≠ '\\'))

namespace Scan

variable {s t : Scan} {c : Char}

/-- The scan is in the middle of a class, or right after its bracket. -/
def insideClass (s : Scan) : Bool :=
  match s.mode with
  | .bracket | .inClass _ => true
  | _ => false

/-- Takes the asterisks that have just been read for stretches of a segment. -/
def passStars (s : Scan) : Scan :=
  match s.mode with
  | .star => (s.pushAtom .stretch).after '*'
  | .stars => s.pushStretches
  | _ => s

/-- Neither a group nor an escape has been begun. -/
structure Flat (s : Scan) : Prop where
  ungrouped : s.groups = []
  unescaped : s.mode ≠ .backslash

theorem flat_start : Flat {} := ⟨rfl, by simp⟩

theorem passStars_of_insideClass (h : s.insideClass = true) : s.passStars = s := by
  cases hm : s.mode <;> simp_all [insideClass, passStars]

theorem passStars_of_plain (h : s.mode = .plain) : s.passStars = s := by simp [passStars, h]

theorem passStars_of_stars (h : s.mode = .stars) : s.passStars = s.pushStretches := by
  simp [passStars, h]

theorem Flat.passStars (h : s.Flat) : s.passStars.Flat := by
  unfold Scan.passStars
  split
  · exact ⟨h.ungrouped, by simp [after]⟩
  · exact ⟨h.ungrouped, by simp [pushStretches, after]⟩
  · exact h

/-- Outside classes nothing but asterisks may have been begun. -/
theorem Flat.mode_cases (h : s.Flat) (ho : s.insideClass = false) :
    s.mode = .plain ∨ s.mode = .star ∨ s.mode = .stars := by
  have hunescaped := h.unescaped
  cases hm : s.mode with
  | plain | star | stars => simp
  | backslash => exact absurd hm hunescaped
  | bracket | inClass k => simp [insideClass, hm] at ho

/-! ## One step -/

theorem stepPlain_ofChar (hg : s.groups = []) (hc : Inert c) (hstar : c ≠ '*') :
    s.stepPlain c = .ok ((s.pushAtom (.ofChar c)).after c) := by
  obtain ⟨hbracket, hbrace, hback⟩ := hc
  simp only [isBrace, Bool.or_eq_false_iff, beq_eq_false_iff_ne] at hbrace
  unfold stepPlain
  split
  · simp [Atom.ofChar]
  · exact absurd rfl hstar
  · exact absurd rfl hbracket
  · exact absurd rfl hbrace.1
  · exact absurd rfl hbrace.2
  · simp [comma, hg, Atom.ofChar]
  · exact absurd rfl hback
  · next hquestion _ _ _ _ _ _ => rw [Atom.ofChar, if_neg hstar, if_neg hquestion]

theorem step_stars_other (hm : s.mode = .stars) (hg : s.groups = []) (hc : c ≠ '/') :
    s.step c = s.pushStretches.stepPlain c := by
  simp [step, stepStars, hm, hg, hc]

/-- Outside classes, asterisks that do not stand for directories are settled first. -/
theorem step_eq_stepPlain (hf : s.Flat) (ho : s.insideClass = false) (hstar : c ≠ '*')
    (hstars : s.mode = .stars → c ≠ '/') : s.step c = s.passStars.stepPlain c := by
  rcases hf.mode_cases ho with hm | hm | hm
  · simp [step, passStars, hm]
  · simp [step, passStars, hm, hstar]
  · rw [step_stars_other hm hf.ungrouped (hstars hm), passStars_of_stars hm]

/-- One character outside classes adds its atom. -/
theorem step_inert (hf : s.Flat) (ho : s.insideClass = false) (hc : Inert c) (hstar : c ≠ '*')
    (hstars : s.mode = .stars → c ≠ '/') :
    s.step c = .ok ((s.passStars.pushAtom (.ofChar c)).after c) := by
  rw [step_eq_stepPlain hf ho hstar hstars]
  exact stepPlain_ofChar hf.passStars.ungrouped hc hstar

theorem step_bracket (hf : s.Flat) (ho : s.insideClass = false) :
    s.step '[' = .ok { s.passStars with mode := .bracket, previous := some '[' } := by
  rw [step_eq_stepPlain hf ho (by decide) (fun _ => by decide)]
  rfl

theorem stepClass_eq_ok {k : ClassScan} (h : s.stepClass k c = .ok t) :
    (c = ']' ∧ ∃ negated ranges, t = (s.pushAtom (.oneOf negated ranges)).after ']') ∨
      ∃ k, t = { s with mode := .inClass k } := by
  unfold stepClass at h
  split at h
  · next hclose =>
    cases h
    exact .inl ⟨hclose.1, _, _, rfl⟩
  split at h
  · cases h
    exact .inr ⟨_, rfl⟩
  split at h
  · obtain ⟨k', -, h⟩ := bind_eq_ok.mp h
    cases h
    exact .inr ⟨k', rfl⟩
  · cases h
    exact .inr ⟨_, rfl⟩

/-- Inside a class a character ends it or leaves all but the class as it is. -/
theorem step_insideClass (hi : s.insideClass = true) (h : s.step c = .ok t) :
    (c = ']' ∧ ∃ negated ranges, t = (s.pushAtom (.oneOf negated ranges)).after ']') ∨
      ∃ k, t = { s with mode := .inClass k } := by
  unfold step at h
  split at h
  iterate 4 next hm => simp [insideClass, hm] at hi
  · split at h
    · cases h
      exact .inr ⟨_, rfl⟩
    · exact stepClass_eq_ok h
  · exact stepClass_eq_ok h

/-- What a step does to a scan without groups and escapes. -/
inductive Effect (s : Scan) (c : Char) : Scan → Prop
  | member (k : ClassScan) : s.insideClass = true → Effect s c { s with mode := .inClass k }
  | ended (negated : Bool) (ranges : List (Char × Char)) : s.insideClass = true → c = ']' →
      Effect s c ((s.pushAtom (.oneOf negated ranges)).after ']')
  | opened : s.insideClass = false → c = '[' →
      Effect s c { s.passStars with mode := .bracket, previous := some '[' }
  | char : s.insideClass = false → Inert c → c ≠ '*' → (s.mode = .stars → c ≠ '/') →
      Effect s c ((s.passStars.pushAtom (.ofChar c)).after c)
  /-- The slash after two asterisks that stand for directories. -/
  | directories : s.mode = .stars → c = '/' →
      Effect s c ((s.directories .between).after '/')
  | asterisk : s.insideClass = false → c = '*' → s.mode ≠ .star →
      Effect s c { s.passStars with mode := .star }
  | asterisks : s.mode = .star → c = '*' → s.mayDescend = true →
      Effect s c { s with mode := .stars }
  | stretches : s.mode = .star → c = '*' → s.mayDescend = false → Effect s c s.pushStretches

/-- One character of a pattern whose braces are in classes. -/
structure Admits (s : Scan) (c : Char) : Prop where
  flat : s.Flat
  unescaped : c ≠ '\\'
  bracketed : isBrace c = true → s.insideClass = true

theorem Admits.inert (h : s.Admits c) (ho : s.insideClass = false) (hc : c ≠ '[') : Inert c :=
  ⟨hc, by simpa [ho] using mt h.bracketed, h.unescaped⟩

/-- An asterisk outside classes. -/
theorem step_asterisk (hf : s.Flat) (ho : s.insideClass = false) :
    ∃ t, s.step '*' = .ok t ∧ s.Effect '*' t := by
  rcases hf.mode_cases ho with hm | hm | hm
  · have hpass := passStars_of_plain hm
    refine ⟨{ s.passStars with mode := .star }, ?_, .asterisk ho rfl (by simp [hm])⟩
    simp [step, hm, stepPlain, hpass]
  · cases hd : s.mayDescend with
    | true => exact ⟨_, by simp [step, hm, hd], .asterisks hm rfl hd⟩
    | false => exact ⟨_, by simp [step, hm, hd], .stretches hm rfl hd⟩
  · have hpass := passStars_of_stars hm
    refine ⟨{ s.passStars with mode := .star }, ?_, .asterisk ho rfl (by simp [hm])⟩
    rw [step_stars_other hm hf.ungrouped (by decide), ← hpass]
    rfl

/-- Outside classes no character but a bracket, a brace or a backslash is refused. -/
theorem exists_step (hf : s.Flat) (ho : s.insideClass = false) (hc : Inert c) :
    ∃ t, s.step c = .ok t ∧ s.Effect c t := by
  by_cases hstar : c = '*'
  · subst hstar
    exact step_asterisk hf ho
  by_cases hdirectories : s.mode = .stars ∧ c = '/'
  · obtain ⟨hm, rfl⟩ := hdirectories
    exact ⟨_, step_stars_slash hm, .directories hm rfl⟩
  · have hstars : s.mode = .stars → c ≠ '/' := fun hm hslash => hdirectories ⟨hm, hslash⟩
    exact ⟨_, step_inert hf ho hc hstar hstars, .char ho hc hstar hstars⟩

theorem effect_of_step (ha : s.Admits c) (h : s.step c = .ok t) : s.Effect c t := by
  by_cases hi : s.insideClass = true
  · rcases step_insideClass hi h with ⟨hc, negated, ranges, rfl⟩ | ⟨k, rfl⟩
    · exact .ended negated ranges hi hc
    · exact .member k hi
  rw [Bool.not_eq_true] at hi
  by_cases hc : c = '['
  · subst hc
    rw [step_bracket ha.flat hi] at h
    cases h
    exact .opened hi rfl
  · obtain ⟨u, hu, he⟩ := exists_step ha.flat hi (ha.inert hi hc)
    obtain rfl : u = t := Except.ok.inj (hu.symm.trans h)
    exact he

/-! ## What a step keeps and what it adds -/

theorem Effect.flat (h : s.Effect c t) (hf : s.Flat) : t.Flat := by
  cases h with
  | member k _ => exact ⟨hf.ungrouped, by simp⟩
  | ended => exact ⟨hf.ungrouped, by simp [after]⟩
  | opened => exact ⟨hf.passStars.ungrouped, by simp⟩
  | char => exact ⟨hf.passStars.ungrouped, by simp [after]⟩
  | directories => exact ⟨(groups_directories s .between).trans hf.ungrouped, by simp [after]⟩
  | asterisk => exact ⟨hf.passStars.ungrouped, by simp⟩
  | asterisks => exact ⟨hf.ungrouped, by simp⟩
  | stretches => exact ⟨hf.ungrouped, by simp [pushStretches, after]⟩

/-- A bracket opens a class or becomes a member of one. -/
theorem Effect.insideClass_of_bracket (h : s.Effect '[' t) : t.insideClass = true := by
  cases h with
  | member | opened => rfl
  | ended _ _ _ hc | directories _ hc | asterisk _ hc | asterisks _ hc | stretches _ hc =>
    exact absurd hc (by decide)
  | char _ hc => exact absurd rfl hc.1

/-- No other character opens a class. -/
theorem Effect.outside (h : s.Effect c t) (ho : s.insideClass = false) (hc : c ≠ '[') :
    t.insideClass = false := by
  cases h with
  | member _ hi | ended _ _ hi => simp [ho] at hi
  | opened _ he => exact absurd he hc
  | char | directories | asterisk | asterisks | stretches => rfl

/-- Asterisks are read only after asterisks. -/
theorem Effect.star (h : s.Effect c t) :
    (t.mode = .star → c = '*') ∧ (t.mode = .stars → s.mode = .star ∧ c = '*') := by
  cases h with
  | asterisk _ hc | stretches _ hc => simp [hc, pushStretches, after]
  | asterisks hm hc => simp [hm, hc]
  | member | opened => simp
  | ended | char | directories => simp [after]

/-- What one step adds to the pieces. -/
inductive Adds (s : Scan) (c : Char) : List Glob → Prop
  | nothing : s.insideClass = true ∨ c = '[' → Adds s c []
  | char : s.insideClass = false → c ≠ '[' → Adds s c [.atom (.ofChar c)]
  | ended {negated : Bool} {ranges : List (Char × Char)} : s.insideClass = true → c = ']' →
      Adds s c [.atom (.oneOf negated ranges)]

/-- Once asterisks are taken for stretches, only the slash after two of them replaces a piece. -/
theorem Effect.adds (h : s.Effect c t) (hstars : s.mode = .stars → c ≠ '/') :
    ∃ added, s.Adds c added ∧ t.passStars.pieces = added ++ s.passStars.pieces := by
  cases h with
  | member k hi => exact ⟨[], .nothing (.inl hi), by rw [passStars_of_insideClass hi]; rfl⟩
  | ended negated ranges hi hc =>
    exact ⟨_, .ended hi hc, by rw [passStars_of_insideClass hi]; rfl⟩
  | opened _ hc => exact ⟨[], .nothing (.inr hc), rfl⟩
  | char ho hc _ _ => exact ⟨_, .char ho hc.1, rfl⟩
  | directories hm hc => exact absurd hc (hstars hm)
  | asterisk ho hc _ =>
    subst hc
    exact ⟨_, .char ho (by decide), rfl⟩
  | asterisks hm hc _ =>
    subst hc
    refine ⟨_, .char (by simp [insideClass, hm]) (by decide), ?_⟩
    simp [passStars, hm, pushStretches, pushAtom, push, after, Atom.ofChar]
  | stretches hm hc _ =>
    subst hc
    refine ⟨_, .char (by simp [insideClass, hm]) (by decide), ?_⟩
    simp [passStars, hm, pushStretches, pushAtom, push, after, Atom.ofChar]

/-! ## The end -/

/-- Without a closing bracket a class stays open. -/
theorem insideClass_of_foldlM {text : List Char} (hc : ']' ∉ text) :
    ∀ {s t : Scan}, s.insideClass = true → text.foldlM Scan.step s = .ok t →
      t.insideClass = true := by
  induction text with
  | nil =>
    intro s t hi h
    cases h
    exact hi
  | cons c text ih =>
    intro s t hi h
    obtain ⟨u, hu, h⟩ := foldlM_cons_eq_ok.mp h
    refine ih (fun hm => hc (List.mem_cons_of_mem c hm)) ?_ h
    rcases step_insideClass hi hu with ⟨rfl, -⟩ | ⟨k, rfl⟩
    · exact absurd List.mem_cons_self hc
    · rfl

theorem finish_insideClass (hi : s.insideClass = true) : s.finish = .error .unclosedClass := by
  cases hm : s.mode with
  | bracket => simp [finish, settle, hm, bind, Except.bind]
  | inClass k => simp [finish, settle, hm, bind, Except.bind]
  | _ => simp [insideClass, hm] at hi

theorem finish_of_settle (h : s.settle = .ok t) (hg : t.groups = []) :
    s.finish = .ok (globOf t.pieces) := by
  simp only [finish, h, bind, Except.bind, hg, List.isEmpty_nil, if_true, globOf]
  split <;> rfl

/-- Asterisks at the end that do not stand for directories are stretches. -/
theorem settle_eq_passStars (hf : s.Flat) (ho : s.insideClass = false) (hm : s.mode ≠ .stars) :
    s.settle = .ok s.passStars := by
  rcases hf.mode_cases ho with hmode | hmode | hmode
  · simp [settle, passStars, hmode]
  · simp [settle, passStars, hmode]
  · exact absurd hmode hm

/-- Outside classes the text may end. -/
theorem exists_finish (hf : s.Flat) (ho : s.insideClass = false) : ∃ g, s.finish = .ok g := by
  by_cases hm : s.mode = .stars
  · have hg := (groups_directories s .beneath).trans hf.ungrouped
    exact ⟨_, finish_of_settle (settle_stars hm) hg⟩
  · exact ⟨_, finish_of_settle (settle_eq_passStars hf ho hm) hf.passStars.ungrouped⟩

end Scan

/-! ## A whole pattern -/

theorem literalBraces_brace {c : Char} (h : isBrace c = true) :
    literalBraces [c] = ['[', c, ']'] := by
  simp only [isBrace, Bool.or_eq_true, beq_iff_eq] at h
  simp [literalBraces, h, inBrackets]

theorem literalBraces_other {c : Char} (h : isBrace c = false) : literalBraces [c] = [c] := by
  simp only [isBrace, Bool.or_eq_false_iff, beq_eq_false_iff_ne] at h
  simp [literalBraces, h]

theorem literalBraces_cons (c : Char) (p : List Char) :
    literalBraces (c :: p) = literalBraces [c] ++ literalBraces p :=
  Matcher.literalBraces_append [c] p

theorem foldlM_concat {r : List Char} {c : Char} {s t u : Scan}
    (hr : r.foldlM Scan.step s = .ok t) (h : t.step c = .ok u) :
    (r ++ [c]).foldlM Scan.step s = .ok u :=
  foldlM_append_eq_ok.mpr ⟨t, hr, foldlM_cons_eq_ok.mpr ⟨u, h, rfl⟩⟩

/-- What holds at the start and is kept by each step holds at the end. No step opens a group. -/
theorem literalBraces_induct {p : List Char} (hp : '\\' ∉ p) {Inv : List Char → Scan → Prop}
    (start : Inv [] {})
    (step : ∀ {r : List Char} {c : Char} {s t : Scan}, r ++ [c] <+: literalBraces p →
      r.foldlM Scan.step {} = .ok s → s.Effect c t → Inv r s → Inv (r ++ [c]) t) {s : Scan}
    (h : (literalBraces p).foldlM Scan.step {} = .ok s) : s.Flat ∧ Inv (literalBraces p) s := by
  have advance : ∀ {r : List Char} {c : Char} {s t : Scan}, r ++ [c] <+: literalBraces p →
      r.foldlM Scan.step {} = .ok s → s.Admits c → Inv r s → s.step c = .ok t →
        (r ++ [c]).foldlM Scan.step {} = .ok t ∧ t.Flat ∧ Inv (r ++ [c]) t := by
    intro r c s t hpre hr ha hi hs
    have he := Scan.effect_of_step ha hs
    exact ⟨foldlM_concat hr hs, he.flat ha.flat, step hpre hr he hi⟩
  suffices hall : ∀ q, q <+: p → ∀ s, (literalBraces q).foldlM Scan.step {} = .ok s →
      s.Flat ∧ Inv (literalBraces q) s from hall p (List.prefix_refl p) s h
  intro q
  induction q using List.reverseRecOn with
  | nil =>
    intro _ s hs
    cases hs
    exact ⟨Scan.flat_start, start⟩
  | append_singleton q d ih =>
    intro hq s hs
    have hd : d ≠ '\\' := fun he => hp (hq.subset (by simp [he]))
    obtain ⟨rest, hrest⟩ := hq
    have hpre : literalBraces q ++ literalBraces [d] <+: literalBraces p := by
      rw [← hrest, Matcher.literalBraces_append, Matcher.literalBraces_append]
      exact List.prefix_append _ _
    rw [Matcher.literalBraces_append] at hs ⊢
    obtain ⟨u, hu, hs⟩ := foldlM_append_eq_ok.mp hs
    obtain ⟨hflat, hinv⟩ := ih ((List.prefix_append q [d]).trans ⟨rest, hrest⟩) u hu
    by_cases hb : isBrace d = true
    · -- The bracket before the brace is read first, so that the brace is inside a class.
      rw [literalBraces_brace hb] at hpre hs ⊢
      obtain ⟨v, hv, hs⟩ := foldlM_cons_eq_ok.mp hs
      obtain ⟨w, hw, hs⟩ := foldlM_cons_eq_ok.mp hs
      obtain ⟨x, hx, hs⟩ := foldlM_cons_eq_ok.mp hs
      cases hs
      have hbracket : u.Admits '[' := ⟨hflat, by decide, fun hbrace => absurd hbrace (by decide)⟩
      have hinside : v.insideClass = true :=
        (Scan.effect_of_step hbracket hv).insideClass_of_bracket
      obtain ⟨hrv, hfv, hiv⟩ :=
        advance (List.IsPrefix.trans ⟨[d, ']'], by simp⟩ hpre) hu hbracket hinv hv
      obtain ⟨hrw, hfw, hiw⟩ := advance (List.IsPrefix.trans ⟨[']'], by simp⟩ hpre) hrv
        ⟨hfv, hd, fun _ => hinside⟩ hiv hw
      have hend := advance (List.IsPrefix.trans ⟨[], by simp⟩ hpre) hrw
        ⟨hfw, by decide, fun hbrace => absurd hbrace (by decide)⟩ hiw hx
      simpa using hend.2
    · rw [Bool.not_eq_true] at hb
      rw [literalBraces_other hb] at hpre hs ⊢
      obtain ⟨v, hv, hs⟩ := foldlM_cons_eq_ok.mp hs
      cases hs
      exact (advance hpre hu ⟨hflat, hd, fun hbrace => by simp [hb] at hbrace⟩ hinv hv).2

/-- Without backslashes no group is opened and no escape is left open. -/
theorem flat_of_literalBraces {p : List Char} (hp : '\\' ∉ p) {s : Scan}
    (h : (literalBraces p).foldlM Scan.step {} = .ok s) : s.Flat :=
  (@literalBraces_induct p hp (fun _ _ => True) trivial (fun _ _ _ _ => trivial) s h).1

/-- No character of a kind is met inside a class while a text is read. -/
def keepsOutside (step : Scan → Char → Except Fault Scan) (kind : Char → Bool) :
    Scan → List Char → Bool
  | _, [] => true
  | s, c :: text =>
    !(kind c && s.insideClass) &&
      match step s c with
      | .ok t => keepsOutside step kind t text
      | .error _ => true

variable {step : Scan → Char → Except Fault Scan} {kind : Char → Bool}

theorem keepsOutside_cons {s : Scan} {c : Char} {text : List Char} :
    keepsOutside step kind s (c :: text) = true ↔ (kind c = true → s.insideClass = false) ∧
      ∀ t, step s c = .ok t → keepsOutside step kind t text = true := by
  rw [keepsOutside]
  cases step s c <;> cases kind c <;> simp

end ProjectScope.Glob
