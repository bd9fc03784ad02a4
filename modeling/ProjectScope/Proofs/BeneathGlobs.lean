import ProjectScope.Proofs.AsciiText
import ProjectScope.Proofs.DescentPlaces
import ProjectScope.Proofs.LiteralGlobs

/-! # Globs for what lies beneath a base

Reading a base and then `/**/*` is not reading the base and then the rest: two asterisks at the end
of the base take the place of the slash before them only when the base ends there. Then the base by
itself matches whatever lies beneath (`matches_beneath_append`), so that both readings agree on what
the two globs match together. Main statement: `read_beneath`. -/
namespace ProjectScope.Glob

/-- ASCII characters without a meaning in globs. -/
def PlainText (e : List Char) : Prop := ∀ c ∈ e, (Spelling.bare c).Safe ∧ c.toNat < 0x80

instance : (x : Spelling) → Decidable x.Safe
  | .bare c => inferInstanceAs (Decidable
      (c ≠ '?' ∧ c ≠ '*' ∧ c ≠ '[' ∧ c ≠ '\x7b' ∧ c ≠ '\x7d' ∧ c ≠ '\\'))
  | .escaped _ => inferInstanceAs (Decidable True)
  | .bracketed c => inferInstanceAs (Decidable (c ≠ '!' ∧ c ≠ '^' ∧ c.toNat < 0x80))

-- The search could as well come up with a test of all characters there are.
instance (e : List Char) : Decidable (PlainText e) :=
  List.decidableBAll (fun c => (Spelling.bare c).Safe ∧ c.toNat < 0x80) e

/-! ## Texts between slashes -/

/-- Every text is cut after its last slash. -/
theorem exists_cut (t : Bytes) :
    ∃ a b, t = a ++ b ∧ Atom.descent.Matches a ∧ Path.separator ∉ b := by
  induction t with
  | nil => exact ⟨[], [], rfl, .inl rfl, by simp⟩
  | cons x t ih =>
    obtain ⟨a, b, rfl, ha, hb⟩ := ih
    cases a with
    | nil =>
      by_cases hx : x = Path.separator
      · exact ⟨[x], b, rfl, .inr (by simp [hx]), hb⟩
      · refine ⟨[], x :: b, rfl, .inl rfl, ?_⟩
        intro hm
        rcases List.mem_cons.mp hm with he | hm
        · exact hx he.symm
        · exact hb hm
    | cons y a =>
      refine ⟨x :: y :: a, b, rfl, .inr ?_, hb⟩
      rcases ha with he | he
      · cases he
      · rw [List.getLast?_cons_cons]
        exact he

/-- A slash, directories and then one name are a slash and anything. -/
theorem matches_between_stretch (w : Bytes) :
    (∃ a b, w = a ++ b ∧ Atom.between.Matches a ∧ Atom.stretch.Matches b) ↔
      ∃ t, w = Path.separator :: t := by
  refine ⟨?_, ?_⟩
  · intro h
    obtain ⟨a, b, rfl, ⟨ha, -⟩, -⟩ := h
    cases a with
    | nil => cases ha
    | cons x a => exact ⟨a ++ b, by rw [Option.some.inj ha, List.cons_append]⟩
  · intro h
    obtain ⟨t, rfl⟩ := h
    obtain ⟨a, b, rfl, ha, hb⟩ := exists_cut t
    refine ⟨Path.separator :: a, b, rfl, ⟨rfl, ?_⟩, hb⟩
    cases a with
    | nil => rfl
    | cons y a =>
      rcases ha with he | he
      · cases he
      · rw [List.getLast?_cons_cons]
        exact he

/-- What ends in a slash and all after it matches whatever lies beneath a match. -/
theorem matches_beneath_append {ps : List Glob} {w : Bytes}
    (h : (ofPieces (.atom .beneath :: ps)).Matches w) (t : Bytes) :
    (ofPieces (.atom .beneath :: ps)).Matches (w ++ t) := by
  rw [matches_ofPieces_cons] at h ⊢
  obtain ⟨u, v, rfl, hu, hv⟩ := h
  refine ⟨u, v ++ t, by simp, hu, ?_⟩
  cases v with
  | nil => cases hv
  | cons b v => exact hv

/-! ## Reading the end of a pattern -/

theorem safe_of_plainText {e : List Char} (he : PlainText e) :
    ∀ x ∈ e.map Spelling.bare, x.Safe := by
  intro x hx
  obtain ⟨c, hc, rfl⟩ := List.mem_map.mp hx
  exact (he c hc).1

theorem written_bare (e : List Char) : written (e.map Spelling.bare) = e := by
  simp [written, List.flatMap_map, Spelling.written]

theorem meant_bare (e : List Char) : meant (e.map Spelling.bare) = e := by
  simp [meant, Function.comp_def, Spelling.char]

theorem step_star {s : Scan} (h : s.mode = .plain) : s.step '*' = .ok { s with mode := .star } := by
  simp [Scan.step, h, Scan.stepPlain]

/-- One asterisk is a stretch as soon as another character follows. -/
theorem foldlM_star {s : Scan} (hm : s.mode = .plain) {c : Char} (hc : c ≠ '*') (cs : List Char) :
    ('*' :: c :: cs).foldlM Scan.step s =
      (c :: cs).foldlM Scan.step ((s.pushAtom .stretch).after '*') := by
  have hfirst : Scan.step { s with mode := .star } c =
      Scan.step ((s.pushAtom .stretch).after '*') c := by
    simp only [Scan.step, hc, if_false]
    rfl
  rw [foldlM_step_cons (step_star hm), List.foldlM_cons, List.foldlM_cons, hfirst]

theorem matches_stretch (ps : List Glob) (w : Bytes) :
    (ofPieces (.atom .stretch :: ps)).Matches w ↔
      ∃ u v, w = u ++ v ∧ (ofPieces ps).Matches u ∧ Path.separator ∉ v :=
  matches_ofPieces_cons _ _ w

/-- An asterisk and plain text at the end add a stretch and the text. -/
theorem read_stretch {s : Scan} (hm : s.mode = .plain) (hg : s.groups = []) {e : List Char}
    (he : PlainText e) : ∃ t g, ('*' :: e).foldlM Scan.step s = .ok t ∧ t.finish = .ok g ∧
      ∀ w, g.Matches w ↔ ∃ u v, w = u ++ (v ++ Utf8.encode e) ∧ (ofPieces s.pieces).Matches u ∧
        Path.separator ∉ v := by
  cases e with
  | nil =>
    refine ⟨_, ofPieces (.atom .stretch :: s.pieces), foldlM_step_cons (step_star hm) [], ?_, ?_⟩
    · exact finish_of_plain (s := (s.pushAtom .stretch).after '*') rfl hg
        (by simp [Scan.after, Scan.pushAtom, Scan.push])
    · intro w
      simp [matches_stretch]
  | cons c cs =>
    have hs := safe_of_plainText he
    obtain ⟨t, ht, htm, htg, htp⟩ :=
      steps_written hs (s := (s.pushAtom .stretch).after '*') rfl hg
    rw [written_bare] at ht
    have hne : t.pieces ≠ [.atom .descent] := by
      intro h
      have hmem : (.atom .stretch : Glob) ∈ t.pieces := by
        simp [htp, Scan.after, Scan.pushAtom, Scan.push]
      simp [h] at hmem
    refine ⟨t, ofPieces t.pieces, (foldlM_star hm (he c List.mem_cons_self).1.2.1 cs).trans ht,
      finish_of_plain htm htg hne, ?_⟩
    intro w
    rw [htp, matches_written hs, meant_bare]
    simp only [Scan.after, Scan.pushAtom, Scan.push, matches_stretch]
    refine ⟨?_, ?_⟩
    · intro h
      obtain ⟨x, ⟨u, v, rfl, hu, hv⟩, rfl⟩ := h
      exact ⟨u, v, by simp, hu, hv⟩
    · intro h
      obtain ⟨u, v, rfl, hu, hv⟩ := h
      exact ⟨u ++ v, ⟨u, v, rfl, hu, hv⟩, by simp⟩

theorem groups_replaceLast (s : Scan) (a : Atom) : (s.replaceLast a).groups = s.groups := by
  unfold Scan.replaceLast
  split <;> rfl

/-- Two asterisks stand for directories at the start and after a slash. -/
theorem steps_stars {s : Scan} (hm : s.mode = .plain)
    (hp : s.pieces = [] ∨ s.previous = some '/') :
    ['*', '*'].foldlM Scan.step s = .ok { s with mode := .stars } := by
  have hsecond : Scan.step { s with mode := .star } '*' = .ok { s with mode := .stars } := by
    have hd : Scan.mayDescend { s with mode := .star } = true := by
      rcases hp with hp | hp <;> simp [Scan.mayDescend, hp]
    simp [Scan.step, hd]
  rw [foldlM_step_cons (step_star hm), foldlM_step_cons hsecond]
  rfl

/-- Two asterisks and a slash after a slash take the place of the piece before them. -/
theorem steps_stars_slash {s : Scan} (hm : s.mode = .plain) (hp : s.previous = some '/')
    (hne : s.pieces ≠ []) :
    ∃ t, "**/".toList.foldlM Scan.step s = .ok t ∧ t.mode = .plain ∧ t.groups = s.groups ∧
      t.pieces = (s.replaceLast .between).pieces := by
  have hslash : Scan.step { s with mode := .stars } '/' =
      .ok ((Scan.replaceLast { s with mode := .stars } .between).after '/') := by
    simp [Scan.step, Scan.stepStars, hne]
  have hstars := steps_stars hm (.inr hp)
  have ht : "**/".toList = ['*', '*'] ++ ['/'] := rfl
  rw [ht, List.foldlM_append, hstars]
  refine ⟨_, foldlM_step_cons hslash [], rfl, groups_replaceLast _ _, ?_⟩
  unfold Scan.replaceLast
  simp only [Scan.after]
  split <;> rfl

/-- The glob of a branch that ends here. -/
def globOf (ps : List Glob) : Glob :=
  if ps = [.atom .descent] then .atom .everything else ofPieces ps

theorem finish_eq_ok {s : Scan} {g : Glob} (h : s.finish = .ok g) :
    ∃ s', s.settle = .ok s' ∧ s'.groups = [] ∧ g = globOf s'.pieces := by
  unfold Scan.finish at h
  cases hs : s.settle with
  | error fault =>
    rw [hs] at h
    cases h
  | ok s' =>
    rw [hs] at h
    change (if s'.groups.isEmpty = true then _ else _) = _ at h
    split at h
    · next hg =>
      refine ⟨s', rfl, List.isEmpty_iff.mp hg, ?_⟩
      unfold globOf
      split at h
      · next hp =>
        rw [if_pos hp]
        exact (Except.ok.inj h).symm
      · next hp =>
        rw [if_neg hp]
        exact (Except.ok.inj h).symm
    · cases h

theorem read_eq_ok {text : List Char} {g : Glob} (h : read text = .ok g) :
    ∃ s s', text.foldlM Scan.step {} = .ok s ∧ s.Rooted ∧ s.settle = .ok s' ∧
      s'.groups = [] ∧ g = globOf s'.pieces := by
  unfold read at h
  cases hs : text.foldlM Scan.step {} with
  | error fault =>
    rw [hs] at h
    cases h
  | ok s =>
    rw [hs] at h
    obtain ⟨s', hset, hg, hp⟩ := finish_eq_ok h
    exact ⟨s, s', rfl, Scan.rooted_of_foldlM Scan.rooted_start hs, hset, hg, hp⟩

theorem read_of_foldlM {text : List Char} {s : Scan} {g : Glob}
    (h : text.foldlM Scan.step {} = .ok s) (hf : s.finish = .ok g) : read text = .ok g := by
  rw [read, h]
  exact hf

/-! ## What lies beneath -/

/-- A slash that follows pieces and not two asterisks is a piece, and the asterisks after it take
its place. -/
theorem steps_beneath {s s' : Scan} (hset : s.settle = .ok s') (hg : s'.groups = [])
    (hne : s.mode ≠ .stars) :
    ∃ t, "/**/".toList.foldlM Scan.step s = .ok t ∧ t.mode = .plain ∧ t.groups = [] ∧
      t.pieces = .atom .between :: s'.pieces := by
  have hslash : s.step '/' = .ok ((s'.pushAtom (.literal '/')).after '/') := by
    unfold Scan.settle at hset
    cases hm : s.mode with
    | plain =>
      rw [hm] at hset
      cases hset
      simp [Scan.step, hm, Scan.stepPlain]
    | star =>
      rw [hm] at hset
      cases hset
      simp [Scan.step, hm, Scan.stepPlain]
    | stars => exact absurd hm hne
    | backslash => simp [hm] at hset
    | bracket => simp [hm] at hset
    | inClass k => simp [hm] at hset
  have hp : ((s'.pushAtom (.literal '/')).after '/').pieces ≠ [] := by
    simp [Scan.after, Scan.pushAtom, Scan.push]
  have ht : "/**/".toList = '/' :: "**/".toList := rfl
  obtain ⟨t, hfold, htm, htg, htp⟩ :=
    steps_stars_slash (s := (s'.pushAtom (.literal '/')).after '/') rfl rfl hp
  rw [ht, foldlM_step_cons hslash]
  exact ⟨t, hfold, htm, htg.trans hg, htp⟩

/-- What stands for directories already is not replaced. -/
def Kept (p : Glob) : Prop := p = .atom .descent ∨ p = .atom .beneath

theorem pieces_replaceLast_of_kept {s : Scan} {p : Glob} {ps : List Glob} (h : s.pieces = p :: ps)
    (hp : Kept p) (a : Atom) : (s.replaceLast a).pieces = p :: ps := by
  unfold Scan.replaceLast
  rcases hp with rfl | rfl
  · simp [h]
  · simp [h]

theorem pieces_replaceLast {s : Scan} {p : Glob} {ps : List Glob} (h : s.pieces = p :: ps)
    (hp : ¬ Kept p) (a : Atom) : (s.replaceLast a).pieces = .atom a :: ps := by
  unfold Scan.replaceLast
  split
  · next he => simp [he] at h
  · next he => exact absurd (.inl (List.cons_eq_cons.mp (he.symm.trans h)).1.symm) hp
  · next he => exact absurd (.inr (List.cons_eq_cons.mp (he.symm.trans h)).1.symm) hp
  · next he => rw [(List.cons_eq_cons.mp (he.symm.trans h)).2]

namespace Scan

variable {s : Scan}

/-- Takes the asterisks that have just been read for directories: they take the place of the slash
before them. -/
def directories (s : Scan) (a : Atom) : Scan :=
  if s.pieces.isEmpty then s.pushAtom .descent else s.replaceLast a

theorem groups_directories (s : Scan) (a : Atom) : (s.directories a).groups = s.groups := by
  unfold directories
  split
  · rfl
  · exact groups_replaceLast s a

theorem directories_cons {p : Glob} {ps : List Glob} (h : s.pieces = p :: ps) (a : Atom) :
    s.directories a = s.replaceLast a := by
  simp [directories, h]

theorem pieces_directories_nil (h : s.pieces = []) (a : Atom) :
    (s.directories a).pieces = [.atom .descent] := by
  simp [directories, h, pushAtom, push]

theorem step_stars_slash (hm : s.mode = .stars) :
    s.step '/' = .ok ((s.directories .between).after '/') := by
  simp [step, stepStars, hm, directories]

theorem settle_stars (hm : s.mode = .stars) :
    s.settle = .ok ((s.directories .beneath).after '*') := by
  simp [settle, hm, directories]

end Scan

/-- Once two asterisks have taken the place of the slash before them, a slash and two more change
nothing, or make them end in a slash. -/
theorem pieces_replaceLast_twice {s : Scan} {p : Glob} {ps : List Glob} (h : s.pieces = p :: ps)
    (hr : RootedPieces (p :: ps)) :
    ((s.replaceLast .between).after '/').pieces ≠ [] ∧
      ((s.replaceLast .beneath).pieces = [.atom .descent] ∨ ∃ a, (a = .between ∨ a = .beneath) ∧
        (s.replaceLast .beneath).pieces = .atom .beneath :: ps ∧
        (((s.replaceLast .between).after '/').replaceLast .between).pieces = .atom a :: ps) := by
  by_cases hk : Kept p
  · have hb : ((s.replaceLast .between).after '/').pieces = p :: ps :=
      pieces_replaceLast_of_kept h hk .between
    have hs := pieces_replaceLast_of_kept h hk .beneath
    refine ⟨by simp [hb], ?_⟩
    have ht := pieces_replaceLast_of_kept hb hk .between
    rcases hk with rfl | rfl
    · exact .inl (by rw [hs, hr.1 rfl])
    · exact .inr ⟨.beneath, .inr rfl, hs, ht⟩
  · have hb : ((s.replaceLast .between).after '/').pieces = .atom .between :: ps :=
      pieces_replaceLast h hk .between
    refine ⟨by simp [hb], .inr ⟨.between, .inl rfl, pieces_replaceLast h hk .beneath, ?_⟩⟩
    exact pieces_replaceLast hb (by simp [Kept]) .between

/-- After a base that ends in two asterisks for directories. -/
theorem steps_beneath_stars {s s' : Scan} (hset : s.settle = .ok s') (hg : s'.groups = [])
    (hm : s.mode = .stars) (hr : s.Rooted) :
    ∃ t, "/**/".toList.foldlM Scan.step s = .ok t ∧ t.mode = .plain ∧ t.groups = [] ∧
      (s'.pieces = [.atom .descent] ∨ ∃ a ps, (a = .between ∨ a = .beneath) ∧
        s'.pieces = .atom .beneath :: ps ∧ t.pieces = .atom a :: ps) := by
  have htext : "/**/".toList = '/' :: "**/".toList := rfl
  rw [htext, foldlM_step_cons (Scan.step_stars_slash hm)]
  rw [Scan.settle_stars hm] at hset
  cases hset
  have hgs : ((s.directories .between).after '/').groups = [] :=
    (Scan.groups_directories s .between).trans ((Scan.groups_directories s .beneath).symm.trans hg)
  cases hps : s.pieces with
  | nil =>
    have hnil := fun a => Scan.pieces_directories_nil hps a
    obtain ⟨t, hfold, htm, htg, -⟩ := steps_stars_slash (s := (s.directories .between).after '/')
      rfl rfl (by simp [Scan.after, hnil])
    exact ⟨t, hfold, htm, htg.trans hgs, .inl (hnil .beneath)⟩
  | cons p ps =>
    have hrooted := hr.pieces
    rw [hps] at hrooted
    rw [Scan.directories_cons hps] at hgs
    rw [Scan.directories_cons hps, Scan.directories_cons hps]
    obtain ⟨hne, hpieces⟩ := pieces_replaceLast_twice hps hrooted
    obtain ⟨t, hfold, htm, htg, htp⟩ := steps_stars_slash rfl rfl hne
    refine ⟨t, hfold, htm, htg.trans hgs, ?_⟩
    rcases hpieces with hd | ⟨a, ha, hs, ht⟩
    · exact .inl hd
    · exact .inr ⟨a, ps, ha, hs, htp.trans ht⟩

/-! ## What the globs of an entry match -/

theorem read_append_stretch {stem e : List Char} {t : Scan}
    (h : stem.foldlM Scan.step {} = .ok t) (hm : t.mode = .plain) (hg : t.groups = [])
    (he : PlainText e) : ∃ g, read (stem ++ '*' :: e) = .ok g ∧
      ∀ w, g.Matches w ↔ ∃ u v, w = u ++ (v ++ Utf8.encode e) ∧ (ofPieces t.pieces).Matches u ∧
        Path.separator ∉ v := by
  obtain ⟨k, g, hk, hf, hw⟩ := read_stretch hm hg he
  refine ⟨g, read_of_foldlM (s := k) ?_ hf, hw⟩
  rw [foldlM_step_append h]
  exact hk

/-- Directories from the start, then one name with an extension: whatever has the extension. -/
theorem read_anywhere {e : List Char} (he : PlainText e) :
    ∃ g, read ("**/*".toList ++ e) = .ok g ∧ ∀ w, g.Matches w ↔ ∃ v, w = v ++ Utf8.encode e := by
  have ht : "**/".toList.foldlM Scan.step {} =
      .ok { pieces := [.atom .descent], previous := some '/' } := rfl
  have happ : "**/*".toList ++ e = "**/".toList ++ '*' :: e := rfl
  obtain ⟨g, hread, hg⟩ := read_append_stretch ht rfl rfl he
  refine ⟨g, happ ▸ hread, ?_⟩
  intro w
  rw [hg]
  refine ⟨?_, ?_⟩
  · intro h
    obtain ⟨u, v, rfl, -, -⟩ := h
    exact ⟨u ++ v, by simp⟩
  · intro h
    obtain ⟨t, rfl⟩ := h
    obtain ⟨a, b, rfl, ha, hb⟩ := exists_cut t
    refine ⟨a, b, by simp, ?_, hb⟩
    rw [matches_ofPieces_cons]
    exact ⟨[], a, rfl, rfl, ha⟩

/-- A text that lies beneath a match and has an extension. -/
def Beneath (g : Glob) (e : List Char) (w : Bytes) : Prop :=
  ∃ u v, w = u ++ Path.separator :: (v ++ Utf8.encode e) ∧ g.Matches u

/-- Directories between slashes, then one name with an extension: whatever lies beneath. -/
theorem beneath_iff {ps : List Glob} {e : List Char} (w : Bytes) :
    (∃ u v, w = u ++ (v ++ Utf8.encode e) ∧ (ofPieces (.atom .between :: ps)).Matches u ∧
      Path.separator ∉ v) ↔ (ofPieces ps).Beneath e w := by
  refine ⟨?_, ?_⟩
  · intro h
    obtain ⟨u, v, rfl, hu, hv⟩ := h
    obtain ⟨x, y, rfl, hx, hy⟩ := (matches_ofPieces_cons _ _ _).mp hu
    obtain ⟨r, hr⟩ := (matches_between_stretch (y ++ v)).mp ⟨y, v, rfl, hy, hv⟩
    refine ⟨x, r, ?_, hx⟩
    rw [List.append_assoc, ← List.append_assoc y, hr, List.cons_append]
  · intro h
    obtain ⟨u, r, rfl, hu⟩ := h
    obtain ⟨y, v, hr, hy, hv⟩ := (matches_between_stretch (Path.separator :: r)).mpr ⟨r, rfl⟩
    refine ⟨u ++ y, v, ?_, (matches_ofPieces_cons _ _ _).mpr ⟨u, y, rfl, hu, hy⟩, hv⟩
    rw [← List.cons_append, hr, List.append_assoc, List.append_assoc]

/-- What ends in a slash and all after it stays within what it matches when it is narrowed and
anything follows. -/
theorem matches_beneath_of_narrowed {a : Atom} (ha : a = .between ∨ a = .beneath) {ps : List Glob}
    {w : Bytes} (h : (ofPieces (.atom a :: ps)).Matches w) (t : Bytes) :
    (ofPieces (.atom .beneath :: ps)).Matches (w ++ t) := by
  refine matches_beneath_append ?_ t
  rw [matches_ofPieces_cons] at h ⊢
  obtain ⟨u, v, rfl, hu, hv⟩ := h
  refine ⟨u, v, rfl, hu, ?_⟩
  rcases ha with rfl | rfl
  · exact hv.1
  · exact hv

theorem globOf_descent (w : Bytes) : (globOf [.atom .descent]).Matches w := by
  rw [globOf, if_pos rfl]
  trivial

/-- The glob of a base and the one for what lies beneath it match what they stand for. -/
theorem read_beneath {base e : List Char} {g : Glob} (h : read base = .ok g) (he : PlainText e) :
    ∃ g', read (base ++ "/**/*".toList ++ e) = .ok g' ∧
      ∀ w, (g.Matches w ∨ g'.Matches w) ↔ (g.Matches w ∨ g.Beneath e w) := by
  obtain ⟨s, s', hs, hr, hset, hg, rfl⟩ := read_eq_ok h
  have happ : base ++ "/**/*".toList ++ e = (base ++ "/**/".toList) ++ '*' :: e := by simp
  by_cases hm : s.mode = .stars
  · obtain ⟨t, ht, htm, htg, hps⟩ := steps_beneath_stars hset hg hm hr
    obtain ⟨g', hread, hg'⟩ :=
      read_append_stretch ((foldlM_step_append hs _).trans ht) htm htg he
    refine ⟨g', happ ▸ hread, ?_⟩
    intro w
    rcases hps with hp | ⟨a, ps, ha, hp, htp⟩
    · simp [hp, globOf_descent]
    · -- The base alone matches all that the other glob could add.
      rw [hp, globOf, if_neg (by simp), hg', htp]
      refine ⟨?_, ?_⟩
      · intro hw
        rcases hw with hw | ⟨u, v, rfl, hu, -⟩
        · exact .inl hw
        · exact .inl (matches_beneath_of_narrowed ha hu _)
      · intro hw
        rcases hw with hw | ⟨u, v, rfl, hu⟩
        · exact .inl hw
        · exact .inl (matches_beneath_append hu _)
  · obtain ⟨t, ht, htm, htg, htp⟩ := steps_beneath hset hg hm
    obtain ⟨g', hread, hg'⟩ :=
      read_append_stretch ((foldlM_step_append hs _).trans ht) htm htg he
    refine ⟨g', happ ▸ hread, ?_⟩
    intro w
    by_cases hp : s'.pieces = [.atom .descent]
    · simp [hp, globOf_descent]
    · rw [globOf, if_neg hp, hg', htp, beneath_iff]

/-- Below a match lies a text just where its characters can be cut. -/
theorem beneath_encode_iff {g : Glob} {e : List Char} (he : PlainText e) (text : List Char) :
    g.Beneath e (Utf8.encode text) ↔
      ∃ q r, text = q ++ '/' :: r ∧ g.Matches (Utf8.encode q) ∧ e <:+ r := by
  have hsep : Path.separator = Utf8.asciiByte '/' := rfl
  refine ⟨?_, ?_⟩
  · intro h
    obtain ⟨u, v, htext, hu⟩ := h
    rw [hsep] at htext
    obtain ⟨q, r, rfl, rfl, hr⟩ := Utf8.encode_eq_append_cons (by decide) htext
    obtain ⟨x, rfl, -⟩ := Utf8.encode_eq_append_ascii (fun c hc => (he c hc).2) hr.symm
    exact ⟨q, x ++ e, rfl, hu, List.suffix_append x e⟩
  · intro h
    obtain ⟨q, r, rfl, hq, x, rfl⟩ := h
    refine ⟨Utf8.encode q, Utf8.encode x, ?_, hq⟩
    rw [Utf8.encode_append, Utf8.encode_cons, Utf8.encodeChar_of_ascii (by decide),
      Utf8.encode_append, hsep]
    rfl

end ProjectScope.Glob
