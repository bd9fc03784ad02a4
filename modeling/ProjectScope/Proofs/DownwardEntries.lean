import ProjectScope.Proofs.FlatScans

/-! # Entries that take in all beneath what they accept

A bare entry stands for its base and for what lies beneath a match of it, so it accepts all beneath
whatever it accepts. An entry that ends in an asterisk is used as written and one asterisk stays
within a segment, so the same holds of it only when two asterisks that stand for directories come
before. Main statement: `accepts_beneath`. -/
namespace ProjectScope

namespace Glob

/-- Whatever lies beneath a match is a match. -/
def Downward (g : Glob) : Prop := ∀ w r, g.Matches w → g.Matches (w ++ Path.separator :: r)

theorem downward_everything : Downward (.atom .everything) := fun _ _ _ => trivial

theorem downward_beneath (ps : List Glob) : Downward (ofPieces (.atom .beneath :: ps)) :=
  fun _ _ h => matches_beneath_append h _

/-- The atom stands for directories, and other pieces may follow it. -/
def Atom.ForDirectories (a : Atom) : Prop := a = .descent ∨ a = .between ∨ a = .beneath

theorem Atom.ForDirectories.append {a : Atom} (ha : a.ForDirectories) {d t : Bytes}
    (hd : a.Matches d) (ht : t.getLast? = some Path.separator) : a.Matches (d ++ t) := by
  have hlast : (d ++ t).getLast? = some Path.separator := by
    rw [List.getLast?_append, ht]
    rfl
  have hhead : d.head? = some Path.separator → (d ++ t).head? = some Path.separator := by
    intro hh
    rw [List.head?_append, hh]
    rfl
  rcases ha with rfl | rfl | rfl
  · exact .inr hlast
  · exact ⟨hhead hd.1, hlast⟩
  · exact hhead hd

/-- One name after directories: the last slash of what follows is where the name begins. -/
theorem downward_stretch {a : Atom} (ha : a.ForDirectories) (ps : List Glob) :
    Downward (ofPieces (.atom .stretch :: .atom a :: ps)) := by
  intro w r h
  obtain ⟨u, v, rfl, hu, -⟩ := (matches_stretch _ _).mp h
  obtain ⟨x, d, rfl, hx, hd⟩ := (matches_ofPieces_cons _ _ _).mp hu
  obtain ⟨y, z, rfl, hy, hz⟩ := exists_cut r
  have hlast : (v ++ Path.separator :: y).getLast? = some Path.separator := by
    rcases hy with rfl | hy
    · simp
    · rw [List.getLast?_append, List.getLast?_cons, hy]
      rfl
  refine (matches_stretch _ _).mpr ⟨x ++ (d ++ (v ++ Path.separator :: y)), z, by simp, ?_, hz⟩
  exact (matches_ofPieces_cons _ _ _).mpr ⟨x, _, rfl, hx, ha.append hd hlast⟩

/-- Another name after a slash: what is beneath goes to the pieces before that slash. -/
theorem downward_stretch_slash {ps : List Glob} (h : Downward (ofPieces (.atom .stretch :: ps))) :
    Downward (ofPieces (.atom .stretch :: .atom (.literal '/') :: .atom .stretch :: ps)) := by
  have hslash : String.utf8EncodeChar '/' = [Path.separator] := rfl
  intro w r hw
  obtain ⟨u, v, rfl, hu, -⟩ := (matches_stretch _ _).mp hw
  obtain ⟨x, d, rfl, hx, hd⟩ := (matches_ofPieces_cons _ _ _).mp hu
  have hd' : d = [Path.separator] := hd
  subst hd'
  obtain ⟨y, z, rfl, hy, hz⟩ := exists_cut r
  obtain ⟨t, ht⟩ : ∃ t, v ++ Path.separator :: y = t ++ [Path.separator] := by
    rcases hy with rfl | hy
    · exact ⟨v, rfl⟩
    · obtain ⟨y', rfl⟩ := List.getLast?_eq_some_iff.mp hy
      exact ⟨v ++ Path.separator :: y', by simp⟩
  refine (matches_stretch _ _).mpr
    ⟨(x ++ Path.separator :: t) ++ [Path.separator], z, ?_, ?_, hz⟩
  · have hall := congrArg (fun s => x ++ Path.separator :: (s ++ z)) ht
    simpa using hall
  · exact (matches_ofPieces_cons _ _ _).mpr ⟨_, _, rfl, h x t hx, hslash⟩

/-! ## Reading -/

/-- The text ends in a segment of two asterisks, after which come only segments of one. -/
inductive EndsInStars : List Char → Prop
  | stars {stem} : stem = [] ∨ stem.getLast? = some '/' → EndsInStars (stem ++ ['*', '*'])
  | star {text} : EndsInStars text → EndsInStars (text ++ ['/', '*'])

namespace Scan

variable {s t : Scan}

/-- The scan is in the middle of a class, past its negation. -/
def InClass (s : Scan) : Prop := ∃ k, s.mode = .inClass k

theorem InClass.step (h : s.InClass) {c : Char} (hc : c ≠ ']') (hs : s.step c = .ok t) :
    t.InClass := by
  obtain ⟨k, hk⟩ := h
  rcases step_insideClass (by simp [insideClass, hk]) hs with ⟨he, -⟩ | ⟨k, rfl⟩
  · exact absurd he hc
  · exact ⟨k, rfl⟩

theorem step_slash (hs : s.step '/' = .ok t) :
    (t.mode = .plain ∧ t.previous = some '/') ∨ t.InClass := by
  cases hm : s.mode with
  | plain =>
    simp only [Scan.step, hm, stepPlain] at hs
    cases hs
    exact .inl ⟨rfl, rfl⟩
  | star =>
    simp only [Scan.step, hm, stepPlain] at hs
    cases hs
    exact .inl ⟨rfl, rfl⟩
  | stars =>
    simp only [Scan.step, hm, stepStars, if_true] at hs
    cases hs
    exact .inl ⟨rfl, rfl⟩
  | backslash =>
    simp only [Scan.step, hm] at hs
    cases hs
    exact .inl ⟨rfl, rfl⟩
  | bracket =>
    have hk : Scan.step { s with mode := .inClass { negated := false } } '/' = .ok t := by
      simp only [Scan.step, hm] at hs
      exact hs
    exact .inr (InClass.step ⟨_, rfl⟩ (by decide) hk)
  | inClass k => exact .inr (InClass.step ⟨k, hm⟩ (by decide) hs)

/-- The scan has read a text that ends in asterisks for directories, or in names after them. -/
def EndedInStars (s : Scan) : Prop :=
  s.mode = .stars ∨ s.mode = .star ∧ Downward (ofPieces (.atom .stretch :: s.pieces))

/-- A slash and one asterisk after asterisks for directories. -/
theorem step_slash_star (h : s.EndedInStars) :
    ∃ t, ['/', '*'].foldlM Scan.step s = .ok t ∧ t.EndedInStars := by
  rcases h with hm | ⟨hm, hd⟩
  · obtain ⟨a, ps, ha, hp⟩ : ∃ a ps, a.ForDirectories ∧
        (s.directories .between).pieces = .atom a :: ps := by
      cases hps : s.pieces with
      | nil => exact ⟨.descent, [], .inl rfl, pieces_directories_nil hps .between⟩
      | cons p ps =>
        rw [directories_cons hps]
        by_cases hk : Kept p
        · have hr := pieces_replaceLast_of_kept hps hk .between
          rcases hk with rfl | rfl
          · exact ⟨.descent, ps, .inl rfl, hr⟩
          · exact ⟨.beneath, ps, .inr (.inr rfl), hr⟩
        · exact ⟨.between, ps, .inr (.inl rfl), pieces_replaceLast hps hk .between⟩
    rw [foldlM_step_cons (step_stars_slash hm), foldlM_step_cons (step_star rfl)]
    refine ⟨_, rfl, .inr ⟨rfl, ?_⟩⟩
    simp only [after]
    rw [hp]
    exact downward_stretch ha ps
  · have hslash : s.step '/' =
        .ok ((((s.pushAtom .stretch).after '*').pushAtom (.literal '/')).after '/') := by
      simp [Scan.step, hm, stepPlain]
    rw [foldlM_step_cons hslash, foldlM_step_cons (step_star rfl)]
    exact ⟨_, rfl, .inr ⟨rfl, downward_stretch_slash hd⟩⟩

theorem InClass.foldlM {text : List Char} (hc : ']' ∉ text) :
    ∀ {s t : Scan}, s.InClass → text.foldlM Scan.step s = .ok t → t.InClass := by
  induction text with
  | nil =>
    intro s t h hs
    cases hs
    exact h
  | cons c text ih =>
    intro s t h hs
    obtain ⟨u, hstep, hs⟩ := foldlM_cons_eq_ok.mp hs
    have hne : c ≠ ']' := fun he => hc (he ▸ List.mem_cons_self)
    exact ih (fun hm => hc (List.mem_cons_of_mem c hm)) (h.step hne hstep) hs

/-- What a text that ends in this way leaves the scan in; a class that is still open stays so. -/
theorem endedInStars_of_foldlM {text : List Char} (he : EndsInStars text) :
    ∀ {s : Scan}, text.foldlM Scan.step {} = .ok s → s.InClass ∨ s.EndedInStars := by
  induction he with
  | @stars stem hstem =>
    intro s hs
    obtain ⟨u, hu, hs⟩ := foldlM_append_eq_ok.mp hs
    have hplain : u.InClass ∨ u.mode = .plain ∧ (u.pieces = [] ∨ u.previous = some '/') := by
      rcases hstem with rfl | hlast
      · cases hu
        exact .inr ⟨rfl, .inl rfl⟩
      · obtain ⟨before, rfl⟩ := List.getLast?_eq_some_iff.mp hlast
        obtain ⟨v, -, hv⟩ := foldlM_append_eq_ok.mp hu
        have hstep : v.step '/' = .ok u := by
          simpa [List.foldlM_cons] using hv
        rcases step_slash hstep with ⟨hm, hp⟩ | hk
        · exact .inr ⟨hm, .inr hp⟩
        · exact .inl hk
    rcases hplain with hk | ⟨hm, hp⟩
    · exact .inl (hk.foldlM (by decide) hs)
    · rw [steps_stars hm hp] at hs
      cases hs
      exact .inr (.inl rfl)
  | star _ ih =>
    intro s hs
    obtain ⟨u, hu, hs⟩ := foldlM_append_eq_ok.mp hs
    rcases ih hu with hk | he
    · exact .inl (hk.foldlM (by decide) hs)
    · obtain ⟨t, ht, he⟩ := step_slash_star he
      rw [ht] at hs
      cases hs
      exact .inr he

end Scan

/-- Such a text is a glob that takes in all beneath what it matches. -/
theorem downward_of_read {text : List Char} (he : EndsInStars text) {g : Glob}
    (h : read text = .ok g) : g.Downward := by
  obtain ⟨s, s', hs, hr, hset, -, rfl⟩ := read_eq_ok h
  rcases Scan.endedInStars_of_foldlM he hs with ⟨k, hk⟩ | hm | ⟨hm, hd⟩
  · rw [Scan.settle, hk] at hset
    cases hset
  · rw [Scan.settle_stars hm] at hset
    cases hset
    simp only [Scan.after]
    cases hps : s.pieces with
    | nil =>
      rw [Scan.pieces_directories_nil hps]
      exact downward_everything
    | cons p ps =>
      have hrooted := hr.pieces
      rw [hps] at hrooted
      rw [Scan.directories_cons hps]
      by_cases hk : Kept p
      · rw [pieces_replaceLast_of_kept hps hk]
        rcases hk with rfl | rfl
        · rw [hrooted.1 rfl]
          exact downward_everything
        · exact downward_beneath ps
      · rw [pieces_replaceLast hps hk]
        exact downward_beneath ps
  · rw [Scan.settle, hm] at hset
    cases hset
    exact hd

end Glob

/-! ## Entries -/

namespace Matcher

theorem accepts_downward {m : Matcher} (h : m.glob.Downward) {text : List Char}
    (hm : m.accepts text = true) (rest : List Char) : m.accepts (text ++ '/' :: rest) = true := by
  rw [accepts, Glob.accepts_iff] at hm ⊢
  have hslash : String.utf8EncodeChar '/' = [Path.separator] := rfl
  rw [Utf8.encode_append, Utf8.encode_cons, hslash]
  exact h _ _ hm

theorem literalBraces_endsInStars {text : List Char} (h : Glob.EndsInStars text) :
    Glob.EndsInStars (literalBraces text) := by
  induction h with
  | @stars stem hstem =>
    rw [literalBraces_append]
    refine .stars ?_
    rcases hstem with rfl | hlast
    · exact .inl rfl
    · obtain ⟨before, rfl⟩ := List.getLast?_eq_some_iff.mp hlast
      have hslash : literalBraces ['/'] = ['/'] := rfl
      rw [literalBraces_append, hslash]
      exact .inr (by simp)
  | star _ ih =>
    rw [literalBraces_append]
    exact .star ih

end Matcher

namespace Entry

/-- The entry is a glob, and either bare, so that it stands for what lies beneath its base as well,
or written out with asterisks for directories at its end. -/
def TakesInBeneath (entry : String) : Prop :=
  if entry.toList.getLast? = some '*' then
    Glob.EndsInStars entry.toList ∧ ¬ Matcher.Rejected entry
  else NamesRoot entry ∨ ¬ Matcher.Rejected (String.ofList (base entry))

theorem hasExtension_any (text : List Char) : HasExtension PatternSet.anyExtension text :=
  ⟨"", List.mem_singleton_self _, List.nil_suffix⟩

theorem accepts_beneath {entry : String} (h : TakesInBeneath entry) {text : List Char}
    (ha : Accepts entry PatternSet.anyExtension text) (rest : List Char) :
    Accepts entry PatternSet.anyExtension (text ++ '/' :: rest) := by
  have hplain := plainText_of_scope (c := {}) (.inr (rfl : PatternSet.anyExtension = _))
  unfold TakesInBeneath at h
  split at h
  · next hstar =>
    obtain ⟨he, hr⟩ := h
    obtain ⟨p, hp, m, hm, hacc⟩ := ha
    have hexp : expand entry PatternSet.anyExtension = [entry] := by rw [expand, if_pos hstar]
    rw [hexp] at hp
    obtain rfl := List.mem_singleton.mp hp
    refine ⟨p, hexp ▸ hp, m, hm, Matcher.accepts_downward ?_ hacc rest⟩
    cases hread : Glob.read (Matcher.literalBraces p.toList) with
    | error fault => exact absurd ⟨fault, hread⟩ hr
    | ok g =>
      rw [Matcher.compile_of_read hread] at hm
      cases hm
      exact Glob.downward_of_read (Matcher.literalBraces_endsInStars he) hread
  · next hstar =>
    by_cases hroot : NamesRoot entry
    · exact (accepts_root hplain hstar hroot _).mpr (hasExtension_any _)
    · have hr := h.resolve_left hroot
      have hlog : (Matcher.compile (String.ofList (base entry))).log = [] := by
        cases hread : Glob.read (Matcher.literalBraces (String.ofList (base entry)).toList) with
        | error fault => exact absurd ⟨fault, hread⟩ hr
        | ok g => rw [Matcher.compile_of_read hread]; rfl
      obtain ⟨m, -, hacc⟩ := accepts_base hplain hstar hroot hlog
      refine (hacc _).mpr (.inr ?_)
      rcases (hacc _).mp ha with hm | ⟨q, r, rfl, hq, -⟩
      · exact ⟨text, rest, rfl, hm, hasExtension_any rest⟩
      · exact ⟨q, r ++ '/' :: rest, by simp, hq, hasExtension_any _⟩

end Entry

end ProjectScope
