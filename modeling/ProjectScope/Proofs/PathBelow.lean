import ProjectScope.Path

/-! # Paths below a path

Joining works on text and stripping on components. On names that a path can spell the two undo each
other. A segment joined onto a path comes after its segments (`cut_join_segment`), so names below a
path add one stop each (`stops_below`), and what the whole path adds to the first one is the path of
the names alone, byte for byte (`relativeTo?_below`). -/
namespace ProjectScope.Path

/-- A segment that names an entry of a directory. -/
structure IsName (n : Name) : Prop where
  ne_nil : n ≠ []
  ne_dot : n ≠ dot
  ne_dotDot : n ≠ dotDot
  no_separator : separator ∉ n

instance (n : Name) : Decidable (IsName n) :=
  decidable_of_iff (n ≠ [] ∧ n ≠ dot ∧ n ≠ dotDot ∧ separator ∉ n)
    ⟨fun ⟨hnil, hdot, hup, hs⟩ => ⟨hnil, hdot, hup, hs⟩,
      fun h => ⟨h.ne_nil, h.ne_dot, h.ne_dotDot, h.no_separator⟩⟩

theorem IsName.ofSegment? {n : Name} (h : IsName n) : Component.ofSegment? n = some (.name n) := by
  simp [Component.ofSegment?, h.ne_nil, h.ne_dot, h.ne_dotDot]

theorem not_isAbsolute_of_notMem {s : Bytes} (h : separator ∉ s) : isAbsolute ⟨s⟩ = false := by
  cases s with
  | nil => rfl
  | cons b s =>
    have hb : b ≠ separator := fun he => h (he ▸ List.mem_cons_self)
    simp [isAbsolute, hb]

theorem IsName.not_isAbsolute {n : Name} (h : IsName n) : isAbsolute ⟨n⟩ = false :=
  not_isAbsolute_of_notMem h.no_separator

/-! ## Segments -/

theorem cut_append_separator (s t : Bytes) : ∀ before segment,
    cut before segment (s ++ separator :: t) =
      cut before segment s ++ cut (separator :: (s.reverse ++ before)) [] t := by
  induction s with
  | nil => intro before segment; simp [cut]
  | cons b s ih =>
    intro before segment
    by_cases hb : b = separator
    · subst hb
      simp [cut, ih]
    · simp [cut, hb, ih]

theorem cut_of_no_separator {s : Bytes} (h : separator ∉ s) : ∀ before segment,
    cut before segment s = [(segment.reverse ++ s, before.reverse ++ s)] := by
  induction s with
  | nil => intro before segment; simp [cut]
  | cons b s ih =>
    intro before segment
    have hb : b ≠ separator := fun he => h (he ▸ List.mem_cons_self)
    have hs : separator ∉ s := fun hm => h (List.mem_cons_of_mem _ hm)
    simp [cut, hb, ih hs]

theorem cut_ne_nil (s : Bytes) : ∀ before segment, cut before segment s ≠ [] := by
  induction s with
  | nil => intro before segment; simp [cut]
  | cons b s ih =>
    intro before segment
    by_cases hb : b = separator
    · simp [cut, hb]
    · simpa [cut, hb] using ih (b :: before) (b :: segment)

theorem stopsOf_append (xs ys : List (Bytes × Bytes)) :
    stopsOf (xs ++ ys) = stopsOf xs ++ stopsOf ys := by
  simp [stopsOf]

/-- Only the first segment is special. -/
theorem stops_of_cut {p : Path} {first : Bytes × Bytes} {rest : List (Bytes × Bytes)}
    (h : cut [] [] p.text = first :: rest) :
    p.stops = (if p.isAbsolute then [(.root, [separator])]
      else if first.1 = dot then [(.here, first.2)] else stopsOf [first]) ++ stopsOf rest := by
  unfold stops
  rw [h]
  by_cases ha : p.isAbsolute = true
  · simp [ha]
  · by_cases hd : first.1 = dot
    · simp [ha, hd]
    · simp [ha, hd, ← stopsOf_append]

/-- Segments at the end of a path add their stops. -/
theorem stops_of_cut_append {p q : Path} {xs ys zs : List (Bytes × Bytes)} (hx : xs ≠ [])
    (ha : p.isAbsolute = q.isAbsolute) (hp : cut [] [] p.text = xs ++ ys)
    (hq : cut [] [] q.text = xs ++ zs) (hy : stopsOf ys = []) :
    q.stops = p.stops ++ stopsOf zs := by
  cases xs with
  | nil => exact absurd rfl hx
  | cons first rest =>
    rw [List.cons_append] at hp hq
    rw [stops_of_cut hp, stops_of_cut hq, ha, stopsOf_append, stopsOf_append, hy]
    simp

theorem isAbsolute_append {p : Path} (h : p.text ≠ []) (t : Bytes) :
    isAbsolute ⟨p.text ++ t⟩ = p.isAbsolute := by
  obtain ⟨_ | ⟨b, s⟩⟩ := p
  · exact absurd rfl h
  · rfl

/-! ## Joining -/

theorem join_relative (p : Path) {q : Path} (hq : q.isAbsolute = false) : p.join q =
    ⟨p.text ++ if p.text = [] ∨ p.text.getLast? = some separator then q.text
      else separator :: q.text⟩ := by
  rw [join, hq, if_neg Bool.false_ne_true]
  split <;> rfl

theorem join_of_ended {p q : Path} (hp : p.text.getLast? = some separator)
    (hq : q.isAbsolute = false) : p.join q = ⟨p.text ++ q.text⟩ := by
  rw [join_relative p hq, if_pos (.inr hp)]

theorem join_of_open {p q : Path} (hne : p.text ≠ []) (hp : p.text.getLast? ≠ some separator)
    (hq : q.isAbsolute = false) : p.join q = ⟨p.text ++ separator :: q.text⟩ := by
  rw [join_relative p hq, if_neg (not_or.mpr ⟨hne, hp⟩)]

/-- A segment joined onto a path comes after its segments. An empty one at the end makes way. -/
theorem cut_join_segment (p : Path) {s : Bytes} (hs : separator ∉ s) :
    ∃ xs ys, cut [] [] p.text = xs ++ ys ∧ (ys = [] ∨ ys = [([], p.text)]) ∧
      cut [] [] (p.join ⟨s⟩).text = xs ++ [(s, (p.join ⟨s⟩).text)] ∧
      (xs = [] ↔ p.text = []) := by
  have hrelative : isAbsolute ⟨s⟩ = false := not_isAbsolute_of_notMem hs
  have hcut : ∀ before, cut before [] s = [(s, before.reverse ++ s)] := fun before =>
    cut_of_no_separator hs before []
  by_cases he : p.text = []
  · rw [join_relative p hrelative, if_pos (.inl he), he]
    exact ⟨[], [([], [])], rfl, .inr rfl, hcut [], iff_of_true rfl rfl⟩
  by_cases hl : p.text.getLast? = some separator
  · obtain ⟨t, ht⟩ := List.getLast?_eq_some_iff.mp hl
    have hne : cut [] [] t ≠ [] := cut_ne_nil t [] []
    refine ⟨cut [] [] t, [([], p.text)], ?_, .inr rfl, ?_, iff_of_false hne he⟩
    · rw [ht, cut_append_separator]
      simp [cut]
    · rw [join_of_ended hl hrelative, ht, List.append_assoc, List.singleton_append,
        cut_append_separator, hcut]
      simp
  · have hne : cut [] [] p.text ≠ [] := cut_ne_nil p.text [] []
    refine ⟨_, [], (List.append_nil _).symm, .inl rfl, ?_, iff_of_false hne he⟩
    rw [join_of_open he hl hrelative, cut_append_separator, hcut]
    simp

theorem stops_join (p : Path) {s : Bytes} (hs : separator ∉ s) (hd : s ≠ dot) :
    (p.join ⟨s⟩).stops = p.stops ++ stopsOf [(s, (p.join ⟨s⟩).text)] := by
  have hrelative : isAbsolute ⟨s⟩ = false := not_isAbsolute_of_notMem hs
  obtain ⟨xs, ys, hp, hys, hq, hxs⟩ := cut_join_segment p hs
  by_cases he : p.text = []
  · -- The segment comes first now, where a dot alone is read in another way.
    obtain rfl := hxs.mpr he
    have hjoin : p.join ⟨s⟩ = ⟨s⟩ := by
      rw [join_relative p hrelative, if_pos (.inl he), he]
      rfl
    have hstops : p.stops = [] := by
      obtain ⟨text⟩ := p
      subst he
      rfl
    rw [hstops, stops_of_cut hq, hjoin, hrelative, if_neg Bool.false_ne_true, if_neg hd]
    exact List.append_nil _
  · have habs : isAbsolute (p.join ⟨s⟩) = p.isAbsolute := by
      rw [join_relative p hrelative]
      exact isAbsolute_append he _
    have hgone : stopsOf ys = [] := by
      rcases hys with rfl | rfl <;> rfl
    exact stops_of_cut_append (fun hx => he (hxs.mp hx)) habs.symm hp hq hgone

/-- A segment that has an effect, after whatever path, adds its component. -/
theorem stops_join_segment (p : Path) {s : Bytes} {c : Component} (hs : separator ∉ s)
    (hd : s ≠ dot) (hc : Component.ofSegment? s = some c) :
    (p.join ⟨s⟩).stops = p.stops ++ [(c, (p.join ⟨s⟩).text)] := by
  rw [stops_join p hs hd]
  simp [stopsOf, hc]

/-- A separator at the end of a path adds nothing. -/
theorem stops_join_nil (p : Path) : (p.join ⟨[]⟩).stops = p.stops := by
  rw [stops_join p List.not_mem_nil (by decide)]
  exact List.append_nil _

theorem components_join_segment (p : Path) {s : Bytes} {c : Component} (hs : separator ∉ s)
    (hd : s ≠ dot) (hc : Component.ofSegment? s = some c) :
    (p.join ⟨s⟩).components = p.components ++ [c] := by
  rw [components, stops_join_segment p hs hd hc, List.map_append]
  rfl

theorem components_joinName (p : Path) {n : Name} (h : IsName n) :
    (p.joinName n).components = p.components ++ [.name n] :=
  components_join_segment p h.no_separator h.ne_dot h.ofSegment?

/-! ## Names that a path spells -/

theorem separator_notMem_of_mem_cut {s : Bytes} : ∀ {before segment}, separator ∉ segment →
    ∀ piece ∈ cut before segment s, separator ∉ piece.1 := by
  induction s with
  | nil =>
    intro before segment hs piece hp
    rw [cut, List.mem_singleton] at hp
    simpa [hp] using hs
  | cons b s ih =>
    intro before segment hs piece hp
    by_cases hb : b = separator
    · rw [cut, if_pos hb] at hp
      rcases List.mem_cons.mp hp with rfl | hp
      · simpa using hs
      · exact ih (by simp) piece hp
    · rw [cut, if_neg hb] at hp
      refine ih ?_ piece hp
      intro hm
      rcases List.mem_cons.mp hm with he | hm
      · exact hb he.symm
      · exact hs hm

theorem isName_of_ofSegment? {segment : Bytes} {n : Name} (hs : separator ∉ segment)
    (h : Component.ofSegment? segment = some (.name n)) : IsName n := by
  unfold Component.ofSegment? at h
  split at h
  · cases h
  · next hne =>
    split at h
    · cases h
    · next hd =>
      cases h
      exact ⟨fun he => hne (.inl he), fun he => hne (.inr he), hd, hs⟩

theorem isName_of_mem_stopsOf {segments : List (Bytes × Bytes)}
    (hs : ∀ piece ∈ segments, separator ∉ piece.1) {n : Name} {upTo : Bytes}
    (h : (.name n, upTo) ∈ stopsOf segments) : IsName n := by
  obtain ⟨⟨segment, end'⟩, hm, he⟩ := List.mem_filterMap.mp h
  obtain ⟨c, hc, hn⟩ := Option.map_eq_some_iff.mp he
  obtain ⟨rfl, -⟩ := Prod.mk.inj hn
  exact isName_of_ofSegment? (hs _ hm) hc

theorem isName_of_mem_components {p : Path} {n : Name} (h : .name n ∈ p.components) :
    IsName n := by
  obtain ⟨⟨c, upTo⟩, hm, rfl⟩ := List.mem_map.mp h
  have hs : ∀ piece ∈ cut [] [] p.text, separator ∉ piece.1 :=
    separator_notMem_of_mem_cut (by simp)
  cases hc : cut [] [] p.text with
  | nil => exact absurd hc (cut_ne_nil p.text [] [])
  | cons first rest =>
    rw [hc, List.forall_mem_cons] at hs
    rw [stops_of_cut hc] at hm
    rcases List.mem_append.mp hm with hm | hm
    · split at hm
      · simp at hm
      split at hm
      · simp at hm
      · exact isName_of_mem_stopsOf (by simpa using hs.1) hm
    · exact isName_of_mem_stopsOf hs.2 hm

/-! ## Names below a path -/

/-- A path followed by names, one below the other. -/
def below (p : Path) (names : List Name) : Path := names.foldl joinName p

@[simp] theorem below_nil (p : Path) : p.below [] = p := rfl

@[simp] theorem below_cons (p : Path) (n : Name) (names : List Name) :
    p.below (n :: names) = (p.joinName n).below names := rfl

theorem components_below {names : List Name} (h : ∀ n ∈ names, IsName n) : ∀ p : Path,
    (p.below names).components = p.components ++ names.map .name := by
  induction names with
  | nil => intro p; simp
  | cons n names ih =>
    intro p
    have hn : IsName n := h n List.mem_cons_self
    have hr := ih (fun m hm => h m (List.mem_cons_of_mem _ hm)) (p.joinName n)
    rw [below_cons, hr, components_joinName p hn]
    simp

/-- The path that names make by themselves. -/
def relative (names : List Name) : Path := ⟨[separator].intercalate names⟩

theorem intercalate_cons (n : Name) (names : List Name) :
    [separator].intercalate (n :: names) = n ++ names.flatMap (separator :: ·) := by
  induction names generalizing n with
  | nil => simp
  | cons m names ih => simp [ih]

/-- The text ends with the name that was joined last, whether or not a separator was put before. -/
theorem suffix_text_joinName (p : Path) {n : Name} (h : IsName n) : n <:+ (p.joinName n).text := by
  rw [joinName, join_relative p h.not_isAbsolute]
  split
  · exact List.suffix_append p.text n
  · exact (List.suffix_cons separator n).trans (List.suffix_append p.text (separator :: n))

theorem text_joinName_ne_nil (p : Path) {n : Name} (h : IsName n) : (p.joinName n).text ≠ [] :=
  (p.suffix_text_joinName h).ne_nil h.ne_nil

theorem getLast?_text_joinName (p : Path) {n : Name} (h : IsName n) :
    (p.joinName n).text.getLast? ≠ some separator := by
  obtain ⟨t, ht⟩ := p.suffix_text_joinName h
  rw [← ht, List.getLast?_append, List.getLast?_eq_some_getLast h.ne_nil, Option.some_or]
  intro he
  exact h.no_separator (Option.some.inj he ▸ List.getLast_mem h.ne_nil)

theorem text_below {names : List Name} (h : ∀ n ∈ names, IsName n) : ∀ t : Bytes, t ≠ [] →
    t.getLast? ≠ some separator → (below ⟨t⟩ names).text = t ++ names.flatMap (separator :: ·) := by
  induction names with
  | nil => intro t _ _; simp
  | cons n names ih =>
    intro t ht hl
    have hn : IsName n := h n List.mem_cons_self
    have hj : joinName ⟨t⟩ n = ⟨t ++ separator :: n⟩ := join_of_open ht hl hn.not_isAbsolute
    have hlast : (t ++ separator :: n).getLast? ≠ some separator := by
      have hend := getLast?_text_joinName ⟨t⟩ hn
      rwa [hj] at hend
    rw [below_cons, hj, ih (fun m hm => h m (List.mem_cons_of_mem _ hm)) _ (by simp) hlast]
    simp

theorem text_below_cons (p : Path) {n : Name} {names : List Name}
    (h : ∀ m ∈ n :: names, IsName m) :
    (p.below (n :: names)).text = (p.joinName n).text ++ names.flatMap (separator :: ·) := by
  obtain ⟨hn, hrest⟩ := List.forall_mem_cons.mp h
  exact text_below hrest _ (p.text_joinName_ne_nil hn) (p.getLast?_text_joinName hn)

/-! ## What a path below a root adds to it -/

/-- The stops that names add to a path, one below the other. -/
def stopsBelow (p : Path) : List Name → List (Component × Bytes)
  | [] => []
  | n :: names => (.name n, (p.joinName n).text) :: (p.joinName n).stopsBelow names

theorem stops_below {names : List Name} (h : ∀ n ∈ names, IsName n) : ∀ p : Path,
    (p.below names).stops = p.stops ++ p.stopsBelow names := by
  induction names with
  | nil => exact fun p => (List.append_nil p.stops).symm
  | cons n names ih =>
    intro p
    obtain ⟨hn, hrest⟩ := List.forall_mem_cons.mp h
    have hone : (p.joinName n).stops = p.stops ++ [(.name n, (p.joinName n).text)] :=
      stops_join_segment p hn.no_separator hn.ne_dot hn.ofSegment?
    rw [below_cons, ih hrest, hone, stopsBelow, List.append_assoc, List.singleton_append]

/-- The last of these stops is at the end of the whole path. -/
theorem getLast_stopsBelow {names : List Name} : ∀ {p : Path} (hne : p.stopsBelow names ≠ []),
    ((p.stopsBelow names).getLast hne).2 = (p.below names).text := by
  induction names with
  | nil => exact fun hne => absurd rfl hne
  | cons n names ih =>
    intro p hne
    cases names with
    | nil => rfl
    | cons m names => exact ih (List.cons_ne_nil _ _)

/-- From the first of these stops on, the path is written as the names are. -/
theorem textOf_stopsBelow {names : List Name} (h : ∀ n ∈ names, IsName n) (p : Path) :
    textOf (p.stopsBelow names) = (relative names).text := by
  cases names with
  | nil => rfl
  | cons n names =>
    obtain ⟨t, ht⟩ := p.suffix_text_joinName (h n List.mem_cons_self)
    have hne : p.stopsBelow (n :: names) ≠ [] := List.cons_ne_nil _ _
    have hlast : ((p.stopsBelow (n :: names)).getLast hne).2 =
        t ++ (n ++ names.flatMap (separator :: ·)) := by
      rw [getLast_stopsBelow, p.text_below_cons h, ← ht, List.append_assoc]
    have hstart : (p.joinName n).text.length - n.length = t.length := by
      rw [← ht, List.length_append, Nat.add_sub_cancel]
    calc textOf (p.stopsBelow (n :: names))
        = ((p.stopsBelow (n :: names)).getLast hne).2.drop
            ((p.joinName n).text.length - n.length) := rfl
      _ = n ++ names.flatMap (separator :: ·) := by rw [hlast, hstart, List.drop_left]
      _ = (relative (n :: names)).text := (intercalate_cons n names).symm

theorem relativeTo?_below {names : List Name} (h : ∀ n ∈ names, IsName n) (root : Path) :
    (root.below names).relativeTo? root = some (relative names) := by
  have hp : root.components <+: (root.below names).components :=
    ⟨_, (components_below h root).symm⟩
  have hdrop : (root.below names).stops.drop root.components.length = root.stopsBelow names := by
    rw [stops_below h, components, List.length_map, List.drop_left]
  rw [relativeTo?, if_pos hp, hdrop, textOf_stopsBelow h]

/-! ## Paths of names alone -/

theorem isAbsolute_ofNames (names : List Name) : (ofNames names).isAbsolute = true := by
  cases names with
  | nil => rfl
  | cons n names => rfl

theorem ofNames_eq_below {names : List Name} (h : ∀ n ∈ names, IsName n) :
    ofNames names = below ⟨[separator]⟩ names := by
  cases names with
  | nil => rfl
  | cons n names =>
    have hn := h n List.mem_cons_self
    have hj : joinName ⟨[separator]⟩ n = ⟨separator :: n⟩ := join_of_ended rfl hn.not_isAbsolute
    have hl : (separator :: n).getLast? ≠ some separator := by
      rw [List.getLast?_cons_of_ne_nil hn.ne_nil]
      exact fun he => hn.no_separator (List.mem_of_getLast? he)
    have ht := text_below (fun m hm => h m (List.mem_cons_of_mem n hm)) (separator :: n) (by simp)
      hl
    have htext : (ofNames (n :: names)).text = (below ⟨separator :: n⟩ names).text := by
      rw [ht, ofNames, if_neg (by simp), List.flatMap_cons]
    rw [below_cons, hj]
    exact congrArg Path.mk htext

theorem components_ofNames {names : List Name} (h : ∀ n ∈ names, IsName n) :
    (ofNames names).components = .root :: names.map .name := by
  rw [ofNames_eq_below h, components_below h]
  rfl

theorem text_relative_append {xs ys : List Name} (hx : xs ≠ []) (hy : ys ≠ []) :
    (relative (xs ++ ys)).text = (relative xs).text ++ separator :: (relative ys).text := by
  obtain ⟨x, xs, rfl⟩ := List.exists_cons_of_ne_nil hx
  obtain ⟨y, ys, rfl⟩ := List.exists_cons_of_ne_nil hy
  simp only [relative, List.cons_append, intercalate_cons, List.flatMap_append, List.flatMap_cons,
    List.append_assoc]

theorem relative_eq_below {names : List Name} (h : ∀ n ∈ names, IsName n) :
    relative names = below ⟨[]⟩ names := by
  cases names with
  | nil => rfl
  | cons n names =>
    have hn : IsName n := h n List.mem_cons_self
    have hl : n.getLast? ≠ some separator := fun he => hn.no_separator (List.mem_of_getLast? he)
    have hj : joinName ⟨[]⟩ n = ⟨n⟩ := join_relative ⟨[]⟩ hn.not_isAbsolute
    have ht := text_below (fun m hm => h m (List.mem_cons_of_mem n hm)) n hn.ne_nil hl
    rw [relative, intercalate_cons, below_cons, hj, ← ht]

theorem components_relative {names : List Name} (h : ∀ n ∈ names, IsName n) :
    (relative names).components = names.map .name := by
  rw [relative_eq_below h, components_below h]
  rfl

theorem relative_injective {xs ys : List Name} (hx : ∀ n ∈ xs, IsName n) (hy : ∀ n ∈ ys, IsName n)
    (h : relative xs = relative ys) : xs = ys := by
  have hc := congrArg components h
  rw [components_relative hx, components_relative hy] at hc
  exact (List.map_inj_right fun _ _ => Component.name.inj).mp hc

end ProjectScope.Path
