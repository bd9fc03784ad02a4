import Mathlib.Data.List.Infix
import ProjectScope.FileSystem.Resolve
import ProjectScope.Proofs.PathBelow

/-! # A path and what it becomes as its last components are taken away

The text of an absolute path is cut at the end of each component. What is left is again a path, with
the components up to there (`cutAt_of_split`), so that the ancestors of an absolute path have the
beginnings of its components, the longest first (`components_ancestors`). A path that is made
absolute has the components of the working directory and its own (`steps_of_absolute?`). -/
namespace ProjectScope.Path

/-! ## Cutting at the end of a component -/

theorem cut_of_split {s : Bytes} : ∀ {before segment xs piece ys},
    cut before segment s = xs ++ piece :: ys →
      ∃ u, u <+: s ∧ piece.2 = before.reverse ++ u ∧ cut before segment u = xs ++ [piece] := by
  induction s with
  | nil =>
    intro before segment xs piece ys h
    rw [cut] at h
    cases xs with
    | nil =>
      cases h
      exact ⟨[], List.prefix_rfl, (List.append_nil _).symm, rfl⟩
    | cons x xs => simp at h
  | cons b s ih =>
    intro before segment xs piece ys h
    by_cases hb : b = separator
    · rw [cut, if_pos hb] at h
      cases xs with
      | nil =>
        cases h
        exact ⟨[], List.nil_prefix, (List.append_nil _).symm, rfl⟩
      | cons x xs =>
        obtain ⟨rfl, hrest⟩ := List.cons_eq_cons.mp h
        obtain ⟨u, hu, hp, hc⟩ := ih hrest
        refine ⟨b :: u, List.cons_prefix_cons.mpr ⟨rfl, hu⟩, by simp [hp], ?_⟩
        rw [cut, if_pos hb, hc, List.cons_append]
    · rw [cut, if_neg hb] at h
      obtain ⟨u, hu, hp, hc⟩ := ih h
      refine ⟨b :: u, List.cons_prefix_cons.mpr ⟨rfl, hu⟩, by simp [hp], ?_⟩
      rw [cut, if_neg hb, hc]

theorem exists_text_of_isAbsolute {p : Path} (ha : p.isAbsolute = true) :
    ∃ t, p = ⟨separator :: t⟩ := by
  obtain ⟨_ | ⟨b, t⟩⟩ := p
  · cases ha
  · have hb : b = separator := by simpa [isAbsolute] using ha
    exact ⟨t, by rw [hb]⟩

theorem text_ne_nil {p : Path} (ha : p.isAbsolute = true) : p.text ≠ [] := by
  obtain ⟨t, rfl⟩ := exists_text_of_isAbsolute ha
  exact List.cons_ne_nil _ _

theorem cut_absolute (t : Bytes) :
    cut [] [] (separator :: t) = ([], []) :: cut [separator] [] t := by
  rw [cut, if_pos rfl]
  rfl

theorem stops_absolute (t : Bytes) :
    stops ⟨separator :: t⟩ = (.root, [separator]) :: stopsOf (cut [separator] [] t) := by
  have habs : isAbsolute ⟨separator :: t⟩ = true := rfl
  rw [stops_of_cut (cut_absolute t), habs]
  rfl

theorem stopsOf_eq_append_cons {pieces : List (Bytes × Bytes)} {xs ys : List (Component × Bytes)}
    {stop : Component × Bytes} (h : stopsOf pieces = xs ++ stop :: ys) :
    ∃ before piece after, pieces = before ++ piece :: after ∧ piece.2 = stop.2 ∧
      stopsOf (before ++ [piece]) = xs ++ [stop] := by
  obtain ⟨l, r, rfl, hl, hr⟩ := List.filterMap_eq_append_iff.mp h
  obtain ⟨skipped, piece, after, rfl, hskip, hpiece, -⟩ := List.filterMap_eq_cons_iff.mp hr
  have hs : stopsOf skipped = [] := List.filterMap_eq_nil_iff.mpr hskip
  have hone : stopsOf [piece] = [stop] := by
    simp only [stopsOf, List.filterMap_cons, List.filterMap_nil, hpiece]
  obtain ⟨c, -, hc⟩ := Option.map_eq_some_iff.mp hpiece
  refine ⟨l ++ skipped, piece, after, by simp, congrArg Prod.snd hc, ?_⟩
  rw [stopsOf_append, stopsOf_append, hs, hone, List.append_nil]
  exact congrArg (· ++ [stop]) hl

/-- What a path becomes when it is cut at the end of a component. -/
structure CutAt (p q : Path) (upTo : List (Component × Bytes)) : Prop where
  stops_eq : q.stops = upTo
  text_prefix : q.text <+: p.text
  isAbsolute : q.isAbsolute = true
  /-- It asks for the same at first, and at most for a directory after that. -/
  moves : ∃ ms, ms <+: FileSystem.movesOf p.text ∧
    (FileSystem.movesOf q.text = ms ∨ FileSystem.movesOf q.text = ms ++ [.inDirectory])

theorem cutAt_of_split {p : Path} (ha : p.isAbsolute = true) {xs ys : List (Component × Bytes)}
    {stop : Component × Bytes} (h : p.stops = xs ++ stop :: ys) :
    CutAt p ⟨stop.2⟩ (xs ++ [stop]) := by
  obtain ⟨t, rfl⟩ := exists_text_of_isAbsolute ha
  rw [stops_absolute] at h
  cases xs with
  | nil =>
    obtain ⟨rfl, -⟩ := List.cons_eq_cons.mp h
    exact ⟨rfl, ⟨t, rfl⟩, rfl, [], List.nil_prefix, .inr rfl⟩
  | cons x xs =>
    obtain ⟨rfl, hrest⟩ := List.cons_eq_cons.mp h
    obtain ⟨before, piece, after, hcut, hpiece, hstops⟩ := stopsOf_eq_append_cons hrest
    obtain ⟨u, hu, htext, hc⟩ := cut_of_split hcut
    have hstop : stop.2 = separator :: u := by
      rw [← hpiece, htext]
      rfl
    rw [hstop]
    refine ⟨?_, List.cons_prefix_cons.mpr ⟨rfl, hu⟩, rfl, ?_⟩
    · rw [stops_absolute, hc, hstops]
      rfl
    · refine ⟨(([], []) :: (before ++ [piece])).filterMap fun segment =>
        FileSystem.moveOf? segment.1, ?_, ?_⟩
      · rw [FileSystem.movesOf, cut_absolute, hcut]
        refine List.IsPrefix.trans ?_ (List.prefix_append _ _)
        refine List.IsPrefix.filterMap _ ⟨after, ?_⟩
        simp
      · rw [FileSystem.movesOf, cut_absolute, hc]
        split
        · exact .inr rfl
        · exact .inl (List.append_nil _)

/-! ## Ancestors -/

theorem ancestors_of_isAbsolute {p : Path} (ha : p.isAbsolute = true) :
    p.ancestors = p :: p.stops.dropLast.reverse.map fun stop => ⟨stop.2⟩ := by
  simp [ancestors, ha]

theorem stops_ne_nil {p : Path} (ha : p.isAbsolute = true) : p.stops ≠ [] := by
  obtain ⟨t, rfl⟩ := exists_text_of_isAbsolute ha
  rw [stops_absolute]
  exact List.cons_ne_nil _ _

theorem mem_ancestors {p q : Path} (ha : p.isAbsolute = true) (h : q ∈ p.ancestors) :
    q = p ∨ ∃ upTo, CutAt p q upTo := by
  rw [ancestors_of_isAbsolute ha] at h
  rcases List.mem_cons.mp h with rfl | h
  · exact .inl rfl
  · obtain ⟨stop, hs, rfl⟩ := List.mem_map.mp h
    obtain ⟨xs, ys, hsplit⟩ := List.append_of_mem (List.mem_reverse.mp hs)
    have hall := List.dropLast_concat_getLast (stops_ne_nil ha)
    rw [hsplit, List.append_assoc, List.cons_append] at hall
    exact .inr ⟨_, cutAt_of_split ha hall.symm⟩

theorem parent?_of_stops {p : Path} (ha : p.isAbsolute = true) {xs : List (Component × Bytes)}
    {stop last : Component × Bytes} (h : p.stops = xs ++ [stop] ++ [last]) :
    p.parent? = some ⟨stop.2⟩ := by
  rw [parent?, ancestors_of_isAbsolute ha, h]
  simp

theorem isAbsolute_of_mem_ancestors {p q : Path} (ha : p.isAbsolute = true)
    (h : q ∈ p.ancestors) : q.isAbsolute = true := by
  rcases mem_ancestors ha h with rfl | ⟨_, hc⟩
  · exact ha
  · exact hc.isAbsolute

/-- The ancestors of an ancestor are those from there on. -/
theorem ancestors_of_split {p d : Path} (ha : p.isAbsolute = true) {before after : List Path}
    (h : p.ancestors = before ++ d :: after) : d.ancestors = d :: after := by
  rw [ancestors_of_isAbsolute ha] at h
  cases before with
  | nil =>
    obtain ⟨rfl, rfl⟩ := List.cons_eq_cons.mp h
    exact ancestors_of_isAbsolute ha
  | cons q before =>
    obtain ⟨nearer, others, hall, -, ho⟩ := List.map_eq_append_iff.mp (List.cons_eq_cons.mp h).2
    obtain ⟨stop, farther, rfl, rfl, hf⟩ := List.map_eq_cons_iff.mp ho
    have hinit : p.stops.dropLast = farther.reverse ++ stop :: nearer.reverse := by
      rw [← List.reverse_reverse p.stops.dropLast, hall]
      simp
    have hstops := List.dropLast_concat_getLast (stops_ne_nil ha)
    rw [hinit, List.append_assoc, List.cons_append] at hstops
    have hcut := cutAt_of_split ha hstops.symm
    rw [ancestors_of_isAbsolute hcut.isAbsolute, hcut.stops_eq, List.dropLast_concat,
      List.reverse_reverse, hf]

theorem ancestors_subset {p d : Path} (ha : p.isAbsolute = true) (hd : d ∈ p.ancestors) :
    d.ancestors ⊆ p.ancestors := by
  obtain ⟨before, after, h⟩ := List.append_of_mem hd
  rw [ancestors_of_split ha h, h]
  exact List.subset_append_right before (d :: after)

theorem map_components_stops {p : Path} (ha : p.isAbsolute = true)
    {xs : List (Component × Bytes)} : ∀ {ys}, p.stops = xs ++ ys →
    (xs.reverse.map fun stop => components ⟨stop.2⟩) = (xs.map Prod.fst).inits.tail.reverse := by
  induction xs using List.reverseRecOn with
  | nil => exact fun _ => rfl
  | append_singleton xs stop ih =>
    intro ys h
    rw [List.append_assoc, List.singleton_append] at h
    have hc : components ⟨stop.2⟩ = (xs ++ [stop]).map Prod.fst := by
      rw [components, (cutAt_of_split ha h).stops_eq]
    have htail : ((xs ++ [stop]).map Prod.fst).inits.tail =
        (xs.map Prod.fst).inits.tail ++ [(xs ++ [stop]).map Prod.fst] := by
      have hne : (xs.map Prod.fst).inits ≠ [] := List.ne_nil_of_mem (List.mem_inits _ _ |>.mpr
        List.nil_prefix)
      rw [List.map_append, List.inits_append, List.tail_append_of_ne_nil hne]
      simp
    rw [List.reverse_append, List.reverse_singleton, List.singleton_append, List.map_cons, ih h, hc,
      htail, List.reverse_append, List.reverse_singleton, List.singleton_append]

/-- The components of the ancestors are the beginnings of the components, the longest first. -/
theorem components_ancestors {p : Path} (ha : p.isAbsolute = true) :
    p.ancestors.map components = p.components.inits.tail.reverse := by
  have hne := stops_ne_nil ha
  have hsplit := (List.dropLast_concat_getLast hne).symm
  have hall := map_components_stops ha (List.append_nil p.stops).symm
  rw [hsplit, List.reverse_append, List.reverse_singleton, List.singleton_append, List.map_cons,
    ← hsplit] at hall
  have hlast := (cutAt_of_split ha hsplit).stops_eq
  rw [ancestors_of_isAbsolute ha, List.map_cons, List.map_map, components, ← hall, components,
    hlast, ← hsplit]
  rfl

/-! ## Steps -/

/-- The component leads up or down. The others only tell where a path starts. -/
def Component.isStep : Component → Bool
  | up | name _ => true
  | root | here => false

/-- The components of a path that lead up or down. -/
def steps (p : Path) : List Component := p.components.filter Component.isStep

theorem isStep_of_ofSegment? {segment : Bytes} {c : Component}
    (h : Component.ofSegment? segment = some c) : c.isStep = true := by
  unfold Component.ofSegment? at h
  split at h
  · cases h
  · split at h <;> cases h <;> rfl

theorem isStep_of_mem_stopsOf {pieces : List (Bytes × Bytes)} :
    ∀ c ∈ (stopsOf pieces).map Prod.fst, c.isStep = true := by
  intro c hc
  obtain ⟨stop, hs, rfl⟩ := List.mem_map.mp hc
  obtain ⟨piece, -, hp⟩ := List.mem_filterMap.mp hs
  obtain ⟨c, hseg, rfl⟩ := Option.map_eq_some_iff.mp hp
  exact isStep_of_ofSegment? hseg

theorem components_of_isAbsolute {p : Path} (ha : p.isAbsolute = true) :
    p.components = .root :: p.steps := by
  obtain ⟨t, rfl⟩ := exists_text_of_isAbsolute ha
  rw [steps, components, stops_absolute, List.map_cons, List.filter_cons_of_neg (by simp [
    Component.isStep]), List.filter_eq_self.mpr isStep_of_mem_stopsOf]

theorem components_of_relative {p : Path} (ha : p.isAbsolute = false) :
    (if p.components.head? = some .here then p.components.tail else p.components) = p.steps ∧
      .root ∉ p.components := by
  cases hc : cut [] [] p.text with
  | nil => exact absurd hc (cut_ne_nil p.text [] [])
  | cons first rest =>
    have hrest : .root ∉ (stopsOf rest).map Prod.fst := fun h => by
      cases isStep_of_mem_stopsOf _ h
    rw [steps, components, stops_of_cut hc, ha]
    simp only [Bool.false_eq_true, if_false]
    by_cases hd : first.1 = dot
    · rw [if_pos hd]
      refine ⟨?_, by simpa using hrest⟩
      rw [List.singleton_append, List.map_cons, List.head?_cons, if_pos rfl, List.tail_cons,
        List.filter_cons_of_neg (by simp [Component.isStep]),
        List.filter_eq_self.mpr isStep_of_mem_stopsOf]
    · rw [if_neg hd, ← stopsOf_append]
      have hstep := @isStep_of_mem_stopsOf ([first] ++ rest)
      refine ⟨?_, fun h => by cases hstep _ h⟩
      rw [if_neg, List.filter_eq_self.mpr hstep]
      intro hh
      cases hstep _ (List.mem_of_head? hh)

theorem isAbsolute_of_components {p : Path} {cs : List Component}
    (h : p.components = .root :: cs) : p.isAbsolute = true := by
  by_contra hn
  have hr := (components_of_relative (Bool.eq_false_iff.mpr hn)).2
  rw [h] at hr
  exact hr List.mem_cons_self

/-- Components after those of an absolute path are steps. -/
theorem steps_of_components_append {p q : Path} {cs : List Component} (ha : p.isAbsolute = true)
    (h : q.components = p.components ++ cs) : q.isAbsolute = true ∧ q.steps = p.steps ++ cs := by
  rw [components_of_isAbsolute ha, List.cons_append] at h
  have hq := isAbsolute_of_components h
  rw [components_of_isAbsolute hq] at h
  exact ⟨hq, (List.cons_eq_cons.mp h).2⟩

theorem map_fst_stopsOf (pieces : List (Bytes × Bytes)) : (stopsOf pieces).map Prod.fst =
    pieces.filterMap fun piece => Component.ofSegment? piece.1 := by
  rw [stopsOf, List.map_filterMap]
  refine List.filterMap_congr ?_
  intro piece _
  simp [Option.map_map, Function.comp_def]

/-- Every segment that has an effect is a step. -/
theorem steps_eq_filterMap (p : Path) :
    p.steps = (cut [] [] p.text).filterMap fun piece => Component.ofSegment? piece.1 := by
  have hstops : ∀ pieces : List (Bytes × Bytes),
      ((stopsOf pieces).map Prod.fst).filter Component.isStep = (stopsOf pieces).map Prod.fst :=
    fun pieces => List.filter_eq_self.mpr isStep_of_mem_stopsOf
  cases hc : cut [] [] p.text with
  | nil => exact absurd hc (cut_ne_nil p.text [] [])
  | cons first rest =>
    have hone : first.1 = [] ∨ first.1 = dot →
        (Component.ofSegment? first.1).toList = [] := by
      intro h
      rw [Component.ofSegment?, if_pos h]
      rfl
    have hcons : (first :: rest).filterMap (fun piece => Component.ofSegment? piece.1) =
        (Component.ofSegment? first.1).toList ++ (stopsOf rest).map Prod.fst := by
      rw [List.filterMap_cons, map_fst_stopsOf]
      cases Component.ofSegment? first.1 <;> rfl
    rw [hcons, steps, components, stops_of_cut hc, List.map_append, List.filter_append, hstops]
    congr 1
    by_cases ha : p.isAbsolute = true
    · obtain ⟨t, rfl⟩ := exists_text_of_isAbsolute ha
      rw [cut_absolute] at hc
      obtain ⟨rfl, -⟩ := List.cons_eq_cons.mp hc
      rfl
    · rw [if_neg ha]
      by_cases hd : first.1 = dot
      · rw [if_pos hd, hone (.inr hd)]
        rfl
      · rw [if_neg hd, hstops, map_fst_stopsOf, List.filterMap_cons]
        cases Component.ofSegment? first.1 <;> rfl

/-! ## The order of the ancestors -/

theorem inits_pairwise {α : Type} (xs : List α) :
    xs.inits.Pairwise fun a b => a.length < b.length := by
  induction xs with
  | nil => simp
  | cons x xs ih =>
    rw [List.inits_cons, List.pairwise_cons, List.pairwise_map]
    refine ⟨?_, ih.imp fun h => Nat.succ_lt_succ h⟩
    intro ys hy
    obtain ⟨zs, -, rfl⟩ := List.mem_map.mp hy
    exact Nat.succ_pos _

/-- Each ancestor has fewer components than those before it. -/
theorem ancestors_pairwise {p : Path} (ha : p.isAbsolute = true) :
    p.ancestors.Pairwise fun a b => b.components.length < a.components.length := by
  have hlen : (p.ancestors.map components).Pairwise fun a b => b.length < a.length := by
    rw [components_ancestors ha, List.pairwise_reverse]
    exact (inits_pairwise _).tail
  exact List.pairwise_map.mp hlen

/-- The ancestors before one of them are all that have its components and more. -/
theorem exists_before {p d : Path} (ha : p.isAbsolute = true) {before after : List Path}
    (h : p.ancestors = before ++ d :: after) : d.components <+: p.components ∧
      ∀ cs, d.components <+: cs → cs <+: p.components → cs ≠ d.components →
        ∃ a ∈ before, a.components = cs := by
  have hmem : ∀ {cs}, cs ∈ p.ancestors.map components ↔ cs ∈ p.components.inits.tail := by
    rw [components_ancestors ha]
    exact List.mem_reverse
  have hd : d ∈ p.ancestors := by simp [h]
  have hpre : d.components <+: p.components :=
    (List.mem_inits _ _).mp (List.mem_of_mem_tail (hmem.mp (List.mem_map_of_mem hd)))
  refine ⟨hpre, ?_⟩
  intro cs hlow hhigh hne
  have hcs : cs ≠ [] := by
    rintro rfl
    rw [components_of_isAbsolute (isAbsolute_of_mem_ancestors ha hd)] at hlow
    simp at hlow
  have hin : cs ∈ p.components.inits.tail := by
    have hall := (List.mem_inits _ _).mpr hhigh
    cases hc : p.components with
    | nil =>
      rw [hc, List.inits, List.mem_singleton] at hall
      exact absurd hall hcs
    | cons c rest =>
      rw [hc, List.inits_cons] at hall
      rw [List.inits_cons, List.tail_cons]
      exact (List.mem_cons.mp hall).resolve_left hcs
  obtain ⟨a, hancestor, rfl⟩ := List.mem_map.mp (hmem.mpr hin)
  have hpair := ancestors_pairwise ha
  rw [h] at hancestor hpair
  rcases List.mem_append.mp hancestor with hb | hda
  · exact ⟨a, hb, rfl⟩
  · rcases List.mem_cons.mp hda with rfl | haft
    · exact absurd rfl hne
    · have hlt := (List.pairwise_cons.mp (List.pairwise_append.mp hpair).2.1).1 a haft
      exact absurd hlow.length_le (Nat.not_le.mpr hlt)

/-! ## Absolute forms -/

/-- A component that its text spells again. -/
structure Component.IsSpelled (c : Component) : Prop where
  no_separator : separator ∉ c.text
  ne_dot : c.text ≠ dot
  ofSegment? : Component.ofSegment? c.text = some c

theorem isSpelled_of_mem_steps {p : Path} {c : Component} (h : c ∈ p.steps) : c.IsSpelled := by
  obtain ⟨hm, hs⟩ := List.mem_filter.mp h
  cases c with
  | root => cases hs
  | here => cases hs
  | up => exact ⟨by decide, by decide, rfl⟩
  | name n =>
    have hn := isName_of_mem_components hm
    exact ⟨hn.no_separator, hn.ne_dot, hn.ofSegment?⟩

/-- A path followed by components, one after the other. -/
def joinAll (p : Path) (cs : List Component) : Path :=
  cs.foldl (fun path c => path.join ⟨c.text⟩) p

theorem components_joinAll {cs : List Component} (h : ∀ c ∈ cs, c.IsSpelled) : ∀ p : Path,
    (p.joinAll cs).components = p.components ++ cs := by
  induction cs with
  | nil => intro p; simp [joinAll]
  | cons c cs ih =>
    intro p
    have hc := h c List.mem_cons_self
    have hrest := ih (fun d hd => h d (List.mem_cons_of_mem c hd)) (p.join ⟨c.text⟩)
    rw [joinAll, List.foldl_cons, ← joinAll, hrest,
      components_join_segment p hc.no_separator hc.ne_dot hc.ofSegment?, List.append_assoc,
      List.singleton_append]

/-- The path begins with exactly two separators. -/
def BeginsTwice (p : Path) : Prop :=
  p.text.take 2 = [separator, separator] ∧ p.text[2]? ≠ some separator

instance (p : Path) : Decidable p.BeginsTwice := inferInstanceAs (Decidable (_ ∧ _))

/-- What the absolute form of a path begins with, before the steps of the path. -/
def baseOf (cwd p : Path) : Path :=
  if p.isAbsolute = true then
    if p.BeginsTwice then ⟨[separator, separator]⟩ else ⟨[separator]⟩
  else cwd

/-- The absolute form of a path keeps the separator at its end. -/
theorem absolute?_eq (cwd : Path) {p : Path} (hp : p.text ≠ []) :
    absolute? cwd p = some (if p.text.getLast? = some separator then
      ((baseOf cwd p).joinAll p.steps).join ⟨[]⟩ else (baseOf cwd p).joinAll p.steps) := by
  unfold absolute?
  rw [if_neg hp]
  cases ha : p.isAbsolute with
  | false =>
    simp only [Bool.not_false, if_true]
    rw [(components_of_relative ha).1, baseOf, ha]
    rfl
  | true =>
    have hhead : p.components.head? ≠ some .here := by simp [components_of_isAbsolute ha]
    simp only [hhead, Bool.not_true, Bool.false_eq_true, if_false]
    rw [components_of_isAbsolute ha, List.tail_cons, baseOf, ha, if_pos rfl]
    by_cases htwo : p.BeginsTwice
    · rw [if_pos (c := p.text.take 2 = [separator, separator] ∧ _) htwo, if_pos htwo]
      rfl
    · -- The first component, the separator, takes the place of the empty path.
      have hroot : (⟨[]⟩ : Path).join ⟨Component.root.text⟩ = ⟨[separator]⟩ := rfl
      rw [if_neg (c := p.text.take 2 = [separator, separator] ∧ _) htwo, if_neg htwo,
        List.foldl_cons, hroot]
      rfl

/-- An absolute path has the same absolute form wherever it is seen from. -/
theorem absolute?_of_isAbsolute {p : Path} (ha : p.isAbsolute = true) (cwd cwd' : Path) :
    absolute? cwd p = absolute? cwd' p := by
  have hp := text_ne_nil ha
  rw [absolute?_eq cwd hp, absolute?_eq cwd' hp, baseOf, baseOf, if_pos ha, if_pos ha]

theorem text_ne_nil_of_absolute? {cwd p q : Path} (h : absolute? cwd p = some q) :
    p.text ≠ [] := by
  intro hp
  rw [absolute?, if_pos hp] at h
  cases h

/-- How the absolute form of a path is spelled: maybe with a separator at the end. -/
theorem spelling_of_absolute? {cwd p q : Path} (h : absolute? cwd p = some q) :
    q = (baseOf cwd p).joinAll p.steps ∨ q = ((baseOf cwd p).joinAll p.steps).join ⟨[]⟩ := by
  rw [absolute?_eq cwd (text_ne_nil_of_absolute? h)] at h
  obtain rfl := Option.some.inj h
  split
  · exact .inr rfl
  · exact .inl rfl

/-- The absolute form of a path has the steps of the path, after those of the working directory
where the path is relative. -/
theorem steps_of_absolute? {cwd p q : Path} (hcwd : cwd.isAbsolute = true)
    (h : absolute? cwd p = some q) : q.isAbsolute = true ∧
      q.steps = (if p.isAbsolute = true then [] else cwd.steps) ++ p.steps := by
  have hb : (baseOf cwd p).components =
      .root :: if p.isAbsolute = true then [] else cwd.steps := by
    unfold baseOf
    by_cases ha : p.isAbsolute = true
    · rw [if_pos ha, if_pos ha]
      split <;> rfl
    · rw [if_neg ha, if_neg ha, components_of_isAbsolute hcwd]
  have hqc : q.components =
      .root :: ((if p.isAbsolute = true then [] else cwd.steps) ++ p.steps) := by
    have hw := components_joinAll (fun c hc => isSpelled_of_mem_steps hc : ∀ c ∈ p.steps,
      c.IsSpelled) (baseOf cwd p)
    rw [← List.cons_append, ← hb, ← hw]
    rcases spelling_of_absolute? h with rfl | rfl
    · rfl
    · rw [components, stops_join_nil, components]
  have ha := isAbsolute_of_components hqc
  rw [components_of_isAbsolute ha] at hqc
  exact ⟨ha, (List.cons_eq_cons.mp hqc).2⟩

end ProjectScope.Path
