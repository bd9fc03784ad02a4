import ProjectScope.Proofs.LinkFreeTree
import ProjectScope.Proofs.Location

/-! # How located paths are spelled

The search starts from an absolute form, which leaves out what has no effect, and only drops
components from it. So the text of a configuration file that is located is told by its components
(`tidy_of_locate`), but for the separator at the start, which is kept doubled where the path that is
given begins with exactly two. Two located files that are the same path are spelled the same, or one
has this separator more than the other (`Path.Tidy.eq_or_doubled`). -/
namespace ProjectScope

open Locate (candidate)

namespace Path

theorem sameAs_iff {p q : Path} : p.sameAs q = true ↔ p.components = q.components := by
  rw [sameAs, beq_iff_eq]

/-! ## Paths without anything that has no effect -/

/-- What the absolute form of a path may begin with. -/
inductive IsLead : Path → Prop
  | one : IsLead ⟨[separator]⟩
  | two : IsLead ⟨[separator, separator]⟩

theorem IsLead.stops_eq {lead : Path} (h : IsLead lead) : lead.stops = [(.root, [separator])] := by
  cases h <;> rfl

/-- A path that is spelled as its components are, with a separator between them. -/
inductive Tidy : Path → Prop
  | joinAll {lead : Path} {cs : List Component} : IsLead lead → (∀ c ∈ cs, c.IsSpelled) →
      Tidy (lead.joinAll cs)

theorem IsLead.tidy {lead : Path} (h : IsLead lead) : Tidy lead := by
  have ht : Tidy (lead.joinAll []) := .joinAll h (by simp)
  exact ht

theorem joinAll_append (p : Path) (cs ds : List Component) :
    p.joinAll (cs ++ ds) = (p.joinAll cs).joinAll ds := List.foldl_append

theorem joinAll_concat (p : Path) (cs : List Component) (c : Component) :
    p.joinAll (cs ++ [c]) = (p.joinAll cs).join ⟨c.text⟩ := joinAll_append p cs [c]

theorem below_eq_joinAll (p : Path) (names : List Name) :
    p.below names = p.joinAll (names.map .name) := by
  rw [joinAll, List.foldl_map]
  rfl

theorem IsName.isSpelled {n : Name} (h : IsName n) : (Component.name n).IsSpelled :=
  ⟨h.no_separator, h.ne_dot, h.ofSegment?⟩

theorem isSpelled_of_mem_map_name {names : List Name} (hn : ∀ n ∈ names, IsName n) :
    ∀ c ∈ names.map Component.name, c.IsSpelled := by
  intro c hc
  obtain ⟨n, hm, rfl⟩ := List.mem_map.mp hc
  exact (hn n hm).isSpelled

theorem stops_joinAll_concat (p : Path) (cs : List Component) {c : Component} (h : c.IsSpelled) :
    (p.joinAll (cs ++ [c])).stops =
      (p.joinAll cs).stops ++ [(c, (p.joinAll (cs ++ [c])).text)] := by
  rw [joinAll_concat, stops_join_segment _ h.no_separator h.ne_dot h.ofSegment?]

namespace Tidy

theorem components_joinAll {lead : Path} (hl : IsLead lead) {cs : List Component}
    (hcs : ∀ c ∈ cs, c.IsSpelled) : (lead.joinAll cs).components = .root :: cs := by
  rw [Path.components_joinAll hcs, components, hl.stops_eq]
  rfl

theorem isAbsolute {p : Path} (h : Tidy p) : p.isAbsolute = true := by
  cases h with
  | joinAll hl hcs => exact isAbsolute_of_components (components_joinAll hl hcs)

/-- What is cut off at the end of a component is tidy again. -/
theorem of_mem_stops {p : Path} (h : Tidy p) : ∀ stop ∈ p.stops, Tidy ⟨stop.2⟩ := by
  cases h with
  | @joinAll lead cs hl hcs =>
    induction cs using List.reverseRecOn with
    | nil =>
      intro stop hs
      have hall : (lead.joinAll []).stops = [(.root, [separator])] := hl.stops_eq
      rw [hall, List.mem_singleton] at hs
      subst hs
      exact IsLead.one.tidy
    | append_singleton cs c ih =>
      have hin : ∀ d ∈ cs, d.IsSpelled := fun d hd => hcs d (List.mem_append_left _ hd)
      intro stop hs
      rw [stops_joinAll_concat lead cs (hcs c (by simp)), List.mem_append, List.mem_singleton] at hs
      rcases hs with hs | rfl
      · exact ih hin stop hs
      · exact .joinAll hl hcs

theorem joinAll_append {p : Path} (h : Tidy p) {cs : List Component}
    (hcs : ∀ c ∈ cs, c.IsSpelled) : Tidy (p.joinAll cs) := by
  cases h with
  | joinAll hl hds =>
    rw [← Path.joinAll_append]
    exact .joinAll hl (List.forall_mem_append.mpr ⟨hds, hcs⟩)

theorem candidate {p : Path} (h : Tidy p) : Tidy (Locate.candidate p) := by
  have hc : ∀ c ∈ [Component.name configName], c.IsSpelled := by
    simpa using configName_isName.isSpelled
  exact h.joinAll_append hc

end Tidy

/-! ## A separator at the end -/

/-- A tidy path, or one with a separator at its end. -/
inductive Spelled : Path → Prop
  | tidy {p} : Tidy p → Spelled p
  | ended {p} : Tidy p → Spelled (p.join ⟨[]⟩)

/-- What follows a path does not tell whether it ended with a separator. -/
theorem join_nil_join {p q : Path} (hp : p.text ≠ []) (hq : q.isAbsolute = false) :
    (p.join ⟨[]⟩).join q = p.join q := by
  by_cases hl : p.text.getLast? = some separator
  · rw [join_of_ended hl rfl, List.append_nil]
  · rw [join_of_open hp hl rfl, join_of_open hp hl hq, join_of_ended (by simp) hq,
      List.append_assoc, List.singleton_append]

namespace Spelled

theorem exists_tidy {p : Path} (h : Spelled p) : ∃ q, Tidy q ∧ p.stops = q.stops ∧
    Locate.candidate p = Locate.candidate q := by
  cases h with
  | tidy h => exact ⟨p, h, rfl, rfl⟩
  | @ended q h =>
    exact ⟨q, h, stops_join_nil q,
      join_nil_join (text_ne_nil h.isAbsolute) configName_isName.not_isAbsolute⟩

theorem isAbsolute {p : Path} (h : Spelled p) : p.isAbsolute = true := by
  obtain ⟨q, hq, hs, -⟩ := h.exists_tidy
  have hc := components_of_isAbsolute hq.isAbsolute
  rw [components, ← hs] at hc
  exact isAbsolute_of_components hc

theorem of_mem_ancestors {p d : Path} (h : Spelled p) (hd : d ∈ p.ancestors) : Spelled d := by
  rw [ancestors_of_isAbsolute h.isAbsolute] at hd
  rcases List.mem_cons.mp hd with rfl | hd
  · exact h
  · obtain ⟨stop, hs, rfl⟩ := List.mem_map.mp hd
    obtain ⟨q, hq, he, -⟩ := h.exists_tidy
    refine .tidy (hq.of_mem_stops stop ?_)
    rw [← he]
    exact List.dropLast_subset _ (List.mem_reverse.mp hs)

theorem candidate {p : Path} (h : Spelled p) : Tidy (Locate.candidate p) := by
  obtain ⟨q, hq, -, he⟩ := h.exists_tidy
  rw [he]
  exact hq.candidate

end Spelled

theorem spelled_of_absolute? {cwd p q : Path} (hcwd : Tidy cwd) (h : absolute? cwd p = some q) :
    Spelled q := by
  have hb : Tidy (baseOf cwd p) := by
    unfold baseOf
    split
    · split
      · exact IsLead.two.tidy
      · exact IsLead.one.tidy
    · exact hcwd
  have hw : Tidy ((baseOf cwd p).joinAll p.steps) :=
    hb.joinAll_append fun c hc => isSpelled_of_mem_steps hc
  rcases spelling_of_absolute? h with rfl | rfl
  · exact .tidy hw
  · exact .ended hw

/-! ## One separator at the start -/

/-- The path begins with one separator and no more. -/
def BeginsOnce (p : Path) : Prop :=
  p.text = [separator] ∨ ∃ b t, b ≠ separator ∧ p.text = separator :: b :: t

theorem BeginsOnce.join {p q : Path} (h : BeginsOnce p) (hq : q.isAbsolute = false) :
    BeginsOnce (p.join q) := by
  rcases h with h | ⟨b, t, hb, h⟩
  · have hl : p.text.getLast? = some separator := by rw [h]; rfl
    rw [join_of_ended hl hq, h]
    obtain ⟨_ | ⟨b, t⟩⟩ := q
    · exact .inl rfl
    · refine .inr ⟨b, t, ?_, rfl⟩
      simpa [isAbsolute] using hq
  · refine .inr ?_
    by_cases hl : p.text.getLast? = some separator
    · exact ⟨b, t ++ q.text, hb, by rw [join_of_ended hl hq, h]; rfl⟩
    · exact ⟨b, t ++ separator :: q.text, hb, by
        rw [join_of_open (h ▸ List.cons_ne_nil _ _) hl hq, h]; rfl⟩

theorem BeginsOnce.joinAll {cs : List Component} (hcs : ∀ c ∈ cs, c.IsSpelled) :
    ∀ {p : Path}, BeginsOnce p → BeginsOnce (p.joinAll cs) := by
  induction cs with
  | nil => exact fun h => h
  | cons c cs ih =>
    intro p h
    have hc := not_isAbsolute_of_notMem (hcs c List.mem_cons_self).no_separator
    exact ih (fun d hd => hcs d (List.mem_cons_of_mem c hd)) (h.join hc)

theorem BeginsOnce.of_mem_ancestors {p d : Path} (ha : p.isAbsolute = true) (h : BeginsOnce p)
    (hd : d ∈ p.ancestors) : BeginsOnce d := by
  rcases mem_ancestors ha hd with rfl | ⟨_, hcut⟩
  · exact h
  · obtain ⟨t, rfl⟩ := exists_text_of_isAbsolute hcut.isAbsolute
    have hpre := hcut.text_prefix
    cases t with
    | nil => exact .inl rfl
    | cons c t =>
      rcases h with h | ⟨b, u, hb, h⟩
      · rw [h] at hpre
        simp at hpre
      · rw [h] at hpre
        obtain ⟨rfl, -⟩ := List.cons_prefix_cons.mp (List.cons_prefix_cons.mp hpre).2
        exact .inr ⟨c, t, hb, rfl⟩

theorem beginsOnce_of_absolute? {cwd p q : Path} (hcwd : BeginsOnce cwd) (hp : ¬ p.BeginsTwice)
    (h : absolute? cwd p = some q) : BeginsOnce q := by
  have hb : BeginsOnce (baseOf cwd p) := by
    rw [baseOf, if_neg hp]
    split
    · exact .inl rfl
    · exact hcwd
  have hw : BeginsOnce ((baseOf cwd p).joinAll p.steps) :=
    BeginsOnce.joinAll (fun c hc => isSpelled_of_mem_steps hc) hb
  rcases spelling_of_absolute? h with rfl | rfl
  · exact hw
  · exact hw.join rfl

end Path

/-! ## The search -/

theorem Path.spelling_ofNames {names : List Name} (hn : ∀ n ∈ names, IsName n) :
    (ofNames names).Tidy ∧ (ofNames names).BeginsOnce := by
  have hcs := isSpelled_of_mem_map_name hn
  rw [ofNames_eq_below hn, below_eq_joinAll]
  exact ⟨.joinAll .one hcs, BeginsOnce.joinAll hcs (.inl rfl)⟩

/-- A path is completed by names: those of the working directory, which is there, or any if the path
is absolute already. -/
theorem FileSystem.exists_names_of_absolute {fs : FileSystem} (hs : fs.Sound) {p q : Path}
    (h : fs.absolute p = .ok q) : ∃ names, (∀ n ∈ names, Path.IsName n) ∧
      Path.absolute? (Path.ofNames names) p = some q := by
  obtain ⟨hq, start, hstart⟩ := absolute_eq_ok.mp h
  by_cases ha : p.isAbsolute = true
  · exact ⟨[], by simp, (Path.absolute?_of_isAbsolute ha _ _).trans hq⟩
  · rw [start?, if_neg ha] at hstart
    exact ⟨fs.cwd, isName_of_descend? hs hstart, hq⟩

theorem FileSystem.spelled_of_absolute {fs : FileSystem} (hs : fs.Sound) {p q : Path}
    (h : fs.absolute p = .ok q) : q.Spelled := by
  obtain ⟨names, hn, hq⟩ := exists_names_of_absolute hs h
  exact Path.spelled_of_absolute? (Path.spelling_ofNames hn).1 hq

/-- A path that asks for a directory and nothing else leads to no file. -/
theorem FileSystem.not_isFile_of_movesOf {fs : FileSystem} {p : Path}
    (h : FileSystem.movesOf p.text = [.inDirectory]) : fs.isFile p = false := by
  have hdir : ∀ links trail trail', fs.follow links trail [.inDirectory] = .ok trail' →
      (fs.nodeAt trail').isFile = false := by
    intro links trail trail' hf
    have hm : ∀ followLink, fs.makeMoves followLink trail [.inDirectory] = .ok trail' →
        (fs.nodeAt trail').isFile = false := by
      intro followLink hm
      rw [FileSystem.makeMoves] at hm
      split at hm
      · next hd =>
        cases hm
        rw [hd]
        rfl
      · cases hm
    cases links with
    | zero => exact hm _ hf
    | succ links => exact hm _ hf
  by_contra hne
  obtain ⟨trail, hr, hf⟩ := FileSystem.exists_resolve_of_isFile (Bool.not_eq_false _ ▸ hne)
  obtain ⟨-, start, -, hfollow⟩ := FileSystem.resolve_eq_ok.mp hr
  rw [h] at hfollow
  rw [hdir _ _ _ hfollow] at hf
  cases hf

/-- Only the root has no parent. -/
theorem Path.Spelled.movesOf_of_parent? {p : Path} (h : p.Spelled) (hp : p.parent? = none) :
    FileSystem.movesOf p.text = [.inDirectory] := by
  rw [parent?, ancestors_of_isAbsolute h.isAbsolute, List.getElem?_eq_none_iff, List.length_cons,
    List.length_map, List.length_reverse, List.length_dropLast] at hp
  have hlen : p.stops.length ≤ 1 := by omega
  have hlead : ∀ q : Path, q.Tidy → q.stops.length ≤ 1 → IsLead q := by
    intro q hq hl
    cases hq with
    | @joinAll lead cs hlead hcs =>
      cases cs using List.reverseRecOn with
      | nil => exact hlead
      | append_singleton cs c =>
        have hne := stops_ne_nil (Tidy.joinAll hlead fun d hd =>
          hcs d (List.mem_append_left _ hd)).isAbsolute
        rw [stops_joinAll_concat lead cs (hcs c (by simp)), List.length_append,
          List.length_singleton] at hl
        exact absurd (List.length_pos_iff.mpr hne) (by omega)
  cases h with
  | tidy h => cases hlead p h hlen <;> rfl
  | @ended q h =>
    rw [stops_join_nil] at hlen
    cases hlead q h hlen <;> rfl

theorem startOf_mem_ancestors {fs : FileSystem} {start : Path} (h : start.Spelled) :
    Locate.startOf fs start ∈ start.ancestors := by
  rw [Locate.startOf]
  split
  · next hfile =>
    cases hp : start.parent? with
    | none =>
      rw [FileSystem.not_isFile_of_movesOf (h.movesOf_of_parent? hp)] at hfile
      cases hfile
    | some parent => exact List.mem_of_getElem? hp
  · exact List.mem_cons_self

/-- What is located is a regular file in an ancestor of the absolute form, which is completed by
names. -/
structure FoundFrom (fs : FileSystem) (cwd file start d : Path) (names : List Name) : Prop where
  isName : ∀ n ∈ names, Path.IsName n
  absolute? : Path.absolute? (Path.ofNames names) cwd = some start
  spelled : start.Spelled
  mem_ancestors : d ∈ start.ancestors
  file_eq : file = candidate d
  isFile : fs.isFile file = true

theorem exists_foundFrom {fs : FileSystem} (hs : fs.Sound) {form : Form} {cwd file : Path}
    (h : (locate form fs cwd).result = .ok file) :
    ∃ start d names, FoundFrom fs cwd file start d names := by
  obtain ⟨start, hstart, hsearch⟩ := locate_eq_ok.mp h
  have hfile := List.find?_some hsearch
  obtain ⟨d, hd, rfl⟩ := List.mem_map.mp (List.mem_of_find?_eq_some hsearch)
  have hspelled := FileSystem.spelled_of_absolute hs hstart
  obtain ⟨names, hn, hstart⟩ := FileSystem.exists_names_of_absolute hs hstart
  have hd := Path.ancestors_subset hspelled.isAbsolute (startOf_mem_ancestors hspelled) hd
  exact ⟨start, d, names, hn, hstart, hspelled, hd, rfl, hfile⟩

/-- What is located is a regular file below a path that is spelled as an absolute form. -/
structure FoundBelow (fs : FileSystem) (cwd file d : Path) : Prop where
  isFile : fs.isFile file = true
  file_eq : file = candidate d
  spelled : d.Spelled
  /-- Only a path that begins with two separators leads to such an ancestor. -/
  beginsOnce : ¬ cwd.BeginsTwice → d.BeginsOnce

theorem exists_foundBelow {fs : FileSystem} (hs : fs.Sound) {form : Form} {cwd file : Path}
    (h : (locate form fs cwd).result = .ok file) : ∃ d, FoundBelow fs cwd file d := by
  obtain ⟨start, d, names, hfrom⟩ := exists_foundFrom hs h
  have honce := (Path.spelling_ofNames hfrom.isName).2
  refine ⟨d, hfrom.isFile, hfrom.file_eq, hfrom.spelled.of_mem_ancestors hfrom.mem_ancestors, ?_⟩
  intro hp
  exact (Path.beginsOnce_of_absolute? honce hp hfrom.absolute?).of_mem_ancestors
    hfrom.spelled.isAbsolute hfrom.mem_ancestors

/-- What a located file is: a regular file, whose path is tidy, below a tidy path. -/
theorem tidy_of_locate {fs : FileSystem} (hs : fs.Sound) {form : Form} {cwd file : Path}
    (h : (locate form fs cwd).result = .ok file) :
    fs.isFile file = true ∧ ∃ d : Path, d.Tidy ∧ file = candidate d := by
  obtain ⟨d, hfound⟩ := exists_foundBelow hs h
  obtain ⟨q, hq, -, he⟩ := hfound.spelled.exists_tidy
  exact ⟨hfound.isFile, q, hq, hfound.file_eq.trans he⟩

/-! ## One separator more -/

namespace Path

/-- The path with one more separator at the start. -/
def doubled (p : Path) : Path := ⟨separator :: p.text⟩

theorem join_doubled {p q : Path} (hp : p.text ≠ []) (hq : q.isAbsolute = false) :
    p.doubled.join q = (p.join q).doubled := by
  have hl : p.doubled.text.getLast? = p.text.getLast? := List.getLast?_cons_of_ne_nil hp
  by_cases he : p.text.getLast? = some separator
  · rw [join_of_ended (hl.trans he) hq, join_of_ended he hq]
    rfl
  · have hne : p.doubled.text ≠ [] := List.cons_ne_nil _ _
    rw [join_of_open hne (hl ▸ he) hq, join_of_open hp he hq]
    rfl

theorem joinAll_doubled {cs : List Component} (hcs : ∀ c ∈ cs, c.IsSpelled) : ∀ {p : Path},
    p.isAbsolute = true → p.doubled.joinAll cs = (p.joinAll cs).doubled := by
  induction cs with
  | nil => exact fun _ => rfl
  | cons c cs ih =>
    intro p ha
    have hc := hcs c List.mem_cons_self
    have hcomp := components_join_segment p hc.no_separator hc.ne_dot hc.ofSegment?
    have hj := (steps_of_components_append ha hcomp).1
    have hrest := ih (fun d hd => hcs d (List.mem_cons_of_mem c hd)) hj
    rw [joinAll, List.foldl_cons, ← joinAll, join_doubled (text_ne_nil ha)
      (not_isAbsolute_of_notMem hc.no_separator), hrest]
    rfl

theorem doubled_joinAll {cs : List Component} (hcs : ∀ c ∈ cs, c.IsSpelled) :
    (⟨[separator, separator]⟩ : Path).joinAll cs = ((⟨[separator]⟩ : Path).joinAll cs).doubled :=
  joinAll_doubled (p := ⟨[separator]⟩) hcs rfl

end Path

end ProjectScope
