import ProjectScope.Proofs.LinksFollowed
import ProjectScope.Proofs.SharedWalk

/-! # The spelling of the root

However the root of a walk is spelled, what lies below it is looked at from the directory that the
root leads to (`resolve_below`). Spellings differ in what they take of the limits of the file
system: in how long the paths below them are, and in how many links are left to follow. If that
makes no difference, files are found, or not found, alike below all of them. Main statement:
`root_spelling_irrelevant`. -/
namespace ProjectScope

namespace Path

theorem exists_text_joinName (p : Path) {n : Name} (hn : IsName n) :
    ∃ t, (p.joinName n).text = p.text ++ t := by
  rw [joinName, join_relative p hn.not_isAbsolute]
  exact ⟨_, rfl⟩

theorem exists_text_below {names : List Name} (hn : ∀ n ∈ names, IsName n) : ∀ p : Path,
    ∃ t, (p.below names).text = p.text ++ t := by
  induction names with
  | nil => exact fun p => ⟨[], (List.append_nil _).symm⟩
  | cons n names ih =>
    intro p
    obtain ⟨t, ht⟩ := p.exists_text_joinName (hn n List.mem_cons_self)
    obtain ⟨u, hu⟩ := ih (fun m hm => hn m (List.mem_cons_of_mem n hm)) (p.joinName n)
    exact ⟨t ++ u, by rw [below_cons, hu, ht, List.append_assoc]⟩

theorem contains_zero_joinName (p : Path) {n : Name} (hn : IsName n) :
    (p.joinName n).text.contains 0 = (p.text.contains 0 || n.contains 0) := by
  have hs : (0 : UInt8) ≠ separator := by decide
  rw [joinName, join_relative p hn.not_isAbsolute]
  split <;> simp [hs]

theorem contains_zero_below {names : List Name} (hn : ∀ n ∈ names, IsName n) : ∀ p : Path,
    (p.below names).text.contains 0 = (p.text.contains 0 || names.flatten.contains 0) := by
  induction names with
  | nil => simp
  | cons n names ih =>
    intro p
    rw [below_cons, ih (fun m hm => hn m (List.mem_cons_of_mem n hm)),
      p.contains_zero_joinName (hn n List.mem_cons_self)]
    simp [Bool.or_assoc]

end Path

namespace FileSystem

variable {fs : FileSystem}

/-! ## Moves below a path -/

theorem segmentMoves_below {names : List Name} (hn : ∀ n ∈ names, Path.IsName n) : ∀ p : Path,
    segmentMoves (p.below names).text = segmentMoves p.text ++ names.map .enter := by
  induction names with
  | nil => simp
  | cons n names ih =>
    intro p
    have hone := segmentMoves_joinName p (hn n List.mem_cons_self)
    rw [Path.below_cons, ih (fun m hm => hn m (List.mem_cons_of_mem n hm)), hone]
    simp

theorem getLast?_below {names : List Name} (hn : ∀ n ∈ names, Path.IsName n) (hne : names ≠ []) :
    ∀ p : Path, (p.below names).text.getLast? ≠ some Path.separator := by
  induction names with
  | nil => exact absurd rfl hne
  | cons n names ih =>
    intro p
    by_cases hnil : names = []
    · subst hnil
      exact p.getLast?_text_joinName (hn n List.mem_cons_self)
    · exact ih (fun m hm => hn m (List.mem_cons_of_mem n hm)) hnil (p.joinName n)

/-- Below a path its moves are made first; whether it ends with a slash does not matter. -/
theorem follow_below (links : Nat) (start : Trail) (p : Path) {names : List Name}
    (hn : ∀ n ∈ names, Path.IsName n) (hne : names ≠ []) :
    fs.follow links start (movesOf (p.below names).text) =
      fs.follow links start (movesOf p.text ++ names.map .enter) := by
  have hmoves : movesOf (p.below names).text = segmentMoves p.text ++ names.map .enter := by
    rw [← segmentMoves_below hn, movesOf, if_neg (getLast?_below hn hne p), List.append_nil,
      segmentMoves]
  rw [hmoves, movesOf, ← segmentMoves]
  split
  · obtain ⟨n, names, rfl⟩ := List.exists_cons_of_ne_nil hne
    simp only [List.append_assoc, List.singleton_append, List.map_cons]
    exact (follow_inDirectory links start (segmentMoves p.text) _ _).symm
  · rw [List.append_nil]

/-! ## Limits -/

/-- What a path leads to if so many links are followed for it. -/
def resolveWithin (fs : FileSystem) (links : Nat) (p : Path) : Except Fault Trail :=
  if p.text.contains 0 then .error .invalidPath
  else if p.text = [] then .error .notFound
  else if pathLimit ≤ p.text.length then .error .nameTooLong
  else
    match fs.start? p with
    | none => .error .notFound
    | some start => fs.follow links start (movesOf p.text)

theorem resolve_eq_resolveWithin (fs : FileSystem) : fs.resolve = fs.resolveWithin linkLimit := rfl

/-- The limit on links has no effect on a path: however many more are followed, it leads to the
same. -/
def LinksSuffice (fs : FileSystem) (p : Path) : Prop :=
  ∀ more, fs.resolveWithin (linkLimit + more) p = fs.resolve p

theorem resolveWithin_of_request {p : Path} (hp : IsRequest p.text) {start : Trail}
    (hstart : fs.start? p = some start) (links : Nat) :
    fs.resolveWithin links p = fs.follow links start (movesOf p.text) := by
  rw [resolveWithin, if_neg (Bool.eq_false_iff.mp hp.no_zero), if_neg hp.ne_nil,
    if_neg (Nat.not_le.mpr hp.short), hstart]

theorem linksSuffice_of_ne_linkLoop {p : Path} (h : fs.resolve p ≠ .error .linkLoop) :
    LinksSuffice fs p := by
  intro more
  rw [resolve_eq_resolveWithin] at h ⊢
  by_cases hp : IsRequest p.text ∧ ∃ start, fs.start? p = some start
  · obtain ⟨hp, start, hstart⟩ := hp
    rw [resolveWithin_of_request hp hstart] at h
    rw [resolveWithin_of_request hp hstart, resolveWithin_of_request hp hstart]
    exact follow_more linkLimit h more
  · -- What is refused before any link is looked at has nothing to do with the limit.
    unfold resolveWithin
    split
    · rfl
    split
    · rfl
    split
    · rfl
    · next hz hnil hlong =>
      cases hstart : fs.start? p with
      | none => rfl
      | some start =>
        exact absurd ⟨⟨Bool.eq_false_iff.mpr hz, hnil, Nat.lt_of_not_le hlong⟩, start, hstart⟩ hp

/-- What lies below a path is looked at from where the path leads, with the links it leaves over. -/
theorem resolve_below {r : Path} {trail : Trail} (hr : fs.resolve r = .ok trail) :
    ∃ left, ∀ names, (∀ n ∈ names, Path.IsName n) → names ≠ [] →
      (r.below names).text.length < pathLimit → ∀ more,
      fs.resolveWithin (linkLimit + more) (r.below names) =
        if names.flatten.contains 0 then .error .invalidPath
        else fs.follow (left + more) trail (names.map .enter) := by
  obtain ⟨hrequest, start, hstart, hfollow⟩ := resolve_eq_ok.mp hr
  obtain ⟨left, hleft⟩ := follow_append linkLimit hfollow
  refine ⟨left, ?_⟩
  intro names hn hne hshort more
  have hzero : (r.below names).text.contains 0 = names.flatten.contains 0 := by
    rw [Path.contains_zero_below hn, hrequest.no_zero, Bool.false_or]
  obtain ⟨t, ht⟩ := Path.exists_text_below hn r
  have hsame : fs.start? (r.below names) = fs.start? r := by
    rw [start?, start?, Path.isAbsolute, ht, List.head?_append_of_ne_nil _ hrequest.ne_nil,
      ← Path.isAbsolute]
  split
  · next hz => rw [resolveWithin, hzero, if_pos hz]
  · next hz =>
    have hbelow : IsRequest (r.below names).text := by
      refine ⟨hzero.trans (Bool.eq_false_iff.mpr hz), ?_, hshort⟩
      rw [ht]
      exact List.append_ne_nil_of_left_ne_nil hrequest.ne_nil t
    rw [resolveWithin_of_request hbelow (hsame.trans hstart), follow_below _ _ _ hn hne, hleft]

theorem resolve_below_eq {r r' : Path} {trail : Trail} (hr : fs.resolve r = .ok trail)
    (hr' : fs.resolve r' = .ok trail) {names : List Name} (hn : ∀ n ∈ names, Path.IsName n)
    (hne : names ≠ []) (hshort : (r.below names).text.length < pathLimit)
    (hshort' : (r'.below names).text.length < pathLimit)
    (hlinks : LinksSuffice fs (r.below names)) (hlinks' : LinksSuffice fs (r'.below names)) :
    fs.resolve (r.below names) = fs.resolve (r'.below names) := by
  obtain ⟨left, hleft⟩ := resolve_below hr
  obtain ⟨left', hleft'⟩ := resolve_below hr'
  -- Each is given what the other has left over on top, so that both go on with the same number.
  rw [← hlinks left', ← hlinks' left, hleft names hn hne hshort, hleft' names hn hne hshort',
    Nat.add_comm left left']

end FileSystem

/-! ## Walks -/

/-- No limit of the file system bears on a walk: the paths that it uses are short enough, and links
lead to the same however many more might be followed. -/
structure WithinLimits (fs : FileSystem) (root : Path) : Prop where
  roomy : Roomy fs root
  links : ∀ entries names target, fs.list root = .ok entries → Leads entries names (.link target) →
    fs.LinksSuffice (root.below names)

section
variable {fs : FileSystem} {r r' : Path} {trail : Trail}

theorem FileSystem.list_of_resolve (hr : fs.resolve r = .ok trail)
    (hr' : fs.resolve r' = .ok trail) : fs.list r = fs.list r' := by
  rw [list, list, node, node, hr, hr']

theorem sameBelow_of_resolve (hs : fs.Sound) (hr : fs.resolve r = .ok trail)
    (hr' : fs.resolve r' = .ok trail) (hlimits : WithinLimits fs r) (hlimits' : WithinLimits fs r')
    {entries : List (Name × Node)} (hl : fs.list r = .ok entries) :
    Walk.SameBelow fs r r' entries := by
  have hl' : fs.list r' = .ok entries := FileSystem.list_of_resolve hr hr' ▸ hl
  have hd := FileSystem.list_sound hs hl
  refine ⟨?_, ?_⟩
  · intro names target h
    have hsame := FileSystem.resolve_below_eq hr hr' (h.isName hd) h.ne_nil
      (hlimits.roomy entries names _ hl h (.inr rfl))
      (hlimits'.roomy entries names _ hl' h (.inr rfl))
      (hlimits.links entries names target hl h) (hlimits'.links entries names target hl' h)
    rw [FileSystem.isFile, FileSystem.isFile, FileSystem.node, FileSystem.node, hsame]
  · intro names readable inner h
    have hshort := hlimits.roomy entries names _ hl h (.inl rfl)
    have hshort' := hlimits'.roomy entries names _ hl' h (.inl rfl)
    rw [FileSystem.listingFault?, FileSystem.listingFault?, if_neg (Nat.not_le.mpr hshort),
      if_neg (Nat.not_le.mpr hshort')]

theorem root_spelling_irrelevant (hs : fs.Sound) (hr : fs.resolve r = .ok trail)
    (hr' : fs.resolve r' = .ok trail) (hlimits : WithinLimits fs r) (hlimits' : WithinLimits fs r')
    (form : Form) (c : Config) :
    (∃ files, (filesOfConfig form fs c r).result = .ok files ∧
      (filesOfConfig form fs c r').result = .ok files) ∨
    ∃ names node encounter fault, (fs.nodeAt trail).HasAt names node ∧
      (filesOfConfig form fs c r).result = .error (.walk (r.below names) encounter fault) ∧
      (filesOfConfig form fs c r').result = .error (.walk (r'.below names) encounter fault) := by
  obtain ⟨rules, hrules⟩ := exists_rules c
  rw [filesOfConfig_result hrules, filesOfConfig_result hrules]
  have hlist := FileSystem.list_of_resolve hr hr'
  cases hl : fs.list r with
  | error fault =>
    rw [Walk.run_of_fault fs rules r form hl, Walk.run_of_fault fs rules r' form (hlist ▸ hl)]
    exact .inr ⟨[], _, .listing, fault, .inl ⟨rfl, rfl⟩, rfl, rfl⟩
  | ok entries =>
    have hsame := sameBelow_of_resolve hs hr hr' hlimits hlimits' hl
    rcases Walk.run_alike form hs hl (hlist ▸ hl) hsame rules with
      hok | ⟨names, node, fault, h, herror, herror'⟩
    · exact .inl hok
    · have hnode : fs.nodeAt trail = .directory true entries := by
        have hn := FileSystem.list_eq_ok hl
        rw [FileSystem.node, hr] at hn
        exact Except.ok.inj hn
      exact .inr ⟨names, node, _, fault, .inr ⟨true, entries, hnode, h⟩, herror, herror'⟩

end

/-! ## A directory by its name and by a link to it -/

open Walk (sampleName)

theorem withinLimits_of_layout {fs : FileSystem} {root : Path} {entries : List (Name × Node)}
    (hl : fs.list root = .ok entries) (h : ∀ place ∈ layout entries,
      (root.below place.1).text.length < FileSystem.pathLimit ∧
        (place.2.kind = .link → fs.isFile (root.below place.1) = true)) :
    WithinLimits fs root := by
  refine ⟨?_, ?_⟩
  · intro entries' names node hl' hlead _
    cases hl.symm.trans hl'
    exact (h (names, node) (mem_layout_iff.mpr hlead)).1
  · intro entries' names target hl' hlead
    cases hl.symm.trans hl'
    have hfile := (h (names, .link target) (mem_layout_iff.mpr hlead)).2 rfl
    refine FileSystem.linksSuffice_of_ne_linkLoop ?_
    intro hloop
    simp [FileSystem.isFile, FileSystem.node, hloop, Except.map] at hfile

def linkedEntries : List (Name × Node) :=
  [(sampleName "a.ts", .file [] true), (sampleName "b.ts", .link (sampleName "../k/a.ts"))]

/-- Nothing but a directory and a link to it. -/
def linkedTree : FileSystem :=
  ⟨.directory true [(sampleName "d", .directory true linkedEntries),
    (sampleName "k", .link (sampleName "d"))], []⟩

theorem linkedTree_sound : linkedTree.Sound := by decide

def linkedTrail : Trail := [(sampleName "d", .directory true linkedEntries)]

def linkedPath : Path := Path.ofString "k/"

def roundaboutPath : Path := Path.ofString "./d/../d//."

theorem withinLimits_linked : WithinLimits linkedTree linkedPath :=
  withinLimits_of_layout (show linkedTree.list linkedPath = .ok linkedEntries from rfl)
    (by decide +kernel)

theorem withinLimits_roundabout : WithinLimits linkedTree roundaboutPath :=
  withinLimits_of_layout (show linkedTree.list roundaboutPath = .ok linkedEntries from rfl)
    (by decide +kernel)

/-- The link below is found by either spelling, though one of them follows a link more for it. -/
theorem linked_directory_roundabout :
    linkedTree.Sound ∧ linkedTree.resolve linkedPath = .ok linkedTrail ∧
      linkedTree.resolve roundaboutPath = .ok linkedTrail ∧
      WithinLimits linkedTree linkedPath ∧ WithinLimits linkedTree roundaboutPath ∧
      (filesOfConfig .blocking linkedTree {} roundaboutPath).result =
        .ok [Path.relative [sampleName "a.ts"], Path.relative [sampleName "b.ts"]] := by
  have hlinked : linkedTree.resolve linkedPath = .ok linkedTrail := rfl
  have hroundabout : linkedTree.resolve roundaboutPath = .ok linkedTrail := rfl
  refine ⟨linkedTree_sound, hlinked, hroundabout, withinLimits_linked, withinLimits_roundabout, ?_⟩
  have hfiles : (filesOfConfig .blocking linkedTree {} linkedPath).result =
      .ok [Path.relative [sampleName "a.ts"], Path.relative [sampleName "b.ts"]] := by
    decide +kernel
  rcases root_spelling_irrelevant linkedTree_sound hlinked hroundabout withinLimits_linked
    withinLimits_roundabout .blocking {} with
    ⟨files, h, h'⟩ | ⟨_, _, _, _, _, h, _⟩
  · rw [h', ← h, hfiles]
  · rw [hfiles] at h
    cases h

end ProjectScope
