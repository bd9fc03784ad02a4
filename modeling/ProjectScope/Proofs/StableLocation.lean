import ProjectScope.Proofs.LocatedSpelling
import ProjectScope.Proofs.NearestProject
import ProjectScope.Proofs.RootSpelling

/-! # Locating from further up

A search climbs the ancestors of an absolute form. Each of them is an absolute form again
(`Path.absolute?_of_spelled`), and its own ancestors are those from there on
(`Path.ancestors_of_split`). That a search starts beside a file and not at it leaves out one
candidate, below the file, where nothing is (`search_eq_find?`). So what a search finds is found
from everywhere between where it starts and the project, and where it finds nothing, nothing is
found from further up. Main statement: `located_from_between`. -/
namespace ProjectScope

open Locate (candidate)

namespace Path

/-! ## Absolute forms of absolute forms -/

theorem BeginsOnce.isAbsolute {p : Path} (h : BeginsOnce p) : p.isAbsolute = true := by
  rcases h with h | ⟨b, t, -, h⟩ <;> rw [Path.isAbsolute, h] <;> rfl

theorem BeginsOnce.baseOf_eq {p : Path} (h : BeginsOnce p) (cwd : Path) :
    baseOf cwd p = ⟨[separator]⟩ := by
  have hone : ¬ p.BeginsTwice := by
    rcases h with h | ⟨b, t, hb, h⟩
    · simp [BeginsTwice, h]
    · simp [BeginsTwice, h, hb]
  rw [baseOf, if_pos h.isAbsolute, if_neg hone]

theorem BeginsOnce.baseOf_doubled {p : Path} (h : BeginsOnce p) (cwd : Path) :
    baseOf cwd p.doubled = ⟨[separator, separator]⟩ := by
  have htwo : p.doubled.BeginsTwice := by
    rcases h with h | ⟨b, t, hb, h⟩
    · simp [BeginsTwice, doubled, h]
    · simp [BeginsTwice, doubled, h, hb]
  have ha : p.doubled.isAbsolute = true := rfl
  rw [baseOf, if_pos ha, if_pos htwo]

theorem IsLead.baseOf_joinAll {lead : Path} (hl : IsLead lead) {cs : List Component}
    (hcs : ∀ c ∈ cs, c.IsSpelled) (cwd : Path) :
    baseOf cwd (lead.joinAll cs) = lead ∧ baseOf cwd ((lead.joinAll cs).join ⟨[]⟩) = lead := by
  have honce : BeginsOnce ((⟨[separator]⟩ : Path).joinAll cs) := BeginsOnce.joinAll hcs (.inl rfl)
  have hended := honce.join (q := ⟨[]⟩) rfl
  cases hl with
  | one => exact ⟨honce.baseOf_eq cwd, hended.baseOf_eq cwd⟩
  | two =>
    rw [doubled_joinAll hcs, join_doubled (text_ne_nil honce.isAbsolute) rfl]
    exact ⟨honce.baseOf_doubled cwd, hended.baseOf_doubled cwd⟩

theorem join_nil_of_ended {p : Path} (h : p.text.getLast? = some separator) : p.join ⟨[]⟩ = p := by
  rw [join_of_ended h rfl, List.append_nil]

theorem getLast?_join_nil {p : Path} (hp : p.text ≠ []) :
    (p.join ⟨[]⟩).text.getLast? = some separator := by
  by_cases h : p.text.getLast? = some separator
  · rw [join_nil_of_ended h, h]
  · rw [join_of_open hp h rfl]
    simp

/-- A path that is spelled as an absolute form is its own, wherever it is seen from. -/
theorem absolute?_of_spelled {p : Path} (h : Spelled p) (cwd : Path) :
    absolute? cwd p = some p := by
  have hsteps : ∀ {q : Path} {cs : List Component}, q.components = .root :: cs → q.steps = cs := by
    intro q cs hc
    rw [components_of_isAbsolute (isAbsolute_of_components hc)] at hc
    exact (List.cons_eq_cons.mp hc).2
  have hne := text_ne_nil h.isAbsolute
  cases h with
  | tidy h =>
    cases h with
    | @joinAll lead cs hl hcs =>
      rw [absolute?_eq cwd hne, hsteps (Tidy.components_joinAll hl hcs),
        (hl.baseOf_joinAll hcs cwd).1]
      split
      · next hend => rw [join_nil_of_ended hend]
      · rfl
  | ended h =>
    have hend := getLast?_join_nil (text_ne_nil h.isAbsolute)
    cases h with
    | @joinAll lead cs hl hcs =>
      have hc : (Path.join (lead.joinAll cs) ⟨[]⟩).components = .root :: cs := by
        rw [components, stops_join_nil, ← components, Tidy.components_joinAll hl hcs]
      rw [absolute?_eq cwd hne, hsteps hc, (hl.baseOf_joinAll hcs cwd).2, if_pos hend]

end Path

/-! ## Below a file -/

/-- Nothing lies below a regular file. -/
theorem FileSystem.isFile_candidate_of_isFile {fs : FileSystem} {p : Path}
    (h : fs.isFile p = true) : fs.isFile (candidate p) = false := by
  obtain ⟨trail, hr, hfile⟩ := exists_resolve_of_isFile h
  obtain ⟨left, hleft⟩ := resolve_below hr
  by_contra hn
  obtain ⟨t, ht, -⟩ := exists_resolve_of_isFile (Bool.not_eq_false _ ▸ hn)
  have hshort := (resolve_eq_ok.mp ht).1.short
  have hname : ∀ n ∈ [configName], Path.IsName n := by simpa using configName_isName
  have hfollow : fs.follow left trail [.enter configName] = .error .notADirectory := by
    rw [follow_eq_makeMoves]
    cases hd : fs.nodeAt trail with
    | file content readable => simp [makeMoves, hd]
    | fifo => simp [makeMoves, hd]
    | link target => simp [makeMoves, hd]
    | directory searchable entries => simp [hd, Node.isFile] at hfile
  have hbelow := hleft [configName] hname (List.cons_ne_nil _ _) hshort 0
  have hok : fs.resolveWithin (linkLimit + 0) (p.below [configName]) = .ok t := ht
  rw [hok] at hbelow
  split at hbelow
  · cases hbelow
  · have hfault : Except.ok t = Except.error Fault.notADirectory := hbelow.trans hfollow
    cases hfault

/-! ## Searches that start further up -/

section
variable {fs : FileSystem} {start d : Path}

/-- The search looks for the first hit among the candidates of all ancestors, whether or not it
starts at the path itself. -/
theorem search_eq_find? (h : start.Spelled) :
    search fs start = (start.ancestors.map candidate).find? fs.isFile := by
  rw [search, Locate.startOf]
  split
  · next hfile =>
    cases hp : start.parent? with
    | none =>
      rw [FileSystem.not_isFile_of_movesOf (h.movesOf_of_parent? hp)] at hfile
      cases hfile
    | some parent =>
      have hcandidate := FileSystem.isFile_candidate_of_isFile hfile
      have hall := Path.ancestors_of_isAbsolute h.isAbsolute
      obtain ⟨farther, hfarther⟩ : ∃ farther, start.ancestors = [start] ++ parent :: farther := by
        rw [Path.parent?, hall, List.getElem?_cons_succ] at hp
        obtain ⟨farther, hrest⟩ := List.head?_eq_some_iff.mp (List.head?_eq_getElem? ▸ hp)
        exact ⟨farther, by rw [hall, hrest]; rfl⟩
      rw [Option.getD_some, Path.ancestors_of_split h.isAbsolute hfarther, hfarther,
        List.map_append, List.map_singleton, List.find?_append,
        List.find?_singleton, hcandidate]
      rfl
  · rfl

/-- From a path and from an ancestor of it the same candidates are looked at, but for those of the
ancestors in between. -/
theorem search_of_split (h : start.Spelled) {nearer farther : List Path}
    (hsplit : start.ancestors = nearer ++ d :: farther) :
    search fs start = ((nearer.map candidate).find? fs.isFile).or (search fs d) := by
  have hd : d.Spelled := h.of_mem_ancestors (by simp [hsplit])
  rw [search_eq_find? h, search_eq_find? hd, Path.ancestors_of_split h.isAbsolute hsplit, hsplit,
    List.map_append, List.find?_append]

theorem search_of_none (h : start.Spelled) (hd : d ∈ start.ancestors)
    (hnone : search fs start = none) : search fs d = none := by
  obtain ⟨nearer, farther, hsplit⟩ := List.append_of_mem hd
  rw [search_of_split h hsplit, Option.or_eq_none_iff] at hnone
  exact hnone.2

/-- What is found in a directory is found from each ancestor at or below the directory. -/
theorem search_of_between (h : start.Spelled) (hd : d ∈ start.ancestors) {file a : Path}
    (hfile : search fs start = some file) (ha : a ∈ d.ancestors)
    (hsame : a.components = (projectDirectory file).components) : search fs d = some file := by
  obtain ⟨nearer, farther, hsplit⟩ := List.append_of_mem hd
  rw [search_of_split h hsplit, Option.or_eq_some_iff] at hfile
  rcases hfile with hnear | ⟨-, hfar⟩
  · -- A directory nearer than the ancestor has more components than all from the ancestor on.
    obtain ⟨b, hb, rfl⟩ := List.mem_map.mp (List.mem_of_find?_eq_some hnear)
    have hba : b.isAbsolute = true :=
      Path.isAbsolute_of_mem_ancestors h.isAbsolute (by simp [hsplit, hb])
    rw [Path.ancestors_of_split h.isAbsolute hsplit] at ha
    have hpair := Path.ancestors_pairwise h.isAbsolute
    rw [hsplit] at hpair
    have hlt := (List.pairwise_append.mp hpair).2.2 b hb a ha
    rw [hsame, (projectDirectory_candidate hba).2] at hlt
    exact absurd hlt (Nat.lt_irrefl _)
  · exact hfar

end

/-! ## Locating -/

section
variable {fs : FileSystem} {form : Form} {cwd start d : Path}

theorem FileSystem.absolute_of_spelled (h : d.Spelled) : fs.absolute d = .ok d :=
  FileSystem.absolute_eq_ok.mpr
    ⟨Path.absolute?_of_spelled h fs.cwdPath, [], FileSystem.start?_of_isAbsolute h.isAbsolute⟩

theorem locate_of_between (hs : fs.Sound) (hstart : Path.absolute? fs.cwdPath cwd = some start)
    {file a : Path} (hfile : (locate form fs cwd).result = .ok file) (hd : d ∈ start.ancestors)
    (ha : a ∈ d.ancestors) (hsame : a.sameAs (projectDirectory file) = true) :
    (locate form fs d).result = .ok file := by
  obtain ⟨start', hstart', hsearch⟩ := locate_eq_ok.mp hfile
  obtain rfl := Option.some.inj (hstart.symm.trans (FileSystem.absolute_eq_ok.mp hstart').1)
  have hspelled := FileSystem.spelled_of_absolute hs hstart'
  have hfrom := search_of_between hspelled hd hsearch ha (Path.sameAs_iff.mp hsame)
  exact locate_eq_ok.mpr ⟨d, FileSystem.absolute_of_spelled (hspelled.of_mem_ancestors hd), hfrom⟩

/-- Where no configuration is found the path has an absolute form, and the search from it finds
nothing. -/
theorem search_of_configNotFound {p : Path}
    (h : (filesAround form fs cwd).result = .error (.configNotFound p)) :
    fs.absolute cwd = .ok p ∧ search fs p = none := by
  have hlocate := (locate_eq_error_iff.mpr ⟨h, trivial⟩ : (locate form fs cwd).result = _)
  rw [locate_result] at hlocate
  cases hp : fs.absolute cwd with
  | error fault => simp [hp] at hlocate
  | ok q =>
    rw [hp] at hlocate
    cases hsearch : search fs q with
    | none =>
      simp only [hsearch] at hlocate
      cases hlocate
      exact ⟨rfl, hsearch⟩
    | some file => simp [hsearch] at hlocate

end

theorem located_from_between {fs : FileSystem} (hs : fs.Sound) (form : Form) {cwd start : Path}
    (hstart : Path.absolute? fs.cwdPath cwd = some start) :
    (∀ file, (locate form fs cwd).result = .ok file → ∀ d ∈ start.ancestors,
      (∃ a ∈ d.ancestors, a.sameAs (projectDirectory file) = true) →
        (locate form fs d).result = .ok file ∧
          (filesAround form fs d).result = (filesAround form fs cwd).result) ∧
    (∀ p, (filesAround form fs cwd).result = .error (.configNotFound p) →
      ∀ d ∈ start.ancestors, ∃ q, Path.absolute? fs.cwdPath d = some q ∧
        (filesAround form fs d).result = .error (.configNotFound q)) := by
  refine ⟨?_, ?_⟩
  · intro file hfile d hd hbetween
    obtain ⟨a, ha, hsame⟩ := hbetween
    have hlocated := locate_of_between hs hstart hfile hd ha hsame
    exact ⟨hlocated, by rw [filesAround_of_located hlocated, filesAround_of_located hfile]⟩
  · intro p hp d hd
    obtain ⟨habsolute, hnone⟩ := search_of_configNotFound hp
    obtain rfl := Option.some.inj (hstart.symm.trans (FileSystem.absolute_eq_ok.mp habsolute).1)
    have hspelled := FileSystem.spelled_of_absolute hs habsolute
    have hds := hspelled.of_mem_ancestors hd
    refine ⟨d, Path.absolute?_of_spelled hds fs.cwdPath, filesAround_of_unlocated ?_⟩
    rw [locate_result, FileSystem.absolute_of_spelled hds]
    simp only [search_of_none hspelled hd hnone]

/-! ## A project found through a file, and none -/

/-- Neither the path nor what it is in is there; above that comes a file of the project. In a tree
without configurations no path has a project. -/
theorem located_through_file :
    nestedTree.Sound ∧
    Path.absolute? nestedTree.cwdPath (.ofString "m/b/../a/inner.ts//x/..") =
      some (.ofString "/m/b/../a/inner.ts/x/..") ∧
    (locate .suspending nestedTree (.ofString "m/b/../a/inner.ts//x/..")).result =
      .ok (.ofString "/m/b/../a/tsconfig.json") ∧
    (locate .suspending nestedTree (.ofString "/m/b/../a/inner.ts")).result =
      .ok (.ofString "/m/b/../a/tsconfig.json") ∧
    (filesAround .suspending nestedTree (.ofString "/m/b/../a/inner.ts")).result =
      (filesAround .suspending nestedTree (.ofString "m/b/../a/inner.ts//x/..")).result ∧
    linkedTree.Sound ∧
    (filesAround .blocking linkedTree (.ofString "k/a.ts")).result =
      .error (.configNotFound (.ofString "/k/a.ts")) ∧
    ∃ q, (filesAround .blocking linkedTree (.ofString "/k")).result =
      .error (.configNotFound q) := by
  have hstart : Path.absolute? nestedTree.cwdPath (.ofString "m/b/../a/inner.ts//x/..") =
      some (.ofString "/m/b/../a/inner.ts/x/..") := by decide
  have hfile : (locate .suspending nestedTree (.ofString "m/b/../a/inner.ts//x/..")).result =
      .ok (.ofString "/m/b/../a/tsconfig.json") := by decide +kernel
  have hlinked : Path.absolute? linkedTree.cwdPath (.ofString "k/a.ts") =
      some (.ofString "/k/a.ts") := by decide
  have hnone : (filesAround .blocking linkedTree (.ofString "k/a.ts")).result =
      .error (.configNotFound (.ofString "/k/a.ts")) := by decide
  obtain ⟨hlocated, hfiles⟩ := (located_from_between nestedTree_sound .suspending hstart).1 _ hfile
    (.ofString "/m/b/../a/inner.ts") (by decide) ⟨.ofString "/m/b/../a", by decide, by decide⟩
  obtain ⟨q, -, hq⟩ := (located_from_between linkedTree_sound .blocking hlinked).2 _ hnone
    (.ofString "/k") (by decide)
  exact ⟨nestedTree_sound, hstart, hfile, hlocated, hfiles, linkedTree_sound, hnone, q, hq⟩

end ProjectScope
