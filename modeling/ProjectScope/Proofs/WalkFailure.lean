import ProjectScope.Proofs.WalkResult

/-! # How a walk fails

A visit never fails, since what is visited lies below the root. So nothing but a directory that
cannot be listed stops a pass, and the first of them in the layout does (`pass_ends`). The places of
the layout increase, which makes it the least one in the order of the names. The rules have no part
in this. Main statements: `failure_by_tree`, and `stripping_undoes_joining` on what is visited. -/
namespace ProjectScope

namespace Path

/-! ## A path below a path, joined at once -/

theorem text_join_append (p : Path) {n : Name} (hn : IsName n) (t : Bytes) :
    (p.join ⟨n ++ t⟩).text = (p.joinName n).text ++ t := by
  have hrest : isAbsolute ⟨n ++ t⟩ = false := by
    have hname := hn.not_isAbsolute
    rwa [← isAbsolute_append hn.ne_nil t] at hname
  rw [joinName, join_relative p hrest, join_relative p hn.not_isAbsolute]
  split <;> simp

theorem below_eq_join (p : Path) {names : List Name} (h : ∀ n ∈ names, IsName n)
    (hne : names ≠ []) : p.below names = p.join (relative names) := by
  obtain ⟨n, names, rfl⟩ := List.exists_cons_of_ne_nil hne
  have hn : IsName n := h n List.mem_cons_self
  have htext : (p.below (n :: names)).text = (p.join (relative (n :: names))).text := by
    rw [p.text_below_cons h, relative, intercalate_cons, text_join_append p hn]
  exact congrArg Path.mk htext

end Path

namespace Walk

variable {fs : FileSystem} {root : Path} {entries : List (Name × Node)}

/-! ## The first directory that cannot be listed -/

/-- A directory is at the place, and cannot be listed by the path that the walk has for it. -/
def Unlisted (root : Path) (entries : List (Name × Node)) (names : List Name)
    (fault : FileSystem.Fault) : Prop :=
  ∃ readable inner, Leads entries names (.directory readable inner) ∧
    FileSystem.listingFault? (root.below names) readable = some fault

/-- The first such place in the order of a walk, which is that of the names, segment by segment: a
directory comes before what it holds. -/
structure FirstUnlisted (root : Path) (entries : List (Name × Node)) (names : List Name)
    (fault : FileSystem.Fault) : Prop where
  unlisted : Unlisted root entries names fault
  first : ∀ names' fault', Unlisted root entries names' fault' → ¬ names' < names

theorem unlisted_iff {names : List Name} {fault : FileSystem.Fault} :
    Unlisted root entries names fault ↔
      ∃ node, (names, node) ∈ layout entries ∧ faultAt? (root.below names) node = some fault := by
  simp only [mem_layout_iff]
  refine ⟨?_, ?_⟩
  · intro h
    obtain ⟨readable, inner, hl, hf⟩ := h
    exact ⟨_, hl, hf⟩
  · intro h
    obtain ⟨node, hl, hf⟩ := h
    cases node with
    | directory readable inner => exact ⟨readable, inner, hl, hf⟩
    | file content readable => cases hf
    | fifo => cases hf
    | link target => cases hf

theorem stopAt?_eq_some {encounter : Encounter} {place : Place} {e : Error} :
    stopAt? encounter root place = some e ↔
      ∃ fault, faultAt? (root.below place.1) place.2 = some fault ∧
        e = .walk (root.below place.1) encounter fault := by
  rw [stopAt?, Option.map_eq_some_iff]
  simp only [eq_comm]

/-- Where places increase, the first hit is the one that no other hit comes before. -/
theorem findSome?_eq_some_iff_least {places : List Place}
    (hpair : places.Pairwise fun a b => a.1 < b.1) {f : Place → Option Error} {e : Error} :
    places.findSome? f = some e ↔ ∃ place ∈ places, f place = some e ∧
      ∀ other ∈ places, f other ≠ none → ¬ other.1 < place.1 := by
  rw [List.findSome?_eq_some_iff]
  refine ⟨?_, ?_⟩
  · intro h
    obtain ⟨before, place, after, rfl, hhit, hbefore⟩ := h
    refine ⟨place, by simp, hhit, ?_⟩
    intro other hm hother hlt
    rcases List.mem_append.mp hm with hb | ha
    · exact hother (hbefore other hb)
    · rcases List.mem_cons.mp ha with rfl | ha
      · exact List.lt_irrefl _ hlt
      · have hgt := (List.pairwise_cons.mp (List.pairwise_append.mp hpair).2.1).1 other ha
        exact List.lt_irrefl _ (List.lt_trans hlt hgt)
  · intro h
    obtain ⟨place, hm, hhit, hleast⟩ := h
    obtain ⟨before, after, rfl⟩ := List.append_of_mem hm
    refine ⟨before, place, after, rfl, hhit, ?_⟩
    intro other hb
    by_contra hother
    have hlt := (List.pairwise_append.mp hpair).2.2 other hb place List.mem_cons_self
    exact hleast other (List.mem_append_left _ hb) hother hlt

/-- The first place that stops a pass over the layout is the first that cannot be listed. -/
theorem findSome?_stopAt? {readable : Bool} (hd : (Node.directory readable entries).Sound)
    {encounter : Encounter} {e : Error} :
    (layout entries).findSome? (stopAt? encounter root) = some e ↔
      ∃ names fault, FirstUnlisted root entries names fault ∧
        e = .walk (root.below names) encounter fault := by
  rw [findSome?_eq_some_iff_least (layout_pairwise hd)]
  refine ⟨?_, ?_⟩
  · intro h
    obtain ⟨⟨names, node⟩, hm, hstop, hleast⟩ := h
    obtain ⟨fault, hf, rfl⟩ := stopAt?_eq_some.mp hstop
    refine ⟨names, fault, ⟨unlisted_iff.mpr ⟨node, hm, hf⟩, ?_⟩, rfl⟩
    intro names' fault' hother
    obtain ⟨node', hm', hf'⟩ := unlisted_iff.mp hother
    exact hleast (names', node') hm' (by simp [stopAt?, hf'])
  · intro h
    obtain ⟨names, fault, ⟨hunlisted, hfirst⟩, rfl⟩ := h
    obtain ⟨node, hm, hf⟩ := unlisted_iff.mp hunlisted
    refine ⟨(names, node), hm, stopAt?_eq_some.mpr ⟨fault, hf, rfl⟩, ?_⟩
    rintro ⟨names', node'⟩ hm' hstop
    obtain ⟨e', he'⟩ := Option.ne_none_iff_exists'.mp hstop
    obtain ⟨fault', hf', -⟩ := stopAt?_eq_some.mp he'
    exact hfirst names' fault' (unlisted_iff.mpr ⟨node', hm', hf'⟩)

/-! ## The error of a walk -/

/-- The error that the walks from a root end with. Nothing is said of any rules. -/
inductive StopsWith (fs : FileSystem) (form : Form) (root : Path) : Error → Prop
  | root {fault} : fs.list root = .error fault →
      StopsWith fs form root (.walk root .listing fault)
  | below {entries names fault} : fs.list root = .ok entries →
      FirstUnlisted root entries names fault →
      StopsWith fs form root (.walk (root.join (Path.relative names)) (encounterOf form) fault)

theorem stopsWith_of_fault {form : Form} {fault : FileSystem.Fault} {e : Error}
    (hl : fs.list root = .error fault) :
    StopsWith fs form root e ↔ e = .walk root .listing fault := by
  refine ⟨?_, ?_⟩
  · intro h
    cases h with
    | root hl' => rw [Except.error.inj (hl'.symm.trans hl)]
    | below hl' _ => cases hl'.symm.trans hl
  · rintro rfl
    exact .root hl

theorem stopsWith_of_listed {form : Form} {e : Error} (hl : fs.list root = .ok entries) :
    StopsWith fs form root e ↔ ∃ names fault, FirstUnlisted root entries names fault ∧
      e = .walk (root.join (Path.relative names)) (encounterOf form) fault := by
  refine ⟨?_, ?_⟩
  · intro h
    cases h with
    | root hl' => cases hl'.symm.trans hl
    | below hl' hfirst =>
      obtain rfl := Except.ok.inj (hl'.symm.trans hl)
      exact ⟨_, _, hfirst, rfl⟩
  · intro h
    obtain ⟨names, fault, hfirst, rfl⟩ := h
    exact .below hl hfirst

theorem run_eq_error_iff (hs : fs.Sound) (form : Form) (rules : Rules) {e : Error} :
    (run form fs rules root).result = .error e ↔ StopsWith fs form root e := by
  cases hl : fs.list root with
  | error fault =>
    rw [run_of_fault fs rules root form hl, stopsWith_of_fault hl]
    show Except.error (Error.walk root .listing fault) = Except.error e ↔ _
    rw [Except.error.injEq, eq_comm]
  | ok entries =>
    have hd := FileSystem.list_sound hs hl
    have hnames : ∀ place ∈ layout entries, ∀ n ∈ place.1, Path.IsName n := fun place hm =>
      (mem_layout_iff.mp hm).isName hd
    have hends : (run form fs rules root).result = .error e ↔
        (layout entries).findSome? (stopAt? (encounterOf form) root) = some e := by
      rw [run_eq_pass fs rules root form hl, sightsBelow, pass_ends (encounterOf form) hnames]
      cases (layout entries).findSome? (stopAt? (encounterOf form) root) <;> simp
    rw [hends, findSome?_stopAt? hd, stopsWith_of_listed hl]
    refine exists_congr fun names => exists_congr fun fault => and_congr_right fun hfirst => ?_
    obtain ⟨_, _, hlead, -⟩ := hfirst.unlisted
    rw [Path.below_eq_join root (hlead.isName hd) hlead.ne_nil]

/-- Where some directory cannot be listed, one of them is the first. -/
theorem exists_stopsWith (hs : fs.Sound) (form : Form) (root : Path) :
    (∃ e, StopsWith fs form root e) ↔ (∃ fault, fs.list root = .error fault) ∨
      ∃ entries names fault, fs.list root = .ok entries ∧ Unlisted root entries names fault := by
  refine ⟨?_, ?_⟩
  · intro h
    obtain ⟨e, h⟩ := h
    cases h with
    | root hl => exact .inl ⟨_, hl⟩
    | below hl hfirst => exact .inr ⟨_, _, _, hl, hfirst.unlisted⟩
  · intro h
    rcases h with ⟨fault, hl⟩ | ⟨entries, names, fault, hl, hunlisted⟩
    · exact ⟨_, .root hl⟩
    · obtain ⟨node, hm, hf⟩ := unlisted_iff.mp hunlisted
      cases hstop : (layout entries).findSome? (stopAt? (encounterOf form) root) with
      | none =>
        have hpassed := List.findSome?_eq_none_iff.mp hstop _ hm
        rw [stopAt?, hf] at hpassed
        cases hpassed
      | some e =>
        obtain ⟨names', fault', hfirst, rfl⟩ :=
          (findSome?_stopAt? (FileSystem.list_sound hs hl)).mp hstop
        exact ⟨_, .below hl hfirst⟩

/-- A walk fails just when the root or a directory below it cannot be listed, with the error of the
first of them, and this is so for all rules alike. -/
theorem failure_by_tree (hs : fs.Sound) (form : Form) (root : Path) (rules : Rules) :
    ((∃ e, (run form fs rules root).result = .error e) ↔ (∃ fault, fs.list root = .error fault) ∨
      ∃ entries names fault, fs.list root = .ok entries ∧ Unlisted root entries names fault) ∧
    (∀ e, (run form fs rules root).result = .error e ↔ StopsWith fs form root e) ∧
    ∀ rules' : Rules,
      (∃ files files', (run form fs rules root).result = .ok files ∧
        (run form fs rules' root).result = .ok files') ∨
      ∃ e, (run form fs rules root).result = .error e ∧
        (run form fs rules' root).result = .error e := by
  have herror : ∀ rules e, (run form fs rules root).result = .error e ↔ StopsWith fs form root e :=
    fun rules e => run_eq_error_iff hs form rules
  refine ⟨?_, herror rules, ?_⟩
  · rw [← exists_stopsWith hs form root]
    exact exists_congr (herror rules)
  · intro rules'
    cases hr : (run form fs rules root).result with
    | error e => exact .inr ⟨e, rfl, (herror rules' e).mpr ((herror rules e).mp hr)⟩
    | ok files =>
      cases hr' : (run form fs rules' root).result with
      | ok files' => exact .inl ⟨files, files', rfl, rfl⟩
      | error e =>
        have he := (herror rules e).mpr ((herror rules' e).mp hr')
        rw [hr] at he
        cases he

/-! ## A tree with two directories that cannot be listed -/

def lockedDirectory : Node := .directory false [(sampleName "inner", .emptyDirectory)]

def lockedTree : FileSystem :=
  ⟨.directory true [(sampleName "a-", lockedDirectory),
    (sampleName "a", .directory true [(sampleName "z", lockedDirectory)])], []⟩

/-- As texts the two paths are in the other order. -/
theorem stops_at_inner_directory :
    lockedTree.Sound ∧ StopsWith lockedTree .blocking ⟨Path.dot⟩
      (.walk (.ofString "./a/z") .stream .permissionDenied) ∧
    ∀ rules, (run .blocking lockedTree rules ⟨Path.dot⟩).result =
      .error (.walk (.ofString "./a/z") .stream .permissionDenied) := by
  have hsound : lockedTree.Sound := by decide
  have hplain : (run .blocking lockedTree ⟨[], []⟩ ⟨Path.dot⟩).result =
      .error (.walk (.ofString "./a/z") .stream .permissionDenied) := by decide
  have hstops := ((failure_by_tree hsound .blocking ⟨Path.dot⟩ ⟨[], []⟩).2.1 _).mp hplain
  exact ⟨hsound, hstops, fun rules =>
    ((failure_by_tree hsound .blocking ⟨Path.dot⟩ rules).2.1 _).mpr hstops⟩

/-! ## Nothing visited lies outside the root -/

theorem StopsWith.ne_outsideRoot {form : Form} {e : Error} (h : StopsWith fs form root e)
    (outer path : Path) : e ≠ .outsideRoot outer path := by
  rintro rfl
  cases h

/-- However a root is spelled, names that are joined onto it one by one are what the whole path adds
to it, byte for byte with a separator between them. So no walk comes by a path outside its root. -/
theorem stripping_undoes_joining (root : Path) :
    (∀ names : List Name, (∀ n ∈ names, Path.IsName n) →
      ∃ relative, (root.below names).relativeTo? root = some relative ∧
        relative.text = [Path.separator].intercalate names) ∧
    ∀ fs : FileSystem, fs.Sound → ∀ form rules outer path,
      (run form fs rules root).result ≠ .error (.outsideRoot outer path) := by
  refine ⟨?_, ?_⟩
  · intro names hnames
    exact ⟨_, Path.relativeTo?_below hnames root, rfl⟩
  · intro fs hs form rules outer path herror
    have hstops : StopsWith fs form root (.outsideRoot outer path) :=
      (run_eq_error_iff hs form rules).mp herror
    exact hstops.ne_outsideRoot outer path rfl

/-- A root that leads down and up again, with a dot at either end and an empty segment. -/
def windingRoot : Path := .ofString "./a/..//."

/-- Names with dots, a backslash and a byte that is no text. -/
def dottedNames : List Name := [sampleName "...", [0xFF, 0x2E], sampleName ".\\a"]

theorem dotted_names_below_winding_root :
    (∀ n ∈ dottedNames, Path.IsName n) ∧ sampleTree.Sound ∧
    (∃ relative, (windingRoot.below dottedNames).relativeTo? windingRoot = some relative ∧
      relative.text = sampleName ".../" ++ [0xFF, 0x2E] ++ sampleName "/.\\a") ∧
    ∀ form rules outer path,
      (run form sampleTree rules windingRoot).result ≠ .error (.outsideRoot outer path) := by
  have hnames : ∀ n ∈ dottedNames, Path.IsName n := by decide
  obtain ⟨hstrip, hwalk⟩ := stripping_undoes_joining windingRoot
  obtain ⟨relative, hrelative, htext⟩ := hstrip dottedNames hnames
  exact ⟨hnames, sampleTree_sound, ⟨relative, hrelative, htext.trans (by decide)⟩,
    hwalk sampleTree sampleTree_sound⟩

end Walk

end ProjectScope
