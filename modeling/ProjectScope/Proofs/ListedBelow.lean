import ProjectScope.Proofs.FailingFolds
import ProjectScope.Proofs.RootSpelling
import ProjectScope.Proofs.WalkFailure

/-! # What is listed below a root

A walk asks the file system for the entries of its root and finds what lies below in the tree. Of a
directory there it only decides whether its path can be listed. Here that is compared with what the
file system answers: a path of names is followed from where the root leads, entry by entry
(`exists_makeMoves`), so the file system lists by it what stands in the tree, or refuses with the
fault that was decided on. Main statements: `FileSystem.list_below`, and `Walk.StopsWith.list_eq` on
the path that a walk stops with. -/
namespace ProjectScope

/-- A name that the file system takes when it stands in a path. -/
structure Path.Fits (n : Name) : Prop where
  no_zero : (0 : UInt8) ∉ n
  short : n.length ≤ FileSystem.nameLimit

/-- The directories that are passed on the way to the place can be searched. -/
def Searchable (entries : List (Name × Node)) (names : List Name) : Prop :=
  ∀ above readable inner, Leads entries above (.directory readable inner) → above <+: names →
    above ≠ names → readable = true

theorem Searchable.under {entries : List (Name × Node)} {n : Name} {readable : Bool}
    {inner : List (Name × Node)} {names : List Name} (h : Searchable entries (n :: names))
    (hm : (n, .directory readable inner) ∈ entries) (hne : names ≠ []) :
    readable = true ∧ Searchable inner names := by
  refine ⟨?_, ?_⟩
  · exact h [n] readable inner (.here hm) (by simp) (by simpa using hne.symm)
  · intro above readable' inner' hl hpre hne
    exact h (n :: above) readable' inner' (.under hm hl) (List.cons_prefix_cons.mpr ⟨rfl, hpre⟩)
      (by simpa using hne)

namespace FileSystem

variable {fs : FileSystem} {root : Path} {entries : List (Name × Node)} {names : List Name}

/-- From a directory the names lead where they lead in the tree. -/
theorem exists_makeMoves (followLink : FollowLink) {node : Node} (h : Leads entries names node) :
    ∀ {trail : Trail}, fs.nodeAt trail = .directory true entries →
      (Node.directory true entries).Sound → (∀ n ∈ names, n.length ≤ nameLimit) →
      Searchable entries names → (∀ target, node ≠ .link target) →
      ∃ t, fs.makeMoves followLink trail (names.map .enter) = .ok t ∧ fs.nodeAt t = node := by
  induction h with
  | @here entries n node hm =>
    intro trail hd hs hshort hway hlink
    cases hs with
    | directory hnd _ _ =>
      have hlong : ¬ nameLimit < n.length := Nat.not_lt.mpr (hshort n (by simp))
      refine ⟨(n, node) :: trail, ?_, rfl⟩
      cases node with
      | link target => exact absurd rfl (hlink target)
      | file content readable => simp [makeMoves, hd, hlong, lookup_of_mem hnd hm]
      | fifo => simp [makeMoves, hd, hlong, lookup_of_mem hnd hm]
      | directory readable inner => simp [makeMoves, hd, hlong, lookup_of_mem hnd hm]
  | @under entries n readable inner names node hm hl ih =>
    intro trail hd hs hshort hway hlink
    obtain ⟨rfl, hway⟩ := hway.under hm hl.ne_nil
    cases hs with
    | directory hnd _ hall =>
      have hlong : ¬ nameLimit < n.length := Nat.not_lt.mpr (hshort n (by simp))
      have hnext := @ih ((n, .directory true inner) :: trail) rfl (hall _ hm)
        (fun m hm => hshort m (by simp [hm])) hway hlink
      simpa [makeMoves, hd, hlong, lookup_of_mem hnd hm] using hnext

/-- A path of names leads where the names lead in the tree, unless it is too long. -/
theorem exists_resolve_below {trail : Trail} (hr : fs.resolve root = .ok trail)
    (hd : fs.nodeAt trail = .directory true entries) (hs : (Node.directory true entries).Sound)
    {node : Node} (hlead : Leads entries names node) (hlink : ∀ target, node ≠ .link target)
    (hfits : ∀ n ∈ names, Path.Fits n) (hway : Searchable entries names)
    (hshort : (root.below names).text.length < pathLimit) :
    ∃ t, fs.resolve (root.below names) = .ok t ∧ fs.nodeAt t = node := by
  obtain ⟨left, hleft⟩ := resolve_below hr
  have hzero : names.flatten.contains 0 = false := by
    rw [Bool.eq_false_iff]
    intro hz
    obtain ⟨n, hn, hmem⟩ := List.mem_flatten.mp (List.contains_iff_mem.mp hz)
    exact (hfits n hn).no_zero hmem
  have hbelow := hleft names (hlead.isName hs) hlead.ne_nil hshort 0
  rw [hzero, if_neg Bool.false_ne_true, follow_eq_makeMoves] at hbelow
  obtain ⟨t, ht, hnode⟩ := exists_makeMoves (onLink fs (left + 0)) hlead hd hs
    (fun n hn => (hfits n hn).short) hway hlink
  exact ⟨t, hbelow.trans ht, hnode⟩

theorem resolve_below_of_long (hr : IsRequest root.text) (hn : ∀ n ∈ names, Path.IsName n)
    (hfits : ∀ n ∈ names, Path.Fits n) (hlong : pathLimit ≤ (root.below names).text.length) :
    fs.resolve (root.below names) = .error .nameTooLong := by
  have hzero : (root.below names).text.contains 0 = false := by
    rw [Path.contains_zero_below hn, hr.no_zero, Bool.false_or, Bool.eq_false_iff]
    intro hz
    obtain ⟨n, hm, hmem⟩ := List.mem_flatten.mp (List.contains_iff_mem.mp hz)
    exact (hfits n hm).no_zero hmem
  obtain ⟨t, ht⟩ := Path.exists_text_below hn root
  have hne : (root.below names).text ≠ [] := by
    rw [ht]
    exact List.append_ne_nil_of_left_ne_nil hr.ne_nil t
  rw [resolve, hzero, if_neg Bool.false_ne_true, if_neg hne, if_pos hlong]

/-- What a walk takes for the listing of a directory below its root is what the file system lists by
the path of the directory. -/
theorem list_below (hs : fs.Sound) (hl : fs.list root = .ok entries) {readable : Bool}
    {inner : List (Name × Node)} (hlead : Leads entries names (.directory readable inner))
    (hfits : ∀ n ∈ names, Path.Fits n) (hway : Searchable entries names) :
    fs.list (root.below names) =
      match listingFault? (root.below names) readable with
      | some fault => .error fault
      | none => .ok inner := by
  have hd := list_sound hs hl
  have hnode := list_eq_ok hl
  rw [node] at hnode
  cases hr : fs.resolve root with
  | error fault => simp [hr, Except.map] at hnode
  | ok trail =>
    rw [hr] at hnode
    have htrail : fs.nodeAt trail = .directory true entries := Except.ok.inj hnode
    by_cases hlong : pathLimit ≤ (root.below names).text.length
    · have hlist : fs.resolve (root.below names) = .error .nameTooLong :=
        resolve_below_of_long (resolve_eq_ok.mp hr).1 (hlead.isName hd) hfits hlong
      rw [listingFault?, if_pos hlong, list, node, hlist]
      rfl
    · obtain ⟨t, ht, hdir⟩ := exists_resolve_below hr htrail hd hlead (by simp) hfits hway
        (Nat.lt_of_not_le hlong)
      rw [listingFault?, if_neg hlong, list, node, ht]
      simp only [Except.map, hdir]
      cases readable <;> rfl

end FileSystem

/-! ## Walks -/

section
variable {fs : FileSystem} {root : Path} {entries : List (Name × Node)} {names : List Name}

theorem searchable_of_listed (root : Path) (h : ∀ above readable inner,
    Leads entries above (.directory readable inner) → above <+: names → above ≠ names →
      FileSystem.listingFault? (root.below above) readable = none) : Searchable entries names := by
  intro above readable inner hl hpre hne
  have hfault := h above readable inner hl hpre hne
  by_contra hr
  rw [FileSystem.listingFault?, Bool.eq_false_iff.mpr hr] at hfault
  split at hfault <;> cases hfault

/-- Where a walk can go everywhere, the file system lists every directory below the root by its
path. -/
theorem ReadableFrom.list_below (h : ReadableFrom fs root entries) (hs : fs.Sound) {readable : Bool}
    {inner : List (Name × Node)} (hlead : Leads entries names (.directory readable inner))
    (hfits : ∀ n ∈ names, Path.Fits n) : fs.list (root.below names) = .ok inner := by
  have hway : Searchable entries names :=
    searchable_of_listed root fun above readable' inner' hl _ _ => h.below above readable' inner' hl
  rw [FileSystem.list_below hs h.listed hlead hfits hway, h.below names readable inner hlead]

theorem lt_append (above : List Name) {rest : List Name} (hne : rest ≠ []) :
    above < above ++ rest := by
  induction above with
  | nil =>
    obtain ⟨n, rest, rfl⟩ := List.exists_cons_of_ne_nil hne
    exact List.nil_lt_cons n rest
  | cons n above ih => exact List.cons_lt_cons_iff.mpr (.inr ⟨rfl, ih⟩)

/-- What stands above the first directory that cannot be listed comes before it, so it can be
searched. -/
theorem Walk.FirstUnlisted.searchable {fault : FileSystem.Fault}
    (h : FirstUnlisted root entries names fault) : Searchable entries names := by
  refine searchable_of_listed root ?_
  intro above readable inner hl hpre hne
  rw [Option.eq_none_iff_forall_ne_some]
  intro fault' hfault
  obtain ⟨rest, rfl⟩ := hpre
  exact h.first above fault' ⟨readable, inner, hl, hfault⟩ (lt_append above (by simpa using hne))

/-- A walk stops with a path that the file system does not list, and with the fault that it
gives. -/
theorem Walk.StopsWith.list_eq (hs : fs.Sound) (hfits : ∀ entries names node,
      fs.list root = .ok entries → Leads entries names node → ∀ n ∈ names, Path.Fits n)
    {form : Form} {e : Error} (h : StopsWith fs form root e) :
    ∃ path encounter fault, e = .walk path encounter fault ∧ fs.list path = .error fault := by
  cases h with
  | root hl => exact ⟨_, _, _, rfl, hl⟩
  | @below entries names fault hl hfirst =>
    obtain ⟨readable, inner, hlead, hfault⟩ := hfirst.unlisted
    refine ⟨_, _, _, rfl, ?_⟩
    have hn := hlead.isName (FileSystem.list_sound hs hl)
    rw [← Path.below_eq_join root hn hlead.ne_nil, FileSystem.list_below hs hl hlead
      (hfits _ _ _ hl hlead) hfirst.searchable, hfault]

end

end ProjectScope
