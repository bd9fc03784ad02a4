import ProjectScope.Proofs.WalkResult

/-! # What stands on the stack of the suspending walk

The loop of the suspending walk is taken apart into rounds, each on the entry from the top of the
stack (`drain_cons`). A round takes one sight off what lies ahead of the stack and leaves the rest
as it is (`ahead_round`), and the files found so far with those still ahead stay the same list
(`Rounds.files_eq`). So what is ahead shrinks with each round, although a directory brings a whole
batch onto the stack, and the loop ends with every entry below the root taken once. Main statement:
`stack_holds_the_rest`. -/
namespace ProjectScope.Walk

/-! ## Rounds -/

/-- The loop between two rounds. -/
structure Loop where
  /-- The files found so far. -/
  accepted : List Path
  /-- What is still to be visited, the top first. -/
  stack : List Pending

variable (fs : FileSystem) (rules : Rules) (root : Path)

/-- One round, on the entry that is taken off the stack. -/
def round (accepted : List Path) (top : Pending) (stack : List Pending) : Logged Loop :=
  match top.node with
  | .directory readable entries =>
    match FileSystem.listingFault? top.path readable with
    | some fault => Logged.fail (.walk top.path .listing fault)
    | none => pure ⟨accepted, batch top.path entries ++ stack⟩
  | node => do
    let found ← visit fs rules root top.path node.kind
    return ⟨accepted ++ found.toList, stack⟩

theorem drain_cons (accepted : List Path) (top : Pending) (stack : List Pending) :
    drain fs rules root accepted (top :: stack) =
      round fs rules root accepted top stack >>= fun s =>
        drain fs rules root s.accepted s.stack := by
  obtain ⟨path, node⟩ := top
  cases node with
  | directory readable entries =>
    rw [drain, round]
    dsimp only
    cases FileSystem.listingFault? path readable with
    | some fault => rfl
    | none => simp only [pure_bind]
  | file content readable => simp [drain, round]
  | fifo => simp [drain, round]
  | link target => simp [drain, round]

/-- The loop comes from one state to another and takes these entries off its stack on the way, the
first one first. -/
inductive Rounds : Loop → List Pending → Loop → Prop
  | none {s} : Rounds s [] s
  | next {accepted top stack s popped t} : (round fs rules root accepted top stack).result = .ok s →
      Rounds s popped t → Rounds ⟨accepted, top :: stack⟩ (top :: popped) t

/-! ## Files ahead -/

/-- The file in scope that a sight is, as a relative path. -/
def fileAt? (sight : Sight) : Option Path :=
  (sight.1.relativeTo? root).filter fun relative =>
    countsAsFile fs sight.1 sight.2.kind &&
      rules.classify (Utf8.lossy relative.text) == .included

/-- The files in scope of a pending entry and of all beneath it, in the order of the layout. -/
def filesFrom (p : Pending) : List Path :=
  (sightsOf p.path p.node).filterMap (fileAt? fs rules root)

/-- The files in scope ahead of a stack, from its top down. -/
def filesAhead (stack : List Pending) : List Path := stack.flatMap (filesFrom fs rules root)

theorem filesAhead_eq (stack : List Pending) :
    filesAhead fs rules root stack = (ahead stack).filterMap (fileAt? fs rules root) := by
  rw [ahead, List.filterMap_flatMap]
  rfl

variable {fs rules root}

theorem fileAt?_of_visit {sight : Sight} {found : Option Path}
    (h : (visit fs rules root sight.1 sight.2.kind).result = .ok found) :
    fileAt? fs rules root sight = found := by
  cases hrel : sight.1.relativeTo? root with
  | some relative =>
    rw [visit_result fs rules _ hrel] at h
    rw [fileAt?, hrel, Option.filter_some, ← Except.ok.inj h]
    simp
  | none =>
    -- What does not lie below the root is passed over only if it is no file.
    have hnone : countsAsFile fs sight.1 sight.2.kind ≠ true := by
      intro hcounts
      rw [visit, if_pos hcounts, hrel] at h
      cases h
    rw [visit, if_neg hnone] at h
    rw [fileAt?, hrel, Option.filter_none]
    exact Except.ok.inj h

/-! ## What a round does -/

def Pending.sight (p : Pending) : Sight := (p.path, p.node)

section
variable {accepted : List Path} {top : Pending} {stack : List Pending} {s : Loop}

/-- A directory that can be listed makes way for its entries. Anything else goes, and is added to
the files found if it is one in scope. -/
theorem round_eq_ok (h : (round fs rules root accepted top stack).result = .ok s) :
    (∃ path readable entries, top = ⟨path, .directory readable entries⟩ ∧
      s = ⟨accepted, batch path entries ++ stack⟩) ∨
    sightsOf top.path top.node = [top.sight] ∧
      s = ⟨accepted ++ (fileAt? fs rules root top.sight).toList, stack⟩ := by
  obtain ⟨path, node⟩ := top
  unfold round at h
  split at h
  · rename_i readable entries hnode
    dsimp only at hnode h
    subst hnode
    split at h
    · cases h
    · exact .inl ⟨path, readable, entries, rfl, (Except.ok.inj h).symm⟩
  · rename_i hother
    obtain ⟨found, hvisit, hs⟩ := Logged.result_bind_eq_ok.mp h
    obtain rfl := Except.ok.inj hs
    have hfile : fileAt? fs rules root (path, node) = found := fileAt?_of_visit hvisit
    exact .inr ⟨sightsOf_other path hother, by rw [Pending.sight, hfile]⟩

theorem ahead_round (h : (round fs rules root accepted top stack).result = .ok s) :
    ahead (top :: stack) = top.sight :: ahead s.stack := by
  rw [ahead_cons]
  rcases round_eq_ok h with ⟨path, readable, entries, rfl, rfl⟩ | ⟨hone, rfl⟩
  · rw [sightsOf_directory, ahead_batch]
    rfl
  · rw [hone]
    rfl

theorem accepted_round (h : (round fs rules root accepted top stack).result = .ok s) :
    s.accepted = accepted ++ (fileAt? fs rules root top.sight).toList := by
  rcases round_eq_ok h with ⟨path, readable, entries, rfl, rfl⟩ | ⟨-, rfl⟩
  · have hnone : fileAt? fs rules root (path, .directory readable entries) = none := by
      simp [fileAt?, countsAsFile, Node.kind]
    rw [Pending.sight, hnone, Option.toList_none, List.append_nil]
  · rfl

/-- A round fails only at a directory that cannot be listed or outside the root. -/
theorem exists_round (accepted : List Path) (stack : List Pending)
    (hfault : faultAt? top.path top.node = none)
    (hrel : ∃ relative, top.path.relativeTo? root = some relative) :
    ∃ s, (round fs rules root accepted top stack).result = .ok s := by
  obtain ⟨relative, hrel⟩ := hrel
  have hvisit := visit_result fs rules top.node.kind hrel
  unfold round
  split
  · rename_i readable entries hnode
    rw [hnode, faultAt?] at hfault
    rw [hfault]
    exact ⟨_, rfl⟩
  · exact ⟨_, Logged.result_bind_eq_ok.mpr ⟨_, hvisit, rfl⟩⟩

end

/-! ## What a run of rounds does -/

section
variable {s t u : Loop} {popped rest : List Pending}

theorem Rounds.trans (h : Rounds fs rules root s popped t) (h' : Rounds fs rules root t rest u) :
    Rounds fs rules root s (popped ++ rest) u := by
  induction h with
  | none => exact h'
  | next hround _ ih => exact .next hround (ih h')

theorem Rounds.ahead_eq (h : Rounds fs rules root s popped t) :
    ahead s.stack = popped.map Pending.sight ++ ahead t.stack := by
  induction h with
  | none => rfl
  | next hround _ ih => rw [ahead_round hround, ih, List.map_cons, List.cons_append]

/-- The files found with those still ahead are the same list after any number of rounds. -/
theorem Rounds.files_eq (h : Rounds fs rules root s popped t) :
    t.accepted ++ filesAhead fs rules root t.stack =
      s.accepted ++ filesAhead fs rules root s.stack := by
  induction h with
  | none => rfl
  | next hround _ ih =>
    rw [ih, accepted_round hround, filesAhead_eq, filesAhead_eq, ahead_round hround,
      List.append_assoc, List.filterMap_cons]
    cases fileAt? fs rules root _ <;> rfl

theorem Rounds.drain_eq (h : Rounds fs rules root s popped t) :
    (drain fs rules root s.accepted s.stack).result =
      (drain fs rules root t.accepted t.stack).result := by
  induction h with
  | none => rfl
  | next hround _ ih => rw [drain_cons, Logged.bind_of_ok hround, ← ih]

theorem ahead_nil : ahead [] = [] := rfl

theorem exists_ahead_cons (top : Pending) (stack : List Pending) :
    ∃ sights, ahead (top :: stack) = top.sight :: sights := by
  obtain ⟨path, node⟩ := top
  rw [ahead_cons]
  cases node with
  | directory readable entries => exact ⟨_, by rw [sightsOf_directory]; rfl⟩
  | file content readable => exact ⟨_, rfl⟩
  | fifo => exact ⟨_, rfl⟩
  | link target => exact ⟨_, rfl⟩

/-- A sight that a walk from the root can go past. -/
def Passable (root : Path) (sight : Sight) : Prop :=
  faultAt? sight.1 sight.2 = none ∧ ∃ relative, sight.1.relativeTo? root = some relative

/-- Where every sight ahead can be passed, the loop comes to its end. -/
theorem exists_rounds (fs : FileSystem) (rules : Rules)
    (h : ∀ sight ∈ ahead s.stack, Passable root sight) :
    ∃ popped files, Rounds fs rules root s popped ⟨files, []⟩ := by
  -- The measure is what lies ahead: the stack itself may grow.
  generalize hsights : ahead s.stack = sights at h
  induction sights generalizing s with
  | nil =>
    obtain ⟨accepted, stack⟩ := s
    cases stack with
    | nil => exact ⟨[], accepted, .none⟩
    | cons top stack =>
      obtain ⟨sights, hcons⟩ := exists_ahead_cons top stack
      cases hcons.symm.trans hsights
  | cons sight sights ih =>
    obtain ⟨accepted, stack⟩ := s
    cases stack with
    | nil => cases hsights
    | cons top stack =>
      obtain ⟨hfirst, hrest⟩ := List.forall_mem_cons.mp h
      obtain ⟨_, hcons⟩ := exists_ahead_cons top stack
      obtain ⟨rfl, -⟩ := List.cons.inj (hcons.symm.trans hsights)
      obtain ⟨s, hround⟩ := exists_round accepted stack hfirst.1 hfirst.2
      have hahead := (List.cons.inj ((ahead_round hround).symm.trans hsights)).2
      obtain ⟨popped, files, hrounds⟩ := ih hahead hrest
      exact ⟨top :: popped, files, .next hround hrounds⟩

end

/-! ## The whole loop -/

variable {entries : List (Name × Node)}

/-- Every entry reached from the root through real directories has been taken off the stack once,
and nothing else has. -/
structure EachOnce (root : Path) (entries : List (Name × Node)) (popped : List Pending) : Prop where
  mem_iff : ∀ p, p ∈ popped ↔ ∃ names, Leads entries names p.node ∧ p.path = root.below names
  nodup : (popped.map Pending.path).Nodup

theorem below_injective {xs ys : List Name} (hx : ∀ n ∈ xs, Path.IsName n)
    (hy : ∀ n ∈ ys, Path.IsName n) (h : root.below xs = root.below ys) : xs = ys := by
  have hrel := Path.relativeTo?_below hx root
  rw [h, Path.relativeTo?_below hy root] at hrel
  exact (Path.relative_injective hy hx (Option.some.inj hrel)).symm

theorem mem_sightsBelow {sight : Sight} : sight ∈ sightsBelow root entries ↔
    ∃ names, Leads entries names sight.2 ∧ sight.1 = root.below names := by
  rw [sightsBelow, List.mem_map]
  refine ⟨?_, ?_⟩
  · rintro ⟨⟨names, node⟩, hm, rfl⟩
    exact ⟨names, mem_layout_iff.mp hm, rfl⟩
  · rintro ⟨names, hl, hpath⟩
    exact ⟨(names, sight.2), mem_layout_iff.mpr hl, Prod.ext hpath.symm rfl⟩

theorem eachOnce_of_sights {readable : Bool} (hd : (Node.directory readable entries).Sound)
    {popped : List Pending} (h : popped.map Pending.sight = sightsBelow root entries) :
    EachOnce root entries popped := by
  refine ⟨?_, ?_⟩
  · intro p
    have hinj : Function.Injective Pending.sight := by
      rintro ⟨path, node⟩ ⟨path', node'⟩ he
      cases he
      rfl
    rw [← List.mem_map_of_injective hinj, h, mem_sightsBelow]
    rfl
  · have hpaths : popped.map Pending.path =
        (layout entries).map fun place => root.below place.1 := by
      rw [show Pending.path = Prod.fst ∘ Pending.sight from rfl, ← List.map_map, h, sightsBelow,
        List.map_map]
      rfl
    rw [hpaths, List.nodup_iff_pairwise_ne, List.pairwise_map]
    refine (layout_pairwise hd).imp_of_mem ?_
    intro a b ha hb hlt heq
    have hnames := below_injective ((mem_layout_iff.mp ha).isName hd)
      ((mem_layout_iff.mp hb).isName hd) heq
    rw [hnames] at hlt
    exact List.lt_irrefl _ hlt

theorem passable_of_readable (hs : fs.Sound) (hr : ReadableFrom fs root entries) :
    ∀ sight ∈ sightsBelow root entries, Passable root sight := by
  intro sight hm
  obtain ⟨names, hl, hpath⟩ := mem_sightsBelow.mp hm
  have hnames := hl.isName (FileSystem.list_sound hs hr.listed)
  rw [Passable, hpath]
  exact ⟨faultAt?_of_readable hr hl, _, Path.relativeTo?_below hnames root⟩

/-! ## How many rounds there are -/

theorem length_flatMap_layout {entries : List (Name × Node)}
    (h : ∀ e ∈ entries, e.2.layout.length = e.2.size) :
    (entries.flatMap fun e => e.2.layout.map (Place.under e.1)).length =
      Node.sizeOfEntries entries := by
  induction entries with
  | nil => rfl
  | cons e entries ih =>
    obtain ⟨hfirst, hrest⟩ := List.forall_mem_cons.mp h
    rw [List.flatMap_cons, List.length_append, List.length_map, hfirst, ih hrest,
      Node.sizeOfEntries]

theorem length_layout (node : Node) : node.layout.length = node.size := by
  induction node using Node.induct with
  | file content readable => rfl
  | fifo => rfl
  | link target => rfl
  | directory readable entries ih =>
    have hentries := length_flatMap_layout fun e he => ih e (mem_sortByKey.mp he)
    rw [layout_directory, List.length_cons, layout, hentries,
      sizeOfEntries_perm (sortByKey_perm entries), Node.size, Nat.add_comm]

theorem length_ahead (stack : List Pending) : (ahead stack).length = sizeOfStack stack := by
  induction stack with
  | nil => rfl
  | cons p stack ih =>
    rw [ahead_cons, List.length_append, sightsOf, List.length_map, length_layout, ih, sizeOfStack]

/-- Each round takes one from the total size of what is still to be visited. -/
theorem Rounds.size_eq {s t : Loop} {popped : List Pending}
    (h : Rounds fs rules root s popped t) :
    popped.length + sizeOfStack t.stack = sizeOfStack s.stack := by
  rw [← length_ahead, ← length_ahead, h.ahead_eq, List.length_append, List.length_map]

/-! ## The invariant -/

/-- After any number of rounds, the files found with those still ahead of the stack are the final
result. The rounds so far and the nodes still to be visited make up the size of the tree, and the
loop goes on to its end, by which each entry below the root has been taken off the stack once. -/
theorem stack_holds_the_rest (rules : Rules) (hs : fs.Sound) (hr : ReadableFrom fs root entries) :
    ∃ files, (run .suspending fs rules root).result = .ok files ∧
      ∀ popped s, Rounds fs rules root ⟨[], batch root entries⟩ popped s →
        s.accepted ++ filesAhead fs rules root s.stack = files ∧
        (drain fs rules root s.accepted s.stack).result = .ok files ∧
        popped.length + sizeOfStack s.stack = Node.sizeOfEntries entries ∧
        ∃ rest, Rounds fs rules root s rest ⟨files, []⟩ ∧
          EachOnce root entries (popped ++ rest) := by
  have hstart : ahead (batch root entries) = sightsBelow root entries := by
    have hbatch := ahead_batch root entries []
    rwa [List.append_nil, ahead_nil, List.append_nil] at hbatch
  have hpassable := passable_of_readable hs hr
  obtain ⟨all, files, hall⟩ :=
    exists_rounds (s := ⟨[], batch root entries⟩) fs rules (hstart ▸ hpassable)
  have hdrained : (drain fs rules root files []).result = .ok files := by rw [drain]; rfl
  have hrun : (run .suspending fs rules root).result = .ok files := by
    rw [run, suspending, hr.listed]
    exact hall.drain_eq.trans hdrained
  refine ⟨files, hrun, ?_⟩
  intro popped s hrounds
  have hresult : (drain fs rules root s.accepted s.stack).result = .ok files :=
    hrounds.drain_eq.symm.trans (hall.drain_eq.trans hdrained)
  -- What lies ahead now lay ahead at the start, so the rounds can go on.
  have hrest : ∀ sight ∈ ahead s.stack, Passable root sight := by
    intro sight hm
    refine hpassable sight ?_
    rw [← hstart, hrounds.ahead_eq]
    exact List.mem_append_right _ hm
  obtain ⟨rest, files', hend⟩ := exists_rounds fs rules hrest
  obtain rfl : files' = files := by
    have hsame := hend.drain_eq.symm.trans hresult
    rw [drain] at hsame
    exact Except.ok.inj hsame
  have hwhole := (hrounds.trans hend).ahead_eq
  rw [hstart, ahead_nil, List.append_nil] at hwhole
  refine ⟨?_, hresult, ?_, rest, hend, ?_⟩
  · rw [← hend.files_eq]
    exact List.append_nil files'
  · rw [hrounds.size_eq, sizeOfStack_batch]
  · exact eachOnce_of_sights (FileSystem.list_sound hs hr.listed) hwhole.symm

/-- The directory on top of the stack at the start. One of its links leads back to the root. -/
def sampleTop : Pending where
  path := .ofString "./a"
  node := .directory true [(sampleName "x", .file [] true),
    (sampleName "l", .link (sampleName "x")), (sampleName "d", .link (sampleName ".."))]

def sampleRest : List Pending :=
  [⟨.ofString "./a/d", .link (sampleName "..")⟩, ⟨.ofString "./a/l", .link (sampleName "x")⟩,
    ⟨.ofString "./a/x", .file [] true⟩, ⟨.ofString "./a-b", .file [] true⟩,
    ⟨.ofString "./p", .fifo⟩]

theorem sample_rounds_go_on :
    (sampleTree.Sound ∧ ReadableFrom sampleTree ⟨Path.dot⟩ sampleEntries ∧
      Rounds sampleTree sampleRules ⟨Path.dot⟩ ⟨[], batch ⟨Path.dot⟩ sampleEntries⟩ [sampleTop]
        ⟨[], sampleRest⟩) ∧
    filesAhead sampleTree sampleRules ⟨Path.dot⟩ sampleRest =
      [.ofString "a/l", .ofString "a/x", .ofString "a-b"] ∧
    ∃ rest, Rounds sampleTree sampleRules ⟨Path.dot⟩ ⟨[], sampleRest⟩ rest
        ⟨[.ofString "a/l", .ofString "a/x", .ofString "a-b"], []⟩ ∧
      EachOnce ⟨Path.dot⟩ sampleEntries (sampleTop :: rest) := by
  have hround : Rounds sampleTree sampleRules ⟨Path.dot⟩ ⟨[], batch ⟨Path.dot⟩ sampleEntries⟩
      [sampleTop] ⟨[], sampleRest⟩ := .next rfl .none
  obtain ⟨files, hrun, hstates⟩ :=
    stack_holds_the_rest sampleRules sampleTree_sound sampleTree_readable
  have hfiles : filesInScope sampleTree sampleRules ⟨Path.dot⟩ sampleEntries =
      [.ofString "a/l", .ofString "a/x", .ofString "a-b"] := by decide
  rw [run_ok .suspending sampleTree_sound sampleTree_readable, hfiles] at hrun
  obtain rfl := Except.ok.inj hrun
  obtain ⟨hinvariant, -, -, hrest⟩ := hstates _ _ hround
  exact ⟨⟨sampleTree_sound, sampleTree_readable, hround⟩, hinvariant, hrest⟩

end ProjectScope.Walk
