import ProjectScope.Glob.Basic

/-!
Reading a written glob, one character at a time. A question mark, an asterisk and a bracketed class
are wildcards, braces enclose alternatives separated by commas, and a backslash takes the next
character as it is. Two asterisks that fill a whole segment stand for any number of directories: at
the start of a branch, between two slashes, or after a slash at the end. Which of these they are
shows only at the character after them, and then they take the place of the slash before them.
-/

namespace ProjectScope.Glob

inductive Fault
  | unclosedClass
  | invalidRange (first last : Char)
  | unopenedAlternates
  | unclosedAlternates
  | danglingEscape
deriving DecidableEq, Repr

def Fault.message : Fault → String
  | unclosedClass => "unclosed character class; missing ']'"
  | invalidRange first last =>
    "invalid range; '" ++ first.toString ++ "' > '" ++ last.toString ++ "'"
  | unopenedAlternates =>
    "unopened alternate group; missing '\x7b' (maybe escape '\x7d' with '[\x7d]'?)"
  | unclosedAlternates =>
    "unclosed alternate group; missing '\x7d' (maybe escape '\x7b' with '[\x7b]'?)"
  | danglingEscape => "dangling '\\'"

/-- A class that is being read, after its bracket and its negation. -/
structure ClassScan where
  negated : Bool
  /-- Nothing has been read yet, so that a closing bracket is a member. -/
  isFirst : Bool := true
  /-- A hyphen has been read after a member. -/
  inRange : Bool := false
  /-- The members, the latest first. -/
  ranges : List (Char × Char) := []

structure Group where
  /-- The branches before the current one, the latest first. -/
  branches : List Glob
  /-- The pieces before the group in its own branch, the latest first. -/
  before : List Glob

/-- What the scan is in the middle of. -/
inductive Mode
  | plain
  | star
  /-- Two asterisks have been read that may stand for directories. -/
  | stars
  | backslash
  | bracket
  | inClass (c : ClassScan)

structure Scan where
  /-- The pieces of the current branch, the latest first. -/
  pieces : List Glob := []
  /-- The groups around the current branch, the innermost first. -/
  groups : List Group := []
  mode : Mode := .plain
  /-- The character before the next one, or before the asterisks that have been read. -/
  previous : Option Char := none

namespace Scan

def push (s : Scan) (g : Glob) : Scan := { s with pieces := g :: s.pieces }

def pushAtom (s : Scan) (a : Atom) : Scan := s.push (.atom a)

/-- Goes on between pieces, after a character. -/
def after (s : Scan) (c : Char) : Scan := { s with mode := .plain, previous := some c }

/-- The asterisks that have been read stay inside a segment. -/
def pushStretches (s : Scan) : Scan := ((s.pushAtom .stretch).pushAtom .stretch).after '*'

/-- Two asterisks take the place of the piece before them, which is the slash that they need. What
stands for directories itself stays as it is. -/
def replaceLast (s : Scan) (a : Atom) : Scan :=
  match s.pieces with
  | [] => s.pushAtom a
  | .atom .descent :: _ | .atom .beneath :: _ => s
  | _ :: earlier => { s with pieces := .atom a :: earlier }

/-- Whether two asterisks may stand for directories here: at the start of a branch, after a slash,
or, inside a group, right after a comma or an opening brace. -/
def mayDescend (s : Scan) : Bool :=
  s.pieces.isEmpty || s.previous == some '/' ||
    (!s.groups.isEmpty && (s.previous == some ',' || s.previous == some '\x7b'))

def openGroup (s : Scan) : Scan := { s with pieces := [], groups := ⟨[], s.pieces⟩ :: s.groups }

/-- Ends a branch of a group, or adds the comma where no group is open. -/
def comma (s : Scan) : Scan :=
  match s.groups with
  | [] => s.pushAtom (.literal ',')
  | g :: outer =>
    let g := { g with branches := ofPieces s.pieces :: g.branches }
    { s with pieces := [], groups := g :: outer }

def closeGroup (s : Scan) : Except Fault Scan :=
  match s.groups with
  | [] => .error .unopenedAlternates
  | g :: outer =>
    .ok { s with
      pieces := ofBranches (ofPieces s.pieces :: g.branches).reverse :: g.before, groups := outer }

/-- One more character between pieces. -/
def stepPlain (s : Scan) (c : Char) : Except Fault Scan :=
  match c with
  | '?' => .ok ((s.pushAtom .any).after c)
  | '*' => .ok { s with mode := .star }
  | '[' => .ok { s with mode := .bracket, previous := some c }
  | '\x7b' => .ok (s.openGroup.after c)
  | '\x7d' => s.closeGroup.map (·.after c)
  | ',' => .ok (s.comma.after c)
  | '\\' => .ok { s with mode := .backslash, previous := some c }
  | c => .ok ((s.pushAtom (.literal c)).after c)

/-- Ends the range of the latest member at a character. -/
def endRange (c : ClassScan) (last : Char) : Except Fault ClassScan :=
  match c.ranges with
  | [] => .ok c
  | (first, _) :: earlier =>
    if last < first then .error (.invalidRange first last)
    else .ok { c with isFirst := false, inRange := false, ranges := (first, last) :: earlier }

def addMember (c : ClassScan) (member : Char) : ClassScan :=
  { c with isFirst := false, inRange := false, ranges := (member, member) :: c.ranges }

/-- Ends a class; a hyphen before the closing bracket is a member. -/
def closeClass (s : Scan) (c : ClassScan) : Scan :=
  let c := if c.inRange then addMember c '-' else c
  (s.pushAtom (.oneOf c.negated c.ranges.reverse)).after ']'

def stepClass (s : Scan) (c : ClassScan) (x : Char) : Except Fault Scan :=
  if x = ']' ∧ !c.isFirst then .ok (s.closeClass c)
  else if x = '-' ∧ !c.isFirst ∧ !c.inRange then
    .ok { s with mode := .inClass { c with inRange := true } }
  else if x ≠ ']' ∧ c.inRange then do return { s with mode := .inClass (← endRange c x) }
  else .ok { s with mode := .inClass (addMember c x) }

/-- The character after two asterisks that may stand for directories. -/
def stepStars (s : Scan) (c : Char) : Except Fault Scan :=
  if c = '/' then
    .ok ((if s.pieces.isEmpty then s.pushAtom .descent else s.replaceLast .between).after c)
  else if !s.pieces.isEmpty ∧ !s.groups.isEmpty ∧ (c = ',' ∨ c = '\x7d') then
    ((s.replaceLast .beneath).after '*').stepPlain c
  else s.pushStretches.stepPlain c

def step (s : Scan) (c : Char) : Except Fault Scan :=
  match s.mode with
  | .plain => s.stepPlain c
  | .star =>
    if c = '*' then .ok (if s.mayDescend then { s with mode := .stars } else s.pushStretches)
    else ((s.pushAtom .stretch).after '*').stepPlain c
  | .stars => s.stepStars c
  | .backslash => .ok ((s.pushAtom (.literal c)).after c)
  | .bracket =>
    if c = '!' ∨ c = '^' then .ok { s with mode := .inClass { negated := true } }
    else s.stepClass { negated := false } c
  | .inClass k => s.stepClass k c

/-- Settles what has been read when the text ends; fails in the middle of a class or an escape. -/
def settle (s : Scan) : Except Fault Scan :=
  match s.mode with
  | .plain => .ok s
  | .star => .ok ((s.pushAtom .stretch).after '*')
  | .stars =>
    .ok ((if s.pieces.isEmpty then s.pushAtom .descent else s.replaceLast .beneath).after '*')
  | .backslash => .error .danglingEscape
  | .bracket | .inClass _ => .error .unclosedClass

/-- The glob of a text that has been read to its end. Two asterisks that are the whole of it match
everything. -/
def finish (s : Scan) : Except Fault Glob := do
  let s ← s.settle
  if s.groups.isEmpty then
    if s.pieces = [.atom .descent] then return .atom .everything else return ofPieces s.pieces
  else throw .unclosedAlternates

end Scan

def read (text : List Char) : Except Fault Glob := do
  (← text.foldlM Scan.step {}).finish

end ProjectScope.Glob
