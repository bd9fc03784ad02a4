import ProjectScope.Path

/-!
Globs and the byte texts they match. A glob is put together from atoms one after the other and from
alternatives. Matching keeps one mark for every place in the text, from its start to its end: given
the places from which the rest of a glob matches up to the end, an atom gives the places from which
it and that rest do. Each atom takes one pass over the text.
-/

namespace ProjectScope

namespace Glob

/-- The smallest parts of a glob. -/
inductive Atom
  /-- The bytes of one character. -/
  | literal (c : Char)
  /-- One byte other than a slash. -/
  | any
  /-- Bytes other than slashes, or none. -/
  | stretch
  /-- One byte of a class, or one outside it. -/
  | oneOf (negated : Bool) (ranges : List (Char × Char))
  /-- Nothing, or all up to a slash. -/
  | descent
  /-- A slash and all after it. -/
  | beneath
  /-- A slash, or all from one slash to another. -/
  | between
  | everything
deriving DecidableEq, Repr

/-- Whether a class holds a byte. A character on its own brings in each of its bytes. A range runs
from the last byte of its first character to the first byte of its last, and the other bytes of both
count as well. -/
def classHas (ranges : List (Char × Char)) (b : UInt8) : Bool :=
  ranges.any fun (x, y) =>
    let xs := String.utf8EncodeChar x
    let ys := String.utf8EncodeChar y
    if x = y then xs.contains b
    else
      xs.dropLast.contains b || (xs.getLastD 0 ≤ b && b ≤ ys.headD 0) || ys.tail.contains b

/-- One mark for each place in a text, the place after its last byte included. -/
abbrev Marks := List Bool

namespace Marks

/-- Only the end of the text is marked. -/
def atEnd (s : Bytes) : Marks := s.map (fun _ => false) ++ [true]

/-- The places followed by one byte of a kind and then by a marked place. -/
def byte (kind : UInt8 → Bool) : Bytes → Marks → Marks
  | b :: s, _ :: marks => (kind b && marks.headD false) :: byte kind s marks
  | _, _ => [false]

/-- The places followed by any number of bytes of a kind and then by a marked place. -/
def bytes (kind : UInt8 → Bool) : Bytes → Marks → Marks
  | b :: s, here :: marks =>
    let later := bytes kind s marks
    (here || kind b && later.headD false) :: later
  | _, marks => marks

def or (left right : Marks) : Marks := List.zipWith Bool.or left right

end Marks

namespace Atom

def beforeSlash (s : Bytes) (marks : Marks) : Marks := Marks.byte (· == Path.separator) s marks

/-- The marks before any bytes at all. -/
def beforeAll (s : Bytes) (marks : Marks) : Marks := Marks.bytes (fun _ => true) s marks

/-- The marks before nothing or all up to a slash. -/
def beforeDescent (s : Bytes) (marks : Marks) : Marks :=
  marks.or (beforeAll s (beforeSlash s marks))

/-- The places in a text from which an atom leads to a marked place. -/
def marks : Atom → Bytes → Marks → Marks
  | literal c, s, after =>
    (String.utf8EncodeChar c).foldr (fun b after => Marks.byte (· == b) s after) after
  | any, s, after => Marks.byte (· != Path.separator) s after
  | stretch, s, after => Marks.bytes (· != Path.separator) s after
  | oneOf negated ranges, s, after => Marks.byte (fun b => classHas ranges b != negated) s after
  | descent, s, after => beforeDescent s after
  | beneath, s, after => beforeSlash s (beforeAll s after)
  | between, s, after => beforeSlash s (beforeDescent s after)
  | everything, s, after => beforeAll s after

end Atom

end Glob

inductive Glob
  | nothing
  | atom (a : Glob.Atom)
  | seq (first second : Glob)
  | either (left right : Glob)
deriving DecidableEq, Repr

namespace Glob

/-- The places in a text from which a glob leads to a marked place. -/
def marks : Glob → Bytes → Marks → Marks
  | nothing, _, after => after
  | atom a, s, after => a.marks s after
  | seq g h, s, after => g.marks s (h.marks s after)
  | either g h, s, after => (g.marks s after).or (h.marks s after)

/-- Whether a glob matches the whole of a text. -/
def accepts (g : Glob) (s : Bytes) : Bool := (g.marks s (Marks.atEnd s)).headD false

/-- Whether a glob is put together from no atom at all. -/
def isBlank : Glob → Bool
  | nothing => true
  | atom _ => false
  | seq g h => g.isBlank && h.isBlank
  | either g h => g.isBlank && h.isBlank

/-- Pieces one after the other, given the last one first. -/
def ofPieces (latestFirst : List Glob) : Glob := latestFirst.foldl (fun g p => seq p g) nothing

/-- The choice between branches. Blank branches do not count; if there is no other, the choice is
blank too. -/
def ofBranches (branches : List Glob) : Glob :=
  match branches.filter (!·.isBlank) with
  | [] => nothing
  | g :: gs => gs.foldl either g

end Glob

end ProjectScope
