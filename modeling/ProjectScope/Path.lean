import ProjectScope.Text.Utf8

/-!
Paths as text and as components. A path keeps its text, which is any bytes; its components leave out
what has no effect: empty segments, and a dot anywhere but at the start. Parents are taken from the
text, so that what stands before the last component keeps its spelling. Nothing here looks at a file
system: a double dot is a component like any other.
-/

namespace ProjectScope

/-- The name of an entry of a directory. -/
abbrev Name := Bytes

structure Path where
  text : Bytes
deriving DecidableEq, Repr, Inhabited

namespace Path

/-- The byte between segments. -/
def separator : UInt8 := '/'.toUInt8

/-- The segment that stands for the directory itself. -/
def dot : Name := ['.'.toUInt8]

/-- The segment that stands for the parent directory. -/
def dotDot : Name := ['.'.toUInt8, '.'.toUInt8]

/-- A part of a path that has an effect. -/
inductive Component
  /-- The separator at the start. -/
  | root
  /-- A dot at the start. -/
  | here
  | up
  | name (n : Name)
deriving DecidableEq, Repr

namespace Component

/-- The segment that a component is written as. -/
def text : Component → Bytes
  | root => [separator]
  | here => dot
  | up => dotDot
  | name n => n

/-- The component of a segment after the first. -/
def ofSegment? (segment : Bytes) : Option Component :=
  if segment = [] ∨ segment = dot then none
  else if segment = dotDot then some up
  else some (name segment)

end Component

def ofString (s : String) : Path := ⟨Utf8.encodeString s⟩

def isAbsolute (p : Path) : Bool := p.text.head? == some separator

/-- Cuts a text at its separators: every segment, with the text up to its end. `before` is the text
so far and `segment` the segment so far, both the latest byte first. -/
def cut (before segment : Bytes) : Bytes → List (Bytes × Bytes)
  | [] => [(segment.reverse, before.reverse)]
  | b :: s =>
    if b = separator then (segment.reverse, before.reverse) :: cut (b :: before) [] s
    else cut (b :: before) (b :: segment) s

/-- The components of segments after the first, each with the text up to its end. -/
def stopsOf (segments : List (Bytes × Bytes)) : List (Component × Bytes) :=
  segments.filterMap fun (segment, upTo) => (Component.ofSegment? segment).map (·, upTo)

/-- The components of a path, each with the text up to its end. -/
def stops (p : Path) : List (Component × Bytes) :=
  match cut [] [] p.text with
  | [] => []
  | (first, upTo) :: rest =>
    if p.isAbsolute then (.root, [separator]) :: stopsOf rest
    else if first = dot then (.here, upTo) :: stopsOf rest
    else stopsOf ((first, upTo) :: rest)

def components (p : Path) : List Component := p.stops.map Prod.fst

/-- A path and what is left of it as its last components are taken away one by one. A relative path
ends with the empty one. -/
def ancestors (p : Path) : List Path :=
  p :: (p.stops.dropLast.reverse.map fun stop => ⟨stop.2⟩) ++
    (if p.isAbsolute ∨ p.stops = [] then [] else [⟨[]⟩])

def parent? (p : Path) : Option Path := p.ancestors[1]?

/-- A path followed by another, which takes its place if it is absolute. -/
def join (p q : Path) : Path :=
  if q.isAbsolute then q
  else if p.text = [] ∨ p.text.getLast? = some separator then ⟨p.text ++ q.text⟩
  else ⟨p.text ++ separator :: q.text⟩

def joinName (p : Path) (n : Name) : Path := p.join ⟨n⟩

/-- The path of names below the root. -/
def ofNames (names : List Name) : Path :=
  if names = [] then ⟨[separator]⟩ else ⟨names.flatMap (separator :: ·)⟩

/-- A path seen from a working directory; the empty path has no such form. Dots and empty segments
go, double dots stay, and so does a separator at the end. Exactly two separators at the start are
kept. -/
def absolute? (cwd p : Path) : Option Path :=
  if p.text = [] then none
  else
    let components := if p.components.head? = some .here then p.components.tail else p.components
    let twoSlashes := p.text.take 2 = [separator, separator] ∧ p.text[2]? ≠ some separator
    let (base, components) : Path × List Component :=
      if !p.isAbsolute then (cwd, components)
      else if twoSlashes then (⟨[separator, separator]⟩, components.tail)
      else (⟨[]⟩, components)
    let whole := components.foldl (fun path c => path.join ⟨c.text⟩) base
    some (if p.text.getLast? = some separator then whole.join ⟨[]⟩ else whole)

/-- The text that the last components of a path take up in it, from the start of the first to the
end of the last. -/
def textOf : List (Component × Bytes) → Bytes
  | [] => []
  | (c, upTo) :: stops =>
    let last := ((c, upTo) :: stops).getLast (List.cons_ne_nil _ _)
    last.2.drop (upTo.length - c.text.length)

/-- What a path adds to a root, as it is written in the path; `none` if the path is not below the
root. The two are compared by components. -/
def relativeTo? (p root : Path) : Option Path :=
  if root.components <+: p.components then some ⟨textOf (p.stops.drop root.components.length)⟩
  else none

def sameAs (p q : Path) : Bool := p.components == q.components

end Path

end ProjectScope
