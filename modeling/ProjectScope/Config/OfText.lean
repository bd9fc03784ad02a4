import ProjectScope.Config.Basic
import ProjectScope.Json.Reader

/-!
The strict reading of a configuration straight from its text, in one pass: the first fault in text
order is the one reported, whether it lies in the grammar or in the shape of a value. Fields of
unknown names are skipped, and a known field may stand only once.
-/

namespace ProjectScope

open Json (Token Fault)

namespace Config.OfText

/-- Takes what it reads off the front of the tokens. -/
abbrev Reading (α : Type) := List Token → Except Fault (α × List Token)

/-- The fault of meeting a token where a value of another shape is wanted. A scalar is read to its
end first, so a fault inside it comes before its being of the wrong shape. -/
def unwanted : Token → Fault
  | .null | .bool _ | .number (some _) | .string (some _) | .openList | .openObject => .mismatched
  | .broken _ read _ => read
  | _ => .malformed

/-- The fault of meeting the first of some tokens, or the end of the text. -/
def refuse {α : Type} : Reading α
  | [] => .error .endOfText
  | t :: _ => .error (unwanted t)

/-- The fault of meeting the first of some tokens where punctuation is wanted. -/
def stop {α : Type} : Reading α
  | [] => .error .endOfText
  | _ :: _ => .error .malformed

/-- Reads the colon after a name, then a value. -/
def afterColon {α : Type} (readValue : Reading α) : Reading α
  | .colon :: ts => readValue ts
  | ts => stop ts

/-- What may come next in a list. -/
inductive Place
  | first
  | item
  | afterItem

/-- Reads strings up to the end of their list; `found` holds those before, the latest first. -/
def strings (found : List String) : Place → Reading (List String)
  | .first, .closeList :: ts | .afterItem, .closeList :: ts => .ok (found.reverse, ts)
  | .first, .string (some s) :: ts | .item, .string (some s) :: ts =>
    strings (s :: found) .afterItem ts
  | .afterItem, .comma :: ts => strings found .item ts
  | .first, ts | .item, ts => refuse ts
  | .afterItem, ts => stop ts

def optionalStrings : Reading (Option (List String))
  | .null :: ts => .ok (none, ts)
  | .openList :: ts => (strings [] .first ts).map fun (ss, ts) => (some ss, ts)
  | ts => refuse ts

/-- The reader of a known field that may still come, nothing for an unknown field. -/
abbrev FieldChoice (σ : Type) := σ → String → Except Fault (Option (Reading σ))

/-- Reads what comes after the name of a field, up to its end. -/
def fieldValue {σ : Type} (field : FieldChoice σ) (s : σ) (name : String) : Reading σ
  | ts => do
    match ← field s name with
    | some readField => afterColon readField ts
    | none => afterColon (fun ts => (Json.skipValue ts).map fun ts => (s, ts)) ts

/-- Goes on after a field: with more of them, or past the end of the object. -/
def afterField {σ : Type} (more : σ → Reading σ) (s : σ) : Reading σ
  | .comma :: ts => more s ts
  | .closeObject :: ts => .ok (s, ts)
  | ts => stop ts

/-- Reads the fields of an object whose brace is open. No object has more fields than tokens, which
is what `rounds` counts. -/
def fields {σ : Type} (field : FieldChoice σ) : (rounds : Nat) → (isFirst : Bool) → σ → Reading σ
  | 0, _, _, _ => .error .endOfText
  | _ + 1, true, s, .closeObject :: ts => .ok (s, ts)
  | rounds + 1, _, s, .string (some name) :: ts => do
    let (s, ts) ← fieldValue field s name ts
    afterField (fields field rounds false) s ts
  | _ + 1, _, _, .broken true read _ :: _ => .error read
  | _ + 1, _, _, ts => stop ts

/-- Reads fields given in order, in a list whose bracket is open. The list may end early. -/
def listed {σ : Type} : (readers : List (σ → Reading σ)) → (isFirst : Bool) → σ → Reading σ
  | [], _, s, .closeList :: ts | _ :: _, _, s, .closeList :: ts => .ok (s, ts)
  | [], _, _, ts => stop ts
  | readField :: readers, true, s, ts => do
    let (s, ts) ← readField s ts
    listed readers false s ts
  | _ :: _, false, _, .comma :: .closeList :: _ => .error .malformed
  | readField :: readers, false, s, .comma :: ts => do
    let (s, ts) ← readField s ts
    listed readers false s ts
  | _ :: _, false, _, ts => stop ts

/-- The known fields of an object by name, with the reader of each. -/
abbrev KnownFields (σ : Type) := List (String × (σ → Reading σ))

/-- The reader of a field, next to the names that have been seen: a known one may not be among
them. -/
def once {σ : Type} (known : KnownFields σ) : FieldChoice (List String × σ) := fun s name =>
  match known.lookup name with
  | none => .ok none
  | some readField =>
    if s.1.contains name then .error .mismatched
    else .ok (some fun ts => (readField s.2 ts).map fun (r, ts) => ((name :: s.1, r), ts))

/-- Reads a record given by the names of its fields or by their order. -/
def record {σ : Type} (known : KnownFields σ) (initial : σ) : Reading σ
  | .openObject :: ts =>
    (fields (once known) (ts.length + 1) true ([], initial) ts).map fun (s, ts) => (s.2, ts)
  | .openList :: ts => listed (known.map Prod.snd) true initial ts
  | ts => refuse ts

def bool : Reading Bool
  | .bool b :: ts => .ok (b, ts)
  | ts => refuse ts

def optionFields : KnownFields CompilerOptions := [
  ("allowJs", fun o ts => (bool ts).map fun (b, ts) => ({ o with allowJs := b }, ts))]

def optionalOptions : Reading (Option CompilerOptions)
  | .null :: ts => .ok (none, ts)
  | ts => (record optionFields {} ts).map fun (o, ts) => (some o, ts)

def configFields : KnownFields Config := [
  ("files", fun c ts => (optionalStrings ts).map fun (ss, ts) => ({ c with files := ss }, ts)),
  ("include", fun c ts => (optionalStrings ts).map fun (ss, ts) => ({ c with includes := ss }, ts)),
  ("exclude", fun c ts => (optionalStrings ts).map fun (ss, ts) => ({ c with excludes := ss }, ts)),
  ("compilerOptions", fun c ts =>
    (optionalOptions ts).map fun (o, ts) => ({ c with compilerOptions := o }, ts))]

end Config.OfText

def Config.ofText (text : List Char) : Except Fault Config :=
  match Config.OfText.record Config.OfText.configFields {} (Token.ofChars text) with
  | .ok (c, []) => .ok c
  | .ok (_, _ :: _) => .error .malformed
  | .error fault => .error fault

end ProjectScope
