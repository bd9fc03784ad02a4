import ProjectScope.Json.Token
import ProjectScope.Json.Value

/-!
Reading a JSON text into a value. The tokens are taken one by one; what has been opened and not yet
closed stands in a list of frames, the innermost first. A value that is wanted has at most 127 lists
and objects open at once. A value that is only skipped may be nested deeper, and what is wrong with
its numbers and strings as values is passed over.
-/

namespace ProjectScope.Json

/-- What is done with a value. -/
inductive Use
  | wanted
  | skipped
deriving DecidableEq

/-- A list or object that is being read, around the value that comes next. -/
inductive Frame
  /-- The items before the value, the latest first. -/
  | list (items : List Value)
  /-- The fields before the value, the latest first, and the value's name. -/
  | object (fields : List (String × Value)) (name : String)

/-- What may come next. -/
inductive Awaited
  | value
  /-- The first item of a list or its end. -/
  | firstItem
  /-- A comma or the end of a list with these items, the latest first. -/
  | afterItem (items : List Value)
  /-- The name of a field, or the end of the object if it has none yet. -/
  | name (isFirst : Bool) (fields : List (String × Value))
  /-- The colon after a name. -/
  | colon (fields : List (String × Value)) (name : String)
  /-- A comma or the end of an object. -/
  | afterField (fields : List (String × Value))
  /-- Nothing: the value is complete. -/
  | nothing (v : Value)

/-- A token as far as it matters to who skips it. -/
def Token.skipped : Token → Token
  | .number none => .number (some 0)
  | .string none => .string (some "")
  | .broken isString _ skipped => .broken isString skipped skipped
  | t => t

namespace Reader

/-- How many lists and objects a wanted value may have open at once. -/
def depthLimit : Nat := 127

/-- Whether one more list or object may be opened inside frames. -/
def mayOpen : Use → List Frame → Bool
  | .wanted, frames => frames.length < depthLimit
  | .skipped, _ => true

/-- Goes on after a complete value inside frames. -/
def place (v : Value) : List Frame → List Frame × Awaited
  | [] => ([], .nothing v)
  | .list items :: frames => (frames, .afterItem (v :: items))
  | .object fields name :: frames => (frames, .afterField ((name, v) :: fields))

/-- A token where a value is awaited. -/
def startValue (use : Use) (frames : List Frame) : Token → Except Fault (List Frame × Awaited)
  | .null => .ok (place .null frames)
  | .bool b => .ok (place (.bool b) frames)
  | .number (some x) => .ok (place (.number x) frames)
  | .string (some s) => .ok (place (.string s) frames)
  | .openList => if mayOpen use frames then .ok (frames, .firstItem) else .error .malformed
  | .openObject => if mayOpen use frames then .ok (frames, .name true []) else .error .malformed
  | .broken _ read _ => .error read
  | _ => .error .malformed

def step (use : Use) (frames : List Frame) : Awaited → Token → Except Fault (List Frame × Awaited)
  | .value, t => startValue use frames t
  | .firstItem, .closeList => .ok (place (.list []) frames)
  | .firstItem, t => startValue use (.list [] :: frames) t
  | .afterItem items, .comma => .ok (.list items :: frames, .value)
  | .afterItem items, .closeList => .ok (place (.list items.reverse) frames)
  | .name _ fields, .string (some s) => .ok (frames, .colon fields s)
  | .name true fields, .closeObject => .ok (place (.object fields.reverse) frames)
  | .name _ _, .broken true read _ => .error read
  | .colon fields name, .colon => .ok (.object fields name :: frames, .value)
  | .afterField fields, .comma => .ok (frames, .name false fields)
  | .afterField fields, .closeObject => .ok (place (.object fields.reverse) frames)
  | _, _ => .error .malformed

/-- Reads on until the value is complete; gives the value and the tokens after it. -/
def run (use : Use) (frames : List Frame) :
    Awaited → List Token → Except Fault (Value × List Token)
  | .nothing v, ts => .ok (v, ts)
  | _, [] => .error .endOfText
  | awaited, t :: ts =>
    match step use frames awaited (if use = .skipped then t.skipped else t) with
    | .error fault => .error fault
    | .ok (frames, awaited) => run use frames awaited ts

end Reader

/-- The tokens after the value that they begin with. -/
def skipValue (ts : List Token) : Except Fault (List Token) :=
  (Reader.run .skipped [] .value ts).map Prod.snd

/-- Reads a text that holds one value and nothing after it. -/
def read (text : List Char) : Except Fault Value :=
  match Reader.run .wanted [] .value (Token.ofChars text) with
  | .ok (v, []) => .ok v
  | .ok (_, _ :: _) => .error .malformed
  | .error fault => .error fault

end ProjectScope.Json
