/-!
JSON values. An object keeps every field it was written with; looking a field up finds the last one
of that name.
-/

namespace ProjectScope.Json

inductive Value
  | null
  | bool (b : Bool)
  | number (x : Float)
  | string (s : String)
  | list (items : List Value)
  | object (fields : List (String × Value))
deriving Inhabited

namespace Value

/-- The field of an object; of several with one name the last. -/
def field? (name : String) : Value → Option Value
  | object fields => fields.reverse.lookup name
  | _ => none

def string? : Value → Option String
  | string s => some s
  | _ => none

def items? : Value → Option (List Value)
  | list items => some items
  | _ => none

def isObject : Value → Bool
  | object _ => true
  | _ => false

/-- What a condition in JavaScript makes of the value: `null`, `false`, zero, a number that is none
and the empty string are false, all else is true. -/
def isTruthy : Value → Bool
  | null => false
  | bool b => b
  | number x => x != 0 && !x.isNaN
  | string s => !s.isEmpty
  | list _ => true
  | object _ => true

end Value

end ProjectScope.Json
