import ProjectScope.Text.Hex

/-!
Writing a list of strings as JSON, one item a line, indented by two spaces. Only quotes,
backslashes and control characters are escaped.
-/

namespace ProjectScope.Json.Printer

/-- The written form of a character inside a string. -/
def character (c : Char) : List Char :=
  if c = '"' then ['\\', '"']
  else if c = '\\' then ['\\', '\\']
  else if c = '\x08' then ['\\', 'b']
  else if c = '\x0c' then ['\\', 'f']
  else if c = '\n' then ['\\', 'n']
  else if c = '\r' then ['\\', 'r']
  else if c = '\t' then ['\\', 't']
  else if c.toNat < 0x20 then ['\\', 'u'] ++ Text.hexDigits 4 c.toNat
  else [c]

def string (s : String) : List Char := '"' :: s.toList.flatMap character ++ ['"']

/-- The items after the first, each on a line of its own. -/
def moreItems : List String → List Char
  | [] => []
  | s :: rest => [',', '\n', ' ', ' '] ++ string s ++ moreItems rest

def strings : List String → List Char
  | [] => ['[', ']']
  | s :: rest => ['[', '\n', ' ', ' '] ++ string s ++ moreItems rest ++ ['\n', ']']

end ProjectScope.Json.Printer
