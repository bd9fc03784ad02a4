import ProjectScope.Text.Hex
import ProjectScope.Text.Printable
import ProjectScope.Text.Utf8

/-!
Text between double quotes, as messages and log lines show it. A quote and a backslash are escaped,
what cannot be shown is written as its code point, and a byte that is no part of a character as its
two upper-case digits.
-/

namespace ProjectScope.Text.Quoted

/-- The written form of a character. -/
def character (c : Char) : List Char :=
  if c = '"' then ['\\', '"']
  else if c = '\\' then ['\\', '\\']
  else if c = '\n' then ['\\', 'n']
  else if c = '\r' then ['\\', 'r']
  else if c = '\t' then ['\\', 't']
  else if c = '\x00' then ['\\', '0']
  else if isPrintable c then [c]
  else "\\u\x7b".toList ++ hexNumber c.toNat ++ ['}']

/-- The written form of a byte that belongs to no character. -/
def byte (b : UInt8) : List Char :=
  ['\\', 'x', upperHexDigit (b.toNat / 16), upperHexDigit (b.toNat % 16)]

/-- The written form of a piece of a byte text. -/
def piece : Utf8.Piece → List Char
  | .char c => character c
  | .broken bs => bs.flatMap byte

def enclose (cs : List Char) : String := String.ofList ('"' :: cs ++ ['"'])

def string (s : String) : String := enclose (s.toList.flatMap character)

def bytes (s : Bytes) : String := enclose ((Utf8.pieces s).flatMap piece)

/-- A character on its own between single quotes, which then are what has to be escaped. -/
def char (c : Char) : String :=
  let written := if c = '\'' then ['\\', '\''] else if c = '"' then ['"'] else character c
  String.ofList ('\'' :: written ++ ['\''])

/-- A bracketed list of quoted strings. -/
def list (ss : List String) : String := "[" ++ ", ".intercalate (ss.map string) ++ "]"

end ProjectScope.Text.Quoted
