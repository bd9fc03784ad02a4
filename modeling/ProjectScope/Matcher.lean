import ProjectScope.Glob.Scan
import ProjectScope.Log

/-!
Patterns that have been made ready for matching. Braces are ordinary characters in a pattern, so
they are put into classes before it is read as a glob. A pattern that is no glob even then is read
once more with its wildcards in classes too, and so matches literally.
-/

namespace ProjectScope

/-- A pattern with the glob that decides which paths it matches. -/
structure Matcher where
  pattern : String
  glob : Glob
deriving Repr

namespace Matcher

def inBrackets (c : Char) : List Char := ['[', c, ']']

/-- Puts the braces of a pattern into classes. -/
def literalBraces (cs : List Char) : List Char :=
  cs.flatMap fun c => if c = '\x7b' ∨ c = '\x7d' then inBrackets c else [c]

/-- Whether a character other than a backslash has a meaning in globs. -/
def isMeta (c : Char) : Bool :=
  c == '?' || c == '*' || c == '[' || c == ']' || c == '\x7b' || c == '\x7d'

/-- Puts the wildcards, brackets and braces of a pattern into classes. -/
def literalAll (cs : List Char) : List Char :=
  cs.flatMap fun c => if isMeta c then inBrackets c else [c]

def compile (pattern : String) : Logged Matcher :=
  let written := literalBraces pattern.toList
  match Glob.read written with
  | .ok glob => pure ⟨pattern, glob⟩
  | .error fault => do
    Logged.emit (.literally pattern (String.ofList written) fault)
    match Glob.read (literalAll pattern.toList) with
    | .ok glob => return ⟨pattern, glob⟩
    | .error fault => Logged.fail (.pattern pattern fault)

def compileAll : List String → Logged (List Matcher)
  | [] => pure []
  | p :: ps => do
    let m ← compile p
    let ms ← compileAll ps
    return m :: ms

/-- Whether a path with this text is matched. -/
def accepts (m : Matcher) (text : List Char) : Bool := m.glob.accepts (Utf8.encode text)

end Matcher

end ProjectScope
