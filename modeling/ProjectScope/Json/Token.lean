import ProjectScope.Json.Numeral
import ProjectScope.Text.Hex
import ProjectScope.Text.Utf8

/-!
The tokens of a JSON text. A text is cut into tokens from left to right, one character at a time; a
token that cannot be completed is the last one, and it carries what is wrong with it, so that a
reader meets the first fault of the text in text order. Text that is read and text that is only
skipped differ in what counts as a fault: a number too large and half of a surrogate pair matter
only where the value is wanted.
-/

namespace ProjectScope.Json

/-- Why a JSON text cannot be read: it ends too early, it breaks the grammar, or its value is not of
the wanted shape. -/
inductive Fault
  | endOfText
  | malformed
  | mismatched
deriving DecidableEq, Repr

inductive Token
  | openList
  | closeList
  | openObject
  | closeObject
  | comma
  | colon
  | null
  | bool (b : Bool)
  /-- A number; without a value if it is too large. -/
  | number (value? : Option Float)
  /-- A string; without a value if a surrogate in it has no partner. -/
  | string (value? : Option String)
  /-- A string or another token that is cut off or misspelt: the fault met by who reads it and by
  who skips it. -/
  | broken (isString : Bool) (read skipped : Fault)
  | stray

namespace Token

/-- Which part of a number has just been read. -/
inductive NumeralStage
  | minus
  | zero
  | whole
  | point
  | fraction
  | exponentMark
  | exponentSign
  | exponent

/-- Where in a string the scan stands. -/
inductive StringStage
  | plain
  | backslash
  /-- Inside a four-digit code, with so many digits to come. -/
  | code (left value : Nat)

/-- What the scan is in the middle of. -/
inductive Scan
  | between
  /-- A word with these letters to come. -/
  | word (left : List Char) (token : Token)
  /-- A number whose digits are kept the latest first. -/
  | numeral (stage : NumeralStage) (n : Numeral)
  /-- A string whose characters are kept the latest first, given up at a surrogate without a
  partner. `high` is a leading surrogate that awaits one. -/
  | string (stage : StringStage) (read? : Option (List Char)) (high : Option Nat)
  /-- After a token that ends the text for every reader. -/
  | stopped

def digit? (c : Char) : Option Nat := if c.isDigit then some (c.toNat - '0'.toNat) else none

/-- What a character starts when it stands between tokens. -/
def start (c : Char) : List Token × Scan :=
  match c with
  | ' ' | '\t' | '\n' | '\r' => ([], .between)
  | '[' => ([.openList], .between)
  | ']' => ([.closeList], .between)
  | '\x7b' => ([.openObject], .between)
  | '\x7d' => ([.closeObject], .between)
  | ',' => ([.comma], .between)
  | ':' => ([.colon], .between)
  | '"' => ([], .string .plain (some []) none)
  | 'n' => ([], .word ['u', 'l', 'l'] .null)
  | 't' => ([], .word ['r', 'u', 'e'] (.bool true))
  | 'f' => ([], .word ['a', 'l', 's', 'e'] (.bool false))
  | '-' => ([], .numeral .minus { negative := true })
  | '0' => ([], .numeral .zero { whole := [0] })
  | c =>
    match digit? c with
    | some d => ([], .numeral .whole { whole := [d] })
    | none => ([.stray], .stopped)

/-- A token that breaks the grammar whether it is read or skipped. -/
def spoilt (isString : Bool) : List Token × Scan :=
  ([.broken isString .malformed .malformed], .stopped)

def ofNumeral (n : Numeral) : Token :=
  .number (Numeral.value? { n with
    whole := n.whole.reverse, fraction := n.fraction.reverse, exponent := n.exponent.reverse })

/-- One more character after a number's first part. -/
def stepNumeral (stage : NumeralStage) (n : Numeral) (c : Char) : List Token × Scan :=
  let ended : List Token × Scan := let (out, scan) := start c; (ofNumeral n :: out, scan)
  let afterWhole : List Token × Scan :=
    if c = '.' then ([], .numeral .point n)
    else if c = 'e' ∨ c = 'E' then ([], .numeral .exponentMark n)
    else ended
  match stage, digit? c with
  | .minus, some 0 => ([], .numeral .zero { n with whole := [0] })
  | .minus, some d => ([], .numeral .whole { n with whole := [d] })
  | .minus, none => spoilt false
  | .zero, some _ => spoilt false
  | .zero, none => afterWhole
  | .whole, some d => ([], .numeral .whole { n with whole := d :: n.whole })
  | .whole, none => afterWhole
  | .point, some d => ([], .numeral .fraction { n with fraction := [d] })
  | .point, none => spoilt false
  | .fraction, some d => ([], .numeral .fraction { n with fraction := d :: n.fraction })
  | .fraction, none => if c = 'e' ∨ c = 'E' then ([], .numeral .exponentMark n) else ended
  | .exponentMark, some d => ([], .numeral .exponent { n with exponent := [d] })
  | .exponentMark, none =>
    if c = '+' then ([], .numeral .exponentSign n)
    else if c = '-' then ([], .numeral .exponentSign { n with exponentNegative := true })
    else spoilt false
  | .exponentSign, some d => ([], .numeral .exponent { n with exponent := [d] })
  | .exponentSign, none => spoilt false
  | .exponent, some d => ([], .numeral .exponent { n with exponent := d :: n.exponent })
  | .exponent, none => ended

/-- The character that a one-letter escape stands for. -/
def escaped? : Char → Option Char
  | '"' => some '"'
  | '\\' => some '\\'
  | '/' => some '/'
  | 'b' => some '\x08'
  | 'f' => some '\x0c'
  | 'n' => some '\n'
  | 'r' => some '\r'
  | 't' => some '\t'
  | _ => none

/-- Adds a character to a string in which no surrogate has lost its partner; a leading surrogate
that still waits has now lost it. -/
def push (read? : Option (List Char)) (high : Option Nat) (c : Char) : Option (List Char) :=
  match high with
  | none => read?.map (c :: ·)
  | some _ => none

/-- Goes on after a complete four-digit code. -/
def afterCode (read? : Option (List Char)) (high : Option Nat) (code : Nat) : Scan :=
  let isLeading := 0xD800 ≤ code ∧ code ≤ 0xDBFF
  let isTrailing := 0xDC00 ≤ code ∧ code ≤ 0xDFFF
  match high with
  | some h =>
    if isTrailing then
      let c := Char.ofNat ((h - 0xD800) * 0x400 + (code - 0xDC00) + 0x10000)
      .string .plain (read?.map (c :: ·)) none
    else .string .plain none none
  | none =>
    if isLeading then .string .plain read? (some code)
    else if isTrailing then .string .plain none none
    else .string .plain (read?.map (Char.ofNat code :: ·)) none

/-- The fault of a string that the text ends in. -/
def cutOff (read? : Option (List Char)) : Token :=
  .broken true (if read?.isSome then .endOfText else .malformed) .endOfText

/-- One more character inside a string, before the characters `upcoming`. A four-digit code needs
four more bytes of text, whatever they are. -/
def stepString (stage : StringStage) (read? : Option (List Char)) (high : Option Nat) (c : Char)
    (upcoming : List Char) : List Token × Scan :=
  match stage with
  | .plain =>
    if c = '"' then
      let whole := if high.isSome then none else read?
      ([.string (whole.map fun cs => String.ofList cs.reverse)], .between)
    else if c = '\\' then ([], .string .backslash read? high)
    else if c.toNat < 0x20 then spoilt true
    else ([], .string .plain (push read? high c) none)
  | .backslash =>
    if c = 'u' then
      if (Utf8.encode (upcoming.take 4)).length < 4 then ([cutOff read?], .stopped)
      else ([], .string (.code 3 0) read? high)
    else
      match escaped? c with
      | some e => ([], .string .plain (push read? high e) none)
      | none => spoilt true
  | .code left value =>
    match Text.hexValue? c with
    | none => spoilt true
    | some d =>
      match left with
      | 0 => ([], afterCode read? high (value * 16 + d))
      | left + 1 => ([], .string (.code left (value * 16 + d)) read? high)

/-- One more character, before the characters `upcoming`: the tokens it completes and how the scan
goes on. -/
def step (scan : Scan) (c : Char) (upcoming : List Char) : List Token × Scan :=
  match scan with
  | .between => start c
  | .word [] token => let (out, scan) := start c; (token :: out, scan)
  | .word (l :: left) token => if c = l then ([], .word left token) else spoilt false
  | .numeral stage n => stepNumeral stage n c
  | .string stage read? high => stepString stage read? high c upcoming
  | .stopped => ([], .stopped)

/-- The token that the end of the text completes or cuts off. -/
def finish : Scan → List Token
  | .between => []
  | .word [] token => [token]
  | .word (_ :: _) _ => [.broken false .endOfText .endOfText]
  | .numeral .zero n | .numeral .whole n | .numeral .fraction n | .numeral .exponent n =>
    [ofNumeral n]
  | .numeral _ _ => [.broken false .endOfText .malformed]
  | .string _ read? _ => [cutOff read?]
  | .stopped => []

/-- The tokens of a text, in the middle of a scan. -/
def ofCharsFrom : Scan → List Char → List Token
  | scan, [] => finish scan
  | scan, c :: upcoming =>
    let (out, scan) := step scan c upcoming
    out ++ ofCharsFrom scan upcoming

def ofChars (cs : List Char) : List Token := ofCharsFrom .between cs

end Token

end ProjectScope.Json
