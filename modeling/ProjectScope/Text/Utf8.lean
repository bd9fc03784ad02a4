/-!
Byte texts and the characters they spell. A name on disk is any sequence of bytes; reading it as
UTF-8 cuts it into whole characters and broken stretches, a broken stretch being the longest start
of a character that cannot be completed.
-/

namespace ProjectScope

/-- A text as the file system keeps it. -/
abbrev Bytes := List UInt8

namespace Utf8

/-- The bytes of a sequence of characters. -/
def encode (cs : List Char) : Bytes := cs.flatMap String.utf8EncodeChar

def encodeString (s : String) : Bytes := encode s.toList

/-- A stretch of a byte text: one character, or bytes that spell none. -/
inductive Piece
  | char (c : Char)
  | broken (bytes : Bytes)
deriving DecidableEq, Repr

/-- A character of which only the first bytes have been read. The next byte must lie between `low`
and `high`, and `missing` more follow it. -/
structure Begun where
  /-- The bytes read, the latest first. -/
  read : Bytes
  /-- The code point's bits read so far. -/
  bits : Nat
  missing : Nat
  low : Nat
  high : Nat

/-- What a byte starts: a piece that is complete with it, or a longer character. The narrower
bounds after `0xE0`, `0xED`, `0xF0` and `0xF4` keep out long spellings, surrogates and code points
above the last. -/
def begin (b : UInt8) : Piece ⊕ Begun :=
  let n := b.toNat
  if n < 0x80 then .inl (.char (Char.ofNat n))
  else if n < 0xC2 then .inl (.broken [b])
  else if n < 0xE0 then .inr ⟨[b], n - 0xC0, 0, 0x80, 0xBF⟩
  else if n = 0xE0 then .inr ⟨[b], 0, 1, 0xA0, 0xBF⟩
  else if n = 0xED then .inr ⟨[b], 0xD, 1, 0x80, 0x9F⟩
  else if n < 0xF0 then .inr ⟨[b], n - 0xE0, 1, 0x80, 0xBF⟩
  else if n = 0xF0 then .inr ⟨[b], 0, 2, 0x90, 0xBF⟩
  else if n < 0xF4 then .inr ⟨[b], n - 0xF0, 2, 0x80, 0xBF⟩
  else if n = 0xF4 then .inr ⟨[b], 4, 2, 0x80, 0x8F⟩
  else .inl (.broken [b])

/-- The pieces of a byte text, after the character that has been begun. -/
def piecesAfter : Option Begun → Bytes → List Piece
  | none, [] => []
  | some o, [] => [.broken o.read.reverse]
  | none, b :: s =>
    match begin b with
    | .inl p => p :: piecesAfter none s
    | .inr o => piecesAfter (some o) s
  | some o, b :: s =>
    if o.low ≤ b.toNat ∧ b.toNat ≤ o.high then
      let bits := o.bits * 64 + (b.toNat - 0x80)
      match o.missing with
      | 0 => .char (Char.ofNat bits) :: piecesAfter none s
      | n + 1 => piecesAfter (some ⟨b :: o.read, bits, n, 0x80, 0xBF⟩) s
    else
      .broken o.read.reverse ::
        match begin b with
        | .inl p => p :: piecesAfter none s
        | .inr o => piecesAfter (some o) s

def pieces (s : Bytes) : List Piece := piecesAfter none s

namespace Piece

/-- The character of an unbroken piece. -/
def char? : Piece → Option Char
  | char c => some c
  | broken _ => none

/-- The character shown for a piece; U+FFFD stands for a broken stretch. -/
def shown : Piece → Char
  | char c => c
  | broken _ => '\uFFFD'

end Piece

/-- The characters of a byte text that is UTF-8 throughout. -/
def decode? (s : Bytes) : Option (List Char) := (pieces s).mapM Piece.char?

/-- The string of a byte text that is UTF-8 throughout. -/
def string? (s : Bytes) : Option String := (decode? s).map String.ofList

/-- A readable form of any byte text. -/
def lossy (s : Bytes) : List Char := (pieces s).map Piece.shown

end Utf8

end ProjectScope
