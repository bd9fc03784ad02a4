import ProjectScope.Proofs.AsciiText
import ProjectScope.Proofs.FailingFolds

/-! # Decoding loses nothing

The pieces of a byte text, put together again, are the text (`bytes_pieces`): a character that has
been read is spelled by just the bytes that were read for it. So a text can be decoded only if it is
the encoding of some characters, and it gives these back. Main statement: `string?_eq_some_iff`. -/
namespace ProjectScope.Utf8

/-- The bytes that a piece was read from. -/
def Piece.bytes : Piece → Bytes
  | char c => String.utf8EncodeChar c
  | broken bytes => bytes

/-! ## Characters from their bytes -/

/-- Whatever bytes may still come, the character spelled in the end is encoded by all that has been
read, the latest byte first. -/
def Spells : (missing : Nat) → (read : Bytes) → (bits low high : Nat) → Prop
  | 0, read, bits, low, high => ∀ b : UInt8, low ≤ b.toNat → b.toNat ≤ high →
      String.utf8EncodeChar (Char.ofNat (bits * 64 + (b.toNat - 0x80))) = (b :: read).reverse
  | missing + 1, read, bits, low, high => ∀ b : UInt8, low ≤ b.toNat → b.toNat ≤ high →
      Spells missing (b :: read) (bits * 64 + (b.toNat - 0x80)) 0x80 0xBF

def Begun.Spells (o : Begun) : Prop := Utf8.Spells o.missing o.read o.bits o.low o.high

theorem eq_ofNat {b : UInt8} {n : Nat} (h : n = b.toNat) : UInt8.ofNat n = b := by
  rw [h, UInt8.ofNat_toNat]

theorem encodeChar_ofNat {v : Nat} (h : v.isValidChar) :
    String.utf8EncodeChar (Char.ofNat v) =
      if v ≤ 127 then [UInt8.ofNat v]
      else if v ≤ 2047 then [UInt8.ofNat (v / 64 % 32 + 192), UInt8.ofNat (v % 64 + 128)]
      else if v ≤ 65535 then
        [UInt8.ofNat (v / 4096 % 16 + 224), UInt8.ofNat (v / 64 % 64 + 128),
          UInt8.ofNat (v % 64 + 128)]
      else
        [UInt8.ofNat (v / 262144 % 8 + 240), UInt8.ofNat (v / 4096 % 64 + 128),
          UInt8.ofNat (v / 64 % 64 + 128), UInt8.ofNat (v % 64 + 128)] := by
  have hv : (Char.ofNat v).val.toNat = v := toNat_charOfNat h
  rw [String.utf8EncodeChar.eq_1, hv]

theorem spells_two {a : UInt8} (hl : 0xC2 ≤ a.toNat) (hh : a.toNat < 0xE0) :
    Spells 0 [a] (a.toNat - 0xC0) 0x80 0xBF := by
  intro b hb hb'
  have hvalid : ((a.toNat - 0xC0) * 64 + (b.toNat - 0x80)).isValidChar := .inl (by omega)
  rw [encodeChar_ofNat hvalid, if_neg (by omega), if_pos (by omega),
    eq_ofNat (b := a) (by omega), eq_ofNat (b := b) (by omega)]
  rfl

theorem spells_three {a : UInt8} (hl : 0xE0 ≤ a.toNat) (hh : a.toNat < 0xF0) :
    Spells 1 [a] (a.toNat - 0xE0) (if a.toNat = 0xE0 then 0xA0 else 0x80)
      (if a.toNat = 0xED then 0x9F else 0xBF) := by
  intro b hb hb' c hc hc'
  have hlow : 0x80 ≤ b.toNat ∧ (a.toNat = 0xE0 → 0xA0 ≤ b.toNat) := by grind
  have hhigh : b.toNat ≤ 0xBF ∧ (a.toNat = 0xED → b.toNat ≤ 0x9F) := by grind
  have hvalid : (((a.toNat - 0xE0) * 64 + (b.toNat - 0x80)) * 64 +
      (c.toNat - 0x80)).isValidChar := by
    unfold Nat.isValidChar
    omega
  rw [encodeChar_ofNat hvalid, if_neg (by omega), if_neg (by omega), if_pos (by omega),
    eq_ofNat (b := a) (by omega), eq_ofNat (b := b) (by omega), eq_ofNat (b := c) (by omega)]
  rfl

theorem spells_four {a : UInt8} (hl : 0xF0 ≤ a.toNat) (hh : a.toNat ≤ 0xF4) :
    Spells 2 [a] (a.toNat - 0xF0) (if a.toNat = 0xF0 then 0x90 else 0x80)
      (if a.toNat = 0xF4 then 0x8F else 0xBF) := by
  intro b hb hb' c hc hc' d hd hd'
  have hlow : 0x80 ≤ b.toNat ∧ (a.toNat = 0xF0 → 0x90 ≤ b.toNat) := by grind
  have hhigh : b.toNat ≤ 0xBF ∧ (a.toNat = 0xF4 → b.toNat ≤ 0x8F) := by grind
  have hvalid : ((((a.toNat - 0xF0) * 64 + (b.toNat - 0x80)) * 64 + (c.toNat - 0x80)) * 64 +
      (d.toNat - 0x80)).isValidChar := by
    unfold Nat.isValidChar
    omega
  rw [encodeChar_ofNat hvalid, if_neg (by omega), if_neg (by omega), if_neg (by omega),
    eq_ofNat (b := a) (by omega), eq_ofNat (b := b) (by omega), eq_ofNat (b := c) (by omega),
    eq_ofNat (b := d) (by omega)]
  rfl

theorem spells_of_begin {b : UInt8} {o : Begun} (h : begin b = .inr o) : o.Spells := by
  rcases begun_cases h with ⟨hl, hh, rfl⟩ | ⟨hl, hh, rfl⟩ | ⟨hl, hh, rfl⟩
  · exact spells_two hl hh
  · exact spells_three hl hh
  · exact spells_four hl hh

theorem read_of_begin {b : UInt8} {o : Begun} (h : begin b = .inr o) : o.read = [b] := by
  rcases begun_cases h with ⟨-, -, rfl⟩ | ⟨-, -, rfl⟩ | ⟨-, -, rfl⟩ <;> rfl

/-- What begins nothing longer is a piece of one byte. -/
theorem bytes_of_begin {b : UInt8} {p : Piece} (h : begin b = .inl p) : p.bytes = [b] := by
  rcases piece_cases h with ⟨hascii, rfl⟩ | ⟨-, rfl⟩
  · have hvalid : b.toNat.isValidChar := .inl (by omega)
    rw [Piece.bytes, encodeChar_ofNat hvalid, if_pos (by omega), UInt8.ofNat_toNat]
  · rfl

/-! ## Pieces -/

theorem bytes_piecesAfter (s : Bytes) : ∀ begun? : Option Begun, (∀ o ∈ begun?, o.Spells) →
    (piecesAfter begun? s).flatMap Piece.bytes =
      (begun?.map fun o => o.read.reverse).getD [] ++ s := by
  induction s with
  | nil =>
    intro begun? _
    cases begun? with
    | none => rfl
    | some o => simp [piecesAfter, Piece.bytes]
  | cons b s ih =>
    have hnone : (piecesAfter none (b :: s)).flatMap Piece.bytes = b :: s := by
      rw [piecesAfter]
      cases hb : begin b with
      | inl p =>
        dsimp only
        rw [List.flatMap_cons, bytes_of_begin hb, ih none (by simp)]
        rfl
      | inr o =>
        dsimp only
        rw [ih (some o) (by simpa using spells_of_begin hb), Option.map_some, read_of_begin hb]
        rfl
    intro begun? hspells
    cases begun? with
    | none => exact hnone
    | some o =>
      have hspell : Spells o.missing o.read o.bits o.low o.high := hspells o rfl
      by_cases hin : o.low ≤ b.toNat ∧ b.toNat ≤ o.high
      · cases hm : o.missing with
        | zero =>
          rw [hm] at hspell
          rw [piecesAfter_some_last hin.1 hin.2 hm, List.flatMap_cons, ih none (by simp),
            Piece.bytes, hspell b hin.1 hin.2]
          simp
        | succ n =>
          rw [hm] at hspell
          have hmore : Begun.Spells ⟨b :: o.read, o.bits * 64 + (b.toNat - 0x80), n, 0x80, 0xBF⟩ :=
            hspell b hin.1 hin.2
          rw [piecesAfter_some_more hin.1 hin.2 hm, ih (some _) (by simpa using hmore)]
          simp
      · rw [piecesAfter_some_out hin, List.flatMap_cons, hnone]
        rfl

theorem bytes_pieces (s : Bytes) : (pieces s).flatMap Piece.bytes = s :=
  bytes_piecesAfter s none (by simp)

/-! ## Decoding -/

theorem char?_eq_some_iff {p : Piece} {c : Char} : p.char? = some c ↔ p = .char c := by
  cases p <;> simp [Piece.char?]

theorem decode?_eq_some_iff {s : Bytes} {cs : List Char} : decode? s = some cs ↔ s = encode cs := by
  refine ⟨?_, ?_⟩
  · intro h
    have hpieces : pieces s = cs.map .char := (mapM_eq_some_iff fun _ _ => char?_eq_some_iff).mp h
    rw [← bytes_pieces s, hpieces, List.flatMap_map]
    rfl
  · rintro rfl
    exact decode?_encode cs

theorem string?_eq_some_iff {b : Bytes} {s : String} : string? b = some s ↔ b = encodeString s := by
  rw [string?, Option.map_eq_some_iff, encodeString]
  refine ⟨?_, ?_⟩
  · intro h
    obtain ⟨cs, hcs, rfl⟩ := h
    rw [decode?_eq_some_iff.mp hcs, String.toList_ofList]
  · rintro rfl
    exact ⟨s.toList, decode?_encode _, String.ofList_toList⟩

end ProjectScope.Utf8
