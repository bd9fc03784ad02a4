import ProjectScope.Json.Printer
import ProjectScope.Json.Reader
import ProjectScope.Proofs.AsciiText

/-! # Printed JSON is read back

The scan takes the printed form of a character for that character (`scan_character`), so a printed
string is one token with its value, and a printed list is read as the list of its strings, with
nothing left over but what follows it. Main statement: `read_strings`. -/
namespace ProjectScope

namespace Text

theorem hexValue?_hexDigit : ∀ d < 16, hexValue? (hexDigit d) = some d := by decide

theorem length_hexDigits (width n : Nat) : (hexDigits width n).length = width := by
  induction width generalizing n with
  | zero => rfl
  | succ width ih => rw [hexDigits, List.length_append, ih, List.length_singleton]

end Text

namespace Json

namespace Token

variable {read rest : List Char}

theorem ofCharsFrom_cons (scan : Scan) (c : Char) (rest : List Char) :
    ofCharsFrom scan (c :: rest) = (step scan c rest).1 ++ ofCharsFrom (step scan c rest).2 rest :=
  rfl

/-! ## Codes -/

/-- The digits are scanned into the number that they were written for, with others to come. -/
theorem scan_hexDigits {width left value n : Nat} {read? : Option (List Char)} {high : Option Nat}
    (hn : n < 16 ^ width) :
    ofCharsFrom (.string (.code (width + left) value) read? high)
        (Text.hexDigits width n ++ rest) =
      ofCharsFrom (.string (.code left (value * 16 ^ width + n)) read? high) rest := by
  -- A number is written from its last digit backwards, so the digits before the last are scanned
  -- with one more to come.
  induction width generalizing n left rest with
  | zero =>
    obtain rfl : n = 0 := by omega
    simp [Text.hexDigits]
  | succ width ih =>
    have hhigh : n / 16 < 16 ^ width := by omega
    have hlow : Text.hexValue? (Text.hexDigit (n % 16)) = some (n % 16) :=
      Text.hexValue?_hexDigit _ (Nat.mod_lt _ (by decide))
    have hvalue : (value * 16 ^ width + n / 16) * 16 + n % 16 = value * 16 ^ (width + 1) + n := by
      rw [Nat.pow_succ, ← Nat.mul_assoc]
      omega
    rw [Text.hexDigits, List.append_assoc, List.singleton_append, Nat.add_right_comm,
      Nat.add_assoc, ih hhigh, ofCharsFrom_cons, step, stepString, hlow]
    simp only [hvalue]
    rfl

/-! ## Strings -/

theorem scan_escape {e c : Char} (h : escaped? e = some c) :
    ofCharsFrom (.string .plain (some read) none) ('\\' :: e :: rest) =
      ofCharsFrom (.string .plain (some (c :: read)) none) rest := by
  have hu : e ≠ 'u' := by
    rintro rfl
    cases h
  rw [ofCharsFrom_cons, ofCharsFrom_cons]
  simp [step, stepString, hu, h, push]

theorem scan_code {c : Char} (hc : c.toNat < 0xD800) :
    ofCharsFrom (.string .plain (some read) none)
        ('\\' :: 'u' :: (Text.hexDigits 4 c.toNat ++ rest)) =
      ofCharsFrom (.string .plain (some (c :: read)) none) rest := by
  generalize hn : c.toNat = n at hc
  have hroom : ¬ (Utf8.encode ((Text.hexDigits 4 n ++ rest).take 4)).length < 4 := by
    have hdigits := Utf8.length_le_length_encode (Text.hexDigits 4 n)
    rw [Text.length_hexDigits] at hdigits
    rw [List.take_left' (Text.length_hexDigits 4 n)]
    omega
  have hhigh : n / 16 < 16 ^ 3 := by omega
  have hlow : Text.hexValue? (Text.hexDigit (n % 16)) = some (n % 16) :=
    Text.hexValue?_hexDigit _ (Nat.mod_lt _ (by decide))
  have hvalue : (0 * 16 ^ 3 + n / 16) * 16 + n % 16 = n := by omega
  have hcode : afterCode (some read) none n = .string .plain (some (c :: read)) none := by
    rw [afterCode, if_neg (by omega), if_neg (by omega), Option.map_some, ← hn, Char.ofNat_toNat]
  calc ofCharsFrom (.string .plain (some read) none) ('\\' :: 'u' :: (Text.hexDigits 4 n ++ rest))
    _ = ofCharsFrom (.string (.code (3 + 0) 0) (some read) none)
          (Text.hexDigits 4 n ++ rest) := by
        rw [ofCharsFrom_cons, ofCharsFrom_cons]
        simp [step, stepString, hroom]
    _ = ofCharsFrom (.string (.code (3 + 0) 0) (some read) none)
          (Text.hexDigits 3 (n / 16) ++ Text.hexDigit (n % 16) :: rest) := by
        rw [Text.hexDigits, List.append_assoc, List.singleton_append]
    _ = ofCharsFrom (.string (.code 0 (0 * 16 ^ 3 + n / 16)) (some read) none)
          (Text.hexDigit (n % 16) :: rest) := scan_hexDigits hhigh
    _ = ofCharsFrom (.string .plain (some (c :: read)) none) rest := by
        rw [ofCharsFrom_cons, step, stepString, hlow]
        simp only [hvalue, hcode, List.nil_append]

theorem scan_plain {c : Char} (hquote : c ≠ '"') (hback : c ≠ '\\') (hc : 0x20 ≤ c.toNat) :
    ofCharsFrom (.string .plain (some read) none) (c :: rest) =
      ofCharsFrom (.string .plain (some (c :: read)) none) rest := by
  rw [ofCharsFrom_cons, step, stepString, if_neg hquote, if_neg hback, if_neg (by omega)]
  rfl

/-- What is printed for a character is an escape of one letter, a code, or the character. -/
theorem character_cases (c : Char) :
    (∃ e, escaped? e = some c ∧ Printer.character c = ['\\', e]) ∨
      (c.toNat < 0x20 ∧ Printer.character c = '\\' :: 'u' :: Text.hexDigits 4 c.toNat) ∨
      (c ≠ '"' ∧ c ≠ '\\' ∧ 0x20 ≤ c.toNat ∧ Printer.character c = [c]) := by
  by_cases hletter : c ∈ ['"', '\\', '\x08', '\x0c', '\n', '\r', '\t']
  · refine .inl ?_
    simp only [List.mem_cons, List.not_mem_nil, or_false] at hletter
    rcases hletter with rfl | rfl | rfl | rfl | rfl | rfl | rfl <;> refine ⟨_, ?_, rfl⟩ <;> rfl
  · refine .inr ?_
    simp only [List.mem_cons, List.not_mem_nil, or_false, not_or] at hletter
    by_cases hcontrol : c.toNat < 0x20
    · exact .inl ⟨hcontrol, by simp [Printer.character, hletter, hcontrol]⟩
    · exact .inr ⟨hletter.1, hletter.2.1, Nat.le_of_not_lt hcontrol,
        by simp [Printer.character, hletter, hcontrol]⟩

/-- What is printed for a character is scanned as that character. -/
theorem scan_character (c : Char) :
    ofCharsFrom (.string .plain (some read) none) (Printer.character c ++ rest) =
      ofCharsFrom (.string .plain (some (c :: read)) none) rest := by
  rcases character_cases c with ⟨e, he, hc⟩ | ⟨hcontrol, hc⟩ | ⟨hquote, hback, hshown, hc⟩
  · rw [hc]
    exact scan_escape he
  · rw [hc]
    exact scan_code (by omega)
  · rw [hc]
    exact scan_plain hquote hback hshown

theorem scan_characters (cs : List Char) :
    ofCharsFrom (.string .plain (some read) none) (cs.flatMap Printer.character ++ rest) =
      ofCharsFrom (.string .plain (some (cs.reverse ++ read)) none) rest := by
  induction cs generalizing read with
  | nil => rfl
  | cons c cs ih =>
    rw [List.flatMap_cons, List.append_assoc, scan_character, ih, List.reverse_cons,
      List.append_assoc, List.singleton_append]

theorem ofChars_string (s : String) :
    ofChars (Printer.string s ++ rest) = .string (some s) :: ofChars rest := by
  have hopen : step .between '"' (s.toList.flatMap Printer.character ++ '"' :: rest) =
      ([], .string .plain (some []) none) := rfl
  rw [Printer.string, List.append_assoc, List.cons_append, List.singleton_append, ofChars,
    ofCharsFrom_cons, hopen, List.nil_append, scan_characters, ofCharsFrom_cons]
  simp [step, stepString, ofChars]

/-! ## Lists -/

/-- The tokens of the items after the first. -/
def ofMore (names : List String) : List Token := names.flatMap fun s => [.comma, .string (some s)]

theorem ofChars_moreItems (names : List String) :
    ofChars (Printer.moreItems names ++ rest) = ofMore names ++ ofChars rest := by
  induction names with
  | nil => rfl
  | cons s names ih =>
    have hcomma : ∀ text, ofChars ([',', '\n', ' ', ' '] ++ text) = .comma :: ofChars text :=
      fun _ => rfl
    rw [Printer.moreItems, List.append_assoc, List.append_assoc, hcomma, ofChars_string, ih]
    rfl

/-- The tokens of a list of strings. -/
def ofStrings : List String → List Token
  | [] => [.openList, .closeList]
  | s :: more => .openList :: .string (some s) :: ofMore more ++ [.closeList]

theorem ofChars_strings (names : List String) :
    ofChars (Printer.strings names ++ rest) = ofStrings names ++ ofChars rest := by
  cases names with
  | nil => rfl
  | cons s more =>
    have hopen : ∀ text, ofChars (['[', '\n', ' ', ' '] ++ text) = .openList :: ofChars text :=
      fun _ => rfl
    have hclose : ofChars (['\n', ']'] ++ rest) = .closeList :: ofChars rest := rfl
    rw [Printer.strings, List.append_assoc, List.append_assoc, List.append_assoc, hopen,
      ofChars_string, ofChars_moreItems, hclose, ofStrings, List.append_assoc]
    rfl

end Token

theorem Printer.exists_brackets (names : List String) :
    ∃ inner, Printer.strings names = '[' :: inner ++ [']'] := by
  cases names with
  | nil => exact ⟨[], rfl⟩
  | cons s more =>
    refine ⟨['\n', ' ', ' '] ++ Printer.string s ++ Printer.moreItems more ++ ['\n'], ?_⟩
    simp [Printer.strings]

namespace Reader

variable {rest : List Token}

theorem run_nothing (use : Use) (frames : List Frame) (v : Value) :
    run use frames (.nothing v) rest = .ok (v, rest) := by
  cases rest <;> rfl

theorem run_ofMore (items : List Value) (more : List String) :
    run .wanted [] (.afterItem items) (Token.ofMore more ++ .closeList :: rest) =
      .ok (.list (items.reverse ++ more.map .string), rest) := by
  induction more generalizing items with
  | nil =>
    rw [List.map_nil, List.append_nil]
    exact run_nothing _ _ _
  | cons s more ih =>
    have hitem := ih (.string s :: items)
    rw [List.reverse_cons, List.append_assoc] at hitem
    exact hitem

theorem run_ofStrings (names : List String) :
    run .wanted [] .value (Token.ofStrings names ++ rest) =
      .ok (.list (names.map .string), rest) := by
  cases names with
  | nil => exact run_nothing _ _ _
  | cons s more =>
    rw [Token.ofStrings, List.append_assoc]
    exact run_ofMore [.string s] more

end Reader

/-- A printed list is read as the list of its strings, whatever blanks come after it. -/
theorem read_strings (names : List String) (blank : List Char) (h : Token.ofChars blank = []) :
    read (Printer.strings names ++ blank) = .ok (.list (names.map .string)) := by
  rw [read, Token.ofChars_strings, h, Reader.run_ofStrings]

end Json

end ProjectScope
