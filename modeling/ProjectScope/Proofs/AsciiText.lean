import Mathlib.Algebra.Group.Nat.Defs
import ProjectScope.Text.Utf8.Lemmas

/-! # ASCII characters in encoded text

A byte below 0x80 is always a character of its own, so encoded text can be cut at an ASCII
character just where the characters can (`encode_eq_append_cons`), and ends in an ASCII text just
when the characters do (`encode_eq_append_ascii`). It ends a broken stretch as well, so that the
readable form of any bytes is cut where they are (`lossy_append_ascii`), and no other byte is shown
as an ASCII character: the readable form ends in an ASCII text just when the bytes do
(`suffix_lossy_iff`). -/
namespace ProjectScope.Utf8

@[simp] theorem encode_nil : encode [] = [] := rfl

@[simp] theorem encode_cons (c : Char) (cs : List Char) :
    encode (c :: cs) = String.utf8EncodeChar c ++ encode cs := List.flatMap_cons

@[simp] theorem encode_append (xs ys : List Char) : encode (xs ++ ys) = encode xs ++ encode ys :=
  List.flatMap_append

theorem encode_injective {xs ys : List Char} (h : encode xs = encode ys) : xs = ys := by
  have hx := decode?_encode xs
  rw [h, decode?_encode ys] at hx
  exact (Option.some.inj hx).symm

/-- Every character takes a byte at least. -/
theorem length_le_length_encode (cs : List Char) : cs.length ≤ (encode cs).length := by
  induction cs with
  | nil => exact Nat.le_refl _
  | cons c cs ih =>
    have hpos := c.utf8Size_pos
    rw [encode_cons, List.length_append, String.length_utf8EncodeChar, List.length_cons]
    omega

/-- The byte of an ASCII character. -/
def asciiByte (c : Char) : UInt8 := UInt8.ofNat c.toNat

theorem encodeChar_of_ascii {c : Char} (h : c.toNat < 0x80) :
    String.utf8EncodeChar c = [asciiByte c] := by
  have he : String.utf8EncodeChar c = _ := String.utf8EncodeChar.eq_1 c
  have hv : c.val.toNat ≤ 0x7f := by
    show c.toNat ≤ 0x7f
    omega
  rw [he, if_pos hv]
  rfl

theorem ascii_of_mem_encodeChar {c : Char} {b : UInt8} (hb : b ∈ String.utf8EncodeChar c)
    (h : b.toNat < 0x80) : c.toNat < 0x80 := by
  have he : String.utf8EncodeChar c = _ := String.utf8EncodeChar.eq_1 c
  rw [he] at hb
  have hc : c.val.toNat = c.toNat := rfl
  have hlt : c.toNat < 0x110000 := by
    have hv : c.toNat < 0xD800 ∨ 0xDFFF < c.toNat ∧ c.toNat < 0x110000 := c.valid
    omega
  rw [hc] at hb
  generalize c.toNat = v at hb hlt
  split at hb
  · omega
  split at hb
  · have h₁ : (UInt8.ofNat (v / 64 % 32 + 192)).toNat = _ := toNat_ofNat (by omega)
    have h₂ : (UInt8.ofNat (v % 64 + 128)).toNat = _ := toNat_ofNat (by omega)
    simp only [List.mem_cons, List.not_mem_nil, or_false] at hb
    rcases hb with rfl | rfl <;> omega
  split at hb
  · have h₁ : (UInt8.ofNat (v / 4096 % 16 + 224)).toNat = _ := toNat_ofNat (by omega)
    have h₂ : (UInt8.ofNat (v / 64 % 64 + 128)).toNat = _ := toNat_ofNat (by omega)
    have h₃ : (UInt8.ofNat (v % 64 + 128)).toNat = _ := toNat_ofNat (by omega)
    simp only [List.mem_cons, List.not_mem_nil, or_false] at hb
    rcases hb with rfl | rfl | rfl <;> omega
  · have h₁ : (UInt8.ofNat (v / 262144 % 8 + 240)).toNat = _ := toNat_ofNat (by omega)
    have h₂ : (UInt8.ofNat (v / 4096 % 64 + 128)).toNat = _ := toNat_ofNat (by omega)
    have h₃ : (UInt8.ofNat (v / 64 % 64 + 128)).toNat = _ := toNat_ofNat (by omega)
    have h₄ : (UInt8.ofNat (v % 64 + 128)).toNat = _ := toNat_ofNat (by omega)
    simp only [List.mem_cons, List.not_mem_nil, or_false] at hb
    rcases hb with rfl | rfl | rfl | rfl <;> omega

theorem byte_of_mem_encodeChar {c : Char} {b : UInt8} (hb : b ∈ String.utf8EncodeChar c) :
    (c.toNat < 0x80 ∧ b = asciiByte c) ∨ (0x80 ≤ c.toNat ∧ 0x80 ≤ b.toNat) := by
  by_cases hc : c.toNat < 0x80
  · rw [encodeChar_of_ascii hc] at hb
    exact .inl ⟨hc, List.mem_singleton.mp hb⟩
  · have hb := mt (ascii_of_mem_encodeChar hb) hc
    exact .inr ⟨by omega, by omega⟩

theorem toNat_asciiByte {c : Char} (h : c.toNat < 0x80) : (asciiByte c).toNat = c.toNat :=
  toNat_ofNat (by omega)

theorem asciiByte_injective {c d : Char} (hc : c.toNat < 0x80) (hd : d.toNat < 0x80)
    (h : asciiByte c = asciiByte d) : c = d := by
  have hn := congrArg UInt8.toNat h
  rw [toNat_asciiByte hc, toNat_asciiByte hd] at hn
  exact Char.toNat_inj.mp hn

/-- No other character has the byte of an ASCII character. -/
theorem asciiByte_mem_encodeChar_iff {a c : Char} (ha : a.toNat < 0x80) :
    asciiByte a ∈ String.utf8EncodeChar c ↔ c = a := by
  refine ⟨?_, ?_⟩
  · intro hm
    rcases byte_of_mem_encodeChar hm with ⟨hc, he⟩ | ⟨-, hb⟩
    · exact (asciiByte_injective ha hc he).symm
    · rw [toNat_asciiByte ha] at hb
      omega
  · rintro rfl
    rw [encodeChar_of_ascii ha]
    exact List.mem_singleton_self _

theorem asciiByte_mem_encode_iff {a : Char} (ha : a.toNat < 0x80) {cs : List Char} :
    asciiByte a ∈ encode cs ↔ a ∈ cs := by
  rw [encode, List.mem_flatMap]
  simp only [asciiByte_mem_encodeChar_iff ha, exists_eq_right]

/-- Encoded text is cut at an ASCII byte just where its characters are. -/
theorem encode_eq_append_cons {a : Char} (ha : a.toNat < 0x80) {cs : List Char} :
    ∀ {u v}, encode cs = u ++ asciiByte a :: v →
      ∃ xs ys, cs = xs ++ a :: ys ∧ u = encode xs ∧ v = encode ys := by
  induction cs with
  | nil => intro u v h; simp at h
  | cons c cs ih =>
    intro u v h
    rw [encode_cons] at h
    rcases List.append_eq_append_iff.mp h with ⟨w, hu, hw⟩ | ⟨w, hc, hw⟩
    · obtain ⟨xs, ys, rfl, rfl, rfl⟩ := ih hw
      exact ⟨c :: xs, ys, rfl, by rw [hu, encode_cons], rfl⟩
    · cases w with
      | nil =>
        obtain ⟨xs, ys, rfl, he, rfl⟩ := ih (u := []) hw.symm
        refine ⟨c :: xs, ys, rfl, ?_, rfl⟩
        rw [encode_cons, ← he, hc, List.append_nil, List.append_nil]
      | cons b w =>
        obtain ⟨hb, hv⟩ := List.cons_eq_cons.mp hw
        have hm : asciiByte a ∈ String.utf8EncodeChar c := by simp [hc, hb]
        have hlt : c.toNat < 0x80 :=
          ascii_of_mem_encodeChar hm (by rw [toNat_asciiByte ha]; exact ha)
        rw [encodeChar_of_ascii hlt] at hc hm
        obtain rfl := asciiByte_injective ha hlt (List.mem_singleton.mp hm)
        have hu : u = [] ∧ w = [] := by
          have hl := congrArg List.length hc
          simp at hl
          exact ⟨List.eq_nil_of_length_eq_zero (by omega), List.eq_nil_of_length_eq_zero (by omega)⟩
        obtain ⟨rfl, rfl⟩ := hu
        exact ⟨[], cs, rfl, rfl, hv⟩

theorem encode_eq_append_ascii {e : List Char} (he : ∀ c ∈ e, c.toNat < 0x80) {cs : List Char}
    {u : Bytes} (h : encode cs = u ++ encode e) : ∃ xs, cs = xs ++ e ∧ u = encode xs := by
  cases e with
  | nil => exact ⟨cs, (List.append_nil cs).symm, by simpa using h.symm⟩
  | cons a e =>
    have ha : a.toNat < 0x80 := he a List.mem_cons_self
    rw [encode_cons, encodeChar_of_ascii ha, List.singleton_append] at h
    obtain ⟨xs, ys, rfl, hu, hv⟩ := encode_eq_append_cons ha h
    exact ⟨xs, by rw [encode_injective hv], hu⟩

/-! ## Characters that have been begun -/

theorem toNat_charOfNat {n : Nat} (h : n.isValidChar) : (Char.ofNat n).toNat = n := by
  rw [Char.ofNat, dif_pos h]
  rfl

/-- A byte that begins a longer character is the first of two, of three or of four. -/
theorem begun_cases {b : UInt8} {o : Begun} (h : begin b = .inr o) :
    (0xC2 ≤ b.toNat ∧ b.toNat < 0xE0 ∧ o = ⟨[b], b.toNat - 0xC0, 0, 0x80, 0xBF⟩) ∨
    (0xE0 ≤ b.toNat ∧ b.toNat < 0xF0 ∧ o = ⟨[b], b.toNat - 0xE0, 1,
      if b.toNat = 0xE0 then 0xA0 else 0x80, if b.toNat = 0xED then 0x9F else 0xBF⟩) ∨
    (0xF0 ≤ b.toNat ∧ b.toNat ≤ 0xF4 ∧ o = ⟨[b], b.toNat - 0xF0, 2,
      if b.toNat = 0xF0 then 0x90 else 0x80, if b.toNat = 0xF4 then 0x8F else 0xBF⟩) := by
  have hlead : 0xC2 ≤ b.toNat ∧ b.toNat ≤ 0xF4 := by
    unfold begin at h
    grind
  by_cases htwo : b.toNat < 0xE0
  · rw [begin_two hlead.1 htwo] at h
    exact .inl ⟨hlead.1, htwo, (Sum.inr.inj h).symm⟩
  by_cases hthree : b.toNat < 0xF0
  · rw [begin_three (by omega) hthree] at h
    exact .inr (.inl ⟨by omega, hthree, (Sum.inr.inj h).symm⟩)
  · rw [begin_four (by omega) hlead.2] at h
    exact .inr (.inr ⟨by omega, hlead.2, (Sum.inr.inj h).symm⟩)

/-- Any other byte is a piece of its own, a character or a broken stretch. -/
theorem piece_cases {b : UInt8} {p : Piece} (h : begin b = .inl p) :
    (b.toNat < 0x80 ∧ p = .char (Char.ofNat b.toNat)) ∨ (0x80 ≤ b.toNat ∧ p = .broken [b]) := by
  by_cases hascii : b.toNat < 0x80
  · rw [begin, if_pos hascii] at h
    exact .inl ⟨hascii, (Sum.inl.inj h).symm⟩
  · have hbroken : p = .broken [b] := by
      unfold begin at h
      grind
    exact .inr ⟨Nat.le_of_not_lt hascii, hbroken⟩

namespace Begun

/-- The least code point of a character that goes on from here. -/
def least (o : Begun) : Nat := (o.bits * 64 + (o.low - 0x80)) * 64 ^ o.missing

/-- All code points of characters that go on from here are below. -/
def bound (o : Begun) : Nat := (o.bits * 64 + (o.high - 0x80) + 1) * 64 ^ o.missing

/-- Whatever the next bytes make of it, the character is none of ASCII and no surrogate. -/
structure Wide (o : Begun) : Prop where
  low : 0x80 ≤ o.low
  least : 0x80 ≤ o.least
  bound : o.bound ≤ 0xD800 ∨ 0xE000 ≤ o.least ∧ o.bound ≤ 0x110000

theorem wide_of_begin {b : UInt8} {o : Begun} (h : begin b = .inr o) : o.Wide := by
  rcases begun_cases h with ⟨hl, hh, rfl⟩ | ⟨hl, hh, rfl⟩ | ⟨hl, hh, rfl⟩
  · refine ⟨?_, ?_, ?_⟩ <;> simp only [Begun.least, Begun.bound] <;> omega
  · refine ⟨?_, ?_, ?_⟩ <;> simp only [Begun.least, Begun.bound] <;> grind
  · refine ⟨?_, ?_, ?_⟩ <;> simp only [Begun.least, Begun.bound] <;> grind

variable {o : Begun} {b : UInt8}

theorem Wide.more {n : Nat} (h : o.Wide) (hl : o.low ≤ b.toNat) (hh : b.toNat ≤ o.high)
    (hm : o.missing = n + 1) :
    Wide ⟨b :: o.read, o.bits * 64 + (b.toNat - 0x80), n, 0x80, 0xBF⟩ := by
  have hlow := h.low
  generalize hk : (⟨b :: o.read, o.bits * 64 + (b.toNat - 0x80), n, 0x80, 0xBF⟩ : Begun) = k
  have hleast : o.least ≤ k.least := by
    have hbits : (o.bits * 64 + (o.low - 0x80)) * 64 ^ (n + 1) ≤
        (o.bits * 64 + (b.toNat - 0x80)) * 64 ^ (n + 1) := Nat.mul_le_mul_right _ (by omega)
    rw [Begun.least, Begun.least, ← hk, hm]
    grind
  have hbound : k.bound ≤ o.bound := by
    have hbits : (o.bits * 64 + (b.toNat - 0x80) + 1) * 64 ^ (n + 1) ≤
        (o.bits * 64 + (o.high - 0x80) + 1) * 64 ^ (n + 1) := Nat.mul_le_mul_right _ (by omega)
    rw [Begun.bound, Begun.bound, ← hk, hm]
    grind
  refine ⟨by simp [← hk], Nat.le_trans h.least hleast, ?_⟩
  rcases h.bound with hb | ⟨hb, hb'⟩
  · exact .inl (Nat.le_trans hbound hb)
  · exact .inr ⟨Nat.le_trans hb hleast, Nat.le_trans hbound hb'⟩

theorem Wide.last (h : o.Wide) (hl : o.low ≤ b.toNat) (hh : b.toNat ≤ o.high)
    (hm : o.missing = 0) : 0x80 ≤ (Char.ofNat (o.bits * 64 + (b.toNat - 0x80))).toNat := by
  obtain ⟨hlow, hleast, hbound⟩ := h
  simp only [Begun.least, Begun.bound, hm, Nat.pow_zero, Nat.mul_one] at hleast hbound
  have hvalid : (o.bits * 64 + (b.toNat - 0x80)).isValidChar := by
    unfold Nat.isValidChar
    omega
  rw [toNat_charOfNat hvalid]
  omega

end Begun

/-! ## Bytes that need not be UTF-8 -/

/-- An ASCII byte never goes on with a character that has been begun. -/
theorem piecesAfter_append_ascii {a : UInt8} (ha : a.toNat < 0x80) (s t : Bytes) :
    ∀ begun? : Option Begun, (∀ o ∈ begun?, 0x80 ≤ o.low) →
      piecesAfter begun? (s ++ a :: t) =
        piecesAfter begun? s ++ .char (Char.ofNat a.toNat) :: piecesAfter none t := by
  have hbegin : begin a = .inl (.char (Char.ofNat a.toNat)) := by
    rw [begin, if_pos ha]
  induction s with
  | nil =>
    intro begun? hlow
    cases begun? with
    | none => exact piecesAfter_none_ascii ha t
    | some o =>
      have hout : ¬ (o.low ≤ a.toNat ∧ a.toNat ≤ o.high) := by
        have hl := hlow o rfl
        omega
      simp only [List.nil_append, piecesAfter, if_neg hout, hbegin]
      rfl
  | cons b s ih =>
    have hnone := ih none (by simp)
    have hsome : ∀ o, begin b = .inr o → _ := fun o ho =>
      ih (some o) (by simpa using (Begun.wide_of_begin ho).low)
    intro begun? hlow
    cases begun? with
    | none =>
      simp only [List.cons_append, piecesAfter]
      cases hb : begin b with
      | inl p => simp only [hnone, List.cons_append]
      | inr o => exact hsome o hb
    | some o =>
      simp only [List.cons_append, piecesAfter]
      split
      · cases hm : o.missing with
        | zero => simp only [hnone, List.cons_append]
        | succ n => exact ih (some _) (by simp)
      · cases hb : begin b with
        | inl p => simp only [hnone, List.cons_append]
        | inr o' => simp only [hsome o' hb, List.cons_append]

theorem lossy_append_ascii {a : UInt8} (ha : a.toNat < 0x80) (s t : Bytes) :
    lossy (s ++ a :: t) = lossy s ++ Char.ofNat a.toNat :: lossy t := by
  rw [lossy, pieces, piecesAfter_append_ascii ha s t none (by simp), List.map_append, List.map_cons]
  rfl

/-! ## Readable forms that end in ASCII text -/

theorem piecesAfter_some_out {o : Begun} {b : UInt8} (h : ¬ (o.low ≤ b.toNat ∧ b.toNat ≤ o.high))
    (s : Bytes) :
    piecesAfter (some o) (b :: s) = .broken o.read.reverse :: piecesAfter none (b :: s) := by
  simp only [piecesAfter, if_neg h]

/-- The text ends in a character above ASCII. -/
def EndsHigh (text : List Char) : Prop := ∃ x d, text = x ++ [d] ∧ 0x80 ≤ d.toNat

theorem EndsHigh.cons {text : List Char} (h : EndsHigh text) (c : Char) : EndsHigh (c :: text) := by
  obtain ⟨x, d, rfl, hd⟩ := h
  exact ⟨c :: x, d, rfl, hd⟩

theorem endsHigh_singleton {d : Char} (h : 0x80 ≤ d.toNat) : EndsHigh [d] := ⟨[], d, rfl, h⟩

theorem endsHigh_broken (bytes : Bytes) : EndsHigh [(Piece.broken bytes).shown] := by
  have hmark : 0x80 ≤ '\uFFFD'.toNat := by decide
  exact endsHigh_singleton hmark

/-- One byte above ASCII is shown as a character above ASCII or as a broken stretch. -/
theorem endsHigh_byte {b : UInt8} (hb : 0x80 ≤ b.toNat) {begun? : Option Begun}
    (hw : ∀ o ∈ begun?, o.Wide) : EndsHigh ((piecesAfter begun? [b]).map Piece.shown) := by
  have hnone : EndsHigh ((piecesAfter none [b]).map Piece.shown) := by
    simp only [piecesAfter]
    cases h : begin b with
    | inr o => exact endsHigh_broken _
    | inl p =>
      rcases piece_cases h with ⟨hascii, -⟩ | ⟨-, rfl⟩
      · omega
      · exact endsHigh_broken _
  cases begun? with
  | none => exact hnone
  | some o =>
    by_cases hin : o.low ≤ b.toNat ∧ b.toNat ≤ o.high
    · cases hm : o.missing with
      | zero =>
        rw [piecesAfter_some_last hin.1 hin.2 hm]
        exact endsHigh_singleton ((hw o rfl).last hin.1 hin.2 hm)
      | succ n =>
        rw [piecesAfter_some_more hin.1 hin.2 hm]
        exact endsHigh_broken _
    · rw [piecesAfter_some_out hin]
      exact hnone.cons _

theorem endsHigh_append_byte {b : UInt8} (hb : 0x80 ≤ b.toNat) (s : Bytes) :
    ∀ begun? : Option Begun, (∀ o ∈ begun?, o.Wide) →
      EndsHigh ((piecesAfter begun? (s ++ [b])).map Piece.shown) := by
  induction s with
  | nil => exact fun begun? hw => endsHigh_byte hb hw
  | cons a s ih =>
    have hrest : EndsHigh ((piecesAfter none (s ++ [b])).map Piece.shown) := ih none (by simp)
    have hnone : EndsHigh ((piecesAfter none (a :: (s ++ [b]))).map Piece.shown) := by
      rw [piecesAfter]
      cases h : begin a with
      | inl p => exact hrest.cons _
      | inr o => exact ih (some o) (by simpa using Begun.wide_of_begin h)
    intro begun? hw
    cases begun? with
    | none => exact hnone
    | some o =>
      rw [List.cons_append]
      by_cases hin : o.low ≤ a.toNat ∧ a.toNat ≤ o.high
      · cases hm : o.missing with
        | zero =>
          -- The character is complete, and what is shown at the end is told by the rest.
          rw [piecesAfter_some_last hin.1 hin.2 hm]
          exact hrest.cons _
        | succ n =>
          rw [piecesAfter_some_more hin.1 hin.2 hm]
          exact ih (some _) (by simpa using (hw o rfl).more hin.1 hin.2 hm)
      · rw [piecesAfter_some_out hin]
        exact hnone.cons _

/-- What is shown as an ASCII character at the end is a byte of its own. -/
theorem eq_append_of_lossy {c : Char} (hc : c.toNat < 0x80) {s : Bytes} {x : List Char}
    (h : lossy s = x ++ [c]) : ∃ t, s = t ++ [asciiByte c] := by
  rcases List.eq_nil_or_concat s with rfl | ⟨t, b, rfl⟩
  · simp [lossy, pieces, piecesAfter] at h
  rw [List.concat_eq_append] at h ⊢
  by_cases hb : b.toNat < 0x80
  · have hcut : lossy (t ++ [b]) = lossy t ++ [Char.ofNat b.toNat] := lossy_append_ascii hb t []
    obtain ⟨-, hlast⟩ := List.append_inj' (hcut.symm.trans h) rfl
    have hc : Char.ofNat b.toNat = c := List.singleton_inj.mp hlast
    have hbyte : asciiByte c = b := by
      rw [asciiByte, ← hc, toNat_charOfNat (.inl (by omega)), UInt8.ofNat_toNat]
    exact ⟨t, by rw [hbyte]⟩
  · obtain ⟨x', d, hd, hhigh⟩ := endsHigh_append_byte (Nat.le_of_not_lt hb) t none (by simp)
    obtain ⟨-, hlast⟩ := List.append_inj' (hd.symm.trans h) rfl
    rw [List.singleton_inj] at hlast
    rw [hlast] at hhigh
    omega

theorem lossy_append_encode {e : List Char} (he : ∀ c ∈ e, c.toNat < 0x80) (s : Bytes) :
    lossy (s ++ encode e) = lossy s ++ e := by
  cases e with
  | nil => simp
  | cons c e =>
    have hc : c.toNat < 0x80 := he c List.mem_cons_self
    have hbyte : (asciiByte c).toNat < 0x80 := (toNat_asciiByte hc).symm ▸ hc
    rw [encode_cons, encodeChar_of_ascii hc, List.singleton_append, lossy_append_ascii hbyte,
      toNat_asciiByte hc, Char.ofNat_toNat, lossy_encode]

theorem suffix_lossy_iff {e : List Char} (he : ∀ c ∈ e, c.toNat < 0x80) (s : Bytes) :
    e <:+ lossy s ↔ encode e <:+ s := by
  refine ⟨?_, ?_⟩
  · intro h
    induction e with
    | nil => exact List.nil_suffix
    | cons c e ih =>
      have hc : c.toNat < 0x80 := he c List.mem_cons_self
      have he' : ∀ d ∈ e, d.toNat < 0x80 := fun d hd => he d (List.mem_cons_of_mem c hd)
      obtain ⟨t, rfl⟩ := ih he' ((List.suffix_cons c e).trans h)
      obtain ⟨x, hx⟩ := h
      rw [lossy_append_encode he', ← List.singleton_append, ← List.append_assoc] at hx
      have hcut : lossy t = x ++ [c] := (List.append_cancel_right hx).symm
      obtain ⟨u, rfl⟩ := eq_append_of_lossy hc hcut
      exact ⟨u, by rw [encode_cons, encodeChar_of_ascii hc, List.append_assoc]⟩
  · intro h
    obtain ⟨t, rfl⟩ := h
    exact ⟨lossy t, (lossy_append_encode he t).symm⟩

end ProjectScope.Utf8
