import ProjectScope.Text.Utf8

/-!
What the reading of byte texts gives back. Main statements: an ASCII byte between characters is a
piece of its own (`piecesAfter_none_ascii`), and characters that were written out are read back
(`decode?_encode`, `lossy_encode`).
-/

namespace ProjectScope.Utf8

theorem toNat_ofNat {n : Nat} (h : n < 256) : (UInt8.ofNat n).toNat = n :=
  UInt8.toNat_ofNat_of_lt h

/-- An ASCII byte between characters is a character of its own. -/
theorem piecesAfter_none_ascii {b : UInt8} (h : b.toNat < 0x80) (s : Bytes) :
    piecesAfter none (b :: s) = .char (Char.ofNat b.toNat) :: piecesAfter none s := by
  simp [piecesAfter, begin, h]

/-- A byte that begins a longer character waits for the bytes after it. -/
theorem piecesAfter_none_lead {b : UInt8} {o : Begun} (h : begin b = .inr o) (s : Bytes) :
    piecesAfter none (b :: s) = piecesAfter (some o) s := by
  simp [piecesAfter, h]

/-- The last byte of a character completes it. -/
theorem piecesAfter_some_last {o : Begun} {b : UInt8} (hl : o.low ≤ b.toNat) (hh : b.toNat ≤ o.high)
    (hm : o.missing = 0) (s : Bytes) :
    piecesAfter (some o) (b :: s) =
      .char (Char.ofNat (o.bits * 64 + (b.toNat - 0x80))) :: piecesAfter none s := by
  simp [piecesAfter, hl, hh, hm]

/-- A byte in the middle of a character adds six bits to it. -/
theorem piecesAfter_some_more {o : Begun} {b : UInt8} {n : Nat} (hl : o.low ≤ b.toNat)
    (hh : b.toNat ≤ o.high) (hm : o.missing = n + 1) (s : Bytes) :
    piecesAfter (some o) (b :: s) =
      piecesAfter (some ⟨b :: o.read, o.bits * 64 + (b.toNat - 0x80), n, 0x80, 0xBF⟩) s := by
  simp [piecesAfter, hl, hh, hm]

/-- The first of two bytes. -/
theorem begin_two {b : UInt8} (hl : 0xC2 ≤ b.toNat) (hh : b.toNat < 0xE0) :
    begin b = .inr ⟨[b], b.toNat - 0xC0, 0, 0x80, 0xBF⟩ := by
  unfold begin
  grind

/-- The first of three bytes. -/
theorem begin_three {b : UInt8} (hl : 0xE0 ≤ b.toNat) (hh : b.toNat < 0xF0) :
    begin b = .inr ⟨[b], b.toNat - 0xE0, 1, if b.toNat = 0xE0 then 0xA0 else 0x80,
      if b.toNat = 0xED then 0x9F else 0xBF⟩ := by
  unfold begin
  grind

/-- The first of four bytes. -/
theorem begin_four {b : UInt8} (hl : 0xF0 ≤ b.toNat) (hh : b.toNat ≤ 0xF4) :
    begin b = .inr ⟨[b], b.toNat - 0xF0, 2, if b.toNat = 0xF0 then 0x90 else 0x80,
      if b.toNat = 0xF4 then 0x8F else 0xBF⟩ := by
  unfold begin
  grind

/-- The bytes of a character are read as that character. -/
theorem piecesAfter_encodeChar (c : Char) (s : Bytes) :
    piecesAfter none (String.utf8EncodeChar c ++ s) = .char c :: piecesAfter none s := by
  have hv : c.toNat < 0xD800 ∨ 0xDFFF < c.toNat ∧ c.toNat < 0x110000 := c.valid
  have hc : Char.ofNat c.toNat = c := Char.ofNat_toNat c
  generalize hn : c.toNat = v at hv hc
  have he : String.utf8EncodeChar c = _ := String.utf8EncodeChar.eq_1 c
  rw [he, show c.val.toNat = v from hn]
  split
  · have h : (UInt8.ofNat v).toNat = v := toNat_ofNat (by omega)
    rw [List.singleton_append, piecesAfter_none_ascii (by omega), h, hc]
  split
  · have h₁ : (UInt8.ofNat (v / 64 % 32 + 192)).toNat = _ := toNat_ofNat (by omega)
    have h₂ : (UInt8.ofNat (v % 64 + 128)).toNat = _ := toNat_ofNat (by omega)
    rw [List.cons_append, piecesAfter_none_lead (begin_two (by omega) (by omega)),
      List.singleton_append, piecesAfter_some_last (by simp only; omega) (by simp only; omega) rfl]
    simp only [h₁, h₂]
    rw [show (v / 64 % 32 + 192 - 192) * 64 + (v % 64 + 128 - 128) = v by omega, hc]
  split
  · have h₁ : (UInt8.ofNat (v / 4096 % 16 + 224)).toNat = _ := toNat_ofNat (by omega)
    have h₂ : (UInt8.ofNat (v / 64 % 64 + 128)).toNat = _ := toNat_ofNat (by omega)
    have h₃ : (UInt8.ofNat (v % 64 + 128)).toNat = _ := toNat_ofNat (by omega)
    rw [List.cons_append, piecesAfter_none_lead (begin_three (by omega) (by omega)),
      List.cons_append, piecesAfter_some_more (by simp only; split <;> omega)
        (by simp only; split <;> omega) rfl,
      List.singleton_append, piecesAfter_some_last (by simp only; omega) (by simp only; omega) rfl]
    simp only [h₁, h₂, h₃]
    rw [show ((v / 4096 % 16 + 224 - 224) * 64 + (v / 64 % 64 + 128 - 128)) * 64
      + (v % 64 + 128 - 128) = v by omega, hc]
  · have h₁ : (UInt8.ofNat (v / 262144 % 8 + 240)).toNat = _ := toNat_ofNat (by omega)
    have h₂ : (UInt8.ofNat (v / 4096 % 64 + 128)).toNat = _ := toNat_ofNat (by omega)
    have h₃ : (UInt8.ofNat (v / 64 % 64 + 128)).toNat = _ := toNat_ofNat (by omega)
    have h₄ : (UInt8.ofNat (v % 64 + 128)).toNat = _ := toNat_ofNat (by omega)
    rw [List.cons_append, piecesAfter_none_lead (begin_four (by omega) (by omega)),
      List.cons_append, piecesAfter_some_more (by simp only; split <;> omega)
        (by simp only; split <;> omega) rfl,
      List.cons_append, piecesAfter_some_more (by simp only; omega) (by simp only; omega) rfl,
      List.singleton_append, piecesAfter_some_last (by simp only; omega) (by simp only; omega) rfl]
    simp only [h₁, h₂, h₃, h₄]
    rw [show (((v / 262144 % 8 + 240 - 240) * 64 + (v / 4096 % 64 + 128 - 128)) * 64
      + (v / 64 % 64 + 128 - 128)) * 64 + (v % 64 + 128 - 128) = v by omega, hc]

theorem pieces_encode (cs : List Char) : pieces (encode cs) = cs.map .char := by
  induction cs with
  | nil => rfl
  | cons c cs ih =>
    rw [encode, List.flatMap_cons]
    exact (piecesAfter_encodeChar c _).trans (congrArg _ ih)

theorem decode?_encode (cs : List Char) : decode? (encode cs) = some cs := by
  rw [decode?, pieces_encode, List.mapM_map]
  induction cs with
  | nil => rfl
  | cons c cs ih => simp [List.mapM_cons, Piece.char?, ih]

theorem lossy_encode (cs : List Char) : lossy (encode cs) = cs := by
  rw [lossy, pieces_encode, List.map_map]
  exact List.map_id'' (fun _ => rfl) cs

end ProjectScope.Utf8
