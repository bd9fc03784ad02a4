import ProjectScope.Json.Reader

/-! # The tokens of a value

A value is written with one row of tokens (`Value.tokens`), and the reader takes just these: what it
has taken at any moment is told by its frames and by what it awaits (`Taken`), one more token is
added to it at each step (`Taken.step`), and at the end it is the row of the value
(`tokens_of_run`). Who skips a value passes over its tokens and no others, however deep it is
nested. Main statements: `tokens_of_read`, `skipValue_tokens`. -/
namespace ProjectScope.Json

namespace Value

mutual
/-- The tokens that a value is written with. -/
def tokens : Value → List Token
  | .null => [.null]
  | .bool b => [.bool b]
  | .number x => [.number (some x)]
  | .string s => [.string (some s)]
  | .list items => .openList :: itemTokens items
  | .object fields => .openObject :: fieldTokens fields

/-- The rest of a list whose bracket is open. -/
def itemTokens : List Value → List Token
  | [] => [.closeList]
  | v :: more => v.tokens ++ moreItemTokens more

/-- The rest of a list after an item. -/
def moreItemTokens : List Value → List Token
  | [] => [.closeList]
  | v :: more => .comma :: (v.tokens ++ moreItemTokens more)

/-- The rest of an object whose brace is open. -/
def fieldTokens : List (String × Value) → List Token
  | [] => [.closeObject]
  | (name, v) :: more => .string (some name) :: .colon :: (v.tokens ++ moreFieldTokens more)

/-- The rest of an object after a field. -/
def moreFieldTokens : List (String × Value) → List Token
  | [] => [.closeObject]
  | (name, v) :: more =>
    .comma :: .string (some name) :: .colon :: (v.tokens ++ moreFieldTokens more)
end

theorem moreItemTokens_append (items : List Value) (v : Value) :
    moreItemTokens (items ++ [v]) = .comma :: itemTokens (items ++ [v]) := by
  cases items with
  | nil => simp only [List.nil_append, moreItemTokens, itemTokens]
  | cons w items => simp only [List.cons_append, moreItemTokens, itemTokens]

theorem moreFieldTokens_append (fields : List (String × Value)) (name : String) (v : Value) :
    moreFieldTokens (fields ++ [(name, v)]) = .comma :: fieldTokens (fields ++ [(name, v)]) := by
  cases fields with
  | nil => simp only [List.nil_append, moreFieldTokens, fieldTokens]
  | cons field fields => simp only [List.cons_append, moreFieldTokens, fieldTokens]

end Value

namespace Reader

/-! ## What has been taken -/

/-- The tokens of an open list before its next item; the items stand the latest first. -/
def openedList (items : List Value) : List Token :=
  .openList :: items.reverse.flatMap fun v => v.tokens ++ [.comma]

/-- The tokens of an open object before its next name; the fields stand the latest first. -/
def openedObject (fields : List (String × Value)) : List Token :=
  .openObject :: fields.reverse.flatMap fun (name, v) =>
    .string (some name) :: .colon :: v.tokens ++ [.comma]

/-- The tokens of what is open, up to the value that comes next. -/
def opened : List Frame → List Token
  | [] => []
  | .list items :: frames => opened frames ++ openedList items
  | .object fields name :: frames =>
    opened frames ++ openedObject fields ++ [.string (some name), .colon]

/-- The tokens taken so far inside frames, by what may come next. -/
inductive Taken : List Frame → Awaited → List Token → Prop
  | value {frames} : Taken frames .value (opened frames)
  | firstItem {frames} : Taken frames .firstItem (opened frames ++ [.openList])
  | afterItem {frames items v} :
      Taken frames (.afterItem (v :: items)) (opened (.list items :: frames) ++ v.tokens)
  | firstName {frames} : Taken frames (.name true []) (opened frames ++ [.openObject])
  | name {frames fields} : Taken frames (.name false fields) (opened frames ++ openedObject fields)
  | colon {frames fields name} :
      Taken frames (.colon fields name)
        (opened frames ++ openedObject fields ++ [.string (some name)])
  | afterField {frames fields name v} :
      Taken frames (.afterField ((name, v) :: fields))
        (opened (.object fields name :: frames) ++ v.tokens)
  | nothing {v} : Taken [] (.nothing v) v.tokens

variable {frames frames' : List Frame} {awaited awaited' : Awaited} {done : List Token} {t : Token}

theorem taken_place (v : Value) (frames : List Frame) :
    Taken (place v frames).1 (place v frames).2 (opened frames ++ v.tokens) := by
  cases frames with
  | nil => exact .nothing
  | cons frame frames =>
    cases frame with
    | list items => exact .afterItem
    | object fields name => exact .afterField

theorem opened_list_cons (items : List Value) (v : Value) (frames : List Frame) :
    opened (.list (v :: items) :: frames) =
      opened (.list items :: frames) ++ v.tokens ++ [.comma] := by
  simp [opened, openedList]

theorem openedObject_cons (fields : List (String × Value)) (name : String) (v : Value)
    (frames : List Frame) : opened frames ++ openedObject ((name, v) :: fields) =
      opened (.object fields name :: frames) ++ v.tokens ++ [.comma] := by
  simp [opened, openedObject]

theorem openedList_close (items : List Value) (v : Value) :
    openedList items ++ v.tokens ++ [.closeList] =
      (Value.list (v :: items).reverse).tokens := by
  have hmore : ∀ done : List Value,
      (done.flatMap fun w => w.tokens ++ [.comma]) ++ v.tokens ++ [.closeList] =
        Value.itemTokens (done ++ [v]) := by
    intro done
    induction done with
    | nil => simp [Value.itemTokens, Value.moreItemTokens]
    | cons w done ih =>
      rw [List.cons_append, Value.itemTokens, Value.moreItemTokens_append, ← ih]
      simp
  rw [List.reverse_cons, Value.tokens, ← hmore, openedList]
  simp

theorem openedObject_close (fields : List (String × Value)) (name : String) (v : Value) :
    openedObject fields ++ [.string (some name), .colon] ++ v.tokens ++ [.closeObject] =
      (Value.object ((name, v) :: fields).reverse).tokens := by
  have hmore : ∀ done : List (String × Value),
      (done.flatMap fun (name, w) => .string (some name) :: .colon :: w.tokens ++ [.comma]) ++
          [.string (some name), .colon] ++ v.tokens ++ [.closeObject] =
        Value.fieldTokens (done ++ [(name, v)]) := by
    intro done
    induction done with
    | nil => simp [Value.fieldTokens, Value.moreFieldTokens]
    | cons field done ih =>
      rw [List.cons_append, Value.fieldTokens, Value.moreFieldTokens_append, ← ih]
      simp
  rw [List.reverse_cons, Value.tokens, ← hmore, openedObject]
  simp

theorem Taken.startValue (h : Reader.startValue .wanted frames t = .ok (frames', awaited')) :
    Taken frames' awaited' (opened frames ++ [t]) := by
  have hplaced : ∀ v : Value, v.tokens = [t] → place v frames = (frames', awaited') →
      Taken frames' awaited' (opened frames ++ [t]) := by
    intro v hv hplace
    have htaken := taken_place v frames
    rwa [hplace, hv] at htaken
  unfold Reader.startValue at h
  split at h
  · exact hplaced .null rfl (Except.ok.inj h)
  · exact hplaced (.bool _) rfl (Except.ok.inj h)
  · exact hplaced (.number _) rfl (Except.ok.inj h)
  · exact hplaced (.string _) rfl (Except.ok.inj h)
  · split at h
    · cases h
      exact .firstItem
    · cases h
  · split at h
    · cases h
      exact .firstName
    · cases h
  · cases h
  · cases h

/-- One more token is taken at each step. -/
theorem Taken.step (htaken : Taken frames awaited done)
    (h : Reader.step .wanted frames awaited t = .ok (frames', awaited')) :
    Taken frames' awaited' (done ++ [t]) := by
  have hclosed : ∀ v : Value, done ++ [t] = opened frames ++ v.tokens →
      place v frames = (frames', awaited') → Taken frames' awaited' (done ++ [t]) := by
    intro v hv hplace
    have hplaced := taken_place v frames
    rwa [hplace, ← hv] at hplaced
  unfold Reader.step at h
  split at h
  case h_1 =>
    cases htaken
    exact .startValue h
  case h_2 =>
    cases htaken
    refine hclosed (.list []) ?_ (Except.ok.inj h)
    simp [Value.tokens, Value.itemTokens]
  case h_3 =>
    cases htaken
    exact .startValue h
  case h_4 =>
    cases htaken
    cases h
    rw [← opened_list_cons]
    exact .value
  case h_5 =>
    cases htaken
    refine hclosed _ ?_ (Except.ok.inj h)
    rw [← openedList_close, opened]
    simp
  case h_6 =>
    cases h
    cases htaken with
    | firstName => exact .colon
    | name => exact .colon
  case h_7 =>
    cases htaken
    refine hclosed (.object []) ?_ (Except.ok.inj h)
    simp [Value.tokens, Value.fieldTokens]
  case h_8 => cases h
  case h_9 =>
    cases htaken
    cases h
    rw [List.append_assoc]
    exact .value
  case h_10 =>
    cases htaken
    cases h
    rw [← openedObject_cons]
    exact .name
  case h_11 =>
    cases htaken
    refine hclosed _ ?_ (Except.ok.inj h)
    rw [← openedObject_close, opened]
    simp
  case h_12 => cases h

theorem ended_or_step_of_run {ts rest : List Token} {v : Value}
    (h : run .wanted frames awaited (t :: ts) = .ok (v, rest)) :
    awaited = .nothing v ∧ rest = t :: ts ∨ ∃ frames' awaited',
      Reader.step .wanted frames awaited t = .ok (frames', awaited') ∧
        run .wanted frames' awaited' ts = .ok (v, rest) := by
  unfold run at h
  split at h
  · cases h
    exact .inl ⟨rfl, rfl⟩
  · contradiction
  · rename_i heq
    cases heq
    split at h
    · cases h
    · rename_i frames' awaited' hstep
      exact .inr ⟨frames', awaited', hstep, h⟩

/-- A whole run takes the tokens of the value and no more. -/
theorem tokens_of_run {ts rest : List Token} {v : Value} (htaken : Taken frames awaited done)
    (h : run .wanted frames awaited ts = .ok (v, rest)) : done ++ ts = v.tokens ++ rest := by
  induction ts generalizing frames awaited done with
  | nil =>
    cases htaken with
    | nothing =>
      cases h
      rfl
    | _ => cases h
  | cons t ts ih =>
    rcases ended_or_step_of_run h with ⟨rfl, rfl⟩ | ⟨frames', awaited', hstep, hrun⟩
    · cases htaken
      rfl
    · rw [← ih (htaken.step hstep) hrun, List.append_assoc, List.singleton_append]

end Reader

/-- A text that can be read has the tokens of its value. -/
theorem tokens_of_read {text : List Char} {v : Value} (h : read text = .ok v) :
    Token.ofChars text = v.tokens := by
  unfold read at h
  split at h
  · cases h
    rename_i hrun
    simpa [Reader.opened] using Reader.tokens_of_run .value hrun
  · cases h
  · cases h

/-! ## Values that are skipped -/

namespace Reader

variable {rest : List Token}

/-- Skips on after a complete value inside frames. -/
def skipAfter (v : Value) (frames : List Frame) (ts : List Token) :
    Except Fault (Value × List Token) :=
  run .skipped (place v frames).1 (place v frames).2 ts

theorem skip_firstItem (v : Value) (frames : List Frame) (ts : List Token) :
    run .skipped frames .firstItem (v.tokens ++ ts) =
      run .skipped (.list [] :: frames) .value (v.tokens ++ ts) := by
  cases v <;> rfl

mutual
theorem skip_tokens (v : Value) (frames : List Frame) (rest : List Token) :
    run .skipped frames .value (v.tokens ++ rest) = skipAfter v frames rest := by
  match v with
  | .null | .bool _ | .number _ | .string _ => rfl
  | .list [] => rfl
  | .list (v :: more) =>
    calc run .skipped frames .value ((Value.list (v :: more)).tokens ++ rest)
      _ = run .skipped frames .firstItem (v.tokens ++ Value.moreItemTokens more ++ rest) := rfl
      _ = skipAfter v (.list [] :: frames) (Value.moreItemTokens more ++ rest) := by
        rw [List.append_assoc, skip_firstItem, skip_tokens v]
      _ = skipAfter (.list (v :: more)) frames rest := skip_moreItemTokens [v] more frames rest
  | .object [] => rfl
  | .object ((name, v) :: more) =>
    calc run .skipped frames .value ((Value.object ((name, v) :: more)).tokens ++ rest)
      _ = run .skipped (.object [] name :: frames) .value
          (v.tokens ++ Value.moreFieldTokens more ++ rest) := rfl
      _ = skipAfter v (.object [] name :: frames) (Value.moreFieldTokens more ++ rest) := by
        rw [List.append_assoc, skip_tokens v]
      _ = skipAfter (.object ((name, v) :: more)) frames rest :=
        skip_moreFieldTokens [(name, v)] more frames rest

theorem skip_moreItemTokens (items more : List Value) (frames : List Frame) (rest : List Token) :
    run .skipped frames (.afterItem items) (Value.moreItemTokens more ++ rest) =
      skipAfter (.list (items.reverse ++ more)) frames rest := by
  match more with
  | [] =>
    rw [List.append_nil]
    rfl
  | v :: more =>
    calc run .skipped frames (.afterItem items) (Value.moreItemTokens (v :: more) ++ rest)
      _ = run .skipped (.list items :: frames) .value
          (v.tokens ++ Value.moreItemTokens more ++ rest) := rfl
      _ = skipAfter v (.list items :: frames) (Value.moreItemTokens more ++ rest) := by
        rw [List.append_assoc, skip_tokens v]
      _ = skipAfter (.list ((v :: items).reverse ++ more)) frames rest :=
        skip_moreItemTokens (v :: items) more frames rest
      _ = skipAfter (.list (items.reverse ++ v :: more)) frames rest := by
        rw [List.reverse_cons, List.append_assoc, List.singleton_append]

theorem skip_moreFieldTokens (fields more : List (String × Value)) (frames : List Frame)
    (rest : List Token) :
    run .skipped frames (.afterField fields) (Value.moreFieldTokens more ++ rest) =
      skipAfter (.object (fields.reverse ++ more)) frames rest := by
  match more with
  | [] =>
    rw [List.append_nil]
    rfl
  | (name, v) :: more =>
    calc run .skipped frames (.afterField fields)
          (Value.moreFieldTokens ((name, v) :: more) ++ rest)
      _ = run .skipped (.object fields name :: frames) .value
          (v.tokens ++ Value.moreFieldTokens more ++ rest) := rfl
      _ = skipAfter v (.object fields name :: frames) (Value.moreFieldTokens more ++ rest) := by
        rw [List.append_assoc, skip_tokens v]
      _ = skipAfter (.object (((name, v) :: fields).reverse ++ more)) frames rest :=
        skip_moreFieldTokens ((name, v) :: fields) more frames rest
      _ = skipAfter (.object (fields.reverse ++ (name, v) :: more)) frames rest := by
        rw [List.reverse_cons, List.append_assoc, List.singleton_append]
end

end Reader

/-- Who skips a value passes over its tokens, however deep it is nested. -/
theorem skipValue_tokens (v : Value) (rest : List Token) :
    skipValue (v.tokens ++ rest) = .ok rest := by
  rw [skipValue, Reader.skip_tokens]
  cases rest <;> rfl

end ProjectScope.Json
