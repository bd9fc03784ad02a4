import Mathlib.Data.List.Nodup
import ProjectScope.Config.OfText
import ProjectScope.Proofs.FailingFolds
import ProjectScope.Proofs.ValueTokens

/-! # Records read from tokens

A record stands for an object with fields of known names, or for a list of their values in order.
What its fields mean together is told apart from any reader (`Describes`); a reader that has been
told some of them and refused none is in the state that they mean (`Told`). One more field takes it
to the next such state (`fieldValue_eq_ok_iff`), so over all fields of an object and over all items
of a list it reads what the record means. Main statement: `Describes.record_follows`. -/
namespace ProjectScope.Config.OfText

open Json (Token Fault Value)

variable {α β σ : Type} {ts rest : List Token}

/-- On the tokens of a value the reading gives what the value means and leaves what comes after. -/
def Follows (reading : Reading α) (meaning : Value → Option α) : Prop :=
  ∀ v rest a ts, reading (v.tokens ++ rest) = .ok (a, ts) ↔ meaning v = some a ∧ ts = rest

theorem refuse_ne_ok {a : α × List Token} : refuse ts ≠ .ok a := by
  cases ts <;> simp [refuse]

theorem stop_ne_ok {a : α × List Token} : stop ts ≠ .ok a := by
  cases ts <;> simp [stop]

theorem map_eq_ok {x : Except Fault (α × List Token)} {f : α → β} {b : β} :
    (x.map fun read => (f read.1, read.2)) = .ok (b, ts) ↔ ∃ a, x = .ok (a, ts) ∧ f a = b := by
  cases x with
  | error fault => simp [Except.map]
  | ok read =>
    simp only [Except.map, Except.ok.injEq, Prod.ext_iff]
    refine ⟨?_, ?_⟩
    · intro h
      exact ⟨read.1, ⟨rfl, h.2⟩, h.1⟩
    · intro h
      obtain ⟨a, ⟨rfl, hrest⟩, hvalue⟩ := h
      exact ⟨hvalue, hrest⟩

theorem Follows.map {reading : Reading α} {meaning : Value → Option α} (h : Follows reading meaning)
    (f : α → β) :
    Follows (fun ts => (reading ts).map fun read => (f read.1, read.2)) fun v =>
      (meaning v).map f := by
  intro v rest b ts
  simp only [map_eq_ok, h v rest, Option.map_eq_some_iff]
  grind

theorem Follows.congr {reading : Reading α} {meaning meaning' : Value → Option α}
    (h : Follows reading meaning) (heq : ∀ v, meaning v = meaning' v) : Follows reading meaning' :=
  funext heq ▸ h

/-! ## Records -/

/-- Those of the given names that fields have, in their order. -/
def namesAmong (names : List String) (fields : List (String × Value)) : List String :=
  (fields.map Prod.fst).filter names.contains

/-- The names that may stand only once, in some fields of a record. -/
abbrev seen (known : KnownFields σ) (told : List (String × Value)) : List String :=
  namesAmong (known.map Prod.fst) told

/-- What the fields of a record, told the latest first, mean together, as long as no known one is
told twice. -/
structure Describes (known : KnownFields σ) (initial : σ)
    (meaning : List (String × Value) → Option σ) : Prop where
  untold : meaning [] = some initial
  unknown {name : String} (v : Value) (told : List (String × Value)) :
    known.lookup name = none → meaning ((name, v) :: told) = meaning told
  /-- Only a field told anew may turn what had no meaning into what has one. -/
  earlier {name : String} {told : List (String × Value)} {v : Value} {s : σ} :
    told.lookup name = none → meaning ((name, v) :: told) = some s → ∃ s', meaning told = some s'
  field {name : String} {told : List (String × Value)} {s : σ} {readField : σ → Reading σ} :
    known.lookup name = some readField → told.lookup name = none → meaning told = some s →
      Follows (readField s) fun v => meaning ((name, v) :: told)

/-- A reader that has been told these fields of a record, and has refused none. -/
structure Told (known : KnownFields σ) (meaning : List (String × Value) → Option σ)
    (told : List (String × Value)) (u : List String × σ) : Prop where
  seen_eq : u.1 = seen known told
  once : (seen known told).Nodup
  meaning_eq : meaning told = some u.2

variable {known : KnownFields σ} {initial s : σ} {meaning : List (String × Value) → Option σ}
  {told : List (String × Value)} {name : String} {readField : σ → Reading σ}

theorem contains_names (known : KnownFields σ) (name : String) :
    (known.map Prod.fst).contains name = (known.lookup name).isSome := by
  rw [Bool.eq_iff_iff, List.lookup_isSome_iff]
  simp

theorem contains_of_known (h : known.lookup name = some readField) :
    (known.map Prod.fst).contains name = true := by
  rw [contains_names, h, Option.isSome_some]

theorem seen_cons_known (v : Value) (told : List (String × Value))
    (h : known.lookup name = some readField) :
    seen known ((name, v) :: told) = name :: seen known told :=
  List.filter_cons_of_pos (contains_of_known h)

theorem seen_cons_unknown (v : Value) (told : List (String × Value))
    (h : known.lookup name = none) :
    seen known ((name, v) :: told) = seen known told := by
  have hname : ¬(known.map Prod.fst).contains name = true := by rw [contains_names, h]; simp
  exact List.filter_cons_of_neg hname

theorem lookup_eq_none_of_unseen (h : known.lookup name = some readField)
    (hunseen : name ∉ seen known told) : told.lookup name = none := by
  rw [List.lookup_eq_none_iff]
  intro field hfield
  rw [bne_iff_ne]
  rintro rfl
  exact hunseen (List.mem_filter.mpr ⟨List.mem_map_of_mem hfield, contains_of_known h⟩)

theorem Describes.told_nil (h : Describes known initial meaning) :
    Told known meaning [] ([], initial) :=
  ⟨rfl, .nil, h.untold⟩

/-- What may be told in the end may be told at any time before. -/
theorem Describes.exists_told (h : Describes known initial meaning) {u : List String × σ}
    (more : List (String × Value)) (htold : Told known meaning (more ++ told) u) :
    ∃ u', Told known meaning told u' := by
  induction more generalizing u with
  | nil => exact ⟨u, htold⟩
  | cons field more ih =>
    obtain ⟨name, v⟩ := field
    have honce := htold.once
    have hmeaning := htold.meaning_eq
    rw [List.cons_append] at honce hmeaning
    -- An unknown field has not changed anything, and a known one was told for the first time.
    cases hknown : known.lookup name with
    | none =>
      rw [seen_cons_unknown v _ hknown] at honce
      rw [h.unknown v _ hknown] at hmeaning
      exact ih (u := (_, u.2)) ⟨rfl, honce, hmeaning⟩
    | some readField =>
      rw [seen_cons_known v _ hknown, List.nodup_cons] at honce
      obtain ⟨s, hs⟩ := h.earlier (lookup_eq_none_of_unseen hknown honce.1) hmeaning
      exact ih (u := (_, s)) ⟨rfl, honce.2, hs⟩

theorem Told.unique {u u' : List String × σ} (htold : Told known meaning told u)
    (htold' : Told known meaning told u') : u = u' := by
  have hmeaning := htold.meaning_eq
  rw [htold'.meaning_eq, Option.some.injEq] at hmeaning
  exact Prod.ext (htold.seen_eq.trans htold'.seen_eq.symm) hmeaning.symm

theorem Describes.told_unknown_iff (h : Describes known initial meaning)
    (hknown : known.lookup name = none) (v : Value) {u : List String × σ} :
    Told known meaning ((name, v) :: told) u ↔ Told known meaning told u := by
  have hseen := seen_cons_unknown v told hknown
  have hmeaning := h.unknown v told hknown
  refine ⟨?_, ?_⟩
  · intro htold
    exact ⟨hseen ▸ htold.seen_eq, hseen ▸ htold.once, hmeaning ▸ htold.meaning_eq⟩
  · intro htold
    exact ⟨hseen.symm ▸ htold.seen_eq, hseen.symm ▸ htold.once, hmeaning.symm ▸ htold.meaning_eq⟩

theorem told_known_iff (hknown : known.lookup name = some readField) (v : Value)
    {u u' : List String × σ} (htold : Told known meaning told u) :
    Told known meaning ((name, v) :: told) u' ↔
      name ∉ u.1 ∧ u'.1 = name :: u.1 ∧ meaning ((name, v) :: told) = some u'.2 := by
  have hseen := seen_cons_known v told hknown
  rw [← htold.seen_eq] at hseen
  refine ⟨?_, ?_⟩
  · intro htold'
    have honce := htold'.once
    rw [hseen, List.nodup_cons] at honce
    exact ⟨honce.1, htold'.seen_eq.trans hseen, htold'.meaning_eq⟩
  · intro h
    obtain ⟨hunseen, hnames, hmeaning⟩ := h
    refine ⟨hnames.trans hseen.symm, ?_, hmeaning⟩
    rw [hseen, List.nodup_cons]
    exact ⟨hunseen, htold.seen_eq ▸ htold.once⟩

/-- The value of one more field is read, or skipped. -/
theorem fieldValue_eq_ok_iff (h : Describes known initial meaning) {u u' : List String × σ}
    (htold : Told known meaning told u) (v : Value) :
    fieldValue (once known) u name (.colon :: (v.tokens ++ rest)) = .ok (u', ts) ↔
      Told known meaning ((name, v) :: told) u' ∧ ts = rest := by
  cases hknown : known.lookup name with
  | none =>
    have hread : fieldValue (once known) u name (.colon :: (v.tokens ++ rest)) = .ok (u, rest) := by
      simp only [fieldValue, once, hknown, bind, Except.bind, afterColon, Json.skipValue_tokens]
      rfl
    rw [hread, h.told_unknown_iff hknown]
    refine ⟨?_, ?_⟩
    · intro hok
      cases hok
      exact ⟨htold, rfl⟩
    · intro hok
      obtain ⟨htold', rfl⟩ := hok
      rw [htold.unique htold']
  | some readField =>
    rw [told_known_iff hknown v htold]
    by_cases hmem : name ∈ u.1
    · have hread : fieldValue (once known) u name (.colon :: (v.tokens ++ rest)) =
          .error .mismatched := by
        simp only [fieldValue, once, hknown, List.contains_iff_mem.mpr hmem, bind, Except.bind]
        rfl
      simp [hread, hmem]
    · have hread : fieldValue (once known) u name (.colon :: (v.tokens ++ rest)) =
          (readField u.2 (v.tokens ++ rest)).map fun read => ((name :: u.1, read.1), read.2) := by
        simp only [fieldValue, once, hknown, List.contains_iff_mem, hmem, bind, Except.bind]
        rfl
      have hunseen := lookup_eq_none_of_unseen hknown (htold.seen_eq ▸ hmem)
      rw [hread, map_eq_ok]
      simp only [h.field hknown hunseen htold.meaning_eq v rest]
      grind

theorem afterField_eq_ok_iff {more : σ → Reading σ} {s s' : σ} :
    afterField more s ts = .ok (s', rest) ↔
      (∃ ts', ts = .comma :: ts' ∧ more s ts' = .ok (s', rest)) ∨
        ts = .closeObject :: rest ∧ s = s' := by
  unfold afterField
  split
  · simp
  · simp [and_comm]
  · rename_i hcomma hclose
    refine iff_of_false stop_ne_ok ?_
    intro hread
    rcases hread with ⟨ts', hts, -⟩ | ⟨hts, -⟩
    · exact hcomma ts' hts
    · exact hclose rest hts

theorem fields_eq_ok_iff {field : FieldChoice σ} {rounds : Nat} {isFirst : Bool} {s s' : σ} :
    fields field (rounds + 1) isFirst s (.string (some name) :: ts) = .ok (s', rest) ↔
      ∃ s₁ ts₁, fieldValue field s name ts = .ok (s₁, ts₁) ∧
        ((∃ ts₂, ts₁ = .comma :: ts₂ ∧ fields field rounds false s₁ ts₂ = .ok (s', rest)) ∨
          ts₁ = .closeObject :: rest ∧ s₁ = s') := by
  have hread : fields field (rounds + 1) isFirst s (.string (some name) :: ts) =
      (fieldValue field s name ts >>= fun u => afterField (fields field rounds false) u.1 u.2) := by
    cases isFirst <;> rfl
  rw [hread, bind_eq_ok, Prod.exists]
  simp only [afterField_eq_ok_iff]

/-- The fields that are left are read, each told after those before it. -/
theorem fields_tokens_eq_ok_iff (h : Describes known initial meaning) {rounds : Nat}
    {isFirst : Bool} {u u' : List String × σ} (htold : Told known meaning told u) (v : Value)
    (more : List (String × Value)) (hrounds : more.length < rounds) :
    fields (once known) rounds isFirst u (Value.fieldTokens ((name, v) :: more) ++ rest) =
        .ok (u', ts) ↔
      Told known meaning (((name, v) :: more).reverse ++ told) u' ∧ ts = rest := by
  induction more generalizing told u name v rounds isFirst with
  | nil =>
    obtain _ | rounds := rounds
    · cases hrounds
    have htokens : Value.fieldTokens [(name, v)] ++ rest =
        .string (some name) :: .colon :: (v.tokens ++ (.closeObject :: rest)) := by
      simp [Value.fieldTokens, Value.moreFieldTokens]
    rw [htokens, fields_eq_ok_iff]
    simp only [fieldValue_eq_ok_iff h htold]
    grind
  | cons field more ih =>
    obtain ⟨name', v'⟩ := field
    obtain _ | rounds := rounds
    · cases hrounds
    have htokens : Value.fieldTokens ((name, v) :: (name', v') :: more) ++ rest =
        .string (some name) :: .colon ::
          (v.tokens ++ (.comma :: (Value.fieldTokens ((name', v') :: more) ++ rest))) := by
      simp [Value.fieldTokens, Value.moreFieldTokens]
    have hfields : ((name, v) :: (name', v') :: more).reverse ++ told =
        ((name', v') :: more).reverse ++ (name, v) :: told := by simp
    rw [htokens, hfields, fields_eq_ok_iff]
    simp only [fieldValue_eq_ok_iff h htold]
    refine ⟨?_, ?_⟩
    · intro hok
      obtain ⟨u₁, _, ⟨htold₁, rfl⟩, ⟨ts₂, hts, hread⟩ | ⟨hts, -⟩⟩ := hok
      · cases hts
        exact (ih htold₁ v' (Nat.lt_of_succ_lt_succ hrounds)).mp hread
      · cases hts
    · intro hok
      obtain ⟨htold', hts⟩ := hok
      obtain ⟨u₁, htold₁⟩ := h.exists_told _ htold'
      refine ⟨u₁, _, ⟨htold₁, rfl⟩, .inl ⟨_, rfl, ?_⟩⟩
      exact (ih htold₁ v' (Nat.lt_of_succ_lt_succ hrounds)).mpr ⟨htold', hts⟩

/-- A list may end before all names have had their items. -/
theorem listed_close (readers : List (σ → Reading σ)) (isFirst : Bool) (s : σ) (ts : List Token) :
    listed readers isFirst s (.closeList :: ts) = .ok (s, ts) := by
  cases readers <;> rfl

theorem listed_eq_ok_iff {readers : List (σ → Reading σ)} {s s' : σ} (v : Value) :
    listed (readField :: readers) false s (.comma :: (v.tokens ++ ts)) = .ok (s', rest) ↔
      ∃ s₁ ts₁, readField s (v.tokens ++ ts) = .ok (s₁, ts₁) ∧
        listed readers false s₁ ts₁ = .ok (s', rest) := by
  have hread : listed (readField :: readers) false s (.comma :: (v.tokens ++ ts)) =
      (readField s (v.tokens ++ ts) >>= fun u => listed readers false u.1 u.2) := by
    cases v <;> rfl
  rw [hread, bind_eq_ok, Prod.exists]

/-- The items that are left are read for the names that are left, in order. -/
theorem listed_tokens_eq_ok_iff (h : Describes known initial meaning) {left : KnownFields σ}
    (hleft : ∀ name readField, (name, readField) ∈ left → known.lookup name = some readField)
    (hnames : (left.map Prod.fst).Nodup) {u : List String × σ} (htold : Told known meaning told u)
    (hunseen : ∀ name ∈ left.map Prod.fst, name ∉ u.1) (items : List Value) :
    listed (left.map Prod.snd) false u.2 (Value.moreItemTokens items ++ rest) = .ok (s, ts) ↔
      items.length ≤ left.length ∧ ts = rest ∧
        ∃ names,
          Told known meaning (((left.map Prod.fst).zip items).reverse ++ told) (names, s) := by
  induction items generalizing left told u with
  | nil =>
    have hread : listed (left.map Prod.snd) false u.2 (Value.moreItemTokens [] ++ rest) =
        .ok (u.2, rest) := listed_close _ _ _ _
    rw [hread, List.zip_nil_right, List.reverse_nil, List.nil_append]
    refine ⟨?_, ?_⟩
    · intro hok
      cases hok
      exact ⟨Nat.zero_le _, rfl, u.1, htold⟩
    · intro hok
      obtain ⟨-, rfl, names, htold'⟩ := hok
      rw [htold.unique htold']
  | cons v items ih =>
    cases left with
    | nil => exact iff_of_false stop_ne_ok (by simp)
    | cons field left =>
      obtain ⟨name, readField⟩ := field
      rw [List.map_cons, List.nodup_cons] at hnames
      have hknown := hleft name readField (.head _)
      have hname : name ∉ u.1 := hunseen name (.head _)
      have hfresh := lookup_eq_none_of_unseen hknown (htold.seen_eq ▸ hname)
      have hnext : ∀ {u₁}, Told known meaning ((name, v) :: told) u₁ →
          (listed (left.map Prod.snd) false u₁.2 (Value.moreItemTokens items ++ rest) =
              .ok (s, ts) ↔
            items.length ≤ left.length ∧ ts = rest ∧ ∃ names, Told known meaning
              (((left.map Prod.fst).zip items).reverse ++ (name, v) :: told) (names, s)) := by
        intro u₁ htold₁
        refine ih (fun n r hmem => hleft n r (.tail _ hmem)) hnames.2 htold₁ fun n hn hmem => ?_
        rw [((told_known_iff hknown v htold).mp htold₁).2.1] at hmem
        rcases List.mem_cons.mp hmem with rfl | hmem
        · exact hnames.1 hn
        · exact hunseen n (.tail _ hn) hmem
      have htokens : Value.moreItemTokens (v :: items) ++ rest =
          .comma :: (v.tokens ++ (Value.moreItemTokens items ++ rest)) := by
        simp [Value.moreItemTokens]
      have hzip : ((name :: left.map Prod.fst).zip (v :: items)).reverse ++ told =
          ((left.map Prod.fst).zip items).reverse ++ (name, v) :: told := by simp
      rw [htokens, List.map_cons, List.map_cons, hzip, listed_eq_ok_iff]
      simp only [h.field hknown hfresh htold.meaning_eq v, List.length_cons,
        Nat.add_le_add_iff_right]
      refine ⟨?_, ?_⟩
      · intro hok
        obtain ⟨s₁, _, ⟨hs₁, rfl⟩, hread⟩ := hok
        have htold₁ : Told known meaning ((name, v) :: told) (name :: u.1, s₁) :=
          (told_known_iff hknown v htold).mpr ⟨hname, rfl, hs₁⟩
        exact (hnext htold₁).mp hread
      · intro hread
        obtain ⟨_, htold'⟩ := hread.2.2
        obtain ⟨u₁, htold₁⟩ := h.exists_told _ htold'
        exact ⟨u₁.2, _, ⟨htold₁.meaning_eq, rfl⟩, (hnext htold₁).mpr hread⟩

/-- The first item is read as any other. -/
theorem listed_first (readers : List (σ → Reading σ)) (s : σ) (items : List Value)
    (rest : List Token) :
    listed readers true s (Value.itemTokens items ++ rest) =
      listed readers false s (Value.moreItemTokens items ++ rest) := by
  cases items with
  | nil =>
    rw [Value.itemTokens, Value.moreItemTokens, List.singleton_append, listed_close, listed_close]
  | cons v items =>
    rw [Value.itemTokens, Value.moreItemTokens, List.cons_append, List.append_assoc]
    cases readers <;> cases v <;> rfl

/-! ## Records as values -/

/-- What a record means, whether its fields are given by name or in order. -/
def recordOf (known : KnownFields σ) (meaning : List (String × Value) → Option σ) :
    Value → Option σ
  | .object fields => if (seen known fields.reverse).Nodup then meaning fields.reverse else none
  | .list items =>
    if items.length ≤ known.length then meaning ((known.map Prod.fst).zip items).reverse else none
  | _ => none

/-- The value has each of the names at most once. -/
def NamesOnce (names : List String) : Value → Prop
  | .object fields => (namesAmong names fields).Nodup
  | _ => True

theorem nodup_seen_reverse (known : KnownFields σ) (fields : List (String × Value)) :
    (seen known fields.reverse).Nodup ↔ NamesOnce (known.map Prod.fst) (.object fields) := by
  rw [seen, namesAmong, List.map_reverse, List.filter_reverse, List.nodup_reverse]
  rfl

theorem nodup_seen_zip (hnames : (known.map Prod.fst).Nodup) (items : List Value) :
    (seen known ((known.map Prod.fst).zip items).reverse).Nodup := by
  rw [seen, namesAmong, List.map_reverse, List.zip_eq_zip_take_min, List.map_fst_zip (by simp)]
  exact (List.nodup_reverse.mpr (hnames.sublist (List.take_sublist _ _))).filter _

theorem exists_told_iff :
    (∃ names, Told known meaning told (names, s)) ↔
      (seen known told).Nodup ∧ meaning told = some s := by
  refine ⟨?_, ?_⟩
  · intro h
    obtain ⟨_, htold⟩ := h
    exact ⟨htold.once, htold.meaning_eq⟩
  · intro h
    exact ⟨_, rfl, h.1, h.2⟩

theorem length_lt_moreFieldTokens (fields : List (String × Value)) :
    fields.length < (Value.moreFieldTokens fields).length := by
  induction fields with
  | nil => simp [Value.moreFieldTokens]
  | cons field fields ih =>
    simp only [Value.moreFieldTokens, List.length_cons, List.length_append]
    omega

theorem record_object_eq_ok_iff (h : Describes known initial meaning)
    (entries : List (String × Value)) :
    record known initial ((Value.object entries).tokens ++ rest) = .ok (s, ts) ↔
      ts = rest ∧ ∃ names, Told known meaning entries.reverse (names, s) := by
  have hread : record known initial ((Value.object entries).tokens ++ rest) =
      (fields (once known) ((Value.fieldTokens entries ++ rest).length + 1) true ([], initial)
        (Value.fieldTokens entries ++ rest)).map fun read => (read.1.2, read.2) := rfl
  rw [hread, map_eq_ok]
  cases entries with
  | nil =>
    have hclosed : fields (once known) ((Value.fieldTokens [] ++ rest).length + 1) true
        ([], initial) (Value.fieldTokens [] ++ rest) = .ok (([], initial), rest) := rfl
    rw [hclosed]
    refine ⟨?_, ?_⟩
    · intro hok
      obtain ⟨u, hu, rfl⟩ := hok
      cases hu
      exact ⟨rfl, [], h.told_nil⟩
    · intro hok
      obtain ⟨rfl, names, htold⟩ := hok
      exact ⟨_, rfl, congrArg Prod.snd (h.told_nil.unique htold)⟩
  | cons field more =>
    have hrounds : more.length < (Value.fieldTokens (field :: more) ++ rest).length + 1 := by
      have hmore := length_lt_moreFieldTokens more
      simp only [Value.fieldTokens, List.length_append, List.length_cons]
      omega
    simp only [fields_tokens_eq_ok_iff h h.told_nil field.2 more hrounds, List.append_nil,
      Prod.exists]
    grind

/-- A record is read as what its value means. -/
theorem Describes.record_follows (h : Describes known initial meaning)
    (hnames : (known.map Prod.fst).Nodup) :
    Follows (record known initial) (recordOf known meaning) := by
  intro v rest s ts
  cases v with
  | object fields =>
    rw [record_object_eq_ok_iff h, exists_told_iff]
    simp only [recordOf, Option.ite_none_right_eq_some, and_comm]
  | list items =>
    have hread : record known initial ((Value.list items).tokens ++ rest) =
        listed (known.map Prod.snd) true initial (Value.itemTokens items ++ rest) := rfl
    rw [hread, listed_first, listed_tokens_eq_ok_iff h (fun _ _ => lookup_of_mem hnames) hnames
      h.told_nil (by simp), List.append_nil, exists_told_iff]
    simp only [recordOf, Option.ite_none_right_eq_some, nodup_seen_zip hnames, true_and, and_assoc,
      and_comm (a := ts = rest)]
  | _ => simp [Value.tokens, record, refuse, recordOf]

/-! ## Fields by name -/

theorem ne_of_unknown (h : known.lookup name = none) : ∀ f ∈ known.map Prod.fst, f ≠ name := by
  intro f hf hname
  have hcontains := contains_names known f
  rw [hname, h, Option.isSome_none, ← hname] at hcontains
  simp [hf] at hcontains

theorem lookup_cons_of_ne {f : String} (v : Value) (h : f ≠ name) :
    ((name, v) :: told).lookup f = told.lookup f := by
  rw [List.lookup_cons, beq_false_of_ne h]

/-- A field whose lack is no fault has a meaning before it is told if it has one afterwards. -/
theorem exists_meaning_before {m : Option Value → Option α} {v : Value} {f : String} {a a₀ : α}
    (hnone : m none = some a₀) (hname : told.lookup name = none)
    (h : m (((name, v) :: told).lookup f) = some a) : ∃ a', m (told.lookup f) = some a' := by
  by_cases hf : f = name
  · subst hf
    exact ⟨a₀, hname ▸ hnone⟩
  · rw [lookup_cons_of_ne v hf] at h
    exact ⟨a, h⟩

theorem mem_of_lookup_eq_some (h : known.lookup name = some readField) :
    (name, readField) ∈ known := by
  obtain ⟨before, after, rfl, -⟩ := List.lookup_eq_some_iff.mp h
  exact List.mem_append_right _ (.head _)


end ProjectScope.Config.OfText
