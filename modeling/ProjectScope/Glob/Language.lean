import ProjectScope.Glob.Basic

/-!
The language of a glob, stated apart from the matching: which texts an atom stands for, and how the
parts of a glob share a text among them. Main statement: matching accepts exactly the texts of the
language (`accepts_iff`). It rests on one lemma for each way in which marks are made: marks that
tell a property of what lies ahead are turned into marks that tell another.
-/

namespace ProjectScope.Glob

/-- The texts that an atom stands for. -/
def Atom.Matches : Atom → Bytes → Prop
  | literal c, w => w = String.utf8EncodeChar c
  | any, w => ∃ b, w = [b] ∧ b ≠ Path.separator
  | stretch, w => Path.separator ∉ w
  | oneOf negated ranges, w => ∃ b, w = [b] ∧ classHas ranges b ≠ negated
  | descent, w => w = [] ∨ w.getLast? = some Path.separator
  | beneath, w => w.head? = some Path.separator
  | between, w => w.head? = some Path.separator ∧ w.getLast? = some Path.separator
  | everything, _ => True

/-- The texts that a glob stands for. -/
def Matches : Glob → Bytes → Prop
  | nothing, w => w = []
  | atom a, w => a.Matches w
  | seq g h, w => ∃ u v, w = u ++ v ∧ g.Matches u ∧ h.Matches v
  | either g h, w => g.Matches w ∨ h.Matches w

/-- The marks are set just where the text ahead has a property. -/
inductive Marks.Tell (ahead : Bytes → Prop) : Marks → Bytes → Prop
  | nil {here : Bool} (h : here = true ↔ ahead []) : Tell ahead [here] []
  | cons {here : Bool} {marks : Marks} {b : UInt8} {s : Bytes}
      (h : here = true ↔ ahead (b :: s)) (later : Tell ahead marks s) :
      Tell ahead (here :: marks) (b :: s)

/-- The property of starting with a text of one kind, before a rest with another property. -/
def Before (kind ahead : Bytes → Prop) (v : Bytes) : Prop :=
  ∃ u w, v = u ++ w ∧ kind u ∧ ahead w

namespace Marks.Tell

variable {marks others : Marks} {s : Bytes} {ahead ahead' : Bytes → Prop}

theorem congr (h : Marks.Tell ahead marks s) (he : ∀ v, ahead v ↔ ahead' v) :
    Marks.Tell ahead' marks s := by
  induction h with
  | nil h => exact .nil (h.trans (he _))
  | cons h _ ih => exact .cons (h.trans (he _)) ih

theorem head (h : Marks.Tell ahead marks s) : marks.headD false = true ↔ ahead s := by
  cases h with
  | nil h => exact h
  | cons h _ => exact h

theorem atEnd (s : Bytes) : Marks.Tell (· = []) (Marks.atEnd s) s := by
  induction s with
  | nil => exact .nil (by simp)
  | cons b s ih => exact .cons (by simp) ih

theorem or (h : Marks.Tell ahead marks s) (h' : Marks.Tell ahead' others s) :
    Marks.Tell (fun v => ahead v ∨ ahead' v) (Marks.or marks others) s := by
  induction h generalizing others with
  | nil h =>
    cases h' with
    | nil h' => exact .nil (by rw [Bool.or_eq_true, h, h'])
  | cons h _ ih =>
    cases h' with
    | cons h' later => exact .cons (by rw [Bool.or_eq_true, h, h']) (ih later)

theorem byte (kind : UInt8 → Bool) (h : Marks.Tell ahead marks s) :
    Marks.Tell (Before (fun u => ∃ b, u = [b] ∧ kind b = true) ahead)
      (Marks.byte kind s marks) s := by
  induction h with
  | nil _ => exact .nil (by simp [Before])
  | cons _ later ih =>
    refine .cons ?_ ih
    rw [Bool.and_eq_true, later.head]
    constructor
    · exact fun ⟨hk, ha⟩ => ⟨[_], _, rfl, ⟨_, rfl, hk⟩, ha⟩
    · rintro ⟨_, w, he, ⟨c, rfl, hk⟩, ha⟩
      obtain ⟨rfl, rfl⟩ := List.cons_eq_cons.mp he
      exact ⟨hk, ha⟩

theorem bytes (kind : UInt8 → Bool) (h : Marks.Tell ahead marks s) :
    Marks.Tell (Before (fun u => ∀ b ∈ u, kind b = true) ahead) (Marks.bytes kind s marks) s := by
  induction h with
  | nil h =>
    refine .nil (h.trans ⟨fun ha => ⟨[], [], rfl, by simp, ha⟩, ?_⟩)
    rintro ⟨u, w, he, _, ha⟩
    obtain ⟨rfl, rfl⟩ := List.nil_eq_append_iff.mp he
    exact ha
  | @cons here marks b s h later ih =>
    refine .cons ?_ ih
    rw [Bool.or_eq_true, Bool.and_eq_true, ih.head, h]
    constructor
    · rintro (ha | ⟨hk, u, w, rfl, hu, ha⟩)
      · exact ⟨[], b :: s, rfl, by simp, ha⟩
      · exact ⟨b :: u, w, rfl, List.forall_mem_cons.mpr ⟨hk, hu⟩, ha⟩
    · rintro ⟨u, w, he, hu, ha⟩
      cases u with
      | nil => exact .inl (by simpa [he] using ha)
      | cons c u =>
        obtain ⟨rfl, rfl⟩ := List.cons_eq_cons.mp he
        rw [List.forall_mem_cons] at hu
        exact .inr ⟨hu.1, u, w, rfl, hu.2, ha⟩

end Marks.Tell

/-- Nothing may always come first. -/
theorem before_nil {ahead : Bytes → Prop} (v : Bytes) : ahead v ↔ Before (· = []) ahead v := by
  constructor
  · exact fun ha => ⟨[], v, rfl, rfl, ha⟩
  · rintro ⟨_, w, rfl, rfl, ha⟩
    exact ha

/-- Two stretches one after the other are one stretch of a kind that splits in the same way. -/
theorem before_before {kind kind' whole ahead : Bytes → Prop}
    (h : ∀ u, whole u ↔ ∃ x y, u = x ++ y ∧ kind x ∧ kind' y) (v : Bytes) :
    Before kind (Before kind' ahead) v ↔ Before whole ahead v := by
  constructor
  · rintro ⟨x, _, rfl, hx, y, w, rfl, hy, ha⟩
    exact ⟨x ++ y, w, by simp, (h _).mpr ⟨x, y, rfl, hx, hy⟩, ha⟩
  · rintro ⟨u, w, rfl, hu, ha⟩
    obtain ⟨x, y, rfl, hx, hy⟩ := (h u).mp hu
    exact ⟨x, y ++ w, by simp, hx, y, w, rfl, hy, ha⟩

namespace Atom

variable {marks : Marks} {s : Bytes} {ahead : Bytes → Prop}

theorem beforeSlash_tell (h : Marks.Tell ahead marks s) :
    Marks.Tell (Before (· = [Path.separator]) ahead) (beforeSlash s marks) s :=
  (Marks.Tell.byte _ h).congr fun v => by simp [Before]

theorem beforeAll_tell (h : Marks.Tell ahead marks s) :
    Marks.Tell (Before (fun _ => True) ahead) (beforeAll s marks) s :=
  (Marks.Tell.bytes _ h).congr fun v => by simp [Before]

/-- What ends in a slash is anything and then a slash. -/
theorem getLast?_eq_separator_iff (u : Bytes) :
    u.getLast? = some Path.separator ↔
      ∃ x y, u = x ++ y ∧ True ∧ y = [Path.separator] := by
  simp [List.getLast?_eq_some_iff]

theorem beforeDescent_tell (h : Marks.Tell ahead marks s) :
    Marks.Tell (Before Atom.descent.Matches ahead) (beforeDescent s marks) s := by
  refine (h.or (beforeAll_tell (beforeSlash_tell h))).congr fun v => ?_
  rw [before_before getLast?_eq_separator_iff]
  constructor
  · rintro (ha | ⟨u, w, he, hu, ha⟩)
    · exact ⟨[], v, rfl, .inl rfl, ha⟩
    · exact ⟨u, w, he, .inr hu, ha⟩
  · rintro ⟨u, w, rfl, rfl | hu, ha⟩
    · exact .inl ha
    · exact .inr ⟨u, w, rfl, hu, ha⟩

/-- What an atom makes of marks tells that a text of the atom comes first. -/
theorem marks_tell (a : Atom) (h : Marks.Tell ahead marks s) :
    Marks.Tell (Before a.Matches ahead) (a.marks s marks) s := by
  cases a with
  | literal c =>
    have aux : ∀ bs : Bytes, Marks.Tell (Before (· = bs) ahead)
        (bs.foldr (fun b after => Marks.byte (· == b) s after) marks) s := by
      intro bs
      induction bs with
      | nil => exact h.congr before_nil
      | cons b bs ih =>
        refine (Marks.Tell.byte _ ih).congr fun v => before_before (fun u => ?_) v
        simp
    exact aux _
  | any => exact (Marks.Tell.byte _ h).congr fun v => by simp [Before, Atom.Matches]
  | stretch =>
    refine (Marks.Tell.bytes _ h).congr fun v => ?_
    have hk : ∀ u : Bytes, (∀ b ∈ u, (b != Path.separator) = true) ↔ Path.separator ∉ u := by
      intro u
      simp only [bne_iff_ne, ne_eq]
      exact ⟨fun hu hm => hu _ hm rfl, fun hu b hb he => hu (he ▸ hb)⟩
    simp only [Before, hk, Atom.Matches]
  | oneOf negated ranges =>
    exact (Marks.Tell.byte _ h).congr fun v => by simp [Before, Atom.Matches]
  | descent => exact beforeDescent_tell h
  | beneath =>
    refine (beforeSlash_tell (beforeAll_tell h)).congr fun v => before_before (fun u => ?_) v
    cases u <;> simp [Atom.Matches, eq_comm]
  | between =>
    refine (beforeSlash_tell (beforeDescent_tell h)).congr fun v => before_before (fun u => ?_) v
    cases u with
    | nil => simp [Atom.Matches]
    | cons b u =>
      constructor
      · rintro ⟨hb, hl⟩
        obtain rfl := Option.some.inj hb
        refine ⟨[Path.separator], u, rfl, rfl, ?_⟩
        cases u with
        | nil => exact .inl rfl
        | cons c u => exact .inr (by simpa using hl)
      · rintro ⟨x, y, he, rfl, hy⟩
        obtain ⟨rfl, rfl⟩ := List.cons_eq_cons.mp he
        refine ⟨rfl, ?_⟩
        rcases hy with rfl | hy
        · rfl
        · cases u with
          | nil => simp at hy
          | cons c u => simpa using hy
  | everything => exact beforeAll_tell h

end Atom

/-- What a glob makes of marks tells that a text of the glob comes first. -/
theorem marks_tell (g : Glob) {marks : Marks} {s : Bytes} {ahead : Bytes → Prop}
    (h : Marks.Tell ahead marks s) : Marks.Tell (Before g.Matches ahead) (g.marks s marks) s := by
  induction g generalizing marks ahead with
  | nothing => exact h.congr before_nil
  | atom a => exact a.marks_tell h
  | seq g k ihg ihk =>
    exact (ihg (ihk h)).congr fun v => before_before (fun u => Iff.rfl) v
  | either g k ihg ihk =>
    refine ((ihg h).or (ihk h)).congr fun v => ?_
    constructor
    · rintro (⟨u, w, he, hu, ha⟩ | ⟨u, w, he, hu, ha⟩)
      · exact ⟨u, w, he, .inl hu, ha⟩
      · exact ⟨u, w, he, .inr hu, ha⟩
    · rintro ⟨u, w, he, hu | hu, ha⟩
      · exact .inl ⟨u, w, he, hu, ha⟩
      · exact .inr ⟨u, w, he, hu, ha⟩

/-- Matching accepts exactly the texts of the language. -/
theorem accepts_iff (g : Glob) (s : Bytes) : g.accepts s = true ↔ g.Matches s := by
  rw [accepts, (g.marks_tell (Marks.Tell.atEnd s)).head]
  simp [Before]

end ProjectScope.Glob
