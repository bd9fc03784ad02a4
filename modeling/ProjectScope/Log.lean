import ProjectScope.Decision
import ProjectScope.Error

/-!
What is told about the work while it is done. A computation that keeps a log yields its records
whether it succeeds or fails; such computations obey the laws of monads.
-/

namespace ProjectScope

inductive Level
  | trace
  | debug
  | warn
deriving DecidableEq, Repr

def Level.word : Level → String
  | trace => "TRACE"
  | debug => "DEBUG"
  | warn => "WARN"

/-- One thing that was done. -/
inductive Record
  | lookingFor (candidate : Path)
  /-- A configuration file has been found and is used. -/
  | found (file : Path)
  | extensions (extensions : List String)
  | includePatterns (patterns : List String)
  | excludePatterns (patterns : List String)
  /-- A pattern was read as a glob, which failed; it is matched literally. -/
  | literally (pattern : String) (glob : String) (fault : Glob.Fault)
  | visited (relative : Path) (decision : Decision)
  | matched (count : Nat) (root : Path)
deriving DecidableEq, Repr

namespace Record

def level : Record → Level
  | lookingFor _ | visited _ _ => .trace
  | literally _ _ _ => .warn
  | _ => .debug

def text : Record → String
  | lookingFor candidate => "looking for " ++ Text.Quoted.bytes candidate.text
  | found file => "using " ++ Text.Quoted.bytes file.text
  | extensions es => "extensions: " ++ Text.Quoted.list es
  | includePatterns ps => "include patterns: " ++ Text.Quoted.list ps
  | excludePatterns ps => "exclude patterns: " ++ Text.Quoted.list ps
  | literally pattern glob fault =>
    "matching pattern " ++ Text.Quoted.string pattern ++ " literally: error parsing glob '" ++
      glob ++ "': " ++ fault.message
  | visited relative decision => Text.Quoted.bytes relative.text ++ ": " ++ decision.word
  | matched count root => s!"matched {count} files in " ++ Text.Quoted.bytes root.text

def line (r : Record) : String := r.level.word ++ " " ++ r.text

end Record

/-- The outcome of a computation and what it logged. -/
structure Logged (α : Type) where
  log : List Record
  result : Except Error α

namespace Logged

variable {α β : Type}

/-- Goes on after success, with all that was logged. -/
def bind (x : Logged α) (f : α → Logged β) : Logged β :=
  match x.result with
  | .ok a =>
    let y := f a
    ⟨x.log ++ y.log, y.result⟩
  | .error e => ⟨x.log, .error e⟩

instance : Monad Logged where
  pure a := ⟨[], .ok a⟩
  bind := bind

@[simp] theorem log_pure (a : α) : (pure a : Logged α).log = [] := rfl

@[simp] theorem result_pure (a : α) : (pure a : Logged α).result = .ok a := rfl

theorem bind_of_ok {x : Logged α} {a : α} (h : x.result = .ok a) (f : α → Logged β) :
    x >>= f = ⟨x.log ++ (f a).log, (f a).result⟩ := by
  obtain ⟨log, _⟩ := x
  subst h
  rfl

theorem bind_of_error {x : Logged α} {e : Error} (h : x.result = .error e) (f : α → Logged β) :
    x >>= f = ⟨x.log, .error e⟩ := by
  obtain ⟨log, _⟩ := x
  subst h
  rfl

/-- A computation in two steps succeeds when both of them do. -/
theorem result_bind_eq_ok {x : Logged α} {f : α → Logged β} {b : β} :
    (x >>= f).result = .ok b ↔ ∃ a, x.result = .ok a ∧ (f a).result = .ok b := by
  cases hx : x.result with
  | ok a => simp [bind_of_ok hx]
  | error e => simp [bind_of_error hx]

/-- It fails when the first step does, or the second after it. -/
theorem result_bind_eq_error {x : Logged α} {f : α → Logged β} {e : Error} :
    (x >>= f).result = .error e ↔
      x.result = .error e ∨ ∃ a, x.result = .ok a ∧ (f a).result = .error e := by
  cases hx : x.result with
  | ok a => simp [bind_of_ok hx]
  | error e' => simp [bind_of_error hx]

theorem id_map (x : Logged α) : id <$> x = x := by
  obtain ⟨log, _ | a⟩ := x
  · rfl
  · exact congrArg (Logged.mk · (.ok a)) (List.append_nil log)

theorem bind_assoc {γ : Type} (x : Logged α) (f : α → Logged β) (g : β → Logged γ) :
    x >>= f >>= g = x >>= fun a => f a >>= g := by
  cases hx : x.result with
  | error e => rw [bind_of_error hx, bind_of_error hx, bind_of_error rfl]
  | ok a =>
    rw [bind_of_ok hx, bind_of_ok hx]
    cases hf : (f a).result with
    | error e => rw [bind_of_error rfl, bind_of_error hf]
    | ok b => rw [bind_of_ok rfl, bind_of_ok hf, List.append_assoc]

instance : LawfulMonad Logged := LawfulMonad.mk' Logged id_map (fun _ _ => rfl) bind_assoc

def emit (r : Record) : Logged Unit := ⟨[r], .ok ()⟩

def fail (e : Error) : Logged α := ⟨[], .error e⟩

/-- An outcome about which nothing is logged. -/
def ofExcept (x : Except Error α) : Logged α := ⟨[], x⟩

/-- If the computation fails, it is with an error of this kind. -/
def FailsOnly (P : Error → Prop) (x : Logged α) : Prop := ∀ e, x.result = .error e → P e

section
variable {P : Error → Prop}

theorem FailsOnly.mono {Q : Error → Prop} {x : Logged α} (h : x.FailsOnly P)
    (hq : ∀ e, P e → Q e) : x.FailsOnly Q := fun e he => hq e (h e he)

theorem FailsOnly.bind {x : Logged α} {f : α → Logged β} (hx : x.FailsOnly P)
    (hf : ∀ a, (f a).FailsOnly P) : (x >>= f).FailsOnly P := by
  intro e h
  cases hr : x.result with
  | ok a =>
    rw [bind_of_ok hr] at h
    exact hf a e h
  | error e' =>
    rw [bind_of_error hr] at h
    exact Except.error.inj h ▸ hx e' hr

theorem failsOnly_ok (log : List Record) (a : α) : FailsOnly P ⟨log, .ok a⟩ := by
  intro e h
  cases h

theorem failsOnly_fail {e : Error} (h : P e) : FailsOnly P (fail e : Logged α) := by
  intro e' he
  exact Except.error.inj he ▸ h

end

end Logged

end ProjectScope
