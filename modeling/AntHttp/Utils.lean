import AntHttp.Dictionary
import AntHttp.Lib.EreSyntax
import Mathlib.Data.List.DropRight
/-!
# String helpers (`lib/utils.c`)

The helpers on the path of a request. A function that can run into undefined
behaviour returns in `Res`. `regexec` is a parameter: it is the C library's,
and what is proved about it is proved for every one that keeps `Ere.Posix`.
-/

namespace AntHttp

open CString

/-- Undefined behaviour: a NULL pointer used, a fixed-size buffer left, a
regular expression run although it did not compile. -/
inductive Fault where
  | null | bounds | regex
  deriving DecidableEq, Repr

abbrev Res := Except Fault

/-- A pointer that is followed, or handed to a string function. -/
def deref {α : Type} : Option α → Res α
  | some a => .ok a
  | none => .error .null

@[simp] theorem deref_some {α : Type} (a : α) : deref (some a) = .ok a := rfl
@[simp] theorem deref_none {α : Type} : deref (none : Option α) = .error .null := rfl

/-! ## Computations that may fault -/

section Res

variable {α β : Type} {x : Res α} {e : Fault}

@[simp] theorem Res.ok_bind (a : α) (f : α → Res β) : ((.ok a : Res α) >>= f) = f a := rfl

theorem Res.bind_ok {f : α → Res β} {b : β} : (x >>= f) = .ok b ↔ ∃ a, x = .ok a ∧ f a = .ok b := by
  cases x with
  | error e => simp [bind, Except.bind]
  | ok a => simp [bind, Except.bind]

/-- The fault is one of the first step, or of the rest. -/
theorem Res.bind_error {f : α → Res β} : (x >>= f) = .error e ↔ x = .error e ∨ ∃ a, x = .ok a ∧ f a = .error e := by
  cases x with
  | error e' => simp [bind, Except.bind]
  | ok a => simp [bind, Except.bind]

@[simp] theorem Res.map_ok {f : α → β} {b : β} : x.map f = .ok b ↔ ∃ a, x = .ok a ∧ f a = b := by
  cases x with
  | error e => simp [Except.map]
  | ok a => simp [Except.map]

@[simp] theorem Res.map_error {f : α → β} : x.map f = .error e ↔ x = .error e := by
  cases x with
  | error e' => simp [Except.map]
  | ok a => simp [Except.map]

@[simp] theorem deref_ok {α : Type} {p : Option α} {a : α} : deref p = .ok a ↔ p = some a := by
  cases p <;> simp [deref]

@[simp] theorem deref_error {α : Type} {p : Option α} {e : Fault} : deref p = .error e ↔ p = none ∧ e = .null := by
  cases p <;> simp [deref, eq_comm]

/-- The fault, if there is one. -/
def Res.fault : Res α → Option Fault
  | .ok _ => none
  | .error e => some e

@[simp] theorem Res.fault_eq : x.fault = some e ↔ x = .error e := by
  cases x <;> simp [Res.fault]

@[simp] theorem Res.toOption_eq {a : α} : x.toOption = some a ↔ x = .ok a := by
  cases x <;> simp [Except.toOption]

/-- Whatever else happens, not this fault. -/
structure Res.Avoids (e : Fault) (x : Res α) : Prop where
  ne : x ≠ .error e

theorem Res.Avoids.ok (e : Fault) (a : α) : Res.Avoids e (.ok a) := ⟨nofun⟩

theorem Res.Avoids.error {e e' : Fault} (h : e' ≠ e) : Res.Avoids e (.error e' : Res α) := ⟨fun h' => by cases h'; exact h rfl⟩

theorem Res.Avoids.bind {f : α → Res β} (hx : Res.Avoids e x) (hf : ∀ a, x = .ok a → Res.Avoids e (f a)) :
    Res.Avoids e (x >>= f) := by
  refine ⟨fun h => ?_⟩
  rcases Res.bind_error.1 h with h | ⟨a, ha, h⟩
  · exact hx.ne h
  · exact (hf a ha).ne h

theorem Res.Avoids.map {f : α → β} (hx : Res.Avoids e x) : Res.Avoids e (x.map f) :=
  ⟨fun h => hx.ne (Res.map_error.1 h)⟩

theorem Res.Avoids.deref {p : Option α} (hp : p.isSome) : Res.Avoids e (deref p) := by
  cases p with
  | none => cases hp
  | some a => exact .ok e a

/-- Following a pointer faults only if it is NULL. -/
theorem Res.Avoids.deref_of_ne {p : Option α} (h : e ≠ .null) : Res.Avoids e (AntHttp.deref p) := by
  cases p with
  | none => exact .error (Ne.symm h)
  | some a => exact .ok e a

end Res

/-- The regular expression matcher of the C library, on a compiled expression. -/
abbrev Regexec := Ere → Bytes → Option Ere.Caps

/-! ## Text -/

def trim (str : Bytes) (delim : UInt8) : Bytes := (str.rdropWhile (· = delim)).dropWhile (· = delim)

theorem trim_eq_self {s : Bytes} {d : UInt8} (h : d ∉ s) : trim s d = s := by
  have hne : ∀ c ∈ s, c ≠ d := fun c hc he => h (he ▸ hc)
  have hr : s.rdropWhile (· = d) = s := by
    rw [List.rdropWhile_eq_self_iff]
    intro hs
    simpa using hne _ (List.getLast_mem hs)
  rw [trim, hr, List.dropWhile_eq_self_iff]
  intro hs
  simpa using hne _ (List.getElem_mem hs)

theorem trim_concat (s : Bytes) (d : UInt8) : trim (s ++ [d]) d = trim s d := by
  rw [trim, List.rdropWhile_concat_pos (fun x => decide (x = d)) s d (by simp), trim]

/-- Only what stands at the ends is cut. -/
theorem trim_of_ends {s : Bytes} {d : UInt8} (hh : s.head? ≠ some d) (hl : s.getLast? ≠ some d) : trim s d = s := by
  have hr : s.rdropWhile (· = d) = s := by
    rw [List.rdropWhile_eq_self_iff]
    intro hs he
    exact hl (by rw [List.getLast?_eq_getLast_of_ne_nil hs, of_decide_eq_true he])
  rw [trim, hr, List.dropWhile_eq_self_iff]
  intro hs he
  refine hh ?_
  rw [List.head?_eq_getElem?, List.getElem?_eq_getElem hs]
  exact congrArg some (of_decide_eq_true he)

theorem trim_between {a b d : UInt8} (ha : a ≠ d) (s : Bytes) (hb : b ≠ d) : trim (a :: s ++ [b]) d = a :: s ++ [b] := by
  apply trim_of_ends
  · simpa using ha
  · rw [List.getLast?_concat]
    simpa using hb

/-- Text between two delimiters. -/
theorem trim_quoted {s : Bytes} {d : UInt8} (hh : s.head? ≠ some d) (hl : s.getLast? ≠ some d) :
    trim (d :: s ++ [d]) d = s := by
  rw [trim_concat]
  cases s using List.reverseRecOn with
  | nil => simp [trim, List.rdropWhile]
  | append_singleton s c =>
    have hc : ¬ decide (c = d) = true := fun he => hl (by simp [of_decide_eq_true he])
    have hs := trim_of_ends hh hl
    rw [trim, List.rdropWhile_concat_neg (fun x => decide (x = d)) s c hc] at hs
    rw [trim, ← List.cons_append, List.rdropWhile_concat_neg (fun x => decide (x = d)) (d :: s) c hc, List.cons_append,
      List.dropWhile_cons_of_pos (by simp), hs]

/-- Upper-cases each letter that a dash precedes; `prev` is the character before. -/
def upperAfterDash (prev : UInt8) : Bytes → Bytes
  | [] => []
  | c :: k => (if prev = 45 then toupper c else c) :: upperAfterDash c k

def verify_header : Bytes → Bytes
  | [] => []
  | c :: k => toupper c :: upperAfterDash c k

def from_hex (ch : UInt8) : UInt8 := if isdigit ch then ch - 48 else tolower ch - 97 + 10

/-- The bytes `url_decode` stores, before they are read back as a string. -/
def urlDecodeBytes : Bytes → Bytes
  | 37 :: a :: b :: s => (from_hex a <<< 4 ||| from_hex b) :: urlDecodeBytes s
  | 37 :: s => urlDecodeBytes s
  | 43 :: s => 32 :: urlDecodeBytes s
  | c :: s => c :: urlDecodeBytes s
  | [] => []

def url_decode (s : Bytes) : Bytes := cstr (urlDecodeBytes s)

def to_hex (code : UInt8) : UInt8 := (str "0123456789abcdef").getD (code &&& 15).toNat 0

def url_encode : Bytes → Bytes
  | [] => []
  | c :: s =>
    (if isalnum c ∨ c ∈ str "-_.~" then [c]
      else if c = 32 then [43]
      else [37, to_hex (c >>> 4), to_hex (c &&& 15)]) ++ url_encode s

/-- The text after the last dot, up to an empty piece. -/
def ext (file : Bytes) : Option Bytes :=
  if 46 ∈ file then
    let str_cpy := if file.head? = some 46 then trim file 46 else file
    some (((split 46 str_cpy).takeWhile (· ≠ [])).getLastD [])
  else none

/-! ## Regular expressions -/

def regex_match (regexec : Regexec) (expr search : Bytes) : Res (Option Ere.Caps) :=
  match Ere.regcomp expr with
  | some regex => .ok (regexec regex search)
  | none => .error .regex

/-- Running a pattern faults only if it does not compile. -/
theorem regex_match_avoids {regexec : Regexec} {expr search : Bytes} {e : Fault} (he : e ≠ .regex) :
    Res.Avoids e (regex_match regexec expr search) := by
  unfold regex_match
  split
  · exact .ok _ _
  · exact .error (Ne.symm he)

/-- The groups of a match, if the expression compiles and matches. -/
def found (regexec : Regexec) (expr search : Bytes) : Option Ere.Caps := (Ere.regcomp expr).bind (regexec · search)

theorem regex_match_found {regexec : Regexec} {expr search : Bytes} (h : (Ere.regcomp expr).isSome) :
    regex_match regexec expr search = .ok (found regexec expr search) := by
  unfold regex_match found
  cases he : Ere.regcomp expr with
  | none => rw [he] at h; cases h
  | some r => rfl

def match_int (regexec : Regexec) (search : Bytes) : Res Bool := do
  let m ← regex_match regexec (str "^[-+]?[0-9]+$") search
  return m.isSome

def match_float (regexec : Regexec) (search : Bytes) : Res Bool := do
  let m ← regex_match regexec (str "^[+-]?[0-9]*\\.[0-9]+$") search
  return m.isSome

theorem compiles_number : (Ere.regcomp (str "^[-+]?[0-9]+$")).isSome := by decide +kernel

theorem compiles_float : (Ere.regcomp (str "^[+-]?[0-9]*\\.[0-9]+$")).isSome := by decide +kernel

/-- `(^\s*ex\s*,)|(\s*,\s*ex\s*,\s*)|(^\s*ex\s*$)|(,\s*ex\s*$)` -/
def mimePattern (ex : Bytes) : Bytes :=
  str "(^\\s*" ++ ex ++ str "\\s*,)|(\\s*,\\s*" ++ ex ++ str "\\s*,\\s*)|(^\\s*" ++ ex ++ str "\\s*$)|(,\\s*" ++
    ex ++ str "\\s*$)"

def OCTET_STREAM : Bytes := str "application/octet-stream"

/-- The first type of the list whose extensions the pattern matches. -/
def mime_from_ext (regexec : Regexec) (mime_list : Dictionary Bytes) (ex : Bytes) : Res Bytes :=
  let rec find : Chain Bytes → Res Bytes
    | [] => .ok OCTET_STREAM
    | (type, value) :: its => do
      let value ← deref value
      let m ← regex_match regexec (mimePattern ex) value
      if m.isSome then .ok type else find its
  find mime_list.assocs

def mime (regexec : Regexec) (mime_list : Dictionary Bytes) (file : Bytes) : Res Bytes :=
  match ext file with
  | some ex => mime_from_ext regexec mime_list ex
  | none => .ok OCTET_STREAM

end AntHttp
