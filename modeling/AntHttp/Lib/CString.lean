import Mathlib.Algebra.Group.Int.Defs
import Mathlib.Algebra.GroupWithZero.Nat
import Mathlib.Data.List.Basic
import Mathlib.Data.List.Infix
import Mathlib.Data.List.TakeWhile
/-!
# C strings

The part of `<string.h>`, `<strings.h>`, `<ctype.h>` and `<stdlib.h>` that works on
strings. A string is the list of its bytes without the final NUL; `cstr` reads
the string that starts a buffer. A pointer that may be NULL is an `Option`.
-/

abbrev Bytes := List UInt8

namespace CString

-- found at once where a text is looked up in a list
instance lawfulBEq_bytes : LawfulBEq Bytes := List.instLawfulBEq

/-- The bytes of an ASCII literal. -/
def str (s : String) : Bytes := s.toList.map fun c => UInt8.ofNat c.toNat

def chr (c : Char) : UInt8 := UInt8.ofNat c.toNat

/-- What a C function sees of a buffer: the bytes before the first NUL. -/
def cstr (buf : Bytes) : Bytes := buf.takeWhile (· ≠ 0)

/-! ## Characters -/

def isdigit (c : UInt8) : Bool := 48 ≤ c ∧ c ≤ 57
def isupper (c : UInt8) : Bool := 65 ≤ c ∧ c ≤ 90
def islower (c : UInt8) : Bool := 97 ≤ c ∧ c ≤ 122
def isalnum (c : UInt8) : Bool := isdigit c || isupper c || islower c
def isspace (c : UInt8) : Bool := c = 32 ∨ (9 ≤ c ∧ c ≤ 13)
def toupper (c : UInt8) : UInt8 := if islower c then c - 32 else c
def tolower (c : UInt8) : UInt8 := if isupper c then c + 32 else c

/-! ## Comparing and searching -/

/-- `strcasecmp(a, b) == 0` -/
def strcaseeq (a b : Bytes) : Bool := a.map tolower = b.map tolower

/-- `strncmp(a, b, n) == 0` -/
def strneq (a b : Bytes) (n : Nat) : Bool := a.take n = b.take n

/-- `strstr(h, n) != NULL` -/
def strstr (h n : Bytes) : Bool := h.tails.any (n.isPrefixOf ·)

/-- `strsep(&s, d)` for a single delimiter: the token and what `s` is afterwards. -/
def strsep (s : Option Bytes) (d : UInt8) : Option Bytes × Option Bytes :=
  match s with
  | none => (none, none)
  | some s => (some (s.takeWhile (· ≠ d)), if d ∈ s then some (s.dropWhile (· ≠ d)).tail else none)

/-- The tokens of repeated `strsep` calls. -/
def split (d : UInt8) : Bytes → List Bytes
  | [] => [[]]
  | c :: s => if c = d then [] :: split d s else
    match split d s with
    | [] => [[c]]
    | t :: ts => (c :: t) :: ts

/-! ## Numbers -/

/-- A value wrapped into a 32-bit `int`. -/
def int32 (z : Int) : Int := Int.bmod z (2 ^ 32)

def digits (s : Bytes) : Nat := (s.takeWhile isdigit).foldl (fun n c => 10 * n + (c.toNat - 48)) 0

/-- `atoi`: `strtol` clamps to a 64-bit `long`, the conversion to `int` wraps. -/
def atoi (s : Bytes) : Int :=
  match s.dropWhile isspace with
  | 45 :: s => int32 (-(min (digits s) (2 ^ 63) : Nat))
  | 43 :: s => int32 (min (digits s) (2 ^ 63 - 1) : Nat)
  | s => int32 (min (digits s) (2 ^ 63 - 1) : Nat)

def decimalDigits : Nat → Nat → Bytes
  | 0, _ => []
  | fuel + 1, n => (if n < 10 then [] else decimalDigits fuel (n / 10)) ++ [UInt8.ofNat (48 + n % 10)]

/-- `"%u"` -/
def decimal (n : Nat) : Bytes := decimalDigits (n + 1) n

/-- `"%d"` -/
def decimalInt (z : Int) : Bytes := if z < 0 then 45 :: decimal z.natAbs else decimal z.natAbs

/-- `snprintf(buf, size, "%s", s)`: the text cut to the buffer, with room for the NUL. -/
def snprintf (size : Nat) (s : Bytes) : Bytes := s.take (size - 1)

/-! ## Facts -/

/-! ### Searching and splitting -/

theorem strstr_iff {h n : Bytes} : strstr h n = true ↔ n <:+: h := by
  simp only [strstr, List.any_eq_true, List.mem_tails, List.isPrefixOf_iff_prefix]
  rw [List.infix_iff_prefix_suffix]
  exact exists_congr fun t => and_comm

theorem cstr_eq_self {s : Bytes} (h : 0 ∉ s) : cstr s = s :=
  List.takeWhile_eq_self_iff.2 fun _ hc => decide_eq_true fun he => h (he ▸ hc)

theorem cstr_isPrefix (s : Bytes) : cstr s <+: s := List.takeWhile_prefix _

theorem not_mem_cstr (s : Bytes) : 0 ∉ cstr s := fun h => by simpa using List.mem_takeWhile_imp h

theorem cstr_append {s : Bytes} (h : 0 ∉ s) (s' : Bytes) : cstr (s ++ s') = s ++ cstr s' :=
  List.takeWhile_append_of_pos fun _ hc => decide_eq_true fun he => h (he ▸ hc)

theorem split_ne_nil (d : UInt8) (s : Bytes) : split d s ≠ [] := by
  cases s with
  | nil => nofun
  | cons c s =>
    unfold split
    split
    · nofun
    · split <;> nofun

theorem split_append (d : UInt8) (a b : Bytes) : split d (a ++ d :: b) = split d a ++ split d b := by
  induction a with
  | nil => simp [split]
  | cons c a ih =>
    by_cases hc : c = d
    · simp [split, hc, ih]
    · obtain ⟨t, ts, ht⟩ := List.exists_cons_of_ne_nil (split_ne_nil d a)
      simp [split, hc, ih, ht]

/-- Text without the delimiter goes to the last token. -/
theorem split_append_last (d : UInt8) (a : Bytes) {b : Bytes} (hb : d ∉ b) :
    split d (a ++ b) = (split d a).dropLast ++ [(split d a).getLast (split_ne_nil d a) ++ b] := by
  induction a with
  | nil =>
    induction b with
    | nil => rfl
    | cons c b ih =>
      obtain ⟨hc, hb⟩ := not_or.1 (fun h => hb (List.mem_cons.2 h))
      have ih := ih hb
      simp only [List.nil_append, split, List.dropLast_singleton, List.getLast_singleton] at ih ⊢
      rw [if_neg (Ne.symm hc), ih]
  | cons c a ih =>
    obtain ⟨t, ts, ht⟩ := List.exists_cons_of_ne_nil (split_ne_nil d a)
    by_cases hc : c = d
    · simp only [List.cons_append, split, hc, if_true, ih]
      simp [ht, List.getLast_cons]
    · simp only [List.cons_append, split, hc, if_false, ih]
      cases ts with
      | nil => simp [ht]
      | cons u us => simp [ht, List.getLast_cons]

theorem split_eq_self {d : UInt8} {s : Bytes} (h : d ∉ s) : split d s = [s] := split_append_last d [] h

/-! ### Machine integers -/

theorem int32_eq {z : Int} (h₀ : 0 ≤ z) (h : z < 2 ^ 31) : int32 z = z := by
  unfold int32
  rw [Int.bmod_def]
  omega

theorem int32_lt (z : Int) : int32 z < 2 ^ 31 := by
  unfold int32
  rw [Int.bmod_def]
  omega

/-! ### Decimal numbers -/

theorem decimalDigits_ne_nil {fuel n : Nat} (h : n < fuel) : decimalDigits fuel n ≠ [] := by
  cases fuel with
  | zero => omega
  | succ fuel => simp [decimalDigits]

/-- The character of a digit. -/
theorem digit_toNat {n : Nat} (h : n < 10) : (UInt8.ofNat (48 + n)).toNat = 48 + n :=
  UInt8.toNat_ofNat_of_lt' (by have : UInt8.size = 256 := rfl; omega)

theorem isdigit_ofNat {n : Nat} (h : n < 10) : isdigit (UInt8.ofNat (48 + n)) = true := by
  have hd := digit_toNat h
  simp only [isdigit, UInt8.le_iff_toNat_le, hd, decide_eq_true_eq]
  constructor
  · change 48 ≤ 48 + n
    omega
  · change 48 + n ≤ 57
    omega

theorem decimalDigits_isdigit {fuel n : Nat} : ∀ c ∈ decimalDigits fuel n, isdigit c = true := by
  induction fuel generalizing n with
  | zero => intro c hc; cases hc
  | succ fuel ih =>
    intro c hc
    rcases List.mem_append.1 hc with hc | hc
    · split at hc
      · cases hc
      · exact ih c hc
    · rw [List.mem_singleton.1 hc]
      exact isdigit_ofNat (Nat.mod_lt _ (by omega))

theorem decimal_isdigit {n : Nat} : ∀ c ∈ decimal n, isdigit c = true := decimalDigits_isdigit

theorem decimal_ne_nil (n : Nat) : decimal n ≠ [] := decimalDigits_ne_nil (Nat.lt_succ_self n)

theorem decimalDigits_value {fuel n : Nat} (h : n < fuel) :
    (decimalDigits fuel n).foldl (fun n c => 10 * n + (c.toNat - 48)) 0 = n := by
  induction fuel generalizing n with
  | zero => omega
  | succ fuel ih =>
    have hd := digit_toNat (Nat.mod_lt n (by omega : 0 < 10))
    rw [decimalDigits, List.foldl_append, List.foldl_cons, List.foldl_nil, hd]
    by_cases hn : n < 10
    · rw [if_pos hn, List.foldl_nil]
      omega
    · rw [if_neg hn, ih (by omega)]
      omega

/-- A number is read back. -/
theorem digits_decimal (n : Nat) : digits (decimal n) = n := by
  rw [digits, List.takeWhile_eq_self_iff.2 decimal_isdigit]
  exact decimalDigits_value (Nat.lt_succ_self n)

theorem decimal_injective : Function.Injective decimal := Function.LeftInverse.injective digits_decimal

theorem strsep_append {s rest : Bytes} {d : UInt8} (h : d ∉ s) : strsep (some (s ++ d :: rest)) d = (some s, some rest) := by
  have hne : ∀ c ∈ s, decide (c ≠ d) = true := fun c hc => decide_eq_true fun he => h (he ▸ hc)
  simp only [strsep]
  rw [List.takeWhile_append_of_pos hne, List.dropWhile_append_of_pos hne]
  simp

theorem strsep_eq_self {s : Bytes} {d : UInt8} (h : d ∉ s) : strsep (some s) d = (some s, none) := by
  have hne : ∀ c ∈ s, decide (c ≠ d) = true := fun c hc => decide_eq_true fun he => h (he ▸ hc)
  simp only [strsep, h, if_false]
  rw [List.takeWhile_eq_self_iff.2 hne]

end CString
