import AntHttp.Lib.CString
import Mathlib.Tactic.Common
/-!
# Buffers

An array of `char` as a list of cells, each with a byte or not initialised yet.
Reading or writing beyond the end is a fault, and so is reading a cell that has
not been written. `gets` reads the string that starts a buffer.
-/

namespace Buffer

inductive Fault where
  | bounds
  | uninit
  deriving DecidableEq

end Buffer

abbrev Buffer := List (Option UInt8)

namespace Buffer

/-- An array that nothing has been stored in. -/
def uninit (n : Nat) : Buffer := List.replicate n none

/-- An array of `n` whose first bytes have been stored. -/
def holding (w : Bytes) (n : Nat) : Buffer := w.map some ++ uninit (n - w.length)

/-- An array that holds a string. -/
def ofString (s : Bytes) : Buffer := s.map some ++ [some 0]

def get (b : Buffer) (i : Nat) : Except Fault UInt8 :=
  match b[i]? with
  | some (some c) => .ok c
  | some none => .error .uninit
  | none => .error .bounds

def set (b : Buffer) (i : Nat) (c : UInt8) : Except Fault Buffer :=
  if i < b.length then .ok (List.set b i (some c)) else .error .bounds

/-- One write after another, from `i` on. -/
def put (b : Buffer) (i : Nat) : Bytes → Except Fault Buffer
  | [] => .ok b
  | c :: s => do put (← set b i c) (i + 1) s

/-- The bytes before the first NUL, all of which are looked at, and the NUL. -/
def gets : Buffer → Except Fault Bytes
  | [] => .error .bounds
  | none :: _ => .error .uninit
  | some c :: b => if c = 0 then .ok [] else do return c :: (← gets b)

/-- The first `n` cells. -/
def getn : Buffer → Nat → Except Fault Bytes
  | _, 0 => .ok []
  | [], _ + 1 => .error .bounds
  | none :: _, _ + 1 => .error .uninit
  | some c :: b, n + 1 => do return c :: (← getn b n)

def strncpy (dst : Buffer) (src : Bytes) (n : Nat) : Except Fault Buffer :=
  put dst 0 (src.take n ++ List.replicate (n - src.length) 0)

def strncat (dst : Buffer) (src : Bytes) (n : Nat) : Except Fault Buffer := do
  put dst (← gets dst).length (src.take n ++ [0])

/-- For a text that is known. -/
def sprintf (dst : Buffer) (text : Bytes) : Except Fault Buffer := put dst 0 (text ++ [0])

@[simp] theorem ok_bind {α β : Type} (a : α) (f : α → Except Fault β) : ((.ok a : Except Fault α) >>= f) = f a := rfl

section

variable {b : Buffer} {s text : Bytes} {i n : Nat} {c : UInt8}

theorem get_lt (h : get b i = .ok c) : i < b.length := by
  by_contra hi
  rw [get, List.getElem?_eq_none (by omega)] at h
  cases h

theorem set_ok (h : i < b.length) : set b i c = .ok (List.set b i (some c)) := if_pos h

theorem set_bounds (h : b.length ≤ i) : set b i c = .error .bounds := if_neg (by omega)

/-- Writes that stay inside replace that part of the buffer. -/
theorem put_ok (h : i + s.length ≤ b.length) : put b i s = .ok (b.take i ++ s.map some ++ b.drop (i + s.length)) := by
  induction s generalizing b i with
  | nil => rw [put, List.map_nil, List.append_nil, List.length_nil, Nat.add_zero, List.take_append_drop]
  | cons c s ih =>
    rw [List.length_cons] at h
    have hi : (b.take i).length = i := List.length_take_of_le (by omega)
    have hset : List.set b i (some c) = b.take i ++ some c :: b.drop (i + 1) := by
      rw [List.set_eq_take_append_cons_drop, if_pos (by omega)]
    have htake : (List.set b i (some c)).take (i + 1) = b.take i ++ [some c] := by
      rw [hset, List.append_cons, List.take_left' (by rw [List.length_append, hi, List.length_singleton])]
    have hdrop : (List.set b i (some c)).drop (i + 1 + s.length) = b.drop (i + (s.length + 1)) := by
      rw [List.drop_set_of_lt (by omega), Nat.add_assoc, Nat.add_comm 1]
    rw [put, set_ok (by omega)]
    change put (List.set b i (some c)) (i + 1) s = _
    rw [ih (by rw [List.length_set]; omega), htake, hdrop, List.length_cons, List.map_cons]
    simp only [List.append_assoc, List.singleton_append]

/-- Writes that do not end beyond it. -/
theorem put_bounds (hi : i ≤ b.length) (h : b.length < i + s.length) : put b i s = .error .bounds := by
  induction s generalizing b i with
  | nil => exact absurd h (by rw [List.length_nil]; omega)
  | cons c s ih =>
    rw [put]
    by_cases hb : i < b.length
    · rw [set_ok hb]
      change put (List.set b i (some c)) (i + 1) s = _
      exact ih (by rw [List.length_set]; omega) (by rw [List.length_set, List.length_cons] at *; omega)
    · rw [set_bounds (by omega)]
      rfl

/-- Writes behind what has been written. -/
theorem put_holding (h : text.length + s.length ≤ n) :
    put (holding text n) text.length s = .ok (holding (text ++ s) n) := by
  have hmap : (text.map some).length = text.length := List.length_map _
  have hfit : text.length + s.length ≤ (holding text n).length := by
    rw [holding, uninit, List.length_append, hmap, List.length_replicate]
    omega
  rw [put_ok hfit, holding, List.take_left' hmap, ← hmap, List.drop_length_add_append, uninit, List.drop_replicate,
    holding, List.length_append, hmap, Nat.sub_sub, List.map_append, uninit]

theorem put_append (b : Buffer) (i : Nat) (s t : Bytes) :
    put b i (s ++ t) = put b i s >>= fun b => put b (i + s.length) t := by
  induction s generalizing b i with
  | nil => rfl
  | cons c s ih =>
    rw [List.cons_append, put, put, List.length_cons, Nat.add_comm s.length, ← Nat.add_assoc]
    cases set b i c with
    | error e => rfl
    | ok b => exact ih b (i + 1)

theorem put_singleton (b : Buffer) (i : Nat) (c : UInt8) : put b i [c] = set b i c := by
  rw [put]
  cases set b i c <;> rfl

/-- A string ends at its first NUL. -/
theorem gets_cstr (s : Bytes) (rest : Buffer) : gets (s.map some ++ some 0 :: rest) = .ok (CString.cstr s) := by
  induction s with
  | nil => rfl
  | cons c s ih =>
    rw [List.map_cons, List.cons_append, gets, ih, CString.cstr, CString.cstr, List.takeWhile_cons]
    by_cases hc : c = 0
    · simp [hc]
    · simp only [hc, if_false, ne_eq, not_false_eq_true, decide_true]
      rfl

theorem gets_append (h : 0 ∉ s) (rest : Buffer) : gets (s.map some ++ some 0 :: rest) = .ok s := by
  rw [gets_cstr, CString.cstr_eq_self h]

/-- A string that is not ended where nothing has been stored. -/
theorem gets_uninit (h : 0 ∉ s) (rest : Buffer) : gets (s.map some ++ none :: rest) = .error .uninit := by
  induction s with
  | nil => rfl
  | cons c s ih =>
    obtain ⟨hc, hs⟩ := not_or.1 fun hm => h (List.mem_cons.2 hm)
    rw [List.map_cons, List.cons_append, gets, if_neg (Ne.symm hc), ih hs]
    rfl

theorem getn_append (s : Bytes) (rest : Buffer) : getn (s.map some ++ rest) s.length = .ok s := by
  induction s with
  | nil => rw [List.length_nil, getn]
  | cons c s ih =>
    rw [List.map_cons, List.cons_append, List.length_cons, getn, ih]
    rfl

/-- A text that fits can be read again. -/
theorem gets_sprintf (h : 0 ∉ text) (hlen : text.length < b.length) :
    ∃ b', sprintf b text = .ok b' ∧ gets b' = .ok text ∧ b'.length = b.length := by
  have hfit : 0 + (text ++ [0]).length ≤ b.length := by
    rw [List.length_append, List.length_singleton]
    omega
  refine ⟨_, put_ok hfit, ?_, ?_⟩
  · rw [List.take_zero, List.nil_append, List.map_append, List.append_assoc]
    exact gets_append h _
  · simp only [List.length_append, List.length_take, List.length_drop, List.length_map] at hfit ⊢
    omega

/-! ### Walking over a string -/

/-- The string at a place in the buffer. -/
def StringAt (b : Buffer) (i : Nat) (s : Bytes) : Prop := ∃ rest, b.drop i = s.map some ++ some 0 :: rest

theorem get_drop (b : Buffer) (i : Nat) : get b i = get (b.drop i) 0 := by
  rw [get, get, List.getElem?_drop, Nat.add_zero]

theorem StringAt.head (h : StringAt b i (c :: s)) : get b i = .ok c := by
  obtain ⟨rest, h⟩ := h
  rw [get_drop, h]
  rfl

theorem StringAt.nul (h : StringAt b i []) : get b i = .ok 0 := by
  obtain ⟨rest, h⟩ := h
  rw [get_drop, h]
  rfl

theorem StringAt.tail (h : StringAt b i (c :: s)) : StringAt b (i + 1) s := by
  obtain ⟨rest, h⟩ := h
  refine ⟨rest, ?_⟩
  rw [← List.drop_drop, h]
  rfl

/-! ### Appending -/

variable {src : Bytes} {rest : Buffer}

/-- What is appended ends within the buffer if it is no longer than what follows the NUL. -/
theorem strncat_ok (h : 0 ∉ s) (hfit : (src.take n).length ≤ rest.length) :
    strncat (s.map some ++ some 0 :: rest) src n =
      .ok ((s ++ src.take n).map some ++ some 0 :: rest.drop (src.take n).length) := by
  have hmap : (s.map some).length = s.length := List.length_map _
  have hlen : s.length + (src.take n ++ [0]).length ≤ (s.map some ++ some 0 :: rest).length := by
    simp only [List.length_append, List.length_map, List.length_cons, List.length_nil] at hfit ⊢
    omega
  have hdrop : (s.map some ++ some 0 :: rest).drop (s.length + (src.take n ++ [0]).length) =
      rest.drop (src.take n).length := by
    rw [← hmap, List.drop_length_add_append, List.length_append, List.length_singleton, List.drop_succ_cons]
  rw [strncat, gets_append h]
  change put _ s.length _ = _
  rw [put_ok hlen, hdrop, List.take_left' hmap]
  simp only [List.map_append, List.map_cons, List.map_nil, List.append_assoc, List.cons_append, List.nil_append]

theorem strncat_bounds (h : 0 ∉ s) (hlong : rest.length < (src.take n).length) :
    strncat (s.map some ++ some 0 :: rest) src n = .error .bounds := by
  rw [strncat, gets_append h]
  change put _ s.length _ = _
  apply put_bounds
  · simp
  · simp only [List.length_append, List.length_map, List.length_cons, List.length_nil]
    omega

theorem strncat_uninit (h : 0 ∉ s) (rest : Buffer) : strncat (s.map some ++ none :: rest) src n = .error .uninit := by
  rw [strncat, gets_uninit h]
  rfl

end

end Buffer
