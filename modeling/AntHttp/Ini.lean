import AntHttp.Lib.CString
import Mathlib.Data.List.DropRight
/-!
# Reading the text of a configuration (`lib/ini.c`)

The file is read in pieces of one line, of at most 511 bytes. A section, a
name and a line that continues a value are told apart by how the line starts,
and each value is handed to a handler. Errors do not stop the reader: it
returns the number of the first line that has one.
-/

namespace AntHttp

open CString

def MAX_SECTION : Nat := 50
def MAX_NAME : Nat := 50
def INI_MAX_LINE : Nat := 512

def rstrip (s : Bytes) : Bytes := s.rdropWhile isspace

def lskip (s : Bytes) : Bytes := s.dropWhile isspace

/-- What is before `c` or a comment, and what is from there on. -/
def find_char_or_comment (c : UInt8) (was_whitespace : Bool) : Bytes → Bytes × Bytes
  | [] => ([], [])
  | x :: s =>
    if x ≠ c ∧ ¬ (was_whitespace ∧ x = 59) then
      let (before, after) := find_char_or_comment c (isspace x) s
      (x :: before, after)
    else ([], x :: s)

/-- The string that is then in `dest`. -/
def strncpy0 (src : Bytes) (size : Nat) : Bytes := src.take (size - 1)

/-- The line that is stored, of less than `size` bytes, and the rest of the file. -/
def fgets : Nat → Bytes → Bytes × Bytes
  | size + 2, c :: file =>
    if c = 10 then ([c], file)
    else
      let (line, file) := fgets (size + 1) file
      (c :: line, file)
  | _, file => ([], file)

abbrev IniHandler (σ : Type) := σ → Bytes → Bytes → Bytes → σ × Bool

/-- The variables of `ini_parse_file`. -/
structure Ini (σ : Type) where
  user : σ
  section_ : Bytes
  prev_name : Bytes
  lineno : Nat
  error : Nat

variable {σ : Type}

/-- `if (!error) error = lineno` -/
def Ini.fail (s : Ini σ) : Ini σ := { s with error := if s.error = 0 then s.lineno else s.error }

def Ini.call (handler : IniHandler σ) (s : Ini σ) (name value : Bytes) : Ini σ :=
  let (user, ok) := handler s.user s.section_ name value
  if ok then { s with user } else { s with user }.fail

/-- A line from its first character on, where it may be indented. -/
def Ini.parse (handler : IniHandler σ) (s : Ini σ) (indented : Bool) (start : Bytes) : Ini σ :=
  if start.head? = some 59 ∨ start.head? = some 35 then s
  else if s.prev_name ≠ [] ∧ start ≠ [] ∧ indented then s.call handler s.prev_name start
  else if start.head? = some 91 then
    let (name, after) := find_char_or_comment 93 false start.tail
    if after.head? = some 93 then { s with section_ := strncpy0 name MAX_SECTION, prev_name := [] } else s.fail
  else if start ≠ [] then
    let (name, after) := find_char_or_comment 61 false start
    let (name, after) := if after.head? = some 61 then (name, after) else find_char_or_comment 58 false start
    if after.head? = some 61 ∨ after.head? = some 58 then
      let name := rstrip name
      let value := rstrip (find_char_or_comment 0 false (lskip after.tail)).1
      { s with prev_name := strncpy0 name MAX_NAME }.call handler name value
    else s.fail
  else s

/-- One line of the file. -/
def Ini.line (handler : IniHandler σ) (s : Ini σ) (line : Bytes) : Ini σ :=
  let s := { s with lineno := s.lineno + 1 }
  let line := cstr line
  let bom := s.lineno = 1 ∧ line.take 3 = [0xEF, 0xBB, 0xBF]
  let text := rstrip (if bom then line.drop 3 else line)
  let start := lskip text
  s.parse handler (bom ∨ start.length < text.length) start

theorem fgets_length (size : Nat) (file : Bytes) : (fgets size file).1.length + (fgets size file).2.length = file.length := by
  fun_induction fgets size file with
  | case1 => simp [Nat.add_comm]
  | case2 _ _ _ _ _ _ heq ih =>
    rw [heq] at ih
    simp only [List.length_cons] at ih ⊢
    omega
  | case3 => simp

theorem fgets_pos {size : Nat} {file : Bytes} (h : file ≠ []) : 0 < (fgets (size + 2) file).1.length := by
  cases file with
  | nil => exact absurd rfl h
  | cons c file =>
    rw [fgets]
    split <;> exact Nat.succ_pos _

/-- The loop over the lines. -/
def Ini.lines (handler : IniHandler σ) (s : Ini σ) (file : Bytes) : Ini σ :=
  if _h : file = [] then s
  else (s.line handler (fgets INI_MAX_LINE file).1).lines handler (fgets INI_MAX_LINE file).2
termination_by file.length
decreasing_by
  have hlen := fgets_length INI_MAX_LINE file
  have hpos : 0 < (fgets INI_MAX_LINE file).1.length := fgets_pos _h
  omega

def ini_parse_file (handler : IniHandler σ) (user : σ) (file : Bytes) : σ × Nat :=
  let s := Ini.lines handler ⟨user, [], [], 0, 0⟩ file
  (s.user, s.error)

/-- A file that cannot be opened gives -1. -/
def ini_parse (handler : IniHandler σ) (user : σ) (file : Option Bytes) : σ × Int :=
  match file with
  | none => (user, -1)
  | some file =>
    let (user, error) := ini_parse_file handler user file
    (user, error)

/-! ## Lines as they are written -/

/-- White space only. -/
def Blank (s : Bytes) : Prop := ∀ c ∈ s, isspace c = true

/-- Neither end is white space. -/
def Stripped (s : Bytes) : Prop := (∀ c, s.head? = some c → isspace c = false) ∧ ∀ c, s.getLast? = some c → isspace c = false

/-- No `;` behind white space. -/
def Uncommented (was_whitespace : Bool) : Bytes → Prop
  | [] => True
  | x :: s => (was_whitespace = true → x ≠ 59) ∧ Uncommented (isspace x) s

instance (s : Bytes) : Decidable (Blank s) := inferInstanceAs (Decidable (∀ c ∈ s, isspace c = true))

instance (s : Bytes) : Decidable (Stripped s) :=
  inferInstanceAs (Decidable ((∀ c ∈ s.head?, isspace c = false) ∧ ∀ c ∈ s.getLast?, isspace c = false))

instance Uncommented.decide : (was : Bool) → (s : Bytes) → Decidable (Uncommented was s)
  | _, [] => isTrue trivial
  | was, x :: s =>
    have := Uncommented.decide (isspace x) s
    inferInstanceAs (Decidable ((was = true → x ≠ 59) ∧ Uncommented (isspace x) s))

section

variable {s t w : Bytes} {c : UInt8} {was : Bool}

theorem rstrip_append_blank (h : Blank w) (s : Bytes) : rstrip (s ++ w) = rstrip s := by
  induction w using List.reverseRecOn with
  | nil => rw [List.append_nil]
  | append_singleton w c ih =>
    have hc : isspace c = true := h c (by simp)
    rw [rstrip, ← List.append_assoc, List.rdropWhile_concat_pos _ _ _ hc]
    exact ih fun c hm => h c (List.mem_append_left _ hm)

/-- What is behind a character that stays is stripped by itself. -/
theorem rstrip_append_cons (hc : isspace c = false) (s t : Bytes) : rstrip (s ++ c :: t) = s ++ c :: rstrip t := by
  induction t using List.reverseRecOn with
  | nil => rw [rstrip, List.rdropWhile_concat_neg _ _ _ (by simp [hc])]; rfl
  | append_singleton t x ih =>
    have hassoc : s ++ c :: (t ++ [x]) = (s ++ c :: t) ++ [x] := by simp
    rw [hassoc, rstrip]
    by_cases hx : isspace x = true
    · rw [List.rdropWhile_concat_pos _ _ _ hx]
      change rstrip (s ++ c :: t) = s ++ c :: rstrip (t ++ [x])
      rw [ih, rstrip_append_blank (fun y hy => by rw [List.mem_singleton.1 hy, hx])]
    · rw [List.rdropWhile_concat_neg _ _ _ hx, rstrip, List.rdropWhile_concat_neg _ _ _ hx]
      simp

theorem rstrip_blank (h : Blank w) : rstrip w = [] := rstrip_append_blank h []

theorem rstrip_self (h : ∀ c, s.getLast? = some c → isspace c = false) : rstrip s = s := by
  rcases List.eq_nil_or_concat s with rfl | ⟨s, c, rfl⟩
  · rfl
  · rw [rstrip, List.concat_eq_append]
    apply List.rdropWhile_concat_neg
    simp [h c (by simp)]

theorem lskip_append_blank (h : Blank w) (s : Bytes) : lskip (w ++ s) = lskip s := by
  induction w with
  | nil => rfl
  | cons c w ih =>
    rw [lskip, List.cons_append, List.dropWhile_cons_of_pos (h c List.mem_cons_self)]
    exact ih fun c hm => h c (List.mem_cons_of_mem _ hm)

theorem lskip_self (h : ∀ c, s.head? = some c → isspace c = false) : lskip s = s := by
  cases s with
  | nil => rfl
  | cons c s => rw [lskip, List.dropWhile_cons_of_neg (by simp [h c rfl])]

theorem Blank.append (hs : Blank s) (ht : Blank t) : Blank (s ++ t) := fun c hm =>
  (List.mem_append.1 hm).elim (hs c) (ht c)

/-! ### Looking for a character -/

/-- Neither the character nor a comment is in `s`. -/
theorem find_append (hc : c ∉ s) (hs : Uncommented was s) (t : Bytes) :
    find_char_or_comment c was (s ++ t) =
      (s ++ (find_char_or_comment c ((s.getLast?.map isspace).getD was) t).1,
        (find_char_or_comment c ((s.getLast?.map isspace).getD was) t).2) := by
  induction s generalizing was with
  | nil => rfl
  | cons x s ih =>
    obtain ⟨hne, hc⟩ := not_or.1 fun hm => hc (List.mem_cons.2 hm)
    have hgo : x ≠ c ∧ ¬ (was = true ∧ x = 59) := ⟨Ne.symm hne, fun ⟨hw, hx⟩ => hs.1 hw hx⟩
    have hlast : ((x :: s).getLast?.map isspace).getD was = (s.getLast?.map isspace).getD (isspace x) := by
      cases s with
      | nil => rfl
      | cons y s => rw [List.getLast?_cons_cons, List.getLast?_cons]; rfl
    rw [List.cons_append, find_char_or_comment, if_pos hgo, ih hc hs.2, hlast]
    rfl

theorem find_self (hc : c ∉ s) (hs : Uncommented was s) : find_char_or_comment c was s = (s, []) := by
  have h := find_append hc hs []
  rwa [List.append_nil, find_char_or_comment, List.append_nil] at h

theorem find_hit (hc : c ∉ s) (hs : Uncommented was s) (t : Bytes) :
    find_char_or_comment c was (s ++ c :: t) = (s, c :: t) := by
  rw [find_append hc hs, find_char_or_comment, if_neg (fun h => h.1 rfl), List.append_nil]

/-- A comment ends the search. -/
theorem find_comment (hc : c ∉ s) (hs : Uncommented was s) (hlast : (s.getLast?.map isspace).getD was = true) (t : Bytes) :
    find_char_or_comment c was (s ++ 59 :: t) = (s, 59 :: t) := by
  rw [find_append hc hs, find_char_or_comment, hlast, if_neg (fun h => h.2 ⟨rfl, rfl⟩), List.append_nil]

/-- What is found is there. -/
theorem mem_of_find (h : (find_char_or_comment c was s).2.head? = some c) : c ∈ s := by
  induction s generalizing was with
  | nil => cases h
  | cons x s ih =>
    rw [find_char_or_comment] at h
    split at h
    · exact List.mem_cons_of_mem _ (ih h)
    · cases h
      exact List.mem_cons_self

theorem Uncommented.append_blank (hs : Uncommented was s) (hw : Blank w) : Uncommented was (s ++ w) := by
  induction s generalizing was with
  | nil =>
    induction w generalizing was with
    | nil => trivial
    | cons x w ih =>
      have hx := hw x List.mem_cons_self
      exact ⟨fun _ h59 => by rw [h59] at hx; exact absurd hx (by decide),
        ih (fun c hm => hw c (List.mem_cons_of_mem _ hm)) trivial⟩
  | cons x s ih => exact ⟨hs.1, ih hs.2⟩

end

/-! ## A text made of lines -/

/-- A line of a configuration, without its newline. -/
inductive Item where
  | blank (w : Bytes)
  | comment (w : Bytes) (mark : UInt8) (text : Bytes)
  | section_ (name trail : Bytes)
  | entry (name w : Bytes) (sep : UInt8) (w' value trail : Bytes)
  | more (w value trail : Bytes)

def Item.text : Item → Bytes
  | .blank w => w
  | .comment w mark text => w ++ mark :: text
  | .section_ name trail => 91 :: name ++ 93 :: trail
  | .entry name w sep w' value trail => name ++ w ++ sep :: w' ++ value ++ trail
  | .more w value trail => w ++ value ++ trail

/-- White space, or a comment behind white space. -/
def Trail (t : Bytes) : Prop := Blank t ∨ ∃ w text, t = w ++ 59 :: text ∧ Blank w ∧ w ≠ []

/-- A line as the reader takes it, where a value is continued only if there was a name. -/
def Item.Ok (prev_name : Bytes) : Item → Prop
  | .blank w => Blank w
  | .comment w mark _ => Blank w ∧ (mark = 59 ∨ mark = 35)
  | .section_ name _ => 93 ∉ name ∧ Uncommented false name
  | .entry name w sep w' value trail =>
    (name ≠ [] ∧ Stripped name ∧ Uncommented false name ∧ 61 ∉ name ∧
      name.head? ≠ some 59 ∧ name.head? ≠ some 35 ∧ name.head? ≠ some 91) ∧ Blank w ∧ Blank w' ∧
    (sep = 61 ∨ sep = 58 ∧ 58 ∉ name ∧ 61 ∉ value) ∧
    (Stripped value ∧ Uncommented false value) ∧ (Blank trail ∨ value ≠ [] ∧ Trail trail)
  | .more w value trail =>
    prev_name ≠ [] ∧ (Blank w ∧ w ≠ []) ∧
    (value ≠ [] ∧ Stripped value ∧ value.head? ≠ some 59 ∧ value.head? ≠ some 35) ∧ Blank trail

/-- What the reader remembers of the lines before. -/
structure Spot where
  section_ : Bytes
  prev_name : Bytes

def Item.place (p : Spot) : Item → Spot
  | .section_ name _ => ⟨name.take 49, []⟩
  | .entry name .. => { p with prev_name := name.take 49 }
  | _ => p

/-- The section, name and value that a line hands to the handler. -/
def Item.call (p : Spot) : Item → Option (Bytes × Bytes × Bytes)
  | .entry name _ _ _ value _ => some (p.section_, name, value)
  | .more _ value _ => some (p.section_, p.prev_name, value)
  | _ => none

/-- The variables after a line that is as it should be. -/
def Ini.item (handler : IniHandler σ) (s : Ini σ) (item : Item) : Ini σ :=
  let p := item.place ⟨s.section_, s.prev_name⟩
  let s' := { s with section_ := p.section_, prev_name := p.prev_name, lineno := s.lineno + 1 }
  match item.call ⟨s.section_, s.prev_name⟩ with
  | none => s'
  | some (sec, name, value) =>
    let (user, ok) := handler s.user sec name value
    { s' with user, error := if ok ∨ s.error ≠ 0 then s.error else s.lineno + 1 }

section

variable {handler : IniHandler σ} {s : Ini σ} {item : Item}

theorem line_eq {text : Bytes} (h0 : 0 ∉ text) (hbom : s.lineno = 0 → text.take 3 ≠ [0xEF, 0xBB, 0xBF]) :
    s.line handler (text ++ [10]) = { s with lineno := s.lineno + 1 }.parse handler
      ((lskip (rstrip text)).length < (rstrip text).length) (lskip (rstrip text)) := by
  have hcstr : cstr (text ++ [10]) = text ++ [10] := cstr_eq_self (by simp [h0])
  have hnl : Blank [10] := fun c hc => by rw [List.mem_singleton.1 hc]; rfl
  have hno : ¬ (s.lineno + 1 = 1 ∧ (text ++ [10]).take 3 = [0xEF, 0xBB, 0xBF]) := by
    rintro ⟨h1, hb⟩
    rcases Nat.lt_or_ge text.length 3 with hshort | hlong
    · have hmem : (10 : UInt8) ∈ (text ++ [10]).take 3 := by
        rw [List.take_of_length_le (by rw [List.length_append, List.length_singleton]; omega)]
        simp
      rw [hb] at hmem
      exact absurd hmem (by decide)
    · rw [List.take_append_of_le_length hlong] at hb
      exact hbom (by omega) hb
  simp only [Ini.line, hcstr, hno, if_false, rstrip_append_blank hnl, false_or]

/-- A line without blanks in front. -/
theorem line_start {text start : Bytes} (h0 : 0 ∉ text) (hbom : s.lineno = 0 → text.take 3 ≠ [0xEF, 0xBB, 0xBF])
    (hstrip : rstrip text = start) (hhead : ∀ c, start.head? = some c → isspace c = false) :
    s.line handler (text ++ [10]) = { s with lineno := s.lineno + 1 }.parse handler false start := by
  rw [line_eq h0 hbom, hstrip, lskip_self hhead]
  simp

theorem line_blank {w : Bytes} (h0 : 0 ∉ w) (hbom : s.lineno = 0 → w.take 3 ≠ [0xEF, 0xBB, 0xBF]) (hw : Blank w) :
    s.line handler (w ++ [10]) = { s with lineno := s.lineno + 1 } := by
  rw [line_start h0 hbom (rstrip_blank hw) (fun c hc => by cases hc)]
  simp [Ini.parse]

theorem line_comment {w text : Bytes} {mark : UInt8} (h0 : 0 ∉ w ++ mark :: text)
    (hbom : s.lineno = 0 → (w ++ mark :: text).take 3 ≠ [0xEF, 0xBB, 0xBF]) (hw : Blank w) (hmark : mark = 59 ∨ mark = 35) :
    s.line handler (w ++ mark :: text ++ [10]) = { s with lineno := s.lineno + 1 } := by
  have hspace : isspace mark = false := by rcases hmark with rfl | rfl <;> rfl
  have hskip : lskip (w ++ mark :: rstrip text) = mark :: rstrip text := by
    rw [lskip_append_blank hw, lskip_self (fun c hc => by cases hc; exact hspace)]
  rw [line_eq h0 hbom, rstrip_append_cons hspace, hskip, Ini.parse, if_pos]
  rcases hmark with rfl | rfl
  · exact .inl rfl
  · exact .inr rfl

theorem line_section {name trail : Bytes} (h0 : 0 ∉ 91 :: name ++ 93 :: trail)
    (hbom : s.lineno = 0 → (91 :: name ++ 93 :: trail).take 3 ≠ [0xEF, 0xBB, 0xBF]) (hname : 93 ∉ name)
    (hun : Uncommented false name) : s.line handler (91 :: name ++ 93 :: trail ++ [10]) =
      { s with section_ := name.take 49, prev_name := [], lineno := s.lineno + 1 } := by
  have hstrip : rstrip (91 :: name ++ 93 :: trail) = 91 :: (name ++ 93 :: rstrip trail) :=
    rstrip_append_cons rfl (91 :: name) trail
  rw [line_start h0 hbom hstrip (fun c hc => by cases hc; rfl), Ini.parse]
  simp [find_hit hname hun, strncpy0, MAX_SECTION]

theorem line_more {w value trail : Bytes} (h0 : 0 ∉ w ++ value ++ trail)
    (hbom : s.lineno = 0 → (w ++ value ++ trail).take 3 ≠ [0xEF, 0xBB, 0xBF]) (hprev : s.prev_name ≠ []) (hw : Blank w)
    (hw' : w ≠ []) (hvalue : value ≠ []) (hstripped : Stripped value) (h59 : value.head? ≠ some 59)
    (h35 : value.head? ≠ some 35) (htrail : Blank trail) : s.line handler (w ++ value ++ trail ++ [10]) =
      { s with lineno := s.lineno + 1 }.call handler s.prev_name value := by
  have hlast : ∀ c, (w ++ value).getLast? = some c → isspace c = false := by
    intro c hc
    apply hstripped.2 c
    rwa [List.getLast?_append_of_ne_nil _ hvalue] at hc
  have hskip : lskip (w ++ value) = value := by rw [lskip_append_blank hw, lskip_self hstripped.1]
  have hlong : value.length < (w ++ value).length := by
    have := List.length_pos_iff.2 hw'
    rw [List.length_append]
    omega
  rw [line_eq h0 hbom, rstrip_append_blank htrail, rstrip_self hlast, hskip, Ini.parse,
    if_neg (not_or.2 ⟨h59, h35⟩), if_pos ⟨hprev, hvalue, decide_eq_true hlong⟩]

/-- A value between its blanks and a comment. -/
theorem value_eq {w value trail : Bytes} (hw : Blank w) (hstripped : Stripped value) (hun : Uncommented false value)
    (h0 : 0 ∉ value ++ trail) (htrail : Blank trail ∨ value ≠ [] ∧ Trail trail) :
    rstrip (find_char_or_comment 0 false (lskip (rstrip (w ++ value ++ trail)))).1 = value := by
  have h0v : 0 ∉ value := fun hm => h0 (List.mem_append_left _ hm)
  have hskip (t : Bytes) (hne : value ≠ []) : lskip (w ++ (value ++ t)) = value ++ t := by
    obtain ⟨c, v, rfl⟩ := List.exists_cons_of_ne_nil hne
    rw [lskip_append_blank hw, lskip_self (fun x hx => by cases hx; exact hstripped.1 c rfl)]
  have hplain (hblank : Blank trail) :
      rstrip (find_char_or_comment 0 false (lskip (rstrip (w ++ value ++ trail)))).1 = value := by
    rw [rstrip_append_blank hblank]
    by_cases hne : value = []
    · rw [hne, List.append_nil, rstrip_blank hw]
      rfl
    · have hlast : ∀ c, (w ++ value).getLast? = some c → isspace c = false := by
        intro c hc
        apply hstripped.2 c
        rwa [List.getLast?_append_of_ne_nil _ hne] at hc
      have := hskip [] hne
      rw [List.append_nil] at this
      rw [rstrip_self hlast, this, find_self h0v hun, rstrip_self hstripped.2]
  rcases htrail with hblank | ⟨hne, hblank | ⟨w₂, text, rfl, hw₂, hne₂⟩⟩
  · exact hplain hblank
  · exact hplain hblank
  · have hlast : ((value ++ w₂).getLast?.map isspace).getD false = true := by
      rw [List.getLast?_append_of_ne_nil _ hne₂, List.getLast?_eq_some_getLast hne₂]
      exact hw₂ _ (List.getLast_mem hne₂)
    have hmem : 0 ∉ value ++ w₂ := fun hm => by
      rcases List.mem_append.1 hm with hm | hm
      · exact h0v hm
      · exact absurd (hw₂ 0 hm) (by decide)
    have hassoc : w ++ value ++ (w₂ ++ 59 :: text) = (w ++ (value ++ w₂)) ++ 59 :: text := by simp
    have hback : w ++ (value ++ w₂) ++ 59 :: rstrip text = w ++ (value ++ (w₂ ++ 59 :: rstrip text)) := by simp
    rw [hassoc, rstrip_append_cons rfl, hback, hskip _ hne, ← List.append_assoc,
      find_comment hmem (hun.append_blank hw₂) hlast, rstrip_append_blank hw₂, rstrip_self hstripped.2]

/-- A comment ends the search. -/
theorem find_before_comment {c : UInt8} {was : Bool} {u : Bytes} (hc : c ∉ u) (hne : c ≠ 59)
    (hlast : (u.getLast?.map isspace).getD was = true) (t : Bytes) :
    (find_char_or_comment c was (u ++ 59 :: t)).2.head? ≠ some c := by
  induction u generalizing was with
  | nil =>
    obtain rfl : was = true := hlast
    simpa [find_char_or_comment] using Ne.symm hne
  | cons x u ih =>
    obtain ⟨hx, hc⟩ := not_or.1 fun h => hc (List.mem_cons.2 h)
    rw [List.cons_append, find_char_or_comment]
    split
    · apply ih hc
      cases u with
      | nil => exact hlast
      | cons y u =>
        rw [List.getLast?_cons_cons, List.getLast?_eq_some_getLast (List.cons_ne_nil y u)] at hlast
        rw [List.getLast?_eq_some_getLast (List.cons_ne_nil y u)]
        exact hlast
    · rw [List.head?_cons]
      exact fun h => hx (Option.some.inj h).symm

/-- A `=` that is only in the comment is not found. -/
theorem find_equals {u w' value trail : Bytes} (hu : 61 ∉ u) (hw : Blank w') (hv : 61 ∉ value)
    (htrail : Blank trail ∨ value ≠ [] ∧ Trail trail) :
    (find_char_or_comment 61 false (u ++ 58 :: rstrip (w' ++ value ++ trail))).2.head? ≠ some 61 := by
  have hblank {w : Bytes} (hw : Blank w) : 61 ∉ w := fun hm => absurd (hw 61 hm) (by decide)
  have hplain (hb : Blank trail) :
      (find_char_or_comment 61 false (u ++ 58 :: rstrip (w' ++ value ++ trail))).2.head? ≠ some 61 := fun h => by
    rw [rstrip_append_blank hb] at h
    rcases List.mem_append.1 (mem_of_find h) with hm | hm
    · exact hu hm
    · have hm := (List.rdropWhile_prefix _ _).subset ((List.mem_cons.1 hm).resolve_left (by decide))
      exact (List.mem_append.1 hm).elim (hblank hw) hv
  rcases htrail with hb | ⟨-, hb | ⟨w₂, text, rfl, hw₂, hne₂⟩⟩
  · exact hplain hb
  · exact hplain hb
  · have hassoc : w' ++ value ++ (w₂ ++ 59 :: text) = w' ++ value ++ w₂ ++ 59 :: text := by simp
    have hfront : u ++ 58 :: (w' ++ value ++ w₂ ++ 59 :: rstrip text) = (u ++ 58 :: (w' ++ value ++ w₂)) ++ 59 :: rstrip text := by
      simp
    rw [hassoc, rstrip_append_cons rfl, hfront]
    apply find_before_comment
    · simp [hu, hv, hblank hw, hblank hw₂]
    · decide
    · have hcons : u ++ 58 :: (w' ++ value ++ w₂) = (u ++ 58 :: (w' ++ value)) ++ w₂ := by simp
      rw [hcons, List.getLast?_append_of_ne_nil _ hne₂, List.getLast?_eq_some_getLast hne₂]
      exact hw₂ _ (List.getLast_mem hne₂)

theorem line_entry {name w w' value trail : Bytes} {sep : UInt8}
    (hok : (Item.entry name w sep w' value trail).Ok s.prev_name) (h0 : 0 ∉ (Item.entry name w sep w' value trail).text)
    (hbom : s.lineno = 0 → (Item.entry name w sep w' value trail).text.take 3 ≠ [0xEF, 0xBB, 0xBF]) :
    s.line handler ((Item.entry name w sep w' value trail).text ++ [10]) =
      { s with prev_name := name.take 49, lineno := s.lineno + 1 }.call handler name value := by
  obtain ⟨⟨hne, hname, hun, h61, hc59, hc35, hc91⟩, hw, hw', hsep, ⟨hvalue, hvun⟩, htrail⟩ := hok
  have hsepc : isspace sep = false := by rcases hsep with rfl | ⟨rfl, -⟩ <;> rfl
  have htext : (Item.entry name w sep w' value trail).text = name ++ w ++ sep :: (w' ++ value ++ trail) := by
    simp [Item.text]
  have hbody : 0 ∉ w' ++ value ++ trail := by
    intro hm
    rw [htext] at h0
    exact h0 (List.mem_append_right _ (List.mem_cons_of_mem _ hm))
  have hval := value_eq hw' hvalue hvun (fun hm => hbody (by simp only [List.append_assoc]; exact List.mem_append_right _ hm)) htrail
  rw [htext] at hbom h0 ⊢
  have hstrip : rstrip (name ++ w ++ sep :: (w' ++ value ++ trail)) = name ++ w ++ sep :: rstrip (w' ++ value ++ trail) :=
    rstrip_append_cons hsepc _ _
  obtain ⟨c, n, rfl⟩ := List.exists_cons_of_ne_nil hne
  have hequals : 61 ∉ c :: n ++ w → 61 ∉ value →
      (find_char_or_comment 61 false (c :: n ++ w ++ 58 :: rstrip (w' ++ value ++ trail))).2.head? ≠ some 61 := fun hu hv =>
    find_equals hu hw' hv htrail
  generalize rstrip (w' ++ value ++ trail) = body at hstrip hval hequals
  have hhead : ∀ x, (c :: n ++ w ++ sep :: body).head? = some x → isspace x = false := fun x hx => by
    cases hx
    exact hname.1 c rfl
  have hun' := hun.append_blank hw
  have hblank (x : UInt8) (hx : isspace x = false) (hn : x ∉ c :: n) : x ∉ c :: n ++ w := fun hm => by
    rcases List.mem_append.1 hm with hm | hm
    · exact hn hm
    · rw [hw x hm] at hx
      cases hx
  have hfound : (let r := find_char_or_comment 61 false (c :: n ++ w ++ sep :: body)
      if r.2.head? = some 61 then (r.1, r.2) else find_char_or_comment 58 false (c :: n ++ w ++ sep :: body)) =
      (c :: n ++ w, sep :: body) := by
    rcases hsep with rfl | ⟨rfl, h58, hv61⟩
    · rw [find_hit (hblank 61 rfl h61) hun']
      rfl
    · have hno := hequals (hblank 61 rfl h61) hv61
      simp only [if_neg hno]
      exact find_hit (hblank 58 rfl h58) hun' body
  have hsep' : sep = 61 ∨ sep = 58 := hsep.imp_right And.left
  have hnamew : rstrip (c :: n ++ w) = c :: n := by rw [rstrip_append_blank hw, rstrip_self hname.2]
  have h59 : c ≠ 59 := fun he => hc59 (by rw [he]; rfl)
  have h35 : c ≠ 35 := fun he => hc35 (by rw [he]; rfl)
  have h91 : c ≠ 91 := fun he => hc91 (by rw [he]; rfl)
  rw [line_start h0 hbom hstrip hhead, Ini.parse]
  simp only [List.cons_append] at hfound ⊢
  simp only [List.head?_cons, Option.some.injEq, h59, h35, h91, or_self, if_false, and_false, ne_eq, reduceCtorEq,
    not_false_eq_true, if_true, Bool.false_eq_true]
  have hseps : (sep :: body).head? = some 61 ∨ (sep :: body).head? = some 58 := by
    rcases hsep' with rfl | rfl
    · exact .inl rfl
    · exact .inr rfl
  rw [hfound, if_pos hseps, List.tail_cons, hval]
  simp only [List.cons_append] at hnamew
  rw [hnamew]
  rfl

/-- Every line that is as it should be. -/
theorem line_item (hok : item.Ok s.prev_name) (h0 : 0 ∉ item.text)
    (hbom : s.lineno = 0 → item.text.take 3 ≠ [0xEF, 0xBB, 0xBF]) :
    s.line handler (item.text ++ [10]) = s.item handler item := by
  have hcall (t : Ini σ) (name value : Bytes) : t.call handler name value =
      { t with
        user := (handler t.user t.section_ name value).1
        error := if (handler t.user t.section_ name value).2 ∨ t.error ≠ 0 then t.error else t.lineno } := by
    rw [Ini.call]
    generalize handler t.user t.section_ name value = r
    obtain ⟨user, ok⟩ := r
    cases ok
    · by_cases he : t.error = 0 <;> simp [Ini.fail, he]
    · simp
  cases item with
  | blank w => exact line_blank h0 hbom hok
  | comment w mark text => exact line_comment h0 hbom hok.1 hok.2
  | section_ name trail => exact line_section h0 hbom hok.1 hok.2
  | entry name w sep w' value trail =>
    rw [line_entry hok h0 hbom, hcall]
    rfl
  | more w value trail =>
    obtain ⟨hprev, ⟨hw, hw'⟩, ⟨hne, hstripped, h59, h35⟩, htrail⟩ := hok
    refine (line_more h0 hbom hprev hw hw' hne hstripped h59 h35 htrail).trans ?_
    rw [hcall]
    rfl

end

/-! ## A file made of lines -/

theorem fgets_line {size : Nat} {line : Bytes} (h10 : 10 ∉ line) (hlen : line.length < size) (file : Bytes) :
    fgets (size + 1) (line ++ 10 :: file) = (line ++ [10], file) := by
  induction line generalizing size with
  | nil =>
    obtain ⟨n, rfl⟩ : ∃ n, size = n + 1 := ⟨size - 1, by rw [List.length_nil] at hlen; omega⟩
    rw [List.nil_append, fgets, if_pos rfl]
    rfl
  | cons c line ih =>
    rw [List.length_cons] at hlen
    obtain ⟨n, rfl⟩ : ∃ n, size = n + 1 := ⟨size - 1, by omega⟩
    obtain ⟨hc, hline⟩ := not_or.1 fun hm => h10 (List.mem_cons.2 hm)
    rw [List.cons_append, fgets, if_neg (Ne.symm hc), ih hline (by omega)]
    rfl

/-- Each line is one that the reader takes, given the names before it, of at most 510 bytes. -/
def Readable (p : Spot) : List Item → Prop
  | [] => True
  | item :: items =>
    (item.Ok p.prev_name ∧ item.text.length ≤ 510 ∧ 0 ∉ item.text ∧ 10 ∉ item.text) ∧ Readable (item.place p) items

/-- The text of the lines. -/
def fileOf (items : List Item) : Bytes := items.flatMap fun item => item.text ++ [10]

/-- What the lines hand to the handler, each with its number. -/
def calls (p : Spot) (lineno : Nat) : List Item → List (Nat × Bytes × Bytes × Bytes)
  | [] => []
  | item :: items =>
    ((item.call p).map (lineno + 1, ·)).toList ++ calls (item.place p) (lineno + 1) items

/-- The calls one after another, and the number of the first that is refused. -/
def handled (handler : IniHandler σ) (user : σ) (error : Nat) : List (Nat × Bytes × Bytes × Bytes) → σ × Nat
  | [] => (user, error)
  | (lineno, sec, name, value) :: calls =>
    let (user, ok) := handler user sec name value
    handled handler user (if ok ∨ error ≠ 0 then error else lineno) calls

section

variable {handler : IniHandler σ}

/-- The lines of a file, from any of them on. -/
theorem lines_items (items : List Item) (s : Ini σ) (h : Readable ⟨s.section_, s.prev_name⟩ items)
    (hbom : s.lineno = 0 → (fileOf items).take 3 ≠ [0xEF, 0xBB, 0xBF]) :
    ((s.lines handler (fileOf items)).user, (s.lines handler (fileOf items)).error) =
      handled handler s.user s.error (calls ⟨s.section_, s.prev_name⟩ s.lineno items) := by
  induction items generalizing s with
  | nil =>
    rw [fileOf, List.flatMap_nil, Ini.lines, dif_pos rfl]
    rfl
  | cons item items ih =>
    obtain ⟨⟨hok, hlen, h0, h10⟩, hrest⟩ := h
    have hfile : fileOf (item :: items) = item.text ++ 10 :: fileOf items := by
      rw [fileOf, List.flatMap_cons, List.append_assoc]
      rfl
    have hne : fileOf (item :: items) ≠ [] := by
      rw [hfile]
      exact fun h => by simp at h
    have hget : fgets INI_MAX_LINE (fileOf (item :: items)) = (item.text ++ [10], fileOf items) := by
      rw [hfile]
      exact fgets_line h10 (by omega) _
    have hhead : s.lineno = 0 → item.text.take 3 ≠ [0xEF, 0xBB, 0xBF] := fun hz htake => by
      apply hbom hz
      have h3 : 3 ≤ item.text.length := by
        have := congrArg List.length htake
        rw [List.length_take, List.length_cons, List.length_cons, List.length_cons, List.length_nil] at this
        omega
      rw [hfile, List.take_append_of_le_length h3, htake]
    rw [Ini.lines, dif_neg hne, hget, line_item hok h0 hhead]
    have hplace : (⟨(s.item handler item).section_, (s.item handler item).prev_name⟩ : Spot) =
        item.place ⟨s.section_, s.prev_name⟩ := by
      rw [Ini.item]
      cases item.call ⟨s.section_, s.prev_name⟩ <;> rfl
    have hlineno : (s.item handler item).lineno = s.lineno + 1 := by
      rw [Ini.item]
      cases item.call ⟨s.section_, s.prev_name⟩ <;> rfl
    rw [ih _ (by rw [hplace]; exact hrest) (by rw [hlineno]; omega), hplace, hlineno, calls, Ini.item]
    cases item.call ⟨s.section_, s.prev_name⟩ <;> rfl

end

/-- A file of lines that are as they should be is handed to the handler value by value, in order, and the number of
the first line whose value is refused is returned, or 0. -/
theorem ini_parse_file_items (handler : IniHandler σ) (user : σ) (items : List Item) (h : Readable ⟨[], []⟩ items)
    (hbom : (fileOf items).take 3 ≠ [0xEF, 0xBB, 0xBF]) :
    ini_parse_file handler user (fileOf items) = handled handler user 0 (calls ⟨[], []⟩ 0 items) :=
  lines_items items ⟨user, [], [], 0, 0⟩ h fun _ => hbom

/-- A section with a value that goes on in the next line. -/
theorem ini_parse_file_items_more : ini_parse_file (fun user _ name value => (user ++ [(name, value)], true)) []
      (fileOf [.section_ (str "SERVER") [], .entry (str "plugins") [] 61 [] (str "/tmp") [], .more [32] (str "a") []]) =
    handled (fun user _ name value => (user ++ [(name, value)], true)) [] 0 (calls ⟨[], []⟩ 0
      [.section_ (str "SERVER") [], .entry (str "plugins") [] 61 [] (str "/tmp") [], .more [32] (str "a") []]) := by
  apply ini_parse_file_items
  · refine ⟨⟨⟨?_, ?_⟩, by decide, by decide, by decide⟩, ⟨⟨?_, ?_, ?_, .inl rfl, ?_, .inl ?_⟩, by decide, by decide, by decide⟩,
      ⟨⟨?_, ?_, ?_, ?_⟩, by decide, by decide, by decide⟩, trivial⟩ <;> decide +kernel
  · decide

end AntHttp
