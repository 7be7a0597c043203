import AntHttp.Lib.Ere
/-!
# Reading an extended regular expression

`regcomp` reads the concrete syntax as the GNU library does with
`REG_EXTENDED | REG_ICASE`, or fails where it rejects it: an unbalanced
parenthesis or bracket, a repetition with nothing to repeat, a bad interval or
range, a reference to a group that is not closed yet, a final backslash.
Anchors take no repetition, and a closing parenthesis outside a group is an
ordinary character. There is enough memory for what is compiled.
-/

namespace Ere

open CString

/-! ## Bracket expressions -/

/-- The characters of `[:name:]`; in both cases where the name says one. -/
def classOf (name : Bytes) : Option (List (UInt8 × UInt8)) :=
  if name = str "alpha" ∨ name = str "upper" ∨ name = str "lower" then some [(65, 90), (97, 122)]
  else if name = str "digit" then some [(48, 57)]
  else if name = str "alnum" then some [(48, 57), (65, 90), (97, 122)]
  else if name = str "space" then some [(9, 13), (32, 32)]
  else if name = str "blank" then some [(9, 9), (32, 32)]
  else if name = str "punct" then some [(33, 47), (58, 64), (91, 96), (123, 126)]
  else if name = str "print" then some [(32, 126)]
  else if name = str "graph" then some [(33, 126)]
  else if name = str "cntrl" then some [(0, 31), (127, 127)]
  else if name = str "xdigit" then some [(48, 57), (65, 70), (97, 102)]
  else none

/-- What stands between brackets: a character, which may begin or end a range, or a class. -/
inductive Element where
  | char (c : UInt8)
  | cls (rs : List (UInt8 × UInt8))
  deriving DecidableEq

/-- An element, and what follows it; `[.x.]` stands for `x`, and so does `[=x=]`, but not in a range. -/
def bracketElem : Bytes → Option (Element × Bytes)
  | 91 :: 58 :: t =>
    let name := t.takeWhile (· ≠ 58)
    match t.drop name.length with
    | 58 :: 93 :: t => (classOf name).map fun rs => (.cls rs, t)
    | _ => none
  | 91 :: 46 :: c :: 46 :: 93 :: s => some (.char (toupper c), s)
  | 91 :: 61 :: c :: 61 :: 93 :: s => some (.cls [(toupper c, toupper c)], s)
  | 91 :: 46 :: _ => none
  | 91 :: 61 :: _ => none
  | c :: s => some (.char (toupper c), s)
  | [] => none

/-- An element or a range, and what follows it. -/
def bracketRange (s : Bytes) : Option (List (UInt8 × UInt8) × Bytes) :=
  match bracketElem s with
  | none => none
  | some (.cls rs, t) => some (rs, t)
  | some (.char lo, t) =>
    match t with
    | 45 :: 93 :: _ => some ([(lo, lo)], t)
    | 45 :: u =>
      match bracketElem u with
      | some (.char hi, u) => if lo ≤ hi then some ([(lo, hi)], u) else none
      | _ => none
    | _ => some ([(lo, lo)], t)

/-- The ranges up to the closing bracket. A closing bracket that comes first is a character, and so is a dash that comes
first or last. -/
def bracketItems : Nat → Bool → Bytes → Option (List (UInt8 × UInt8) × Bytes)
  | 0, _, _ => none
  | fuel + 1, first, s =>
    if s.head? = some 93 ∧ ¬ first then some ([], s.tail)
    else if s.head? = some 45 ∧ s.tail.head? ≠ some 93 ∧ ¬ first then none
    else do
      let (rs, t) ← bracketRange s
      let (more, t) ← bracketItems fuel false t
      some (rs ++ more, t)

def bracket (s : Bytes) : Option (Ere × Bytes) :=
  match s with
  | 94 :: t => (bracketItems (t.length + 1) true t).map fun p => (.set ⟨true, p.1⟩, p.2)
  | _ => (bracketItems (s.length + 1) true s).map fun p => (.set ⟨false, p.1⟩, p.2)

/-! ## Repetitions -/

def copies (r : Ere) : Nat → Ere → Ere
  | 0, t => t
  | k + 1, t => .cat r (copies r k t)

def upTo (r : Ere) : Nat → Ere
  | 0 => .eps
  | k + 1 => .alt (.cat r (upTo r k)) .eps

/-- `{m,n}`, or `{m,}` without an upper bound. -/
def times (r : Ere) : Nat × Option Nat → Ere
  | (m, none) => copies r m (.star r)
  | (m, some n) => copies r m (upTo r (n - m))

/-- A number, if there is one, up to the closing brace or a comma, and whether it was the brace. A comma or a zero may
have a backslash before it. -/
def number : Option Nat → Bytes → Option (Option Nat × Bool × Bytes)
  | num, 125 :: s => some (num, true, s)
  | num, 44 :: s => some (num, false, s)
  | num, 92 :: 44 :: s => some (num, false, s)
  | num, 92 :: 48 :: s => number (some (10 * num.getD 0)) s
  | num, c :: s => if isdigit c then number (some (10 * num.getD 0 + (c.toNat - 48))) s else none
  | _, [] => none

def RE_DUP_MAX : Nat := 32767

/-- What follows an opening brace: `{m}`, `{m,}`, `{m,n}`, `{,n}` or `{,}`. -/
def bounds (s : Bytes) : Option ((Nat × Option Nat) × Bytes) :=
  match number none s with
  | some (some m, true, t) => if m ≤ RE_DUP_MAX then some ((m, some m), t) else none
  | some (m, false, t) =>
    match number none t with
    | some (none, true, u) => if m.getD 0 ≤ RE_DUP_MAX then some ((m.getD 0, none), u) else none
    | some (some n, true, u) => if m.getD 0 ≤ n ∧ n ≤ RE_DUP_MAX then some ((m.getD 0, some n), u) else none
    | _ => none
  | _ => none

/-- Every repetition that follows an atom. -/
def dups : Nat → Ere → Bytes → Option (Ere × Bytes)
  | 0, _, _ => none
  | fuel + 1, r, s =>
    match s with
    | 42 :: s => dups fuel (.star r) s
    | 43 :: s => dups fuel (.cat r (.star r)) s
    | 63 :: s => dups fuel (.alt r .eps) s
    | 123 :: s => (bounds s).bind fun p => dups fuel (times r p.1) p.2
    | _ => some (r, s)

/-! ## Expressions -/

def wordSet (neg : Bool) : Ere := .set ⟨neg, [(48, 57), (65, 90), (95, 95), (97, 122)]⟩

def spaceSet (neg : Bool) : Ere := .set ⟨neg, [(9, 13), (32, 32)]⟩

/-- What a backslash and a character that is no digit from 1 on stand for, and whether it may be repeated. -/
def escape (c : UInt8) : Ere × Bool :=
  if c = chr 'b' then (.assert .wordb, false)
  else if c = chr 'B' then (.assert .notWordb, false)
  else if c = chr '<' then (.assert .wordStart, false)
  else if c = chr '>' then (.assert .wordEnd, false)
  else if c = 96 then (.assert .bol, false)
  else if c = 39 then (.assert .eol, false)
  else if c = chr 'w' then (wordSet false, true)
  else if c = chr 'W' then (wordSet true, true)
  else if c = chr 's' then (spaceSet false, true)
  else if c = chr 'S' then (spaceSet true, true)
  else (quoted c, true)

/-- The number of the next group, and the groups that are closed where the reading has come to. -/
structure Groups where
  next : Nat
  closed : List Nat
  deriving DecidableEq

def Groups.enter (g : Groups) : Groups := { g with next := g.next + 1 }

/-- Group `n` is closed. -/
def Groups.leave (g : Groups) (n : Nat) : Groups := { g with closed := n :: g.closed }

/-- The groups of the branch before a bar are not closed in the branch after it. -/
def Groups.restart (g : Groups) (before : List Nat) : Groups := { g with closed := before }

/-- After the last branch the groups of all branches are closed. -/
def Groups.merge (g : Groups) (others : List Nat) : Groups := { g with closed := others ++ g.closed }

mutual

/-- Branches separated by bars, inside `depth` groups. -/
def parseAlt : Nat → Nat → Groups → Bytes → Option (Ere × Groups × Bytes)
  | 0, _, _, _ => none
  | fuel + 1, depth, g, s => do
    let (r, h, s) ← parseBranch fuel depth g s
    match s with
    | 124 :: s =>
      let (t, k, s) ← parseAlt fuel depth (h.restart g.closed) s
      some (.alt r t, k.merge h.closed, s)
    | _ => some (r, h, s)
termination_by structural fuel => fuel

def parseBranch : Nat → Nat → Groups → Bytes → Option (Ere × Groups × Bytes)
  | 0, _, _, _ => none
  | fuel + 1, depth, g, s =>
    if s = [] ∨ s.head? = some 124 ∨ (s.head? = some 41 ∧ 0 < depth) then some (.eps, g, s)
    else do
      let (r, g, s, repeatable) ← parseAtom fuel depth g s
      let (r, s) ← if repeatable then dups (s.length + 1) r s else some (r, s)
      let (t, g, s) ← parseBranch fuel depth g s
      some (.cat r t, g, s)
termination_by structural fuel => fuel

/-- One atom, and whether a repetition may follow it. -/
def parseAtom : Nat → Nat → Groups → Bytes → Option (Ere × Groups × Bytes × Bool)
  | 0, _, _, _ => none
  | fuel + 1, depth, g, s =>
    match s with
    | 40 :: s => do
      let (r, h, s) ← parseAlt fuel (depth + 1) g.enter s
      match s with
      | 41 :: s => some (.group g.next r, h.leave g.next, s, true)
      | _ => none
    | 94 :: s => some (.assert .bol, g, s, false)
    | 36 :: s => some (.assert .eol, g, s, false)
    | 46 :: s => some (.set ⟨true, [(0, 0)]⟩, g, s, true)
    | 91 :: s => (bracket s).map fun p => (p.1, g, p.2, true)
    | 92 :: c :: s =>
      if isdigit c ∧ c ≠ 48 then
        if c.toNat - 48 ∈ g.closed then some (.backref (c.toNat - 48), g, s, true) else none
      else some ((escape c).1, g, s, (escape c).2)
    | [92] => none
    | 42 :: _ => none
    | 43 :: _ => none
    | 63 :: _ => none
    | 123 :: _ => none
    | c :: s => some (lit c, g, s, true)
    | [] => none
termination_by structural fuel => fuel

end

/-- `regcomp(&regex, s, REG_ICASE | REG_EXTENDED)`; `none` is an error. -/
def regcomp (s : Bytes) : Option Ere :=
  match parseAlt (3 * s.length + 3) 0 ⟨1, []⟩ s with
  | some (r, _, []) => some r
  | _ => none

example : (regcomp (str "a(b|c")).isSome = false := by decide
example : (regcomp (str "(a)|\\1")).isSome = false := by decide +kernel
example : regcomp (str "^a[^b-]") =
    some (.cat (.assert .bol) (.cat (lit 97) (.cat (.set ⟨true, [(66, 66), (45, 45)]⟩) .eps))) := by decide +kernel

/-! ## A word between word boundaries -/

/-- The expression for a run of literal characters. -/
def lits (w : Bytes) (t : Ere) : Ere := w.foldr (fun b r => .cat (lit b) r) t

theorem regular_lits (w : Bytes) (t : Ere) : (lits w t).regular = t.regular := by
  induction w with
  | nil => rfl
  | cons b w ih => exact ih

theorem dups_done {s : Bytes} (r : Ere) (h : ∀ c ∈ s.head?, isWord c ∨ c = 92) :
    dups (s.length + 1) r s = some (r, s) := by
  unfold dups
  split <;> first | rfl | exact absurd (h _ rfl) (by decide)

theorem parseAtom_word (fuel depth : Nat) (n : Groups) (c : UInt8) (s : Bytes) (h : isWord c = true) :
    parseAtom (fuel + 1) depth n (c :: s) = some (lit c, n, s, true) := by
  unfold parseAtom
  split <;> simp_all [isWord, isalnum, isdigit, isupper, islower]

theorem parseBranch_word (w s : Bytes) (hw : ∀ c ∈ w, isWord c = true) (fuel : Nat) (n : Groups) {r : Ere} {m : Groups} {t : Bytes}
    (hs : parseBranch (fuel + 1) 0 n (92 :: s) = some (r, m, t)) :
    parseBranch (fuel + 1 + w.length) 0 n (w ++ 92 :: s) = some (lits w r, m, t) := by
  induction w with
  | nil => exact hs
  | cons c w ih =>
    have hc := hw c List.mem_cons_self
    have hcw := ih (fun b hb => hw b (List.mem_cons_of_mem _ hb))
    have hnext : ∀ b ∈ (w ++ 92 :: s).head?, isWord b = true ∨ b = 92 := by
      cases w with
      | nil => simp
      | cons b w => simp [hw b (by simp)]
    have hne : ¬ ((c :: w) ++ 92 :: s = [] ∨ ((c :: w) ++ 92 :: s).head? = some 124 ∨
        (((c :: w) ++ 92 :: s).head? = some 41 ∧ 0 < 0)) := by
      rintro (h | h | ⟨-, h⟩)
      · cases h
      · simp only [List.cons_append, List.head?_cons, Option.some.injEq] at h; subst h; revert hc; decide
      · exact absurd h (lt_irrefl _)
    have hlen : fuel + 1 + (c :: w).length = fuel + 1 + w.length + 1 := by simp; omega
    have hfuel : fuel + 1 + w.length = fuel + w.length + 1 := by omega
    rw [hlen, parseBranch, if_neg hne, hfuel, List.cons_append, parseAtom_word _ _ _ _ _ hc, ← hfuel]
    simp only [Option.bind_eq_bind, Option.bind_some, if_true, dups_done (lit c) hnext, hcw]
    rfl

theorem parseBranch_nil (fuel depth : Nat) (n : Groups) : parseBranch (fuel + 1) depth n [] = some (.eps, n, []) := by
  rw [parseBranch, if_pos (.inl rfl)]

/-- A word boundary is read before the rest of its branch. -/
theorem parseBranch_wordb (fuel depth : Nat) (n : Groups) {s t : Bytes} {r : Ere} {m : Groups}
    (hs : parseBranch (fuel + 1) depth n s = some (r, m, t)) :
    parseBranch (fuel + 2) depth n (92 :: 98 :: s) = some (.cat (.assert .wordb) r, m, t) := by
  have hatom : parseAtom (fuel + 1) depth n (92 :: 98 :: s) = some (.assert .wordb, n, s, false) := rfl
  rw [parseBranch, if_neg (by simp), hatom]
  simp only [Option.bind_eq_bind, Option.bind_some, Bool.false_eq_true, if_false, hs]

/-- What a word between two boundaries reads as has no back-reference. -/
theorem regular_word (w : Bytes) : (Ere.cat (.assert .wordb) (lits w (.cat (.assert .wordb) .eps))).regular = true :=
  regular_lits w _

/-- `\bw\b` reads as the word `w` between two boundaries. -/
theorem regcomp_word {w : Bytes} (hw : ∀ c ∈ w, isWord c = true) :
    regcomp (str "\\b" ++ w ++ str "\\b") =
      some (.cat (.assert .wordb) (lits w (.cat (.assert .wordb) .eps))) := by
  have hs : str "\\b" ++ w ++ str "\\b" = 92 :: 98 :: (w ++ [92, 98]) := by simp [str]
  have hend := parseBranch_wordb (2 * w.length + 11) 0 ⟨1, []⟩ (parseBranch_nil (2 * w.length + 11) 0 ⟨1, []⟩)
  have hword := parseBranch_word w [98] hw (2 * w.length + 12) ⟨1, []⟩ hend
  have hfuel : 2 * w.length + 12 + 1 + w.length = 3 * w.length + 12 + 1 := by omega
  rw [hfuel] at hword
  have hbranch := parseBranch_wordb (3 * w.length + 12) 0 ⟨1, []⟩ hword
  have hlen : 3 * (92 :: 98 :: (w ++ [92, 98])).length + 3 = 3 * w.length + 12 + 2 + 1 := by
    simp only [List.length_cons, List.length_append, List.length_nil]; omega
  rw [regcomp, hs, hlen, parseAlt, hbranch]
  rfl

-- an expression is compiled by evaluation, or not looked into
attribute [irreducible] regcomp

end Ere
