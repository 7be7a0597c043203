import AntHttp.Bounds
import AntHttp.Ports
/-!
# Templates

What the value of a rule asks for, placeholder by placeholder, and when
`rule_check` leaves it in the buffer. The array `rep` is not cleared between two
placeholders, so a short word is read with the end of a longer one behind it;
and a value of which nothing has been written up to its last placeholder leaves
the buffer as it was.
-/

namespace AntHttp

open CString

/-! ## What a value asks for -/

/-- The word of a placeholder that the text starts with. -/
def placeholder : Bytes → Option Bytes
  | 60 :: s => if s.takeWhile isalnum ≠ [] ∧ (s.dropWhile isalnum).head? = some 62 then some (s.takeWhile isalnum) else none
  | _ => none

def keep (word : Bytes) : Bytes := 60 :: (word ++ [62])

/-- What a word stands for. -/
def meant (word : Bytes) : Meaning :=
  if strcaseeq word (str "url") then .url
  else if strcaseeq word (str "query") then .query
  else if word.all isdigit ∧ digits word < 10 then .group (digits word)
  else if strcaseeq word (str "break") then .nothing
  else .kept

/-- The value from left to right, each placeholder replaced by what it stands for. -/
def expandTemplate (src : Source) : Bytes → Bytes
  | [] => []
  | c :: s =>
    match placeholder (c :: s) with
    | some word => src.text (keep word) (meant word) ++ expandTemplate src (s.drop (word.length + 1))
    | none => c :: expandTemplate src s
termination_by v => v.length

/-- Where the word of the first placeholder starts and ends. -/
def firstPlaceholder : Bytes → Option (Nat × Nat)
  | [] => none
  | c :: s =>
    match placeholder (c :: s) with
    | some word => some (1, word.length + 1)
    | none => (firstPlaceholder s).map fun p => (p.1 + 1, p.2 + 1)

/-- The placeholders of a value, and the text after the last. -/
def scan : Bytes → List Hole × Bytes := holesOf firstPlaceholder

/-- What the placeholders stand for, with the text before them. -/
def meantText (src : Source) (hs : List Hole) : Bytes := hs.flatMap fun h => h.before ++ src.text h.kept (meant h.word)

section

variable {s v word : Bytes} {c : UInt8}

theorem placeholder_iff : placeholder v = some word ↔
    ∃ rest, v = 60 :: (word ++ 62 :: rest) ∧ word ≠ [] ∧ ∀ x ∈ word, isalnum x = true := by
  constructor
  · intro h
    unfold placeholder at h
    split at h
    · rename_i s
      split at h
      · rename_i hw
        cases h
        obtain ⟨rest, hrest⟩ := List.head?_eq_some_iff.1 hw.2
        exact ⟨rest, by rw [← hrest, List.takeWhile_append_dropWhile], hw.1, fun x hx => List.mem_takeWhile_imp hx⟩
      · cases h
    · cases h
  · rintro ⟨rest, rfl, hne, hall⟩
    have h62 : isalnum 62 = false := by decide
    rw [placeholder, List.takeWhile_append_of_pos hall, List.dropWhile_append_of_pos hall]
    simp [h62, hne]

theorem scan_nil : scan [] = ([], []) := by
  unfold scan holesOf
  rfl

theorem scan_none (h : firstPlaceholder v = none) : scan v = ([], v) := by
  unfold scan holesOf
  split
  · rfl
  · rw [h]

theorem scan_some {so eo : Nat} (h : firstPlaceholder v = some (so, eo)) :
    scan v = (⟨v.take (so - 1), (v.drop so).take (eo - so), (v.drop (so - 1)).take (eo + 2 - so)⟩ ::
      (scan (v.drop (eo + 1))).1, (scan (v.drop (eo + 1))).2) := by
  have hne : v ≠ [] := by
    rintro rfl
    cases h
  conv_lhs => unfold scan holesOf
  rw [dif_neg hne, h]
  rfl

theorem firstPlaceholder_pos {p : Nat × Nat} (h : firstPlaceholder v = some p) : 1 ≤ p.1 := by
  cases v with
  | nil => cases h
  | cons c s =>
    rw [firstPlaceholder] at h
    split at h
    · cases h
      exact le_refl 1
    · obtain ⟨q, -, rfl⟩ := Option.map_eq_some_iff.1 h
      exact Nat.le_add_left 1 q.1

/-- A value that starts with a placeholder. -/
theorem scan_placeholder (h : placeholder (c :: s) = some word) :
    scan (c :: s) = (⟨[], word, keep word⟩ :: (scan (s.drop (word.length + 1))).1, (scan (s.drop (word.length + 1))).2) := by
  have hfirst : firstPlaceholder (c :: s) = some (1, word.length + 1) := by
    rw [firstPlaceholder, h]
  obtain ⟨rest, hv, -, -⟩ := placeholder_iff.1 h
  obtain ⟨rfl, rfl⟩ := List.cons.inj hv
  have htake : (word ++ 62 :: rest).take (word.length + 1) = word ++ [62] := by
    rw [List.take_append, List.take_of_length_le (Nat.le_succ _)]
    simp
  rw [scan_some hfirst]
  simp [keep, htake]

/-- A byte that does not start one stands before the first placeholder, or after the last. -/
theorem scan_byte (h : placeholder (c :: s) = none) :
    scan (c :: s) = match (scan s).1 with
      | [] => ([], c :: (scan s).2)
      | hole :: hs => ({ hole with before := c :: hole.before } :: hs, (scan s).2) := by
  have hfirst : firstPlaceholder (c :: s) = (firstPlaceholder s).map fun p => (p.1 + 1, p.2 + 1) := by
    rw [firstPlaceholder, h]
  cases hs : firstPlaceholder s with
  | none =>
    rw [hs] at hfirst
    rw [scan_none hfirst, scan_none hs]
  | some p =>
    obtain ⟨so, eo⟩ := p
    have hpos : 1 ≤ so := firstPlaceholder_pos hs
    rw [hs] at hfirst
    rw [scan_some hfirst, scan_some hs]
    obtain ⟨so, rfl⟩ := Nat.exists_eq_add_of_le' hpos
    simp

/-- The expansion is the text of the placeholders with what stands before and after them. -/
theorem expandTemplate_eq (src : Source) (v : Bytes) : expandTemplate src v = meantText src (scan v).1 ++ (scan v).2 := by
  induction v using expandTemplate.induct with
  | case1 => rw [expandTemplate, scan_nil]; rfl
  | case2 c s word h ih =>
    rw [expandTemplate, h, scan_placeholder h]
    simp [meantText, ih]
  | case3 c s h ih =>
    rw [expandTemplate, h, scan_byte h]
    cases hs : (scan s).1 <;> simp [meantText, ih, hs]

/-! ## The expression that finds a placeholder -/

def alnumSet : Ere.CharSet := ⟨false, [(65, 90), (65, 90), (48, 57)]⟩

theorem compiles_placeholder_word : Ere.regcomp PLACEHOLDER = some (.cat (Ere.lit 60)
    (.cat (.group 1 (.cat (.cat (.set alnumSet) (.star (.set alnumSet))) .eps)) (.cat (Ere.lit 62) .eps))) := by
  decide +kernel

theorem alnum_set (x : UInt8) : alnumSet.mem x = isalnum x := by
  grind [alnumSet, Ere.CharSet.mem, Ere.CharSet.has, tolower, toupper, isalnum, isdigit, isupper, islower]

theorem bracket_of_tolower {x : UInt8} : (tolower x = tolower 60 ↔ x = 60) ∧ (tolower x = tolower 62 ↔ x = 62) := by
  grind [tolower, isupper]

/-- It matches where a placeholder starts, and its group is the word. -/
theorem matches_placeholder {i j : Nat} {d : Ere.Caps} :
    Ere.Matches v (.cat (Ere.lit 60)
      (.cat (.group 1 (.cat (.cat (.set alnumSet) (.star (.set alnumSet))) .eps)) (.cat (Ere.lit 62) .eps))) i .none j d ↔
    ∃ word, placeholder (v.drop i) = some word ∧ j = i + word.length + 2 ∧
      d = Function.update Ere.Caps.none 1 (some (i + 1, i + 1 + word.length)) := by
  constructor
  · intro h
    obtain ⟨_, _, hopen, h⟩ := Ere.matches_cat.1 h
    obtain ⟨⟨x, hx, hlt⟩, rfl, rfl⟩ := Ere.matches_lit.1 hopen
    obtain rfl := bracket_of_tolower.1.1 hlt
    obtain ⟨_, _, hgroup, h⟩ := Ere.matches_cat.1 h
    obtain ⟨_, hword, rfl⟩ := Ere.matches_group.1 hgroup
    obtain ⟨_, _, hplus, heps⟩ := Ere.matches_cat.1 hword
    obtain ⟨rfl, rfl⟩ := Ere.matches_eps.1 heps
    obtain ⟨word, hne, ⟨rest, hrest⟩, hall, rfl, rfl⟩ := Ere.matches_plus_set.1 hplus
    obtain ⟨_, _, hclose, heps⟩ := Ere.matches_cat.1 h
    obtain ⟨⟨y, hy, hgt⟩, rfl, rfl⟩ := Ere.matches_lit.1 hclose
    obtain rfl := bracket_of_tolower.2.1 hgt
    obtain ⟨rfl, rfl⟩ := Ere.matches_eps.1 heps
    refine ⟨word, placeholder_iff.2 ⟨rest.tail, ?_, hne, fun x hx => alnum_set x ▸ hall x hx⟩, by omega, rfl⟩
    have hhead : rest.head? = some 62 := by
      rw [← hy, ← List.head?_drop, ← List.drop_drop, ← hrest, List.drop_left]
    obtain ⟨hi, hget⟩ := List.getElem?_eq_some_iff.1 hx
    obtain ⟨tail, rfl⟩ := List.head?_eq_some_iff.1 hhead
    rw [List.drop_eq_getElem_cons hi, hget, ← hrest, List.tail_cons]
  · rintro ⟨word, hp, rfl, rfl⟩
    obtain ⟨rest, hv, hne, hall⟩ := placeholder_iff.1 hp
    have hx : v[i]? = some 60 := by rw [← List.head?_drop, hv]; rfl
    have hword : v.drop (i + 1) = word ++ 62 :: rest := by rw [← List.tail_drop, hv]; rfl
    have hy : v[i + 1 + word.length]? = some 62 := by
      rw [← List.head?_drop, ← List.drop_drop, hword, List.drop_left]
      rfl
    have hopen : Ere.Matches v (Ere.lit 60) i .none (i + 1) .none := Ere.matches_lit.2 ⟨⟨60, hx, rfl⟩, rfl, rfl⟩
    have hplus : Ere.Matches v (.cat (.set alnumSet) (.star (.set alnumSet))) (i + 1) .none (i + 1 + word.length) .none :=
      Ere.matches_plus_set.2 ⟨word, hne, hword ▸ List.prefix_append _ _, fun x hx => (alnum_set x).trans (hall x hx), rfl, rfl⟩
    refine .cat hopen (.cat (.group (.cat hplus .eps)) ?_)
    rw [show i + word.length + 2 = i + 1 + word.length + 1 by omega]
    exact .cat (Ere.matches_lit.2 ⟨⟨62, hy, rfl⟩, rfl, rfl⟩) .eps

/-- The first placeholder is the leftmost start of one. -/
theorem firstPlaceholder_iff {p : Nat × Nat} : firstPlaceholder v = some p ↔
    ∃ i word, placeholder (v.drop i) = some word ∧ (∀ k < i, placeholder (v.drop k) = none) ∧ p = (i + 1, i + 1 + word.length) := by
  induction v generalizing p with
  | nil => simp [firstPlaceholder, placeholder]
  | cons c s ih =>
    rw [firstPlaceholder]
    cases h : placeholder (c :: s) with
    | some word =>
      constructor
      · rintro ⟨⟩
        exact ⟨0, word, h, nofun, by simp [Nat.add_comm]⟩
      · rintro ⟨i, word', hw, hbefore, rfl⟩
        cases i with
        | zero =>
          obtain rfl : word = word' := Option.some.inj (h.symm.trans hw)
          simp [Nat.add_comm]
        | succ i => cases h.symm.trans (hbefore 0 (Nat.succ_pos i))
    | none =>
      constructor
      · intro hm
        obtain ⟨q, hq, rfl⟩ := Option.map_eq_some_iff.1 hm
        obtain ⟨i, word, hw, hbefore, rfl⟩ := ih.1 hq
        refine ⟨i + 1, word, hw, fun k hk => ?_, by simp; omega⟩
        cases k with
        | zero => exact h
        | succ k => exact hbefore k (by omega)
      · rintro ⟨i, word, hw, hbefore, rfl⟩
        cases i with
        | zero => cases h.symm.trans hw
        | succ i =>
          rw [ih.2 ⟨i, word, hw, fun k hk => hbefore (k + 1) (by omega), rfl⟩]
          simp; omega

theorem placeholder_drop_lt {i : Nat} (h : placeholder (v.drop i) = some word) : i < v.length := by
  obtain ⟨rest, hv, -⟩ := placeholder_iff.1 h
  by_contra hle
  rw [List.drop_eq_nil_of_le (by omega)] at hv
  cases hv

theorem firstWord_eq {regexec : Regexec} (hx : Ere.Posix regexec) (v : Bytes) : firstWord regexec v = firstPlaceholder v := by
  unfold firstWord found
  rw [compiles_placeholder_word, Option.bind_some]
  cases hr : regexec _ v with
  | none =>
    symm
    rw [Option.bind_none, Option.eq_none_iff_forall_ne_some]
    rintro p hp
    obtain ⟨i, word, hw, -⟩ := firstPlaceholder_iff.1 hp
    exact hx.complete _ _ rfl hr i _ _ (placeholder_drop_lt hw).le (matches_placeholder.2 ⟨word, hw, rfl, rfl⟩)
  | some c =>
    obtain ⟨i, j, d, hi, hm, rfl, hleft⟩ := hx.sound _ _ _ rfl hr
    obtain ⟨word, hw, -, rfl⟩ := matches_placeholder.1 hm
    symm
    refine firstPlaceholder_iff.2 ⟨i, word, hw, fun k hk => ?_, rfl⟩
    by_contra hne
    obtain ⟨word', hw'⟩ := Option.ne_none_iff_exists'.1 hne
    exact absurd (hleft k _ _ (by omega) (matches_placeholder.2 ⟨word', hw', rfl, rfl⟩)).1 (by omega)

theorem holes_eq {regexec : Regexec} (hx : Ere.Posix regexec) (v : Bytes) : holes regexec v = scan v := by
  rw [holes, scan, funext (firstWord_eq hx)]

/-- The word of a placeholder is made of letters and digits. -/
theorem scan_words (v : Bytes) : ∀ h ∈ (scan v).1, h.kept = keep h.word ∧ h.word ≠ [] ∧ ∀ x ∈ h.word, isalnum x = true := by
  induction v using expandTemplate.induct with
  | case1 => rw [scan_nil]; nofun
  | case2 c s word h ih =>
    obtain ⟨-, -, hne, hall⟩ := placeholder_iff.1 h
    rw [scan_placeholder h]
    exact List.forall_mem_cons.2 ⟨⟨rfl, hne, hall⟩, ih⟩
  | case3 c s h ih =>
    rw [scan_byte h]
    cases hs : (scan s).1 with
    | nil => nofun
    | cons hole hs =>
      rw [hs] at ih
      obtain ⟨hhole, hrest⟩ := List.forall_mem_cons.1 ih
      exact List.forall_mem_cons.2 ⟨hhole, hrest⟩

end

/-! ## The names that the words are read under -/

/-- What `rule_check` takes a name for. -/
def readAs (name : Bytes) : Meaning :=
  if strcaseeq name (str "url") then .url
  else if strcaseeq name (str "query") then .query
  else if name.all isdigit then .group (digits name)
  else if strcaseeq name (str "break") then .nothing
  else .kept

section

variable {regexec : Regexec} {s t w name rep : Bytes} {hs : List Hole} {p : Hole × Bytes}

theorem digits_eq (h : ∀ c ∈ s, isdigit c = true) : digits s = s.foldl (fun n c => 10 * n + (c.toNat - 48)) 0 := by
  rw [digits, List.takeWhile_eq_self_iff.2 h]

theorem foldl_digits (s : Bytes) (n : Nat) : s.foldl (fun n c => 10 * n + (c.toNat - 48)) n =
    n * 10 ^ s.length + s.foldl (fun n c => 10 * n + (c.toNat - 48)) 0 := by
  induction s generalizing n with
  | nil => simp
  | cons c s ih =>
    have hmul : 10 * n * 10 ^ s.length = n * 10 ^ (s.length + 1) := by
      rw [Nat.mul_comm 10 n, Nat.mul_assoc, Nat.pow_succ']
    rw [List.foldl_cons, List.foldl_cons, ih, ih (10 * 0 + _), List.length_cons, Nat.add_mul, hmul, Nat.mul_zero, Nat.zero_add,
      Nat.add_assoc]

theorem digits_append (h : ∀ c ∈ s ++ t, isdigit c = true) : digits (s ++ t) = digits s * 10 ^ t.length + digits t := by
  obtain ⟨hs, ht⟩ := List.forall_mem_append.1 h
  rw [digits_eq h, digits_eq hs, digits_eq ht, List.foldl_append, foldl_digits]

theorem digits_lt (h : ∀ c ∈ s, isdigit c = true) : digits s < 10 ^ s.length := by
  induction s using List.reverseRecOn with
  | nil => exact Nat.one_pos
  | append_singleton s c ih =>
    obtain ⟨hs, hc⟩ := List.forall_mem_append.1 h
    have hdigit := hc c (List.mem_singleton_self c)
    have hval : digits [c] = c.toNat - 48 := by simp [digits, hdigit]
    have hle : c.toNat ≤ 57 := UInt8.le_iff_toNat_le.1 (of_decide_eq_true hdigit).2
    have hprev := ih hs
    rw [digits_append h, List.length_append, List.length_singleton, Nat.pow_one, Nat.pow_succ]
    omega

theorem atoi_toNat (h : ∀ c ∈ s, isdigit c = true) (hlen : s.length < 10) : (atoi s).toNat = digits s := by
  have hlt : digits s < 10 ^ 9 := lt_of_lt_of_le (digits_lt h) (Nat.pow_le_pow_right (by decide) (by omega))
  rw [atoi_of_digits h, Nat.min_eq_left (by omega), int32_eq (by omega) (by omega), Int.toNat_natCast]

def digitSet : Ere.CharSet := ⟨false, [(48, 57)]⟩

theorem compiles_number_digits : Ere.regcomp (str "^[-+]?[0-9]+$") = some (.cat (.assert .bol)
    (.cat (.alt (.set ⟨false, [(45, 45), (43, 43)]⟩) .eps)
      (.cat (.cat (.set digitSet) (.star (.set digitSet))) (.cat (.assert .eol) .eps)))) := by
  decide +kernel

theorem digit_mem (x : UInt8) : digitSet.mem x = isdigit x := by
  grind [digitSet, Ere.CharSet.mem, Ere.CharSet.has, tolower, toupper, isdigit, isupper, islower]

theorem sign_mem {x : UInt8} (h : (⟨false, [(45, 45), (43, 43)]⟩ : Ere.CharSet).mem x = true) : isalnum x = false := by
  simp only [Ere.CharSet.mem, Ere.CharSet.has, List.any_cons, List.any_nil, Bool.or_false, Bool.bne_false] at h
  grind [tolower, toupper, isalnum, isdigit, isupper, islower]

/-- A name is a number if it has digits only. -/
theorem found_number (hx : Ere.Posix regexec) {c : UInt8} (hc : isalnum c = true) :
    (found regexec (str "^[-+]?[0-9]+$") (c :: s)).isSome ↔ (c :: s).all isdigit = true := by
  rw [found, compiles_number_digits]
  refine (hx.found_iff rfl (c :: s)).trans ⟨?_, ?_⟩
  · rintro ⟨i, j, d, -, hm⟩
    obtain ⟨_, _, hbol, hm⟩ := Ere.matches_cat.1 hm
    cases hbol with
    | assert hbol =>
    obtain rfl : i = 0 := by simpa [Ere.Assertion.holds] using hbol
    obtain ⟨_, _, hsign, hm⟩ := Ere.matches_cat.1 hm
    cases hsign with
    | altl hsign =>
      obtain ⟨⟨x, hget, hmem⟩, -, -⟩ := Ere.matches_set.1 hsign
      cases hget
      exact absurd hc (Bool.eq_false_iff.1 (sign_mem hmem))
    | altr heps =>
      obtain ⟨rfl, rfl⟩ := Ere.matches_eps.1 heps
      obtain ⟨_, _, hplus, hend⟩ := Ere.matches_cat.1 hm
      obtain ⟨w, -, hw, hall, rfl, rfl⟩ := Ere.matches_plus_set.1 hplus
      obtain ⟨_, _, heol, -⟩ := Ere.matches_cat.1 hend
      cases heol with
      | assert heol =>
      have hlen : w.length = (c :: s).length := by simpa [Ere.Assertion.holds] using heol
      obtain rfl := hw.eq_of_length hlen
      exact List.all_eq_true.2 fun x hx => digit_mem x ▸ hall x hx
  · intro hall
    refine ⟨0, (c :: s).length, .none, Nat.zero_le _, .cat (.assert (by simp [Ere.Assertion.holds])) (.cat (.altr .eps) ?_)⟩
    refine .cat (Ere.matches_plus_set.2 ⟨c :: s, List.cons_ne_nil c s, List.prefix_refl _, fun x hx => ?_, (Nat.zero_add _).symm, rfl⟩) ?_
    · exact (digit_mem x).trans (List.all_eq_true.1 hall x hx)
    · exact .cat (.assert (by simp [Ere.Assertion.holds])) .eps

theorem meaning_eq (hx : Ere.Posix regexec) {c : UInt8} (hc : isalnum c = true) (hlen : (c :: s).length < 10) :
    meaning regexec (c :: s) = readAs (c :: s) := by
  unfold meaning readAs
  simp only [found_number hx hc]
  split_ifs with _ _ hd
  · rfl
  · rfl
  · rw [atoi_toNat (List.all_eq_true.1 hd) hlen]
  · rfl
  · rfl

/-- `rep` ends in a NUL as long as the words are short: a word comes first in its name. -/
theorem named_prefix (hrep : rep.length = 10) (hnul : rep.getLast? = some 0)
    (hw : ∀ h ∈ hs, 0 ∉ h.word ∧ h.word.length < 10) (hp : p ∈ named rep hs) :
    p.1 ∈ hs ∧ p.1.word <+: p.2 ∧ p.2.length < 10 := by
  induction hs generalizing rep with
  | nil => cases hp
  | cons h hs ih =>
    obtain ⟨⟨h0, hshort⟩, hw⟩ := List.forall_mem_cons.1 hw
    have hlen : (h.word ++ rep.drop h.word.length).length = 10 := by
      rw [List.length_append, List.length_drop]
      omega
    have hlast : (h.word ++ rep.drop h.word.length).getLast? = some 0 := by
      rw [List.getLast?_append, List.getLast?_drop, if_neg (by omega), hnul]
      rfl
    rcases List.mem_cons.1 hp with rfl | hp
    · refine ⟨List.mem_cons_self, ?_, ?_⟩
      · rw [cstr_append h0]
        exact List.prefix_append _ _
      · have hle := (cstr_isPrefix (h.word ++ rep.drop h.word.length)).length_le
        refine lt_of_le_of_ne (hlen ▸ hle) fun heq => ?_
        have hsame := (cstr_isPrefix (h.word ++ rep.drop h.word.length)).eq_of_length (heq.trans hlen.symm)
        exact not_mem_cstr _ (hsame ▸ List.mem_of_getLast? hlast)
    · obtain ⟨hmem, hrest⟩ := ih hlen hlast hw hp
      exact ⟨List.mem_cons_of_mem _ hmem, hrest⟩

end

/-! ## Words and names that differ -/

/-- The first letter of a name, in lower case, that is read so. -/
def Meaning.Starts (k : UInt8) : Meaning → Prop
  | .url => k = 117
  | .query => k = 113
  | .nothing => k = 98
  | .group _ => isdigit k = true
  | .kept => True

section

variable {w name t kw : Bytes} {c : UInt8} {n : Nat}

theorem strcaseeq_iff : strcaseeq w kw = true ↔ w.map tolower = kw.map tolower := decide_eq_true_iff

theorem head_of_strcaseeq {k : UInt8} (h : strcaseeq (c :: w) (k :: kw) = true) : tolower c = tolower k :=
  (List.cons.inj (strcaseeq_iff.1 h)).1

theorem tolower_digit (h : isdigit c = true) : tolower c = c := by
  grind [tolower, isdigit, isupper]

theorem digit_starts (h : ∀ x ∈ c :: w, isdigit x = true) (n : Nat) : (Meaning.group n).Starts (tolower c) := by
  have hc := h c List.mem_cons_self
  rwa [Meaning.Starts, tolower_digit hc]

theorem readAs_starts (c : UInt8) (w : Bytes) : (readAs (c :: w)).Starts (tolower c) := by
  unfold readAs
  split_ifs with hurl hquery hdigits hbreak
  · exact head_of_strcaseeq hurl
  · exact head_of_strcaseeq hquery
  · exact digit_starts (List.all_eq_true.1 hdigits) _
  · exact head_of_strcaseeq hbreak
  · trivial

/-- The first letter tells what a name is read as, but for the number. -/
theorem starts_cases {k : UInt8} {m m' : Meaning} (h : m.Starts k) (h' : m'.Starts k) (hm : m ≠ .kept) (hm' : m' ≠ .kept) :
    m = m' ∨ ∃ n n', m = .group n ∧ m' = .group n' := by
  have hu : isdigit 117 = false := by decide
  have hq : isdigit 113 = false := by decide
  have hb : isdigit 98 = false := by decide
  cases m <;> cases m' <;> simp_all [Meaning.Starts]

/-- A word stands for what it is read as, but for a number that is too large. -/
theorem meant_eq (w : Bytes) : meant w = readAs w ∨ (∃ n, readAs w = .group n ∧ 10 ≤ n) ∧ meant w = .kept := by
  unfold meant readAs
  by_cases hu : strcaseeq w (str "url") = true
  · exact .inl (by simp only [hu, if_true])
  by_cases hq : strcaseeq w (str "query") = true
  · exact .inl (by simp only [hq, if_true])
  by_cases hd : w.all isdigit = true
  · by_cases hn : digits w < 10
    · exact .inl (by simp only [hd, hn, and_self, if_true])
    · have hb : ¬ strcaseeq w (str "break") = true := by
        intro hb
        cases w with
        | nil => cases hb
        | cons c w =>
          have hdigit := digit_starts (List.all_eq_true.1 hd) 0
          have hword : Meaning.nothing.Starts (tolower c) := head_of_strcaseeq hb
          simpa using starts_cases hdigit hword nofun nofun
      refine .inr ⟨⟨digits w, ?_, Nat.le_of_not_lt hn⟩, ?_⟩
      · simp only [hu, hq, hd, Bool.false_eq_true, if_true, if_false]
      · simp only [hu, hq, hb, hn, Bool.false_eq_true, and_false, if_false]
  · exact .inl (by simp only [hd, Bool.false_eq_true, false_and, if_false])

theorem meant_group_lt (h : meant w = .group n) : n < 10 := by
  unfold meant at h
  split_ifs at h with _ _ hd
  cases h
  exact hd.2

theorem meant_eq_readAs (h : meant w ≠ .kept) : meant w = readAs w := (meant_eq w).resolve_right fun hk => h hk.2

theorem readAs_group (h : readAs w = .group n) : (∀ c ∈ w, isdigit c = true) ∧ n = digits w := by
  unfold readAs at h
  split_ifs at h with _ _ hd
  cases h
  exact ⟨List.all_eq_true.1 hd, rfl⟩

/-- Where neither a word nor its name is kept, they agree, or the word is 0 and another number has come of it. -/
theorem readAs_cases (hne : w ≠ []) (hpre : w <+: name) (hw : meant w ≠ .kept) (hname : readAs name ≠ .kept)
    (hlt : ∀ n, readAs name = .group n → n < 10) :
    readAs name = meant w ∨ ∃ n, readAs name = .group (n + 1) ∧ meant w = .group 0 := by
  have hread := meant_eq_readAs hw
  rw [hread] at hw ⊢
  obtain ⟨t, rfl⟩ := hpre
  obtain ⟨c, w, rfl⟩ := List.exists_cons_of_ne_nil hne
  rcases starts_cases (readAs_starts c (w ++ t)) (readAs_starts c w) hname hw with heq | ⟨n, n', hn, hn'⟩
  · exact .inl heq
  rw [← List.cons_append] at hn
  have hbound := hlt n hn
  obtain ⟨hdigits, rfl⟩ := readAs_group hn
  obtain ⟨-, rfl⟩ := readAs_group hn'
  rw [hn, hn']
  rw [digits_append hdigits] at hbound ⊢
  cases t with
  | nil => exact .inl (by simp [digits])
  | cons x t =>
    rw [List.length_cons, Nat.pow_succ, ← Nat.mul_assoc] at hbound ⊢
    -- any other number before would make ten of it at least
    have hzero : digits (c :: w) * 10 ^ t.length = 0 := by omega
    have hw : digits (c :: w) = 0 := (Nat.mul_eq_zero.1 hzero).resolve_right (Nat.pow_pos (by decide)).ne'
    rw [hzero, hw]
    cases hx : digits (x :: t) with
    | zero => exact .inl rfl
    | succ m => exact .inr ⟨m, by simp, rfl⟩

/-- The last letters of the three keywords, which the words that only begin them do not have, and the digits. -/
def lastLetter (c : UInt8) : Bool := isdigit c || tolower c ∈ str "lyk"

theorem countP_lastLetter (w : Bytes) : (w.map tolower).countP lastLetter = w.countP lastLetter := by
  have hcomp : lastLetter ∘ tolower = lastLetter := by
    funext c
    grind [lastLetter, tolower, isdigit, isupper]
  rw [List.countP_map, hcomp]

theorem lastLetter_pos (hne : w ≠ []) (hw : meant w ≠ .kept) : 0 < w.countP lastLetter := by
  have hkeyword (kw : Bytes) (h : strcaseeq w kw = true) (hkw : 0 < (kw.map tolower).countP lastLetter) :
      0 < w.countP lastLetter := by
    rwa [← countP_lastLetter, strcaseeq_iff.1 h]
  unfold meant at hw
  split_ifs at hw with hu hq hd hb
  · exact hkeyword _ hu (by decide)
  · exact hkeyword _ hq (by decide)
  · have hall := List.all_eq_true.1 hd.1
    have hcount : w.countP lastLetter = w.length := List.countP_eq_length.2 fun c hc => by simp [lastLetter, hall c hc]
    rw [hcount]
    exact List.length_pos_iff.2 hne
  · exact hkeyword _ hb (by decide)
  · exact absurd rfl hw

theorem lastLetter_zero (hpre : w <+: name) (hw : meant w = .kept) (hname : readAs name ≠ .kept)
    (hlt : ∀ n, readAs name = .group n → n < 10) : w.countP lastLetter = 0 := by
  -- a word that only begins a keyword
  have hkeyword (kw : Bytes) (h : strcaseeq name kw = true) (hnot : ¬ strcaseeq w kw = true)
      (hkw : (kw.map tolower).dropLast.countP lastLetter = 0) : w.countP lastLetter = 0 := by
    have hmap : w.map tolower <+: kw.map tolower := strcaseeq_iff.1 h ▸ hpre.map tolower
    have hne : w.map tolower ≠ kw.map tolower := fun he => hnot (strcaseeq_iff.2 he)
    obtain ⟨t, ht⟩ := hmap
    rw [← countP_lastLetter]
    cases t using List.reverseRecOn with
    | nil => exact absurd (by simpa using ht) hne
    | append_singleton t c =>
      rw [← ht, ← List.append_assoc, List.dropLast_concat, List.countP_append] at hkw
      omega
  have hgroup (hu : ¬ strcaseeq name (str "url") = true) (hq : ¬ strcaseeq name (str "query") = true)
      (hd : name.all isdigit = true) : digits name < 10 :=
    hlt _ (by simp only [readAs, hu, hq, hd, Bool.false_eq_true, if_false, if_true])
  unfold readAs at hname
  split_ifs at hname with hu hq hd hb
  · refine hkeyword _ hu (fun h => ?_) (by decide)
    simp [meant, h] at hw
  · refine hkeyword _ hq (fun h => ?_) (by decide)
    unfold meant at hw
    split_ifs at hw
  · -- the beginning of a number that is not too large is one
    have hall := List.all_eq_true.1 hd
    have hbound := hgroup hu hq hd
    obtain ⟨t, rfl⟩ := hpre
    rw [digits_append hall] at hbound
    have hle : digits w ≤ digits w * 10 ^ t.length := Nat.le_mul_of_pos_right _ (Nat.pow_pos (by decide))
    have hword : w.all isdigit = true ∧ digits w < 10 :=
      ⟨List.all_eq_true.2 (List.forall_mem_append.1 hall).1, by omega⟩
    unfold meant at hw
    split_ifs at hw
  · refine hkeyword _ hb (fun h => ?_) (by decide)
    unfold meant at hw
    split_ifs at hw
  · exact absurd rfl hname

end

/-! ## Expanding in the buffer -/

/-- Wherever the rule matches and the expansion fits, it is what `rule_check` leaves in the buffer, which held the URL. -/
def Expands (regexec : Regexec) (v : Bytes) : Prop :=
  ∀ (k : Bytes) (host : Option Bytes) (url query target : Bytes) (m : Ere.Caps),
    matchTarget regexec k host url = .ok (some (target, m)) →
    (expandTemplate ⟨url, query, target, m⟩ v).length < BUF_SIZE →
    ∃ buf, rule_check regexec k v host url query = .ok (some buf) ∧ buf.getD url = expandTemplate ⟨url, query, target, m⟩ v

/-- The placeholders with the names that they are read under. -/
def readNames (v : Bytes) : List (Hole × Bytes) := named (List.replicate 10 0) (scan v).1

/-- Every word fits into `rep`, and is read there as what it stands for. -/
def ReadAlone (v : Bytes) : Prop := ∀ p ∈ readNames v, p.1.word.length < 10 ∧ readAs p.2 = meant p.1.word

/-- Something is written before the end of the last placeholder, or the empty URL is all there is to write. -/
def WritesSome (v : Bytes) : Prop :=
  (∃ h ∈ (scan v).1, h.before ≠ [] ∨ meant h.word = .kept) ∨ ((∃ h ∈ (scan v).1, meant h.word = .url) ∧ (scan v).2 = [])

instance (v : Bytes) : Decidable (ReadAlone v) := inferInstanceAs (Decidable (∀ p ∈ readNames v, _))

instance (v : Bytes) : Decidable (WritesSome v) := inferInstanceAs (Decidable (_ ∨ _))

/-- The placeholders with what stands before them, each replaced by a text of its own. -/
def written (text : Hole × Bytes → Bytes) (ps : List (Hole × Bytes)) : Bytes := ps.flatMap fun p => p.1.before ++ text p

section

variable {regexec : Regexec} {v : Bytes} {ps : List (Hole × Bytes)} {f g : Hole × Bytes → Bytes} {q : UInt8 → Bool}

theorem map_fst_named (rep : Bytes) (hs : List Hole) : (named rep hs).map Prod.fst = hs := by
  induction hs generalizing rep with
  | nil => rfl
  | cons h hs ih => rw [named, List.map_cons, ih]

theorem written_cons (text : Hole × Bytes → Bytes) (p : Hole × Bytes) (ps : List (Hole × Bytes)) :
    written text (p :: ps) = p.1.before ++ text p ++ written text ps := rfl

theorem meantText_eq (src : Source) (v : Bytes) :
    meantText src (scan v).1 = written (fun p => src.text p.1.kept (meant p.1.word)) (readNames v) := by
  unfold meantText written
  conv_lhs => rw [← map_fst_named (List.replicate 10 0) (scan v).1]
  rw [List.flatMap_map]
  rfl

theorem written_congr (h : ∀ p ∈ ps, f p = g p) : written f ps = written g ps := by
  induction ps with
  | nil => rfl
  | cons p ps ih =>
    obtain ⟨hp, hps⟩ := List.forall_mem_cons.1 h
    rw [written_cons, written_cons, hp, ih hps]

theorem written_count_le (h : ∀ p ∈ ps, (f p).countP q ≤ (g p).countP q) : (written f ps).countP q ≤ (written g ps).countP q := by
  induction ps with
  | nil => exact Nat.le_refl _
  | cons p ps ih =>
    obtain ⟨hp, hps⟩ := List.forall_mem_cons.1 h
    have := ih hps
    simp only [written_cons, List.countP_append]
    omega

/-- Texts that are the same as a whole, and none of which counts more than its other, count the same one by one. -/
theorem written_count_eq (h : ∀ p ∈ ps, (f p).countP q ≤ (g p).countP q)
    (he : (written f ps).countP q = (written g ps).countP q) : ∀ p ∈ ps, (f p).countP q = (g p).countP q := by
  induction ps with
  | nil => nofun
  | cons p ps ih =>
    obtain ⟨hp, hps⟩ := List.forall_mem_cons.1 h
    have hle := written_count_le hps
    simp only [written_cons, List.countP_append] at he
    exact List.forall_mem_cons.2 ⟨by omega, ih hps (by omega)⟩

theorem written_nil (h : written f ps = []) : ∀ p ∈ ps, p.1.before = [] ∧ f p = [] := by
  intro p hp
  have := List.flatMap_eq_nil_iff.1 h p hp
  exact List.append_eq_nil_iff.1 this

/-- The words of a value as they are read. -/
theorem readNames_prefix (hw : ∀ p ∈ readNames v, p.1.word.length < 10) {p : Hole × Bytes} (hp : p ∈ readNames v) :
    p.1.kept = keep p.1.word ∧ p.1.word ≠ [] ∧ p.1.word <+: p.2 ∧ p.2.length < 10 ∧ ∃ c s, p.2 = c :: s ∧ isalnum c = true := by
  have hmem (h : Hole) (hh : h ∈ (scan v).1) : ∃ p ∈ readNames v, p.1 = h := by
    rw [← map_fst_named (List.replicate 10 0) (scan v).1] at hh
    exact List.mem_map.1 hh
  have hfit : ∀ h ∈ (scan v).1, 0 ∉ h.word ∧ h.word.length < 10 := by
    intro h hh
    obtain ⟨p, hp, rfl⟩ := hmem h hh
    obtain ⟨-, -, hall⟩ := scan_words v _ hh
    exact ⟨fun h0 => absurd (hall 0 h0) (by decide), hw p hp⟩
  obtain ⟨hin, hpre, hlen⟩ := named_prefix List.length_replicate rfl hfit hp
  obtain ⟨hkept, hne, hall⟩ := scan_words v _ hin
  refine ⟨hkept, hne, hpre, hlen, ?_⟩
  obtain ⟨c, w, hw⟩ := List.exists_cons_of_ne_nil hne
  obtain ⟨t, ht⟩ := hpre
  rw [hw] at ht hall
  exact ⟨c, w ++ t, ht.symm, hall c List.mem_cons_self⟩

/-- One match: `rule_check` succeeds if everything fits, and leaves the URL where nothing has been written. -/
theorem rule_check_expands (hx : Ere.Posix regexec) {k : Bytes} {host : Option Bytes} {url query target : Bytes} {m : Ere.Caps}
    (hm : matchTarget regexec k host url = .ok (some (target, m))) (e : Bytes) :
    (∃ buf, rule_check regexec k v host url query = .ok (some buf) ∧ buf.getD url = e) ↔
      ValueFits regexec ⟨url, query, target, m⟩ v ∧
        (if filled regexec ⟨url, query, target, m⟩ (readNames v) = [] then url
          else filled regexec ⟨url, query, target, m⟩ (readNames v) ++ (scan v).2) = e := by
  have htemplate : template regexec v = readNames v := by rw [template, holes_eq hx, readNames]
  rcases rule_check_cases v query hm with ⟨hfit, hr⟩ | ⟨hfit, hr⟩
  · simp only [hr, hfit, true_and, Except.ok.injEq, Option.some.injEq, exists_eq_left', expansion, htemplate, holes_eq hx]
    split_ifs <;> simp_all
  · simp [hr, hfit]

/-- The only match there is, is the one that is found. -/
theorem regexec_eq (hx : Ere.Posix regexec) {r : Ere} (hr : r.regular = true) {s : Bytes} {i j : Nat} {d : Ere.Caps}
    (hi : i ≤ s.length)
    (hm : Ere.Matches s r i .none j d) (honly : ∀ i' j' d', Ere.Matches s r i' .none j' d' → i' = i ∧ j' = j ∧ d' = d) :
    regexec r s = some (Function.update d 0 (some (i, j))) := by
  cases he : regexec r s with
  | none => exact absurd hm (hx.complete r s hr he i j d hi)
  | some c =>
    obtain ⟨i', j', d', -, hm', rfl, -⟩ := hx.sound r s c hr he
    obtain ⟨rfl, rfl, rfl⟩ := honly i' j' d' hm'
    rfl

/-- `^` matches the beginning of every URL. -/
theorem match_start (hx : Ere.Posix regexec) (url : Bytes) :
    matchTarget regexec (str "^") none url = .ok (some (url, Function.update Ere.Caps.none 0 (some (0, 0)))) := by
  have hcomp : Ere.regcomp (str "^") = some (.cat (.assert .bol) .eps) := by decide +kernel
  have hfound : regexec (.cat (.assert .bol) .eps) url = some (Function.update Ere.Caps.none 0 (some (0, 0))) := by
    apply regexec_eq hx rfl (Nat.zero_le _) (.cat (.assert (by simp [Ere.Assertion.holds])) .eps)
    intro i j d hm
    obtain ⟨_, _, hbol, heps⟩ := Ere.matches_cat.1 hm
    obtain ⟨rfl, rfl⟩ := Ere.matches_eps.1 heps
    cases hbol with
    | assert hbol => exact ⟨by simpa [Ere.Assertion.holds] using hbol, by simpa [Ere.Assertion.holds] using hbol, rfl⟩
  simp only [matchTarget, matchHost, regex_match, hcomp, hfound, Res.ok_bind]
  rfl

/-- `x` matches the end of `yx`. -/
theorem match_end (hx : Ere.Posix regexec) :
    matchTarget regexec (str "x") none (str "yx") = .ok (some (str "yx", Function.update Ere.Caps.none 0 (some (1, 2)))) := by
  have hcomp : Ere.regcomp (str "x") = some (.cat (Ere.lit 120) .eps) := by decide +kernel
  have hfound : regexec (.cat (Ere.lit 120) .eps) (str "yx") = some (Function.update Ere.Caps.none 0 (some (1, 2))) := by
    apply regexec_eq hx rfl (by decide) (.cat (Ere.matches_lit.2 ⟨⟨120, rfl, rfl⟩, rfl, rfl⟩) .eps)
    intro i j d hm
    obtain ⟨_, _, hlit, heps⟩ := Ere.matches_cat.1 hm
    obtain ⟨rfl, rfl⟩ := Ere.matches_eps.1 heps
    obtain ⟨⟨c, hc, hlow⟩, rfl, rfl⟩ := Ere.matches_lit.1 hlit
    match i, hc with
    | 0, hc =>
      obtain rfl : 121 = c := Option.some.inj hc
      exact absurd hlow (by decide)
    | 1, _ => exact ⟨rfl, rfl, rfl⟩
    | i + 2, hc => cases hc
  simp only [matchTarget, matchHost, regex_match, hcomp, hfound, Res.ok_bind]
  rfl

theorem expandTemplate_length_le {src : Source} (hurl : src.url.length ≤ 2) (hquery : src.query = [])
    (hgroup : ∀ n, (groupText src.target (src.groups n)).length ≤ 1) (v : Bytes) : (expandTemplate src v).length ≤ v.length := by
  have htext (word : Bytes) : (src.text (keep word) (meant word)).length ≤ word.length + 2 := by
    cases meant word with
    | url => exact hurl.trans (Nat.le_add_left ..)
    | query => rw [Source.text, hquery]; exact Nat.zero_le _
    | group n => exact (hgroup n).trans (by omega)
    | nothing => exact Nat.zero_le _
    | kept => simp [Source.text, keep]
  induction v using expandTemplate.induct with
  | case1 => simp [expandTemplate]
  | case2 c s word h ih =>
    obtain ⟨rest, hv, -⟩ := placeholder_iff.1 h
    obtain ⟨rfl, rfl⟩ := List.cons.inj hv
    have hword := htext word
    rw [expandTemplate, h]
    simp only [List.length_append, List.length_cons, List.length_drop] at ih ⊢
    omega
  | case3 c s h ih =>
    rw [expandTemplate, h]
    simpa using ih

/-- A value whose words fit, with the names as they are read. -/
structure Named (v : Bytes) (p : Hole × Bytes) : Prop where
  kept : p.1.kept = keep p.1.word
  ne_nil : p.1.word ≠ []
  isPrefix : p.1.word <+: p.2
  number : ∀ n, readAs p.2 = .group n → n < 10

/-- A match on which nothing but the URL has a text. -/
def startSource (url : Bytes) : Source := ⟨url, [], url, Function.update Ere.Caps.none 0 (some (0, 0))⟩

/-- A match on which the URL and group 0 have one. -/
def endSource : Source := ⟨str "yx", [], str "yx", Function.update Ere.Caps.none 0 (some (1, 2))⟩

theorem startSource_group (url : Bytes) (n : Nat) : groupText (startSource url).target ((startSource url).groups n) = [] := by
  simp only [startSource, Function.update_apply]
  split <;> rfl

theorem endSource_group (n : Nat) : groupText endSource.target (endSource.groups n) = if n = 0 then [120] else [] := by
  simp only [endSource, Function.update_apply]
  split <;> rfl

/-- What the buffer holds after the match `src`, if `rep` is read as it is. -/
def leaves (src : Source) (v : Bytes) : Bytes :=
  if written (fun p => src.text p.1.kept (readAs p.2)) (readNames v) = [] then src.url
  else written (fun p => src.text p.1.kept (readAs p.2)) (readNames v) ++ (scan v).2

theorem filled_eq (hx : Ere.Posix regexec) (src : Source) (hw : ∀ p ∈ readNames v, p.1.word.length < 10) :
    filled regexec src (readNames v) = written (fun p => src.text p.1.kept (readAs p.2)) (readNames v) := by
  apply written_congr
  intro p hp
  obtain ⟨-, -, -, hlen, c, s, hs, hc⟩ := readNames_prefix hw hp
  simp only [hs] at hlen ⊢
  rw [meaning_eq hx hc hlen]

/-- The words fit if some match is expanded, and every match that is leaves the expansion. -/
theorem Expands.at (hx : Ere.Posix regexec) (h : Expands regexec v) {k : Bytes} {host : Option Bytes} (src : Source)
    (hm : matchTarget regexec k host src.url = .ok (some (src.target, src.groups)))
    (hfit : (expandTemplate src v).length < BUF_SIZE) :
    (∀ p ∈ readNames v, p.1.word.length < 10 ∧ Named v p) ∧
      leaves src v = written (fun p => src.text p.1.kept (meant p.1.word)) (readNames v) ++ (scan v).2 := by
  obtain ⟨hfits, hleft⟩ := (rule_check_expands hx hm _).1 (h k host src.url src.query src.target src.groups hm hfit)
  have htemplate : template regexec v = readNames v := by rw [template, holes_eq hx, readNames]
  have hwords := hfits.1
  rw [htemplate] at hwords
  have hw : ∀ p ∈ readNames v, p.1.word.length < 10 := fun p hp => (hwords p hp).1
  refine ⟨fun p hp => ⟨hw p hp, ?_⟩, ?_⟩
  · obtain ⟨hkept, hne, hpre, hlen, c, s, hs, hc⟩ := readNames_prefix hw hp
    refine ⟨hkept, hne, hpre, fun n hn => (hwords p hp).2 n ?_⟩
    rw [hs] at hlen hn ⊢
    rw [meaning_eq hx hc hlen]
    exact hn
  · rw [← meantText_eq, ← expandTemplate_eq, ← hleft, filled_eq hx _ hw]
    rfl

theorem startSource_text (url kept : Bytes) (m : Meaning) :
    (startSource url).text kept m = if m = .url then url else if m = .kept then kept else [] := by
  cases m with
  | group n => simpa [Source.text] using startSource_group url n
  | _ => rfl

/-- Whether a word is kept does not depend on what stands behind it. -/
theorem kept_iff (hn : ∀ p ∈ readNames v, Named v p)
    (h : written (fun p => (startSource []).text p.1.kept (readAs p.2)) (readNames v) =
      written (fun p => (startSource []).text p.1.kept (meant p.1.word)) (readNames v)) :
    ∀ p ∈ readNames v, readAs p.2 = .kept ↔ meant p.1.word = .kept := by
  have htext (kept : Bytes) (m : Meaning) : (startSource []).text kept m = if m = .kept then kept else [] := by
    rw [startSource_text]
    split_ifs with hu hk
    · rw [hu] at hk
      cases hk
    · rfl
    · rfl
    · rfl
  simp only [htext] at h
  have hcount (word : Bytes) (q : UInt8 → Bool) (h60 : q 60 = false) (h62 : q 62 = false) :
      (keep word).countP q = word.countP q := by
    simp [keep, h60, h62]
  -- by the last letters, what is kept under its name is kept
  have hletters : ∀ p ∈ readNames v, readAs p.2 = .kept → meant p.1.word = .kept := by
    have hle : ∀ p ∈ readNames v, (if meant p.1.word = .kept then p.1.kept else []).countP lastLetter ≤
        (if readAs p.2 = .kept then p.1.kept else []).countP lastLetter := by
      intro p hp
      by_cases hk : readAs p.2 = .kept
      · rw [if_pos hk]
        split <;> simp
      · by_cases ha : meant p.1.word = .kept
        · have hzero := lastLetter_zero (hn p hp).isPrefix ha hk (hn p hp).number
          rw [if_pos ha, if_neg hk, (hn p hp).kept, hcount _ _ (by decide) (by decide), hzero]
          exact Nat.zero_le _
        · rw [if_neg ha, if_neg hk]
    have heq := written_count_eq hle (by rw [h])
    intro p hp hk
    by_contra ha
    have hp' := heq p hp
    rw [if_neg ha, if_pos hk, (hn p hp).kept, hcount _ _ (by decide) (by decide)] at hp'
    exact absurd hp' (lastLetter_pos (hn p hp).ne_nil ha).ne
  -- then there are no fewer brackets
  have hle : ∀ p ∈ readNames v, (if readAs p.2 = .kept then p.1.kept else []).countP (· = 60) ≤
      (if meant p.1.word = .kept then p.1.kept else []).countP (· = 60) := by
    intro p hp
    by_cases hk : readAs p.2 = .kept
    · rw [if_pos hk, if_pos (hletters p hp hk)]
    · rw [if_neg hk]
      exact Nat.zero_le _
  have heq := written_count_eq hle (by rw [h])
  intro p hp
  refine ⟨hletters p hp, fun ha => ?_⟩
  by_contra hk
  have hp' := heq p hp
  rw [if_neg hk, if_pos ha, (hn p hp).kept] at hp'
  simp [keep] at hp'

theorem start_fits (hv : v.length < BUF_SIZE) {url : Bytes} (hurl : url.length ≤ 2) :
    (expandTemplate (startSource url) v).length < BUF_SIZE := by
  refine (expandTemplate_length_le hurl rfl (fun n => ?_) v).trans_lt hv
  rw [startSource_group]
  exact Nat.zero_le 1

theorem end_fits (hv : v.length < BUF_SIZE) : (expandTemplate endSource v).length < BUF_SIZE := by
  refine (expandTemplate_length_le (by decide) rfl (fun n => ?_) v).trans_lt hv
  rw [endSource_group]
  split
  · exact Nat.le_refl 1
  · exact Nat.zero_le 1

/-- The buffer holds `yx` only if nothing of it has been written for a placeholder. -/
theorem written_end (hn : ∀ p ∈ readNames v, Named v p)
    (hkept : ∀ p ∈ readNames v, readAs p.2 = .kept ↔ meant p.1.word = .kept)
    (hnil : written (fun p => endSource.text p.1.kept (readAs p.2)) (readNames v) = []) {rest : Bytes}
    (hrest : str "yx" = written (fun p => endSource.text p.1.kept (meant p.1.word)) (readNames v) ++ rest) :
    written (fun p => endSource.text p.1.kept (meant p.1.word)) (readNames v) = [] := by
  have hall : ∀ c ∈ written (fun p => endSource.text p.1.kept (meant p.1.word)) (readNames v), c = 120 := by
    intro c hc
    obtain ⟨p, hp, hc⟩ := List.mem_flatMap.1 hc
    obtain ⟨hbefore, htext⟩ := written_nil hnil p hp
    rw [hbefore, List.nil_append] at hc
    beta_reduce at hc
    have hk : readAs p.2 ≠ .kept := by
      intro hk
      rw [hk, Source.text, (hn p hp).kept] at htext
      cases htext
    rcases readAs_cases (hn p hp).ne_nil (hn p hp).isPrefix (fun ha => hk ((hkept p hp).2 ha)) hk (hn p hp).number with he | ⟨n, -, h0⟩
    · rw [← he, htext] at hc
      cases hc
    · rw [h0, Source.text, endSource_group, if_pos rfl] at hc
      exact List.mem_singleton.1 hc
  cases hw : written (fun p => endSource.text p.1.kept (meant p.1.word)) (readNames v) with
  | nil => rfl
  | cons c w =>
    rw [hw] at hall hrest
    have hfirst : [121, 120] = c :: (w ++ rest) := hrest
    have hc := (List.cons.inj hfirst).1.trans (hall c List.mem_cons_self)
    exact absurd hc (by decide)

theorem expands_readAlone (hx : Ere.Posix regexec) (hv : v.length < BUF_SIZE) (h : Expands regexec v) : ReadAlone v := by
  -- in the first request only the kept words are written, in the second one the text of group 0 is `x`
  obtain ⟨hnames, hstart⟩ := h.at hx (startSource []) (match_start hx []) (start_fits hv (Nat.zero_le 2))
  obtain ⟨-, hend⟩ := h.at hx endSource (match_end hx) (end_fits hv)
  have hn : ∀ p ∈ readNames v, Named v p := fun p hp => (hnames p hp).2
  have hkept := kept_iff hn (by
    unfold leaves at hstart
    split at hstart
    · rename_i hnil
      rw [hnil]
      exact (List.append_eq_nil_iff.1 hstart.symm).1.symm
    · exact List.append_cancel_right hstart)
  have hsame : written (fun p => endSource.text p.1.kept (readAs p.2)) (readNames v) =
      written (fun p => endSource.text p.1.kept (meant p.1.word)) (readNames v) := by
    unfold leaves at hend
    split at hend
    · rename_i hnil
      rw [hnil, written_end hn hkept hnil hend]
    · exact List.append_cancel_right hend
  have hcases : ∀ p ∈ readNames v, readAs p.2 = meant p.1.word ∨
      endSource.text p.1.kept (readAs p.2) = [] ∧ endSource.text p.1.kept (meant p.1.word) = [120] := by
    intro p hp
    by_cases hk : readAs p.2 = .kept
    · exact .inl (hk.trans ((hkept p hp).1 hk).symm)
    · rcases readAs_cases (hn p hp).ne_nil (hn p hp).isPrefix (fun ha => hk ((hkept p hp).2 ha)) hk (hn p hp).number with
        he | ⟨n, hr, ha⟩
      · exact .inl he
      · rw [hr, ha, Source.text, Source.text, endSource_group, endSource_group]
        exact .inr ⟨rfl, rfl⟩
  -- no word writes more than it should, and all of them write as much, so each does
  have hle : ∀ p ∈ readNames v, (endSource.text p.1.kept (readAs p.2)).countP (fun _ => true) ≤
      (endSource.text p.1.kept (meant p.1.word)).countP (fun _ => true) := by
    intro p hp
    rcases hcases p hp with he | ⟨hr, ha⟩
    · rw [he]
    · rw [hr, ha]
      exact Nat.zero_le _
  have heq := written_count_eq hle (by rw [hsame])
  intro p hp
  refine ⟨(hnames p hp).1, (hcases p hp).resolve_right ?_⟩
  rintro ⟨hr, ha⟩
  have hp' := heq p hp
  rw [hr, ha] at hp'
  cases hp'

/-- What is written where every name is read as its word. -/
theorem ReadAlone.written_eq (h : ReadAlone v) (src : Source) :
    written (fun p => src.text p.1.kept (readAs p.2)) (readNames v) =
      written (fun p => src.text p.1.kept (meant p.1.word)) (readNames v) :=
  written_congr fun p hp => by rw [(h p hp).2]

theorem expands_writesSome (hx : Ere.Posix regexec) (hv : v.length < BUF_SIZE) (h : Expands regexec v) : WritesSome v := by
  have halone := expands_readAlone hx hv h
  by_contra hnot
  unfold WritesSome at hnot
  push Not at hnot
  obtain ⟨hempty, hurl⟩ := hnot
  -- without text of its own the value leaves the URL, whatever it is
  have hleft (url : Bytes) (hlen : url.length ≤ 2) (htext : (∃ h ∈ (scan v).1, meant h.word = .url) → url = []) :
      url = (scan v).2 := by
    obtain ⟨-, he⟩ := h.at hx (startSource url) (match_start hx url) (start_fits hv hlen)
    have hnil : written (fun p => (startSource url).text p.1.kept (meant p.1.word)) (readNames v) = [] := by
      rw [← meantText_eq]
      refine List.flatMap_eq_nil_iff.2 fun hole hh => ?_
      obtain ⟨hbefore, hk⟩ := hempty hole hh
      rw [hbefore, startSource_text, if_neg hk]
      split_ifs with hu
      · exact htext ⟨hole, hh, hu⟩
      · rfl
    rw [leaves, halone.written_eq, hnil, if_pos rfl, List.nil_append] at he
    exact he
  by_cases hu : ∃ h ∈ (scan v).1, meant h.word = .url
  · exact hurl hu (hleft [] (Nat.zero_le 2) fun _ => rfl).symm
  · have h1 := hleft [] (Nat.zero_le 2) fun hu' => absurd hu' hu
    have h2 := hleft [120] (by decide) fun hu' => absurd hu' hu
    rw [← h1] at h2
    cases h2

theorem expands_of (hx : Ere.Posix regexec) (halone : ReadAlone v) (hsome : WritesSome v) : Expands regexec v := by
  intro k host url query target m hm hfit
  have hw : ∀ p ∈ readNames v, p.1.word.length < 10 := fun p hp => (halone p hp).1
  have hfilled := (filled_eq hx ⟨url, query, target, m⟩ hw).trans (halone.written_eq _)
  have htemplate : template regexec v = readNames v := by rw [template, holes_eq hx, readNames]
  rw [expandTemplate_eq, meantText_eq, ← hfilled] at hfit ⊢
  refine (rule_check_expands hx hm _).2 ⟨⟨fun p hp => ?_, fun _ => ?_⟩, ?_⟩
  · rw [htemplate] at hp
    obtain ⟨-, -, -, hlen, c, s, hs, hc⟩ := readNames_prefix hw hp
    refine ⟨hw p hp, fun n hn => ?_⟩
    rw [hs] at hlen
    rw [hs, meaning_eq hx hc hlen, ← hs, (halone p hp).2] at hn
    exact meant_group_lt hn
  · rw [htemplate, holes_eq hx, ← List.length_append]
    exact hfit
  · split
    · rename_i hnil
      rw [hnil, List.nil_append]
      rw [hfilled, ← meantText_eq] at hnil
      have hnone := List.flatMap_eq_nil_iff.1 hnil
      rcases hsome with ⟨hole, hh, hor⟩ | ⟨⟨hole, hh, hu⟩, hrest⟩
      · obtain ⟨hbefore, htext⟩ := List.append_eq_nil_iff.1 (hnone hole hh)
        rcases hor with hne | hk
        · exact absurd hbefore hne
        · rw [hk, Source.text, (scan_words v hole hh).1] at htext
          cases htext
      · obtain ⟨-, htext⟩ := List.append_eq_nil_iff.1 (hnone hole hh)
        rw [hu] at htext
        rw [hrest]
        exact htext
    · rfl

/-- The value of a rule, which is shorter than a line of the configuration, is expanded as it asks for exactly
if every word is read as it stands there and something is written before the end of the last placeholder. -/
theorem template_expansion_iff (hx : Ere.Posix regexec) (hv : v.length < BUF_SIZE) :
    Expands regexec v ↔ ReadAlone v ∧ WritesSome v :=
  ⟨fun h => ⟨expands_readAlone hx hv h, expands_writesSome hx hv h⟩, fun h => expands_of hx h.1 h.2⟩

theorem template_expansion_iff_documented : Expands Ere.regexec (str "/<1><url>?<query><break>") :=
  (template_expansion_iff Ere.regexec_posix (by decide)).2 (by decide +kernel)

/-- After `<query>` the name of `<1>` is `1uery`, and it is kept. -/
theorem template_stale_word : ¬ ∀ (regexec : Regexec) (v : Bytes), Ere.Posix regexec → v.length < BUF_SIZE → Expands regexec v := by
  intro hall
  have hrun : ((matchTarget Ere.regexec (str "^/(x)$") none (str "/x")).toOption.join.any fun p =>
      decide ((rule_check Ere.regexec (str "^/(x)$") (str "/<query><1>") none (str "/x") (str "q")).toOption.join =
          some (some (str "/q<1>")) ∧
        expandTemplate ⟨str "/x", str "q", p.1, p.2⟩ (str "/<query><1>") = str "/qx")) = true := by decide +kernel
  obtain ⟨⟨target, m⟩, hm, hp⟩ := (Option.any_eq_true ..).1 hrun
  obtain ⟨hr, he⟩ := of_decide_eq_true hp
  have hm := Res.toOption_eq.1 (Option.join_eq_some_iff.1 hm)
  have hr := Res.toOption_eq.1 (Option.join_eq_some_iff.1 hr)
  obtain ⟨buf, hbuf, hget⟩ := hall _ (str "/<query><1>") Ere.regexec_posix (by decide) _ none _ (str "q") _ _ hm (by rw [he]; decide)
  rw [hr] at hbuf
  cases hbuf
  rw [he] at hget
  exact absurd hget (by decide)

end

end AntHttp
