import AntHttp.Headers
import AntHttp.Queries
/-!
# Cookie headers (`decode.c`)

The text of a `Cookie` header is a list of `name=value` with `;` in between and
blanks around. The line is trimmed as a whole first and each cookie again, so
the blanks at the ends of the line make no difference.
-/

namespace AntHttp

open CString

/-! ## Blanks -/

section Trim

variable {s : Bytes} {d : UInt8}

theorem trim_cons_self (s : Bytes) (d : UInt8) : trim (d :: s) d = trim s d := by
  unfold trim List.rdropWhile
  rw [List.reverse_cons, List.dropWhile_append]
  split
  · rename_i hall
    rw [List.isEmpty_iff.1 hall]
    simp
  · simp

/-- Padding is dropped. -/
theorem trim_pad (a b : Nat) (s : Bytes) (d : UInt8) :
    trim (List.replicate a d ++ s ++ List.replicate b d) d = trim s d := by
  induction a with
  | zero =>
    rw [List.replicate_zero, List.nil_append]
    induction b with
    | zero => rw [List.replicate_zero, List.append_nil]
    | succ b ih => rw [List.replicate_succ', ← List.append_assoc, trim_concat, ih]
  | succ a ih => rw [List.replicate_succ, List.cons_append, List.cons_append, trim_cons_self, ih]

/-! ## Blanks between the tokens -/

theorem split_cons_space (s : Bytes) : (split 59 (32 :: s)).map (trim · 32) = (split 59 s).map (trim · 32) := by
  obtain ⟨t, ts, ht⟩ := List.exists_cons_of_ne_nil (split_ne_nil 59 s)
  rw [split, if_neg (by decide), ht, List.map_cons, List.map_cons, trim_cons_self]

theorem split_concat_space (s : Bytes) : (split 59 (s ++ [32])).map (trim · 32) = (split 59 s).map (trim · 32) := by
  have hs := List.dropLast_append_getLast (split_ne_nil 59 s)
  rw [split_append_last 59 s (by decide), List.map_append, List.map_singleton, trim_concat]
  conv_rhs => rw [← hs, List.map_append, List.map_singleton]

/-- The blanks at the ends of a line are those of its first and last token. -/
theorem split_trim (s : Bytes) : (split 59 (trim s 32)).map (trim · 32) = (split 59 s).map (trim · 32) := by
  have hleft (s : Bytes) : (split 59 (s.dropWhile (· = 32))).map (trim · 32) = (split 59 s).map (trim · 32) := by
    induction s with
    | nil => rfl
    | cons c s ih =>
      by_cases hc : c = 32
      · rw [List.dropWhile_cons_of_pos (by simpa using hc), ih, hc, split_cons_space]
      · rw [List.dropWhile_cons_of_neg (by simpa using hc)]
  have hright (s : Bytes) : (split 59 (s.rdropWhile (· = 32))).map (trim · 32) = (split 59 s).map (trim · 32) := by
    induction s using List.reverseRecOn with
    | nil => rfl
    | append_singleton s c ih =>
      by_cases hc : c = 32
      · rw [List.rdropWhile_concat_pos _ _ _ (by simpa using hc), ih, hc, split_concat_space]
      · rw [List.rdropWhile_concat_neg _ _ _ (by simpa using hc)]
  rw [trim, hleft, hright]

end Trim

/-! ## Cookies -/

/-- No blank and no line end stands at either end. -/
def Bare (s : Bytes) : Prop := ∀ c ∈ [32, 13, 10], s.head? ≠ some c ∧ s.getLast? ≠ some c

/-- A cookie and the spaces around it. -/
structure Cookie where
  name : Bytes
  value : Bytes
  before : Nat
  after : Nat
  name_ne : name ≠ []
  value_ne : value ≠ []
  name_text : ∀ c ∈ name, c ≠ 61 ∧ c ≠ 59
  value_text : 59 ∉ value
  name_bare : Bare name
  value_bare : Bare value

namespace Cookie

def entry (c : Cookie) : Bytes × Bytes := (c.name, c.value)

def pair (c : Cookie) : Bytes := c.name ++ 61 :: c.value

def text (c : Cookie) : Bytes := List.replicate c.before 32 ++ c.pair ++ List.replicate c.after 32

theorem pair_head (c : Cookie) : c.pair.head? = c.name.head? := by
  obtain ⟨b, s, hs⟩ := List.exists_cons_of_ne_nil c.name_ne
  rw [pair, hs]
  rfl

theorem pair_getLast (c : Cookie) : c.pair.getLast? = c.value.getLast? := by
  obtain ⟨b, s, hs⟩ := List.exists_cons_of_ne_nil c.value_ne
  rw [pair, hs, List.getLast?_append_of_ne_nil _ (List.cons_ne_nil _ _), List.getLast?_cons_cons]

theorem pair_bare (c : Cookie) : Bare c.pair := by
  intro b hb
  rw [pair_head, pair_getLast]
  exact ⟨(c.name_bare b hb).1, (c.value_bare b hb).2⟩

theorem pair_ne (c : Cookie) : c.pair ≠ [] := by
  rw [pair]
  exact List.append_ne_nil_of_right_ne_nil _ (List.cons_ne_nil _ _)

theorem trim_text (c : Cookie) : trim c.text 32 = c.pair := by
  have hbare := c.pair_bare 32 List.mem_cons_self
  rw [text, trim_pad, trim_of_ends hbare.1 hbare.2]

theorem not_mem_text (c : Cookie) : 59 ∉ c.text := by
  have hname : 59 ∉ c.name := fun h => (c.name_text 59 h).2 rfl
  have hvalue := c.value_text
  simp [text, pair, hname, hvalue]

/-- A token that is the cookie stores the value under the name, `=` in the value or not. -/
theorem cookiePair_eq (c : Cookie) {token : Bytes} (h : trim token 32 = c.pair) (d : Dictionary Bytes) :
    cookiePair d token = d.dput c.name (some c.value) := by
  have hsep : strsep (some c.pair) 61 = (some c.name, some c.value) := by
    have hmem : 61 ∈ c.pair := by simp [pair]
    have hname (b : UInt8) (hb : b ∈ c.name) : decide (b ≠ 61) = true := decide_eq_true (c.name_text b hb).1
    rw [strsep, if_pos hmem, pair, List.takeWhile_append_of_pos hname, List.dropWhile_append_of_pos hname]
    simp
  rw [cookiePair, h, hsep]
  exact if_pos c.value_ne

theorem foldl_cookiePair {cs : List Cookie} {tokens : List Bytes} (h : tokens.map (trim · 32) = cs.map pair)
    (d : Dictionary Bytes) : tokens.foldl cookiePair d = putAll d (cs.map entry) := by
  induction cs generalizing tokens d with
  | nil =>
    rw [List.map_eq_nil_iff.1 h]
    rfl
  | cons c cs ih =>
    obtain ⟨token, tokens, rfl, htoken, htokens⟩ := List.map_eq_cons_iff.1 h
    rw [List.foldl_cons, c.cookiePair_eq htoken, ih htokens]
    rfl

end Cookie

def cookieLine (cs : List Cookie) : Bytes := [59].intercalate (cs.map Cookie.text)

theorem cookieLine_cons (c c' : Cookie) (cs : List Cookie) :
    cookieLine (c :: c' :: cs) = c.text ++ 59 :: cookieLine (c' :: cs) := by
  simp [cookieLine, List.intercalate]

/-- Within the spaces at its ends a line begins and ends like a cookie. -/
theorem cookieLine_bare (c : Cookie) (cs : List Cookie) :
    ∃ a m b, cookieLine (c :: cs) = List.replicate a 32 ++ m ++ List.replicate b 32 ∧ m ≠ [] ∧ Bare m := by
  induction cs generalizing c with
  | nil =>
    refine ⟨c.before, c.pair, c.after, ?_, c.pair_ne, c.pair_bare⟩
    simp [cookieLine, List.intercalate, Cookie.text]
  | cons c' cs ih =>
    obtain ⟨a, m, b, hline, hm, hbare⟩ := ih c'
    refine ⟨c.before, c.pair ++ (List.replicate c.after 32 ++ 59 :: List.replicate a 32) ++ m, b, ?_, ?_, fun x hx => ?_⟩
    · rw [cookieLine_cons, hline, Cookie.text]
      simp only [List.append_assoc, List.cons_append]
    · exact List.append_ne_nil_of_right_ne_nil _ hm
    · rw [List.getLast?_append_of_ne_nil _ hm, List.append_assoc, List.head?_append_of_ne_nil _ c.pair_ne]
      exact ⟨(c.pair_bare x hx).1, (hbare x hx).2⟩

/-- The three trims of `decode_cookie` leave the line without the spaces at its ends. -/
theorem cookieLine_trim (cs : List Cookie) : trim (trim (trim (cookieLine cs) 32) 10) 13 = trim (cookieLine cs) 32 := by
  cases cs with
  | nil => rfl
  | cons c cs =>
    obtain ⟨a, m, b, hline, -, hbare⟩ := cookieLine_bare c cs
    have hm (x : UInt8) (hx : x ∈ [32, 13, 10]) : trim m x = m := trim_of_ends (hbare x hx).1 (hbare x hx).2
    rw [hline, trim_pad, hm 32 (by decide), hm 10 (by decide), hm 13 (by decide)]

theorem decode_cookie_line (cs : List Cookie) (d : Dictionary Bytes) :
    decode_cookie (some (cookieLine cs)) d = .ok (putAll d (cs.map Cookie.entry)) := by
  have hfold : (split 59 (trim (cookieLine cs) 32)).foldl cookiePair d = putAll d (cs.map Cookie.entry) := by
    cases cs with
    | nil => rfl
    | cons c cs =>
      apply Cookie.foldl_cookiePair
      rw [split_trim, cookieLine, split_intercalate (by simp), List.map_map]
      · exact List.map_congr_left fun c _ => c.trim_text
      · intro t ht
        obtain ⟨c, -, rfl⟩ := List.mem_map.1 ht
        exact c.not_mem_text
  rw [decode_cookie, deref_some, Res.ok_bind, cookieLine_trim, hfold]
  rfl

/-! ## Header lines -/

/-- The line of a `Cookie` header that holds the cookies. -/
def CookieHeader (buf : Bytes) (cs : List Cookie) : Prop :=
  strcaseeq (headerParts buf).1 (str "Cookie") = true ∧ (headerParts buf).2 = some (cookieLine cs)

theorem headerLine_cookie {s : HeaderScan} {buf : Bytes} {cs : List Cookie} {x : Dictionary Bytes}
    (h : CookieHeader buf cs) (hx : s.xheader = some x) :
    ∃ s', headerLine s buf = .ok s' ∧ s'.cookie = some (putAll (s.cookie.getD .dict) (cs.map Cookie.entry)) := by
  obtain ⟨hname, hline⟩ := h
  obtain ⟨s', hs'⟩ := headerLine_sound hx (.inl (by rw [hline]; rfl))
  refine ⟨s', hs', ?_⟩
  unfold headerLine at hs'
  dsimp only at hs'
  rw [hx, putHeader_entry, Res.ok_bind, if_pos hname, hline] at hs'
  obtain ⟨d, hd, hs'⟩ := Res.bind_ok.1 hs'
  rw [decode_cookie_line] at hd
  cases hd
  cases hs'
  rfl

/-- The cookies of a line are put into the dictionary one after another, and so each name has its last value; the
dictionary may hold those of an earlier header. -/
theorem decode_cookie_adds (cs : List Cookie) (d : Dictionary Bytes) :
    decode_cookie (some (cookieLine cs)) d = .ok (putAll d (cs.map Cookie.entry)) ∧
      (∀ k, (putAll d (cs.map Cookie.entry)).dlookup k =
        (lastValue (cs.map Cookie.entry) k).elim (d.dlookup k) fun v => some (k, some v)) ∧
      ∀ (s : HeaderScan) (buf : Bytes) (x : Dictionary Bytes), s.xheader = some x → s.cookie.getD .dict = d →
        CookieHeader buf cs →
          ∃ s', headerLine s buf = .ok s' ∧ s'.cookie = some (putAll d (cs.map Cookie.entry)) := by
  refine ⟨decode_cookie_line cs d, putAll_dlookup_of d _, ?_⟩
  rintro s buf x hx rfl h
  exact headerLine_cookie h hx

/-- `a=b=` in a header, after another header with `a=c`. -/
def sampleCookie : Cookie where
  name := str "a"
  value := str "b="
  before := 2
  after := 1
  name_ne := by decide
  value_ne := by decide
  name_text := by simp [str]
  value_text := by decide
  name_bare := by simp [Bare, str]
  value_bare := by simp [Bare, str]

theorem decode_cookie_adds_second : ∃ s', headerLine ⟨some .dict, some (putAll .dict [(str "a", str "c")]), none, 0⟩
      (str "cookie: a=b=; a=b=\r\n") = .ok s' ∧
    s'.cookie = some (putAll (putAll .dict [(str "a", str "c")]) [(str "a", str "b="), (str "a", str "b=")]) :=
  (decode_cookie_adds [{ sampleCookie with before := 0, after := 0 }, { sampleCookie with before := 1, after := 0 }] _).2.2
    _ _ _ rfl rfl ⟨by decide, by decide⟩

end AntHttp
