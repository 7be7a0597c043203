import AntHttp.Headers
/-!
# The spelling of header names

`verify_header` writes the first letter of a name, and each one after a dash, as
a capital. It leaves the other letters as the client has sent them, so a name in
capitals is another key than the one that the server looks up.
-/

namespace AntHttp

open CString

/-! ## Names that differ in case -/

/-- The same letter wherever one neither starts the name nor follows a dash. -/
def AgreeInside (a b : Bytes) : Prop := ∀ i : Nat, a[i]? ≠ some 45 → a[i + 1]? = b[i + 1]?

section

variable {a b k k' : Bytes} {c c' prev prev' : UInt8}

theorem toupper_congr (h : tolower c = tolower c') : toupper c = toupper c' := by
  have hup (c : UInt8) : toupper c = toupper (tolower c) := by grind [toupper, tolower, isupper, islower]
  rw [hup c, h, ← hup c']

/-- A dash is no letter. -/
theorem tolower_dash (c : UInt8) : tolower c = 45 ↔ c = 45 := by
  grind [tolower, isupper]

theorem dash_congr (h : tolower c = tolower c') : c = 45 ↔ c' = 45 := by
  rw [← tolower_dash c, h, tolower_dash c']

theorem agreeInside_cons : AgreeInside (c :: k) (c' :: k') ↔ (c ≠ 45 → k[0]? = k'[0]?) ∧ AgreeInside k k' := by
  constructor
  · intro h
    refine ⟨fun hc => ?_, fun i hi => ?_⟩
    · simpa using h 0 (by simpa using hc)
    · simpa using h (i + 1) (by simpa using hi)
  · rintro ⟨h0, h⟩ i hi
    cases i with
    | zero => simpa using h0 (by simpa using hi)
    | succ i => simpa using h i (by simpa using hi)

/-- Letters after the first are told apart unless a dash precedes them. -/
theorem upperAfterDash_eq_iff (h : k.map tolower = k'.map tolower) (hp : prev = 45 ↔ prev' = 45) :
    upperAfterDash prev k = upperAfterDash prev' k' ↔ (prev ≠ 45 → k[0]? = k'[0]?) ∧ AgreeInside k k' := by
  induction k generalizing k' prev prev' with
  | nil =>
    obtain rfl : k' = [] := by simpa using h.symm
    simp [upperAfterDash, AgreeInside]
  | cons c k ih =>
    cases k' with
    | nil => cases h
    | cons c' k' =>
      obtain ⟨hc, hk⟩ := List.cons.inj h
      rw [upperAfterDash, upperAfterDash, List.cons.injEq, ih hk (dash_congr hc), agreeInside_cons]
      refine and_congr ?_ Iff.rfl
      by_cases hprev : prev = 45
      · rw [if_pos hprev, if_pos (hp.1 hprev)]
        exact iff_of_true (toupper_congr hc) fun hne => absurd hprev hne
      · rw [if_neg hprev, if_neg fun h => hprev (hp.2 h)]
        simp [hprev]

/-- Two spellings of a name have one key exactly if they agree inside. -/
theorem verify_header_eq_iff (h : a.map tolower = b.map tolower) : verify_header a = verify_header b ↔ AgreeInside a b := by
  cases a with
  | nil =>
    obtain rfl : b = [] := by simpa using h.symm
    simp [AgreeInside]
  | cons c k =>
    cases b with
    | nil => cases h
    | cons c' k' =>
      obtain ⟨hc, hk⟩ := List.cons.inj h
      rw [verify_header, verify_header, List.cons.injEq, upperAfterDash_eq_iff hk (dash_congr hc), agreeInside_cons,
        and_iff_right (toupper_congr hc)]

/-- Only letter case tells a key from the name. -/
theorem verify_header_tolower (k : Bytes) : (verify_header k).map tolower = k.map tolower := by
  have hup (c : UInt8) : tolower (toupper c) = tolower c := by grind [toupper, tolower, isupper, islower]
  have htail (prev : UInt8) (k : Bytes) : (upperAfterDash prev k).map tolower = k.map tolower := by
    induction k generalizing prev with
    | nil => rfl
    | cons c k ih =>
      rw [upperAfterDash, List.map_cons, List.map_cons, ih]
      split
      · rw [hup]
      · rfl
  cases k with
  | nil => rfl
  | cons c k => rw [verify_header, List.map_cons, List.map_cons, htail, hup]

end

/-! ## Where a header is stored -/

/-- The name of a header: a string that a line can start with, without the spaces around it. -/
structure HeaderName (a : Bytes) : Prop where
  ne_nil : a ≠ []
  text : ∀ c ∈ a, HeaderField.NameChar c
  string : 0 ∉ a
  trimmed : trim a 32 = a

/-- A field with that name, which may have spaces around it, and with a value. Where the name leaves room for a value in
the line buffer, the value is not cut. -/
structure HeaderField.Spoken (a : Bytes) (f : HeaderField) : Prop where
  name : trim f.name 32 = a
  string : 0 ∉ f.line
  value : trim f.value 32 ≠ []
  fits : a.length + 2 < BUF_SIZE → f.text.length < BUF_SIZE

/-- Every header with this name has its value under that key, and nothing else. -/
def StoredUnder (a key : Bytes) : Prop :=
  ∀ f : HeaderField, f.Spoken a → ∀ (rq : Request) (t : Int) (rest : List RecvEv),
    rq.REQUEST_HEADER = some .dict → Arrives rq.client.last_io (headerBlock [f]) rq.client.input t rest →
    ∃ d, DecodesTo rq d ∧ d.dvalue key = some (trim f.value 32) ∧ ∀ k, k ∈ Dictionary.keys d.assocs ↔ k = key

/-- Headers with these two names have one key, which is the name up to letter case. -/
def StoredTogether (a b : Bytes) : Prop := ∃ key, key.map tolower = a.map tolower ∧ StoredUnder a key ∧ StoredUnder b key

/-- Every header with this name is found under `key`. -/
def FoundAs (a key : Bytes) : Prop :=
  ∀ f : HeaderField, f.Spoken a → ∀ (rq : Request) (t : Int) (rest : List RecvEv),
    rq.REQUEST_HEADER = some .dict → Arrives rq.client.last_io (headerBlock [f]) rq.client.input t rest →
    ∃ d, DecodesTo rq d ∧ d.dvalue key = some (trim f.value 32)

/-- The names that the server looks up. -/
def serverKeys : List Bytes :=
  [str "Content-Length", str "Content-Type", str "Accept-Encoding", str "Sec-WebSocket-Key", str "Upgrade",
    str "If-Modified-Since"]

section

variable {a b key : Bytes} {f : HeaderField} {rq : Request} {d d' : Dictionary Bytes} {t : Int} {rest : List RecvEv}

theorem DecodesTo.unique (h : DecodesTo rq d) (h' : DecodesTo rq d') : d = d' := by
  obtain ⟨⟨c, s, hl, hx⟩, -⟩ := h
  obtain ⟨⟨c', s', hl', hx'⟩, -⟩ := h'
  cases Except.ok.inj (hl.symm.trans hl')
  exact Option.some.inj (hx.symm.trans hx')

/-- A field of a name that leaves room for it is decoded. -/
theorem HeaderField.Spoken.decoded (h : f.Spoken a) (hlen : a.length + 2 < BUF_SIZE) (hrq : rq.REQUEST_HEADER = some .dict)
    (ha : Arrives rq.client.last_io (headerBlock [f]) rq.client.input t rest) :
    ∃ d, DecodesTo rq d ∧ HoldsEntries [(verify_header a, trim f.value 32)] d := by
  have htext := h.fits hlen
  have hline := f.line_length
  have hbuf : BUF_SIZE = 2048 := rfl
  have huncut : Uncut [f] := by
    refine ⟨fun h0 => absurd h0 h.string, ?_, trivial⟩
    rcases Nat.lt_or_ge BUF_SIZE f.line.length with hlt | hle
    · exact .inr ⟨by omega, nofun⟩
    · exact .inl hle
  have hsize : (headerBlock [f]).length ≤ HEADER_MAX_SIZE := by
    have hmax : HEADER_MAX_SIZE = 8192 := rfl
    rw [headerBlock_cons, List.length_append, hline]
    change f.text.length + 2 + 2 ≤ _
    omega
  obtain ⟨d, hd, hdec⟩ := huncut.headerRight hsize rq t rest hrq ha
  have hentry : f.entry = some (verify_header a, trim f.value 32) := by
    rw [HeaderField.entry, if_neg h.value, h.name]
  rw [List.filterMap_cons, hentry] at hd
  exact ⟨d, hdec, hd⟩

/-- The value of a single field is found under its key only. -/
theorem HoldsEntries.value_iff {k v : Bytes} (hd : HoldsEntries [(k, v)] d) : d.dvalue key = some v ↔ key = k := by
  rw [hd.value, lastValue]
  by_cases h : k = key <;> simp [h, eq_comm]

theorem HoldsEntries.keys_iff {k v : Bytes} (hd : HoldsEntries [(k, v)] d) (k' : Bytes) :
    k' ∈ Dictionary.keys d.assocs ↔ k' = k := by
  rw [hd.keys, lastValue]
  by_cases h : k = k' <;> simp [h, eq_comm]

/-- A field with that name and a letter for its value. -/
def HeaderName.field (h : HeaderName a) : HeaderField := ⟨a, [120], h.ne_nil, h.text, List.all_iff_forall_prop.1 (by decide)⟩

theorem HeaderName.field_spoken (h : HeaderName a) : h.field.Spoken a := by
  have hvalue : trim [120] 32 ≠ [] := by decide
  refine ⟨h.trimmed, ?_, hvalue, fun hlen => ?_⟩
  · have h0 := h.string
    simp [HeaderField.line, HeaderField.text, field, h0]
  · rw [HeaderField.text, List.length_append]
    exact hlen

/-! ### Names with room for a value -/

theorem storedUnder_short (hlen : a.length + 2 < BUF_SIZE) : StoredUnder a (verify_header a) := by
  intro f hf rq t rest hrq ha
  obtain ⟨d, hdec, hd⟩ := hf.decoded hlen hrq ha
  exact ⟨d, hdec, hd.value_iff.2 rfl, hd.keys_iff⟩

theorem FoundAs.key_eq (h : FoundAs a key) (ha : HeaderName a) (hlen : a.length + 2 < BUF_SIZE) : key = verify_header a := by
  obtain ⟨t, harr⟩ := readsHeader_arrives [ha.field]
  obtain ⟨d, hdec, hval⟩ := h _ ha.field_spoken _ t [] rfl harr
  obtain ⟨d', hdec', hd⟩ := ha.field_spoken.decoded hlen rfl harr
  obtain rfl := hdec.unique hdec'
  exact hd.value_iff.1 hval

theorem StoredUnder.found (h : StoredUnder a key) : FoundAs a key := by
  intro f hf rq t rest hrq ha
  obtain ⟨d, hdec, hval, -⟩ := h f hf rq t rest hrq ha
  exact ⟨d, hdec, hval⟩

/-! ### Keys -/

/-- Whatever a line says, its key leaves room for a value in the buffer. -/
theorem entryOf_key {buf : Bytes} (hbuf : buf.length < BUF_SIZE) : ∀ e ∈ entryOf buf, e.1.length + 2 < BUF_SIZE := by
  intro e he
  have hshort := (entryOf_short hbuf e he).2
  have hvalue : e.2 ≠ [] := by
    unfold entryOf at he
    split at he
    · cases he
      exact nofun
    · cases he
  have := List.length_pos_iff.2 hvalue
  omega

theorem FoundAs.key_length (h : FoundAs a key) (ha : HeaderName a) : key.length + 2 < BUF_SIZE := by
  obtain ⟨t, harr⟩ := readsHeader_arrives [ha.field]
  obtain ⟨d, ⟨⟨c, s, hl, hx⟩, -⟩, hval⟩ := h _ ha.field_spoken _ t [] rfl harr
  obtain ⟨d', hx', hall⟩ :=
    (startScan_all _ fun k _ => k.length + 2 < BUF_SIZE).headerLoop (fun _ => entryOf_key) hl
  obtain rfl := Option.some.inj (hx.symm.trans hx')
  exact hall _ _ hval

theorem tolower_length (h : a.map tolower = b.map tolower) : a.length = b.length := by
  simpa using congrArg List.length h

theorem storedTogether_iff (ha : HeaderName a) (hb : HeaderName b) (h : a.map tolower = b.map tolower) :
    StoredTogether a b ↔ a.length + 2 < BUF_SIZE ∧ AgreeInside a b := by
  have hlen := tolower_length h
  rw [← verify_header_eq_iff h]
  constructor
  · rintro ⟨key, hkey, hsa, hsb⟩
    have hshort : a.length + 2 < BUF_SIZE := tolower_length hkey ▸ hsa.found.key_length ha
    exact ⟨hshort, (hsa.found.key_eq ha hshort).symm.trans (hsb.found.key_eq hb (hlen ▸ hshort))⟩
  · rintro ⟨hshort, hsame⟩
    exact ⟨_, verify_header_tolower a, storedUnder_short hshort, hsame ▸ storedUnder_short (hlen ▸ hshort)⟩

theorem serverKeys_canonical : ∀ key ∈ serverKeys, verify_header key = key ∧ key.length + 2 < BUF_SIZE := by decide

theorem foundAs_iff (ha : HeaderName a) (hkey : key ∈ serverKeys) (h : a.map tolower = key.map tolower) :
    FoundAs a key ↔ AgreeInside a key := by
  obtain ⟨hcanonical, hshort⟩ := serverKeys_canonical key hkey
  rw [← tolower_length h] at hshort
  have hagree := verify_header_eq_iff h
  rw [hcanonical] at hagree
  rw [← hagree]
  constructor
  · intro hfound
    exact (hfound.key_eq ha hshort).symm
  · rintro rfl
    exact (storedUnder_short hshort).found

/-- Two spellings of a name are stored under one key exactly if the line buffer has room for a value after
them and they agree wherever a letter neither starts the name nor follows a dash, and the server finds a
header exactly if it agrees there with the key that is looked up. -/
theorem header_names_case_iff (ha : HeaderName a) (hb : HeaderName b) (h : a.map tolower = b.map tolower) :
    (StoredTogether a b ↔ a.length + 2 < BUF_SIZE ∧ AgreeInside a b) ∧
      ∀ key ∈ serverKeys, a.map tolower = key.map tolower → (FoundAs a key ↔ AgreeInside a key) :=
  ⟨storedTogether_iff ha hb h, fun _ hkey hk => foundAs_iff ha hkey hk⟩

theorem header_names_case_iff_upgrade : StoredTogether (str "upgrade") (str "Upgrade") ∧ FoundAs (str "upgrade") (str "Upgrade") := by
  have ha : HeaderName (str "upgrade") := ⟨by decide, List.all_iff_forall_prop.1 (by decide), by decide, by decide⟩
  have hb : HeaderName (str "Upgrade") := ⟨by decide, List.all_iff_forall_prop.1 (by decide), by decide, by decide⟩
  have hagree : AgreeInside (str "upgrade") (str "Upgrade") := (verify_header_eq_iff (by decide)).1 (by decide)
  obtain ⟨h1, h2⟩ := header_names_case_iff ha hb (by decide)
  exact ⟨h1.2 ⟨by decide, hagree⟩, (h2 _ (by decide) (by decide)).2 hagree⟩

/-- A client that writes it in capitals has its body length overlooked. -/
theorem header_names_capitals : ¬ ∀ a b : Bytes, HeaderName a → HeaderName b → a.map tolower = b.map tolower →
    StoredTogether a b ∧ ∀ key ∈ serverKeys, a.map tolower = key.map tolower → FoundAs a key := by
  intro hall
  have ha : HeaderName (str "CONTENT-LENGTH") := ⟨by decide, List.all_iff_forall_prop.1 (by decide), by decide, by decide⟩
  obtain ⟨-, hfound⟩ := hall _ _ ha ha rfl
  have hkey := (hfound (str "Content-Length") (by decide) (by decide)).key_eq ha (by decide)
  exact absurd hkey (by decide)

end

end AntHttp
