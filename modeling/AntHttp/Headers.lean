import AntHttp.Limits
import AntHttp.Segments
import Mathlib.Data.Bool.AllAny
/-!
# The fields of a header

A header is a list of fields, each on a line of its own. `read_buf` hands a line
over in pieces of 2047 bytes, and `decode_request_header` takes each piece for a
line: the rest of a long line may look like a field, or like the empty line.
-/

namespace AntHttp

open CString

/-! ## Fields -/

/-- A name and what follows its colon. -/
structure HeaderField where
  name : Bytes
  value : Bytes
  name_ne : name ≠ []
  name_text : ∀ c ∈ name, c ≠ 58 ∧ c ≠ 13 ∧ c ≠ 10
  value_text : ∀ c ∈ value, c ≠ 13 ∧ c ≠ 10

namespace HeaderField

def text (f : HeaderField) : Bytes := f.name ++ 58 :: f.value

def line (f : HeaderField) : Bytes := f.text ++ [13, 10]

/-- The key and the value that the field stands for, unless its value is blank. -/
def entry (f : HeaderField) : Option (Bytes × Bytes) :=
  if trim f.value 32 = [] then none else some (verify_header (trim f.name 32), trim f.value 32)

end HeaderField

/-- The lines, and the empty one. -/
def headerBlock (fs : List HeaderField) : Bytes := fs.flatMap HeaderField.line ++ [13, 10]

/-- The value that is given to a key last. -/
def lastValue (es : List (Bytes × Bytes)) (k : Bytes) : Option Bytes := (es.reverse.find? (·.1 = k)).map (·.2)

/-- A dictionary with the last value of each key, and no other key. -/
structure HoldsEntries (es : List (Bytes × Bytes)) (d : Dictionary Bytes) : Prop where
  value : ∀ k, d.dvalue k = lastValue es k
  keys : ∀ k, k ∈ Dictionary.keys d.assocs ↔ (lastValue es k).isSome

def putAll (d : Dictionary Bytes) (es : List (Bytes × Bytes)) : Dictionary Bytes :=
  es.foldl (fun d e => d.dput e.1 (some e.2)) d

section

variable {es : List (Bytes × Bytes)} {k : Bytes} {f : HeaderField}

theorem lastValue_concat (es : List (Bytes × Bytes)) (e : Bytes × Bytes) (k : Bytes) :
    lastValue (es ++ [e]) k = if e.1 = k then some e.2 else lastValue es k := by
  rw [lastValue, List.reverse_append, List.reverse_singleton, List.singleton_append, List.find?_cons]
  by_cases h : e.1 = k <;> simp [h, lastValue]

/-- The entries hide what was there; every other key is as it was. -/
theorem putAll_dlookup_of (d : Dictionary Bytes) (es : List (Bytes × Bytes)) (k : Bytes) :
    (putAll d es).dlookup k = (lastValue es k).elim (d.dlookup k) fun v => some (k, some v) := by
  induction es using List.reverseRecOn with
  | nil => rfl
  | append_singleton es e ih =>
    rw [putAll, List.foldl_append, List.foldl_cons, List.foldl_nil, ← putAll, Dictionary.dlookup_dput, lastValue_concat, ih]
    by_cases h : e.1 = k
    · rw [if_pos h.symm, if_pos h, ← h]
      rfl
    · rw [if_neg (Ne.symm h), if_neg h]

theorem putAll_dlookup (es : List (Bytes × Bytes)) (k : Bytes) :
    (putAll .dict es).dlookup k = (lastValue es k).map fun v => (k, some v) := by
  rw [putAll_dlookup_of, show (Dictionary.dict : Dictionary Bytes).dlookup k = none from Dictionary.dlookup_dict_n 15 k]
  cases lastValue es k <;> rfl

theorem keyed_putAll (es : List (Bytes × Bytes)) : (putAll .dict es).Keyed := by
  induction es using List.reverseRecOn with
  | nil => exact Dictionary.keyed_dict_n 15
  | append_singleton es e ih =>
    rw [putAll, List.foldl_append]
    exact ih.dput e.1 (some e.2)

theorem holdsEntries_putAll (es : List (Bytes × Bytes)) : HoldsEntries es (putAll .dict es) where
  value k := by
    rw [Dictionary.dvalue, putAll_dlookup]
    cases lastValue es k <;> rfl
  keys k := by
    rw [(keyed_putAll es).mem_keys, putAll_dlookup, Option.isSome_map]

end

/-! ## What a line that is read puts into the dictionary -/

/-- The association that a line makes. -/
def entryOf (buf : Bytes) : Option (Bytes × Bytes) :=
  match (headerParts buf).2 with
  | some (c :: line) => some (verify_header (headerParts buf).1, c :: line)
  | _ => none

/-- A line in which nothing that is missing is looked at. -/
def Sound (buf : Bytes) : Prop := (headerParts buf).2.isSome ∨ (headerParts buf).1 = []

section

variable {s s' : HeaderScan} {buf : Bytes} {d : Dictionary Bytes}

theorem putHeader_entry (buf : Bytes) (d : Dictionary Bytes) :
    putHeader (some d) (headerParts buf).1 (headerParts buf).2 = .ok (some (putAll d (entryOf buf).toList)) := by
  unfold entryOf
  cases (headerParts buf).2 with
  | none => rfl
  | some line => cases line <;> rfl

/-- A line changes the dictionary by what it makes. -/
theorem headerLine_xheader (hx : s.xheader = some d) (h : headerLine s buf = .ok s') :
    s'.xheader = some (putAll d (entryOf buf).toList) := by
  unfold headerLine at h
  dsimp only at h
  rw [hx, putHeader_entry, Res.ok_bind] at h
  split at h
  · obtain ⟨_, -, h⟩ := Res.bind_ok.1 h
    cases h; rfl
  · split at h
    · obtain ⟨_, -, h⟩ := Res.bind_ok.1 h
      cases h; rfl
    · cases h; rfl

theorem headerLine_sound (hx : s.xheader = some d) (hq : Sound buf) : ∃ s', headerLine s buf = .ok s' := by
  unfold headerLine
  dsimp only
  rw [hx, putHeader_entry, Res.ok_bind]
  rcases hq with hq | hq
  · obtain ⟨line, hl⟩ := Option.isSome_iff_exists.1 hq
    rw [hl]
    split
    · exact ⟨_, rfl⟩
    · split <;> exact ⟨_, rfl⟩
  · rw [hq]
    exact ⟨_, rfl⟩

end

namespace HeaderField

variable {f : HeaderField}

theorem not_mem_text {c : UInt8} (hc : c = 13 ∨ c = 10) : c ∉ f.text := by
  intro h
  rcases List.mem_append.1 h with h | h
  · have ht := f.name_text c h
    rcases hc with rfl | rfl
    · exact ht.2.1 rfl
    · exact ht.2.2 rfl
  · rcases List.mem_cons.1 h with rfl | h
    · rcases hc with h | h <;> cases h
    · have ht := f.value_text c h
      rcases hc with rfl | rfl
      · exact ht.1 rfl
      · exact ht.2 rfl

theorem cstr_eq_self {s : Bytes} (h : 0 ∉ s) : cstr s = s := by
  rw [cstr, List.takeWhile_eq_self_iff]
  intro c hc
  exact decide_eq_true fun h0 => h (h0 ▸ hc)

/-- The name and the value of a line, with or without its line end. -/
theorem headerParts_text (h0 : 0 ∉ f.text) {tail : Bytes} (ht : tail ∈ [[], [13], [13, 10]]) :
    headerParts (f.text ++ tail) = (trim f.name 32, some (trim f.value 32)) := by
  have h10 := not_mem_text (f := f) (.inr rfl)
  have h13 := not_mem_text (f := f) (.inl rfl)
  have hcstr : cstr (f.text ++ tail) = f.text ++ tail := by
    apply cstr_eq_self
    simp only [List.mem_cons, List.not_mem_nil, or_false] at ht
    rcases ht with rfl | rfl | rfl <;> simp [h0]
  have htrim : trim (trim (f.text ++ tail) 10) 13 = f.text := by
    have h13' : trim f.text 13 = f.text := trim_eq_self h13
    have hcr : trim (f.text ++ [13]) 10 = f.text ++ [13] := trim_eq_self (by simp [h10])
    simp only [List.mem_cons, List.not_mem_nil, or_false] at ht
    rcases ht with rfl | rfl | rfl
    · rw [List.append_nil, trim_eq_self h10, h13']
    · rw [hcr, trim_concat, h13']
    · rw [List.append_cons, trim_concat, hcr, trim_concat, h13']
  have h58 : 58 ∉ f.name := fun h => (f.name_text _ h).1 rfl
  have hname : (f.text).takeWhile (· ≠ 58) = f.name := by
    rw [text, List.takeWhile_append_of_pos fun c hc => decide_eq_true (f.name_text c hc).1]
    simp
  have hvalue : (f.text).dropWhile (· ≠ 58) = 58 :: f.value := by
    rw [text, List.dropWhile_append_of_pos fun c hc => decide_eq_true (f.name_text c hc).1]
    simp
  have hmem : 58 ∈ f.text := by simp [text]
  unfold headerParts
  dsimp only
  rw [hcstr, htrim, strsep, if_pos hmem, hname, hvalue]
  rfl

theorem entryOf_text (h0 : 0 ∉ f.text) {tail : Bytes} (ht : tail ∈ [[], [13], [13, 10]]) :
    entryOf (f.text ++ tail) = f.entry ∧ Sound (f.text ++ tail) := by
  have hp := headerParts_text h0 ht
  constructor
  · unfold entryOf entry
    rw [hp]
    cases trim f.value 32 with
    | nil => rfl
    | cons c line => rfl
  · left
    rw [hp]
    rfl

/-- A name of one byte, and no value. -/
theorem text_of_shortest (h : f.line.length ≤ 4) : ∃ c, f.text = [c, 58] := by
  have hne := List.length_pos_iff.2 f.name_ne
  rw [line, List.length_append, text, List.length_append, List.length_cons] at h
  obtain ⟨c, hc⟩ : ∃ c, f.name = [c] := List.length_eq_one_iff.1 (by simp at h; omega)
  have hv : f.value = [] := List.length_eq_zero_iff.1 (by simp at h; omega)
  exact ⟨c, by rw [text, hc, hv]; rfl⟩

theorem entry_of_shortest (h : f.line.length ≤ 4) : f.entry = none := by
  have hne := List.length_pos_iff.2 f.name_ne
  rw [line, List.length_append, text, List.length_append, List.length_cons] at h
  have hv : f.value = [] := List.length_eq_zero_iff.1 (by simp at h; omega)
  rw [entry, hv]
  rfl

/-- The line fits in the buffer up to its newline, and is a string, or it says nothing. -/
def Fits (f : HeaderField) : Prop := f.line.length ≤ BUF_SIZE ∧ (0 ∈ f.line → f.line.length ≤ 4)

/-- The pieces in which such a line is read. -/
def pieces (f : HeaderField) : List Bytes :=
  if f.line.length < BUF_SIZE then [f.line] else [f.text ++ [13], [10]]

theorem flatten_pieces (f : HeaderField) : f.pieces.flatten = f.line := by
  unfold pieces line
  split <;> simp

theorem line_length (f : HeaderField) : f.line.length = f.text.length + 2 := by simp [line]

theorem Fits.pieces (h : f.Fits) : ∀ l ∈ f.pieces, Piece l := by
  have h10 : 10 ∉ f.text ++ [13] := by simp [not_mem_text (f := f) (.inr rfl)]
  have hlen := f.line_length
  have hle := h.1
  unfold HeaderField.pieces
  split
  · rename_i hlt
    intro l hl
    obtain rfl := List.mem_singleton.1 hl
    rw [line, List.append_cons]
    exact .line h10 (by simp; omega)
  · rename_i hge
    intro l hl
    simp only [List.mem_cons, List.not_mem_nil, or_false] at hl
    rcases hl with rfl | rfl
    · exact .full h10 (by simp; omega)
    · exact .line (a := []) nofun (by decide)

/-- A piece that starts a line is not the empty line. -/
theorem cstr_text_ne (f : HeaderField) (tail : Bytes) : cstr (f.text ++ tail) ≠ [13, 10] := by
  obtain ⟨c, name, hn⟩ := List.exists_cons_of_ne_nil f.name_ne
  have hc := f.name_text c (by rw [hn]; exact List.mem_cons_self)
  rw [text, hn, List.cons_append, List.cons_append]
  intro h
  by_cases h0 : c = 0
  · rw [cstr, h0, List.takeWhile_cons_of_neg (by simp)] at h
    cases h
  · rw [cstr, List.takeWhile_cons_of_pos (by simpa using h0)] at h
    exact hc.2.1 (List.cons.inj h).1

theorem Fits.entryOf (h : f.Fits) {tail : Bytes} (ht : tail ∈ [[], [13], [13, 10]]) :
    AntHttp.entryOf (f.text ++ tail) = f.entry ∧ Sound (f.text ++ tail) := by
  by_cases h0 : 0 ∈ f.text
  · have h4 := h.2 (List.mem_append_left _ h0)
    obtain ⟨c, hc⟩ := text_of_shortest h4
    rw [hc] at h0 ⊢
    have hc0 : c = 0 := by
      rcases List.mem_cons.1 h0 with h | h
      · exact h.symm
      · simp at h
    have hp : headerParts ([c, 58] ++ tail) = ([], none) := by
      rw [hc0]
      rfl
    rw [entry_of_shortest h4]
    refine ⟨?_, .inr (by rw [hp])⟩
    unfold AntHttp.entryOf
    rw [hp]
  · exact entryOf_text h0 ht

end HeaderField

section

variable {s : HeaderScan} {buf : Bytes} {d : Dictionary Bytes} {f : HeaderField}

/-- A line that is no empty one and in which nothing is missing. -/
theorem scanLines_line (hx : s.xheader = some d) (hq : Sound buf) (hne : cstr buf ≠ [13, 10])
    (hsize : s.header_size + buf.length ≤ HEADER_MAX_SIZE) :
    ∃ s', s'.xheader = some (putAll d (entryOf buf).toList) ∧ s'.header_size = s.header_size + buf.length ∧
      ∀ ls, scanLines s (buf :: ls) = scanLines s' ls := by
  obtain ⟨s', hs'⟩ := headerLine_sound hx hq
  have hlen := headerLine_size hs'
  refine ⟨s', headerLine_xheader hx hs', hlen, fun ls => ?_⟩
  rw [scanLines, if_neg hne, hs', Res.ok_bind, if_neg (by omega)]

/-- A field whose line fits adds its entry. -/
theorem scanLines_field (hf : f.Fits) (hx : s.xheader = some d) (hsize : s.header_size + f.line.length ≤ HEADER_MAX_SIZE) :
    ∃ s', s'.xheader = some (putAll d f.entry.toList) ∧ s'.header_size = s.header_size + f.line.length ∧
      ∀ ls, scanLines s (f.pieces ++ ls) = scanLines s' ls := by
  have hlen := f.line_length
  unfold HeaderField.pieces
  split
  · have ht : [13, 10] ∈ ([[], [13], [13, 10]] : List Bytes) := by simp
    obtain ⟨he, hq⟩ := hf.entryOf ht
    obtain ⟨s', hx', hs', h⟩ := scanLines_line hx hq (f.cstr_text_ne _) hsize
    exact ⟨s', he ▸ hx', hs', h⟩
  · -- only the newline is left for the next piece
    have ht : [13] ∈ ([[], [13], [13, 10]] : List Bytes) := by simp
    obtain ⟨he, hq⟩ := hf.entryOf ht
    obtain ⟨s₁, hx₁, hs₁, h₁⟩ := scanLines_line hx hq (f.cstr_text_ne _) (by simp; omega)
    obtain ⟨s₂, hx₂, hs₂, h₂⟩ := @scanLines_line s₁ [10] _ hx₁ (.inr rfl) (by decide) (by simp at hs₁ ⊢; omega)
    refine ⟨s₂, ?_, by simp at hs₁ hs₂; omega, fun ls => (h₁ _).trans (h₂ ls)⟩
    rw [hx₂, he]
    rfl

/-- No line is cut where it matters: the last line may be as long as the buffer without its line
end, as far as those after it say nothing. -/
def Uncut : List HeaderField → Prop
  | [] => True
  | f :: fs => (0 ∈ f.line → f.line.length ≤ 4) ∧
    (f.line.length ≤ BUF_SIZE ∨ (f.line.length = BUF_SIZE + 1 ∧ ∀ g ∈ fs, g.line.length ≤ 4)) ∧ Uncut fs

theorem putAll_append (d : Dictionary Bytes) (es es' : List (Bytes × Bytes)) :
    putAll d (es ++ es') = putAll (putAll d es) es' := List.foldl_append ..

theorem headerBlock_cons (f : HeaderField) (fs : List HeaderField) : headerBlock (f :: fs) = f.line ++ headerBlock fs := by
  simp [headerBlock]

/-- The pieces of an uncut header, up to the one that is taken for its end. -/
theorem scanLines_uncut {fs : List HeaderField} (h : Uncut fs) (hx : s.xheader = some d)
    (hsize : s.header_size + (headerBlock fs).length ≤ HEADER_MAX_SIZE) :
    ∃ ls more s', (∀ l ∈ ls, Piece l) ∧ ls.flatten ++ more = headerBlock fs ∧ scanLines s ls = .ok (.complete, s') ∧
      s'.xheader = some (putAll d (fs.filterMap HeaderField.entry)) := by
  induction fs generalizing s d with
  | nil =>
    refine ⟨[[13, 10]], [], s, ?_, rfl, if_pos rfl, hx⟩
    intro l hl
    rw [List.mem_singleton.1 hl]
    exact .line (a := [13]) (by decide) (by decide)
  | cons f fs ih =>
    obtain ⟨h0, hlen, hfs⟩ := h
    rw [headerBlock_cons, List.length_append] at hsize
    rw [headerBlock_cons]
    rcases hlen with hlen | ⟨hlen, hrest⟩
    · -- the pieces of this line make one entry at most, and the fields after it are read in the state they leave
      have hf : f.Fits := ⟨hlen, h0⟩
      obtain ⟨s₁, hx₁, hs₁, h₁⟩ := scanLines_field hf hx (by omega)
      obtain ⟨ls, more, s', hls, hflat, hscan, hx'⟩ := ih hfs hx₁ (by omega)
      refine ⟨f.pieces ++ ls, more, s', List.forall_mem_append.2 ⟨hf.pieces, hls⟩, ?_, (h₁ ls).trans hscan, ?_⟩
      · rw [List.flatten_append, f.flatten_pieces, List.append_assoc, hflat]
      · rw [hx', ← putAll_append]
        cases he : f.entry <;> simp [he]
    · -- the line end of this line is read as the empty line
      have hbuf : BUF_SIZE = 2048 := rfl
      have h0' : 0 ∉ f.text := fun hmem => by
        have := h0 (List.mem_append_left _ hmem)
        omega
      have htext := f.line_length
      have hnil : [] ∈ ([[], [13], [13, 10]] : List Bytes) := by simp
      obtain ⟨he, hq⟩ := HeaderField.entryOf_text h0' hnil
      have hne := f.cstr_text_ne []
      rw [List.append_nil] at he hq hne
      obtain ⟨s₁, hx₁, -, h₁⟩ := scanLines_line hx hq hne (by omega)
      have hend : scanLines s₁ [[13, 10]] = .ok (.complete, s₁) := if_pos rfl
      have hnone : fs.filterMap HeaderField.entry = [] := by
        rw [List.filterMap_eq_nil_iff]
        intro g hg
        exact HeaderField.entry_of_shortest (hrest g hg)
      refine ⟨[f.text, [13, 10]], headerBlock fs, s₁, ?_, ?_, (h₁ _).trans hend, ?_⟩
      · intro l hl
        simp only [List.mem_cons, List.not_mem_nil, or_false] at hl
        rcases hl with rfl | rfl
        · exact .full (HeaderField.not_mem_text (.inr rfl)) (by omega)
        · exact .line (a := [13]) (by decide) (by decide)
      · simp [HeaderField.line]
      · rw [hx₁, he]
        cases hentry : f.entry <;> simp [hentry, hnone]

/-- How the loop over the header starts. -/
def startScan (rq : Request) : HeaderScan := ⟨rq.REQUEST_HEADER, none, none, 0⟩

/-- The header of the request is read to its end, and `d` is the dictionary that it has afterwards. -/
def DecodesTo (rq : Request) (d : Dictionary Bytes) : Prop :=
  (∃ c s, headerLoop (rq.set_state .HEADER_DECODE).client (startScan rq) = .ok (.complete, c, s) ∧ s.xheader = some d) ∧
    ∀ sys cnf t rq', decode_request_header sys cnf rq = .ok (t, rq') → rq'.REQUEST_HEADER = some d

/-- The dictionary has the last value of each field and nothing else. -/
def HeaderDecoded (rq : Request) (fs : List HeaderField) : Prop :=
  ∃ d, HoldsEntries (fs.filterMap HeaderField.entry) d ∧ DecodesTo rq d

theorem decode_request_header_complete {sys : Sys} {cnf : Config} {rq rq' : Request} {t : Task} {c : Client}
    (hl : headerLoop (rq.set_state .HEADER_DECODE).client (startScan rq) = .ok (.complete, c, s)) (hx : s.xheader = some d)
    (h : decode_request_header sys cnf rq = .ok (t, rq')) : rq'.REQUEST_HEADER = some d := by
  obtain ⟨pcnf, -, h⟩ := Res.bind_ok.1 h
  obtain ⟨p, hp, h⟩ := Res.bind_ok.1 h
  obtain rfl := Except.ok.inj (hl.symm.trans hp)
  obtain ⟨xheader, -, h⟩ := Res.bind_ok.1 h
  split at h
  · cases h
    exact hx
  · obtain ⟨z, -, h⟩ := Res.bind_ok.1 h
    exact (rewriteRequest_header h).trans hx

/-- Every request whose header arrives without a pause gets its fields. -/
def HeaderRight (fs : List HeaderField) : Prop :=
  ∀ (rq : Request) (t : Int) (rest : List RecvEv), rq.REQUEST_HEADER = some .dict →
    Arrives rq.client.last_io (headerBlock fs) rq.client.input t rest → HeaderDecoded rq fs

theorem Uncut.headerRight {fs : List HeaderField} (h : Uncut fs) (hsize : (headerBlock fs).length ≤ HEADER_MAX_SIZE) :
    HeaderRight fs := by
  intro rq t rest hrq ha
  obtain ⟨ls, more, s', hls, hflat, hscan, hx'⟩ := scanLines_uncut (s := startScan rq) h hrq
    (by rw [startScan, Nat.zero_add]; exact hsize)
  rw [← hflat] at ha
  have hscanned := Arrives.scanLines (c := (rq.set_state .HEADER_DECODE).client) (startScan rq) hls ha
  rw [hscan] at hscanned
  cases hscanned with
  | ended _ hl _ =>
    exact ⟨_, holdsEntries_putAll _, ⟨_, s', hl, hx'⟩, fun sys cnf t rq' => decode_request_header_complete hl hx'⟩

end

/-! ## A header that is cut -/

/-- What holds of every association that has been made. -/
def HeaderScan.All (s : HeaderScan) (P : Bytes → Bytes → Prop) : Prop :=
  ∃ d, s.xheader = some d ∧ ∀ k v, d.dvalue k = some v → P k v

section

variable {P : Bytes → Bytes → Prop} {s s' : HeaderScan} {buf : Bytes} {ls : List Bytes}

theorem HeaderScan.All.headerLine (hs : s.All P) (hb : ∀ e ∈ entryOf buf, P e.1 e.2) (h : headerLine s buf = .ok s') :
    s'.All P := by
  obtain ⟨d, hx, hd⟩ := hs
  refine ⟨_, headerLine_xheader hx h, ?_⟩
  intro k v hv
  cases he : entryOf buf with
  | none =>
    rw [he] at hv
    exact hd k v hv
  | some e =>
    rw [he, Option.toList_some, putAll, List.foldl_cons, List.foldl_nil, Dictionary.dvalue_dput] at hv
    split at hv
    · rename_i hk
      obtain rfl := Option.some.inj hv
      rw [hk]
      exact hb e he
    · exact hd k v hv

theorem HeaderScan.All.scanLines {e : HeaderEnd} (hs : s.All P) (hls : ∀ l ∈ ls, ∀ e ∈ entryOf l, P e.1 e.2)
    (h : scanLines s ls = .ok (e, s')) : s'.All P := by
  induction ls generalizing s with
  | nil =>
    cases h
    exact hs
  | cons l ls ih =>
    rw [AntHttp.scanLines] at h
    split at h
    · cases h
      exact hs
    · obtain ⟨s₁, hs₁, h⟩ := Res.bind_ok.1 h
      have hall := hs.headerLine (hls l List.mem_cons_self) hs₁
      split at h
      · cases h
        exact hall
      · exact ih hall (fun l' hl' => hls l' (List.mem_cons_of_mem _ hl')) h

/-- A read fills the buffer up to the place of its NUL. -/
theorem readLoop_length (n : Nat) (c : Client) : (readLoop n c).1.length ≤ n := by
  induction n generalizing c with
  | zero => exact Nat.le_refl 0
  | succ n ih =>
    unfold readLoop
    split
    · split
      · simp
      · exact Nat.succ_le_succ (ih _)
    · exact Nat.zero_le _

theorem HeaderScan.All.headerLoop {c c' : Client} {e : HeaderEnd} (hs : s.All P)
    (hb : ∀ buf : Bytes, buf.length < BUF_SIZE → ∀ e ∈ entryOf buf, P e.1 e.2)
    (h : headerLoop c s = .ok (e, c', s')) : s'.All P := by
  fun_induction AntHttp.headerLoop c s with
  | case1 c s c₁ hr =>
    cases h
    exact hs
  | case2 c s b line c₁ hr hcr =>
    cases h
    exact hs
  | case3 c s b line c₁ hr hcr ih =>
    have hlen : (b :: line).length < BUF_SIZE := by
      have := readLoop_length (BUF_SIZE - 1) c
      rw [← read_buf, hr] at this
      exact Nat.lt_of_le_of_lt this (by decide)
    obtain ⟨s₁, hl, h⟩ := Res.bind_ok.1 h
    have hall := hs.headerLine (hb _ hlen) hl
    split at h
    · cases h
      exact hall
    · exact ih s₁ hall h

/-! ### What a line can say -/

theorem trim_isInfix (s : Bytes) (d : UInt8) : trim s d <:+: s :=
  ((List.dropWhile_suffix _).isInfix).trans (List.rdropWhile_prefix (p := (· = d)) (l := s)).isInfix

theorem verify_header_length (k : Bytes) : (verify_header k).length = k.length := by
  have h (prev : UInt8) (k : Bytes) : (upperAfterDash prev k).length = k.length := by
    induction k generalizing prev with
    | nil => rfl
    | cons c k ih => rw [upperAfterDash, List.length_cons, List.length_cons, ih]
  cases k with
  | nil => rfl
  | cons c k => rw [verify_header, List.length_cons, List.length_cons, h]

/-- Each letter of a key is one of the name, or its capital. -/
theorem mem_verify_header {c : UInt8} {k : Bytes} (h : c ∈ verify_header k) : ∃ b ∈ k, c = b ∨ c = toupper b := by
  have htail (prev : UInt8) (k : Bytes) (h : c ∈ upperAfterDash prev k) : ∃ b ∈ k, c = b ∨ c = toupper b := by
    induction k generalizing prev with
    | nil => cases h
    | cons b k ih =>
      rcases List.mem_cons.1 h with h | h
      · refine ⟨b, List.mem_cons_self, ?_⟩
        split at h
        · exact .inr h
        · exact .inl h
      · obtain ⟨b', hb', h⟩ := ih b h
        exact ⟨b', List.mem_cons_of_mem _ hb', h⟩
  cases k with
  | nil => cases h
  | cons b k =>
    rcases List.mem_cons.1 h with h | h
    · exact ⟨b, List.mem_cons_self, .inr h⟩
    · obtain ⟨b', hb', h⟩ := htail b k h
      exact ⟨b', List.mem_cons_of_mem _ hb', h⟩

/-- The name and the value are parts of the line, with a colon between them, and the line ends at its first NUL. -/
theorem entryOf_cases {buf : Bytes} {e : Bytes × Bytes} (h : e ∈ entryOf buf) :
    ∃ name value, name ++ 58 :: value <:+: cstr buf ∧ e = (verify_header (trim name 32), trim value 32) := by
  generalize hx : trim (trim (cstr buf) 10) 13 = x
  have hpart : x <:+: cstr buf := hx ▸ (trim_isInfix _ _).trans (trim_isInfix _ _)
  unfold entryOf headerParts at h
  dsimp only at h
  rw [hx, strsep] at h
  by_cases h58 : 58 ∈ x
  · rw [if_pos h58] at h
    dsimp only at h
    obtain ⟨value, hvalue⟩ : ∃ value, x.dropWhile (· ≠ 58) = 58 :: value := by
      have hne : x.dropWhile (· ≠ 58) ≠ [] := fun hnil => by
        have := List.dropWhile_eq_nil_iff.1 hnil 58 h58
        simp at this
      obtain ⟨c, value, hc⟩ := List.exists_cons_of_ne_nil hne
      have hhead := List.head_dropWhile_not (fun c : UInt8 => decide (c ≠ 58)) (l := x) hne
      simp only [hc, List.head_cons] at hhead
      exact ⟨value, by rw [hc]; simpa using hhead⟩
    refine ⟨x.takeWhile (· ≠ 58), value, ?_, ?_⟩
    · rw [← hvalue, List.takeWhile_append_dropWhile]
      exact hpart
    · rw [hvalue, List.tail_cons, Option.map_some] at h
      cases hv : trim value 32 with
      | nil =>
        rw [hv] at h
        cases h
      | cons c line =>
        rw [hv] at h
        exact (Option.some.inj h).symm
  · rw [if_neg h58] at h
    cases h

end

/-! ### Headers with lines of the same lengths -/

namespace HeaderField

/-- The lines have the same length, and a NUL or none. -/
def Alike (f g : HeaderField) : Prop := g.line.length = f.line.length ∧ (0 ∈ g.line ↔ 0 ∈ f.line)

/-- A character that may stand in a name. -/
def NameChar (c : UInt8) : Prop := c ≠ 58 ∧ c ≠ 13 ∧ c ≠ 10

instance (c : UInt8) : Decidable (NameChar c) := inferInstanceAs (Decidable (_ ∧ _))

/-- A field with a line alike: the name is one letter, and another one fills the value. -/
def respell (c pad : UInt8) (hc : NameChar c) (hp : NameChar pad) (f : HeaderField) : HeaderField where
  name := if f.line.length ≤ 4 ∧ 0 ∈ f.line then [0] else [c]
  value := if f.line.length ≤ 4 then [] else if 0 ∈ f.line then 0 :: List.replicate (f.line.length - 5) pad
    else List.replicate (f.line.length - 4) pad
  name_ne := by split <;> nofun
  name_text := by
    intro b hb
    split at hb
    · rw [List.mem_singleton.1 hb]
      decide
    · rw [List.mem_singleton.1 hb]
      exact hc
  value_text := by
    have hpad : ∀ n, ∀ b ∈ List.replicate n pad, b ≠ 13 ∧ b ≠ 10 := by
      intro n b hb
      rw [List.eq_of_mem_replicate hb]
      exact hp.2
    intro b hb
    split at hb
    · cases hb
    · split at hb
      · rcases List.mem_cons.1 hb with rfl | hb
        · decide
        · exact hpad _ b hb
      · exact hpad _ b hb

variable {f : HeaderField} {c pad : UInt8} {hc : NameChar c} {hp : NameChar pad}

theorem four_le_line (f : HeaderField) : 4 ≤ f.line.length := by
  have hne := List.length_pos_iff.2 f.name_ne
  rw [line_length, text, List.length_append, List.length_cons]
  omega

/-- The bytes of the line. -/
theorem mem_respell {b : UInt8} (h : b ∈ (f.respell c pad hc hp).text) : b ∈ [0, c, pad, 58] := by
  rcases List.mem_append.1 h with h | h
  · simp only [respell] at h
    split at h <;> simp_all
  · rcases List.mem_cons.1 h with rfl | h
    · simp
    · simp only [respell] at h
      split at h
      · cases h
      · split at h
        · rcases List.mem_cons.1 h with rfl | h
          · simp
          · simp [List.eq_of_mem_replicate h]
        · simp [List.eq_of_mem_replicate h]

theorem respell_name (h : 4 < f.line.length) : (f.respell c pad hc hp).name = [c] := if_neg fun h' => absurd h'.1 (by omega)

theorem respell_value (h : 4 < f.line.length) : (f.respell c pad hc hp).value =
    if 0 ∈ f.line then 0 :: List.replicate (f.line.length - 5) pad else List.replicate (f.line.length - 4) pad :=
  if_neg (by omega)

theorem respell_value_length (h : 4 < f.line.length) : (f.respell c pad hc hp).value.length = f.line.length - 4 := by
  rw [respell_value h]
  split <;> simp
  omega

theorem respell_alike (h0 : c ≠ 0) (hpad : pad ≠ 0) : f.Alike (f.respell c pad hc hp) := by
  have h4 := f.four_le_line
  by_cases hlen : 4 < f.line.length
  · have hv : (f.respell c pad hc hp).value.length = _ := respell_value_length hlen
    refine ⟨?_, ?_⟩
    · rw [line_length, text, respell_name hlen, List.length_append]
      simp [hv]
      omega
    · rw [line, text, respell_name hlen, respell_value hlen]
      by_cases hz : 0 ∈ f.line
      · simp [hz]
      · simp [hz, List.mem_replicate, h0.symm, hpad.symm]
  · have hle : f.line.length ≤ 4 := by omega
    refine ⟨?_, ?_⟩
    · rw [line_length, text]
      simp only [respell, hle, if_true, true_and]
      split <;> simp <;> omega
    · rw [line, text]
      simp only [respell, hle, if_true, true_and]
      by_cases hz : 0 ∈ f.line
      · simp [hz]
      · simp [hz, h0.symm]

/-- A field without letters that matter: a line of blanks, as far as it has room. -/
def filler (f : HeaderField) : HeaderField := f.respell 98 32 (by decide) (by decide)

/-- A field with the key `A` and a value that fills the line. -/
def target (f : HeaderField) : HeaderField := f.respell 97 120 (by decide) (by decide)

theorem target_entry (h : 4 < f.line.length) : f.target.entry = some ([65], f.target.value) := by
  have hname : f.target.name = [97] := respell_name h
  have hval : f.target.value = _ := respell_value h
  have hlen : f.target.value.length = _ := respell_value_length h
  have htrim : trim f.target.value 32 = f.target.value := by
    apply trim_eq_self
    intro hmem
    rw [hval] at hmem
    split at hmem <;> simp at hmem
  have hne : f.target.value ≠ [] := by
    rw [← List.length_pos_iff, hlen]
    omega
  rw [entry, htrim, if_neg hne, hname]
  rfl

end HeaderField

theorem toupper_eq_A {b : UInt8} (h : toupper b = 65) : b = 65 ∨ b = 97 := by
  grind [toupper, islower]

/-- A name without the letter does not become the key `A`. -/
theorem verify_header_ne {k : Bytes} (h : ∀ c ∈ k, c ≠ 65 ∧ c ≠ 97) : verify_header k ≠ [65] := by
  intro hk
  obtain ⟨b, hb, hc⟩ := mem_verify_header (c := 65) (k := k) (by rw [hk]; exact List.mem_cons_self)
  obtain ⟨h65, h97⟩ := h b hb
  rcases hc with hc | hc
  · exact h65 hc.symm
  · exact (toupper_eq_A hc.symm).elim h65 h97

theorem entryOf_ne {buf : Bytes} (h : ∀ c ∈ buf, c ≠ 65 ∧ c ≠ 97) : ∀ e ∈ entryOf buf, e.1 ≠ [65] := by
  intro e he
  obtain ⟨name, value, hpart, rfl⟩ := entryOf_cases he
  apply verify_header_ne
  intro c hc
  have hname : c ∈ name ++ 58 :: value := List.mem_append_left _ ((trim_isInfix name 32).subset hc)
  exact h c ((cstr_isPrefix buf).subset (hpart.subset hname))

theorem HeaderField.filler_text (f : HeaderField) : ∀ c ∈ f.filler.text, c ≠ 65 ∧ c ≠ 97 := by
  intro c hc
  have h := mem_respell hc
  simp only [List.mem_cons, List.not_mem_nil, or_false] at h
  rcases h with rfl | rfl | rfl | rfl <;> decide

theorem HeaderField.filler_entry (f : HeaderField) : ∀ e ∈ f.filler.entry, e.1 ≠ [65] := by
  intro e he
  unfold entry at he
  split at he
  · cases he
  · obtain rfl := Option.some.inj he
    apply verify_header_ne
    intro c hc
    exact f.filler_text c (List.mem_append_left _ ((trim_isInfix _ 32).subset hc))

section

variable {xs zs fs gs : List HeaderField} {f y : HeaderField} {es : List (Bytes × Bytes)} {k : Bytes}

theorem lastValue_append (es es' : List (Bytes × Bytes)) (k : Bytes) :
    lastValue (es ++ es') k = (lastValue es' k).or (lastValue es k) := by
  induction es' using List.reverseRecOn with
  | nil => simp [lastValue]
  | append_singleton es' e ih =>
    rw [← List.append_assoc, lastValue_concat, lastValue_concat, ih]
    split <;> rfl

theorem lastValue_none (h : ∀ e ∈ es, e.1 ≠ k) : lastValue es k = none := by
  rw [lastValue, Option.map_eq_none_iff, List.find?_eq_none]
  intro e he
  simpa using h e (List.mem_reverse.1 he)

/-- The field whose key is `A` among fillers. -/
def around (xs : List HeaderField) (y : HeaderField) (zs : List HeaderField) : List HeaderField :=
  xs.map HeaderField.filler ++ y.target :: zs.map HeaderField.filler

theorem around_alike (xs : List HeaderField) (y : HeaderField) (zs : List HeaderField) :
    List.Forall₂ HeaderField.Alike (xs ++ y :: zs) (around xs y zs) := by
  have hfill (l : List HeaderField) : List.Forall₂ HeaderField.Alike l (l.map HeaderField.filler) := by
    induction l with
    | nil => exact .nil
    | cons x l ih => exact .cons (HeaderField.respell_alike (by decide) (by decide)) ih
  exact List.rel_append (hfill xs) (.cons (HeaderField.respell_alike (by decide) (by decide)) (hfill zs))

theorem around_lastValue (xs zs : List HeaderField) (hy : 4 < y.line.length) :
    lastValue ((around xs y zs).filterMap HeaderField.entry) [65] = some y.target.value := by
  have hfill (l : List HeaderField) : lastValue ((l.map HeaderField.filler).filterMap HeaderField.entry) [65] = none := by
    apply lastValue_none
    intro e he
    obtain ⟨g, hg, he⟩ := List.mem_filterMap.1 he
    obtain ⟨f, -, rfl⟩ := List.mem_map.1 hg
    exact f.filler_entry e he
  rw [around, List.filterMap_append, List.filterMap_cons, HeaderField.target_entry hy, List.append_cons, lastValue_append,
    lastValue_concat, hfill zs, if_pos rfl, Option.none_or]

/-- The request that reads such a header. -/
def readsHeader (fs : List HeaderField) : Request := sampleHeader (atOnce (headerBlock fs))

theorem readsHeader_arrives (fs : List HeaderField) :
    ∃ t, Arrives (readsHeader fs).client.last_io (headerBlock fs) (readsHeader fs).client.input t [] := by
  obtain ⟨t, ha⟩ := arrives_bytes (readsHeader fs).client.last_io 0 (headerBlock fs) []
  rw [List.append_nil] at ha
  exact ⟨t, ha⟩

theorem readsHeader_decoded (h : HeaderRight fs) : HeaderDecoded (readsHeader fs) fs := by
  obtain ⟨t, ha⟩ := readsHeader_arrives fs
  exact h (readsHeader fs) t [] rfl ha

/-- A value has no NUL, and comes from a line that fits in the buffer with its name. -/
theorem entryOf_short {buf : Bytes} (hbuf : buf.length < BUF_SIZE) :
    ∀ e ∈ entryOf buf, 0 ∉ e.2 ∧ e.1.length + e.2.length + 1 < BUF_SIZE := by
  intro e he
  obtain ⟨name, value, hpart, rfl⟩ := entryOf_cases he
  have hlen := hpart.length_le
  have hpre := (cstr_isPrefix buf).length_le
  have hname := (trim_isInfix name 32).length_le
  have hvalue := (trim_isInfix value 32).length_le
  constructor
  · intro h0
    have hmem : 0 ∈ cstr buf := hpart.subset (List.mem_append_right _ (List.mem_cons_of_mem _ ((trim_isInfix _ _).subset h0)))
    simpa using List.mem_takeWhile_imp hmem
  · rw [List.length_append, List.length_cons] at hlen
    dsimp only
    rw [verify_header_length]
    omega

theorem startScan_all (fs : List HeaderField) (P : Bytes → Bytes → Prop) : (startScan (readsHeader fs)).All P := by
  refine ⟨.dict, rfl, ?_⟩
  intro k v hv
  rw [Dictionary.dict, Dictionary.dvalue_dict_n] at hv
  cases hv

/-- A value with a NUL, or one that is too long for the buffer, is not decoded. -/
theorem around_wrong (hy : 4 < y.line.length) (hbad : 0 ∈ y.line ∨ BUF_SIZE + 1 < y.line.length) :
    ¬ HeaderRight (around xs y zs) := by
  intro hright
  obtain ⟨d, hd, ⟨c, s, hl, hx⟩, -⟩ := readsHeader_decoded hright
  have hval := (hd.value [65]).trans (around_lastValue xs zs hy)
  obtain ⟨d', hx', hall⟩ :=
    (startScan_all _ fun k v => 0 ∉ v ∧ k.length + v.length + 1 < BUF_SIZE).headerLoop (fun _ => entryOf_short) hl
  obtain rfl := Option.some.inj (hx.symm.trans hx')
  obtain ⟨h0, hlen⟩ := hall _ _ hval
  have hv : y.target.value = _ := HeaderField.respell_value hy
  have hn : y.target.value.length = _ := HeaderField.respell_value_length hy
  rcases hbad with hz | hlong
  · rw [hv, if_pos hz] at h0
    exact h0 List.mem_cons_self
  · rw [hn] at hlen
    simp at hlen
    omega

theorem headerBlock_append (fs gs : List HeaderField) : headerBlock (fs ++ gs) = fs.flatMap HeaderField.line ++ headerBlock gs := by
  simp [headerBlock]

theorem closed_lines (fs : List HeaderField) : Closed (fs.flatMap HeaderField.line) := by
  induction fs using List.reverseRecOn with
  | nil => exact closed_nil
  | append_singleton fs f =>
    have h : (fs ++ [f]).flatMap HeaderField.line = fs.flatMap HeaderField.line ++ f.text ++ [13] ++ [10] := by
      simp [HeaderField.line]
    rw [h]
    exact closed_line _

/-- The loop has read no further than the pieces that end the header. -/
theorem headerLoop_pieces {c c' : Client} {s s' : HeaderScan} {e : HeaderEnd} {ls : List Bytes} {more : Bytes} {t : Int}
    {rest : List RecvEv} (hls : ∀ l ∈ ls, Piece l) (hends : HeaderEnds ls)
    (ha : Arrives c.last_io (ls.flatten ++ more) c.input t rest) (hl : headerLoop c s = .ok (e, c', s')) :
    scanLines s ls = .ok (e, s') := by
  have hscan := Arrives.scanLines s hls ha
  cases hres : scanLines s ls with
  | error e =>
    rw [hres] at hscan
    cases hscan with
    | fault hf =>
      rw [hl] at hf
      cases hf
  | ok r =>
    rw [hres] at hscan
    cases hscan with
    | more => exact absurd hres (hends.not_wait _ _)
    | ended _ he _ =>
      cases Except.ok.inj (hl.symm.trans he)
      rfl

/-- The pieces of a header up to the line end of a line whose text fills the buffer. -/
theorem fillers_pieces (hf : f.line.length = BUF_SIZE + 1) : ∃ ls, (∀ l ∈ ls, Piece l) ∧ HeaderEnds ls ∧
    (∀ l ∈ ls, ∀ e ∈ entryOf l, e.1 ≠ [65]) ∧
    ls.flatten = (xs.map HeaderField.filler).flatMap HeaderField.line ++ f.filler.line := by
  obtain ⟨ls, hls, hflat⟩ := (closed_lines (xs.map HeaderField.filler)).pieces
  have hfill : f.filler.line.length = BUF_SIZE + 1 := (HeaderField.respell_alike (by decide) (by decide)).1.trans hf
  have htext := f.filler.line_length
  refine ⟨ls ++ [f.filler.text, [13, 10]], ?_, .inl ⟨[13, 10], by simp, rfl⟩, ?_, by simp [hflat, HeaderField.line]⟩
  · refine List.forall_mem_append.2 ⟨hls, ?_⟩
    intro l hl
    simp only [List.mem_cons, List.not_mem_nil, or_false] at hl
    rcases hl with rfl | rfl
    · exact .full (HeaderField.not_mem_text (.inr rfl)) (by omega)
    · exact .line (a := [13]) (by decide) (by decide)
  · intro l hl
    apply entryOf_ne
    intro c hc
    rcases List.mem_append.1 hl with hl | hl
    · have hmem : c ∈ ls.flatten := List.mem_flatten.2 ⟨l, hl, hc⟩
      rw [hflat] at hmem
      obtain ⟨g, hg, hc⟩ := List.mem_flatMap.1 hmem
      obtain ⟨x, -, rfl⟩ := List.mem_map.1 hg
      rcases List.mem_append.1 hc with hc | hc
      · exact x.filler_text c hc
      · simp only [List.mem_cons, List.not_mem_nil, or_false] at hc
        rcases hc with rfl | rfl <;> decide
    · simp only [List.mem_cons, List.not_mem_nil, or_false] at hl
      rcases hl with rfl | rfl
      · exact f.filler_text c hc
      · simp only [List.mem_cons, List.not_mem_nil, or_false] at hc
        rcases hc with rfl | rfl <;> decide

/-- What comes after a line whose text fills the buffer is not read. -/
theorem around_unread (hf : f.line.length = BUF_SIZE + 1) (hy : 4 < y.line.length) :
    ¬ HeaderRight (around (xs ++ f :: fs) y zs) := by
  intro hright
  obtain ⟨d, hd, ⟨c, s, hl, hx⟩, -⟩ := readsHeader_decoded hright
  have hval := (hd.value [65]).trans (around_lastValue (xs ++ f :: fs) zs hy)
  obtain ⟨ls, hls, hends, hquiet, hflat⟩ := @fillers_pieces xs f hf
  have hblock : headerBlock (around (xs ++ f :: fs) y zs) = ls.flatten ++
      headerBlock (fs.map HeaderField.filler ++ y.target :: zs.map HeaderField.filler) := by
    rw [around, List.map_append, List.map_cons, List.append_assoc, headerBlock_append, List.cons_append, headerBlock_cons,
      hflat, List.append_assoc]
  obtain ⟨t, ha⟩ := readsHeader_arrives (around (xs ++ f :: fs) y zs)
  rw [hblock] at ha
  have hscan := headerLoop_pieces (c := ((readsHeader _).set_state .HEADER_DECODE).client) hls hends ha hl
  obtain ⟨d', hx', hne⟩ := (startScan_all _ fun k _ => k ≠ [65]).scanLines hquiet hscan
  obtain rfl := Option.some.inj (hx.symm.trans hx')
  exact hne _ _ hval rfl

/-- How a header may fail to be uncut. -/
theorem not_uncut (h : ¬ Uncut fs) : ∃ xs f zs, fs = xs ++ f :: zs ∧ ((4 < f.line.length ∧ (0 ∈ f.line ∨ BUF_SIZE + 1 < f.line.length)) ∨
    (f.line.length = BUF_SIZE + 1 ∧ ∃ g ∈ zs, 4 < g.line.length)) := by
  induction fs with
  | nil => exact absurd trivial h
  | cons f fs ih =>
    by_cases hu : Uncut fs
    · refine ⟨[], f, fs, rfl, ?_⟩
      have hbuf : BUF_SIZE = 2048 := rfl
      by_contra hgood
      push Not at hgood
      obtain ⟨h1, h2⟩ := hgood
      refine h ⟨fun h0 => ?_, ?_, hu⟩
      · by_contra hlt
        exact (h1 (by omega)).1 h0
      · rcases Nat.lt_or_ge BUF_SIZE f.line.length with hlt | hle
        · have hle := (h1 (by omega)).2
          have heq : f.line.length = BUF_SIZE + 1 := by omega
          exact .inr ⟨heq, h2 heq⟩
        · exact .inl hle
    · obtain ⟨xs, g, zs, rfl, hg⟩ := ih hu
      exact ⟨f :: xs, g, zs, rfl, hg⟩

theorem shortest_alike (ha : List.Forall₂ HeaderField.Alike fs gs) (h : ∀ f ∈ fs, f.line.length ≤ 4) :
    ∀ g ∈ gs, g.line.length ≤ 4 := by
  induction ha with
  | nil => nofun
  | @cons f g fs gs hfg _ ih =>
    obtain ⟨hf, hfs⟩ := List.forall_mem_cons.1 h
    exact List.forall_mem_cons.2 ⟨hfg.1.symm ▸ hf, ih hfs⟩

theorem Uncut.alike (h : Uncut fs) (ha : List.Forall₂ HeaderField.Alike fs gs) : Uncut gs := by
  induction ha with
  | nil => trivial
  | @cons f g fs gs hfg ha ih =>
    obtain ⟨h0, hlen, hfs⟩ := h
    rw [Uncut, hfg.1, hfg.2]
    exact ⟨h0, hlen.imp_right fun hc => ⟨hc.1, shortest_alike ha hc.2⟩, ih hfs⟩

theorem headerBlock_alike (ha : List.Forall₂ HeaderField.Alike fs gs) : (headerBlock gs).length = (headerBlock fs).length := by
  induction ha with
  | nil => rfl
  | cons hfg _ ih => rw [headerBlock_cons, headerBlock_cons, List.length_append, List.length_append, hfg.1, ih]

/-- Whatever header has lines of these lengths is decoded right exactly if no line is
cut: none has more bytes than the buffer and none has a NUL, apart from lines that say nothing. -/
theorem decode_request_header_fields_iff (hsize : (headerBlock fs).length ≤ HEADER_MAX_SIZE) :
    (∀ gs, List.Forall₂ HeaderField.Alike fs gs → HeaderRight gs) ↔ Uncut fs := by
  constructor
  · intro hall
    by_contra hu
    obtain ⟨xs, f, zs, rfl, ⟨hlt, hbad⟩ | ⟨hlen, g, hg, hlt⟩⟩ := not_uncut hu
    · exact around_wrong hlt hbad (hall _ (around_alike xs f zs))
    · obtain ⟨ys, zs, rfl⟩ := List.append_of_mem hg
      have ha := around_alike (xs ++ f :: ys) g zs
      rw [List.append_assoc] at ha
      exact around_unread hlen hlt (hall _ ha)
  · intro hu gs ha
    exact (hu.alike ha).headerRight (by rw [headerBlock_alike ha]; exact hsize)

end

/-- A field of 3000 letters. -/
def longField : HeaderField where
  name := str "A"
  value := List.replicate 3000 120
  name_ne := nofun
  name_text := List.all_iff_forall_prop.1 (by decide)
  value_text c hc := by
    rw [List.eq_of_mem_replicate hc]
    decide

theorem longField_length : longField.line.length = 3004 := by
  have hv : longField.value.length = 3000 := List.length_replicate
  rw [HeaderField.line_length, HeaderField.text, List.length_append, List.length_cons, hv]
  rfl

/-- The value of such a field is cut. -/
theorem decode_request_header_cut :
    ¬ ∀ fs : List HeaderField, (headerBlock fs).length ≤ HEADER_MAX_SIZE → HeaderRight fs := by
  intro hall
  have hlen := longField_length
  have halike := around_alike [] longField []
  have hwrong : ¬ HeaderRight (around [] longField []) := around_wrong (by omega) (.inr (by rw [hlen]; decide))
  refine hwrong (hall _ ?_)
  rw [headerBlock_alike halike, List.nil_append, headerBlock_cons, List.length_append, hlen]
  decide

def acceptField : HeaderField :=
  ⟨str "accept", str " a", by decide, List.all_iff_forall_prop.1 (by decide), List.all_iff_forall_prop.1 (by decide)⟩

def localhostField : HeaderField :=
  ⟨str "HOST", str " localhost:8080", by decide, List.all_iff_forall_prop.1 (by decide), List.all_iff_forall_prop.1 (by decide)⟩

/-- The same name again, in capitals and without a blank. -/
def acceptAgain : HeaderField :=
  ⟨str "ACCEPT", str "b", by decide, List.all_iff_forall_prop.1 (by decide), List.all_iff_forall_prop.1 (by decide)⟩

theorem decode_request_header_fields_iff_three : HeaderRight [acceptField, localhostField, acceptAgain] := by
  have hsize : (headerBlock [acceptField, localhostField, acceptAgain]).length ≤ HEADER_MAX_SIZE := by decide
  have huncut : Uncut [acceptField, localhostField, acceptAgain] :=
    ⟨by decide, .inl (by decide), by decide, .inl (by decide), by decide, .inl (by decide), trivial⟩
  exact (decode_request_header_fields_iff hsize).2 huncut _ (.cons ⟨rfl, Iff.rfl⟩ (.cons ⟨rfl, Iff.rfl⟩ (.cons ⟨rfl, Iff.rfl⟩ .nil)))

end AntHttp
