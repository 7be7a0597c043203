import AntHttp.Multipart
/-!
# The fields of a multipart body

Text fields and files of one form. `decode_multi_part_request_data` takes the
first line of a text field for its value and passes over the others, so a value
of several lines is cut; the parts after it are read all the same. A name is cut
at the characters that end a parameter, whatever the quotes around it. A list of
files alone is such a form.
-/

namespace AntHttp

open CString

/-! ## Text up to the blanks around it -/

/-- A space or a part of a line end. -/
def blank (c : UInt8) : Bool := c = 32 || c = 13 || c = 10

def strip (s : Bytes) : Bytes := (s.rdropWhile blank).dropWhile blank

section Strip

variable {s t l : Bytes} {c d : UInt8} {q : UInt8 → Bool}

theorem strip_cons (hc : blank c = true) (s : Bytes) : strip (c :: s) = strip s := by
  unfold strip List.rdropWhile
  rw [List.reverse_cons, List.dropWhile_append]
  split
  · rename_i hall
    rw [List.isEmpty_iff.1 hall]
    simp [hc]
  · simp [hc]

theorem strip_append (ht : ∀ c ∈ t, blank c = true) (s : Bytes) : strip (s ++ t) = strip s := by
  have hrev : ∀ c ∈ t.reverse, blank c = true := fun c hc => ht c (List.mem_reverse.1 hc)
  unfold strip List.rdropWhile
  rw [List.reverse_append, List.dropWhile_append_of_pos hrev]

/-- Blanks that are dropped on either side make no difference. -/
theorem strip_dropWhile (hq : ∀ c, q c = true → blank c = true) (s : Bytes) : strip (s.dropWhile q) = strip s := by
  induction s with
  | nil => rfl
  | cons c s ih =>
    by_cases hc : q c = true
    · rw [List.dropWhile_cons_of_pos hc, ih, strip_cons (hq c hc)]
    · rw [List.dropWhile_cons_of_neg hc]

theorem strip_rdropWhile (hq : ∀ c, q c = true → blank c = true) (s : Bytes) : strip (s.rdropWhile q) = strip s := by
  induction s using List.reverseRecOn with
  | nil => rfl
  | append_singleton s c ih =>
    by_cases hc : q c = true
    · have hblank : ∀ x ∈ [c], blank x = true := fun x hx => List.mem_singleton.1 hx ▸ hq c hc
      rw [List.rdropWhile_concat_pos _ _ _ hc, ih, strip_append hblank]
    · rw [List.rdropWhile_concat_neg _ _ _ hc]

theorem strip_trim (hd : blank d = true) (s : Bytes) : strip (trim s d) = strip s := by
  have hq (c : UInt8) (hc : decide (c = d) = true) : blank c = true := of_decide_eq_true hc ▸ hd
  rw [trim, strip_dropWhile hq, strip_rdropWhile hq]

theorem filter_dropWhile (s : Bytes) : (s.dropWhile blank).filter (!blank ·) = s.filter (!blank ·) := by
  induction s with
  | nil => rfl
  | cons c s ih =>
    by_cases hc : blank c = true
    · simp [hc, ih]
    · rw [List.dropWhile_cons_of_neg hc]

/-- Nothing but blanks is lost. -/
theorem filter_strip (s : Bytes) : (strip s).filter (!blank ·) = s.filter (!blank ·) := by
  rw [strip, filter_dropWhile, List.rdropWhile, List.filter_reverse, filter_dropWhile, List.filter_reverse, List.reverse_reverse]

theorem mem_strip (hc : blank c = false) : c ∈ strip s ↔ c ∈ s := by
  have h (t : Bytes) : c ∈ t.filter (!blank ·) ↔ c ∈ t := by simp [hc]
  rw [← h, filter_strip, h]

theorem blank_of_strip_eq (h : strip (s ++ t) = strip s) : ∀ c ∈ t, blank c = true := by
  have hfilter := congrArg (List.filter (!blank ·)) h
  rw [filter_strip, filter_strip, List.filter_append] at hfilter
  have hnil := List.append_right_eq_self.1 hfilter
  intro c hc
  simpa using List.filter_eq_nil_iff.1 hnil c hc

end Strip

/-! ## The body -/

/-- A field of a form, with a file name if it is a file, and the lines of its header before and after its name. -/
structure FormPart where
  name : Bytes
  filename : Option Bytes
  content : Bytes
  before : List Bytes
  after : List Bytes

namespace FormPart

/-- The field as a file with that name. -/
def file (p : FormPart) (filename : Bytes) : FilePart := ⟨p.name, filename, p.content, p.before, p.after⟩

def disposition (p : FormPart) : Bytes :=
  match p.filename with
  | some filename => (p.file filename).disposition
  | none => str "Content-Disposition: form-data; name=\"" ++ p.name ++ [34]

/-- What stands between two delimiters, the line end before the second one included. -/
def body (p : FormPart) : Bytes :=
  headerText p.before ++ (p.disposition ++ CRLF) ++ headerText p.after ++ CRLF ++ p.content ++ CRLF

/-- The keys that a part is stored under. -/
def keys (p : FormPart) : List Bytes :=
  if p.filename.isSome then [p.name ++ str ".file", p.name ++ str ".tmp", p.name ++ str ".size", p.name ++ str ".ext"] else [p.name]

structure WellFormed (B : Bytes) (p : FormPart) : Prop where
  header : ∀ l ∈ p.before ++ p.disposition :: p.after, l ≠ [] ∧ 10 ∉ l ∧ l.length + 2 < BUFFLEN ∧ ¬ B <:+: l
  first : ∀ l ∈ p.before, ¬ str "Content-Disposition:" <:+: l
  content : ¬ B <:+: p.content
  short : p.filename = none → p.content.length < BUFFLEN

end FormPart

def encodeForm (B : Bytes) : List FormPart → Bytes
  | [] => str "--" ++ B ++ str "--"
  | p :: parts => str "--" ++ B ++ CRLF ++ p.body ++ encodeForm B parts

structure Form (B : Bytes) (parts : List FormPart) : Prop where
  boundary : BoundaryText B
  ne : parts ≠ []
  wellFormed : ∀ p ∈ parts, p.WellFormed B

/-- The parts are told apart by their names. -/
structure Distinct (parts : List FormPart) : Prop where
  keys : (parts.flatMap FormPart.keys).Nodup
  filenames : (parts.filterMap FormPart.filename).Nodup

/-! ## What is made of it -/

/-- The task of a part has stored it: a file is written with its bytes and described under its name, and a text has its
content for value, up to the blanks around it. -/
def FormPart.Taken (rq rq' : Request) (p : FormPart) : Prop :=
  match p.filename with
  | some filename => ∃ dic path, rq'.REQUEST_DATA = some dic ∧ rq'.files = rq.files ++ [(path, p.content)] ∧
      dic.dvalue (p.name ++ str ".tmp") = some path ∧ dic.dvalue (p.name ++ str ".size") = some (decimal p.content.length) ∧
      dic.dvalue (p.name ++ str ".file") = some filename
  | none => ∃ dic value, rq'.REQUEST_DATA = some dic ∧ dic.dvalue p.name = some value ∧ strip value = strip p.content

/-- The tasks take one part after another, each in surroundings in which `n` bytes can be written, and then end. -/
def InTurn (cnf : Config) (n : Nat) : Task × Request → List FormPart → Prop
  | (t, _), [] => t.handle ≠ some .decode_multi_part_request_data
  | (t, rq), p :: parts => t.handle = some .decode_multi_part_request_data ∧ ∀ sys, Stores sys n →
      ∃ r, decode_multi_part_request_data sys cnf rq = .ok r ∧ p.Taken rq r.2 ∧ InTurn cnf n r parts

/-- When the body arrives, each part is stored by its task. -/
def FormTaken (B : Bytes) (parts : List FormPart) : Prop :=
  ∀ (cnf : Config) (rq : Request) (pre : Bytes), rq.REQUEST_HEADER.isSome → rq.REQUEST_DATA.isSome →
    Closed pre → ¬ B <:+: pre → rq.client.Has (pre ++ encodeForm B parts) →
    ∃ r, decode_multi_part_request rq (multipartType B) = .ok r ∧ InTurn cnf (pre ++ encodeForm B parts).length r parts

/-- A file is stored with its bytes, and a text field with its content up to the blanks around it. -/
def FormPart.Decoded (rq : Request) (p : FormPart) : Prop :=
  match p.filename with
  | some filename => Stored rq (p.file filename)
  | none => ∃ dic value, rq.REQUEST_DATA = some dic ∧ dic.dvalue p.name = some value ∧ strip value = strip p.content

/-- Whatever surrounds the tasks, when the body arrives they end with each part decoded. -/
def FormStored (B : Bytes) (parts : List FormPart) : Prop :=
  ∀ (cnf : Config) (sys : Nat → Sys) (rq : Request) (pre : Bytes), rq.REQUEST_HEADER.isSome → rq.REQUEST_DATA.isSome →
    Closed pre → ¬ B <:+: pre → rq.client.Has (pre ++ encodeForm B parts) →
    (∀ i, Stores (sys i) (pre ++ encodeForm B parts).length) →
    ∃ r rq', decode_multi_part_request rq (multipartType B) = .ok r ∧ Ends cnf sys 0 r rq' ∧ ∀ p ∈ parts, p.Decoded rq'

/-- Each part is stored in its turn, and still is in the end if no other one has taken its keys or its file. -/
structure MultipartDecoded (B : Bytes) (parts : List FormPart) : Prop where
  taken : FormTaken B parts
  stored : Distinct parts → FormStored B parts

/-- The names of the part can be read back from its header. -/
structure FormPart.Named (p : FormPart) : Prop where
  name : Quotable p.name
  filename : ∀ filename ∈ p.filename, Quotable filename

/-- Nothing but blanks follows the first line of a text, and there is no NUL in it. -/
def OneLine (content : Bytes) : Prop := 0 ∉ content ∧ ∀ c ∈ content.dropWhile (· ≠ 10), blank c = true

/-- A file is not too long for the `int` that counts it, and a text is one line. -/
structure FormPart.Readable (p : FormPart) : Prop where
  named : p.Named
  file : p.filename.isSome → p.content.length < 2 ^ 31
  text : p.filename = none → OneLine p.content

/-! ## The value of a text -/

/-- What `textPart` makes of the first line. -/
def FormPart.value (p : FormPart) : Bytes :=
  trim (trim (trim (cstr (chunk (BUFFLEN - 1) (p.content ++ CRLF))) 10) 13) 32

section Value

variable {n : Nat} {l t D more : Bytes}

theorem chunk_append (hl : 10 ∉ l) (hn : l.length ≤ n) (t : Bytes) : chunk n (l ++ t) = l ++ chunk (n - l.length) t := by
  induction l generalizing n with
  | nil => simp
  | cons c l ih =>
    obtain ⟨hc, hl⟩ := not_or.1 fun h => hl (List.mem_cons.2 h)
    cases n with
    | zero => cases hn
    | succ n =>
      have hn : l.length ≤ n := by simpa using hn
      simp [chunk, Ne.symm hc, ih hl hn]

theorem chunk_isPrefix (n : Nat) (l : Bytes) : chunk n l <+: l := by
  induction n generalizing l with
  | zero => exact List.nil_prefix
  | succ n ih =>
    cases l with
    | nil => exact List.nil_prefix
    | cons c l =>
      rw [chunk]
      split
      · exact ⟨l, rfl⟩
      · exact List.cons_prefix_cons.2 ⟨rfl, ih l⟩

/-- What follows a line end makes no difference. -/
theorem chunk_closed (h10 : 10 ∈ D) (n : Nat) (more : Bytes) : chunk n (D ++ more) = chunk n D := by
  induction n generalizing D with
  | zero => rfl
  | succ n ih =>
    cases D with
    | nil => cases h10
    | cons c D =>
      rw [List.cons_append, chunk, chunk]
      split
      · rfl
      · rename_i hc
        rw [ih ((List.mem_cons.1 h10).resolve_left (Ne.symm hc))]

theorem crlf_blank : ∀ c ∈ CRLF, blank c = true := List.all_eq_true.1 rfl

/-- The first line of a text stands for it exactly if it is all there is. -/
theorem value_iff {p : FormPart} (hlen : p.content.length < BUFFLEN) : strip p.value = strip p.content ↔ OneLine p.content := by
  have h10 : blank 10 = true := by decide
  have h13 : blank 13 = true := by decide
  have h32 : blank 32 = true := by decide
  have h0 : blank 0 = false := by decide
  rw [FormPart.value, strip_trim h32, strip_trim h13, strip_trim h10]
  by_cases hnul : 0 ∈ p.content
  · -- a NUL ends the value
    refine iff_of_false (fun heq => ?_) fun h => h.1 hnul
    rw [← mem_strip h0, ← heq, mem_strip h0] at hnul
    exact not_mem_cstr _ hnul
  have hcrlf : (0 : UInt8) ∉ p.content ++ CRLF := by simp [hnul, CRLF]
  have hchunk : (0 : UInt8) ∉ chunk (BUFFLEN - 1) (p.content ++ CRLF) := fun h => hcrlf ((chunk_isPrefix _ _).subset h)
  rw [cstr_eq_self hchunk, OneLine, and_iff_right hnul]
  have htake : 10 ∉ p.content.takeWhile (· ≠ 10) := fun h => by simpa using List.mem_takeWhile_imp h
  cases hrest : p.content.dropWhile (· ≠ 10) with
  | nil =>
    have hline : p.content = p.content.takeWhile (· ≠ 10) := by
      conv_lhs => rw [← List.takeWhile_append_dropWhile (p := (· ≠ 10)) (l := p.content), hrest, List.append_nil]
    have hall : ∀ c ∈ chunk (BUFFLEN - 1 - p.content.length) CRLF, blank c = true := fun c hc =>
      crlf_blank c ((chunk_isPrefix _ _).subset hc)
    rw [chunk_append (hline ▸ htake) (by omega), strip_append hall]
    simp
  | cons c rest =>
    have hfirst := List.head?_dropWhile_not (· ≠ 10) p.content
    rw [hrest] at hfirst
    obtain rfl : c = 10 := by simpa using hfirst
    have hline : p.content = p.content.takeWhile (· ≠ 10) ++ 10 :: rest := by
      rw [← hrest, List.takeWhile_append_dropWhile]
    generalize p.content.takeWhile (· ≠ 10) = l at hline htake
    have hshort : l.length < BUFFLEN - 1 := by
      rw [hline, List.length_append, List.length_cons] at hlen
      omega
    have hone : ∀ c ∈ [(10 : UInt8)], blank c = true := fun c hc => List.mem_singleton.1 hc ▸ h10
    rw [hline, List.append_assoc, List.cons_append, chunk_line htake hshort, strip_append hone]
    constructor
    · intro h
      exact blank_of_strip_eq h.symm
    · intro h
      rw [strip_append h]

end Value

/-! ## One part -/

section Part

variable {B : Bytes} {p : FormPart} {next : Option Bytes} {c : Client} {dic : Dictionary Bytes}

/-- The header line names the field. -/
theorem text_params (hf : p.filename = none) (hn : Quotable p.name) :
    (split 59 (cstr (p.disposition ++ CRLF))).foldl partParam (none, none) = (some p.name, none) := by
  have htext : p.disposition ++ CRLF =
      str "Content-Disposition: form-data" ++ 59 :: (str " name" ++ 61 :: (34 :: p.name ++ 34 :: CRLF)) := by
    have hlit : str "Content-Disposition: form-data; name=\"" =
        str "Content-Disposition: form-data" ++ 59 :: str " name" ++ [61, 34] := by decide
    simp [FormPart.disposition, hf, hlit, CRLF]
  have h0 : (0 : UInt8) ∉ p.disposition ++ CRLF := by
    have hlit : (0 : UInt8) ∉ str "Content-Disposition: form-data; name=\"" := by decide
    simp [FormPart.disposition, hf, hlit, hn.text 0 (by decide), CRLF]
  have hname : (59 : UInt8) ∉ str " name" ++ 61 :: (34 :: p.name ++ 34 :: CRLF) := by
    have hlit : (59 : UInt8) ∉ str " name" := by decide
    simp [hlit, hn.text 59 (by decide), CRLF]
  have htype : split 59 (str "Content-Disposition: form-data") = [str "Content-Disposition: form-data"] := by decide
  have hskip : partParam (none, none) (str "Content-Disposition: form-data") = (none, none) := by decide
  have hkey : str " name" = 32 :: str "name" := by decide
  have ht : trim (32 :: str "name") 32 = str "name" := by decide
  rw [cstr_eq_self h0, htext, split_append, split_eq_self hname, htype, List.singleton_append, List.foldl_cons, List.foldl_cons,
    List.foldl_nil, hskip, hkey, partParam_quoted (by decide) hn (.inr rfl), ht, if_pos rfl]

/-- The first line of the content is read, and what follows it is passed over up to the delimiter. -/
theorem Client.Has.read_text (hB : BoundaryText B) (hp : p.WellFormed B) (h : c.Has (p.content ++ CRLF ++ delimiter B next)) :
    ∃ c₁ last c', AntHttp.read_buf c BUFFLEN = (chunk (BUFFLEN - 1) (p.content ++ CRLF), c₁) ∧
      readUntil (strstr · B) c₁ = (last, c') ∧ B <:+: cstr last ∧ PastDelimiter B last c' next := by
  have hclosed : Closed (p.content ++ CRLF) := by
    have hcrlf : p.content ++ CRLF = (p.content ++ [13]) ++ [10] := by simp [CRLF]
    rw [hcrlf]
    exact closed_line _
  have hnot : ¬ B <:+: p.content ++ CRLF := fun hinf =>
    hp.content (infix_append_crlf (hB.text 10 (by decide)) hB.last hinf)
  have hne : p.content ++ CRLF ≠ [] := by simp [CRLF]
  have h10 : 10 ∈ p.content ++ CRLF := hclosed.mem hne
  obtain ⟨D, hD, hrest⟩ := hclosed.chunk hne (BUFFLEN - 1) (delimiter B next)
  rw [chunk_closed h10] at hD
  rw [hD, List.append_assoc] at h
  have hcut : chunk (BUFFLEN - 1) (chunk (BUFFLEN - 1) (p.content ++ CRLF) ++ (D ++ delimiter B next)) =
      chunk (BUFFLEN - 1) (p.content ++ CRLF) := by
    rw [← List.append_assoc, ← hD, chunk_closed h10]
  have hline : 10 ∈ chunk (BUFFLEN - 1) (p.content ++ CRLF) ++ (D ++ delimiter B next) := by
    rw [← List.append_assoc, ← hD]
    exact List.mem_append_left _ h10
  obtain ⟨c₁, hread, h₁⟩ := h.read_buf hcut (.inr hline)
  have hD' : D <:+: p.content ++ CRLF := hD ▸ (List.suffix_append ..).isInfix
  obtain ⟨c₂, hskip, h₂⟩ := h₁.readUntil_through (strstr · B) hrest fun l hl =>
    Bool.eq_false_iff.2 fun hs => hnot (((strstr_iff.1 hs).trans (cstr_isPrefix l).isInfix).trans (hl.trans hD'))
  obtain ⟨last, c', hnext, hlast, hinf, hafter⟩ := h₂.read_next hB
  refine ⟨c₁, last, c', hread, ?_, hinf, hafter⟩
  rw [hskip, readUntil_eq hnext hlast, strstr_iff.2 hinf, if_pos rfl]

/-- A text field is stored with its first line, and the next part comes after it unless its delimiter is taken for the last. -/
theorem text_round (sys : Sys) (cnf : Config) {rq : Request} (hB : BoundaryText B) (hp : p.WellFormed B) (hf : p.filename = none)
    (hn : Quotable p.name) (hb : rq.MULTI_PART_BOUNDARY = some B) (hd : rq.REQUEST_DATA = some dic)
    (h : rq.client.Has (p.body ++ delimiter B next)) :
    ∃ t rq' last, decode_multi_part_request_data sys cnf rq = .ok (t, rq') ∧
      t.handle = (if strstr (cstr last) (B ++ str "--") then none else some .decode_multi_part_request_data) ∧
      PastDelimiter B last rq'.client next ∧ rq'.MULTI_PART_BOUNDARY = some B ∧
      rq'.REQUEST_DATA = some (dic.dput p.name (some p.value)) ∧ rq'.files = rq.files := by
  have htext : p.body ++ delimiter B next = headerText p.before ++ (p.disposition ++ CRLF) ++ headerText p.after ++ CRLF ++
      (p.content ++ CRLF ++ delimiter B next) := by simp [FormPart.body]
  have hname : str "Content-Disposition:" <+: p.disposition := by
    have hlit : str "Content-Disposition: form-data; name=\"" = str "Content-Disposition:" ++ str " form-data; name=\"" := by
      decide
    simp only [FormPart.disposition, hf, hlit, List.append_assoc]
    exact List.prefix_append ..
  rw [htext] at h
  obtain ⟨c₁, c₂, hdisp, hblank, h₂⟩ := h.read_lines (fun l hl => ⟨(hp.header l hl).1, (hp.header l hl).2.1, (hp.header l hl).2.2.1⟩)
    hp.first hname
  obtain ⟨c₃, last, c₄, hread, hskip, hinf, hafter⟩ := h₂.read_text hB hp
  have hne : chunk (BUFFLEN - 1) (p.content ++ CRLF) ≠ [] := chunk_ne_nil (by decide) (by simp [CRLF])
  let rq₃ : Request := { rq with client := c₄, REQUEST_DATA := some (dic.dput p.name (some p.value)) }
  have hpart : partData sys cnf { rq with client := c₁ } B (some p.name, none) = .ok (some (cstr last), rq₃) := by
    simp only [partData, textPart, hblank, hread, hskip, putText, if_neg hne, hd, deref_some]
    simp [hne, Except.map, bind, Except.bind, pure, Except.pure, rq₃, FormPart.value]
  have hline : p.disposition ++ CRLF ≠ [] := by simp [CRLF]
  obtain ⟨t, hr, ht⟩ := part_done hdisp hline hb hinf (by rw [text_params hf hn]; exact hpart)
  exact ⟨t, rq₃, last, hr, ht, hafter, hb, rfl, rfl⟩

theorem FormPart.body_file {filename : Bytes} (hf : p.filename = some filename) : p.body = (p.file filename).body := by
  simp only [FormPart.body, FilePart.body, FormPart.disposition, hf]
  rfl

theorem FormPart.WellFormed.framed {filename : Bytes} (hp : p.WellFormed B) (hf : p.filename = some filename) :
    (p.file filename).Framed B := by
  have hdisp : p.disposition = (p.file filename).disposition := by simp only [FormPart.disposition, hf]
  exact ⟨hdisp ▸ hp.header, hp.first, hp.content⟩

/-- What a part leaves if its names can be read: a file its description, a text its first line. -/
def FormPart.Recorded (tmpdir : Bytes) (rq : Request) (p : FormPart) : Prop :=
  match p.filename with
  | some filename => AntHttp.Recorded tmpdir rq (p.file filename)
  | none => ∃ dic, rq.REQUEST_DATA = some dic ∧ dic.dvalue p.name = some p.value

/-- No key and no file of one part is one of the other. -/
structure FormPart.Apart (q p : FormPart) : Prop where
  keys : ∀ k ∈ q.keys, k ∉ p.keys
  files : ∀ filename ∈ q.filename, filename ∉ p.filename

/-- What one task does: its part is recorded, and nothing changes but its keys and its file. -/
structure FormPart.Round (tmpdir : Bytes) (p : FormPart) (rq rq' : Request) : Prop where
  taken : p.Taken rq rq' ↔ p.Readable
  recorded : p.Recorded tmpdir rq'
  others : ∀ dic, rq.REQUEST_DATA = some dic →
    ∃ dic', rq'.REQUEST_DATA = some dic' ∧ ∀ k, k ∉ p.keys → dic'.dvalue k = dic.dvalue k
  files : ∃ new, rq'.files = rq.files ++ new ∧
    ∀ f ∈ new, ∃ filename time, p.filename = some filename ∧ f.1 = uploadPath tmpdir filename time

theorem FormPart.Named.readable_text (hn : p.Named) (hf : p.filename = none) : p.Readable ↔ OneLine p.content := by
  constructor
  · intro h
    exact h.text hf
  · intro h
    exact ⟨hn, fun hsome => by simp [hf] at hsome, fun _ => h⟩

theorem FormPart.Named.readable_file {filename : Bytes} (hn : p.Named) (hf : p.filename = some filename) :
    p.Readable ↔ p.content.length < 2 ^ 31 := by
  constructor
  · intro h
    exact h.file (by simp [hf])
  · intro h
    exact ⟨hn, fun _ => h, fun hnone => by simp [hf] at hnone⟩

theorem taken_text_iff {rq rq' : Request} (hp : p.WellFormed B) (hn : p.Named) (hf : p.filename = none)
    (hd : rq'.REQUEST_DATA = some (dic.dput p.name (some p.value))) : p.Taken rq rq' ↔ p.Readable := by
  rw [hn.readable_text hf, ← value_iff (hp.short hf)]
  simp only [FormPart.Taken, hf, hd]
  constructor
  · rintro ⟨dic', value, hdic, hval, heq⟩
    cases hdic
    rw [Dictionary.dvalue_dput_self] at hval
    cases hval
    exact heq
  · intro heq
    exact ⟨_, p.value, rfl, Dictionary.dvalue_dput_self .., heq⟩

/-- A file is stored with its bytes if its size can be recorded. -/
theorem taken_file_iff {rq rq' : Request} {filename path old : Bytes} (hn : p.Named) (hf : p.filename = some filename)
    (hd : rq'.REQUEST_DATA = some (uploadFields dic (p.file filename) path))
    (hfiles : rq'.files = rq.files ++ [(path, fileData (p.file filename) old)]) : p.Taken rq rq' ↔ p.Readable := by
  obtain ⟨hfile, htmp, hsize⟩ := uploadFields_self dic (p.file filename) path
  rw [hn.readable_file hf]
  simp only [FormPart.Taken, hf, hd]
  constructor
  · rintro ⟨dic', path', hdic, -, -, hsize', -⟩
    cases hdic
    exact (size_recorded_iff _).1 (Option.some.inj (hsize.symm.trans hsize'))
  · intro hlt
    refine ⟨_, path, rfl, ?_, htmp, ?_, hfile⟩
    · rw [hfiles, fileData_eq hlt]
      rfl
    · exact hsize.trans (congrArg some ((size_recorded_iff _).2 hlt))

theorem uploadFields_other {path k : Bytes} {filename : Bytes} (hf : p.filename = some filename) (hk : k ∉ p.keys) :
    (uploadFields dic (p.file filename) path).dvalue k = dic.dvalue k := by
  have hne : k ≠ p.name ++ str ".file" ∧ k ≠ p.name ++ str ".tmp" ∧ k ≠ p.name ++ str ".size" ∧ k ≠ p.name ++ str ".ext" := by
    simpa [FormPart.keys, hf] using hk
  obtain ⟨hfile, htmp, hsize, hext⟩ := hne
  have hname : (p.file filename).name = p.name := rfl
  rw [uploadFields, hname, Dictionary.dvalue_dput, if_neg hext, Dictionary.dvalue_dput, if_neg hsize, Dictionary.dvalue_dput,
    if_neg htmp, Dictionary.dvalue_dput, if_neg hfile]

theorem form_round {sys : Sys} (cnf : Config) {rq : Request} (hB : BoundaryText B) (hp : p.WellFormed B) (hn : p.Named)
    (hs : Stores sys (p.content.length + 2)) (hb : rq.MULTI_PART_BOUNDARY = some B) (hd : rq.REQUEST_DATA = some dic)
    (h : rq.client.Has (p.body ++ delimiter B next)) :
    ∃ t rq' last, decode_multi_part_request_data sys cnf rq = .ok (t, rq') ∧
      t.handle = (if strstr (cstr last) (B ++ str "--") then none else some .decode_multi_part_request_data) ∧
      PastDelimiter B last rq'.client next ∧ rq'.MULTI_PART_BOUNDARY = some B ∧ p.Round cnf.tmpdir rq rq' := by
  cases hfile : p.filename with
  | none =>
    obtain ⟨t, rq', last, hr, ht, hafter, hb', hd', hf'⟩ := text_round sys cnf hB hp hfile hn.name hb hd h
    have hfiles : rq'.files = rq.files ++ [] := by rw [hf', List.append_nil]
    refine ⟨t, rq', last, hr, ht, hafter, hb', taken_text_iff hp hn hfile hd', ?_, ?_, [], hfiles, nofun⟩
    · simp only [FormPart.Recorded, hfile]
      exact ⟨_, hd', Dictionary.dvalue_dput_self ..⟩
    · intro dic₀ hd₀
      refine ⟨_, hd', fun k hk => ?_⟩
      cases hd.symm.trans hd₀
      have hne : k ≠ p.name := by simpa [FormPart.keys, hfile] using hk
      rw [Dictionary.dvalue_dput, if_neg hne]
  | some filename =>
    rw [FormPart.body_file hfile] at h
    obtain ⟨t, rq', last, hr, ht, hafter, hb', hd', hf'⟩ :=
      part_round cnf hB (hp.framed hfile) hn.name (hn.filename filename hfile) hs hb hd h
    refine ⟨t, rq', last, hr, ht, hafter, hb', taken_file_iff hn hfile hd' hf', ?_, ?_, _, hf', ?_⟩
    · simp only [FormPart.Recorded, hfile]
      exact .new hd' hf'
    · intro dic₀ hd₀
      cases hd.symm.trans hd₀
      exact ⟨_, hd', fun k hk => uploadFields_other hfile hk⟩
    · intro f hf
      rw [List.mem_singleton.1 hf]
      exact ⟨filename, _, hfile, rfl⟩

theorem fileAt_old {files new : List (Bytes × Bytes)} {path : Bytes} (h : ∀ f ∈ new, f.1 ≠ path) :
    fileAt (files ++ new) path = fileAt files path := by
  induction new using List.reverseRecOn with
  | nil => rw [List.append_nil]
  | append_singleton new f ih =>
    obtain ⟨hnew, hf⟩ := List.forall_mem_append.1 h
    rw [← List.append_assoc, fileAt_append, if_neg (hf f (List.mem_singleton_self f)), ih hnew]

/-- A part leaves what has been recorded of the others. -/
theorem FormPart.Round.keep {tmpdir : Bytes} {q : FormPart} {rq rq' : Request} (h : p.Round tmpdir rq rq') (ha : q.Apart p)
    (hq : q.Recorded tmpdir rq) : q.Recorded tmpdir rq' := by
  obtain ⟨hkeys, hfiles⟩ := ha
  unfold FormPart.Recorded at hq ⊢
  unfold FormPart.keys at hkeys
  cases hfile : q.filename with
  | none =>
    simp only [hfile] at hq hkeys ⊢
    obtain ⟨dic, hdic, hval⟩ := hq
    obtain ⟨dic', hdic', hsame⟩ := h.others dic hdic
    exact ⟨dic', hdic', by rw [hsame _ (hkeys _ (by simp)), hval]⟩
  | some filename =>
    simp only [hfile] at hq hkeys ⊢
    obtain ⟨dic, time, data, hdic, hname, htmp, hsize, hat, hdata⟩ := hq
    obtain ⟨dic', hdic', hsame⟩ := h.others dic hdic
    obtain ⟨new, hnew, hpaths⟩ := h.files
    have hother : ∀ f ∈ new, f.1 ≠ uploadPath tmpdir filename time := by
      intro f hf heq
      obtain ⟨filename', time', hf', hpath⟩ := hpaths f hf
      obtain ⟨rfl, -⟩ := uploadPath_inj.1 (hpath.symm.trans heq)
      exact hfiles _ hfile hf'
    refine ⟨dic', time, data, hdic', ?_, ?_, ?_, ?_, hdata⟩
    · rw [hsame _ (hkeys _ (by simp [FormPart.file])), hname]
    · rw [hsame _ (hkeys _ (by simp [FormPart.file])), htmp]
    · rw [hsame _ (hkeys _ (by simp [FormPart.file])), hsize]
    · rw [hnew]
      exact (fileAt_old hother).trans hat

end Part

/-! ## All parts -/

/-- What follows the delimiter before `parts`. -/
def formFollowing (B : Bytes) : List FormPart → Option Bytes
  | [] => none
  | p :: parts => some (p.body ++ encodeForm B parts)

theorem encodeForm_eq (B : Bytes) (parts : List FormPart) : encodeForm B parts = delimiter B (formFollowing B parts) := by
  cases parts with
  | nil => rfl
  | cons p parts => simp [encodeForm, delimiter, formFollowing]

section Parts

variable {B : Bytes} {p q : FormPart} {parts : List FormPart} {cnf : Config} {sys : Nat → Sys} {rq rq' : Request}

theorem FormPart.Recorded.data {tmpdir : Bytes} (h : p.Recorded tmpdir rq) : rq.REQUEST_DATA.isSome := by
  unfold FormPart.Recorded at h
  cases hfile : p.filename with
  | none =>
    simp only [hfile] at h
    obtain ⟨dic, hdic, -⟩ := h
    rw [hdic]
    rfl
  | some filename =>
    simp only [hfile] at h
    obtain ⟨dic, _, _, hdic, -⟩ := h
    rw [hdic]
    rfl

/-- What comes after a part, of which `parts` follow: another task, unless the delimiter is the last or is taken for it. -/
structure Follows (B : Bytes) (parts : List FormPart) (t : Task) (rq : Request) : Prop where
  boundary : rq.MULTI_PART_BOUNDARY = some B
  last : parts = [] ∨ (∀ c ∈ B, c = 45) → t.handle = none
  more : ∀ p qs, parts = p :: qs → (¬ ∀ c ∈ B, c = 45) →
    t.handle = some .decode_multi_part_request_data ∧ rq.client.Has (p.body ++ encodeForm B qs)

theorem form_step (cnf : Config) {sys : Sys} (hB : BoundaryText B) (hp : p.WellFormed B) (hn : p.Named)
    (hs : Stores sys (p.content.length + 2)) (hb : rq.MULTI_PART_BOUNDARY = some B) (hd : rq.REQUEST_DATA.isSome)
    (h : rq.client.Has (p.body ++ encodeForm B parts)) :
    ∃ t rq', decode_multi_part_request_data sys cnf rq = .ok (t, rq') ∧ p.Round cnf.tmpdir rq rq' ∧ Follows B parts t rq' := by
  obtain ⟨dic, hdic⟩ := Option.isSome_iff_exists.1 hd
  rw [encodeForm_eq] at h
  obtain ⟨t, rq', last, hr, ht, hafter, hb', hround⟩ := form_round cnf hB hp hn hs hb hdic h
  refine ⟨t, rq', hr, hround, hb', ?_, ?_⟩
  · intro hlast
    cases parts with
    | nil =>
      obtain ⟨m, hm⟩ := hafter
      rw [ht, hm, if_pos (last_delimiter hB m)]
    | cons q parts =>
      obtain ⟨hline, -⟩ := hafter
      have hdash := hlast.resolve_left (by simp)
      rw [ht, hline, hB.delimiter, if_pos ((delimiter_ends_iff hB).2 hdash)]
  · rintro q qs rfl hnot
    obtain ⟨hline, h'⟩ := hafter
    rw [ht, hline, hB.delimiter, if_neg fun hend => hnot ((delimiter_ends_iff hB).1 hend)]
    exact ⟨rfl, h'⟩

/-- The parts are read one after another, unless the delimiter between two of them is taken for the last. -/
theorem form_end (cnf : Config) (hB : BoundaryText B) (hmore : parts ≠ [] → ¬ ∀ c ∈ B, c = 45)
    (hwf : ∀ q ∈ p :: parts, q.WellFormed B ∧ q.Named)
    (hapart : (p :: parts).Pairwise FormPart.Apart) {i : Nat} (hs : ∀ i, ∀ q ∈ p :: parts, Stores (sys i) (q.content.length + 2))
    (hb : rq.MULTI_PART_BOUNDARY = some B) (hd : rq.REQUEST_DATA.isSome) (h : rq.client.Has (p.body ++ encodeForm B parts))
    {t : Task} (ht : t.handle = some .decode_multi_part_request_data) :
    ∃ rq', Ends cnf sys i (t, rq) rq' ∧ (∀ q ∈ p :: parts, q.Recorded cnf.tmpdir rq') ∧
      ∀ q : FormPart, (∀ p' ∈ p :: parts, q.Apart p') → q.Recorded cnf.tmpdir rq → q.Recorded cnf.tmpdir rq' := by
  -- each round records one part; what was recorded before is kept, as the parts are apart
  induction parts generalizing p rq i t with
  | nil =>
    obtain ⟨hp, hn⟩ := hwf p List.mem_cons_self
    obtain ⟨t', rq', hr, hround, hnext⟩ := form_step cnf hB hp hn (hs i p List.mem_cons_self) hb hd h
    refine ⟨rq', .next ht hr (.stop (by rw [hnext.last (.inl rfl)]; nofun)), fun q hq => ?_, fun q ha hq => ?_⟩
    · rw [List.mem_singleton.1 hq]
      exact hround.recorded
    · exact hround.keep (ha p List.mem_cons_self) hq
  | cons p' parts ih =>
    obtain ⟨hp, hn⟩ := hwf p List.mem_cons_self
    obtain ⟨t', rq₁, hr, hround, hnext⟩ := form_step cnf hB hp hn (hs i p List.mem_cons_self) hb hd h
    obtain ⟨ht', h₁⟩ := hnext.more p' parts rfl (hmore (by simp))
    obtain ⟨hfirst, hapart⟩ := List.pairwise_cons.1 hapart
    obtain ⟨rq₂, hends, hall, hkeep⟩ := ih (fun _ => hmore (by simp)) (fun q hq => hwf q (List.mem_cons_of_mem _ hq)) hapart
      (i := i + 1) (fun i q hq => hs i q (List.mem_cons_of_mem _ hq)) hnext.boundary hround.recorded.data h₁ ht'
    refine ⟨rq₂, .next ht hr hends, fun q hq => ?_, fun q ha hq => ?_⟩
    · rcases List.mem_cons.1 hq with rfl | hq
      · exact hkeep q hfirst hround.recorded
      · exact hall q hq
    · exact hkeep q (fun r hr => ha r (List.mem_cons_of_mem _ hr)) (hround.keep (ha p List.mem_cons_self) hq)

theorem Distinct.apart (h : Distinct parts) : parts.Pairwise FormPart.Apart := by
  have hkeys := (List.nodup_flatMap.1 h.keys).2
  have hfiles := List.pairwise_filterMap.1 h.filenames
  refine (hkeys.and hfiles).imp fun {q p} hqp => ?_
  exact ⟨fun k hq hp => hqp.1 hq hp, fun f hq hp => hqp.2 f hq f hp rfl⟩

theorem form_content_le (h : q ∈ parts) : q.content.length + 2 ≤ (encodeForm B parts).length := by
  induction parts with
  | nil => cases h
  | cons p parts ih =>
    have hcrlf : CRLF.length = 2 := rfl
    simp only [encodeForm, FormPart.body, List.length_append, hcrlf]
    rcases List.mem_cons.1 h with rfl | h
    · omega
    · have := ih h
      omega

/-- The chain records every part, if no delimiter between two parts is taken for the last one. -/
theorem Form.recorded (h : Form B parts) (hd : Distinct parts) (hnamed : ∀ p ∈ parts, p.Named)
    (hone : (∀ c ∈ B, c = 45) → parts.length = 1) (cnf : Config) (sys : Nat → Sys) {rq : Request} {pre : Bytes}
    (hh : rq.REQUEST_HEADER.isSome) (hdata : rq.REQUEST_DATA.isSome) (hpre : Closed pre) (hinf : ¬ B <:+: pre)
    (hc : rq.client.Has (pre ++ encodeForm B parts)) (hs : ∀ i, Stores (sys i) (pre ++ encodeForm B parts).length) :
    ∃ r rq', decode_multi_part_request rq (multipartType B) = .ok r ∧ Ends cnf sys 0 r rq' ∧
      ∀ p ∈ parts, p.Recorded cnf.tmpdir rq' := by
  obtain ⟨p, parts, rfl⟩ := List.exists_cons_of_ne_nil h.ne
  rw [encodeForm_eq] at hc
  obtain ⟨t, rq₁, hstart, ht, hb, hd₁, -, h₁⟩ := multipart_start h.boundary hh hpre hinf hc
  have hmore : parts ≠ [] → ¬ ∀ c ∈ B, c = 45 := by
    intro hne hdash
    have hlen := hone hdash
    rw [List.length_cons] at hlen
    exact hne (List.length_eq_zero_iff.1 (by omega))
  have hstores : ∀ i, ∀ q ∈ p :: parts, Stores (sys i) (q.content.length + 2) := by
    intro i q hq
    have hle := form_content_le (B := B) hq
    exact (hs i).mono (by rw [List.length_append]; omega)
  obtain ⟨rq₂, hends, hall, -⟩ := form_end cnf h.boundary hmore
    (fun q hq => ⟨h.wellFormed q hq, hnamed q hq⟩) hd.apart hstores hb (by rw [hd₁]; exact hdata) h₁ ht
  exact ⟨_, rq₂, hstart, hends, hall⟩

end Parts

/-! ## Every form -/

section Form

variable {B : Bytes} {p q : FormPart} {parts : List FormPart} {rq : Request}

/-- A part that has been recorded is decoded if it could be read as it is. -/
theorem FormPart.Recorded.decoded_iff {tmpdir : Bytes} (h : p.Recorded tmpdir rq) (hp : p.WellFormed B) (hn : p.Named) :
    p.Decoded rq ↔ p.Readable := by
  unfold FormPart.Recorded at h
  unfold FormPart.Decoded
  cases hfile : p.filename with
  | none =>
    simp only [hfile] at h ⊢
    obtain ⟨dic, hdic, hval⟩ := h
    rw [hn.readable_text hfile, ← value_iff (hp.short hfile)]
    constructor
    · rintro ⟨dic', value, hdic', hval', heq⟩
      cases hdic.symm.trans hdic'
      cases hval.symm.trans hval'
      exact heq
    · intro heq
      exact ⟨dic, p.value, hdic, hval, heq⟩
  | some filename =>
    simp only [hfile] at h ⊢
    rw [h.stored_iff, hn.readable_file hfile]
    rfl

/-- A part that has been decoded is found under one of its keys. -/
theorem FormPart.Decoded.key (h : p.Decoded rq) : ∃ dic, rq.REQUEST_DATA = some dic ∧ ∃ k ∈ p.keys, ∃ v, dic.dvalue k = some v ∧
    p.name <:+: k ∧ ∀ filename ∈ p.filename, v = filename := by
  unfold FormPart.Decoded at h
  unfold FormPart.keys
  cases hfile : p.filename with
  | none =>
    simp only [hfile] at h
    obtain ⟨dic, value, hdic, hval, -⟩ := h
    exact ⟨dic, hdic, p.name, by simp, value, hval, List.infix_rfl, nofun⟩
  | some filename =>
    simp only [hfile] at h
    obtain ⟨dic, path, hdic, -, -, -, hval⟩ := h
    refine ⟨dic, hdic, p.name ++ str ".file", by simp, filename, hval, (List.prefix_append ..).isInfix, ?_⟩
    rintro _ ⟨⟩
    rfl

/-- Nothing in the names ends a parameter but a NUL. -/
def FormPart.Plain (p : FormPart) : Prop := NameText p.name ∧ ∀ filename ∈ p.filename, NameText filename

/-- A name with a NUL cannot be a key or a value. -/
theorem FormPart.Decoded.named (h : p.Decoded rq) (ht : ∀ dic ∈ rq.REQUEST_DATA, Texts dic) (hp : p.Plain) : p.Named := by
  obtain ⟨dic, hdic, k, -, v, hval, hname, hfile⟩ := h.key
  obtain ⟨hkey, hvalue⟩ := ht dic hdic k v hval
  refine ⟨hp.1.quotable fun h0 => hkey.text 0 (by decide) (hname.subset h0), fun filename hf => ?_⟩
  exact (hp.2 filename hf).quotable (hfile filename hf ▸ hvalue)

/-- A request at the start of the text, in surroundings in which everything works. -/
def sampleSent (text : Bytes) : Request := (sampleConn none [] text).rq

def sampleRoom (n time : Nat) : Sys := { sampleSys [] with time := time, write := List.replicate n (.room 0) }

theorem sampleSent_has (text : Bytes) : (sampleSent text).client.Has ([] ++ text) := by
  obtain ⟨t', h⟩ := arrives_bytes 0 0 text []
  rw [List.append_nil] at h
  exact ⟨t', [], h⟩

theorem sampleRoom_stores (n time : Nat) : Stores (sampleRoom n time) n :=
  ⟨fun _ => rfl, fun _ he => ⟨0, List.eq_of_mem_replicate he⟩, (List.length_replicate ..).ge⟩

/-- The first task of the sample finds the delimiter, and no part has been read. -/
theorem Form.sample_start (h : Form B (p :: parts)) : ∃ t rq₁,
    decode_multi_part_request (sampleSent (encodeForm B (p :: parts))) (multipartType B) = .ok (t, rq₁) ∧
      t.handle = some .decode_multi_part_request_data ∧ rq₁.MULTI_PART_BOUNDARY = some B ∧ rq₁.REQUEST_DATA = some .dict ∧
      rq₁.client.Has (p.body ++ encodeForm B parts) := by
  have hhas := sampleSent_has (encodeForm B (p :: parts))
  rw [encodeForm_eq B (p :: parts)] at hhas
  obtain ⟨t, rq₁, hstart, ht, hb, hd₁, -, h₁⟩ :=
    multipart_start h.boundary rfl closed_nil (by simpa using h.boundary.ne) hhas
  rw [← encodeForm_eq] at hstart
  exact ⟨t, rq₁, hstart, ht, hb, hd₁, h₁⟩

/-! ### In the end -/

/-- What `FormStored` says of the sample. -/
theorem FormStored.sample (h : FormStored B parts) (hB : B ≠ []) : ∃ r rq',
    decode_multi_part_request (sampleSent (encodeForm B parts)) (multipartType B) = .ok r ∧
      Ends (sampleConfig none []) (fun _ => sampleRoom (encodeForm B parts).length 0) 0 r rq' ∧ ∀ p ∈ parts, p.Decoded rq' :=
  h _ _ _ [] rfl rfl closed_nil (by simpa using hB) (sampleSent_has _) fun _ => sampleRoom_stores _ _

/-- The chain ends after the first part, and the second one is not decoded. -/
theorem not_stored_of_dashes (h : Form B (p :: q :: parts)) (hapart : Distinct (p :: q :: parts)) (hn : p.Named)
    (hdash : ∀ c ∈ B, c = 45) : ¬ FormStored B (p :: q :: parts) := by
  intro hstored
  obtain ⟨r, rq', hr, hends, hall⟩ := hstored.sample h.boundary.ne
  obtain ⟨t, rq₁, hstart, ht, hb, hd₁, h₁⟩ := h.sample_start
  cases hr.symm.trans hstart
  have hle := form_content_le (B := B) (List.mem_cons_self (a := p) (l := q :: parts))
  have hs := (sampleRoom_stores (encodeForm B (p :: q :: parts)).length 0).mono hle
  obtain ⟨t', rq₂, hdone, hround, hnext⟩ :=
    form_step (sampleConfig none []) h.boundary (h.wellFormed p List.mem_cons_self) hn hs hb (by rw [hd₁]; rfl) h₁
  have heq := hends.unique (.next ht hdone (.stop (by rw [hnext.last (.inr hdash)]; nofun)))
  obtain ⟨dic, hdic, k, hk, v, hval, -⟩ := (hall q (by simp)).key
  obtain ⟨dic', hdic', hsame⟩ := hround.others _ hd₁
  rw [heq, hdic'] at hdic
  cases hdic
  have hapart := (List.pairwise_cons.1 hapart.apart).1 q List.mem_cons_self
  rw [hsame k fun hkp => hapart.keys k hkp hk, Dictionary.dict, Dictionary.dvalue_dict_n] at hval
  cases hval

/-- Every part of the sample has a key that can be read. -/
theorem FormStored.named (hstored : FormStored B parts) (h : Form B parts) (hplain : ∀ p ∈ parts, p.Plain) :
    ∀ p ∈ parts, p.Named := by
  obtain ⟨r, rq', hr, hends, hall⟩ := hstored.sample h.boundary.ne
  obtain ⟨p, parts, rfl⟩ := List.exists_cons_of_ne_nil h.ne
  obtain ⟨t, rq₁, hstart, -, -, hd₁, -⟩ := h.sample_start
  cases hr.symm.trans hstart
  have htexts := hends.texts (by decide) (by rw [hd₁]; rintro _ ⟨⟩; exact texts_dict)
  exact fun p hp => (hall p hp).named htexts (hplain p hp)

theorem FormStored.single (hstored : FormStored B parts) (h : Form B parts) (hapart : Distinct parts)
    (hplain : ∀ p ∈ parts, p.Plain) (hdash : ∀ c ∈ B, c = 45) : parts.length = 1 := by
  have hnamed := hstored.named h hplain
  match parts, h, hapart, hstored, hnamed with
  | [], h, _, _, _ => exact absurd rfl h.ne
  | [_], _, _, _, _ => rfl
  | p :: q :: parts, h, hapart, hstored, hnamed =>
    exact absurd hstored (not_stored_of_dashes h hapart (hnamed p List.mem_cons_self) hdash)

/-- The sample records every part, so the parts that it decodes can be read as they are. -/
theorem FormStored.readable (hstored : FormStored B parts) (h : Form B parts) (hapart : Distinct parts)
    (hplain : ∀ p ∈ parts, p.Plain) : ∀ p ∈ parts, p.Readable := by
  intro p hp
  have hnamed := hstored.named h hplain
  obtain ⟨r, rq', hr, hends, hall⟩ := hstored.sample h.boundary.ne
  obtain ⟨r', rq₂, hr', hends', hrec⟩ := h.recorded hapart hnamed (hstored.single h hapart hplain) (sampleConfig none [])
    (fun _ => sampleRoom (encodeForm B parts).length 0) rfl rfl closed_nil (by simpa using h.boundary.ne) (sampleSent_has _)
    fun _ => sampleRoom_stores _ _
  cases hr.symm.trans hr'
  cases hends.unique hends'
  exact ((hrec p hp).decoded_iff (h.wellFormed p hp) (hnamed p hp)).1 (hall p hp)

theorem Form.stored (h : Form B parts) (hapart : Distinct parts) (hread : ∀ p ∈ parts, p.Readable)
    (hone : (∀ c ∈ B, c = 45) → parts.length = 1) : FormStored B parts := by
  intro cnf sys rq pre hh hd hpre hinf hc hs
  have hnamed : ∀ p ∈ parts, p.Named := fun p hp => (hread p hp).named
  obtain ⟨r, rq', hr, hends, hrec⟩ := h.recorded hapart hnamed hone cnf sys hh hd hpre hinf hc hs
  refine ⟨r, rq', hr, hends, fun p hp => ?_⟩
  exact ((hrec p hp).decoded_iff (h.wellFormed p hp) (hnamed p hp)).2 (hread p hp)

/-! ### In turn -/

variable {cnf : Config} {n : Nat} {t : Task}

/-- A task that writes a file has its path from a parameter of the header line, and puts it under the name of the part. -/
theorem file_of_files {sys : Sys} {f : Bytes × Bytes} {rq' : Request} (h : decode_multi_part_request_data sys cnf rq = .ok (t, rq'))
    (hf : rq'.files = rq.files ++ [f]) : ∃ name filename dic dic', partNames rq = (some name, some filename) ∧
      rq.REQUEST_DATA = some dic ∧ rq'.REQUEST_DATA = some dic' ∧ f.1 = uploadPath cnf.tmpdir filename sys.time ∧
      dic'.dvalue (name ++ str ".file") = some filename ∧
      ∀ name', name' ≠ name → dic'.dvalue (name' ++ str ".tmp") = dic.dvalue (name' ++ str ".tmp") := by
  have hsame : ¬ rq.files = rq.files ++ [f] := by simp
  obtain ⟨rfl | ⟨boundary, line, -, hp⟩, -⟩ := decode_multi_part_request_data_of h
  · exact absurd hf hsame
  unfold partData at hp
  split at hp
  · cases hp
    exact absurd hf hsame
  rename_i name part_file hnames
  simp only at hp
  split at hp
  · obtain ⟨data, -, hp⟩ := Res.bind_ok.1 hp
    cases hp
    exact absurd hf hsame
  rename_i filename
  unfold filePart at hp
  simp only at hp
  split at hp
  · obtain ⟨dic, hdic, hp⟩ := Res.bind_ok.1 hp
    cases hp
    have hnew := List.singleton_injective (List.append_cancel_left hf)
    refine ⟨name, filename, dic, _, hnames, deref_ok.1 hdic, rfl, by rw [← hnew], ?_, fun name' hne => ?_⟩
    · -- the other keys end in something else
      have hft : str ".file" ≠ str ".tmp" := by decide
      have hfs : str ".file" ≠ str ".size" := by decide
      have hfe : str ".file" ≠ str ".ext" := by decide
      simp [Dictionary.dvalue_dput, hft, hfs, hfe]
    · have hfile : str ".file" = 46 :: str "file" := by decide
      have htmp : str ".tmp" = 46 :: str "tmp" := by decide
      have hsize : str ".size" = 46 :: str "size" := by decide
      have hext : str ".ext" = 46 :: str "ext" := by decide
      simp only [hfile, htmp, hsize, hext]
      simp (disch := decide) only [dvalue_field]
      simp [hne]
  · cases hp
    exact absurd hf hsame

/-- Only a name that can be read back is found under its key, for one time and for another. -/
theorem FormPart.named_of_taken (htmp : 0 ∉ cnf.tmpdir) (ht : ∀ dic ∈ rq.REQUEST_DATA, Texts dic)
    (h : ∀ sys, Stores sys n → ∃ r, decode_multi_part_request_data sys cnf rq = .ok r ∧ p.Taken rq r.2) : p.Named := by
  have hsample (time : Nat) := h (sampleRoom n time) (sampleRoom_stores n time)
  unfold FormPart.Taken at hsample
  cases hf : p.filename with
  | none =>
    simp only [hf] at hsample
    obtain ⟨r, hr, dic, value, hdic, hval, -⟩ := hsample 0
    exact ⟨(part_texts htmp ht hr dic hdic p.name value hval).1, by simp [hf]⟩
  | some filename =>
    simp only [hf] at hsample
    obtain ⟨r₀, hr₀, dic₀, path₀, hdic₀, hfiles₀, htmp₀, -, hfile₀⟩ := hsample 0
    obtain ⟨r₁, hr₁, dic₁, path₁, hdic₁, hfiles₁, htmp₁, -, -⟩ := hsample 1
    obtain ⟨name, part_file, dic, dic', hnames, hdic, hdic', hpath₀, hpart, hother₀⟩ := file_of_files hr₀ hfiles₀
    obtain ⟨name', part_file', dic₂, dic₂', hnames', hdic₂, hdic₂', hpath₁, -, hother₁⟩ := file_of_files hr₁ hfiles₁
    cases hdic₀.symm.trans hdic'
    cases hdic₁.symm.trans hdic₂'
    cases hdic.symm.trans hdic₂
    cases hnames.symm.trans hnames'
    -- an old path would be the same in both runs
    have hname : p.name = name := by
      by_contra hne
      have heq : path₀ = path₁ :=
        Option.some.inj ((htmp₀.symm.trans (hother₀ _ hne)).trans ((hother₁ _ hne).symm.trans htmp₁))
      have htime := (uploadPath_inj.1 (hpath₀.symm.trans (heq.trans hpath₁))).2
      simp [sampleRoom] at htime
    subst hname
    cases hfile₀.symm.trans hpart
    have hquotable := params_quotable (readUntil (strstr · (str "Content-Disposition:")) rq.client).1
    rw [← partNames, hnames] at hquotable
    refine ⟨hquotable.1 _ rfl, fun filename' hf' => hquotable.2 _ ?_⟩
    rw [← hf]
    exact hf'

/-- If the parts can be read as they are, each task takes one. -/
theorem Form.inTurn (hB : BoundaryText B) (hmore : parts ≠ [] → ¬ ∀ c ∈ B, c = 45)
    (hwf : ∀ q ∈ p :: parts, q.WellFormed B ∧ q.Readable ∧ q.content.length + 2 ≤ n)
    (hb : rq.MULTI_PART_BOUNDARY = some B) (hd : rq.REQUEST_DATA.isSome) (h : rq.client.Has (p.body ++ encodeForm B parts))
    (ht : t.handle = some .decode_multi_part_request_data) : InTurn cnf n (t, rq) (p :: parts) := by
  induction parts generalizing p rq t with
  | nil =>
    obtain ⟨hp, hread, hlen⟩ := hwf p List.mem_cons_self
    refine ⟨ht, fun sys hs => ?_⟩
    obtain ⟨t', rq', hr, hround, hnext⟩ := form_step cnf hB hp hread.named (hs.mono hlen) hb hd h
    refine ⟨_, hr, hround.taken.2 hread, ?_⟩
    rw [InTurn, hnext.last (.inl rfl)]
    nofun
  | cons q parts ih =>
    obtain ⟨hp, hread, hlen⟩ := hwf p List.mem_cons_self
    refine ⟨ht, fun sys hs => ?_⟩
    obtain ⟨t', rq', hr, hround, hnext⟩ := form_step cnf hB hp hread.named (hs.mono hlen) hb hd h
    obtain ⟨ht', h'⟩ := hnext.more q parts rfl (hmore (by simp))
    refine ⟨_, hr, hround.taken.2 hread, ?_⟩
    exact ih (fun _ => hmore (by simp)) (fun q hq => hwf q (List.mem_cons_of_mem _ hq)) hnext.boundary
      hround.recorded.data h' ht'

/-- The first part is one that can be read as it is, and the tasks after it go on. -/
theorem InTurn.head (hB : BoundaryText B) (hp : p.WellFormed B) (hlen : p.content.length + 2 ≤ n)
    (htmp : 0 ∉ cnf.tmpdir) (htexts : ∀ dic ∈ rq.REQUEST_DATA, Texts dic) (hb : rq.MULTI_PART_BOUNDARY = some B)
    (hd : rq.REQUEST_DATA.isSome) (h : rq.client.Has (p.body ++ encodeForm B parts)) (hturn : InTurn cnf n (t, rq) (p :: parts)) :
    p.Readable ∧ ∃ t' rq', InTurn cnf n (t', rq') parts ∧ Follows B parts t' rq' ∧ rq'.REQUEST_DATA.isSome ∧
      ∀ dic ∈ rq'.REQUEST_DATA, Texts dic := by
  obtain ⟨-, hall⟩ := hturn
  have hn : p.Named := by
    refine FormPart.named_of_taken (n := n) htmp htexts fun sys hs => ?_
    obtain ⟨r, hr, htaken, -⟩ := hall sys hs
    exact ⟨r, hr, htaken⟩
  have hs := sampleRoom_stores n 0
  obtain ⟨r, hr, htaken, hrest⟩ := hall _ hs
  obtain ⟨t', rq', hr', hround, hnext⟩ := form_step cnf hB hp hn (hs.mono hlen) hb hd h
  cases hr.symm.trans hr'
  exact ⟨hround.taken.1 htaken, t', rq', hrest, hnext, hround.recorded.data, part_texts htmp htexts hr⟩

/-- If each task takes a part, the parts can be read as they are. -/
theorem InTurn.readable (hB : BoundaryText B) (hwf : ∀ q ∈ p :: parts, q.WellFormed B ∧ q.content.length + 2 ≤ n)
    (htmp : 0 ∉ cnf.tmpdir) (htexts : ∀ dic ∈ rq.REQUEST_DATA, Texts dic) (hb : rq.MULTI_PART_BOUNDARY = some B)
    (hd : rq.REQUEST_DATA.isSome) (h : rq.client.Has (p.body ++ encodeForm B parts)) (hturn : InTurn cnf n (t, rq) (p :: parts)) :
    (∀ q ∈ p :: parts, q.Readable) ∧ (parts ≠ [] → ¬ ∀ c ∈ B, c = 45) := by
  induction parts generalizing p rq t with
  | nil =>
    obtain ⟨hp, hlen⟩ := hwf p List.mem_cons_self
    obtain ⟨hread, -⟩ := hturn.head hB hp hlen htmp htexts hb hd h
    refine ⟨fun q hq => ?_, fun hne => absurd rfl hne⟩
    rwa [List.mem_singleton.1 hq]
  | cons q parts ih =>
    obtain ⟨hp, hlen⟩ := hwf p List.mem_cons_self
    obtain ⟨hread, t', rq', hrest, hnext, hd', htexts'⟩ := hturn.head hB hp hlen htmp htexts hb hd h
    -- the next task has been made, so the delimiter was not the last one
    have hdash : ¬ ∀ c ∈ B, c = 45 := fun hdash => absurd hrest.1 (by rw [hnext.last (.inr hdash)]; nofun)
    obtain ⟨-, h'⟩ := hnext.more q parts rfl hdash
    obtain ⟨hreads, -⟩ := ih (fun q hq => hwf q (List.mem_cons_of_mem _ hq)) htexts' hnext.boundary hd' h' hrest
    refine ⟨fun q' hq' => ?_, fun _ => hdash⟩
    rcases List.mem_cons.1 hq' with rfl | hq'
    · exact hread
    · exact hreads q' hq'

theorem Form.taken (h : Form B parts) (hread : ∀ p ∈ parts, p.Readable) (hone : (∀ c ∈ B, c = 45) → parts.length = 1) :
    FormTaken B parts := by
  intro cnf rq pre hh hd hpre hinf hc
  obtain ⟨p, parts, rfl⟩ := List.exists_cons_of_ne_nil h.ne
  have hlen : ∀ q ∈ p :: parts, q.content.length + 2 ≤ (pre ++ encodeForm B (p :: parts)).length := by
    intro q hq
    have hle := form_content_le (B := B) hq
    rw [List.length_append]
    omega
  rw [encodeForm_eq] at hc
  obtain ⟨t, rq₁, hstart, ht, hb, hd₁, -, h₁⟩ := multipart_start h.boundary hh hpre hinf hc
  refine ⟨_, hstart, Form.inTurn h.boundary (fun hne hdash => ?_) (fun q hq => ⟨h.wellFormed q hq, hread q hq, hlen q hq⟩) hb
    (by rw [hd₁]; exact hd) h₁ ht⟩
  exact hne (List.length_eq_zero_iff.1 (Nat.succ.inj (hone hdash)))

theorem FormTaken.readable (htaken : FormTaken B parts) (h : Form B parts) :
    (∀ p ∈ parts, p.Readable) ∧ ((∀ c ∈ B, c = 45) → parts.length = 1) := by
  obtain ⟨p, parts, rfl⟩ := List.exists_cons_of_ne_nil h.ne
  obtain ⟨t, rq₁, hstart, ht, hb, hd₁, h₁⟩ := h.sample_start
  obtain ⟨r, hr, hturn⟩ := htaken (sampleConfig none []) _ [] rfl rfl closed_nil (by simpa using h.boundary.ne) (sampleSent_has _)
  cases hr.symm.trans hstart
  obtain ⟨hread, hdash⟩ := hturn.readable h.boundary (fun q hq => ⟨h.wellFormed q hq, form_content_le hq⟩) (by decide)
    (by rw [hd₁]; rintro _ ⟨⟩; exact texts_dict) hb (by rw [hd₁]; rfl) h₁
  refine ⟨hread, fun hall => ?_⟩
  by_contra hlen
  exact hdash (fun hnil => hlen (by rw [hnil]; rfl)) hall

/-- The parts of a form are decoded, whatever surrounds the tasks, exactly when each can be read as it is, a text as a
single line, and a boundary of dashes has a single part. -/
theorem multipart_decoded_iff (h : Form B parts) : MultipartDecoded B parts ↔
    (∀ p ∈ parts, p.Readable) ∧ ((∀ c ∈ B, c = 45) → parts.length = 1) := by
  constructor
  · intro hdecoded
    exact hdecoded.taken.readable h
  · rintro ⟨hread, hone⟩
    exact ⟨h.taken hread hone, fun hapart => h.stored hapart hread hone⟩

end Form

/-- Two text fields of one name and a file. -/
def sampleFields (content : Bytes) : List FormPart :=
  [⟨str "a", none, content, [], []⟩, ⟨str "a", none, str "\"z\"", [], []⟩, ⟨str "b c", some (str "y/\".c"), str "z", [str "X: 1"], []⟩]

theorem sampleFields_form {content : Bytes} (hc : ¬ str "B--" <:+: content) (hlen : content.length < BUFFLEN) :
    Form (str "B--") (sampleFields content) where
  boundary := ⟨by decide, by decide +kernel, by decide, by decide⟩
  ne := nofun
  wellFormed p hp := by
    have hheader : ∀ l ∈ [str "Content-Disposition: form-data; name=\"" ++ str "a" ++ [34]],
        l ≠ [] ∧ 10 ∉ l ∧ l.length + 2 < BUFFLEN ∧ ¬ str "B--" <:+: l := by decide
    rcases List.mem_cons.1 hp with rfl | hp
    · exact ⟨hheader, nofun, hc, fun _ => hlen⟩
    rcases List.mem_cons.1 hp with rfl | hp
    · exact ⟨hheader, nofun, by decide, fun _ => by decide⟩
    · rcases List.mem_singleton.1 hp with rfl
      exact ⟨by decide, by decide, by decide, nofun⟩

theorem multipart_decoded_iff_line : MultipartDecoded (str "B--") (sampleFields (str " x y ")) := by
  refine (multipart_decoded_iff (sampleFields_form (by decide) (by decide))).2 ⟨fun p hp => ?_, by decide⟩
  have hquotable : ∀ s ∈ ([str "a", str "b c", str "y/\".c"] : List Bytes), Quotable s := by
    have hs : ∀ s ∈ ([str "a", str "b c", str "y/\".c"] : List Bytes), (∀ c ∈ ([0, 59, 61] : Bytes), c ∉ s) ∧
        s.head? ≠ some 34 ∧ s.getLast? ≠ some 34 := by decide +kernel
    exact fun s hmem => ⟨(hs s hmem).1, (hs s hmem).2.1, (hs s hmem).2.2⟩
  rcases List.mem_cons.1 hp with rfl | hp
  · exact ⟨⟨hquotable _ (by decide), nofun⟩, nofun, fun _ => ⟨by decide, List.all_eq_true.1 rfl⟩⟩
  rcases List.mem_cons.1 hp with rfl | hp
  · exact ⟨⟨hquotable _ (by decide), nofun⟩, nofun, fun _ => ⟨by decide, List.all_eq_true.1 rfl⟩⟩
  · rcases List.mem_singleton.1 hp with rfl
    exact ⟨⟨hquotable _ (by decide), by rintro _ ⟨⟩; exact hquotable _ (by decide)⟩, fun _ => by decide, nofun⟩

/-- Of a text of two lines the second one is lost. -/
theorem second_line_lost : ¬ ∀ (B : Bytes) (parts : List FormPart), Form B parts → MultipartDecoded B parts := by
  intro hall
  have hform : Form (str "B--") (sampleFields [97, 13, 10, 98]) := sampleFields_form (by decide) (by decide)
  have hread := ((hall _ _ hform).taken.readable hform).1 _ List.mem_cons_self
  exact absurd (hread.text rfl).2 (by decide)

/-! ## Files only -/

def encode (B : Bytes) : List FilePart → Bytes
  | [] => str "--" ++ B ++ str "--"
  | p :: parts => str "--" ++ B ++ CRLF ++ p.body ++ encode B parts

/-- The parts are told apart by their names. -/
structure Body (B : Bytes) (parts : List FilePart) : Prop where
  boundary : BoundaryText B
  ne : parts ≠ []
  wellFormed : ∀ p ∈ parts, p.WellFormed B
  names : (parts.map (·.name)).Nodup
  filenames : (parts.map (·.filename)).Nodup

/-- Whatever surrounds the tasks, when the body arrives they end with each part stored. -/
def Uploaded (B : Bytes) (parts : List FilePart) : Prop :=
  ∀ (cnf : Config) (sys : Nat → Sys) (rq : Request) (pre : Bytes), rq.REQUEST_HEADER.isSome → rq.REQUEST_DATA.isSome →
    Closed pre → ¬ B <:+: pre → rq.client.Has (pre ++ encode B parts) →
    (∀ i, Stores (sys i) (pre ++ encode B parts).length) →
    ∃ r rq', decode_multi_part_request rq (multipartType B) = .ok r ∧ Ends cnf sys 0 r rq' ∧ ∀ p ∈ parts, Stored rq' p

/-- The file as a field of a form. -/
def FilePart.part (p : FilePart) : FormPart := ⟨p.name, some p.filename, p.content, p.before, p.after⟩

section Files

variable {B : Bytes} {parts : List FilePart}

theorem encodeForm_files (B : Bytes) (parts : List FilePart) : encodeForm B (parts.map FilePart.part) = encode B parts := by
  induction parts with
  | nil => rfl
  | cons p parts ih =>
    have hbody : p.part.body = p.body := FormPart.body_file rfl
    rw [List.map_cons, encodeForm, encode, ih, hbody]

theorem FilePart.keys_nodup (p : FilePart) : p.part.keys.Nodup := by
  have hkeys : p.part.keys = [str ".file", str ".tmp", str ".size", str ".ext"].map (p.name ++ ·) := rfl
  have hnodup : [str ".file", str ".tmp", str ".size", str ".ext"].Nodup := by decide
  rw [hkeys]
  exact hnodup.map (List.append_right_injective p.name)

/-- What stands before the last dot of a key is the name. -/
theorem FilePart.keys_apart {p q : FilePart} {k : Bytes} (hp : k ∈ p.part.keys) (hq : k ∈ q.part.keys) : p.name = q.name := by
  have hdot (p : FilePart) (hk : k ∈ p.part.keys) : ∃ s, 46 ∉ s ∧ k = p.name ++ 46 :: s := by
    have hkeys : k ∈ [str "file", str "tmp", str "size", str "ext"].map (p.name ++ 46 :: ·) := hk
    obtain ⟨s, hs, rfl⟩ := List.mem_map.1 hkeys
    have hnodot : ∀ s ∈ [str "file", str "tmp", str "size", str "ext"], 46 ∉ s := by decide
    exact ⟨s, hnodot s hs, rfl⟩
  obtain ⟨s, hs, rfl⟩ := hdot p hp
  obtain ⟨t, ht, heq⟩ := hdot q hq
  exact (last_sep_inj hs ht heq).1

/-- Files with distinct names are a form. -/
theorem Body.form (h : Body B parts) : Form B (parts.map FilePart.part) where
  boundary := h.boundary
  ne := by simpa using h.ne
  wellFormed := by
    intro p hp
    obtain ⟨p, hmem, rfl⟩ := List.mem_map.1 hp
    have hp := h.wellFormed p hmem
    exact ⟨hp.header, hp.first, hp.content, nofun⟩

theorem Body.distinct (h : Body B parts) : Distinct (parts.map FilePart.part) where
  keys := by
    rw [List.flatMap_map]
    refine List.nodup_flatMap.2 ⟨fun p _ => p.keys_nodup, (List.pairwise_map.1 h.names).imp fun hne => ?_⟩
    exact fun k hp hq => hne (FilePart.keys_apart hp hq)
  filenames := by
    have hfiles : (parts.map FilePart.part).filterMap FormPart.filename = parts.map (·.filename) := by
      have hsome : FormPart.filename ∘ FilePart.part = some ∘ FilePart.filename := rfl
      rw [List.filterMap_map, hsome, List.filterMap_eq_map]
    rw [hfiles]
    exact h.filenames

theorem Body.plain (h : Body B parts) : ∀ p ∈ parts.map FilePart.part, p.Plain := by
  rw [List.forall_mem_map]
  intro p hp
  refine ⟨(h.wellFormed p hp).name, ?_⟩
  rintro _ ⟨⟩
  exact (h.wellFormed p hp).filename

theorem uploaded_iff_form : Uploaded B parts ↔ FormStored B (parts.map FilePart.part) := by
  simp only [Uploaded, FormStored, encodeForm_files, List.forall_mem_map]
  rfl

/-- The parts of a body are stored, whatever surrounds the tasks, exactly when no name has a NUL in it, each
size fits an `int`, and a boundary of dashes has a single part. -/
theorem uploaded_iff (h : Body B parts) : Uploaded B parts ↔
    (∀ p ∈ parts, 0 ∉ p.name ∧ 0 ∉ p.filename ∧ p.content.length < 2 ^ 31) ∧
      ((∀ c ∈ B, c = 45) → parts.length = 1) := by
  rw [uploaded_iff_form]
  constructor
  · intro hstored
    have hread := hstored.readable h.form h.distinct h.plain
    refine ⟨fun p hp => ?_, fun hdash => ?_⟩
    · have hp := hread p.part (List.mem_map_of_mem hp)
      exact ⟨hp.named.name.text 0 (by decide), (hp.named.filename _ rfl).text 0 (by decide), hp.file rfl⟩
    · rw [← List.length_map FilePart.part]
      exact hstored.single h.form h.distinct h.plain hdash
  · rintro ⟨hparts, hone⟩
    refine h.form.stored h.distinct (fun q hq => ?_) fun hdash => (List.length_map ..).trans (hone hdash)
    obtain ⟨p, hp, rfl⟩ := List.mem_map.1 hq
    obtain ⟨hn, hf, hlen⟩ := hparts p hp
    obtain ⟨hname, hfile⟩ := h.plain _ (List.mem_map_of_mem hp)
    exact ⟨⟨hname.quotable hn, fun _ he => (hfile _ he).quotable (by cases he; exact hf)⟩, fun _ => hlen, nofun⟩

end Files

/-- Two files, one of them with a NUL and a CR in it. -/
def sampleParts : List FilePart :=
  [⟨str "a", str "x.txt", [0, 13, 45, 45], [], [str "Content-Type: text/plain"]⟩, ⟨str "b", str "y", [], [str "X: 1"], []⟩]

theorem sampleParts_body {B : Bytes} (hB : BoundaryText B)
    (hw : ∀ p ∈ sampleParts, ∀ l ∈ p.content :: p.before ++ p.disposition :: p.after, ¬ B <:+: l) : Body B sampleParts where
  boundary := hB
  ne := nofun
  wellFormed p hp := by
    have hname : ∀ p ∈ sampleParts, NameText p.name ∧ NameText p.filename := by unfold NameText; decide +kernel
    have hheader : ∀ p ∈ sampleParts, ∀ l ∈ p.before ++ p.disposition :: p.after, l ≠ [] ∧ 10 ∉ l ∧ l.length + 2 < BUFFLEN := by
      decide
    have hfirst : ∀ p ∈ sampleParts, ∀ l ∈ p.before, ¬ str "Content-Disposition:" <:+: l := by decide
    refine ⟨(hname p hp).1, (hname p hp).2, fun l hl => ?_, hfirst p hp, hw p hp _ List.mem_cons_self⟩
    obtain ⟨hne, h10, hlen⟩ := hheader p hp l hl
    exact ⟨hne, h10, hlen, hw p hp l (List.mem_cons_of_mem _ hl)⟩
  names := by decide
  filenames := by decide

theorem uploaded_iff_two : Uploaded (str "B--") sampleParts :=
  (uploaded_iff (sampleParts_body ⟨by decide, by decide +kernel, by decide, by decide⟩ (by decide))).2 ⟨by decide, by decide⟩

/-- With a boundary of dashes only the first file is stored. -/
theorem second_part_lost : ¬ ∀ (B : Bytes) (parts : List FilePart), Body B parts → Uploaded B parts := by
  intro hall
  have hbody : Body (str "---") sampleParts := sampleParts_body ⟨by decide, by decide +kernel, by decide, by decide⟩ (by decide)
  have hplain := hbody.plain _ List.mem_cons_self
  have hf : ∀ filename ∈ some (str "x.txt"), 0 ∉ filename := by decide
  have hnamed : FormPart.Named ⟨str "a", some (str "x.txt"), [0, 13, 45, 45], [], [str "Content-Type: text/plain"]⟩ :=
    ⟨hplain.1.quotable (by decide), fun _ he => (hplain.2 _ he).quotable (hf _ he)⟩
  exact not_stored_of_dashes hbody.form hbody.distinct hnamed (by decide +kernel) (uploaded_iff_form.1 (hall _ _ hbody))

end AntHttp
