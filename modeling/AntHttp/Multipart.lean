import AntHttp.Lines
import AntHttp.Uploads
/-!
# Uploading files in a multipart body

What a client sends for a file, and what the handlers
`decode_multi_part_request` and `decode_multi_part_request_data` make of it. A
boundary of dashes alone makes each delimiter look like the last one, a size
from 2^31 on does not fit the `int` that counts it, and a name is read up to its
first NUL.
-/

namespace AntHttp

open CString

/-! ## The body -/

def CRLF : Bytes := [13, 10]

/-- A file, and the lines of its header before and after its name. -/
structure FilePart where
  name : Bytes
  filename : Bytes
  content : Bytes
  before : List Bytes
  after : List Bytes

def FilePart.disposition (p : FilePart) : Bytes :=
  str "Content-Disposition: form-data; name=\"" ++ p.name ++ str "\"; filename=\"" ++ p.filename ++ [34]

def headerText (lines : List Bytes) : Bytes := (lines.map (· ++ CRLF)).flatten

/-- What stands between two delimiters, the line end before the second one included. -/
def FilePart.body (p : FilePart) : Bytes :=
  headerText p.before ++ (p.disposition ++ CRLF) ++ headerText p.after ++ CRLF ++ p.content ++ CRLF

/-- The value of the header field `Content-Type`. -/
def multipartType (B : Bytes) : Bytes := str "multipart/form-data; boundary=" ++ B

/-- `;`, `=`, `"`, CR, LF, space and `/` do not occur in a name. -/
def NameText (s : Bytes) : Prop := ∀ c ∈ ([59, 61, 34, 13, 10, 32, 47] : Bytes), c ∉ s

/-- A string that is read back as it is from between quotes: `;` and `=` would cut it, and a quote at its end would go
with the one around it. -/
structure Quotable (s : Bytes) : Prop where
  text : ∀ c ∈ ([0, 59, 61] : Bytes), c ∉ s
  head : s.head? ≠ some 34
  last : s.getLast? ≠ some 34

/-- The lines of a part's header, and a content without the boundary. -/
structure FilePart.Framed (B : Bytes) (p : FilePart) : Prop where
  header : ∀ l ∈ p.before ++ p.disposition :: p.after, l ≠ [] ∧ 10 ∉ l ∧ l.length + 2 < BUFFLEN ∧ ¬ B <:+: l
  first : ∀ l ∈ p.before, ¬ str "Content-Disposition:" <:+: l
  content : ¬ B <:+: p.content

structure FilePart.WellFormed (B : Bytes) (p : FilePart) : Prop where
  name : NameText p.name
  filename : NameText p.filename
  header : ∀ l ∈ p.before ++ p.disposition :: p.after, l ≠ [] ∧ 10 ∉ l ∧ l.length + 2 < BUFFLEN ∧ ¬ B <:+: l
  first : ∀ l ∈ p.before, ¬ str "Content-Disposition:" <:+: l
  content : ¬ B <:+: p.content

theorem FilePart.WellFormed.framed {B : Bytes} {p : FilePart} (h : p.WellFormed B) : p.Framed B := ⟨h.header, h.first, h.content⟩

theorem NameText.quotable {s : Bytes} (h : NameText s) (h0 : 0 ∉ s) : Quotable s where
  text c hc := by
    simp only [List.mem_cons, List.not_mem_nil, or_false] at hc
    rcases hc with rfl | rfl | rfl
    · exact h0
    · exact h 59 (by decide)
    · exact h 61 (by decide)
  head hh := h 34 (by decide) (List.mem_of_mem_head? hh)
  last hl := h 34 (by decide) (List.mem_of_getLast? hl)

/-- A boundary without `=` and spaces, as it can be read from a header line. -/
structure BoundaryText (B : Bytes) : Prop where
  ne : B ≠ []
  text : ∀ c ∈ ([61, 32, 10, 0] : Bytes), c ∉ B
  last : 13 ∉ B.getLast?
  line : (str "Content-Type: " ++ multipartType B ++ CRLF).length < BUFFLEN

/-! ## The chain of tasks -/

/-- The tasks from the `i`-th on, each in its own surroundings, end with this request. -/
inductive Ends (cnf : Config) (sys : Nat → Sys) : Nat → Task × Request → Request → Prop
  | stop {i t rq} : t.handle ≠ some .decode_multi_part_request_data → Ends cnf sys i (t, rq) rq
  | next {i t rq r rq'} : t.handle = some .decode_multi_part_request_data →
      decode_multi_part_request_data (sys i) cnf rq = .ok r → Ends cnf sys (i + 1) r rq' → Ends cnf sys i (t, rq) rq'

theorem Ends.unique {cnf : Config} {sys : Nat → Sys} {i : Nat} {r : Task × Request} {rq rq' : Request}
    (h : Ends cnf sys i r rq) (h' : Ends cnf sys i r rq') : rq = rq' := by
  induction h with
  | stop ht =>
    cases h' with
    | stop => rfl
    | next ht' => exact absurd ht' ht
  | next ht hr _ ih =>
    cases h' with
    | stop ht' => exact absurd ht ht'
    | next _ hr' h' =>
      cases hr.symm.trans hr'
      exact ih h'

/-- What the file at `path` holds in the end. -/
def fileAt (files : List (Bytes × Bytes)) (path : Bytes) : Option Bytes :=
  (files.reverse.find? fun f => f.1 = path).map Prod.snd

/-- The file of the part can be found by the fields of the request, and has its bytes. -/
def Stored (rq : Request) (p : FilePart) : Prop :=
  ∃ dic path, rq.REQUEST_DATA = some dic ∧ dic.dvalue (p.name ++ str ".tmp") = some path ∧
    fileAt rq.files path = some p.content ∧ dic.dvalue (p.name ++ str ".size") = some (decimal p.content.length) ∧
    dic.dvalue (p.name ++ str ".file") = some p.filename

/-- All file operations succeed, on `n` bytes at least. -/
def Stores (sys : Sys) (n : Nat) : Prop := (∀ path, sys.openTemp path = true) ∧ Rooms n sys.write

/-! ## Reading the header of a part -/

section Header

variable {p : FilePart} {B l more : Bytes} {c : Client}

/-- Lines at which the loop does not stop. -/
theorem Client.Has.readUntil_lines (stop : Bytes → Bool) {lines : List Bytes} (hl : ∀ l ∈ lines, l ≠ [] ∧ 10 ∉ l ∧ l.length + 2 < BUFFLEN)
    (hs : ∀ l ∈ lines, stop (cstr (l ++ CRLF)) = false) (h : c.Has (headerText lines ++ more)) :
    ∃ c', readUntil stop c = readUntil stop c' ∧ c'.Has more := by
  induction lines generalizing c with
  | nil => exact ⟨c, rfl, h⟩
  | cons l lines ih =>
    obtain ⟨hne, h10, hlen⟩ := hl l List.mem_cons_self
    have htext : headerText (l :: lines) ++ more = (l ++ [13]) ++ 10 :: (headerText lines ++ more) := by
      simp [headerText, CRLF]
    rw [htext] at h
    obtain ⟨c₁, hr, h₁⟩ := h.read_line (by simp [h10]) (by simpa using hlen)
    obtain ⟨c₂, hc₂, h₂⟩ := ih (fun l hl' => hl l (List.mem_cons_of_mem _ hl')) (fun l hl' => hs l (List.mem_cons_of_mem _ hl')) h₁
    have hstop := hs l List.mem_cons_self
    have hcrlf : l ++ [13] ++ [10] = l ++ CRLF := by simp [CRLF]
    refine ⟨c₂, ?_, h₂⟩
    rw [readUntil_eq hr (by simp), hcrlf, hstop, ← hc₂]
    rfl

/-- The loop stops at a line. -/
theorem Client.Has.readUntil_line (stop : Bytes → Bool) (h10 : 10 ∉ l) (hlen : l.length + 2 < BUFFLEN)
    (hs : stop (cstr (l ++ CRLF)) = true) (h : c.Has (l ++ CRLF ++ more)) : ∃ c', readUntil stop c = (l ++ CRLF, c') ∧ c'.Has more := by
  have htext : l ++ CRLF ++ more = (l ++ [13]) ++ 10 :: more := by simp [CRLF]
  rw [htext] at h
  obtain ⟨c₁, hr, h₁⟩ := h.read_line (by simp [h10]) (by simpa using hlen)
  have hcrlf : l ++ [13] ++ [10] = l ++ CRLF := by simp [CRLF]
  rw [hcrlf] at hr
  exact ⟨c₁, by rw [readUntil_eq hr (by simp [CRLF]), hs]; rfl, h₁⟩

/-- A line is not blank. -/
theorem not_blank (hne : l ≠ []) (h10 : 10 ∉ l) : strneq (cstr (l ++ CRLF)) [13, 10] 2 = false := by
  refine Bool.eq_false_iff.2 fun hs => ?_
  have htake : (cstr (l ++ CRLF)).take 2 = [13, 10] := of_decide_eq_true hs
  have hpre : [13, 10] <+: l ++ CRLF := by
    rw [← htake]
    exact (List.take_prefix ..).trans (cstr_isPrefix _)
  obtain ⟨a, l, rfl⟩ := List.exists_cons_of_ne_nil hne
  obtain ⟨-, hpre⟩ := List.cons_prefix_cons.1 hpre
  cases l with
  | nil => exact absurd (List.cons_prefix_cons.1 hpre).1 (by decide)
  | cons b l => exact h10 (by rw [(List.cons_prefix_cons.1 hpre).1]; simp)

/-- The text does not straddle a line end that it has no part of. -/
theorem infix_append_crlf {pat : Bytes} (h10 : 10 ∉ pat) (hlast : 13 ∉ pat.getLast?) (h : pat <:+: l ++ CRLF) : pat <:+: l := by
  obtain ⟨s, t, ht⟩ := h
  rcases List.eq_nil_or_concat t with rfl | ⟨t, x, rfl⟩
  · rcases List.eq_nil_or_concat pat with rfl | ⟨pat, y, rfl⟩
    · exact List.nil_infix
    · have hy := congrArg List.getLast? ht
      simp [CRLF] at hy
      exact absurd (by simp [hy]) h10
  · have hx : s ++ pat ++ t = l ++ [13] := by
      have ht' : (s ++ pat ++ t) ++ [x] = (l ++ [13]) ++ [10] := by simpa [CRLF] using ht
      exact (List.append_inj' ht' rfl).1
    rcases List.eq_nil_or_concat t with rfl | ⟨t, y, rfl⟩
    · rcases List.eq_nil_or_concat pat with rfl | ⟨pat, z, rfl⟩
      · exact List.nil_infix
      · have hz := congrArg List.getLast? hx
        simp at hz
        exact absurd (by simp [hz]) hlast
    · have hx' : (s ++ pat ++ t) ++ [y] = l ++ [13] := by simpa using hx
      exact ⟨s, t, (List.append_inj' hx' rfl).1⟩

/-- A quoted value, with the line end if it comes last. -/
theorem trim_value {s : Bytes} (hs : Quotable s) {tail : Bytes} (ht : tail = [] ∨ tail = CRLF) :
    trim (trim (trim (trim (34 :: s ++ 34 :: tail) 32) 10) 13) 34 = s := by
  have hkeep {d : UInt8} (hd : 34 ≠ d) : trim (34 :: s ++ [34]) d = 34 :: s ++ [34] := trim_between hd s hd
  have hquoted := trim_quoted hs.head hs.last
  rcases ht with rfl | rfl
  · rw [hkeep (by decide), hkeep (by decide), hkeep (by decide), hquoted]
  · have htext : 34 :: s ++ 34 :: CRLF = 34 :: (s ++ [34, 13]) ++ [10] := by simp [CRLF]
    have htext' : 34 :: (s ++ [34, 13]) = 34 :: (s ++ [34]) ++ [13] := by simp
    have h32 : trim (34 :: (s ++ [34, 13]) ++ [10]) 32 = 34 :: (s ++ [34, 13]) ++ [10] :=
      trim_between (by decide) _ (by decide)
    have h10 : trim (34 :: (s ++ [34]) ++ [13]) 10 = 34 :: (s ++ [34]) ++ [13] := trim_between (by decide) _ (by decide)
    have hquote : 34 :: (s ++ [34]) = 34 :: s ++ [34] := rfl
    rw [htext, h32, trim_concat, htext', h10, trim_concat, hquote, hkeep (by decide), hquoted]

/-- A parameter with its value in quotes. -/
theorem partParam_quoted {names : Option Bytes × Option Bytes} {a : UInt8} {key s : Bytes} (hk : 61 ∉ a :: key)
    (hs : Quotable s) {tail : Bytes} (ht : tail = [] ∨ tail = CRLF) :
    partParam names (a :: key ++ 61 :: (34 :: s ++ 34 :: tail)) =
      if trim (a :: key) 32 = str "name" then (some s, names.2)
      else if trim (a :: key) 32 = str "filename" then (names.1, some s) else names := by
  have hv : (61 : UInt8) ∉ 34 :: s ++ 34 :: tail := by
    have hs61 := hs.text 61 (by decide)
    rcases ht with rfl | rfl <;> simp [hs61, CRLF]
  unfold partParam
  rw [strsep_append hk]
  simp only
  rw [strsep_eq_self hv]
  simp only
  rw [trim_value hs ht]

/-- The header line names the part and its file. -/
theorem disposition_params (hn : Quotable p.name) (hf : Quotable p.filename) :
    (split 59 (cstr (p.disposition ++ CRLF))).foldl partParam (none, none) = (some p.name, some p.filename) := by
  have htext : p.disposition ++ CRLF = str "Content-Disposition: form-data" ++ 59 ::
      ((str " name" ++ 61 :: (34 :: p.name ++ 34 :: [])) ++ 59 ::
        (str " filename" ++ 61 :: (34 :: p.filename ++ 34 :: CRLF))) := by
    have h₁ : str "Content-Disposition: form-data; name=\"" = str "Content-Disposition: form-data" ++ 59 :: str " name" ++ [61, 34] := by
      decide
    have h₂ : str "\"; filename=\"" = 34 :: 59 :: str " filename" ++ [61, 34] := by decide
    simp [FilePart.disposition, h₁, h₂, CRLF]
  have h0 : (0 : UInt8) ∉ p.disposition ++ CRLF := by
    have h₁ : (0 : UInt8) ∉ str "Content-Disposition: form-data; name=\"" := by decide
    have h₂ : (0 : UInt8) ∉ str "\"; filename=\"" := by decide
    simp [FilePart.disposition, h₁, h₂, hn.text 0 (by decide), hf.text 0 (by decide), CRLF]
  have hn59 := hn.text 59 (by decide)
  have hf59 := hf.text 59 (by decide)
  have hname : (59 : UInt8) ∉ str " name" ++ 61 :: (34 :: p.name ++ 34 :: []) := by
    have h₁ : (59 : UInt8) ∉ str " name" := by decide
    simp [h₁, hn59]
  have hfile : (59 : UInt8) ∉ str " filename" ++ 61 :: (34 :: p.filename ++ 34 :: CRLF) := by
    have h₁ : (59 : UInt8) ∉ str " filename" := by decide
    simp [h₁, hf59, CRLF]
  rw [cstr_eq_self h0, htext, split_append, split_append, split_eq_self hname, split_eq_self hfile]
  have htype : split 59 (str "Content-Disposition: form-data") = [str "Content-Disposition: form-data"] := by decide
  have hskip : partParam (none, none) (str "Content-Disposition: form-data") = (none, none) := by decide
  rw [htype, List.singleton_append, List.singleton_append, List.foldl_cons, List.foldl_cons, List.foldl_cons, List.foldl_nil, hskip]
  have hkey : str " name" = 32 :: str "name" := by decide
  have hkey' : str " filename" = 32 :: str "filename" := by decide
  rw [hkey, hkey', partParam_quoted (by decide) hn (.inl rfl), partParam_quoted (by decide) hf (.inr rfl)]
  have ht : trim (32 :: str "name") 32 = str "name" := by decide
  have ht' : trim (32 :: str "filename") 32 = str "filename" := by decide
  have hne : str "filename" ≠ str "name" := by decide
  rw [ht, ht', if_pos rfl, if_neg hne, if_pos rfl]

end Header

/-! ## Delimiters -/

section Delimiters

variable {B : Bytes}

/-- Text that two dashes can be moved past is all dashes. -/
theorem dashes_of_comm {α : Type} {a : α} {s : List α} (h : s ++ [a, a] = a :: a :: s) : ∀ c ∈ s, c = a := by
  induction hn : s.length using Nat.strong_induction_on generalizing s with
  | _ n ih =>
    match s with
    | [] => nofun
    | [x] =>
      intro c hc
      rw [List.mem_singleton.1 hc]
      exact (List.cons.inj h).1
    | x :: y :: s =>
      obtain ⟨hx, h⟩ := List.cons.inj h
      obtain ⟨hy, h⟩ := List.cons.inj h
      subst hx hy
      intro c hc
      have hs := ih s.length (by rw [← hn, List.length_cons, List.length_cons]; omega) h rfl
      simp only [List.mem_cons] at hc
      rcases hc with rfl | rfl | hc
      · rfl
      · rfl
      · exact hs c hc

/-- A delimiter with a part after it is taken for the last one only if the boundary is made of dashes. -/
theorem delimiter_ends_iff (hB : BoundaryText B) : strstr (str "--" ++ B ++ CRLF) (B ++ str "--") = true ↔ ∀ c ∈ B, c = 45 := by
  have hdashes : str "--" = [45, 45] := by decide
  rw [strstr_iff, hdashes]
  constructor
  · intro h
    have h10 : (10 : UInt8) ∉ B ++ [45, 45] := by simp [hB.text 10 (by decide)]
    have hinf := infix_append_crlf h10 (by simp) h
    have heq := hinf.eq_of_length (by simp only [List.length_append]; omega)
    exact dashes_of_comm heq
  · intro h
    have hrep := List.eq_replicate_of_mem h
    refine ⟨[], CRLF, ?_⟩
    have hcomm : B ++ [45, 45] = [45, 45] ++ B := by
      have htwo : ([45, 45] : Bytes) = List.replicate 2 45 := rfl
      rw [hrep, htwo, List.replicate_append_replicate, List.replicate_append_replicate, Nat.add_comm]
    rw [List.nil_append, hcomm]

/-- The last delimiter, with whatever follows it. -/
theorem last_delimiter (hB : BoundaryText B) (m : Bytes) : strstr (cstr (str "--" ++ B ++ str "--" ++ m)) (B ++ str "--") = true := by
  have h0 : (0 : UInt8) ∉ str "--" ++ B ++ str "--" := by
    have hd : (0 : UInt8) ∉ str "--" := by decide
    simp [hd, hB.text 0 (by decide)]
  rw [strstr_iff, cstr_append h0]
  exact ⟨str "--", cstr m, by simp⟩

theorem BoundaryText.length (hB : BoundaryText B) : B.length + 4 < BUFFLEN := by
  have hline := hB.line
  have h₁ : (str "Content-Type: ").length = 14 := by decide
  have h₂ : (str "multipart/form-data; boundary=").length = 30 := by decide
  simp only [multipartType, List.length_append, h₁, h₂] at hline
  omega

theorem BoundaryText.delimiter (hB : BoundaryText B) : cstr (str "--" ++ B ++ CRLF) = str "--" ++ B ++ CRLF := by
  have hd : (0 : UInt8) ∉ str "--" := by decide
  exact cstr_eq_self (by simp [hd, hB.text 0 (by decide), CRLF])

/-- The last delimiter, or one with `more` after it. -/
def delimiter (B : Bytes) : Option Bytes → Bytes
  | none => str "--" ++ B ++ str "--"
  | some more => str "--" ++ B ++ CRLF ++ more

/-- What the client has when a delimiter has been read into `last`. -/
def PastDelimiter (B last : Bytes) (c : Client) : Option Bytes → Prop
  | none => ∃ m, last = str "--" ++ B ++ str "--" ++ m
  | some more => last = str "--" ++ B ++ CRLF ∧ c.Has more

/-- The delimiter is one line. -/
theorem Client.Has.read_next {c : Client} {next : Option Bytes} (hB : BoundaryText B) (h : c.Has (delimiter B next)) :
    ∃ last c', AntHttp.read_buf c BUFFLEN = (last, c') ∧ last ≠ [] ∧ B <:+: cstr last ∧ PastDelimiter B last c' next := by
  have hlen := hB.length
  have hd : (10 : UInt8) ∉ str "--" := by decide
  have hdlen : (str "--").length = 2 := by decide
  have h10 := hB.text 10 (by decide)
  cases next with
  | none =>
    obtain ⟨m, hm⟩ := Client.Has.read_last (n := BUFFLEN - 1) (l := str "--" ++ B ++ str "--") h (by simp [hd, h10])
      (by simp [hdlen]; omega)
    refine ⟨_, _, rfl, ?_, ?_, m, hm⟩
    · change (AntHttp.readLoop (BUFFLEN - 1) c).1 ≠ []
      rw [hm]
      simp [hB.ne]
    · change B <:+: cstr (AntHttp.readLoop (BUFFLEN - 1) c).1
      rw [hm]
      have hend := strstr_iff.1 (last_delimiter hB m)
      exact (List.prefix_append B _).isInfix.trans hend
  | some more =>
    have htext : delimiter B (some more) = (str "--" ++ B ++ [13]) ++ 10 :: more := by simp [delimiter, CRLF]
    rw [htext] at h
    obtain ⟨c', hr, h'⟩ := h.read_line (by simp [hd, h10]) (by simp [hdlen]; omega)
    have hcrlf : str "--" ++ B ++ [13] ++ [10] = str "--" ++ B ++ CRLF := by simp [CRLF]
    rw [hcrlf] at hr
    refine ⟨_, c', hr, by simp [CRLF], ?_, rfl, h'⟩
    rw [hB.delimiter]
    exact ⟨str "--", CRLF, rfl⟩

end Delimiters

/-! ## One part -/

/-- The fields that describe the file of a part. -/
def uploadFields (dic : Dictionary Bytes) (p : FilePart) (path : Bytes) : Dictionary Bytes :=
  (((dic.dput (p.name ++ str ".file") (some p.filename)).dput (p.name ++ str ".tmp") (some path)).dput
    (p.name ++ str ".size") (some (decimalInt (int32 p.content.length)))).dput (p.name ++ str ".ext") (ext p.filename)

/-- What the file holds in the end, if it held `old` before. -/
def fileData (p : FilePart) (old : Bytes) : Bytes :=
  ftruncate (p.content ++ CRLF ++ old.drop (p.content.length + 2)) (int32 p.content.length)

section Part

variable {B : Bytes} {p : FilePart} {next : Option Bytes} {c : Client} {more : Bytes} {dic : Dictionary Bytes} {path : Bytes}

/-- Fields are told apart by the names of their parts and what follows the last dot. -/
theorem dvalue_field {name name' s s' : Bytes} (hs : 46 ∉ s) (hs' : 46 ∉ s') (value : Option Bytes) :
    (dic.dput (name ++ 46 :: s) value).dvalue (name' ++ 46 :: s') =
      if name' = name ∧ s' = s then value else dic.dvalue (name' ++ 46 :: s') := by
  rw [Dictionary.dvalue_dput]
  refine if_congr ⟨last_sep_inj hs' hs, ?_⟩ rfl rfl
  rintro ⟨rfl, rfl⟩
  rfl

theorem uploadFields_self (dic : Dictionary Bytes) (p : FilePart) (path : Bytes) :
    (uploadFields dic p path).dvalue (p.name ++ str ".file") = some p.filename ∧
    (uploadFields dic p path).dvalue (p.name ++ str ".tmp") = some path ∧
    (uploadFields dic p path).dvalue (p.name ++ str ".size") = some (decimalInt (int32 p.content.length)) := by
  have hfile : str ".file" = 46 :: str "file" := by decide
  have htmp : str ".tmp" = 46 :: str "tmp" := by decide
  have hsize : str ".size" = 46 :: str "size" := by decide
  have hext : str ".ext" = 46 :: str "ext" := by decide
  simp only [uploadFields, hfile, htmp, hsize, hext]
  have hft : str "file" ≠ str "tmp" := by decide
  have hfs : str "file" ≠ str "size" := by decide
  have hfe : str "file" ≠ str "ext" := by decide
  have hts : str "tmp" ≠ str "size" := by decide
  have hte : str "tmp" ≠ str "ext" := by decide
  have hse : str "size" ≠ str "ext" := by decide
  refine ⟨?_, ?_, ?_⟩ <;> simp (disch := decide) only [dvalue_field]
  · simp [hft, hfs, hfe]
  · simp [hts, hte]
  · simp [hse]

theorem fileData_eq {old : Bytes} (h : p.content.length < 2 ^ 31) : fileData p old = p.content := by
  have hint : int32 (p.content.length : Int) = p.content.length := int32_eq (by omega) (by omega)
  have hneg : ¬ (p.content.length : Int) < 0 := by omega
  unfold fileData ftruncate
  rw [hint, if_neg hneg, Int.toNat_natCast, List.append_assoc, List.take_left' rfl]
  have hlen : p.content.length - (p.content ++ (CRLF ++ old.drop (p.content.length + 2))).length = 0 := by
    rw [List.length_append]
    omega
  rw [hlen]
  simp

/-- The header of a part is read up to its content, with lines of any kind around the one with the name. -/
theorem Client.Has.read_lines {before after : List Bytes} {disposition : Bytes}
    (hlines : ∀ l ∈ before ++ disposition :: after, l ≠ [] ∧ 10 ∉ l ∧ l.length + 2 < BUFFLEN)
    (hfirst : ∀ l ∈ before, ¬ str "Content-Disposition:" <:+: l) (hname : str "Content-Disposition:" <+: disposition)
    (h : c.Has (headerText before ++ (disposition ++ CRLF) ++ headerText after ++ CRLF ++ more)) :
    ∃ c₁ c₂, readUntil (strstr · (str "Content-Disposition:")) c = (disposition ++ CRLF, c₁) ∧
      (readUntil (strneq · [13, 10] 2) c₁).2 = c₂ ∧ c₂.Has more := by
  have htext : headerText before ++ (disposition ++ CRLF) ++ headerText after ++ CRLF ++ more =
      headerText before ++ (disposition ++ CRLF ++ (headerText after ++ ([] ++ CRLF ++ more))) := by simp
  rw [htext] at h
  have hbefore : ∀ l ∈ before, l ≠ [] ∧ 10 ∉ l ∧ l.length + 2 < BUFFLEN := fun l hl => hlines l (List.mem_append_left _ hl)
  have hafter : ∀ l ∈ after, l ≠ [] ∧ 10 ∉ l ∧ l.length + 2 < BUFFLEN := fun l hl =>
    hlines l (List.mem_append_right _ (List.mem_cons_of_mem _ hl))
  obtain ⟨hne, h10, hlen⟩ := hlines disposition (List.mem_append_right _ List.mem_cons_self)
  -- the line with the name
  have hskip : ∀ l ∈ before, strstr (cstr (l ++ CRLF)) (str "Content-Disposition:") = false := by
    refine fun l hl => Bool.eq_false_iff.2 fun hs => hfirst l hl ?_
    exact infix_append_crlf (by decide) (by decide) ((strstr_iff.1 hs).trans (cstr_isPrefix _).isInfix)
  have hstop : strstr (cstr (disposition ++ CRLF)) (str "Content-Disposition:") = true := by
    obtain ⟨rest, rfl⟩ := hname
    rw [strstr_iff, List.append_assoc, cstr_append (by decide)]
    exact (List.prefix_append ..).isInfix
  obtain ⟨c₀, hc₀, h₀⟩ := h.readUntil_lines (strstr · (str "Content-Disposition:")) hbefore hskip
  obtain ⟨c₁, hc₁, h₁⟩ := h₀.readUntil_line (strstr · (str "Content-Disposition:")) h10 hlen hstop
  -- the blank line
  obtain ⟨c₂, hc₂, h₂⟩ := h₁.readUntil_lines (strneq · [13, 10] 2) hafter fun l hl =>
    not_blank (hafter l hl).1 (hafter l hl).2.1
  obtain ⟨c₃, hc₃, h₃⟩ := h₂.readUntil_line (strneq · [13, 10] 2) (by simp) (by decide) (by decide)
  exact ⟨c₁, c₃, by rw [hc₀, hc₁], by rw [hc₂, hc₃], h₃⟩

theorem Client.Has.read_header (hp : p.Framed B) (h : c.Has (p.body ++ more)) :
    ∃ c₁ c₂, readUntil (strstr · (str "Content-Disposition:")) c = (p.disposition ++ CRLF, c₁) ∧
      (readUntil (strneq · [13, 10] 2) c₁).2 = c₂ ∧ c₂.Has (p.content ++ CRLF ++ more) := by
  have htext : p.body ++ more = headerText p.before ++ (p.disposition ++ CRLF) ++ headerText p.after ++ CRLF ++
      (p.content ++ CRLF ++ more) := by simp [FilePart.body]
  rw [htext] at h
  refine h.read_lines (fun l hl => ?_) hp.first ?_
  · obtain ⟨hne, h10, hlen, -⟩ := hp.header l hl
    exact ⟨hne, h10, hlen⟩
  · have hpre : str "Content-Disposition: form-data; name=\"" = str "Content-Disposition:" ++ str " form-data; name=\"" := by decide
    rw [FilePart.disposition, hpre]
    simp only [List.append_assoc]
    exact List.prefix_append ..

/-- The content is written up to the delimiter. -/
theorem Client.Has.save_content {evs : List WriteEv} (hB : BoundaryText B) (hp : p.Framed B) (hr : Rooms (p.content.length + 2) evs)
    (h : c.Has (p.content ++ CRLF ++ delimiter B next)) :
    ∃ last c', saveLoop B c evs [] 0 = ⟨last, c', p.content ++ CRLF, p.content.length + 2⟩ ∧ last ≠ [] ∧ B <:+: cstr last ∧
      PastDelimiter B last c' next := by
  have hclosed : Closed (p.content ++ CRLF) := by
    have hcrlf : p.content ++ CRLF = (p.content ++ [13]) ++ [10] := by simp [CRLF]
    rw [hcrlf]
    exact closed_line _
  have hnot : ¬ B <:+: p.content ++ CRLF := fun hinf =>
    hp.content (infix_append_crlf (hB.text 10 (by decide)) hB.last hinf)
  have hlen : (p.content ++ CRLF).length = p.content.length + 2 := by simp [CRLF]
  obtain ⟨c₁, evs₁, hs, h₁⟩ := h.saveLoop_through [] 0 (k := 0) hclosed hnot (by rwa [hlen, Nat.add_zero])
  obtain ⟨last, c', hread, hne, hinf, hafter⟩ := h₁.read_next hB
  refine ⟨last, c', ?_, hne, hinf, hafter⟩
  rw [hs, saveLoop_eq hread hne, strstr_iff.2 hinf, if_pos rfl, hlen]
  simp

/-- After a part whose last line is a delimiter the next one is due, unless it is taken for the last. -/
theorem part_done {sys : Sys} {cnf : Config} {rq rq' : Request} {line last : Bytes} {c₁ : Client}
    (hdisp : readUntil (strstr · (str "Content-Disposition:")) rq.client = (line, c₁)) (hne : line ≠ [])
    (hb : rq.MULTI_PART_BOUNDARY = some B) (hinf : B <:+: cstr last)
    (hpart : partData sys cnf { rq with client := c₁ } B ((split 59 (cstr line)).foldl partParam (none, none)) =
      .ok (some (cstr last), rq')) :
    ∃ t, decode_multi_part_request_data sys cnf rq = .ok (t, rq') ∧
      t.handle = (if strstr (cstr last) (B ++ str "--") then none else some .decode_multi_part_request_data) := by
  have hboundary : deref rq.MULTI_PART_BOUNDARY = .ok B := by rw [hb, deref_some]
  unfold decode_multi_part_request_data
  simp only [hdisp, hboundary]
  rw [if_neg hne]
  simp only [bind, Except.bind, hpart, Option.any_some, strstr_iff.2 hinf, Bool.and_true]
  by_cases hend : strstr (cstr last) (B ++ str "--") = true
  · simp only [hend, Bool.not_true, Bool.false_eq_true, if_false]
    exact ⟨_, rfl, rfl⟩
  · have hend := Bool.eq_false_iff.2 hend
    simp only [hend, Bool.not_false, if_true]
    exact ⟨_, rfl, rfl⟩

/-- One part is stored, and the next one comes after it unless its delimiter is taken for the last. -/
theorem part_round {sys : Sys} (cnf : Config) {rq : Request} (hB : BoundaryText B) (hp : p.Framed B) (hn : Quotable p.name)
    (hf : Quotable p.filename) (hs : Stores sys (p.content.length + 2)) (hb : rq.MULTI_PART_BOUNDARY = some B)
    (hd : rq.REQUEST_DATA = some dic) (h : rq.client.Has (p.body ++ delimiter B next)) :
    ∃ t rq' last, decode_multi_part_request_data sys cnf rq = .ok (t, rq') ∧
      t.handle = (if strstr (cstr last) (B ++ str "--") then none else some .decode_multi_part_request_data) ∧
      PastDelimiter B last rq'.client next ∧ rq'.MULTI_PART_BOUNDARY = some B ∧
      rq'.REQUEST_DATA = some (uploadFields dic p (uploadPath cnf.tmpdir p.filename sys.time)) ∧
      rq'.files = rq.files ++ [(uploadPath cnf.tmpdir p.filename sys.time,
        fileData p (sys.oldData (uploadPath cnf.tmpdir p.filename sys.time)))] := by
  obtain ⟨c₁, c₂, hdisp, hblank, h₂⟩ := h.read_header hp
  obtain ⟨last, c₃, hsave, hne, hinf, hafter⟩ := h₂.save_content hB hp hs.2
  have htotal : int32 ((p.content.length : Int) + 2 - 2) = int32 p.content.length := by rw [Int.add_sub_cancel]
  have hlen : (p.content ++ CRLF).length = p.content.length + 2 := by simp [CRLF]
  let rq₃ : Request := { rq with
    client := c₃, REQUEST_DATA := some (uploadFields dic p (uploadPath cnf.tmpdir p.filename sys.time))
    stored := rq.stored + (p.content.length + 2)
    files := rq.files ++ [(uploadPath cnf.tmpdir p.filename sys.time,
      fileData p (sys.oldData (uploadPath cnf.tmpdir p.filename sys.time)))] }
  have hpart : partData sys cnf { rq with client := c₁ } B (some p.name, some p.filename) = .ok (some (cstr last), rq₃) := by
    simp only [partData, filePart, hs.1, if_true, hblank, hsave, hd, deref_some, htotal, hlen]
    rfl
  have hline : p.disposition ++ CRLF ≠ [] := by simp [CRLF]
  obtain ⟨t, hr, ht⟩ := part_done hdisp hline hb hinf (by rw [disposition_params hn hf]; exact hpart)
  exact ⟨t, rq₃, last, hr, ht, hafter, hb, rfl, rfl⟩

end Part

/-! ## What a file leaves -/

/-- The file of the part has been written and described, its size as an `int`. -/
def Recorded (tmpdir : Bytes) (rq : Request) (p : FilePart) : Prop :=
  ∃ dic time data, rq.REQUEST_DATA = some dic ∧ dic.dvalue (p.name ++ str ".file") = some p.filename ∧
    dic.dvalue (p.name ++ str ".tmp") = some (uploadPath tmpdir p.filename time) ∧
    dic.dvalue (p.name ++ str ".size") = some (decimalInt (int32 p.content.length)) ∧
    fileAt rq.files (uploadPath tmpdir p.filename time) = some data ∧ (p.content.length < 2 ^ 31 → data = p.content)

section Recorded

variable {p : FilePart} {tmpdir : Bytes} {rq : Request}

theorem fileAt_append (files : List (Bytes × Bytes)) (path path' data : Bytes) :
    fileAt (files ++ [(path, data)]) path' = if path = path' then some data else fileAt files path' := by
  simp only [fileAt, List.reverse_append, List.reverse_singleton, List.singleton_append, List.find?_cons]
  by_cases h : path = path' <;> simp [h]

theorem Recorded.new {dic : Dictionary Bytes} {time : Nat} {old : Bytes} {files : List (Bytes × Bytes)}
    (hd : rq.REQUEST_DATA = some (uploadFields dic p (uploadPath tmpdir p.filename time)))
    (hf : rq.files = files ++ [(uploadPath tmpdir p.filename time, fileData p old)]) : Recorded tmpdir rq p := by
  obtain ⟨hfile, htmp, hsize⟩ := uploadFields_self dic p (uploadPath tmpdir p.filename time)
  exact ⟨_, time, fileData p old, hd, hfile, htmp, hsize, by rw [hf, fileAt_append, if_pos rfl], fileData_eq⟩

theorem decimalInt_eq {z : Int} {n : Nat} : decimalInt z = decimal n ↔ z = n := by
  unfold decimalInt
  constructor
  · split
    · intro h
      have hdash : isdigit 45 = true := decimal_isdigit (n := n) 45 (by rw [← h]; exact List.mem_cons_self)
      exact absurd hdash (by decide)
    · intro h
      have habs := decimal_injective h
      omega
  · rintro rfl
    rw [if_neg (by omega), Int.natAbs_natCast]

/-- The size of a part is recorded as it is, if it fits. -/
theorem size_recorded_iff (n : Nat) : decimalInt (int32 n) = decimal n ↔ n < 2 ^ 31 := by
  rw [decimalInt_eq]
  constructor
  · intro h
    have hlt := int32_lt n
    omega
  · intro h
    exact int32_eq (by omega) (by omega)

/-- A file that has been written is stored if its size can be recorded. -/
theorem Recorded.stored_iff (h : Recorded tmpdir rq p) : Stored rq p ↔ p.content.length < 2 ^ 31 := by
  obtain ⟨dic, time, data, hdic, hfile, htmp, hsize, hat, hdata⟩ := h
  constructor
  · rintro ⟨dic', path, hdic', -, -, hsize', -⟩
    cases hdic.symm.trans hdic'
    exact (size_recorded_iff _).1 (Option.some.inj (hsize.symm.trans hsize'))
  · intro hlt
    exact ⟨dic, _, hdic, htmp, by rw [hat, hdata hlt], by rw [hsize, (size_recorded_iff _).2 hlt], hfile⟩

theorem Stores.mono {sys : Sys} {m n : Nat} (h : Stores sys n) (hmn : m ≤ n) : Stores sys m :=
  ⟨h.1, h.2.1, hmn.trans h.2.2⟩

end Recorded

/-! ## The first task -/

/-- The first delimiter is found, and what follows it comes next. -/
theorem multipart_start {B pre more : Bytes} {rq : Request} (hB : BoundaryText B) (hh : rq.REQUEST_HEADER.isSome) (hpre : Closed pre)
    (hinf : ¬ B <:+: pre) (h : rq.client.Has (pre ++ delimiter B (some more))) :
    ∃ t rq', decode_multi_part_request rq (multipartType B) = .ok (t, rq') ∧
      t.handle = some .decode_multi_part_request_data ∧ rq'.MULTI_PART_BOUNDARY = some B ∧
      rq'.REQUEST_DATA = rq.REQUEST_DATA ∧ rq'.files = rq.files ∧ rq'.client.Has more := by
  obtain ⟨headers, hheaders⟩ := Option.isSome_iff_exists.1 hh
  obtain ⟨b, boundary, rfl⟩ := List.exists_cons_of_ne_nil hB.ne
  obtain ⟨c₁, hc₁, h₁⟩ := h.readUntil_through (strstr · (b :: boundary)) hpre fun l hl =>
    Bool.eq_false_iff.2 fun hs => hinf (((strstr_iff.1 hs).trans (cstr_isPrefix l).isInfix).trans hl)
  obtain ⟨last, c₂, hread, hne, hB', hafter⟩ := h₁.read_next hB
  have hr : readUntil (strstr · (b :: boundary)) rq.client = (last, c₂) := by
    rw [hc₁, readUntil_eq hread hne, strstr_iff.2 hB', if_pos rfl]
  have hsep : strsep (some (multipartType (b :: boundary))) 61 = (some (str "multipart/form-data; boundary"), some (b :: boundary)) := by
    have htext : multipartType (b :: boundary) = str "multipart/form-data; boundary" ++ 61 :: b :: boundary := by
      have hlit : str "multipart/form-data; boundary=" = str "multipart/form-data; boundary" ++ [61] := by decide
      simp [multipartType, hlit]
    rw [htext, strsep_append (by decide)]
  have htrim := trim_eq_self (hB.text 32 (by decide))
  unfold decode_multi_part_request
  rw [hheaders, deref_some, hsep]
  simp only [bind, Except.bind, htrim, hr, if_neg hne]
  exact ⟨_, _, rfl, rfl, rfl, rfl, rfl, hafter.2⟩

/-! ## Text in the dictionary -/

/-- Keys can be read back from between quotes, and values are C strings. -/
def Texts (dic : Dictionary Bytes) : Prop := ∀ k v, dic.dvalue k = some v → Quotable k ∧ 0 ∉ v

section Texts

variable {dic : Dictionary Bytes} {rq rq' : Request} {cnf : Config}

theorem Texts.dput {key : Bytes} {value : Option Bytes} (hd : Texts dic) (hk : Quotable key) (hv : ∀ v ∈ value, 0 ∉ v) :
    Texts (dic.dput key value) := by
  intro k v h
  rw [Dictionary.dvalue_dput] at h
  split at h
  · rename_i he
    exact ⟨he ▸ hk, hv v h⟩
  · exact hd k v h

theorem texts_dict : Texts .dict := by
  intro k v h
  rw [Dictionary.dict, Dictionary.dvalue_dict_n] at h
  cases h

theorem trim_subset (s : Bytes) (d : UInt8) : trim s d ⊆ s :=
  fun _ hc => (List.rdropWhile_prefix _ _).subset ((List.dropWhile_suffix _).subset hc)

theorem strsep_subset {s : Option Bytes} {d : UInt8} {x : Bytes} (h : (strsep s d).1 = some x ∨ (strsep s d).2 = some x) :
    ∃ s' ∈ s, x ⊆ s' := by
  cases s with
  | none => rcases h with h | h <;> cases h
  | some s =>
    refine ⟨s, rfl, ?_⟩
    simp only [strsep] at h
    rcases h with h | h
    · cases h
      exact (List.takeWhile_prefix _).subset
    · split at h
      · cases h
        exact fun c hc => (List.dropWhile_suffix _).subset (List.mem_of_mem_tail hc)
      · cases h

theorem split_subset {d : UInt8} {s t : Bytes} (ht : t ∈ split d s) : t ⊆ s := by
  induction s generalizing t with
  | nil => rw [List.mem_singleton.1 ht]; exact List.Subset.refl _
  | cons c s ih =>
    obtain ⟨u, us, hu⟩ := List.exists_cons_of_ne_nil (split_ne_nil d s)
    have hu' : u ⊆ s := ih (by rw [hu]; exact List.mem_cons_self)
    simp only [split, hu] at ht
    split at ht
    · rcases List.mem_cons.1 ht with rfl | ht
      · exact List.nil_subset _
      · exact List.subset_cons_of_subset _ (ih (hu ▸ ht))
    · rcases List.mem_cons.1 ht with rfl | ht
      · exact List.cons_subset_cons _ hu'
      · exact List.subset_cons_of_subset _ (ih (by rw [hu]; exact List.mem_cons_of_mem _ ht))

theorem ext_subset {file e : Bytes} (h : ext file = some e) : e ⊆ file := by
  unfold ext at h
  split at h
  · cases h
    generalize hl : (split 46 (if file.head? = some 46 then trim file 46 else file)).takeWhile (· ≠ []) = l
    cases l using List.reverseRecOn with
    | nil => exact List.nil_subset _
    | append_singleton l t =>
      have hmem : t ∈ split 46 (if file.head? = some 46 then trim file 46 else file) :=
        (List.takeWhile_prefix _).subset (hl ▸ List.mem_append_right _ (List.mem_singleton_self t))
      have ht := split_subset hmem
      simp only [List.getLastD_concat]
      refine List.Subset.trans ht ?_
      split
      · exact trim_subset ..
      · exact List.Subset.refl _
  · cases h

theorem split_not_mem {d : UInt8} {s t : Bytes} (ht : t ∈ split d s) : d ∉ t := by
  induction s generalizing t with
  | nil => rw [List.mem_singleton.1 ht]; exact List.not_mem_nil
  | cons c s ih =>
    obtain ⟨u, us, hu⟩ := List.exists_cons_of_ne_nil (split_ne_nil d s)
    have hu' : d ∉ u := ih (by rw [hu]; exact List.mem_cons_self)
    simp only [split, hu] at ht
    split at ht
    · rcases List.mem_cons.1 ht with rfl | ht
      · exact List.not_mem_nil
      · exact ih (hu ▸ ht)
    · rename_i hc
      rcases List.mem_cons.1 ht with rfl | ht
      · exact fun h => (List.mem_cons.1 h).elim (fun he => hc he.symm) hu'
      · exact ih (by rw [hu]; exact List.mem_cons_of_mem _ ht)

/-- Nothing that has been trimmed starts or ends with what was cut. -/
theorem trim_ends (s : Bytes) (d : UInt8) : (trim s d).head? ≠ some d ∧ (trim s d).getLast? ≠ some d := by
  constructor
  · intro h
    have hnot := List.head?_dropWhile_not (· = d) (s.rdropWhile (· = d))
    rw [← trim, h] at hnot
    simp at hnot
  · intro h
    have hlast : (s.rdropWhile (· = d)).getLast? = some d := by
      have hsuffix : trim s d <:+ s.rdropWhile (· = d) := List.dropWhile_suffix _
      obtain ⟨t, ht⟩ := hsuffix
      have hne : trim s d ≠ [] := by
        rintro hnil
        rw [hnil] at h
        cases h
      rw [← ht, List.getLast?_append_of_ne_nil _ hne]
      exact h
    have hnot := List.head?_dropWhile_not (· = d) s.reverse
    rw [List.rdropWhile, List.getLast?_reverse] at hlast
    rw [hlast] at hnot
    simp at hnot

/-- What a parameter gives can be read back. -/
theorem partParam_quotable {names : Option Bytes × Option Bytes} {token : Bytes} (ht : ∀ c ∈ ([0, 59] : Bytes), c ∉ token)
    (hn : (∀ s ∈ names.1, Quotable s) ∧ ∀ s ∈ names.2, Quotable s) :
    (∀ s ∈ (partParam names token).1, Quotable s) ∧ ∀ s ∈ (partParam names token).2, Quotable s := by
  unfold partParam
  split
  · rename_i c key rest hsep
    split
    · rename_i value hvalue
      have htrim (c : UInt8) (hc : c ∉ value) : c ∉ trim (trim (trim (trim value 32) 10) 13) 34 := fun h =>
        hc (trim_subset _ _ (trim_subset _ _ (trim_subset _ _ (trim_subset _ _ h))))
      have hval : Quotable (trim (trim (trim (trim value 32) 10) 13) 34) := by
        refine ⟨fun c hc => htrim c ?_, (trim_ends _ 34).1, (trim_ends _ 34).2⟩
        obtain ⟨s, hs, hsub⟩ := strsep_subset (.inl hvalue)
        obtain ⟨s', hs', hsub'⟩ := strsep_subset (.inr ((congrArg Prod.snd hsep).trans hs))
        cases hs'
        simp only [List.mem_cons, List.not_mem_nil, or_false] at hc
        rcases hc with rfl | rfl | rfl
        · exact fun h => ht 0 (by decide) (hsub' (hsub h))
        · exact fun h => ht 59 (by decide) (hsub' (hsub h))
        · -- the value ends before the next `=`
          rw [hs] at hvalue
          simp only [strsep, Option.some.injEq] at hvalue
          rw [← hvalue]
          exact fun h => by simpa using List.mem_takeWhile_imp h
      simp only
      split
      · exact ⟨fun s hs => by cases hs; exact hval, hn.2⟩
      · split
        · exact ⟨hn.1, fun s hs => by cases hs; exact hval⟩
        · exact hn
    · exact hn
  · exact hn

/-- The names that a line gives can be read back. -/
theorem params_quotable (line : Bytes) :
    (∀ s ∈ ((split 59 (cstr line)).foldl partParam (none, none)).1, Quotable s) ∧
      ∀ s ∈ ((split 59 (cstr line)).foldl partParam (none, none)).2, Quotable s := by
  have hfold (tokens : List Bytes) (names : Option Bytes × Option Bytes) (ht : ∀ t ∈ tokens, ∀ c ∈ ([0, 59] : Bytes), c ∉ t)
      (hn : (∀ s ∈ names.1, Quotable s) ∧ ∀ s ∈ names.2, Quotable s) :
      (∀ s ∈ (tokens.foldl partParam names).1, Quotable s) ∧ ∀ s ∈ (tokens.foldl partParam names).2, Quotable s := by
    induction tokens generalizing names with
    | nil => exact hn
    | cons token tokens ih =>
      exact ih _ (fun t h => ht t (List.mem_cons_of_mem _ h)) (partParam_quotable (ht token List.mem_cons_self) hn)
  refine hfold _ _ (fun t ht c hc => ?_) ⟨nofun, nofun⟩
  simp only [List.mem_cons, List.not_mem_nil, or_false] at hc
  rcases hc with rfl | rfl
  · exact fun h0 => not_mem_cstr _ (split_subset ht h0)
  · exact split_not_mem ht

/-- The key of a field of a file. -/
theorem Quotable.append {s t : Bytes} (h : Quotable s) (ht : ∀ c ∈ ([0, 59, 61, 34] : Bytes), c ∉ t) (hne : t ≠ []) :
    Quotable (s ++ t) where
  text c hc := by
    have hct : c ∉ t := ht c (by revert hc; simp; tauto)
    simp [h.text c hc, hct]
  head hh := by
    cases s with
    | nil => exact ht 34 (by decide) (List.mem_of_mem_head? hh)
    | cons c s => exact h.head hh
  last hl := by
    rw [List.getLast?_append_of_ne_nil _ hne] at hl
    exact ht 34 (by decide) (List.mem_of_getLast? hl)

theorem digits_text {s : Bytes} (h : ∀ c ∈ s, isdigit c = true) : 0 ∉ s := fun h0 => absurd (h 0 h0) (by decide)

theorem decimalInt_text (z : Int) : 0 ∉ decimalInt z := by
  unfold decimalInt
  split
  · simp [digits_text decimal_isdigit]
  · exact digits_text decimal_isdigit

theorem textPart_texts {boundary part_name : Bytes} {line : Option Bytes} (hk : Quotable part_name)
    (h : textPart rq boundary part_name = .ok (line, rq')) (ht : ∀ dic ∈ rq.REQUEST_DATA, Texts dic) :
    ∀ dic ∈ rq'.REQUEST_DATA, Texts dic := by
  obtain ⟨data, hdata, h⟩ := Res.bind_ok.1 h
  cases h
  unfold putText at hdata
  split at hdata
  · cases hdata
    exact ht
  · obtain ⟨d, hd, rfl⟩ := Res.map_ok.1 hdata
    intro dic hdic
    cases hdic
    refine (ht d (deref_ok.1 hd)).dput hk fun v hv h0 => ?_
    cases hv
    exact not_mem_cstr _ (trim_subset _ _ (trim_subset _ _ (trim_subset _ _ h0)))

theorem filePart_texts {sys : Sys} {boundary part_name part_file : Bytes} {line : Option Bytes} (htmp : 0 ∉ cnf.tmpdir)
    (hk : Quotable part_name) (hf : Quotable part_file) (h : filePart sys cnf rq boundary part_name part_file = .ok (line, rq'))
    (ht : ∀ dic ∈ rq.REQUEST_DATA, Texts dic) : ∀ dic ∈ rq'.REQUEST_DATA, Texts dic := by
  unfold filePart at h
  simp only at h
  split at h
  · obtain ⟨d, hd, h⟩ := Res.bind_ok.1 h
    cases h
    intro dic hdic
    cases hdic
    have hpath : (0 : UInt8) ∉ uploadPath cnf.tmpdir part_file sys.time := by
      simp [uploadPath, htmp, hf.text 0 (by decide), digits_text decimal_isdigit]
    have hsuffix : ∀ s ∈ [".file", ".tmp", ".size", ".ext"], Quotable (part_name ++ str s) := by
      intro s hs
      have hs0 : ∀ s ∈ [".file", ".tmp", ".size", ".ext"], (∀ c ∈ ([0, 59, 61, 34] : Bytes), c ∉ str s) ∧ str s ≠ [] := by
        decide +kernel
      exact hk.append (hs0 s hs).1 (hs0 s hs).2
    refine ((((ht d (deref_ok.1 hd)).dput (hsuffix _ (by simp)) ?_).dput (hsuffix _ (by simp)) ?_).dput
      (hsuffix _ (by simp)) ?_).dput (hsuffix _ (by simp)) ?_
    · intro v hv
      cases hv
      exact hf.text 0 (by decide)
    · intro v hv
      cases hv
      exact hpath
    · intro v hv
      cases hv
      exact decimalInt_text _
    · exact fun v hv h0 => hf.text 0 (by decide) (ext_subset hv h0)
  · cases h
    exact ht

/-- Whatever the part is like, what is put in the dictionary is text. -/
theorem part_texts {sys : Sys} {t : Task} (htmp : 0 ∉ cnf.tmpdir) (ht : ∀ dic ∈ rq.REQUEST_DATA, Texts dic)
    (h : decode_multi_part_request_data sys cnf rq = .ok (t, rq')) : ∀ dic ∈ rq'.REQUEST_DATA, Texts dic := by
  obtain ⟨rfl | ⟨boundary, line, -, hp⟩, -⟩ := decode_multi_part_request_data_of h
  · exact ht
  · have hnames := params_quotable (readUntil (strstr · (str "Content-Disposition:")) rq.client).1
    unfold partData partNames at hp
    split at hp
    · cases hp
      exact ht
    · rename_i part_name part_file heq
      rw [heq] at hnames
      have hn := hnames.1 part_name rfl
      simp only at hp
      split at hp
      · exact textPart_texts hn hp ht
      · exact filePart_texts htmp hn (hnames.2 _ rfl) hp ht

theorem Ends.texts {sys : Nat → Sys} {i : Nat} {r : Task × Request} (h : Ends cnf sys i r rq') (htmp : 0 ∉ cnf.tmpdir)
    (ht : ∀ dic ∈ r.2.REQUEST_DATA, Texts dic) : ∀ dic ∈ rq'.REQUEST_DATA, Texts dic := by
  induction h with
  | stop => exact ht
  | next _ hr _ ih => exact ih (part_texts htmp ht hr)

end Texts

end AntHttp
