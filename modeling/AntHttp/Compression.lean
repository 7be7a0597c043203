import AntHttp.Sample
/-!
# Compressed responses (`lib/handle.c`, `server.c`)

The functions of `Handle.lean` on a client that may have a compression stream.
The compression library is a parameter. `sent` records what the callers of
`antd_send` hand over and whether it went through `deflate`.
-/

set_option linter.style.nameCheck false

namespace AntHttp

open CString

inductive Flush where
  | Z_NO_FLUSH | Z_FINISH
  deriving DecidableEq

/-- The compression library. `deflate` gives the stream after the call, the input that is left and at
most `BUFFLEN` bytes of output, or nothing for `Z_STREAM_ERROR`. -/
structure Zlib (σ : Type) where
  deflate : σ → Flush → Bytes → Option (σ × Bytes × Bytes)
  /-- A bound for the output still to come. -/
  pending : σ → Flush → Bytes → Nat
  pending_lt : ∀ {s flush data s' rest out}, deflate s flush data = some (s', rest, out) → out.length = BUFFLEN →
    pending s' flush rest < pending s flush data

/-- The library, and the types that are compressed: an entry is a text, or no pointer to one. -/
structure Gzip (σ : Type) extends Zlib σ where
  regexec : Regexec
  g_gzip_types : Option (List (Option Bytes))

def compressableIn (regexec : Regexec) (ctype : Bytes) : List (Option Bytes) → Res Bool
  | [] => .ok false
  | none :: its => compressableIn regexec ctype its
  | some ptr :: its => do
    if (← regex_match regexec ptr ctype).isSome then return true
    else compressableIn regexec ctype its

def compressable {σ : Type} (g : Gzip σ) (ctype : Bytes) : Res Bool :=
  match g.g_gzip_types with
  | none => .ok false
  | some types => compressableIn g.regexec ctype types

/-- Bytes handed to `antd_send`. -/
structure Sent where
  deflated : Bool
  data : Bytes
  deriving DecidableEq

/-- `antd_client_t` with its stream; `zstream` may be NULL. -/
structure ZClient (σ : Type) where
  client : Client
  zstream : Option σ
  z_status : Flush
  sent : List Sent

/-- `antd_response_header_t`; of the cookies the entries that are texts. -/
structure ResponseHeader where
  status : Nat
  header : Option (Dictionary Bytes)
  cookie : List Bytes

namespace ZClient

variable {σ : Type} (g : Gzip σ)

/-! ## Sending -/

/-- The `deflate` loop: what it returns, the stream and the client. -/
def deflateLoop (flush : Flush) (client : Client) (len : Int) (zstream : σ) (data : Bytes) : Int × σ × Client :=
  match _h : g.deflate zstream flush data with
  | none => (-1, zstream, client)
  | some (zstream', rest, buf) =>
    let client := (AntHttp.antd_send client buf).2
    if _hb : buf.length = BUFFLEN then deflateLoop flush client (len + buf.length) zstream' rest
    else (len + buf.length, zstream', client)
termination_by g.pending zstream flush data
decreasing_by exact g.pending_lt _h _hb

/-- The rest of `antd_send`. -/
def sendPlain (source : ZClient σ) (data : Bytes) : Int × ZClient σ :=
  let (written, client) := AntHttp.antd_send source.client data
  (written, { source with client, sent := source.sent ++ [⟨false, data⟩] })

def antd_send (source : ZClient σ) (data : Bytes) : Int × ZClient σ :=
  match source.zstream with
  | none => sendPlain source data
  | some zstream =>
    if source.client.z_level = .CNONE then sendPlain source data
    else
      -- the output is sent by `antd_send` itself, which does not compress it again at this level
      let r := deflateLoop g source.z_status { source.client with z_level := .CNONE } 0 zstream data
      (r.1, { source with
        client := { r.2.2 with z_level := source.client.z_level }
        zstream := some r.2.1
        sent := source.sent ++ [⟨true, data⟩] })

def sendBlocks : Nat → ZClient σ → Bytes → Bool × ZClient σ
  | 0, client, _ => (true, client)
  | fuel + 1, client, data =>
    if data = [] then (true, client) else
      let (nbytes, client) := antd_send g client (data.take BUFFLEN)
      if nbytes = -1 then (false, client) else sendBlocks fuel client (data.drop BUFFLEN)

def __b (client : ZClient σ) (data : Bytes) : Bool × ZClient σ := sendBlocks g data.length client data

def __t (client : ZClient σ) (data : Bytes) : ZClient σ :=
  let (st, client) := __b g client data
  if st then (__b g client [13, 10]).2 else client

def __f (client : ZClient σ) : List Bytes → ZClient σ
  | [] => client
  | buffer :: blocks =>
    let (n, client) := antd_send g client buffer
    if n = -1 then client else __f client blocks

/-! ## Headers -/

/-- The name of the encoding that `antd_send_header` adds. -/
def encoding : Compress → Bytes
  | .CGZ => str "gzip"
  | _ => str "deflate"

/-- Whether to open a stream; `opened` is what `malloc` and `deflateInit` make of it. -/
def negotiate (client : ZClient σ) (header : Dictionary Bytes) (opened : Option σ) :
    Res (ZClient σ × Dictionary Bytes) :=
  match header.dvalue (str "Content-Encoding"), header.dvalue (str "Content-Type") with
  | none, some ctype => do
    if (← compressable g ctype) && client.client.z_level ≠ .CNONE then
      match opened with
      | none => return ({ client with zstream := none }, header)
      | some zstream =>
        return ({ client with zstream := some zstream, z_status := .Z_NO_FLUSH },
          header.dput (str "Content-Encoding") (some (encoding client.client.z_level)))
    else return (client, header)
  | _, _ => .ok (client, header)

/-- The text of a header, at level `CNONE`. -/
def sendHead (client : ZClient σ) (status : Nat) (header : Dictionary Bytes) (cookie : List Bytes) : ZClient σ :=
  let client := __t g client (str "HTTP/1.1 " ++ decimal status ++ [32] ++ get_status_str status)
  let client := header.assocs.foldl (fun c it => __t g c (it.1 ++ str ": " ++ fieldText it.2)) client
  let client := cookie.foldl (fun c value => __t g c (str "Set-Cookie: " ++ value)) client
  (__b g client [13, 10]).2

/-- The client, and the header as it was sent. -/
def antd_send_header (client : ZClient σ) (res : ResponseHeader) (opened : Option σ) :
    Res (ZClient σ × Dictionary Bytes) := do
  let current_zlevel := client.client.z_level
  let (client, header) ← negotiate g client (res.header.getD .dict) opened
  let header := header.dput (str "Server") (some (str "Antd"))
  let client := { client with
    client := { client.client with z_level := .CNONE, answers := client.client.answers ++ [res.status] } }
  let client := sendHead g client res.status header res.cookie
  return ({ client with client.z_level := current_zlevel }, header)

/-! ## The server's own responses -/

/-- A response: its header as it was made and as it was sent, the client after the header and after the body. -/
structure Answered (σ : Type) where
  res : ResponseHeader
  header : Dictionary Bytes
  head : ZClient σ
  client : ZClient σ

def errorType : Bytes := str "text/html; charset=utf-8"

def errorHeader (client : ZClient σ) (status : Nat) (clen : Nat) : Res ResponseHeader := do
  let header := Dictionary.dict.dput (str "Content-Type") (some errorType)
  let withLength := header.dput (str "Content-Length") (some (decimal clen))
  if client.client.z_level = .CNONE then return ⟨status, some withLength, []⟩
  else if ← compressable g errorType then return ⟨status, some header, []⟩
  else return ⟨status, some withLength, []⟩

def antd_error (client : ZClient σ) (status : Nat) (msg : String) (opened : Option σ) : Res (Answered σ) := do
  let res_str := HTML_TPL (get_status_str status) (str msg)
  let rsh ← errorHeader g client status res_str.length
  let (head, header) ← antd_send_header g client rsh opened
  return ⟨rsh, header, head, (__b g head res_str).2⟩

def fileHeader (sys : Sys) (client : ZClient σ) (mime_type : Bytes) (st : Stat) : Res ResponseHeader := do
  let header := Dictionary.dict.dput (str "Content-Type") (some mime_type)
  let plain := (← compressable g mime_type) = false || client.client.z_level = .CNONE
  let header := if plain then header.dput (str "Content-Length") (some (decimalInt (int32 st.st_size))) else header
  let header := header.dput (str "Last-Modified") (some (sys.httpDate st.st_ctime))
  return ⟨200, some (header.dput (str "Cache-Control") (some (str "no-cache"))), []⟩

/-- `serve_file`, with the client of the request beside it. -/
def serve_file (sys : Sys) (client : ZClient σ) (rq : Request) (opened : Option σ) : Res (Answered σ) := do
  let path ← deref rq.RESOURCE_PATH
  let client := { client with client.state := .SERVE_FILE }
  match sys.stat 0 path with
  | none => antd_error g client 404 "File not found" opened
  | some st =>
    let header ← deref rq.REQUEST_HEADER
    if (header.dvalue (str "If-Modified-Since")).any fun d => st.st_ctime = sys.parseDate d then
      antd_error g client 304 "" opened
    else
      let mime_type ← deref rq.RESOURCE_MIME
      let rhd ← fileHeader g sys client mime_type st
      let (head, header) ← antd_send_header g client rhd opened
      return ⟨rhd, header, head, __f g head ((sys.readFile path).getD [])⟩

/-! ## What goes through `deflate` -/

/-- What `antd_send` does with bytes that it is handed now. -/
def deflates (c : ZClient σ) : Bool := c.zstream.isSome && c.client.z_level ≠ .CNONE

/-- From one client to the other, bytes were handed to `antd_send` and nothing else was done. -/
structure Sends (c c' : ZClient σ) : Prop where
  zstream : c'.zstream.isSome = c.zstream.isSome
  z_level : c'.client.z_level = c.client.z_level
  sent : ∃ l, c'.sent = c.sent ++ l ∧ ∀ s ∈ l, s.deflated = c.deflates

namespace Sends

theorem refl (c : ZClient σ) : Sends c c := ⟨rfl, rfl, [], (List.append_nil _).symm, nofun⟩

theorem deflates {c c' : ZClient σ} (h : Sends c c') : c'.deflates = c.deflates := by
  rw [ZClient.deflates, ZClient.deflates, h.zstream, h.z_level]

theorem trans {a b c : ZClient σ} (h : Sends a b) (h' : Sends b c) : Sends a c := by
  obtain ⟨l, hl, hd⟩ := h.sent
  obtain ⟨l', hl', hd'⟩ := h'.sent
  refine ⟨h'.zstream.trans h.zstream, h'.z_level.trans h.z_level, l ++ l', ?_, fun s hs => ?_⟩
  · rw [hl', hl, List.append_assoc]
  · rcases List.mem_append.1 hs with hs | hs
    · exact hd s hs
    · rw [hd' s hs, h.deflates]

end Sends

theorem sendPlain_sends {c : ZClient σ} (hc : c.deflates = false) (data : Bytes) : Sends c (sendPlain c data).2 :=
  ⟨rfl, rfl, _, rfl, fun s hs => by rw [List.mem_singleton.1 hs, hc]⟩

/-- Without a stream, or at level `CNONE`, the bytes go out as they are. -/
theorem antd_send_plain {c : ZClient σ} (hc : c.deflates = false) (data : Bytes) :
    antd_send g c data = sendPlain c data := by
  unfold antd_send
  split
  · rfl
  · rename_i zstream hz
    have hl : c.client.z_level = .CNONE := by simpa [deflates, hz] using hc
    exact if_pos hl

theorem antd_send_sends (c : ZClient σ) (data : Bytes) : Sends c (antd_send g c data).2 := by
  cases hc : c.deflates with
  | false =>
    rw [antd_send_plain g hc]
    exact sendPlain_sends hc data
  | true =>
    obtain ⟨hz, hl⟩ : c.zstream.isSome ∧ c.client.z_level ≠ .CNONE := by simpa [deflates] using hc
    obtain ⟨zstream, hz⟩ := Option.isSome_iff_exists.1 hz
    simp only [antd_send, hz, if_neg hl]
    exact ⟨by rw [hz]; rfl, rfl, _, rfl, fun s hs => by rw [List.mem_singleton.1 hs, hc]⟩

theorem sendBlocks_sends (fuel : Nat) (c : ZClient σ) (data : Bytes) : Sends c (sendBlocks g fuel c data).2 := by
  induction fuel generalizing c data with
  | zero => exact .refl c
  | succ fuel ih =>
    have h := antd_send_sends g c (data.take BUFFLEN)
    simp only [sendBlocks]
    split
    · exact .refl c
    · split
      · exact h
      · exact h.trans (ih ..)

theorem b_sends (c : ZClient σ) (data : Bytes) : Sends c (__b g c data).2 := sendBlocks_sends ..

theorem t_sends (c : ZClient σ) (data : Bytes) : Sends c (__t g c data) := by
  unfold __t
  have h := b_sends g c data
  simp only
  split
  · exact h.trans (b_sends ..)
  · exact h

theorem f_sends (blocks : List Bytes) (c : ZClient σ) : Sends c (__f g c blocks) := by
  induction blocks generalizing c with
  | nil => exact .refl c
  | cons buffer blocks ih =>
    have h := antd_send_sends g c buffer
    simp only [__f]
    split
    · exact h
    · exact h.trans (ih _)

theorem foldl_sends {α : Type} {f : ZClient σ → α → ZClient σ} (hf : ∀ c a, Sends c (f c a)) (l : List α) (c : ZClient σ) :
    Sends c (l.foldl f c) := by
  induction l generalizing c with
  | nil => exact .refl c
  | cons a l ih => exact (hf c a).trans (ih _)

theorem sendHead_sends (c : ZClient σ) (status : Nat) (header : Dictionary Bytes) (cookie : List Bytes) :
    Sends c (sendHead g c status header cookie) := by
  unfold sendHead
  apply Sends.trans _ (b_sends ..)
  apply Sends.trans _ (foldl_sends (fun _ _ => t_sends ..) ..)
  exact (t_sends ..).trans (foldl_sends (fun _ _ => t_sends ..) ..)

/-! ## When the header announces what the body is -/

/-- The header asks for a stream. -/
def Asks (c : ZClient σ) (header : Dictionary Bytes) : Prop :=
  header.dvalue (str "Content-Encoding") = none ∧ c.client.z_level ≠ .CNONE ∧
    ∃ ctype, header.dvalue (str "Content-Type") = some ctype ∧ compressable g ctype = .ok true

/-- No stream is in use. -/
def Fresh (c : ZClient σ) : Prop := c.zstream = none ∨ c.client.z_level = .CNONE

theorem deflates_eq_false {c : ZClient σ} : c.deflates = false ↔ Fresh c := by
  unfold deflates Fresh
  cases c.zstream <;> simp

/-- What came of the question whether to open a stream. -/
inductive Negotiated (c : ZClient σ) (header : Dictionary Bytes) : ZClient σ × Dictionary Bytes → Prop
  | declined : ¬ Asks g c header → Negotiated c header (c, header)
  | failed : Asks g c header → Negotiated c header ({ c with zstream := none }, header)
  | opened (zstream : σ) : Asks g c header → Negotiated c header
      ({ c with zstream := some zstream, z_status := .Z_NO_FLUSH },
        header.dput (str "Content-Encoding") (some (encoding c.client.z_level)))

theorem negotiate_of {c : ZClient σ} {header : Dictionary Bytes} {opened : Option σ} {r : ZClient σ × Dictionary Bytes}
    (h : negotiate g c header opened = .ok r) : Negotiated g c header r := by
  unfold negotiate at h
  split at h
  · rename_i ctype he ht
    obtain ⟨b, hb, h⟩ := Res.bind_ok.1 h
    split at h
    · rename_i hc
      obtain ⟨rfl, hl⟩ : b = true ∧ c.client.z_level ≠ .CNONE := by simpa using hc
      have hasks : Asks g c header := ⟨he, hl, ctype, ht, hb⟩
      cases opened with
      | none =>
        cases h
        exact .failed hasks
      | some zstream =>
        cases h
        exact .opened zstream hasks
    · rename_i hc
      cases h
      apply Negotiated.declined
      rintro ⟨-, hl, t, ht', hb'⟩
      obtain rfl : ctype = t := Option.some.inj (ht.symm.trans ht')
      obtain rfl : b = true := Except.ok.inj (hb.symm.trans hb')
      exact hc (by simpa using hl)
  · rename_i hne
    cases h
    apply Negotiated.declined
    rintro ⟨he, -, ctype, ht, -⟩
    exact hne ctype he ht

/-- `antd_send_header` added the field to the header that it was given. -/
def adds (res : ResponseHeader) (header : Dictionary Bytes) : Bool :=
  ((res.header.getD .dict).dvalue (str "Content-Encoding")).isNone && (header.dvalue (str "Content-Encoding")).isSome

variable {c c' : ZClient σ} {res : ResponseHeader} {opened : Option σ} {header : Dictionary Bytes}

/-- The text of the header is sent at level `CNONE`, whatever was negotiated. -/
theorem antd_send_header_of (h : antd_send_header g c res opened = .ok (c', header)) :
    ∃ c₁ h₁, Negotiated g c (res.header.getD .dict) (c₁, h₁) ∧
      header = h₁.dput (str "Server") (some (str "Antd")) ∧ c'.zstream.isSome = c₁.zstream.isSome ∧
      c'.client.z_level = c.client.z_level ∧ ∃ l, c'.sent = c₁.sent ++ l ∧ ∀ s ∈ l, s.deflated = false := by
  obtain ⟨⟨c₁, h₁⟩, hn, h⟩ := Res.bind_ok.1 h
  cases h
  have hs := sendHead_sends g
    { c₁ with client := { c₁.client with z_level := .CNONE, answers := c₁.client.answers ++ [res.status] } }
    res.status (h₁.dput (str "Server") (some (str "Antd"))) res.cookie
  obtain ⟨l, hl, hd⟩ := hs.sent
  refine ⟨c₁, h₁, negotiate_of g hn, rfl, hs.zstream, rfl, l, hl, fun s hsl => ?_⟩
  rw [hd s hsl]
  exact deflates_eq_false.2 (.inr rfl)

theorem header_cnone (hl : c.client.z_level = .CNONE) (h : antd_send_header g c res opened = .ok (c', header)) :
    c'.deflates = false := by
  obtain ⟨c₁, h₁, -, -, -, hlevel, -⟩ := antd_send_header_of g h
  exact deflates_eq_false.2 (.inr (hlevel.trans hl))

/-- No byte of a header goes through `deflate`. -/
theorem header_plain (h : antd_send_header g c res opened = .ok (c', header)) :
    ∃ l, c'.sent = c.sent ++ l ∧ ∀ s ∈ l, s.deflated = false := by
  obtain ⟨c₁, h₁, hn, -, -, -, hsent⟩ := antd_send_header_of g h
  cases hn <;> exact hsent

/-- After a header the body is compressed if and only if the field was added, unless an earlier stream is still there. -/
theorem header_agrees_iff (h : antd_send_header g c res opened = .ok (c', header)) :
    c'.deflates = adds res header ↔ Fresh c ∨ Asks g c (res.header.getD .dict) := by
  obtain ⟨c₁, h₁, hn, rfl, hz, hl, -⟩ := antd_send_header_of g h
  have hserver : (h₁.dput (str "Server") (some (str "Antd"))).dvalue (str "Content-Encoding") =
      h₁.dvalue (str "Content-Encoding") := by
    rw [Dictionary.dvalue_dput, if_neg (by decide)]
  rw [deflates, adds, hserver, hz, hl]
  cases hn with
  | declined hd =>
    have hadds : (((res.header.getD .dict).dvalue (str "Content-Encoding")).isNone &&
        ((res.header.getD .dict).dvalue (str "Content-Encoding")).isSome) = false := by
      cases (res.header.getD .dict).dvalue (str "Content-Encoding") <;> rfl
    rw [hadds, or_iff_left hd]
    exact deflates_eq_false
  | failed ha =>
    rw [ha.1]
    exact iff_of_true rfl (.inr ha)
  | opened zstream ha =>
    rw [ha.1, Dictionary.dvalue_dput_self]
    refine iff_of_true ?_ (.inr ha)
    simpa using ha.2.1

/-- A header that asks for no stream leaves the one that is there. -/
theorem declined_deflates (h : antd_send_header g c res opened = .ok (c', header))
    (hd : ¬ Asks g c (res.header.getD .dict)) : c'.deflates = c.deflates := by
  obtain ⟨c₁, h₁, hn, -, hz, hl, -⟩ := antd_send_header_of g h
  rw [deflates, hz, hl]
  cases hn with
  | declined => rfl
  | failed ha => exact absurd ha hd
  | opened zstream ha => exact absurd ha hd

/-- `antd_send_header` adds no length. -/
theorem header_length (h : antd_send_header g c res opened = .ok (c', header)) :
    header.dvalue (str "Content-Length") = (res.header.getD .dict).dvalue (str "Content-Length") := by
  obtain ⟨c₁, h₁, hn, rfl, -⟩ := antd_send_header_of g h
  rw [Dictionary.dvalue_dput, if_neg (by decide)]
  cases hn with
  | declined | failed => rfl
  | opened => rw [Dictionary.dvalue_dput, if_neg (by decide)]

/-- The header names the type and no encoding; it has a length only if that type is not compressed for the client. -/
structure Describes (c : ZClient σ) (ctype : Bytes) (header : Dictionary Bytes) : Prop where
  type_eq : header.dvalue (str "Content-Type") = some ctype
  encoding : header.dvalue (str "Content-Encoding") = none
  length : (header.dvalue (str "Content-Length")).isSome → c.client.z_level = .CNONE ∨ compressable g ctype = .ok false

namespace Describes

variable {ctype : Bytes} {d : Dictionary Bytes}

theorem typed (c : ZClient σ) (ctype : Bytes) :
    Describes g c ctype (Dictionary.dict.dput (str "Content-Type") (some ctype)) := by
  have hnone {k : Bytes} (hk : k ≠ str "Content-Type") :
      ((Dictionary.dict : Dictionary Bytes).dput (str "Content-Type") (some ctype)).dvalue k = none := by
    rw [Dictionary.dvalue_dput, if_neg hk]
    exact Dictionary.dvalue_dict_n ..
  refine ⟨Dictionary.dvalue_dput_self .., hnone (by decide), fun hs => ?_⟩
  rw [hnone (by decide)] at hs
  cases hs

theorem dput_length (h : Describes g c ctype d) (hp : c.client.z_level = .CNONE ∨ compressable g ctype = .ok false)
    (value : Option Bytes) : Describes g c ctype (d.dput (str "Content-Length") value) := by
  refine ⟨?_, ?_, fun _ => hp⟩
  · rw [Dictionary.dvalue_dput, if_neg (by decide)]
    exact h.type_eq
  · rw [Dictionary.dvalue_dput, if_neg (by decide)]
    exact h.encoding

/-- Another field. -/
theorem dput (h : Describes g c ctype d) {k : Bytes}
    (hk : k ∉ [str "Content-Type", str "Content-Encoding", str "Content-Length"]) (value : Option Bytes) :
    Describes g c ctype (d.dput k value) := by
  simp only [List.mem_cons, List.not_mem_nil, or_false, not_or] at hk
  obtain ⟨ht, he, hl⟩ := hk
  refine ⟨?_, ?_, ?_⟩
  · rw [Dictionary.dvalue_dput, if_neg (Ne.symm ht)]
    exact h.type_eq
  · rw [Dictionary.dvalue_dput, if_neg (Ne.symm he)]
    exact h.encoding
  · rw [Dictionary.dvalue_dput, if_neg (Ne.symm hl)]
    exact h.length

end Describes

theorem errorHeader_describes {status clen : Nat} (h : errorHeader g c status clen = .ok res) :
    Describes g c errorType (res.header.getD .dict) := by
  unfold errorHeader at h
  simp only at h
  split at h
  · rename_i hl
    cases h
    exact (Describes.typed g c errorType).dput_length g (.inl hl) _
  · obtain ⟨b, hb, h⟩ := Res.bind_ok.1 h
    cases b with
    | true =>
      cases h
      exact .typed g c errorType
    | false =>
      cases h
      exact (Describes.typed g c errorType).dput_length g (.inr hb) _

theorem fileHeader_describes {sys : Sys} {mime_type : Bytes} {st : Stat} (h : fileHeader g sys c mime_type st = .ok res) :
    Describes g c mime_type (res.header.getD .dict) := by
  obtain ⟨b, hb, h⟩ := Res.bind_ok.1 h
  cases h
  have htyped := Describes.typed g c mime_type
  apply Describes.dput g _ (by decide)
  apply Describes.dput g _ (by decide)
  split
  · rename_i hp
    rcases (by simpa using hp : b = false ∨ c.client.z_level = .CNONE) with rfl | hl
    · exact htyped.dput_length g (.inr hb) _
    · exact htyped.dput_length g (.inl hl) _
  · exact htyped

/-- A header of the type, then the body. -/
structure Responds (c : ZClient σ) (ctype : Bytes) (r : Answered σ) : Prop where
  describes : Describes g c ctype (r.res.header.getD .dict)
  head : ∃ opened, antd_send_header g c r.res opened = .ok (r.head, r.header)
  body : Sends r.head r.client

theorem antd_error_responds {status : Nat} {msg : String} {r : Answered σ}
    (h : antd_error g c status msg opened = .ok r) : Responds g c errorType r := by
  obtain ⟨rsh, hrsh, h⟩ := Res.bind_ok.1 h
  obtain ⟨⟨head, hdr⟩, hhead, h⟩ := Res.bind_ok.1 h
  cases h
  exact ⟨errorHeader_describes g hrsh, ⟨opened, hhead⟩, b_sends ..⟩

/-- The type that `serve_file` answers with. -/
def answerType (sys : Sys) (rq : Request) : Option Bytes := do
  let path ← rq.RESOURCE_PATH
  match sys.stat 0 path with
  | none => errorType
  | some st =>
    let header ← rq.REQUEST_HEADER
    if (header.dvalue (str "If-Modified-Since")).any fun d => st.st_ctime = sys.parseDate d then errorType
    else rq.RESOURCE_MIME

theorem serve_file_responds {sys : Sys} {rq : Request} {r : Answered σ} (h : serve_file g sys c rq opened = .ok r) :
    ∃ ctype, answerType sys rq = some ctype ∧ Responds g { c with client.state := .SERVE_FILE } ctype r := by
  obtain ⟨path, hpath, h⟩ := Res.bind_ok.1 h
  rw [deref_ok] at hpath
  simp only at h
  split at h
  · rename_i hst
    exact ⟨errorType, by simp [answerType, hpath, hst], antd_error_responds g h⟩
  · rename_i st hst
    obtain ⟨hdr, hhdr, h⟩ := Res.bind_ok.1 h
    rw [deref_ok] at hhdr
    split at h
    · rename_i hmod
      refine ⟨errorType, ?_, antd_error_responds g h⟩
      simp only [answerType, hpath, hst, hhdr, Option.bind_eq_bind, Option.bind_some, if_pos hmod]
    · rename_i hmod
      obtain ⟨mime_type, hmime, h⟩ := Res.bind_ok.1 h
      obtain ⟨rhd, hrhd, h⟩ := Res.bind_ok.1 h
      obtain ⟨⟨head, hd⟩, hhead, h⟩ := Res.bind_ok.1 h
      rw [deref_ok] at hmime
      cases h
      refine ⟨mime_type, ?_, fileHeader_describes g hrhd, ⟨opened, hhead⟩, f_sends ..⟩
      simp only [answerType, hpath, hst, hhdr, Option.bind_eq_bind, Option.bind_some, if_neg hmod, hmime]

/-- The response carries a length. -/
def Answered.hasLength (r : Answered σ) : Bool := (r.header.dvalue (str "Content-Length")).isSome

/-- A response with a length asks for no stream. -/
theorem Responds.length_declines {ctype : Bytes} {r : Answered σ} (h : Responds g c ctype r)
    (hlen : r.hasLength = true) : ¬ Asks g c (r.res.header.getD .dict) := by
  rintro ⟨-, hl, t, ht, hc⟩
  obtain ⟨opened, hhead⟩ := h.head
  obtain rfl : ctype = t := Option.some.inj (h.describes.type_eq.symm.trans ht)
  rw [Answered.hasLength, header_length g hhead] at hlen
  rcases h.describes.length hlen with hn | hf
  · exact hl hn
  · rw [hc] at hf
    cases hf

/-! ## Without compression these are the functions of `Handle.lean` and `Server.lean` -/

/-- The client of one model and of the other, as long as nothing is compressed. -/
theorem sendBlocks_plain {c : ZClient σ} (hc : c.deflates = false) (fuel : Nat) (data : Bytes) :
    (sendBlocks g fuel c data).1 = (AntHttp.sendBlocks fuel c.client data).1 ∧
      (sendBlocks g fuel c data).2.client = (AntHttp.sendBlocks fuel c.client data).2 := by
  induction fuel generalizing c data with
  | zero => exact ⟨rfl, rfl⟩
  | succ fuel ih =>
    have hs : (sendPlain c (data.take BUFFLEN)).2.deflates = false := (sendPlain_sends hc _).deflates.trans hc
    simp only [sendBlocks, AntHttp.sendBlocks, antd_send_plain g hc]
    split
    · exact ⟨rfl, rfl⟩
    · split
      · rename_i hn
        rw [if_pos (show (AntHttp.antd_send c.client (data.take BUFFLEN)).1 = -1 from hn)]
        exact ⟨rfl, rfl⟩
      · rename_i hn
        rw [if_neg (show (AntHttp.antd_send c.client (data.take BUFFLEN)).1 ≠ -1 from hn)]
        exact ih hs _

theorem b_plain {c : ZClient σ} (hc : c.deflates = false) (data : Bytes) :
    (__b g c data).1 = (AntHttp.__b c.client data).1 ∧ (__b g c data).2.client = (AntHttp.__b c.client data).2 :=
  sendBlocks_plain g hc ..

theorem t_plain {c : ZClient σ} (hc : c.deflates = false) (data : Bytes) :
    (__t g c data).client = AntHttp.__t c.client data := by
  obtain ⟨hst, hclient⟩ := b_plain g hc data
  have hs := (b_sends g c data).deflates.trans hc
  simp only [__t, AntHttp.__t, ← hst, ← hclient]
  split
  · exact (b_plain g hs _).2
  · rfl

theorem f_plain (blocks : List Bytes) {c : ZClient σ} (hc : c.deflates = false) :
    (__f g c blocks).client = AntHttp.__f c.client blocks := by
  induction blocks generalizing c with
  | nil => rfl
  | cons buffer blocks ih =>
    have hs : (sendPlain c buffer).2.deflates = false := (sendPlain_sends hc _).deflates.trans hc
    simp only [__f, AntHttp.__f, antd_send_plain g hc]
    split
    · rename_i hn
      exact (if_pos hn).symm
    · rename_i hn
      rw [ih hs]
      exact (if_neg hn).symm

theorem fields_plain (l : List (Bytes × Option Bytes)) {c : ZClient σ} (hc : c.deflates = false) :
    (l.foldl (fun c it => __t g c (it.1 ++ str ": " ++ fieldText it.2)) c).client =
      l.foldl (fun c it => AntHttp.__t c (it.1 ++ str ": " ++ fieldText it.2)) c.client := by
  induction l generalizing c with
  | nil => rfl
  | cons it l ih =>
    have hs := (t_sends g c (it.1 ++ str ": " ++ fieldText it.2)).deflates.trans hc
    rw [List.foldl_cons, List.foldl_cons, ih hs, t_plain g hc]

theorem sendHead_plain {c : ZClient σ} (hc : c.deflates = false) (status : Nat) (header : Dictionary Bytes) :
    (sendHead g c status header []).client =
      (AntHttp.__b (header.assocs.foldl (fun c it => AntHttp.__t c (it.1 ++ str ": " ++ fieldText it.2))
        (AntHttp.__t c.client (str "HTTP/1.1 " ++ decimal status ++ [32] ++ get_status_str status))) [13, 10]).2 := by
  have h1 := (t_sends g c (str "HTTP/1.1 " ++ decimal status ++ [32] ++ get_status_str status)).deflates.trans hc
  have h2 := (foldl_sends (fun (c : ZClient σ) (it : Bytes × Option Bytes) => t_sends g c (it.1 ++ str ": " ++ fieldText it.2))
    header.assocs _).deflates.trans h1
  rw [sendHead, List.foldl_nil, (b_plain g h2 _).2, fields_plain g _ h1, t_plain g hc]

theorem restore_level {client : Client} {level : Compress} (h : client.z_level = level) :
    { client with z_level := level } = client := by
  rw [← h]

/-- The header of a client that takes no compression, without cookies. -/
theorem antd_send_header_plain (hl : c.client.z_level = .CNONE) (hcookie : res.cookie = [])
    (h : antd_send_header g c res opened = .ok (c', header)) :
    c'.client = AntHttp.antd_send_header c.client res.status (res.header.getD .dict) := by
  obtain ⟨⟨c₁, h₁⟩, hn, h⟩ := Res.bind_ok.1 h
  cases negotiate_of g hn with
  | failed ha | opened _ ha => exact absurd hl ha.2.1
  | declined =>
    cases h
    let start : ZClient σ :=
      { c with client := { c.client with z_level := .CNONE, answers := c.client.answers ++ [res.status] } }
    have hstart : start.client = { c.client with answers := c.client.answers ++ [res.status] } :=
      @restore_level { c.client with answers := c.client.answers ++ [res.status] } .CNONE hl
    have hsent := sendHead_sends g start res.status ((res.header.getD .dict).dput (str "Server") (some (str "Antd"))) res.cookie
    have hplain := sendHead_plain g (c := start) (deflates_eq_false.2 (.inr rfl)) res.status
      ((res.header.getD .dict).dput (str "Server") (some (str "Antd")))
    rw [← hcookie] at hplain
    unfold AntHttp.antd_send_header
    rw [← hstart, ← hplain]
    exact restore_level (hsent.z_level.trans hl.symm)

theorem antd_error_plain {status : Nat} {msg : String} {r : Answered σ} (hl : c.client.z_level = .CNONE)
    (h : antd_error g c status msg opened = .ok r) : r.client.client = AntHttp.antd_error c.client status msg := by
  obtain ⟨rsh, hrsh, h⟩ := Res.bind_ok.1 h
  obtain ⟨⟨head, hdr⟩, hhead, h⟩ := Res.bind_ok.1 h
  cases h
  unfold errorHeader at hrsh
  simp only [if_pos hl] at hrsh
  cases hrsh
  have hc := header_cnone g hl hhead
  unfold AntHttp.antd_error
  rw [(b_plain g hc _).2, antd_send_header_plain g hl rfl hhead]
  rfl

theorem serve_file_plain {sys : Sys} {rq : Request} {r : Answered σ} (hl : c.client.z_level = .CNONE) (hrq : rq.client = c.client)
    (h : serve_file g sys c rq opened = .ok r) :
    AntHttp.serve_file sys rq =
      .ok (antd_create_task none none rq.client.last_io, { rq with client := r.client.client }) := by
  obtain ⟨path, hpath, h⟩ := Res.bind_ok.1 h
  have hbind {α β : Type} (a : α) (f : α → Res β) : (Except.ok a >>= f) = f a := rfl
  unfold AntHttp.serve_file
  rw [deref_ok] at hpath
  simp only [Request.set_state, Request.antd_error, hpath, deref_some, hbind, hrq] at h ⊢
  cases hst : sys.stat 0 path with
  | none =>
    rw [hst] at h
    rw [← antd_error_plain g (c := { c with client.state := .SERVE_FILE }) hl h]
    rfl
  | some st =>
    rw [hst] at h
    obtain ⟨hdr, hhdr, h⟩ := Res.bind_ok.1 h
    rw [deref_ok] at hhdr
    simp only [hhdr, deref_some, hbind]
    split at h
    · rename_i hmod
      rw [if_pos hmod, ← antd_error_plain g (c := { c with client.state := .SERVE_FILE }) hl h]
      rfl
    · rename_i hmod
      obtain ⟨mime_type, hmime, h⟩ := Res.bind_ok.1 h
      obtain ⟨rhd, hrhd, h⟩ := Res.bind_ok.1 h
      obtain ⟨⟨head, hd⟩, hhead, h⟩ := Res.bind_ok.1 h
      rw [deref_ok] at hmime
      cases h
      -- without a stream both send the same header and the same file
      simp only [if_neg hmod, hmime, deref_some, hbind]
      obtain ⟨b, -, hrhd⟩ := Res.bind_ok.1 hrhd
      simp only [hl, decide_true, Bool.or_true, if_true] at hrhd
      cases hrhd
      have hc := header_cnone g (c := { c with client.state := .SERVE_FILE }) hl hhead
      rw [f_plain g _ hc, antd_send_header_plain g (c := { c with client.state := .SERVE_FILE }) hl rfl hhead]
      rfl

end ZClient

/-! ## Every sequence of headers and bodies on a client -/

/-- A call on the client. -/
inductive ZCall (σ : Type) where
  | header (res : ResponseHeader) (opened : Option σ)
  | body (data : Bytes)
  | error (status : Nat) (msg : String) (opened : Option σ)
  | file (sys : Sys) (rq : Request) (opened : Option σ)

/-- A client and what has been sent on it: header bytes, body bytes with the announcement of
their header, and the body bytes of the responses of the server that carry a length. -/
structure Exchange (σ : Type) where
  client : ZClient σ
  added : Option Bool
  heads : List Sent
  bodies : List (Bool × Sent)
  sized : List Sent

namespace Exchange

variable {σ : Type} (g : Gzip σ)

/-- Nothing has been sent. -/
def start (client : Client) : Exchange σ := ⟨⟨client, none, .Z_NO_FLUSH, []⟩, none, [], [], []⟩

def Begins (e : Exchange σ) : Prop := ∃ client, e = start client

/-- What was handed to `antd_send` from one client to the other. -/
def handed (c c' : ZClient σ) : List Sent := c'.sent.drop c.sent.length

def headed (e : Exchange σ) (client : ZClient σ) (added : Bool) : Exchange σ :=
  { e with client, added := some added, heads := e.heads ++ handed e.client client }

/-- Bytes sent before any header are no body. -/
def bodied (e : Exchange σ) (client : ZClient σ) : Exchange σ :=
  match e.added with
  | none => { e with client }
  | some added => { e with client, bodies := e.bodies ++ (handed e.client client).map (added, ·) }

def answered (e : Exchange σ) (r : ZClient.Answered σ) : Exchange σ :=
  let e := (e.headed r.head (ZClient.adds r.res r.header)).bodied r.client
  if r.hasLength then { e with sized := e.sized ++ handed r.head r.client } else e

def step (i : ZCall σ) (e : Exchange σ) : Option (Exchange σ) :=
  match i with
  | .header res opened =>
    (ZClient.antd_send_header g e.client res opened).toOption.map fun r => e.headed r.1 (ZClient.adds res r.2)
  | .body data => some (e.bodied (ZClient.antd_send g e.client data).2)
  | .error status msg opened => (ZClient.antd_error g e.client status msg opened).toOption.map e.answered
  | .file sys rq opened => (ZClient.serve_file g sys e.client rq opened).toOption.map e.answered

/-- No stream is left from an earlier header, or the call's own header asks for one in its place. -/
def Renews (i : ZCall σ) (e : Exchange σ) : Prop :=
  ZClient.Fresh e.client ∨
    match i with
    | .header res _ => ZClient.Asks g e.client (res.header.getD .dict)
    | .body _ => True
    | .error .. => compressable g ZClient.errorType = .ok true
    | .file sys rq _ => ∃ ctype, ZClient.answerType sys rq = some ctype ∧ compressable g ctype = .ok true

/-- Every header so far was sent as it is. -/
def HeadsPlain (e : Exchange σ) : Prop := ∀ s ∈ e.heads, s.deflated = false

/-- Bodies are compressed as their headers announce, those with a length not at all. -/
structure Agrees (e : Exchange σ) : Prop where
  bodies : ∀ p ∈ e.bodies, p.2.deflated = p.1
  sized : ∀ s ∈ e.sized, s.deflated = false
  next : ∀ b, e.added = some b → e.client.deflates = b

theorem handed_eq {c c' : ZClient σ} {l : List Sent} (h : c'.sent = c.sent ++ l) : handed c c' = l := by
  rw [handed, h, List.drop_left]

theorem Sends.handed {c c' : ZClient σ} (h : ZClient.Sends c c') : ∀ s ∈ handed c c', s.deflated = c.deflates := by
  obtain ⟨l, hl, hd⟩ := h.sent
  rw [handed_eq hl]
  exact hd

theorem bodied_heads (e : Exchange σ) (client : ZClient σ) : (e.bodied client).heads = e.heads := by
  unfold bodied
  split <;> rfl

theorem HeadsPlain.headed {e : Exchange σ} {c : ZClient σ} {b : Bool} (h : HeadsPlain e)
    (hs : ∃ l, c.sent = e.client.sent ++ l ∧ ∀ s ∈ l, s.deflated = false) : HeadsPlain (e.headed c b) := by
  obtain ⟨l, hl, hd⟩ := hs
  intro s hsm
  simp only [Exchange.headed, handed_eq hl] at hsm
  rcases List.mem_append.1 hsm with hsm | hsm
  · exact h s hsm
  · exact hd s hsm

theorem HeadsPlain.answered {e : Exchange σ} {c : ZClient σ} {ctype : Bytes} {r : ZClient.Answered σ} (h : HeadsPlain e)
    (hr : ZClient.Responds g c ctype r) (hc : c.sent = e.client.sent) : HeadsPlain (e.answered r) := by
  obtain ⟨opened, hhead⟩ := hr.head
  have hp := ZClient.header_plain g hhead
  rw [hc] at hp
  have hh : HeadsPlain (e.headed r.head (ZClient.adds r.res r.header)) := h.headed hp
  unfold HeadsPlain
  have heq : (e.answered r).heads = (e.headed r.head (ZClient.adds r.res r.header)).heads := by
    unfold Exchange.answered
    simp only
    split <;> exact bodied_heads ..
  rw [heq]
  exact hh

theorem step_headsPlain {i : ZCall σ} {e e' : Exchange σ} (h : HeadsPlain e) (hs : step g i e = some e') :
    HeadsPlain e' := by
  cases i with
  | header res opened =>
    obtain ⟨r, hr, rfl⟩ := Option.map_eq_some_iff.1 hs
    exact h.headed (ZClient.header_plain g (Res.toOption_eq.1 hr))
  | body data =>
    cases hs
    unfold HeadsPlain
    rw [bodied_heads]
    exact h
  | error status msg opened =>
    obtain ⟨r, hr, rfl⟩ := Option.map_eq_some_iff.1 hs
    exact h.answered g (ZClient.antd_error_responds g (Res.toOption_eq.1 hr)) rfl
  | file sys rq opened =>
    obtain ⟨r, hr, rfl⟩ := Option.map_eq_some_iff.1 hs
    obtain ⟨ctype, -, hresp⟩ := ZClient.serve_file_responds g (Res.toOption_eq.1 hr)
    exact h.answered g hresp rfl

theorem Agrees.headed {e : Exchange σ} {c : ZClient σ} {b : Bool} (h : Agrees e) (hc : c.deflates = b) :
    Agrees (e.headed c b) :=
  ⟨h.bodies, h.sized, fun _ hb => hc.trans (Option.some.inj hb)⟩

theorem Agrees.bodied {e : Exchange σ} {c : ZClient σ} (h : Agrees e) (hc : ZClient.Sends e.client c) :
    Agrees (e.bodied c) := by
  unfold Exchange.bodied
  split
  · rename_i hn
    refine ⟨h.bodies, h.sized, fun b hb => ?_⟩
    rw [show e.added = some b from hb] at hn
    cases hn
  · rename_i b hb
    have hd := h.next b hb
    refine ⟨fun p hp => ?_, h.sized, fun d hd' => ?_⟩
    · rcases List.mem_append.1 hp with hp | hp
      · exact h.bodies p hp
      · obtain ⟨s, hs, rfl⟩ := List.mem_map.1 hp
        exact (Sends.handed hc s hs).trans hd
    · exact hc.deflates.trans (h.next d hd')

/-- A response of the server whose header renews the stream, or finds none. -/
theorem Agrees.answered {e : Exchange σ} {c : ZClient σ} {ctype : Bytes} {r : ZClient.Answered σ} (h : Agrees e)
    (hr : ZClient.Responds g c ctype r) (hren : ZClient.Fresh c ∨ compressable g ctype = .ok true) :
    Agrees (e.answered r) := by
  obtain ⟨opened, hhead⟩ := hr.head
  have hasks : ZClient.Fresh c ∨ ZClient.Asks g c (r.res.header.getD .dict) := by
    by_cases hl : c.client.z_level = .CNONE
    · exact .inl (.inr hl)
    · exact hren.imp_right fun hc => ⟨hr.describes.encoding, hl, ctype, hr.describes.type_eq, hc⟩
  have hagree := (h.headed ((ZClient.header_agrees_iff g hhead).2 hasks)).bodied hr.body
  unfold Exchange.answered
  simp only
  split
  · rename_i hlen
    refine ⟨hagree.bodies, fun s hs => ?_, hagree.next⟩
    rcases List.mem_append.1 hs with hs | hs
    · exact hagree.sized s hs
    · -- a header with a length asks for no stream, so there is none
      have hdecl := hr.length_declines g hlen
      rw [Sends.handed hr.body s hs, ZClient.declined_deflates g hhead hdecl]
      exact ZClient.deflates_eq_false.2 (hasks.resolve_right hdecl)
  · exact hagree

theorem step_agrees {i : ZCall σ} {e e' : Exchange σ} (h : Agrees e) (hi : Renews g i e) (hs : step g i e = some e') :
    Agrees e' := by
  cases i with
  | header res opened =>
    obtain ⟨r, hr, rfl⟩ := Option.map_eq_some_iff.1 hs
    exact h.headed ((ZClient.header_agrees_iff g (Res.toOption_eq.1 hr)).2 hi)
  | body data =>
    cases hs
    exact h.bodied (ZClient.antd_send_sends g e.client data)
  | error status msg opened =>
    obtain ⟨r, hr, rfl⟩ := Option.map_eq_some_iff.1 hs
    exact h.answered g (ZClient.antd_error_responds g (Res.toOption_eq.1 hr)) hi
  | file sys rq opened =>
    obtain ⟨r, hr, rfl⟩ := Option.map_eq_some_iff.1 hs
    obtain ⟨ctype, ht, hresp⟩ := ZClient.serve_file_responds g (Res.toOption_eq.1 hr)
    refine h.answered g hresp (hi.imp_right ?_)
    rintro ⟨t, ht', hc⟩
    obtain rfl : ctype = t := Option.some.inj (ht.symm.trans ht')
    exact hc

/-- Headers are never compressed; bodies are compressed as their headers announce in every run in
which no header leaves an earlier stream in place. -/
theorem exchange_agrees (e : Exchange σ) :
    (Runs.Reachable (step g) Begins e → ∀ s ∈ e.heads, s.deflated = false) ∧
      (Runs.Run (step g) (Renews g) Begins e →
        (∀ p ∈ e.bodies, p.2.deflated = p.1) ∧ ∀ s ∈ e.sized, s.deflated = false) := by
  constructor
  · intro h
    refine h.inv HeadsPlain ?_ fun i s s' hp _ hs => step_headsPlain g hp hs
    rintro _ ⟨client, rfl⟩
    exact nofun
  · intro h
    have ha : Agrees e := by
      refine h.inv Agrees ?_ fun i s s' hp hi hs => step_agrees g hp hi hs
      rintro _ ⟨client, rfl⟩
      exact ⟨nofun, nofun, nofun⟩
    exact ⟨ha.bodies, ha.sized⟩

/-- The first bytes of a stream. -/
def magic : Compress → Bytes
  | .CGZ => [0x1f, 0x8b, 8, 0, 0, 0, 0, 0, 2, 3]
  | _ => [0x78, 0xda]

theorem magic_length (level : Compress) : (magic level).length ≤ 10 := by
  cases level <;> decide

/-- What zlib does with little input: without `Z_FINISH` it gives the header of the format and keeps the rest. -/
def smallZlib : Zlib (Compress × Bool) where
  deflate s _ _ := some ((s.1, true), [], if s.2 then [] else magic s.1)
  pending _ _ _ := 0
  pending_lt h hb := by
    obtain ⟨-, -, rfl⟩ : _ ∧ _ ∧ _ := by simpa using h
    split at hb
    · cases hb
    · exact absurd (hb.ge.trans (magic_length _)) (by decide)

/-- Texts are compressed. -/
def smallGzip : Gzip (Compress × Bool) := { smallZlib with regexec := Ere.regexec, g_gzip_types := some [some (str "text/html")] }

/-- A header of the type, for which a stream could be opened. -/
def typedHeader (ctype : Bytes) : ZCall (Compress × Bool) :=
  .header ⟨200, some (dictOf 15 [(str "Content-Type", ctype)]), []⟩ (some (.CGZ, false))

/-- A client that takes gzip and whose socket has room. -/
def gzipClient : Client := ⟨4, false, .PLUGIN_EXEC, 0, .CGZ, [], List.replicate 64 (.room 1023 0), [], []⟩

/-- A compressed document. -/
theorem exchange_agrees_gzip : ∃ e : Exchange (Compress × Bool), e.bodies = [(true, ⟨true, str "hi"⟩)] ∧
    (∀ p ∈ e.bodies, p.2.deflated = p.1) ∧ ∀ s ∈ e.sized, s.deflated = false := by
  have hrun : (Runs.runAll (step smallGzip) [typedHeader (str "text/html"), .body (str "hi")] (start gzipClient)).map
      Exchange.bodies = some [(true, ⟨true, str "hi"⟩)] := by decide +kernel
  obtain ⟨e, he, hb⟩ := Option.map_eq_some_iff.1 hrun
  obtain ⟨e₁, h1, he⟩ := Option.bind_eq_some_iff.1 he
  obtain ⟨e₂, h2, he⟩ := Option.bind_eq_some_iff.1 he
  obtain rfl : e₂ = e := Option.some.inj he
  exact ⟨_, hb, (exchange_agrees smallGzip _).2
    (.step (.step (.init ⟨gzipClient, rfl⟩) (.inl (.inl rfl)) h1) (.inr trivial) h2)⟩

/-- A picture, served. -/
def servePicture : ZCall (Compress × Bool) :=
  .file { sampleSys [str "/www/a.png"] with readFile := fun _ => some [str "hi"] }
    { (sampleConn none [] []).rq with
      REQUEST_HEADER := some .dict
      RESOURCE_PATH := some (str "/www/a.png")
      RESOURCE_MIME := some (str "image/png") } none

/-- The header of the picture opens no stream and has a length, and the stream of the header before compresses the picture. -/
theorem stale_stream : ¬ ∀ (σ : Type) (g : Gzip σ) (e : Exchange σ), Runs.Reachable (step g) Begins e →
    (∀ s ∈ e.heads, s.deflated = false) ∧ (∀ p ∈ e.bodies, p.2.deflated = p.1) ∧ ∀ s ∈ e.sized, s.deflated = false := by
  intro h
  have hrun : (Runs.runAll (step smallGzip) [typedHeader (str "text/html"), servePicture] (start gzipClient)).map
      (fun e => (e.bodies, e.sized)) = some ([(false, ⟨true, str "hi"⟩)], [⟨true, str "hi"⟩]) := by decide +kernel
  obtain ⟨e, he, hb⟩ := Option.map_eq_some_iff.1 hrun
  obtain ⟨-, hbodies, -⟩ := h _ smallGzip e (Runs.reachable_runAll (.init ⟨gzipClient, rfl⟩) he)
  rw [(Prod.mk.inj hb).1] at hbodies
  exact absurd (hbodies _ List.mem_cons_self) (by decide)

end Exchange

end AntHttp
