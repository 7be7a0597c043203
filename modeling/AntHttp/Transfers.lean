import AntHttp.Compression
import AntHttp.Multipart
import AntHttp.Sending
/-!
# What is announced and what is sent

The head of a response is text handed over line by line, and the body follows
in the blocks the file is read in. On a client with a stream, what `deflate`
has put out is sent by inner calls whose results nobody looks at.
-/

set_option linter.style.nameCheck false

namespace AntHttp

open CString

/-! ## The head as text -/

/-- What `__t` hands over. -/
def linePieces (line : Bytes) : List Bytes := pieces line ++ pieces [13, 10]

def statusLine (status : Nat) : Bytes := str "HTTP/1.1 " ++ decimal status ++ [32] ++ get_status_str status

def fieldLine (it : Bytes × Option Bytes) : Bytes := it.1 ++ str ": " ++ fieldText it.2

def headPieces (status : Nat) (header : Dictionary Bytes) : List Bytes :=
  linePieces (statusLine status) ++ header.assocs.flatMap (fun it => linePieces (fieldLine it)) ++ pieces [13, 10]

def headText (status : Nat) (header : Dictionary Bytes) : Bytes :=
  statusLine status ++ [13, 10] ++ header.assocs.flatMap (fun it => fieldLine it ++ [13, 10]) ++ [13, 10]

theorem pieceSizes_pos {n k : Nat} (h : k ∈ pieceSizes n) : 0 < k ∧ k ≤ BUFFLEN := by
  fun_induction pieceSizes n with
  | case1 => cases h
  | case2 n hn ih =>
    rcases List.mem_cons.1 h with rfl | h
    · refine ⟨?_, Nat.min_le_left ..⟩
      rw [BUFFLEN]
      omega
    · exact ih h

theorem headPieces_pos {status : Nat} {header : Dictionary Bytes} {p : Bytes} (h : p ∈ headPieces status header) :
    0 < p.length ∧ p.length ≤ BUFFLEN := by
  have hpiece {data : Bytes} (hp : p ∈ pieces data) : 0 < p.length ∧ p.length ≤ BUFFLEN :=
    pieceSizes_pos (pieces_length data ▸ List.mem_map_of_mem hp)
  have hline {line : Bytes} (hp : p ∈ linePieces line) : 0 < p.length ∧ p.length ≤ BUFFLEN :=
    (List.mem_append.1 hp).elim hpiece hpiece
  rcases List.mem_append.1 h with h | h
  · rcases List.mem_append.1 h with h | h
    · exact hline h
    · obtain ⟨it, -, h⟩ := List.mem_flatMap.1 h
      exact hline h
  · exact hpiece h

/-- A field of the header has its line in the text. -/
theorem line_in_headText {status : Nat} {header : Dictionary Bytes} {key v : Bytes} (h : header.dvalue key = some v) :
    key ++ str ": " ++ v ++ [13, 10] <:+: headText status header := by
  obtain ⟨np, hnp, hv⟩ := Option.bind_eq_some_iff.1 h
  have hkey : np.1 = key := by simpa using List.find?_some hnp
  have hbucket : header.bucket key ∈ header.map := by
    have hlt := header.hash_lt key
    rw [Dictionary.bucket, List.getD_eq_getElem?_getD, List.getElem?_eq_getElem hlt]
    exact List.getElem_mem hlt
  have hmem : np ∈ header.assocs := List.mem_flatten.2 ⟨_, hbucket, List.mem_of_find?_eq_some hnp⟩
  obtain ⟨l₁, l₂, hl⟩ := List.append_of_mem hmem
  have hline : fieldLine np = key ++ str ": " ++ v := by rw [fieldLine, hkey, hv]; rfl
  refine ⟨statusLine status ++ [13, 10] ++ l₁.flatMap (fun it => fieldLine it ++ [13, 10]),
    l₂.flatMap (fun it => fieldLine it ++ [13, 10]) ++ [13, 10], ?_⟩
  rw [headText, hl, List.flatMap_append, List.flatMap_cons, hline]
  simp only [List.append_assoc]

section Heads

variable {t' : Int} {rest : List SendEv} {c : Client}

theorem Taken.b {data : Bytes} (h : Taken c.last_io ((pieces data).map (·.length)) c.output t' rest) :
    __b c data = (true, c.after data t' rest) := by
  rw [b_eq, h.sendPieces, pieces_flatten]

theorem Taken.t {line : Bytes} (h : Taken c.last_io ((linePieces line).map (·.length)) c.output t' rest) :
    __t c line = c.after (line ++ [13, 10]) t' rest := by
  rw [linePieces, List.map_append] at h
  obtain ⟨t₁, evs₁, h₁, h₂⟩ := h.append
  simp only [__t, h₁.b, if_true]
  rw [Taken.b (c := c.after line t₁ evs₁) h₂, Client.after_after]

theorem Taken.fields {l : List (Bytes × Option Bytes)}
    (h : Taken c.last_io ((l.flatMap fun it => linePieces (fieldLine it)).map (·.length)) c.output t' rest) :
    l.foldl (fun c it => __t c (it.1 ++ str ": " ++ fieldText it.2)) c =
      c.after (l.flatMap fun it => fieldLine it ++ [13, 10]) t' rest := by
  induction l generalizing c with
  | nil =>
    cases h
    rw [List.flatMap_nil, Client.after, List.append_nil]
    rfl
  | cons it l ih =>
    rw [List.flatMap_cons, List.map_append] at h
    obtain ⟨t₁, evs₁, h₁, h₂⟩ := h.append
    rw [List.foldl_cons, ← fieldLine, h₁.t, ih (c := c.after (fieldLine it ++ [13, 10]) t₁ evs₁) h₂, Client.after_after,
      List.flatMap_cons]

/-- A head that is taken whole. -/
theorem Taken.head {status : Nat} {header : Dictionary Bytes}
    (h : Taken c.last_io ((headPieces status header).map (·.length)) c.output t' rest) :
    (__b (header.assocs.foldl (fun c it => __t c (it.1 ++ str ": " ++ fieldText it.2)) (__t c (statusLine status)))
      [13, 10]).2 = c.after (headText status header) t' rest := by
  rw [headPieces, List.map_append, List.map_append] at h
  obtain ⟨t₂, evs₂, h₁₂, h₃⟩ := h.append
  obtain ⟨t₁, evs₁, h₁, h₂⟩ := h₁₂.append
  rw [h₁.t, Taken.fields (c := c.after _ t₁ evs₁) h₂, Client.after_after, Taken.b (c := c.after _ t₂ evs₂) h₃,
    Client.after_after, headText]

end Heads

namespace ZClient

variable {σ : Type} (g : Gzip σ)

/-! ## A file and its length -/

section Files

variable {c c' : ZClient σ} {res : ResponseHeader} {header : Dictionary Bytes} {opened : Option σ} {a : Answered σ}
  {sys : Sys} {rq : Request} {path v : Bytes} {st : Stat} {blocks : List Bytes} {t' : Int} {rest : List SendEv}

theorem Negotiated.client_eq {r : ZClient σ × Dictionary Bytes} (h : Negotiated g c header r) : r.1.client = c.client := by
  cases h <;> rfl

theorem antd_send_header_taken (hcookie : res.cookie = []) (h : antd_send_header g c res opened = .ok (c', header))
    (ht : Taken c.client.last_io ((headPieces res.status header).map (·.length)) c.client.output t' rest) :
    c'.client.wire = c.client.wire ++ headText res.status header ∧ c'.client.last_io = t' ∧ c'.client.output = rest := by
  obtain ⟨⟨c₁, h₁⟩, hn, h⟩ := Res.bind_ok.1 h
  have hclient : c₁.client = c.client := (negotiate_of g hn).client_eq g
  cases h
  dsimp only
  rw [hcookie, sendHead_plain g (deflates_eq_false.2 (.inr rfl)), ← statusLine]
  rw [← hclient] at ht ⊢
  rw [Taken.head (c := { c₁.client with z_level := .CNONE, answers := c₁.client.answers ++ [res.status] }) ht]
  exact ⟨rfl, rfl, rfl⟩

/-- The header of a file that is sent as it is announces the size as an `int`. -/
theorem fileHeader_length {mime_type : Bytes} (h : fileHeader g sys c mime_type st = .ok res) :
    res.status = 200 ∧ res.cookie = [] ∧ ∀ v, (res.header.getD .dict).dvalue (str "Content-Length") = some v →
      v = decimalInt (int32 st.st_size) := by
  obtain ⟨b, -, h⟩ := Res.bind_ok.1 h
  cases h
  refine ⟨rfl, rfl, fun v hv => ?_⟩
  rw [Option.getD_some, Dictionary.dvalue_dput, if_neg (by decide), Dictionary.dvalue_dput, if_neg (by decide)] at hv
  split at hv
  · rw [Dictionary.dvalue_dput_self] at hv
    exact (Option.some.inj hv).symm
  · rw [Dictionary.dvalue_dput, if_neg (by decide), Dictionary.dict, Dictionary.dvalue_dict_n] at hv
    cases hv

theorem errorHeader_status {status clen : Nat} (h : errorHeader g c status clen = .ok res) : res.status = status := by
  unfold errorHeader at h
  dsimp only at h
  split at h
  · cases h
    rfl
  · obtain ⟨b, -, h⟩ := Res.bind_ok.1 h
    cases b <;> (cases h; rfl)

/-- A file that is found and has not been seen by the client. -/
theorem serve_file_ok (h : serve_file g sys c rq opened = .ok a) (h200 : a.res.status = 200)
    (hpath : rq.RESOURCE_PATH = some path) (hst : sys.stat 0 path = some st) :
    ∃ mime_type, fileHeader g sys { c with client.state := .SERVE_FILE } mime_type st = .ok a.res ∧
      antd_send_header g { c with client.state := .SERVE_FILE } a.res opened = .ok (a.head, a.header) ∧
      a.client = __f g a.head ((sys.readFile path).getD []) := by
  obtain ⟨path', hpath', h⟩ := Res.bind_ok.1 h
  rw [deref_ok, hpath] at hpath'
  cases hpath'
  simp only [hst] at h
  obtain ⟨hdr, -, h⟩ := Res.bind_ok.1 h
  split at h
  · obtain ⟨rsh, hrsh, h⟩ := Res.bind_ok.1 h
    obtain ⟨⟨head, hd⟩, -, h⟩ := Res.bind_ok.1 h
    cases h
    rw [errorHeader_status g hrsh] at h200
    exact absurd h200 (by decide)
  · obtain ⟨mime_type, -, h⟩ := Res.bind_ok.1 h
    obtain ⟨rhd, hrhd, h⟩ := Res.bind_ok.1 h
    obtain ⟨⟨head, hd⟩, hhead, h⟩ := Res.bind_ok.1 h
    cases h
    exact ⟨mime_type, hrhd, hhead, rfl⟩

/-- A file whose sends all succeed: the head and the blocks are on the wire. -/
theorem file_sent (hserve : serve_file g sys c rq opened = .ok a) (h200 : a.res.status = 200)
    (hpath : rq.RESOURCE_PATH = some path) (hst : sys.stat 0 path = some st) (hfile : sys.readFile path = some blocks)
    (hplain : a.head.deflates = false)
    (hsent : Taken c.client.last_io ((headPieces 200 a.header ++ blocks).map (·.length)) c.client.output t' rest) :
    a.head.client.wire = c.client.wire ++ headText 200 a.header ∧
      a.client.client.wire = a.head.client.wire ++ blocks.flatten := by
  obtain ⟨mime_type, hrhd, hhead, hbody⟩ := serve_file_ok g hserve h200 hpath hst
  obtain ⟨-, hcookie, -⟩ := fileHeader_length g hrhd
  rw [List.map_append] at hsent
  obtain ⟨t₁, evs₁, h₁, h₂⟩ := hsent.append
  rw [← h200] at h₁ ⊢
  obtain ⟨hwire, hlast, hout⟩ := antd_send_header_taken g hcookie hhead h₁
  refine ⟨hwire, ?_⟩
  rw [← hlast, ← hout] at h₂
  rw [hbody, hfile, Option.getD_some, f_plain g _ hplain, f_eq, sendFile, h₂.sendPieces]
  rfl

/-- The length announced for a file is the number of bytes that follow exactly if the size fits an `int`. -/
theorem length_announced_iff (hserve : serve_file g sys c rq opened = .ok a) (h200 : a.res.status = 200)
    (hpath : rq.RESOURCE_PATH = some path) (hst : sys.stat 0 path = some st) (hfile : sys.readFile path = some blocks)
    (hsize : st.st_size = blocks.flatten.length) (hplain : a.head.deflates = false)
    (hv : a.header.dvalue (str "Content-Length") = some v)
    (hsent : Taken c.client.last_io ((headPieces 200 a.header ++ blocks).map (·.length)) c.client.output t' rest) :
    a.head.client.wire = c.client.wire ++ headText 200 a.header ∧
      str "Content-Length" ++ str ": " ++ v ++ [13, 10] <:+: headText 200 a.header ∧
      a.client.client.wire = a.head.client.wire ++ blocks.flatten ∧
      (v = decimal (a.client.client.wire.length - a.head.client.wire.length) ↔ st.st_size < 2 ^ 31) := by
  obtain ⟨hwire, hbody⟩ := file_sent g hserve h200 hpath hst hfile hplain hsent
  refine ⟨hwire, line_in_headText hv, hbody, ?_⟩
  obtain ⟨mime_type, hrhd, hhead, -⟩ := serve_file_ok g hserve h200 hpath hst
  rw [header_length g hhead] at hv
  rw [(fileHeader_length g hrhd).2.2 v hv, hbody, List.length_append, Nat.add_sub_cancel_left, hsize, size_recorded_iff]
  omega

end Files

/-! ## A picture -/

/-- No type is compressed. -/
def plainGzip : Gzip (Compress × Bool) := { Exchange.smallZlib with regexec := Ere.regexec, g_gzip_types := none }

/-- One picture, of these blocks. -/
def pictureSys (blocks : List Bytes) : Sys :=
  { sampleSys [] with stat := fun _ _ => some ⟨false, blocks.flatten.length, 0⟩, readFile := fun _ => some blocks }

def pictureRequest : Request :=
  { (sampleConn none [] []).rq with
    REQUEST_HEADER := some .dict
    RESOURCE_PATH := some (str "/www/a.png")
    RESOURCE_MIME := some (str "image/png") }

/-- A client whose socket has room for `m` blocks. -/
def roomyClient (m : Nat) : ZClient (Compress × Bool) :=
  ⟨⟨4, false, .RESOLVE_REQUEST, 0, .CNONE, [], List.replicate m (.room 1023 0), [], []⟩, none, .Z_NO_FLUSH, []⟩

def pictureHeader (n : Nat) : Dictionary Bytes :=
  (AntHttp.fileHeader (pictureSys []) (str "image/png") ⟨false, n, 0⟩).dput (str "Server") (some (str "Antd"))

theorem negotiate_plainGzip (c : ZClient (Compress × Bool)) (h : Dictionary Bytes) :
    negotiate plainGzip c h none = .ok (c, h) := by
  unfold negotiate
  split <;> rfl

theorem picture_served (blocks : List Bytes) (m : Nat) :
    ∃ a, serve_file plainGzip (pictureSys blocks) (roomyClient m) pictureRequest none = .ok a ∧ a.res.status = 200 ∧
      a.header = pictureHeader blocks.flatten.length := by
  have h : (serve_file plainGzip (pictureSys blocks) (roomyClient m) pictureRequest none).toOption.map
      (fun a => (a.res.status, a.header)) = some (200, pictureHeader blocks.flatten.length) := by
    simp only [serve_file, antd_send_header, negotiate_plainGzip]
    rfl
  obtain ⟨a, ha, heq⟩ := Option.map_eq_some_iff.1 h
  obtain ⟨hstatus, hheader⟩ := Prod.mk.inj heq
  exact ⟨a, Res.toOption_eq.1 ha, hstatus, hheader⟩

/-- The picture is served as it is, of whatever blocks. -/
theorem picture_sent {blocks : List Bytes} (hb : ∀ b ∈ blocks, 0 < b.length ∧ b.length ≤ BUFFLEN) :
    ∃ m a t' rest, serve_file plainGzip (pictureSys blocks) (roomyClient m) pictureRequest none = .ok a ∧
      a.res.status = 200 ∧ a.head.deflates = false ∧
      a.header.dvalue (str "Content-Length") = some (decimalInt (int32 blocks.flatten.length)) ∧
      Taken 0 ((headPieces 200 a.header ++ blocks).map (·.length)) (List.replicate m (.room 1023 0)) t' rest := by
  let ns := (headPieces 200 (pictureHeader blocks.flatten.length) ++ blocks).map (·.length)
  have hpos : ∀ n ∈ ns, 0 < n ∧ n ≤ BUFFLEN := by
    intro n hn
    obtain ⟨p, hp, rfl⟩ := List.mem_map.1 hn
    exact (List.mem_append.1 hp).elim headPieces_pos (hb p)
  obtain ⟨t', rest, htaken⟩ := taken_room 0 hpos ns.length le_rfl
  obtain ⟨a, ha, h200, hheader⟩ := picture_served blocks ns.length
  obtain ⟨-, -, hhead, -⟩ := serve_file_ok plainGzip ha h200 rfl rfl
  refine ⟨ns.length, a, t', rest, ha, h200, header_cnone plainGzip rfl hhead, ?_, hheader ▸ htaken⟩
  rw [hheader, pictureHeader, AntHttp.fileHeader, Dictionary.dvalue_dput, if_neg (by decide), Dictionary.dvalue_dput,
    if_neg (by decide), Dictionary.dvalue_dput, if_neg (by decide), Dictionary.dvalue_dput_self]

/-- A picture of three blocks. -/
theorem length_announced_picture : ∃ (m : Nat) (a : Answered (Compress × Bool)) (v : Bytes),
    serve_file plainGzip (pictureSys [str "one", str "two", str "three"]) (roomyClient m) pictureRequest none = .ok a ∧
      a.header.dvalue (str "Content-Length") = some v ∧
      v = decimal (a.client.client.wire.length - a.head.client.wire.length) := by
  obtain ⟨m, a, t', rest, ha, h200, hplain, hv, hsent⟩ := picture_sent
    (show ∀ b ∈ [str "one", str "two", str "three"], 0 < b.length ∧ b.length ≤ BUFFLEN by decide)
  obtain ⟨-, -, -, hiff⟩ := length_announced_iff plainGzip ha h200 rfl rfl rfl rfl hplain hv hsent
  exact ⟨m, a, _, ha, hv, hiff.2 (by decide)⟩

theorem zeros_length (k : Nat) : (List.replicate k (List.replicate 1024 (0 : UInt8))).flatten.length = k * 1024 := by
  rw [List.length_flatten, List.map_replicate, List.length_replicate, List.sum_replicate_nat]

/-- A picture of 2 GiB: the length announced is negative. -/
theorem length_negative : ∃ (m : Nat) (a : Answered (Compress × Bool)),
    serve_file plainGzip (pictureSys (List.replicate 2097152 (List.replicate 1024 0))) (roomyClient m) pictureRequest none
        = .ok a ∧
      a.client.client.wire.length - a.head.client.wire.length = 2147483648 ∧
      a.header.dvalue (str "Content-Length") = some (str "-2147483648") ∧
      a.header.dvalue (str "Content-Length") ≠
        some (decimal (a.client.client.wire.length - a.head.client.wire.length)) := by
  have hblocks : ∀ b ∈ List.replicate 2097152 (List.replicate 1024 (0 : UInt8)), 0 < b.length ∧ b.length ≤ BUFFLEN := by
    intro b hb
    rw [List.eq_of_mem_replicate hb, List.length_replicate]
    decide
  obtain ⟨m, a, t', rest, ha, h200, hplain, hv, hsent⟩ := picture_sent hblocks
  obtain ⟨-, hbody⟩ := file_sent plainGzip ha h200 rfl rfl rfl hplain hsent
  have hlen : a.client.client.wire.length - a.head.client.wire.length = 2147483648 := by
    rw [hbody, List.length_append, Nat.add_sub_cancel_left, zeros_length]
  rw [zeros_length] at hv
  refine ⟨m, a, ha, hlen, ?_, ?_⟩
  · rw [hv]
    decide
  · rw [hv, hlen]
    decide

end ZClient

/-! ## Calls whose results nobody looks at -/

/-- The inner calls: what each returns, and the client after them. -/
def sendOutputs (client : Client) : List Bytes → List Int × Client
  | [] => ([], client)
  | buf :: bufs =>
    let (n, client) := AntHttp.antd_send client buf
    let r := sendOutputs client bufs
    (n :: r.1, r.2)

section Outputs

variable {t' : Int} {rest : List SendEv} {c : Client} {bufs : List Bytes}

theorem sendOutputs_cons {buf : Bytes} {k : Nat} {r : Option Int} (h : SendCall c.last_io buf.length c.output k r t' rest) :
    sendOutputs c (buf :: bufs) = ((if k = 0 then r.getD 0 else (k : Int)) :: (sendOutputs (c.after (buf.take k) t' rest) bufs).1,
      (sendOutputs (c.after (buf.take k) t' rest) bufs).2) := by
  simp only [sendOutputs, h.antd_send]
  rfl

theorem refused_mem_iff : -1 ∈ (sendOutputs c bufs).1 ↔ SomeRefused c.last_io (bufs.map (·.length)) c.output := by
  induction bufs generalizing c with
  | nil =>
    refine iff_of_false List.not_mem_nil fun h => ?_
    cases h
  | cons buf bufs ih =>
    obtain ⟨k, r, t', rest, h⟩ := exists_call c.last_io buf.length c.output
    rw [sendOutputs_cons h, List.mem_cons, eq_comm, h.refused_iff, ih]
    constructor
    · rintro (⟨rfl, rfl⟩ | hlater)
      · exact .here h
      · exact .later h hlater
    · intro href
      cases href with
      | here h' =>
        obtain ⟨hk, hr, -, -⟩ := h.unique h'
        exact .inl ⟨hk, hr⟩
      | later h' hlater =>
        obtain ⟨rfl, rfl, rfl, rfl⟩ := h.unique h'
        exact .inr hlater

/-- The inner calls go on after one that is cut short. -/
theorem sendOutputs_wire (c : Client) (bufs : List Bytes) :
    ∃ sent, (sendOutputs c bufs).2.wire = c.wire ++ sent ∧ sent.length ≤ bufs.flatten.length := by
  induction bufs generalizing c with
  | nil => exact ⟨[], (List.append_nil _).symm, le_rfl⟩
  | cons buf bufs ih =>
    obtain ⟨k, r, t', rest, h⟩ := exists_call c.last_io buf.length c.output
    obtain ⟨sent, hwire, hlen⟩ := ih (c.after (buf.take k) t' rest)
    refine ⟨buf.take k ++ sent, ?_, ?_⟩
    · rw [sendOutputs_cons h, hwire, Client.after_wire, List.append_assoc]
    · rw [List.flatten_cons, List.length_append, List.length_append, List.length_take]
      omega

/-- All output is on the wire exactly if every call takes its buffer whole. -/
theorem sendOutputs_whole_iff : (sendOutputs c bufs).2.wire = c.wire ++ bufs.flatten ↔
    ∃ t' rest, Taken c.last_io (bufs.map (·.length)) c.output t' rest := by
  induction bufs generalizing c with
  | nil => exact iff_of_true (List.append_nil _).symm ⟨_, _, .nil⟩
  | cons buf bufs ih =>
    obtain ⟨k, r, t', rest, h⟩ := exists_call c.last_io buf.length c.output
    rw [sendOutputs_cons h]
    rcases h.taken with ⟨rfl, rfl⟩ | ⟨hr, hk⟩
    · have ih' := ih (c := c.after buf t' rest)
      rw [Client.after_wire, List.append_assoc, ← List.flatten_cons] at ih'
      rw [List.take_length, ih']
      constructor
      · rintro ⟨t'', rest', htaken⟩
        exact ⟨t'', rest', .cons h htaken⟩
      · rintro ⟨t'', rest', htaken⟩
        cases htaken with
        | cons h' htaken =>
          obtain ⟨-, -, rfl, rfl⟩ := h.unique h'
          exact ⟨t'', rest', htaken⟩
    · obtain ⟨sent, hwire, hlen⟩ := sendOutputs_wire (c.after (buf.take k) t' rest) bufs
      refine iff_of_false (fun heq => ?_) fun ⟨t'', rest', htaken⟩ => ?_
      · have hlens := congrArg List.length (hwire.symm.trans heq)
        rw [Client.after_wire] at hlens
        simp only [List.length_append, List.length_take, List.flatten_cons] at hlens
        omega
      · cases htaken with
        | cons h' htaken =>
          have hk' : k = buf.length := (h.unique h').1
          omega

end Outputs

namespace ZClient

variable {σ : Type} (g : Gzip σ)

/-! ## What `deflate` has put out -/

/-- Whether `deflate` fails, and the buffers it fills before. -/
def outputs (flush : Flush) (zstream : σ) (data : Bytes) : Bool × List Bytes :=
  match _h : g.deflate zstream flush data with
  | none => (true, [])
  | some (zstream', rest, buf) =>
    if _hb : buf.length = BUFFLEN then ((outputs flush zstream' rest).1, buf :: (outputs flush zstream' rest).2)
    else (false, [buf])
termination_by g.pending zstream flush data
decreasing_by all_goals exact g.pending_lt _h _hb

/-- -1 is returned exactly if `deflate` or an inner call has failed, and else all that was put out has been sent. -/
def Reports (c : ZClient σ) (zstream : σ) (data : Bytes) : Prop :=
  let out := outputs g c.z_status zstream data
  let r := antd_send g c data
  (int32 r.1 = -1 ↔ out.1 = true ∨ -1 ∈ (sendOutputs { c.client with z_level := .CNONE } out.2).1) ∧
    (int32 r.1 ≠ -1 → r.2.client.wire = c.client.wire ++ out.2.flatten)

theorem deflateLoop_eq (flush : Flush) (client : Client) (len : Int) (zstream : σ) (data : Bytes) :
    (deflateLoop g flush client len zstream data).1 =
        (if (outputs g flush zstream data).1 then -1 else len + ((outputs g flush zstream data).2.flatten.length : Int)) ∧
      (deflateLoop g flush client len zstream data).2.2 = (sendOutputs client (outputs g flush zstream data).2).2 := by
  fun_induction outputs g flush zstream data generalizing client len with
  | case1 zstream data h =>
    rw [deflateLoop, h]
    exact ⟨rfl, rfl⟩
  | case2 zstream data zstream' rest buf h hb ih =>
    obtain ⟨hret, hclient⟩ := ih (AntHttp.antd_send client buf).2 (len + buf.length)
    rw [deflateLoop, h]
    dsimp only
    rw [dif_pos hb, hret, hclient, List.flatten_cons, List.length_append]
    refine ⟨?_, rfl⟩
    split
    · rfl
    · omega
  | case3 zstream data zstream' rest buf h hb =>
    rw [deflateLoop, h]
    dsimp only
    rw [dif_neg hb, List.flatten_singleton]
    exact ⟨rfl, rfl⟩

theorem antd_send_deflates {c : ZClient σ} {zstream : σ} (hz : c.zstream = some zstream) (hl : c.client.z_level ≠ .CNONE)
    (data : Bytes) :
    (antd_send g c data).1 = (if (outputs g c.z_status zstream data).1 then -1
        else ((outputs g c.z_status zstream data).2.flatten.length : Int)) ∧
      (antd_send g c data).2.client.wire =
        (sendOutputs { c.client with z_level := .CNONE } (outputs g c.z_status zstream data).2).2.wire := by
  obtain ⟨hret, hclient⟩ := deflateLoop_eq g c.z_status { c.client with z_level := .CNONE } 0 zstream data
  simp only [antd_send, hz, if_neg hl]
  rw [hret, hclient, Int.zero_add]
  exact ⟨rfl, rfl⟩

/-- Failures are reported exactly if `deflate` fails, or if there are none to report; a count that wraps to -1 reports
what nobody has looked at. -/
theorem reports_iff {c : ZClient σ} {zstream : σ} (hz : c.zstream = some zstream) (hl : c.client.z_level ≠ .CNONE)
    (data : Bytes) :
    Reports g c zstream data ↔ (outputs g c.z_status zstream data).1 = true ∨
      (int32 (outputs g c.z_status zstream data).2.flatten.length ≠ -1 ∧
        ∃ t' rest, Taken c.client.last_io ((outputs g c.z_status zstream data).2.map (·.length)) c.client.output t' rest) ∨
      (int32 (outputs g c.z_status zstream data).2.flatten.length = -1 ∧
        SomeRefused c.client.last_io ((outputs g c.z_status zstream data).2.map (·.length)) c.client.output) := by
  obtain ⟨hret, hwire⟩ := antd_send_deflates g hz hl data
  unfold Reports
  dsimp only
  rw [hret, hwire]
  generalize outputs g c.z_status zstream data = out
  obtain ⟨fails, bufs⟩ := out
  have href : -1 ∈ (sendOutputs { c.client with z_level := .CNONE } bufs).1 ↔
      SomeRefused c.client.last_io (bufs.map (·.length)) c.client.output := refused_mem_iff
  have hwhole : (sendOutputs { c.client with z_level := .CNONE } bufs).2.wire = c.client.wire ++ bufs.flatten ↔
      ∃ t' rest, Taken c.client.last_io (bufs.map (·.length)) c.client.output t' rest := sendOutputs_whole_iff
  cases fails with
  | true =>
    have hneg : int32 (-1) = -1 := by decide
    simp [hneg]
  | false =>
    simp only [Bool.false_eq_true, if_false, false_or, href, hwhole]
    by_cases hwrap : int32 (bufs.flatten.length : Int) = -1
    · simp only [hwrap, true_iff, ne_eq, not_true_eq_false, false_imp_iff, and_true, false_and, true_and, false_or]
    · simp only [hwrap, false_iff, not_false_eq_true, true_and, ne_eq, forall_const, false_and, or_false]
      exact ⟨fun h => h.2, fun ⟨t', rest, h⟩ => ⟨h.not_refused, t', rest, h⟩⟩

/-- A client that takes gzip, with a new stream. -/
def zippedClient (output : List SendEv) : ZClient (Compress × Bool) :=
  ⟨⟨4, false, .PLUGIN_EXEC, 0, .CGZ, [], output, [], []⟩, some (.CGZ, false), .Z_NO_FLUSH, []⟩

theorem zipped_outputs (data : Bytes) :
    outputs plainGzip .Z_NO_FLUSH (Compress.CGZ, false) data = (false, [Exchange.magic .CGZ]) := by
  have h : plainGzip.deflate (Compress.CGZ, false) .Z_NO_FLUSH data = some ((.CGZ, true), [], Exchange.magic .CGZ) := rfl
  rw [outputs]
  split
  · rename_i hnone
    rw [h] at hnone
    cases hnone
  · rename_i hsome
    rw [h] at hsome
    cases hsome
    exact dif_neg (by decide)

/-- A stream that has output left: it is put out first, as far as the buffer goes, and then the data is taken in. -/
def keptZlib : Zlib Bytes where
  deflate kept _ data :=
    if BUFFLEN ≤ kept.length then some (kept.drop BUFFLEN, data, kept.take BUFFLEN) else some ([], [], kept)
  pending kept _ _ := kept.length
  pending_lt {kept _ _ _ _ _} h hb := by
    have hpos : 0 < BUFFLEN := by decide
    split at h
    · rename_i hfull
      obtain ⟨rfl, rfl, rfl⟩ : _ ∧ _ ∧ _ := by simpa using h
      rw [List.length_drop]
      omega
    · rename_i hlast
      obtain ⟨rfl, rfl, rfl⟩ : _ ∧ _ ∧ _ := by simpa using h
      exact absurd hb.ge hlast

def keptGzip : Gzip Bytes := { keptZlib with regexec := Ere.regexec, g_gzip_types := none }

section

variable {kept data : Bytes} {flush : Flush}

theorem outputs_full (h : BUFFLEN ≤ kept.length) : outputs keptGzip flush kept data =
    ((outputs keptGzip flush (kept.drop BUFFLEN) data).1,
      kept.take BUFFLEN :: (outputs keptGzip flush (kept.drop BUFFLEN) data).2) := by
  have hd : keptGzip.deflate kept flush data = some (kept.drop BUFFLEN, data, kept.take BUFFLEN) := if_pos h
  rw [outputs]
  split
  · rename_i hnone
    rw [hd] at hnone
    cases hnone
  · rename_i hsome
    rw [hd] at hsome
    cases hsome
    exact dif_pos (by rw [List.length_take]; omega)

theorem outputs_last (h : kept.length < BUFFLEN) : outputs keptGzip flush kept data = (false, [kept]) := by
  have hd : keptGzip.deflate kept flush data = some ([], [], kept) := if_neg (by omega)
  rw [outputs]
  split
  · rename_i hnone
    rw [hd] at hnone
    cases hnone
  · rename_i hsome
    rw [hd] at hsome
    cases hsome
    exact dif_neg (by omega)

end

/-- A client whose stream has 2500 bytes left. -/
def keptClient (output : List SendEv) : ZClient Bytes :=
  ⟨⟨4, false, .PLUGIN_EXEC, 0, .CGZ, [], output, [], []⟩, some (List.replicate 2500 65), .Z_NO_FLUSH, []⟩

theorem kept_outputs (data : Bytes) : outputs keptGzip .Z_NO_FLUSH (List.replicate 2500 65) data =
    (false, [List.replicate 1024 65, List.replicate 1024 65, List.replicate 452 65]) := by
  rw [outputs_full (by rw [List.length_replicate]; decide), List.drop_replicate, List.take_replicate,
    outputs_full (by rw [List.length_replicate]; decide), List.drop_replicate, List.take_replicate,
    outputs_last (by rw [List.length_replicate]; decide)]
  rfl

/-- There is room for three buffers. -/
theorem reports_room : Reports keptGzip (keptClient (List.replicate 3 (.room 1023 0))) (List.replicate 2500 65) (str "hi") := by
  refine (reports_iff keptGzip rfl (by decide) (str "hi")).2 (.inr (.inl ?_))
  rw [show (keptClient (List.replicate 3 (.room 1023 0))).z_status = .Z_NO_FLUSH from rfl, kept_outputs]
  obtain ⟨t', rest, h⟩ := taken_room 0 (show ∀ n ∈ [1024, 1024, 452], 0 < n ∧ n ≤ BUFFLEN by decide) 3 le_rfl
  have hlens : [List.replicate 1024 (65 : UInt8), List.replicate 1024 65, List.replicate 452 65].map (·.length) =
      [1024, 1024, 452] := by
    simp only [List.map_cons, List.map_nil, List.length_replicate]
  refine ⟨?_, t', rest, hlens ▸ h⟩
  simp only [List.flatten_cons, List.flatten_nil, List.length_append, List.length_replicate, List.length_nil]
  decide +kernel

/-- The socket is gone, and 10 bytes are said to be sent. -/
theorem broken_unreported : ¬Reports plainGzip (zippedClient [.error 0]) (Compress.CGZ, false) (str "hi") := by
  rintro ⟨hret, -⟩
  obtain ⟨hlen, -⟩ := antd_send_deflates plainGzip (c := zippedClient [.error 0]) rfl (by decide) (str "hi")
  rw [show (zippedClient [.error 0]).z_status = .Z_NO_FLUSH from rfl, zipped_outputs] at hret hlen
  rw [hlen] at hret
  exact absurd (hret.2 (.inr (by decide))) (by decide)

end ZClient

end AntHttp
