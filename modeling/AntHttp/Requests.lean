import AntHttp.Bounds
import AntHttp.Headers
import AntHttp.Lib.EreWords
import AntHttp.Pipeline
import AntHttp.Proxying
/-!
# A request as it is written

A request line and header fields arrive on a connection, and the first handlers
read them: what they leave is the request that was written, and the bytes
behind it still to come.
-/

set_option linter.style.nameCheck false

namespace AntHttp

open CString

/-! ## Reading changes the input only -/

/-- A client after some of its input has been taken. -/
def Client.received (c : Client) (t : Int) (rest : List RecvEv) : Client := { c with last_io := t, input := rest }

/-- Nothing else has changed. -/
def Client.Receives (c c' : Client) : Prop := ∃ t rest, c' = c.received t rest

section

variable {c c' c'' : Client} {n : Nat} {more bs : Bytes}

theorem Client.Receives.refl (c : Client) : c.Receives c := ⟨c.last_io, c.input, rfl⟩

theorem Client.Receives.trans (h : c.Receives c') (h' : c'.Receives c'') : c.Receives c'' := by
  obtain ⟨t, rest, rfl⟩ := h
  obtain ⟨t', rest', rfl⟩ := h'
  exact ⟨t', rest', rfl⟩

theorem antd_recv_receives (c : Client) (n : Nat) : c.Receives (antd_recv c n).2.2 := ⟨_, _, rfl⟩

theorem readLoop_receives (n : Nat) (c : Client) : c.Receives (readLoop n c).2 := by
  induction n generalizing c with
  | zero => exact .refl c
  | succ n ih =>
    have h := antd_recv_receives c 1
    unfold readLoop
    split
    · rename_i hr
      rw [hr] at h
      split
      · exact h
      · exact h.trans (ih _)
    · rename_i hr
      rw [hr] at h
      exact h

/-- A line that fits into the buffer is read, and nothing behind it. -/
theorem Client.Has.line {l : Bytes} {size : Nat} (h : c.Has (l ++ 10 :: more)) (hl : 10 ∉ l) (hlen : l.length + 1 < size) :
    ∃ c', AntHttp.read_buf c size = (l ++ [10], c') ∧ c.Receives c' ∧ c'.Has more := by
  have hchunk : chunk (size - 1) (l ++ 10 :: more) = l ++ [10] := chunk_line hl (by omega)
  obtain ⟨c', hr, h'⟩ := h.readLoop (n := size - 1) (.inr (by simp))
  have hdrop : (l ++ 10 :: more).drop (l ++ [10]).length = more := by
    have hassoc : l ++ 10 :: more = (l ++ [10]) ++ more := by simp
    rw [hassoc, List.drop_left]
  rw [hchunk] at hr h'
  rw [hdrop] at h'
  have hrec := readLoop_receives (size - 1) c
  rw [hr] at hrec
  exact ⟨c', hr, hrec, h'⟩

end

/-! ## The request line -/

/-- A word of the request line. -/
structure Token (s : Bytes) : Prop where
  ne_nil : s ≠ []
  text : ∀ c ∈ s, c ≠ 32 ∧ c ≠ 13 ∧ c ≠ 10 ∧ c ≠ 0

/-- What a client writes. -/
structure RequestText where
  method : Bytes
  target : Bytes
  version : Bytes
  fields : List HeaderField

def RequestText.line (r : RequestText) : Bytes := r.method ++ 32 :: (r.target ++ 32 :: (r.version ++ [13]))

def RequestText.bytes (r : RequestText) : Bytes := r.line ++ 10 :: headerBlock r.fields

/-- It can be read: words in the first line, which fits into its buffer, and fields that fit into theirs. -/
structure RequestText.Readable (r : RequestText) : Prop where
  method : Token r.method
  target : Token r.target
  version : Token r.version
  line : r.line.length + 1 < BUFFLEN
  fields : ∀ f ∈ r.fields, f.line.length < BUF_SIZE ∧ 0 ∉ f.line
  header : (headerBlock r.fields).length ≤ HEADER_MAX_SIZE

section

variable {r : RequestText} {s t : Bytes} {sys : Sys} {cnf : Config} {rq : Request} {more : Bytes}

theorem Token.not_mem (h : Token s) (c : UInt8) (hc : c = 32 ∨ c = 13 ∨ c = 10 ∨ c = 0) : c ∉ s := fun hm => by
  obtain ⟨h1, h2, h3, h4⟩ := h.text c hm
  rcases hc with hc | hc | hc | hc
  · exact h1 hc
  · exact h2 hc
  · exact h3 hc
  · exact h4 hc

/-- Text that neither starts nor ends with the delimiter. -/
theorem requestLine_text (h : r.Readable) (rq : Request) (task : Task) : requestLine rq task (r.line ++ [10]) =
    .ok ({ task with handle := some .decode_request_header },
      { rq with
        METHOD := some r.method
        PROTOCOL := some r.version
        REQUEST_QUERY := some r.target
        REQUEST_PATH := some (url_decode ((strsep (some r.target) 63).1.getD [])) }) := by
  have hm := h.method.not_mem
  have ht := h.target.not_mem
  have hv := h.version.not_mem
  have hcstr : cstr (r.line ++ [10]) = r.line ++ [10] := by
    apply cstr_eq_self
    simp only [RequestText.line, List.mem_append, List.mem_cons, List.not_mem_nil, or_false, not_or]
    exact ⟨⟨hm _ (by simp), by decide, ht _ (by simp), by decide, hv _ (by simp), by decide⟩, by decide⟩
  have h1 : strsep (some (r.line ++ [10])) 32 =
      (some r.method, some (r.target ++ 32 :: (r.version ++ [13, 10]))) := by
    have hassoc : r.line ++ [10] = r.method ++ 32 :: (r.target ++ 32 :: (r.version ++ [13, 10])) := by
      simp [RequestText.line]
    rw [hassoc, strsep_append (hm _ (by simp))]
  have h2 : trim (r.target ++ 32 :: (r.version ++ [13, 10])) 32 = r.target ++ 32 :: (r.version ++ [13, 10]) := by
    obtain ⟨a, s, hs⟩ := List.exists_cons_of_ne_nil h.target.ne_nil
    have hassoc : r.target ++ 32 :: (r.version ++ [13, 10]) = a :: (s ++ 32 :: (r.version ++ [13])) ++ [10] := by
      rw [hs]
      simp
    rw [hassoc, trim_between (h.target.text a (by rw [hs]; simp)).1 _ (by decide)]
  have h3 : strsep (some (r.target ++ 32 :: (r.version ++ [13, 10]))) 32 = (some r.target, some (r.version ++ [13, 10])) :=
    strsep_append (ht _ (by simp))
  have h4 : trim (trim (trim (r.version ++ [13, 10]) 32) 10) 13 = r.version := by
    have hsp : (32 : UInt8) ∉ r.version ++ [13, 10] := by
      rw [List.mem_append]
      exact not_or.2 ⟨hv _ (by simp), by decide⟩
    have hnl : (10 : UInt8) ∉ r.version ++ [13] := by
      rw [List.mem_append]
      exact not_or.2 ⟨hv _ (by simp), by decide⟩
    rw [trim_eq_self hsp, List.append_cons, trim_concat, trim_eq_self hnl, trim_concat, trim_eq_self (hv _ (by simp))]
  unfold requestLine
  rw [hcstr, h1]
  simp only [h2, h3, h4, trim_eq_self (hm _ (.inl rfl)), trim_eq_self (ht _ (.inl rfl))]

/-- A connection that is readable. -/
def Sys.Readable (sys : Sys) : Prop := ∃ pollout pollrdhup pollnval, sys.poll = .ready true pollout false false pollrdhup pollnval

/-- The request line is read, and the header comes next. -/
theorem accept_request_text (h : r.Readable) (hsys : sys.Readable) (hssl : rq.client.ssl = false)
    (hin : rq.client.Has (r.line ++ 10 :: more)) : ∃ c' task rq', accept_request sys rq = .ok (task, rq') ∧
      task.handle = some .decode_request_header ∧ task.callback = [] ∧
      ({ rq.client with state := .PROTO_CHECK } : Client).Receives c' ∧ c'.Has more ∧
      rq' = { rq with
        client := c'
        METHOD := some r.method
        PROTOCOL := some r.version
        REQUEST_QUERY := some r.target
        REQUEST_PATH := some (url_decode ((strsep (some r.target) 63).1.getD [])) } := by
  obtain ⟨pollout, pollrdhup, pollnval, hpoll⟩ := hsys
  have h10 : 10 ∉ r.line := by
    simp only [RequestText.line, List.mem_append, List.mem_cons, List.not_mem_nil, or_false, not_or]
    exact ⟨h.method.not_mem _ (by simp), by decide, h.target.not_mem _ (by simp), by decide, h.version.not_mem _ (by simp),
      by decide⟩
  obtain ⟨c', hr, hrec, hmore⟩ := Client.Has.line (c := (rq.set_state .PROTO_CHECK).client) hin h10 h.line
  have hline := requestLine_text h { rq.set_state .PROTO_CHECK with client := c' }
    ((antd_create_task none none rq.client.last_io).bindIo rq.client.sock true true)
  refine ⟨c', { (antd_create_task none none rq.client.last_io).bindIo rq.client.sock true true with
    handle := some .decode_request_header }, _, ?_, rfl, rfl, hrec, hmore, rfl⟩
  unfold accept_request acceptReady
  simp only [hpoll, hssl, hr, hline]
  rfl

/-! ## The header -/

/-- The fields are put into the dictionary, and the loop ends behind the empty line. -/
theorem headerLoop_block {fs : List HeaderField} (hf : ∀ f ∈ fs, f.line.length < BUF_SIZE ∧ 0 ∉ f.line) {c : Client}
    {s : HeaderScan} {d : Dictionary Bytes} (hx : s.xheader = some d)
    (hsize : s.header_size + (headerBlock fs).length ≤ HEADER_MAX_SIZE) (h : c.Has (headerBlock fs ++ more)) :
    ∃ c' s', headerLoop c s = .ok (.complete, c', s') ∧ c.Receives c' ∧ c'.Has more ∧
      s'.xheader = some (putAll d (fs.filterMap HeaderField.entry)) := by
  induction fs generalizing c s d with
  | nil =>
    have hin : c.Has ([13] ++ 10 :: more) := h
    have hfit : [(13 : UInt8)].length + 1 < BUF_SIZE := by decide
    obtain ⟨c', hr, hrec, hmore⟩ := hin.line (by decide) hfit
    refine ⟨c', s, ?_, hrec, hmore, hx⟩
    rw [headerLoop_eq hr (by simp), if_pos (by decide)]
  | cons f fs ih =>
    obtain ⟨⟨hlen, h0⟩, hfs⟩ := List.forall_mem_cons.1 hf
    have hline : f.line = (f.text ++ [13]) ++ [10] := by simp [HeaderField.line]
    have hin : c.Has ((f.text ++ [13]) ++ 10 :: (headerBlock fs ++ more)) := by
      rw [headerBlock_cons, hline] at h
      simpa using h
    have h10 : 10 ∉ f.text ++ [13] := by
      rw [List.mem_append]
      exact not_or.2 ⟨HeaderField.not_mem_text (.inr rfl), by decide⟩
    have hfit : (f.text ++ [13]).length + 1 < BUF_SIZE := by
      rw [hline, List.length_append, List.length_singleton] at hlen
      exact hlen
    obtain ⟨c₁, hr, hrec, hmore⟩ := hin.line h10 hfit
    rw [← hline] at hr
    have htext : 0 ∉ f.text := fun hm => h0 (List.mem_append_left _ hm)
    have htail : ([13, 10] : Bytes) ∈ [[], [13], [13, 10]] := by simp
    obtain ⟨hentry, hsound⟩ := HeaderField.entryOf_text htext htail
    change entryOf f.line = f.entry at hentry
    obtain ⟨s₁, hs₁⟩ := headerLine_sound hx hsound
    have hx₁ := headerLine_xheader hx hs₁
    have hsize₁ := headerLine_size hs₁
    change s₁.xheader = some (putAll d (entryOf f.line).toList) at hx₁
    change s₁.header_size = s.header_size + f.line.length at hsize₁
    rw [headerBlock_cons, List.length_append] at hsize
    obtain ⟨c', s', hloop, hrec', hmore', hx'⟩ := ih hfs hx₁ (by omega) hmore
    refine ⟨c', s', ?_, hrec.trans hrec', hmore', ?_⟩
    · have hnil : f.line ≠ [] := by
        rw [hline]
        simp
      have hne : cstr f.line ≠ [13, 10] := HeaderField.cstr_text_ne f [13, 10]
      change headerLine s f.line = .ok s₁ at hs₁
      rw [headerLoop_eq hr hnil, if_neg hne, hs₁, Res.ok_bind, if_neg (by omega), hloop]
    · rw [hx', hentry]
      cases hval : f.entry with
      | none => rw [List.filterMap_cons_none hval]; rfl
      | some e => rw [List.filterMap_cons_some hval]; rfl

end

/-! ## Where the request goes -/

theorem compiles_absolute : Ere.regcomp PROXY_PATTERN = some (.cat (.assert .bol)
    (.cat (.group 1 (.cat (Ere.lit 104) (Ere.lits (str "ttp") (.cat (.alt (Ere.lit 115) .eps) .eps))))
      (Ere.lits (str "://") (.cat (.group 2 (.cat (.cat (.set ⟨true, [(58, 58)]⟩) (.star (.set ⟨true, [(58, 58)]⟩))) .eps))
        (.cat (Ere.lit 58) (.cat (.group 3 (.cat (.cat (.set ⟨false, [(48, 57)]⟩) (.star (.set ⟨false, [(48, 57)]⟩))) .eps))
          (.cat (.group 4 (.cat (.star (.set ⟨true, [(0, 0)]⟩)) .eps)) (.cat (.assert .eol) .eps)))))))) := by
  decide +kernel

/-- A path is not an absolute URL. -/
theorem path_not_absolute {regexec : Regexec} (hx : Ere.Posix regexec) {path : Bytes} (h : path.head? = some 47) :
    regex_match regexec PROXY_PATTERN path = .ok none := by
  rw [regex_match, compiles_absolute]
  refine congrArg Except.ok (Option.eq_none_iff_forall_not_mem.2 fun m hm => ?_)
  obtain ⟨i, j, d, -, hr, -⟩ := hx.sound _ _ _ rfl hm
  obtain ⟨i₁, d₁, hbol, hr⟩ := Ere.matches_cat.1 hr
  cases hbol with
  | assert hi =>
    obtain rfl : i = 0 := by simpa [Ere.Assertion.holds] using hi
    obtain ⟨i₂, d₂, hg, -⟩ := Ere.matches_cat.1 hr
    obtain ⟨d₃, hs, -⟩ := Ere.matches_group.1 hg
    obtain ⟨i₃, d₄, hlit, -⟩ := Ere.matches_cat.1 hs
    cases hlit with
    | set hb hmem =>
      rw [← List.head?_eq_getElem?, h] at hb
      cases hb
      exact absurd hmem (by decide)

theorem check_proxy_path {regexec : Regexec} (hx : Ere.Posix regexec) (rq : Request) {path : Bytes}
    (h : path.head? = some 47) (query : Bytes) : check_proxy regexec rq path query = .ok (none, rq) := by
  unfold check_proxy
  rw [path_not_absolute hx h]
  rfl

theorem queryPair_some (dic : Dictionary Bytes) (token : Bytes) : ∃ dic', queryPair (some dic) token = .ok (some dic') := by
  unfold queryPair
  split <;> exact ⟨_, rfl⟩

theorem decode_url_request_some (query : Bytes) (dic : Dictionary Bytes) :
    ∃ dic', decode_url_request query (some dic) = .ok (some dic') := by
  unfold decode_url_request
  split
  · exact ⟨dic, rfl⟩
  · generalize split 38 query = tokens
    induction tokens generalizing dic with
    | nil => exact ⟨dic, rfl⟩
    | cons token tokens ih =>
      obtain ⟨dic₁, h₁⟩ := queryPair_some dic token
      obtain ⟨dic', h'⟩ := ih dic₁
      refine ⟨dic', ?_⟩
      rw [List.foldlM_cons, h₁]
      exact h'

/-- A request for a path, on a port without rules. -/
structure Direct (cnf : Config) (rq : Request) (pcnf : PortConfig) (target : Bytes) : Prop where
  port : cnf.port rq.SERVER_PORT = .ok (some pcnf)
  rules : pcnf.rules.assocs = []
  query : rq.REQUEST_QUERY = some target
  path : target.head? = some 47
  header : rq.REQUEST_HEADER = some .dict
  data : rq.REQUEST_DATA = some .dict

/-- What the header of a direct request leaves. -/
structure Directed (rq : Request) (target : Bytes) (fs : List HeaderField) (more : Bytes) (rq' : Request) : Prop where
  client : ({ rq.client with state := .HEADER_DECODE, z_level := .CNONE } : Client).Receives rq'.client
  has : rq'.client.Has more
  header : rq'.REQUEST_HEADER = some (putAll .dict (fs.filterMap HeaderField.entry))
  uri : rq'.REQUEST_URI = some (url_decode (splitQuery (target.take (BUF_SIZE - 1))).1)
  method : rq'.METHOD = rq.METHOD
  root : rq'.SERVER_WWW_ROOT = rq.SERVER_WWW_ROOT
  port : rq'.SERVER_PORT = rq.SERVER_PORT
  data : decode_url_request (splitQuery (target.take (BUF_SIZE - 1))).2 (some .dict) = .ok rq'.REQUEST_DATA
  record : rq'.web_socket = rq.web_socket ∧ rq'.loads = rq.loads ∧ rq'.closed = rq.closed

theorem splitQuery_head {url : Bytes} (h : url.head? = some 47) : (splitQuery url).1.head? = some 47 := by
  cases url with
  | nil => cases h
  | cons c url =>
    cases h
    rfl

/-- The header of a direct request is read, and the request is decoded next. -/
theorem decode_request_header_direct {sys : Sys} {cnf : Config} {rq : Request} {pcnf : PortConfig} {target more : Bytes}
    {fs : List HeaderField} (hx : Ere.Posix sys.regexec) (hd : Direct cnf rq pcnf target)
    (hf : ∀ f ∈ fs, f.line.length < BUF_SIZE ∧ 0 ∉ f.line) (hsize : (headerBlock fs).length ≤ HEADER_MAX_SIZE)
    (hlength : ∀ v ∈ lastValue (fs.filterMap HeaderField.entry) (str "Content-Length"), atoi v ≤ cnf.max_upload_size)
    (haccept : lastValue (fs.filterMap HeaderField.entry) (str "Accept-Encoding") = none)
    (hin : rq.client.Has (headerBlock fs ++ more)) : ∃ task rq', decode_request_header sys cnf rq = .ok (task, rq') ∧
      task.handle = some .decode_request ∧ task.callback = [] ∧ Directed rq target fs more rq' := by
  obtain ⟨c, s, hloop, hrec, hmore, hs⟩ := headerLoop_block (c := (rq.set_state .HEADER_DECODE).client)
    (s := ⟨rq.REQUEST_HEADER, none, none, 0⟩) hf hd.header (by rw [Nat.zero_add]; exact hsize) hin
  have hvalue := (holdsEntries_putAll (fs.filterMap HeaderField.entry)).value
  have hrules : apply_rules sys.regexec pcnf.rules s.host (target.take (BUF_SIZE - 1)) =
      .ok (.start (target.take (BUF_SIZE - 1))) := by
    rw [apply_rules, hd.rules]
    rfl
  have hhead : (splitQuery (target.take (BUF_SIZE - 1))).1.head? = some 47 := by
    apply splitQuery_head
    rw [List.head?_take, if_neg (by decide), hd.path]
  obtain ⟨d', hquery⟩ := decode_url_request_some (splitQuery (target.take (BUF_SIZE - 1))).2 .dict
  have hsmall : ¬ ((lastValue (fs.filterMap HeaderField.entry) (str "Content-Length")).any fun line =>
      decide (atoi line > cnf.max_upload_size)) = true := by
    rw [Option.any_eq_true]
    rintro ⟨v, hv, hgt⟩
    exact absurd (hlength v hv) (Int.not_le.2 (of_decide_eq_true hgt))
  have hdone : decode_request_header sys cnf rq =
      headerComplete sys cnf { rq.set_state .HEADER_DECODE with client := c, REQUEST_HEADER := s.xheader } (some pcnf)
        rq.REQUEST_QUERY s := by
    unfold decode_request_header
    simp only [Request.set_state] at hloop ⊢
    rw [hd.port, Res.ok_bind, hloop]
    rfl
  have hcomplete : headerComplete sys cnf { rq.set_state .HEADER_DECODE with client := c, REQUEST_HEADER := s.xheader }
      (some pcnf) rq.REQUEST_QUERY s = rewriteRequest sys { rq with client := { c with z_level := .CNONE }, REQUEST_HEADER := s.xheader }
        (some pcnf) rq.REQUEST_QUERY s := by
    unfold headerComplete
    rw [hs, deref_some, Res.ok_bind, hvalue, if_neg hsmall, hvalue, haccept]
    rfl
  rw [hdone, hcomplete]
  unfold rewriteRequest
  rw [deref_some, Res.ok_bind, hd.query, deref_some, Res.ok_bind, hrules, Res.ok_bind]
  simp only [Rewrite.start]
  rw [check_proxy_path hx _ hhead, Res.ok_bind]
  simp only [hd.data]
  rw [hquery, Res.ok_bind]
  refine ⟨_, _, rfl, rfl, rfl, ?_⟩
  obtain ⟨t, rest, rfl⟩ := hrec
  exact ⟨⟨t, rest, rfl⟩, hmore, hs, rfl, rfl, rfl, rfl, hquery, rfl, rfl, rfl⟩

/-! ## From the connection to the decoded header -/

/-- A request for a path, with a body that is not too large and without an encoding. -/
structure RequestText.Plain (cnf : Config) (r : RequestText) : Prop where
  readable : r.Readable
  path : r.target.head? = some 47
  length : ∀ v ∈ lastValue (r.fields.filterMap HeaderField.entry) (str "Content-Length"), atoi v ≤ cnf.max_upload_size
  accept : lastValue (r.fields.filterMap HeaderField.entry) (str "Accept-Encoding") = none

/-- What has been read of the request. -/
structure RequestText.Decoded (r : RequestText) (pcnf : PortConfig) (start : Client) (more : Bytes) (rq : Request) : Prop where
  client : ({ start with state := .HEADER_DECODE } : Client).Receives rq.client
  has : rq.client.Has more
  header : rq.REQUEST_HEADER = some (putAll .dict (r.fields.filterMap HeaderField.entry))
  uri : rq.REQUEST_URI = some (url_decode (splitQuery (r.target.take (BUF_SIZE - 1))).1)
  method : rq.METHOD = some r.method
  root : rq.SERVER_WWW_ROOT = some pcnf.htdocs
  port : rq.SERVER_PORT = some (decimal pcnf.port)
  data : decode_url_request (splitQuery (r.target.take (BUF_SIZE - 1))).2 (some .dict) = .ok rq.REQUEST_DATA
  record : rq.web_socket = none ∧ rq.loads = [] ∧ rq.closed = []

/-- A task that a handler returns runs next, and the callbacks of the last one follow its own. -/
theorem Conn.step_goes {sys : Sys} {cnf : Config} {c : Conn} {h g : Handler} {t : Task} {rq : Request}
    (hh : c.task.handle = some h) (hc : callHandler sys cnf c.rq h = .ok (some t, some rq)) (hg : t.handle = some g) :
    Conn.step cnf sys c = some ⟨{ t with callback := t.callback ++ c.task.callback }, rq⟩ := by
  unfold Conn.step execute
  rw [hh, deref_some, Res.ok_bind, hc, Res.ok_bind]
  simp only [antd_execute_task, hg, Option.isSome_some, if_true]
  rfl

/-- A task without a handler leaves the request to the next callback. -/
theorem Conn.step_callback {sys : Sys} {cnf : Config} {c : Conn} {h g : Handler} {gs : List Handler} {t : Task} {rq : Request}
    (hh : c.task.handle = some h) (hc : callHandler sys cnf c.rq h = .ok (some t, some rq)) (hnone : t.handle = none)
    (hcb : t.callback ++ c.task.callback = g :: gs) :
    Conn.step cnf sys c = some ⟨{ t with handle := some g, callback := gs }, rq⟩ := by
  unfold Conn.step execute
  rw [hh, deref_some, Res.ok_bind, hc, Res.ok_bind]
  simp only [antd_execute_task, hnone, Option.isSome_none, execute_callback, hcb]
  rfl

/-- The request line and the header take one step each, and what is behind them is still to come. -/
theorem request_decoded {cnf : Config} {pcnf : PortConfig} {sock now : Int} {input : List RecvEv} {output : List SendEv}
    {r : RequestText} {more : Bytes} {accepts decodes : Sys} (hport : cnf.ports.dvalue (decimal pcnf.port) = some pcnf)
    (hssl : pcnf.usessl = false) (hrules : pcnf.rules.assocs = []) (hr : r.Plain cnf) (ha : accepts.Readable)
    (hx : Ere.Posix decodes.regexec)
    (hin : (antd_monitor pcnf sock now input output).rq.client.Has (r.bytes ++ more)) : ∃ c,
      Runs.runAll (Conn.step cnf) [accepts, decodes] (antd_monitor pcnf sock now input output) = some c ∧
      c.task.handle = some .decode_request ∧ c.task.callback = [.finish_request] ∧
      r.Decoded pcnf (antd_monitor pcnf sock now input output).rq.client more c.rq := by
  have hline : (antd_monitor pcnf sock now input output).rq.client.Has (r.line ++ 10 :: (headerBlock r.fields ++ more)) := by
    rw [RequestText.bytes, List.append_assoc] at hin
    exact hin
  obtain ⟨c₁, t₁, rq₁, hacc, hh₁, hcb₁, hrec₁, hhas₁, hrq₁⟩ := accept_request_text hr.readable ha hssl hline
  have hcall₁ : callHandler accepts cnf (antd_monitor pcnf sock now input output).rq .accept_request =
      .ok (some t₁, some rq₁) := by rw [callHandler, hacc]; rfl
  have hstep₁ := Conn.step_goes (c := antd_monitor pcnf sock now input output) rfl hcall₁ hh₁
  rw [hcb₁, List.nil_append] at hstep₁
  have hdirect : Direct cnf rq₁ pcnf r.target := by
    subst hrq₁
    refine ⟨?_, hrules, rfl, hr.path, rfl, rfl⟩
    rw [Config.port, antd_monitor]
    simp only [deref_some]
    rw [Res.ok_bind, hport]
    rfl
  have hhas : rq₁.client.Has (headerBlock r.fields ++ more) := by
    subst hrq₁
    exact hhas₁
  obtain ⟨t₂, rq₂, hdec, hh₂, hcb₂, hleft⟩ := decode_request_header_direct hx hdirect hr.readable.fields hr.readable.header
    hr.length hr.accept hhas
  have hcall₂ : callHandler decodes cnf rq₁ .decode_request_header = .ok (some t₂, some rq₂) := by rw [callHandler, hdec]; rfl
  have hstep₂ := Conn.step_goes (c := ⟨{ t₁ with callback := [.finish_request] }, rq₁⟩) hh₁ hcall₂ hh₂
  rw [hcb₂, List.nil_append] at hstep₂
  refine ⟨⟨{ t₂ with callback := [.finish_request] }, rq₂⟩, ?_, hh₂, rfl, ?_⟩
  · rw [Runs.runAll, hstep₁, Option.bind_some, Runs.runAll]
    exact congrArg (Option.bind · some) hstep₂
  · obtain ⟨tm, rest, hc₂⟩ := hleft.client
    obtain ⟨tm', rest', rfl⟩ := hrec₁
    have hmethod := hleft.method
    have hroot := hleft.root
    have hport₂ := hleft.port
    have hdata := hleft.data
    obtain ⟨hws, hloads, hclosed⟩ := hleft.record
    subst hrq₁
    exact ⟨⟨tm, rest, hc₂⟩, hleft.has, hleft.header, hleft.uri, hmethod, hroot, hport₂, hdata, hws, hloads, hclosed⟩

end AntHttp
