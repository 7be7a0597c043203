import AntHttp.Bodies
import AntHttp.Queries
import AntHttp.Serving
/-!
# A form on its way to a plugin

The body of a form is read up to its announced length and its pairs are added
to those of the query. The plugin is called after that, with the bytes behind
the body still to come.
-/

set_option linter.style.nameCheck false

namespace AntHttp

open CString

/-! ## The body -/

section

variable {c : Client} {t t' : Int} {bs more : Bytes} {evs rest : List RecvEv}

theorem antd_recv_upto_receives (c : Client) (n : Nat) : c.Receives (antd_recv_upto c n).2.2 := by
  unfold antd_recv_upto
  split
  · exact ⟨_, _, rfl⟩
  all_goals exact ⟨c.last_io, _, rfl⟩

theorem postLoop_receives (c : Client) (len : Nat) (query : Bytes) : c.Receives (postLoop c len query).2 := by
  fun_induction postLoop c len query with
  | case1 c => exact .refl c
  | case2 c q h stat data c' hr | case3 c q h stat data c' hr =>
    have hrec := antd_recv_upto_receives c (min BUFFLEN (len - q.length))
    rwa [hr] at hrec
  | case4 c q h stat data c' hr hneg hlate ih =>
    have hrec := antd_recv_upto_receives c (min BUFFLEN (len - q.length))
    rw [hr] at hrec
    exact hrec.trans ih

/-- What arrives in time is what a receive waits for. -/
theorem Arrives.arrived (h : Arrives t bs evs t' rest) : AntHttp.arrived t evs = bs ++ AntHttp.arrived t' rest := by
  induction h with
  | nil => rfl
  | byte _ ih => rw [AntHttp.arrived, ih, List.cons_append]
  | again hnow _ ih =>
    have hwaits : ¬ _ > MAX_IO_WAIT_TIME := Int.not_lt.2 hnow
    rw [AntHttp.arrived, if_neg hwaits, ih]

theorem Client.Has.body (h : c.Has bs) : bs <+: AntHttp.body c := by
  obtain ⟨t', rest, harrives⟩ := h
  exact ⟨AntHttp.arrived t' rest, harrives.arrived.symm⟩

/-- What is behind the bytes that the loop takes is left. -/
theorem postLoop_leaves (c : Client) (len : Nat) (query : Bytes) (h : len - query.length ≤ (body c).length) :
    body (postLoop c len query).2 = (body c).drop (len - query.length) := by
  fun_induction postLoop c len query with
  | case1 c q hle => rw [Nat.sub_eq_zero_of_le hle, List.drop_zero]
  | case2 c q hle stat data c' hr hneg =>
    have hlt : (antd_recv_upto c (min BUFFLEN (len - q.length))).1 < 0 := by rw [hr]; exact hneg
    have hpos : 0 < min BUFFLEN (len - q.length) := Nat.lt_min.2 ⟨by decide, by omega⟩
    rw [body_failed hpos hlt, List.length_nil] at h
    omega
  | case3 c q hle stat data c' hr hneg hlate =>
    have hw := body_waits (c := c) (n := min BUFFLEN (len - q.length)) (by rw [hr]; exact hlate.1)
    rw [hr] at hw
    rw [hw.2, if_pos hlate.2, List.length_nil] at h
    omega
  | case4 c q hle stat data c' hr hneg hlate ih =>
    rcases Int.lt_or_eq_of_le (Int.not_lt.1 hneg) with hpos | hzero
    · have ht := body_takes (c := c) (n := min BUFFLEN (len - q.length)) (by rw [hr]; exact hpos)
      have hlen := antd_recv_upto_length c (min BUFFLEN (len - q.length))
      rw [hr] at ht hlen
      dsimp only at ht hlen
      have hdata : data.length ≤ len - q.length := hlen.trans (Nat.min_le_right ..)
      rw [ht, List.length_append] at h
      rw [ih (by rw [List.length_append]; omega), ht, List.length_append, List.drop_append,
        List.drop_of_length_le hdata, List.nil_append, Nat.sub_sub]
    · have hw := body_waits (c := c) (n := min BUFFLEN (len - q.length)) (by rw [hr]; exact hzero.symm)
      rw [hr] at hw
      dsimp only at hw
      have hsame : body c = body c' := by rw [hw.2, if_neg fun hl => hlate ⟨hzero.symm, hl⟩]
      rw [hw.1, List.append_nil] at ih ⊢
      rw [ih (hsame ▸ h), hsame]

/-- A body that has arrived is read up to its length, and no further. -/
theorem Client.Has.post_data (h : c.Has (bs ++ more)) (hne : bs ≠ []) : ∃ c', post_data_decode c bs.length = (some bs, c') ∧
    c.Receives c' ∧ more <+: AntHttp.body c' := by
  obtain ⟨later, hlater⟩ := h.body
  have hlen : bs.length ≤ (AntHttp.body c).length := by
    rw [← hlater]
    simp only [List.length_append]
    omega
  have hdata := postLoop_arrived c bs.length []
  have hleaves := postLoop_leaves c bs.length [] (by rwa [List.length_nil, Nat.sub_zero])
  rw [List.nil_append, List.length_nil, Nat.sub_zero, ← hlater, List.append_assoc, List.take_left] at hdata
  rw [List.length_nil, Nat.sub_zero, ← hlater, List.append_assoc, List.drop_left] at hleaves
  refine ⟨(postLoop c bs.length []).2, ?_, postLoop_receives .., later, hleaves.symm⟩
  unfold post_data_decode
  rw [Int.toNat_natCast]
  dsimp only
  rw [hdata, if_neg hne]

end

/-! ## The handlers -/

section

variable {sys : Sys} {cnf : Config} {pcnf : PortConfig} {rq : Request} {pname ctype more : Bytes} {ctx : Plugin}
  {header query : Dictionary Bytes} {pairs : List (Bytes × Bytes)}

/-- An enabled plugin that is there is called after the body has been decoded. -/
theorem execute_plugin_posts (hp : cnf.port rq.SERVER_PORT = .ok (some pcnf)) (he : pluginEnabled sys pcnf pname = .ok true)
    (hl : sys.antd_plugin_load pname = some ctx) (hraw : ctx.raw_body = false) : execute_plugin sys cnf rq pname =
      .ok (antd_create_task (some .decode_post_request) (some (.plugin ctx.name 0)) rq.client.last_io,
        { rq.set_state .PLUGIN_EXEC with loads := rq.loads ++ [pname], context := some ctx }) := by
  unfold execute_plugin
  rw [hp, Res.ok_bind, deref_some, Res.ok_bind, he, Res.ok_bind, if_pos rfl, hl]
  dsimp only
  rw [hraw, if_neg Bool.false_ne_true]
  rfl

theorem urlQuery_string : 0 ∉ urlQuery pairs := by
  have hpair : ∀ t ∈ pairs.map encodedPair, (0 : UInt8) ∉ t := by
    intro t ht h0
    obtain ⟨p, -, rfl⟩ := List.mem_map.1 ht
    have hcode : ∀ s, (0 : UInt8) ∉ url_encode s := by
      intro s hs
      have hno : ¬ (unreserved 0 = true ∨ (0 : UInt8) = 43 ∨ (0 : UInt8) = 37) := by decide +kernel
      exact hno (mem_url_encode hs)
    rcases List.mem_append.1 h0 with h0 | h0
    · exact hcode _ h0
    · rcases List.mem_cons.1 h0 with h0 | h0
      · cases h0
      · exact hcode _ h0
  unfold urlQuery
  generalize pairs.map encodedPair = l at hpair
  induction l with
  | nil => exact List.not_mem_nil
  | cons t l ih =>
    obtain ⟨ht, hl⟩ := List.forall_mem_cons.1 hpair
    cases l with
    | nil => simpa using ht
    | cons u l =>
      have hrest := ih hl
      rw [List.intercalate_cons_cons, List.mem_append, List.mem_append]
      exact not_or.2 ⟨not_or.2 ⟨ht, by decide⟩, hrest⟩

/-- A form whose body has arrived. -/
structure FormArrives (rq : Request) (header : Dictionary Bytes) (pairs : List (Bytes × Bytes)) (more : Bytes) : Prop where
  method : rq.METHOD.any (· ∈ [str "POST", str "PUT", str "PATCH"]) = true
  headers : rq.REQUEST_HEADER = some header
  ctype : ∃ ctype, header.dvalue (str "Content-Type") = some ctype ∧ strstr ctype FORM_URL_ENCODE = true
  clen : header.dvalue (str "Content-Length") = some (decimal (urlQuery pairs).length)
  short : (urlQuery pairs).length < 2 ^ 31
  ne_nil : pairs ≠ []
  texts : ∀ p ∈ pairs, p.1 ≠ [] ∧ 0 ∉ p.1 ∧ 0 ∉ p.2
  has : rq.client.Has (urlQuery pairs ++ more)

theorem urlQuery_ne_nil (h : pairs ≠ []) : urlQuery pairs ≠ [] := by
  obtain ⟨p, ps, rfl⟩ := List.exists_cons_of_ne_nil h
  intro he
  cases ps with
  | nil => simp [urlQuery, encodedPair] at he
  | cons q ps => simp [urlQuery, encodedPair, List.intercalate_cons_cons] at he

/-- The pairs of the body are added to those of the query. -/
theorem decode_post_request_pairs (h : FormArrives rq header pairs more) (hd : rq.REQUEST_DATA = some query) : ∃ t rq',
    decode_post_request rq = .ok (t, rq') ∧ t.handle = none ∧ t.callback = [] ∧
      rq'.REQUEST_DATA = some (pairs.foldl storePair query) ∧ Unsent rq.client rq'.client ∧ rq'.loads = rq.loads ∧
      more <+: AntHttp.body rq'.client := by
  obtain ⟨ctype, hctype, hform⟩ := h.ctype
  have hhas : (rq.set_state .RQ_DATA_DECODE).client.Has (urlQuery pairs ++ more) := h.has
  obtain ⟨c', hpost, hrec, hmore⟩ := hhas.post_data (urlQuery_ne_nil h.ne_nil)
  have hheader : (rq.set_state .RQ_DATA_DECODE).REQUEST_HEADER = some header := h.headers
  have hmethod : (rq.set_state .RQ_DATA_DECODE).METHOD.any (· ∈ [str "POST", str "PUT", str "PATCH"]) = true := h.method
  have hdata : (rq.set_state .RQ_DATA_DECODE).REQUEST_DATA = some query := hd
  have hneg : ¬ ((urlQuery pairs).length : Int) = -1 := by omega
  have hdecode : decode_url_request (urlQuery pairs) (some query) = .ok (some (pairs.foldl storePair query)) :=
    decode_urlQuery (fun p hp => (h.texts p hp).1) (fun p hp => (h.texts p hp).2) query
  unfold decode_post_request
  dsimp only
  rw [hheader, deref_some, Res.ok_bind, if_neg (not_not_intro hmethod), hctype, h.clen, Option.elim_some, atoi_decimal h.short]
  dsimp only
  rw [if_neg hneg, if_pos hform, hpost]
  dsimp only
  rw [hdata, cstr_eq_self urlQuery_string, hdecode, Res.ok_bind]
  have hunsent : Unsent rq.client (rq.set_state .RQ_DATA_DECODE).client := ⟨rfl, rfl, rfl⟩
  exact ⟨_, _, rfl, rfl, rfl, rfl, hunsent.trans hrec.unsent, rfl, hmore⟩

end

/-! ## The run -/

/-- A decoded request is handed to the plugin that its path leads to, by way of its body. -/
theorem plugin_reached {cnf : Config} {pcnf : PortConfig} {start : Client} {r : RequestText} {pname path more : Bytes} {ctx : Plugin}
    {resolves : Sys} {c : Conn} (asks : Sys) (hport : cnf.ports.dvalue (decimal pcnf.port) = some pcnf) (hr : r.Readable)
    (hmem : r.method ∈ [str "GET", str "HEAD", str "OPTIONS", str "DELETE", str "POST", str "PUT", str "PATCH"])
    (hkey : lastValue (r.fields.filterMap HeaderField.entry) (str "Sec-WebSocket-Key") = none)
    (hres : resolved resolves cnf pcnf.htdocs r.url = .ok (.plugin pname path))
    (he : pluginEnabled resolves pcnf pname = .ok true) (hl : resolves.antd_plugin_load pname = some ctx)
    (hraw : ctx.raw_body = false) (hh : c.task.handle = some .decode_request) (hcb : c.task.callback = [.finish_request])
    (hdec : r.Decoded pcnf start more c.rq) : ∃ conn, Runs.runAll (Conn.step cnf) [asks, resolves] c = some conn ∧
      conn.task.handle = some .decode_post_request ∧ conn.task.callback = [.plugin ctx.name 0, .finish_request] ∧
      Passed { c.rq with loads := [pname] } conn.rq := by
  have hvalue := (holdsEntries_putAll (r.fields.filterMap HeaderField.entry)).value
  have huri : c.rq.REQUEST_URI = some r.url := by
    rw [hdec.uri, hr.take_target]
    rfl
  have hasks : callHandler asks cnf c.rq .decode_request =
      .ok (some { antd_create_task none none c.rq.client.last_io with handle := some .resolve_request }, some c.rq) := by
    rw [callHandler, decode_request_goes hdec.header ((hvalue _).trans hkey) hdec.method hmem]
    rfl
  have hstep := Conn.step_goes hh hasks rfl
  obtain ⟨rq₁, hout, hpassed⟩ := resolve_request_leads huri hdec.root hres
  have hp : cnf.port rq₁.SERVER_PORT = .ok (some pcnf) := by
    rw [hpassed.port, hdec.port]
    exact Config.port_eq hport
  have hresolves : callHandler resolves cnf c.rq .resolve_request =
      .ok (some (antd_create_task (some .decode_post_request) (some (.plugin ctx.name 0)) rq₁.client.last_io),
        some { rq₁.set_state .PLUGIN_EXEC with loads := rq₁.loads ++ [pname], context := some ctx }) := by
    rw [callHandler, hout, execute_plugin_posts hp he hl hraw]
    rfl
  have hlast := Conn.step_goes (c := ⟨{ antd_create_task none none c.rq.client.last_io with
    handle := some .resolve_request, callback := [] ++ c.task.callback }, c.rq⟩) rfl hresolves rfl
  have hloads : rq₁.loads = [] := hpassed.loads.trans hdec.record.2.1
  have hone : rq₁.loads ++ [pname] = [pname] := by rw [hloads, List.nil_append]
  have hrun : Runs.runAll (Conn.step cnf) [asks, resolves] c = Conn.step cnf resolves ⟨{ antd_create_task none none c.rq.client.last_io with
      handle := some .resolve_request, callback := [] ++ c.task.callback }, c.rq⟩ := by
    rw [Runs.runAll, hstep]
    exact Option.bind_fun_some _
  refine ⟨_, hrun.trans hlast, rfl, congrArg (Handler.plugin ctx.name 0 :: ·) hcb, ?_⟩
  obtain ⟨hwire, houtput, hanswers⟩ := hpassed.unsent
  exact ⟨hpassed.port, hpassed.method, hpassed.header, hpassed.data, hone, ⟨hwire, houtput, hanswers⟩, hpassed.has⟩

/-- A form of these pairs on a plain port, for a plugin that is enabled, is there and does not ask for the body as it is. The
plugin is called with the pairs, and what the client sends next is still to come. -/
theorem form_posted {cnf : Config} {pcnf : PortConfig} {sock now : Int} {input : List RecvEv} {output : List SendEv}
    {r : RequestText} {pairs : List (Bytes × Bytes)} {ctype pname path more : Bytes} {ctx : Plugin}
    {accepts decodes asks resolves posts : Sys}
    (hport : cnf.ports.dvalue (decimal pcnf.port) = some pcnf) (hssl : pcnf.usessl = false) (hrules : pcnf.rules.assocs = [])
    (hr : r.Plain cnf) (hmethod : r.method ∈ [str "POST", str "PUT", str "PATCH"])
    (htype : lastValue (r.fields.filterMap HeaderField.entry) (str "Content-Type") = some ctype)
    (hform : strstr ctype FORM_URL_ENCODE = true)
    (hclen : lastValue (r.fields.filterMap HeaderField.entry) (str "Content-Length") = some (decimal (urlQuery pairs).length))
    (hkey : lastValue (r.fields.filterMap HeaderField.entry) (str "Sec-WebSocket-Key") = none)
    (hshort : (urlQuery pairs).length < 2 ^ 31) (hne : pairs ≠ []) (htexts : ∀ p ∈ pairs, p.1 ≠ [] ∧ 0 ∉ p.1 ∧ 0 ∉ p.2)
    (ha : accepts.Readable) (hx : Ere.Posix decodes.regexec)
    (hres : resolved resolves cnf pcnf.htdocs r.url = .ok (.plugin pname path))
    (he : pluginEnabled resolves pcnf pname = .ok true) (hl : resolves.antd_plugin_load pname = some ctx)
    (hraw : ctx.raw_body = false)
    (hin : (antd_monitor pcnf sock now input output).rq.client.Has (r.bytes ++ (urlQuery pairs ++ more))) : ∃ conn query,
      Runs.runAll (Conn.step cnf) [accepts, decodes, asks, resolves, posts] (antd_monitor pcnf sock now input output) = some conn ∧
      conn.task.handle = some (.plugin ctx.name 0) ∧ conn.task.callback = [.finish_request] ∧ conn.rq.loads = [pname] ∧
      decode_url_request (splitQuery r.target).2 (some .dict) = .ok (some query) ∧
      conn.rq.REQUEST_DATA = some (pairs.foldl storePair query) ∧
      ((pairs.map Prod.fst).Nodup → ∀ p ∈ pairs, (pairs.foldl storePair query).dvalue (url_encode p.1) = some p.2) ∧
      conn.rq.client.wire = [] ∧ more <+: body conn.rq.client := by
  obtain ⟨c, hrun, hhandle, hcb, hdec⟩ := request_decoded hport hssl hrules hr ha hx hin
  have hvalue := (holdsEntries_putAll (r.fields.filterMap HeaderField.entry)).value
  obtain ⟨query, hquery⟩ := decode_url_request_some (splitQuery r.target).2 .dict
  have hdata : c.rq.REQUEST_DATA = some query := by
    have hd := hdec.data
    rw [hr.readable.take_target, hquery] at hd
    exact (Except.ok.inj hd).symm
  have hmem : r.method ∈ [str "GET", str "HEAD", str "OPTIONS", str "DELETE", str "POST", str "PUT", str "PATCH"] :=
    List.mem_append_right [str "GET", str "HEAD", str "OPTIONS", str "DELETE"] hmethod
  obtain ⟨conn, hreached, hpost, hcbs, hpassed⟩ := plugin_reached asks hport hr.readable hmem hkey hres he hl hraw hhandle hcb hdec
  have harrives : FormArrives conn.rq (putAll .dict (r.fields.filterMap HeaderField.entry)) pairs more := by
    refine ⟨?_, hpassed.header.trans hdec.header, ⟨ctype, (hvalue _).trans htype, hform⟩, (hvalue _).trans hclen, hshort, hne,
      htexts, hpassed.has _ hdec.has⟩
    rw [hpassed.method, hdec.method]
    exact decide_eq_true hmethod
  obtain ⟨t, rq', hdecode, hnone, hnil, hpairs, hunsent, hloads, hmore⟩ :=
    decode_post_request_pairs harrives (hpassed.data.trans hdata)
  have hposts : callHandler posts cnf conn.rq .decode_post_request = .ok (some t, some rq') := by
    rw [callHandler, hdecode]
    rfl
  have hstep := Conn.step_callback hpost hposts hnone (by rw [hnil, hcbs]; rfl)
  have hall : Runs.runAll (Conn.step cnf) ([accepts, decodes] ++ ([asks, resolves] ++ [posts]))
      (antd_monitor pcnf sock now input output) = Conn.step cnf posts conn := by
    rw [Runs.runAll_append, hrun, Option.bind_some, Runs.runAll_append, hreached, Option.bind_some, Runs.runAll]
    exact Option.bind_fun_some _
  refine ⟨_, query, hall.trans hstep, rfl, rfl, hloads.trans hpassed.loads, hquery, hpairs, ?_, ?_, ?_⟩
  · exact fun hnodup => dvalue_foldl_storePair hnodup (fun p hp => (htexts p hp).2) query
  · rw [hunsent.wire]
    exact hpassed.unsent.wire.trans hdec.client.unsent.wire
  · exact hmore

/-- The second value has to be encoded. -/
def echoPairs : List (Bytes × Bytes) := [(str "a", str "1"), (str "b", str "&")]

def echoRequest : RequestText where
  method := str "POST"
  target := str "/echo?n=1"
  version := str "HTTP/1.1"
  fields :=
    [⟨str "Content-Type", FORM_URL_ENCODE, by decide +kernel, by decide +kernel, by decide +kernel⟩,
      ⟨str "Content-Length", str "9", by decide +kernel, by decide +kernel, by decide +kernel⟩]

theorem echoRequest_length : lastValue (echoRequest.fields.filterMap HeaderField.entry) (str "Content-Length") = some (str "9") := by
  decide +kernel

theorem echoRequest_plain : echoRequest.Plain (sampleConfig (some (str "echo")) []) := by
  have hmethod : Token echoRequest.method := ⟨by decide +kernel, by decide +kernel⟩
  have htarget : Token echoRequest.target := ⟨by decide +kernel, by decide +kernel⟩
  have hversion : Token echoRequest.version := ⟨by decide +kernel, by decide +kernel⟩
  refine ⟨⟨hmethod, htarget, hversion, by decide +kernel, by decide +kernel, by decide +kernel⟩, by decide +kernel, ?_, by decide +kernel⟩
  intro v hv
  cases echoRequest_length.symm.trans hv
  decide +kernel

/-- The plugin is called with the form. -/
theorem form_posted_echo : ∃ conn query,
    Runs.runAll (Conn.step (sampleConfig (some (str "echo")) [])) [sampleSys [], sampleSys [], sampleSys [], sampleSys [], sampleSys []]
      (antd_monitor (samplePort (some (str "echo")) []) 4 0 (atOnce (echoRequest.bytes ++ (urlQuery echoPairs ++ str "GET"))) []) = some conn ∧
    conn.task.handle = some (.plugin (str "echo") 0) ∧ conn.task.callback = [.finish_request] ∧ conn.rq.loads = [str "echo"] ∧
    decode_url_request (splitQuery echoRequest.target).2 (some .dict) = .ok (some query) ∧
    conn.rq.REQUEST_DATA = some (echoPairs.foldl storePair query) ∧
    ((echoPairs.map Prod.fst).Nodup → ∀ p ∈ echoPairs, (echoPairs.foldl storePair query).dvalue (url_encode p.1) = some p.2) ∧
    conn.rq.client.wire = [] ∧ str "GET" <+: body conn.rq.client := by
  have hport : (sampleConfig (some (str "echo")) []).ports.dvalue (decimal (samplePort (some (str "echo")) []).port) =
      some (samplePort (some (str "echo")) []) := by
    have hkey : str "80" = decimal 80 := by decide
    simp [sampleConfig, samplePort, dictOf, hkey]
  have hlen : decimal (urlQuery echoPairs).length = str "9" := by decide +kernel
  have hhas : (antd_monitor (samplePort (some (str "echo")) []) 4 0 (atOnce (echoRequest.bytes ++ (urlQuery echoPairs ++ str "GET")))
      []).rq.client.Has (echoRequest.bytes ++ (urlQuery echoPairs ++ str "GET")) := by
    obtain ⟨t, hin⟩ := arrives_bytes 0 0 (echoRequest.bytes ++ (urlQuery echoPairs ++ str "GET")) []
    rw [List.append_nil] at hin
    exact ⟨t, [], hin⟩
  have he : pluginEnabled (sampleSys []) (samplePort (some (str "echo")) []) (str "echo") = .ok true :=
    Res.toOption_eq.1 (by decide +kernel)
  have hres : resolved (sampleSys []) (sampleConfig (some (str "echo")) []) (samplePort (some (str "echo")) []).htdocs echoRequest.url =
      .ok (.plugin (str "echo") (str "/www//")) := Res.toOption_eq.1 (by decide +kernel)
  have htype : lastValue (echoRequest.fields.filterMap HeaderField.entry) (str "Content-Type") = some FORM_URL_ENCODE := by
    decide +kernel
  exact form_posted hport rfl rfl echoRequest_plain (by decide +kernel) htype (by decide +kernel)
    (hlen ▸ echoRequest_length) (by decide +kernel) (by decide +kernel) (by decide) (by decide +kernel) ⟨true, false, false, rfl⟩
    Ere.regexec_posix hres he rfl rfl hhas

end AntHttp
