import AntHttp.Sample
import AntHttp.Steps
/-!
# NULL pointers

The handlers that decode what a client sends follow pointers from the
dictionaries of the request and from `strsep`. In every run all of them are set
but one: the rest of a header line without a colon, which `decode_cookie` and
the copy of the host use unguarded.
-/

namespace AntHttp

open CString

/-! ## The header loop -/

/-- A line without a colon that reads `Cookie` or `Host`. -/
def NamesNoValue (buf : Bytes) : Prop :=
  (headerParts buf).2 = none ∧
    (strcaseeq (headerParts buf).1 (str "Cookie") ∨ strcaseeq (headerParts buf).1 (str "Host"))

/-- The lines `decode_request_header` takes as header lines, when it has seen
`header_size` bytes: up to the empty line, the end of what can be read, or the
size limit. -/
def headerLines (client : Client) (header_size : Nat) : List Bytes :=
  match _h : read_buf client BUF_SIZE with
  | ([], _) => []
  | (c :: line, client') =>
    if cstr (c :: line) = [13, 10] then []
    else if header_size + (c :: line).length > HEADER_MAX_SIZE then [c :: line]
    else (c :: line) :: headerLines client' (header_size + (c :: line).length)
termination_by client.input.length
decreasing_by
  have hle := read_buf_le client BUF_SIZE
  simp only [_h, List.length_cons] at hle
  omega

theorem putHeader_avoids {e : Fault} {xheader : Option (Dictionary Bytes)} (token : Bytes) (line : Option Bytes)
    (hx : xheader.isSome) : Res.Avoids e (putHeader xheader token line) := by
  unfold putHeader
  split
  · exact (Res.Avoids.deref hx).bind fun _ _ => .ok _ _
  · exact .ok _ _

theorem decode_cookie_error {line : Option Bytes} {dic : Dictionary Bytes} {e : Fault} :
    decode_cookie line dic = .error e ↔ line = none ∧ e = .null := by
  unfold decode_cookie
  rw [Res.bind_error, deref_error]
  constructor
  · rintro (h | ⟨a, -, h⟩)
    · exact h
    · cases h
  · exact .inl

/-- A header line faults exactly if it names `Cookie` or `Host` and has no value. -/
theorem headerLine_error {s : HeaderScan} {buf : Bytes} {e : Fault} (hx : s.xheader.isSome) :
    headerLine s buf = .error e ↔ e = .null ∧ NamesNoValue buf := by
  unfold headerLine NamesNoValue
  rcases headerParts buf with ⟨token, line⟩
  simp only
  rw [Res.bind_error]
  constructor
  · rintro (h | ⟨x, -, h⟩)
    · exact absurd h (putHeader_avoids token line hx).ne
    · split at h
      · rename_i hc
        rcases Res.bind_error.1 h with h | ⟨d, -, h⟩
        · obtain ⟨hl, he⟩ := decode_cookie_error.1 h
          exact ⟨he, hl, .inl hc⟩
        · cases h
      · split at h
        · rename_i hc
          rcases Res.bind_error.1 h with h | ⟨d, -, h⟩
          · obtain ⟨hl, he⟩ := deref_error.1 h
            exact ⟨he, hl, .inr hc⟩
          · cases h
        · cases h
  · rintro ⟨rfl, rfl, hn⟩
    refine .inr ⟨s.xheader, rfl, ?_⟩
    split
    · exact Res.bind_error.2 (.inl (decode_cookie_error.2 ⟨rfl, rfl⟩))
    · rename_i hc
      rw [if_pos (hn.resolve_left hc)]
      rfl

/-- The loop faults exactly if one of the lines it takes does. -/
theorem headerLoop_error {client : Client} {s : HeaderScan} {e : Fault} (hx : s.xheader.isSome) :
    headerLoop client s = .error e ↔ e = .null ∧ ∃ line ∈ headerLines client s.header_size, NamesNoValue line := by
  fun_induction headerLoop client s with
  | case1 c s c₁ hr => unfold headerLines; split <;> simp_all
  | case2 c s b line c₁ hr hcr => unfold headerLines; split <;> simp_all
  | case3 c s b line c₁ hr hcr ih =>
    have hlines : headerLines c s.header_size =
        if s.header_size + (b :: line).length > HEADER_MAX_SIZE then [b :: line]
        else (b :: line) :: headerLines c₁ (s.header_size + (b :: line).length) := by
      conv_lhs => unfold headerLines
      split
      · simp_all
      · rename_i h; rw [hr] at h; cases h; rw [if_neg hcr]
    -- the loop faults on this line, or later
    rw [Res.bind_error, headerLine_error hx, hlines]
    constructor
    · rintro (⟨he, hn⟩ | ⟨s₁, hl, h⟩)
      · refine ⟨he, b :: line, ?_, hn⟩
        split <;> simp
      · have hsz := headerLine_size hl
        split at h
        · cases h
        · rename_i hle
          obtain ⟨he, l, hl', hn⟩ := (ih s₁ (headerLine_isSome hl hx)).1 h
          rw [hsz] at hle hl'
          exact ⟨he, l, by rw [if_neg hle]; exact List.mem_cons_of_mem _ hl', hn⟩
    · rintro ⟨rfl, l, hl', hn⟩
      cases hl : headerLine s (b :: line) with
      | error e => rw [headerLine_error hx] at hl; exact .inl ⟨rfl, hl.2⟩
      | ok s₁ =>
        have hsz := headerLine_size hl
        have hok : ¬ NamesNoValue (b :: line) := fun h => by
          rw [(headerLine_error (e := .null) hx).2 ⟨rfl, h⟩] at hl; cases hl
        split at hl'
        · rw [List.mem_singleton] at hl'; exact absurd (hl' ▸ hn) hok
        · rename_i hle
          rcases List.mem_cons.1 hl' with rfl | hl'
          · exact absurd hn hok
          · refine .inr ⟨s₁, rfl, ?_⟩
            rw [← hsz] at hle hl'
            rw [if_neg hle]
            exact (ih s₁ (headerLine_isSome hl hx)).2 ⟨rfl, l, hl', hn⟩

/-! ## The other handlers -/

variable {sys : Sys} {cnf : Config} {rq : Request}

theorem regexec_avoids_null {regexec : Regexec} {expr search : Bytes} :
    Res.Avoids .null (regex_match regexec expr search) := regex_match_avoids (by decide)

theorem copyOut_avoids_null (out src : Bytes) : Res.Avoids .null (copyOut out src) := by
  unfold copyOut
  split
  · exact .ok _ _
  · exact .error (by decide)

theorem replacement_avoids_null {regexec : Regexec} (url query target : Bytes) (m : Ere.Caps) (rep kept : Bytes) :
    Res.Avoids .null (replacement regexec url query target m rep kept) := by
  unfold replacement match_int
  split
  · exact .ok _ _
  · split
    · exact .ok _ _
    · refine (regexec_avoids_null.bind fun _ _ => .ok _ _).bind fun _ _ => ?_
      split
      · simp only
        split
        · exact .ok _ _
        · exact .error (by decide)
      · split <;> exact .ok _ _

theorem expand_avoids_null {regexec : Regexec} (url query target : Bytes) (m : Ere.Caps) (e : Expand) :
    Res.Avoids .null (expand regexec url query target m e) := by
  fun_induction expand regexec url query target m e with
  | case1 => exact .ok _ _
  | case2 e hne ih =>
    refine regexec_avoids_null.bind fun vm _ => ?_
    split
    · exact .ok _ _
    · refine (copyOut_avoids_null ..).bind fun _ _ => ?_
      refine Res.Avoids.bind ?_ fun _ _ => ?_
      · unfold copyRep
        split
        · exact .ok _ _
        · exact .error (by decide)
      · exact (replacement_avoids_null ..).bind fun _ _ => (copyOut_avoids_null ..).bind fun _ _ => ih ..

theorem rule_check_avoids_null {regexec : Regexec} (k v : Bytes) (host : Option Bytes) (url query : Bytes) :
    Res.Avoids .null (rule_check regexec k v host url query) := by
  unfold rule_check
  refine (matchTarget_avoids (by decide) ..).bind fun o _ => ?_
  split
  · exact .ok _ _
  · refine (expand_avoids_null ..).bind fun _ _ => ?_
    split
    · split
      · exact .ok _ _
      · exact .error (by decide)
    · exact .ok _ _

theorem apply_rules_avoids_null {regexec : Regexec} (rules : Dictionary Bytes) (host : Option Bytes) (url : Bytes) :
    Res.Avoids .null (apply_rules regexec rules host url) := by
  have loop : ∀ its s, Res.Avoids .null (apply_rules_loop regexec host its s) := by
    intro its
    induction its with
    | nil => intro s; exact .ok _ _
    | cons it its ih =>
      obtain ⟨k, _ | v⟩ := it
      · exact ih
      · intro s
        unfold apply_rules_loop applyRule
        refine Res.Avoids.bind ?_ fun o _ => ?_
        · refine regexec_avoids_null.bind fun _ _ => (rule_check_avoids_null ..).bind fun o _ => ?_
          split <;> exact .ok _ _
        · split
          · exact ih _
          · exact .ok _ _
  exact loop _ _

theorem decode_url_request_avoids {e : Fault} {query : Bytes} {dic : Option (Dictionary Bytes)} (hd : dic.isSome) :
    Res.Avoids e (decode_url_request query dic) := by
  have fold : ∀ (l : List Bytes) {d : Option (Dictionary Bytes)}, d.isSome → Res.Avoids e (l.foldlM queryPair d) := by
    intro l
    induction l with
    | nil => intro d _; exact .ok _ _
    | cons token l ih =>
      intro d hd
      rw [List.foldlM_cons]
      refine Res.Avoids.bind ?_ fun d' hd' => ih ?_
      · unfold queryPair
        split
        · exact (Res.Avoids.deref hd).bind fun _ _ => .ok _ _
        · exact .ok _ _
      · unfold queryPair at hd'
        split at hd'
        · obtain ⟨x, -, hx⟩ := Res.bind_ok.1 hd'
          cases hx; rfl
        · cases hd'; exact hd
  unfold decode_url_request
  split
  · exact .ok _ _
  · exact fold _ hd

theorem check_proxy_avoids_null {regexec : Regexec} (path query : Bytes) :
    Res.Avoids .null (check_proxy regexec rq path query) := by
  have hcopy : ∀ b, Res.Avoids .null (copyCapture b) := by
    intro b; unfold copyCapture
    split
    · exact .ok _ _
    · exact .error (by decide)
  unfold check_proxy
  refine regexec_avoids_null.bind fun _ _ => ?_
  split
  · exact .ok _ _
  · split
    · exact .ok _ _
    · exact (hcopy _).bind fun _ _ => (hcopy _).bind fun _ _ => .ok _ _

/-- What the decoding handlers rely on: the dictionaries and the port are there. -/
structure Ready (cnf : Config) (rq : Request) : Prop where
  header : rq.REQUEST_HEADER.isSome
  data : rq.REQUEST_DATA.isSome
  port : ∃ p, cnf.port rq.SERVER_PORT = .ok (some p)

theorem rewriteRequest_avoids_null {pcnf : Option PortConfig} {url : Option Bytes} {s : HeaderScan}
    (hd : rq.REQUEST_DATA.isSome) (hp : pcnf.isSome) (hu : url.isSome) :
    Res.Avoids .null (rewriteRequest sys rq pcnf url s) := by
  unfold rewriteRequest
  refine (Res.Avoids.deref hp).bind fun _ _ => (Res.Avoids.deref hu).bind fun _ _ =>
    (apply_rules_avoids_null ..).bind fun w _ => (check_proxy_avoids_null ..).bind fun o ho => ?_
  split
  · exact .ok _ _
  · rename_i rq₁
    have hd₁ : rq₁.REQUEST_DATA.isSome := by
      rcases check_proxy_ok ho with ⟨-, rfl⟩ | ⟨t, ht, -⟩
      · exact hd
      · cases ht
    exact (decode_url_request_avoids hd₁).bind fun _ _ => .ok _ _

theorem headerComplete_avoids_null {pcnf : Option PortConfig} {url : Option Bytes} {s : HeaderScan}
    (hx : s.xheader.isSome) (hd : rq.REQUEST_DATA.isSome) (hp : pcnf.isSome) (hu : url.isSome) :
    Res.Avoids .null (headerComplete sys cnf rq pcnf url s) := by
  unfold headerComplete
  refine (Res.Avoids.deref hx).bind fun _ _ => ?_
  split
  · exact .ok _ _
  · refine Res.Avoids.bind ?_ fun _ _ => rewriteRequest_avoids_null hd hp hu
    unfold acceptedEncoding
    split
    · exact .ok _ _
    · refine regexec_avoids_null.bind fun _ _ => ?_
      split
      · exact .ok _ _
      · refine regexec_avoids_null.bind fun _ _ => ?_
        split <;> exact .ok _ _

/-- Reading does not look at the state of the client. -/
theorem read_buf_state (c : Client) (st : ClientState) (size : Nat) :
    read_buf { c with state := st } size = ((read_buf c size).1, { (read_buf c size).2 with state := st }) := by
  have loop : ∀ n (c : Client), readLoop n { c with state := st } =
      ((readLoop n c).1, { (readLoop n c).2 with state := st }) := by
    intro n
    induction n with
    | zero => intro c; rfl
    | succ n ih =>
      intro c
      have hr : antd_recv { c with state := st } 1 =
          ((antd_recv c 1).1, (antd_recv c 1).2.1, { (antd_recv c 1).2.2 with state := st }) := rfl
      unfold readLoop
      rw [hr]
      rcases antd_recv c 1 with ⟨r, _ | ⟨b, data⟩, c'⟩
      · rfl
      · simp only [ih]
        split <;> rfl
  exact loop _ c

theorem headerLines_state (c : Client) (st : ClientState) (header_size : Nat) :
    headerLines { c with state := st } header_size = headerLines c header_size := by
  fun_induction headerLines c header_size with
  | case1 c n c' hr => unfold headerLines; rw [read_buf_state, hr]
  | case2 c n b line c' hr hcr => unfold headerLines; rw [read_buf_state, hr]; simp only [if_pos hcr]
  | case3 c n b line c' hr hcr hbig =>
    unfold headerLines; rw [read_buf_state, hr]; simp only [if_neg hcr, if_pos hbig]
  | case4 c n b line c' hr hcr hbig ih =>
    conv_lhs => unfold headerLines
    rw [read_buf_state, hr]
    simp only [if_neg hcr, if_neg hbig, ih]

theorem decode_request_header_null (hr : Ready cnf rq) (hq : rq.REQUEST_QUERY.isSome) :
    decode_request_header sys cnf rq = .error .null ↔ ∃ line ∈ headerLines rq.client 0, NamesNoValue line := by
  obtain ⟨p, hp⟩ := hr.port
  have hloop : headerLoop (rq.set_state .HEADER_DECODE).client ⟨rq.REQUEST_HEADER, none, none, 0⟩ = .error .null ↔ _ :=
    headerLoop_error hr.header
  rw [show headerLines (rq.set_state .HEADER_DECODE).client 0 = headerLines rq.client 0 from
    headerLines_state rq.client .HEADER_DECODE 0] at hloop
  unfold decode_request_header
  constructor
  · intro h
    rcases Res.bind_error.1 h with h | ⟨pcnf, hpc, h⟩
    · rw [show (rq.set_state .HEADER_DECODE).SERVER_PORT = rq.SERVER_PORT from rfl, hp] at h; cases h
    · rcases Res.bind_error.1 h with h | ⟨⟨e, c, s⟩, hl, h⟩
      · exact (hloop.1 h).2
      · -- what follows the loop finds everything it needs
        have hpc : .ok (some p) = Except.ok pcnf := hp.symm.trans hpc
        cases hpc
        have hx := (headerLoop_ok hl).2 hr.header
        cases e with
        | tooLarge => cases h
        | wait => cases h
        | complete =>
          refine absurd h (Res.Avoids.ne ?_)
          exact headerComplete_avoids_null hx hr.data rfl hq
  · intro h
    refine Res.bind_error.2 (.inr ⟨_, hp, ?_⟩)
    exact Res.bind_error.2 (.inl (hloop.2 ⟨rfl, h⟩))

theorem accept_request_avoids {e : Fault} : Res.Avoids e (accept_request sys rq) := by
  have hline : ∀ rq task buf, Res.Avoids e (requestLine rq task buf) := by
    intro rq task buf
    unfold requestLine
    split
    · simp only
      split <;> exact .ok _ _
    · exact .ok _ _
  have hready : ∀ task pollin, Res.Avoids e (acceptReady sys rq task pollin) := by
    intro task pollin
    unfold acceptReady
    simp only
    split
    · split <;> exact .ok _ _
    · split
      · exact .ok _ _
      · exact hline ..
  unfold accept_request
  simp only
  split
  · exact .ok _ _
  · exact .ok _ _
  · split
    · exact .ok _ _
    · split
      · exact .ok _ _
      · exact hready ..

theorem decode_request_avoids_null (hh : rq.REQUEST_HEADER.isSome) (hm : rq.METHOD.isSome) :
    Res.Avoids .null (decode_request sys rq) := by
  unfold decode_request
  refine (Res.Avoids.deref hh).bind fun _ _ => (Res.Avoids.deref hm).bind fun _ _ => ?_
  simp only
  split
  · refine Res.Avoids.bind ?_ fun _ _ => .ok _ _
    unfold upgrade
    split
    · refine Res.Avoids.bind ?_ fun _ _ => .ok _ _
      unfold ws_confirm_request
      split
      · exact .ok _ _
      · exact .error (by decide)
    · exact .ok _ _
  · split <;> exact .ok _ _

theorem decode_post_request_avoids {e : Fault} (hh : rq.REQUEST_HEADER.isSome) (hd : rq.REQUEST_DATA.isSome) :
    Res.Avoids e (decode_post_request rq) := by
  unfold decode_post_request
  refine Res.Avoids.bind (Res.Avoids.deref hh) fun _ _ => ?_
  simp only
  split
  · exact .ok _ _
  · split
    · exact .ok _ _
    · split
      · exact .ok _ _
      · split
        · split
          · exact (decode_url_request_avoids hd).bind fun _ _ => .ok _ _
          · split <;> exact .ok _ _
        · split
          · unfold decode_multi_part_request
            refine Res.Avoids.bind (Res.Avoids.deref hh) fun _ _ => ?_
            simp only
            split
            · split <;> exact .ok _ _
            · exact .ok _ _
          · exact Res.Avoids.bind (Res.Avoids.deref hd) fun _ _ => .ok _ _

/-! ## Every run -/

/-- The request of a connection is ready as long as a decoding handler is to run. -/
def Conn.Sound (cnf : Config) (c : Conn) : Prop :=
  ∃ h, c.task.handle = some h ∧ Shape h c.task.callback ∧
    (¬ h.IsPlugin → h ≠ .finish_request → Ready cnf c.rq ∧
      (h ≠ .accept_request → c.rq.METHOD.isSome ∧ c.rq.REQUEST_QUERY.isSome))

theorem sound_accepted {c : Conn} (h : Conn.Accepted cnf c) : c.Sound cnf := by
  obtain ⟨pcnf, sock, now, input, output, hp, rfl⟩ := h
  obtain ⟨p, hp⟩ := Option.isSome_iff_exists.1 hp
  refine ⟨_, rfl, rfl, fun _ _ => ⟨⟨rfl, rfl, p, ?_⟩, fun h => absurd rfl h⟩⟩
  unfold Config.port
  refine Res.bind_ok.2 ⟨_, rfl, ?_⟩
  rw [hp]
  rfl

theorem Step.ready {h : Handler} {t : Task} {rq' : Request} (hs : Step h rq t rq') (hr : Ready cnf rq) : Ready cnf rq' :=
  ⟨hs.kept.header hr.header, hs.kept.data hr.data, hs.kept.port ▸ hr.port⟩

theorem Flow.after_accept {g : Handler} {cbs : List Handler} (hf : Flow .accept_request (some g) cbs) :
    g = .accept_request ∨ g = .decode_request_header := by
  cases hf with
  | acceptAgain => exact .inl rfl
  | accepted => exact .inr rfl

theorem sound_step {c c' : Conn} (hi : c.Sound cnf) (hs : Conn.step cnf sys c = some c') : c'.Sound cnf := by
  obtain ⟨h, hh, hshape, hready⟩ := hi
  obtain ⟨g, hg, hsg, hf, hnext⟩ := Conn.step_next hs hh hshape
  refine ⟨g, hg, hsg, fun hgp hgf => ?_⟩
  cases hnext with
  | plugin hp hor => exact (hor.elim hgf hgp).elim
  | server t hp hc hst htarget hor =>
    obtain ⟨hr, hmq⟩ := hready hp hf
    refine ⟨hst.ready hr, fun hga => ?_⟩
    rcases hor with ht | ⟨-, hor, -⟩
    · by_cases ha : h = .accept_request
      · subst ha
        rcases (ht ▸ hst.flow).after_accept with rfl | rfl
        · exact absurd rfl hga
        · exact htarget rfl ht
      · obtain ⟨hm, hq⟩ := hmq ha
        exact ⟨hst.kept.method hm, hst.kept.query hq⟩
    · exact (hor.elim hgf hgp).elim

theorem sound_reachable {c : Conn} (hc : Conn.Reachable cnf c) : c.Sound cnf :=
  hc.inv _ (fun _ => sound_accepted) fun _ _ _ hi _ hs => sound_step hi hs

/-- The handlers that decode what the client sends. -/
def decoders : List Handler := [.accept_request, .decode_request_header, .decode_request, .decode_post_request]

/-- In every run, a decoding handler uses a NULL pointer exactly if it is
`decode_request_header` and reads a line that names `Cookie` or `Host` without a colon. -/
theorem decoders_null_iff {c : Conn} (hc : Conn.Reachable cnf c) {h : Handler} (hh : c.task.handle = some h)
    (hd : h ∈ decoders) :
    execute sys cnf c = .error .null ↔
      h = .decode_request_header ∧ ∃ line ∈ headerLines c.rq.client 0, NamesNoValue line := by
  obtain ⟨h', hh', -, hready⟩ := sound_reachable hc
  rw [hh] at hh'; cases hh'
  have hcall : execute sys cnf c = .error .null ↔ callHandler sys cnf c.rq h = .error .null := by
    unfold execute
    rw [hh, deref_some]
    constructor
    · intro he
      rcases Res.bind_error.1 he with he | ⟨a, ha, he⟩
      · cases he
      · cases ha
        rcases Res.bind_error.1 he with he | ⟨p, -, he⟩
        · exact he
        · cases he
    · intro he
      exact Res.bind_error.2 (.inr ⟨h, rfl, Res.bind_error.2 (.inl he)⟩)
  rw [hcall]
  simp only [decoders, List.mem_cons, List.not_mem_nil, or_false] at hd
  rcases hd with rfl | rfl | rfl | rfl
  · exact ⟨fun he => absurd (Res.map_error.1 he) accept_request_avoids.ne, fun he => nomatch he.1⟩
  · obtain ⟨hr, hmq⟩ := hready id (by decide)
    exact (Res.map_error.trans (decode_request_header_null hr (hmq (by decide)).2)).trans
      ⟨fun h => ⟨rfl, h⟩, fun h => h.2⟩
  · obtain ⟨hr, hmq⟩ := hready id (by decide)
    exact ⟨fun he => absurd (Res.map_error.1 he) (decode_request_avoids_null hr.header (hmq (by decide)).1).ne,
      fun he => nomatch he.1⟩
  · obtain ⟨hr, -⟩ := hready id (by decide)
    exact ⟨fun he => absurd (Res.map_error.1 he) (decode_post_request_avoids hr.header hr.data).ne,
      fun he => nomatch he.1⟩

/-- A client that sends `GET / HTTP/1.1` and the line `Host`. -/
def bareHost : Conn := sampleConn none [] (str "GET / HTTP/1.1\r\nHost\r\n\r\n")

theorem bareHost_run : ∃ c, Conn.Reachable (sampleConfig none []) c ∧ c.task.handle = some .decode_request_header ∧
    execute (sampleSys []) (sampleConfig none []) c = .error .null := by
  have hrun : ((Runs.runAll (Conn.step (sampleConfig none [])) [sampleSys []] bareHost).any fun c =>
      c.task.handle = some .decode_request_header ∧
        (execute (sampleSys []) (sampleConfig none []) c).fault = some .null) = true := by decide +kernel
  obtain ⟨c, hc, hh, hf⟩ := Runs.ends_in hrun
  exact ⟨c, sampleConn_reachable hc, hh, Res.fault_eq.1 hf⟩

theorem decoders_null : ¬ ∀ (cnf : Config) (c : Conn), Conn.Reachable cnf c → ∀ h ∈ decoders, c.task.handle = some h →
    ∀ sys : Sys, execute sys cnf c ≠ .error .null := by
  intro hall
  obtain ⟨c, hc, hh, hf⟩ := bareHost_run
  exact hall _ c hc _ (by decide) hh _ hf

theorem decoders_null_iff_bareHost : ∃ c : Conn, c.task.handle = some .decode_request_header ∧
    ∃ line ∈ headerLines c.rq.client 0, NamesNoValue line := by
  obtain ⟨c, hc, hh, hf⟩ := bareHost_run
  exact ⟨c, hh, ((decoders_null_iff hc hh (by decide)).1 hf).2⟩

end AntHttp
