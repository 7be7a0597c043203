import AntHttp.Sample
/-!
# Which requests are proxied

A request becomes a proxy task when the string that is left after the rules is
an `http://` URL with a port. The string is the one that the last rule to write
it has produced, or the client's own target if none has.
-/

namespace AntHttp

open CString

/-- The pattern of `check_proxy` finds an `http` URL. -/
def HttpUrl (regexec : Regexec) (path : Bytes) : Prop :=
  ∃ m, regex_match regexec PROXY_PATTERN path = .ok (some m) ∧ (groupText path (m 1)).length ≠ 5

/-- The path before the first rule. -/
def requestPath (target : Bytes) : Bytes := (splitQuery (target.take (BUF_SIZE - 1))).1

/-- The rule matched, and its value gave this URL. -/
def Produces (regexec : Regexec) (rules : Dictionary Bytes) (rule : Bytes × Bytes) (path : Bytes) : Prop :=
  (rule.1, some rule.2) ∈ rules.assocs ∧
    ∃ host url query buf, rule_check regexec rule.1 rule.2 host url query = .ok (some (some buf)) ∧ (splitQuery buf).1 = path

/-- The request comes to its rules: its port is configured, its header complete, and the body it announces allowed. -/
structure Rewritten (sys : Sys) (cnf : Config) (rq : Request) (pcnf : PortConfig) (target : Bytes) (host : Option Bytes) : Prop where
  port : cnf.port rq.SERVER_PORT = .ok (some pcnf)
  target : rq.REQUEST_QUERY = some target
  header : ∃ client s xheader z_level,
    headerLoop (rq.set_state .HEADER_DECODE).client ⟨rq.REQUEST_HEADER, none, none, 0⟩ = .ok (.complete, client, s) ∧
    s.xheader = some xheader ∧ s.host = host ∧
    ((xheader.dvalue (str "Content-Length")).any fun line => atoi line > cnf.max_upload_size) = false ∧
    acceptedEncoding sys.regexec (xheader.dvalue (str "Accept-Encoding")) = .ok z_level

/-- The request is only proxied to a URL that a rule of its port has produced. The second field is about a host or
port with no room in `buff`: there `check_proxy` writes past it, and goes on to its task. -/
structure ProxiedByRule (sys : Sys) (cnf : Config) (rq : Request) : Prop where
  task : ∀ t rq', decode_request_header sys cnf rq = .ok (t, rq') → t.handle = some .proxify →
    ∃ pcnf rule path, cnf.port rq.SERVER_PORT = .ok (some pcnf) ∧ rq'.producer = some rule ∧
      Produces sys.regexec pcnf.rules rule path ∧ HttpUrl sys.regexec path
  overrun : ∀ pcnf target host w, Rewritten sys cnf rq pcnf target host →
    apply_rules sys.regexec pcnf.rules host (target.take (BUF_SIZE - 1)) = .ok w → HttpUrl sys.regexec w.url →
    ∃ rule, w.producer = some rule ∧ Produces sys.regexec pcnf.rules rule w.url

/-- No rule writes the path: each one tried does not match, or matches and gives no text. The query is gone after a
match. -/
inductive Unwritten (regexec : Regexec) (host : Option Bytes) (path : Bytes) : Chain Bytes → Bytes → Bool → Prop
  | nil {query should_break} : Unwritten regexec host path [] query should_break
  | unset {k its query should_break} (h : Unwritten regexec host path its query should_break) :
    Unwritten regexec host path ((k, none) :: its) query should_break
  | unmatched {k v its query should_break m} (hv : regex_match regexec (str "<break>$") v = .ok m)
      (hr : rule_check regexec k v host path query = .ok none)
      (h : Unwritten regexec host path its query (should_break || m.isSome)) :
    Unwritten regexec host path ((k, some v) :: its) query should_break
  | broken {k v its query should_break m} (hv : regex_match regexec (str "<break>$") v = .ok m)
      (hr : rule_check regexec k v host path query = .ok (some none)) (hb : (should_break || m.isSome) = true) :
    Unwritten regexec host path ((k, some v) :: its) query should_break
  | silent {k v its query should_break m} (hv : regex_match regexec (str "<break>$") v = .ok m)
      (hr : rule_check regexec k v host path query = .ok (some none)) (hb : (should_break || m.isSome) = false)
      (h : Unwritten regexec host path its [] false) :
    Unwritten regexec host path ((k, some v) :: its) query should_break

section

variable {regexec : Regexec} {rules : Dictionary Bytes} {host : Option Bytes} {s s' : Rewrite} {sys : Sys} {cnf : Config}
  {rq rq' : Request} {t : Task}

/-! ## Where the URL comes from -/

/-- The URL is the one at the start or the one that its producer wrote; its query has been cut off. -/
structure Origin (regexec : Regexec) (rules : Dictionary Bytes) (url : Bytes) (s : Rewrite) : Prop where
  cut : 63 ∉ s.url
  start : s.producer = none → s.url = (splitQuery url).1
  produced : ∀ rule ∈ s.producer, Produces regexec rules rule s.url

theorem splitQuery_cut (url : Bytes) : 63 ∉ (splitQuery url).1 := fun h => by simpa using List.mem_takeWhile_imp h

theorem splitQuery_eq_self {url : Bytes} (h : 63 ∉ url) : (splitQuery url).1 = url :=
  List.takeWhile_eq_self_iff.2 fun _ hc => decide_eq_true fun he => h (he ▸ hc)

theorem origin_start (url : Bytes) : Origin regexec rules url (.start url) := ⟨splitQuery_cut url, fun _ => rfl, nofun⟩

theorem Origin.apply {url k v : Bytes} {b : Bool} (h : Origin regexec rules url s) (hr : (k, some v) ∈ rules.assocs)
    (ha : applyRule regexec host k v s = .ok (b, s')) : Origin regexec rules url s' := by
  obtain ⟨m, -, ha⟩ := Res.bind_ok.1 ha
  obtain ⟨buf, hbuf, ha⟩ := Res.bind_ok.1 ha
  cases buf with
  | none =>
    cases ha
    exact ⟨h.cut, h.start, h.produced⟩
  | some buf =>
    cases ha
    cases buf with
    | none =>
      -- the URL stays where it is, with nothing left to cut
      have hsame : (splitQuery s.url).1 = s.url := splitQuery_eq_self h.cut
      exact ⟨splitQuery_cut _, fun hn => hsame.trans (h.start hn), fun rule hp => by
        change Produces regexec rules rule (splitQuery s.url).1
        rw [hsame]
        exact h.produced rule hp⟩
    | some buf =>
      refine ⟨splitQuery_cut _, nofun, fun rule hp => ?_⟩
      cases hp
      exact ⟨hr, host, s.url, s.query, buf, hbuf, rfl⟩

theorem Origin.loop {url : Bytes} {its : Chain Bytes} (hits : ∀ it ∈ its, it ∈ rules.assocs) (h : Origin regexec rules url s)
    (ha : apply_rules_loop regexec host its s = .ok s') : Origin regexec rules url s' := by
  induction its generalizing s with
  | nil =>
    cases ha
    exact h
  | cons it its ih =>
    have hrest : ∀ it ∈ its, it ∈ rules.assocs := fun it hit => hits it (List.mem_cons_of_mem _ hit)
    obtain ⟨k, _ | v⟩ := it
    · exact ih hrest h ha
    · obtain ⟨⟨b, s₁⟩, hs₁, ha⟩ := Res.bind_ok.1 ha
      have h₁ := h.apply (hits _ List.mem_cons_self) hs₁
      cases b with
      | true => exact ih hrest h₁ ha
      | false =>
        cases ha
        exact h₁

theorem origin_apply_rules {url : Bytes} (ha : apply_rules regexec rules host url = .ok s) : Origin regexec rules url s :=
  (origin_start url).loop (fun _ h => h) ha

/-! ## When no rule writes it -/

theorem producer_apply {k v : Bytes} {b : Bool} (h : s.producer ≠ none) (ha : applyRule regexec host k v s = .ok (b, s')) :
    s'.producer ≠ none := by
  obtain ⟨m, -, ha⟩ := Res.bind_ok.1 ha
  obtain ⟨buf, -, ha⟩ := Res.bind_ok.1 ha
  rcases buf with _ | _ | buf
  · cases ha
    exact h
  · cases ha
    exact h
  · cases ha
    exact nofun

theorem producer_loop {its : Chain Bytes} (h : s.producer ≠ none) (ha : apply_rules_loop regexec host its s = .ok s') :
    s'.producer ≠ none := by
  induction its generalizing s with
  | nil =>
    cases ha
    exact h
  | cons it its ih =>
    obtain ⟨k, _ | v⟩ := it
    · exact ih h ha
    · obtain ⟨⟨b, s₁⟩, hs₁, ha⟩ := Res.bind_ok.1 ha
      have h₁ := producer_apply h hs₁
      cases b with
      | true => exact ih h₁ ha
      | false =>
        cases ha
        exact h₁

theorem resplit_none (hc : 63 ∉ s.url) (k v : Bytes) :
    s.resplit k v none = { s with query := [] } := by
  have hsplit : splitQuery s.url = (s.url, []) := by
    have hall : ∀ c ∈ s.url, decide (c ≠ 63) = true := fun c hm => decide_eq_true fun he => hc (he ▸ hm)
    rw [splitQuery, List.takeWhile_eq_self_iff.2 hall, List.dropWhile_eq_nil_iff.2 hall]
    rfl
  simp only [Rewrite.resplit, Option.getD_none, hsplit, Option.isSome_none, Bool.false_eq_true, if_false]

/-- Without a rule that writes it, the URL stays as it was. -/
theorem Unwritten.loop {path query : Bytes} {its : Chain Bytes} {b : Bool} (h : Unwritten regexec host path its query b)
    (hc : 63 ∉ path) : ∃ w, apply_rules_loop regexec host its ⟨path, query, b, none⟩ = .ok w ∧ w.url = path ∧ w.producer = none := by
  induction h with
  | nil => exact ⟨_, rfl, rfl, rfl⟩
  | unset _ ih => exact ih
  | unmatched hv hr _ ih =>
    obtain ⟨w, hw, hu⟩ := ih
    refine ⟨w, ?_, hu⟩
    simp only [apply_rules_loop, applyRule, bind, Except.bind, hv, hr]
    exact hw
  | broken hv hr hb =>
    simp only [apply_rules_loop, applyRule, bind, Except.bind, hv, hr, resplit_none (s := ⟨_, _, _, none⟩) hc, hb]
    exact ⟨_, rfl, rfl, rfl⟩
  | silent hv hr hb _ ih =>
    obtain ⟨w, hw, hu⟩ := ih
    refine ⟨w, ?_, hu⟩
    simp only [apply_rules_loop, applyRule, bind, Except.bind, hv, hr, resplit_none (s := ⟨_, _, _, none⟩) hc, hb]
    exact hw

/-- A URL without a producer was written by no rule. -/
theorem Unwritten.of_loop {path query : Bytes} {its : Chain Bytes} {b : Bool} (hc : 63 ∉ path)
    (ha : apply_rules_loop regexec host its ⟨path, query, b, none⟩ = .ok s) (hp : s.producer = none) :
    Unwritten regexec host path its query b := by
  induction its generalizing query b with
  | nil => exact .nil
  | cons it its ih =>
    obtain ⟨k, _ | v⟩ := it
    · exact .unset (ih ha)
    · obtain ⟨⟨goes, s₁⟩, hs₁, ha⟩ := Res.bind_ok.1 ha
      obtain ⟨m, hv, hs₁⟩ := Res.bind_ok.1 hs₁
      obtain ⟨buf, hr, hs₁⟩ := Res.bind_ok.1 hs₁
      rcases buf with _ | _ | buf
      · cases hs₁
        exact .unmatched hv hr (ih ha)
      · have hend : (goes, s₁) = (!(b || m.isSome), Rewrite.resplit ⟨path, query, b || m.isSome, none⟩ k v none) := by
          cases hs₁
          rfl
        rw [resplit_none hc] at hend
        cases hb : b || m.isSome with
        | true => exact .broken hv hr hb
        | false =>
          rw [hb] at hend
          cases hend
          exact .silent hv hr hb (ih ha)
      · have hsome : s₁.producer ≠ none := by
          cases hs₁
          exact nofun
        cases goes with
        | true => exact absurd hp (producer_loop hsome ha)
        | false =>
          cases ha
          exact absurd hp hsome

theorem unwritten_iff {target : Bytes} :
    Unwritten regexec host (requestPath target) rules.assocs (splitQuery (target.take (BUF_SIZE - 1))).2 false ↔
      ∃ w, apply_rules regexec rules host (target.take (BUF_SIZE - 1)) = .ok w ∧ w.url = requestPath target ∧ w.producer = none := by
  constructor
  · exact fun h => h.loop (splitQuery_cut _)
  · rintro ⟨w, hw, -, hp⟩
    exact .of_loop (splitQuery_cut _) hw hp

/-! ## What is proxied -/

theorem copyCapture_ok {c b : Bytes} : copyCapture c = .ok b ↔ c.length < 256 ∧ b = c := by
  unfold copyCapture
  split
  · simp_all [eq_comm]
  · simp only [reduceCtorEq, false_iff, not_and]
    omega

/-- The pattern finds an `http` URL whose host and port fit `buff`. -/
def FitUrl (regexec : Regexec) (path : Bytes) : Prop :=
  ∃ m, regex_match regexec PROXY_PATTERN path = .ok (some m) ∧ (groupText path (m 1)).length ≠ 5 ∧
    (groupText path (m 2)).length < 256 ∧ (groupText path (m 3)).length < 256

theorem FitUrl.http {path : Bytes} (h : FitUrl regexec path) : HttpUrl regexec path := by
  obtain ⟨m, hm, hfive, -, -⟩ := h
  exact ⟨m, hm, hfive⟩

theorem check_proxy_proxify {path query : Bytes} (h : check_proxy regexec rq path query = .ok (some t, rq'))
    (ht : t.handle = some .proxify) : FitUrl regexec path ∧ rq'.producer = rq.producer := by
  obtain ⟨m, hm, h⟩ := Res.bind_ok.1 h
  cases m with
  | none => cases h
  | some m =>
    simp only at h
    split at h
    · cases h
      cases ht
    · rename_i hfive
      obtain ⟨hostname, hh, h⟩ := Res.bind_ok.1 h
      obtain ⟨port, hp, h⟩ := Res.bind_ok.1 h
      cases h
      exact ⟨⟨m, hm, hfive, (copyCapture_ok.1 hh).1, (copyCapture_ok.1 hp).1⟩, rfl⟩

theorem check_proxy_fit {path : Bytes} (h : FitUrl regexec path) (rq : Request) (query : Bytes) :
    ∃ t rq', check_proxy regexec rq path query = .ok (some t, rq') ∧ t.handle = some .proxify ∧ rq'.producer = rq.producer := by
  obtain ⟨m, hm, hfive, hhost, hport⟩ := h
  have hcopy {c : Bytes} (hc : c.length < 256) : copyCapture c = .ok c := if_pos hc
  simp only [check_proxy, bind, Except.bind, hm, if_neg hfive, hcopy hhost, hcopy hport]
  exact ⟨_, _, rfl, rfl, rfl⟩

/-- A proxied request has come to its rules, and has the URL that is left after them. -/
theorem decode_request_header_proxify (h : decode_request_header sys cnf rq = .ok (t, rq')) (ht : t.handle = some .proxify) :
    ∃ pcnf target host w, Rewritten sys cnf rq pcnf target host ∧
      apply_rules sys.regexec pcnf.rules host (target.take (BUF_SIZE - 1)) = .ok w ∧ FitUrl sys.regexec w.url ∧
      rq'.producer = w.producer := by
  obtain ⟨pcnf, hport, h⟩ := Res.bind_ok.1 h
  obtain ⟨⟨ending, client, s⟩, hloop, h⟩ := Res.bind_ok.1 h
  cases ending with
  | tooLarge =>
    cases h
    cases ht
  | wait =>
    cases h
    cases ht
  | complete =>
    obtain ⟨xheader, hx, h⟩ := Res.bind_ok.1 h
    simp only at h
    split at h
    · cases h
      cases ht
    · rename_i hlength
      obtain ⟨z_level, hz, h⟩ := Res.bind_ok.1 h
      obtain ⟨p, hp, h⟩ := Res.bind_ok.1 h
      obtain ⟨target, htarget, h⟩ := Res.bind_ok.1 h
      obtain ⟨w, hw, h⟩ := Res.bind_ok.1 h
      obtain ⟨⟨proxied, rq₁⟩, hc, h⟩ := Res.bind_ok.1 h
      cases proxied with
      | some task =>
        cases h
        obtain ⟨hurl, hproducer⟩ := check_proxy_proxify hc ht
        cases deref_ok.1 hp
        exact ⟨p, target, s.host, w, ⟨hport, deref_ok.1 htarget, client, s, xheader, z_level, hloop, deref_ok.1 hx, rfl,
          Bool.eq_false_iff.2 hlength, hz⟩, hw, hurl, hproducer⟩
      | none =>
        obtain ⟨data, -, h⟩ := Res.bind_ok.1 h
        cases h
        cases ht

/-- And the other way round: such a request is proxied. -/
theorem Rewritten.proxify {pcnf : PortConfig} {target : Bytes} (h : Rewritten sys cnf rq pcnf target host)
    (hw : apply_rules sys.regexec pcnf.rules host (target.take (BUF_SIZE - 1)) = .ok s) (hurl : FitUrl sys.regexec s.url) :
    ∃ t rq', decode_request_header sys cnf rq = .ok (t, rq') ∧ t.handle = some .proxify ∧ rq'.producer = s.producer := by
  obtain ⟨client, scan, xheader, z_level, hloop, hx, rfl, hlength, hz⟩ := h.header
  have hport : cnf.port (rq.set_state .HEADER_DECODE).SERVER_PORT = .ok (some pcnf) := h.port
  have hheader : headerLoop (rq.set_state .HEADER_DECODE).client ⟨(rq.set_state .HEADER_DECODE).REQUEST_HEADER, none, none, 0⟩ =
      .ok (.complete, client, scan) := hloop
  have htarget : (rq.set_state .HEADER_DECODE).REQUEST_QUERY = some target := h.target
  obtain ⟨t, rq', hc, ht, hp⟩ := check_proxy_fit hurl
    { rq.set_state .HEADER_DECODE with
      client := { client with z_level }, REQUEST_HEADER := some xheader, REQUEST_QUERY := some target
      COOKIE := scan.cookie.or (rq.set_state .HEADER_DECODE).COOKIE, host := scan.host, producer := s.producer } s.query
  refine ⟨t, rq', ?_, ht, hp⟩
  simp only [decode_request_header, bind, Except.bind, hport, hheader, headerComplete, hx, deref_some, hlength,
    Bool.false_eq_true, if_false, hz, rewriteRequest, htarget, hw, hc]
  rfl

end

/-- A request is proxied by a rule unless its own target is an `http` URL and no rule of its port writes it. -/
theorem proxied_by_rule_iff (sys : Sys) (cnf : Config) (rq : Request) :
    ProxiedByRule sys cnf rq ↔ ∀ pcnf target host, Rewritten sys cnf rq pcnf target host →
      HttpUrl sys.regexec (requestPath target) →
      ¬ Unwritten sys.regexec host (requestPath target) pcnf.rules.assocs (splitQuery (target.take (BUF_SIZE - 1))).2 false := by
  constructor
  · intro h pcnf target host hr hurl hu
    obtain ⟨w, hw, hpath, hnone⟩ := unwritten_iff.1 hu
    obtain ⟨rule, hrule, -⟩ := h.overrun pcnf target host w hr hw (hpath ▸ hurl)
    cases hnone.symm.trans hrule
  · intro h
    have produced {pcnf target host w} (hr : Rewritten sys cnf rq pcnf target host)
        (hw : apply_rules sys.regexec pcnf.rules host (target.take (BUF_SIZE - 1)) = .ok w) (hurl : HttpUrl sys.regexec w.url) :
        ∃ rule, w.producer = some rule ∧ Produces sys.regexec pcnf.rules rule w.url := by
      have ho := origin_apply_rules hw
      cases hp : w.producer with
      | none =>
        have hpath : w.url = requestPath target := ho.start hp
        exact absurd (unwritten_iff.2 ⟨w, hw, hpath, hp⟩) (h pcnf target host hr (hpath ▸ hurl))
      | some rule => exact ⟨rule, rfl, ho.produced rule hp⟩
    refine ⟨fun t rq' hd ht => ?_, fun _ _ _ _ => produced⟩
    obtain ⟨pcnf, target, host, w, hr, hw, hurl, hp⟩ := decode_request_header_proxify hd ht
    obtain ⟨rule, hrule, hwrites⟩ := produced hr hw hurl.http
    exact ⟨pcnf, rule, w.url, hr.port, hp.trans hrule, hwrites, hurl.http⟩

/-! ## A client's own URL -/

/-- A request for `http://h:1/` on a port without rules, before an empty header. -/
def sampleTarget : Request :=
  { (sampleConn none [] [13, 10]).rq with REQUEST_QUERY := some (str "http://h:1/") }

theorem sampleTarget_rewritten :
    Rewritten (sampleSys []) (sampleConfig none []) sampleTarget (samplePort none []) (str "http://h:1/") none := by
  have hread : read_buf (sampleTarget.set_state .HEADER_DECODE).client BUF_SIZE =
      ([13, 10], { (sampleTarget.set_state .HEADER_DECODE).client with input := [] }) := by decide +kernel
  have hnone (key : Bytes) : (Dictionary.dict : Dictionary Bytes).dvalue key = none := Dictionary.dvalue_dict_n 15 key
  refine ⟨?_, rfl, { (sampleTarget.set_state .HEADER_DECODE).client with input := [] }, ⟨some .dict, none, none, 0⟩, .dict, .CNONE,
    ?_, rfl, rfl, ?_, ?_⟩
  · change Except.ok ((sampleConfig none []).ports.dvalue (decimal 80)) = _
    have hs : str "80" = decimal 80 := by decide
    simp [sampleConfig, dictOf, hs]
  · rw [headerLoop, hread]
    exact if_pos (by decide)
  · rw [hnone]
    rfl
  · rw [hnone]
    rfl

/-- A client's own URL is proxied. -/
theorem open_proxy : ¬ ∀ (sys : Sys) (cnf : Config) (rq : Request), ProxiedByRule sys cnf rq := by
  intro hall
  have hm : ((regex_match Ere.regexec PROXY_PATTERN (str "http://h:1/")).toOption.bind id).any (fun m =>
      (groupText (str "http://h:1/") (m 1)).length ≠ 5 ∧ (groupText (str "http://h:1/") (m 2)).length < 256 ∧
        (groupText (str "http://h:1/") (m 3)).length < 256) = true := by decide +kernel
  obtain ⟨m, hsome, hp⟩ := (Option.any_eq_true ..).1 hm
  obtain ⟨m', hok, rfl⟩ := Option.bind_eq_some_iff.1 hsome
  have hurl : FitUrl Ere.regexec (Rewrite.start ((str "http://h:1/").take (BUF_SIZE - 1))).url := by
    have hpath : (Rewrite.start ((str "http://h:1/").take (BUF_SIZE - 1))).url = str "http://h:1/" := by decide
    rw [hpath]
    exact ⟨m, Res.toOption_eq.1 hok, of_decide_eq_true hp⟩
  obtain ⟨t, rq', hd, ht, hnone⟩ := sampleTarget_rewritten.proxify rfl hurl
  obtain ⟨pcnf, rule, path, -, hrule, -⟩ := (hall _ _ _).task t rq' hd ht
  cases hnone.symm.trans hrule

end AntHttp
