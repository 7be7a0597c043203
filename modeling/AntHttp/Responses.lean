import AntHttp.NullSafety
import AntHttp.Resolve
/-!
# One answer for a request

A handler that answers returns a task without a handler, so the callbacks take
over: `finish_request`, unless a plugin stands before it. A request that was
switched to a web socket has been answered and should reach its plugin. The
conditions here are those under which every run keeps to one answer.
-/

namespace AntHttp

open CString

/-! ## The conditions -/

/-- The length announced for the body. -/
def contentLength (headers : Dictionary Bytes) : Int := (headers.dvalue (str "Content-Length")).elim (-1) atoi

/-- The body of a request that has one is described, and some of a form can be read if there should be any. -/
def PostDescribed (rq : Request) : Prop :=
  ∀ headers, rq.REQUEST_HEADER = some headers → rq.METHOD.any (· ∈ [str "POST", str "PUT", str "PATCH"]) →
    ∃ ctype, headers.dvalue (str "Content-Type") = some ctype ∧ contentLength headers ≠ -1 ∧
      (strstr ctype FORM_URL_ENCODE → contentLength headers ≤ 0 ∨
        (post_data_decode (rq.set_state .RQ_DATA_DECODE).client (contentLength headers)).1.isSome)

/-- The URL leads to a plugin that is enabled and can be loaded. -/
def LeadsToPlugin (sys : Sys) (cnf : Config) (rq : Request) : Prop :=
  ∃ url root pcnf pname path, rq.REQUEST_URI = some url ∧ rq.SERVER_WWW_ROOT = some root ∧
    cnf.port rq.SERVER_PORT = .ok (some pcnf) ∧ resolved sys cnf root url = .ok (.plugin pname path) ∧
    pluginEnabled sys pcnf pname = .ok true ∧ (sys.antd_plugin_load pname).isSome

/-- A step that does not answer where an answer comes too early or too late. -/
def KeepsAnswer (cnf : Config) (sys : Sys) (c : Conn) : Prop :=
  (c.task.handle = some .decode_post_request → PostDescribed c.rq) ∧
    (c.task.handle = some .resolve_request → c.rq.web_socket.isSome → LeadsToPlugin sys cnf c.rq)

/-- There is one answer at most, and after a final one the request is finished next. -/
structure AnsweredOnce (c : Conn) : Prop where
  once : c.rq.client.answers.length ≤ 1
  last : ∀ status ∈ c.rq.client.answers, status ≠ 101 → c.task.handle = some .finish_request

/-! ## Handlers that must not answer -/

section Silent

variable {sys : Sys} {cnf : Config} {rq rq' : Request} {t : Task}

theorem decode_multi_part_request_silent {ctype : Bytes} (h : decode_multi_part_request rq ctype = .ok (t, rq')) :
    rq'.client.answers = rq.client.answers := by
  unfold decode_multi_part_request at h
  obtain ⟨headers, -, h⟩ := Res.bind_ok.1 h
  simp only at h
  split at h
  · split at h <;> cases h <;> exact (readUntil_io ..).answers
  · cases h; rfl

theorem decode_post_request_silent (hd : PostDescribed rq) (h : decode_post_request rq = .ok (t, rq')) :
    rq'.client.answers = rq.client.answers := by
  unfold decode_post_request at h
  obtain ⟨headers, hh, h⟩ := Res.bind_ok.1 h
  simp only at h
  split at h
  · cases h; rfl
  · rename_i hm
    obtain ⟨ctype, hct, hlen, hform⟩ := hd headers (deref_ok.1 hh) (not_not.1 hm)
    rw [hct] at h
    simp only at h
    rw [← contentLength, if_neg hlen] at h
    split at h
    · rename_i hf
      have hio := postLoop_io (rq.set_state .RQ_DATA_DECODE).client (contentLength headers).toNat []
      split at h
      · obtain ⟨d, -, h⟩ := Res.bind_ok.1 h
        cases h
        exact hio.answers
      · rename_i hnone
        split at h
        · -- something was announced, so something has been read
          rename_i hpos
          rcases hform hf with hle | hsome
          · omega
          · rw [hnone] at hsome; cases hsome
        · cases h; exact hio.answers
    · split at h
      · have ha := decode_multi_part_request_silent h
        exact ha
      · obtain ⟨d, -, h⟩ := Res.bind_ok.1 h
        cases h; rfl

theorem resolve_request_silent (hl : LeadsToPlugin sys cnf rq) (h : resolve_request sys cnf rq = .ok (t, rq')) :
    rq'.client.answers = rq.client.answers ∧ t.handle.isSome ∧ t.handle ≠ some .serve_file := by
  obtain ⟨url, root, pcnf, pname, path, hu, hr, hp, hres, he, hload⟩ := hl
  obtain ⟨r, hr', ho⟩ := resolve_request_outcome hu hr h
  rw [hres] at hr'
  cases hr'
  obtain ⟨rq₁, hrun, -, hport, -, ha⟩ := ho.run
  obtain ⟨ha', ht⟩ := execute_plugin_runs hrun (hport ▸ hp) he hload
  exact ⟨ha'.trans ha, ht⟩

end Silent

/-! ## Stages of a request -/

/-- What can run on a web socket once it has been resolved. -/
def AfterSwitch (h : Handler) : Prop :=
  h = .decode_post_request ∨ h = .decode_multi_part_request_data ∨ h.IsPlugin ∨ h = .finish_request

/-- How far the answer is when the handler `h` is to run. -/
inductive Stage (rq : Request) (h : Handler) : Prop
  | unanswered : rq.client.answers = [] → Stage rq h
  | switched : rq.client.answers = [101] → (h = .resolve_request ∧ rq.web_socket.isSome) ∨ AfterSwitch h → Stage rq h
  | final {status} : rq.client.answers = [status] → h = .finish_request → Stage rq h

def Conn.Staged (c : Conn) : Prop := ∃ h, c.task.handle = some h ∧ Shape h c.task.callback ∧ Stage c.rq h

section Stages

variable {sys : Sys} {cnf : Config} {rq rq' : Request} {t : Task} {h g : Handler}

theorem AfterSwitch.of_callback (hg : g = .finish_request ∨ g.IsPlugin) : AfterSwitch g :=
  hg.elim (fun h => .inr (.inr (.inr h))) fun h => .inr (.inr (.inl h))

/-- Nothing runs after a switched request but its plugin and what belongs to it. -/
theorem Flow.afterSwitch {cbs : List Handler} (hf : Flow h (some g) cbs)
    (hh : (h = .resolve_request ∧ g ≠ .serve_file) ∨ h = .decode_post_request ∨ h = .decode_multi_part_request_data) :
    AfterSwitch g := by
  cases hf with
  | rawPlugin => exact .inr (.inr (.inl trivial))
  | plugin => exact .inl rfl
  | parts | morePart => exact .inr (.inl rfl)
  | file => rcases hh with ⟨-, hg⟩ | hh | hh <;> first | exact absurd rfl hg | cases hh
  | _ => rcases hh with ⟨hh, -⟩ | hh | hh <;> cases hh

/-- Only `decode_request` hands over to `resolve_request`. -/
theorem Flow.resolving {cbs : List Handler} (hf : Flow h (some .resolve_request) cbs) (hp : ¬ h.IsPlugin) :
    h = .decode_request := by
  cases hf with
  | resolve => rfl
  | pluginTask => exact absurd trivial hp

/-- The end is the only callback of a handler that may answer, `decode_post_request` apart. -/
theorem Shape.finish_only {cbs : List Handler} (hs : Shape h cbs) (hh : h.MayAnswer) (hp : ¬ h.IsPlugin)
    (hd : h ≠ .decode_post_request) : cbs = [.finish_request] := by
  cases h with
  | finish_request => exact absurd rfl hh.1
  | plugin => exact absurd trivial hp
  | decode_post_request => exact absurd rfl hd
  | decode_multi_part_request_data => exact absurd rfl hh.2
  | _ => exact hs

end Stages

/-! ## Every run -/

section Runs

variable {sys : Sys} {cnf : Config} {c c' : Conn}

theorem staged_accepted (h : Conn.Accepted cnf c) : c.Staged := by
  obtain ⟨pcnf, sock, now, input, output, -, rfl⟩ := h
  exact ⟨_, rfl, rfl, .unanswered rfl⟩

/-- A server handler that meets the condition keeps to one answer. -/
theorem stage_server {h g : Handler} {t : Task} {rq' : Request} {cbs : List Handler} (hstage : Stage c.rq h)
    (hk : KeepsAnswer cnf sys c) (hh : c.task.handle = some h) (hp : ¬ h.IsPlugin) (hf : h ≠ .finish_request)
    (hshape : Shape h cbs) (hc : callHandler sys cnf c.rq h = .ok (some t, some rq')) (hst : Step h c.rq t rq')
    (hor : (t.handle = some g) ∨ (t.handle = none ∧ (g = .finish_request ∨ g.IsPlugin) ∧
      (t.callback ++ cbs).head? = some g)) : Stage rq' g := by
  -- `decode_post_request` and the resolving of a web socket do not answer
  have hpost : h = .decode_post_request → rq'.client.answers = c.rq.client.answers := by
    rintro rfl
    obtain ⟨p, hp, hpt⟩ := Res.map_ok.1 hc
    cases hpt
    exact decode_post_request_silent (hk.1 hh) hp
  have hresolve : h = .resolve_request ∧ c.rq.web_socket.isSome →
      rq'.client.answers = c.rq.client.answers ∧ t.handle ≠ some .serve_file := by
    rintro ⟨rfl, hw⟩
    obtain ⟨p, hp, hpt⟩ := Res.map_ok.1 hc
    cases hpt
    obtain ⟨ha, -, ht⟩ := resolve_request_silent (hk.2 hh hw) hp
    exact ⟨ha, ht⟩
  rcases hst.answered with ⟨ha, -⟩ | ⟨ha, hw, ht⟩ | ⟨hmay, ha, -, ht, hcb⟩
  · rcases hstage with hu | ⟨hu, hcase⟩ | ⟨-, hfin⟩
    · exact .unanswered (ha.trans hu)
    · refine .switched (ha.trans hu) (.inr ?_)
      rcases hor with hg | ⟨-, hg, -⟩
      · refine Flow.afterSwitch (hg ▸ hst.flow) ?_
        rcases hcase with hr | hd | hm | hpl | hfin
        · exact .inl ⟨hr.1, fun he => (hresolve hr).2 (he ▸ hg)⟩
        · exact .inr (.inl hd)
        · exact .inr (.inr hm)
        · exact absurd hpl hp
        · exact absurd hfin hf
      · exact .of_callback hg
    · exact absurd hfin hf
  · obtain rfl := (ht ▸ hst.flow).resolving hp
    rcases hor with hg | ⟨hnone, -, -⟩
    · rw [ht] at hg
      cases hg
      rcases hstage with hu | ⟨-, hcase⟩ | ⟨-, hfin⟩
      · exact .switched (by rw [ha, hu]; rfl) (.inl ⟨rfl, by rw [hw]; rfl⟩)
      · rcases hcase with ⟨hr, -⟩ | hr | hr | hr | hr <;> cases hr
      · cases hfin
    · rw [hnone] at ht; cases ht
  · rcases hor with hg | ⟨-, -, hhead⟩
    · rw [hg] at ht; cases ht
    · have hne : h ≠ .decode_post_request := fun he => by simp [hpost he] at ha
      rw [hcb, hshape.finish_only hmay hp hne] at hhead
      cases hhead
      rcases hstage with hu | ⟨-, hcase⟩ | ⟨-, hfin⟩
      · exact .final (by rw [ha, hu]; rfl) rfl
      · rcases hcase with hr | hd | hm | hpl | hfin
        · simp [(hresolve hr).1] at ha
        · exact absurd hd hne
        · exact absurd hm hmay.2
        · exact absurd hpl hp
        · exact absurd hfin hf
      · exact absurd hfin hf

theorem staged_step (hi : c.Staged) (hk : KeepsAnswer cnf sys c) (hs : Conn.step cnf sys c = some c') : c'.Staged := by
  obtain ⟨h, hh, hshape, hstage⟩ := hi
  obtain ⟨g, hg, hsg, hf, hnext⟩ := Conn.step_next hs hh hshape
  refine ⟨g, hg, hsg, ?_⟩
  cases hnext with
  | plugin hp hor ha =>
    rcases hstage with hu | ⟨hu, -⟩ | ⟨-, hfin⟩
    · exact .unanswered (ha.trans hu)
    · exact .switched (ha.trans hu) (.inr (.of_callback hor))
    · exact absurd hfin hf
  | server t hp hc hst _ hor => exact stage_server hstage hk hh hp hf hshape hc hst hor

/-- In every run in which each body is described and each web socket leads to
its plugin, a request is answered once, and finished after a final answer. -/
theorem answered_once (h : Runs.Run (Conn.step cnf) (KeepsAnswer cnf) (Conn.Accepted cnf) c) : AnsweredOnce c := by
  obtain ⟨g, hg, -, hstage⟩ := h.inv Conn.Staged (fun _ => staged_accepted) fun _ _ _ hi hk hs => staged_step hi hk hs
  rcases hstage with hu | ⟨hu, -⟩ | ⟨hu, rfl⟩
  · exact ⟨by rw [hu]; exact Nat.zero_le 1, by rw [hu]; nofun⟩
  · exact ⟨by rw [hu]; exact le_refl 1, by rw [hu]; simp⟩
  · exact ⟨by rw [hu]; exact le_refl 1, fun _ _ _ => hg⟩

end Runs

/-! ### A form and a web socket -/

/-- A body of three bytes that is described and arrives, and the web socket of a plugin. -/
def sampleKeeps (c : Conn) : Bool :=
  (c.task.handle = some .decode_post_request → c.rq.METHOD = some (str "GET") ∨ c.rq.REQUEST_HEADER.any fun headers =>
    headers.dvalue (str "Content-Type") = some FORM_URL_ENCODE ∧ contentLength headers = 3 ∧
      (post_data_decode (c.rq.set_state .RQ_DATA_DECODE).client 3).1.isSome) ∧
  (c.task.handle = some .resolve_request → c.rq.web_socket.isSome → c.rq.REQUEST_URI = some (str "/p") ∧
    c.rq.SERVER_WWW_ROOT = some (str "/www") ∧ c.rq.SERVER_PORT = some (str "80"))

theorem keepsAnswer_sample {c : Conn} (h : sampleKeeps c = true) :
    KeepsAnswer (sampleConfig (some (str "p")) []) (sampleSys []) c := by
  obtain ⟨hpost, hresolve⟩ := of_decide_eq_true h
  refine ⟨fun hh headers hheaders hm => ?_, fun hh hw => ?_⟩
  · rcases hpost hh with hget | hform
    · rw [hget] at hm
      cases hm
    · rw [hheaders] at hform
      obtain ⟨htype, hlen, hread⟩ := of_decide_eq_true hform
      rw [hlen]
      exact ⟨_, htype, by decide, fun _ => .inr hread⟩
  · obtain ⟨hurl, hroot, hport⟩ := hresolve hh hw
    have hpcnf : (sampleConfig (some (str "p")) []).port (some (str "80")) = .ok (some (samplePort (some (str "p")) [])) := by
      simp [Config.port, sampleConfig, dictOf]
    exact ⟨_, _, _, str "p", str "/www//", hurl, hroot, hport ▸ hpcnf, Res.toOption_eq.1 (by decide +kernel),
      Res.toOption_eq.1 (by decide +kernel), rfl⟩

/-- Three bytes of a form. -/
def formConn : Conn := sampleConn (some (str "p")) []
  (str "POST /p HTTP/1.1\r\nContent-Type: application/x-www-form-urlencoded\r\nContent-Length: 3\r\n\r\na=b")

def webSocketConn : Conn := sampleConn (some (str "p")) []
  (str "GET /p HTTP/1.1\r\nUpgrade: websocket\r\nConnection: Upgrade\r\nSec-WebSocket-Key: abc\r\n\r\n")

theorem sampleKeeps_run {conn c : Conn} (hconn : Conn.Accepted (sampleConfig (some (str "p")) []) conn)
    (hc : Runs.runAll (Runs.guarded sampleKeeps (Conn.step (sampleConfig (some (str "p")) [])))
      (List.replicate 6 (sampleSys [])) conn = some c) :
    Runs.Run (Conn.step (sampleConfig (some (str "p")) [])) (KeepsAnswer (sampleConfig (some (str "p")) []))
      (Conn.Accepted (sampleConfig (some (str "p")) [])) c := by
  refine Runs.run_guarded (fun sys hsys c hk => ?_) (.init hconn) hc
  rw [List.eq_of_mem_replicate hsys]
  exact keepsAnswer_sample hk

/-- The plugin has run on the form, and on the web socket after its answer. -/
theorem answered_once_plugin :
    (∃ c : Conn, c.rq.client.answers = [] ∧ c.rq.loads = [str "p"] ∧ c.task.handle = some .finish_request ∧ AnsweredOnce c) ∧
    ∃ c : Conn, c.rq.client.answers = [101] ∧ c.rq.loads = [str "p"] ∧ c.task.handle = some .finish_request ∧ AnsweredOnce c := by
  have hform : ((Runs.runAll (Runs.guarded sampleKeeps (Conn.step (sampleConfig (some (str "p")) [])))
      (List.replicate 6 (sampleSys [])) formConn).any fun c => c.rq.client.answers = [] ∧ c.rq.loads = [str "p"] ∧
        c.task.handle = some .finish_request) = true := by decide +kernel
  have hsocket : ((Runs.runAll (Runs.guarded sampleKeeps (Conn.step (sampleConfig (some (str "p")) [])))
      (List.replicate 6 (sampleSys [])) webSocketConn).any fun c => c.rq.client.answers = [101] ∧ c.rq.loads = [str "p"] ∧
        c.task.handle = some .finish_request) = true := by decide +kernel
  constructor
  · obtain ⟨c, hc, ha, hl, hh⟩ := Runs.ends_in hform
    exact ⟨c, ha, hl, hh, answered_once (sampleKeeps_run (sampleConn_accepted ..) hc)⟩
  · obtain ⟨c, hc, ha, hl, hh⟩ := Runs.ends_in hsocket
    exact ⟨c, ha, hl, hh, answered_once (sampleKeeps_run (sampleConn_accepted ..) hc)⟩

/-- A form without a description: the request is answered and the plugin runs all the same. -/
theorem answered_twice : ¬ ∀ (cnf : Config) (c : Conn), Conn.Reachable cnf c → AnsweredOnce c := by
  intro hall
  have hrun : ((Runs.runAll (Conn.step (sampleConfig (some (str "p")) [])) (List.replicate 5 (sampleSys []))
      (sampleConn (some (str "p")) [] (str "POST /p HTTP/1.1\r\n\r\n"))).any fun c =>
        c.rq.client.answers = [400] ∧ c.task.handle = some (.plugin (str "p") 0)) = true := by decide +kernel
  obtain ⟨c, hc, ha, hh⟩ := Runs.ends_in hrun
  have hlast := (hall _ c (sampleConn_reachable hc)).last 400 (by rw [ha]; exact List.mem_singleton_self 400) (by decide)
  rw [hh] at hlast
  cases hlast

end AntHttp
