import AntHttp.Sample
import AntHttp.Steps
/-!
# How much of a body is stored

The length that the header declares is compared with `max_upload_size` once.
`post_data_decode` reads no more than that length. The loop over a file part
looks for the boundary only.
-/

namespace AntHttp

open CString

/-! ## What the body handlers store -/

theorem antd_recv_upto_length (c : Client) (n : Nat) : (antd_recv_upto c n).2.1.length ≤ n := by
  unfold antd_recv_upto
  split
  · exact (recvBytes_le ..).2
  all_goals exact Nat.zero_le n

/-- The buffer has room for what is read into it. -/
theorem postLoop_length (c : Client) (len : Nat) (query : Bytes) (h : query.length ≤ len) :
    (postLoop c len query).1.length ≤ len := by
  have hlen (c : Client) (q : Bytes) := antd_recv_upto_length c (min BUFFLEN (len - q.length))
  fun_induction postLoop c len query with
  | case1 => exact h
  | case2 => exact h
  | case3 => exact h
  | case4 c q hlt stat data c' hr hneg hlate ih =>
    have hd := hlen c q
    rw [hr] at hd
    refine ih ?_
    rw [List.length_append]
    simp only at hd
    omega

/-- The lines up to the boundary. -/
def partLength (boundary : Bytes) (client : Client) : Nat :=
  match _h : read_buf client BUFFLEN with
  | ([], _) => 0
  | (c :: buf, client') =>
    if strstr (cstr (c :: buf)) boundary then 0 else (c :: buf).length + partLength boundary client'
termination_by client.input.length
decreasing_by
  have hle := read_buf_le client BUFFLEN
  simp only [_h, List.length_cons] at hle
  omega

/-- The length of the next part, if it is a file and the temporary file can be opened. -/
def fileLength (sys : Sys) (cnf : Config) (rq : Request) : Nat :=
  match partNames rq with
  | (some _, some part_file) =>
    if sys.openTemp (uploadPath cnf.tmpdir part_file sys.time) then
      partLength (rq.MULTI_PART_BOUNDARY.getD []) (readUntil (strneq · [13, 10] 2) rq.atPart.client).2
    else 0
  | _ => 0

theorem saveLoop_length (boundary : Bytes) (c : Client) (evs : List WriteEv) (data : Bytes) (totalsize : Int) :
    (saveLoop boundary c evs data totalsize).data.length ≤ data.length + partLength boundary c := by
  fun_induction saveLoop boundary c evs data totalsize with
  | case1 => exact Nat.le_add_right ..
  | case2 => exact Nat.le_add_right ..
  | case3 c evs data n b buf c' hr hs m done evs' hg ih =>
    rw [partLength, hr]
    simp only [hs, Bool.false_eq_true, if_false]
    simp only [dite_eq_ite, List.length_append, List.length_take] at ih
    omega

section

variable {sys : Sys} {cnf : Config} {rq rq' : Request} {t : Task}

theorem textPart_stored {boundary part_name : Bytes} {line : Option Bytes}
    (h : textPart rq boundary part_name = .ok (line, rq')) : rq'.stored = rq.stored := by
  obtain ⟨d, -, h⟩ := Res.bind_ok.1 h
  cases h
  rfl

/-- A part adds no more than its lines. -/
theorem decode_multi_part_request_data_stored (h : decode_multi_part_request_data sys cnf rq = .ok (t, rq')) :
    rq'.stored ≤ rq.stored + fileLength sys cnf rq := by
  obtain ⟨rfl | ⟨boundary, line, hb, hp⟩, -⟩ := decode_multi_part_request_data_of h
  · exact Nat.le_add_right ..
  · unfold fileLength
    unfold partData at hp
    split at hp
    · cases hp
      exact Nat.le_add_right ..
    · rename_i part_name part_file hnames
      rw [hnames]
      simp only at hp
      split at hp
      · rw [textPart_stored hp]
        exact Nat.le_add_right ..
      · unfold filePart at hp
        simp only at hp
        split at hp
        · rename_i hopen
          obtain ⟨d, -, hp⟩ := Res.bind_ok.1 hp
          cases hp
          have hlen := saveLoop_length boundary (readUntil (strneq · [13, 10] 2) rq.atPart.client).2 sys.write [] 0
          simp only [hopen, if_true, hb, Option.getD_some]
          rw [List.length_nil, Nat.zero_add] at hlen
          exact Nat.add_le_add_left hlen _
        · cases hp
          exact Nat.le_add_right ..

/-- The length that the header declares; a body is not read without one. -/
def declared (rq : Request) : Int := (rq.REQUEST_HEADER.bind (·.dvalue (str "Content-Length"))).elim (-1) atoi

/-- A form adds no more than the declared length. -/
theorem decode_post_request_stored (h : decode_post_request rq = .ok (t, rq')) :
    rq'.stored ≤ rq.stored + (declared rq).toNat := by
  obtain ⟨headers, hh, h⟩ := Res.bind_ok.1 h
  have hdecl : declared rq = (headers.dvalue (str "Content-Length")).elim (-1) atoi := by
    rw [declared, show rq.REQUEST_HEADER = some headers from deref_ok.1 hh]
    rfl
  -- the body that is read is no longer than declared
  have hpost : ((post_data_decode (rq.set_state .RQ_DATA_DECODE).client (declared rq)).1.getD []).length ≤ (declared rq).toNat := by
    unfold post_data_decode
    simp only
    split
    · exact Nat.zero_le _
    · exact postLoop_length _ _ _ (Nat.zero_le _)
  rw [← hdecl] at h
  simp only at h
  split at h
  · cases h
    exact Nat.le_add_right ..
  · split at h
    · cases h
      exact Nat.le_add_right ..
    · split at h
      · cases h
        exact Nat.le_add_right ..
      · split at h
        · split at h
          · obtain ⟨d, -, h⟩ := Res.bind_ok.1 h
            cases h
            exact Nat.add_le_add_left hpost _
          · split at h
            · cases h
              exact Nat.add_le_add_left hpost _
            · cases h
              exact Nat.add_le_add_left hpost _
        · split at h
          · obtain ⟨headers, -, h⟩ := Res.bind_ok.1 h
            simp only at h
            split at h
            · split at h <;> cases h <;> exact Nat.le_add_right ..
            · cases h
              exact Nat.le_add_right ..
          · obtain ⟨d, -, h⟩ := Res.bind_ok.1 h
            cases h
            exact Nat.le_add_right ..

/-! ## The header between its check and its use -/

theorem check_proxy_header {path query : Bytes} {o : Option Task}
    (h : check_proxy sys.regexec rq path query = .ok (o, rq')) : rq'.REQUEST_HEADER = rq.REQUEST_HEADER := by
  obtain ⟨m, -, h⟩ := Res.bind_ok.1 h
  split at h
  · cases h
    rfl
  · split at h
    · cases h
      rfl
    · obtain ⟨host, -, h⟩ := Res.bind_ok.1 h
      obtain ⟨port, -, h⟩ := Res.bind_ok.1 h
      cases h
      rfl

theorem rewriteRequest_header {pcnf : Option PortConfig} {url : Option Bytes} {s : HeaderScan}
    (h : rewriteRequest sys rq pcnf url s = .ok (t, rq')) : rq'.REQUEST_HEADER = rq.REQUEST_HEADER := by
  obtain ⟨p, -, h⟩ := Res.bind_ok.1 h
  obtain ⟨u, -, h⟩ := Res.bind_ok.1 h
  obtain ⟨w, -, h⟩ := Res.bind_ok.1 h
  obtain ⟨⟨o, rq₁⟩, hp, h⟩ := Res.bind_ok.1 h
  have hh := check_proxy_header hp
  cases o with
  | some task =>
    cases h
    exact hh
  | none =>
    obtain ⟨d, -, h⟩ := Res.bind_ok.1 h
    cases h
    exact hh

/-- The length that is declared fits, or there is none. -/
def Room (cnf : Config) (rq : Request) : Prop := declared rq ≤ cnf.max_upload_size ∨ declared rq = -1

theorem decode_request_header_room (h : decode_request_header sys cnf rq = .ok (t, rq'))
    (ht : t.handle = some .decode_request) : Room cnf rq' := by
  obtain ⟨pcnf, -, h⟩ := Res.bind_ok.1 h
  obtain ⟨⟨e, c, s⟩, -, h⟩ := Res.bind_ok.1 h
  cases e with
  | tooLarge => cases h; cases ht
  | wait => cases h; cases ht
  | complete =>
    obtain ⟨xheader, hx, h⟩ := Res.bind_ok.1 h
    split at h
    · cases h; cases ht
    · rename_i hle
      obtain ⟨z, -, h⟩ := Res.bind_ok.1 h
      have hh : rq'.REQUEST_HEADER = some xheader := (rewriteRequest_header h).trans (deref_ok.1 hx)
      rw [Room, declared, hh, Option.bind_some]
      cases hv : xheader.dvalue (str "Content-Length") with
      | none => exact .inr rfl
      | some line =>
        rw [hv] at hle
        left
        simpa using hle

theorem decode_request_keeps (h : decode_request sys rq = .ok (t, rq')) : rq'.REQUEST_HEADER = rq.REQUEST_HEADER := by
  obtain ⟨headers, -, h⟩ := Res.bind_ok.1 h
  obtain ⟨method, -, h⟩ := Res.bind_ok.1 h
  simp only at h
  split at h
  · obtain ⟨rq₁, hu, h⟩ := Res.bind_ok.1 h
    cases h
    unfold upgrade at hu
    split at hu
    · obtain ⟨c, -, hu⟩ := Res.bind_ok.1 hu
      cases hu
      rfl
    · cases hu
      rfl
  · split at h <;> cases h <;> rfl

theorem execute_plugin_keeps {pname : Bytes} (h : execute_plugin sys cnf rq pname = .ok (t, rq')) :
    rq'.REQUEST_HEADER = rq.REQUEST_HEADER := by
  obtain ⟨p, -, h⟩ := Res.bind_ok.1 h
  obtain ⟨pcnf, -, h⟩ := Res.bind_ok.1 h
  obtain ⟨enabled, -, h⟩ := Res.bind_ok.1 h
  split at h
  · simp only at h
    split at h
    · cases h
      rfl
    · split at h <;> cases h <;> rfl
  · cases h
    rfl

theorem serveResource_keeps {task : Task} {path : Bytes} (h : serveResource sys cnf rq task path = .ok (t, rq')) :
    rq'.REQUEST_HEADER = rq.REQUEST_HEADER := by
  obtain ⟨mime_type, -, h⟩ := Res.bind_ok.1 h
  simp only at h
  split at h
  · split at h
    · exact (execute_plugin_keeps h :)
    · cases h
      rfl
  · cases h
    rfl

theorem resolve_request_keeps (h : resolve_request sys cnf rq = .ok (t, rq')) :
    rq'.REQUEST_HEADER = rq.REQUEST_HEADER := by
  obtain ⟨url, -, h⟩ := Res.bind_ok.1 h
  obtain ⟨root, -, h⟩ := Res.bind_ok.1 h
  simp only at h
  split at h
  · exact (execute_plugin_keeps h :)
  · split at h
    · split at h
      · cases h
      · split at h
        · exact (serveResource_keeps h :)
        · split at h
          · exact (serveResource_keeps h :)
          · cases h
            rfl
    · exact (serveResource_keeps h :)

theorem Room.of_eq (h : Room cnf rq) (he : rq'.REQUEST_HEADER = rq.REQUEST_HEADER) : Room cnf rq' := by
  rw [Room, declared, he]
  exact h

end

/-! ## Every run -/

/-- What is stored before a handler runs; a form or the first part starts from nothing. -/
def WithinLimit (cnf : Config) (rq : Request) : Handler → Prop
  | .accept_request | .decode_request_header => rq.stored = 0
  | .decode_request | .resolve_request | .decode_post_request => rq.stored = 0 ∧ Room cnf rq
  | _ => rq.stored ≤ cnf.max_upload_size

def Conn.Limited (cnf : Config) (c : Conn) : Prop :=
  ∃ h, c.task.handle = some h ∧ Shape h c.task.callback ∧ WithinLimit cnf c.rq h

/-- The next part fits, with what is stored already. -/
def PartFits (cnf : Config) (sys : Sys) (c : Conn) : Prop :=
  c.task.handle = some .decode_multi_part_request_data → (c.rq.stored + fileLength sys cnf c.rq : Nat) ≤ cnf.max_upload_size

section

variable {sys : Sys} {cnf : Config} {rq rq' : Request} {t : Task} {c c' : Conn} {h g : Handler}

theorem WithinLimit.le (hmax : 0 ≤ cnf.max_upload_size) (hw : WithinLimit cnf rq h) : rq.stored ≤ cnf.max_upload_size := by
  cases h with
  | accept_request | decode_request_header =>
    rw [show rq.stored = 0 from hw]
    exact hmax
  | decode_request | resolve_request | decode_post_request =>
    rw [hw.1]
    exact hmax
  | _ => exact hw

theorem WithinLimit.of_callback (hle : rq.stored ≤ cnf.max_upload_size) (hg : g = .finish_request ∨ g.IsPlugin) :
    WithinLimit cnf rq g := by
  rcases hg with rfl | hg
  · exact hle
  · cases g with
    | plugin => exact hle
    | _ => cases hg

/-- A handler of the server stores within the limit, if a part does. -/
theorem server_le (hmax : 0 ≤ cnf.max_upload_size) (hfits : PartFits cnf sys c) (hh : c.task.handle = some h)
    (hw : WithinLimit cnf c.rq h) (hc : callHandler sys cnf c.rq h = .ok (some t, some rq')) (hk : Kept h c.rq rq') :
    rq'.stored ≤ cnf.max_upload_size := by
  rcases hk.stored with (rfl | rfl) | heq
  · obtain ⟨p, hp, hpt⟩ := Res.map_ok.1 hc
    cases hpt
    obtain ⟨hzero, hroom⟩ := hw
    have hst := decode_post_request_stored hp
    rw [hzero] at hst
    rcases hroom with hroom | hnone
    · omega
    · rw [hnone] at hst
      omega
  · obtain ⟨p, hp, hpt⟩ := Res.map_ok.1 hc
    cases hpt
    have hst := decode_multi_part_request_data_stored hp
    have hfit := hfits hh
    omega
  · rw [heq]
    exact hw.le hmax

theorem Kept.stored_eq (hk : Kept h rq rq') (hh : ¬ h.StoresBody) : rq'.stored = rq.stored := hk.stored.resolve_left hh

/-- The handler that runs next finds what it needs. -/
theorem server_next (hle : rq'.stored ≤ cnf.max_upload_size) (hw : WithinLimit cnf rq h)
    (hc : callHandler sys cnf rq h = .ok (some t, some rq')) (hst : Step h rq t rq') (hp : ¬ h.IsPlugin)
    (ht : t.handle = some g) : WithinLimit cnf rq' g := by
  have hkept (hh : ¬ h.StoresBody) := hst.kept.stored_eq hh
  have hflow : Flow h (some g) t.callback := ht ▸ hst.flow
  generalize t.callback = cbs at hflow
  cases hflow with
  | acceptAgain | accepted | headerAgain => exact (hkept (by simp [Handler.StoresBody])).trans hw
  | proxied | file | rawPlugin | connected | relayed | parts | morePart => exact hle
  | decoded =>
    obtain ⟨p, hp, hpt⟩ := Res.map_ok.1 hc
    cases hpt
    exact ⟨(hkept (by simp [Handler.StoresBody])).trans hw, decode_request_header_room hp ht⟩
  | resolve =>
    obtain ⟨p, hp, hpt⟩ := Res.map_ok.1 hc
    cases hpt
    exact ⟨(hkept (by simp [Handler.StoresBody])).trans hw.1, hw.2.of_eq (decode_request_keeps hp)⟩
  | plugin =>
    obtain ⟨p, hp, hpt⟩ := Res.map_ok.1 hc
    cases hpt
    exact ⟨(hkept (by simp [Handler.StoresBody])).trans hw.1, hw.2.of_eq (resolve_request_keeps hp)⟩
  | pluginTask => exact absurd trivial hp

theorem limited_step (hmax : 0 ≤ cnf.max_upload_size) (hi : c.Limited cnf) (hfits : PartFits cnf sys c)
    (hs : Conn.step cnf sys c = some c') : c'.Limited cnf := by
  obtain ⟨h, hh, hshape, hw⟩ := hi
  obtain ⟨g, hg, hsg, hf, hnext⟩ := Conn.step_next hs hh hshape
  refine ⟨g, hg, hsg, ?_⟩
  cases hnext with
  | plugin hp hor _ hstored =>
    apply WithinLimit.of_callback _ hor
    rw [hstored]
    exact hw.le hmax
  | server t hp hc hst _ hor =>
    have hle := server_le hmax hfits hh hw hc hst.kept
    rcases hor with ht | ⟨-, hcb, -⟩
    · exact server_next hle hw hc hst hp ht
    · exact .of_callback hle hcb

/-- In every run in which each file part fits, no more of the body is stored than the limit allows,
unless the limit is negative. -/
theorem stored_le_iff (hr : Runs.Run (Conn.step cnf) (PartFits cnf) (Conn.Accepted cnf) c) :
    c.rq.stored ≤ cnf.max_upload_size ↔ 0 ≤ cnf.max_upload_size := by
  constructor
  · intro h
    omega
  · intro hmax
    have hl : c.Limited cnf := by
      refine hr.inv (Conn.Limited cnf) ?_ fun _ _ _ hi hfits hs => limited_step hmax hi hfits hs
      rintro _ ⟨pcnf, sock, now, input, output, -, rfl⟩
      exact ⟨_, rfl, rfl, rfl⟩
    obtain ⟨h, -, -, hw⟩ := hl
    exact hw.le hmax

end

/-- A client that declares one byte and uploads a file. -/
def sampleForm (data : Bytes) : Conn := sampleConn (some (str "p")) []
  (str "POST /p HTTP/1.1\r\nContent-Length: 1\r\nContent-Type: multipart/form-data; boundary=B\r\n\r\n--B\r\n" ++
    str "Content-Disposition: form-data; name=\"n\"; filename=\"f\"\r\n\r\n" ++ data ++ str "\r\n--B--\r\n")

/-- A file that fits. -/
theorem stored_le_iff_small : ∃ c : Conn, c.rq.stored = 6 ∧ c.rq.stored ≤ (sampleConfig (some (str "p")) []).max_upload_size := by
  let fits (c : Conn) : Bool := c.rq.stored + fileLength (sampleSys []) (sampleConfig (some (str "p")) []) c.rq ≤ 10
  have hrun : ((Runs.runAll (Runs.guarded fits (Conn.step (sampleConfig (some (str "p")) []))) (List.replicate 6 (sampleSys []))
      (sampleForm (str "data"))).any fun c => c.rq.stored = 6) = true := by decide +kernel
  obtain ⟨c, hc, hst⟩ := Runs.ends_in hrun
  have hfits : ∀ sys ∈ List.replicate 6 (sampleSys []), ∀ c, fits c = true →
      PartFits (sampleConfig (some (str "p")) []) sys c := by
    intro sys hsys c hc _
    rw [List.eq_of_mem_replicate hsys]
    have hle := of_decide_eq_true hc
    exact Int.ofNat_le.2 hle
  exact ⟨c, hst, (stored_le_iff (Runs.run_guarded hfits (.init (sampleConn_accepted ..)) hc)).2 (by decide)⟩

/-- The declared length fits, and the file does not. -/
theorem stored_exceeds : ¬ ∀ (cnf : Config) (c : Conn), Conn.Reachable cnf c → c.rq.stored ≤ cnf.max_upload_size := by
  intro hall
  have hrun : ((Runs.runAll (Conn.step (sampleConfig (some (str "p")) [])) (List.replicate 6 (sampleSys []))
      (sampleForm (str "0123456789abcdef"))).any fun c => c.rq.stored = 18) = true := by decide +kernel
  obtain ⟨c, hc, hst⟩ := Runs.ends_in hrun
  have hle := hall _ c (sampleConn_reachable hc)
  rw [hst] at hle
  exact absurd hle (by decide)

end AntHttp
