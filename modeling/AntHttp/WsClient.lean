import AntHttp.Requests
import AntHttp.Sample
import AntHttp.Sha1
import AntHttp.Transfers
/-!
# The client of an upgrade (`ws_open_handshake` in `lib/ws.c`)

The client sends a request with a key that never changes, and looks through the
lines of the answer for the one that goes with it. The status is not looked at.
-/

set_option linter.style.nameCheck false

namespace AntHttp

open CString

def MAX_BUFF : Nat := 1024

/-- `CLIENT_RQ`, printed. -/
def CLIENT_RQ (resource host : Bytes) : Bytes :=
  str "GET /" ++ resource ++ str " HTTP/1.1\r\nHost: " ++ host ++ str "\r\nUpgrade: websocket\r\nConnection: Upgrade\r\n" ++
    str "Sec-WebSocket-Key: dGhlIHNhbXBsZSBub25jZQ==\r\nSec-WebSocket-Version: 13\r\n\r\n"

def SERVER_WS_KEY : Bytes := str "s3pPLMBiTxaQ9kYGzzhZRbK+xOo="

/-- Whether the key of a line is the one expected, if the line has one. -/
def acceptLine (buf : Bytes) : Res (Option Bool) :=
  let p := strsep (some (cstr buf)) 58
  if strcaseeq (trim (p.1.getD []) 32) (str "Sec-WebSocket-Accept") then do
    let token ← deref (strsep p.2 58).1
    return some (strcaseeq (trim (trim (trim token 32) 10) 13) SERVER_WS_KEY)
  else return none

/-- The loop over the lines of the answer. -/
def verifyLoop (client : Client) (done : Bool) : Res (Int × Client) :=
  match _h : read_buf client MAX_BUFF with
  | ([], client') => .ok (if done then 0 else -1, client')
  | (c :: line, client') =>
    if cstr (c :: line) = [13, 10] then .ok (if done then 0 else -1, client')
    else do
      match ← acceptLine (c :: line) with
      | none => verifyLoop client' done
      | some true => verifyLoop client' true
      | some false => return (-1, client')
termination_by client.input.length
decreasing_by
  all_goals
    have hle := read_buf_le client MAX_BUFF
    simp only [_h, List.length_cons] at hle
    omega

/-- The request is printed into `buf[MAX_BUFF]`. -/
def ws_open_handshake (client : Client) (resource host : Bytes) : Res (Int × Client) :=
  let buf := CLIENT_RQ resource host
  if MAX_BUFF ≤ buf.length then .error .bounds
  else
    let (size, client) := antd_send client buf
    if size ≠ buf.length then .ok (-1, client) else verifyLoop client false

/-! ## The lines of an answer -/

/-- What the loop makes of lines: nothing if one has another key. -/
def verifyLines (done : Bool) : List Bytes → Res (Option Bool)
  | [] => .ok (some done)
  | l :: ls => do
    match ← acceptLine l with
    | none => verifyLines done ls
    | some true => verifyLines true ls
    | some false => return none

/-- A line that the buffer has room for, and that is not the empty one. -/
structure AnswerLine (l : Bytes) : Prop where
  line : 10 ∉ l
  fits : l.length + 1 < MAX_BUFF
  ne_end : cstr (l ++ [10]) ≠ [13, 10]

/-- How the loop ends on an answer with `more` behind it. -/
inductive Verified (c : Client) (more : Bytes) : Option Bool → Res (Int × Client) → Prop
  | refused {c'} : c.Receives c' → Verified c more none (.ok (-1, c'))
  | ended {c' done} : c.Receives c' → c'.Has more → Verified c more (some done) (.ok (if done then 0 else -1, c'))

section

variable {c c' : Client} {l line more : Bytes} {ls : List Bytes} {done : Bool} {v : Option Bool}

theorem verifyLoop_eq (hr : read_buf c MAX_BUFF = (l, c')) (hne : l ≠ []) : verifyLoop c done =
    if cstr l = [13, 10] then .ok (if done then 0 else -1, c')
    else acceptLine l >>= fun
      | none => verifyLoop c' done
      | some true => verifyLoop c' true
      | some false => return (-1, c') := by
  obtain ⟨b, l, rfl⟩ := List.exists_cons_of_ne_nil hne
  rw [verifyLoop, hr]

theorem verifyLoop_lines (hls : ∀ l ∈ ls, AnswerLine l) (hv : verifyLines done (ls.map (· ++ [10])) = .ok v)
    (h : c.Has (ls.flatMap (· ++ [10]) ++ ([13, 10] ++ more))) : Verified c more v (verifyLoop c done) := by
  induction ls generalizing c done with
  | nil =>
    cases hv
    have hfit : [(13 : UInt8)].length + 1 < MAX_BUFF := by decide
    obtain ⟨c', hr, hrec, hmore⟩ := Client.Has.line (l := [13]) h (by decide) hfit
    rw [verifyLoop_eq hr (by decide), if_pos (by decide)]
    exact .ended hrec hmore
  | cons l ls ih =>
    obtain ⟨⟨h10, hfit, hne⟩, hls⟩ := List.forall_mem_cons.1 hls
    have hin : c.Has (l ++ 10 :: (ls.flatMap (· ++ [10]) ++ ([13, 10] ++ more))) := by
      rw [List.flatMap_cons, List.append_assoc, List.append_assoc] at h
      exact h
    obtain ⟨c₁, hr, hrec, hmore⟩ := hin.line h10 hfit
    have hnil : l ++ [10] ≠ [] := List.append_ne_nil_of_right_ne_nil l (List.cons_ne_nil 10 [])
    have hnext {done' : Bool} (hv : verifyLines done' (ls.map (· ++ [10])) = .ok v) :
        Verified c more v (verifyLoop c₁ done') := by
      have hrest := ih hls hv hmore
      generalize verifyLoop c₁ done' = r at hrest ⊢
      cases hrest with
      | refused hrec' => exact .refused (hrec.trans hrec')
      | ended hrec' hmore' => exact .ended (hrec.trans hrec') hmore'
    rw [verifyLoop_eq hr hnil, if_neg hne]
    rw [List.map_cons, verifyLines] at hv
    obtain ⟨a, ha, hv⟩ := Res.bind_ok.1 hv
    rw [ha, Res.ok_bind]
    cases a with
    | none => exact hnext hv
    | some right =>
      cases right with
      | true => exact hnext hv
      | false =>
        cases hv
        exact .refused hrec

end

/-! ## The fields of an answer -/

namespace HeaderField

/-- The field that the client looks at. -/
def accepts (f : HeaderField) : Bool := strcaseeq (trim f.name 32) (str "Sec-WebSocket-Accept")

/-- What it takes for the key: a blank behind the value counts, unless a second colon ends it. -/
def token (f : HeaderField) : Bytes :=
  if 58 ∈ f.value then trim (f.value.takeWhile (· ≠ 58)) 32 else f.value.dropWhile (· = 32)

def keyed (f : HeaderField) : Bool := strcaseeq f.token SERVER_WS_KEY

/-- A field with a blank before its value. -/
def of (name value : Bytes) (h : name ≠ [] ∧ (∀ c ∈ name, c ≠ 58 ∧ c ≠ 13 ∧ c ≠ 10) ∧ ∀ c ∈ value, c ≠ 13 ∧ c ≠ 10) :
    HeaderField where
  name := name
  value := 32 :: value
  name_ne := h.1
  name_text := h.2.1
  value_text c hc := by
    rcases List.mem_cons.1 hc with rfl | hc
    · decide
    · exact h.2.2 c hc

end HeaderField

/-- What a server answers. -/
structure Answer where
  status : Bytes
  fields : List HeaderField

def Answer.bytes (a : Answer) : Bytes := a.status ++ 10 :: headerBlock a.fields

/-- A status line and fields, each of which the buffer has room for. -/
structure Answer.Readable (a : Answer) : Prop where
  status : str "HTTP/" <+: a.status
  line : 10 ∉ a.status
  fits : a.status.length + 1 < MAX_BUFF
  fields : ∀ f ∈ a.fields, f.line.length < MAX_BUFF ∧ 0 ∉ f.line

/-- The key is there, and no other one. -/
def Answer.Accepts (a : Answer) : Prop := (∃ f ∈ a.fields, f.accepts) ∧ ∀ f ∈ a.fields, f.accepts → f.keyed

section

variable {a : Answer} {f : HeaderField} {fs : List HeaderField} {s : Bytes} {d x : UInt8} {done : Bool}

theorem trim_head (h : s.head? = some x) (hx : x ≠ d) : (trim s d).head? = some x := by
  obtain ⟨t, rfl⟩ : ∃ t, s = x :: t := ⟨s.tail, (List.cons_head?_tail h).symm⟩
  have hne : List.rdropWhile (fun c => decide (c = d)) (x :: t) ≠ [] := fun hnil => by
    have hall := List.rdropWhile_eq_nil_iff.1 hnil x List.mem_cons_self
    exact hx (of_decide_eq_true hall)
  obtain ⟨y, u, hu⟩ := List.exists_cons_of_ne_nil hne
  have hpre := List.rdropWhile_prefix (fun c => decide (c = d)) (x :: t)
  rw [hu] at hpre
  obtain rfl : y = x := (List.cons_prefix_cons.1 hpre).1
  rw [trim, hu, List.dropWhile_cons_of_neg (by simpa using hx)]
  rfl

/-- The end of the line is cut off, and the blanks in front. -/
theorem trim_value_crlf (h : ∀ c ∈ s, c ≠ 13 ∧ c ≠ 10) : trim (trim (trim (s ++ [13, 10]) 32) 10) 13 = s.dropWhile (· = 32) := by
  have hsub : ∀ c ∈ s.dropWhile (· = 32), c ≠ 13 ∧ c ≠ 10 := fun c hc => h c ((List.dropWhile_sublist _).mem hc)
  have h32 : trim (s ++ [13, 10]) 32 = s.dropWhile (· = 32) ++ [13, 10] := by
    have hassoc : s ++ [13, 10] = (s ++ [13]) ++ [10] := by simp
    rw [trim, hassoc, List.rdropWhile_concat_neg _ _ _ (by decide), List.append_assoc, List.dropWhile_append]
    split
    · rename_i hnil
      rw [List.isEmpty_iff.1 hnil]
      rfl
    · rfl
  have h10 : (10 : UInt8) ∉ s.dropWhile (· = 32) ++ [13] := by
    rw [List.mem_append]
    exact not_or.2 ⟨fun hc => (hsub _ hc).2 rfl, by decide⟩
  have h13 : (13 : UInt8) ∉ s.dropWhile (· = 32) := fun hc => (hsub _ hc).1 rfl
  rw [h32, List.append_cons, trim_concat, trim_eq_self h10, trim_concat, trim_eq_self h13]

theorem acceptLine_field (h0 : 0 ∉ f.line) : acceptLine f.line = .ok (if f.accepts then some f.keyed else none) := by
  have hsep : strsep (some (cstr f.line)) 58 = (some f.name, some (f.value ++ [13, 10])) := by
    have hassoc : f.line = f.name ++ 58 :: (f.value ++ [13, 10]) := by simp [HeaderField.line, HeaderField.text]
    rw [cstr_eq_self h0, hassoc, strsep_append fun hc => (f.name_text _ hc).1 rfl]
  have htoken : ∃ token, (strsep (some (f.value ++ [13, 10])) 58).1 = some token ∧
      trim (trim (trim token 32) 10) 13 = f.token := by
    by_cases h : 58 ∈ f.value
    · refine ⟨f.value.takeWhile (· ≠ 58), ?_, ?_⟩
      · have hne : (f.value.takeWhile (· ≠ 58)).length ≠ f.value.length := fun hlen => by
          have hall := List.takeWhile_eq_self_iff.1 ((List.takeWhile_prefix _).eq_of_length hlen)
          exact absurd (hall 58 h) (by decide)
        simp only [strsep, Option.some.injEq]
        rw [List.takeWhile_append, if_neg hne]
      · have hsub : ∀ c ∈ trim (f.value.takeWhile (· ≠ 58)) 32, c ≠ 13 ∧ c ≠ 10 := fun c hc =>
          f.value_text c ((List.takeWhile_prefix _).subset (trim_subset _ _ hc))
        rw [trim_eq_self fun hc => (hsub 10 hc).2 rfl, trim_eq_self fun hc => (hsub 13 hc).1 rfl, HeaderField.token, if_pos h]
    · refine ⟨f.value ++ [13, 10], ?_, ?_⟩
      · have h58 : 58 ∉ f.value ++ [13, 10] := by
          rw [List.mem_append]
          exact not_or.2 ⟨h, by decide⟩
        rw [strsep_eq_self h58]
      · rw [trim_value_crlf f.value_text, HeaderField.token, if_neg h]
  obtain ⟨token, ht, htrim⟩ := htoken
  unfold acceptLine
  rw [hsep]
  simp only [Option.getD_some, ht, deref_some, Res.ok_bind, htrim]
  change (if f.accepts = true then Except.ok (some f.keyed) else Except.ok none) = _
  cases f.accepts <;> rfl

theorem verifyLines_fields (hf : ∀ f ∈ fs, 0 ∉ f.line) : verifyLines done (fs.map HeaderField.line) =
    .ok (if ∀ f ∈ fs, f.accepts → f.keyed then some (done || fs.any HeaderField.accepts) else none) := by
  induction fs generalizing done with
  | nil => simp [verifyLines]
  | cons f fs ih =>
    obtain ⟨h0, hf⟩ := List.forall_mem_cons.1 hf
    rw [List.map_cons, verifyLines, acceptLine_field h0, Res.ok_bind]
    cases hacc : f.accepts with
    | false => simp [ih hf, hacc]
    | true =>
      cases hkey : f.keyed with
      | true => simp [ih hf, hacc, hkey]
      | false => simp [hacc, hkey]; rfl

theorem acceptLine_status (h : str "HTTP/" <+: s) : acceptLine s = .ok none := by
  obtain ⟨t, rfl⟩ := h
  have hsep : (strsep (some (cstr (str "HTTP/" ++ t))) 58).1.getD [] = 72 :: (cstr (str "HTTP/" ++ t)).tail.takeWhile (· ≠ 58) := rfl
  obtain ⟨u, hu⟩ : ∃ u, trim ((strsep (some (cstr (str "HTTP/" ++ t))) 58).1.getD []) 32 = 72 :: u := by
    have hhead := trim_head (d := 32) (congrArg List.head? hsep) (by decide)
    exact ⟨_, (List.cons_head?_tail hhead).symm⟩
  have hno : strcaseeq (72 :: u) (str "Sec-WebSocket-Accept") = false := by
    apply decide_eq_false
    intro h
    exact absurd (List.cons.inj h).1 (by decide)
  simp only [acceptLine, hu, hno]
  rfl

end

/-- What the client does with the answer to its request: it takes it exactly if the right key is there and no other
one, whatever the status, and leaves what is behind it. -/
theorem ws_open_handshake_answer {c : Client} {resource host more : Bytes} {a : Answer}
    (hroom : (CLIENT_RQ resource host).length < MAX_BUFF)
    (hsent : (antd_send c (CLIENT_RQ resource host)).1 = (CLIENT_RQ resource host).length) (ha : a.Readable)
    (hin : (antd_send c (CLIENT_RQ resource host)).2.Has (a.bytes ++ more)) :
    ∃ ret c', ws_open_handshake c resource host = .ok (ret, c') ∧ c'.wire = c.wire ++ CLIENT_RQ resource host ∧
      (ret = 0 ∨ ret = -1) ∧ (ret = 0 ↔ a.Accepts) ∧ (ret = 0 → c'.Has more) := by
  have hlines : ∀ l ∈ a.status :: a.fields.map fun f => f.text ++ [13], AnswerLine l := by
    intro l hl
    rcases List.mem_cons.1 hl with rfl | hl
    · refine ⟨ha.line, ha.fits, ?_⟩
      obtain ⟨t, ht⟩ := ha.status
      have hhead : (cstr (str "HTTP/" ++ t ++ [10])).head? = some 72 := rfl
      rw [← ht]
      intro h
      rw [h] at hhead
      cases hhead
    · obtain ⟨f, hf, rfl⟩ := List.mem_map.1 hl
      obtain ⟨hfit, -⟩ := ha.fields f hf
      have hline : f.line = (f.text ++ [13]) ++ [10] := by simp [HeaderField.line]
      refine ⟨?_, ?_, ?_⟩
      · rw [List.mem_append]
        exact not_or.2 ⟨HeaderField.not_mem_text (.inr rfl), by decide⟩
      · rwa [hline, List.length_append, List.length_singleton] at hfit
      · rw [← hline]
        exact HeaderField.cstr_text_ne f [13, 10]
  have hmap : (a.status :: a.fields.map fun f => f.text ++ [13]).map (· ++ [10]) =
      (a.status ++ [10]) :: a.fields.map HeaderField.line := by
    rw [List.map_cons, List.map_map]
    congr 1
    apply List.map_congr_left
    intro f _
    simp [HeaderField.line]
  have hflat : (a.status :: a.fields.map fun f => f.text ++ [13]).flatMap (· ++ [10]) ++ ([13, 10] ++ more) = a.bytes ++ more := by
    rw [List.flatMap_def, hmap, Answer.bytes, headerBlock, List.flatMap_def]
    simp
  have hstatus : acceptLine (a.status ++ [10]) = .ok none := acceptLine_status (ha.status.trans (List.prefix_append _ _))
  have hv : verifyLines false ((a.status :: a.fields.map fun f => f.text ++ [13]).map (· ++ [10])) =
      .ok (if ∀ f ∈ a.fields, f.accepts → f.keyed then some (a.fields.any HeaderField.accepts) else none) := by
    rw [hmap, verifyLines, hstatus, Res.ok_bind]
    exact verifyLines_fields fun f hf => (ha.fields f hf).2
  have hloop := verifyLoop_lines hlines hv (hflat.symm ▸ hin)
  have hopen : ws_open_handshake c resource host = verifyLoop (antd_send c (CLIENT_RQ resource host)).2 false := by
    unfold ws_open_handshake
    dsimp only
    rw [if_neg (by omega), if_neg (not_not_intro hsent)]
  have hwire := antd_send_all hsent
  rw [hopen]
  generalize verifyLoop (antd_send c (CLIENT_RQ resource host)).2 false = r at hloop ⊢
  split at hloop
  · rename_i hall
    cases hloop with
    | @ended c' _ hrec hmore =>
      obtain ⟨t, rest, rfl⟩ := hrec
      refine ⟨_, _, rfl, hwire, ?_, ?_, fun _ => hmore⟩
      · split
        · exact .inl rfl
        · exact .inr rfl
      · rw [Answer.Accepts, and_iff_left hall, ← List.any_eq_true]
        cases a.fields.any HeaderField.accepts <;> simp
  · rename_i hall
    cases hloop with
    | refused hrec =>
      obtain ⟨t, rest, rfl⟩ := hrec
      refine ⟨-1, _, rfl, hwire, .inr rfl, ?_, fun h => by cases h⟩
      exact ⟨fun h => absurd h (by decide), fun h => absurd h.2 hall⟩

/-- The handshake succeeds exactly on an answer with the right key and no other one, and then leaves what is behind
the answer. -/
theorem ws_open_handshake_iff {c : Client} {resource host more : Bytes} {a : Answer}
    (hroom : (CLIENT_RQ resource host).length < MAX_BUFF)
    (hsent : (antd_send c (CLIENT_RQ resource host)).1 = (CLIENT_RQ resource host).length) (ha : a.Readable)
    (hin : (antd_send c (CLIENT_RQ resource host)).2.Has (a.bytes ++ more)) :
    ((∃ c', ws_open_handshake c resource host = .ok (0, c') ∧ c'.wire = c.wire ++ CLIENT_RQ resource host ∧ c'.Has more) ↔
      a.Accepts) ∧ (¬ a.Accepts → ∃ c', ws_open_handshake c resource host = .ok (-1, c')) := by
  obtain ⟨ret, c', heq, hwire, hret, hiff, hmore⟩ := ws_open_handshake_answer hroom hsent ha hin
  rw [heq]
  constructor
  · constructor
    · rintro ⟨c₁, h, -⟩
      cases h
      exact hiff.1 rfl
    · intro h
      obtain rfl := hiff.2 h
      exact ⟨c', rfl, hwire, hmore rfl⟩
  · intro h
    rcases hret with rfl | rfl
    · exact absurd (hiff.1 rfl) h
    · exact ⟨c', rfl⟩

/-- A connection on which the bytes arrive, and that takes one block. -/
def askingClient (bs : Bytes) : Client := ⟨4, false, .ACCEPT, 0, .CNONE, atOnce bs, [.room 1023 0], [], []⟩

theorem askingClient_has (bs : Bytes) (data : Bytes) : (antd_send (askingClient bs) data).2.Has bs := by
  obtain ⟨t, h⟩ := arrives_bytes (antd_send (askingClient bs) data).2.last_io 0 bs []
  rw [List.append_nil] at h
  exact ⟨t, [], h⟩

/-- A refusal that has the key. -/
def keyedRefusal : Answer :=
  ⟨str "HTTP/1.1 404 Not Found\r", [.of (str "sec-websocket-accept") SERVER_WS_KEY (by decide +kernel)]⟩

/-- The status does not matter. -/
theorem ws_open_handshake_iff_refusal : ∃ c',
    ws_open_handshake (askingClient (keyedRefusal.bytes ++ [0x81])) (str "chat") (str "localhost") = .ok (0, c') ∧
      c'.wire = CLIENT_RQ (str "chat") (str "localhost") ∧ c'.Has [0x81] := by
  have hall : ∀ f ∈ keyedRefusal.fields, f.line.length < MAX_BUFF ∧ 0 ∉ f.line := by decide +kernel
  have hread : keyedRefusal.Readable := ⟨⟨_, rfl⟩, by decide, by decide, hall⟩
  have hsome : ∃ f ∈ keyedRefusal.fields, f.accepts := by decide +kernel
  have hkey : ∀ f ∈ keyedRefusal.fields, f.accepts → f.keyed := by decide +kernel
  exact (ws_open_handshake_iff (by decide +kernel) (by decide +kernel) hread (askingClient_has _ _)).1.2 ⟨hsome, hkey⟩

end AntHttp
