import AntHttp.Fragments
import AntHttp.Lib.Runs
import AntHttp.Relaying
import Mathlib
/-!
# Two ends that exchange frames

Each end of a WebSocket sends messages and reads frames when it likes. What one
end writes is appended to what the other has still to read. A ping and a close
are answered by the call that reads their header.
-/

set_option linter.style.nameCheck false

namespace AntHttp

/-! ## The calls of an application -/

def ws_send_text (rand : UInt32) (client : Client) (data : Bytes) (mask : UInt8) : Int × Client :=
  ws_send_frame rand client data ⟨1, WS_TEXT, UInt32.ofNat data.length, mask, fun _ => 0⟩

def ws_send_binary (rand : UInt32) (client : Client) (data : Bytes) (mask : UInt8) : Int × Client :=
  ws_send_frame rand client data ⟨1, WS_BIN, UInt32.ofNat data.length, mask, fun _ => 0⟩

def ws_ping (rand : UInt32) (client : Client) (echo : Bytes) (mask : UInt8) : Int × Client :=
  ws_send_frame rand client echo ⟨1, WS_PING, UInt32.ofNat echo.length, mask, fun _ => 0⟩

inductive AppCall where
  | text (data : Bytes)
  | binary (data : Bytes)
  | ping (echo : Bytes)
  | close (status : UInt32)

/-- A frame as its sender sees it. -/
structure Msg where
  opcode : UInt8
  data : Bytes
  deriving DecidableEq

def AppCall.run (rand : UInt32) (client : Client) (mask : UInt8) : AppCall → Int × Client
  | text data => ws_send_text rand client data mask
  | binary data => ws_send_binary rand client data mask
  | ping echo => ws_ping rand client echo mask
  | close status => ws_send_close rand client status mask

def AppCall.msg : AppCall → Msg
  | text data => ⟨WS_TEXT, data⟩
  | binary data => ⟨WS_BIN, data⟩
  | ping echo => ⟨WS_PING, echo⟩
  | close status => ⟨WS_CLOSE, [(status >>> 8).toUInt8, (status &&& 0xFF).toUInt8]⟩

/-! ## The two ends -/

/-- One end: its connection, whether it masks its frames, what its application has sent and has been handed, and
whether it has been told to close. -/
structure Peer where
  client : Client
  mask : UInt8
  sent : List Msg
  got : List Msg
  closed : Bool

abbrev Session := Bool → Peer

inductive PeerOp where
  | call (c : AppCall)
  | read

/-- What one end does. Its socket takes `room` blocks, and what is written arrives at the time `now`. -/
structure Act where
  side : Bool
  op : PeerOp
  rand : UInt32
  stale : Stale
  now : Int
  room : Nat

def Peer.ready (p : Peer) (a : Act) : Client := { p.client with output := List.replicate a.room (.room 1023 a.now) }

/-- What this end has written reaches the other. -/
def Session.deliver (s : Session) (side : Bool) (me : Peer) (now : Int) : Session := fun b =>
  if b = side then me
  else
    let written := me.client.wire.drop (s side).client.wire.length
    { s b with client.input := (s b).client.input ++ written.map (.byte · false now) }

/-- One call, unless it fails or there is nothing to read. -/
def Session.step (a : Act) (s : Session) : Option Session :=
  let me := s a.side
  match a.op with
  | .call c =>
    let (ret, client) := c.run a.rand (me.ready a) me.mask
    if ret = 0 then some (s.deliver a.side { me with client, sent := me.sent ++ [c.msg] } a.now) else none
  | .read =>
    if me.closed then none
    else
      match ws_read_header a.rand a.stale (me.ready a) with
      | (none, _) => none
      | (some header, client) =>
        if header.opcode = WS_CLOSE then
          some (s.deliver a.side { me with client, got := me.got ++ [⟨WS_CLOSE, []⟩], closed := true } a.now)
        else
          let (_, data, _, client) := ws_read_data client header (-1)
          some (s.deliver a.side { me with client, got := me.got ++ [⟨header.opcode, data⟩] } a.now)

/-- A message has a length that fits an `int`, and the socket has room for an answer to all that can be read. -/
def Session.Ok (a : Act) (s : Session) : Prop :=
  match a.op with
  | .call c => c.msg.data.length < 2 ^ 31
  | .read => (s a.side).client.input.length + 16 ≤ a.room

instance (a : Act) (s : Session) : Decidable (s.Ok a) :=
  match h : a.op with
  | .call c => decidable_of_iff (c.msg.data.length < 2 ^ 31) (by rw [Session.Ok, h])
  | .read => decidable_of_iff ((s a.side).client.input.length + 16 ≤ a.room) (by rw [Session.Ok, h])

/-- Two ends that have nothing to read yet. -/
def Session.Start (s : Session) : Prop :=
  ∀ b, (s b).client.input = [] ∧ (s b).mask ≤ 1 ∧ (s b).sent = [] ∧ (s b).got = [] ∧ (s b).closed = false

/-! ## Sending with room -/

section

variable {c : Client} {data : Bytes} {parts : List Bytes} {m : Nat} {now : Int} {rand : UInt32} {header : WsHeader}

theorem sendLoop_roomy (t : Int) (h : data.length ≤ m) : ∃ t' m', m ≤ m' + data.length ∧
    sendLoop t data (List.replicate m (.room 1023 now)) = ⟨data, 0, t', List.replicate m' (.room 1023 now)⟩ := by
  induction m generalizing t data with
  | zero =>
    obtain rfl := List.length_eq_zero_iff.1 (Nat.le_zero.1 h)
    exact ⟨t, 0, Nat.zero_le _, rfl⟩
  | succ m ih =>
    cases data with
    | nil => exact ⟨t, m + 1, Nat.le_refl _, rfl⟩
    | cons b data =>
      obtain ⟨k, hk⟩ : ∃ k, min (1023 + 1) (min (b :: data).length BUFFLEN) = k + 1 := by
        rw [List.length_cons]
        exact ⟨min 1023 (min data.length (BUFFLEN - 1)), by rw [BUFFLEN]; omega⟩
      have hlen : ((b :: data).drop (k + 1)).length ≤ m := by
        rw [List.length_drop]
        omega
      obtain ⟨t', m', hm, hloop⟩ := ih now hlen
      refine ⟨t', m', ?_, ?_⟩
      · rw [List.length_drop] at hm
        have hle : k + 1 ≤ (b :: data).length := by omega
        omega
      · rw [List.replicate_succ, sendLoop]
        simp only [hk, hloop, List.take_append_drop]

theorem antd_send_roomy (hout : c.output = List.replicate m (.room 1023 now)) (h : data.length ≤ m) :
    (antd_send c data).1 = data.length ∧
      ∃ m', m ≤ m' + data.length ∧ (antd_send c data).2.output = List.replicate m' (.room 1023 now) := by
  obtain ⟨t', m', hm, hloop⟩ := sendLoop_roomy c.last_io h
  unfold antd_send
  rw [hout, hloop]
  refine ⟨?_, m', hm, rfl⟩
  dsimp only
  split
  · rename_i hnil
    rw [hnil]
    rfl
  · rfl

theorem sendParts_roomy (hout : c.output = List.replicate m (.room 1023 now)) (h : parts.flatten.length ≤ m) :
    (sendParts c parts).1 = true ∧
      ∃ m', m ≤ m' + parts.flatten.length ∧ (sendParts c parts).2.output = List.replicate m' (.room 1023 now) := by
  induction parts generalizing c m with
  | nil => exact ⟨rfl, m, Nat.le_refl _, hout⟩
  | cons part parts ih =>
    rw [List.flatten_cons, List.length_append] at h ⊢
    obtain ⟨hsent, m₁, hm₁, hout₁⟩ := antd_send_roomy hout (Nat.le_trans (Nat.le_add_right _ _) h)
    obtain ⟨hall, m', hm', hout'⟩ := ih hout₁ (by omega)
    rw [sendParts]
    simp only [hsent, if_true]
    exact ⟨hall, m', by omega, hout'⟩

theorem frameHeader_length_le (header : WsHeader) : (frameHeader header).flatten.length ≤ 14 := by
  unfold frameHeader
  dsimp only
  split_ifs <;> simp

/-- A frame that the socket has room for is sent. -/
theorem ws_send_frame_roomy (hout : c.output = List.replicate m (.room 1023 now)) (hlen : data.length = header.plen.toNat)
    (h31 : data.length < 2 ^ 31) (hm : data.length + 14 ≤ m) : (ws_send_frame rand c data header).1 = 0 := by
  obtain ⟨-, hplen, -⟩ := header.sent_fields rand
  have hl : (header.sent rand).len = data.length := by rw [len_eq (hplen ▸ hlen ▸ h31), hplen, hlen]
  have hle := frameHeader_length_le (header.sent rand)
  have hroom : (frameHeader (header.sent rand)).flatten.length ≤ m := by omega
  obtain ⟨hall, m', hm', hout'⟩ := sendParts_roomy hout hroom
  have hhead : (_send_header c (header.sent rand)).1 = 0 := by
    unfold _send_header
    dsimp only
    rw [hall]
    rfl
  have hpad : (padAt (header.sent rand).pad 0 data).length ≤ m' := by
    rw [padAt_length]
    omega
  obtain ⟨hsent, -⟩ := antd_send_roomy (c := (_send_header c (header.sent rand)).2) hout' hpad
  unfold ws_send_frame
  dsimp only
  rw [if_neg (not_not_intro hhead), padAt_xor, hl, Int.toNat_natCast, List.take_of_length_le (by simp), hsent, padAt_length,
    if_neg (not_not_intro rfl)]

/-! ## Frames on their way -/

/-- A frame with this message. -/
structure Carries (f : Frame) (m : Msg) : Prop where
  rsv : f.rsv = 0
  opcode : (f.opcode : Nat) = m.opcode.toNat
  length : f.length.value = m.data.length
  short : m.data.length < 2 ^ 31

/-- The bytes are frames with these messages. -/
inductive Flying : List Msg → Bytes → Prop
  | nil : Flying [] []
  | cons {f m ms bs} : Carries f m → Flying ms bs → Flying (m :: ms) (f.onWire m.data ++ bs)

theorem Flying.snoc {ms : List Msg} {bs : Bytes} {f : Frame} {m' : Msg} (h : Flying ms bs) (hf : Carries f m') :
    Flying (ms ++ [m']) (bs ++ f.onWire m'.data) := by
  induction h with
  | nil =>
    have hone := Flying.cons hf .nil
    rwa [List.append_nil] at hone
  | cons hg _ ih =>
    rw [List.append_assoc]
    exact .cons hg ih

/-- A call that succeeds puts a frame with the message on the wire, and reads nothing. -/
theorem ws_send_frame_carries {op mask : UInt8} {key : Fin 4 → UInt8} (hop : op < 16) (hmask : mask ≤ 1)
    (h31 : data.length < 2 ^ 31) (hs : (ws_send_frame rand c data ⟨1, op, UInt32.ofNat data.length, mask, key⟩).1 = 0) :
    ∃ f, Carries f ⟨op, data⟩ ∧
      (ws_send_frame rand c data ⟨1, op, UInt32.ofNat data.length, mask, key⟩).2.wire = c.wire ++ f.onWire data ∧
      (ws_send_frame rand c data ⟨1, op, UInt32.ofNat data.length, mask, key⟩).2.input = c.input := by
  have hv : (⟨1, op, UInt32.ofNat data.length, mask, key⟩ : WsHeader).Valid := ⟨Nat.le_refl 1, hmask, hop⟩
  have hlen : (UInt32.ofNat data.length).toNat = data.length := by
    rw [UInt32.toNat_ofNat', Nat.mod_eq_of_lt (by omega)]
  obtain ⟨hopcode, hplen, -⟩ := (⟨1, op, UInt32.ofNat data.length, mask, key⟩ : WsHeader).sent_fields rand
  refine ⟨_, ⟨rfl, ?_, ?_, h31⟩, ws_send_frame_onWire hv hlen.symm (hlen.symm ▸ h31) hs, ws_send_frame_input ..⟩
  · rw [WsHeader.frame, hopcode]
    exact Nat.mod_eq_of_lt (UInt8.lt_iff_toNat_lt.1 hop)
  · rw [WsHeader.frame, WsHeader.length_value, hplen, hlen]

theorem AppCall.run_eq (call : AppCall) (rand : UInt32) (c : Client) (mask : UInt8) : call.run rand c mask =
    ws_send_frame rand c call.msg.data ⟨1, call.msg.opcode, UInt32.ofNat call.msg.data.length, mask, fun _ => 0⟩ := by
  cases call <;> rfl

theorem AppCall.opcode_lt (call : AppCall) : call.msg.opcode < 16 := by
  have hall : ∀ op ∈ [WS_TEXT, WS_BIN, WS_PING, WS_CLOSE], op < 16 := by decide +kernel
  cases call <;> exact hall _ (by simp [AppCall.msg])

end

/-! ## Reading a frame -/

/-- What the reader of a frame is handed: the payload of a ping goes back, and that of a close is not read. -/
def Msg.seen (m : Msg) : Msg := if m.opcode = WS_PING ∨ m.opcode = WS_CLOSE then ⟨m.opcode, []⟩ else m

/-- The frame that the call sends that reads the header: a pong with the payload, or a close with the status 1000. -/
def Msg.reply (m : Msg) : Option Msg :=
  if m.opcode = WS_PING then some ⟨WS_PONG, m.data⟩ else if m.opcode = WS_CLOSE then some ⟨WS_CLOSE, [3, 232]⟩ else none

/-- Only bytes. -/
def Delivered (evs : List RecvEv) : Prop := ∀ e ∈ evs, ∃ b last now, e = .byte b last now

section

variable {c c' : Client} {evs rest : List RecvEv} {t t' : Int} {bs : Bytes} {f : Frame} {m : Msg} {ms : List Msg}
  {rand : UInt32} {stale : Stale} {room : Nat} {now : Int}

theorem Delivered.arrives (h : Delivered evs) (t : Int) : ∃ t', Arrives t (bytesOf evs) evs t' [] := by
  induction evs generalizing t with
  | nil => exact ⟨t, .nil⟩
  | cons e evs ih =>
    obtain ⟨⟨b, last, now, rfl⟩, hevs⟩ := List.forall_mem_cons.1 h
    obtain ⟨t', h'⟩ := ih hevs now
    exact ⟨t', .byte h'⟩

theorem Delivered.bytesOf_length (h : Delivered evs) : (bytesOf evs).length = evs.length := by
  induction evs with
  | nil => rfl
  | cons e evs ih =>
    obtain ⟨⟨b, last, now, rfl⟩, hevs⟩ := List.forall_mem_cons.1 h
    rw [bytesOf, List.length_cons, List.length_cons, ih hevs]

/-- What is left is the end of what was there. -/
theorem Arrives.suffix (h : Arrives t bs evs t' rest) : rest <:+ evs := by
  induction h with
  | nil => exact List.suffix_refl _
  | byte _ ih | again _ _ ih => exact ih.trans (List.suffix_cons _ _)

/-- A header without a byte of it. -/
theorem ws_read_header_nil (rand : UInt32) (stale : Stale) (h : c.input = []) : (ws_read_header rand stale c).1 = none := by
  unfold ws_read_header recvArray antd_recv
  rw [h]
  rfl

/-- What a reader does with the frame that comes next: it is handed what there is to see of it, and answers it. -/
structure ReadsMsg (c c' : Client) (m : Msg) (bs : Bytes) (got : Msg) : Prop where
  got : got = m.seen
  left : m.opcode ≠ WS_CLOSE → bytesOf c'.input = bs
  delivered : Delivered c'.input
  silent : m.reply = none → c'.wire = c.wire
  answers : ∀ r ∈ m.reply, ∃ g, Carries g r ∧ c'.wire = c.wire ++ g.onWire r.data

theorem Delivered.suffix (h : Delivered evs) (hs : rest <:+ evs) : Delivered rest := fun e he => h e (hs.subset he)

/-- The next frame arrives, and the frames behind it stay. -/
theorem Delivered.frame (hd : Delivered c.input) (hb : bytesOf c.input = f.onWire m.data ++ bs) : ∃ t₂ evs₂,
    Arrives c.last_io (f.onWire m.data) c.input t₂ evs₂ ∧ bytesOf evs₂ = bs ∧ Delivered evs₂ := by
  obtain ⟨t', ha⟩ := hd.arrives c.last_io
  rw [hb] at ha
  obtain ⟨t₂, evs₂, h₁, h₂⟩ := ha.split
  have hbs := h₂.bytesOf
  rw [bytesOf, List.append_nil] at hbs
  exact ⟨t₂, evs₂, h₁, hbs, hd.suffix h₁.suffix⟩

theorem ws_read_data_opcode (c : Client) (header : WsHeader) (len : Int) :
    (ws_read_data c header len).2.2.1.opcode = header.opcode := by
  unfold ws_read_data
  by_cases h0 : header.plen = 0
  · rw [if_pos h0]
  · rw [if_neg h0]
    dsimp only
    generalize antd_recv c _ = r
    split <;> rfl

theorem answerControl_opcode (rand : UInt32) (stale : Stale) (c : Client) (header : WsHeader) :
    (answerControl rand stale c header).1.opcode = header.opcode := by
  have h := ws_read_data_opcode c header header.len
  unfold answerControl ws_pong
  dsimp only
  split
  · rfl
  · split
    · split <;> exact h
    · rfl

theorem ReadsMsg.of_reply {got r : Msg} (hgot : got = m.seen) (hreply : m.reply = some r)
    (hleft : m.opcode ≠ WS_CLOSE → bytesOf c'.input = bs) (hd : Delivered c'.input)
    (hg : ∃ g, Carries g r ∧ c'.wire = c.wire ++ g.onWire r.data) : ReadsMsg c c' m bs got where
  got := hgot
  left := hleft
  delivered := hd
  silent hnone := by
    rw [hreply] at hnone
    cases hnone
  answers r' hr' := by
    rw [hreply] at hr'
    cases hr'
    exact hg

/-- A close is answered by a close with the status 1000. -/
theorem ws_send_close_answers (rand : UInt32) {mask : UInt8} (hmask : mask ≤ 1)
    (hout : c.output = List.replicate room (.room 1023 now)) (hroom : 16 ≤ room) :
    ∃ g, Carries g ⟨WS_CLOSE, [3, 232]⟩ ∧ (ws_send_close rand c 1000 mask).2.wire = c.wire ++ g.onWire [3, 232] ∧
      (ws_send_close rand c 1000 mask).2.input = c.input := by
  have hlen : ([3, 232] : Bytes).length = (2 : UInt32).toNat := rfl
  have h31 : ([3, 232] : Bytes).length < 2 ^ 31 := by
    rw [hlen]
    decide
  have hsent : (ws_send_frame rand c [3, 232] ⟨1, WS_CLOSE, 2, mask, fun _ => 0⟩).1 = 0 :=
    ws_send_frame_roomy hout hlen h31 hroom
  exact ws_send_frame_carries (by decide) hmask h31 hsent

/-- The frame that comes next is read, and answered if it has to be. -/
theorem reads_msg (rand : UInt32) (stale : Stale) (hf : Carries f m) (hd : Delivered c.input)
    (hb : bytesOf c.input = f.onWire m.data ++ bs) (hout : c.output = List.replicate room (.room 1023 now))
    (hroom : c.input.length + 16 ≤ room) : ∃ header c₁, ws_read_header rand stale c = (some header, c₁) ∧
      header.opcode = m.opcode ∧ (m.opcode = WS_CLOSE → ReadsMsg c c₁ m bs ⟨WS_CLOSE, []⟩) ∧
      (m.opcode ≠ WS_CLOSE → ∃ ret data header' c', ws_read_data c₁ header (-1) = (ret, data, header', c') ∧
        ReadsMsg c c' m bs ⟨header.opcode, data⟩) := by
  obtain ⟨t₂, evs₂, ha, hbs, hd₂⟩ := hd.frame hb
  obtain ⟨t₁, evs₁, h₁, h₂⟩ := ha.split
  obtain ⟨header, hdec, hread⟩ := ws_read_header_decodes rand stale hf.rsv h₁
  have h31 := hf.short
  have hlong : m.data.length + 14 ≤ room := by
    have hlen := hd.bytesOf_length
    rw [hb, Frame.onWire, List.length_append, List.length_append, padAt_length] at hlen
    omega
  rw [hf.length, Nat.mod_eq_of_lt (by omega)] at hdec
  have hop : header.opcode = m.opcode := UInt8.toNat_inj.1 (hdec.opcode.trans hf.opcode)
  have hne : WS_PING ≠ WS_CLOSE := by decide
  by_cases hclose : m.opcode = WS_CLOSE
  · have hmask : (if header.mask ≠ 0 then (0 : UInt8) else 1) ≤ 1 := by split <;> decide
    obtain ⟨g, hg, hwire, hinput⟩ := ws_send_close_answers (c := { c with last_io := t₁, input := evs₁ }) rand hmask hout
      (by omega)
    refine ⟨_, _, hread, (answerControl_opcode ..).trans hop, fun _ => ?_, fun hno => absurd hclose hno⟩
    unfold answerControl
    dsimp only
    rw [if_pos (hop.trans hclose)]
    apply ReadsMsg.of_reply (r := ⟨WS_CLOSE, [3, 232]⟩)
    · rw [Msg.seen, if_pos (.inr hclose), hclose]
    · rw [Msg.reply, if_neg fun h => hne (h.symm.trans hclose), if_pos hclose]
    · exact fun hno => absurd hclose hno
    · rw [hinput]
      exact hd.suffix h₁.suffix
    · exact ⟨g, hg, hwire⟩
  · refine ⟨_, _, hread, (answerControl_opcode ..).trans hop, fun h => absurd h hclose, fun _ => ?_⟩
    by_cases hping : m.opcode = WS_PING
    · obtain ⟨header', hplen, hpong⟩ := ws_pong_echoes (c := { c with last_io := t₁, input := evs₁ }) rand stale.buf hdec h31 h₂
      have hcontrol : answerControl rand stale { c with last_io := t₁, input := evs₁ } header = (header',
          (ws_send_frame rand { c with last_io := t₂, input := evs₂ } m.data (f.pong m.data.length)).2) := by
        unfold answerControl
        rw [if_neg fun h => hclose (hop.symm.trans h), if_pos (hop.trans hping)]
        exact hpong
      have hlen : m.data.length = (f.pong m.data.length).plen.toNat := by
        rw [Frame.pong, UInt32.toNat_ofNat', Nat.mod_eq_of_lt (by omega)]
      have hsent : (ws_send_frame rand { c with last_io := t₂, input := evs₂ } m.data (f.pong m.data.length)).1 = 0 :=
        ws_send_frame_roomy hout hlen h31 hlong
      obtain ⟨g, hg, hwire, hinput⟩ := ws_send_frame_carries (by decide) (f.pong_valid m.data.length).mask h31 hsent
      rw [hcontrol]
      have hdata : ws_read_data (ws_send_frame rand { c with last_io := t₂, input := evs₂ } m.data (f.pong m.data.length)).2
          header' (-1) = (0, [], header',
            (ws_send_frame rand { c with last_io := t₂, input := evs₂ } m.data (f.pong m.data.length)).2) := by
        unfold ws_read_data
        rw [if_pos hplen]
      have hop' : header'.opcode = WS_PING := by
        have heq := answerControl_opcode rand stale { c with last_io := t₁, input := evs₁ } header
        rw [hcontrol] at heq
        exact heq.trans (hop.trans hping)
      refine ⟨_, _, _, _, hdata, ReadsMsg.of_reply (r := ⟨WS_PONG, m.data⟩) ?_ ?_ ?_ ?_ ⟨g, hg, hwire⟩⟩
      · rw [Msg.seen, if_pos (.inl hping), hop', hping]
      · rw [Msg.reply, if_pos hping]
      · intro _
        exact (congrArg bytesOf hinput).trans hbs
      · exact hinput.symm ▸ hd₂
    · rw [answerControl_data rand stale _ (fun h => hclose (hop.symm.trans h)) (fun h => hping (hop.symm.trans h))]
      rw [← hdec.pad] at h₂
      have hall : asked m.data.length (-1) = m.data.length := by simp [asked]
      obtain ⟨header', hdata, -⟩ := ws_read_data_all (c := { c with last_io := t₁, input := evs₁ }) hdec.plen h31 h₂ hall
      refine ⟨_, _, _, _, hdata, ?_, fun _ => hbs, hd₂, fun _ => rfl, ?_⟩
      · rw [Msg.seen, if_neg (not_or.2 ⟨hping, hclose⟩), hop]
      · rw [Msg.reply, if_neg hping, if_neg hclose]
        intro r hr
        cases hr

end

/-! ## What is sent, on its way and read -/

/-- What one end has put on the wire, each message marked if it is an automatic answer, and how many of these the other
end has read. -/
structure Direction (sender receiver : Peer) (log : List (Bool × Msg)) (n : Nat) : Prop where
  le : n ≤ log.length
  delivered : Delivered receiver.client.input
  flying : receiver.closed = false → Flying ((log.drop n).map (·.2)) (bytesOf receiver.client.input)
  got : receiver.got = (log.take n).map (·.2.seen)
  sent : sender.sent = (log.filter (!·.1)).map (·.2)

/-- Both directions, where the automatic answers are those to the frames that were read, in their order. -/
structure Session.Inv (s : Session) (log : Bool → List (Bool × Msg)) (n : Bool → Nat) : Prop where
  mask : ∀ b, (s b).mask ≤ 1
  calls : ∀ b, ∀ m ∈ (s b).sent, ∃ c : AppCall, m = c.msg
  direction : ∀ b, Direction (s b) (s !b) (log b) (n b)
  answers : ∀ b, ((log b).filter (·.1)).map (·.2) = ((log !b).take (n !b)).filterMap (·.2.reply)

section

variable {s s' : Session} {a : Act} {log : Bool → List (Bool × Msg)} {n : Bool → Nat} {sender receiver me other : Peer}
  {l l' : List (Bool × Msg)} {k : Nat} {ms : List Msg}

theorem deliver_self (s : Session) (side : Bool) (me : Peer) (now : Int) : s.deliver side me now side = me := if_pos rfl

/-- What is appended to the wire is appended to what the other end has to read. -/
theorem deliver_other (s : Session) (side : Bool) {me : Peer} (now : Int) {bs : Bytes}
    (hw : me.client.wire = (s side).client.wire ++ bs) : s.deliver side me now (!side) =
      { s !side with client.input := (s !side).client.input ++ bs.map (.byte · false now) } := by
  have hne : ¬ (!side) = side := by cases side <;> decide
  unfold Session.deliver
  dsimp only
  rw [if_neg hne, hw, List.drop_left]

theorem bytesOf_bytes (bs : Bytes) (now : Int) : bytesOf (bs.map (.byte · false now)) = bs := by
  induction bs with
  | nil => rfl
  | cons b bs ih => rw [List.map_cons, bytesOf, ih]

theorem delivered_append {evs : List RecvEv} (h : Delivered evs) (bs : Bytes) (now : Int) :
    Delivered (evs ++ bs.map (.byte · false now)) := by
  intro e he
  rcases List.mem_append.1 he with he | he
  · exact h e he
  · obtain ⟨b, -, rfl⟩ := List.mem_map.1 he
    exact ⟨b, false, now, rfl⟩

/-- A frame more is on its way. -/
theorem Direction.more (h : Direction sender receiver l k) {auto : Bool} {m : Msg} {g : Frame} (hg : Carries g m) (now : Int)
    (hsent : me.sent = sender.sent ++ if auto then [] else [m]) : Direction me
      { receiver with client.input := receiver.client.input ++ (g.onWire m.data).map (.byte · false now) } (l ++ [(auto, m)]) k where
  le := by
    rw [List.length_append]
    exact Nat.le_add_right_of_le h.le
  delivered := delivered_append h.delivered _ now
  flying hc := by
    rw [List.drop_append_of_le_length h.le, List.map_append, bytesOf_append, bytesOf_bytes]
    exact (h.flying hc).snoc hg
  got := by
    rw [List.take_append_of_le_length h.le]
    exact h.got
  sent := by
    rw [hsent, h.sent, List.filter_append]
    cases auto <;> simp

/-- Nothing is sent, and the sender has been handed something. -/
theorem Direction.same (h : Direction sender receiver l k) (hsent : me.sent = sender.sent) : Direction me receiver l k :=
  ⟨h.le, h.delivered, h.flying, h.got, hsent.trans h.sent⟩

/-- The next frame is read. -/
theorem Direction.read (h : Direction sender receiver l k) {e : Bool × Msg} {es : List (Bool × Msg)} (hl : l.drop k = e :: es)
    {bs : Bytes} {got : Msg} (hr : ReadsMsg receiver.client me.client e.2 bs got) (hbs : Flying (es.map (·.2)) bs)
    (hgot : me.got = receiver.got ++ [got]) (hclosed : me.closed = false → e.2.opcode ≠ WS_CLOSE) :
    Direction sender me l (k + 1) := by
  have hk : l[k]? = some e := by rw [← List.head?_drop, hl]; rfl
  have hlt : k < l.length := (List.getElem?_eq_some_iff.1 hk).1
  have hdrop : l.drop (k + 1) = es := by rw [← List.tail_drop, hl]; rfl
  refine ⟨hlt, hr.delivered, fun hc => ?_, ?_, h.sent⟩
  · rw [hdrop, hr.left (hclosed hc)]
    exact hbs
  · rw [hgot, h.got, hr.got, List.take_add_one, hk, List.map_append]
    rfl

theorem both_sides {P : Bool → Prop} {b : Bool} (h : P b) (h' : P (!b)) : ∀ side, P side := by
  intro side
  cases b <;> cases side <;> assumption

theorem not_side (b : Bool) : (!b) ≠ b := by cases b <;> decide

/-- One end has sent `new` and read up to `k`, and the other is as it was. -/
theorem Session.Inv.deliver (h : s.Inv log n) {b : Bool} {now : Int} (bs : Bytes) (new : List (Bool × Msg))
    (hmask : me.mask = (s b).mask) (hcalls : ∀ m ∈ me.sent, ∃ c : AppCall, m = c.msg)
    (hwire : me.client.wire = (s b).client.wire ++ bs)
    (hsends : Direction me { s !b with client.input := (s !b).client.input ++ bs.map (.byte · false now) } (log b ++ new) (n b))
    (hreads : Direction (s !b) me (log !b) k)
    (hanswers : ((log b ++ new).filter (·.1)).map (·.2) = ((log !b).take k).filterMap (·.2.reply)) :
    (s.deliver b me now).Inv (Function.update log b (log b ++ new)) (Function.update n (!b) k) := by
  have hself := deliver_self s b me now
  have hother := deliver_other s b now hwire
  have hne := not_side b
  refine ⟨both_sides (b := b) ?_ ?_, both_sides (b := b) ?_ ?_, both_sides (b := b) ?_ ?_, both_sides (b := b) ?_ ?_⟩
  · rw [hself, hmask]
    exact h.mask b
  · rw [hother]
    exact h.mask !b
  · rwa [hself]
  · rw [hother]
    exact h.calls !b
  · rw [hself, hother, Function.update_self, Function.update_of_ne hne.symm]
    exact hsends
  · rw [Bool.not_not, hself, hother, Function.update_self, Function.update_of_ne hne]
    exact ⟨hreads.le, hreads.delivered, hreads.flying, hreads.got, hreads.sent⟩
  · rw [Function.update_self, Function.update_self, Function.update_of_ne hne]
    exact hanswers
  · rw [Bool.not_not, Function.update_of_ne hne, Function.update_self, Function.update_of_ne hne.symm,
      List.take_append_of_le_length (h.direction b).le]
    have hsame := h.answers !b
    rwa [Bool.not_not] at hsame

/-- A call that succeeds puts its message on the wire. -/
theorem Session.Inv.call (h : s.Inv log n) {c : AppCall} (hop : a.op = .call c) (hok : s.Ok a) (hs : s.step a = some s') :
    ∃ log' n', s'.Inv log' n' := by
  rw [Session.Ok, hop] at hok
  rw [Session.step, hop] at hs
  dsimp only at hs
  split at hs
  · rename_i hret
    cases hs
    rw [c.run_eq] at hret ⊢
    obtain ⟨g, hg, hwire, hinput⟩ := ws_send_frame_carries c.opcode_lt (h.mask a.side) hok hret
    refine ⟨_, _, h.deliver (k := n !a.side) (g.onWire c.msg.data) [(false, c.msg)] rfl ?_ hwire ?_ ?_ ?_⟩
    · intro m hm
      rcases List.mem_append.1 hm with hm | hm
      · exact h.calls a.side m hm
      · exact ⟨c, List.mem_singleton.1 hm⟩
    · exact (h.direction a.side).more hg a.now rfl
    · have hd := h.direction !a.side
      rw [Bool.not_not] at hd
      have hin : (ws_send_frame a.rand ((s a.side).ready a) c.msg.data
          ⟨1, c.msg.opcode, UInt32.ofNat c.msg.data.length, (s a.side).mask, fun _ => 0⟩).2.input = (s a.side).client.input := hinput
      exact ⟨hd.le, hin ▸ hd.delivered, fun hc => hin ▸ hd.flying hc, hd.got, hd.sent⟩
    · rw [List.filter_append, List.filter_cons_of_neg Bool.false_ne_true, List.filter_nil, List.append_nil]
      exact h.answers a.side
  · cases hs

theorem ReadsMsg.ready {c : Client} {m got : Msg} {bs : Bytes} (h : ReadsMsg (me.ready a) c m bs got) :
    ReadsMsg me.client c m bs got := ⟨h.got, h.left, h.delivered, h.silent, h.answers⟩

/-- What an end that has read a frame leaves. -/
theorem Session.Inv.handed (h : s.Inv log n) {b : Bool} {e : Bool × Msg} {es : List (Bool × Msg)} {bs : Bytes} {got : Msg}
    {now : Int} (hl : (log !b).drop (n !b) = e :: es) (hbs : Flying (es.map (·.2)) bs)
    (hr : ReadsMsg (s b).client me.client e.2 bs got) (hmask : me.mask = (s b).mask) (hsent : me.sent = (s b).sent)
    (hgot : me.got = (s b).got ++ [got]) (hclosed : me.closed = false → e.2.opcode ≠ WS_CLOSE) :
    ∃ log' n', (s.deliver b me now).Inv log' n' := by
  have hd := h.direction !b
  rw [Bool.not_not] at hd
  have hreads := hd.read hl hr hbs hgot hclosed
  have hk : (log !b)[n !b]? = some e := by rw [← List.head?_drop, hl]; rfl
  have hcalls : ∀ m ∈ me.sent, ∃ c : AppCall, m = c.msg := by
    rw [hsent]
    exact h.calls b
  have hnext : ((log !b).take ((n !b) + 1)).filterMap (·.2.reply) =
      ((log !b).take (n !b)).filterMap (·.2.reply) ++ e.2.reply.toList := by
    rw [List.take_add_one, hk, List.filterMap_append]
    cases hrep : e.2.reply <;> simp [hrep]
  cases hrep : e.2.reply with
  | none =>
    refine ⟨_, _, h.deliver [] [] hmask hcalls ?_ ?_ hreads ?_⟩
    · rw [List.append_nil]
      exact hr.silent hrep
    · rw [List.append_nil]
      have hsame := (h.direction b).same hsent
      rw [List.map_nil]
      exact ⟨hsame.le, by simpa using hsame.delivered, fun hc => by simpa using hsame.flying hc, hsame.got, hsame.sent⟩
    · rw [List.append_nil, hnext, hrep, Option.toList_none, List.append_nil]
      exact h.answers b
  | some r =>
    obtain ⟨g, hg, hwire⟩ := hr.answers r hrep
    refine ⟨_, _, h.deliver (g.onWire r.data) [(true, r)] hmask hcalls hwire ?_ hreads ?_⟩
    · exact (h.direction b).more hg now (by simp [hsent])
    · rw [hnext, hrep, List.filter_append, List.map_append, h.answers b]
      rfl

/-- A read takes the frame that comes next. -/
theorem Session.Inv.read (h : s.Inv log n) (hop : a.op = .read) (hok : s.Ok a) (hs : s.step a = some s') :
    ∃ log' n', s'.Inv log' n' := by
  rw [Session.Ok, hop] at hok
  rw [Session.step, hop] at hs
  dsimp only at hs
  have hd := h.direction !a.side
  rw [Bool.not_not] at hd
  cases hclosed : (s a.side).closed with
  | true =>
    rw [hclosed] at hs
    cases hs
  | false =>
    rw [hclosed, if_neg Bool.false_ne_true] at hs
    have hfly := hd.flying hclosed
    cases hl : (log !a.side).drop (n !a.side) with
    | nil =>
      -- nothing is on its way
      rw [hl, List.map_nil] at hfly
      have hnil : ((s a.side).ready a).input = [] := by
        have hlen := hd.delivered.bytesOf_length
        generalize bytesOf (s a.side).client.input = bs at hfly hlen
        cases hfly
        exact List.length_eq_zero_iff.1 hlen.symm
      have hnone := ws_read_header_nil a.rand a.stale hnil
      split at hs
      · cases hs
      · rename_i hread
        rw [hread] at hnone
        cases hnone
    | cons e es =>
      rw [hl, List.map_cons] at hfly
      generalize hb : bytesOf (s a.side).client.input = bytes at hfly
      cases hfly with
      | @cons f _ _ bs hf hbs =>
        obtain ⟨header, c₁, hread, hopcode, hclose, hdata⟩ := reads_msg (c := (s a.side).ready a) a.rand a.stale hf hd.delivered
          hb rfl hok
        rw [hread] at hs
        dsimp only at hs
        by_cases hc : header.opcode = WS_CLOSE
        · rw [if_pos hc] at hs
          cases hs
          exact h.handed hl hbs (hclose (hopcode.symm.trans hc)).ready rfl rfl rfl nofun
        · rw [if_neg hc] at hs
          have hne : e.2.opcode ≠ WS_CLOSE := fun he => hc (hopcode.trans he)
          obtain ⟨ret, data, header', c', hd', hr⟩ := hdata hne
          rw [hd'] at hs
          cases hs
          exact h.handed hl hbs hr.ready rfl rfl rfl fun _ => hne

theorem Session.Inv.step (h : s.Inv log n) (hok : s.Ok a) (hs : s.step a = some s') : ∃ log' n', s'.Inv log' n' := by
  cases hop : a.op with
  | call c => exact h.call hop hok hs
  | read => exact h.read hop hok hs

theorem Session.Start.inv (h : s.Start) : s.Inv (fun _ => []) (fun _ => 0) where
  mask b := (h b).2.1
  calls b m hm := by
    rw [(h b).2.2.1] at hm
    cases hm
  direction b := by
    obtain ⟨hin, -, -, hgot, -⟩ := h !b
    refine ⟨Nat.le_refl _, ?_, fun _ => ?_, hgot, (h b).2.2.1⟩
    · rw [hin]
      exact nofun
    · rw [hin]
      exact .nil
  answers _ := rfl

/-- In every state that is reached, whatever the two ends do in whatever order. -/
theorem session_inv (h : Runs.Run Session.step (fun a s => s.Ok a) Session.Start s) : ∃ log n, s.Inv log n :=
  h.inv (fun s => ∃ log n, s.Inv log n) (fun _ hs => ⟨_, _, hs.inv⟩) fun _ _ _ ⟨_, _, hi⟩ hok hs => hi.step hok hs

end

/-! ## Messages are read in order, and pings are answered -/

/-- The text and binary messages. -/
def dataOf (ms : List Msg) : List Msg := ms.filter fun m => m.opcode = WS_TEXT ∨ m.opcode = WS_BIN

/-- The payloads of the frames with this opcode. -/
def payloads (op : UInt8) (ms : List Msg) : List Bytes := (ms.filter (·.opcode = op)).map (·.data)

section

variable {s : Session} {log : Bool → List (Bool × Msg)} {n : Bool → Nat} {l : List (Bool × Msg)} {ms : List Msg} {m : Msg}
  {b : Bool}

theorem Flying.nil_of (h : Flying ms []) : ms = [] := by
  generalize hbs : ([] : Bytes) = bs at h
  cases h with
  | nil => rfl
  | @cons f m ms bs _ _ =>
    have hlen := congrArg List.length hbs
    rw [Frame.onWire, f.bytes_eq] at hlen
    simp at hlen

theorem Msg.reply_opcode {r : Msg} (h : m.reply = some r) : r.opcode = WS_PONG ∨ r.opcode = WS_CLOSE := by
  unfold Msg.reply at h
  split at h
  · cases h
    exact .inl rfl
  · split at h
    · cases h
      exact .inr rfl
    · cases h

/-- An automatic answer is a pong or a close. -/
theorem Session.Inv.automatic (h : s.Inv log n) {e : Bool × Msg} (he : e ∈ log b) (hauto : e.1 = true) :
    e.2.opcode = WS_PONG ∨ e.2.opcode = WS_CLOSE := by
  have hmem : e.2 ∈ ((log b).filter (·.1)).map (·.2) := List.mem_map_of_mem (List.mem_filter.2 ⟨he, hauto⟩)
  rw [h.answers b] at hmem
  obtain ⟨e', -, hr⟩ := List.mem_filterMap.1 hmem
  exact Msg.reply_opcode hr

/-- An application sends no pong. -/
theorem Session.Inv.called (h : s.Inv log n) {e : Bool × Msg} (he : e ∈ log b) (hcall : e.1 = false) : e.2.opcode ≠ WS_PONG := by
  have hmem : e.2 ∈ (s b).sent := by
    rw [(h.direction b).sent]
    exact List.mem_map_of_mem (List.mem_filter.2 ⟨he, by rw [hcall]; rfl⟩)
  obtain ⟨c, hc⟩ := h.calls b _ hmem
  have hne : ∀ op ∈ [WS_TEXT, WS_BIN, WS_PING, WS_CLOSE], op ≠ WS_PONG := by decide +kernel
  rw [hc]
  cases c <;> exact hne _ (by simp [AppCall.msg])

/-- Entries that a filter drops do not count. -/
theorem filter_log {p : Msg → Bool} {q : Bool × Msg → Bool} (h : ∀ e ∈ l, q e = false → p e.2 = false) :
    (l.map (·.2)).filter p = ((l.filter q).map (·.2)).filter p := by
  induction l with
  | nil => rfl
  | cons e l ih =>
    obtain ⟨he, hl⟩ := List.forall_mem_cons.1 h
    rw [List.map_cons]
    cases hq : q e with
    | true => rw [List.filter_cons_of_pos hq, List.map_cons, List.filter_cons, List.filter_cons, ih hl]
    | false =>
      have hp : ¬ p e.2 = true := by rw [he hq]; exact Bool.false_ne_true
      have hq' : ¬ q e = true := by rw [hq]; exact Bool.false_ne_true
      rw [List.filter_cons_of_neg hp, List.filter_cons_of_neg hq', ih hl]

/-- What there is to see of a message that is no control frame. -/
theorem filter_seen {p : Msg → Bool} (h : ∀ m, m.opcode = WS_PING ∨ m.opcode = WS_CLOSE → p m = false) :
    (l.map (·.2.seen)).filter p = (l.map (·.2)).filter p := by
  induction l with
  | nil => rfl
  | cons e l ih =>
    rw [List.map_cons, List.map_cons, List.filter_cons, List.filter_cons, ih, Msg.seen]
    split
    · rename_i hc
      rw [h e.2 hc, h ⟨e.2.opcode, []⟩ hc, if_neg Bool.false_ne_true, if_neg Bool.false_ne_true]
    · rfl

theorem data_control (m : Msg) (h : m.opcode = WS_PING ∨ m.opcode = WS_CLOSE ∨ m.opcode = WS_PONG) :
    decide (m.opcode = WS_TEXT ∨ m.opcode = WS_BIN) = false := by
  have hno : ∀ op ∈ [WS_PING, WS_CLOSE, WS_PONG], decide (op = WS_TEXT ∨ op = WS_BIN) = false := by decide +kernel
  rcases h with h | h | h <;> rw [h] <;> exact hno _ (by simp)

/-- What the application has sent, in what is on the wire. -/
theorem Session.Inv.data_sent (h : s.Inv log n) (b : Bool) : dataOf (s b).sent = dataOf ((log b).map (·.2)) := by
  rw [(h.direction b).sent, dataOf, dataOf]
  refine (filter_log fun e he hq => ?_).symm
  rcases h.automatic he (by simpa using hq) with hop | hop
  · exact data_control _ (.inr (.inr hop))
  · exact data_control _ (.inr (.inl hop))

theorem Session.Inv.data_got (h : s.Inv log n) (b : Bool) : dataOf (s !b).got = dataOf (((log b).take (n b)).map (·.2)) := by
  rw [(h.direction b).got]
  exact filter_seen fun m hm => data_control m (hm.imp id .inl)

theorem Session.Inv.arrived (h : s.Inv log n) (hin : (s !b).client.input = []) (hc : (s !b).closed = false) :
    (log b).take (n b) = log b := by
  have hfly := (h.direction b).flying hc
  rw [hin] at hfly
  have hnil := List.map_eq_nil_iff.1 hfly.nil_of
  exact List.take_of_length_le (List.drop_eq_nil_iff.1 hnil)

theorem payloads_cons (op : UInt8) (m : Msg) (ms : List Msg) :
    payloads op (m :: ms) = if m.opcode = op then m.data :: payloads op ms else payloads op ms := by
  unfold payloads
  rw [List.filter_cons]
  by_cases hop : m.opcode = op <;> simp [hop]

/-- A pong goes back for each ping, with the payload of the ping. -/
theorem payloads_reply (ms : List Msg) : payloads WS_PONG (ms.filterMap Msg.reply) = payloads WS_PING ms := by
  have hclose : WS_CLOSE ≠ WS_PONG := by decide +kernel
  induction ms with
  | nil => rfl
  | cons m ms ih =>
    rw [List.filterMap_cons, Msg.reply, payloads_cons]
    by_cases hping : m.opcode = WS_PING
    · rw [if_pos hping, if_pos hping, payloads_cons, if_pos rfl, ih]
    · rw [if_neg hping, if_neg hping]
      split_ifs
      · rw [payloads_cons, if_neg hclose, ih]
      · exact ih

theorem not_pong {m : Msg} (h : m.opcode = WS_PING ∨ m.opcode = WS_CLOSE) : decide (m.opcode = WS_PONG) = false := by
  have hno : ∀ op ∈ [WS_PING, WS_CLOSE], decide (op = WS_PONG) = false := by decide +kernel
  rcases h with h | h <;> rw [h] <;> exact hno _ (by simp)

/-- The pongs that one end has been handed are the answers that the other has sent by itself. -/
theorem Session.Inv.pongs_got (h : s.Inv log n) (b : Bool) : payloads WS_PONG (s !b).got =
    payloads WS_PONG ((((log b).take (n b)).filter (·.1)).map (·.2)) := by
  rw [(h.direction b).got, payloads, payloads, filter_seen fun _ hm => not_pong hm, filter_log fun e he hq => ?_]
  exact decide_eq_false (h.called (List.mem_of_mem_take he) hq)

/-- The pings that an application has sent, in what is on the wire. -/
theorem Session.Inv.pings_sent (h : s.Inv log n) (b : Bool) : payloads WS_PING (s b).sent =
    payloads WS_PING ((log b).map (·.2)) := by
  rw [(h.direction b).sent, payloads, payloads, ← filter_log fun e he hq => ?_]
  have hno : ∀ op ∈ [WS_PONG, WS_CLOSE], decide (op = WS_PING) = false := by decide +kernel
  rcases h.automatic he (by simpa using hq) with hop | hop <;> rw [hop] <;> exact hno _ (by simp)

/-- The pongs that are on the wire answer the pings that have been read. -/
theorem Session.Inv.pongs_sent (h : s.Inv log n) (b : Bool) : payloads WS_PONG (((log b).filter (·.1)).map (·.2)) =
    payloads WS_PING (((log !b).take (n !b)).map (·.2)) := by
  rw [h.answers b, ← payloads_reply, List.filterMap_map]
  rfl

end

/-- Whatever the two ends do in whatever order, the messages that one has been handed are the first of those that the
other has sent, in order, each once and with all of its data; and all of them once nothing is on its way, unless the
reader has been told to close. -/
theorem session_in_order {s : Session} (h : Runs.Run Session.step (fun a s => s.Ok a) Session.Start s) (b : Bool) :
    dataOf (s !b).got <+: dataOf (s b).sent ∧
      ((s !b).client.input = [] → (s !b).closed = false → dataOf (s !b).got = dataOf (s b).sent) := by
  obtain ⟨log, n, hi⟩ := session_inv h
  rw [hi.data_got, hi.data_sent]
  refine ⟨((List.take_prefix _ _).map _).filter _, fun hin hc => ?_⟩
  rw [hi.arrived hin hc]

/-- A browser, which masks its frames, and the server. -/
def talkers : Session := fun b => ⟨⟨4, false, .ACCEPT, 0, .CNONE, [], [], [], []⟩, if b then 1 else 0, [], [], false⟩

theorem talkers_start : talkers.Start := fun b => ⟨rfl, by cases b <;> decide, rfl, rfl, rfl⟩

def Act.plain (side : Bool) (op : PeerOp) : Act := ⟨side, op, 1, ⟨fun _ => 0, fun _ => 0, 0⟩, 0, 64⟩

/-- The browser sends a text and a ping, and the server reads the text. -/
theorem session_in_order_talk : ∃ s : Session, dataOf (s false).got = [⟨WS_TEXT, [104, 105]⟩] ∧
    dataOf (s false).got <+: dataOf (s true).sent := by
  obtain ⟨s, hs⟩ : ∃ s, Runs.runAll (Runs.checked (fun a s => s.Ok a) Session.step)
      [.plain true (.call (.text [104, 105])), .plain true (.call (.ping [1])), .plain false .read] talkers = some s :=
    Option.isSome_iff_exists.1 (by decide +kernel)
  refine ⟨s, ?_, (session_in_order (Runs.run_checked (.init talkers_start) hs) true).1⟩
  have hgot := congrArg (Option.map fun s => dataOf (s false).got) hs
  exact (Option.some.inj (hgot.symm.trans (by decide +kernel)))

/-- The pongs that an end has been handed carry the payloads of the first pings that it has sent, in order and each once;
and of all of them once nothing is on its way, unless one of the two has been told to close. -/
theorem pings_answered {s : Session} (h : Runs.Run Session.step (fun a s => s.Ok a) Session.Start s) (b : Bool) :
    payloads WS_PONG (s b).got <+: payloads WS_PING (s b).sent ∧
      ((∀ side, (s side).client.input = [] ∧ (s side).closed = false) →
        payloads WS_PONG (s b).got = payloads WS_PING (s b).sent) := by
  obtain ⟨log, n, hi⟩ := session_inv h
  have hgot := hi.pongs_got !b
  have hsent := hi.pongs_sent !b
  rw [Bool.not_not] at hgot hsent
  rw [hi.pings_sent, hgot]
  constructor
  · have hpongs : payloads WS_PONG ((((log !b).take (n !b)).filter (·.1)).map (·.2)) <+:
        payloads WS_PONG (((log !b).filter (·.1)).map (·.2)) :=
      ((((List.take_prefix _ _).filter _).map _).filter _).map _
    refine hpongs.trans ?_
    rw [hsent]
    exact (((List.take_prefix _ _).map _).filter _).map _
  · intro hidle
    have hother := hidle b
    rw [← Bool.not_not b] at hother
    rw [hi.arrived hother.1 hother.2, hsent, hi.arrived (hidle !b).1 (hidle !b).2]

/-- The browser sends two pings, the server reads one of them, and the browser reads the pong. -/
theorem pings_answered_talk : ∃ s : Session, payloads WS_PONG (s true).got = [[1]] ∧
    payloads WS_PONG (s true).got <+: payloads WS_PING (s true).sent := by
  obtain ⟨s, hs⟩ : ∃ s, Runs.runAll (Runs.checked (fun a s => s.Ok a) Session.step)
      [.plain true (.call (.ping [1])), .plain true (.call (.ping [2])), .plain false .read, .plain true .read] talkers = some s :=
    Option.isSome_iff_exists.1 (by decide +kernel)
  refine ⟨s, ?_, (pings_answered (Runs.run_checked (.init talkers_start) hs) true).1⟩
  have hgot := congrArg (Option.map fun s => payloads WS_PONG (s true).got) hs
  exact (Option.some.inj (hgot.symm.trans (by decide +kernel)))

end AntHttp
