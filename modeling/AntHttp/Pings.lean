import AntHttp.ShortReads
/-!
# A ping is answered

`ws_read_header` answers a ping itself: `ws_pong` reads its payload with the
header that has just been read, and sends it back in a frame of its own.
-/

set_option linter.style.nameCheck false

namespace AntHttp

/-! ## A frame with its payload -/

namespace Frame

/-- What each byte of the payload is combined with. -/
def pad (f : Frame) (i : Nat) : UInt8 :=
  match f.key with
  | none => 0
  | some key => key (Fin.ofNat 4 i)

/-- The header, then the payload. -/
def onWire (f : Frame) (data : Bytes) : Bytes := f.bytes ++ padAt f.pad 0 data

theorem Decoded.pad {f : Frame} {n : Nat} {header : WsHeader} (h : f.Decoded n header) : header.pad = f.pad := by
  have hm := h.mask
  have hk := h.key
  funext i
  unfold WsHeader.pad Frame.pad WsHeader.key
  cases hf : f.key with
  | none =>
    have h0 : header.mask = 0 := UInt8.toNat_inj.1 (by rw [hm, hf]; rfl)
    simp [h0]
  | some key =>
    have h1 : header.mask = 1 := UInt8.toNat_inj.1 (by rw [hm, hf]; rfl)
    rw [hk key hf]
    simp [h1]

end Frame

theorem WsHeader.Valid.pad {header : WsHeader} (h : header.Valid) : header.frame.pad = header.pad := by
  funext i
  unfold WsHeader.pad Frame.pad WsHeader.key WsHeader.frame
  rcases bit_cases h.mask with hm | hm <;> simp [hm]

section

variable {α : Type} {c : Client} {f : Frame} {data more : Bytes} {ns ns' : List Nat} {P : α → Prop}
  {r : Option α × Client} {t : Int} {rest : List RecvEv}

theorem antd_send_input (c : Client) (data : Bytes) : (antd_send c data).2.input = c.input := rfl

theorem sendParts_input (c : Client) (parts : List Bytes) : (sendParts c parts).2.input = c.input := by
  induction parts generalizing c with
  | nil => rfl
  | cons part parts ih =>
    rw [sendParts]
    dsimp only
    split
    · exact ih _
    · rfl

/-- Sending leaves alone what is still to be read. -/
theorem ws_send_frame_input (rand : UInt32) (c : Client) (data : Bytes) (header : WsHeader) :
    (ws_send_frame rand c data header).2.input = c.input := by
  have h : (_send_header c (header.sent rand)).2.input = c.input := sendParts_input ..
  unfold ws_send_frame
  dsimp only
  split
  · exact h
  · rw [antd_send_input, h]

/-- A frame that is sent goes out whole. -/
theorem ws_send_frame_onWire {rand : UInt32} {header : WsHeader} (hv : header.Valid)
    (hlen : data.length = header.plen.toNat) (h31 : header.plen.toNat < 2 ^ 31)
    (hs : (ws_send_frame rand c data header).1 = 0) :
    (ws_send_frame rand c data header).2.wire = c.wire ++ (header.sent rand).frame.onWire data := by
  rw [ws_send_frame_wire hlen h31 hs, hv.sent.frameHeader, Frame.onWire, hv.sent.pad, List.append_assoc]
  rfl

theorem Reads.gets (h : Reads ns ns' c more P r) (hg : Gets ns c) :
    ∃ a, r = (some a, r.2) ∧ P a ∧ bytesOf r.2.input = more ∧ Gets ns' r.2 := by
  rcases h with ⟨-, hn⟩ | ⟨a, he, ha, -, hs, hg'⟩
  · exact absurd hg hn
  · exact ⟨a, Prod.ext he rfl, ha, hs, hg' hg⟩

theorem Arrives.recvAll {parts : List Bytes} (h : Arrives c.last_io parts.flatten c.input t rest) :
    recvAll c (parts.map (·.length)) = { c with last_io := t, input := rest } := by
  induction parts generalizing c with
  | nil => cases h; rfl
  | cons part parts ih =>
    obtain ⟨t₁, evs₁, h₁, h₂⟩ := h.split
    rw [List.map_cons, recvAll_cons, h₁.antd_recv]
    exact ih (c := { c with last_io := t₁, input := evs₁ }) h₂

theorem readKey_recvAll (stale : Stale) (f : Frame) (mask : UInt8) (hm : mask.toNat = f.key.isSome.toNat) (c : Client) :
    (readKey stale c mask).2 = recvAll c (f.keyParts.map (·.length)) := by
  unfold Frame.keyParts
  cases hk : f.key with
  | none =>
    have h0 : mask = 0 := UInt8.toNat_inj.1 (by rw [hm, hk]; rfl)
    rw [h0]
    rfl
  | some key =>
    have h1 : mask = 1 := UInt8.toNat_inj.1 (by rw [hm, hk]; rfl)
    rw [h1]
    simp [recvAll, readKey, recvArray]

/-- A header that arrives is read, and handed to the code that answers control frames. -/
theorem ws_read_header_decodes (rand : UInt32) (stale : Stale) (hr : f.rsv = 0)
    (ha : Arrives c.last_io f.bytes c.input t rest) :
    ∃ header, f.Decoded (f.length.value % 2 ^ 32) header ∧
      let r := answerControl rand stale { c with last_io := t, input := rest } header
      ws_read_header rand stale c = (some r.1, r.2) := by
  have hall : recvAll c f.fields = _ := ha.recvAll
  have hg : Gets f.fields c := ha.gets
  have hs := ha.bytesOf
  rw [f.bytes_eq, List.cons_append, List.cons_append, List.append_assoc] at hs
  rw [f.fields_eq] at hg hall
  obtain ⟨byte, he, hb, hs, hg⟩ := (recvByte_reads (fun _ : Fin 1 => 0) hs hg.whole).gets hg
  obtain ⟨byte', he', hb', hs, hg⟩ := (recvByte_reads byte hs hg.whole).gets hg
  obtain ⟨plen, hep, hp, hs, hg⟩ := (readLength_reads stale f.length hs hg.whole).gets hg
  obtain ⟨mask_key, hek, hk, -, -⟩ := (readKey_reads stale f _ f.second_mask hs hg.whole).gets hg
  refine ⟨⟨BITV f.first 7, f.first &&& 0x0F, plen, BITV f.second 7, mask_key⟩,
    ⟨f.first_fin, f.first_opcode, f.second_mask, hp, hk⟩, ?_⟩
  have hc := (readLength_feeds stale f.length (recvArray (recvArray c (fun _ : Fin 1 => 0) 1).2 byte 1).2).2
  have hend : (readKey stale (readLength stale (recvArray (recvArray c (fun _ : Fin 1 => 0) 1).2 byte 1).2
      (UInt8.ofNat f.length.code)).2 (BITV f.second 7)).2 = { c with last_io := t, input := rest } := by
    rw [← hall, readKey_recvAll stale f _ f.second_mask, hc]
    exact (List.foldl_append ..).symm
  unfold ws_read_header
  rw [he]
  dsimp only [orFail]
  rw [hb, if_neg fun h => f.first_rsv.1 h hr, he']
  dsimp only [orFail]
  rw [hb', f.second_code, hep]
  dsimp only [orFail]
  rw [hek]
  dsimp only [orFail]
  rw [hend]

/-- Data that arrive whole are read by one call, with the pad of the frame taken off. -/
theorem ws_read_data_all {header : WsHeader} (hlen : header.plen.toNat = data.length) (h31 : data.length < 2 ^ 31)
    (ha : Arrives c.last_io (padAt header.pad 0 data) c.input t rest) {len : Int} (hn : asked data.length len = data.length) :
    ∃ header', ws_read_data c header len = ((data.length : Int), data, header', { c with last_io := t, input := rest }) ∧
      header'.plen = 0 := by
  by_cases h0 : header.plen = 0
  · obtain rfl : data = [] := by
      rw [h0, UInt32.toNat_zero] at hlen
      exact List.length_eq_zero_iff.1 hlen.symm
    cases ha
    exact ⟨header, if_pos h0, h0⟩
  · have hr := ha.antd_recv
    have hn' : (if len = -1 ∨ len > header.len then header.len else len).toNat = data.length := by
      rw [len_eq (hlen ▸ h31), hlen]
      exact hn
    have hpos : data.length ≠ 0 := fun h => h0 (UInt32.toNat_inj.1 (by rw [hlen, h]; rfl))
    rw [padAt_length] at hr
    refine ⟨{ header with plen := header.plen - UInt32.ofInt data.length }, ?_, ?_⟩
    · unfold ws_read_data
      rw [if_neg h0]
      dsimp only
      rw [hn', hr]
      dsimp only
      rw [if_neg (by omega), padAt_xor, (padAt_padAt (p := 0)).2 fun i _ => by rw [Nat.zero_add]]
    · apply UInt32.toNat_inj.1
      dsimp only
      rw [toNat_sub_ofInt (by omega), hlen, Nat.sub_self]
      rfl

/-- The header of the pong for a ping with `plen` bytes. -/
def Frame.pong (f : Frame) (plen : Nat) : WsHeader :=
  ⟨1, WS_PONG, UInt32.ofNat plen, if f.key.isSome then 0 else 1, fun _ => 0⟩

theorem Frame.pong_valid (f : Frame) (plen : Nat) : (f.pong plen).Valid := by
  have h : (if f.key.isSome then (0 : UInt8) else 1) ≤ 1 := by split <;> decide
  have hop : WS_PONG < 16 := by decide
  exact ⟨Nat.le_refl 1, h, hop⟩

/-- The payload of a ping is read with its header, and sent with that of the pong. -/
theorem ws_pong_echoes (rand : UInt32) (buf : Nat → UInt8) {header : WsHeader} (hd : f.Decoded data.length header)
    (h31 : data.length < 2 ^ 31) (ha : Arrives c.last_io (padAt f.pad 0 data) c.input t rest) :
    ∃ header', header'.plen = 0 ∧ (ws_pong rand buf c header (if header.mask ≠ 0 then 0 else 1)).2 = (header',
      (ws_send_frame rand { c with last_io := t, input := rest } data (f.pong data.length)).2) := by
  have hlen : header.len = data.length := by rw [len_eq (hd.plen ▸ h31), hd.plen]
  have hask : asked data.length header.len = data.length := by rw [hlen]; simp [asked]
  rw [← hd.pad] at ha
  obtain ⟨header', hread, hplen⟩ := ws_read_data_all hd.plen h31 ha hask
  refine ⟨header', hplen, ?_⟩
  have hdata : ((List.range header.plen.toNat).map fun i => data.getD i (buf i)) = data := by
    rw [hd.plen]
    apply List.ext_getElem
    · simp
    · intro i h1 h2
      simp [h2]
  have hmask : (if header.mask ≠ 0 then (0 : UInt8) else 1) = if f.key.isSome then 0 else 1 := by
    have hm := hd.mask
    cases hk : f.key.isSome <;> rw [hk] at hm
    · rw [show header.mask = 0 from UInt8.toNat_inj.1 hm]
      rfl
    · rw [show header.mask = 1 from UInt8.toNat_inj.1 hm]
      rfl
  have hpong : (⟨1, WS_PONG, header.plen, if header.mask ≠ 0 then 0 else 1, fun _ => 0⟩ : WsHeader) =
      f.pong data.length := by
    rw [Frame.pong, hmask, ← hd.plen, UInt32.ofNat_toNat]
  unfold ws_pong
  rw [hread]
  dsimp only
  rw [if_neg (by omega), hdata, hpong]

/-- A ping that arrives is answered: what is read of it, and what is sent. -/
theorem ws_read_header_ping (rand : UInt32) (stale : Stale) (hr : f.rsv = 0) (hop : (f.opcode : Nat) = WS_PING.toNat)
    (hlen : f.length.value = data.length) (h31 : data.length < 2 ^ 31)
    (ha : Arrives c.last_io (f.onWire data) c.input t rest) :
    ∃ header, header.plen = 0 ∧ ws_read_header rand stale c = (some header,
      (ws_send_frame rand { c with last_io := t, input := rest } data (f.pong data.length)).2) := by
  obtain ⟨t₁, evs₁, h₁, h₂⟩ := ha.split
  obtain ⟨header, hd, he⟩ := ws_read_header_decodes rand stale hr h₁
  rw [hlen, Nat.mod_eq_of_lt (by omega)] at hd
  have hping : header.opcode = WS_PING := UInt8.toNat_inj.1 (hd.opcode.trans hop)
  have hclose : ¬ header.opcode = WS_CLOSE := by rw [hping]; decide
  obtain ⟨header', hplen, hp⟩ := ws_pong_echoes (c := { c with last_io := t₁, input := evs₁ }) rand stale.buf hd h31 h₂
  refine ⟨header', hplen, ?_⟩
  rw [he]
  unfold answerControl
  rw [if_neg hclose, if_pos hping, hp]

/-- The frame that answers a ping with that payload. -/
structure Frame.Answers (f g : Frame) (data : Bytes) : Prop where
  fin : g.fin = true
  rsv : g.rsv = 0
  opcode : (g.opcode : Nat) = WS_PONG.toNat
  length : g.length.value = data.length
  mask : g.key.isSome = !f.key.isSome

theorem Frame.pong_answers (f : Frame) (rand : UInt32) (h31 : data.length < 2 ^ 31) :
    f.Answers ((f.pong data.length).sent rand).frame data := by
  obtain ⟨hop, hplen, hmask⟩ := (f.pong data.length).sent_fields rand
  have hfin : ((f.pong data.length).sent rand).fin = 1 := by
    unfold WsHeader.sent
    split <;> rfl
  refine ⟨by simp [WsHeader.frame, hfin], rfl, ?_, ?_, ?_⟩
  · rw [WsHeader.frame, hop]
    rfl
  · rw [WsHeader.frame, WsHeader.length_value, hplen, Frame.pong, UInt32.toNat_ofNat', Nat.mod_eq_of_lt (by omega)]
  · rw [WsHeader.frame, hmask, Frame.pong]
    cases f.key.isSome <;> rfl

/-- A ping that arrives is answered by one pong with its payload and the opposite
mask bit, and the stream is left where the next frame starts. -/
theorem ws_read_header_pong {rand : UInt32} {stale : Stale} (hr : f.rsv = 0) (hop : (f.opcode : Nat) = WS_PING.toNat)
    (hlen : f.length.value = data.length) (h31 : data.length < 2 ^ 31)
    (ha : Arrives c.last_io (f.onWire data) c.input t rest)
    (hsent : (ws_send_frame rand { c with last_io := t, input := rest } data (f.pong data.length)).1 = 0) :
    ∃ header c' g, ws_read_header rand stale c = (some header, c') ∧ header.plen = 0 ∧ c'.input = rest ∧
      f.Answers g data ∧ c'.wire = c.wire ++ g.onWire data := by
  obtain ⟨header, hplen, he⟩ := ws_read_header_ping rand stale hr hop hlen h31 ha
  have hn : (f.pong data.length).plen.toNat = data.length := by
    rw [Frame.pong, UInt32.toNat_ofNat', Nat.mod_eq_of_lt (by omega)]
  have hwire := ws_send_frame_onWire (f.pong_valid _) hn.symm (hn.symm ▸ h31) hsent
  exact ⟨header, _, _, he, hplen, ws_send_frame_input .., f.pong_answers rand h31, hwire⟩

end

/-- A masked ping with two bytes. -/
def maskedPing : Frame := ⟨true, 0, 9, .short 2, some fun i => UInt8.ofNat i⟩

/-- A connection on which the ping has arrived, with a byte of the next frame, and that takes what is sent. -/
def pingClient : Client :=
  { frameClient (maskedPing.onWire [65, 66] ++ [0x81]) with output := List.replicate 4 (.room 1023 0) }

theorem ws_read_header_pong_masked :
    ∃ header c' g, ws_read_header 0 noStale pingClient = (some header, c') ∧ header.plen = 0 ∧
      c'.input = [.byte 0x81 false 0] ∧ maskedPing.Answers g [65, 66] ∧ c'.wire = pingClient.wire ++ g.onWire [65, 66] := by
  obtain ⟨t, ha⟩ := frameClient_arrives (maskedPing.onWire [65, 66]) [0x81]
  have ha' : Arrives pingClient.last_io (maskedPing.onWire [65, 66]) pingClient.input t [.byte 0x81 false 0] := ha
  exact ws_read_header_pong rfl rfl rfl (by decide) ha' (by rfl)

end AntHttp
