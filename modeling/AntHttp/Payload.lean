import AntHttp.Frames
/-!
# The payload of a frame, read in chunks

`ws_send_frame` masks a payload with the key repeated over its whole length.
`ws_read_data` starts again with the first byte of the key at every call, so a
chunk is what was sent only if the key happens to agree.
-/

set_option linter.style.nameCheck false

namespace AntHttp

/-- What each byte of a chunk is combined with; 0 in a frame without mask. -/
def WsHeader.pad (header : WsHeader) (i : Nat) : UInt8 := if header.mask ≠ 0 then header.key i else 0

/-- The bytes that stand at offset `p` of a payload, combined with the pad. -/
def padAt (pad : Nat → UInt8) (p : Nat) (data : Bytes) : Bytes := data.mapIdx fun i b => b ^^^ pad (p + i)

/-- Successive calls of `ws_read_data`: the chunks, the header and the client. -/
def readChunks (client : Client) (header : WsHeader) : List Int → List Bytes × WsHeader × Client
  | [] => ([], header, client)
  | len :: lens =>
    let (_, data, header, client) := ws_read_data client header len
    let r := readChunks client header lens
    (data :: r.1, r.2)

/-- The number of bytes asked for, `plen` bytes being left. -/
def asked (plen : Nat) (len : Int) : Nat := (if len = -1 ∨ len > plen then (plen : Int) else len).toNat

/-- The number of bytes that the socket delivers to each call, `plen` bytes being left. -/
def deliveries (client : Client) (plen : Nat) : List Int → List Nat
  | [] => []
  | len :: lens =>
    let (_, data, client) := antd_recv client (asked plen len)
    data.length :: deliveries client (plen - data.length) lens

/-- Every chunk starts at an offset at which the pad goes on as it starts. -/
def InPhase (pad : Nat → UInt8) : Nat → List Nat → Prop
  | _, [] => True
  | p, n :: ns => (∀ i < n, pad i = pad (p + i)) ∧ InPhase pad (p + n) ns

section

variable {pad : Nat → UInt8} {p : Nat} {data more : Bytes}

@[simp] theorem padAt_length : (padAt pad p data).length = data.length := List.length_mapIdx ..

theorem padAt_take (n : Nat) : (padAt pad p data).take n = padAt pad p (data.take n) := by
  apply List.ext_getElem
  · simp
  · intro i h1 h2
    simp [padAt]

theorem padAt_drop (n : Nat) : (padAt pad p data).drop n = padAt pad (p + n) (data.drop n) := by
  apply List.ext_getElem
  · simp
  · intro i h1 h2
    simp [padAt, Nat.add_assoc]

theorem xor_xor_eq {a b c : UInt8} : a ^^^ b ^^^ c = a ↔ c = b := by
  rw [UInt8.xor_assoc]
  constructor
  · intro h
    have := congrArg (a ^^^ ·) h
    simpa [← UInt8.xor_assoc, eq_comm] using this
  · rintro rfl
    simp

/-- Taking the pad off from the start undoes it exactly when it agrees. -/
theorem padAt_padAt : padAt pad 0 (padAt pad p data) = data ↔ ∀ i < data.length, pad i = pad (p + i) := by
  constructor
  · intro h i hi
    have hget : (padAt pad 0 (padAt pad p data))[i]? = data[i]? := by rw [h]
    simpa [padAt, hi, xor_xor_eq] using hget
  · intro h
    apply List.ext_getElem
    · simp
    · intro i h1 h2
      have hget : (padAt pad 0 (padAt pad p data))[i] = data[i] ^^^ pad (p + i) ^^^ pad i := by simp [padAt]
      rw [hget]
      exact xor_xor_eq.2 (h i h2)

/-- A chunk that goes first, and the rest. -/
theorem prefix_split {a b : Bytes} : a ++ b <+: data ↔ a = data.take a.length ∧ b <+: data.drop a.length := by
  constructor
  · rintro ⟨rest, rfl⟩
    simp
  · rintro ⟨ha, rest, hb⟩
    refine ⟨rest, ?_⟩
    rw [List.append_assoc, hb]
    nth_rewrite 1 [ha]
    exact List.take_append_drop ..

end

/-! ## One call, and any number of calls -/

section

variable {c : Client} {header : WsHeader} {p : Nat} {data more : Bytes}

theorem len_eq (h : header.plen.toNat < 2 ^ 31) : header.len = header.plen.toNat :=
  CString.int32_eq (Int.natCast_nonneg _) (by omega)

theorem antd_recv_zero (c : Client) : antd_recv c 0 = (0, [], c) := by
  simp [antd_recv, recvLoop]

theorem asked_le (plen : Nat) (len : Int) : asked plen len ≤ plen := by
  unfold asked
  split <;> omega

theorem antd_recv_count {c : Client} {n : Nat} (h : ¬ (antd_recv c n).1 ≤ 0) :
    (antd_recv c n).1 = (antd_recv c n).2.1.length := by
  have hd := mt (antd_recv_nil c n).2 h
  unfold antd_recv at hd ⊢
  exact if_neg hd

theorem toNat_sub_ofInt {a : UInt32} {n : Nat} (h : n ≤ a.toNat) : (a - UInt32.ofInt n).toNat = a.toNat - n := by
  have ha := a.toNat_lt
  have hn : UInt32.ofInt (n : Int) = UInt32.ofNat n := by
    apply UInt32.toNat_inj.1
    simp [UInt32.ofInt]
    omega
  rw [hn, UInt32.toNat_sub]
  simp
  omega

theorem padAt_xor (header : WsHeader) (data : Bytes) :
    (if header.mask ≠ 0 then header.xor data else data) = padAt header.pad 0 data := by
  unfold padAt WsHeader.pad WsHeader.xor
  split
  · simp
  · apply List.ext_getElem
    · simp
    · simp

/-- A chunk has the bytes that were delivered, with the pad taken off from its start. -/
theorem ws_read_data_chunk (h31 : header.plen.toNat < 2 ^ 31) (len : Int) :
    let r := antd_recv c (asked header.plen.toNat len)
    (ws_read_data c header len).2.1 = padAt header.pad 0 r.2.1 ∧ (ws_read_data c header len).2.2.2 = r.2.2 ∧
      (ws_read_data c header len).2.2.1.pad = header.pad ∧
      (ws_read_data c header len).2.2.1.plen.toNat = header.plen.toNat - r.2.1.length := by
  intro r
  have hn : (if len = -1 ∨ len > header.len then header.len else len).toNat = asked header.plen.toNat len := by
    rw [len_eq h31, asked]
  unfold ws_read_data
  by_cases h0 : header.plen = 0
  · have hr : r = (0, [], c) := by
      have : asked header.plen.toNat len = 0 := by
        rw [h0, UInt32.toNat_zero, asked]
        split <;> omega
      rw [← antd_recv_zero, ← this]
    rw [if_pos h0, hr]
    simp [padAt]
  · rw [if_neg h0]
    dsimp only
    rw [hn]
    split
    · rename_i hr
      have hd : r.2.1 = [] := (antd_recv_nil c _).1 hr
      rw [hd]
      simp [padAt, r]
    · rename_i hr
      have hle : r.2.1.length ≤ header.plen.toNat := (antd_recv_length c _).trans (asked_le ..)
      refine ⟨padAt_xor .., rfl, rfl, ?_⟩
      dsimp only
      rw [antd_recv_count hr]
      exact toNat_sub_ofInt hle

/-- The bytes delivered are the next ones of the payload. -/
theorem delivered {n : Nat} {pad : Nat → UInt8} (hs : bytesOf c.input = padAt pad p data ++ more) (hn : n ≤ data.length) :
    let d := (antd_recv c n).2.1.length
    (antd_recv c n).2.1 = padAt pad p (data.take d) ∧
      bytesOf (antd_recv c n).2.2.input = padAt pad (p + d) (data.drop d) ++ more := by
  intro d
  have hd : d ≤ n := antd_recv_length c n
  have hb := antd_recv_bytesOf c n
  rw [hs, ← List.take_append_drop d (padAt pad p data), List.append_assoc] at hb
  obtain ⟨h1, h2⟩ := List.append_inj hb (by simp; omega)
  rw [← padAt_take, ← padAt_drop]
  exact ⟨h1.symm, h2.symm⟩

/-- The chunks account for the payload, and are the start of it as long as they are in phase. -/
theorem readChunks_prefix (lens : List Int) (hplen : header.plen.toNat = data.length) (h31 : data.length < 2 ^ 31)
    (hs : bytesOf c.input = padAt header.pad p data ++ more) :
    (readChunks c header lens).2.1.plen.toNat + (readChunks c header lens).1.flatten.length = data.length ∧
      ((readChunks c header lens).1.flatten <+: data ↔ InPhase header.pad p (deliveries c data.length lens)) := by
  induction lens generalizing c header p data with
  | nil => simp [readChunks, InPhase, deliveries, hplen]
  | cons len lens ih =>
    obtain ⟨hdata, hclient, hpad, hleft⟩ := ws_read_data_chunk (c := c) (hplen ▸ h31) len
    rw [hplen] at hdata hclient hleft
    obtain ⟨hr, hrest⟩ := delivered hs (asked_le data.length len)
    have hd : (antd_recv c (asked data.length len)).2.1.length ≤ data.length :=
      (antd_recv_length c _).trans (asked_le ..)
    simp only [readChunks, deliveries, InPhase, List.flatten_cons]
    rw [hclient]
    generalize (antd_recv c (asked data.length len)).2.1 = chunk at *
    generalize (antd_recv c (asked data.length len)).2.2 = c' at *
    generalize (ws_read_data c header len).2.2.1 = header' at *
    have hdrop : (data.drop chunk.length).length = data.length - chunk.length := List.length_drop
    obtain ⟨ih1, ih2⟩ := @ih c' header' (p + chunk.length) (data.drop chunk.length) (by rw [hleft, hdrop]) (by omega)
      (by rw [hpad]; exact hrest)
    rw [hdata, prefix_split, padAt_length, ih2, hpad, hdrop, List.length_append, padAt_length]
    constructor
    · omega
    · refine and_congr ?_ Iff.rfl
      have htake : (data.take chunk.length).length = chunk.length := by simpa using hd
      have hpp := @padAt_padAt header.pad p (data.take chunk.length)
      rw [htake, ← hr] at hpp
      exact hpp

end

/-! ## From one end to the other -/

section

variable {w c : Client} {header : WsHeader} {data hb pb more : Bytes} {t : Int} {rest : List RecvEv} {rand : UInt32}

theorem WsHeader.Valid.sent (hv : header.Valid) : (header.sent rand).Valid := by
  unfold WsHeader.sent
  split
  · exact ⟨hv.fin, hv.mask, hv.opcode⟩
  · exact hv

theorem WsHeader.sent_fields (rand : UInt32) (header : WsHeader) :
    (header.sent rand).opcode = header.opcode ∧ (header.sent rand).plen = header.plen ∧
      (header.sent rand).mask = header.mask := by
  unfold WsHeader.sent
  split <;> exact ⟨rfl, rfl, rfl⟩

/-- A frame that is sent is its header and its payload, masked with the key generated. -/
theorem ws_send_frame_wire (hlen : data.length = header.plen.toNat) (h31 : header.plen.toNat < 2 ^ 31)
    (hs : (ws_send_frame rand w data header).1 = 0) :
    (ws_send_frame rand w data header).2.wire =
      w.wire ++ (frameHeader (header.sent rand)).flatten ++ padAt (header.sent rand).pad 0 data := by
  obtain ⟨-, hplen, hmask⟩ := header.sent_fields rand
  have hl : (header.sent rand).len = data.length := by rw [len_eq (hplen ▸ h31), hplen, hlen]
  unfold ws_send_frame at hs ⊢
  dsimp only at hs ⊢
  rw [padAt_xor, hl, Int.toNat_natCast, List.take_of_length_le (by simp)] at hs ⊢
  split at hs
  · cases hs
  · rename_i hh
    rw [if_neg hh]
    split at hs
    · cases hs
    · rename_i hp
      rw [antd_send_all (by simpa using hp), send_header_all (by simpa using hh)]

theorem pad_congr {header' : WsHeader} (hv : header.Valid) (hm : header'.mask = header.mask)
    (hk : header.mask = 1 → header'.mask_key = header.mask_key) : header'.pad = header.pad := by
  funext i
  unfold WsHeader.pad WsHeader.key
  rw [hm]
  rcases bit_cases hv.mask with h | h
  · simp [h]
  · rw [hk h]

theorem inPhase_const {pad : Nat → UInt8} (hp : ∀ i j, pad i = pad j) (p : Nat) (ns : List Nat) : InPhase pad p ns := by
  induction ns generalizing p with
  | nil => trivial
  | cons n ns ih => exact ⟨fun i _ => hp _ _, ih _⟩

/-- The chunks are in phase with the pad of an unmasked frame, or with the key generated. -/
theorem inPhase_sent {ns : List Nat} :
    InPhase (header.sent rand).pad 0 ns ↔ header.mask = 0 ∨ InPhase (ws_gen_mask_key rand header).key 0 ns := by
  by_cases hm : header.mask = 0
  · refine iff_of_true (inPhase_const (fun i j => ?_) 0 ns) (.inl hm)
    simp [WsHeader.pad, WsHeader.sent, hm]
  · have hpad : (header.sent rand).pad = (ws_gen_mask_key rand header).key := by
      funext i
      simp [WsHeader.pad, WsHeader.sent, hm, ws_gen_mask_key]
    rw [hpad]
    simp [hm]

end

/-- A frame has been sent, and its bytes are what a reader is going to meet: the
header arrives without a pause that is too long, the payload in any way. -/
structure Transfer (rand : UInt32) (w c : Client) (header : WsHeader) (data : Bytes) : Prop where
  valid : header.Valid
  not_close : header.opcode ≠ WS_CLOSE
  not_ping : header.opcode ≠ WS_PING
  length : data.length = header.plen.toNat
  small : header.plen.toNat < 2 ^ 31
  sent : (ws_send_frame rand w data header).1 = 0
  arrives : ∃ hb pb more t rest, (ws_send_frame rand w data header).2.wire = w.wire ++ hb ++ pb ∧
    pb.length = data.length ∧ Arrives c.last_io hb c.input t rest ∧ bytesOf rest = pb ++ more

/-- The chunks are the start of the payload, and all of it once no byte is left. -/
def ReadsPayload (c : Client) (header : WsHeader) (lens : List Int) (data : Bytes) : Prop :=
  (readChunks c header lens).1.flatten <+: data ∧
    ((readChunks c header lens).2.1.plen = 0 → (readChunks c header lens).1.flatten = data)

/-- A reader gets the payload exactly when every chunk is in phase with the key. -/
theorem ws_read_data_prefix_iff {rand : UInt32} {w c : Client} {header : WsHeader} {data : Bytes} (rand' : UInt32)
    (stale : Stale) (h : Transfer rand w c header data) :
    ∃ header' c', ws_read_header rand' stale c = (some header', c') ∧ ∀ lens, ReadsPayload c' header' lens data ↔
      header.mask = 0 ∨ InPhase (ws_gen_mask_key rand header).key 0 (deliveries c' data.length lens) := by
  obtain ⟨hop, hplen, hmask⟩ := header.sent_fields rand
  obtain ⟨hb, pb, more, t, rest, hw, hpb, ha, hrest⟩ := h.arrives
  have hlen := h.length
  rw [ws_send_frame_wire hlen h.small h.sent, List.append_assoc, List.append_assoc, List.append_cancel_left_eq] at hw
  obtain ⟨rfl, rfl⟩ := List.append_inj' hw (by simp [hpb])
  obtain ⟨header', hr, -, -, hmask', hplen', hkey, hin⟩ := ws_read_header_reads_back rand' stale h.valid.sent
    (by rw [hop]; exact h.not_close) (by rw [hop]; exact h.not_ping) ha
  refine ⟨header', (ws_read_header rand' stale c).2, Prod.ext hr rfl, fun lens => ?_⟩
  have hpad : header'.pad = (header.sent rand).pad := pad_congr h.valid.sent hmask' hkey
  have hlen' : header'.plen.toNat = data.length := by rw [hplen', hplen, hlen]
  obtain ⟨hcount, hiff⟩ := readChunks_prefix lens hlen' (hlen ▸ h.small) (by rw [hin, hrest, hpad])
  rw [← inPhase_sent, ← hpad, ← hiff]
  constructor
  · exact And.left
  · intro hp
    refine ⟨hp, fun h0 => hp.eq_of_length ?_⟩
    rw [h0, UInt32.toNat_zero] at hcount
    omega

/-! ### A frame of eight bytes -/

def eightBytes : WsHeader := ⟨1, WS_TEXT, 8, 1, fun _ => 0⟩

/-- The frame as it is sent with the key 1, 2, 3, 4. -/
def eightBytesSent : Bytes := (frameHeader (eightBytes.sent 0x01020304)).flatten ++ [64, 64, 64, 64, 68, 68, 68, 76]

theorem eightBytes_transfer :
    Transfer 0x01020304 frameServer (frameClient eightBytesSent) eightBytes [65, 66, 67, 68, 69, 70, 71, 72] where
  valid := ⟨by decide, by decide, by decide⟩
  not_close := by decide
  not_ping := by decide
  length := rfl
  small := by decide
  sent := by decide
  arrives := by
    obtain ⟨t, ha⟩ := frameClient_arrives (frameHeader (eightBytes.sent 0x01020304)).flatten [64, 64, 64, 64, 68, 68, 68, 76]
    exact ⟨_, [64, 64, 64, 64, 68, 68, 68, 76], [], t, _, by decide, rfl, ha, rfl⟩

/-- Read by four bytes first, and then all that is left. -/
theorem ws_read_data_prefix_iff_eightBytes :
    ∃ header' c', ws_read_header 0 noStale (frameClient eightBytesSent) = (some header', c') ∧
      ReadsPayload c' header' [4, -1] [65, 66, 67, 68, 69, 70, 71, 72] := by
  obtain ⟨header', c', hr, h⟩ := ws_read_data_prefix_iff 0 noStale eightBytes_transfer
  have hfour : deliveries (ws_read_header 0 noStale (frameClient eightBytesSent)).2 8 [4, -1] = [4, 4] := by decide +kernel
  rw [hr] at hfour
  refine ⟨header', c', hr, (h [4, -1]).2 (.inr ?_)⟩
  change InPhase _ 0 (deliveries c' 8 [4, -1])
  rw [hfour]
  exact ⟨by decide, by decide, trivial⟩

/-- Read one byte at a time, the second one is wrong. -/
theorem ws_read_data_out_of_phase :
    ¬ ∀ (rand rand' : UInt32) (stale : Stale) (w c : Client) (header : WsHeader) (data : Bytes) (lens : List Int),
      Transfer rand w c header data → (∀ len ∈ lens, 0 < len ∨ len = -1) → ∀ header' c',
      ws_read_header rand' stale c = (some header', c') → ReadsPayload c' header' lens data := by
  intro hall
  have hread : (ws_read_header 0 noStale (frameClient eightBytesSent)).1.map (fun header' =>
      (readChunks (ws_read_header 0 noStale (frameClient eightBytesSent)).2 header' [1, 1]).1.flatten) =
      some [65, 65] := by decide
  obtain ⟨header', hr, hd⟩ := Option.map_eq_some_iff.1 hread
  have h := (hall 0x01020304 0 noStale _ _ _ _ [1, 1] eightBytes_transfer (by decide) header' _ (Prod.ext hr rfl)).1
  rw [hd] at h
  exact absurd h (by decide)

end AntHttp
