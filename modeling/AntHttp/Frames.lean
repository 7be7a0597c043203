import AntHttp.WebSocket
/-!
# Frames on the wire

The header of a frame as RFC 6455 lays it out, what `ws_read_header` makes of
one, and that it reads back what `_send_header` has written. Then the payload:
`ws_read_data` may be called for any number of bytes at a time.
-/

set_option linter.style.nameCheck false

namespace AntHttp

/-! ## The layout of a header -/

-- for the literals of its fields
instance neZero_sixteen : NeZero 16 := ⟨by decide⟩
instance neZero_short : NeZero 126 := ⟨by decide⟩

/-- The lowest `k` bytes of a number, the highest first. -/
def bigEndian : Nat → Nat → Bytes
  | 0, _ => []
  | k + 1, n => UInt8.ofNat (n / 256 ^ k) :: bigEndian k n

@[simp] theorem bigEndian_length (k n : Nat) : (bigEndian k n).length = k := by
  induction k with
  | zero => rfl
  | succ k ih => simp [bigEndian, ih]

/-- The payload length, in one of its three forms. -/
inductive FrameLength where
  | short (n : Fin 126)
  | medium (n : Fin (2 ^ 16))
  | long (n : Fin (2 ^ 64))

namespace FrameLength

def value : FrameLength → Nat
  | short n => n
  | medium n => n
  | long n => n

/-- The seven bits next to the mask bit. -/
def code : FrameLength → Nat
  | short n => n
  | medium _ => 126
  | long _ => 127

theorem code_lt (l : FrameLength) : l.code < 128 := by
  cases l <;> simp only [code] <;> omega

/-- The extended length. -/
def parts : FrameLength → List Bytes
  | short _ => []
  | medium n => [bigEndian 2 n]
  | long n => [bigEndian 8 n]

end FrameLength

structure Frame where
  fin : Bool
  rsv : Fin 8
  opcode : Fin 16
  length : FrameLength
  key : Option (Fin 4 → UInt8)

namespace Frame

def first (f : Frame) : UInt8 := UInt8.ofNat (f.fin.toNat * 128 + f.rsv * 16 + f.opcode)

def second (f : Frame) : UInt8 := UInt8.ofNat (f.key.isSome.toNat * 128 + f.length.code)

def keyParts (f : Frame) : List Bytes := (f.key.map fun key => List.ofFn key).toList

/-- The fields of the header. -/
def parts (f : Frame) : List Bytes := [f.first] :: [f.second] :: (f.length.parts ++ f.keyParts)

/-- The number of bytes of each field. -/
def fields (f : Frame) : List Nat := f.parts.map (·.length)

def bytes (f : Frame) : Bytes := f.parts.flatten

theorem fields_eq (f : Frame) :
    f.fields = 1 :: 1 :: (f.length.parts.map (·.length) ++ f.keyParts.map (·.length)) := by
  simp [fields, parts]

theorem bytes_eq (f : Frame) : f.bytes = f.first :: f.second :: (f.length.parts.flatten ++ f.keyParts.flatten) := by
  simp [bytes, parts]

/-- The header has the values of the frame, with `plen` for its length. -/
structure Decoded (f : Frame) (plen : Nat) (header : WsHeader) : Prop where
  fin : header.fin.toNat = f.fin.toNat
  opcode : header.opcode.toNat = f.opcode
  mask : header.mask.toNat = f.key.isSome.toNat
  plen : header.plen.toNat = plen
  key : ∀ key ∈ f.key, header.mask_key = key

end Frame

/-! ## Reading a header -/

/-- A reader of the first fields has got `P`, and `ns'` are the fields to come; or it has failed,
and not every field has arrived. -/
def Reads {α : Type} (ns ns' : List Nat) (c : Client) (more : Bytes) (P : α → Prop) (r : Option α × Client) : Prop :=
  (r.1 = none ∧ ¬ Gets ns c) ∨
    ∃ a, r.1 = some a ∧ P a ∧ Whole ns' r.2 ∧ bytesOf r.2.input = more ∧ (Gets ns c → Gets ns' r.2)

section

variable {α β : Type} {c : Client} {bs more : Bytes} {ns ns' : List Nat} {P : α → Prop} {r : Option α × Client}

theorem Reads.pure {a : α} (ha : P a) (h : Whole ns c) (hs : bytesOf c.input = more) : Reads ns ns c more P (some a, c) :=
  .inr ⟨a, rfl, ha, h, hs, id⟩

theorem Reads.mono {Q : α → Prop} (h : Reads ns ns' c more P r) (hq : ∀ a, P a → Q a) : Reads ns ns' c more Q r := by
  rcases h with h | ⟨a, he, ha, h⟩
  · exact .inl h
  · exact .inr ⟨a, he, hq a ha, h⟩

theorem Reads.map {Q : β → Prop} {f : α → β} (h : Reads ns ns' c more P r) (hf : ∀ a, P a → Q (f a)) :
    Reads ns ns' c more Q (r.1.map f, r.2) := by
  rcases h with ⟨he, h⟩ | ⟨a, he, ha, h⟩
  · exact .inl ⟨by rw [he]; rfl, h⟩
  · exact .inr ⟨f a, by rw [he]; rfl, hf a ha, h⟩

/-- One reader after another. -/
theorem Reads.bind {ns'' : List Nat} {more' : Bytes} {Q : β → Prop} {f : α → Client → Option β × Client}
    (h : Reads ns ns' c more' P r)
    (hf : ∀ a c', P a → Whole ns' c' → bytesOf c'.input = more' → Reads ns' ns'' c' more Q (f a c')) :
    Reads ns ns'' c more Q (orFail r f) := by
  obtain ⟨r, c'⟩ := r
  rcases h with ⟨rfl, h⟩ | ⟨a, rfl, ha, hw, hm, hg⟩
  · exact .inl ⟨rfl, h⟩
  · rcases hf a c' ha hw hm with ⟨he, hn⟩ | ⟨b, he, hb, hw', hm', hg'⟩
    · exact .inl ⟨he, fun h => hn (hg h)⟩
    · exact .inr ⟨b, he, hb, hw', hm', fun h => hg' (hg h)⟩

theorem recvArray_reads {n : Nat} (old : Fin n → UInt8) (bs : Bytes) (hb : bs ≠ []) (hs : bytesOf c.input = bs ++ more)
    (h : Whole (bs.length :: ns) c) :
    Reads (bs.length :: ns) ns c more (· = fun i : Fin n => bs.getD i (old i)) (recvArray c old bs.length) := by
  have hpos := antd_recv_nil c bs.length
  unfold recvArray
  dsimp only
  rcases h with hnil | ⟨hlen, hw⟩
  · left
    refine ⟨if_pos (hpos.2 hnil), fun hg => hb ?_⟩
    have := hg.1
    rw [hnil] at this
    exact List.length_eq_zero_iff.1 this.symm
  · right
    have hne : (antd_recv c bs.length).2.1 ≠ [] := fun h => hb (List.length_eq_zero_iff.1 (by rw [← hlen, h]; rfl))
    have hbytes := antd_recv_bytesOf c bs.length
    rw [hs] at hbytes
    obtain ⟨hd, hmore⟩ := List.append_inj hbytes hlen.symm
    refine ⟨_, if_neg fun h0 => hne (hpos.1 h0), ?_, hw, hmore.symm, fun hg => hg.2⟩
    rw [← hd]

theorem recvByte_reads {n : Nat} (old : Fin (n + 1) → UInt8) {b : UInt8} (hs : bytesOf c.input = b :: more)
    (h : Whole (1 :: ns) c) : Reads (1 :: ns) ns c more (· 0 = b) (recvArray c old 1) :=
  (recvArray_reads old [b] (by simp) hs h).mono (by rintro _ rfl; rfl)

theorem bigEndian_two (n : Nat) (hn : n < 2 ^ 16) :
    (((UInt8.ofNat (n / 256 ^ 1)).toUInt32 <<< (8 : UInt32)) + (UInt8.ofNat (n / 256 ^ 0)).toUInt32).toNat = n := by
  simp [UInt32.toNat_add, UInt32.toNat_shiftLeft, Nat.shiftLeft_eq]
  omega

/-- The last four bytes of eight. -/
theorem bigEndian_low (n : Nat) :
    (((UInt8.ofNat (n / 256 ^ 3)).toUInt32 <<< (24 : UInt32)) + ((UInt8.ofNat (n / 256 ^ 2)).toUInt32 <<< (16 : UInt32)) +
      ((UInt8.ofNat (n / 256 ^ 1)).toUInt32 <<< (8 : UInt32)) + (UInt8.ofNat (n / 256 ^ 0)).toUInt32).toNat =
      n % 2 ^ 32 := by
  simp [UInt32.toNat_add, UInt32.toNat_shiftLeft, Nat.shiftLeft_eq]
  omega

theorem readLength_reads (stale : Stale) (l : FrameLength) (hs : bytesOf c.input = l.parts.flatten ++ more)
    (h : Whole (l.parts.map (·.length) ++ ns) c) :
    Reads (l.parts.map (·.length) ++ ns) ns c more (·.toNat = l.value % 2 ^ 32)
      (readLength stale c (UInt8.ofNat l.code)) := by
  cases l with
  | short n =>
    have hn := n.isLt
    have hle : UInt8.ofNat n ≤ 125 := by
      rw [UInt8.le_iff_toNat_le]
      simp
      omega
    have hr : readLength stale c (UInt8.ofNat n) = (some (UInt8.ofNat n).toUInt32, c) := if_pos hle
    rw [FrameLength.code, hr]
    refine .pure ?_ h hs
    simp [FrameLength.value]
    omega
  | medium n =>
    have hb : bigEndian 2 n ≠ [] := by simp [bigEndian]
    have hr := recvArray_reads stale.bytes _ hb (by simpa [FrameLength.parts] using hs) h
    refine hr.map ?_
    rintro _ rfl
    have hn := n.isLt
    rw [FrameLength.value, Nat.mod_eq_of_lt (by omega)]
    exact bigEndian_two n hn
  | long n =>
    have hb : bigEndian 8 n ≠ [] := by simp [bigEndian]
    have hr := recvArray_reads stale.bytes _ hb (by simpa [FrameLength.parts] using hs) h
    refine hr.map ?_
    rintro _ rfl
    exact bigEndian_low n

theorem readKey_reads (stale : Stale) (f : Frame) (mask : UInt8) (hm : mask.toNat = f.key.isSome.toNat)
    (hs : bytesOf c.input = f.keyParts.flatten ++ more) (h : Whole (f.keyParts.map (·.length)) c) :
    Reads (f.keyParts.map (·.length)) [] c more (fun a => ∀ k ∈ f.key, a = k) (readKey stale c mask) := by
  unfold Frame.keyParts at hs h ⊢
  cases hk : f.key with
  | none =>
    rw [hk] at hm hs h
    have h0 : mask = 0 := UInt8.toNat_inj.1 hm
    rw [h0]
    exact .pure (by rintro _ ⟨⟩) h hs
  | some key =>
    rw [hk] at hm hs h
    have h1 : mask = 1 := UInt8.toNat_inj.1 hm
    have hb : List.ofFn key ≠ [] := by simp
    have hr := recvArray_reads stale.mask_key _ hb (by simpa using hs) h
    rw [h1]
    refine hr.mono ?_
    rintro _ rfl _ ⟨⟩
    funext i
    rw [List.getD_eq_getElem?_getD, List.getElem?_ofFn, dif_pos i.isLt, Option.getD_some]

end

/-- The bits of the first byte. -/
theorem first_bits (fin : Bool) (rsv : Fin 8) (opcode : Fin 16) :
    let b := UInt8.ofNat (fin.toNat * 128 + rsv * 16 + opcode)
    (BITV b 6 ≠ 0 ∨ BITV b 5 ≠ 0 ∨ BITV b 4 ≠ 0 ↔ rsv ≠ 0) ∧ (BITV b 7).toNat = fin.toNat ∧
      (b &&& 0x0F).toNat = opcode := by
  revert fin rsv opcode
  decide +kernel

/-- The bits of the second byte. -/
theorem second_bits (mask : Bool) (code : Fin 128) :
    let b := UInt8.ofNat (mask.toNat * 128 + code)
    (BITV b 7).toNat = mask.toNat ∧ b &&& 0x7F = UInt8.ofNat code := by
  revert mask code
  decide +kernel

namespace Frame

variable (f : Frame)

theorem first_rsv : BITV f.first 6 ≠ 0 ∨ BITV f.first 5 ≠ 0 ∨ BITV f.first 4 ≠ 0 ↔ f.rsv ≠ 0 := (first_bits ..).1

theorem first_fin : (BITV f.first 7).toNat = f.fin.toNat := (first_bits ..).2.1

theorem first_opcode : (f.first &&& 0x0F).toNat = f.opcode := (first_bits ..).2.2

theorem second_mask : (BITV f.second 7).toNat = f.key.isSome.toNat := (second_bits _ ⟨_, f.length.code_lt⟩).1

theorem second_code : f.second &&& 0x7F = UInt8.ofNat f.length.code := (second_bits _ ⟨_, f.length.code_lt⟩).2

end Frame

section

variable {c : Client} {f : Frame} {more : Bytes}

/-- A bit reserved by the protocol is refused. -/
theorem ws_read_header_rsv (rand : UInt32) (stale : Stale) (hs : bytesOf c.input = f.bytes ++ more) (hr : f.rsv ≠ 0) :
    (ws_read_header rand stale c).1 = none := by
  rw [f.bytes_eq, List.cons_append] at hs
  have h := recvByte_reads (fun _ : Fin 1 => 0) hs (whole_one c)
  unfold ws_read_header
  generalize recvArray c (fun _ : Fin 1 => 0) 1 = r at h ⊢
  obtain ⟨r, c₁⟩ := r
  rcases h with ⟨rfl, -⟩ | ⟨byte, rfl, hb, -⟩
  · rfl
  · rw [orFail, hb, if_pos (f.first_rsv.2 hr)]

/-- Only a close and a ping are answered. -/
theorem answerControl_data (rand : UInt32) (stale : Stale) (c : Client) {header : WsHeader} (h8 : header.opcode ≠ WS_CLOSE)
    (h9 : header.opcode ≠ WS_PING) : answerControl rand stale c header = (header, c) := by
  unfold answerControl
  rw [if_neg h8, if_neg h9]

theorem Frame.first_ne {op : UInt8} (f : Frame) (h : (f.opcode : Nat) ≠ op.toNat) : f.first &&& 0x0F ≠ op :=
  fun he => h (by rw [← he, f.first_opcode])

/-- A header whose fields arrive whole is read, up to the high half of a 64-bit length. -/
theorem ws_read_header_reads (rand : UInt32) (stale : Stale) (hs : bytesOf c.input = f.bytes ++ more)
    (hw : Whole f.fields c) (hr : f.rsv = 0)
    (h8 : (f.opcode : Nat) ≠ WS_CLOSE.toNat) (h9 : (f.opcode : Nat) ≠ WS_PING.toNat) :
    Reads f.fields [] c more (f.Decoded (f.length.value % 2 ^ 32)) (ws_read_header rand stale c) := by
  rw [f.bytes_eq, List.cons_append, List.cons_append, List.append_assoc] at hs
  rw [f.fields_eq] at hw ⊢
  unfold ws_read_header
  refine (recvByte_reads _ hs hw).bind ?_
  intro byte c₁ hb hw₁ hs₁
  rw [hb, if_neg fun h => f.first_rsv.1 h hr]
  refine (recvByte_reads _ hs₁ hw₁).bind ?_
  intro byte c₂ hb₂ hw₂ hs₂
  rw [hb₂, f.second_code]
  refine (readLength_reads stale f.length hs₂ hw₂).bind ?_
  intro plen c₃ hp hw₃ hs₃
  refine (readKey_reads stale f _ f.second_mask hs₃ hw₃).bind ?_
  intro mask_key c₄ hk hw₄ hs₄
  rw [answerControl_data rand stale c₄ (f.first_ne h8) (f.first_ne h9)]
  exact .pure ⟨f.first_fin, f.first_opcode, f.second_mask, hp, hk⟩ hw₄ hs₄

/-- Reading has failed, or has got the frame's values and consumed its header. -/
def Frame.FailsOrDecoded (f : Frame) (plen : Nat) (more : Bytes) (r : Option WsHeader × Client) : Prop :=
  r.1 = none ∨ ∃ header, r.1 = some header ∧ f.Decoded plen header ∧ bytesOf r.2.input = more

/-- Whatever header the stream starts with, it is refused, or read up to the high half of its length. -/
theorem ws_read_header_stream (rand : UInt32) (stale : Stale) (hs : bytesOf c.input = f.bytes ++ more)
    (h8 : (f.opcode : Nat) ≠ WS_CLOSE.toNat) (h9 : (f.opcode : Nat) ≠ WS_PING.toNat) :
    (f.rsv ≠ 0 → (ws_read_header rand stale c).1 = none) ∧
      (Whole f.fields c → f.FailsOrDecoded (f.length.value % 2 ^ 32) more (ws_read_header rand stale c)) := by
  constructor
  · intro hr
    exact ws_read_header_rsv rand stale hs hr
  · intro hw
    by_cases hr : f.rsv = 0
    · rcases ws_read_header_reads rand stale hs hw hr h8 h9 with ⟨h, -⟩ | ⟨header, h, hd, -, hm, -⟩
      · exact .inl h
      · exact .inr ⟨header, h, hd, hm⟩
    · exact .inl (ws_read_header_rsv rand stale hs hr)

end

/-- A connection on which a frame has arrived. -/
def frameClient (bytes : Bytes) : Client :=
  ⟨4, false, .ACCEPT, 0, .CNONE, bytes.map (.byte · false 0), [], [], []⟩

theorem frameClient_arrives (bs more : Bytes) :
    ∃ t, Arrives (frameClient (bs ++ more)).last_io bs (frameClient (bs ++ more)).input t
      (more.map (.byte · false 0)) := by
  obtain ⟨t, h⟩ := arrives_bytes 0 0 bs (more.map (.byte · false 0))
  rw [← List.map_append] at h
  exact ⟨t, h⟩

theorem frameClient_gets (parts : List Bytes) : Gets (parts.map (·.length)) (frameClient parts.flatten) := by
  obtain ⟨t, h⟩ := frameClient_arrives parts.flatten []
  rw [List.append_nil] at h
  exact h.gets

def noStale : Stale := ⟨fun _ => 0, fun _ => 0, fun _ => 0⟩

/-- A binary frame whose header announces 2^32 bytes. -/
def longFrame : Frame := ⟨true, 0, 2, .long ⟨2 ^ 32, by decide⟩, none⟩

theorem ws_read_header_stream_long :
    ∃ header, (ws_read_header 0 noStale (frameClient longFrame.bytes)).1 = some header ∧ longFrame.Decoded 0 header := by
  have hs : bytesOf (frameClient longFrame.bytes).input = longFrame.bytes ++ [] := by decide
  have h := (ws_read_header_stream 0 noStale hs (by decide) (by decide)).2 (frameClient_gets longFrame.parts).whole
  rcases h with h | ⟨header, h, hd, -⟩
  · exact absurd h (by decide)
  · exact ⟨header, h, hd⟩

/-- A binary frame of five bytes whose 16-bit length is cut in the middle by a pause. -/
def cutFrame : Frame := ⟨true, 0, 2, .medium ⟨5, by decide⟩, none⟩

def cutClient : Client :=
  ⟨4, false, .ACCEPT, 0, .CNONE, [.byte 0x82 false 0, .byte 126 false 0, .byte 0 false 0, .again 9, .byte 5 false 9], [],
    [], []⟩

/-- The header returned for the long frame has the length 0, and so has the other one. -/
theorem ws_read_header_truncates :
    (¬ ∀ rand stale c (f : Frame) more, bytesOf c.input = f.bytes ++ more → (f.opcode : Nat) ≠ WS_CLOSE.toNat →
      (f.opcode : Nat) ≠ WS_PING.toNat → Whole f.fields c →
      f.FailsOrDecoded f.length.value more (ws_read_header rand stale c)) ∧
    ¬ ∀ rand stale c (f : Frame) more, bytesOf c.input = f.bytes ++ more → (f.opcode : Nat) ≠ WS_CLOSE.toNat →
      (f.opcode : Nat) ≠ WS_PING.toNat →
      f.FailsOrDecoded (f.length.value % 2 ^ 32) more (ws_read_header rand stale c) := by
  constructor
  · intro hall
    have hplen : (ws_read_header 0 noStale (frameClient longFrame.bytes)).1.map (·.plen.toNat) = some 0 := by decide
    rcases hall 0 noStale (frameClient longFrame.bytes) longFrame [] (by decide) (by decide) (by decide)
      (frameClient_gets longFrame.parts).whole with h | ⟨header, h, hd, -⟩
    · rw [h] at hplen
      cases hplen
    · rw [h, Option.map_some, hd.plen] at hplen
      cases hplen
  · intro hall
    have hplen : (ws_read_header 0 noStale cutClient).1.map (·.plen.toNat) = some 0 := by decide
    rcases hall 0 noStale cutClient cutFrame [] (by decide) (by decide) (by decide) with h | ⟨header, h, hd, -⟩
    · rw [h] at hplen
      cases hplen
    · rw [h, Option.map_some, hd.plen] at hplen
      cases hplen

/-! ## Writing a header -/

theorem sendParts_all {c : Client} {parts : List Bytes} (h : (sendParts c parts).1 = true) :
    (sendParts c parts).2.wire = c.wire ++ parts.flatten := by
  induction parts generalizing c with
  | nil => simp [sendParts]
  | cons part parts ih =>
    unfold sendParts at h ⊢
    dsimp only at h ⊢
    split at h
    · rename_i hs
      rw [if_pos hs, ih h, antd_send_all hs, List.append_assoc, List.flatten_cons]
    · cases h

/-- The header goes out whole, or the call fails. -/
theorem send_header_all {c : Client} {header : WsHeader} (h : (_send_header c header).1 = 0) :
    (_send_header c header).2.wire = c.wire ++ (frameHeader header).flatten := by
  unfold _send_header at h ⊢
  dsimp only at h ⊢
  split at h
  · rename_i hs
    exact sendParts_all hs
  · cases h

theorem bit_cases {b : UInt8} (h : b ≤ 1) : b = 0 ∨ b = 1 := by
  have h := UInt8.le_iff_toNat_le.1 h
  rcases Nat.le_one_iff_eq_zero_or_eq_one.1 h with h | h
  · exact .inl (UInt8.toNat_inj.1 h)
  · exact .inr (UInt8.toNat_inj.1 h)

namespace WsHeader

/-- The shortest form of a length. -/
def length (header : WsHeader) : FrameLength :=
  if h : header.plen.toNat < 126 then .short ⟨header.plen.toNat, h⟩
  else if h : header.plen.toNat < 2 ^ 16 then .medium ⟨header.plen.toNat, h⟩
  else .long ⟨header.plen.toNat, header.plen.toNat_lt.trans (by decide)⟩

/-- The frame that a header describes. -/
def frame (header : WsHeader) : Frame where
  fin := header.fin = 1
  rsv := 0
  opcode := Fin.ofNat 16 header.opcode.toNat
  length := header.length
  key := if header.mask = 1 then some header.mask_key else none

/-- Flags of one bit and an opcode of four. -/
structure Valid (header : WsHeader) : Prop where
  fin : header.fin ≤ 1
  mask : header.mask ≤ 1
  opcode : header.opcode < 16

variable {header : WsHeader}

theorem length_value (header : WsHeader) : header.length.value = header.plen.toNat := by
  unfold length
  split
  · rfl
  · split <;> rfl

theorem Valid.first (h : header.Valid) : header.frame.first = (header.fin <<< 7) + header.opcode := by
  have hop := UInt8.lt_iff_toNat_lt.1 h.opcode
  apply UInt8.toNat_inj.1
  rcases bit_cases h.fin with hf | hf <;> simp [frame, Frame.first, hf] at hop ⊢ <;> omega

/-- The second byte, for the seven bits that stand next to the mask bit. -/
theorem Valid.second (h : header.Valid) (code : UInt8) (hc : code.toNat = header.length.code) :
    header.frame.second = (header.mask <<< 7) + code := by
  have hlt := header.length.code_lt
  apply UInt8.toNat_inj.1
  rcases bit_cases h.mask with hm | hm
  · simp [frame, Frame.second, hm, ← hc]
  · simp [frame, Frame.second, hm, hc]

theorem Valid.keyParts (h : header.Valid) :
    header.frame.keyParts = if header.mask ≠ 0 then [List.ofFn header.mask_key] else [] := by
  rcases bit_cases h.mask with hm | hm <;> simp [frame, Frame.keyParts, hm]

theorem low_byte (n : UInt32) : (n &&& 0x00FF).toUInt8 = UInt8.ofNat n.toNat := by
  have h := Nat.and_two_pow_sub_one_eq_mod (n.toNat % 256) 8
  apply UInt8.toNat_inj.1
  simp at h ⊢
  exact h

theorem high_byte (n : UInt32) (k : Nat) (hk : k < 32) : (n >>> UInt32.ofNat k).toUInt8 = UInt8.ofNat (n.toNat / 2 ^ k) := by
  apply UInt8.toNat_inj.1
  simp [Nat.shiftRight_eq_div_pow, Nat.mod_eq_of_lt hk]

theorem mid_byte (n : UInt32) (k : Nat) (hk : k < 32) :
    ((n >>> UInt32.ofNat k) &&& 0x00FF).toUInt8 = UInt8.ofNat (n.toNat / 2 ^ k) := by
  rw [low_byte]
  simp [Nat.shiftRight_eq_div_pow, Nat.mod_eq_of_lt hk]

/-- What is written is the layout of the frame. -/
theorem Valid.frameHeader (h : header.Valid) : frameHeader header = header.frame.parts := by
  have hlt := header.plen.toNat_lt
  have hs := h.second
  unfold AntHttp.frameHeader Frame.parts
  rw [h.first, ← h.keyParts]
  simp only [frame] at hs ⊢
  unfold length at hs ⊢
  by_cases h125 : header.plen ≤ 125
  · have hn : header.plen.toNat < 126 := Nat.lt_succ_of_le (UInt32.le_iff_toNat_le.1 h125)
    rw [dif_pos hn] at hs ⊢
    rw [if_pos h125]
    rw [hs header.plen.toUInt8 (by simp [FrameLength.code]; omega)]
    rfl
  · have hn : ¬ header.plen.toNat < 126 := fun hn => h125 (UInt32.le_iff_toNat_le.2 (Nat.le_of_lt_succ hn))
    have h8 : (header.plen >>> 8).toUInt8 = _ := high_byte header.plen 8 (by decide)
    rw [dif_neg hn] at hs ⊢
    rw [if_neg h125, low_byte, h8]
    by_cases h16 : header.plen < 65536
    · have hn : header.plen.toNat < 2 ^ 16 := UInt32.lt_iff_toNat_lt.1 h16
      rw [dif_pos hn] at hs ⊢
      rw [if_pos h16, hs 126 rfl]
      simp [FrameLength.parts, bigEndian]
    · have hn : ¬ header.plen.toNat < 2 ^ 16 := fun hn => h16 (UInt32.lt_iff_toNat_lt.2 hn)
      have h24 : (header.plen >>> 24).toUInt8 = _ := high_byte header.plen 24 (by decide)
      have h16' : ((header.plen >>> 16) &&& 0x00FF).toUInt8 = _ := mid_byte header.plen 16 (by decide)
      have h8' : ((header.plen >>> 8) &&& 0x00FF).toUInt8 = _ := mid_byte header.plen 8 (by decide)
      have h0 (k : Nat) (hk : 2 ^ 32 ≤ k) : header.plen.toNat / k = 0 := Nat.div_eq_of_lt (hlt.trans_le hk)
      rw [dif_neg hn] at hs ⊢
      rw [if_neg h16, hs 127 rfl, h24, h16', h8']
      simp [FrameLength.parts, bigEndian, h0]

end WsHeader

/-! ## Reading back what was written -/

section

variable {w c : Client} {header : WsHeader} {bs : Bytes} {t : Int} {rest : List RecvEv}

/-- The header is read back, and what follows it is not touched. -/
theorem ws_read_header_reads_back (rand : UInt32) (stale : Stale) (hv : header.Valid) (h8 : header.opcode ≠ WS_CLOSE)
    (h9 : header.opcode ≠ WS_PING) (ha : Arrives c.last_io (frameHeader header).flatten c.input t rest) :
    ∃ header', (ws_read_header rand stale c).1 = some header' ∧ header'.fin = header.fin ∧
      header'.opcode = header.opcode ∧ header'.mask = header.mask ∧ header'.plen = header.plen ∧
      (header.mask = 1 → header'.mask_key = header.mask_key) ∧
      bytesOf (ws_read_header rand stale c).2.input = bytesOf rest := by
  rw [hv.frameHeader] at ha
  have hg : Gets header.frame.fields c := ha.gets
  have hop : ((header.frame.opcode : Fin 16) : Nat) = header.opcode.toNat :=
    Nat.mod_eq_of_lt (UInt8.lt_iff_toNat_lt.1 hv.opcode)
  have hr := ws_read_header_reads rand stale ha.bytesOf hg.whole rfl
    (fun h => h8 (UInt8.toNat_inj.1 (hop ▸ h))) fun h => h9 (UInt8.toNat_inj.1 (hop ▸ h))
  rcases hr with ⟨-, hn⟩ | ⟨header', h, hd, -, hm, -⟩
  · exact absurd hg hn
  · have hplen := header.plen.toNat_lt
    refine ⟨header', h, ?_, ?_, ?_, ?_, ?_, hm⟩
    · apply UInt8.toNat_inj.1
      rw [hd.fin]
      rcases bit_cases hv.fin with hf | hf <;> simp [WsHeader.frame, hf]
    · exact UInt8.toNat_inj.1 (hd.opcode.trans hop)
    · apply UInt8.toNat_inj.1
      rw [hd.mask]
      rcases bit_cases hv.mask with hf | hf <;> simp [WsHeader.frame, hf]
    · apply UInt32.toNat_inj.1
      rw [hd.plen, WsHeader.frame, header.length_value, Nat.mod_eq_of_lt hplen]
    · intro h1
      exact hd.key _ (by simp [WsHeader.frame, h1])

theorem Frame.keyParts_length (f : Frame) : f.keyParts.flatten.length = 4 * f.key.isSome.toNat := by
  unfold Frame.keyParts
  cases f.key <;> simp

/-- The length is written in the shortest form. -/
theorem WsHeader.length_shortest (header : WsHeader) (l : FrameLength) (hl : l.value = header.plen.toNat) :
    header.length.parts.flatten.length ≤ l.parts.flatten.length := by
  unfold WsHeader.length
  split
  · simp [FrameLength.parts]
  · split
    · cases l <;> simp [FrameLength.value, FrameLength.parts] at hl ⊢
      omega
    · cases l <;> simp [FrameLength.value, FrameLength.parts] at hl ⊢ <;> omega

/-- No frame with that length has a shorter header. -/
theorem frameHeader_shortest (hv : header.Valid) (f : Frame) (hl : f.length.value = header.plen.toNat)
    (hk : f.key.isSome ↔ header.mask = 1) : (frameHeader header).flatten.length ≤ f.bytes.length := by
  rw [hv.frameHeader]
  change header.frame.bytes.length ≤ f.bytes.length
  rw [header.frame.bytes_eq, f.bytes_eq]
  have hkey : header.frame.key.isSome = f.key.isSome := by
    rw [Bool.eq_iff_iff, hk]
    by_cases h1 : header.mask = 1 <;> simp [WsHeader.frame, h1]
  have hlen : header.frame.length.parts.flatten.length ≤ f.length.parts.flatten.length := header.length_shortest _ hl
  simp only [List.length_cons, List.length_append, Frame.keyParts_length, hkey]
  omega

/-- The bytes of `_send_header` are read back by `ws_read_header`, and they are the fewest there are. -/
theorem ws_read_header_send_header (rand : UInt32) (stale : Stale) (hv : header.Valid) (h8 : header.opcode ≠ WS_CLOSE)
    (h9 : header.opcode ≠ WS_PING) (hs : (_send_header w header).1 = 0)
    (hw : (_send_header w header).2.wire = w.wire ++ bs) (ha : Arrives c.last_io bs c.input t rest) :
    (∃ header', (ws_read_header rand stale c).1 = some header' ∧ header'.fin = header.fin ∧
      header'.opcode = header.opcode ∧ header'.mask = header.mask ∧ header'.plen = header.plen ∧
      (header.mask = 1 → header'.mask_key = header.mask_key) ∧
      bytesOf (ws_read_header rand stale c).2.input = bytesOf rest) ∧
    ∀ f : Frame, f.length.value = header.plen.toNat → (f.key.isSome ↔ header.mask = 1) → bs.length ≤ f.bytes.length := by
  rw [send_header_all hs, List.append_cancel_left_eq] at hw
  subst hw
  exact ⟨ws_read_header_reads_back rand stale hv h8 h9 ha, frameHeader_shortest hv⟩

end

/-- A connection that takes everything that is sent. -/
def frameServer : Client := ⟨4, false, .ACCEPT, 0, .CNONE, [], List.replicate 4 (.room 1023 0), [], []⟩

/-- A masked text frame of 200 bytes. -/
def maskedHeader : WsHeader := ⟨1, WS_TEXT, 200, 1, fun i => UInt8.ofNat i⟩

theorem ws_read_header_send_header_masked :
    ∃ header', (ws_read_header 0 noStale (frameClient ((frameHeader maskedHeader).flatten ++ [1, 2]))).1 = some header' ∧
      header'.plen = 200 := by
  have hv : maskedHeader.Valid := ⟨by decide, by decide, by decide⟩
  obtain ⟨t, ha⟩ := frameClient_arrives (frameHeader maskedHeader).flatten [1, 2]
  have hw : (_send_header frameServer maskedHeader).2.wire = frameServer.wire ++ (frameHeader maskedHeader).flatten :=
    send_header_all (by decide)
  obtain ⟨⟨header', h, -, -, -, hp, -⟩, -⟩ :=
    ws_read_header_send_header 0 noStale hv (by decide) (by decide) (by decide) hw ha
  exact ⟨header', h, hp⟩

end AntHttp
