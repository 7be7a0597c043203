import AntHttp.Arrivals
import Mathlib.Data.Fin.VecNotation
/-!
# WebSocket frames (`lib/ws.c`)

`rand` is the value of `rand()` at the call. An array that is not initialised
holds what was in its memory before, and so does `mask_key` of a header that
`malloc` has just returned.
-/

set_option linter.style.nameCheck false

namespace AntHttp

-- for the indices into a masking key and a buffer
instance neZero_four : NeZero 4 := ⟨by decide⟩
instance neZero_eight : NeZero 8 := ⟨by decide⟩

def WS_TEXT : UInt8 := 0x1
def WS_CLOSE : UInt8 := 0x8
def WS_PING : UInt8 := 0x9
def WS_PONG : UInt8 := 0xA

/-- `ws_msg_header_t` -/
structure WsHeader where
  fin : UInt8
  opcode : UInt8
  plen : UInt32
  mask : UInt8
  mask_key : Fin 4 → UInt8

/-- `BITV(v, i)` on a byte. -/
def BITV (v i : UInt8) : UInt8 := (v &&& (1 <<< i)) >>> i

/-- `(int)plen` -/
def WsHeader.len (header : WsHeader) : Int := CString.int32 header.plen.toNat

/-- `mask_key[i % 4]` -/
def WsHeader.key (header : WsHeader) (i : Nat) : UInt8 := header.mask_key (Fin.ofNat 4 i)

/-- Each byte of `data` with the key byte of its index. -/
def WsHeader.xor (header : WsHeader) (data : Bytes) : Bytes := data.mapIdx fun i b => b ^^^ header.key i

/-! ## Writing a frame -/

def ws_gen_mask_key (rand : UInt32) (header : WsHeader) : WsHeader :=
  { header with mask_key := ![(rand >>> 24).toUInt8, (rand >>> 16).toUInt8, (rand >>> 8).toUInt8, rand.toUInt8] }

/-- Sends the blocks until one is cut short: whether all of them were sent. -/
def sendParts (client : Client) : List Bytes → Bool × Client
  | [] => (true, client)
  | part :: parts =>
    let (ret, client) := antd_send client part
    if ret = part.length then sendParts client parts else (false, client)

/-- The blocks of `_send_header`: the two first bytes, the rest of the length and the key. -/
def frameHeader (header : WsHeader) : List Bytes :=
  let first := [(header.fin <<< 7) + header.opcode]
  let plen := header.plen
  let length :=
    if plen ≤ 125 then [[(header.mask <<< 7) + plen.toUInt8]]
    else if plen < 65536 then
      [[(header.mask <<< 7) + 126], [(plen >>> 8).toUInt8, (plen &&& 0x00FF).toUInt8]]
    else
      [[(header.mask <<< 7) + 127],
        [0, 0, 0, 0, (plen >>> 24).toUInt8, ((plen >>> 16) &&& 0x00FF).toUInt8, ((plen >>> 8) &&& 0x00FF).toUInt8,
          (plen &&& 0x00FF).toUInt8]]
  first :: length ++ (if header.mask ≠ 0 then [List.ofFn header.mask_key] else [])

def _send_header (client : Client) (header : WsHeader) : Int × Client :=
  let r := sendParts client (frameHeader header)
  (if r.1 then 0 else -1, r.2)

/-- The copy of the header that is sent: a masked frame gets a new key. -/
def WsHeader.sent (rand : UInt32) (header : WsHeader) : WsHeader :=
  if header.mask ≠ 0 then ws_gen_mask_key rand header else header

/-- `data` holds `plen` bytes. -/
def ws_send_frame (rand : UInt32) (client : Client) (data : Bytes) (header : WsHeader) : Int × Client :=
  let header := header.sent rand
  let masked := if header.mask ≠ 0 then header.xor data else data
  let (ret, client) := _send_header client header
  if ret ≠ 0 then (-1, client)
  else
    let (ret, client) := antd_send client (masked.take header.len.toNat)
    (if ret ≠ header.len then -1 else 0, client)

def ws_send_close (rand : UInt32) (client : Client) (status : UInt32) (mask : UInt8) : Int × Client :=
  let bytes := [(status >>> 8).toUInt8, (status &&& 0xFF).toUInt8]
  ws_send_frame rand client bytes ⟨1, WS_CLOSE, 2, mask, fun _ => 0⟩

/-! ## Reading a frame -/

/-- The return value, the bytes stored in `data`, the header and the client. -/
def ws_read_data (client : Client) (header : WsHeader) (len : Int) : Int × Bytes × WsHeader × Client :=
  if header.plen = 0 then (0, [], header, client)
  else
    let dlen := if len = -1 ∨ len > header.len then header.len else len
    let (dlen, data, client) := antd_recv client dlen.toNat
    if dlen ≤ 0 then (-1, [], header, client)
    else
      let data := if header.mask ≠ 0 then header.xor data else data
      (dlen, data, { header with plen := header.plen - UInt32.ofInt dlen }, client)

/-- The payload of a ping goes back; `buf` is the memory that `malloc` returns. -/
def ws_pong (rand : UInt32) (buf : Nat → UInt8) (client : Client) (oheader : WsHeader) (mask : UInt8) :
    Int × WsHeader × Client :=
  let (ret, data, header, client) := ws_read_data client oheader oheader.len
  if ret = -1 then (-1, header, client)
  else
    let data := (List.range oheader.plen.toNat).map fun i => data.getD i (buf i)
    let r := ws_send_frame rand client data ⟨1, WS_PONG, oheader.plen, mask, fun _ => 0⟩
    (r.1, header, r.2)

/-- What the memory of `ws_read_header` held before: `bytes`, `header->mask_key` and the buffer of `ws_pong`. -/
structure Stale where
  bytes : Fin 8 → UInt8
  mask_key : Fin 4 → UInt8
  buf : Nat → UInt8

/-- An array after `antd_recv` into it, unless the call failed. -/
def recvArray {n : Nat} (client : Client) (old : Fin n → UInt8) (len : Nat) : Option (Fin n → UInt8) × Client :=
  let (ret, data, client) := antd_recv client len
  (if ret ≤ 0 then none else some fun i => data.getD i (old i), client)

/-- The length of the payload; `len` is the length field of the second byte. -/
def readLength (stale : Stale) (client : Client) (len : UInt8) : Option UInt32 × Client :=
  if len ≤ 125 then (some len.toUInt32, client)
  else if len = 126 then
    let (bytes, client) := recvArray client stale.bytes 2
    (bytes.map fun bytes => ((bytes 0).toUInt32 <<< (8 : UInt32)) + (bytes 1).toUInt32, client)
  else
    -- read only last 4 byte
    let (bytes, client) := recvArray client stale.bytes 8
    (bytes.map fun bytes =>
      ((bytes 4).toUInt32 <<< (24 : UInt32)) + ((bytes 5).toUInt32 <<< (16 : UInt32)) + ((bytes 6).toUInt32 <<< (8 : UInt32)) + (bytes 7).toUInt32,
      client)

/-- The key of a masked frame; another one has no key. -/
def readKey (stale : Stale) (client : Client) (mask : UInt8) : Option (Fin 4 → UInt8) × Client :=
  if mask ≠ 0 then recvArray client stale.mask_key 4 else (some stale.mask_key, client)

/-- A close or a ping is answered at once. -/
def answerControl (rand : UInt32) (stale : Stale) (client : Client) (header : WsHeader) : WsHeader × Client :=
  let mask : UInt8 := if header.mask ≠ 0 then 0 else 1
  if header.opcode = WS_CLOSE then (header, (ws_send_close rand client 1000 mask).2)
  else if header.opcode = WS_PING then (ws_pong rand stale.buf client header mask).2
  else (header, client)

/-- `goto fail` if a call has failed. -/
def orFail {α β : Type} (r : Option α × Client) (next : α → Client → Option β × Client) : Option β × Client :=
  match r with
  | (none, client) => (none, client)
  | (some a, client) => next a client

def ws_read_header (rand : UInt32) (stale : Stale) (client : Client) : Option WsHeader × Client :=
  orFail (recvArray client (fun _ : Fin 1 => 0) 1) fun byte client =>
    -- all RSV bit must be 0
    if BITV (byte 0) 6 ≠ 0 ∨ BITV (byte 0) 5 ≠ 0 ∨ BITV (byte 0) 4 ≠ 0 then (none, client)
    else
      let fin := BITV (byte 0) 7
      let opcode := byte 0 &&& 0x0F
      orFail (recvArray client byte 1) fun byte client =>
        let mask := BITV (byte 0) 7
        orFail (readLength stale client (byte 0 &&& 0x7F)) fun plen client =>
          orFail (readKey stale client mask) fun mask_key client =>
            let r := answerControl rand stale client ⟨fin, opcode, plen, mask, mask_key⟩
            (some r.1, r.2)

end AntHttp
