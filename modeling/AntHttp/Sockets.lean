import AntHttp.Arrivals
import AntHttp.Lib.Buffer
/-!
# Partial transfers on a plain socket (`antd_recv`, `antd_send` in `lib/handle.c`)

Both loops go on from an offset until all of a block is transferred, a call
fails or nothing has moved for too long; each call is asked for what is left,
1024 bytes at most. Here the loops run call by call on the caller's block, and
`Handle.lean` says of them what a whole block comes to.
-/

namespace AntHttp.Plain

open Buffer

/-! ## The calls -/

/-- What a `recv` call comes to: its result, the bytes that it stores, whether `errno` is `EAGAIN` or `EWOULDBLOCK`
afterwards, the time and the outcomes left. -/
structure RecvCall where
  received : Int
  bytes : Bytes
  again : Bool
  now : Int
  rest : List RecvEv

/-- `recv(sock, buf, n, 0)` -/
def recv (n : Nat) : List RecvEv → RecvCall
  | .byte b last now :: evs =>
    let r := recvBytes now n (.byte b last now :: evs)
    ⟨r.1.length, r.1, false, r.2.1, r.2.2⟩
  | .again now :: evs => ⟨-1, [], true, now, evs⟩
  | .closed stale now :: evs => ⟨0, [], stale, now, evs⟩
  | .error now :: evs => ⟨-1, [], false, now, evs⟩
  | [] => ⟨-1, [], false, 0, []⟩

/-- The same of a `send` call. -/
structure SendCall where
  count : Int
  again : Bool
  now : Int
  rest : List SendEv

/-- `send(sock, buf, n, 0)` -/
def send (n : Nat) : List SendEv → SendCall
  | .room k now :: evs => ⟨(min (k + 1) n : Nat), true, now, evs⟩
  | .again now :: evs => ⟨-1, true, now, evs⟩
  | .closed now :: evs => ⟨0, false, now, evs⟩
  | .error now :: evs => ⟨-1, false, now, evs⟩
  | [] => ⟨-1, false, 0, []⟩

theorem recv_lt {n : Nat} {evs : List RecvEv} (h : 0 < (recv n evs).received ∨ (recv n evs).again = true) :
    (recv n evs).rest.length < evs.length := by
  cases evs with
  | nil => simp [recv] at h
  | cons e evs =>
    cases e with
    | byte b last now =>
      cases n with
      | zero => simp [recv, recvBytes] at h
      | succ n =>
        have hle := (recvBytes_le now (n + 1) (.byte b last now :: evs)).1
        have hone : 1 ≤ (recvBytes now (n + 1) (.byte b last now :: evs)).1.length := by
          rw [recvBytes]
          split <;> simp
        change (recvBytes now (n + 1) (.byte b last now :: evs)).2.2.length < _
        omega
    | again | closed | error => exact Nat.lt_succ_self _

theorem send_lt {n : Nat} {evs : List SendEv}
    (h : 0 < (send n evs).count ∨ ¬ ((send n evs).count = -1 ∧ (send n evs).again = false)) :
    (send n evs).rest.length < evs.length := by
  cases evs with
  | nil => simp [send] at h
  | cons e evs => cases e <;> exact Nat.lt_succ_self _

/-! ## The loops -/

/-- Where the loop of `antd_recv` stands; `asked` lists the offset and the amount of each call. -/
structure Receiving where
  ptr : Buffer
  read : Nat
  readlen : Nat
  last_io : Int
  evs : List RecvEv
  asked : List (Nat × Nat)

def recvLoop (len : Nat) (s : Receiving) : Except Buffer.Fault (Int × Receiving) :=
  if s.readlen = 0 then .ok (s.read, s)
  else
    let c := recv s.readlen s.evs
    let asked := s.asked ++ [(s.read, s.readlen)]
    if _hgot : 0 < c.received then
      match put s.ptr s.read c.bytes with
      | .error e => .error e
      | .ok ptr =>
        let read := s.read + c.received.toNat
        recvLoop len ⟨ptr, read, min BUFFLEN (len - read), c.now, c.rest, asked⟩
    else if _hlate : c.now - s.last_io > MAX_IO_WAIT_TIME ∨ c.again = false then
      .ok (if s.read = 0 then c.received else s.read, { s with evs := c.rest, asked := asked })
    else recvLoop len { s with evs := c.rest, asked := asked }
termination_by s.evs.length
decreasing_by
  · exact recv_lt (.inl _hgot)
  · exact recv_lt (.inr (by simpa using (not_or.1 _hlate).2))

/-- A block of `len` bytes is received into `data`. -/
def antd_recv (data : Buffer) (len : Nat) (last_io : Int) (evs : List RecvEv) : Except Buffer.Fault (Int × Receiving) :=
  recvLoop len ⟨data, 0, min BUFFLEN len, last_io, evs, []⟩

/-- Where the loop of `antd_send` stands. -/
structure Writing where
  written : Nat
  writelen : Nat
  last_io : Int
  evs : List SendEv
  wire : Bytes
  asked : List (Nat × Nat)

def sendLoop (data : Bytes) (len : Nat) (s : Writing) : Except Buffer.Fault (Int × Writing) :=
  if s.writelen = 0 then .ok (s.written, s)
  -- the call may look at all that it is asked to send
  else if data.length < s.written + s.writelen then .error .bounds
  else
    let c := send s.writelen s.evs
    let asked := s.asked ++ [(s.written, s.writelen)]
    if _hput : 0 < c.count then
      let written := s.written + c.count.toNat
      let wire := s.wire ++ (data.drop s.written).take c.count.toNat
      sendLoop data len ⟨written, min BUFFLEN (len - written), c.now, c.rest, wire, asked⟩
    else if _hlate : c.now - s.last_io > MAX_IO_WAIT_TIME ∨ (c.count = -1 ∧ c.again = false) then
      .ok (if s.written = 0 then c.count else s.written, { s with evs := c.rest, asked := asked })
    else sendLoop data len { s with evs := c.rest, asked := asked }
termination_by s.evs.length
decreasing_by
  · exact send_lt (.inl _hput)
  · exact send_lt (.inr (not_or.1 _hlate).2)

/-- The first `len` bytes of `data` are sent. -/
def antd_send (data : Bytes) (len : Nat) (last_io : Int) (evs : List SendEv) (wire : Bytes) :
    Except Buffer.Fault (Int × Writing) :=
  sendLoop data len ⟨0, min BUFFLEN len, last_io, evs, wire, []⟩

/-! ## What one call does -/

/-- A call takes from the stream what it stores, as much as it returns and no more than it was asked for. -/
structure RecvCall.Takes (n : Nat) (evs : List RecvEv) (c : RecvCall) : Prop where
  stream : bytesOf evs = c.bytes ++ bytesOf c.rest
  within : c.bytes.length ≤ n
  count : c.bytes.length = c.received.toNat

theorem bytesOf_recvBytes (t : Int) (n : Nat) (evs : List RecvEv) :
    bytesOf evs = (recvBytes t n evs).1 ++ bytesOf (recvBytes t n evs).2.2 := by
  fun_induction recvBytes t n evs with
  | case1 | case3 => rfl
  | case2 t n b last now evs hl r ih => simp only [bytesOf, ih, r, List.cons_append]

theorem recv_takes (n : Nat) (evs : List RecvEv) : (recv n evs).Takes n evs := by
  cases evs with
  | nil => exact ⟨rfl, Nat.zero_le _, rfl⟩
  | cons e evs =>
    cases e with
    | byte b last now => exact ⟨bytesOf_recvBytes .., (recvBytes_le ..).2, rfl⟩
    | again | closed | error => exact ⟨rfl, Nat.zero_le _, rfl⟩

theorem send_count_le (n : Nat) (evs : List SendEv) : (send n evs).count ≤ n := by
  cases evs with
  | nil => change (-1 : Int) ≤ n; omega
  | cons e evs => cases e <;> simp only [send] <;> omega

/-! ## What the loops come to -/

/-- Every call was asked for something, 1024 bytes at most, and none beyond the block. -/
def Within (len : Nat) (asked : List (Nat × Nat)) : Prop := ∀ a ∈ asked, 0 < a.2 ∧ a.2 ≤ BUFFLEN ∧ a.1 + a.2 ≤ len

theorem Within.snoc {len : Nat} {asked : List (Nat × Nat)} (h : Within len asked) {off n : Nat}
    (hn : n = min BUFFLEN (len - off))
    (h0 : n ≠ 0) : Within len (asked ++ [(off, n)]) := by
  intro a ha
  rcases List.mem_append.1 ha with ha | ha
  · exact h a ha
  · obtain rfl := List.mem_singleton.1 ha
    exact ⟨by simp only; omega, by simp only; omega, by simp only; omega⟩

/-- The bytes taken from the stream are at the start of the block, and the rest of it is as it was. -/
structure Receiving.Holds (data : Buffer) (len : Nat) (evs : List RecvEv) (bytes : Bytes) (s : Receiving) : Prop where
  stream : bytesOf evs = bytes ++ bytesOf s.evs
  stored : s.ptr = bytes.map some ++ data.drop bytes.length
  within : bytes.length ≤ len
  asked : Within len s.asked

/-- Between two calls. -/
structure Receiving.Inv (data : Buffer) (len : Nat) (evs : List RecvEv) (bytes : Bytes) (s : Receiving) : Prop extends
    s.Holds data len evs bytes where
  read : s.read = bytes.length
  readlen : s.readlen = min BUFFLEN (len - s.read)

section Receive

variable {data ptr : Buffer} {len n : Nat} {evs : List RecvEv} {bytes : Bytes} {s : Receiving}

/-- A call that fails leaves the block alone. -/
theorem Receiving.Inv.failed (h : s.Inv data len evs bytes) (h0 : s.readlen ≠ 0)
    (hfail : (recv s.readlen s.evs).received ≤ 0) :
    Receiving.Inv data len evs bytes
      { s with evs := (recv s.readlen s.evs).rest, asked := s.asked ++ [(s.read, s.readlen)] } := by
  have hc := recv_takes s.readlen s.evs
  have hnil : (recv s.readlen s.evs).bytes = [] := List.length_eq_zero_iff.1 (by rw [hc.count]; omega)
  have hstream := hc.stream
  rw [hnil, List.nil_append] at hstream
  exact {
    stream := by rw [h.stream, hstream]
    stored := h.stored
    within := h.within
    asked := h.asked.snoc h.readlen h0
    read := h.read
    readlen := h.readlen }

/-- What a call stores comes behind what has been read. -/
theorem Receiving.Inv.put (h : s.Inv data len evs bytes) (hlen : len ≤ data.length) (h0 : s.readlen ≠ 0) :
    let c := recv s.readlen s.evs
    ∃ ptr, Buffer.put s.ptr s.read c.bytes = .ok ptr ∧
      Receiving.Inv data len evs (bytes ++ c.bytes)
        ⟨ptr, s.read + c.received.toNat, min BUFFLEN (len - (s.read + c.received.toNat)), c.now, c.rest,
          s.asked ++ [(s.read, s.readlen)]⟩ := by
  intro c
  have hc : c.Takes s.readlen s.evs := recv_takes s.readlen s.evs
  have hwithin := hc.within
  have hread := h.read
  have hreadlen := h.readlen
  have hmap : (bytes.map some).length = bytes.length := List.length_map _
  have hfit : s.read + c.bytes.length ≤ s.ptr.length := by
    rw [h.stored, List.length_append, hmap, List.length_drop]
    omega
  refine ⟨_, put_ok hfit, ⟨?_, ?_, ?_, h.asked.snoc h.readlen h0⟩, ?_, rfl⟩
  · rw [h.stream, hc.stream, List.append_assoc]
  · rw [h.stored, hread, List.take_left' hmap, ← hmap, List.drop_length_add_append, List.drop_drop, hmap, List.map_append,
      List.length_append]
  · rw [List.length_append]
    omega
  · rw [List.length_append, hread, hc.count]

/-- The loop stops with a number of bytes, or with a failure before the first. -/
theorem recvLoop_holds (h : s.Inv data len evs bytes) (hlen : len ≤ data.length) :
    ∃ ret s' all, recvLoop len s = .ok (ret, s') ∧ s'.Holds data len evs all ∧ (0 < ret → ret = all.length) ∧
      (ret ≤ 0 → all = []) := by
  fun_induction recvLoop len s generalizing bytes with
  | case1 s h0 =>
    refine ⟨_, s, bytes, rfl, h.toHolds, fun _ => by rw [h.read], fun hle => ?_⟩
    have hread := h.read
    exact List.length_eq_zero_iff.1 (by omega)
  | case2 s h0 c hgot e =>
    rename_i he
    -- the block has room for what is asked
    obtain ⟨ptr, hptr, -⟩ := h.put hlen h0
    cases hptr.symm.trans he
  | case3 s h0 c asked hgot ptr hptr read =>
    rename_i ih
    obtain ⟨ptr', hptr', hinv⟩ := h.put hlen h0
    cases hptr'.symm.trans hptr
    exact ih hinv
  | case4 s h0 c asked hgot =>
    have hinv := h.failed h0 (Int.not_lt.1 hgot)
    refine ⟨_, _, bytes, rfl, hinv.toHolds, ?_, ?_⟩
    · intro hpos
      split at hpos
      · exact absurd hpos hgot
      · rename_i hread
        rw [if_neg hread, h.read]
    · intro hle
      have hread := h.read
      split at hle
      · exact List.length_eq_zero_iff.1 (by omega)
      · omega
  | case5 s h0 c asked hgot hlate =>
    rename_i ih
    exact ih (h.failed h0 (Int.not_lt.1 hgot))

theorem receiving_start (data : Buffer) (len : Nat) (last_io : Int) (evs : List RecvEv) :
    Receiving.Inv data len evs [] ⟨data, 0, min BUFFLEN len, last_io, evs, []⟩ where
  stream := rfl
  stored := rfl
  within := Nat.zero_le len
  asked := nofun
  read := rfl
  readlen := rfl

theorem antd_recv_holds (hlen : len ≤ data.length) (last_io : Int) (evs : List RecvEv) :
    ∃ ret s bytes, antd_recv data len last_io evs = .ok (ret, s) ∧ s.Holds data len evs bytes ∧
      (0 < ret → ret = bytes.length) ∧ (ret ≤ 0 → bytes = []) := by
  exact recvLoop_holds (receiving_start ..) hlen

end Receive

/-- What was written is on the wire, behind what was there. -/
structure Writing.Sent (data : Bytes) (len : Nat) (wire : Bytes) (s : Writing) : Prop where
  wire : s.wire = wire ++ data.take s.written
  within : s.written ≤ len
  asked : Within len s.asked

/-- Between two calls. -/
structure Writing.Inv (data : Bytes) (len : Nat) (wire : Bytes) (s : Writing) : Prop extends s.Sent data len wire where
  writelen : s.writelen = min BUFFLEN (len - s.written)

section Send

variable {data wire : Bytes} {len : Nat} {s : Writing}

theorem Writing.Inv.failed (h : s.Inv data len wire) (h0 : s.writelen ≠ 0) (evs : List SendEv) :
    Writing.Inv data len wire { s with evs := evs, asked := s.asked ++ [(s.written, s.writelen)] } where
  wire := h.wire
  within := h.within
  asked := h.asked.snoc h.writelen h0
  writelen := h.writelen

/-- What a call sends follows what has been written. -/
theorem Writing.Inv.sent (h : s.Inv data len wire) (h0 : s.writelen ≠ 0) :
    let c := send s.writelen s.evs
    Writing.Inv data len wire
      ⟨s.written + c.count.toNat, min BUFFLEN (len - (s.written + c.count.toNat)), c.now, c.rest,
        s.wire ++ (data.drop s.written).take c.count.toNat, s.asked ++ [(s.written, s.writelen)]⟩ := by
  intro c
  have hcount : c.count ≤ s.writelen := send_count_le ..
  have hwritelen := h.writelen
  have hwithin := h.within
  exact {
    wire := by rw [h.wire, List.append_assoc, ← List.take_add]
    within := by simp only; omega
    asked := h.asked.snoc h.writelen h0
    writelen := rfl }

/-- The loop stops with a number of bytes, or with a failure before the first. -/
theorem sendLoop_sent (h : s.Inv data len wire) (hlen : len ≤ data.length) :
    ∃ ret s', sendLoop data len s = .ok (ret, s') ∧ s'.Sent data len wire ∧ ret.toNat = s'.written := by
  fun_induction sendLoop data len s with
  | case1 s h0 => exact ⟨_, s, rfl, h.toSent, rfl⟩
  | case2 s h0 hout =>
    -- what is asked for lies in the data
    have hwritelen := h.writelen
    omega
  | case3 s h0 hin c asked hput written wire' ih => exact ih (h.sent h0)
  | case4 s h0 hin c asked hput =>
    refine ⟨_, _, rfl, (h.failed h0 _).toSent, ?_⟩
    simp only
    split <;> omega
  | case5 s h0 hin c asked hput hlate =>
    rename_i ih
    exact ih (h.failed h0 _)

theorem writing_start (data : Bytes) (len : Nat) (last_io : Int) (evs : List SendEv) (wire : Bytes) :
    Writing.Inv data len wire ⟨0, min BUFFLEN len, last_io, evs, wire, []⟩ where
  wire := (List.append_nil wire).symm
  within := Nat.zero_le len
  asked := nofun
  writelen := rfl

theorem antd_send_sent (hlen : len ≤ data.length) (last_io : Int) (evs : List SendEv) (wire : Bytes) :
    ∃ ret s, antd_send data len last_io evs wire = .ok (ret, s) ∧ s.Sent data len wire ∧ ret.toNat = s.written := by
  exact sendLoop_sent (writing_start ..) hlen

end Send

/-- `antd_recv` stores what it takes from the stream at the start of the block, never beyond it, and returns its size;
`antd_send` puts that much of the data on the wire, and asks for no more than there is. -/
theorem plain_transfers (len : Nat) :
    (∀ (data : Buffer) (last_io : Int) (evs : List RecvEv), len ≤ data.length →
      ∃ ret s bytes, antd_recv data len last_io evs = .ok (ret, s) ∧ s.Holds data len evs bytes ∧
        (0 < ret → ret = bytes.length) ∧ (ret ≤ 0 → bytes = [])) ∧
    ∀ (data : Bytes) (last_io : Int) (evs : List SendEv) (wire : Bytes), len ≤ data.length →
      ∃ ret s, antd_send data len last_io evs wire = .ok (ret, s) ∧ s.wire = wire ++ data.take ret.toNat ∧
        ret.toNat ≤ len ∧ Within len s.asked := by
  constructor
  · intro data last_io evs hlen
    exact antd_recv_holds hlen last_io evs
  · intro data last_io evs wire hlen
    obtain ⟨ret, s, hs, hsent, hret⟩ := antd_send_sent hlen last_io evs wire
    exact ⟨ret, s, hs, hret ▸ hsent.wire, hret ▸ hsent.within, hsent.asked⟩

/-- A block in two parts with a pause between them, and one that the peer does not read to its end. -/
theorem plain_transfers_parts :
    (∃ ret s bytes,
      antd_recv (uninit 3) 3 0 [.byte 97 true 0, .again 1, .byte 98 false 1, .byte 99 true 1] = .ok (ret, s) ∧
      s.Holds (uninit 3) 3 [.byte 97 true 0, .again 1, .byte 98 false 1, .byte 99 true 1] bytes ∧
        (0 < ret → ret = bytes.length) ∧ (ret ≤ 0 → bytes = [])) ∧
    ∃ ret s, antd_send [97, 98, 99] 3 0 [.room 1 0, .error 1] [] = .ok (ret, s) ∧
      s.wire = [] ++ [97, 98, 99].take ret.toNat ∧ ret.toNat ≤ 3 ∧ Within 3 s.asked := by
  obtain ⟨hrecv, hsend⟩ := plain_transfers 3
  exact ⟨hrecv (uninit 3) 0 _ (by decide), hsend [97, 98, 99] 0 _ [] (by decide)⟩

/-! ## What a whole block comes to -/

section Blocks

variable {t : Int} {n k : Nat} {evs : List RecvEv}

/-- What is returned after `done` bytes if the loop then moves `bytes`: the last call's value if nothing was moved at
all. -/
def total (done : Nat) (bytes : Bytes) (count : Int) : Int :=
  if done = 0 ∧ bytes = [] then count else (done + bytes.length : Nat)

theorem total_nil (done : Nat) (count : Int) : total done [] count = if done = 0 then count else (done : Int) := by
  simp only [total, and_true, List.length_nil, Nat.add_zero]

theorem total_zero (done : Nat) : total done [] 0 = done := by
  rw [total_nil]
  split
  · rename_i hdone
    rw [hdone]
    rfl
  · rfl

theorem total_append {bytes : Bytes} (h : bytes ≠ []) (done : Nat) (more : Bytes) (count : Int) :
    total done (bytes ++ more) count = total (done + bytes.length) more count := by
  have hpos : 0 < bytes.length := List.length_pos_iff.2 h
  have hne : ¬ (done = 0 ∧ bytes ++ more = []) := fun hb => h (List.append_eq_nil_iff.1 hb.2).1
  have hne' : ¬ (done + bytes.length = 0 ∧ more = []) := fun hb => by omega
  rw [total, total, if_neg hne, if_neg hne', List.length_append, Nat.add_assoc]

/-- The bytes of a call come first, and the loop goes on behind them. -/
theorem recvLoop_recvBytes (h : k ≤ n) : AntHttp.recvLoop t n evs =
    let r := recvBytes t k evs
    let more := AntHttp.recvLoop r.2.1 (n - r.1.length) r.2.2
    { more with data := r.1 ++ more.data } := by
  induction k generalizing t n evs with
  | zero => rfl
  | succ k ih =>
    obtain ⟨n, rfl⟩ : ∃ m, n = m + 1 := ⟨n - 1, by omega⟩
    cases evs with
    | nil => rfl
    | cons e evs =>
      cases e with
      | byte b last now =>
        rw [recvBytes, AntHttp.recvLoop]
        cases last with
        | true => rfl
        | false =>
          simp only [Bool.false_eq_true, if_false, List.length_cons, Nat.add_sub_add_right]
          rw [ih (n := n) (by omega)]
          rfl
      | again | closed | error => rfl

/-- One call and what the loop makes of it. -/
theorem recvLoop_recv (h0 : 0 < k) (hk : k ≤ n) : AntHttp.recvLoop t n evs =
    let c := recv k evs
    if 0 < c.received then
      let more := AntHttp.recvLoop c.now (n - c.bytes.length) c.rest
      { more with data := c.bytes ++ more.data }
    else if c.now - t > MAX_IO_WAIT_TIME ∨ c.again = false then ⟨[], c.received, t, c.rest⟩
    else AntHttp.recvLoop t n c.rest := by
  obtain ⟨k, rfl⟩ : ∃ m, k = m + 1 := ⟨k - 1, by omega⟩
  obtain ⟨n, rfl⟩ : ∃ m, n = m + 1 := ⟨n - 1, by omega⟩
  cases evs with
  | nil => simp [recv, AntHttp.recvLoop]
  | cons e evs =>
    cases e with
    | byte b last now =>
      have hpos : 0 < (recvBytes now (k + 1) (.byte b last now :: evs)).1.length := by
        rw [recvBytes]
        split <;> simp
      rw [recvLoop_recvBytes hk]
      simp only [recv]
      rw [if_pos (by omega)]
      rfl
    | again now => simp [recv, AntHttp.recvLoop]
    | closed stale now => simp [recv, AntHttp.recvLoop]
    | error now => simp [recv, AntHttp.recvLoop]

theorem recvLoop_block {data : Buffer} {len : Nat} {bytes : Bytes} {evs₀ : List RecvEv} {s : Receiving}
    (h : s.Inv data len evs₀ bytes) (hlen : len ≤ data.length) :
    let r := AntHttp.recvLoop s.last_io (len - s.read) s.evs
    ∃ s', recvLoop len s = .ok (total s.read r.data r.received, s') ∧
      s'.last_io = r.last_io ∧ s'.evs = r.input := by
  -- each call of the loop is one of the loop on the whole block; the bytes it brings come first there
  fun_induction recvLoop len s generalizing bytes with
  | case1 s h0 =>
    have hreadlen := h.readlen
    have hbuf : 0 < BUFFLEN := by decide
    have hnone : len - s.read = 0 := by omega
    have hzero : AntHttp.recvLoop s.last_io 0 s.evs = ⟨[], 0, s.last_io, s.evs⟩ := by rw [AntHttp.recvLoop]
    rw [hnone, hzero]
    refine ⟨s, ?_, rfl, rfl⟩
    rw [total_zero]
  | case2 s h0 c hgot e =>
    -- the bytes lie in the block
    rename_i he
    obtain ⟨ptr, hptr, -⟩ := h.put hlen h0
    cases hptr.symm.trans he
  | case3 s h0 c asked hgot ptr hptr read =>
    rename_i ih
    have hreadlen := h.readlen
    have hcount : c.bytes.length = c.received.toNat := (recv_takes s.readlen s.evs).count
    obtain ⟨ptr', hptr', hinv⟩ := h.put hlen h0
    cases hptr'.symm.trans hptr
    obtain ⟨s', hs', hlast, hevs⟩ := ih hinv
    have hrest : len - s.read - c.bytes.length = len - read := by omega
    rw [recvLoop_recv (k := s.readlen) (by omega) (by omega)]
    simp only
    rw [if_pos hgot, hrest]
    refine ⟨s', ?_, hlast, hevs⟩
    have hne : c.bytes ≠ [] := List.ne_nil_of_length_pos (by omega)
    rw [hs', total_append hne, hcount]
  | case4 s h0 c asked hgot =>
    rename_i hlate
    have hreadlen := h.readlen
    rw [recvLoop_recv (k := s.readlen) (by omega) (by omega)]
    simp only
    rw [if_neg hgot, if_pos hlate]
    refine ⟨{ s with evs := c.rest, asked := asked }, ?_, rfl, rfl⟩
    rw [total_nil]
  | case5 s h0 c asked hgot hlate =>
    rename_i ih
    have hreadlen := h.readlen
    rw [recvLoop_recv (k := s.readlen) (by omega) (by omega)]
    simp only
    rw [if_neg hgot, if_neg hlate]
    exact ih (h.failed h0 (Int.not_lt.1 hgot))

/-- A block is received as the whole of it says. -/
theorem antd_recv_block {data : Buffer} {len : Nat} (hlen : len ≤ data.length) (source : Client) :
    ∃ s, antd_recv data len source.last_io source.input = .ok ((AntHttp.antd_recv source len).1, s) ∧
      s.ptr = (AntHttp.antd_recv source len).2.1.map some ++ data.drop (AntHttp.antd_recv source len).2.1.length ∧
      (AntHttp.antd_recv source len).2.2 = { source with last_io := s.last_io, input := s.evs } := by
  have hstart : Receiving.Inv data len source.input [] ⟨data, 0, min BUFFLEN len, source.last_io, source.input, []⟩ :=
    receiving_start ..
  obtain ⟨s, hs, hlast, hevs⟩ := recvLoop_block hstart hlen
  obtain ⟨ret, s', bytes, hs', hholds, -, -⟩ := recvLoop_holds hstart hlen
  cases hs'.symm.trans hs
  -- both took the same bytes from the stream
  have hbytes : bytes = (AntHttp.recvLoop source.last_io len source.input).data := by
    have hstream := hholds.stream
    rw [recvLoop_bytesOf source.last_io len source.input] at hstream
    exact (List.append_cancel_right (hevs ▸ hstream)).symm
  refine ⟨s, ?_, ?_, ?_⟩
  · refine hs.trans ?_
    simp [total, AntHttp.antd_recv]
  · rw [hholds.stored, hbytes]
    rfl
  · rw [hlast, hevs]
    rfl

variable {d : Bytes} {out : List SendEv}

/-- One call and what the loop makes of it. -/
theorem sendLoop_send (h : d ≠ []) : AntHttp.sendLoop t d out =
    let c := send (min BUFFLEN d.length) out
    if 0 < c.count then
      let more := AntHttp.sendLoop c.now (d.drop c.count.toNat) c.rest
      { more with data := d.take c.count.toNat ++ more.data }
    else if c.now - t > MAX_IO_WAIT_TIME ∨ (c.count = -1 ∧ c.again = false) then ⟨[], c.count, t, c.rest⟩
    else AntHttp.sendLoop t d c.rest := by
  obtain ⟨b, d, rfl⟩ := List.exists_cons_of_ne_nil h
  cases out with
  | nil => simp [send, AntHttp.sendLoop]
  | cons e out =>
    cases e with
    | room k now =>
      have hcount : ((min (k + 1) (min BUFFLEN (b :: d).length) : Nat) : Int).toNat =
          min (k + 1) (min (b :: d).length BUFFLEN) := by
        rw [Int.toNat_natCast, Nat.min_comm BUFFLEN]
      have hpos : 0 < (send (min BUFFLEN (b :: d).length) (.room k now :: out)).count := by
        have hbuf : 0 < BUFFLEN := by decide
        simp only [send, List.length_cons]
        omega
      refine Eq.trans ?_ (if_pos hpos).symm
      simp only [send, hcount, AntHttp.sendLoop]
    | again now => simp [send, AntHttp.sendLoop]
    | closed now => simp [send, AntHttp.sendLoop]
    | error now => simp [send, AntHttp.sendLoop]

/-- What is left to send as long as the loop goes on. -/
theorem Writing.Inv.unsent {data wire : Bytes} {s : Writing} (h : s.Inv data data.length wire) (h0 : s.writelen ≠ 0) :
    data.drop s.written ≠ [] ∧ min BUFFLEN (data.drop s.written).length = s.writelen := by
  have hwritelen := h.writelen
  refine ⟨List.ne_nil_of_length_pos ?_, ?_⟩
  · rw [List.length_drop]
    omega
  · rw [List.length_drop, hwritelen]

theorem sendLoop_block {data wire : Bytes} {s : Writing} (h : s.Inv data data.length wire) :
    let r := AntHttp.sendLoop s.last_io (data.drop s.written) s.evs
    ∃ s', sendLoop data data.length s = .ok (total s.written r.data r.count, s') ∧
      s'.last_io = r.last_io ∧ s'.evs = r.output ∧ s'.wire = s.wire ++ r.data := by
  have hbuf : 0 < BUFFLEN := by decide
  fun_induction sendLoop data data.length s with
  | case1 s h0 =>
    have hwritelen := h.writelen
    have hnone : data.drop s.written = [] := List.drop_eq_nil_of_le (by omega)
    rw [hnone]
    refine ⟨s, ?_, by rw [AntHttp.sendLoop], by rw [AntHttp.sendLoop], by rw [AntHttp.sendLoop, List.append_nil]⟩
    simp only [AntHttp.sendLoop]
    rw [total_zero]
  | case2 s h0 hout =>
    -- what is asked for lies in the data
    have hwritelen := h.writelen
    omega
  | case3 s h0 hin c asked hput written wire' ih =>
    have hwritelen := h.writelen
    have hcount : c.count ≤ s.writelen := send_count_le ..
    obtain ⟨hne, hmin⟩ := h.unsent h0
    obtain ⟨s', hs', hlast, hevs, hwire⟩ := ih (h.sent h0)
    rw [sendLoop_send hne, hmin]
    simp only
    rw [if_pos hput, List.drop_drop]
    refine ⟨s', ?_, hlast, hevs, ?_⟩
    · have htake : ((data.drop s.written).take c.count.toNat).length = c.count.toNat := by
        rw [List.length_take, List.length_drop]
        omega
      have hsome : (data.drop s.written).take c.count.toNat ≠ [] := List.ne_nil_of_length_pos (by omega)
      rw [hs', total_append hsome, htake]
    · rw [hwire, List.append_assoc]
  | case4 s h0 hin c asked hput =>
    rename_i hlate
    obtain ⟨hne, hmin⟩ := h.unsent h0
    rw [sendLoop_send hne, hmin]
    simp only
    rw [if_neg hput, if_pos hlate]
    refine ⟨{ s with evs := c.rest, asked := asked }, ?_, rfl, rfl, (List.append_nil _).symm⟩
    rw [total_nil]
  | case5 s h0 hin c asked hput hlate =>
    rename_i ih
    obtain ⟨hne, hmin⟩ := h.unsent h0
    rw [sendLoop_send hne, hmin]
    simp only
    rw [if_neg hput, if_neg hlate]
    exact ih (h.failed h0 _)

/-- A block is sent as the whole of it says. -/
theorem antd_send_block (source : Client) (data : Bytes) :
    ∃ s, antd_send data data.length source.last_io source.output source.wire =
        .ok ((AntHttp.antd_send source data).1, s) ∧
      (AntHttp.antd_send source data).2 = { source with last_io := s.last_io, output := s.evs, wire := s.wire } := by
  obtain ⟨s, hs, hlast, hevs, hwire⟩ :=
    sendLoop_block (writing_start data data.length source.last_io source.output source.wire)
  refine ⟨s, ?_, ?_⟩
  · refine hs.trans ?_
    simp [total, AntHttp.antd_send]
  · rw [hlast, hevs, hwire]
    rfl

end Blocks

end AntHttp.Plain
