import AntHttp.Payload
/-!
# Receives that get less than they ask for

`antd_recv` returns what has arrived when it gives up. `ws_read_header` looks
only at whether that is nothing. `ws_read_data` puts a NUL behind it, which has
no room in a buffer that the data have filled.
-/

set_option linter.style.nameCheck false

namespace AntHttp

/-- The number of bytes that arrive before a call gives up. -/
def available : Int → List RecvEv → Nat
  | _, [] => 0
  | _, .byte _ _ now :: evs => available now evs + 1
  | t, .again now :: evs => if now - t > MAX_IO_WAIT_TIME then 0 else available t evs
  | t, .closed stale now :: evs => if now - t > MAX_IO_WAIT_TIME ∨ stale = false then 0 else available t evs
  | _, .error _ :: _ => 0

theorem recvLoop_available (t : Int) (n : Nat) (evs : List RecvEv) :
    (recvLoop t n evs).data.length = min n (available t evs) := by
  fun_induction recvLoop t n evs with
  | case1 t evs => simp
  | case2 t n => simp [available]
  | case3 t n b last now evs r ih => simp only [r, List.length_cons, ih, available]; omega
  | case4 t n now evs hlate => simp [available, hlate]
  | case5 t n now evs hlate ih => rw [ih, available, if_neg hlate]
  | case6 t n stale now evs hlate => simp [available, hlate]
  | case7 t n stale now evs hlate ih => rw [ih, available, if_neg hlate]
  | case8 t n now evs => simp [available]

/-- A call gets what it asks for, or what there is. -/
theorem antd_recv_available (c : Client) (n : Nat) :
    (antd_recv c n).2.1.length = min n (available c.last_io c.input) := recvLoop_available ..

/-! ## The terminator of `ws_read_data` -/

/-- The length that `ws_read_data` hands to `antd_recv`. -/
def wanted (header : WsHeader) (len : Int) : Int := if len = -1 ∨ len > header.len then header.len else len

/-- The indices of `data` at which `ws_read_data` stores: those of the bytes received, and that of the NUL. -/
def ws_read_data_stores (client : Client) (header : WsHeader) (len : Int) : List Nat :=
  if header.plen = 0 then []
  else
    let (dlen, data, _) := antd_recv client (wanted header len).toNat
    if dlen ≤ 0 then List.range data.length else List.range data.length ++ [dlen.toNat]

/-- The room that a caller makes for a request. -/
def capacity (header : WsHeader) (len : Int) : Int := if len = -1 then header.plen.toNat else len

/-- The indices at which `ws_pong` has its buffer of `plen` bytes filled. -/
def ws_pong_stores (client : Client) (oheader : WsHeader) : List Nat := ws_read_data_stores client oheader oheader.len

section

variable {c : Client} {header : WsHeader} {len : Int}

theorem WsHeader.len_le (header : WsHeader) : header.len ≤ header.plen.toNat := by
  have h := header.plen.toNat_lt
  unfold WsHeader.len CString.int32
  rw [Int.bmod_def]
  split <;> omega

theorem WsHeader.len_pos (h : 0 < header.len) : header.len = header.plen.toNat := by
  have hlt := header.plen.toNat_lt
  revert h
  unfold WsHeader.len CString.int32
  rw [Int.bmod_def]
  split <;> omega

/-- The data and the return value of `ws_read_data` say where it has stored. -/
theorem ws_read_data_stores_eq (c : Client) (header : WsHeader) (len : Int) :
    ws_read_data_stores c header len = List.range ((ws_read_data c header len).2.1.length +
      if 0 < (ws_read_data c header len).1 then 1 else 0) := by
  unfold ws_read_data_stores ws_read_data
  by_cases h0 : header.plen = 0
  · simp [h0]
  · simp only [h0, if_false]
    rw [← wanted]
    split
    · rename_i hr
      rw [(antd_recv_nil c _).1 hr]
      simp
    · rename_i hr
      have hx : (if header.mask ≠ 0 then header.xor (antd_recv c (wanted header len).toNat).2.1
          else (antd_recv c (wanted header len).toNat).2.1).length = (antd_recv c (wanted header len).toNat).2.1.length := by
        rw [padAt_xor, padAt_length]
      rw [hx, if_pos (by omega), List.range_succ, antd_recv_count hr]
      simp

/-- The last index stored at is the number of bytes received. -/
theorem ws_read_data_stores_lt {n : Int} : (∀ i ∈ ws_read_data_stores c header len, (i : Int) < n) ↔
    header.plen = 0 ∨ (antd_recv c (wanted header len).toNat).2.1 = [] ∨
      ((antd_recv c (wanted header len).toNat).2.1.length : Int) < n := by
  unfold ws_read_data_stores
  by_cases h0 : header.plen = 0
  · simp [h0]
  · simp only [h0, if_false, false_or]
    have hnil := antd_recv_nil c (wanted header len).toNat
    split
    · rename_i hr
      simp [hnil.1 hr]
    · rename_i hr
      have hne := mt hnil.2 hr
      rw [antd_recv_count hr, Int.toNat_natCast, ← List.range_succ]
      constructor
      · intro h
        exact .inr (h _ (by simp))
      · rintro (h | h) i hi
        · exact absurd h hne
        · have hle := Nat.lt_succ_iff.1 (List.mem_range.1 hi)
          exact lt_of_le_of_lt (Int.ofNat_le.2 hle) h

theorem wanted_nonpos (h : header.plen = 0) : wanted header len ≤ 0 := by
  have hl := header.len_le
  rw [h, UInt32.toNat_zero] at hl
  unfold wanted
  split <;> omega

/-- The stores stay below a bound if nothing is asked for, or less than the bound, or if less can come. -/
theorem ws_read_data_stores_lt_iff {n : Int} (hn : 0 < wanted header len → 0 < n) :
    (∀ i ∈ ws_read_data_stores c header len, (i : Int) < n) ↔
      wanted header len ≤ 0 ∨ wanted header len < n ∨ (available c.last_io c.input : Int) < n := by
  have hlen := antd_recv_available c (wanted header len).toNat
  have h0 := @wanted_nonpos header len
  rw [ws_read_data_stores_lt, ← List.length_eq_zero_iff, hlen]
  constructor
  · rintro (h | h | h)
    · exact .inl (h0 h)
    · omega
    · omega
  · rintro (h | h | h) <;> right <;> omega

theorem capacity_pos (h : 0 < wanted header len) : 0 < capacity header len := by
  have hl := header.len_le
  unfold wanted at h
  unfold capacity
  split at h <;> split <;> omega

/-- The terminator has room unless the data fill the buffer: exactly if nothing
is asked for, or less than there is room for, or if less than that arrives. -/
theorem ws_read_data_stores_within_iff (client : Client) (header : WsHeader) (len : Int) :
    ((∀ i ∈ ws_read_data_stores client header len, (i : Int) < capacity header len) ↔
      wanted header len ≤ 0 ∨ wanted header len < capacity header len ∨
        (available client.last_io client.input : Int) < capacity header len) ∧
    ((∀ i ∈ ws_pong_stores client header, i < header.plen.toNat) ↔
      header.len ≤ 0 ∨ available client.last_io client.input < header.plen.toNat) := by
  refine ⟨ws_read_data_stores_lt_iff capacity_pos, ?_⟩
  have hw : wanted header header.len = header.len := by simp [wanted]
  have hle := header.len_le
  have hpos := @WsHeader.len_pos header
  have h := @ws_read_data_stores_lt_iff client header header.len header.plen.toNat (by rw [hw]; omega)
  rw [hw] at h
  simp only [Int.ofNat_lt] at h
  refine h.trans ?_
  omega

end

/-- A ping with one byte, not masked. -/
def bytePing : WsHeader := ⟨1, WS_PING, 1, 0, fun _ => 0⟩

/-- Its payload has filled the buffer of `ws_pong` when the NUL is stored behind it. -/
theorem ws_pong_stores_outside :
    ¬ ((∀ client header len, ∀ i ∈ ws_read_data_stores client header len, (i : Int) < capacity header len) ∧
      ∀ client header, header.opcode = WS_PING → ∀ i ∈ ws_pong_stores client header, i < header.plen.toNat) := by
  rintro ⟨-, hpong⟩
  have hs : 1 ∈ ws_pong_stores (frameClient [65]) bytePing := by decide
  have h := hpong (frameClient [65]) bytePing rfl 1 hs
  exact absurd h (by decide)

/-! ## A header that is cut short -/

/-- The client after successive calls for `ns` bytes each. -/
def recvAll (c : Client) (ns : List Nat) : Client := ns.foldl (fun c n => (antd_recv c n).2.2) c

@[simp] theorem recvAll_nil (c : Client) : recvAll c [] = c := rfl

@[simp] theorem recvAll_cons (c : Client) (n : Nat) (ns : List Nat) :
    recvAll c (n :: ns) = recvAll (antd_recv c n).2.2 ns := rfl

/-- Successive calls for `ns` bytes each get something. -/
def Feeds : List Nat → Client → Prop
  | [], _ => True
  | n :: ns, c => (antd_recv c n).2.1 ≠ [] ∧ Feeds ns (antd_recv c n).2.2

/-- A call gets only part of its bytes, and neither it nor any other one nothing. -/
def CutUnnoticed : List Nat → Client → Prop
  | [], _ => False
  | n :: ns, c => (antd_recv c n).2.1 ≠ [] ∧
    if (antd_recv c n).2.1.length < n then Feeds ns (antd_recv c n).2.2 else CutUnnoticed ns (antd_recv c n).2.2

theorem cutUnnoticed_iff {ns : List Nat} {c : Client} : CutUnnoticed ns c ↔ Feeds ns c ∧ ¬ Gets ns c := by
  induction ns generalizing c with
  | nil => simp [CutUnnoticed, Gets]
  | cons n ns ih =>
    have hle := antd_recv_length c n
    rw [CutUnnoticed, Feeds, Gets]
    split
    · rename_i hlt
      have hne : (antd_recv c n).2.1.length ≠ n := Nat.ne_of_lt hlt
      tauto
    · have he : (antd_recv c n).2.1.length = n := by omega
      rw [ih]
      tauto

/-- One of two byte strings goes on from where the other one ends. -/
def Agree (bs s : Bytes) : Prop := bs <+: s ∨ s <+: bs

theorem agree_cons {b b' : UInt8} {bs s : Bytes} : Agree (b :: bs) (b' :: s) ↔ b = b' ∧ Agree bs s := by
  unfold Agree
  rw [List.cons_prefix_cons, List.cons_prefix_cons, eq_comm (a := b')]
  tauto

section

variable {α β : Type} {c : Client} {f : Frame}

/-- A call that gets nothing fails, and no other one. -/
theorem recvArray_isSome {n : Nat} (c : Client) (old : Fin n → UInt8) (len : Nat) :
    (recvArray c old len).1.isSome ↔ (antd_recv c len).2.1 ≠ [] := by
  have h := antd_recv_nil c len
  unfold recvArray
  dsimp only
  split
  · rename_i hr
    simp [h.1 hr]
  · rename_i hr
    simpa using mt h.2 hr

theorem orFail_isSome {r : Option α × Client} {next : α → Client → Option β × Client} {p : Prop}
    (h : ∀ a, r.1 = some a → ((next a r.2).1.isSome ↔ p)) : (orFail r next).1.isSome ↔ r.1.isSome ∧ p := by
  obtain ⟨r, c'⟩ := r
  cases r with
  | none => simp [orFail]
  | some a => simpa [orFail] using h a rfl

/-- A call for one byte gets the next one of the stream. -/
theorem recvByte_agree {n : Nat} {b : UInt8} {bs : Bytes} (h : Agree (b :: bs) (bytesOf c.input))
    (old : Fin (n + 1) → UInt8) {byte : Fin (n + 1) → UInt8} (hs : (recvArray c old 1).1 = some byte) :
    byte 0 = b ∧ Agree bs (bytesOf (antd_recv c 1).2.2.input) := by
  have hne := (recvArray_isSome c old 1).1 (by rw [hs]; rfl)
  have hlen := antd_recv_length c 1
  obtain ⟨d, hd⟩ : ∃ d, (antd_recv c 1).2.1 = [d] := by
    apply List.length_eq_one_iff.1
    have := List.length_pos_iff.2 hne
    omega
  have hb := antd_recv_bytesOf c 1
  rw [hd] at hb
  rw [hb, List.singleton_append, agree_cons] at h
  have hret := mt (antd_recv_nil c 1).1 hne
  unfold recvArray at hs
  dsimp only at hs
  rw [if_neg hret, hd] at hs
  obtain rfl := Option.some.inj hs
  exact ⟨h.1.symm, h.2⟩

theorem recvArray_feeds {n : Nat} (c : Client) (old : Fin n → UInt8) (len : Nat) :
    (recvArray c old len).1.isSome ↔ Feeds [len] c := by
  rw [recvArray_isSome, Feeds, Feeds, and_true]

theorem feeds_append {ns ns' : List Nat} {c : Client} :
    Feeds (ns ++ ns') c ↔ Feeds ns c ∧ Feeds ns' (recvAll c ns) := by
  induction ns generalizing c with
  | nil => simp [Feeds]
  | cons n ns ih => rw [List.cons_append, Feeds, Feeds, ih, and_assoc, recvAll_cons]

/-- The length is read if every call for it gets something. -/
theorem readLength_feeds (stale : Stale) (l : FrameLength) (c : Client) :
    ((readLength stale c (UInt8.ofNat l.code)).1.isSome ↔ Feeds (l.parts.map (·.length)) c) ∧
      (readLength stale c (UInt8.ofNat l.code)).2 = recvAll c (l.parts.map (·.length)) := by
  cases l with
  | short n =>
    have hn := n.isLt
    have hle : UInt8.ofNat n ≤ 125 := by
      rw [UInt8.le_iff_toNat_le]
      simp
      omega
    have hr : readLength stale c (UInt8.ofNat n) = (some (UInt8.ofNat n).toUInt32, c) := if_pos hle
    rw [FrameLength.code, hr]
    simp [FrameLength.parts, Feeds]
  | medium n =>
    refine ⟨Iff.trans ?_ (recvArray_feeds c stale.bytes 2), rfl⟩
    change (Option.map _ (recvArray c stale.bytes 2).1).isSome ↔ _
    rw [Option.isSome_map]
  | long n =>
    refine ⟨Iff.trans ?_ (recvArray_feeds c stale.bytes 8), rfl⟩
    change (Option.map _ (recvArray c stale.bytes 8).1).isSome ↔ _
    rw [Option.isSome_map]

theorem readKey_feeds (stale : Stale) (f : Frame) (mask : UInt8) (hm : mask.toNat = f.key.isSome.toNat) (c : Client) :
    (readKey stale c mask).1.isSome ↔ Feeds (f.keyParts.map (·.length)) c := by
  unfold Frame.keyParts
  cases hk : f.key with
  | none =>
    have h0 : mask = 0 := UInt8.toNat_inj.1 (by rw [hm, hk]; rfl)
    rw [h0]
    simp [readKey, Feeds]
  | some key =>
    have h1 : mask = 1 := UInt8.toNat_inj.1 (by rw [hm, hk]; rfl)
    rw [h1]
    exact recvArray_feeds c stale.mask_key 4

/-- A header is returned if no reserved bit is set and every call gets something. -/
theorem ws_read_header_isSome (rand : UInt32) (stale : Stale) (hs : Agree f.bytes (bytesOf c.input)) :
    (ws_read_header rand stale c).1.isSome ↔ f.rsv = 0 ∧ Feeds f.fields c := by
  rw [f.bytes_eq] at hs
  rw [f.fields_eq, Feeds, Feeds, feeds_append, and_left_comm]
  unfold ws_read_header
  refine (orFail_isSome ?_).trans (and_congr (recvArray_isSome ..) Iff.rfl)
  intro byte hb
  obtain ⟨hb0, hs⟩ := recvByte_agree hs _ hb
  rw [hb0]
  by_cases hr : f.rsv = 0
  · rw [if_neg fun h => f.first_rsv.1 h hr, and_iff_right hr]
    refine (orFail_isSome ?_).trans (and_congr (recvArray_isSome ..) Iff.rfl)
    intro byte' hb'
    obtain ⟨hb0', -⟩ := recvByte_agree hs byte hb'
    obtain ⟨hlen, hc⟩ := readLength_feeds stale f.length (antd_recv (antd_recv c 1).2.2 1).2.2
    rw [hb0', f.second_code]
    refine (orFail_isSome ?_).trans (and_congr hlen Iff.rfl)
    intro plen _
    rw [← hc]
    refine (orFail_isSome (p := True) ?_).trans ?_
    · intro mask_key _
      simp
    · rw [and_true]
      exact readKey_feeds stale f _ f.second_mask _
  · rw [if_pos (f.first_rsv.2 hr)]
    simp [hr]

/-- A cut header is refused exactly if a reserved bit is set, or if some call
gets nothing: the one in which it is cut, or a later one. -/
theorem ws_read_header_cut_iff (rand : UInt32) (stale : Stale) {c : Client} {f : Frame}
    (hs : Agree f.bytes (bytesOf c.input)) :
    (¬ Gets f.fields c → (ws_read_header rand stale c).1 = none) ↔ f.rsv ≠ 0 ∨ ¬ CutUnnoticed f.fields c := by
  rw [← Option.not_isSome_iff_eq_none, ws_read_header_isSome rand stale hs, cutUnnoticed_iff]
  tauto

end

/-- The 16-bit length of the frame is cut by a pause, and the header is returned. -/
theorem ws_read_header_cut_accepted :
    ¬ ∀ (rand : UInt32) (stale : Stale) (c : Client) (f : Frame), Agree f.bytes (bytesOf c.input) → ¬ Gets f.fields c →
      (ws_read_header rand stale c).1 = none := by
  intro hall
  have hget : (antd_recv (antd_recv (antd_recv cutClient 1).2.2 1).2.2 2).2.1.length = 1 := by decide
  have hcut : ¬ Gets cutFrame.fields cutClient := by
    rintro ⟨-, -, h, -⟩
    rw [show (antd_recv (antd_recv (antd_recv cutClient 1).2.2 1).2.2 2).2.1.length = 2 from h] at hget
    cases hget
  have hnone := hall 0 noStale cutClient cutFrame (.inl (by decide)) hcut
  have hsome : (ws_read_header 0 noStale cutClient).1.isSome = true := by decide
  rw [hnone] at hsome
  cases hsome

/-- Only the first byte of the header arrives. -/
theorem ws_read_header_cut_iff_ended : ¬ Gets cutFrame.fields (frameClient [0x82]) ∧
    (ws_read_header 0 noStale (frameClient [0x82])).1 = none := by
  have hempty : (antd_recv (antd_recv (frameClient [0x82]) 1).2.2 1).2.1 = [] := by decide
  have hcut : ¬ Gets cutFrame.fields (frameClient [0x82]) := by
    rintro ⟨-, h, -⟩
    change (antd_recv (antd_recv (frameClient [0x82]) 1).2.2 1).2.1.length = 1 at h
    rw [hempty] at h
    cases h
  have hnotice : ¬ CutUnnoticed cutFrame.fields (frameClient [0x82]) := by
    rw [cutUnnoticed_iff]
    rintro ⟨⟨-, h, -⟩, -⟩
    exact h hempty
  exact ⟨hcut, (ws_read_header_cut_iff 0 noStale (.inr (by decide))).2 (.inr hnotice) hcut⟩

end AntHttp
