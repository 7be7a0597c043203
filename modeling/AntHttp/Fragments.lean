import AntHttp.Pings
/-!
# A file as one fragmented message

`ws_send_file` reads a file in blocks of 1024 bytes and sends each as a frame.
The end of a file is noticed by the read that hits it, so a file whose size is a
multiple of the block ends with an empty frame.
-/

set_option linter.style.nameCheck false

namespace AntHttp

def WS_BIN : UInt8 := 0x2

/-- `fread(buff, 1, 1024, ptr)`: what is read, what is left, and `feof(ptr)` after it. -/
def fread (rest : Bytes) : Bytes × Bytes × Bool := (rest.take 1024, rest.drop 1024, rest.length < 1024)

/-- The header of one frame of a file. -/
def blockHeader (mask : UInt8) (first_frame eof : Bool) (size : Nat) : WsHeader :=
  ⟨if eof then 1 else 0, if first_frame then WS_BIN else 0, UInt32.ofNat size, mask, fun _ => 0⟩

/-- The loop over the blocks of a file: the sum of what `ws_send_frame` has returned.
`rand i` is the value of `rand()` for the frame that is sent as number `i`. -/
def sendFileLoop (rand : Nat → UInt32) (mask : UInt8) (i : Nat) (first_frame : Bool) (client : Client) (rest : Bytes) :
    Int × Client :=
  match _h : fread rest with
  | (buff, rest', eof) =>
    let (ret, client) := ws_send_frame (rand i) client buff (blockHeader mask first_frame eof buff.length)
    if eof then (ret, client)
    else
      let r := sendFileLoop rand mask (i + 1) false client rest'
      (ret + r.1, r.2)
termination_by rest.length
decreasing_by
  simp only [fread, Prod.mk.injEq] at _h
  obtain ⟨-, rfl, he⟩ := _h
  simp_all
  omega

/-- `file` is the content of the file, or `none` if it cannot be opened. -/
def ws_send_file (rand : Nat → UInt32) (client : Client) (file : Option Bytes) (mask : UInt8) : Int × Client :=
  match file with
  | none => ws_send_close (rand 0) client 1011 mask
  | some content =>
    let r := sendFileLoop rand mask 0 true client content
    (if r.1 ≠ 0 then -1 else 0, r.2)

/-! ## The frames of a message -/

/-- A frame of a fragmented message, with its payload. -/
structure Fragment (mask : UInt8) (op : UInt8) (fin : Bool) (f : Frame) (data : Bytes) : Prop where
  fin : f.fin = fin
  rsv : f.rsv = 0
  opcode : (f.opcode : Nat) = op.toNat
  length : f.length.value = data.length
  small : data.length ≤ 1024
  mask : f.key.isSome = decide (mask = 1)

/-- A fragmented message: the first frame has the opcode and the others 0, only the last one has `fin` set. -/
structure Message (op : UInt8) (fs : List (Frame × Bytes)) : Prop where
  opcode : fs.map (fun x => (x.1.opcode : Nat)) = op.toNat :: List.replicate (fs.length - 1) 0
  fin : fs.map (·.1.fin) = List.replicate (fs.length - 1) false ++ [true]
  rsv : ∀ x ∈ fs, x.1.rsv = 0
  length : ∀ x ∈ fs, x.1.length.value = x.2.length

/-- The frames of a message, one block each. -/
inductive Fragments (mask : UInt8) : UInt8 → Bytes → List (Frame × Bytes) → Prop
  | last {op f data} : Fragment mask op true f data → Fragments mask op data [(f, data)]
  | more {op f data rest fs} :
    Fragment mask op false f data → Fragments mask 0 rest fs → Fragments mask op (data ++ rest) ((f, data) :: fs)

/-- The frames as they go over the wire. -/
def framesOnWire (fs : List (Frame × Bytes)) : Bytes := fs.flatMap fun x => x.1.onWire x.2

@[simp] theorem framesOnWire_nil : framesOnWire [] = [] := rfl

@[simp] theorem framesOnWire_cons (f : Frame) (data : Bytes) (fs : List (Frame × Bytes)) :
    framesOnWire ((f, data) :: fs) = f.onWire data ++ framesOnWire fs := rfl

section

variable {mask op : UInt8} {fs : List (Frame × Bytes)} {file : Bytes}

theorem Fragments.content (h : Fragments mask op file fs) : (fs.map (·.2)).flatten = file := by
  induction h with
  | last _ => simp
  | more _ _ ih => simp [ih]

theorem Fragments.length_pos (h : Fragments mask op file fs) : 0 < fs.length := by
  cases h <;> simp

/-- Only the last frame has `fin` set. -/
theorem Fragments.fin (h : Fragments mask op file fs) :
    fs.map (·.1.fin) = List.replicate (fs.length - 1) false ++ [true] := by
  induction h with
  | last hf => simp [hf.fin]
  | more hf h ih =>
    have hpos := h.length_pos
    obtain ⟨n, hn⟩ := Nat.exists_eq_succ_of_ne_zero (Nat.ne_of_gt hpos)
    rw [hn, Nat.succ_sub_one] at ih
    simp [ih, hf.fin, hn, List.replicate_succ]

/-- Only the first frame has the opcode. -/
theorem Fragments.opcode (h : Fragments mask op file fs) :
    fs.map (fun x => (x.1.opcode : Nat)) = op.toNat :: List.replicate (fs.length - 1) 0 := by
  induction h with
  | last hf => simp [hf.opcode]
  | more hf h ih =>
    have hpos := h.length_pos
    obtain ⟨n, hn⟩ := Nat.exists_eq_succ_of_ne_zero (Nat.ne_of_gt hpos)
    simp [ih, hf.opcode, hn, List.replicate_succ]

theorem Fragments.mem (h : Fragments mask op file fs) {x : Frame × Bytes} (hx : x ∈ fs) :
    ∃ fin, Fragment mask op fin x.1 x.2 ∨ Fragment mask 0 fin x.1 x.2 := by
  induction h with
  | last hf =>
    obtain rfl := List.mem_singleton.1 hx
    exact ⟨true, .inl hf⟩
  | more hf h ih =>
    rcases List.mem_cons.1 hx with rfl | hx
    · exact ⟨false, .inl hf⟩
    · obtain ⟨fin, hf | hf⟩ := ih hx <;> exact ⟨fin, .inr hf⟩

theorem Fragments.message (h : Fragments mask op file fs) : Message op fs := by
  refine ⟨h.opcode, h.fin, ?_, ?_⟩
  · intro x hx
    obtain ⟨fin, hf | hf⟩ := h.mem hx <;> exact hf.rsv
  · intro x hx
    obtain ⟨fin, hf | hf⟩ := h.mem hx <;> exact hf.length

end

/-! ## Sending -/

section

variable {rand : Nat → UInt32} {mask : UInt8} {c : Client} {data rest : Bytes} {first eof : Bool}

theorem blockHeader_valid (hm : mask ≤ 1) (first eof : Bool) (n : Nat) : (blockHeader mask first eof n).Valid := by
  have hfin : (if eof then (1 : UInt8) else 0) ≤ 1 := by cases eof <;> decide
  have hop : (if first then WS_BIN else 0) < 16 := by cases first <;> decide
  exact ⟨hfin, hm, hop⟩

theorem blockHeader_plen {n : Nat} (hn : n ≤ 1024) : (blockHeader mask first eof n).plen.toNat = n := by
  rw [blockHeader, UInt32.toNat_ofNat', Nat.mod_eq_of_lt (by omega)]

theorem blockHeader_fragment (r : UInt32) (hn : data.length ≤ 1024) :
    Fragment mask (if first then WS_BIN else 0) eof ((blockHeader mask first eof data.length).sent r).frame data := by
  obtain ⟨hop, hplen, hmask⟩ := (blockHeader mask first eof data.length).sent_fields r
  have hfin : ((blockHeader mask first eof data.length).sent r).fin = if eof then 1 else 0 := by
    unfold WsHeader.sent
    split <;> rfl
  refine ⟨?_, rfl, ?_, ?_, hn, ?_⟩
  · rw [WsHeader.frame, hfin]
    cases eof <;> rfl
  · rw [WsHeader.frame, hop, blockHeader]
    cases first <;> rfl
  · rw [WsHeader.frame, WsHeader.length_value, hplen, blockHeader_plen hn]
  · rw [WsHeader.frame, hmask, blockHeader]
    by_cases hm : mask = 1 <;> simp [hm]

theorem ws_send_frame_nonpos (r : UInt32) (c : Client) (data : Bytes) (header : WsHeader) :
    (ws_send_frame r c data header).1 ≤ 0 := by
  unfold ws_send_frame
  dsimp only
  by_cases hr : (_send_header c (header.sent r)).1 = 0
  · rw [if_neg (not_not_intro hr)]
    generalize antd_send _ _ = sent
    dsimp only
    split <;> decide
  · rw [if_pos hr]
    exact Int.negSucc_le_zero 0

/-- The last block is the one that is shorter than the buffer. -/
theorem sendFileLoop_eq (i : Nat) (first : Bool) (c : Client) (rest : Bytes) :
    sendFileLoop rand mask i first c rest =
      if rest.length < 1024 then ws_send_frame (rand i) c rest (blockHeader mask first true rest.length)
      else
        let r := ws_send_frame (rand i) c (rest.take 1024) (blockHeader mask first false (rest.take 1024).length)
        let r' := sendFileLoop rand mask (i + 1) false r.2 (rest.drop 1024)
        (r.1 + r'.1, r'.2) := by
  rw [sendFileLoop, fread]
  dsimp only
  by_cases h : rest.length < 1024
  · rw [if_pos (by simpa using h), if_pos h, List.take_of_length_le (Nat.le_of_lt h), decide_eq_true h]
  · rw [if_neg (by simpa using h), if_neg h, decide_eq_false h]

theorem sendFileLoop_nonpos (i : Nat) (first : Bool) (c : Client) (rest : Bytes) :
    (sendFileLoop rand mask i first c rest).1 ≤ 0 := by
  induction hn : rest.length using Nat.strong_induction_on generalizing i first c rest with
  | _ n ih =>
    rw [sendFileLoop_eq]
    split
    · exact ws_send_frame_nonpos ..
    · rename_i hge
      refine Int.add_nonpos (ws_send_frame_nonpos ..) (ih _ ?_ _ _ _ _ rfl)
      rw [List.length_drop]
      omega

/-- If every frame is sent, the frames of one message with the rest of the file are on the wire. -/
theorem sendFileLoop_fragments (hm : mask ≤ 1) (i : Nat) (first : Bool) (c : Client) (rest : Bytes)
    (hs : (sendFileLoop rand mask i first c rest).1 = 0) :
    ∃ fs, Fragments mask (if first then WS_BIN else 0) rest fs ∧
      (sendFileLoop rand mask i first c rest).2.wire = c.wire ++ framesOnWire fs := by
  induction hn : rest.length using Nat.strong_induction_on generalizing i first c rest with
  | _ n ih =>
    have hsend (eof : Bool) (data : Bytes) (hlen : data.length ≤ 1024)
        (hs : (ws_send_frame (rand i) c data (blockHeader mask first eof data.length)).1 = 0) :=
      ws_send_frame_onWire (blockHeader_valid hm first eof data.length) (blockHeader_plen hlen).symm
        (by rw [blockHeader_plen hlen]; omega) hs
    rw [sendFileLoop_eq] at hs ⊢
    split at hs
    · rename_i hlt
      rw [if_pos hlt, hsend true rest (Nat.le_of_lt hlt) hs]
      refine ⟨[(_, rest)], .last (blockHeader_fragment (rand i) (Nat.le_of_lt hlt)), ?_⟩
      simp
    · rename_i hge
      have hlen : (rest.take 1024).length ≤ 1024 := List.length_take_le ..
      have h1 := ws_send_frame_nonpos (rand i) c (rest.take 1024) (blockHeader mask first false (rest.take 1024).length)
      have h2 := @sendFileLoop_nonpos rand mask (i + 1) false
        (ws_send_frame (rand i) c (rest.take 1024) (blockHeader mask first false (rest.take 1024).length)).2 (rest.drop 1024)
      dsimp only at hs ⊢
      have hs2 : (sendFileLoop rand mask (i + 1) false _ (rest.drop 1024)).1 = 0 := Int.le_antisymm h2 (by omega)
      obtain ⟨fs, hfs, hwire⟩ := ih _ (by rw [List.length_drop]; omega) _ _ _ _ hs2 rfl
      rw [if_neg hge, hwire, hsend false _ hlen (by omega), List.append_assoc]
      refine ⟨(_, rest.take 1024) :: fs, ?_, rfl⟩
      have hmore := Fragments.more (@blockHeader_fragment mask (rest.take 1024) first false (rand i) hlen) hfs
      rwa [List.take_append_drop] at hmore

end

/-! ## Reading the message back -/

/-- Frames that are read one after another, the payload of each by one call; what each call of
`ws_read_header` finds in `rand()` and in its memory is given. -/
def readFrames (client : Client) : List (UInt32 × Stale) → List (WsHeader × Bytes)
  | [] => []
  | (rand, stale) :: calls =>
    match ws_read_header rand stale client with
    | (none, _) => []
    | (some header, client) =>
      let (_, data, _, client) := ws_read_data client header (-1)
      (header, data) :: readFrames client calls

section

variable {mask op : UInt8} {c : Client} {f : Frame} {fs : List (Frame × Bytes)} {file data : Bytes} {t : Int}
  {rest : List RecvEv} {fin : Bool}

/-- A data frame that arrives is read with its payload. -/
theorem readFrames_cons (rand : UInt32) (stale : Stale) (calls : List (UInt32 × Stale)) (hf : Fragment mask op fin f data)
    (hop : op < 8) (ha : Arrives c.last_io (f.onWire data) c.input t rest) :
    ∃ header : WsHeader, header.fin.toNat = f.fin.toNat ∧ header.opcode.toNat = (f.opcode : Nat) ∧
      readFrames c ((rand, stale) :: calls) = (header, data) :: readFrames { c with last_io := t, input := rest } calls := by
  obtain ⟨t₁, evs₁, h₁, h₂⟩ := ha.split
  obtain ⟨header, hd, he⟩ := ws_read_header_decodes rand stale hf.rsv h₁
  have h31 : data.length < 2 ^ 31 := hf.small.trans_lt (by decide)
  rw [hf.length, Nat.mod_eq_of_lt (by omega)] at hd
  have hlt : header.opcode < 8 := by
    rw [UInt8.lt_iff_toNat_lt, hd.opcode, hf.opcode]
    exact UInt8.lt_iff_toNat_lt.1 hop
  have hne (op : UInt8) (hge : ¬ op < 8) : header.opcode ≠ op := by
    rintro rfl
    exact hge hlt
  rw [answerControl_data rand stale _ (hne WS_CLOSE (by decide)) (hne WS_PING (by decide))] at he
  rw [← hd.pad] at h₂
  have hall : asked data.length (-1) = data.length := by simp [asked]
  obtain ⟨header', hread, -⟩ := ws_read_data_all (c := { c with last_io := t₁, input := evs₁ }) hd.plen h31 h₂ hall
  refine ⟨header, hd.fin, hd.opcode, ?_⟩
  rw [readFrames, he]
  dsimp only
  rw [hread]

/-- Frames that arrive are read as they were sent. -/
theorem Fragments.readFrames (h : Fragments mask op file fs) (hop : op < 8) {calls : List (UInt32 × Stale)}
    (hlen : calls.length = fs.length) (ha : Arrives c.last_io (framesOnWire fs) c.input t rest) :
    (readFrames c calls).map (fun x => (x.1.fin.toNat, x.1.opcode.toNat, x.2)) =
      fs.map fun x => (x.1.fin.toNat, (x.1.opcode : Nat), x.2) := by
  induction h generalizing c calls with
  | @last op f data hf =>
    obtain ⟨⟨rand, stale⟩, rfl⟩ := List.length_eq_one_iff.1 hlen
    rw [framesOnWire_cons, framesOnWire_nil, List.append_nil] at ha
    obtain ⟨header, h1, h2, he⟩ := readFrames_cons rand stale [] hf hop ha
    rw [he]
    simp [AntHttp.readFrames, h1, h2]
  | @more op f data rest fs hf h ih =>
    cases calls with
    | nil => cases hlen
    | cons call calls =>
      rw [framesOnWire_cons] at ha
      obtain ⟨t₁, evs₁, ha₁, ha₂⟩ := ha.split
      obtain ⟨header, h1, h2, he⟩ := readFrames_cons call.1 call.2 calls hf hop ha₁
      rw [he, List.map_cons, List.map_cons, ih (by decide) (Nat.succ.inj hlen) ha₂, h1, h2]

end

/-- A file that is sent goes out as one binary message in fragments, and whoever
receives its frames reads them with their payloads, which make up the file. -/
theorem ws_send_file_message {rand : Nat → UInt32} {client : Client} {content : Bytes} {mask : UInt8} (hm : mask ≤ 1)
    (hs : (ws_send_file rand client (some content) mask).1 = 0) :
    ∃ fs, (ws_send_file rand client (some content) mask).2.wire = client.wire ++ framesOnWire fs ∧ Message WS_BIN fs ∧
      (fs.map (·.2)).flatten = content ∧
      ∀ (c : Client) (t : Int) (rest : List RecvEv) (calls : List (UInt32 × Stale)), calls.length = fs.length →
        Arrives c.last_io (framesOnWire fs) c.input t rest →
        (readFrames c calls).map (fun x => (x.1.fin.toNat, x.1.opcode.toNat, x.2)) =
          fs.map fun x => (x.1.fin.toNat, (x.1.opcode : Nat), x.2) := by
  have hloop : (sendFileLoop rand mask 0 true client content).1 = 0 := by
    by_contra hne
    rw [ws_send_file] at hs
    dsimp only at hs
    rw [if_pos hne] at hs
    cases hs
  obtain ⟨fs, hfs, hwire⟩ := sendFileLoop_fragments hm 0 true client content hloop
  refine ⟨fs, hwire, hfs.message, hfs.content, ?_⟩
  intro c t rest calls hlen ha
  exact hfs.readFrames (by decide) hlen ha

/-- A connection that takes two frames, and a file of one full block. -/
def fileClient : Client := { frameServer with output := List.replicate 6 (.room 1023 0) }

def fullBlock : Bytes := List.replicate 1024 0

/-- The second frame is empty. -/
theorem ws_send_file_message_block :
    ∃ fs, (ws_send_file (fun _ => 0) fileClient (some fullBlock) 0).2.wire = fileClient.wire ++ framesOnWire fs ∧
      Message WS_BIN fs ∧ (fs.map (·.2)).flatten = fullBlock := by
  have hlen : fullBlock.length = 1024 := List.length_replicate
  have hdrop : (fullBlock.drop 1024).length = 0 := by rw [List.length_drop, hlen]
  have hloop : (sendFileLoop (fun _ => 0) 0 0 true fileClient fullBlock).1 = 0 := by
    rw [sendFileLoop_eq, if_neg (by omega)]
    dsimp only
    rw [sendFileLoop_eq, if_pos (by omega)]
    decide +kernel
  have hs : (ws_send_file (fun _ => 0) fileClient (some fullBlock) 0).1 = 0 := by
    rw [ws_send_file]
    dsimp only
    rw [hloop]
    rfl
  obtain ⟨fs, hw, hmsg, hc, -⟩ := ws_send_file_message (by decide) hs
  exact ⟨fs, hw, hmsg, hc⟩

end AntHttp
