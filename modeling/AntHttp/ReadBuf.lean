import AntHttp.ShortReads
import AntHttp.Sockets
/-!
# A stream in lines (`read_buf` in `lib/handle.c`)

A call receives byte after byte into its buffer until a newline, until only the
NUL has room, or until a receive fails, which it takes for the end of a line.
What one call leaves of the stream the next one finds.
-/

set_option linter.style.nameCheck false

namespace AntHttp.Plain

open Buffer

/-! ## The code -/

/-- The loop of `read_buf` with the byte `c` received last. -/
def readLoop (size : Nat) (buf : Buffer) (i : Nat) (c : UInt8) (sock : Client) :
    Except Buffer.Fault (Buffer × Nat × Client) :=
  if _hroom : i < size - 1 ∧ c ≠ 10 then do
    let (n, s) ← antd_recv [some c] 1 sock.last_io sock.input
    let sock := { sock with last_io := s.last_io, input := s.evs }
    if 0 < n then
      let c ← get s.ptr 0
      let buf ← set buf i c
      readLoop size buf (i + 1) c sock
    -- `c = '\n'` ends the loop
    else return (buf, i, sock)
  else return (buf, i, sock)
termination_by size - 1 - i

/-- The value returned, the buffer and the client afterwards. -/
def read_buf (sock : Client) (buf : Buffer) (size : Nat) : Except Buffer.Fault (Nat × Buffer × Client) := do
  let (buf, i, sock) ← readLoop size buf 0 0 sock
  let buf ← set buf i 0
  return (i, buf, sock)

/-- Successive calls, each with a buffer and its size. -/
def read_bufs : List (Buffer × Nat) → Client → Except Buffer.Fault (List (Nat × Buffer) × Client)
  | [], sock => return ([], sock)
  | (buf, size) :: calls, sock => do
    let (i, buf, sock) ← read_buf sock buf size
    let (results, sock) ← read_bufs calls sock
    return ((i, buf) :: results, sock)

/-! ## What it is for -/

/-- The client after `n` calls for one byte. -/
def after (n : Nat) (c : Client) : Client := (fun c => (AntHttp.antd_recv c 1).2.2)^[n] c

/-- A line, or a part of one, of `n` bytes at most: a newline ends it, and without one it is as long as it may be or no
byte more was there. -/
structure Line (n : Nat) (c : Client) (line : Bytes) (c' : Client) : Prop where
  stream : bytesOf c.input = line ++ bytesOf c'.input
  length : line.length ≤ n
  newline : 10 ∉ line.dropLast
  stops : 10 ∉ line → line.length = n ∨ available (after line.length c).last_io (after line.length c).input = 0

/-- Each call's result is the next line of the stream, ended by a NUL inside the buffer. -/
inductive InLines : Client → List (Buffer × Nat) → List (Nat × Buffer) → List Bytes → Client → Prop
  | nil {c} : InLines c [] [] [] c
  | cons {c c₁ c₂ buf size calls line results lines} :
    Line (size - 1) c line c₁ → line.length < size → InLines c₁ calls results lines c₂ →
    InLines c ((buf, size) :: calls) ((line.length, line.map some ++ some 0 :: buf.drop (line.length + 1)) :: results)
      (line :: lines) c₂

/-! ## One line -/

section

variable {c : Client} {n : Nat}

/-- A call for one byte gets it, or nothing was there. -/
theorem recv_one (c : Client) :
    (∃ b, AntHttp.antd_recv c 1 = (1, [b], (AntHttp.antd_recv c 1).2.2)) ∨
      ((AntHttp.antd_recv c 1).1 ≤ 0 ∧ (AntHttp.antd_recv c 1).2.1 = [] ∧ available c.last_io c.input = 0) := by
  have hlen := antd_recv_available c 1
  by_cases h0 : available c.last_io c.input = 0
  · have hnil : (AntHttp.antd_recv c 1).2.1 = [] := List.length_eq_zero_iff.1 (by omega)
    exact .inr ⟨(antd_recv_nil c 1).2 hnil, hnil, h0⟩
  · obtain ⟨b, hb⟩ := List.length_eq_one_iff.1 (show (AntHttp.antd_recv c 1).2.1.length = 1 by omega)
    refine .inl ⟨b, ?_⟩
    have hret : (AntHttp.antd_recv c 1).1 = 1 := by
      have hdata : (AntHttp.recvLoop c.last_io 1 c.input).data = [b] := hb
      simp [AntHttp.antd_recv, hdata]
    rw [← hret, ← hb]

theorem readLoop_nil (h : (AntHttp.antd_recv c 1).2.1 = []) :
    AntHttp.readLoop (n + 1) c = ([], (AntHttp.antd_recv c 1).2.2) := by
  unfold AntHttp.readLoop
  split
  · rename_i hr
    rw [hr] at h
    cases h
  · rename_i hr
    rw [hr]

theorem line_readLoop (n : Nat) (c : Client) : Line n c (AntHttp.readLoop n c).1 (AntHttp.readLoop n c).2 := by
  induction n generalizing c with
  | zero => exact ⟨rfl, le_rfl, List.not_mem_nil, fun _ => .inl rfl⟩
  | succ n ih =>
    have hstream := antd_recv_bytesOf c 1
    rcases recv_one c with ⟨b, hb⟩ | ⟨-, hnil, h0⟩
    · generalize (AntHttp.antd_recv c 1).2.2 = c₁ at hb hstream
      have hafter (k : Nat) : after (k + 1) c = after k c₁ := by
        rw [after, Function.iterate_succ_apply, hb]
        rfl
      rw [hb] at hstream
      by_cases h10 : b = 10
      · have hloop : AntHttp.readLoop (n + 1) c = ([b], c₁) := by simp [AntHttp.readLoop, hb, h10]
        rw [hloop]
        exact ⟨hstream, Nat.le_add_left 1 n, List.not_mem_nil, fun h => absurd h10.symm (by simpa using h)⟩
      · obtain ⟨hs, hlen, hnew, hstops⟩ := ih c₁
        have hloop : AntHttp.readLoop (n + 1) c = (b :: (AntHttp.readLoop n c₁).1, (AntHttp.readLoop n c₁).2) := by
          simp [AntHttp.readLoop, hb, h10]
        rw [hloop]
        refine ⟨?_, Nat.succ_le_succ hlen, ?_, fun h => ?_⟩
        · rw [hstream, hs]
          rfl
        · cases hr : (AntHttp.readLoop n c₁).1 with
          | nil => exact List.not_mem_nil
          | cons d l =>
            rw [hr] at hnew
            rw [List.dropLast_cons_cons, List.mem_cons, not_or]
            exact ⟨Ne.symm h10, hnew⟩
        · rw [List.length_cons, hafter]
          exact (hstops fun hm => h (List.mem_cons_of_mem _ hm)).imp_left (congrArg Nat.succ)
    · rw [readLoop_nil hnil]
      rw [hnil] at hstream
      exact ⟨hstream, Nat.zero_le _, List.not_mem_nil, fun _ => .inr h0⟩

/-! ## The buffer -/

/-- The loop stores what it reads, byte after byte. -/
theorem readLoop_put {size i n : Nat} (hn : size - 1 - i = n) (buf : Buffer) {b : UInt8} (hb : b ≠ 10) (c : Client) :
    readLoop size buf i b c = put buf i (AntHttp.readLoop n c).1 >>= fun buf' =>
      .ok (buf', i + (AntHttp.readLoop n c).1.length, (AntHttp.readLoop n c).2) := by
  induction n generalizing i buf b c with
  | zero =>
    have hfull : ¬ (i < size - 1 ∧ b ≠ 10) := by omega
    rw [readLoop, dif_neg hfull]
    rfl
  | succ n ih =>
    have hroom : i < size - 1 ∧ b ≠ 10 := ⟨by omega, hb⟩
    obtain ⟨s, hs, hptr, hc⟩ := antd_recv_block (show 1 ≤ [some b].length from le_rfl) c
    rw [readLoop, dif_pos hroom, hs, ok_bind]
    rcases recv_one c with ⟨d, hd⟩ | ⟨hret, hnil, -⟩
    · generalize (AntHttp.antd_recv c 1).2.2 = c₁ at hd hc
      rw [hd] at hptr
      have hget : get s.ptr 0 = .ok d := by rw [hptr]; rfl
      simp only [hd, hget, ok_bind, ← hc, Int.one_pos, if_true]
      by_cases h10 : d = 10
      · -- the newline is stored too, and the loop ends
        have hloop : AntHttp.readLoop (n + 1) c = ([d], c₁) := by simp [AntHttp.readLoop, hd, h10]
        have hend (buf : Buffer) : readLoop size buf (i + 1) d c₁ = .ok (buf, i + 1, c₁) := by
          rw [readLoop, dif_neg (fun h => h.2 h10)]
          rfl
        rw [hloop, put_singleton]
        simp only [hend]
        rfl
      · have hloop : AntHttp.readLoop (n + 1) c = (d :: (AntHttp.readLoop n c₁).1, (AntHttp.readLoop n c₁).2) := by
          simp [AntHttp.readLoop, hd, h10]
        have hnext : size - 1 - (i + 1) = n := by omega
        rw [hloop, put]
        cases set buf i d with
        | error e => rfl
        | ok buf =>
          simp only [ok_bind, ih hnext buf h10 c₁, List.length_cons, Nat.add_assoc, Nat.add_comm 1]
    · have hloop : AntHttp.readLoop (n + 1) c = ([], (AntHttp.antd_recv c 1).2.2) := readLoop_nil hnil
      simp only [if_neg (Int.not_lt.2 hret), ← hc, hloop]
      rfl

/-- A call leaves the line and a NUL behind it at the start of the buffer. -/
theorem read_buf_eq {size : Nat} {buf : Buffer} (h0 : 0 < size) (hsize : size ≤ buf.length) (c : Client) :
    let r := AntHttp.read_buf c size
    read_buf c buf size = .ok (r.1.length, r.1.map some ++ some 0 :: buf.drop (r.1.length + 1), r.2) := by
  have hlen := (line_readLoop (size - 1) c).length
  have hfit : 0 + ((AntHttp.readLoop (size - 1) c).1 ++ [0]).length ≤ buf.length := by
    rw [List.length_append, List.length_singleton]
    omega
  have hput := put_ok hfit
  rw [put_append] at hput
  rw [read_buf, readLoop_put rfl buf (by decide) c, Nat.sub_zero]
  cases hb : put buf 0 (AntHttp.readLoop (size - 1) c).1 with
  | error e =>
    rw [hb] at hput
    cases hput
  | ok b =>
    rw [hb, ok_bind, put_singleton] at hput
    simp only [ok_bind, hput]
    simp [pure, Except.pure, AntHttp.read_buf]

/-- The results of successive calls are the stream cut into lines: none of its bytes is lost between two calls, and none
is read twice. -/
theorem read_bufs_lines (calls : List (Buffer × Nat)) (h : ∀ call ∈ calls, 2 ≤ call.2 ∧ call.2 ≤ call.1.length)
    (c : Client) :
    ∃ results lines c', read_bufs calls c = .ok (results, c') ∧ InLines c calls results lines c' ∧
      bytesOf c.input = lines.flatten ++ bytesOf c'.input := by
  induction calls generalizing c with
  | nil => exact ⟨[], [], c, rfl, .nil, rfl⟩
  | cons call calls ih =>
    obtain ⟨buf, size⟩ := call
    obtain ⟨hcall, hcalls⟩ := List.forall_mem_cons.1 h
    obtain ⟨htwo, hsize⟩ : 2 ≤ size ∧ size ≤ buf.length := hcall
    have hread := read_buf_eq (by omega) hsize c
    have hline : Line (size - 1) c (AntHttp.read_buf c size).1 (AntHttp.read_buf c size).2 := line_readLoop ..
    have hfits : (AntHttp.read_buf c size).1.length < size := by
      have hlen := hline.length
      omega
    obtain ⟨results, lines, c₂, hreads, hin, hstream⟩ := ih hcalls (AntHttp.read_buf c size).2
    refine ⟨_, _ :: lines, c₂, ?_, .cons hline hfits hin, ?_⟩
    · simp only [read_bufs, hread, hreads, ok_bind]
      rfl
    · rw [hline.stream, hstream, List.flatten_cons, List.append_assoc]

/-- A long line in two calls, and a third that finds the connection closed. -/
theorem read_bufs_lines_three :
    let c : Client := ⟨5, false, .HEADER_DECODE, 0, .CNONE,
      [.byte 65 false 0, .byte 66 true 0, .again 1, .byte 67 false 1, .byte 10 true 1, .closed false 2], [], [], []⟩
    let calls : List (Buffer × Nat) := [(uninit 3, 3), (uninit 4, 3), (uninit 2, 2)]
    ∃ results lines c', read_bufs calls c = .ok (results, c') ∧ InLines c calls results lines c' ∧
      bytesOf c.input = lines.flatten ++ bytesOf c'.input := by
  intro c calls
  exact read_bufs_lines calls (by decide) c

end

end AntHttp.Plain
