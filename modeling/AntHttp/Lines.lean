import AntHttp.Arrivals
import AntHttp.Decode
/-!
# Reading what arrives line by line

`read_buf` cuts a stream after a newline, or where its buffer is full. Here the
bytes arrive without a pause that is too long.
-/

namespace AntHttp

open CString

/-- What a call for `n` bytes at most cuts off a stream. -/
def chunk : Nat → Bytes → Bytes
  | 0, _ => []
  | _, [] => []
  | n + 1, c :: bs => if c = 10 then [c] else c :: chunk n bs

/-- The bytes arrive next. -/
def Client.Has (c : Client) (bs : Bytes) : Prop := ∃ t rest, Arrives c.last_io bs c.input t rest

section Chunks

variable {n : Nat} {bs l D rest : Bytes}

theorem chunk_ne_nil (hn : 0 < n) (hb : bs ≠ []) : chunk n bs ≠ [] := by
  cases n with
  | zero => omega
  | succ n =>
    cases bs with
    | nil => exact absurd rfl hb
    | cons c bs =>
      simp only [chunk]
      split <;> nofun

/-- A line that fits is read whole. -/
theorem chunk_line (hl : 10 ∉ l) (hn : l.length < n) : chunk n (l ++ 10 :: rest) = l ++ [10] := by
  induction l generalizing n with
  | nil =>
    cases n with
    | zero => cases hn
    | succ n => simp [chunk]
  | cons c l ih =>
    obtain ⟨hc, hl⟩ := not_or.1 fun h => hl (List.mem_cons.2 h)
    cases n with
    | zero => cases hn
    | succ n =>
      have hn : l.length < n := by simpa using hn
      simp [chunk, Ne.symm hc, ih hl hn]

/-- Text that is empty or ends with a newline. -/
def Closed (D : Bytes) : Prop := ∀ c ∈ D.getLast?, c = 10

theorem closed_nil : Closed [] := fun c hc => by cases hc

theorem closed_line (l : Bytes) : Closed (l ++ [10]) := by
  intro c hc
  rw [List.getLast?_concat] at hc
  exact (Option.some.inj hc).symm

theorem Closed.mem (hD : Closed D) (hne : D ≠ []) : 10 ∈ D := by
  have hlast := List.getLast?_eq_some_getLast hne
  have h10 := hD _ hlast
  rw [← h10]
  exact List.getLast_mem hne

/-- A piece of closed text is cut off it, and what is left is closed. -/
theorem Closed.chunk (hD : Closed D) (hne : D ≠ []) (n : Nat) (rest : Bytes) :
    ∃ D', D = AntHttp.chunk n (D ++ rest) ++ D' ∧ Closed D' := by
  induction n generalizing D with
  | zero => exact ⟨D, rfl, hD⟩
  | succ n ih =>
    cases D with
    | nil => exact absurd rfl hne
    | cons c D =>
      by_cases hc : c = 10
      · refine ⟨D, by simp [AntHttp.chunk, hc], fun d hd => ?_⟩
        cases D with
        | nil => cases hd
        | cons d' D => exact hD d (by rwa [List.getLast?_cons_cons])
      · have hne' : D ≠ [] := by
          rintro rfl
          exact hc (hD c rfl)
        have hD' : Closed D := by
          intro d hd
          obtain ⟨d', D', rfl⟩ := List.exists_cons_of_ne_nil hne'
          exact hD d (by rwa [List.getLast?_cons_cons])
        obtain ⟨D', heq, hclosed⟩ := ih hD' hne'
        refine ⟨D', ?_, hclosed⟩
        simp only [List.cons_append, AntHttp.chunk, hc, if_false]
        rw [← heq]

end Chunks

/-! ## `read_buf` -/

section Reading

variable {c : Client} {n : Nat} {bs more : Bytes}

/-- The next byte is received. -/
theorem Arrives.recv_byte {b : UInt8} {t : Int} {rest : List RecvEv} (h : Arrives c.last_io (b :: bs) c.input t rest) :
    ∃ c', AntHttp.antd_recv c 1 = (1, [b], c') ∧ Arrives c'.last_io bs c'.input t rest := by
  have h : Arrives c.last_io ([b] ++ bs) c.input t rest := h
  obtain ⟨t₁, evs₁, h₁, h₂⟩ := h.split
  exact ⟨_, h₁.antd_recv, h₂⟩

theorem Arrives.readLoop {t : Int} {rest : List RecvEv} (h : Arrives c.last_io bs c.input t rest)
    (hn : n ≤ bs.length ∨ 10 ∈ bs) :
    ∃ c', AntHttp.readLoop n c = (chunk n bs, c') ∧ Arrives c'.last_io (bs.drop (chunk n bs).length) c'.input t rest := by
  induction n generalizing c bs with
  | zero => exact ⟨c, rfl, h⟩
  | succ n ih =>
    cases bs with
    | nil => rcases hn with hn | hn <;> cases hn
    | cons b bs =>
      obtain ⟨c₁, hr, h₁⟩ := h.recv_byte
      by_cases hb : b = 10
      · exact ⟨c₁, by simp [AntHttp.readLoop, chunk, hr, hb], by simpa [chunk, hb] using h₁⟩
      · have hn' : n ≤ bs.length ∨ 10 ∈ bs := by
          refine hn.imp (fun hle => by simpa using hle) fun hmem => ?_
          exact (List.mem_cons.1 hmem).resolve_left (Ne.symm hb)
        obtain ⟨c₂, hr₂, h₂⟩ := ih h₁ hn'
        exact ⟨c₂, by simp [AntHttp.readLoop, chunk, hr, hb, hr₂], by simpa [chunk, hb] using h₂⟩

theorem Client.Has.readLoop (h : c.Has bs) (hn : n ≤ bs.length ∨ 10 ∈ bs) :
    ∃ c', AntHttp.readLoop n c = (chunk n bs, c') ∧ c'.Has (bs.drop (chunk n bs).length) := by
  obtain ⟨t, rest, h⟩ := h
  obtain ⟨c', hr, h'⟩ := h.readLoop hn
  exact ⟨c', hr, t, rest, h'⟩

/-- A piece of the stream is read, and the rest arrives after it. -/
theorem Client.Has.read_buf {l : Bytes} (h : c.Has (l ++ more)) (hl : chunk (BUFFLEN - 1) (l ++ more) = l)
    (hn : BUFFLEN - 1 ≤ (l ++ more).length ∨ 10 ∈ l ++ more) :
    ∃ c', AntHttp.read_buf c BUFFLEN = (l, c') ∧ c'.Has more := by
  obtain ⟨c', hr, h'⟩ := h.readLoop hn
  rw [hl] at hr h'
  rw [List.drop_left] at h'
  exact ⟨c', hr, h'⟩

/-- A line that fits is read. -/
theorem Client.Has.read_line {l : Bytes} (h : c.Has (l ++ 10 :: more)) (hl : 10 ∉ l) (hlen : l.length + 1 < BUFFLEN) :
    ∃ c', AntHttp.read_buf c BUFFLEN = (l ++ [10], c') ∧ c'.Has more := by
  have hc : chunk (BUFFLEN - 1) ((l ++ [10]) ++ more) = l ++ [10] := by
    rw [List.append_assoc]
    exact chunk_line hl (by omega)
  rw [← List.singleton_append, ← List.append_assoc] at h
  exact h.read_buf hc (.inr (by simp))

/-- Of what comes last at least this much is read. -/
theorem Client.Has.read_last {l : Bytes} (h : c.Has l) (hl : 10 ∉ l) (hlen : l.length ≤ n) :
    ∃ more, (AntHttp.readLoop n c).1 = l ++ more := by
  induction l generalizing c n with
  | nil => exact ⟨_, rfl⟩
  | cons b l ih =>
    obtain ⟨hb, hl⟩ := not_or.1 fun h => hl (List.mem_cons.2 h)
    cases n with
    | zero => cases hlen
    | succ n =>
      obtain ⟨t, rest, ha⟩ := h
      obtain ⟨c₁, hr, h₁⟩ := ha.recv_byte
      obtain ⟨more, hmore⟩ := ih ⟨t, rest, h₁⟩ hl (by simpa using hlen)
      exact ⟨more, by simp [AntHttp.readLoop, hr, Ne.symm hb, hmore]⟩

end Reading

/-! ## Loops over lines -/

section Loops

variable {c c' : Client} {l D more boundary data : Bytes} {evs : List WriteEv} {total : Int}

theorem readUntil_eq {stop : Bytes → Bool} (hr : read_buf c BUFFLEN = (l, c')) (hne : l ≠ []) :
    readUntil stop c = if stop (cstr l) then (l, c') else readUntil stop c' := by
  obtain ⟨b, l, rfl⟩ := List.exists_cons_of_ne_nil hne
  rw [readUntil, hr]

theorem saveLoop_eq (hr : read_buf c BUFFLEN = (l, c')) (hne : l ≠ []) :
    saveLoop boundary c evs data total =
      if strstr (cstr l) boundary then ⟨l, c', data, total⟩
      else saveLoop boundary c' (guard_write l.length evs).2.2 (data ++ l.take (guard_write l.length evs).1)
        (total + if (guard_write l.length evs).2.1 then ((guard_write l.length evs).1 : Int) else -1) := by
  obtain ⟨b, l, rfl⟩ := List.exists_cons_of_ne_nil hne
  rw [saveLoop, hr]

/-- Text in which nothing stops the loop is read to its end. -/
theorem Client.Has.readUntil_through (stop : Bytes → Bool) (hD : Closed D) (hs : ∀ l, l <:+: D → stop (cstr l) = false) (h : c.Has (D ++ more)) :
    ∃ c', readUntil stop c = readUntil stop c' ∧ c'.Has more := by
  induction hn : D.length using Nat.strong_induction_on generalizing D c with
  | _ n ih =>
    by_cases hne : D = []
    · exact ⟨c, rfl, by simpa [hne] using h⟩
    · obtain ⟨D', heq, hclosed⟩ := hD.chunk hne (BUFFLEN - 1) more
      generalize hl : chunk (BUFFLEN - 1) (D ++ more) = l at heq
      have hlne : l ≠ [] := by
        rw [← hl]
        exact chunk_ne_nil (by decide) (by simp [hne])
      have h10 : 10 ∈ D ++ more := List.mem_append_left _ (hD.mem hne)
      subst heq
      rw [List.append_assoc] at h hl h10
      obtain ⟨c₁, hr, h₁⟩ := h.read_buf hl (.inr h10)
      have hshort : D'.length < n := by
        have := List.length_pos_iff.2 hlne
        rw [← hn, List.length_append]
        omega
      obtain ⟨c₂, hc₂, h₂⟩ := ih _ hshort hclosed (fun l' hl' => hs l' (hl'.trans (List.suffix_append ..).isInfix)) h₁ rfl
      refine ⟨c₂, ?_, h₂⟩
      rw [readUntil_eq hr hlne, hs l (List.prefix_append ..).isInfix, ← hc₂]
      rfl

/-- The descriptor takes all that is written. -/
def Rooms (n : Nat) (evs : List WriteEv) : Prop := (∀ e ∈ evs, ∃ k, e = .room k) ∧ n ≤ evs.length

theorem guard_write_rooms {n k : Nat} (h : Rooms (n + k) evs) :
    ∃ evs', guard_write n evs = (n, true, evs') ∧ Rooms k evs' := by
  induction n using Nat.strong_induction_on generalizing evs with
  | _ n ih =>
    cases n with
    | zero => exact ⟨evs, by rw [guard_write], by simpa using h⟩
    | succ n =>
      cases evs with
      | nil => exact absurd h.2 (by simp)
      | cons e evs =>
        obtain ⟨m, rfl⟩ := h.1 e List.mem_cons_self
        have hr : Rooms (n - m + k) evs := by
          refine ⟨fun e he => h.1 e (List.mem_cons_of_mem _ he), ?_⟩
          have := h.2
          simp only [List.length_cons] at this
          omega
        obtain ⟨evs', hg, hr'⟩ := ih (n - m) (by omega) hr
        refine ⟨evs', ?_, hr'⟩
        rw [guard_write, hg]
        simp only [Prod.mk.injEq, and_true]
        omega

/-- Text without the boundary goes to the file. -/
theorem Client.Has.saveLoop_through (data : Bytes) (total : Int) {k : Nat} (hD : Closed D) (hB : ¬ boundary <:+: D) (h : c.Has (D ++ more))
    (hr : Rooms (D.length + k) evs) :
    ∃ c' evs', saveLoop boundary c evs data total = saveLoop boundary c' evs' (data ++ D) (total + D.length) ∧
      c'.Has more := by
  induction hn : D.length using Nat.strong_induction_on generalizing D c evs data total with
  | _ n ih =>
    by_cases hne : D = []
    · exact ⟨c, evs, by simp [← hn, hne], by simpa [hne] using h⟩
    · obtain ⟨D', heq, hclosed⟩ := hD.chunk hne (BUFFLEN - 1) more
      generalize hl : chunk (BUFFLEN - 1) (D ++ more) = l at heq
      have hlne : l ≠ [] := by
        rw [← hl]
        exact chunk_ne_nil (by decide) (by simp [hne])
      have h10 : 10 ∈ D ++ more := List.mem_append_left _ (hD.mem hne)
      subst heq
      rw [List.append_assoc] at h hl h10
      obtain ⟨c₁, hread, h₁⟩ := h.read_buf hl (.inr h10)
      rw [List.length_append, Nat.add_assoc] at hr
      obtain ⟨evs₁, hg, hr₁⟩ := guard_write_rooms hr
      have hshort : D'.length < n := by
        have := List.length_pos_iff.2 hlne
        rw [← hn, List.length_append]
        omega
      have hB' : ¬ boundary <:+: D' := fun hb => hB (hb.trans (List.suffix_append ..).isInfix)
      have hstop : strstr (cstr l) boundary = false := by
        refine Bool.eq_false_iff.2 fun hs => hB ?_
        exact ((strstr_iff.1 hs).trans (cstr_isPrefix l).isInfix).trans (List.prefix_append ..).isInfix
      obtain ⟨c₂, evs₂, hc₂, h₂⟩ := ih _ hshort _ _ hclosed hB' h₁ hr₁ rfl
      refine ⟨c₂, evs₂, ?_, h₂⟩
      rw [saveLoop_eq hread hlne, hstop, hg]
      simp only [Bool.false_eq_true, if_false, if_true, List.take_length]
      rw [hc₂, List.append_assoc, ← hn, List.length_append, Int.natCast_add, Int.add_assoc]

end Loops

end AntHttp
