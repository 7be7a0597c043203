import AntHttp.Lines
import AntHttp.Sample
/-!
# A header that arrives in segments

`decode_request_header` is run again when the client pauses for so long that a
read gives up. Each of its runs reads lines of its own, and keeps what it has
put into `REQUEST_HEADER`; its cookies, its host and its count of the bytes
start afresh. So the segments count as one where each but the last is made of
whole lines that set neither, and the header is too short to be refused.
-/

namespace AntHttp

open CString

/-! ## Segments -/

/-- The bytes of a script, cut where a read gives up; `t` is the time of the last byte before it. -/
inductive Segmented : Int → List Bytes → List RecvEv → Prop
  | done {t evs} : Segmented t [[]] evs
  | byte {t b seg segs last now evs} :
    Segmented now (seg :: segs) evs → Segmented t ((b :: seg) :: segs) (.byte b last now :: evs)
  | short {t segs now evs} : now - t ≤ MAX_IO_WAIT_TIME → Segmented t segs evs → Segmented t segs (.again now :: evs)
  | long {t segs now evs} :
    now - t > MAX_IO_WAIT_TIME → Segmented t segs evs → Segmented t ([] :: segs) (.again now :: evs)

theorem Segmented.ne_nil {t : Int} {segs : List Bytes} {evs : List RecvEv} (h : Segmented t segs evs) : segs ≠ [] := by
  induction h with
  | done | byte | long => nofun
  | short _ _ ih => exact ih

/-- However bytes and pauses follow each other, the bytes arrive in segments. -/
theorem exists_segmented (t : Int) {evs : List RecvEv} (rest : List RecvEv)
    (hevs : ∀ e ∈ evs, ∃ now, e = .again now ∨ ∃ b last, e = .byte b last now) :
    ∃ segs, Segmented t segs (evs ++ rest) ∧ segs.flatten = bytesOf evs := by
  induction evs generalizing t with
  | nil => exact ⟨[[]], .done, rfl⟩
  | cons e evs ih =>
    have hrest := fun e' he' => hevs e' (List.mem_cons_of_mem _ he')
    obtain ⟨now, rfl | ⟨b, last, rfl⟩⟩ := hevs e List.mem_cons_self
    · obtain ⟨segs, hs, hf⟩ := ih t hrest
      by_cases hlate : now - t > MAX_IO_WAIT_TIME
      · exact ⟨[] :: segs, .long hlate hs, by simpa [bytesOf] using hf⟩
      · exact ⟨segs, .short (by omega) hs, by simpa [bytesOf] using hf⟩
    · obtain ⟨segs, hs, hf⟩ := ih now hrest
      obtain ⟨seg, segs, rfl⟩ := List.exists_cons_of_ne_nil hs.ne_nil
      refine ⟨(b :: seg) :: segs, .byte hs, ?_⟩
      simp only [List.flatten_cons, List.cons_append, bytesOf] at hf ⊢
      rw [hf]

section

variable {t : Int} {seg : Bytes} {segs : List Bytes} {evs : List RecvEv}

/-- A segment arrives, and the next ones after it. -/
theorem Segmented.arrives (h : Segmented t (seg :: segs) evs) :
    ∃ t' evs', Arrives t seg evs t' evs' ∧ Segmented t' ([] :: segs) evs' := by
  generalize hl : seg :: segs = l at h
  induction h generalizing seg segs with
  | done =>
    cases hl
    exact ⟨_, _, .nil, .done⟩
  | byte h ih =>
    cases hl
    obtain ⟨t', evs', ha, hs⟩ := ih rfl
    exact ⟨t', evs', .byte ha, hs⟩
  | short hnow h ih =>
    subst hl
    cases seg with
    | nil => exact ⟨_, _, .nil, .short hnow h⟩
    | cons b seg =>
      obtain ⟨t', evs', ha, hs⟩ := ih rfl
      exact ⟨t', evs', .again hnow ha, hs⟩
  | long hnow h =>
    cases hl
    exact ⟨_, _, .nil, .long hnow h⟩

theorem Arrives.of_nil {t' : Int} {rest : List RecvEv} (h : Arrives t [] evs t' rest) : t' = t ∧ rest = evs := by
  cases h
  exact ⟨rfl, rfl⟩

/-- At the end of a segment a read gives up. -/
theorem Segmented.recvLoop (h : Segmented t ([] :: seg :: segs) evs) :
    ∃ evs', AntHttp.recvLoop t 1 evs = ⟨[], -1, t, evs'⟩ ∧ Segmented t (seg :: segs) evs' := by
  generalize hl : [] :: seg :: segs = l at h
  induction h with
  | done | byte => cases hl
  | short hnow h ih =>
    obtain ⟨evs', hr, hs⟩ := ih hl
    refine ⟨evs', ?_, hs⟩
    rw [AntHttp.recvLoop, if_neg (by omega), hr]
  | long hnow h =>
    cases hl
    refine ⟨_, ?_, h⟩
    rw [AntHttp.recvLoop, if_pos hnow]

theorem Segmented.read_nil {c : Client} (h : Segmented c.last_io ([] :: seg :: segs) c.input) (size : Nat) (hsize : 1 < size) :
    ∃ evs, AntHttp.read_buf c size = ([], { c with input := evs }) ∧ Segmented c.last_io (seg :: segs) evs := by
  obtain ⟨evs, hr, hs⟩ := h.recvLoop
  refine ⟨evs, ?_, hs⟩
  obtain ⟨n, hn⟩ : ∃ n, size - 1 = n + 1 := ⟨size - 2, by omega⟩
  have hrecv : antd_recv c 1 = (-1, [], { c with input := evs }) := by
    rw [antd_recv, hr]
    rfl
  rw [AntHttp.read_buf, hn, readLoop, hrecv]

end

/-! ## Lines -/

/-- What one call of `read_buf` takes from a long stream: a line, or a full buffer. -/
inductive Piece : Bytes → Prop
  | line {a} : 10 ∉ a → a.length < BUF_SIZE - 1 → Piece (a ++ [10])
  | full {a} : 10 ∉ a → a.length = BUF_SIZE - 1 → Piece a

theorem Piece.ne_nil {l : Bytes} (h : Piece l) : l ≠ [] := by
  cases h with
  | line => simp
  | full _ hlen =>
    rintro rfl
    cases hlen

theorem chunk_full {n : Nat} {a : Bytes} (ha : 10 ∉ a) (hn : a.length = n) (rest : Bytes) : chunk n (a ++ rest) = a := by
  induction a generalizing n with
  | nil =>
    subst hn
    unfold chunk
    split <;> first | rfl | contradiction
  | cons c a ih =>
    obtain ⟨hc, ha⟩ := not_or.1 fun h => ha (List.mem_cons.2 h)
    subst hn
    simp [chunk, Ne.symm hc, ih ha rfl]

theorem Piece.chunk {l : Bytes} (h : Piece l) (rest : Bytes) : AntHttp.chunk (BUF_SIZE - 1) (l ++ rest) = l := by
  cases h with
  | line ha hlen =>
    rw [List.append_assoc]
    exact chunk_line ha hlen
  | full ha hlen => exact chunk_full ha hlen rest

theorem Piece.full_or_mem {l : Bytes} (h : Piece l) (rest : Bytes) : BUF_SIZE - 1 ≤ (l ++ rest).length ∨ 10 ∈ l ++ rest := by
  cases h with
  | line => exact .inr (by simp)
  | full _ hlen =>
    rw [List.length_append]
    exact .inl (by omega)

theorem Arrives.read_piece {c : Client} {l more : Bytes} {t : Int} {rest : List RecvEv} (hl : Piece l)
    (h : Arrives c.last_io (l ++ more) c.input t rest) :
    ∃ c', AntHttp.read_buf c BUF_SIZE = (l, c') ∧ Arrives c'.last_io more c'.input t rest := by
  obtain ⟨c', hr, h'⟩ := h.readLoop (hl.full_or_mem more)
  rw [hl.chunk more] at hr h'
  rw [List.drop_left] at h'
  exact ⟨c', hr, h'⟩

/-- What a call cuts off text with a newline. -/
theorem chunk_cases {D : Bytes} (h : 10 ∈ D) (n : Nat) :
    (∃ a, chunk n D = a ++ [10] ∧ 10 ∉ a ∧ a.length < n) ∨ (10 ∉ chunk n D ∧ (chunk n D).length = n) := by
  induction n generalizing D with
  | zero => exact .inr ⟨by simp [chunk], rfl⟩
  | succ n ih =>
    cases D with
    | nil => cases h
    | cons c D =>
      by_cases hc : c = 10
      · exact .inl ⟨[], by simp [chunk, hc], List.not_mem_nil, Nat.succ_pos n⟩
      · have hmem := (List.mem_cons.1 h).resolve_left (Ne.symm hc)
        rw [show chunk (n + 1) (c :: D) = c :: chunk n D from if_neg hc]
        rcases ih hmem with ⟨a, ha, h10, hlen⟩ | ⟨h10, hlen⟩
        · exact .inl ⟨c :: a, by rw [ha, List.cons_append], by simp [Ne.symm hc, h10], Nat.succ_lt_succ hlen⟩
        · exact .inr ⟨by simp [Ne.symm hc, h10], by rw [List.length_cons, hlen]⟩

/-- Text that ends with a newline is made of pieces. -/
theorem Closed.pieces {D : Bytes} (hD : Closed D) : ∃ ls : List Bytes, (∀ l ∈ ls, Piece l) ∧ ls.flatten = D := by
  induction hn : D.length using Nat.strong_induction_on generalizing D with
  | _ n ih =>
    by_cases hne : D = []
    · exact ⟨[], nofun, hne.symm⟩
    · obtain ⟨D', heq, hclosed⟩ := hD.chunk hne (BUF_SIZE - 1) []
      rw [List.append_nil] at heq
      have hlne : AntHttp.chunk (BUF_SIZE - 1) D ≠ [] := chunk_ne_nil (by decide) hne
      have hpiece : Piece (AntHttp.chunk (BUF_SIZE - 1) D) := by
        rcases chunk_cases (hD.mem hne) (BUF_SIZE - 1) with ⟨a, ha, h10, hlen⟩ | ⟨h10, hlen⟩
        · rw [ha]
          exact .line h10 hlen
        · exact .full h10 hlen
      have hshort : D'.length < n := by
        have := List.length_pos_iff.2 hlne
        rw [← hn, heq, List.length_append]
        omega
      obtain ⟨ls, hls, hflat⟩ := ih _ hshort hclosed rfl
      refine ⟨AntHttp.chunk (BUF_SIZE - 1) D :: ls, ?_, by rw [List.flatten_cons, hflat, ← heq]⟩
      intro l hl
      rcases List.mem_cons.1 hl with rfl | hl
      · exact hpiece
      · exact hls l hl

/-! ## The loop over the header -/

/-- The loop of `decode_request_header` on the lines that are read. -/
def scanLines : HeaderScan → List Bytes → Res (HeaderEnd × HeaderScan)
  | s, [] => .ok (.wait, s)
  | s, l :: ls =>
    if cstr l = [13, 10] then .ok (.complete, s)
    else do
      let s ← headerLine s l
      if s.header_size > HEADER_MAX_SIZE then return (.tooLarge, s) else scanLines s ls

theorem headerLoop_eq {c c' : Client} {l : Bytes} {s : HeaderScan} (hr : read_buf c BUF_SIZE = (l, c')) (hne : l ≠ []) :
    headerLoop c s =
      if cstr l = [13, 10] then .ok (.complete, c', s)
      else headerLine s l >>= fun s =>
        if s.header_size > HEADER_MAX_SIZE then .ok (.tooLarge, c', s) else headerLoop c' s := by
  obtain ⟨b, l, rfl⟩ := List.exists_cons_of_ne_nil hne
  rw [headerLoop, hr]
  rfl

theorem headerLoop_wait {c c' : Client} {s : HeaderScan} (hr : read_buf c BUF_SIZE = ([], c')) :
    headerLoop c s = .ok (.wait, c', s) := by
  rw [headerLoop, hr]

/-- How the loop goes on after lines that have arrived. -/
inductive Scanned (c : Client) (s : HeaderScan) (more : Bytes) (t : Int) (rest : List RecvEv) : Res (HeaderEnd × HeaderScan) → Prop
  | fault {e} : headerLoop c s = .error e → Scanned c s more t rest (.error e)
  | more {c' s'} : Client.Io c c' → headerLoop c s = headerLoop c' s' → Arrives c'.last_io more c'.input t rest →
    Scanned c s more t rest (.ok (.wait, s'))
  | ended {c' e s'} : Client.Io c c' → headerLoop c s = .ok (e, c', s') → e ≠ .wait → Scanned c s more t rest (.ok (e, s'))

theorem Arrives.scanLines {ls : List Bytes} {more : Bytes} {t : Int} {rest : List RecvEv} {c : Client} (s : HeaderScan)
    (hls : ∀ l ∈ ls, Piece l) (h : Arrives c.last_io (ls.flatten ++ more) c.input t rest) :
    Scanned c s more t rest (AntHttp.scanLines s ls) := by
  -- the loop reads a line in each turn; the client and the scan change with it
  induction ls generalizing c s with
  | nil => exact .more (.refl c) rfl h
  | cons l ls ih =>
    have hl := hls l List.mem_cons_self
    rw [List.flatten_cons, List.append_assoc] at h
    obtain ⟨c₁, hr, h₁⟩ := h.read_piece hl
    have hio : Client.Io c c₁ := by
      have := read_buf_io c BUF_SIZE
      rwa [hr] at this
    have heq := headerLoop_eq (s := s) hr hl.ne_nil
    simp only [AntHttp.scanLines]
    split at heq
    · rename_i he
      rw [if_pos he]
      exact .ended hio heq nofun
    · rename_i he
      rw [if_neg he]
      cases hh : headerLine s l with
      | error e =>
        rw [hh] at heq
        exact .fault heq
      | ok s₁ =>
        rw [hh] at heq
        simp only [bind, Except.bind] at heq ⊢
        split at heq
        · rename_i hsize
          rw [if_pos hsize]
          exact .ended hio heq nofun
        · rename_i hsize
          rw [if_neg hsize]
          have hrest := ih s₁ (fun l' hl' => hls l' (List.mem_cons_of_mem _ hl')) h₁
          generalize AntHttp.scanLines s₁ ls = r at hrest ⊢
          cases hrest with
          | fault hf => exact .fault (heq.trans hf)
          | more hio' hm ha => exact .more (hio.trans hio') (heq.trans hm) ha
          | ended hio' he' hne => exact .ended (hio.trans hio') (heq.trans he') hne

theorem scanLines_append (s : HeaderScan) (ls ls' : List Bytes) :
    scanLines s (ls ++ ls') =
      scanLines s ls >>= fun p => if p.1 = .wait then scanLines p.2 ls' else .ok p := by
  induction ls generalizing s with
  | nil => rfl
  | cons l ls ih =>
    simp only [List.cons_append, scanLines]
    split
    · rfl
    · cases headerLine s l with
      | error e => rfl
      | ok s₁ =>
        simp only [bind, Except.bind]
        split
        · rfl
        · exact ih s₁

/-! ## Lines that are counted, and lines that set a variable -/

/-- The scan with `n` more bytes counted. -/
def HeaderScan.shift (n : Nat) (s : HeaderScan) : HeaderScan := { s with header_size := n + s.header_size }

theorem headerLine_shift (n : Nat) (s : HeaderScan) (l : Bytes) :
    headerLine (s.shift n) l = (headerLine s l).map (HeaderScan.shift n) := by
  have hsize : n + s.header_size + l.length = n + (s.header_size + l.length) := Nat.add_assoc ..
  simp only [headerLine, HeaderScan.shift, hsize]
  cases putHeader s.xheader (headerParts l).1 (headerParts l).2 with
  | error e => rfl
  | ok x =>
    simp only [bind, Except.bind]
    split
    · cases decode_cookie (headerParts l).2 (s.cookie.getD .dict) <;> rfl
    · split
      · cases deref (headerParts l).2 <;> rfl
      · rfl

/-- The lines before the empty one. -/
def fieldLines (ls : List Bytes) : List Bytes := ls.takeWhile (cstr · ≠ [13, 10])

theorem fieldLines_cons {l : Bytes} (h : cstr l ≠ [13, 10]) (ls : List Bytes) : fieldLines (l :: ls) = l :: fieldLines ls :=
  List.takeWhile_cons_of_pos (decide_eq_true h)

theorem fieldLines_append {ls : List Bytes} (h : ∀ l ∈ ls, cstr l ≠ [13, 10]) (ls' : List Bytes) :
    fieldLines (ls ++ ls') = ls ++ fieldLines ls' := List.takeWhile_append_of_pos fun l hl => decide_eq_true (h l hl)

theorem fieldLines_isPrefix (ls ls' : List Bytes) : fieldLines ls <+: fieldLines (ls ++ ls') := by
  induction ls with
  | nil => exact List.nil_prefix
  | cons l ls ih =>
    by_cases hl : cstr l = [13, 10]
    · simp [fieldLines, hl]
    · rw [List.cons_append, fieldLines_cons hl, fieldLines_cons hl]
      exact List.cons_prefix_cons.2 ⟨rfl, ih⟩

/-- In a short header more bytes may have been counted before. -/
theorem scanLines_shift {n : Nat} {s : HeaderScan} {ls : List Bytes}
    (h : n + s.header_size + (fieldLines ls).flatten.length ≤ HEADER_MAX_SIZE) :
    scanLines (s.shift n) ls = (scanLines s ls).map fun p => (p.1, p.2.shift n) := by
  induction ls generalizing s with
  | nil => rfl
  | cons l ls ih =>
    simp only [scanLines]
    split
    · rfl
    · rename_i he
      rw [fieldLines_cons he, List.flatten_cons, List.length_append] at h
      rw [headerLine_shift]
      cases hl : headerLine s l with
      | error e => rfl
      | ok s₁ =>
        have hsize := headerLine_size hl
        have hn : ¬ (s₁.shift n).header_size > HEADER_MAX_SIZE := by
          simp only [HeaderScan.shift]
          omega
        have hs : ¬ s₁.header_size > HEADER_MAX_SIZE := by omega
        simp only [Except.map, bind, Except.bind, if_neg hn, if_neg hs]
        exact ih (by omega)

/-- Lines after which the loop goes on. -/
theorem scanLines_wait {s s' : HeaderScan} {ls : List Bytes} (h : scanLines s ls = .ok (.wait, s')) :
    (∀ l ∈ ls, cstr l ≠ [13, 10]) ∧ s'.header_size = s.header_size + ls.flatten.length ∧
      (ls = [] ∨ s'.header_size ≤ HEADER_MAX_SIZE) := by
  induction ls generalizing s with
  | nil =>
    cases h
    exact ⟨nofun, rfl, .inl rfl⟩
  | cons l ls ih =>
    simp only [scanLines] at h
    split at h
    · cases h
    · rename_i he
      obtain ⟨s₁, hl, h⟩ := Res.bind_ok.1 h
      have hsize := headerLine_size hl
      split at h
      · cases h
      · rename_i hs
        obtain ⟨hls, hlen, hmax⟩ := ih h
        refine ⟨?_, ?_, .inr ?_⟩
        · intro l' hl'
          rcases List.mem_cons.1 hl' with rfl | hl'
          · exact he
          · exact hls l' hl'
        · rw [hlen, hsize, List.flatten_cons, List.length_append, Nat.add_assoc]
        · rcases hmax with rfl | hmax
          · simp only [List.flatten_nil, List.length_nil] at hlen
            omega
          · exact hmax

/-- A line that sets neither the cookies nor the host. -/
def PlainLine (l : Bytes) : Prop :=
  strcaseeq (headerParts l).1 (str "Cookie") = false ∧ strcaseeq (headerParts l).1 (str "Host") = false

instance (l : Bytes) : Decidable (PlainLine l) :=
  inferInstanceAs (Decidable (strcaseeq (headerParts l).1 (str "Cookie") = false ∧ strcaseeq (headerParts l).1 (str "Host") = false))

theorem headerLine_plain {s s' : HeaderScan} {l : Bytes} (hl : PlainLine l) (h : headerLine s l = .ok s') :
    s'.cookie = s.cookie ∧ s'.host = s.host := by
  obtain ⟨x, -, h⟩ := Res.bind_ok.1 h
  simp only at h
  split at h
  · rename_i hc
    cases hl.1.symm.trans hc
  · split at h
    · rename_i hh
      cases hl.2.symm.trans hh
    · cases h
      exact ⟨rfl, rfl⟩

theorem scanLines_plain {s s' : HeaderScan} {ls : List Bytes} {e : HeaderEnd} (hls : ∀ l ∈ ls, PlainLine l)
    (h : scanLines s ls = .ok (e, s')) : s'.cookie = s.cookie ∧ s'.host = s.host := by
  induction ls generalizing s with
  | nil =>
    cases h
    exact ⟨rfl, rfl⟩
  | cons l ls ih =>
    simp only [scanLines] at h
    split at h
    · cases h
      exact ⟨rfl, rfl⟩
    · obtain ⟨s₁, hl, h⟩ := Res.bind_ok.1 h
      obtain ⟨hc, hh⟩ := headerLine_plain (hls l List.mem_cons_self) hl
      split at h
      · cases h
        exact ⟨hc, hh⟩
      · obtain ⟨hc', hh'⟩ := ih (fun l' hl' => hls l' (List.mem_cons_of_mem _ hl')) h
        exact ⟨hc'.trans hc, hh'.trans hh⟩

/-! ## What a run leaves -/

/-- What is compared of two decodings: the keys they set, the answers and what comes next. -/
structure HeaderOutcome where
  header : Option (Dictionary Bytes)
  cookie : Option (Dictionary Bytes)
  host : Option Bytes
  answers : List Nat
  next : Option Handler

def headerOutcome (p : Task × Request) : HeaderOutcome where
  header := p.2.REQUEST_HEADER
  cookie := p.2.COOKIE
  host := p.2.host
  answers := p.2.client.answers
  next := p.1.handle

def SameOutcome (x y : Res (Task × Request)) : Prop := x.map headerOutcome = y.map headerOutcome

theorem SameOutcome.bind {α : Type} (x : Res α) {f f' : α → Res (Task × Request)} (h : ∀ a, SameOutcome (f a) (f' a)) :
    SameOutcome (x >>= f) (x >>= f') := by
  cases x with
  | error e => rfl
  | ok a => exact h a

/-- What follows the loop over the header. -/
def finishHeader (sys : Sys) (cnf : Config) (rq : Request) (pcnf : Option PortConfig) (s : HeaderScan) :
    HeaderEnd → Res (Task × Request)
  | .tooLarge => .ok (antd_create_task none none (rq.antd_error 413 "Payload Too Large").client.last_io,
      rq.antd_error 413 "Payload Too Large")
  | .wait => .ok ((antd_create_task (some .decode_request_header) none rq.client.last_io).bindIo rq.client.sock true false, rq)
  | .complete => headerComplete sys cnf rq pcnf rq.REQUEST_QUERY s

section

variable {sys : Sys} {cnf : Config} {rq : Request} {pcnf : Option PortConfig} {s : HeaderScan} {c : Client}

theorem decode_request_header_eq : decode_request_header sys cnf rq =
    cnf.port rq.SERVER_PORT >>= fun pcnf =>
      headerLoop (rq.set_state .HEADER_DECODE).client ⟨rq.REQUEST_HEADER, none, none, 0⟩ >>= fun (e, client, s) =>
        finishHeader sys cnf { rq with client, REQUEST_HEADER := s.xheader } pcnf s e := by
  unfold decode_request_header
  refine bind_congr fun pcnf => bind_congr fun p => ?_
  obtain ⟨e, client, s⟩ := p
  cases e with
  | tooLarge | wait | complete => rfl

/-- Checking for a proxy looks at the client only to send an error. -/
theorem check_proxy_client (rq : Request) {path query : Bytes} {f f' : Option Task × Request → Res (Task × Request)}
    (ha : c.answers = rq.client.answers) (hnone : SameOutcome (f (none, { rq with client := c })) (f' (none, rq)))
    (hsome : ∀ t t' r r', headerOutcome (t, r) = headerOutcome (t', r') → SameOutcome (f (some t, r)) (f' (some t', r'))) :
    SameOutcome (check_proxy sys.regexec { rq with client := c } path query >>= f) (check_proxy sys.regexec rq path query >>= f') := by
  unfold check_proxy
  simp only [bind_assoc]
  refine .bind _ fun m => ?_
  cases m with
  | none => exact hnone
  | some m =>
    simp only
    split
    · refine hsome _ _ _ _ ?_
      simp only [headerOutcome, antd_error_answers, ha]
      rfl
    · simp only [bind_assoc]
      refine .bind _ fun host => .bind _ fun port => hsome _ _ _ _ ?_
      simp only [headerOutcome, ha]
      rfl

theorem rewriteRequest_client (rq : Request) {url : Option Bytes} (ha : c.answers = rq.client.answers) :
    SameOutcome (rewriteRequest sys { rq with client := c } pcnf url s) (rewriteRequest sys rq pcnf url s) := by
  unfold rewriteRequest
  refine .bind _ fun p => .bind _ fun url => .bind _ fun w => ?_
  refine check_proxy_client { rq with COOKIE := s.cookie.or rq.COOKIE, host := s.host, producer := w.producer } ha
    (.bind _ fun data => ?_) ?_
  · exact congrArg (fun a => Except.ok (HeaderOutcome.mk rq.REQUEST_HEADER (s.cookie.or rq.COOKIE) s.host a _)) ha
  · intro t t' r r' h
    exact congrArg Except.ok h

theorem headerComplete_client {url : Option Bytes} (ha : c.answers = rq.client.answers) :
    SameOutcome (headerComplete sys cnf { rq with client := c } pcnf url s) (headerComplete sys cnf rq pcnf url s) := by
  unfold headerComplete
  refine .bind _ fun xheader => ?_
  simp only
  split
  · simp only [SameOutcome, Except.map, pure, Except.pure, headerOutcome, antd_error_answers, ha]
    rfl
  · exact .bind _ fun z_level => rewriteRequest_client { rq with client.z_level := z_level } ha

/-- The outcome does not depend on what is left of the scripts, nor on the count of the bytes. -/
theorem finishHeader_client (rq : Request) (e : HeaderEnd) (ha : c.answers = rq.client.answers) :
    SameOutcome (finishHeader sys cnf { rq with client := c } pcnf s e) (finishHeader sys cnf rq pcnf s e) := by
  cases e with
  | complete => exact headerComplete_client ha
  | tooLarge =>
    simp only [SameOutcome, finishHeader, Except.map, headerOutcome, antd_error_answers, ha]
    rfl
  | wait =>
    simp only [SameOutcome, finishHeader, Except.map, headerOutcome, ha]
    rfl

theorem check_proxy_next {path query : Bytes} {o : Option Task} {rq' : Request}
    (h : check_proxy sys.regexec rq path query = .ok (o, rq')) : ∀ t ∈ o, t.handle ≠ some .decode_request_header := by
  obtain ⟨m, -, h⟩ := Res.bind_ok.1 h
  cases m with
  | none =>
    cases h
    exact nofun
  | some m =>
    simp only at h
    split at h
    · cases h
      rintro t ⟨⟩
      exact nofun
    · obtain ⟨host, -, h⟩ := Res.bind_ok.1 h
      obtain ⟨port, -, h⟩ := Res.bind_ok.1 h
      cases h
      rintro t ⟨⟩
      exact nofun

/-- After the end of the header it is not decoded again. -/
theorem finishHeader_next {e : HeaderEnd} {t : Task} {rq' : Request} (he : e ≠ .wait)
    (h : finishHeader sys cnf rq pcnf s e = .ok (t, rq')) : t.handle ≠ some .decode_request_header := by
  cases e with
  | wait => exact absurd rfl he
  | tooLarge =>
    cases h
    exact nofun
  | complete =>
    obtain ⟨x, -, h⟩ := Res.bind_ok.1 h
    simp only at h
    split at h
    · cases h
      exact nofun
    · obtain ⟨z, -, h⟩ := Res.bind_ok.1 h
      obtain ⟨p, -, h⟩ := Res.bind_ok.1 h
      obtain ⟨url, -, h⟩ := Res.bind_ok.1 h
      obtain ⟨w, -, h⟩ := Res.bind_ok.1 h
      obtain ⟨⟨o, rq₁⟩, hp, h⟩ := Res.bind_ok.1 h
      cases o with
      | some t₁ =>
        cases h
        exact check_proxy_next hp t rfl
      | none =>
        obtain ⟨d, -, h⟩ := Res.bind_ok.1 h
        cases h
        exact nofun

end

/-! ## Runs -/

/-- The runs of `decode_request_header` for a header, at most `n` after the first. -/
def decodeHeader (sys : Sys) (cnf : Config) : Nat → Request → Res (Task × Request)
  | 0, rq => decode_request_header sys cnf rq
  | n + 1, rq => do
    let (t, rq) ← decode_request_header sys cnf rq
    if t.handle = some .decode_request_header then decodeHeader sys cnf n rq else return (t, rq)

/-- What lines lead to of which `k` bytes have been counted before. -/
def decoded (sys : Sys) (cnf : Config) (rq : Request) (k : Nat) (ls : List Bytes) : Res (Task × Request) :=
  cnf.port rq.SERVER_PORT >>= fun pcnf => scanLines ⟨rq.REQUEST_HEADER, none, none, k⟩ ls >>= fun p =>
    finishHeader sys cnf { rq with REQUEST_HEADER := p.2.xheader } pcnf p.2 p.1

section

variable {sys : Sys} {cnf : Config} {rq : Request} {ls : List Bytes} {more : Bytes} {t : Int} {rest : List RecvEv}

theorem decodeHeader_ended (h : ∀ t rq', decode_request_header sys cnf rq = .ok (t, rq') → t.handle ≠ some .decode_request_header)
    (n : Nat) : decodeHeader sys cnf n rq = decode_request_header sys cnf rq := by
  cases n with
  | zero => rfl
  | succ n =>
    rw [decodeHeader]
    cases hd : decode_request_header sys cnf rq with
    | error e => rfl
    | ok p => exact if_neg (h p.1 p.2 hd)

theorem sameOutcome_next {x y : Res (Task × Request)} (h : SameOutcome x y) {next : Option Handler}
    (hy : ∀ t rq', y = .ok (t, rq') → t.handle ≠ next) : ∀ t rq', x = .ok (t, rq') → t.handle ≠ next := by
  rintro t rq' rfl
  cases y with
  | error e => cases h
  | ok p =>
    have hnext : t.handle = p.1.handle := congrArg HeaderOutcome.next (Except.ok.inj h)
    rw [hnext]
    exact hy p.1 p.2 rfl

theorem decoded_next {k : Nat} (he : ∀ s', scanLines ⟨rq.REQUEST_HEADER, none, none, k⟩ ls ≠ .ok (.wait, s')) :
    ∀ t rq', decoded sys cnf rq k ls = .ok (t, rq') → t.handle ≠ some .decode_request_header := by
  intro t rq' h
  obtain ⟨pcnf, -, h⟩ := Res.bind_ok.1 h
  obtain ⟨⟨e, s'⟩, hs, h⟩ := Res.bind_ok.1 h
  refine finishHeader_next ?_ h
  rintro rfl
  exact he s' hs

/-- Lines by which the header ends. -/
theorem decode_request_header_ended (hls : ∀ l ∈ ls, Piece l)
    (ha : Arrives rq.client.last_io (ls.flatten ++ more) rq.client.input t rest)
    (he : ∀ s', scanLines ⟨rq.REQUEST_HEADER, none, none, 0⟩ ls ≠ .ok (.wait, s')) :
    SameOutcome (decode_request_header sys cnf rq) (decoded sys cnf rq 0 ls) := by
  rw [decode_request_header_eq]
  refine .bind _ fun pcnf => ?_
  have ha : Arrives (rq.set_state .HEADER_DECODE).client.last_io (ls.flatten ++ more) (rq.set_state .HEADER_DECODE).client.input t rest := ha
  have hs := ha.scanLines ⟨rq.REQUEST_HEADER, none, none, 0⟩ hls
  generalize scanLines ⟨rq.REQUEST_HEADER, none, none, 0⟩ ls = r at hs he
  cases hs with
  | fault hf =>
    rw [hf]
    rfl
  | more => exact absurd rfl (he _)
  | @ended c' e s' hio hl =>
    rw [hl]
    exact finishHeader_client { rq with REQUEST_HEADER := s'.xheader } e hio.answers

/-- Lines that are all of a segment, before the next one. -/
theorem decode_request_header_waits (sys : Sys) (cnf : Config) {s' : HeaderScan} {seg : Bytes} {segs : List Bytes} (hls : ∀ l ∈ ls, Piece l)
    (hs : Segmented rq.client.last_io (ls.flatten :: seg :: segs) rq.client.input)
    (hw : scanLines ⟨rq.REQUEST_HEADER, none, none, 0⟩ ls = .ok (.wait, s')) :
    ∃ c t, c.answers = rq.client.answers ∧ Segmented c.last_io (seg :: segs) c.input ∧
      t.handle = some .decode_request_header ∧
      decode_request_header sys cnf rq =
        cnf.port rq.SERVER_PORT >>= fun _ => .ok (t, { rq with client := c, REQUEST_HEADER := s'.xheader }) := by
  obtain ⟨t', evs', ha, hnext⟩ := hs.arrives
  rw [← List.append_nil ls.flatten] at ha
  have ha : Arrives (rq.set_state .HEADER_DECODE).client.last_io (ls.flatten ++ []) (rq.set_state .HEADER_DECODE).client.input t' evs' := ha
  have hscan := ha.scanLines ⟨rq.REQUEST_HEADER, none, none, 0⟩ hls
  rw [hw] at hscan
  cases hscan with
  | ended _ _ hne => exact absurd rfl hne
  | @more c' s' hio hloop harr =>
    obtain ⟨rfl, rfl⟩ := harr.of_nil
    obtain ⟨evs, hr, hsegs⟩ := hnext.read_nil BUF_SIZE (by decide)
    refine ⟨{ c' with input := evs }, (antd_create_task (some .decode_request_header) none c'.last_io).bindIo c'.sock true false,
      hio.answers, hsegs, rfl, ?_⟩
    rw [decode_request_header_eq, hloop, headerLoop_wait hr]
    rfl

/-- The count of the bytes read before only matters to a long header. -/
theorem scanLines_from {x : Option (Dictionary Bytes)} {k : Nat} (h : k = 0 ∨ k + (fieldLines ls).flatten.length ≤ HEADER_MAX_SIZE) :
    scanLines ⟨x, none, none, k⟩ ls = (scanLines ⟨x, none, none, 0⟩ ls).map fun p => (p.1, p.2.shift k) := by
  rcases h with rfl | h
  · have hid : (fun p : HeaderEnd × HeaderScan => (p.1, p.2.shift 0)) = id := by
      funext p
      simp [HeaderScan.shift]
    rw [hid]
    cases scanLines ⟨x, none, none, 0⟩ ls <;> rfl
  · have hs : k + (HeaderScan.mk x none none 0).header_size + (fieldLines ls).flatten.length ≤ HEADER_MAX_SIZE := h
    exact scanLines_shift hs

theorem finishHeader_shift (pcnf : Option PortConfig) (s : HeaderScan) (k : Nat) (e : HeaderEnd) :
    finishHeader sys cnf rq pcnf (s.shift k) e = finishHeader sys cnf rq pcnf s e := by
  cases e with
  | tooLarge | wait | complete => rfl

theorem decoded_from {k : Nat} (h : k = 0 ∨ k + (fieldLines ls).flatten.length ≤ HEADER_MAX_SIZE) :
    decoded sys cnf rq k ls = decoded sys cnf rq 0 ls := by
  refine bind_congr fun pcnf => ?_
  rw [scanLines_from h]
  cases scanLines ⟨rq.REQUEST_HEADER, none, none, 0⟩ ls with
  | error e => rfl
  | ok p => exact finishHeader_shift ..

/-- The header ends with these lines: by the empty line, or because they are too long. -/
def HeaderEnds (ls : List Bytes) : Prop := (∃ l ∈ ls, cstr l = [13, 10]) ∨ HEADER_MAX_SIZE < ls.flatten.length

theorem HeaderEnds.not_wait (h : HeaderEnds ls) (s s' : HeaderScan) : scanLines s ls ≠ .ok (.wait, s') := by
  intro hw
  obtain ⟨hls, hlen, hmax⟩ := scanLines_wait hw
  rcases h with ⟨l, hl, he⟩ | hlong
  · exact hls l hl he
  · rcases hmax with rfl | hmax
    · simp at hlong
    · omega

theorem HeaderEnds.append (h : HeaderEnds ls) (ls₀ : List Bytes) : HeaderEnds (ls₀ ++ ls) := by
  rcases h with ⟨l, hl, he⟩ | hlong
  · exact .inl ⟨l, List.mem_append_right _ hl, he⟩
  · refine .inr ?_
    rw [List.flatten_append, List.length_append]
    omega

/-- Lines that the header ends within decide, whatever follows. -/
theorem decoded_append {k : Nat} {ls' : List Bytes} (he : ∀ s', scanLines ⟨rq.REQUEST_HEADER, none, none, k⟩ ls ≠ .ok (.wait, s')) :
    decoded sys cnf rq k (ls ++ ls') = decoded sys cnf rq k ls := by
  refine bind_congr fun pcnf => ?_
  rw [scanLines_append]
  cases hs : scanLines ⟨rq.REQUEST_HEADER, none, none, k⟩ ls with
  | error e => rfl
  | ok p =>
    have hne : p.1 ≠ .wait := fun h => he p.2 (by rw [hs, ← h])
    change ((if p.1 = .wait then scanLines p.2 ls' else .ok p) >>= _) = _
    rw [if_neg hne]

/-- After whole plain lines the decoder waits, and goes on with the count of their bytes. -/
theorem decodeHeader_again {g : List Bytes} {seg : Bytes} {segs : List Bytes} {s' : HeaderScan} {k : Nat}
    (hg : ∀ l ∈ g, Piece l) (hp : ∀ l ∈ g, PlainLine l) (hk : k = 0 ∨ k + (fieldLines g).flatten.length ≤ HEADER_MAX_SIZE)
    (hs : Segmented rq.client.last_io (g.flatten :: seg :: segs) rq.client.input)
    (hw : scanLines ⟨rq.REQUEST_HEADER, none, none, 0⟩ g = .ok (.wait, s')) :
    ∃ rq₁ : Request, Segmented rq₁.client.last_io (seg :: segs) rq₁.client.input ∧
      ∀ n ls', SameOutcome (decodeHeader sys cnf n rq₁) (decoded sys cnf rq₁ (k + g.flatten.length) ls') →
        SameOutcome (decodeHeader sys cnf (n + 1) rq) (decoded sys cnf rq k (g ++ ls')) := by
  obtain ⟨c, t, ha, hs', ht, hrun⟩ := decode_request_header_waits sys cnf hg hs hw
  obtain ⟨-, hsize, -⟩ := scanLines_wait hw
  obtain ⟨hcookie, hhost⟩ := scanLines_plain hp hw
  refine ⟨{ rq with client := c, REQUEST_HEADER := s'.xheader }, hs', fun n ls' hrest => ?_⟩
  -- nothing of the scan is left but the dictionary and the count
  have hshift : s'.shift k = ⟨s'.xheader, none, none, k + g.flatten.length⟩ := by
    rw [HeaderScan.shift, hcookie, hhost, hsize]
    simp
  cases hport : cnf.port rq.SERVER_PORT with
  | error e =>
    rw [decodeHeader, hrun, decoded, hport]
    rfl
  | ok pcnf =>
    have hagain : decodeHeader sys cnf (n + 1) rq = decodeHeader sys cnf n { rq with client := c, REQUEST_HEADER := s'.xheader } := by
      rw [decodeHeader, hrun, hport]
      exact if_pos ht
    have hjoin : decoded sys cnf rq k (g ++ ls') = cnf.port rq.SERVER_PORT >>= fun pcnf =>
        scanLines ⟨s'.xheader, none, none, k + g.flatten.length⟩ ls' >>= fun p =>
          finishHeader sys cnf { rq with REQUEST_HEADER := p.2.xheader } pcnf p.2 p.1 := by
      refine bind_congr fun pcnf => ?_
      rw [scanLines_append, scanLines_from hk, hw, ← hshift]
      rfl
    rw [hagain, hjoin]
    exact hrest.trans (SameOutcome.bind _ fun pcnf => .bind _ fun p => finishHeader_client { rq with REQUEST_HEADER := p.2.xheader } p.1 ha)

/-- Lines after which the decoder does not wait decide. -/
theorem decodeHeader_decides {g ls' : List Bytes} {more : Bytes} {t' : Int} {evs' : List RecvEv} {k n : Nat} (hg : ∀ l ∈ g, Piece l)
    (hk : k = 0 ∨ k + (fieldLines g).flatten.length ≤ HEADER_MAX_SIZE)
    (ha : Arrives rq.client.last_io (g.flatten ++ more) rq.client.input t' evs')
    (hw : ∀ s', scanLines ⟨rq.REQUEST_HEADER, none, none, 0⟩ g ≠ .ok (.wait, s')) :
    SameOutcome (decodeHeader sys cnf n rq) (decoded sys cnf rq k (g ++ ls')) := by
  have hwk : ∀ s', scanLines ⟨rq.REQUEST_HEADER, none, none, k⟩ g ≠ .ok (.wait, s') := by
    intro s' h
    obtain ⟨⟨e, s₁⟩, h₁, he₁⟩ := Res.map_ok.1 ((scanLines_from hk).symm.trans h)
    cases he₁
    exact hw s₁ h₁
  have hsame : SameOutcome (decode_request_header sys cnf rq) _ := decode_request_header_ended hg ha hw
  rw [decodeHeader_ended (sameOutcome_next hsame (decoded_next hw)), decoded_append hwk, decoded_from hk]
  exact hsame

/-- Segments of whole plain lines, and one in which the header ends. -/
theorem decodeHeader_lines {groups : List (List Bytes)} {lines : List Bytes} {more : Bytes} {segs : List Bytes} {k n : Nat}
    (hs : Segmented rq.client.last_io (groups.map List.flatten ++ (lines.flatten ++ more) :: segs) rq.client.input)
    (hg : ∀ l ∈ groups.flatten, Piece l) (hl : ∀ l ∈ lines, Piece l) (hp : ∀ l ∈ groups.flatten, PlainLine l)
    (hk : (k = 0 ∧ groups.flatten = []) ∨ k + (fieldLines (groups.flatten ++ lines)).flatten.length ≤ HEADER_MAX_SIZE)
    (he : HeaderEnds lines) (hn : groups.length ≤ n) :
    SameOutcome (decodeHeader sys cnf n rq) (decoded sys cnf rq k (groups.flatten ++ lines)) := by
  induction groups generalizing rq k n with
  | nil =>
    obtain ⟨t', evs', ha, -⟩ := hs.arrives
    have hlast : SameOutcome (decodeHeader sys cnf n rq) (decoded sys cnf rq k (lines ++ [])) :=
      decodeHeader_decides hl (hk.imp And.left id) ha (he.not_wait _)
    rwa [List.append_nil] at hlast
  | cons g groups ih =>
    obtain ⟨n, rfl⟩ : ∃ n', n = n' + 1 := ⟨n - 1, by rw [List.length_cons] at hn; omega⟩
    rw [List.flatten_cons] at hg hp hk ⊢
    rw [List.map_cons, List.cons_append] at hs
    have hgp := fun l hl => hg l (List.mem_append_left _ hl)
    have hgk : k = 0 ∨ k + (fieldLines g).flatten.length ≤ HEADER_MAX_SIZE := by
      refine hk.imp And.left fun hk => ?_
      rw [List.append_assoc] at hk
      obtain ⟨ls, hls⟩ := fieldLines_isPrefix g (groups.flatten ++ lines)
      rw [← hls, List.flatten_append, List.length_append] at hk
      omega
    rw [List.append_assoc]
    by_cases hw : ∃ s', scanLines ⟨rq.REQUEST_HEADER, none, none, 0⟩ g = .ok (.wait, s')
    · obtain ⟨s', hw⟩ := hw
      obtain ⟨seg, segs', hsegs⟩ : ∃ seg segs', groups.map List.flatten ++ (lines.flatten ++ more) :: segs = seg :: segs' :=
        List.exists_cons_of_ne_nil (by simp)
      rw [hsegs] at hs
      obtain ⟨rq₁, hs₁, hrest⟩ := decodeHeader_again hgp (fun l hl => hp l (List.mem_append_left _ hl)) hgk hs hw
      -- the rest still fits, with the bytes of this group counted
      have hk' : (k + g.flatten.length = 0 ∧ groups.flatten = []) ∨
          k + g.flatten.length + (fieldLines (groups.flatten ++ lines)).flatten.length ≤ HEADER_MAX_SIZE := by
        rcases hk with ⟨h0, hnil⟩ | hk
        · obtain ⟨rfl, hnil⟩ := List.append_eq_nil_iff.1 hnil
          exact .inl ⟨h0, hnil⟩
        · refine .inr ?_
          rw [List.append_assoc, fieldLines_append (scanLines_wait hw).1, List.flatten_append, List.length_append] at hk
          omega
      exact hrest n _ (ih (hsegs ▸ hs₁) (fun l hl => hg l (List.mem_append_right _ hl))
        (fun l hl => hp l (List.mem_append_right _ hl)) hk' (Nat.le_of_succ_le_succ hn))
    · obtain ⟨t', evs', ha, -⟩ := hs.arrives
      rw [← List.append_nil g.flatten] at ha
      exact decodeHeader_decides hgp hgk ha fun s' h => hw ⟨s', h⟩

end

/-! ## Segments that count as one -/

/-- Before the segment in which the header ends come whole lines only. If there are any, none of them sets the
cookies or the host, and the header is short enough. -/
structure GentleAt (segs : List Bytes) (groups : List (List Bytes)) (lines : List Bytes) : Prop where
  cut : ∃ more rest, segs = groups.map List.flatten ++ (lines.flatten ++ more) :: rest
  whole : ∀ l ∈ groups.flatten ++ lines, Piece l
  plain : ∀ l ∈ groups.flatten, PlainLine l
  short : groups.flatten = [] ∨ (fieldLines (groups.flatten ++ lines)).flatten.length ≤ HEADER_MAX_SIZE
  ends : HeaderEnds lines

def Gentle (segs : List Bytes) : Prop := ∃ groups lines, GentleAt segs groups lines

/-- Lines that end in CRLF, and an empty one. -/
def HeaderBlock (bs : Bytes) : Prop :=
  ∃ lines : List Bytes, (∀ l ∈ lines, l ≠ [] ∧ 10 ∉ l) ∧ bs = (lines.map (· ++ [13, 10])).flatten ++ [13, 10]

/-- A header in one segment. -/
theorem HeaderBlock.gentle {bs : Bytes} (h : HeaderBlock bs) : Gentle [bs] := by
  obtain ⟨lines, -, rfl⟩ := h
  have hclosed : Closed (lines.map (· ++ [13, 10])).flatten := by
    induction lines using List.reverseRecOn with
    | nil => exact closed_nil
    | append_singleton lines l =>
      have hl : ((lines ++ [l]).map (· ++ [13, 10])).flatten = (lines.map (· ++ [13, 10])).flatten ++ l ++ [13] ++ [10] := by simp
      rw [hl]
      exact closed_line _
  obtain ⟨ls, hls, hflat⟩ := hclosed.pieces
  refine ⟨[], ls ++ [[13, 10]], ⟨[], [], by simp [hflat]⟩, ?_, nofun, .inl rfl, .inl ⟨[13, 10], by simp, rfl⟩⟩
  refine List.forall_mem_append.2 ⟨nofun, List.forall_mem_append.2 ⟨hls, fun l hl => ?_⟩⟩
  rw [List.mem_singleton.1 hl]
  exact .line (a := [13]) (by decide) (by decide)

/-- The request with all the bytes there at once. -/
def Request.atOnce (rq : Request) (bs : Bytes) : Request := { rq with client.input := AntHttp.atOnce bs }

/-- The runs of the decoder end, and as the one run does for which everything is there at once. -/
def DecodedAsOne (sys : Sys) (cnf : Config) (rq : Request) (segs : List Bytes) : Prop :=
  ∀ n, segs.length ≤ n → SameOutcome (decodeHeader sys cnf n rq) (decode_request_header sys cnf (rq.atOnce segs.flatten)) ∧
    ∀ t rq', decodeHeader sys cnf n rq = .ok (t, rq') → t.handle ≠ some .decode_request_header

theorem decodedAsOne_of_gentle {sys : Sys} {cnf : Config} {rq : Request} {segs : List Bytes}
    (hs : Segmented rq.client.last_io segs rq.client.input) (hg : Gentle segs) : DecodedAsOne sys cnf rq segs := by
  obtain ⟨groups, lines, hg⟩ := hg
  obtain ⟨more, rest, rfl⟩ := hg.cut
  intro n hn
  have hlen : groups.length ≤ n := by
    simp only [List.length_append, List.length_map] at hn
    omega
  have hends := (hg.ends.append groups.flatten).not_wait ⟨rq.REQUEST_HEADER, none, none, 0⟩
  have hshort : ((0 : Nat) = 0 ∧ groups.flatten = []) ∨ 0 + (fieldLines (groups.flatten ++ lines)).flatten.length ≤ HEADER_MAX_SIZE :=
    hg.short.imp (⟨rfl, ·⟩) fun h => by omega
  have hruns : SameOutcome (decodeHeader sys cnf n rq) _ :=
    decodeHeader_lines hs (fun l hl => hg.whole l (List.mem_append_left _ hl)) (fun l hl => hg.whole l (List.mem_append_right _ hl))
      hg.plain hshort hg.ends hlen
  -- all of it at once: the same lines, and the rest of the stream after them
  have hstream : (groups.map List.flatten ++ (lines.flatten ++ more) :: rest).flatten =
      (groups.flatten ++ lines).flatten ++ (more ++ rest.flatten) := by
    simp [List.flatten_flatten]
  obtain ⟨t, ha⟩ := arrives_bytes rq.client.last_io 0 ((groups.flatten ++ lines).flatten ++ (more ++ rest.flatten)) []
  rw [List.append_nil] at ha
  have hone : SameOutcome (decode_request_header sys cnf (rq.atOnce (groups.map List.flatten ++ (lines.flatten ++ more) :: rest).flatten))
      (decoded sys cnf (rq.atOnce (groups.map List.flatten ++ (lines.flatten ++ more) :: rest).flatten) 0 (groups.flatten ++ lines)) := by
    rw [hstream]
    exact decode_request_header_ended hg.whole ha hends
  have hclient : SameOutcome (decoded sys cnf (rq.atOnce (groups.map List.flatten ++ (lines.flatten ++ more) :: rest).flatten) 0
      (groups.flatten ++ lines)) (decoded sys cnf rq 0 (groups.flatten ++ lines)) :=
    .bind _ fun pcnf => .bind _ fun p => finishHeader_client { rq with REQUEST_HEADER := p.2.xheader } p.1 rfl
  exact ⟨hruns.trans (hone.trans hclient).symm, sameOutcome_next hruns (decoded_next hends)⟩

/-! ## Two headers with a pause -/

/-- A request on the sample port, which reads the script next. -/
def sampleHeader (evs : List RecvEv) : Request :=
  { (antd_monitor (samplePort none []) 4 0 evs []).rq with REQUEST_QUERY := some (str "/") }

/-- Two segments, with a pause of ten seconds between them. -/
def pausedScript (a b : Bytes) : List RecvEv := atOnce a ++ .again 10 :: atOnce b

theorem segmented_atOnce (t : Int) (bs : Bytes) : Segmented t [bs] (atOnce bs) := by
  induction bs generalizing t with
  | nil => exact .done
  | cons b bs ih => exact .byte (ih 0)

theorem segmented_pausedScript (a b : Bytes) : Segmented 0 [a, b] (pausedScript a b) := by
  induction a with
  | nil => exact .long (by decide) (segmented_atOnce 0 b)
  | cons c a ih => exact .byte ih

theorem sampleHeader_segmented (a b : Bytes) :
    Segmented (sampleHeader (pausedScript a b)).client.last_io [a, b] (sampleHeader (pausedScript a b)).client.input :=
  segmented_pausedScript a b

/-- The cookies and the host come after the pause. -/
theorem decodedAsOne_of_gentle_accept : DecodedAsOne (sampleSys []) (sampleConfig none [])
    (sampleHeader (pausedScript (str "Accept: a\r\n") (str "Host: h\r\nCookie: a=b\r\n\r\n")))
    [str "Accept: a\r\n", str "Host: h\r\nCookie: a=b\r\n\r\n"] := by
  refine decodedAsOne_of_gentle (sampleHeader_segmented ..)
    ⟨[[str "Accept: a\r\n"]], [str "Host: h\r\n", str "Cookie: a=b\r\n", [13, 10]], ?_⟩
  have haccept : Piece (str "Accept: a\r\n") := .line (a := str "Accept: a\r") (by decide) (by decide)
  have hhost : Piece (str "Host: h\r\n") := .line (a := str "Host: h\r") (by decide) (by decide)
  have hcookie : Piece (str "Cookie: a=b\r\n") := .line (a := str "Cookie: a=b\r") (by decide) (by decide)
  have hempty : Piece [13, 10] := .line (a := [13]) (by decide) (by decide)
  refine ⟨⟨[], [], by decide⟩, ?_, by decide, .inr (by decide), .inl ⟨[13, 10], by decide, by decide⟩⟩
  simp [haccept, hhost, hcookie, hempty]

/-- The cookies that came before a pause are lost. -/
theorem cookies_lost : ¬ ∀ (sys : Sys) (cnf : Config) (rq : Request) (segs : List Bytes),
    HeaderBlock segs.flatten → Segmented rq.client.last_io segs rq.client.input → DecodedAsOne sys cnf rq segs := by
  intro h
  have hblock : HeaderBlock [str "Cookie: a=b\r\n", str "\r\n"].flatten := ⟨[str "Cookie: a=b"], by decide, by decide⟩
  have hd := (h (sampleSys []) (sampleConfig none []) _ _ hblock (sampleHeader_segmented ..) 2 (by decide)).1
  have hcookie : ((decodeHeader (sampleSys []) (sampleConfig none []) 2 (sampleHeader (pausedScript (str "Cookie: a=b\r\n") (str "\r\n")))).map
      headerOutcome).toOption.any (·.cookie.isSome) = false := by decide +kernel
  rw [hd] at hcookie
  revert hcookie
  decide +kernel

end AntHttp
