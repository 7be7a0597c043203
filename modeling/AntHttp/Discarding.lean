import AntHttp.Arrivals
import AntHttp.Ports
/-!
# The body of a request for a file (`server.c`)

Before a file is served the body of the request is read and thrown away. Each
call asks for as much as the first one, so what counts is where in the stream
the calls begin: what a call gets is cut where a read gives up.
-/

set_option linter.style.nameCheck false

namespace AntHttp

open CString

/-! ## Stretches of the stream -/

/-- The numbers of bytes between the places where a read gives up; `t` is the time of the last byte before. A script
that has run out gives no more. -/
inductive Stretches : Int → List Nat → List RecvEv → Prop
  | done {t ls} : (∀ l ∈ ls, l = 0) → Stretches t ls []
  | byte {t l ls b last now evs} : Stretches now (l :: ls) evs → Stretches t ((l + 1) :: ls) (.byte b last now :: evs)
  | again {t ls now evs} : now - t ≤ MAX_IO_WAIT_TIME → Stretches t ls evs → Stretches t ls (.again now :: evs)
  | closed {t ls now evs} : now - t ≤ MAX_IO_WAIT_TIME → Stretches t ls evs → Stretches t ls (.closed true now :: evs)
  | late {t ls now evs} : now - t > MAX_IO_WAIT_TIME → Stretches t ls evs → Stretches t (0 :: ls) (.again now :: evs)
  | ended {t ls stale now evs} : now - t > MAX_IO_WAIT_TIME ∨ stale = false → Stretches t ls evs →
    Stretches t (0 :: ls) (.closed stale now :: evs)
  | failed {t ls now evs} : Stretches t ls evs → Stretches t (0 :: ls) (.error now :: evs)

/-- Every script is made of stretches. -/
theorem exists_stretches (t : Int) (evs : List RecvEv) : ∃ l ls, Stretches t (l :: ls) evs := by
  induction evs generalizing t with
  | nil => exact ⟨0, [], .done (by simp)⟩
  | cons e evs ih =>
    cases e with
    | byte b last now =>
      obtain ⟨l, ls, h⟩ := ih now
      exact ⟨l + 1, ls, .byte h⟩
    | again now =>
      obtain ⟨l, ls, h⟩ := ih t
      by_cases hlate : now - t > MAX_IO_WAIT_TIME
      · exact ⟨0, _, .late hlate h⟩
      · exact ⟨l, ls, .again (by omega) h⟩
    | closed stale now =>
      obtain ⟨l, ls, h⟩ := ih t
      by_cases hlate : now - t > MAX_IO_WAIT_TIME ∨ stale = false
      · exact ⟨0, _, .ended hlate h⟩
      · obtain ⟨hnow, hstale⟩ := not_or.1 hlate
        rw [Bool.not_eq_false] at hstale
        subst hstale
        exact ⟨l, ls, .closed (by omega) h⟩
    | error now =>
      obtain ⟨l, ls, h⟩ := ih t
      exact ⟨0, _, .failed h⟩

section Calls

variable {t : Int} {l n : Nat} {ls : List Nat} {evs : List RecvEv}

/-- A call gets what it asks for, if the stretch has it. -/
theorem Stretches.recv_all (h : Stretches t (l :: ls) evs) (hn : n ≤ l) :
    (recvLoop t n evs).data.length = n ∧
      Stretches (recvLoop t n evs).last_io ((l - n) :: ls) (recvLoop t n evs).input := by
  cases n with
  | zero =>
    rw [recvLoop]
    exact ⟨rfl, h⟩
  | succ n =>
    generalize hlens : l :: ls = lens at h
    induction h generalizing l ls n with
    | done h0 =>
      subst hlens
      have hl := h0 l List.mem_cons_self
      omega
    | @byte t l' ls' b last now evs h ih =>
      cases hlens
      rw [recvLoop, Nat.add_sub_add_right]
      cases n with
      | zero =>
        rw [recvLoop]
        exact ⟨rfl, h⟩
      | succ n =>
        obtain ⟨hlen, hrest⟩ := ih n (Nat.le_of_succ_le_succ hn) rfl
        exact ⟨congrArg (· + 1) hlen, hrest⟩
    | again hnow h ih =>
      rw [recvLoop, if_neg (by omega)]
      exact ih n hn hlens
    | closed hnow h ih =>
      rw [recvLoop, if_neg (by simp; omega)]
      exact ih n hn hlens
    | late | ended | failed =>
      cases hlens
      omega

/-- A call that asks for more gets the rest of the stretch. -/
theorem Stretches.recv_rest (h : Stretches t (l :: ls) evs) (hn : l < n) :
    (recvLoop t n evs).data.length = l ∧ Stretches (recvLoop t n evs).last_io ls (recvLoop t n evs).input := by
  obtain ⟨n, rfl⟩ : ∃ m, n = m + 1 := Nat.exists_eq_succ_of_ne_zero (by omega)
  generalize hlens : l :: ls = lens at h
  induction h generalizing l ls n with
  | done h0 =>
    subst hlens
    rw [recvLoop]
    exact ⟨(h0 l List.mem_cons_self).symm, .done fun k hk => h0 k (List.mem_cons_of_mem _ hk)⟩
  | @byte t l' ls' b last now evs h ih =>
    cases hlens
    obtain ⟨n, rfl⟩ : ∃ m, n = m + 1 := Nat.exists_eq_succ_of_ne_zero (by omega)
    obtain ⟨hlen, hrest⟩ := ih n (by omega) rfl
    rw [recvLoop]
    exact ⟨congrArg (· + 1) hlen, hrest⟩
  | again hnow h ih =>
    rw [recvLoop, if_neg (by omega)]
    exact ih n hn hlens
  | closed hnow h ih =>
    rw [recvLoop, if_neg (by simp; omega)]
    exact ih n hn hlens
  | late hlate h =>
    cases hlens
    rw [recvLoop, if_pos hlate]
    exact ⟨rfl, h⟩
  | ended hlate h =>
    cases hlens
    rw [recvLoop, if_pos hlate]
    exact ⟨rfl, h⟩
  | failed h =>
    cases hlens
    rw [recvLoop]
    exact ⟨rfl, h⟩

theorem Stretches.recv_nil (h : Stretches t [] evs) : (recvLoop t n evs).data = [] := by
  cases n with
  | zero => rw [recvLoop]
  | succ n =>
    generalize hlens : ([] : List Nat) = lens at h
    induction h with
    | done => rw [recvLoop]
    | byte => cases hlens
    | again hnow h ih =>
      rw [recvLoop, if_neg (by omega)]
      exact ih hlens
    | closed hnow h ih =>
      rw [recvLoop, if_neg (by simp; omega)]
      exact ih hlens
    | late | ended | failed => cases hlens

end Calls

/-! ## The loop -/

/-- The calls of `discardBody`: the bytes asked for and those that came. -/
def discardCalls (client : Client) (clen read : UInt32) : List (Nat × Nat) :=
  if read < clen then
    match _h : antd_recv client (min BUF_SIZE clen.toNat) with
    | (_, [], _) => [(min BUF_SIZE clen.toNat, 0)]
    | (_, c :: data, client') =>
      (min BUF_SIZE clen.toNat, (c :: data).length) :: discardCalls client' clen (read + (c :: data).length.toUInt32)
  else []
termination_by client.input.length
decreasing_by
  have hle := antd_recv_le client (min BUF_SIZE clen.toNat)
  simp only [_h, List.length_cons] at hle
  omega

/-- No call asks for more than is left of `remain` bytes. -/
def AsksWithin : Nat → List (Nat × Nat) → Prop
  | _, [] => True
  | remain, (asked, got) :: calls => asked ≤ remain ∧ AsksWithin (remain - got) calls

/-- `clen` for a `Content-Length` of `n`. -/
def announced (n : Nat) : UInt32 := UInt32.ofInt (atoi (decimal n))

/-- The loop takes the `n` bytes of the body, or fewer if a call brings nothing, and never asks for more. -/
structure Discards (c : Client) (n : Nat) : Prop where
  within : AsksWithin n (discardCalls c (announced n) 0)
  taken : ∃ body, bytesOf c.input = body ++ bytesOf (discardBody c (announced n) 0).input ∧
    (body.length = n ∨ (body.length < n ∧ ∃ asked, (asked, 0) ∈ discardCalls c (announced n) 0))

/-- Where in the stream calls for `b` bytes each begin. -/
inductive Boundary (b : Nat) : List Nat → Nat → Prop
  | start {ls} : Boundary b ls 0
  | block {l ls p} : b ≤ l → Boundary b ((l - b) :: ls) p → Boundary b (l :: ls) (b + p)
  | rest {l ls p} : 0 < l → l < b → Boundary b ls p → Boundary b (l :: ls) (l + p)

section Loop

variable {b n p : Nat} {lens : List Nat} {c : Client} {clen read : UInt32}

theorem boundary_nil_iff {q : Nat} : Boundary b [] q ↔ q = 0 := by
  constructor
  · intro h
    cases h
    rfl
  · rintro rfl
    exact .start

theorem boundary_cons_iff {l q : Nat} {ls : List Nat} : Boundary b (l :: ls) q ↔
    q = 0 ∨ (b ≤ l ∧ ∃ p, q = b + p ∧ Boundary b ((l - b) :: ls) p) ∨
      (0 < l ∧ l < b ∧ ∃ p, q = l + p ∧ Boundary b ls p) := by
  constructor
  · intro h
    cases h with
    | start => exact .inl rfl
    | block hl h => exact .inr (.inl ⟨hl, _, rfl, h⟩)
    | rest h0 hl h => exact .inr (.inr ⟨h0, hl, _, rfl, h⟩)
  · rintro (rfl | ⟨hl, p, rfl, h⟩ | ⟨h0, hl, p, rfl, h⟩)
    · exact .start
    · exact .block hl h
    · exact .rest h0 hl h

/-- A call brings nothing, and no other begins; or it moves on to where the next begins. -/
theorem Stretches.call (h : Stretches c.last_io lens c.input) (hb : 0 < b) :
    ((antd_recv c b).2.1 = [] ∧ ∀ q, Boundary b lens q ↔ q = 0) ∨
    ∃ k lens', 0 < k ∧ k ≤ b ∧ (antd_recv c b).2.1.length = k ∧
      Stretches (antd_recv c b).2.2.last_io lens' (antd_recv c b).2.2.input ∧
      ∀ q, Boundary b lens q ↔ q = 0 ∨ ∃ q', q = k + q' ∧ Boundary b lens' q' := by
  cases lens with
  | nil => exact .inl ⟨h.recv_nil, fun q => boundary_nil_iff⟩
  | cons l ls =>
    rcases Nat.lt_or_ge l b with hlt | hle
    · obtain ⟨hlen, hrest⟩ := h.recv_rest hlt
      rcases Nat.eq_zero_or_pos l with rfl | hl
      · refine .inl ⟨List.length_eq_zero_iff.1 hlen, fun q => ?_⟩
        rw [boundary_cons_iff]
        constructor
        · rintro (h0 | ⟨hl, -⟩ | ⟨hl, -⟩)
          · exact h0
          · omega
          · omega
        · exact .inl
      · refine .inr ⟨l, ls, hl, hlt.le, hlen, hrest, fun q => ?_⟩
        rw [boundary_cons_iff]
        refine or_congr_right ⟨?_, fun h => .inr ⟨hl, hlt, h⟩⟩
        rintro (⟨hle, -⟩ | ⟨-, -, h⟩)
        · omega
        · exact h
    · obtain ⟨hlen, hrest⟩ := h.recv_all hle
      refine .inr ⟨b, _, hb, le_rfl, hlen, hrest, fun q => ?_⟩
      rw [boundary_cons_iff]
      refine or_congr_right ⟨?_, fun h => .inl ⟨hle, h⟩⟩
      rintro (⟨-, h⟩ | ⟨-, hlt, -⟩)
      · exact h
      · omega

theorem discard_stop (h : ¬read < clen) : discardBody c clen read = c ∧ discardCalls c clen read = [] := by
  rw [discardBody, discardCalls, if_neg h, if_neg h]
  exact ⟨rfl, rfl⟩

theorem discard_nil (h : read < clen) (hd : (antd_recv c (min BUF_SIZE clen.toNat)).2.1 = []) :
    discardBody c clen read = (antd_recv c (min BUF_SIZE clen.toNat)).2.2 ∧
      discardCalls c clen read = [(min BUF_SIZE clen.toNat, 0)] := by
  rw [discardBody, discardCalls, if_pos h, if_pos h]
  constructor
  · split
    · rename_i he
      rw [he]
    · rename_i he
      rw [he] at hd
      cases hd
  · split
    · rfl
    · rename_i he
      rw [he] at hd
      cases hd

theorem discard_cons (h : read < clen) {k : Nat} (hk : 0 < k)
    (hd : (antd_recv c (min BUF_SIZE clen.toNat)).2.1.length = k) :
    discardBody c clen read =
        discardBody (antd_recv c (min BUF_SIZE clen.toNat)).2.2 clen (read + k.toUInt32) ∧
      discardCalls c clen read = (min BUF_SIZE clen.toNat, k) ::
        discardCalls (antd_recv c (min BUF_SIZE clen.toNat)).2.2 clen (read + k.toUInt32) := by
  rw [discardBody, discardCalls, if_pos h, if_pos h]
  constructor
  · split
    · rename_i he
      rw [he] at hd
      exact absurd hd hk.ne
    · rename_i he
      rw [he] at hd ⊢
      rw [← hd]
  · split
    · rename_i he
      rw [he] at hd
      exact absurd hd hk.ne
    · rename_i he
      rw [he] at hd ⊢
      rw [← hd]

/-- `resolve_request` runs the loop on the request for a file of a known type. -/
theorem serveResource_client {sys : Sys} {cnf : Config} {rq rq' : Request} {task t : Task} {path mime_type : Bytes}
    (h : serveResource sys cnf rq task path = .ok (t, rq')) (hmime : mime sys.regexec cnf.mimes path = .ok mime_type)
    (hknown : mime_type ≠ OCTET_STREAM)
    (hlen : rq.REQUEST_HEADER.bind (·.dvalue (str "Content-Length")) = some (decimal n)) :
    rq'.client = discardBody rq.client (announced n) 0 := by
  rw [serveResource, hmime, Res.ok_bind] at h
  dsimp only at h
  rw [if_neg hknown, hlen] at h
  cases h
  rfl

/-- What the calls bring is what the loop takes from the stream. -/
theorem discardBody_bytesOf (c : Client) (clen read : UInt32) :
    ∃ body, bytesOf c.input = body ++ bytesOf (discardBody c clen read).input ∧
      body.length = ((discardCalls c clen read).map (·.2)).sum := by
  induction hN : c.input.length using Nat.strong_induction_on generalizing c read with
  | _ N ih =>
    subst hN
    have hbytes := antd_recv_bytesOf c (min BUF_SIZE clen.toNat)
    by_cases hlt : read < clen
    · rcases Nat.eq_zero_or_pos (antd_recv c (min BUF_SIZE clen.toNat)).2.1.length with hk | hk
      · have hd := List.length_eq_zero_iff.1 hk
        obtain ⟨hbody, hcalls⟩ := discard_nil hlt hd
        rw [hd] at hbytes
        rw [hbody, hcalls]
        exact ⟨[], hbytes, rfl⟩
      · obtain ⟨hbody, hcalls⟩ := discard_cons hlt hk rfl
        have hle := antd_recv_le c (min BUF_SIZE clen.toNat)
        obtain ⟨body, hb, hlen⟩ := ih _ (by omega) (antd_recv c (min BUF_SIZE clen.toNat)).2.2 (read + _) rfl
        rw [hbody, hcalls, List.map_cons, List.sum_cons, ← hlen]
        exact ⟨_ ++ body, by rw [hbytes, hb, List.append_assoc], List.length_append⟩
    · obtain ⟨hbody, hcalls⟩ := discard_stop hlt (c := c)
      rw [hbody, hcalls]
      exact ⟨[], rfl, rfl⟩

/-- Calls that begin `p` bytes after the first do what is left to do. -/
def Finishes (n p : Nat) (calls : List (Nat × Nat)) : Prop :=
  AsksWithin (n - p) calls ∧
    (p + (calls.map (·.2)).sum = n ∨ (p + (calls.map (·.2)).sum < n ∧ ∃ asked, (asked, 0) ∈ calls))

theorem finishes_cons_iff {asked k : Nat} {calls : List (Nat × Nat)} (hk : 0 < k) :
    Finishes n p ((asked, k) :: calls) ↔ asked ≤ n - p ∧ Finishes n (p + k) calls := by
  have hmem : (∃ a, (a, 0) ∈ (asked, k) :: calls) ↔ ∃ a, (a, 0) ∈ calls := by
    simp [hk.ne]
  rw [Finishes, Finishes, AsksWithin, hmem, List.map_cons, List.sum_cons, Nat.sub_sub, ← Nat.add_assoc, and_assoc]

/-- The calls begin where they may: before the end of the body each has as much left as it asks for, and the counter,
which wraps, is below the limit; at the end it is not. -/
def Aligned (n p m b : Nat) (lens : List Nat) : Prop :=
  (∀ q, Boundary b lens q → p + q < n → (p + q) % 2 ^ 32 < m ∧ p + q + b ≤ n) ∧
    ∀ q, Boundary b lens q → p + q = n → m ≤ n % 2 ^ 32

theorem aligned_next {m k : Nat} {lens' : List Nat} (hlt : p % 2 ^ 32 < m) (hb : 0 < b) (hask : p + b ≤ n)
    (hbound : ∀ q, Boundary b lens q ↔ q = 0 ∨ ∃ q', q = k + q' ∧ Boundary b lens' q') :
    Aligned n p m b lens ↔ Aligned n (p + k) m b lens' := by
  constructor
  · rintro ⟨hbefore, hend⟩
    refine ⟨fun q hq hqn => ?_, fun q hq hqn => ?_⟩
    · rw [Nat.add_assoc] at hqn ⊢
      exact hbefore (k + q) ((hbound _).2 (.inr ⟨q, rfl, hq⟩)) hqn
    · rw [Nat.add_assoc] at hqn
      exact hend (k + q) ((hbound _).2 (.inr ⟨q, rfl, hq⟩)) hqn
  · rintro ⟨hbefore, hend⟩
    refine ⟨fun q hq hqn => ?_, fun q hq hqn => ?_⟩
    · rcases (hbound q).1 hq with rfl | ⟨q', rfl, hq'⟩
      · exact ⟨hlt, hask⟩
      · rw [← Nat.add_assoc] at hqn ⊢
        exact hbefore q' hq' hqn
    · rcases (hbound q).1 hq with rfl | ⟨q', rfl, hq'⟩
      · omega
      · rw [← Nat.add_assoc] at hqn
        exact hend q' hq' hqn

/-- The counter has reached the limit. -/
theorem finishes_nil_iff {m b : Nat} (hp : p ≤ n) (hm : ¬p % 2 ^ 32 < m) : Finishes n p [] ↔ Aligned n p m b lens := by
  constructor
  · rintro ⟨-, hn | ⟨-, asked, hmem⟩⟩
    · have hpn : p = n := hn
      subst hpn
      exact ⟨fun q _ hq => by omega, fun q _ _ => by omega⟩
    · cases hmem
  · intro hal
    refine ⟨trivial, .inl ?_⟩
    by_contra hne
    have hlt : p + 0 < n := lt_of_le_of_ne hp hne
    exact hm (hal.1 0 .start hlt).1

/-- A call that asks for more than is left does not begin where it may. -/
theorem not_aligned {m b : Nat} (hp : p ≤ n) (hm : p % 2 ^ 32 < m) (hask : ¬p + b ≤ n) : ¬Aligned n p m b lens := by
  intro hal
  rcases Nat.lt_or_ge p n with hpn | hpn
  · exact hask (hal.1 0 .start hpn).2
  · have hend := hal.2 0 .start (by omega)
    have hpn' : p = n := Nat.le_antisymm hp hpn
    subst hpn'
    omega

theorem discardCalls_cons (h : read < clen) :
    ∃ k calls, discardCalls c clen read = (min BUF_SIZE clen.toNat, k) :: calls := by
  rcases Nat.eq_zero_or_pos (antd_recv c (min BUF_SIZE clen.toNat)).2.1.length with hk | hk
  · exact ⟨_, _, (discard_nil h (List.length_eq_zero_iff.1 hk)).2⟩
  · exact ⟨_, _, (discard_cons h hk rfl).2⟩

/-- The calls from the `p`-th byte on finish exactly if they begin where they may. -/
theorem finishes_iff (h : Stretches c.last_io lens c.input) (hp : p ≤ n) :
    Finishes n p (discardCalls c clen (UInt32.ofNat p)) ↔ Aligned n p clen.toNat (min BUF_SIZE clen.toNat) lens := by
  induction hN : c.input.length using Nat.strong_induction_on generalizing c p lens with
  | _ N ih =>
    subst hN
    have hread : UInt32.ofNat p < clen ↔ p % 2 ^ 32 < clen.toNat := by
      rw [UInt32.lt_iff_toNat_lt, UInt32.toNat_ofNat']
    by_cases hlt : UInt32.ofNat p < clen
    · have hmod := hread.1 hlt
      have hpos : 0 < min BUF_SIZE clen.toNat := by
        rw [BUF_SIZE, BUFFLEN]
        omega
      by_cases hask : p + min BUF_SIZE clen.toNat ≤ n
      · rcases h.call hpos with ⟨hd, hbound⟩ | ⟨k, lens', hk, hkb, hd, hrest, hbound⟩
        · -- nothing comes, and the loop ends
          rw [(discard_nil hlt hd).2]
          refine iff_of_true ⟨⟨by omega, trivial⟩, .inr ⟨by simp; omega, _, List.mem_cons_self⟩⟩ ⟨?_, ?_⟩
          · intro q hq hqn
            rw [(hbound q).1 hq]
            exact ⟨hmod, hask⟩
          · intro q hq hqn
            rw [(hbound q).1 hq] at hqn
            omega
        · -- `k` bytes are thrown away
          have hnext : UInt32.ofNat p + k.toUInt32 = UInt32.ofNat (p + k) := (UInt32.ofNat_add p k).symm
          have hle := antd_recv_le c (min BUF_SIZE clen.toNat)
          have hrec := ih _ (by omega) hrest (p := p + k) (by omega) rfl
          rw [(discard_cons hlt hk hd).2, hnext, finishes_cons_iff hk, hrec, aligned_next hmod hpos hask hbound]
          exact and_iff_right (by omega)
      · refine iff_of_false (fun hfin => ?_) (not_aligned hp hmod hask)
        obtain ⟨k, calls, hcalls⟩ := discardCalls_cons (c := c) hlt
        rw [hcalls] at hfin
        have hasked := hfin.1.1
        omega
    · rw [(discard_stop hlt).2]
      exact finishes_nil_iff hp (mt hread.2 hlt)

end Loop

/-- The `unsigned` that `atoi` makes of the length. -/
theorem announced_toNat (n : Nat) : (announced n).toNat = min n (2 ^ 63 - 1) % 2 ^ 32 := by
  rw [announced, atoi_of_digits decimal_isdigit, digits_decimal, int32, UInt32.ofInt, UInt32.toNat_ofNat', Int.bmod_def]
  omega

theorem discards_aligned_iff {n : Nat} {c : Client} {lens : List Nat} (h : Stretches c.last_io lens c.input) :
    Discards c n ↔ Aligned n 0 (announced n).toNat (min BUF_SIZE (announced n).toNat) lens := by
  obtain ⟨body, hbody, hlen⟩ := discardBody_bytesOf c (announced n) 0
  rw [← finishes_iff h (Nat.zero_le n), Finishes, show UInt32.ofNat 0 = 0 from rfl, Nat.sub_zero, Nat.zero_add, ← hlen]
  constructor
  · rintro ⟨hwithin, body', hbody', htaken⟩
    rw [List.append_cancel_right (hbody.symm.trans hbody')]
    exact ⟨hwithin, htaken⟩
  · rintro ⟨hwithin, htaken⟩
    exact ⟨hwithin, body, hbody, htaken⟩

/-- The body is thrown away, and nothing after it, exactly if no call begins so late that less is left of the body than
it asks for. From 2^32 on the length wraps, and the counter must stay below what is left of it. -/
theorem discards_iff {n : Nat} {c : Client} {lens : List Nat} (h : Stretches c.last_io lens c.input) :
    (n < 2 ^ 32 →
      (Discards c n ↔ ∀ p, Boundary (min BUF_SIZE n) lens p → p < n → p + min BUF_SIZE n ≤ n)) ∧
    (2 ^ 32 ≤ n → (Discards c n ↔ Aligned n 0 (announced n).toNat (min BUF_SIZE (announced n).toNat) lens)) := by
  refine ⟨fun hn => ?_, fun _ => discards_aligned_iff h⟩
  have hm : (announced n).toNat = n := by
    rw [announced_toNat]
    omega
  rw [discards_aligned_iff h, hm, Aligned]
  simp only [Nat.zero_add]
  constructor
  · exact fun hal p hp hpn => (hal.1 p hp hpn).2
  · refine fun hfit => ⟨fun p hp hpn => ⟨?_, hfit p hp hpn⟩, fun _ _ _ => ?_⟩ <;> omega

/-- A client that has sent a body, and perhaps more, of `m` bytes together. -/
def bodyClient (m : Nat) : Client := ⟨4, false, .RESOLVE_REQUEST, 0, .CNONE, List.replicate m (.byte 65 false 0), [], [], []⟩

theorem stretches_replicate (t : Int) (m : Nat) : Stretches t [m] (List.replicate m (.byte 65 false t)) := by
  induction m with
  | zero => exact .done (by simp)
  | succ m ih => exact .byte ih

/-- A body of two blocks arrives with 904 bytes behind it. -/
theorem discards_blocks : Discards (bodyClient 5000) 4096 := by
  refine ((discards_iff (c := bodyClient 5000) (stretches_replicate 0 5000)).1 (by decide)).2 ?_
  intro p hp hlt
  rcases boundary_cons_iff.1 hp with rfl | ⟨-, q, rfl, hq⟩ | ⟨-, h, -⟩
  · decide
  · rcases boundary_cons_iff.1 hq with rfl | ⟨-, q', rfl, -⟩ | ⟨-, -, q', rfl, hq'⟩
    · decide
    · exact absurd hlt (by rw [BUF_SIZE, BUFFLEN]; omega)
    · exact absurd hlt (by rw [BUF_SIZE, BUFFLEN]; omega)
  · exact absurd h (by decide)

/-- The second call asks for 2048 bytes when 952 are left, and takes what is behind the body. -/
theorem takes_too_much : ¬Discards (bodyClient 4096) 3000 := by
  intro h
  have hcond := (discards_aligned_iff (c := bodyClient 4096) (stretches_replicate 0 4096)).1 h
  have hm : (announced 3000).toNat = 3000 := by
    rw [announced_toNat]
    rfl
  rw [hm] at hcond
  have hsecond : Boundary (min BUF_SIZE 3000) [4096] (2048 + 0) := .block (by decide) .start
  exact absurd (hcond.1 _ hsecond (by decide)).2 (by decide)

end AntHttp
