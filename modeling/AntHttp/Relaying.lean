import AntHttp.Arrivals
import AntHttp.Sample
import AntHttp.Steps
/-!
# What `proxy_monitor` relays

Each direction passes on what it receives, in order. The relay stops at once
when the backend hangs up: what is left of its answer after one more call is
lost.
-/

set_option linter.style.nameCheck false

namespace AntHttp

open CString

/-! ## What has been received, and what is to come -/

/-- The events in between, and their bytes. -/
structure Consumes (evs : List RecvEv) (data : Bytes) (evs' : List RecvEv) : Prop where
  split : ∃ pre, evs = pre ++ evs' ∧ bytesOf pre = data

/-- What has been received of a script when `evs'` is left of it. -/
def received (evs evs' : List RecvEv) : Bytes := bytesOf (evs.take (evs.length - evs'.length))

/-- What a peer sends until it closes the connection or the connection fails. -/
def sentBytes : List RecvEv → Bytes
  | .byte b _ _ :: evs => b :: sentBytes evs
  | .again _ :: evs => sentBytes evs
  | _ => []

section

variable {evs evs' evs'' : List RecvEv} {data data' : Bytes} {c : Client}

theorem bytesOf_append (evs evs' : List RecvEv) : bytesOf (evs ++ evs') = bytesOf evs ++ bytesOf evs' := by
  induction evs with
  | nil => rfl
  | cons ev evs ih => cases ev <;> simp [bytesOf, ih]

theorem Consumes.received (h : Consumes evs data evs') : received evs evs' = data := by
  obtain ⟨pre, rfl, hpre⟩ := h.split
  rw [AntHttp.received, List.length_append, Nat.add_sub_cancel, List.take_left, hpre]

theorem Consumes.refl (evs : List RecvEv) : Consumes evs [] evs := ⟨[], rfl, rfl⟩

theorem Consumes.trans (h : Consumes evs data evs') (h' : Consumes evs' data' evs'') : Consumes evs (data ++ data') evs'' := by
  obtain ⟨pre, rfl, hpre⟩ := h.split
  obtain ⟨pre', rfl, hpre'⟩ := h'.split
  exact ⟨pre ++ pre', (List.append_assoc ..).symm, by rw [bytesOf_append, hpre, hpre']⟩

/-- A single event that is not a byte. -/
theorem Consumes.silent {ev : RecvEv} (h : bytesOf [ev] = []) : Consumes (ev :: evs) [] evs := ⟨[ev], rfl, h⟩

theorem recvBytes_reads (t : Int) (n : Nat) (evs : List RecvEv) :
    Consumes evs (recvBytes t n evs).1 (recvBytes t n evs).2.2 ∧
      sentBytes evs = (recvBytes t n evs).1 ++ sentBytes (recvBytes t n evs).2.2 := by
  fun_induction recvBytes t n evs with
  | case1 t n b now evs => exact ⟨⟨[.byte b true now], rfl, rfl⟩, rfl⟩
  | case2 t n b last now evs hl r ih =>
    obtain ⟨hreads, hsent⟩ := ih
    refine ⟨?_, congrArg (b :: ·) hsent⟩
    have hbyte : Consumes (.byte b last now :: evs) [b] evs := ⟨[.byte b last now], rfl, rfl⟩
    exact hbyte.trans hreads
  | case3 => exact ⟨.refl _, rfl⟩

/-- A byte that is there is handed over. -/
theorem recvBytes_ne_nil (t : Int) (n : Nat) (b : UInt8) (last : Bool) (now : Int) (evs : List RecvEv) :
    (recvBytes t (n + 1) (.byte b last now :: evs)).1 ≠ [] := by
  unfold recvBytes
  split <;> simp

/-- One call takes from the front of the script. -/
theorem antd_recv_upto_reads (c : Client) (n : Nat) : Consumes c.input (antd_recv_upto c n).2.1 (antd_recv_upto c n).2.2.input := by
  unfold antd_recv_upto
  split
  · exact (recvBytes_reads ..).1
  all_goals rename_i hi
  · rw [hi]; exact .silent rfl
  · rw [hi]; exact .silent rfl
  · rw [hi]; exact .silent rfl
  · exact .refl _

/-- Unless the call fails, what it has not taken is still to come. -/
theorem antd_recv_upto_sent {n : Nat} (h : 0 ≤ (antd_recv_upto c n).1) :
    sentBytes c.input = (antd_recv_upto c n).2.1 ++ sentBytes (antd_recv_upto c n).2.2.input := by
  unfold antd_recv_upto at h ⊢
  split
  · exact (recvBytes_reads ..).2
  all_goals rename_i hi
  · rw [hi]; rfl
  all_goals simp [hi] at h

/-- A call that returns no length hands over nothing. -/
theorem antd_recv_upto_data {n : Nat} (h : (antd_recv_upto c n).1 ≤ 0) : (antd_recv_upto c n).2.1 = [] := by
  unfold antd_recv_upto at h ⊢
  split
  · rename_i hi
    simp only [hi] at h ⊢
    split at h
    · assumption
    · exact List.length_eq_zero_iff.1 (by omega)
  all_goals rfl

theorem antd_recv_upto_count {n : Nat} (h : 0 < (antd_recv_upto c n).1) :
    (antd_recv_upto c n).1 = (antd_recv_upto c n).2.1.length := by
  unfold antd_recv_upto at h ⊢
  split
  · rename_i hi
    simp only [hi] at h ⊢
    split at h
    · omega
    · rename_i hne
      rw [if_neg hne]
  all_goals rename_i hi; simp [hi] at h

/-- A call fails only when nothing is to come. -/
theorem antd_recv_upto_failed (h : (antd_recv_upto c BUFFLEN).1 < 0) : sentBytes c.input = [] := by
  unfold antd_recv_upto at h
  split at h
  · rename_i b last now evs hi
    have hne : (recvBytes c.last_io BUFFLEN (.byte b last now :: evs)).1 ≠ [] :=
      recvBytes_ne_nil c.last_io 1023 b last now evs
    simp only [hi, if_neg hne] at h
    omega
  · cases h
  all_goals rename_i hi; rw [hi]; rfl

theorem antd_recv_upto_wire (c : Client) (n : Nat) : (antd_recv_upto c n).2.2.wire = c.wire := by
  unfold antd_recv_upto
  split <;> rfl

/-- The time of the last byte does not matter. -/
theorem antd_recv_upto_congr {c' : Client} (h : c'.input = c.input) (n : Nat) :
    (antd_recv_upto c' n).1 = (antd_recv_upto c n).1 ∧ (antd_recv_upto c' n).2.1 = (antd_recv_upto c n).2.1 := by
  have hbytes (t t' : Int) (n : Nat) (b : UInt8) (last : Bool) (now : Int) (evs : List RecvEv) :
      (recvBytes t n (.byte b last now :: evs)).1 = (recvBytes t' n (.byte b last now :: evs)).1 := by
    cases n with
    | zero => rfl
    | succ n => rfl
  unfold antd_recv_upto
  rw [h]
  split
  · rename_i b last now evs hi
    constructor <;> simp only [hi, hbytes c'.last_io c.last_io]
  all_goals exact ⟨rfl, rfl⟩

end

/-! ## One direction -/

/-- From `src₀` and `dst₀` on, `dst` has been sent data that were received from `src`; all of them as long as the
relay goes on, and then the rest is still to come. -/
structure Carried (src₀ dst₀ src dst : Client) (live : Bool) : Prop where
  carried : ∃ data d, Consumes src₀.input data src.input ∧ dst.wire = dst₀.wire ++ d ∧ d <+: data ∧
    (live = true → d = data ∧ sentBytes src₀.input = data ++ sentBytes src.input)

section

variable {src₀ dst₀ src dst src' dst' : Client} {live : Bool}

theorem Carried.refl (src dst : Client) (live : Bool) : Carried src dst src dst live :=
  ⟨[], [], .refl _, (List.append_nil _).symm, List.prefix_rfl, fun _ => ⟨rfl, rfl⟩⟩

theorem Carried.trans (h : Carried src₀ dst₀ src dst true) (h' : Carried src dst src' dst' live) :
    Carried src₀ dst₀ src' dst' live := by
  obtain ⟨data, d, hreads, hwire, -, hlive⟩ := h.carried
  obtain ⟨data', d', hreads', hwire', hpre, hlive'⟩ := h'.carried
  obtain ⟨rfl, hsent⟩ := hlive rfl
  refine ⟨d ++ data', d ++ d', hreads.trans hreads', ?_, (List.prefix_append_right_inj d).2 hpre, fun hl => ?_⟩
  · rw [hwire', hwire, List.append_assoc]
  · obtain ⟨rfl, hsent'⟩ := hlive' hl
    exact ⟨rfl, by rw [hsent, hsent', List.append_assoc]⟩

/-- The other direction does not concern it. -/
theorem Carried.idle (hsrc : src'.input = src.input) (hdst : dst'.wire = dst.wire) (live : Bool) :
    Carried src dst src' dst' live :=
  ⟨[], [], hsrc ▸ .refl _, by rw [hdst, List.append_nil], List.prefix_rfl, fun _ => ⟨rfl, by rw [hsrc]; rfl⟩⟩

theorem Carried.weaken (h : Carried src₀ dst₀ src dst true) : Carried src₀ dst₀ src dst live := by
  obtain ⟨data, d, hreads, hwire, hpre, hlive⟩ := h.carried
  exact ⟨data, d, hreads, hwire, hpre, fun _ => hlive rfl⟩

/-- A buffer is received and sent. -/
theorem carried_buffer (src dst : Client) (hpos : 0 < (antd_recv_upto src BUFFLEN).1) :
    Carried src dst (antd_recv_upto src BUFFLEN).2.2 (antd_send dst (antd_recv_upto src BUFFLEN).2.1).2
      ((antd_send dst (antd_recv_upto src BUFFLEN).2.1).1 = (antd_recv_upto src BUFFLEN).1) := by
  refine ⟨_, _, antd_recv_upto_reads src BUFFLEN, rfl, sendLoop_prefix .., fun hall => ?_⟩
  have hlen := of_decide_eq_true hall
  rw [antd_recv_upto_count hpos] at hlen
  exact ⟨List.append_cancel_left (antd_send_all hlen), antd_recv_upto_sent (Int.le_of_lt hpos)⟩

/-- A call that receives nothing. -/
theorem carried_nothing (src dst : Client) (hneg : ¬ 0 < (antd_recv_upto src BUFFLEN).1) :
    Carried src dst (antd_recv_upto src BUFFLEN).2.2 dst ((antd_recv_upto src BUFFLEN).1 = 0) := by
  have hnil := antd_recv_upto_data (Int.not_lt.1 hneg)
  have hreads := antd_recv_upto_reads src BUFFLEN
  rw [hnil] at hreads
  refine ⟨[], [], hreads, (List.append_nil _).symm, List.prefix_rfl, fun hz => ⟨rfl, ?_⟩⟩
  rw [antd_recv_upto_sent (Int.le_of_eq (of_decide_eq_true hz).symm), hnil]

theorem toBackend_carried (client proxy : Client) :
    Carried client proxy (toBackend client proxy).2.2.1 (toBackend client proxy).2.2.2 (toBackend client proxy).2.1 ∧
      (toBackend client proxy).2.2.2.input = proxy.input ∧ (toBackend client proxy).2.2.1.wire = client.wire := by
  unfold toBackend
  simp only
  split
  · rename_i hpos
    exact ⟨carried_buffer client proxy hpos, rfl, antd_recv_upto_wire ..⟩
  · rename_i hneg
    exact ⟨carried_nothing client proxy hneg, rfl, antd_recv_upto_wire ..⟩

theorem toClient_carried (client proxy : Client) :
    Carried proxy client (toClient client proxy).2.2.2 (toClient client proxy).2.2.1 (toClient client proxy).2.1 ∧
      (toClient client proxy).2.2.1.input = client.input ∧ (toClient client proxy).2.2.2.wire = proxy.wire := by
  unfold toClient
  simp only
  split
  · rename_i hpos
    exact ⟨carried_buffer proxy client hpos, rfl, antd_recv_upto_wire ..⟩
  · rename_i hneg
    obtain ⟨data, d, hreads, hwire, hpre, -⟩ := (carried_nothing proxy client hneg).carried
    exact ⟨⟨data, d, hreads, hwire, hpre, nofun⟩, rfl, antd_recv_upto_wire ..⟩

end

/-! ## Both directions -/

/-- Since `client₀` and `proxy₀` each side has been sent what came from the other one. -/
structure Relays (client₀ proxy₀ client proxy : Client) (live : Bool) : Prop where
  up : Carried client₀ proxy₀ client proxy live
  down : Carried proxy₀ client₀ proxy client live

/-- The relay goes on, in this task or the next one. -/
def Relay.live : Relay → Bool
  | .broken => false
  | _ => true

section

variable {client₀ proxy₀ client proxy : Client} {poll : Poll}

theorem Relays.weaken {live : Bool} (h : Relays client₀ proxy₀ client proxy true) : Relays client₀ proxy₀ client proxy live :=
  ⟨h.up.weaken, h.down.weaken⟩

theorem Relays.toBackend (h : Relays client₀ proxy₀ client proxy true) :
    Relays client₀ proxy₀ (AntHttp.toBackend client proxy).2.2.1 (AntHttp.toBackend client proxy).2.2.2
      (AntHttp.toBackend client proxy).2.1 := by
  obtain ⟨hc, hinput, hwire⟩ := toBackend_carried client proxy
  exact ⟨h.up.trans hc, h.down.trans (.idle hinput hwire _)⟩

theorem Relays.toClient (h : Relays client₀ proxy₀ client proxy true) :
    Relays client₀ proxy₀ (AntHttp.toClient client proxy).2.2.1 (AntHttp.toClient client proxy).2.2.2
      (AntHttp.toClient client proxy).2.1 := by
  obtain ⟨hc, hinput, hwire⟩ := toClient_carried client proxy
  exact ⟨h.up.trans (.idle hinput hwire _), h.down.trans hc⟩

/-- What one round does to the two directions. -/
theorem Relays.round (h : Relays client₀ proxy₀ client proxy true) (poll : Poll) :
    Relays client₀ proxy₀ (relayRound client proxy poll).2.1 (relayRound client proxy poll).2.2
      (relayRound client proxy poll).1.live := by
  have hb := h.toBackend
  unfold relayRound
  split
  · rename_i hr
    rw [hr] at hb
    exact hb
  · rename_i sz client₁ proxy₁ hr
    rw [hr] at hb
    cases poll with
    | failed => exact hb.weaken
    | timeout => exact hb.weaken
    | ready pollin pollout pollerr pollhup pollrdhup pollnval =>
      -- the other direction, if the backend has something to read
      have hc : Relays client₀ proxy₀
          (if pollin then AntHttp.toClient client₁ proxy₁ else (0, true, client₁, proxy₁)).2.2.1
          (if pollin then AntHttp.toClient client₁ proxy₁ else (0, true, client₁, proxy₁)).2.2.2
          (if pollin then AntHttp.toClient client₁ proxy₁ else (0, true, client₁, proxy₁)).2.1 := by
        cases pollin with
        | true => exact hb.toClient
        | false => exact hb
      simp only
      split
      · rename_i hr'
        rw [hr'] at hc
        exact hc
      · rename_i hr'
        rw [hr'] at hc
        split
        · exact hc.weaken
        · exact hc.weaken

end

/-! ## The round in which the backend is gone -/

/-- A round of the loop: the two sides before it, and what `poll` says in it. -/
structure RelayRound where
  client : Client
  proxy : Client
  poll : Poll

namespace RelayRound

/-- What follows the round. -/
def next (r : RelayRound) : Relay × Client × Client := relayRound r.client r.proxy r.poll

/-- The loop breaks on these flags. -/
def hungUp : Poll → Bool
  | .ready _ _ pollerr pollhup pollrdhup pollnval => pollerr || pollrdhup || pollhup || pollnval
  | _ => false

def pollin : Poll → Bool
  | .ready pollin .. => pollin
  | _ => false

/-- The relay ends with the round because the backend has hung up or its socket hands over nothing more;
the client is there, and everything that is sent goes out. -/
structure ByBackend (r : RelayRound) : Prop where
  client : (toBackend r.client r.proxy).2.1 = true
  gone : hungUp r.poll = true ∨ (pollin r.poll = true ∧ (antd_recv_upto r.proxy BUFFLEN).1 < 0)
  sends : pollin r.poll = true → 0 < (antd_recv_upto r.proxy BUFFLEN).1 →
    (toClient (toBackend r.client r.proxy).2.2.1 (toBackend r.client r.proxy).2.2.2).2.1 = true

/-- If the backend has hung up, the last call hands over all that it has sent. -/
def Drains (r : RelayRound) : Prop :=
  hungUp r.poll = true → (if pollin r.poll then (antd_recv_upto r.proxy BUFFLEN).2.1 else []) = sentBytes r.proxy.input

/-- What is received goes to the client, if it can be sent. -/
theorem toClient_wire {client proxy : Client}
    (h : 0 < (antd_recv_upto proxy BUFFLEN).1 → (toClient client proxy).2.1 = true) :
    (toClient client proxy).2.2.1.wire = client.wire ++ (antd_recv_upto proxy BUFFLEN).2.1 := by
  unfold toClient at h ⊢
  simp only at h ⊢
  split
  · rename_i hpos
    have hall := h hpos
    rw [if_pos hpos] at hall
    apply antd_send_all
    rw [← antd_recv_upto_count hpos]
    exact of_decide_eq_true hall
  · rename_i hneg
    rw [antd_recv_upto_data (Int.not_lt.1 hneg), List.append_nil]

/-- The client after a round in which `poll` has found something. -/
theorem relayRound_client {client proxy : Client} (h : (toBackend client proxy).2.1 = true)
    (pollin pollout pollerr pollhup pollrdhup pollnval : Bool) :
    (relayRound client proxy (.ready pollin pollout pollerr pollhup pollrdhup pollnval)).2.1 =
      if pollin then (toClient (toBackend client proxy).2.2.1 (toBackend client proxy).2.2.2).2.2.1
      else (toBackend client proxy).2.2.1 := by
  unfold relayRound
  split
  · rename_i hr
    rw [hr] at h
    cases h
  · rename_i sz client₁ proxy₁ hr
    rw [hr]
    cases pollin with
    | false =>
      simp only [Bool.false_eq_true, if_false]
      split <;> rfl
    | true =>
      simp only [if_true]
      split
      · rename_i hr'
        rw [hr']
      · rename_i hr'
        rw [hr']
        split <;> rfl

/-- What the last call hands over reaches the client. -/
theorem ByBackend.wire {r : RelayRound} (h : r.ByBackend) : r.next.2.1.wire =
    r.client.wire ++ if pollin r.poll then (antd_recv_upto r.proxy BUFFLEN).2.1 else [] := by
  obtain ⟨client, proxy, poll⟩ := r
  obtain ⟨hclient, hgone, hsends⟩ := h
  obtain ⟨-, hinput, hwire⟩ := toBackend_carried client proxy
  obtain ⟨hret, hdata⟩ := antd_recv_upto_congr hinput BUFFLEN
  cases poll with
  | failed | timeout => rcases hgone with hgone | ⟨hgone, -⟩ <;> cases hgone
  | ready pollin pollout pollerr pollhup pollrdhup pollnval =>
    simp only [next, relayRound_client hclient, RelayRound.pollin]
    cases pollin with
    | false => simpa using hwire
    | true =>
      simp only [if_true]
      rw [toClient_wire fun hpos => hsends rfl (hret ▸ hpos), hwire, hdata]

/-- The client gets everything exactly if nothing is left of it in the socket. -/
theorem ByBackend.delivers_iff {r : RelayRound} (h : r.ByBackend) :
    r.next.2.1.wire = r.client.wire ++ sentBytes r.proxy.input ↔ r.Drains := by
  rw [h.wire, List.append_cancel_left_eq]
  constructor
  · exact fun he _ => he
  · intro hd
    rcases h.gone with hhup | ⟨hin, hfail⟩
    · exact hd hhup
    · rw [if_pos hin, antd_recv_upto_failed hfail, antd_recv_upto_data (Int.le_of_lt hfail)]

end RelayRound

/-- The rounds of one run of the loop. -/
def rounds (client proxy : Client) : List Poll → List RelayRound
  | [] => []
  | poll :: polls =>
    ⟨client, proxy, poll⟩ ::
      match relayRound client proxy poll with
      | (.moved _, client, proxy) => rounds client proxy polls
      | _ => []

section

variable {client₀ proxy₀ client proxy : Client} {polls : List Poll}

theorem Relays.loop (h : Relays client₀ proxy₀ client proxy true) (polls : List Poll) :
    Relays client₀ proxy₀ (relayLoop client proxy polls).2.1 (relayLoop client proxy polls).2.2
      (relayLoop client proxy polls).1.live := by
  induction polls generalizing client proxy with
  | nil => exact h.weaken
  | cons poll polls ih =>
    have hr := h.round poll
    unfold relayLoop
    split
    · rename_i heq
      rw [heq] at hr
      exact ih hr
    · rename_i heq
      rw [heq] at hr
      exact hr

/-- The loop leaves what its last round leaves. -/
theorem Relays.last (h : Relays client₀ proxy₀ client proxy true) {r : RelayRound} (hr : (rounds client proxy polls).getLast? = some r) :
    Relays client₀ proxy₀ r.client r.proxy true ∧ (relayLoop client proxy polls).2 = r.next.2 := by
  induction polls generalizing client proxy with
  | nil => cases hr
  | cons poll polls ih =>
    have hround := h.round poll
    unfold rounds at hr
    unfold relayLoop
    split
    · rename_i pollin client₁ proxy₁ heq
      rw [heq] at hr hround
      simp only at hr
      cases polls with
      | nil =>
        obtain rfl : ⟨client, proxy, poll⟩ = r := by simpa [rounds] using hr
        exact ⟨h, by rw [RelayRound.next, heq]; rfl⟩
      | cons poll' polls =>
        have hne : rounds client₁ proxy₁ (poll' :: polls) ≠ [] := by simp [rounds]
        rw [List.getLast?_cons_of_ne_nil hne] at hr
        exact ih hround hr
    · rename_i relay client₁ proxy₁ hmoved heq
      have hstop : (match relayRound client proxy poll with
          | (.moved _, client, proxy) => rounds client proxy polls
          | _ => []) = [] := by
        rw [heq]
        cases relay with
        | moved pollin => exact absurd rfl (hmoved pollin)
        | idle | broken => rfl
      rw [hstop] at hr
      obtain rfl : ⟨client, proxy, poll⟩ = r := by simpa using hr
      exact ⟨h, by rw [RelayRound.next, heq]⟩

end

/-! ## Every sequence of invocations -/

/-- A request that is relayed, whether the relay has ended, and the last round of the last invocation. -/
structure Relaying where
  rq : Request
  ended : Bool
  last : Option RelayRound

namespace Relaying

/-- An invocation of `proxy_monitor`. -/
def step (sys : Sys) (s : Relaying) : Option Relaying :=
  if s.ended then none
  else
    match proxy_monitor sys s.rq with
    | .error _ => none
    | .ok (t, rq) => some ⟨rq, t.handle.isNone,
        s.rq.PROXY_HANDLE.bind fun proxy => (rounds (s.rq.set_state .PROXY_MONITOR).client proxy sys.proxyPolls).getLast?⟩

variable {sys : Sys} {rq rq' : Request} {t : Task} {proxy client₀ proxy₀ : Client} {s s' : Relaying}

theorem proxy_monitor_of (hp : rq.PROXY_HANDLE = some proxy) (h : proxy_monitor sys rq = .ok (t, rq')) :
    rq'.client = (relayLoop (rq.set_state .PROXY_MONITOR).client proxy sys.proxyPolls).2.1 ∧
      rq'.PROXY_HANDLE = some (relayLoop (rq.set_state .PROXY_MONITOR).client proxy sys.proxyPolls).2.2 ∧
      t.handle.isNone = !(relayLoop (rq.set_state .PROXY_MONITOR).client proxy sys.proxyPolls).1.live ∧
      ∀ g ∈ t.handle, g = .proxy_monitor := by
  obtain ⟨proxy', hp', h⟩ := Res.bind_ok.1 h
  obtain rfl : proxy = proxy' := Option.some.inj (hp.symm.trans (deref_ok.1 hp'))
  simp only at h
  cases hr : (relayLoop (rq.set_state .PROXY_MONITOR).client proxy sys.proxyPolls).1 with
  | broken =>
    rw [hr] at h
    cases h
    exact ⟨rfl, rfl, rfl, nofun⟩
  | moved pollin | idle pollin =>
    rw [hr] at h
    cases pollin <;> cases h <;> exact ⟨rfl, rfl, rfl, fun _ hg => (Option.some.inj hg).symm⟩

theorem proxy_monitor_ok (sys : Sys) (hp : rq.PROXY_HANDLE = some proxy) : ∃ r, proxy_monitor sys rq = .ok r := by
  cases hm : proxy_monitor sys rq with
  | ok r => exact ⟨r, rfl⟩
  | error e =>
    rcases Res.bind_error.1 hm with hnull | ⟨proxy', -, hm⟩
    · exact absurd (deref_error.1 hnull).1 (by rw [show (rq.set_state .PROXY_MONITOR).PROXY_HANDLE = some proxy from hp]; nofun)
    · simp only at hm
      split at hm <;> cases hm

/-- The two sides since `client₀` and `proxy₀`, and before the last round. -/
structure Inv (client₀ proxy₀ : Client) (s : Relaying) : Prop where
  relays : ∃ proxy, s.rq.PROXY_HANDLE = some proxy ∧ Relays client₀ proxy₀ s.rq.client proxy (!s.ended)
  last : ∀ r, s.last = some r → Relays client₀ proxy₀ r.client r.proxy true ∧ s.rq.client = r.next.2.1

theorem inv_step (h : Inv client₀ proxy₀ s) (hs : step sys s = some s') : Inv client₀ proxy₀ s' := by
  unfold step at hs
  split at hs
  · cases hs
  · rename_i hended
    split at hs
    · cases hs
    · rename_i t rq' hm
      cases hs
      obtain ⟨proxy, hp, hrelays⟩ := h.relays
      rw [Bool.eq_false_iff.2 hended] at hrelays
      have hstart : Relays client₀ proxy₀ (s.rq.set_state .PROXY_MONITOR).client proxy true :=
        ⟨⟨hrelays.up.carried⟩, ⟨hrelays.down.carried⟩⟩
      obtain ⟨hclient, hproxy, hended, -⟩ := proxy_monitor_of hp hm
      refine ⟨⟨_, hproxy, ?_⟩, fun r hr => ?_⟩
      · rw [hclient, hended, Bool.not_not]
        exact hstart.loop sys.proxyPolls
      · simp only [hp, Option.bind_some] at hr
        obtain ⟨hround, hnext⟩ := hstart.last hr
        exact ⟨hround, by rw [hclient, hnext]⟩

theorem inv_reachable (hp : rq.PROXY_HANDLE = some proxy₀) (h : Runs.Reachable step (· = ⟨rq, false, none⟩) s) :
    Inv rq.client proxy₀ s := by
  refine h.inv (Inv rq.client proxy₀) ?_ fun _ _ _ hi _ hs => inv_step hi hs
  rintro _ rfl
  have hrefl : Relays rq.client proxy₀ rq.client proxy₀ true := ⟨.refl _ _ _, .refl _ _ _⟩
  exact ⟨⟨proxy₀, hp, hrefl⟩, fun r hr => by cases hr⟩

/-- When the backend ends the relay, the client has got everything if the last call took the rest. -/
theorem Inv.delivers_iff (h : Inv client₀ proxy₀ s) {r : RelayRound} (hr : s.last = some r) (hby : r.ByBackend) :
    s.rq.client.wire = client₀.wire ++ sentBytes proxy₀.input ↔ r.Drains := by
  obtain ⟨hround, hnext⟩ := h.last r hr
  obtain ⟨data, d, -, hwire, -, hlive⟩ := hround.down.carried
  obtain ⟨rfl, hsent⟩ := hlive rfl
  rw [← hby.delivers_iff, hnext, hwire, hsent, ← List.append_assoc]

/-- What the scheduler does with a request that is relayed is such an invocation. -/
theorem step_of_conn {cnf : Config} {c c' : Conn} (hs : Conn.step cnf sys c = some c')
    (hh : c.task.handle = some .proxy_monitor) (last : Option RelayRound) :
    ∃ s, step sys ⟨c.rq, false, last⟩ = some s ∧ s.rq = c'.rq ∧
      (s.ended = false → c'.task.handle = some .proxy_monitor) := by
  obtain ⟨h, ret, left, hh', hc, ho⟩ := execute_ok (Conn.step_execute hs)
  rw [hh] at hh'
  cases hh'
  obtain ⟨⟨t, rq'⟩, hm, hret⟩ := Res.map_ok.1 hc
  cases hret
  obtain ⟨task, htask, ho⟩ := Option.bind_eq_some_iff.1 ho.symm
  cases ho
  unfold step
  simp only [Bool.false_eq_true, if_false, hm]
  refine ⟨_, rfl, rfl, fun hlive => ?_⟩
  obtain ⟨g, hg⟩ := Option.isSome_iff_exists.1 (Option.isNone_eq_false_iff.1 hlive)
  obtain ⟨proxy, hp, -⟩ := Res.bind_ok.1 hm
  obtain rfl := (proxy_monitor_of (deref_ok.1 hp) hm).2.2.2 g hg
  rw [antd_execute_task, if_pos (by rw [hg]; rfl)] at htask
  cases htask
  exact hg

/-- In every run each side has been sent a prefix of what came from the other one. When the backend ends it,
the client has got all that the backend sent exactly if the last call took what was left of it. -/
theorem relay_delivers_iff (hp : rq.PROXY_HANDLE = some proxy₀) (h : Runs.Reachable step (· = ⟨rq, false, none⟩) s) :
    (∃ proxy, s.rq.PROXY_HANDLE = some proxy ∧
      (∃ d, proxy.wire = proxy₀.wire ++ d ∧ d <+: received rq.client.input s.rq.client.input) ∧
      ∃ d, s.rq.client.wire = rq.client.wire ++ d ∧ d <+: received proxy₀.input proxy.input) ∧
    ∀ r, s.last = some r → r.ByBackend →
      (s.rq.client.wire = rq.client.wire ++ sentBytes proxy₀.input ↔ r.Drains) := by
  have hinv := inv_reachable hp h
  refine ⟨?_, fun r => hinv.delivers_iff⟩
  obtain ⟨proxy, hproxy, hup, hdown⟩ := hinv.relays
  obtain ⟨data, d, hreads, hwire, hpre, -⟩ := hup.carried
  obtain ⟨data', d', hreads', hwire', hpre', -⟩ := hdown.carried
  exact ⟨proxy, hproxy, ⟨d, hwire, hreads.received ▸ hpre⟩, ⟨d', hwire', hreads'.received ▸ hpre'⟩⟩

/-- A backend that has sent `n` bytes. -/
def sampleBackend (n : Nat) : Client := ⟨9, false, .ACCEPT, 0, .CNONE, List.replicate n (.byte 65 false 0), [], [], []⟩

/-- A client that waits for an answer. -/
def sampleClient : Client := ⟨4, false, .PROXY_MONITOR, 0, .CNONE, [.again 0], [.room 1023 0], [], []⟩

/-- The backend has hung up. -/
def hangUp : Poll := .ready true false false true false false

/-- The client's request, with the backend. -/
def sampleRelay (n : Nat) : Request :=
  { (sampleConn none [] []).rq with client := sampleClient, PROXY_HANDLE := some (sampleBackend n) }

/-- The backend hangs up, and the relay has one round. -/
theorem sampleRelay_run (n : Nat) : ∃ s, Runs.Reachable step (· = ⟨sampleRelay n, false, none⟩) s ∧
    s.last = some ⟨sampleClient, sampleBackend n, hangUp⟩ := by
  have hlast : (rounds sampleClient (sampleBackend n) [hangUp]).getLast? = some ⟨sampleClient, sampleBackend n, hangUp⟩ := by
    unfold rounds
    split <;> rfl
  obtain ⟨r, hm⟩ := proxy_monitor_ok { sampleSys [] with proxyPolls := [hangUp] } (rfl : (sampleRelay n).PROXY_HANDLE = _)
  refine ⟨⟨r.2, r.1.handle.isNone, _⟩, .step (.init rfl) trivial (?_ : step { sampleSys [] with proxyPolls := [hangUp] } _ = _), hlast⟩
  unfold step
  rw [if_neg (by simp)]
  simp only [hm]
  rfl

/-- The client waits, and what the call for the backend hands over can be sent. -/
theorem sampleRelay_byBackend {n : Nat} (hsend : (toClient { sampleClient with input := [] } (sampleBackend n)).2.1 = true) :
    (⟨sampleClient, sampleBackend n, hangUp⟩ : RelayRound).ByBackend :=
  ⟨rfl, .inl rfl, fun _ _ => hsend⟩

/-- An answer that fits one call. -/
theorem relay_delivers_iff_short : ∃ s : Relaying, s.rq.client.wire = str "AA" := by
  obtain ⟨s, hs, hlast⟩ := sampleRelay_run 2
  have hby := @sampleRelay_byBackend 2 (by decide +kernel)
  have hp : (sampleRelay 2).PROXY_HANDLE = some (sampleBackend 2) := rfl
  have hwire := ((relay_delivers_iff hp hs).2 _ hlast hby).2 fun _ => by decide +kernel
  exact ⟨s, hwire.trans (by decide +kernel)⟩

/-- An answer that is one byte longer. -/
theorem answer_truncated : ¬ ∀ (rq : Request) (proxy₀ : Client) (s : Relaying), rq.PROXY_HANDLE = some proxy₀ →
    Runs.Reachable step (· = ⟨rq, false, none⟩) s →
    ∀ r, s.last = some r → r.ByBackend → s.rq.client.wire = rq.client.wire ++ sentBytes proxy₀.input := by
  intro hall
  obtain ⟨s, hs, hlast⟩ := sampleRelay_run 1025
  have hby := @sampleRelay_byBackend 1025 (by decide +kernel)
  have hdrains := ((inv_reachable rfl hs).delivers_iff hlast hby).1 (hall _ _ s rfl hs _ hlast hby)
  exact absurd (hdrains rfl) (by decide +kernel)

end Relaying

end AntHttp
