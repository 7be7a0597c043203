import AntHttp.Ownership
/-!
# The backend socket of a proxied request

`proxify` opens it, `proxy_monitor` relays over it, and the scheduler polls it;
it is closed where a send fails, where the relay breaks and where the request's
task is killed. A watch over the server's runs keeps, for each request, whether
its socket is open. `PROXY_HANDLE` stays recorded after the handlers have closed
the socket, so the kill closes it again when the task for `finish_request` is
found out of date; without that, it is closed once and not used afterwards.
-/

namespace AntHttp

open Bst Runs CString

/-! ## Watching a socket -/

inductive Backend where
  | unopened | opened | closed | misused
  deriving DecidableEq

inductive BackendEvent where
  | opens | uses | closes
  deriving DecidableEq

/-- A socket that `proxify` has not opened is not watched. -/
def Backend.next : Backend → BackendEvent → Backend
  | .unopened, .opens => .opened
  | .unopened, _ => .unopened
  | .opened, .uses => .opened
  | .opened, .closes => .closed
  | _, _ => .misused

/-- The descriptor that `proxify` gets, if it gets that far. -/
def backendSocket (sys : Sys) (rq : Request) : Option Int :=
  match rq.REQUEST_HEADER, rq.PROXY_HOST.bind sys.ip_from_hostname with
  | some _, some ip => (sys.antd_request_socket ip (CString.atoi (rq.PROXY_PORT.getD []))).map (·.1)
  | _, _ => none

/-- What a handler does with the socket; the other handlers know nothing of it. -/
def handlerEvents (sys : Sys) (rq rq' : Request) (h : Handler) : List BackendEvent :=
  let closes := (rq'.closed.drop rq.closed.length).map fun _ => BackendEvent.closes
  match h with
  | .proxify => if (backendSocket sys rq).isSome then .opens :: .uses :: closes else closes
  | .proxy_monitor => .uses :: closes
  | _ => []

section Handlers

/-! ## What `proxify` and `proxy_monitor` do -/

variable {sys : Sys} {rq rq' : Request} {t : Task}

/-- No socket, a socket that is relayed over, or one that is closed at once. -/
theorem proxify_backend (h : proxify sys rq = .ok (t, rq')) :
    (backendSocket sys rq = none ∧ rq'.closed = rq.closed ∧ t.handle = none) ∨
      ∃ fd, backendSocket sys rq = some fd ∧
        ((rq'.closed = rq.closed ∧ rq'.PROXY_HANDLE.isSome ∧ t.handle = some .proxy_monitor) ∨
          (rq'.closed = rq.closed ++ [fd] ∧ t = antd_create_task none none rq.client.last_io)) := by
  unfold proxify at h
  obtain ⟨port, hport, h⟩ := Res.bind_ok.1 h
  simp only at h
  unfold backendSocket
  split at h
  · rename_i hx
    have hx : rq.REQUEST_HEADER = none := hx
    cases h
    exact .inl ⟨by rw [hx], rfl, rfl⟩
  · rename_i hx
    have hx : rq.REQUEST_HEADER = some _ := hx
    rw [hx]
    split at h
    · rename_i hip
      have hip : rq.PROXY_HOST.bind sys.ip_from_hostname = none := hip
      cases h
      exact .inl ⟨by rw [hip], rfl, rfl⟩
    · rename_i hip
      have hip : rq.PROXY_HOST.bind sys.ip_from_hostname = some _ := hip
      rw [hip]
      have hp : rq.PROXY_PORT = some port := deref_ok.1 hport
      rw [hp, Option.getD_some]
      split at h
      · rename_i hs
        cases h
        exact .inl ⟨by simp [hs], rfl, rfl⟩
      · rename_i fd input output hs
        refine .inr ⟨fd, by simp [hs], ?_⟩
        split at h
        · cases h
          exact .inl ⟨rfl, rfl, rfl⟩
        · cases h
          exact .inr ⟨rfl, rfl⟩

/-- The relay goes on, or the socket is closed. -/
theorem proxy_monitor_backend (h : proxy_monitor sys rq = .ok (t, rq')) :
    (rq'.closed = rq.closed ∧ rq'.PROXY_HANDLE.isSome ∧ t.handle = some .proxy_monitor) ∨
      ∃ fd, rq'.closed = rq.closed ++ [fd] ∧ t = antd_create_task none none rq.client.last_io := by
  unfold proxy_monitor at h
  obtain ⟨proxy, -, h⟩ := Res.bind_ok.1 h
  simp only at h
  split at h
  · cases h
    exact .inr ⟨proxy.sock, rfl, rfl⟩
  · cases h
    refine .inl ⟨rfl, rfl, ?_⟩
    split <;> rfl

end Handlers

/-! ## Watching a run -/

namespace Server

/-- What a step from `s` to `s'` does with the sockets of requests. -/
def backendEvents (a : Action) (s s' : Server) : List (Nat × BackendEvent) :=
  match a with
  | .handle i sys =>
    match s.held[i]? with
    | some ⟨_, .running task _⟩ =>
      match task.handle, s.requests task.data, s'.requests task.data with
      | some h, some rq, some rq' => (handlerEvents sys rq rq' h).map (task.data, ·)
      | _, _, _ => []
    | _ => []
  | .schedule _ _ => (s'.closed.drop s.closed.length).map fun c => (c.1, .closes)
  | .poll _ =>
    match s.round with
    | .polling _ poll_list => poll_list.filterMap fun e =>
      (bst_find s.sched.task_queue e.2).bind fun task =>
        if (s.requests task.data).any (·.PROXY_HANDLE.any (·.sock = e.1.fd)) then some (task.data, .uses) else none
    | .deploying _ => []
  | _ => []

def observe (backend : Nat → Backend) (events : List (Nat × BackendEvent)) : Nat → Backend :=
  events.foldl (fun b e => Function.update b e.1 ((b e.1).next e.2)) backend

/-- The server and the state of each request's backend socket. -/
structure Watched where
  server : Server
  backend : Nat → Backend

def Watched.start : Watched := ⟨Server.start, fun _ => .unopened⟩

def Watched.step (cnf : Config) (a : Action) (w : Watched) : Option Watched :=
  (Server.step cnf a w.server).map fun s' => ⟨s', observe w.backend (backendEvents a w.server s')⟩

/-- No socket is used or closed after it was closed, and none is left open by a request that is gone. -/
def ClosedOnce (w : Watched) : Prop :=
  ∀ r, w.backend r ≠ .misused ∧ (r ∈ w.server.destroyed → w.backend r ≠ .opened)

/-- No task for `finish_request` is found out of date while its request has a `PROXY_HANDLE`. -/
def FinishesInTime (cnf : Config) (a : Action) (s : Server) : Prop :=
  match a with
  | .schedule i now => ∀ thread task, s.held[i]? = some ⟨thread, .deploying task⟩ →
      antd_scheduler_validate_data cnf now task = false → task.handle = some .finish_request →
        (s.requests task.data).bind (·.PROXY_HANDLE) = none
  | _ => True

/-! ## The invariant -/

variable {cnf : Config} {sys : Sys} {s s' : Server} {backend : Nat → Backend} {b : Backend} {rq : Option Request}
  {t : OwnedTask} {ret : Option OwnedTask}

/-- A task whose handler is still to run. A poll error takes its handle away while the socket is open. -/
def TaskBacked (b : Backend) (rq : Option Request) (t : OwnedTask) : Prop :=
  match b with
  | .unopened => t.handle ≠ some .proxy_monitor
  | .opened => (∃ q ∈ rq, q.PROXY_HANDLE.isSome) ∧ (t.handle = some .proxy_monitor ∨ t.handle = none)
  | .closed => t.handle = some .finish_request ∧ t.events = []
  | .misused => False

/-- A task whose handler has returned `ret`; its request may have ended. -/
def ReturnBacked (b : Backend) (rq : Option Request) (t : OwnedTask) (ret : Option OwnedTask) : Prop :=
  match b with
  | .unopened => ∀ u ∈ ret, u.handle ≠ some .proxy_monitor
  | .opened => (∃ q ∈ rq, q.PROXY_HANDLE.isSome) ∧ ∃ u, ret = some u ∧ u.handle = some .proxy_monitor
  | .closed => rq = none ∨ ((t.handle = some .proxify ∨ t.handle = some .proxy_monitor) ∧
      ∃ u, ret = some u ∧ u.handle = none ∧ u.callback = [] ∧ u.events = [])
  | .misused => False

def PhaseBacked (b : Backend) (rq : Option Request) : Phase → Prop
  | .adding t | .deploying t | .running t _ => TaskBacked b rq t
  | .returned t ret => ReturnBacked b rq t ret

/-- The events of the list are those of queued tasks. -/
def Polls (queue : Node OwnedTask) (poll_list : List (TaskEvent × Int)) : Prop :=
  ∀ e ∈ poll_list, ∃ t, bst_find queue e.2 = some t ∧ e.1 ∈ t.events

def PolledOk (queue : Node OwnedTask) : Round → Prop
  | .polling _ poll_list => Polls queue poll_list
  | .deploying _ => True

structure Backed (s : Server) (backend : Nat → Backend) : Prop where
  inv : Inv s []
  phases : ∀ p ∈ s.phases, PhaseBacked (backend p.data) (s.requests p.data) p
  gone : ∀ r ∈ s.destroyed, backend r = .unopened ∨ backend r = .closed
  fresh : ∀ r, s.accepted ≤ r → backend r = .unopened
  polled : PolledOk s.sched.task_queue s.round

theorem PhaseBacked.not_misused {p : Phase} (h : PhaseBacked b rq p) : b ≠ .misused := by
  rintro rfl
  cases p <;> exact h

theorem Backed.closedOnce (h : Backed s backend) : ClosedOnce ⟨s, backend⟩ := by
  intro r
  by_cases hr : r < s.accepted
  · rcases (h.inv.live.known r).1 hr with hlive | hd
    · obtain ⟨p, hp, rfl⟩ := List.mem_map.1 (h.inv.owned.owned r hlive)
      refine ⟨(h.phases p hp).not_misused, fun hd => ?_⟩
      rw [h.inv.live.dead _ hd] at hlive
      cases hlive
    · rcases h.gone r hd with hg | hg <;> exact ⟨by simp [hg], fun _ => by simp [hg]⟩
  · have hf := h.fresh r (not_lt.1 hr)
    exact ⟨by simp [hf], fun _ => by simp [hf]⟩

/-- A step that leaves the requests alone; a phase that is new is backed. -/
theorem Backed.frame (h : Backed s backend) (hi : Inv s' []) (hreq : s'.requests = s.requests)
    (hd : s'.destroyed = s.destroyed) (ha : s'.accepted = s.accepted)
    (hp : ∀ q ∈ s'.phases, q ∈ s.phases ∨ PhaseBacked (backend q.data) (s.requests q.data) q)
    (hpoll : PolledOk s'.sched.task_queue s'.round) : Backed s' backend where
  inv := hi
  phases q hq := by
    rw [hreq]
    exact (hp q hq).elim (h.phases q) id
  gone := by rw [hd]; exact h.gone
  fresh := by rw [ha]; exact h.fresh
  polled := hpoll

/-- A phase of the server is taken out. -/
theorem Backed.release (h : Backed s backend) {i : Nat} {k : Held} (hr : s.release i = some (k, s')) :
    PhaseBacked (backend k.phase.data) (s.requests k.phase.data) k.phase ∧
      (∀ q ∈ s'.phases, q ∈ s.phases ∧ q.data ≠ k.phase.data) ∧ k.phase.data < s.accepted := by
  obtain ⟨-, hperm⟩ := release_phases hr
  have hown := h.inv.owned.perm hperm
  refine ⟨h.phases _ (hperm.mem_iff.2 List.mem_cons_self), fun q hq => ?_, hown.known _ List.mem_cons_self⟩
  exact ⟨hperm.mem_iff.2 (List.mem_cons_of_mem _ hq), hown.ne hq⟩

/-- A step of a held task that leaves the requests and the queue alone. -/
theorem Backed.held (h : Backed s backend) {i : Nat} {k : Held} {s₁ : Server} (hr : s.release i = some (k, s₁))
    (hi : Inv s' []) (hreq : s'.requests = s₁.requests) (hd : s'.destroyed = s₁.destroyed)
    (ha : s'.accepted = s₁.accepted) (hqueue : s'.sched.task_queue = s₁.sched.task_queue) (hround : s'.round = s₁.round)
    (hp : ∀ q ∈ s'.phases, q ∈ s₁.phases ∨ PhaseBacked (backend q.data) (s.requests q.data) q) : Backed s' backend := by
  obtain ⟨-, hrest, -⟩ := h.release hr
  obtain ⟨he, -⟩ := release_phases hr
  rw [he] at hreq hd ha hqueue hround
  refine h.frame hi hreq hd ha (fun q hq => (hp q hq).imp_left fun hq => (hrest q hq).1) ?_
  rw [hqueue, hround]
  exact h.polled

/-- A phase of the server is the one it was given last or an earlier one. -/
theorem mem_hold {q : Phase} (hq : q ∈ s.phases) {k : Held} {rest : List Held} (hk : s.held = k :: rest) :
    q = k.phase ∨ q ∈ ({ s with held := rest } : Server).phases := by
  have hperm := hold_phases { s with held := rest } k.thread k.phase
  rw [← hk] at hperm
  exact List.mem_cons.1 (hperm.mem_iff.1 hq)

/-! ## Observing -/

theorem observe_map (backend : Nat → Backend) (r : Nat) (evs : List BackendEvent) :
    observe backend (evs.map (r, ·)) = Function.update backend r (evs.foldl Backend.next (backend r)) := by
  induction evs generalizing backend with
  | nil => exact (Function.update_eq_self ..).symm
  | cons e evs ih =>
    have hcons := ih (Function.update backend r ((backend r).next e))
    rw [Function.update_self, Function.update_idem] at hcons
    exact hcons

/-- Sockets that are not closed can be used. -/
theorem observe_uses {events : List (Nat × BackendEvent)}
    (h : ∀ e ∈ events, e.2 = .uses ∧ (backend e.1 = .unopened ∨ backend e.1 = .opened)) :
    observe backend events = backend := by
  induction events with
  | nil => rfl
  | cons e events ih =>
    obtain ⟨huse, hb⟩ := h e List.mem_cons_self
    have hnext : (backend e.1).next e.2 = backend e.1 := by rcases hb with hb | hb <;> rw [huse, hb] <;> rfl
    have hsame : Function.update backend e.1 ((backend e.1).next e.2) = backend := by
      rw [hnext, Function.update_eq_self]
    have htail := ih fun e' he => h e' (List.mem_cons_of_mem _ he)
    change observe (Function.update backend e.1 ((backend e.1).next e.2)) events = backend
    rw [hsame]
    exact htail

/-! ## Accepting, collecting and deploying -/

theorem backed_start : Backed Server.start fun _ => .unopened where
  inv := inv_start
  phases _ hp := (List.not_mem_nil hp).elim
  gone _ _ := .inl rfl
  fresh _ _ := rfl
  polled := trivial

theorem backed_accept {pcnf : PortConfig} {i now : Int} {input : List RecvEv} {output : List SendEv} {ssl : Bool}
    (h : Backed s backend) (hi : Inv s' []) (hs : s.antd_monitor pcnf i now input output ssl = some s') :
    Backed s' backend := by
  have hne : ∀ q ∈ s.phases, q.data ≠ s.accepted := fun q hq => (h.inv.owned.known q hq).ne
  have hfresh := h.fresh s.accepted (le_refl _)
  unfold antd_monitor at hs
  split at hs
  · cases hs
  · simp only at hs
    split at hs
    · cases hs
      refine ⟨hi, fun q hq => ?_, fun r hr => ?_, fun r hr => h.fresh r (by dsimp only [finish_request] at hr; omega), h.polled⟩
      · have hq : q ∈ s.phases := hq
        dsimp only [finish_request]
        rw [Function.update_of_ne (hne q hq), Function.update_of_ne (hne q hq)]
        exact h.phases q hq
      · rcases List.mem_cons.1 hr with rfl | hr
        · exact .inl hfresh
        · exact h.gone r hr
    · cases hs
      refine ⟨hi, fun q hq => ?_, h.gone, fun r hr => h.fresh r (by dsimp only at hr; omega), h.polled⟩
      rcases mem_hold hq rfl with rfl | hq
      · change TaskBacked (backend s.accepted) _ _
        rw [hfresh]
        nofun
      · have hq : q ∈ s.phases := hq
        dsimp only
        rw [Function.update_of_ne (hne q hq)]
        exact h.phases q hq

/-- The events of the tasks that are collected. -/
theorem collect_polls {queue : Node OwnedTask} {valid : OwnedTask → Bool} {elapsed : TaskEvent → Bool}
    {acc : Node OwnedTask × List (TaskEvent × Int)} (h : Polls queue acc.2) (l : List OwnedTask)
    (hl : ∀ t ∈ l, bst_find queue t.id = some t) : Polls queue (l.foldl (task_event_collect valid elapsed) acc).2 := by
  refine List.foldlRecOn (motive := fun acc : Node OwnedTask × List _ => Polls queue acc.2) l _ h fun acc h t ht => ?_
  unfold task_event_collect
  split
  · exact h
  · refine List.foldlRecOn (motive := fun acc : Node OwnedTask × List _ => Polls queue acc.2) t.events _ h
      fun acc h evt hevt => ?_
    split
    · exact h
    · split
      · split <;> exact h
      · intro e he
        rcases List.mem_append.1 he with he | he
        · exact h e he
        · rw [List.mem_singleton.1 he]
          exact ⟨t, hl t ht, hevt⟩

theorem backed_collect {now : Int → Int} {elapsed : TaskEvent → Bool} (h : Backed s backend) (hi : Inv s' [])
    (hs : s.collect cnf now elapsed = some s') : Backed s' backend := by
  unfold collect at hs
  split at hs
  · split at hs
    · cases hs
    · cases hs
      refine h.frame hi rfl rfl rfl (fun q hq => .inl hq) ?_
      exact collect_polls (fun e he => (List.not_mem_nil he).elim) _ fun t ht => h.inv.queue.find ht
  · cases hs

theorem backed_deploy (h : Backed s backend) (hi : Inv s' []) (hs : s.antd_deploy_task = some s') :
    Backed s' backend := by
  unfold antd_deploy_task at hs
  split at hs
  · rename_i t rest hr
    split at hs
    · cases hs
    cases hs
    have hq := h.inv.queue
    rw [hr] at hq
    have hperm := delete_phases (.deploying rest) hq.ordered (hq.round.found t List.mem_cons_self)
    refine h.frame hi rfl rfl rfl (fun q hq => ?_) trivial
    rcases mem_hold hq rfl with rfl | hq
    · exact .inr (h.phases (.adding t) (hperm.mem_iff.2 List.mem_cons_self))
    · exact .inl (hperm.mem_iff.2 (List.mem_cons_of_mem _ hq))
  · cases hs

theorem backed_work (h : Backed s backend) (hi : Inv s' []) (hs : s.work cnf = some s') : Backed s' backend := by
  unfold work at hs
  split at hs
  · rename_i t rest hw
    split at hs
    · cases hs
      have hperm := dequeue_phases hw
      refine h.frame hi rfl rfl rfl (fun q hq => ?_) h.polled
      rcases mem_hold hq rfl with rfl | hq
      · exact .inr (h.phases (.deploying t) (hperm.mem_iff.2 List.mem_cons_self))
      · exact .inl (hperm.mem_iff.2 (List.mem_cons_of_mem _ hq))
    · cases hs
  · cases hs

/-! ## Polling -/

/-- A queued task with events has a socket that is not closed. -/
theorem TaskBacked.not_closed (h : TaskBacked b rq t) (he : t.events ≠ []) : b = .unopened ∨ b = .opened := by
  cases b with
  | unopened => exact .inl rfl
  | opened => exact .inr rfl
  | closed => exact absurd h.2 he
  | misused => exact h.elim

/-- It stays backed when a poll error makes it invalid. -/
theorem TaskBacked.invalidate (h : TaskBacked b rq t) (he : t.events ≠ []) :
    TaskBacked b rq { t with access_time := 0, handle := none } := by
  rcases h.not_closed he with rfl | rfl
  · exact nofun
  · exact ⟨h.1, .inr rfl⟩

/-- The queue while the events of `poll_list` are looked at. -/
structure Polling (s : Server) (backend : Nat → Backend) (poll_list : List (TaskEvent × Int)) (queue : Node OwnedTask) :
    Prop where
  keyed : Keyed (·.id) queue
  tasks : ∀ e ∈ toList queue, TaskBacked (backend e.2.data) (s.requests e.2.data) e.2
  polls : Polls queue poll_list

theorem Polling.pollEvent {poll_list : List (TaskEvent × Int)} {acc : Node OwnedTask × Node OwnedTask}
    (h : Polling s backend poll_list acc.1) {p : (TaskEvent × Int) × Poll} (hp : p.1 ∈ poll_list) :
    Polling s backend poll_list (pollEvent acc p).1 := by
  unfold Server.pollEvent
  split
  · rename_i t pollin pollout pollerr pollhup _ _ hf he
    split
    · exact h
    · split
      · have hmem := (find_mem h.keyed.ordered).1 hf
        have hid : t.id = p.1.2 := h.keyed.keyed _ hmem
        obtain ⟨u, hu, hevt⟩ := h.polls _ hp
        rw [hf] at hu
        cases hu
        have hev : t.events ≠ [] := List.ne_nil_of_mem hevt
        refine ⟨h.keyed.insert { t with access_time := 0, handle := none }, fun e he => ?_, fun e he => ?_⟩
        · dsimp only at he
          rw [toList_insert h.keyed.ordered] at he
          rcases Assoc.mem_put he with rfl | he
          · exact (h.tasks _ hmem).invalidate hev
          · exact h.tasks e he
        · obtain ⟨v, hv, hevt⟩ := h.polls e he
          dsimp only
          rw [find_insert h.keyed.ordered]
          split
          · rename_i heq
            rw [heq, hid, hf] at hv
            cases hv
            exact ⟨_, rfl, hevt⟩
          · exact ⟨v, hv, hevt⟩
      · exact h
  · exact h

theorem backed_poll {revents : List Poll} (h : Backed s backend) (hi : Inv s' []) (hs : s.poll revents = some s') :
    Backed s' (observe backend (backendEvents (.poll revents) s s')) := by
  unfold poll at hs
  split at hs
  · rename_i scheduled_list poll_list hr
    cases hs
    have hpolls : Polls s.sched.task_queue poll_list := by
      have hp := h.polled
      rw [hr] at hp
      exact hp
    have htasks : ∀ e ∈ toList s.sched.task_queue, TaskBacked (backend e.2.data) (s.requests e.2.data) e.2 := by
      intro e he
      refine h.phases (.adding e.2) ?_
      simp only [phases, List.mem_append, List.mem_map]
      exact .inl (.inl ⟨e, he, rfl⟩)
    -- a task with events is polled on an open socket
    have hsame : observe backend (backendEvents (.poll revents) s { s with
        sched.task_queue := ((poll_list.zip revents).foldl pollEvent (s.sched.task_queue, scheduled_list)).1
        round := .deploying ((toList ((poll_list.zip revents).foldl pollEvent (s.sched.task_queue, scheduled_list)).2).map
          Prod.snd) }) = backend := by
      apply observe_uses
      intro e he
      simp only [backendEvents, hr, List.mem_filterMap] at he
      obtain ⟨p, hp, he⟩ := he
      obtain ⟨t, ht, he⟩ := Option.bind_eq_some_iff.1 he
      split at he
      · cases he
        obtain ⟨u, hu, hevt⟩ := hpolls p hp
        rw [ht] at hu
        cases hu
        exact ⟨rfl, (htasks _ ((find_mem h.inv.queue.ordered).1 ht)).not_closed (List.ne_nil_of_mem hevt)⟩
      · cases he
    rw [hsame]
    have hpolling : Polling s backend poll_list
        ((poll_list.zip revents).foldl pollEvent (s.sched.task_queue, scheduled_list)).1 := by
      refine List.foldlRecOn (motive := fun acc : Node OwnedTask × Node OwnedTask => Polling s backend poll_list acc.1)
        _ _ ⟨h.inv.queue.toKeyed, htasks, hpolls⟩ fun acc h p hp => h.pollEvent ?_
      exact (List.of_mem_zip hp).1
    refine h.frame hi rfl rfl rfl (fun q hq => ?_) trivial
    simp only [phases, List.mem_append, List.mem_map] at hq ⊢
    rcases hq with (⟨e, he, rfl⟩ | hq) | hq
    · exact .inr (hpolling.tasks e he)
    · exact .inl (.inl (.inr hq))
    · exact .inl (.inr hq)
  · cases hs

/-! ## Running a task -/

/-- Only the proxy handlers return a task for `proxy_monitor`. -/
theorem flow_monitor {h : Handler} {cbs : List Handler} (hf : Flow h (some .proxy_monitor) cbs) :
    h = .proxify ∨ h = .proxy_monitor := by
  cases hf with
  | connected => exact .inl rfl
  | relayed => exact .inr rfl
  | pluginTask hp => exact (hp _ rfl).elim

/-- What the handler of a task says of the socket. -/
theorem TaskBacked.of_handle {h : Handler} (hb : TaskBacked b rq t) (hh : t.handle = some h) :
    (b = .unopened ∧ h ≠ .proxy_monitor) ∨ (b = .opened ∧ h = .proxy_monitor) ∨ b = .closed ∧ h = .finish_request := by
  cases b with
  | unopened =>
    refine .inl ⟨rfl, fun he => ?_⟩
    rw [he] at hh
    exact hb hh
  | opened =>
    refine .inr (.inl ⟨rfl, ?_⟩)
    rcases hb.2 with he | he
    · exact Option.some.inj (hh.symm.trans he)
    · cases hh.symm.trans he
  | closed => exact .inr (.inr ⟨rfl, Option.some.inj (hh.symm.trans hb.1)⟩)
  | misused => exact hb.elim

/-- The other handlers run while the socket is not open, and leave it alone. -/
theorem handler_backed_other {h : Handler} {rq rq' : Request} {r : Option Task} {i : Int} (hh : t.handle = some h)
    (hf : h ≠ .finish_request) (hx : h ≠ .proxify) (hm : h ≠ .proxy_monitor) (hb : TaskBacked b (some rq) t)
    (hc : callHandler sys cnf rq h = .ok (r, some rq')) :
    ReturnBacked ((handlerEvents sys rq rq' h).foldl Backend.next b) (some rq') t (r.map fun u => ⟨u, i, t.data⟩) := by
  have hflow : ∀ u ∈ r, Flow h u.handle u.callback := by
    by_cases hp : h.IsPlugin
    · exact (callHandler_plugin hp hc).1
    · obtain ⟨u, rq'', rfl, -, hs, -⟩ := callHandler_server hp hf hc
      rintro v ⟨⟩
      exact hs.flow
  have hnone : handlerEvents sys rq rq' h = [] := by
    unfold handlerEvents
    cases h <;> first | rfl | exact absurd rfl hx | exact absurd rfl hm
  rw [hnone]
  rcases hb.of_handle hh with ⟨rfl, -⟩ | ⟨-, he⟩ | ⟨-, he⟩
  · intro u hu hmon
    obtain ⟨v, hv, rfl⟩ := Option.map_eq_some_iff.1 hu
    have hfl := hflow v hv
    have hmon : v.handle = some .proxy_monitor := hmon
    rw [hmon] at hfl
    exact (flow_monitor hfl).elim hx hm
  · exact absurd he hm
  · exact absurd he hf

theorem foldl_closes (fd : Int) (l : List Int) :
    ((l ++ [fd]).drop l.length).map (fun _ => BackendEvent.closes) = [.closes] := by
  simp

theorem handler_backed {h : Handler} {rq rq' : Request} {r : Option Task} {i : Int} (hh : t.handle = some h)
    (hf : h ≠ .finish_request) (hb : TaskBacked b (some rq) t) (hc : callHandler sys cnf rq h = .ok (r, some rq')) :
    ReturnBacked ((handlerEvents sys rq rq' h).foldl Backend.next b) (some rq') t (r.map fun u => ⟨u, i, t.data⟩) := by
  by_cases hx : h = .proxify
  · subst hx
    -- `proxify` opens the socket, and closes it if the header cannot be sent
    have hunopened : b = .unopened := by
      rcases hb.of_handle hh with ⟨hu, -⟩ | ⟨-, he⟩ | ⟨-, he⟩
      · exact hu
      · cases he
      · cases he
    subst hunopened
    obtain ⟨p, hp, he⟩ := Res.map_ok.1 hc
    cases he
    rcases proxify_backend hp with ⟨hs, hclosed, hnone⟩ | ⟨fd, hs, ⟨hclosed, hsome, hmon⟩ | ⟨hclosed, ht⟩⟩
    · simp only [handlerEvents, hs, hclosed, List.drop_length, List.map_nil, Option.isSome_none, Bool.false_eq_true,
        if_false, List.foldl_nil]
      rintro u ⟨⟩
      dsimp only
      rw [hnone]
      nofun
    · simp only [handlerEvents, hs, hclosed, List.drop_length, List.map_nil, Option.isSome_some, if_true]
      exact ⟨⟨_, rfl, hsome⟩, _, rfl, hmon⟩
    · simp only [handlerEvents, hs, hclosed, foldl_closes, Option.isSome_some, if_true]
      exact .inr ⟨.inl hh, _, rfl, by rw [ht]; rfl, by rw [ht]; rfl, by rw [ht]; rfl⟩
  · by_cases hm : h = .proxy_monitor
    · subst hm
      -- `proxy_monitor` keeps the socket or closes it
      have hopened : b = .opened := by
        rcases hb.of_handle hh with ⟨-, he⟩ | ⟨ho, -⟩ | ⟨-, he⟩
        · exact absurd rfl he
        · exact ho
        · cases he
      subst hopened
      obtain ⟨p, hp, he⟩ := Res.map_ok.1 hc
      cases he
      rcases proxy_monitor_backend hp with ⟨hclosed, hsome, hmon⟩ | ⟨fd, hclosed, ht⟩
      · simp only [handlerEvents, hclosed, List.drop_length, List.map_nil]
        exact ⟨⟨_, rfl, hsome⟩, _, rfl, hmon⟩
      · simp only [handlerEvents, hclosed, foldl_closes]
        exact .inr ⟨.inr hh, _, rfl, by rw [ht]; rfl, by rw [ht]; rfl, by rw [ht]; rfl⟩
    · exact handler_backed_other hh hf hx hm hb hc

/-- The handler of a held task has run: its request and its phase change, and the socket with them. -/
theorem Backed.replace (h : Backed s backend) {i : Nat} {k : Held} (hr : s.release i = some (k, s')) {q : Phase}
    (hq : q.data = k.phase.data) {thread : Thread} {rq' : Request} {x : Backend} (hb : PhaseBacked x (some rq') q)
    (hlive : (s.sock k.phase.data).isSome)
    (hi : Inv { s' with
      requests := Function.update s'.requests k.phase.data (some rq'), held := ⟨thread, q⟩ :: s'.held } []) :
    Backed { s' with
      requests := Function.update s'.requests k.phase.data (some rq'), held := ⟨thread, q⟩ :: s'.held }
      (Function.update backend k.phase.data x) := by
  obtain ⟨-, hrest, hknown⟩ := h.release hr
  obtain ⟨he, -⟩ := release_phases hr
  rw [he] at hi hrest ⊢
  refine ⟨hi, fun p hp => ?_, fun r hd => ?_, fun r hd => ?_, h.polled⟩
  · rcases mem_hold hp rfl with rfl | hp
    · dsimp only
      rw [hq, Function.update_self, Function.update_self]
      exact hb
    · obtain ⟨hp, hne⟩ := hrest p hp
      dsimp only
      rw [Function.update_of_ne hne, Function.update_of_ne hne]
      exact h.phases p hp
  · have hne : r ≠ k.phase.data := by
      rintro rfl
      rw [h.inv.live.dead _ hd] at hlive
      cases hlive
    rw [Function.update_of_ne hne]
    exact h.gone r hd
  · have hne : r ≠ k.phase.data := fun he => by
      dsimp only at hd
      omega
    rw [Function.update_of_ne hne]
    exact h.fresh r hd

/-- A held task's request is destroyed, with the socket unopened or closed. -/
theorem Backed.destroy (h : Backed s backend) {i : Nat} {k : Held} (hr : s.release i = some (k, s')) {x : Backend}
    (hx : x = .unopened ∨ x = .closed) {t' : Server} (hi : Inv t' [])
    (hreq : t'.requests = Function.update s.requests k.phase.data none) (hd : t'.destroyed = k.phase.data :: s.destroyed)
    (ha : t'.accepted = s.accepted) (hpoll : PolledOk t'.sched.task_queue t'.round)
    (hp : ∀ q ∈ t'.phases, q ∈ s'.phases ∨ (q.data = k.phase.data ∧ PhaseBacked x none q)) :
    Backed t' (Function.update backend k.phase.data x) := by
  obtain ⟨-, hrest, hknown⟩ := h.release hr
  refine ⟨hi, fun q hq => ?_, fun r hr => ?_, fun r hr => ?_, hpoll⟩
  · rw [hreq]
    rcases hp q hq with hq | ⟨hdata, hb⟩
    · obtain ⟨hq, hne⟩ := hrest q hq
      rw [Function.update_of_ne hne, Function.update_of_ne hne]
      exact h.phases q hq
    · rw [hdata, Function.update_self, Function.update_self]
      exact hb
  · by_cases hne : r = k.phase.data
    · rw [hne, Function.update_self]
      exact hx
    · rw [Function.update_of_ne hne]
      rw [hd] at hr
      exact h.gone r ((List.mem_cons.1 hr).resolve_left hne)
  · have hne : r ≠ k.phase.data := fun he => by
      rw [ha] at hr
      omega
    rw [Function.update_of_ne hne]
    exact h.fresh r (ha ▸ hr)


theorem release_get {i : Nat} {k : Held} (hr : s.release i = some (k, s')) : s.held[i]? = some k := by
  obtain ⟨h, hh, he⟩ := Option.map_eq_some_iff.1 hr
  cases he
  exact hh

/-- The request of a running task is over. -/
theorem backed_finish {i : Nat} {thread : Thread} {id : Option Int} {s₁ : Server} (h : Backed s backend)
    (hi : Inv { s₁.finish_request t.data with held := ⟨thread, .returned t none⟩ :: (s₁.finish_request t.data).held } [])
    (hr : s.release i = some (⟨thread, .running t id⟩, s₁)) (hh : t.handle = some .finish_request) :
    Backed { s₁.finish_request t.data with held := ⟨thread, .returned t none⟩ :: (s₁.finish_request t.data).held }
      backend := by
  have hb : TaskBacked (backend t.data) (s.requests t.data) t := (h.release hr).1
  have hx : backend t.data = .unopened ∨ backend t.data = .closed := by
    rcases hb.of_handle hh with ⟨hu, -⟩ | ⟨-, he⟩ | ⟨hc, -⟩
    · exact .inl hu
    · cases he
    · exact .inr hc
  have hs₁ := (release_phases hr).1
  have hd : Backed _ (Function.update backend t.data (backend t.data)) :=
    h.destroy hr hx hi (by rw [hs₁]; rfl) (by rw [hs₁]; rfl) (by rw [hs₁]; rfl) (by rw [hs₁]; exact h.polled) (fun q hq => by
      rcases mem_hold hq rfl with rfl | hq
      · refine .inr ⟨rfl, ?_⟩
        change ReturnBacked (backend t.data) none t none
        rcases hx with hx | hx <;> rw [hx]
        · exact nofun
        · exact .inl rfl
      · exact .inl hq)
  rwa [Function.update_eq_self] at hd

theorem backed_handle {i : Nat} {thread : Thread} {id : Option Int} {s₁ : Server} (h : Backed s backend)
    (hi : Inv s' []) (hr : s.release i = some (⟨thread, .running t id⟩, s₁))
    (hs : s₁.handle cnf sys thread t id = some s') :
    Backed s' (observe backend (backendEvents (.handle i sys) s s')) := by
  have hb : TaskBacked (backend t.data) (s.requests t.data) t := (h.release hr).1
  have hreq : s₁.requests = s.requests := by rw [(release_phases hr).1]
  have hok : PhaseOk s.sock (.running t id) :=
    h.inv.owned.ok _ ((release_phases hr).2.mem_iff.2 List.mem_cons_self)
  have hlive : (s.sock t.data).isSome := by rw [hok.1.1]; rfl
  rcases handle_cases hs with ⟨hh, rfl⟩ | ⟨g, rq, ret, rq', j, hh, hf, hrq, hc, -, rfl⟩
  · have hevents : backendEvents (.handle i sys) s
        { s₁.finish_request t.data with held := ⟨thread, .returned t none⟩ :: (s₁.finish_request t.data).held } = [] := by
      simp [backendEvents, release_get hr, hh, finish_request]
    rw [hevents]
    exact backed_finish h hi hr hh
  · rw [hreq] at hrq
    have hevents : observe backend (backendEvents (.handle i sys) s
        { s₁ with
          requests := Function.update s₁.requests t.data (some rq')
          held := ⟨thread, .returned t (ret.map fun u => ⟨u, j, t.data⟩)⟩ :: s₁.held }) =
        Function.update backend t.data ((handlerEvents sys rq rq' g).foldl Backend.next (backend t.data)) := by
      rw [← observe_map]
      simp only [backendEvents, release_get hr, hh, hrq, Function.update_self]
    rw [hevents]
    rw [hrq] at hb
    have hret := handler_backed (i := j) hh hf hb hc
    exact h.replace hr (data_returned t ret j) hret hlive hi

/-- A request that is destroyed before its handler runs closes a socket that is open. A closed one belongs to the task
for `finish_request`. -/
theorem TaskBacked.freed (hb : TaskBacked b rq t)
    (hf : t.handle = some .finish_request → rq.bind (·.PROXY_HANDLE) = none) {x : Backend}
    (hx : x = ((rq.bind (·.PROXY_HANDLE)).map fun _ => BackendEvent.closes).toList.foldl Backend.next b) :
    x = .unopened ∨ x = .closed := by
  rw [hx]
  cases b with
  | unopened => cases rq.bind (·.PROXY_HANDLE) <;> exact .inl rfl
  | opened =>
    obtain ⟨⟨q, hq, hsome⟩, -⟩ := hb
    obtain ⟨c, hc⟩ := Option.isSome_iff_exists.1 hsome
    rw [Option.mem_def.1 hq, Option.bind_some, hc]
    exact .inr rfl
  | closed =>
    rw [hf hb.1]
    exact .inr rfl
  | misused => exact hb.elim

/-- The task for `finish_request` is the only one that runs with a closed socket, and it is not killed. -/
theorem backed_schedule {i : Nat} {now : Int} {thread : Thread} {s₁ : Server} (h : Backed s backend)
    (ha : FinishesInTime cnf (.schedule i now) s) (hr : s.release i = some (⟨thread, .deploying t⟩, s₁))
    (hi : Inv (s₁.antd_task_schedule cnf now thread t) []) :
    Backed (s₁.antd_task_schedule cnf now thread t)
      (observe backend (backendEvents (.schedule i now) s (s₁.antd_task_schedule cnf now thread t))) := by
  obtain ⟨hb, hrest, -⟩ := h.release hr
  have hb : TaskBacked (backend t.data) (s.requests t.data) t := hb
  have he := (release_phases hr).1
  unfold antd_task_schedule at hi ⊢
  simp only at hi ⊢
  split at hi
  · rename_i hinvalid
    rw [if_pos hinvalid]
    have hevents : backendEvents (.schedule i now) s
        (antd_scheduler_destroy_data { s₁ with sched := s₁.sched.pend (-1) } t.data) =
          (((s.requests t.data).bind (·.PROXY_HANDLE)).map fun _ => BackendEvent.closes).toList.map (t.data, ·) := by
      rw [he]
      simp only [backendEvents, antd_scheduler_destroy_data, finish_request, List.drop_left]
      cases (s.requests t.data).bind (·.PROXY_HANDLE) <;> rfl
    rw [hevents, observe_map]
    exact h.destroy hr (hb.freed (ha thread t (release_get hr) hinvalid) rfl) hi (by rw [he]; rfl) (by rw [he]; rfl)
      (by rw [he]; rfl) (by rw [he]; exact h.polled) fun q hq => .inl hq
  · rename_i hvalid
    rw [if_neg hvalid]
    split at hi
    · rename_i hn
      rw [if_pos hn]
      have hsame : observe backend (backendEvents (.schedule i now) s
          { s₁ with sched := s₁.sched.pend (-1), held := ⟨thread, .running t none⟩ :: s₁.held }) = backend := by
        rw [he]
        simp [backendEvents, observe]
      rw [hsame]
      refine h.held hr hi rfl rfl rfl rfl rfl fun q hq => ?_
      rcases mem_hold hq rfl with rfl | hq
      · exact .inr hb
      · exact .inl hq
    · rename_i hn
      rw [if_neg hn]
      have hsame : observe backend (backendEvents (.schedule i now) s
          { s₁ with sched := s₁.sched.pend (-1), workers_queue := s₁.workers_queue ++ [t] }) = backend := by
        rw [he]
        simp [backendEvents, observe]
      rw [hsame]
      refine h.held hr hi rfl rfl rfl rfl rfl fun q hq => ?_
      rcases List.mem_cons.1 ((enqueue_phases { s₁ with sched := s₁.sched.pend (-1) } t).mem_iff.1 hq) with rfl | hq
      · exact .inr hb
      · exact .inl hq

theorem backed_create {i : Nat} {thread : Thread} {id : Option Int} {s₁ : Server} (h : Backed s backend)
    (hi : Inv s' []) (hr : s.release i = some (⟨thread, .running t id⟩, s₁))
    (hs : s₁.antd_create_task thread t = some s') : Backed s' backend := by
  obtain ⟨hb, -, -⟩ := h.release hr
  obtain ⟨r, hid, hs⟩ := Option.map_eq_some_iff.1 hs
  obtain ⟨rq, -, hr'⟩ := Option.map_eq_some_iff.1 hid
  subst hs hr'
  refine h.held hr hi rfl rfl rfl rfl rfl fun q hq => ?_
  rcases mem_hold hq rfl with rfl | hq
  · exact .inr hb
  · exact .inl hq

theorem backed_add {i : Nat} {thread : Thread} {s₁ : Server} (h : Backed s backend)
    (hr : s.release i = some (⟨thread, .adding t⟩, s₁)) (hi : Inv (s₁.antd_scheduler_add_task t) []) :
    Backed (s₁.antd_scheduler_add_task t) backend := by
  obtain ⟨hb, hrest, -⟩ := h.release hr
  have hi₁ := release_inv h.inv hr
  obtain ⟨hfree, hadd⟩ := add_eq hi₁
  rw [hadd] at hi ⊢
  have he := (release_phases hr).1
  refine h.frame hi (by rw [he]) (by rw [he]) (by rw [he]) (fun q hq => ?_) ?_
  · rcases List.mem_cons.1 ((insert_phases hi₁.queue.ordered hfree).mem_iff.1 hq) with rfl | hq
    · exact .inr hb
    · exact .inl (hrest q hq).1
  · -- the queued tasks are still found under their ids
    have hp := h.polled
    have ho := h.inv.queue.ordered
    rw [he] at hfree ⊢
    dsimp only [Sched.insert, Sched.pend]
    cases hround : s.round with
    | deploying l => trivial
    | polling l poll_list =>
      rw [hround] at hp
      intro e hm
      obtain ⟨u, hu, hevt⟩ := hp e hm
      have hne : e.2 ≠ t.id := fun heq => by
        rw [heq] at hu
        cases hfree.symm.trans hu
      exact ⟨u, by rwa [find_insert ho, if_neg hne], hevt⟩

/-! ## Executing -/

/-- The task that goes on when the socket has been closed is the one for `finish_request`. -/
theorem execute_closed {u : OwnedTask} {next : Task} (ht : t.callback = [.finish_request]) (hu : u.handle = none)
    (hc : u.callback = []) (hn : AntHttp.antd_execute_task t.toTask (some u.toTask) = some next) :
    next.handle = some .finish_request ∧ next.events = u.events := by
  simp only [AntHttp.antd_execute_task, hu, hc, ht, List.nil_append, Option.isSome_none, Bool.false_eq_true, if_false,
    execute_callback, Option.some.injEq] at hn
  rw [← hn]
  exact ⟨rfl, rfl⟩

/-- The task that goes on after its handler has run. -/
theorem ReturnBacked.next (hok : PhaseOk s.sock (.returned t ret)) (hb : ReturnBacked b (s.requests t.data) t ret)
    {next : Task} (hn : AntHttp.antd_execute_task t.toTask (ret.map (·.toTask)) = some next) (id : Int) (data : Nat) :
    TaskBacked b (s.requests t.data) ⟨next, id, data⟩ := by
  rcases hok with ⟨-, hcb, rfl, -⟩ | ⟨ht, g, hh, hf, hret⟩
  · simp [AntHttp.antd_execute_task, execute_callback, hcb] at hn
  have hflow : ∀ u ∈ ret.map (·.toTask), Flow g u.handle u.callback := by
    rintro u hu
    obtain ⟨v, hv, rfl⟩ := Option.map_eq_some_iff.1 hu
    exact (hret v hv).2.2
  obtain ⟨next', g', hn', hg, -, hor⟩ := antd_execute_task_shape hf (ht.2 g hh) hflow
  rw [hn] at hn'
  cases hn'
  cases b with
  | unopened =>
    intro hmon
    have hmon : next.handle = some .proxy_monitor := hmon
    rw [hg] at hmon
    cases hmon
    rcases hor with ⟨u, hu, hug⟩ | ⟨-, hlast, -⟩
    · obtain ⟨v, hv, rfl⟩ := Option.map_eq_some_iff.1 hu
      exact hb v hv hug
    · exact hlast.resolve_left fun h => by cases h
  | opened =>
    obtain ⟨hsome, u, rfl, hu⟩ := hb
    refine ⟨hsome, .inl ?_⟩
    rcases hor with ⟨v, hv, hvg⟩ | ⟨hnone, -⟩
    · cases hv
      exact hg.trans (hvg.symm.trans hu)
    · cases (hnone _ rfl).symm.trans hu
  | closed =>
    rcases hb with hnone | ⟨hproxy, u, rfl, hu, hc, hev⟩
    · have hlive := ht.1
      rw [sock, socks, hnone] at hlive
      cases hlive
    · have hcb : t.callback = [.finish_request] := by
        rcases hproxy with hp | hp <;> exact ht.2 _ hp
      obtain ⟨h1, h2⟩ := execute_closed hcb hu hc hn
      exact ⟨h1, h2.trans hev⟩
  | misused => exact hb.elim

theorem backed_execute {i : Nat} {thread : Thread} {s₁ : Server} (h : Backed s backend)
    (hr : s.release i = some (⟨thread, .returned t ret⟩, s₁)) (hi : Inv (s₁.antd_execute_task thread t ret) []) :
    Backed (s₁.antd_execute_task thread t ret) backend := by
  obtain ⟨hb, -, -⟩ := h.release hr
  have hok : PhaseOk s.sock (.returned t ret) :=
    h.inv.owned.ok _ ((release_phases hr).2.mem_iff.2 List.mem_cons_self)
  have hdata := hok.returned_data
  have hb : ReturnBacked (backend (Phase.returned t ret).data) (s.requests (Phase.returned t ret).data) t ret := hb
  rw [hdata] at hb
  unfold antd_execute_task at hi ⊢
  cases hn : AntHttp.antd_execute_task t.toTask (ret.map (·.toTask)) with
  | none =>
    rw [hn] at hi
    exact h.held hr hi rfl rfl rfl rfl rfl fun q hq => .inl hq
  | some next =>
    rw [hn] at hi
    refine h.held hr hi rfl rfl rfl rfl rfl fun q hq => ?_
    rcases mem_hold hq rfl with rfl | hq
    · right
      have hnext : (Phase.adding ⟨next, (ret.getD t).id, (ret.getD t).data⟩).data = t.data := hdata
      rw [hnext]
      exact hb.next hok hn _ _
    · exact .inl hq

/-! ## Every run -/

theorem backed_step {a : Action} (h : Backed s backend) (ha : a.Assumed s) (hf : FinishesInTime cnf a s)
    (hs : step cnf a s = some s') : Backed s' (observe backend (backendEvents a s s')) := by
  have hi := inv_step h.inv ha hs
  cases step_cases hs with
  | accept hs => exact backed_accept h hi hs
  | collect hs => exact backed_collect h hi hs
  | poll hs => exact backed_poll h hi hs
  | deploy hs => exact backed_deploy h hi hs
  | work hs => exact backed_work h hi hs
  | schedule hr => exact backed_schedule h hf hr hi
  | create hr hs => exact backed_create h hi hr hs
  | handle hr hs => exact backed_handle h hi hr hs
  | execute hr => exact backed_execute h hr hi
  | add hr => exact backed_add h hr hi

/-- What is assumed of the surroundings, and that no request with a `PROXY_HANDLE` is killed as it finishes. -/
def Unhurried (cnf : Config) (a : Action) (w : Watched) : Prop := a.Assumed w.server ∧ FinishesInTime cnf a w.server

/-- In every interleaving the backend's socket is closed once and not used after that, as long as no
task for `finish_request` of a proxied request is found out of date. -/
theorem closed_once_of_inTime {w : Watched} (h : Run (Watched.step cnf) (Unhurried cnf) (· = Watched.start) w) :
    ClosedOnce w := by
  have hb : Backed w.server w.backend := by
    refine h.inv (fun w => Backed w.server w.backend) (by rintro _ rfl; exact backed_start) ?_
    intro a w w' hi ha hs
    obtain ⟨s', hs', rfl⟩ := Option.map_eq_some_iff.1 hs
    exact backed_step hi ha.1 ha.2 hs'
  exact hb.closedOnce


/-- A proxied request is accepted; the backend takes what it is sent. -/
def proxied : Action := .accept (samplePort none []) 4 0 (atOnce (str "GET http://h:1/ HTTP/1.1\r\n\r\n")) [] true

def backendSys : Sys :=
  { sampleSys [] with antd_request_socket := fun _ _ => some (9, [], List.replicate 8 (.room 1023 0)) }

/-- Four tasks for the request, the last one that of `proxy_monitor`. -/
def relaying : List Action := .add 0 :: turns backendSys 4

theorem relaying_assumed : ∀ a ∈ relaying, ∀ s, a.Assumed s := by
  intro a ha s
  rcases List.mem_cons.1 ha with rfl | ha
  · trivial
  · exact turns_assumed (fun _ _ _ => rfl) a ha s

theorem proxied_assumed : proxied.Assumed start := fun _ h => by cases h

/-- No task for `finish_request` is out of the queue. -/
def early (w : Watched) : Bool := w.server.held.all fun h => match h.phase with
  | .deploying t => t.handle ≠ some .finish_request
  | _ => true

/-- The relay breaks and `finish_request` is about to be scheduled. -/
theorem closed_once_of_inTime_relayed : ∃ w : Watched, w.backend 0 = .closed ∧ ClosedOnce w := by
  have hrun : (((Watched.step (sampleConfig none []) proxied .start).bind
      (Runs.runAll (Runs.guarded early (Watched.step (sampleConfig none []))) relaying)).any
        fun w => w.backend 0 = .closed) = true := by decide +kernel
  obtain ⟨w, hw, hc⟩ := Runs.ends_in hrun
  obtain ⟨w₁, haccept, hw⟩ := Option.bind_eq_some_iff.1 hw
  have hok : ∀ a ∈ relaying, ∀ w, early w = true → Unhurried (sampleConfig none []) a w := by
    refine fun a ha w hw => ⟨relaying_assumed a ha w.server, ?_⟩
    rw [early] at hw
    unfold FinishesInTime
    split
    · intro thread task hget _ hfinish
      have hall := List.all_eq_true.1 hw _ (List.mem_of_getElem? hget)
      exact absurd hfinish (of_decide_eq_true hall)
    · trivial
  have h0 : Runs.Run (Watched.step (sampleConfig none [])) (Unhurried (sampleConfig none [])) (· = .start) w₁ :=
    .step (.init rfl) ⟨proxied_assumed, trivial⟩ haccept
  exact ⟨w, hc, closed_once_of_inTime (Runs.run_guarded hok h0 hw)⟩

/-- `proxy_monitor` has closed the socket, and then `finish_request` is found out of date. -/
theorem closed_twice : ¬ ∀ (cnf : Config) (w : Watched),
    Run (Watched.step cnf) (fun a w => a.Assumed w.server) (· = .start) w → ClosedOnce w := by
  intro hall
  have hrun : (((Watched.step (sampleConfig none []) proxied .start).bind
      (Runs.runAll (Watched.step (sampleConfig none [])) (relaying ++ dispatching 31))).any
        fun w => w.backend 0 = .misused) = true := by decide +kernel
  obtain ⟨w, hw, hc⟩ := Runs.ends_in hrun
  obtain ⟨w₁, haccept, hw⟩ := Option.bind_eq_some_iff.1 hw
  have hok : ∀ a ∈ relaying ++ dispatching 31, ∀ w : Watched, a.Assumed w.server := by
    intro a ha w
    rcases List.mem_append.1 ha with ha | ha
    · exact relaying_assumed a ha w.server
    · exact dispatching_assumed a ha w.server
  exact (hall _ w (Runs.run_runAll hok (.step (.init rfl) proxied_assumed haccept) hw) 0).1 hc

end Server

end AntHttp
