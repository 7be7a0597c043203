import AntHttp.Sample
import AntHttp.Scheduler
import AntHttp.Steps
import Mathlib.Data.List.Nodup
import Mathlib.Data.List.Perm.Basic
/-!
# Every request has one owner

The tasks that are queued, deployed, in the hands of a worker or about to be
queued are seen as one list of phases; a task that rests in a queue counts as
`adding` or `deploying`. Each step takes one phase out of the list and puts at
most one back, for the same request. The ids in the queue are the descriptors
of live requests, so no insertion meets a task of another request.
-/

namespace AntHttp

open Bst CString

/-! ## Phases -/

section Phases

variable {sock : Nat → Option Int} {r : Nat}

/-- The task's request is live, its id is the request's descriptor, and its
callbacks end with the end of the request. -/
def TaskOk (sock : Nat → Option Int) (t : OwnedTask) : Prop :=
  sock t.data = some t.id ∧ ∀ h, t.handle = some h → Shape h t.callback

/-- `finish_request` has run for it, and nothing else will. -/
def Finished (sock : Nat → Option Int) (t : OwnedTask) (ret : Option OwnedTask) : Prop :=
  t.handle = some .finish_request ∧ t.callback = [] ∧ ret = none ∧ sock t.data = none

/-- The handler of `t` was another one, and has returned `ret`. -/
def Continues (t : OwnedTask) (ret : Option OwnedTask) : Prop :=
  ∃ h, t.handle = some h ∧ h ≠ .finish_request ∧
    ∀ u ∈ ret, u.id = t.id ∧ u.data = t.data ∧ Flow h u.handle u.callback

def PhaseOk (sock : Nat → Option Int) : Phase → Prop
  | .adding t | .deploying t => TaskOk sock t
  | .running t id => TaskOk sock t ∧ ∀ i ∈ id, i = t.id
  | .returned t ret => Finished sock t ret ∨ (TaskOk sock t ∧ Continues t ret)

/-- The request that a phase is about. -/
def Phase.data (p : Phase) : Nat := p.owner.data

/-- A task whose handler has returned is about the same request as the task it returned. -/
theorem PhaseOk.returned_data {t : OwnedTask} {ret : Option OwnedTask} (h : PhaseOk sock (.returned t ret)) :
    (Phase.returned t ret).data = t.data := by
  cases ret with
  | none => rfl
  | some u =>
    rcases h with ⟨-, -, hr, -⟩ | ⟨-, g, -, -, hu⟩
    · cases hr
    · exact (hu u rfl).2.1

/-- Whether a phase is sound depends on its own request. -/
theorem PhaseOk.congr {sock' : Nat → Option Int} {p : Phase} (h : PhaseOk sock p) (hs : sock' p.data = sock p.data) :
    PhaseOk sock' p := by
  cases p with
  | adding t | deploying t => exact ⟨hs.trans h.1, h.2⟩
  | running t id => exact ⟨⟨hs.trans h.1.1, h.1.2⟩, h.2⟩
  | returned t ret =>
    rw [h.returned_data] at hs
    rcases h with ⟨hh, hc, hr, hd⟩ | ⟨ht, hc⟩
    · exact .inl ⟨hh, hc, hr, hs.trans hd⟩
    · exact .inr ⟨⟨hs.trans ht.1, ht.2⟩, hc⟩

/-- Every live request is the data of exactly one phase; `n` requests have been made. -/
structure Owned (sock : Nat → Option Int) (n : Nat) (ps : List Phase) : Prop where
  ok : ∀ p ∈ ps, PhaseOk sock p
  known : ∀ p ∈ ps, p.data < n
  once : (ps.map (·.data)).Nodup
  owned : ∀ r, (sock r).isSome → r ∈ ps.map (·.data)

variable {n : Nat} {p q : Phase} {ps qs : List Phase}

theorem Owned.perm (h : Owned sock n ps) (hp : ps.Perm qs) : Owned sock n qs where
  ok p hm := h.ok p (hp.mem_iff.2 hm)
  known p hm := h.known p (hp.mem_iff.2 hm)
  once := (hp.map _).nodup_iff.1 h.once
  owned r hr := (hp.map _).mem_iff.1 (h.owned r hr)

theorem Owned.ne (h : Owned sock n (p :: ps)) (hq : q ∈ ps) : q.data ≠ p.data := by
  have := (List.nodup_cons.1 (List.map_cons ▸ h.once)).1
  rintro hd
  exact this (hd ▸ List.mem_map_of_mem hq)

/-- The task goes on, or another one takes its request over. -/
theorem Owned.replace (h : Owned sock n (p :: ps)) (hq : PhaseOk sock q) (hd : q.data = p.data) :
    Owned sock n (q :: ps) where
  ok := List.forall_mem_cons.2 ⟨hq, (List.forall_mem_cons.1 h.ok).2⟩
  known := List.forall_mem_cons.2 ⟨hd ▸ (List.forall_mem_cons.1 h.known).1, (List.forall_mem_cons.1 h.known).2⟩
  once := by simpa only [List.map_cons, hd] using h.once
  owned r hr := by simpa only [List.map_cons, hd] using h.owned r hr

/-- Its request is gone, and so is the task. -/
theorem Owned.kill (h : Owned sock n (p :: ps)) : Owned (Function.update sock p.data none) n ps where
  ok q hq := (h.ok q (List.mem_cons_of_mem _ hq)).congr (Function.update_of_ne (h.ne hq) ..)
  known := (List.forall_mem_cons.1 h.known).2
  once := (List.nodup_cons.1 (List.map_cons ▸ h.once)).2
  owned r hr := by
    have hne : r ≠ p.data := fun he => by rw [he, Function.update_self] at hr; cases hr
    rw [Function.update_of_ne hne] at hr
    have := h.owned r hr
    rw [List.map_cons] at this
    exact (List.mem_cons.1 this).resolve_left hne

/-- Its request is gone, and the task is about to go. -/
theorem Owned.finish (h : Owned sock n (p :: ps)) (hq : PhaseOk (Function.update sock p.data none) q)
    (hd : q.data = p.data) : Owned (Function.update sock p.data none) n (q :: ps) where
  ok := List.forall_mem_cons.2 ⟨hq, h.kill.ok⟩
  known := List.forall_mem_cons.2 ⟨hd ▸ (List.forall_mem_cons.1 h.known).1, h.kill.known⟩
  once := by simpa only [List.map_cons, hd] using h.once
  owned r hr := List.mem_cons_of_mem _ (h.kill.owned r hr)

/-- Its request was gone already. -/
theorem Owned.drop (h : Owned sock n (p :: ps)) (hp : sock p.data = none) : Owned sock n ps := by
  have := h.kill
  rwa [← hp, Function.update_eq_self] at this

/-- The next request and its task. -/
theorem Owned.new {i : Int} (h : Owned sock n ps) (hd : p.data = n)
    (hp : PhaseOk (Function.update sock n (some i)) p) : Owned (Function.update sock n (some i)) (n + 1) (p :: ps) where
  ok := List.forall_mem_cons.2 ⟨hp, fun q hq => (h.ok q hq).congr (Function.update_of_ne (h.known q hq).ne ..)⟩
  known := List.forall_mem_cons.2 ⟨by omega, fun q hq => (h.known q hq).trans (Nat.lt_succ_self n)⟩
  once := by
    rw [List.map_cons, hd]
    refine List.nodup_cons.2 ⟨fun hm => ?_, h.once⟩
    obtain ⟨q, hq, he⟩ := List.mem_map.1 hm
    exact (h.known q hq).ne he
  owned r hr := by
    rw [List.map_cons, List.mem_cons, hd]
    by_cases he : r = n
    · exact .inl he
    · rw [Function.update_of_ne he] at hr; exact .inr (h.owned r hr)

/-! ## Requests -/

/-- Different live requests hold different descriptors, and a request is
destroyed once. -/
structure LiveOk (sock : Nat → Option Int) (accepted : Nat) (destroyed : List Nat) : Prop where
  distinct : ∀ r r' i, sock r = some i → sock r' = some i → r = r'
  nonzero : ∀ r i, sock r = some i → i ≠ 0
  known : ∀ r, r < accepted ↔ (sock r).isSome ∨ r ∈ destroyed
  dead : ∀ r ∈ destroyed, sock r = none
  once : destroyed.Nodup

theorem LiveOk.fresh {accepted : Nat} {destroyed : List Nat} (h : LiveOk sock accepted destroyed) :
    sock accepted = none ∧ accepted ∉ destroyed := by
  have hk := mt (h.known accepted).2 (lt_irrefl _)
  push Not at hk
  exact ⟨Option.not_isSome_iff_eq_none.1 (by simpa using hk.1), hk.2⟩

theorem LiveOk.new {accepted : Nat} {destroyed : List Nat} {i : Int} (h : LiveOk sock accepted destroyed)
    (hi : i ≠ 0) (hn : ∀ r, sock r ≠ some i) :
    LiveOk (Function.update sock accepted (some i)) (accepted + 1) destroyed where
  distinct r r' j hr hr' := by
    simp only [Function.update_apply] at hr hr'
    split at hr <;> split at hr'
    · simp_all
    · cases hr; exact absurd hr' (hn r')
    · cases hr'; exact absurd hr (hn r)
    · exact h.distinct r r' j hr hr'
  nonzero r j hr := by
    simp only [Function.update_apply] at hr
    split at hr
    · cases hr; exact hi
    · exact h.nonzero r j hr
  known r := by
    have hk := h.known r
    simp only [Function.update_apply]
    split
    · simp_all
    · rename_i hne
      rw [← hk]
      omega
  dead r hr := by
    have hne : r ≠ accepted := fun he => h.fresh.2 (he ▸ hr)
    rw [Function.update_of_ne hne]
    exact h.dead r hr
  once := h.once

theorem LiveOk.destroy {accepted : Nat} {destroyed : List Nat} (h : LiveOk sock accepted destroyed)
    (hr : (sock r).isSome) : LiveOk (Function.update sock r none) accepted (r :: destroyed) where
  distinct q q' j hq hq' := by
    simp only [Function.update_apply] at hq hq'
    split at hq <;> split at hq'
    · simp_all
    · cases hq
    · cases hq'
    · exact h.distinct q q' j hq hq'
  nonzero q j hq := by
    simp only [Function.update_apply] at hq
    split at hq
    · cases hq
    · exact h.nonzero q j hq
  known q := by
    rw [h.known q, List.mem_cons]
    by_cases hq : q = r
    · subst hq; simp [hr]
    · rw [Function.update_of_ne hq]; simp [hq]
  dead q hq := by
    by_cases he : q = r
    · rw [he, Function.update_self]
    · rw [Function.update_of_ne he]
      exact h.dead q ((List.mem_cons.1 hq).resolve_left he)
  once := by
    refine List.nodup_cons.2 ⟨fun hm => ?_, h.once⟩
    rw [h.dead r hm] at hr
    cases hr

end Phases

/-! ## The queue and the round of the scheduler's thread -/

/-- The tasks of the list are those of the queue. -/
structure Scheduled (queue scheduled_list : Node OwnedTask) : Prop where
  keyed : Keyed (·.id) scheduled_list
  found : ∀ e ∈ toList scheduled_list, bst_find queue e.1 = some e.2

def RoundOk (queue : Node OwnedTask) : Round → Prop
  | .polling scheduled_list _ => Scheduled queue scheduled_list
  | .deploying l => Chosen (·.id) queue l

structure QueueOk (queue : Node OwnedTask) (round : Round) : Prop extends Keyed (·.id) queue where
  round : RoundOk queue round

section Queue

variable {queue scheduled_list : Node OwnedTask} {round : Round} {t : OwnedTask} {k : Int}

/-- A task of the queue is scheduled. -/
theorem Scheduled.insert (h : Scheduled queue scheduled_list) (ht : bst_find queue t.id = some t) :
    Scheduled queue (bst_insert scheduled_list t.id t) where
  keyed := h.keyed.insert t
  found e he := by
    rw [toList_insert h.keyed.ordered] at he
    rcases Assoc.mem_put he with rfl | he
    · exact ht
    · exact h.found e he

/-- A task of the queue changes in place. -/
theorem Scheduled.change (h : Scheduled queue scheduled_list) (ho : Ordered queue) (t : OwnedTask) :
    Scheduled (bst_insert queue t.id t) (bst_insert scheduled_list t.id t) where
  keyed := h.keyed.insert t
  found e he := by
    rw [find_insert ho]
    split
    · rename_i heq
      -- the listing has one entry for the key
      have hf := (find_mem (h.keyed.insert t).ordered).2 he
      rw [find_insert h.keyed.ordered, if_pos heq] at hf
      exact hf
    · rename_i hne
      rw [toList_insert h.keyed.ordered] at he
      rcases Assoc.mem_put he with rfl | he
      · exact absurd rfl hne
      · exact h.found e he

/-- The scheduled tasks are deployed in the order of the list. -/
theorem Scheduled.deploying (h : Scheduled queue scheduled_list) :
    RoundOk queue (.deploying ((toList scheduled_list).map Prod.snd)) where
  nodup := h.keyed.nodup
  found t ht := by
    obtain ⟨e, he, rfl⟩ := List.mem_map.1 ht
    rw [h.keyed.keyed e he]
    exact h.found e he

/-- A task joins the queue under a new id. -/
theorem QueueOk.add (h : QueueOk queue round) (hk : bst_find queue t.id = none) :
    QueueOk (bst_insert queue t.id t) round where
  toKeyed := h.toKeyed.insert t
  round := by
    have hr := h.round
    cases round with
    | polling l evts =>
      refine ⟨hr.keyed, fun e he => ?_⟩
      have hf := hr.found e he
      have hne : e.1 ≠ t.id := fun h => by rw [h, hk] at hf; cases hf
      rw [find_insert h.ordered, if_neg hne, hf]
    | deploying l => exact Chosen.insert hr h.ordered hk t

theorem QueueOk.deploy {rest : List OwnedTask} (h : QueueOk queue (.deploying (t :: rest))) :
    QueueOk (bst_delete queue t.id) (.deploying rest) :=
  ⟨h.toKeyed.delete t.id, Chosen.delete h.round h.ordered⟩

/-- Collecting schedules tasks of the queue. -/
theorem collect_scheduled {valid : OwnedTask → Bool} {elapsed : TaskEvent → Bool}
    {acc : Node OwnedTask × List (TaskEvent × Int)} (h : Scheduled queue acc.1) (ts : List OwnedTask)
    (ht : ∀ t ∈ ts, bst_find queue t.id = some t) :
    Scheduled queue (ts.foldl (Server.task_event_collect valid elapsed) acc).1 := by
  induction ts generalizing acc with
  | nil => exact h
  | cons t ts ih =>
    refine ih ?_ fun u hu => ht u (List.mem_cons_of_mem _ hu)
    have ht := ht t List.mem_cons_self
    unfold Server.task_event_collect
    split
    · exact h.insert ht
    · generalize t.events = evts
      induction evts generalizing acc with
      | nil => exact h
      | cons evt evts ih =>
        refine ih ?_
        dsimp only
        split
        · exact h.insert ht
        · split
          · split
            · exact h.insert ht
            · exact h
          · exact h

end Queue

/-! ## The server -/

namespace Server

/-- The descriptor of a live request. -/
def socks (requests : Nat → Option Request) (r : Nat) : Option Int := (requests r).map (·.client.sock)

abbrev sock (s : Server) : Nat → Option Int := socks s.requests

def phases (s : Server) : List Phase :=
  (toList s.sched.task_queue).map (fun e => .adding e.2) ++ s.workers_queue.map .deploying ++ s.held.map (·.phase)

/-- What holds in every state, with the phases `hand` taken out of it. -/
structure Inv (s : Server) (hand : List Phase) : Prop where
  queue : QueueOk s.sched.task_queue s.round
  live : LiveOk s.sock s.accepted s.destroyed
  owned : Owned s.sock s.accepted (hand ++ s.phases)

variable {cnf : Config} {sys : Sys} {s s' : Server} {t : OwnedTask} {p : Phase} {hand : List Phase}

/-- The id of a task that is in no queue is free. -/
theorem Inv.free {i : Int} (h : Inv s (p :: hand)) (hp : s.sock p.data = some i) :
    bst_find s.sched.task_queue i = none := by
  cases hf : bst_find s.sched.task_queue i with
  | none => rfl
  | some u =>
    have hm := (find_mem h.queue.ordered).1 hf
    have hq : Phase.adding u ∈ hand ++ s.phases := by
      simp only [phases, List.mem_append, List.mem_map]
      exact .inr (.inl (.inl ⟨(i, u), hm, rfl⟩))
    have hu : TaskOk s.sock u := h.owned.ok _ (List.mem_cons_of_mem _ hq)
    have hid : u.id = i := h.queue.keyed _ hm
    exact absurd (h.live.distinct _ _ i (hid ▸ hu.1) hp) (h.owned.ne hq)

/-! ### What a step does to the phases -/

theorem release_phases {i : Nat} {h : Held} (hr : s.release i = some (h, s')) :
    s' = { s with held := s'.held } ∧ s.phases.Perm (h.phase :: s'.phases) := by
  obtain ⟨h', hh, he⟩ := Option.map_eq_some_iff.1 hr
  cases he
  obtain ⟨hlt, hget⟩ := List.getElem?_eq_some_iff.1 hh
  have hperm : s.held.Perm (h :: s.held.eraseIdx i) := by
    rw [← hget]; exact (List.getElem_cons_eraseIdx_perm hlt).symm
  have hmap := (hperm.map (·.phase)).append_left
    ((toList s.sched.task_queue).map (fun e => Phase.adding e.2) ++ s.workers_queue.map .deploying)
  exact ⟨rfl, hmap.trans List.perm_middle⟩

theorem hold_phases (s : Server) (thread : Thread) (p : Phase) :
    ({ s with held := ⟨thread, p⟩ :: s.held } : Server).phases.Perm (p :: s.phases) := by
  simp only [phases, List.map_cons]
  exact List.perm_middle

/-- A task joins the queue under a free id. -/
theorem insert_phases (ho : Ordered s.sched.task_queue) (hf : bst_find s.sched.task_queue t.id = none) :
    ({ s with sched := (s.sched.insert t.id t).pend 1 } : Server).phases.Perm (.adding t :: s.phases) := by
  have hperm := (insert_perm ho t hf).map fun e => Phase.adding e.2
  simp only [phases, ← List.cons_append]
  exact (hperm.append_right _).append_right _

/-- A queued task leaves the queue. -/
theorem delete_phases (round : Round) (ho : Ordered s.sched.task_queue) (hf : bst_find s.sched.task_queue t.id = some t) :
    s.phases.Perm (.adding t :: ({ s with sched := s.sched.delete t.id, round := round } : Server).phases) := by
  have hperm := (delete_perm ho hf).map fun e => Phase.adding e.2
  simp only [phases, ← List.cons_append]
  exact (hperm.append_right _).append_right _

theorem dequeue_phases {rest : List OwnedTask} (hw : s.workers_queue = t :: rest) :
    s.phases.Perm (.deploying t :: ({ s with workers_queue := rest } : Server).phases) := by
  simp only [phases, hw, List.map_cons, List.cons_append, List.append_assoc]
  exact List.perm_middle

theorem enqueue_phases (s : Server) (t : OwnedTask) :
    ({ s with workers_queue := s.workers_queue ++ [t] } : Server).phases.Perm (.deploying t :: s.phases) := by
  simp only [phases, List.map_append, List.map_cons, List.map_nil, ← List.append_assoc]
  rw [List.append_assoc (_ ++ _) [_]]
  exact List.perm_middle

theorem release_inv {i : Nat} {h : Held} (hi : Inv s []) (hr : s.release i = some (h, s')) : Inv s' [h.phase] := by
  obtain ⟨he, hperm⟩ := release_phases hr
  have hown := hi.owned.perm hperm
  rw [he] at hown ⊢
  exact ⟨hi.queue, hi.live, hown⟩

/-- A phase is put back into the server. -/
theorem Inv.hold {thread : Thread} (h : Inv s (p :: hand)) :
    Inv { s with held := ⟨thread, p⟩ :: s.held } hand where
  queue := h.queue
  live := h.live
  owned := h.owned.perm (List.perm_middle.symm.trans ((hold_phases s thread p).symm.append_left hand))

/-- Another phase of the same request. -/
theorem Inv.replace {q : Phase} (h : Inv s (p :: hand)) (hq : PhaseOk s.sock q) (hd : q.data = p.data) :
    Inv s (q :: hand) :=
  ⟨h.queue, h.live, h.owned.replace hq hd⟩

theorem Inv.taskOk (h : Inv s (.adding t :: hand)) : TaskOk s.sock t := h.owned.ok _ List.mem_cons_self

/-! ### Putting a task away -/

/-- A free id that is not zero is kept. -/
theorem next_id_free {α : Type} {sched : Sched α} {input : Int} (h0 : input ≠ 0)
    (hf : bst_find sched.task_queue input = none) : (antd_scheduler_next_id sched input).1 = input := by
  unfold antd_scheduler_next_id
  simp only [if_neg h0]
  unfold nextFree
  rw [hf]
  rfl

/-- The id of a task that is added is free, and is kept. -/
theorem add_eq (h : Inv s [.adding t]) : bst_find s.sched.task_queue t.id = none ∧
    s.antd_scheduler_add_task t = { s with sched := (s.sched.insert t.id t).pend 1 } := by
  have ht : TaskOk s.sock t := h.owned.ok _ List.mem_cons_self
  have h0 := h.live.nonzero _ _ ht.1
  refine ⟨h.free ht.1, ?_⟩
  unfold antd_scheduler_add_task
  rw [if_neg h0]

theorem add_inv (h : Inv s [.adding t]) : Inv (s.antd_scheduler_add_task t) [] := by
  obtain ⟨hfree, hadd⟩ := add_eq h
  rw [hadd]
  exact ⟨h.queue.add hfree, h.live, h.owned.perm (insert_phases h.queue.ordered hfree).symm⟩

theorem deploy_inv (h : Inv s []) (hs : s.antd_deploy_task = some s') : Inv s' [] := by
  unfold antd_deploy_task at hs
  split at hs
  · rename_i t rest hr
    split at hs
    · cases hs
    cases hs
    have hq := h.queue
    rw [hr] at hq
    have hf := hq.round.found t List.mem_cons_self
    have hd : Inv { s with sched := s.sched.delete t.id, round := .deploying rest } [.adding t] :=
      ⟨hq.deploy, h.live, h.owned.perm (delete_phases _ hq.ordered hf)⟩
    exact (hd.replace (q := .deploying t) hd.taskOk rfl).hold
  · cases hs

theorem work_inv (h : Inv s []) (hs : s.work cnf = some s') : Inv s' [] := by
  unfold work at hs
  split at hs
  · rename_i t rest hw
    split at hs
    · cases hs
      have hd : Inv { s with workers_queue := rest } [.deploying t] :=
        ⟨h.queue, h.live, h.owned.perm (dequeue_phases hw)⟩
      have ht : TaskOk s.sock t := hd.owned.ok _ List.mem_cons_self
      exact (hd.replace (q := .running t none) ⟨ht, nofun⟩ rfl).hold
    · cases hs
  · cases hs

/-! ### Running a task -/

/-- The handler runs on, with another id for the task it will return. -/
theorem create_inv {thread : Thread} {id : Option Int} (h : Inv s [.running t id])
    (hs : s.antd_create_task thread t = some s') : Inv s' [] := by
  have hp : PhaseOk s.sock (.running t id) := h.owned.ok _ List.mem_cons_self
  unfold antd_create_task antd_task_data_id at hs
  rw [Option.map_map] at hs
  obtain ⟨rq, hrq, he⟩ := Option.map_eq_some_iff.1 hs
  cases he
  have hsock : s.sock t.data = some rq.client.sock := by rw [sock, socks, hrq]; rfl
  have hid : rq.client.sock = t.id := Option.some.inj (hsock.symm.trans hp.1.1)
  have hfree := next_id_free (h.live.nonzero _ _ hsock) (h.free hsock)
  have hq := h.replace (q := .running t (some rq.client.sock)) ⟨hp.1, by simp [hid]⟩ rfl
  rw [← hfree] at hq
  have hold : Inv { s with held := ⟨thread, .running t (some (antd_scheduler_next_id s.sched rq.client.sock).1)⟩ :: s.held } [] :=
    hq.hold
  exact ⟨hold.queue, hold.live, hold.owned⟩

/-- Everything but the descriptor of a request may change. -/
theorem sock_update {rq rq' : Request} (hr : s.requests t.data = some rq) (hk : rq'.client.sock = rq.client.sock) :
    socks (Function.update s.requests t.data (some rq')) = s.sock := by
  funext r
  simp only [socks, Function.update_apply]
  split
  · rename_i he; rw [he, hr, Option.map_some, Option.map_some, hk]
  · rfl

theorem Inv.update {rq rq' : Request} (h : Inv s hand) (hr : s.requests t.data = some rq)
    (hk : rq'.client.sock = rq.client.sock) :
    Inv { s with requests := Function.update s.requests t.data (some rq') } hand where
  queue := h.queue
  live := by rw [sock, sock_update hr hk]; exact h.live
  owned := by rw [sock, sock_update hr hk]; exact h.owned

theorem sock_finish (r : Nat) : (s.finish_request r).sock = Function.update s.sock r none := by
  funext r'
  simp only [socks, finish_request, Function.update_apply]
  split <;> rfl

/-- What a server handler returns, or a plugin that leaves the descriptor alone. -/
theorem callHandler_continues {h : Handler} {rq : Request} {ret : Option Task} {left : Option Request}
    (hf : h ≠ .finish_request) (hp : ∀ name fn rq, (sys.plugin name fn rq).rq.client.sock = rq.client.sock)
    (hc : callHandler sys cnf rq h = .ok (ret, left)) :
    (∀ u ∈ ret, Flow h u.handle u.callback) ∧ ∃ rq', left = some rq' ∧ rq'.client.sock = rq.client.sock := by
  by_cases hpl : h.IsPlugin
  · refine ⟨(callHandler_plugin hpl hc).1, ?_⟩
    cases h with
    | plugin name fn => cases hc; exact ⟨_, rfl, hp name fn rq⟩
    | _ => cases hpl
  · obtain ⟨u, rq', rfl, rfl, hs, -⟩ := callHandler_server hpl hf hc
    exact ⟨fun v hv => by cases hv; exact hs.flow, rq', rfl, hs.kept.sock⟩

/-- A request in hand is destroyed; the task may stay for the return of its handler. -/
theorem Inv.finish (h : Inv s [p]) (hp : (s.sock p.data).isSome) : Inv (s.finish_request p.data) [] where
  queue := h.queue
  live := by rw [sock_finish]; exact h.live.destroy hp
  owned := by rw [sock_finish]; exact h.owned.kill

theorem data_returned (t : OwnedTask) (ret : Option Task) (i : Int) :
    (Phase.returned t (ret.map (⟨·, i, t.data⟩))).data = t.data := by
  cases ret with
  | none => rfl
  | some u => rfl

/-- The request is over, or its handler has returned, with a task for the next one or without. -/
theorem handle_cases {thread : Thread} {id : Option Int} (hs : s.handle cnf sys thread t id = some s') :
    (t.handle = some .finish_request ∧ s' = { s.finish_request t.data with
      held := ⟨thread, .returned t none⟩ :: (s.finish_request t.data).held }) ∨
    ∃ g rq ret rq' i, t.handle = some g ∧ g ≠ .finish_request ∧ s.requests t.data = some rq ∧
      callHandler sys cnf rq g = .ok (ret, some rq') ∧ (ret ≠ none → id = some i) ∧
      s' = { s with
        requests := Function.update s.requests t.data (some rq')
        held := ⟨thread, .returned t (ret.map fun u => ⟨u, i, t.data⟩)⟩ :: s.held } := by
  unfold handle at hs
  split at hs
  · cases hs
  · rename_i hh
    cases hs
    exact .inl ⟨hh, rfl⟩
  · rename_i g hf hh
    right
    split at hs
    · rename_i rq' hc
      obtain ⟨rq, hr, hc⟩ := Option.map_eq_some_iff.1 hc
      cases hs
      exact ⟨g, rq, none, rq', 0, hh, hf, hr, hc, fun h => absurd rfl h, rfl⟩
    · rename_i rtask rq' i hc
      obtain ⟨rq, hr, hc⟩ := Option.map_eq_some_iff.1 hc
      cases hs
      exact ⟨g, rq, some rtask, rq', i, hh, hf, hr, hc, fun _ => rfl, rfl⟩
    · cases hs

theorem handle_inv {thread : Thread} {id : Option Int} (h : Inv s [.running t id])
    (hp : ∀ name fn rq, (sys.plugin name fn rq).rq.client.sock = rq.client.sock)
    (hs : s.handle cnf sys thread t id = some s') : Inv s' [] := by
  obtain ⟨ht, hid⟩ : PhaseOk s.sock (.running t id) := h.owned.ok _ List.mem_cons_self
  rcases handle_cases hs with ⟨hh, rfl⟩ | ⟨g, rq, ret, rq', i, hh, hf, hr, hc, hi, rfl⟩
  · -- the end of the request: its task is finished
    have hcb : t.callback = [] := ht.2 _ hh
    have hsome : (s.sock t.data).isSome := by rw [ht.1]; rfl
    have hfin : PhaseOk (Function.update s.sock t.data none) (.returned t none) :=
      .inl ⟨hh, hcb, rfl, Function.update_self ..⟩
    have hown := h.owned.finish hfin rfl
    rw [show (Phase.running t id).data = t.data from rfl, ← sock_finish] at hown
    have hi : Inv (s.finish_request t.data) [.returned t none] := ⟨h.queue, (h.finish hsome).live, hown⟩
    exact hi.hold
  · obtain ⟨hflow, rq₁, hl, hk⟩ := callHandler_continues hf hp hc
    cases hl
    have hret : ∀ u ∈ ret.map (⟨·, i, t.data⟩ : Task → OwnedTask), u.id = t.id ∧ u.data = t.data ∧
        Flow g u.handle u.callback := by
      intro u hu
      obtain ⟨v, hv, rfl⟩ := Option.map_eq_some_iff.1 hu
      exact ⟨hid i (hi (hv ▸ Option.some_ne_none v)), rfl, hflow v hv⟩
    have hq := h.replace (q := .returned t (ret.map (⟨·, i, t.data⟩))) (.inr ⟨ht, g, hh, hf, hret⟩) (data_returned t ret i)
    exact (hq.update hr hk).hold

/-- The next task is a sound one, or the request has ended. -/
theorem execute_inv {thread : Thread} {ret : Option OwnedTask} (h : Inv s [.returned t ret]) :
    Inv (s.antd_execute_task thread t ret) [] := by
  have hp : PhaseOk s.sock (.returned t ret) := h.owned.ok _ List.mem_cons_self
  unfold antd_execute_task
  rcases hp with ⟨-, hcb, rfl, hd⟩ | ⟨ht, g, hh, hf, hret⟩
  · rw [Option.map_none, show AntHttp.antd_execute_task t.toTask none = none by
      simp only [AntHttp.antd_execute_task, execute_callback, hcb]]
    exact ⟨h.queue, h.live, h.owned.drop hd⟩
  · have hflow : ∀ u ∈ ret.map (·.toTask), Flow g u.handle u.callback := by
      rintro u hu
      obtain ⟨v, hv, rfl⟩ := Option.map_eq_some_iff.1 hu
      exact (hret v hv).2.2
    obtain ⟨next, g', hn, hg, hsg, -⟩ := antd_execute_task_shape hf (ht.2 g hh) hflow
    rw [hn]
    have hid : (ret.getD t).id = t.id ∧ (ret.getD t).data = t.data := by
      cases ret with
      | none => exact ⟨rfl, rfl⟩
      | some u => exact ⟨(hret u rfl).1, (hret u rfl).2.1⟩
    have hnext : TaskOk s.sock ⟨next, (ret.getD t).id, (ret.getD t).data⟩ := by
      refine ⟨?_, fun k hk => ?_⟩
      · rw [hid.1, hid.2]; exact ht.1
      · rw [hg] at hk; cases hk; exact hsg
    exact (h.replace (q := .adding ⟨next, (ret.getD t).id, (ret.getD t).data⟩) hnext rfl).hold

theorem schedule_inv {thread : Thread} {now : Int} (h : Inv s [.deploying t]) :
    Inv (s.antd_task_schedule cnf now thread t) [] := by
  have ht : TaskOk s.sock t := h.owned.ok _ List.mem_cons_self
  have h' : Inv { s with sched := s.sched.pend (-1) } [.deploying t] := ⟨h.queue, h.live, h.owned⟩
  unfold antd_task_schedule
  simp only
  split
  · have hsome : (s.sock t.data).isSome := by rw [ht.1]; rfl
    exact Inv.finish (p := .deploying t) ⟨h.queue, h.live, h.owned⟩ hsome
  · split
    · exact (h'.replace (q := .running t none) ⟨ht, nofun⟩ rfl).hold
    · exact ⟨h.queue, h.live, h'.owned.perm (enqueue_phases { s with sched := s.sched.pend (-1) } t).symm⟩

/-! ### Accepting, collecting and polling -/

theorem sock_new {rq : Request} {i : Int} (hi : rq.client.sock = i) (r : Nat) :
    socks (Function.update s.requests r (some rq)) = Function.update s.sock r (some i) := by
  funext r'
  simp only [socks, Function.update_apply]
  split
  · rw [Option.map_some, hi]
  · rfl

/-- `accept` does not return a descriptor that a live request holds. -/
theorem monitor_inv {pcnf : PortConfig} {i now : Int} {input : List RecvEv} {output : List SendEv} {ssl : Bool}
    (h : Inv s []) (hn : ∀ r, s.sock r ≠ some i) (hs : s.antd_monitor pcnf i now input output ssl = some s') :
    Inv s' [] := by
  unfold antd_monitor at hs
  split at hs
  · cases hs
  · rename_i hpos
    have h0 : i ≠ 0 := fun he => hpos (.inl he.le)
    simp only at hs
    have hlive := h.live.new h0 hn
    have hsock : socks (Function.update s.requests s.accepted (some (AntHttp.antd_monitor pcnf i now input output).rq)) =
        Function.update s.sock s.accepted (some i) := sock_new rfl s.accepted
    -- a queued task under this id would hold a live request with this descriptor
    have hfree : bst_find s.sched.task_queue i = none := by
      cases hf : bst_find s.sched.task_queue i with
      | none => rfl
      | some u =>
        have hm := (find_mem h.queue.ordered).1 hf
        have hu : TaskOk s.sock u := h.owned.ok (.adding u) (by
          simp only [phases, List.mem_append, List.mem_map]
          exact .inr (.inl (.inl ⟨(i, u), hm, rfl⟩)))
        have hid : u.id = i := h.queue.keyed _ hm
        exact absurd (hid ▸ hu.1) (hn _)
    split at hs
    · -- no SSL object: the request is destroyed at once
      cases hs
      have hback : Function.update (Function.update s.sock s.accepted (some i)) s.accepted none = s.sock := by
        rw [Function.update_idem, ← h.live.fresh.1, Function.update_eq_self]
      have hdestroy := hlive.destroy (r := s.accepted) (by rw [Function.update_self]; rfl)
      refine ⟨h.queue, ?_, ?_⟩
      · rw [sock_finish, sock, hsock]; exact hdestroy
      · rw [sock_finish, sock, hsock, hback]
        exact ⟨h.owned.ok, fun p hp => (h.owned.known p hp).trans (Nat.lt_succ_self _), h.owned.once, h.owned.owned⟩
    · cases hs
      rw [← hsock] at hlive
      have hnew := h.owned.new (i := i) (p := .adding ⟨(AntHttp.antd_monitor pcnf i now input output).task, i, s.accepted⟩)
        rfl ⟨Function.update_self .., fun k hk => by cases hk; rfl⟩
      rw [← hsock] at hnew
      rw [next_id_free h0 hfree]
      exact Inv.hold (s := { s with
        sched := (antd_scheduler_next_id s.sched i).2, connection := s.connection + 1
        requests := Function.update s.requests s.accepted (some (AntHttp.antd_monitor pcnf i now input output).rq)
        accepted := s.accepted + 1 }) ⟨h.queue, hlive, hnew⟩

theorem collect_inv {now : Int → Int} {elapsed : TaskEvent → Bool} (h : Inv s [])
    (hs : s.collect cnf now elapsed = some s') : Inv s' [] := by
  unfold collect at hs
  split at hs
  · split at hs
    · cases hs
    · cases hs
      refine ⟨⟨h.queue.toKeyed, ?_⟩, h.live, h.owned⟩
      exact collect_scheduled ⟨.nil _, fun e he => by cases he⟩ _ fun t ht => h.queue.find ht
  · cases hs

/-- A queued task is scheduled, and may be made invalid where it is. -/
theorem pollEvent_inv {acc : Node OwnedTask × Node OwnedTask} (e : (TaskEvent × Int) × Poll)
    (h : Inv { s with sched.task_queue := acc.1, round := .polling acc.2 [] } []) :
    Inv { s with sched.task_queue := (pollEvent acc e).1, round := .polling (pollEvent acc e).2 [] } [] := by
  have hsch : Scheduled acc.1 acc.2 := h.queue.round
  have hord : Ordered acc.1 := h.queue.ordered
  unfold pollEvent
  split
  · rename_i t pollin pollout pollerr pollhup _ _ hf he
    have hid : t.id = e.1.2 := h.queue.keyed _ ((find_mem hord).1 hf)
    rw [← hid] at hf
    split
    · exact ⟨⟨h.queue.toKeyed, hsch.insert hf⟩, h.live, h.owned⟩
    · split
      · have hch := hsch.change hord { t with access_time := 0, handle := none }
        refine ⟨⟨h.queue.toKeyed.insert { t with access_time := 0, handle := none }, hch⟩, h.live, ?_⟩
        · -- the other tasks of the queue stay
          have hold := delete_perm hord hf
          have hnew := delete_perm (ordered_insert hord t.id { t with access_time := 0, handle := none })
            (x := t.id) (by rw [find_insert hord, if_pos rfl])
          rw [toList_delete (ordered_insert hord ..), toList_insert hord, Assoc.erase_put] at hnew
          rw [toList_delete hord] at hold
          have hout := h.owned.perm (((hold.map fun e => Phase.adding e.2).append_right _).append_right _)
          have ht : TaskOk s.sock t := hout.ok _ List.mem_cons_self
          have hin := hout.replace (q := .adding { t with access_time := 0, handle := none }) ⟨ht.1, nofun⟩ rfl
          refine hin.perm ?_
          simp only [phases, toList_insert hord]
          exact (((hnew.symm.map fun e => Phase.adding e.2).append_right _).append_right _)
      · exact h
  · exact h

theorem poll_inv {revents : List Poll} (h : Inv s []) (hs : s.poll revents = some s') : Inv s' [] := by
  have fold : ∀ (l : List ((TaskEvent × Int) × Poll)) (acc : Node OwnedTask × Node OwnedTask),
      Inv { s with sched.task_queue := acc.1, round := .polling acc.2 [] } [] →
      Inv { s with sched.task_queue := (l.foldl pollEvent acc).1, round := .polling (l.foldl pollEvent acc).2 [] } [] := by
    intro l
    induction l with
    | nil => exact fun _ h => h
    | cons e l ih => exact fun _ h => ih _ (pollEvent_inv e h)
  unfold poll at hs
  split at hs
  · rename_i scheduled_list poll_list hr
    cases hs
    have hq := h.queue.round
    rw [hr] at hq
    have h0 : Inv { s with sched.task_queue := s.sched.task_queue, round := .polling scheduled_list [] } [] :=
      ⟨⟨h.queue.toKeyed, hq⟩, h.live, h.owned⟩
    have h' := fold (poll_list.zip revents) (s.sched.task_queue, scheduled_list) h0
    exact ⟨⟨h'.queue.toKeyed, Scheduled.deploying h'.queue.round⟩, h'.live, h'.owned⟩
  · cases hs

/-! ### Every run -/

/-- What is assumed of the operating system and of plugins: `accept` returns no
descriptor that a live request holds, and a plugin leaves the descriptor of the
request alone. -/
def Action.Assumed : Action → Server → Prop
  | .accept _ client_sock _ _ _ _, s => ∀ r, s.sock r ≠ some client_sock
  | .handle _ sys, _ => ∀ name fn rq, (sys.plugin name fn rq).rq.client.sock = rq.client.sock
  | _, _ => True

theorem inv_start : Inv start [] where
  queue := ⟨.nil _, List.nodup_nil, fun _ ht => (List.not_mem_nil ht).elim⟩
  live := ⟨nofun, nofun, by simp [start, socks], nofun, List.nodup_nil⟩
  owned := by
    have hnone : ∀ p : Phase, p ∉ ([] : List Phase) := fun p => List.not_mem_nil
    exact ⟨fun p hp => (hnone p hp).elim, fun p hp => (hnone p hp).elim, List.nodup_nil, fun r hr => by simp [socks, start] at hr⟩

/-- What an action finds, and what it does there. -/
inductive Stepped (cnf : Config) (s : Server) : Action → Server → Prop
  | accept {pcnf client_sock now input output ssl after} : s.antd_monitor pcnf client_sock now input output ssl = some after →
      Stepped cnf s (.accept pcnf client_sock now input output ssl) after
  | collect {now elapsed after} : s.collect cnf now elapsed = some after → Stepped cnf s (.collect now elapsed) after
  | poll {revents after} : s.poll revents = some after → Stepped cnf s (.poll revents) after
  | deploy {after} : s.antd_deploy_task = some after → Stepped cnf s .deploy after
  | work {after} : s.work cnf = some after → Stepped cnf s .work after
  | schedule {i now thread task s₁} : s.release i = some (⟨thread, .deploying task⟩, s₁) →
      Stepped cnf s (.schedule i now) (s₁.antd_task_schedule cnf now thread task)
  | create {i thread task id s₁ after} : s.release i = some (⟨thread, .running task id⟩, s₁) →
      s₁.antd_create_task thread task = some after → Stepped cnf s (.create i) after
  | handle {i sys thread task id s₁ after} : s.release i = some (⟨thread, .running task id⟩, s₁) →
      s₁.handle cnf sys thread task id = some after → Stepped cnf s (.handle i sys) after
  | execute {i thread task ret s₁} : s.release i = some (⟨thread, .returned task ret⟩, s₁) →
      Stepped cnf s (.execute i) (s₁.antd_execute_task thread task ret)
  | add {i thread task s₁} : s.release i = some (⟨thread, .adding task⟩, s₁) →
      Stepped cnf s (.add i) (s₁.antd_scheduler_add_task task)

theorem step_cases {a : Action} (hs : step cnf a s = some s') : Stepped cnf s a s' := by
  cases a with
  | accept pcnf client_sock now input output ssl => exact .accept hs
  | collect now elapsed => exact .collect hs
  | poll revents => exact .poll hs
  | deploy => exact .deploy hs
  | work => exact .work hs
  | schedule i now =>
    simp only [step] at hs
    split at hs <;> cases hs
    exact .schedule ‹_›
  | create i =>
    simp only [step] at hs
    split at hs
    · exact .create ‹_› hs
    · cases hs
  | handle i sys =>
    simp only [step] at hs
    split at hs
    · exact .handle ‹_› hs
    · cases hs
  | execute i =>
    simp only [step] at hs
    split at hs <;> cases hs
    exact .execute ‹_›
  | add i =>
    simp only [step] at hs
    split at hs <;> cases hs
    exact .add ‹_›

theorem inv_step {a : Action} (h : Inv s []) (ha : a.Assumed s) (hs : step cnf a s = some s') : Inv s' [] := by
  cases step_cases hs with
  | accept hs => exact monitor_inv h ha hs
  | collect hs => exact collect_inv h hs
  | poll hs => exact poll_inv h hs
  | deploy hs => exact deploy_inv h hs
  | work hs => exact work_inv h hs
  | schedule hr => exact schedule_inv (release_inv h hr)
  | create hr hs => exact create_inv (release_inv h hr) hs
  | handle hr hs => exact handle_inv (release_inv h hr) ha hs
  | execute hr => exact execute_inv (release_inv h hr)
  | add hr => exact add_inv (release_inv h hr)

/-- The states of the server over all interleavings. -/
abbrev Reachable (cnf : Config) : Server → Prop := Runs.Run (step cnf) Action.Assumed (· = start)

theorem inv_reachable (h : Reachable cnf s) : Inv s [] :=
  h.inv (Inv · []) (by rintro _ rfl; exact inv_start) fun _ _ _ hi ha hs => inv_step hi ha hs

theorem owners_eq (s : Server) : s.owners = s.phases.map (·.owner) := by
  simp only [owners, phases, List.map_append, List.map_map]
  rw [show (fun p : Phase => p.owner) ∘ Phase.deploying = id from rfl, List.map_id]
  rfl

/-- A task that still carries a destroyed request is the one that destroyed it. -/
theorem PhaseOk.destroyed {sock : Nat → Option Int} {p : Phase} (h : PhaseOk sock p) (hd : sock p.data = none) :
    ∃ t, p = .returned t none ∧ t.handle = some .finish_request ∧ t.callback = [] := by
  cases p with
  | adding t | deploying t => exact absurd (h.1.symm.trans hd) nofun
  | running t id => exact absurd (h.1.1.symm.trans hd) nofun
  | returned t ret =>
    rw [h.returned_data] at hd
    rcases h with ⟨hh, hc, rfl, -⟩ | ⟨ht, -⟩
    · exact ⟨t, rfl, hh, hc⟩
    · exact absurd (ht.1.symm.trans hd) nofun

/-- In every interleaving each request that has not been destroyed belongs to
exactly one task, no request is destroyed twice, and the only task that carries
a destroyed request is the one whose `finish_request` has just destroyed it. -/
theorem owned_once (hs : Reachable cnf s) :
    (∀ r < s.accepted, r ∉ s.destroyed → (s.owners.map (·.data)).count r = 1) ∧ s.destroyed.Nodup ∧
      ∀ t ∈ s.owners, t.data ∈ s.destroyed →
        t.handle = some .finish_request ∧ t.callback = [] ∧ ∃ h ∈ s.held, h.phase = .returned t none := by
  have h := inv_reachable hs
  have hmap : s.owners.map (·.data) = s.phases.map (·.data) := by
    rw [owners_eq, List.map_map]
    rfl
  refine ⟨fun r hr hd => ?_, h.live.once, fun t ht hd => ?_⟩
  · have hlive := ((h.live.known r).1 hr).resolve_right hd
    rw [hmap]
    exact List.count_eq_one_of_mem h.owned.once (h.owned.owned r hlive)
  · rw [owners_eq] at ht
    obtain ⟨p, hp, rfl⟩ := List.mem_map.1 ht
    obtain ⟨u, rfl, hh, hc⟩ := PhaseOk.destroyed (h.owned.ok p hp) (h.live.dead _ hd)
    refine ⟨hh, hc, ?_⟩
    -- queued and deployed tasks are in other phases
    simp only [phases, List.mem_append, List.mem_map] at hp
    rcases hp with (⟨e, -, he⟩ | ⟨v, -, he⟩) | ⟨k, hk, he⟩
    · cases he
    · cases he
    · exact ⟨k, hk, he⟩

/-! ### Two connections -/

/-- The scheduler finds the queued task ready and schedules it at the time `now`. -/
def dispatching (now : Int) : List Action :=
  [.collect (fun _ => 0) (fun _ => true), .poll (List.replicate 2 (.ready true true false false false false)), .deploy,
    .schedule 0 now]

/-- A task is scheduled and run `n` times, and the next one is queued. -/
def turns (sys : Sys) (n : Nat) : List Action :=
  (List.replicate n (dispatching 0 ++ [.work, .create 0, .handle 0 sys, .execute 0, .add 0])).flatten

theorem dispatching_assumed {now : Int} : ∀ a ∈ dispatching now, ∀ s, a.Assumed s := by
  intro a ha s
  simp only [dispatching, List.mem_cons, List.not_mem_nil, or_false] at ha
  rcases ha with rfl | rfl | rfl | rfl <;> trivial

theorem turns_assumed {sys : Sys} {n : Nat}
    (hsys : ∀ name fn rq, (sys.plugin name fn rq).rq.client.sock = rq.client.sock) : ∀ a ∈ turns sys n, ∀ s, a.Assumed s := by
  intro a ha s
  obtain ⟨l, hl, ha⟩ := List.mem_flatten.1 ha
  rw [List.eq_of_mem_replicate hl] at ha
  rcases List.mem_append.1 ha with ha | ha
  · exact dispatching_assumed a ha s
  · simp only [List.mem_cons, List.not_mem_nil, or_false] at ha
    rcases ha with rfl | rfl | rfl | rfl | rfl
    exacts [trivial, trivial, hsys, trivial, trivial]

def firstConnection : Action := .accept (samplePort none []) 4 0 (atOnce (str "BREW / HTTP/1.1\r\n\r\n")) [] true

def secondConnection : Action := .accept (samplePort none []) 5 0 [] [] true

/-- The request is answered and destroyed; then the waiting one is queued. -/
def answering : List Action :=
  turns (sampleSys []) 3 ++ (dispatching 0 ++ [.work, .handle 0 (sampleSys []), .execute 0, .add 0])

theorem answering_assumed : ∀ a ∈ answering, ∀ s, a.Assumed s := by
  intro a ha s
  rcases List.mem_append.1 ha with ha | ha
  · exact turns_assumed (fun _ _ _ => rfl) a ha s
  · rcases List.mem_append.1 ha with ha | ha
    · exact dispatching_assumed a ha s
    · simp only [List.mem_cons, List.not_mem_nil, or_false] at ha
      rcases ha with rfl | rfl | rfl | rfl
      exacts [trivial, fun _ _ _ => rfl, trivial, trivial]

/-- A descriptor that none of the requests made so far has is a new one. -/
theorem fresh_of_known (h : Reachable cnf s) {i : Int} (hi : ∀ r < s.accepted, s.sock r ≠ some i) : ∀ r, s.sock r ≠ some i := by
  intro r hr
  refine hi r (((inv_reachable h).live.known r).2 (.inl ?_)) hr
  rw [hr]
  rfl

/-- A second client connects while the request of the first one waits. -/
theorem twoConnections_trace : ∃ s,
    Runs.Trace (step (sampleConfig none [])) Action.Assumed start ([firstConnection, .add 0, secondConnection] ++ answering) s ∧
      s.accepted = 2 ∧ s.destroyed = [0] ∧ s.connection = 1 := by
  have hrun : (((step (sampleConfig none []) firstConnection start).bind (step (sampleConfig none []) (.add 0))).any fun s₂ =>
      decide (s₂.accepted = 1 ∧ s₂.sock 0 = some 4 ∧
        (((step (sampleConfig none []) secondConnection s₂).bind (Runs.runAll (step (sampleConfig none [])) answering)).any
          fun s => decide (s.accepted = 2 ∧ s.destroyed = [0] ∧ s.connection = 1)) = true)) = true := by decide +kernel
  obtain ⟨s₂, hs₂, haccepted, hsock, hrest⟩ := Runs.ends_in hrun
  obtain ⟨s, hs, h⟩ := Runs.ends_in hrest
  obtain ⟨s₁, hs₁, hadd⟩ := Option.bind_eq_some_iff.1 hs₂
  obtain ⟨s₃, hs₃, hs⟩ := Option.bind_eq_some_iff.1 hs
  have hfirst : firstConnection.Assumed start := fun r h => by cases h
  have hqueued : Action.Assumed (.add 0) s₁ := trivial
  have ht := (Runs.Trace.nil.snoc hfirst hs₁).snoc hqueued hadd
  have hsecond : secondConnection.Assumed s₂ := by
    apply fresh_of_known ht.run
    intro r hr
    obtain rfl : r = 0 := by omega
    rw [hsock]
    decide
  exact ⟨s, (ht.snoc hsecond hs₃).runAll answering_assumed hs, h⟩

/-- The first request has been destroyed, and the second one waits. -/
theorem owned_once_twoConnections : ∃ s, Reachable (sampleConfig none []) s ∧ s.accepted = 2 ∧ s.destroyed = [0] ∧
    (s.owners.map (·.data)).count 1 = 1 := by
  obtain ⟨s, ht, haccepted, hdestroyed, -⟩ := twoConnections_trace
  have h1 : 1 ∉ s.destroyed := by simp [hdestroyed]
  exact ⟨s, ht.run, haccepted, hdestroyed, (owned_once ht.run).1 1 (by omega) h1⟩

end Server

end AntHttp
