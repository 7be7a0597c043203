import AntHttp.Threads
import AntHttp.Lib.Runs
import Mathlib.Data.Fintype.Card
/-!
# No wake-up is lost

A worker finds its queue empty in one step and waits in another, and so does
the scheduler's thread. What keeps them from sleeping beside a filled queue is
that each queue is filled before its semaphore is posted: the invariant says
what stands for the token while it is on its way. A token may be left over from
work that is already done, so the tokens are never counted exactly; only `stop`
needs a count, of the workers that may still come to wait.
-/

namespace AntHttp

open Bst Runs

/-! ## Semaphores -/

theorem sem_post_pos (value : Nat) : 0 < sem_post value := by
  unfold sem_post SEM_VALUE_MAX
  split <;> omega

theorem le_sem_post (value : Nat) : value ≤ sem_post value := by
  unfold sem_post
  split <;> omega

/-- A token is only dropped where there are enough of them. -/
theorem lt_sem_post {value n : Nat} (h : n ≤ value + 1) (hn : n ≤ SEM_VALUE_MAX) : n ≤ sem_post value := by
  unfold sem_post
  split <;> omega

theorem sem_wait_cases {value v : Nat} {interrupted : Bool} (h : sem_wait value interrupted = some v) :
    v = value ∨ v + 1 = value := by
  unfold sem_wait at h
  split at h
  · exact .inl (Option.some.inj h).symm
  · split at h
    · rename_i hpos
      cases h
      exact .inr (by omega)
    · cases h

/-! ## Where a thread owes a post -/

/-- The task is in the queue and `scheduler_sem` is not posted yet. -/
def Adding.inserted : Adding → Prop
  | .pend | .post => True
  | .next_id _ | .insert _ => False

def Executing.inserted : Executing → Prop
  | .handler _ (some a) | .add a _ => a.inserted
  | .enter _ | .handler _ none | .destroy _ => False

def Working.inserted : Working → Prop
  | .execute e => e.inserted
  | _ => False

/-- The worker may come to wait without looking at `status` again. -/
def Working.idling : Working → Bool
  | .dequeue | .wait => true
  | _ => false

/-- The posts of `worker_sem` that `stop` is to make for `n` workers. -/
def Stopping.left (n : Nat) : Stopping → Nat
  | .running => n
  | .posting left => left
  | .joining => 0

namespace Threads

variable {n_workers : Int32} {H D : Type} {s s' : Threads n_workers H D}

/-- A worker or a thread of the program is between its insertion and its post. -/
def Inserted (s : Threads n_workers H D) : Prop :=
  (∃ i, (s.workers i).inserted) ∨ ∃ i, ∃ a ∈ s.others i, a.inserted

/-- The scheduler's thread is between its `enqueue` and its post. -/
def Enqueued (s : Threads n_workers H D) : Prop := ∃ rest, s.scheduler = .post rest

def idlers (s : Threads n_workers H D) : Nat := (Finset.univ.filter fun i => (s.workers i).idling).card

theorem idlers_le (s : Threads n_workers H D) : s.idlers ≤ n_workers.toInt.toNat := by
  have h := Finset.card_le_univ (Finset.univ.filter fun i => (s.workers i).idling)
  rwa [Fintype.card_fin] at h

theorem workers_le_max : n_workers.toInt.toNat ≤ SEM_VALUE_MAX := by
  have h := n_workers.toInt_lt
  unfold SEM_VALUE_MAX
  omega

/-- A worker that was idling goes on, or no worker begins to idle. -/
theorem idlers_update {t : Threads n_workers H D} (i : Fin n_workers.toInt.toNat) {w : Working}
    (hs : t.workers = Function.update s.workers i w) :
    ((s.workers i).idling = true → w.idling = false → t.idlers + 1 ≤ s.idlers) ∧
      ((w.idling = true → (s.workers i).idling = true) → t.idlers ≤ s.idlers) := by
  unfold idlers
  rw [hs]
  constructor
  · intro hi hw
    apply Finset.card_lt_card
    rw [Finset.ssubset_iff_of_subset]
    · exact ⟨i, by simp [hi], by simp [hw]⟩
    · intro j hj
      rw [Finset.mem_filter] at hj ⊢
      by_cases hji : j = i
      · subst hji; simp [hw] at hj
      · simpa [Function.update_of_ne hji] using hj
  · intro hle
    apply Finset.card_le_card
    intro j hj
    rw [Finset.mem_filter] at hj ⊢
    by_cases hji : j = i
    · subst hji; simpa using hle (by simpa using hj)
    · simpa [Function.update_of_ne hji] using hj

/-! ## What adding and executing do -/

/-- A step of a thread in the code shared by all of them: either the queue and
its semaphore stay, or the thread owes a post afterwards, or it has made it. -/
structure Adds (s s' : Threads n_workers H D) (before after : Prop) : Prop where
  frame : s' = { s with cells := s'.cells, sched := s'.sched, scheduler_sem := s'.scheduler_sem }
  awake : (s'.sched.task_queue = s.sched.task_queue ∧ s'.scheduler_sem = s.scheduler_sem ∧ ¬ before) ∨
    after ∨ 0 < s'.scheduler_sem

theorem add_task_adds {a : Adding} {a' : Option Adding} (h : s.antd_scheduler_add_task a = some (s', a')) :
    Adds s s' a.inserted (∃ b ∈ a', b.inserted) := by
  cases a with
  | next_id task =>
    obtain ⟨t, -, h⟩ := Option.map_eq_some_iff.1 h
    split at h
    · cases h; exact ⟨rfl, .inl ⟨rfl, rfl, id⟩⟩
    · cases h; exact ⟨rfl, .inl ⟨rfl, rfl, id⟩⟩
  | insert task =>
    obtain ⟨t, -, h⟩ := Option.map_eq_some_iff.1 h
    cases h
    exact ⟨rfl, .inr (.inl ⟨_, rfl, trivial⟩)⟩
  | pend => cases h; exact ⟨rfl, .inr (.inl ⟨_, rfl, trivial⟩)⟩
  | post => cases h; exact ⟨rfl, .inr (.inr (sem_post_pos _))⟩

/-- A step that leaves the queue and the semaphores alone. -/
theorem Adds.of_cells {before after : Prop} (hb : ¬ before)
    (h : s' = { s with cells := s'.cells, sched.id_allocator := s'.sched.id_allocator }) : Adds s s' before after := by
  rw [h]
  exact ⟨rfl, .inl ⟨rfl, rfl, hb⟩⟩

theorem malloc_eq {p : Nat} {cell : TaskCell H D} (h : s.malloc p cell = some s') :
    s.cells p = none ∧ s' = { s with cells := Function.update s.cells p (some cell) } := by
  unfold malloc at h
  split at h
  · cases h
  · rename_i hp
    cases h
    exact ⟨by simpa using hp, rfl⟩

theorem returned_eq {task : Nat} {ret : Option Nat} {e : Option Executing} (h : s.returned task ret = some (s', e)) :
    s' = { s with cells := s'.cells } := by
  obtain ⟨r, -, h⟩ := Option.map_eq_some_iff.1 h
  cases h
  rfl

theorem execute_task_adds {call : Call H D} {e : Executing} {e' : Option Executing}
    (h : s.antd_execute_task call e = some (s', e')) : Adds s s' e.inserted (∃ b ∈ e', b.inserted) := by
  cases e with
  | enter task =>
    obtain ⟨-, -, h⟩ := Option.map_eq_some_iff.1 h
    cases h
    exact .of_cells id rfl
  | handler task own =>
    cases own with
    | some a =>
      obtain ⟨r, hr, h⟩ := Option.map_eq_some_iff.1 h
      cases h
      obtain ⟨hf, ha⟩ := add_task_adds hr
      refine ⟨hf, ha.imp_right (.imp_left ?_)⟩
      rintro ⟨b, hb, hi⟩
      exact ⟨_, rfl, by rw [Option.mem_def.1 hb]; exact hi⟩
    | none =>
      cases call with
      | allocate input => cases h; exact .of_cells id rfl
      | add p cell =>
        obtain ⟨r, hr, h⟩ := Option.map_eq_some_iff.1 h
        cases h
        exact .of_cells id (by rw [(malloc_eq hr).2])
      | ret r =>
        cases r with
        | none => exact .of_cells id (by rw [returned_eq h])
        | some r =>
          obtain ⟨s1, h1, h⟩ := Option.bind_eq_some_iff.1 h
          exact .of_cells id (by rw [returned_eq h, (malloc_eq h1).2])
  | add a old =>
    obtain ⟨r, hr, h⟩ := Option.map_eq_some_iff.1 h
    cases h
    obtain ⟨hf, ha⟩ := add_task_adds hr
    refine ⟨hf, ha.imp_right (.imp_left ?_)⟩
    rintro ⟨b, hb, hi⟩
    exact ⟨.add b old, by rw [Option.mem_def.1 hb]; rfl, hi⟩
  | destroy task => cases h; exact .of_cells id rfl

/-! ## The invariant -/

/-- Who sees to it that a queue with tasks in it is looked at, and that each
worker finds a token after `stop`. -/
structure Awake (s : Threads n_workers H D) : Prop where
  workers : (∀ i, s.workers i = .wait) → s.workers_queue ≠ [] → 0 < s.worker_sem ∨ s.Enqueued
  /-- Without workers the scheduler's thread runs the tasks itself. -/
  alone : n_workers.toInt ≤ 0 → s.workers_queue = [] ∧ ∀ task rest, s.scheduler ≠ .enqueue task rest
  scheduler : s.scheduler = .wait → s.sched.task_queue ≠ .nil → 0 < s.scheduler_sem ∨ s.Inserted
  stopped : s.stop ≠ .running → s.status = false
  tokens : s.idlers ≤ s.worker_sem + s.stop.left n_workers.toInt.toNat

theorem Awake.init (n_workers : Int32) (scheduler_sem worker_sem : Nat) :
    Awake (antd_scheduler_init n_workers H D scheduler_sem worker_sem) where
  workers _ hq := absurd rfl hq
  alone _ := ⟨rfl, fun _ _ h => nomatch h⟩
  scheduler h := nomatch h
  stopped h := absurd rfl h
  tokens := (idlers_le _).trans (Nat.le_add_left ..)

/-- The scheduler's clause after a step in the shared code: the thread that took it
owed a post before (`before`) or owes one now (`after`). -/
theorem Awake.scheduler_adds (h : Awake s) {before after : Prop} (ha : Adds s s' before after)
    (inserted : Prop) (hb : s.Inserted → before ∨ inserted) (hs : s.scheduler = .wait)
    (hq : s'.sched.task_queue ≠ .nil) : 0 < s'.scheduler_sem ∨ after ∨ inserted := by
  rcases ha.awake with ⟨hqueue, hsem, hno⟩ | ha | hpos
  · rw [hqueue] at hq
    rw [hsem]
    exact (h.scheduler hs hq).imp_right fun hi => .inr ((hb hi).resolve_left hno)
  · exact .inr (.inl ha)
  · exact .inl hpos

/-! ## A worker's step -/

/-- A worker goes on to `w`; the shared variables are as `Adds` says. -/
theorem Awake.worker (h : Awake s) {i : Fin n_workers.toInt.toNat} {w : Working} {t : Threads n_workers H D}
    (ha : Adds s t (s.workers i).inserted w.inserted) (hw : w ≠ .wait) (hi : w.idling = true → s.status = true) :
    Awake { t with workers := Function.update s.workers i w } where
  workers hall := absurd (by simpa using hall i) hw
  alone := by rw [ha.frame]; exact h.alone
  scheduler hs hq := by
    have hs : s.scheduler = .wait := by rw [ha.frame] at hs; exact hs
    -- another worker's post is still to come, and so is that of another thread
    refine (h.scheduler_adds ha ((∃ j, j ≠ i ∧ (s.workers j).inserted) ∨ ∃ j, ∃ a ∈ s.others j, a.inserted)
      ?_ hs hq).imp_right ?_
    · rintro (⟨j, hj⟩ | ho)
      · by_cases hji : j = i
        · exact .inl (hji ▸ hj)
        · exact .inr (.inl ⟨j, hji, hj⟩)
      · exact .inr (.inr ho)
    · rintro (hw | ⟨j, hji, hj⟩ | ho)
      · exact .inl ⟨i, by simpa using hw⟩
      · exact .inl ⟨j, by simpa [Function.update_of_ne hji] using hj⟩
      · exact .inr (by rw [ha.frame]; exact ho)
  stopped := by rw [ha.frame]; exact h.stopped
  tokens := by
    by_cases hrun : s.stop = .running
    · apply (idlers_le _).trans
      rw [ha.frame]
      simp [hrun, Stopping.left]
    · have hnot : w.idling = false := by
        rw [← Bool.not_eq_true]
        intro hwi
        have hst := h.stopped hrun
        rw [hi hwi] at hst
        cases hst
      have hle := (idlers_update (s := s) (t := { t with workers := Function.update s.workers i w }) i rfl).2
        (by simp [hnot])
      apply hle.trans
      rw [ha.frame]
      exact h.tokens

theorem Adds.refl {before after : Prop} (hb : ¬ before) : Adds s s before after := ⟨rfl, .inl ⟨rfl, rfl, hb⟩⟩

theorem Awake.work (h : Awake s) (i : Fin n_workers.toInt.toNat) {interrupted : Bool} {call : Call H D}
    {r : Threads n_workers H D × Working} (hr : s.work interrupted call (s.workers i) = some r) :
    Awake { r.1 with workers := Function.update s.workers i r.2 } := by
  cases hw : s.workers i with
  | check =>
    rw [hw] at hr; cases hr
    have hno : ¬ (s.workers i).inserted := by rw [hw]; exact id
    apply h.worker (.refl hno)
    · cases s.status <;> simp
    · cases s.status <;> simp [Working.idling]
  | dequeue =>
    rw [hw] at hr
    have hno : ¬ (s.workers i).inserted := by rw [hw]; exact id
    have hidle : (s.workers i).idling = true := by rw [hw]; rfl
    cases hq : s.workers_queue with
    | nil =>
      -- the queue is empty as the worker turns to wait
      simp only [Threads.work, hq, Option.some.injEq] at hr
      subst hr
      exact {
        workers := fun _ hne => absurd hq hne
        alone := h.alone
        scheduler := fun hs hn => by
          refine (h.scheduler hs hn).imp_right ?_
          rintro (⟨j, hj⟩ | ho)
          · have hji : j ≠ i := fun he => hno (he ▸ hj)
            exact .inl ⟨j, by simpa [Function.update_of_ne hji] using hj⟩
          · exact .inr ho
        stopped := h.stopped
        tokens := ((idlers_update (s := s) i rfl).2 fun _ => hidle).trans h.tokens }
    | cons task rest =>
      simp only [Threads.work, hq, Option.some.injEq] at hr
      subst hr
      have hpos : ¬ n_workers.toInt ≤ 0 := fun hn => by rw [(h.alone hn).1] at hq; cases hq
      have h' := h.worker (i := i) (w := .execute (.enter task)) (.refl hno) (by simp) (by simp [Working.idling])
      exact { h' with
        workers := fun hall => absurd (hall i) (by simp)
        alone := fun hn => absurd hn hpos }
  | wait =>
    rw [hw] at hr
    obtain ⟨v, hv, hr⟩ := Option.map_eq_some_iff.1 hr
    subst hr
    have hno : ¬ (s.workers i).inserted := by rw [hw]; exact id
    have h' := h.worker (i := i) (w := .check) (.refl hno) (by simp) (by simp [Working.idling])
    have hlt := (idlers_update (s := s) (t := { s with worker_sem := v, workers := Function.update s.workers i .check })
      i rfl).1 (by rw [hw]; rfl) rfl
    exact { h' with
      workers := fun hall => absurd (hall i) (by simp)
      tokens := by
        have ht := h.tokens
        have hv := sem_wait_cases hv
        have hle : s.idlers ≤ v + s.stop.left n_workers.toInt.toNat + 1 := by omega
        exact Nat.le_of_succ_le_succ (hlt.trans hle) }
  | execute e =>
    rw [hw] at hr
    obtain ⟨r', hr', hr⟩ := Option.map_eq_some_iff.1 hr
    subst hr
    have ha := execute_task_adds hr'
    refine h.worker (i := i) ⟨ha.frame, ?_⟩ ?_ ?_
    · rw [hw]
      refine ha.awake.imp_right (.imp_left ?_)
      rintro ⟨b, hb, hi⟩
      rw [Option.mem_def.1 hb]
      exact hi
    · cases r'.2 <;> simp
    · cases r'.2 <;> simp [Working.idling]
  | exited => rw [hw] at hr; cases hr

/-! ## The scheduler's step -/

/-- The scheduler's thread goes on to `p` and owes no post of `worker_sem`; only
the shared code has touched what the workers see. -/
theorem Awake.move (h : Awake s) {before after : Prop} {p : Scheduling} {t : Threads n_workers H D}
    (ht : Adds s t before after) (hs : ¬ s.Enqueued) (hp : p ≠ .wait)
    (he : n_workers.toInt ≤ 0 → ∀ task rest, p ≠ .enqueue task rest) : Awake { t with scheduler := p } where
  workers hall hq := by
    rw [ht.frame] at hall hq
    have hpos := (h.workers hall hq).resolve_right hs
    rw [ht.frame]
    exact .inl hpos
  alone hn := ⟨by rw [ht.frame]; exact (h.alone hn).1, he hn⟩
  scheduler hw := absurd hw hp
  stopped := by rw [ht.frame]; exact h.stopped
  tokens := by rw [ht.frame]; exact h.tokens

/-- What the scheduler's own steps do to the queue and the heap does not wake or put to sleep anyone. -/
theorem Awake.own (h : Awake s) {p : Scheduling} (cells : Cells H D) (sched : Sched Nat) (hs : ¬ s.Enqueued)
    (hp : p ≠ .wait) (he : n_workers.toInt ≤ 0 → ∀ task rest, p ≠ .enqueue task rest) :
    Awake { s with cells := cells, sched := sched, scheduler := p } where
  workers hall hq := .inl ((h.workers hall hq).resolve_right hs)
  alone hn := ⟨(h.alone hn).1, he hn⟩
  scheduler hw := absurd hw hp
  stopped := h.stopped
  tokens := h.tokens

theorem not_enqueued {p : Scheduling} (hp : s.scheduler = p) (hne : ∀ rest, p ≠ .post rest) : ¬ s.Enqueued := by
  rintro ⟨rest, hr⟩
  exact hne rest (hp.symm.trans hr)

theorem pollEvent_cells (scheduled_list : Node Nat) (evt : TaskEvent) (task : Nat) (t : TaskCell H D) (revents : Poll) :
    ∃ cells, (s.pollEvent scheduled_list evt task t revents).1 = { s with cells := cells } := by
  cases revents with
  | failed => exact ⟨_, rfl⟩
  | timeout => exact ⟨_, rfl⟩
  | ready =>
    simp only [pollEvent]
    split
    · exact ⟨_, rfl⟩
    · split
      · exact ⟨_, rfl⟩
      · exact ⟨_, rfl⟩

theorem Awake.wait {scheduler_timeout : Int} (h : Awake s) {w : Meets H D} {r : Threads n_workers H D × Scheduling}
    (hr : s.antd_scheduler_wait scheduler_timeout w s.scheduler = some r) : Awake { r.1 with scheduler := r.2 } := by
  cases hp : s.scheduler with
  | check =>
    rw [hp] at hr; cases hr
    apply h.own _ _ (not_enqueued hp (by simp))
    · cases s.status <;> simp
    · intro _ task rest
      cases s.status <;> simp
  | collect =>
    rw [hp] at hr; cases hr
    apply h.own _ _ (not_enqueued hp (by simp)) <;> simp
  | poll scheduled_list poll_list =>
    rw [hp] at hr
    cases poll_list with
    | nil =>
      cases hr
      apply h.own _ _ (not_enqueued hp (by simp)) <;> simp
    | cons e poll_list =>
      obtain ⟨t, -, hr⟩ := Option.map_eq_some_iff.1 hr
      subst hr
      obtain ⟨cells, hc⟩ := pollEvent_cells (s := s) scheduled_list e.1 e.2 t w.revents
      dsimp only
      rw [hc]
      apply h.own _ _ (not_enqueued hp (by simp)) <;> simp
  | deploy rest =>
    rw [hp] at hr
    cases rest with
    | nil =>
      cases hr
      apply h.own _ _ (not_enqueued hp (by simp)) <;> simp
    | cons task rest =>
      obtain ⟨t, -, hr⟩ := Option.map_eq_some_iff.1 hr
      subst hr
      apply h.own _ _ (not_enqueued hp (by simp)) <;> simp
  | pend task rest =>
    rw [hp] at hr; cases hr
    apply h.own _ _ (not_enqueued hp (by simp)) <;> simp
  | validate task rest =>
    rw [hp] at hr
    obtain ⟨t, -, hr⟩ := Option.map_eq_some_iff.1 hr
    subst hr
    have hs := not_enqueued hp (by simp)
    split
    · apply h.own _ _ hs <;> simp
    · split
      · apply h.own _ _ hs <;> simp
      · rename_i hn
        apply h.own _ _ hs (by simp)
        intro hle
        exact absurd hle hn
  | enqueue task rest =>
    rw [hp] at hr; cases hr
    have hn : ¬ n_workers.toInt ≤ 0 := fun hn => (h.alone hn).2 _ _ hp
    -- the token for the queue is the post that comes next
    exact {
      workers := fun _ _ => .inr ⟨rest, rfl⟩
      alone := fun hle => absurd hle hn
      scheduler := fun hw => by simp at hw
      stopped := h.stopped
      tokens := h.tokens }
  | post rest =>
    rw [hp] at hr; cases hr
    exact {
      workers := fun _ _ => .inl (sem_post_pos _)
      alone := fun hn => ⟨(h.alone hn).1, by simp⟩
      scheduler := fun hw => by simp at hw
      stopped := h.stopped
      tokens := h.tokens.trans (Nat.add_le_add_right (le_sem_post _) _) }
  | execute e rest =>
    rw [hp] at hr
    obtain ⟨r', hr', hr⟩ := Option.map_eq_some_iff.1 hr
    subst hr
    apply h.move (execute_task_adds hr') (not_enqueued hp (by simp))
    · cases r'.2 <;> simp
    · intro _ task rest
      cases r'.2 <;> simp
  | idle =>
    rw [hp] at hr; cases hr
    have hs := not_enqueued hp (by simp)
    cases hq : s.sched.task_queue with
    | nil =>
      simp only [isNull, if_true]
      exact {
        workers := fun hall hne => .inl ((h.workers hall hne).resolve_right hs)
        alone := fun hn => ⟨(h.alone hn).1, by simp⟩
        scheduler := fun _ hne => absurd hq hne
        stopped := h.stopped
        tokens := h.tokens }
    | node k d l r => apply h.own _ _ hs <;> simp [isNull]
  | wait =>
    rw [hp] at hr
    obtain ⟨v, -, hr⟩ := Option.map_eq_some_iff.1 hr
    subst hr
    have hs := not_enqueued hp (by simp)
    exact {
      workers := fun hall hne => .inl ((h.workers hall hne).resolve_right hs)
      alone := fun hn => ⟨(h.alone hn).1, by simp⟩
      scheduler := fun hw => by simp at hw
      stopped := h.stopped
      tokens := h.tokens }
  | exited => rw [hp] at hr; cases hr

/-! ## The other threads -/

theorem other_adds {call : Call H D} {o : Option Adding} {r : Threads n_workers H D × Option Adding}
    (hr : s.other call o = some r) : Adds s r.1 (∃ a ∈ o, a.inserted) (∃ a ∈ r.2, a.inserted) := by
  cases o with
  | some a =>
    have ha : Adds s r.1 a.inserted (∃ b ∈ r.2, b.inserted) := add_task_adds hr
    refine ⟨ha.frame, ha.awake.imp_left ?_⟩
    rintro ⟨hq, hsem, hno⟩
    refine ⟨hq, hsem, ?_⟩
    rintro ⟨b, hb, hi⟩
    cases hb
    exact hno hi
  | none =>
    have hno : ¬ ∃ a ∈ (none : Option Adding), a.inserted := by simp
    cases call with
    | allocate input => cases hr; exact .of_cells hno rfl
    | add p cell =>
      obtain ⟨t, ht, hr⟩ := Option.map_eq_some_iff.1 hr
      subst hr
      exact .of_cells hno (by rw [(malloc_eq ht).2])
    | ret r => cases hr

theorem Awake.other (h : Awake s) {i : Nat} {call : Call H D} {r : Threads n_workers H D × Option Adding}
    (hr : s.other call (s.others i) = some r) : Awake { r.1 with others := Function.update s.others i r.2 } := by
  have ha := other_adds hr
  exact {
    workers := by rw [ha.frame]; exact h.workers
    alone := by rw [ha.frame]; exact h.alone
    scheduler := fun hs hq => by
      have hs : s.scheduler = .wait := by rw [ha.frame] at hs; exact hs
      refine (h.scheduler_adds ha
        ((∃ j, (s.workers j).inserted) ∨ ∃ j, j ≠ i ∧ ∃ a ∈ s.others j, a.inserted) ?_ hs hq).imp_right ?_
      · rintro (hw | ⟨j, hj⟩)
        · exact .inr (.inl hw)
        · by_cases hji : j = i
          · exact .inl (hji ▸ hj)
          · exact .inr (.inr ⟨j, hji, hj⟩)
      · rintro (⟨a, ha, hi⟩ | hw | ⟨j, hji, a, ha, hi⟩)
        · exact .inr ⟨i, a, by simpa using ha, hi⟩
        · exact .inl (by rw [ha.frame]; exact hw)
        · exact .inr ⟨j, a, by simpa [Function.update_of_ne hji] using ha, hi⟩
    stopped := by rw [ha.frame]; exact h.stopped
    tokens := by rw [ha.frame]; exact h.tokens }

theorem Awake.stop (h : Awake s) (hr : s.stopNext = some s') : Awake s' := by
  unfold stopNext at hr
  split at hr
  · -- every worker may be about to wait, and there is a post to come for each
    cases hr
    exact { h with stopped := fun _ => rfl, tokens := (idlers_le _).trans (Nat.le_add_left ..) }
  · rename_i left hs
    cases hr
    have ht := h.tokens
    rw [hs] at ht
    have hfew : s.idlers - left ≤ s.worker_sem + 1 := by
      simp only [Stopping.left] at ht
      omega
    have hle := lt_sem_post hfew ((Nat.sub_le ..).trans ((idlers_le s).trans workers_le_max))
    exact { h with
      workers := fun _ _ => .inl (sem_post_pos _)
      stopped := fun _ => h.stopped (by rw [hs]; simp)
      tokens := Nat.sub_le_iff_le_add.1 hle }
  · rename_i hs
    cases hr
    have ht := h.tokens
    rw [hs] at ht
    exact { h with
      scheduler := fun _ _ => .inl (sem_post_pos _)
      stopped := fun _ => h.stopped (by rw [hs]; simp)
      tokens := ht }
  · cases hr

/-! ## Runs -/

theorem Awake.step {scheduler_timeout : Int} {a : Action n_workers H D} (h : Awake s)
    (hs : step scheduler_timeout a s = some s') : Awake s' := by
  cases a with
  | worker i interrupted call =>
    obtain ⟨r, hr, rfl⟩ := Option.map_eq_some_iff.1 hs
    exact h.work i hr
  | scheduler w =>
    obtain ⟨r, hr, rfl⟩ := Option.map_eq_some_iff.1 hs
    exact h.wait hr
  | other i call =>
    obtain ⟨r, hr, rfl⟩ := Option.map_eq_some_iff.1 hs
    exact h.other hr
  | stop => exact h.stop hs

/-- Every worker sleeps at an empty semaphore beside a filled queue, and nobody is to post it. -/
def WorkersStuck (s : Threads n_workers H D) : Prop :=
  (∀ i, s.workers i = .wait) ∧ s.worker_sem = 0 ∧ s.workers_queue ≠ [] ∧ ¬ s.Enqueued

/-- The scheduler's thread sleeps at an empty semaphore beside a filled queue, and nobody is to post it. -/
def SchedulerStuck (s : Threads n_workers H D) : Prop :=
  s.scheduler = .wait ∧ s.scheduler_sem = 0 ∧ s.sched.task_queue ≠ .nil ∧ ¬ s.Inserted

/-- `stop` has cleared `status` and made its posts of `worker_sem`. -/
def Posted (s : Threads n_workers H D) : Prop := s.status = false ∧ (s.stop = .posting 0 ∨ s.stop = .joining)

/-- However many workers and other threads there are, and in whichever order they
take their steps, nobody sleeps through a task or through `stop`. -/
theorem no_wakeup_lost (n_workers : Int32) (scheduler_timeout : Int) (scheduler_sem worker_sem : Nat)
    (s : Threads n_workers H D)
    (h : Reachable (step scheduler_timeout) (· = antd_scheduler_init n_workers H D scheduler_sem worker_sem) s) :
    ¬ s.WorkersStuck ∧ ¬ s.SchedulerStuck ∧ (s.Posted → ∀ i, ¬ (s.workers i = .wait ∧ s.worker_sem = 0)) := by
  have hi : Awake s :=
    h.inv Awake (fun _ he => he ▸ .init n_workers scheduler_sem worker_sem) fun _ _ _ hi _ hs => hi.step hs
  refine ⟨?_, ?_, ?_⟩
  · rintro ⟨hall, hsem, hq, hno⟩
    have hpos := (hi.workers hall hq).resolve_right hno
    omega
  · rintro ⟨hw, hsem, hq, hno⟩
    have hpos := (hi.scheduler hw hq).resolve_right hno
    omega
  · rintro ⟨-, hstop⟩ i ⟨hw, hsem⟩
    have ht := hi.tokens
    have hleft : s.stop.left n_workers.toInt.toNat = 0 := by rcases hstop with hs | hs <;> rw [hs] <;> rfl
    rw [hsem, hleft, idlers, Nat.le_zero, Finset.card_eq_zero, Finset.filter_eq_empty_iff] at ht
    exact ht (Finset.mem_univ i) (by rw [hw]; rfl)

/-- A step that meets time 0 and no events. -/
def calm : Meets Nat Nat := ⟨fun _ => 0, fun _ => false, .timeout, false, .allocate 1⟩

/-- Both workers fall asleep and so does the scheduler's thread; a task is added and deployed, and
the scheduler is stopped before a worker wakes up. -/
def stoppedAsleep : List (Action 2 Nat Nat) :=
  List.replicate 2 (.worker ⟨0, by decide⟩ false (.allocate 1)) ++
    List.replicate 2 (.worker ⟨1, by decide⟩ false (.allocate 1)) ++ List.replicate 5 (.scheduler calm) ++
    List.replicate 5 (.other 0 (.add 0 ⟨0, 0, some 7, [], [], 0⟩)) ++ List.replicate 9 (.scheduler calm) ++
    List.replicate 4 .stop

theorem no_wakeup_lost_two : ∃ s : Threads 2 Nat Nat, s.idlers = 2 ∧ s.workers_queue = [0] ∧ s.Posted ∧
    ∀ i, ¬ (s.workers i = .wait ∧ s.worker_sem = 0) := by
  have hrun : ((runAll (step 30) stoppedAsleep (antd_scheduler_init 2 Nat Nat 0 0)).any fun s =>
      decide (s.idlers = 2 ∧ s.workers_queue = [0] ∧ s.status = false ∧ (s.stop = .posting 0 ∨ s.stop = .joining))) =
        true := by decide +kernel
  obtain ⟨s, hs, hidle, hq, hposted⟩ := Runs.ends_in hrun
  exact ⟨s, hidle, hq, hposted, (no_wakeup_lost 2 30 0 0 s (reachable_runAll (.init rfl) hs)).2.2 hposted⟩

end Threads

end AntHttp
