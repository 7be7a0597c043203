import AntHttp.Wakeup
/-!
# A task is executed with a handle

After a poll error the scheduler's thread takes away the handle of a task that
is still queued, and its access time with it. Nobody else may hold that task,
and it must not pass `antd_scheduler_validate_data`. So every task object has a
place: it is queued (also when another task of its id has replaced it in the
queue), on its way through `antd_task_schedule`, deployed, or in the hands of
one thread. Only in the first two places may it be without a handle, and then
its access time is 0.
-/

namespace AntHttp

open Bst Runs

/-- A task that is first added has a handle. -/
def Call.Handled {H D : Type} : Call H D → Prop
  | .add _ cell => cell.handle ≠ none
  | .allocate _ | .ret _ => True

namespace Threads

/-! ## Places -/

inductive Agent where
  | worker (i : Nat)
  | other (i : Nat)
  | scheduler

/-- A thread holds the task it executes and a task it is about to add. -/
inductive Role where
  | executed | added

inductive Place where
  | free
  | queued
  | scheduled
  | deployed
  | held (g : Agent) (r : Role)

variable {n_workers : Int32} {H D : Type} {s s' : Threads n_workers H D} {pl pl' : Nat → Place} {g : Agent}

/-- An entry of a tree of tasks: the task is queued, under its id. -/
def QueuedEntry (pl : Nat → Place) (m : Cells H D) (e : Int × Nat) : Prop :=
  pl e.2 = .queued ∧ ∃ t, m e.2 = some t ∧ t.id = e.1

/-- Every task of the tree is queued, under its id. -/
structure QueuedTree (pl : Nat → Place) (m : Cells H D) (t : Node Nat) : Prop where
  ordered : Ordered t
  entries : ∀ e ∈ toList t, QueuedEntry pl m e

/-- The tasks of the round that are still to be deployed. -/
def Remaining (pl : Nat → Place) (rest : List Nat) : Prop := rest.Nodup ∧ ∀ p ∈ rest, pl p = .queued

/-- What the shared variables hold. -/
structure Shared (pl : Nat → Place) (s : Threads n_workers H D) : Prop where
  free : ∀ p, s.cells p = none ↔ pl p = .free
  null : ∀ p t, s.cells p = some t → t.handle = none → t.access_time = 0 ∧ (pl p = .queued ∨ pl p = .scheduled)
  queue : QueuedTree pl s.cells s.sched.task_queue
  deployed : s.workers_queue.Nodup ∧ ∀ p ∈ s.workers_queue, pl p = .deployed

def HoldsAdding (pl : Nat → Place) (g : Agent) : Adding → Prop
  | .next_id task | .insert task => pl task = .held g .added
  | .pend | .post => True

def HoldsExecuting (pl : Nat → Place) (g : Agent) : Executing → Prop
  | .enter task | .destroy task => pl task = .held g .executed
  | .handler task own => pl task = .held g .executed ∧ ∀ a ∈ own, HoldsAdding pl g a
  | .add a old => HoldsAdding pl g a ∧ ∀ task ∈ old, pl task = .held g .executed

def HoldsWorking (pl : Nat → Place) (g : Agent) : Working → Prop
  | .execute e => HoldsExecuting pl g e
  | _ => True

def HoldsScheduling (pl : Nat → Place) (m : Cells H D) : Scheduling → Prop
  | .poll scheduled_list poll_list => QueuedTree pl m scheduled_list ∧ ∀ e ∈ poll_list, pl e.2 = .queued
  | .deploy rest | .post rest => Remaining pl rest
  | .pend task rest | .validate task rest => pl task = .scheduled ∧ Remaining pl rest
  | .enqueue task rest => (pl task = .scheduled ∧ ∃ t, m task = some t ∧ t.handle ≠ none) ∧ Remaining pl rest
  | .execute e rest => HoldsExecuting pl .scheduler e ∧ Remaining pl rest
  | .check | .collect | .idle | .wait | .exited => True

/-- Every task object is in one place. -/
structure Placed (pl : Nat → Place) (s : Threads n_workers H D) : Prop where
  shared : Shared pl s
  workers : ∀ i : Fin n_workers.toInt.toNat, HoldsWorking pl (.worker i) (s.workers i)
  others : ∀ i, ∀ a ∈ s.others i, HoldsAdding pl (.other i) a
  scheduler : HoldsScheduling pl s.cells s.scheduler

/-! ## What a move leaves alone -/

/-- Objects in the places that are not moved stay there as they are. -/
def Keeps (moved : Place → Prop) (pl pl' : Nat → Place) (m m' : Cells H D) : Prop :=
  ∀ p, pl p ≠ .free → ¬ moved (pl p) → pl' p = pl p ∧ m' p = m p

section Keeps

variable {moved : Place → Prop} {m m' : Cells H D}

theorem Keeps.refl : Keeps moved pl pl m m := fun _ _ _ => ⟨rfl, rfl⟩

/-- Nothing moves. -/
theorem Keeps.all (pl : Nat → Place) (m : Cells H D) : Keeps (fun _ => False) pl pl m m := Keeps.refl

theorem Keeps.mono {moved' : Place → Prop} (h : Keeps moved pl pl' m m') (hm : ∀ x, moved x → moved' x) :
    Keeps moved' pl pl' m m' := fun p hp hn => h p hp fun hx => hn (hm _ hx)

theorem Keeps.place (h : Keeps moved pl pl' m m') {x : Place} (hx : x ≠ .free) (hm : ¬ moved x) {p : Nat}
    (hp : pl p = x) : pl' p = x := by
  subst hp
  exact (h p hx hm).1

/-- One object changes; it was in a place that is moved, or it is new. -/
theorem Keeps.update {p : Nat} (hp : pl p = .free ∨ moved (pl p)) (x : Place) (c : Option (TaskCell H D)) :
    Keeps moved pl (Function.update pl p x) m (Function.update m p c) := by
  intro q hq hn
  have hne : q ≠ p := by
    rintro rfl
    exact hp.elim hq hn
  exact ⟨Function.update_of_ne hne .., Function.update_of_ne hne ..⟩

theorem Keeps.trans {pl'' : Nat → Place} {m'' : Cells H D} (h : Keeps moved pl pl' m m')
    (h' : Keeps moved pl' pl'' m' m'') : Keeps moved pl pl'' m m'' := by
  intro p hp hn
  obtain ⟨h1, h2⟩ := h p hp hn
  obtain ⟨h3, h4⟩ := h' p (h1 ▸ hp) (h1 ▸ hn)
  exact ⟨h3.trans h1, h4.trans h2⟩

/-- One object changes its place only. -/
theorem Keeps.move {p : Nat} (hp : moved (pl p)) (x : Place) : Keeps moved pl (Function.update pl p x) m m := by
  intro q hq hn
  have hne : q ≠ p := by
    rintro rfl
    exact hn hp
  exact ⟨Function.update_of_ne hne .., rfl⟩

theorem QueuedTree.keeps {t : Node Nat} (h : QueuedTree pl m t) (hk : Keeps moved pl pl' m m') (hm : ¬ moved .queued) :
    QueuedTree pl' m' t where
  ordered := h.ordered
  entries e he := by
    obtain ⟨hq, u, hu, hid⟩ := h.entries e he
    have hkept := hk e.2 (by simp [hq]) (by rwa [hq])
    exact ⟨hkept.1.trans hq, u, hkept.2.trans hu, hid⟩

theorem Remaining.keeps {rest : List Nat} (h : Remaining pl rest) (hk : Keeps moved pl pl' m m') (hm : ¬ moved .queued) :
    Remaining pl' rest :=
  ⟨h.1, fun p hp => hk.place (by simp) hm (h.2 p hp)⟩

theorem HoldsAdding.keeps {a : Adding} (h : HoldsAdding pl g a) (hk : Keeps moved pl pl' m m')
    (hm : ¬ moved (.held g .added)) : HoldsAdding pl' g a := by
  cases a with
  | next_id task => exact hk.place (by simp) hm h
  | insert task => exact hk.place (by simp) hm h
  | pend => trivial
  | post => trivial

theorem HoldsExecuting.keeps {e : Executing} (h : HoldsExecuting pl g e) (hk : Keeps moved pl pl' m m')
    (hm : ∀ r, ¬ moved (.held g r)) : HoldsExecuting pl' g e := by
  cases e with
  | enter task => exact hk.place (by simp) (hm _) h
  | handler task own => exact ⟨hk.place (by simp) (hm _) h.1, fun a ha => (h.2 a ha).keeps hk (hm _)⟩
  | add a old => exact ⟨h.1.keeps hk (hm _), fun p hp => hk.place (by simp) (hm _) (h.2 p hp)⟩
  | destroy task => exact hk.place (by simp) (hm _) h

theorem HoldsWorking.keeps {w : Working} (h : HoldsWorking pl g w) (hk : Keeps moved pl pl' m m')
    (hm : ∀ r, ¬ moved (.held g r)) : HoldsWorking pl' g w := by
  cases w with
  | execute e => exact HoldsExecuting.keeps h hk hm
  | check => trivial
  | dequeue => trivial
  | wait => trivial
  | exited => trivial

theorem HoldsScheduling.keeps {p : Scheduling} (h : HoldsScheduling pl m p) (hk : Keeps moved pl pl' m m')
    (hq : ¬ moved .queued) (hs : ¬ moved .scheduled) (hm : ∀ r, ¬ moved (.held .scheduler r)) :
    HoldsScheduling pl' m' p := by
  cases p with
  | poll scheduled_list poll_list => exact ⟨h.1.keeps hk hq, fun e he => hk.place (by simp) hq (h.2 e he)⟩
  | deploy rest => exact Remaining.keeps h hk hq
  | post rest => exact Remaining.keeps h hk hq
  | pend task rest => exact ⟨hk.place (by simp) hs h.1, h.2.keeps hk hq⟩
  | validate task rest => exact ⟨hk.place (by simp) hs h.1, h.2.keeps hk hq⟩
  | enqueue task rest =>
    obtain ⟨⟨hp, t, ht, hh⟩, hr⟩ := h
    have hkept := hk task (by simp [hp]) (by rwa [hp])
    exact ⟨⟨hkept.1.trans hp, t, hkept.2.trans ht, hh⟩, hr.keeps hk hq⟩
  | execute e rest => exact ⟨h.1.keeps hk hm, h.2.keeps hk hq⟩
  | check => trivial
  | collect => trivial
  | idle => trivial
  | wait => trivial
  | exited => trivial

end Keeps

/-! ## The shared variables -/

/-- The queue after an insertion under the task's own id. -/
theorem QueuedTree.insert {m : Cells H D} {t : Node Nat} (h : QueuedTree pl m t) {p : Nat} {c : TaskCell H D}
    (hp : pl p = .queued) (hc : m p = some c) : QueuedTree pl m (bst_insert t c.id p) where
  ordered := ordered_insert h.ordered ..
  entries e he := by
    rw [toList_insert h.ordered] at he
    rcases Assoc.mem_put he with rfl | he
    · exact ⟨hp, c, hc, rfl⟩
    · exact h.entries e he

/-- A queued task whose id is deleted is not in the tree any more. -/
theorem QueuedTree.delete {m : Cells H D} {t : Node Nat} (h : QueuedTree pl m t) {p : Nat} {c : TaskCell H D}
    (hc : m p = some c) : QueuedTree pl m (bst_delete t c.id) ∧ ∀ e ∈ toList (bst_delete t c.id), e.2 ≠ p := by
  refine ⟨⟨ordered_delete h.ordered _, fun e he => ?_⟩, fun e he hep => ?_⟩
  · rw [toList_delete h.ordered] at he
    exact h.entries e (List.mem_of_mem_filter he)
  · rw [toList_delete h.ordered] at he
    obtain ⟨he, hid⟩ := List.mem_filter.1 he
    obtain ⟨-, u, hu, hk⟩ := h.entries e he
    rw [hep, hc] at hu
    cases hu
    simp [hk] at hid

/-- One object moves between places that do not need to be queued; its handle is
there, unless the new place allows it to be missing. -/
theorem Shared.update (h : Shared pl s) {p : Nat} {x : Place} {c : TaskCell H D} (hx : x ≠ .free)
    (hp : pl p ≠ .queued) (hp' : pl p ≠ .deployed) (hc : c.handle ≠ none) :
    Shared (Function.update pl p x) { s with cells := Function.update s.cells p (some c) } where
  free q := by
    by_cases hq : q = p
    · subst hq; simp [hx]
    · simpa [Function.update_of_ne hq] using h.free q
  null q t ht hn := by
    by_cases hq : q = p
    · subst hq
      simp only [Function.update_self, Option.some.injEq] at ht
      exact absurd (ht ▸ hn) hc
    · simp only [Function.update_of_ne hq] at ht ⊢
      exact h.null q t ht hn
  queue := by
    have hk : Keeps (pl p = ·) pl (Function.update pl p x) s.cells (Function.update s.cells p (some c)) :=
      Keeps.update (.inr rfl) _ _
    exact h.queue.keeps hk hp
  deployed := ⟨h.deployed.1, fun q hq => by
    have hq' := h.deployed.2 q hq
    rw [Function.update_of_ne (by rintro rfl; exact hp' hq'), hq']⟩

/-- An object that no list refers to is freed. -/
theorem Shared.destroy (h : Shared pl s) {p : Nat} (hp : pl p ≠ .queued) (hp' : pl p ≠ .deployed) :
    Shared (Function.update pl p .free) { s with cells := s.cells.destroy_task p } where
  free q := by
    by_cases hq : q = p
    · subst hq; simp [Cells.destroy_task]
    · simpa [Cells.destroy_task, Function.update_of_ne hq] using h.free q
  null q t ht hn := by
    by_cases hq : q = p
    · subst hq; simp [Cells.destroy_task] at ht
    · simp only [Cells.destroy_task, Function.update_of_ne hq] at ht ⊢
      exact h.null q t ht hn
  queue := by
    have hk : Keeps (pl p = ·) pl (Function.update pl p .free) s.cells (s.cells.destroy_task p) :=
      Keeps.update (.inr rfl) _ _
    exact h.queue.keeps hk hp
  deployed := ⟨h.deployed.1, fun q hq => by
    have hq' := h.deployed.2 q hq
    rw [Function.update_of_ne (by rintro rfl; exact hp' hq'), hq']⟩

theorem Shared.some_of_place (h : Shared pl s) {p : Nat} {x : Place} (hp : pl p = x) (hx : x ≠ .free) :
    ∃ t, s.cells p = some t := by
  rw [← Option.ne_none_iff_exists']
  intro hn
  exact hx (hp.symm.trans ((h.free p).1 hn))

/-- A task that a thread holds has a handle. -/
theorem Shared.handle (h : Shared pl s) {p : Nat} {r : Role} (hp : pl p = .held g r) {t : TaskCell H D}
    (ht : s.cells p = some t) : t.handle ≠ none := by
  intro hn
  rcases (h.null p t ht hn).2 with hq | hq
  · rw [hp] at hq; cases hq
  · rw [hp] at hq; cases hq

/-- A held task is inserted into the queue. -/
theorem Shared.insert (h : Shared pl s) {p : Nat} {r : Role} (hp : pl p = .held g r) {t : TaskCell H D}
    (ht : s.cells p = some t) :
    Shared (Function.update pl p .queued) { s with sched := s.sched.insert t.id p } where
  free q := by
    by_cases hq : q = p
    · subst hq; simp [ht]
    · simpa [Function.update_of_ne hq] using h.free q
  null q u hu hn := by
    by_cases hq : q = p
    · subst hq
      rw [ht] at hu
      cases hu
      exact absurd hn (h.handle hp ht)
    · simp only [Function.update_of_ne hq]
      exact h.null q u hu hn
  queue := by
    have hk : Keeps (· = .held g r) pl (Function.update pl p .queued) s.cells s.cells := Keeps.move hp _
    exact (h.queue.keeps hk (by simp)).insert (by simp) ht
  deployed := ⟨h.deployed.1, fun q hq => by
    have hq' := h.deployed.2 q hq
    rw [Function.update_of_ne (by rintro rfl; rw [hp] at hq'; cases hq'), hq']⟩

/-! ## Adding -/

theorem Shared.add_task (h : Shared pl s) {a : Adding} (ha : HoldsAdding pl g a) {a' : Option Adding}
    (hs : s.antd_scheduler_add_task a = some (s', a')) :
    ∃ pl', Shared pl' s' ∧ (∀ b ∈ a', HoldsAdding pl' g b) ∧ Keeps (· = .held g .added) pl pl' s.cells s'.cells := by
  cases a with
  | next_id task =>
    obtain ⟨t, ht, hs⟩ := Option.map_eq_some_iff.1 hs
    have ha : pl task = .held g .added := ha
    split at hs
    · cases hs
      refine ⟨Function.update pl task (.held g .added), ?_, ?_, Keeps.update (.inr ha) _ _⟩
      · have hh : t.handle ≠ none := h.handle ha ht
        have hu := h.update (p := task) (x := .held g .added) (c := { t with id := (antd_scheduler_next_id s.sched t.id).1 })
          (by simp) (by simp [ha]) (by simp [ha]) hh
        exact { hu with }
      · simp [HoldsAdding]
    · cases hs
      refine ⟨pl, h, ?_, Keeps.refl⟩
      simpa [HoldsAdding] using ha
  | insert task =>
    obtain ⟨t, ht, hs⟩ := Option.map_eq_some_iff.1 hs
    cases hs
    exact ⟨_, h.insert ha ht, by simp [HoldsAdding], Keeps.move ha _⟩
  | pend =>
    cases hs
    exact ⟨pl, { h with }, by simp [HoldsAdding], Keeps.refl⟩
  | post =>
    cases hs
    exact ⟨pl, { h with }, by simp, Keeps.refl⟩

/-- A task object is made for a thread, with a handle. -/
theorem Shared.malloc (h : Shared pl s) {p : Nat} {cell : TaskCell H D} (hs : s.malloc p cell = some s')
    (hc : cell.handle ≠ none) (g : Agent) :
    Shared (Function.update pl p (.held g .added)) s' ∧ pl p = .free ∧
      Keeps (fun _ => False) pl (Function.update pl p (.held g .added)) s.cells s'.cells := by
  obtain ⟨hp, rfl⟩ := malloc_eq hs
  have hfree := (h.free p).1 hp
  exact ⟨h.update (by simp) (by simp [hfree]) (by simp [hfree]) hc, hfree, Keeps.update (.inl hfree) _ _⟩

/-! ## Executing -/

theorem next_handle {t u : TaskCell H D} (h : t.next = some u) : u.handle ≠ none := by
  obtain ⟨_, _, handle, callback, _, _⟩ := t
  cases handle with
  | some f => cases h; simp
  | none =>
    cases callback with
    | nil => cases h
    | cons cb rest => cases h; simp

/-- The thread that executes a task moves what it holds. -/
abbrev HeldBy (g : Agent) (x : Place) : Prop := ∃ r, x = .held g r

/-- The object at `p` goes on, held to be added, or it is freed. -/
theorem Shared.next (h : Shared pl s) {p : Nat} (hp : pl p = .free ∨ pl p = .held g .executed) (t : TaskCell H D)
    (old : Option Nat) (hold : ∀ q ∈ old, q ≠ p ∧ pl q = .held g .executed) :
    ∃ pl', Shared pl' { s with cells := Function.update s.cells p t.next } ∧
      (∀ b ∈ afterReturn (t.next.map fun _ => p) old, HoldsExecuting pl' g b) ∧
      Keeps (HeldBy g) pl pl' s.cells (Function.update s.cells p t.next) := by
  have hk : pl p = .free ∨ HeldBy g (pl p) := hp.imp_right fun h => ⟨_, h⟩
  have hnq : pl p ≠ .queued := by rcases hp with hp | hp <;> simp [hp]
  have hnd : pl p ≠ .deployed := by rcases hp with hp | hp <;> simp [hp]
  cases hn : t.next with
  | some u =>
    refine ⟨_, h.update (x := .held g .added) (by simp) hnq hnd (next_handle hn), ?_, Keeps.update hk _ _⟩
    simp only [Option.map_some, afterReturn, Option.mem_some_iff, forall_eq', HoldsExecuting, HoldsAdding,
      Function.update_self, true_and]
    intro q hq
    rw [Function.update_of_ne (hold q hq).1]
    exact (hold q hq).2
  | none =>
    refine ⟨_, h.destroy hnq hnd, ?_, Keeps.update hk _ _⟩
    intro b hb
    obtain ⟨q, hq, rfl⟩ := Option.mem_map.1 hb
    simp only [HoldsExecuting]
    rw [Function.update_of_ne (hold q hq).1]
    exact (hold q hq).2

theorem Shared.returned_none (h : Shared pl s) {task : Nat} {e : Option Executing} (hp : pl task = .held g .executed)
    (hs : s.returned task none = some (s', e)) :
    ∃ pl', Shared pl' s' ∧ (∀ b ∈ e, HoldsExecuting pl' g b) ∧ Keeps (HeldBy g) pl pl' s.cells s'.cells := by
  obtain ⟨t, ht⟩ := h.some_of_place hp (by simp)
  rw [returned, Cells.antd_execute_task_none ht] at hs
  have hn := h.next (.inr hp) { t with handle := none } none (by simp)
  cases hs
  exact hn

theorem Shared.returned_some (h : Shared pl s) {task p : Nat} {cell : TaskCell H D} {t' : Threads n_workers H D}
    {e : Option Executing} (hp : pl task = .held g .executed) (hm : s.malloc p cell = some t')
    (hs : t'.returned task (some p) = some (s', e)) :
    ∃ pl', Shared pl' s' ∧ (∀ b ∈ e, HoldsExecuting pl' g b) ∧ Keeps (HeldBy g) pl pl' s.cells s'.cells := by
  obtain ⟨hnone, rfl⟩ := malloc_eq hm
  obtain ⟨t, ht⟩ := h.some_of_place hp (by simp)
  have hne : p ≠ task := by
    rintro rfl
    rw [hnone] at ht
    cases ht
  have hfree : pl p = .free := (h.free p).1 hnone
  -- the callbacks leave the old object, then the new one takes its place on the heap
  have hh : t.handle ≠ none := h.handle hp ht
  have h1 := h.update (p := task) (x := .held g .executed) (c := { t with callback := [] }) (by simp) (by simp [hp])
    (by simp [hp]) hh
  have hk1 : Keeps (HeldBy g) pl (Function.update pl task (.held g .executed)) s.cells
      (Function.update s.cells task (some { t with callback := [] })) := Keeps.update (.inr ⟨_, hp⟩) _ _
  obtain ⟨pl2, h2, he, hk2⟩ := h1.next (g := g) (p := p) (.inl (by rw [Function.update_of_ne hne, hfree]))
    { cell with callback := cell.callback ++ t.callback } (some task) (by simp [Ne.symm hne])
  have hcells : (Function.update s.cells p (some cell)) task = some t := by rwa [Function.update_of_ne (Ne.symm hne)]
  rw [returned, Cells.antd_execute_task_some hne hcells (Function.update_self ..), Function.update_comm hne,
    Function.update_idem] at hs
  cases hs
  exact ⟨pl2, h2, he, hk1.trans hk2⟩

theorem Shared.execute_task (h : Shared pl s) {call : Call H D} (hc : call.Handled) {e : Executing}
    (he : HoldsExecuting pl g e) {e' : Option Executing} (hs : s.antd_execute_task call e = some (s', e')) :
    ∃ pl', Shared pl' s' ∧ (∀ b ∈ e', HoldsExecuting pl' g b) ∧ Keeps (HeldBy g) pl pl' s.cells s'.cells := by
  have hadded : ∀ x : Place, x = .held g .added → HeldBy g x := fun _ hx => ⟨_, hx⟩
  cases e with
  | enter task =>
    obtain ⟨-, -, hs⟩ := Option.map_eq_some_iff.1 hs
    cases hs
    exact ⟨pl, h, by simpa [HoldsExecuting] using he, Keeps.refl⟩
  | handler task own =>
    cases own with
    | some a =>
      -- the handler is inside its own call of `antd_scheduler_add_task`
      obtain ⟨r, hr, hs⟩ := Option.map_eq_some_iff.1 hs
      cases hs
      obtain ⟨pl', h', ha, hk⟩ := h.add_task (he.2 a rfl) hr
      refine ⟨pl', h', ?_, hk.mono hadded⟩
      simp only [Option.mem_some_iff, forall_eq', HoldsExecuting]
      exact ⟨hk.place (by simp) (by simp) he.1, ha⟩
    | none =>
      cases call with
      | allocate input =>
        cases hs
        exact ⟨pl, { h with }, by simpa [HoldsExecuting] using he, Keeps.refl⟩
      | add p cell =>
        obtain ⟨r, hr, hs⟩ := Option.map_eq_some_iff.1 hs
        cases hs
        obtain ⟨h', hfree, hk⟩ := h.malloc hr hc g
        refine ⟨_, h', ?_, hk.mono fun _ => False.elim⟩
        simp only [Option.mem_some_iff, forall_eq', HoldsExecuting, HoldsAdding, Function.update_self, and_true]
        exact hk.place (by simp) id he.1
      | ret r =>
        cases r with
        | none => exact h.returned_none he.1 hs
        | some r =>
          obtain ⟨t, ht, hs⟩ := Option.bind_eq_some_iff.1 hs
          exact h.returned_some he.1 ht hs
  | add a old =>
    obtain ⟨r, hr, hs⟩ := Option.map_eq_some_iff.1 hs
    cases hs
    obtain ⟨pl', h', ha, hk⟩ := h.add_task he.1 hr
    have hold : ∀ task ∈ old, pl' task = .held g .executed := fun task ht => hk.place (by simp) (by simp) (he.2 task ht)
    -- when the insertion is done, the old task is all that is left to destroy
    refine ⟨pl', h', ?_, hk.mono hadded⟩
    intro b hb
    split at hb
    · rename_i a' hra
      cases hb
      exact ⟨ha a' hra, hold⟩
    · obtain ⟨task, ht, rfl⟩ := Option.mem_map.1 hb
      exact hold task ht
  | destroy task =>
    cases hs
    have he : pl task = .held g .executed := he
    exact ⟨_, h.destroy (by simp [he]) (by simp [he]), by simp, Keeps.update (.inr ⟨_, he⟩) _ _⟩

/-! ## Workers and other threads -/

/-- A worker takes the first deployed task. -/
theorem Shared.dequeue (h : Shared pl s) {task : Nat} {rest : List Nat} (hq : s.workers_queue = task :: rest) (g : Agent) :
    Shared (Function.update pl task (.held g .executed)) { s with workers_queue := rest } ∧
      Keeps (· = .deployed) pl (Function.update pl task (.held g .executed)) s.cells s.cells := by
  have hnodup := h.deployed.1
  have hall := h.deployed.2
  rw [hq] at hnodup hall
  have htask := hall task List.mem_cons_self
  have hk : Keeps (· = .deployed) pl (Function.update pl task (.held g .executed)) s.cells s.cells := Keeps.move htask _
  refine ⟨⟨fun q => ?_, fun q t ht hn => ?_, h.queue.keeps hk (by simp), ?_⟩, hk⟩
  · by_cases hqt : q = task
    · subst hqt
      obtain ⟨t, ht⟩ := h.some_of_place htask (by simp)
      simp [ht]
    · simpa [Function.update_of_ne hqt] using h.free q
  · have hold := h.null q t ht hn
    have hqt : q ≠ task := by
      rintro rfl
      simp [htask] at hold
    rwa [Function.update_of_ne hqt]
  · obtain ⟨hnot, hnodup⟩ := List.nodup_cons.1 hnodup
    refine ⟨hnodup, fun q hqr => ?_⟩
    rw [Function.update_of_ne (by rintro rfl; exact hnot hqr)]
    exact hall q (List.mem_cons_of_mem _ hqr)

/-- A worker's step moves what is deployed or what the worker holds. -/
theorem Placed.worker (h : Placed pl s) {moved : Place → Prop} {t : Threads n_workers H D} (hs : Shared pl' t)
    (i : Fin n_workers.toInt.toNat) {w : Working} (hw : HoldsWorking pl' (.worker i) w)
    (hk : Keeps moved pl pl' s.cells t.cells) (hm : ∀ x, moved x → x = .deployed ∨ HeldBy (.worker i) x)
    (ho : t.others = s.others) (hp : t.scheduler = s.scheduler) :
    Placed pl' { t with workers := Function.update s.workers i w } where
  shared := { hs with }
  workers j := by
    by_cases hji : j = i
    · subst hji; simpa using hw
    · simp only [Function.update_of_ne hji]
      apply (h.workers j).keeps hk
      intro r hx
      rcases hm _ hx with hx | ⟨r', hx⟩
      · cases hx
      · simp only [Place.held.injEq, Agent.worker.injEq] at hx
        exact hji (Fin.ext hx.1)
  others j a ha := by
    dsimp only at ha
    rw [ho] at ha
    apply (h.others j a ha).keeps hk
    intro hx
    rcases hm _ hx with hx | ⟨r', hx⟩ <;> cases hx
  scheduler := by
    dsimp only
    rw [hp]
    apply h.scheduler.keeps hk
    · intro hx; rcases hm _ hx with hx | ⟨r, hx⟩ <;> cases hx
    · intro hx; rcases hm _ hx with hx | ⟨r, hx⟩ <;> cases hx
    · intro r hx; rcases hm _ hx with hx | ⟨r, hx⟩ <;> cases hx

theorem Placed.work (h : Placed pl s) (i : Fin n_workers.toInt.toNat) {interrupted : Bool} {call : Call H D}
    (hc : call.Handled) {r : Threads n_workers H D × Working} (hr : s.work interrupted call (s.workers i) = some r) :
    ∃ pl', Placed pl' { r.1 with workers := Function.update s.workers i r.2 } := by
  have hstay : ∀ {w : Working}, HoldsWorking pl (.worker i) w →
      Placed pl { s with workers := Function.update s.workers i w } := fun hw =>
    h.worker h.shared i hw (.all pl s.cells) (fun _ => False.elim) rfl rfl
  have hi := h.workers i
  cases hw : s.workers i with
  | check =>
    rw [hw] at hr; cases hr
    refine ⟨pl, hstay ?_⟩
    cases s.status <;> trivial
  | dequeue =>
    rw [hw] at hr
    cases hq : s.workers_queue with
    | nil =>
      simp only [Threads.work, hq, Option.some.injEq] at hr
      subst hr
      exact ⟨pl, hstay trivial⟩
    | cons task rest =>
      simp only [Threads.work, hq, Option.some.injEq] at hr
      subst hr
      obtain ⟨h', hk⟩ := h.shared.dequeue hq (.worker i)
      exact ⟨_, h.worker h' i (by simp [HoldsWorking, HoldsExecuting]) hk (fun _ => .inl) rfl rfl⟩
  | wait =>
    rw [hw] at hr
    obtain ⟨v, -, hr⟩ := Option.map_eq_some_iff.1 hr
    subst hr
    have h' := hstay (w := .check) trivial
    exact ⟨pl, { h' with shared := { h'.shared with } }⟩
  | execute e =>
    rw [hw] at hr hi
    obtain ⟨r', hr', hr⟩ := Option.map_eq_some_iff.1 hr
    subst hr
    have hframe := (execute_task_adds hr').frame
    obtain ⟨pl', h', he, hk⟩ := h.shared.execute_task hc hi hr'
    refine ⟨pl', h.worker h' i ?_ hk (fun _ => .inr) (by rw [hframe]) (by rw [hframe])⟩
    cases hn : r'.2 with
    | some b => exact he b hn
    | none => trivial
  | exited => rw [hw] at hr; cases hr

theorem Placed.other (h : Placed pl s) {i : Nat} {call : Call H D} (hc : call.Handled)
    {r : Threads n_workers H D × Option Adding} (hr : s.other call (s.others i) = some r) :
    ∃ pl', Placed pl' { r.1 with others := Function.update s.others i r.2 } := by
  have hframe := (other_adds hr).frame
  -- such a thread only adds tasks
  have hnext : ∃ pl', Shared pl' r.1 ∧ (∀ a ∈ r.2, HoldsAdding pl' (.other i) a) ∧
      Keeps (HeldBy (.other i)) pl pl' s.cells r.1.cells := by
    cases ho : s.others i with
    | some a =>
      rw [ho] at hr
      obtain ⟨pl', h', ha, hk⟩ := h.shared.add_task (h.others i a ho) hr
      exact ⟨pl', h', ha, hk.mono fun _ hx => ⟨_, hx⟩⟩
    | none =>
      rw [ho] at hr
      cases call with
      | allocate input =>
        cases hr
        exact ⟨pl, { h.shared with }, by simp, Keeps.refl⟩
      | add p cell =>
        obtain ⟨t, ht, hr⟩ := Option.map_eq_some_iff.1 hr
        subst hr
        obtain ⟨h', hfree, hk⟩ := h.shared.malloc ht hc (.other i)
        exact ⟨_, h', by simp [HoldsAdding], hk.mono fun _ => False.elim⟩
      | ret r => cases hr
  obtain ⟨pl', h', ha, hk⟩ := hnext
  refine ⟨pl', { h' with }, ?_, ?_, ?_⟩
  · intro j
    dsimp only
    rw [hframe]
    apply (h.workers j).keeps hk
    rintro r ⟨r', hx⟩
    cases hx
  · intro j a haj
    by_cases hji : j = i
    · subst hji
      exact ha a (by simpa using haj)
    · simp only [Function.update_of_ne hji] at haj
      apply (h.others j a haj).keeps hk
      rintro ⟨r', hx⟩
      cases hx
      exact hji rfl
  · dsimp only
    rw [hframe]
    apply h.scheduler.keeps hk
    · rintro ⟨r', hx⟩; cases hx
    · rintro ⟨r', hx⟩; cases hx
    · rintro r ⟨r', hx⟩; cases hx

/-! ## The scheduler's thread -/

/-- The scheduler's step moves what is queued, on its way or executed by itself. -/
theorem Placed.scheduled (h : Placed pl s) {moved : Place → Prop} {t : Threads n_workers H D} (hs : Shared pl' t)
    {p : Scheduling} (hp : HoldsScheduling pl' t.cells p) (hk : Keeps moved pl pl' s.cells t.cells)
    (hm : ∀ x, moved x → x = .queued ∨ x = .scheduled ∨ HeldBy .scheduler x) (hw : t.workers = s.workers)
    (ho : t.others = s.others) : Placed pl' { t with scheduler := p } where
  shared := { hs with }
  workers i := by
    dsimp only
    rw [hw]
    apply (h.workers i).keeps hk
    intro r hx
    rcases hm _ hx with hx | hx | ⟨r', hx⟩ <;> cases hx
  others i a ha := by
    dsimp only at ha
    rw [ho] at ha
    apply (h.others i a ha).keeps hk
    intro hx
    rcases hm _ hx with hx | hx | ⟨r', hx⟩ <;> cases hx
  scheduler := hp

/-- The same where no object moves. -/
theorem Placed.at_scheduler (h : Placed pl s) {t : Threads n_workers H D} (hs : Shared pl t) (hcells : t.cells = s.cells)
    {p : Scheduling} (hp : HoldsScheduling pl s.cells p) (hw : t.workers = s.workers) (ho : t.others = s.others) :
    Placed pl { t with scheduler := p } :=
  h.scheduled hs (by rwa [hcells]) (by rw [hcells]; exact .all pl s.cells) (fun _ => False.elim) hw ho

/-- What a round has collected so far. -/
def Collected (pl : Nat → Place) (m : Cells H D) (acc : Node Nat × List (TaskEvent × Nat)) : Prop :=
  QueuedTree pl m acc.1 ∧ ∀ e ∈ acc.2, pl e.2 = .queued

theorem collect_task {m : Cells H D} (valid : TaskCell H D → Bool) (elapsed : TaskEvent → Bool)
    {acc : Node Nat × List (TaskEvent × Nat)} (h : Collected pl m acc) {task : Nat} (ht : pl task = .queued) :
    Collected pl m (task_event_collect m valid elapsed acc task) := by
  unfold task_event_collect
  cases hc : m task with
  | none => exact h
  | some t =>
    have hins : ∀ {acc}, Collected pl m acc → Collected pl m (bst_insert acc.1 t.id task, acc.2) := fun ha =>
      ⟨ha.1.insert ht hc, ha.2⟩
    dsimp only
    split
    · exact hins h
    · generalize t.events = events
      induction events generalizing acc with
      | nil => exact h
      | cons evt events ih =>
        rw [List.foldl_cons]
        apply ih
        split
        · exact hins h
        · split
          · split
            · exact hins h
            · exact h
          · refine ⟨h.1, fun e he => ?_⟩
            rcases List.mem_append.1 he with he | he
            · exact h.2 e he
            · rw [List.mem_singleton.1 he]; exact ht

/-- The lists that a round polls refer to queued tasks. -/
theorem collect_all (h : Shared pl s) (valid : Nat → TaskCell H D → Bool) (elapsed : TaskEvent → Bool) :
    Collected pl s.cells (((toList s.sched.task_queue).map Prod.snd).foldl
      (fun acc task => task_event_collect s.cells (valid task) elapsed acc task) (.nil, [])) := by
  have hall : ∀ task ∈ (toList s.sched.task_queue).map Prod.snd, pl task = .queued := by
    intro task ht
    obtain ⟨e, he, rfl⟩ := List.mem_map.1 ht
    exact (h.queue.entries e he).1
  have hempty : Collected pl s.cells (.nil, []) :=
    ⟨⟨ordered_nil, fun _ he => (List.not_mem_nil he).elim⟩, fun _ he => (List.not_mem_nil he).elim⟩
  generalize (toList s.sched.task_queue).map Prod.snd = tasks at hall
  revert hempty
  generalize ((Node.nil, []) : Node Nat × List (TaskEvent × Nat)) = acc
  induction tasks generalizing acc with
  | nil => exact id
  | cons task tasks ih =>
    intro ha
    exact ih (fun t ht => hall t (List.mem_cons_of_mem _ ht)) _
      (collect_task (valid task) elapsed ha (hall task List.mem_cons_self))

/-- A tree of queued tasks holds each of them once. -/
theorem QueuedTree.remaining {m : Cells H D} {t : Node Nat} (h : QueuedTree pl m t) :
    Remaining pl ((toList t).map Prod.snd) := by
  refine ⟨?_, fun p hp => ?_⟩
  · rw [List.nodup_iff_pairwise_ne, List.pairwise_map]
    refine h.ordered.imp_of_mem fun {a b} ha hb hlt hab => ?_
    obtain ⟨-, t, ht, hta⟩ := h.entries a ha
    obtain ⟨-, u, hu, hub⟩ := h.entries b hb
    rw [hab, hu] at ht
    cases ht
    omega
  · obtain ⟨e, he, rfl⟩ := List.mem_map.1 hp
    exact (h.entries e he).1

/-- A queued task is made invalid: it keeps its id and its place. -/
theorem Shared.invalidate (h : Shared pl s) {task : Nat} (hp : pl task = .queued) {t : TaskCell H D}
    (ht : s.cells task = some t) :
    Shared pl { s with cells := Function.update s.cells task (some { t with access_time := 0, handle := none }) } ∧
      ∀ tree, QueuedTree pl s.cells tree →
        QueuedTree pl (Function.update s.cells task (some { t with access_time := 0, handle := none })) tree := by
  have htree : ∀ tree, QueuedTree pl s.cells tree →
      QueuedTree pl (Function.update s.cells task (some { t with access_time := 0, handle := none })) tree := by
    intro tree hq
    refine ⟨hq.ordered, fun e he => ?_⟩
    obtain ⟨hpe, u, hu, hid⟩ := hq.entries e he
    refine ⟨hpe, ?_⟩
    by_cases het : e.2 = task
    · rw [het, ht] at hu
      cases hu
      exact ⟨{ t with access_time := 0, handle := none }, by rw [het, Function.update_self], hid⟩
    · exact ⟨u, by rwa [Function.update_of_ne het], hid⟩
  refine ⟨⟨fun q => ?_, fun q u hu hn => ?_, htree _ h.queue, h.deployed⟩, htree⟩
  · by_cases hq : q = task
    · subst hq; simp [hp]
    · simpa [Function.update_of_ne hq] using h.free q
  · by_cases hq : q = task
    · subst hq
      simp only [Function.update_self, Option.some.injEq] at hu
      subst hu
      exact ⟨rfl, .inl hp⟩
    · simp only [Function.update_of_ne hq] at hu
      exact h.null q u hu hn

theorem Shared.pollEvent (h : Shared pl s) {scheduled_list : Node Nat} {evt : TaskEvent} {task : Nat} {t : TaskCell H D}
    (hp : pl task = .queued) (ht : s.cells task = some t) (hl : QueuedTree pl s.cells scheduled_list) (revents : Poll) :
    Shared pl (s.pollEvent scheduled_list evt task t revents).1 ∧
      QueuedTree pl (s.pollEvent scheduled_list evt task t revents).1.cells
        (s.pollEvent scheduled_list evt task t revents).2 ∧
      Keeps (· = .queued) pl pl s.cells (s.pollEvent scheduled_list evt task t revents).1.cells := by
  cases revents with
  | failed => exact ⟨h, hl, Keeps.refl⟩
  | timeout => exact ⟨h, hl, Keeps.refl⟩
  | ready =>
    simp only [Threads.pollEvent]
    split
    · refine ⟨h, ?_, Keeps.refl⟩
      dsimp only
      split
      · exact hl.insert hp ht
      · exact hl
    · split
      · obtain ⟨h', htree⟩ := h.invalidate hp ht
        have hins := (htree _ hl).insert (c := { t with access_time := 0, handle := none }) hp (by simp)
        refine ⟨h', hins, fun q _ hn => ⟨rfl, Function.update_of_ne ?_ ..⟩⟩
        rintro rfl
        exact hn hp
      · exact ⟨h, hl, Keeps.refl⟩

/-- The next task of the round leaves the queue. -/
theorem Shared.deploy (h : Shared pl s) {task : Nat} {rest : List Nat} (hr : Remaining pl (task :: rest))
    {t : TaskCell H D} (ht : s.cells task = some t) :
    Shared (Function.update pl task .scheduled) { s with sched := s.sched.delete t.id } ∧
      Remaining (Function.update pl task .scheduled) rest ∧
      Keeps (· = .queued) pl (Function.update pl task .scheduled) s.cells s.cells := by
  have hp := hr.2 task List.mem_cons_self
  have hstay : ∀ q, q ≠ task → Function.update pl task .scheduled q = pl q := fun q hq => Function.update_of_ne hq ..
  obtain ⟨hnot, hnodup⟩ := List.nodup_cons.1 hr.1
  refine ⟨⟨fun q => ?_, fun q u hu hn => ?_, ?_, h.deployed.1, fun q hq => ?_⟩, ⟨hnodup, fun q hq => ?_⟩, Keeps.move hp _⟩
  · by_cases hq : q = task
    · subst hq; simp [ht]
    · rw [hstay q hq]; exact h.free q
  · have hold := h.null q u hu hn
    by_cases hq : q = task
    · subst hq; simpa using hold.1
    · rwa [hstay q hq]
  · obtain ⟨hq, hne⟩ := h.queue.delete ht
    refine ⟨hq.ordered, fun e he => ?_⟩
    obtain ⟨hpe, hcell⟩ := hq.entries e he
    exact ⟨(hstay _ (hne e he)).trans hpe, hcell⟩
  · have hq' := h.deployed.2 q hq
    rw [hstay q (by rintro rfl; rw [hp] at hq'; cases hq'), hq']
  · rw [hstay q (by rintro rfl; exact hnot hq)]
    exact hr.2 q (List.mem_cons_of_mem _ hq)

/-- A task that is found valid has a handle, as time is past the timeout. -/
theorem Shared.valid (h : Shared pl s) {task : Nat} {t : TaskCell H D}
    (ht : s.cells task = some t) {scheduler_timeout now : Int} (hnow : scheduler_timeout < now)
    (hv : antd_scheduler_validate_data scheduler_timeout now t ≠ false) : t.handle ≠ none := by
  intro hn
  have hzero := (h.null task t ht hn).1
  apply hv
  simp only [antd_scheduler_validate_data, hzero, Bool.not_eq_false', decide_eq_true_eq]
  omega

/-- A scheduled task with a handle is deployed or executed. -/
theorem Shared.hand (h : Shared pl s) {task : Nat} (hp : pl task = .scheduled) {t : TaskCell H D}
    (ht : s.cells task = some t) (hh : t.handle ≠ none) {x : Place} (hx : x ≠ .free) :
    Shared (Function.update pl task x) s ∧ Keeps (· = .scheduled) pl (Function.update pl task x) s.cells s.cells := by
  have h' := h.update (p := task) hx (by simp [hp]) (by simp [hp]) hh
  have hsame : Function.update s.cells task (some t) = s.cells := by rw [← ht, Function.update_eq_self]
  rw [hsame] at h'
  exact ⟨h', Keeps.move hp _⟩

/-- A scheduled task that is not valid is destroyed. -/
theorem Shared.drop (h : Shared pl s) {task : Nat} (hp : pl task = .scheduled) :
    Shared (Function.update pl task .free) { s with cells := s.cells.destroy_task task } ∧
      Keeps (· = .scheduled) pl (Function.update pl task .free) s.cells (s.cells.destroy_task task) :=
  ⟨h.destroy (by simp [hp]) (by simp [hp]), Keeps.update (.inr hp) _ _⟩

/-- A scheduled task with a handle joins the workers' queue. -/
theorem Shared.enqueue (h : Shared pl s) {task : Nat} (hp : pl task = .scheduled) {t : TaskCell H D}
    (ht : s.cells task = some t) (hh : t.handle ≠ none) :
    Shared (Function.update pl task .deployed) { s with workers_queue := s.workers_queue ++ [task] } ∧
      Keeps (· = .scheduled) pl (Function.update pl task .deployed) s.cells s.cells := by
  obtain ⟨h', hk⟩ := h.hand hp ht hh (x := .deployed) (by simp)
  -- it was not there, where only deployed tasks are
  have hnot : task ∉ s.workers_queue := fun hm => by
    rw [h.deployed.2 task hm] at hp
    cases hp
  refine ⟨{ h' with deployed := ⟨List.nodup_append.2 ⟨h.deployed.1, by simp, ?_⟩, fun q hq => ?_⟩ }, hk⟩
  · intro q hq q' hq'
    rw [List.mem_singleton.1 hq']
    rintro rfl
    exact hnot hq
  · rcases List.mem_append.1 hq with hq | hq
    · exact h'.deployed.2 q hq
    · rw [List.mem_singleton.1 hq, Function.update_self]

theorem Placed.wait (h : Placed pl s) {scheduler_timeout : Int} {w : Meets H D} (hc : w.call.Handled)
    (hnow : ∀ task, scheduler_timeout < w.now task) {r : Threads n_workers H D × Scheduling}
    (hr : s.antd_scheduler_wait scheduler_timeout w s.scheduler = some r) :
    ∃ pl', Placed pl' { r.1 with scheduler := r.2 } := by
  have hstay : ∀ {p : Scheduling}, HoldsScheduling pl s.cells p → Placed pl { s with scheduler := p } := fun hp =>
    h.at_scheduler h.shared rfl hp rfl rfl
  have hi := h.scheduler
  cases hp : s.scheduler with
  | check =>
    rw [hp] at hr; cases hr
    refine ⟨pl, hstay ?_⟩
    cases s.status <;> trivial
  | collect =>
    rw [hp] at hr; cases hr
    exact ⟨pl, hstay (collect_all h.shared ..)⟩
  | poll scheduled_list poll_list =>
    rw [hp] at hr hi
    cases poll_list with
    | nil =>
      cases hr
      exact ⟨pl, hstay hi.1.remaining⟩
    | cons e poll_list =>
      obtain ⟨t, ht, hr⟩ := Option.map_eq_some_iff.1 hr
      subst hr
      obtain ⟨cells, hframe⟩ := pollEvent_cells (s := s) scheduled_list e.1 e.2 t w.revents
      obtain ⟨h', hl, hk⟩ := h.shared.pollEvent (hi.2 e List.mem_cons_self) ht hi.1 w.revents
      refine ⟨pl, h.scheduled h' ⟨hl, fun e he => hi.2 e (List.mem_cons_of_mem _ he)⟩ hk (fun _ => .inl) ?_ ?_⟩
      · rw [hframe]
      · rw [hframe]
  | deploy rest =>
    rw [hp] at hr hi
    cases rest with
    | nil =>
      cases hr
      exact ⟨pl, hstay trivial⟩
    | cons task rest =>
      obtain ⟨t, ht, hr⟩ := Option.map_eq_some_iff.1 hr
      subst hr
      obtain ⟨h', hrest, hk⟩ := h.shared.deploy hi ht
      exact ⟨_, h.scheduled h' ⟨by simp, hrest⟩ hk (fun _ => .inl) rfl rfl⟩
  | pend task rest =>
    rw [hp] at hr hi; cases hr
    -- the counter is not part of what is shared
    have h' : Shared pl { s with sched := s.sched.pend (-1) } := { h.shared with }
    exact ⟨pl, h.at_scheduler h' rfl hi rfl rfl⟩
  | validate task rest =>
    rw [hp] at hr hi
    obtain ⟨t, ht, hr⟩ := Option.map_eq_some_iff.1 hr
    subst hr
    obtain ⟨hplace, hrest⟩ := hi
    split
    · obtain ⟨h', hk⟩ := h.shared.drop hplace
      exact ⟨_, h.scheduled h' (hrest.keeps hk (by simp)) hk (fun _ hx => .inr (.inl hx)) rfl rfl⟩
    · rename_i hv
      have hh := h.shared.valid ht (hnow task) hv
      split
      · obtain ⟨h', hk⟩ := h.shared.hand hplace ht hh (x := .held .scheduler .executed) (by simp)
        refine ⟨_, h.scheduled h' ⟨?_, hrest.keeps hk (by simp)⟩ hk (fun _ hx => .inr (.inl hx)) rfl rfl⟩
        simp [HoldsExecuting]
      · exact ⟨pl, hstay ⟨⟨hplace, t, ht, hh⟩, hrest⟩⟩
  | enqueue task rest =>
    rw [hp] at hr hi; cases hr
    obtain ⟨⟨hplace, t, ht, hh⟩, hrest⟩ := hi
    obtain ⟨h', hk⟩ := h.shared.enqueue hplace ht hh
    have hrest' : HoldsScheduling (Function.update pl task .deployed) s.cells (.post rest) := hrest.keeps hk (by simp)
    exact ⟨_, h.scheduled h' hrest' hk (fun _ hx => .inr (.inl hx)) rfl rfl⟩
  | post rest =>
    rw [hp] at hr hi; cases hr
    have h' : Shared pl { s with worker_sem := sem_post s.worker_sem } := { h.shared with }
    exact ⟨pl, h.at_scheduler h' rfl hi rfl rfl⟩
  | execute e rest =>
    rw [hp] at hr hi
    obtain ⟨r', hr', hr⟩ := Option.map_eq_some_iff.1 hr
    subst hr
    have hframe := (execute_task_adds hr').frame
    obtain ⟨pl', h', he, hk⟩ := h.shared.execute_task hc hi.1 hr'
    have hrest := hi.2.keeps hk (by rintro ⟨r, hx⟩; cases hx)
    refine ⟨pl', h.scheduled h' ?_ hk (fun _ hx => .inr (.inr hx)) ?_ ?_⟩
    · cases hn : r'.2 with
      | some b => exact ⟨he b hn, hrest⟩
      | none => exact hrest
    · rw [hframe]
    · rw [hframe]
  | idle =>
    rw [hp] at hr; cases hr
    refine ⟨pl, hstay ?_⟩
    cases s.sched.task_queue <;> trivial
  | wait =>
    rw [hp] at hr
    obtain ⟨v, -, hr⟩ := Option.map_eq_some_iff.1 hr
    subst hr
    have h' : Shared pl { s with scheduler_sem := v } := { h.shared with }
    exact ⟨pl, h.at_scheduler h' rfl trivial rfl rfl⟩
  | exited => rw [hp] at hr; cases hr

/-! ## Runs -/

/-- Tasks are first added with a handle, and the clock is past the timeout. -/
def Clocked (scheduler_timeout : Int) : Action n_workers H D → Prop
  | .worker _ _ call | .other _ call => call.Handled
  | .scheduler w => w.call.Handled ∧ ∀ task, scheduler_timeout < w.now task
  | .stop => True

theorem Placed.init (n_workers : Int32) (scheduler_sem worker_sem : Nat) :
    Placed (fun _ => .free) (antd_scheduler_init n_workers H D scheduler_sem worker_sem) where
  shared := {
    free := fun _ => ⟨fun _ => rfl, fun _ => rfl⟩
    null := fun _ _ ht => nomatch ht
    queue := ⟨ordered_nil, fun _ he => (List.not_mem_nil he).elim⟩
    deployed := ⟨List.nodup_nil, fun _ hp => (List.not_mem_nil hp).elim⟩ }
  workers _ := trivial
  others _ _ ha := nomatch ha
  scheduler := trivial

theorem Placed.step {scheduler_timeout : Int} {a : Action n_workers H D} (h : Placed pl s)
    (ha : Clocked scheduler_timeout a) (hs : step scheduler_timeout a s = some s') : ∃ pl', Placed pl' s' := by
  cases a with
  | worker i interrupted call =>
    obtain ⟨r, hr, rfl⟩ := Option.map_eq_some_iff.1 hs
    exact h.work i ha hr
  | scheduler w =>
    obtain ⟨r, hr, rfl⟩ := Option.map_eq_some_iff.1 hs
    exact h.wait ha.1 ha.2 hr
  | other i call =>
    obtain ⟨r, hr, rfl⟩ := Option.map_eq_some_iff.1 hs
    exact h.other ha hr
  | stop =>
    simp only [Threads.step, stopNext] at hs
    split at hs <;> cases hs <;> exact ⟨pl, { h with shared := { h.shared with } }⟩

/-- A thread enters `antd_execute_task` with the task. -/
def Entered (s : Threads n_workers H D) (task : Nat) : Prop :=
  (∃ i, s.workers i = .execute (.enter task)) ∨ ∃ rest, s.scheduler = .execute (.enter task) rest

/-- Whatever `poll` reports and the handlers return, a task that is executed is on the heap and has a handle. -/
theorem executed_with_handle (n_workers : Int32) (scheduler_timeout : Int) (scheduler_sem worker_sem : Nat)
    (s : Threads n_workers H D)
    (h : Run (step scheduler_timeout) (fun a _ => Clocked scheduler_timeout a)
      (· = antd_scheduler_init n_workers H D scheduler_sem worker_sem) s) (task : Nat) (he : s.Entered task) :
    ∃ t handle, s.cells task = some t ∧ t.handle = some handle := by
  obtain ⟨pl, hp⟩ := h.inv (fun s => ∃ pl, Placed pl s) (fun _ he => ⟨_, he ▸ Placed.init n_workers scheduler_sem worker_sem⟩)
    fun _ _ _ hi ha hs => hi.elim fun _ hi => hi.step ha hs
  obtain ⟨g, hg⟩ : ∃ g, pl task = .held g .executed := by
    rcases he with ⟨i, hi⟩ | ⟨rest, hr⟩
    · have hw := hp.workers i
      rw [hi] at hw
      exact ⟨_, hw⟩
    · have hs := hp.scheduler
      rw [hr] at hs
      exact ⟨_, hs.1⟩
  obtain ⟨t, ht⟩ := hp.shared.some_of_place hg (by simp)
  obtain ⟨handle, hh⟩ := Option.ne_none_iff_exists'.1 (hp.shared.handle hg ht)
  exact ⟨t, handle, ht, hh⟩

/-- A thread of the program adds the task at `p`. -/
def adding (p : Nat) (cell : TaskCell Nat Nat) : List (Action 1 Nat Nat) := List.replicate 5 (.other 0 (.add p cell))

/-- The scheduler's thread takes `n` steps at time 100. -/
def scheduling (n : Nat) (revents : Poll) : List (Action 1 Nat Nat) :=
  List.replicate n (.scheduler ⟨fun _ => 100, fun _ => false, revents, false, .allocate 1⟩)

def working (n : Nat) (call : Call Nat Nat) : List (Action 1 Nat Nat) :=
  List.replicate n (.worker ⟨0, by decide⟩ false call)

/-- The peer of the first task hangs up, and it is killed. The handler of the second one returns a
task without a handle, which goes on as its callback. -/
def hangup : List (Action 1 Nat Nat) :=
  adding 0 ⟨5, 90, some 7, [], [⟨5, 0, false, true, false, false⟩, ⟨5, 0, false, false, true, false⟩], 0⟩ ++
    scheduling 7 (.ready false false false true false false) ++ adding 1 ⟨6, 90, some 7, [], [], 0⟩ ++
    scheduling 11 .timeout ++ working 3 (.allocate 1) ++ working 6 (.ret (some (2, ⟨6, 90, none, [8], [], 0⟩))) ++
    scheduling 11 .timeout ++ working 2 (.allocate 1)

theorem hangup_clocked (a : Action 1 Nat Nat) (ha : a ∈ hangup) : Clocked 30 a := by
  simp only [hangup, adding, scheduling, working, List.mem_append, List.mem_replicate] at ha
  rcases ha with ((((((⟨-, rfl⟩ | ⟨-, rfl⟩) | ⟨-, rfl⟩) | ⟨-, rfl⟩) | ⟨-, rfl⟩) | ⟨-, rfl⟩) | ⟨-, rfl⟩) | ⟨-, rfl⟩ <;>
    simp [Clocked, Call.Handled]

theorem executed_with_handle_hangup : ∃ s : Threads 1 Nat Nat, s.cells 0 = none ∧
    ∃ t handle, s.cells 2 = some t ∧ t.handle = some handle := by
  have hrun : ((runAll (step 30) hangup (antd_scheduler_init 1 Nat Nat 0 0)).any fun s =>
      decide ((s.cells 0).isNone ∧ s.workers ⟨0, by decide⟩ = .execute (.enter 2))) = true := by decide +kernel
  obtain ⟨s, hs, hkilled, hentered⟩ := Runs.ends_in hrun
  exact ⟨s, Option.isNone_iff_eq_none.1 hkilled, executed_with_handle 1 30 0 0 s
    (run_runAll (fun a ha _ => hangup_clocked a ha) (.init rfl) hs) 2 (.inl ⟨_, hentered⟩)⟩

end Threads

end AntHttp
