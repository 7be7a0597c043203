import AntHttp.Ownership
/-!
# Counting connections

`connection` goes up when a connection is accepted and down when its request
is destroyed. A connection whose SSL object cannot be made has its request
destroyed without having been counted. The main loop looks at the count once
before it accepts a connection on each port that is ready.
-/

namespace AntHttp.Server

/-! ## What a step does to the count -/

/-- The requests made, those destroyed and `g_server_config.connection`. -/
structure Ledger where
  accepted : Nat
  destroyed : List Nat
  connection : Int

def ledger (s : Server) : Ledger := ⟨s.accepted, s.destroyed, s.connection⟩

/-- A connection without an SSL object, on a port that needs one. -/
def Action.WithoutSsl : Action → Prop
  | .accept pcnf _ _ _ _ ssl => pcnf.usessl = true ∧ ssl = false
  | _ => False

instance (a : Action) : Decidable a.WithoutSsl :=
  match a with
  | .accept pcnf _ _ _ _ ssl => inferInstanceAs (Decidable (pcnf.usessl = true ∧ ssl = false))
  | .collect .. | .poll .. | .deploy | .work | .schedule .. | .create .. | .handle .. | .execute .. | .add .. => isFalse id

def Action.IsAccept : Action → Prop
  | .accept .. => True
  | _ => False

instance (a : Action) : Decidable a.IsAccept :=
  match a with
  | .accept .. => isTrue trivial
  | .collect .. | .poll .. | .deploy | .work | .schedule .. | .create .. | .handle .. | .execute .. | .add .. => isFalse id

theorem Action.WithoutSsl.isAccept {a : Action} (h : a.WithoutSsl) : a.IsAccept := by
  cases a with
  | accept => trivial
  | _ => cases h

/-- A request is made and counted, or made and destroyed, or destroyed, or none of it. -/
inductive Effect (a : Action) : Ledger → Ledger → Prop
  | accepts {n ds c} : a.IsAccept → ¬ a.WithoutSsl → Effect a ⟨n, ds, c⟩ ⟨n + 1, ds, c + 1⟩
  | refuses {n ds c} : a.IsAccept → a.WithoutSsl → Effect a ⟨n, ds, c⟩ ⟨n + 1, n :: ds, c - 1⟩
  | finishes {n ds c} (r : Nat) : ¬ a.IsAccept → Effect a ⟨n, ds, c⟩ ⟨n, r :: ds, c - 1⟩
  | keeps {l} : ¬ a.IsAccept → Effect a l l

section

variable {cnf : Config} {s s' : Server} {a : Action}

theorem release_ledger {i : Nat} {h : Held} (hr : s.release i = some (h, s')) : s'.ledger = s.ledger := by
  obtain ⟨k, -, hk⟩ := Option.map_eq_some_iff.1 hr
  cases hk
  rfl

theorem handle_ledger {sys : Sys} {thread : Thread} {task : OwnedTask} {id : Option Int}
    (h : s.handle cnf sys thread task id = some s') :
    s'.ledger = s.ledger ∨ s'.ledger = ⟨s.accepted, task.data :: s.destroyed, s.connection - 1⟩ := by
  rcases handle_cases h with ⟨-, rfl⟩ | ⟨g, rq, ret, rq', i, -, -, -, -, -, rfl⟩
  · exact .inr rfl
  · exact .inl rfl

theorem schedule_ledger (now : Int) (thread : Thread) (task : OwnedTask) :
    (s.antd_task_schedule cnf now thread task).ledger = s.ledger ∨
      (s.antd_task_schedule cnf now thread task).ledger = ⟨s.accepted, task.data :: s.destroyed, s.connection - 1⟩ := by
  unfold antd_task_schedule
  simp only
  split
  · exact .inr rfl
  · split <;> exact .inl rfl

theorem monitor_ledger {pcnf : PortConfig} {i now : Int} {input : List RecvEv} {output : List SendEv} {ssl : Bool}
    (h : s.antd_monitor pcnf i now input output ssl = some s') :
    Effect (.accept pcnf i now input output ssl) s.ledger s'.ledger := by
  unfold antd_monitor at h
  split at h
  · cases h
  · simp only at h
    split at h
    · rename_i hssl
      cases h
      exact .refuses trivial (by simpa [Action.WithoutSsl] using hssl)
    · rename_i hssl
      cases h
      exact .accepts trivial (by simpa [Action.WithoutSsl] using hssl)

/-- Every step has one of the effects. -/
theorem step_effect (h : step cnf a s = some s') : Effect a s.ledger s'.ledger := by
  have lift {a : Action} {l l' : Ledger} {r : Nat} (ha : ¬ a.IsAccept)
      (hl : l' = l ∨ l' = ⟨l.accepted, r :: l.destroyed, l.connection - 1⟩) : Effect a l l' := by
    rcases hl with rfl | rfl
    · exact .keeps ha
    · exact .finishes r ha
  cases step_cases h with
  | accept h => exact monitor_ledger h
  | collect h =>
    unfold collect at h
    split at h
    · split at h <;> cases h
      exact .keeps id
    · cases h
  | poll h =>
    unfold poll at h
    split at h <;> cases h
    exact .keeps id
  | deploy h =>
    unfold antd_deploy_task at h
    split at h
    · split at h <;> cases h
      exact .keeps id
    · cases h
  | work h =>
    unfold work at h
    split at h
    · split at h <;> cases h
      exact .keeps id
    · cases h
  | schedule hr =>
    rw [← release_ledger hr]
    exact lift id (schedule_ledger ..)
  | create hr h =>
    rw [← release_ledger hr]
    obtain ⟨r, -, rfl⟩ := Option.map_eq_some_iff.1 h
    exact .keeps id
  | handle hr h =>
    rw [← release_ledger hr]
    exact lift id (handle_ledger h)
  | execute hr =>
    rw [← release_ledger hr]
    unfold antd_execute_task
    split <;> exact .keeps id
  | add hr =>
    rw [← release_ledger hr]
    exact .keeps id

end

/-! ## Every run -/

/-- The connections that were accepted and whose request has not been destroyed. -/
def live (s : Server) : Nat := ((List.range s.accepted).filter (· ∉ s.destroyed)).length

/-- The requests that were destroyed are among those that were made. -/
theorem live_add {n : Nat} {ds : List Nat} (hd : ds.Nodup) (hn : ∀ r ∈ ds, r < n) :
    ((List.range n).filter (· ∉ ds)).length + ds.length = n := by
  have hperm : ((List.range n).filter (· ∈ ds)).Perm ds := by
    refine (List.perm_ext_iff_of_nodup ((List.nodup_range ..).filter _) hd).2 fun r => ?_
    simp only [List.mem_filter, List.mem_range, decide_eq_true_eq]
    exact ⟨fun h => h.2, fun h => ⟨hn r h, h⟩⟩
  have hsplit := (List.filter_append_perm (· ∈ ds) (List.range n)).length_eq
  rw [List.length_append, hperm.length_eq, List.length_range] at hsplit
  have hnot : ((List.range n).filter (· ∉ ds)).length = ((List.range n).filter (fun r => !decide (r ∈ ds))).length := by
    congr 2
    funext r
    exact decide_not
  omega

/-- How many connections had no SSL object. -/
def refused (acts : List Action) : Nat := (acts.filter (·.WithoutSsl)).length

/-- A step keeps the count in balance with the requests, but for a connection without an SSL object. -/
theorem Effect.balance {a : Action} {l l' : Ledger} (h : Effect a l l') :
    l'.connection + l'.destroyed.length + (if a.WithoutSsl then 1 else 0) + l.accepted =
      l.connection + l.destroyed.length + l'.accepted := by
  have hssl : ¬ a.IsAccept → ¬ a.WithoutSsl := fun hn hs => hn hs.isAccept
  cases h with
  | accepts _ hs =>
    rw [if_neg hs]
    push_cast
    omega
  | refuses _ hs =>
    rw [if_pos hs, List.length_cons]
    push_cast
    omega
  | finishes r ha =>
    rw [if_neg (hssl ha), List.length_cons]
    push_cast
    omega
  | keeps ha =>
    rw [if_neg (hssl ha)]
    omega

section

variable {cnf : Config} {ok : Action → Server → Prop} {s : Server} {acts : List Action}

theorem trace_balance (h : Runs.Trace (step cnf) ok start acts s) :
    s.connection + s.destroyed.length + refused acts = s.accepted := by
  induction h with
  | nil => rfl
  | @snoc acts s a s' _ _ hs ih =>
    have hb := (step_effect hs).balance
    have hr : (refused (acts ++ [a]) : Int) = refused acts + if a.WithoutSsl then 1 else 0 := by
      unfold refused
      rw [List.filter_append, List.length_append]
      by_cases ha : a.WithoutSsl <;> simp [ha]
    rw [hr]
    simp only [ledger] at hb
    omega

/-- The count is that of the live connections exactly if none was without an SSL object. -/
theorem connection_eq_iff (h : Runs.Trace (step cnf) Action.Assumed start acts s) :
    s.connection = s.live ↔ ∀ a ∈ acts, ¬ a.WithoutSsl := by
  have hinv := inv_reachable (h.run : Reachable cnf s)
  have hlive := live_add hinv.live.once fun r hr => (hinv.live.known r).2 (.inr hr)
  have hbal := trace_balance h
  have hzero : refused acts = 0 ↔ ∀ a ∈ acts, ¬ a.WithoutSsl := by
    simp [refused, List.filter_eq_nil_iff]
  rw [← hzero, live]
  omega

end

/-- Of two connections one is left. -/
theorem connection_eq_iff_twoConnections : ∃ s,
    Runs.Trace (step (sampleConfig none [])) Action.Assumed start ([firstConnection, .add 0, secondConnection] ++ answering) s ∧
      s.connection = 1 ∧ s.connection = s.live := by
  obtain ⟨s, ht, -, -, hconnection⟩ := twoConnections_trace
  exact ⟨s, ht, hconnection, (connection_eq_iff ht).2 (by decide)⟩

/-- One connection whose SSL object is not made. -/
theorem connection_negative : ¬ ∀ (cnf : Config) (acts : List Action) (s : Server),
    Runs.Trace (step cnf) Action.Assumed start acts s → s.connection = s.live ∧ 0 ≤ s.connection := by
  intro h
  have hfresh : Action.Assumed (.accept { samplePort none [] with usessl := true } 4 0 [] [] false) start :=
    fun r h => by cases h
  have hneg := (h (sampleConfig none []) _ _ (.snoc .nil hfresh rfl)).2
  exact absurd hneg (by decide)

/-! ## The limit -/

/-- The live connections of a ledger. -/
def Ledger.live (l : Ledger) : Nat := ((List.range l.accepted).filter (· ∉ l.destroyed)).length

/-- Only an accepted connection adds to the live ones. -/
theorem Effect.live_le {a : Action} {l l' : Ledger} (h : Effect a l l') : l'.live ≤ l.live + if a.IsAccept then 1 else 0 := by
  have hmore (n : Nat) (ds : List Nat) (r : Nat) :
      ((List.range n).filter (· ∉ r :: ds)).length ≤ ((List.range n).filter (· ∉ ds)).length := by
    refine (List.monotone_filter_right _ fun q hq => ?_).length_le
    simp only [decide_eq_true_eq, List.mem_cons, not_or] at hq ⊢
    exact hq.2
  have hnext (n : Nat) (ds : List Nat) :
      ((List.range (n + 1)).filter (· ∉ ds)).length ≤ ((List.range n).filter (· ∉ ds)).length + 1 := by
    rw [List.range_succ, List.filter_append, List.length_append]
    exact Nat.add_le_add_left (List.length_filter_le ..) _
  cases h with
  | accepts ha =>
    rw [if_pos ha]
    exact hnext ..
  | refuses ha =>
    rw [if_pos ha]
    exact (hmore ..).trans (hnext ..)
  | finishes r ha =>
    rw [if_neg ha]
    exact hmore ..
  | keeps ha =>
    rw [if_neg ha]
    exact le_rfl

/-- Where the main thread is in its loop: with the ports that it has still to accept a connection on. -/
inductive Turn where
  | testing
  | selecting
  | accepting (ports : List PortConfig)

structure MainLoop where
  server : Server
  turn : Turn

namespace MainLoop

inductive Input where
  | test
  /-- `select` returns, with the ports that are ready. -/
  | select (isset : Nat → Bool)
  /-- What `accept` returns on the next port, and what `antd_monitor` meets. -/
  | accept (client_sock : Int) (now : Int) (input : List RecvEv) (output : List SendEv) (ssl : Bool)
  /-- A step of the main thread in `antd_monitor`, or of another thread. -/
  | server (a : Action)

def ready (ports : List PortConfig) (isset : Nat → Bool) : List PortConfig :=
  (ports.zipIdx.filter fun p => isset p.2).map Prod.fst

/-- After a port, or a `select` that finds none. -/
def next : List PortConfig → Turn
  | [] => .testing
  | ports => .accepting ports

def step (cnf : Config) (maxcon : Int) (ports : List PortConfig) (i : Input) (l : MainLoop) : Option MainLoop :=
  match i, l with
  | .test, ⟨s, .testing⟩ =>
    if s.isBusy .monitor then none else some ⟨s, if s.connection > maxcon then .testing else .selecting⟩
  | .select isset, ⟨s, .selecting⟩ => some ⟨s, next (ready ports isset)⟩
  | .accept client_sock now input output ssl, ⟨s, .accepting (pcnf :: rest)⟩ =>
    if client_sock ≤ 0 then if s.isBusy .monitor then none else some ⟨s, next rest⟩
    else (s.antd_monitor pcnf client_sock now input output ssl).map fun s => ⟨s, next rest⟩
  | .server a, ⟨s, turn⟩ => if a.IsAccept then none else (Server.step cnf a s).map fun s => ⟨s, turn⟩
  | _, _ => none

/-- There is room for a connection on each port that is ready. -/
def Room (maxcon : Int) (ports : List PortConfig) : Input → MainLoop → Prop
  | .select isset, l => l.server.live + (ready ports isset).length ≤ maxcon
  | _, _ => True

/-- How many ports are left in the turn. -/
def pending : Turn → Nat
  | .accepting ports => ports.length
  | _ => 0

theorem pending_next (ports : List PortConfig) : pending (next ports) = ports.length := by
  cases ports <;> rfl

section

variable {cnf : Config} {maxcon : Int} {ports : List PortConfig} {l l' : MainLoop} {i : Input}

/-- The live connections and those that the turn may still add. -/
def Fits (maxcon : Int) (l : MainLoop) : Prop := (l.server.live : Int) + pending l.turn ≤ maxcon

theorem step_fits (h : Fits maxcon l) (hr : Room maxcon ports i l) (hs : step cnf maxcon ports i l = some l') : Fits maxcon l' := by
  obtain ⟨s, turn⟩ := l
  unfold Fits at h ⊢
  unfold step at hs
  split at hs
  · rename_i he
    cases he
    split at hs
    · cases hs
    · cases hs
      split <;> exact h
  · rename_i isset _ he
    cases he
    cases hs
    rw [pending_next]
    exact hr
  · rename_i client_sock now input output ssl _ pcnf rest he
    cases he
    -- one port less is left, and at most one connection more is live
    have hlen : pending (.accepting (pcnf :: rest)) = rest.length + 1 := rfl
    simp only [hlen] at h
    split at hs
    · split at hs
      · cases hs
      · cases hs
        change (s.live : Int) + pending (next rest) ≤ maxcon
        rw [pending_next]
        push_cast at h
        omega
    · obtain ⟨s₁, hm, rfl⟩ := Option.map_eq_some_iff.1 hs
      have hle := (monitor_ledger hm).live_le
      rw [if_pos (show Action.IsAccept (.accept ..) from trivial)] at hle
      change s₁.live ≤ s.live + 1 at hle
      change (s₁.live : Int) + pending (next rest) ≤ maxcon
      rw [pending_next]
      push_cast at h
      omega
  · rename_i a _ _ he
    cases he
    split at hs
    · cases hs
    · rename_i ha
      obtain ⟨s₁, hm, rfl⟩ := Option.map_eq_some_iff.1 hs
      -- the other threads make no connection
      have hle := (step_effect hm).live_le
      rw [if_neg ha] at hle
      change s₁.live ≤ s.live at hle
      simp only at h ⊢
      omega
  · cases hs

/-- As long as there is room for every port that is ready, the limit is kept. -/
theorem live_le_maxcon (h0 : 0 ≤ maxcon) (h : Runs.Run (step cnf maxcon ports) (Room maxcon ports) (· = ⟨start, .testing⟩) l) :
    l.server.live ≤ maxcon := by
  have hfits : Fits maxcon l := by
    refine h.inv (Fits maxcon) ?_ fun i l l' hl hr hs => step_fits hl hr hs
    rintro _ rfl
    exact h0
  exact le_trans (Int.le_add_of_nonneg_right (Int.natCast_nonneg _)) hfits

end

/-- A run of the loop over one port with a limit of one. -/
def sampleInputs : List Input :=
  [.test, .select fun _ => true, .accept 4 0 [] [] true, .server (.add 0), .test, .select fun _ => true,
    .accept 5 0 [] [] true]

theorem live_le_maxcon_one : ∃ l : MainLoop, l.server.live = 1 ∧ (l.server.live : Int) ≤ 1 := by
  have hrun : ((Runs.runAll (Runs.guarded (fun l => l.server.live = 0) (step (sampleConfig none []) 1 [samplePort none []]))
      (sampleInputs.take 3) ⟨start, .testing⟩).any fun l => decide (l.server.live = 1)) = true := by decide +kernel
  obtain ⟨l, hl, hp⟩ := Runs.ends_in hrun
  refine ⟨l, hp, live_le_maxcon (by decide) (Runs.run_guarded (fun i hi l h0 => ?_) (.init rfl) hl)⟩
  have h0 : l.server.live = 0 := of_decide_eq_true h0
  rcases List.mem_cons.1 hi with rfl | hi
  · trivial
  · rcases List.mem_cons.1 hi with rfl | hi
    · simp [Room, h0, ready]
    · rw [List.mem_singleton.1 hi]
      trivial

/-- A second connection where one is the limit. -/
theorem limit_exceeded : ¬ ∀ (cnf : Config) (maxcon : Int) (ports : List PortConfig) (l : MainLoop), 0 ≤ maxcon →
    Runs.Reachable (step cnf maxcon ports) (· = ⟨start, .testing⟩) l → (l.server.live : Int) ≤ maxcon := by
  intro h
  have hrun : ((Runs.runAll (step (sampleConfig none []) 1 [samplePort none []]) sampleInputs ⟨start, .testing⟩).any
      fun l => decide (l.server.live = 2)) = true := by decide +kernel
  obtain ⟨l, hl, hp⟩ := Runs.ends_in hrun
  have hle := h _ 1 _ l (by decide) (Runs.reachable_runAll (.init rfl) hl)
  rw [hp] at hle
  exact absurd hle (by decide)

end MainLoop

end AntHttp.Server
