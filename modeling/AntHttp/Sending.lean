import AntHttp.Sample
import AntHttp.Arrivals
/-!
# Data handed over in pieces

`__b` and `__f` give their data to `antd_send` piece by piece and look for -1
alone. A piece that is cut short is taken for sent, and the next one leaves a
gap. What a call does depends on the size of the piece, not on its bytes.
-/

set_option linter.style.nameCheck false

namespace AntHttp

/-! ## One call -/

/-- A call of `antd_send` for `n` bytes at time `t`: `k` bytes are taken, and `r` is what the `send` that made it
give up returned, if it did. -/
inductive SendCall : Int → Nat → List SendEv → Nat → Option Int → Int → List SendEv → Prop
  | done {t evs} : SendCall t 0 evs 0 none t evs
  | room {t n m now evs k r t' rest} : SendCall now (n + 1 - min (m + 1) (min (n + 1) BUFFLEN)) evs k r t' rest →
    SendCall t (n + 1) (.room m now :: evs) (min (m + 1) (min (n + 1) BUFFLEN) + k) r t' rest
  | again {t n now evs k r t' rest} : now - t ≤ MAX_IO_WAIT_TIME → SendCall t (n + 1) evs k r t' rest →
    SendCall t (n + 1) (.again now :: evs) k r t' rest
  | closed {t n now evs k r t' rest} : now - t ≤ MAX_IO_WAIT_TIME → SendCall t (n + 1) evs k r t' rest →
    SendCall t (n + 1) (.closed now :: evs) k r t' rest
  | late {t n now evs} : now - t > MAX_IO_WAIT_TIME → SendCall t (n + 1) (.again now :: evs) 0 (some (-1)) t evs
  | shut {t n now evs} : now - t > MAX_IO_WAIT_TIME → SendCall t (n + 1) (.closed now :: evs) 0 (some 0) t evs
  | failed {t n now evs} : SendCall t (n + 1) (.error now :: evs) 0 (some (-1)) t evs
  | broken {t n} : SendCall t (n + 1) [] 0 (some (-1)) t []

section Calls

variable {t t' : Int} {n k : Nat} {r : Option Int} {evs rest : List SendEv} {data : Bytes} {c : Client}

theorem SendCall.sendLoop (h : SendCall t data.length evs k r t' rest) :
    sendLoop t data evs = ⟨data.take k, r.getD 0, t', rest⟩ := by
  generalize hn : data.length = n at h
  induction h generalizing data with
  | done =>
    rw [List.length_eq_zero_iff.1 hn, AntHttp.sendLoop]
    rfl
  | @room t n m now evs k r t' rest h ih =>
    obtain ⟨b, data, rfl⟩ := List.exists_cons_of_length_eq_add_one hn
    rw [AntHttp.sendLoop, hn, ih (by rw [List.length_drop, hn]), List.take_add]
  | again hnow h ih =>
    obtain ⟨b, data, rfl⟩ := List.exists_cons_of_length_eq_add_one hn
    rw [AntHttp.sendLoop, if_neg (by omega), ih hn]
  | closed hnow h ih =>
    obtain ⟨b, data, rfl⟩ := List.exists_cons_of_length_eq_add_one hn
    rw [AntHttp.sendLoop, if_neg (by omega), ih hn]
  | late hnow =>
    obtain ⟨b, data, rfl⟩ := List.exists_cons_of_length_eq_add_one hn
    rw [AntHttp.sendLoop, if_pos hnow]
    rfl
  | shut hnow =>
    obtain ⟨b, data, rfl⟩ := List.exists_cons_of_length_eq_add_one hn
    rw [AntHttp.sendLoop, if_pos hnow]
    rfl
  | failed =>
    obtain ⟨b, data, rfl⟩ := List.exists_cons_of_length_eq_add_one hn
    rfl
  | broken =>
    obtain ⟨b, data, rfl⟩ := List.exists_cons_of_length_eq_add_one hn
    rfl

/-- Every call comes to an end. -/
theorem exists_call (t : Int) (n : Nat) (evs : List SendEv) : ∃ k r t' rest, SendCall t n evs k r t' rest := by
  induction evs generalizing t n with
  | nil =>
    cases n with
    | zero => exact ⟨_, _, _, _, .done⟩
    | succ n => exact ⟨_, _, _, _, .broken⟩
  | cons e evs ih =>
    cases n with
    | zero => exact ⟨_, _, _, _, .done⟩
    | succ n =>
      cases e with
      | room m now =>
        obtain ⟨k, r, t', rest, h⟩ := ih now (n + 1 - min (m + 1) (min (n + 1) BUFFLEN))
        exact ⟨_, _, _, _, .room h⟩
      | again now =>
        by_cases hnow : now - t > MAX_IO_WAIT_TIME
        · exact ⟨_, _, _, _, .late hnow⟩
        · obtain ⟨k, r, t', rest, h⟩ := ih t (n + 1)
          exact ⟨_, _, _, _, .again (by omega) h⟩
      | closed now =>
        by_cases hnow : now - t > MAX_IO_WAIT_TIME
        · exact ⟨_, _, _, _, .shut hnow⟩
        · obtain ⟨k, r, t', rest, h⟩ := ih t (n + 1)
          exact ⟨_, _, _, _, .closed (by omega) h⟩
      | error now => exact ⟨_, _, _, _, .failed⟩

/-- A call that does not give up takes all, and one that does takes less. -/
theorem SendCall.taken (h : SendCall t n evs k r t' rest) : (r = none ∧ k = n) ∨ ((r = some (-1) ∨ r = some 0) ∧ k < n) := by
  induction h with
  | done => exact .inl ⟨rfl, rfl⟩
  | room h ih =>
    rcases ih with ⟨hr, hk⟩ | ⟨hr, hk⟩
    · exact .inl ⟨hr, by omega⟩
    · exact .inr ⟨hr, by omega⟩
  | again _ _ ih | closed _ _ ih => exact ih
  | late | failed | broken => exact .inr ⟨.inl rfl, Nat.succ_pos _⟩
  | shut => exact .inr ⟨.inr rfl, Nat.succ_pos _⟩

theorem SendCall.unique {k' : Nat} {r' : Option Int} {t'' : Int} {rest' : List SendEv} (h : SendCall t n evs k r t' rest)
    (h' : SendCall t n evs k' r' t'' rest') : k = k' ∧ r = r' ∧ t' = t'' ∧ rest = rest' := by
  induction h generalizing k' with
  | done => cases h'; exact ⟨rfl, rfl, rfl, rfl⟩
  | room _ ih =>
    cases h' with
    | room h' =>
      obtain ⟨hk, hr, ht, hrest⟩ := ih h'
      exact ⟨by rw [hk], hr, ht, hrest⟩
  | again hnow _ ih =>
    cases h' with
    | again _ h' => exact ih h'
    | late hlate => exact absurd hlate (by omega)
  | closed hnow _ ih =>
    cases h' with
    | closed _ h' => exact ih h'
    | shut hlate => exact absurd hlate (by omega)
  | late hnow =>
    cases h' with
    | again hlate => exact absurd hlate (by omega)
    | late => exact ⟨rfl, rfl, rfl, rfl⟩
  | shut hnow =>
    cases h' with
    | closed hlate => exact absurd hlate (by omega)
    | shut => exact ⟨rfl, rfl, rfl, rfl⟩
  | failed => cases h'; exact ⟨rfl, rfl, rfl, rfl⟩
  | broken => cases h'; exact ⟨rfl, rfl, rfl, rfl⟩

theorem SendCall.antd_send (h : SendCall c.last_io data.length c.output k r t' rest) :
    AntHttp.antd_send c data = (if k = 0 then r.getD 0 else (k : Int),
      { c with last_io := t', output := rest, wire := c.wire ++ data.take k }) := by
  have hle : k ≤ data.length := by
    rcases h.taken with ⟨-, hk⟩ | ⟨-, hk⟩ <;> omega
  have hnil : data.take k = [] ↔ k = 0 := by
    rw [← List.length_eq_zero_iff, List.length_take, Nat.min_eq_left hle]
  unfold AntHttp.antd_send
  rw [h.sendLoop]
  simp only [hnil, List.length_take, Nat.min_eq_left hle]

/-- The call is refused: -1 is returned, and nothing has been sent. -/
theorem SendCall.refused_iff (h : SendCall t n evs k r t' rest) : (if k = 0 then r.getD 0 else (k : Int)) = -1 ↔ k = 0 ∧ r = some (-1) := by
  by_cases hk : k = 0
  · rw [if_pos hk]
    rcases h.taken with ⟨rfl, -⟩ | ⟨rfl | rfl, -⟩ <;> simp [hk]
  · rw [if_neg hk]
    simp only [hk, false_and, iff_false]
    omega

end Calls

/-! ## Piece after piece -/

/-- `antd_send` for each piece, until one is refused with -1. -/
def sendPieces (client : Client) : List Bytes → Bool × Client
  | [] => (true, client)
  | piece :: pieces =>
    let (n, client) := antd_send client piece
    if n = -1 then (false, client) else sendPieces client pieces

/-- `__f` with its return value; the file is `none` if it cannot be opened, else the blocks it is read in. -/
def sendFile (client : Client) : Option (List Bytes) → Bool × Client
  | none => (false, client)
  | some blocks => sendPieces client blocks

theorem f_eq (c : Client) (blocks : List Bytes) : __f c blocks = (sendFile c (some blocks)).2 := by
  change __f c blocks = (sendPieces c blocks).2
  induction blocks generalizing c with
  | nil => rfl
  | cons buffer blocks ih =>
    simp only [__f, sendPieces]
    split
    · rfl
    · exact ih _

/-- The pieces `__b` cuts its data into. -/
def pieces (data : Bytes) : List Bytes := if data = [] then [] else data.take BUFFLEN :: pieces (data.drop BUFFLEN)
termination_by data.length
decreasing_by
  have := List.length_pos_iff.2 ‹_›
  rw [List.length_drop, BUFFLEN]
  omega

/-- Their sizes. -/
def pieceSizes (n : Nat) : List Nat := if n = 0 then [] else min BUFFLEN n :: pieceSizes (n - BUFFLEN)
termination_by n
decreasing_by rw [BUFFLEN]; omega

theorem pieces_length (data : Bytes) : (pieces data).map (·.length) = pieceSizes data.length := by
  fun_induction pieces data with
  | case1 => rw [List.length_nil, pieceSizes]; rfl
  | case2 data hd ih =>
    rw [pieceSizes, if_neg (mt List.length_eq_zero_iff.1 hd), List.map_cons, ih, List.length_take, List.length_drop]

theorem pieces_flatten (data : Bytes) : (pieces data).flatten = data := by
  fun_induction pieces data with
  | case1 => rfl
  | case2 data hd ih => rw [List.flatten_cons, ih, List.take_append_drop]

theorem sendBlocks_eq (fuel : Nat) (c : Client) (data : Bytes) (h : data.length ≤ fuel) :
    sendBlocks fuel c data = sendPieces c (pieces data) := by
  induction fuel generalizing c data with
  | zero =>
    rw [List.length_eq_zero_iff.1 (Nat.le_zero.1 h), pieces]
    rfl
  | succ fuel ih =>
    rw [sendBlocks, pieces]
    split
    · rfl
    · rename_i hd
      have hpos := List.length_pos_iff.2 hd
      rw [sendPieces]
      dsimp only
      split
      · rfl
      · exact ih _ _ (by rw [List.length_drop, BUFFLEN]; omega)

theorem b_eq (c : Client) (data : Bytes) : __b c data = sendPieces c (pieces data) := sendBlocks_eq _ _ _ le_rfl

/-! ## Where the wire breaks -/

/-- Calls for the sizes send nothing at all, and one of them returns -1. -/
inductive Refused : Int → List Nat → List SendEv → Prop
  | here {t n ns evs t' rest} : SendCall t n evs 0 (some (-1)) t' rest → Refused t (n :: ns) evs
  | later {t n ns evs r t' rest} : SendCall t n evs 0 r t' rest → r ≠ some (-1) → Refused t' ns rest →
    Refused t (n :: ns) evs

/-- Calls for the sizes take them whole until one is refused. One that is cut short is tolerated if all after it
are refused. -/
inductive Unbroken : Int → List Nat → List SendEv → Prop
  | nil {t evs} : Unbroken t [] evs
  | whole {t n ns evs t' rest} : SendCall t n evs n none t' rest → Unbroken t' ns rest → Unbroken t (n :: ns) evs
  | refused {t n ns evs t' rest} : SendCall t n evs 0 (some (-1)) t' rest → Unbroken t (n :: ns) evs
  | cut {t n ns evs k r t' rest} : SendCall t n evs k (some r) t' rest → Refused t' ns rest → Unbroken t (n :: ns) evs

/-- Calls for the sizes take them whole. -/
inductive Taken : Int → List Nat → List SendEv → Int → List SendEv → Prop
  | nil {t evs} : Taken t [] evs t evs
  | cons {t n ns evs t₁ evs₁ t' rest} : SendCall t n evs n none t₁ evs₁ → Taken t₁ ns evs₁ t' rest →
    Taken t (n :: ns) evs t' rest

/-- Some call for one of the sizes is refused, whatever became of those before it. -/
inductive SomeRefused : Int → List Nat → List SendEv → Prop
  | here {t n ns evs t' rest} : SendCall t n evs 0 (some (-1)) t' rest → SomeRefused t (n :: ns) evs
  | later {t n ns evs k r t' rest} : SendCall t n evs k r t' rest → SomeRefused t' ns rest → SomeRefused t (n :: ns) evs

/-- What has been sent is a prefix of the data, and all of it if 1 is returned. -/
def InOrder (client : Client) (data : Bytes) (r : Bool × Client) : Prop :=
  ∃ sent, r.2.wire = client.wire ++ sent ∧ sent <+: data ∧ (r.1 = true → sent = data)

section Pieces

variable {t t' : Int} {n k : Nat} {r : Option Int} {evs rest : List SendEv} {piece : Bytes} {ps : List Bytes} {c : Client}

/-- What a call leaves of the script. -/
def Client.after (c : Client) (sent : Bytes) (t' : Int) (rest : List SendEv) : Client :=
  { c with last_io := t', output := rest, wire := c.wire ++ sent }

/-- A refused piece is the last one. -/
theorem SendCall.sendPieces_refused (h : SendCall c.last_io piece.length c.output 0 (some (-1)) t' rest) :
    sendPieces c (piece :: ps) = (false, c.after [] t' rest) := by
  simp only [sendPieces, h.antd_send]
  rfl

/-- Any other is taken for sent. -/
theorem SendCall.sendPieces (h : SendCall c.last_io piece.length c.output k r t' rest)
    (hr : ¬(k = 0 ∧ r = some (-1))) :
    AntHttp.sendPieces c (piece :: ps) = AntHttp.sendPieces (c.after (piece.take k) t' rest) ps := by
  have hne := mt h.refused_iff.1 hr
  simp only [AntHttp.sendPieces, h.antd_send, if_neg hne]
  rfl

@[simp] theorem Client.after_wire (c : Client) (sent : Bytes) (t' : Int) (rest : List SendEv) :
    (c.after sent t' rest).wire = c.wire ++ sent := rfl

theorem Client.after_after (c : Client) (a b : Bytes) (t₁ t' : Int) (evs₁ rest : List SendEv) :
    (c.after a t₁ evs₁).after b t' rest = c.after (a ++ b) t' rest := by
  simp only [Client.after, List.append_assoc]

theorem Taken.append {ns ms : List Nat} (h : Taken t (ns ++ ms) evs t' rest) :
    ∃ t₁ evs₁, Taken t ns evs t₁ evs₁ ∧ Taken t₁ ms evs₁ t' rest := by
  induction ns generalizing t evs with
  | nil => exact ⟨t, evs, .nil, h⟩
  | cons n ns ih =>
    cases h with
    | cons hcall h =>
      obtain ⟨t₁, evs₁, h₁, h₂⟩ := ih h
      exact ⟨t₁, evs₁, .cons hcall h₁, h₂⟩

/-- Pieces that are taken whole are sent. -/
theorem Taken.sendPieces (h : Taken c.last_io (ps.map (·.length)) c.output t' rest) :
    AntHttp.sendPieces c ps = (true, c.after ps.flatten t' rest) := by
  induction ps generalizing c with
  | nil =>
    cases h
    rw [AntHttp.sendPieces, Client.after, List.flatten_nil, List.append_nil]
  | cons piece ps ih =>
    cases h with
    | cons hcall h =>
      rw [hcall.sendPieces (by simp), List.take_length, ih (c := c.after piece _ _) h, Client.after_after]
      rfl

theorem Taken.not_refused {ns : List Nat} (h : Taken t ns evs t' rest) :
    ¬SomeRefused t ns evs := by
  induction h with
  | nil => intro h; cases h
  | cons hcall _ ih =>
    intro href
    cases href with
    | here h' =>
      obtain ⟨-, hr, -, -⟩ := hcall.unique h'
      cases hr
    | later h' hlater =>
      obtain ⟨-, -, rfl, rfl⟩ := hcall.unique h'
      exact ih hlater

/-- The pieces are given up exactly if one is refused. -/
theorem sendPieces_fails_iff : (AntHttp.sendPieces c ps).1 = false ↔ SomeRefused c.last_io (ps.map (·.length)) c.output := by
  induction ps generalizing c with
  | nil =>
    refine iff_of_false (fun h => Bool.noConfusion h) fun h => ?_
    cases h
  | cons piece ps ih =>
    obtain ⟨k, r, t', rest, h⟩ := exists_call c.last_io piece.length c.output
    by_cases hr : k = 0 ∧ r = some (-1)
    · obtain ⟨rfl, rfl⟩ := hr
      rw [h.sendPieces_refused]
      exact iff_of_true rfl (.here h)
    · rw [h.sendPieces hr, ih]
      constructor
      · exact fun hlater => .later h hlater
      · intro href
        cases href with
        | here h' =>
          obtain ⟨hk, hr', -, -⟩ := h.unique h'
          exact absurd ⟨hk, hr'⟩ hr
        | later h' hlater =>
          obtain ⟨rfl, rfl, rfl, rfl⟩ := h.unique h'
          exact hlater

/-- Room for a block each time. -/
theorem taken_room {ns : List Nat} (t : Int) (h : ∀ n ∈ ns, 0 < n ∧ n ≤ BUFFLEN) (m : Nat) (hm : ns.length ≤ m) :
    ∃ t' rest, Taken t ns (List.replicate m (.room 1023 t)) t' rest := by
  induction ns generalizing m with
  | nil => exact ⟨_, _, .nil⟩
  | cons n ns ih =>
    obtain ⟨m, rfl⟩ : ∃ m', m = m' + 1 := Nat.exists_eq_succ_of_ne_zero (by rw [List.length_cons] at hm; omega)
    obtain ⟨t', rest, hrest⟩ := ih (fun k hk => h k (List.mem_cons_of_mem _ hk)) m (Nat.le_of_succ_le_succ hm)
    obtain ⟨hpos, hle⟩ := h n List.mem_cons_self
    obtain ⟨n, rfl⟩ := Nat.exists_eq_succ_of_ne_zero hpos.ne'
    have hmin : min (1023 + 1) (min (n + 1) BUFFLEN) = n + 1 := by
      rw [BUFFLEN] at hle ⊢
      omega
    have hdone : SendCall t (n + 1 - min (1023 + 1) (min (n + 1) BUFFLEN)) (List.replicate m (.room 1023 t)) 0 none t
        (List.replicate m (.room 1023 t)) := by
      rw [hmin, Nat.sub_self]
      exact .done
    have hcall := SendCall.room (t := t) hdone
    rw [hmin] at hcall
    exact ⟨t', rest, .cons hcall hrest⟩

/-- Room for a block each time, whenever the first is sent. -/
theorem taken_rooms {ns : List Nat} (t now : Int) (h : ∀ n ∈ ns, 0 < n ∧ n ≤ BUFFLEN) (m : Nat) (hm : ns.length ≤ m) :
    ∃ t' rest, Taken t ns (List.replicate m (.room 1023 now)) t' rest := by
  cases ns with
  | nil => exact ⟨_, _, .nil⟩
  | cons n ns =>
    obtain ⟨m, rfl⟩ : ∃ m', m = m' + 1 := Nat.exists_eq_succ_of_ne_zero (by rw [List.length_cons] at hm; omega)
    obtain ⟨hpos, hle⟩ := h n List.mem_cons_self
    obtain ⟨t', rest, hrest⟩ := taken_room now (fun k hk => h k (List.mem_cons_of_mem _ hk)) m (Nat.le_of_succ_le_succ hm)
    obtain ⟨n, rfl⟩ := Nat.exists_eq_succ_of_ne_zero hpos.ne'
    have hmin : min (1023 + 1) (min (n + 1) BUFFLEN) = n + 1 := by
      rw [BUFFLEN] at hle ⊢
      omega
    have hdone : SendCall now (n + 1 - min (1023 + 1) (min (n + 1) BUFFLEN)) (List.replicate m (.room 1023 now)) 0 none now
        (List.replicate m (.room 1023 now)) := by
      rw [hmin, Nat.sub_self]
      exact .done
    have hcall := SendCall.room (t := t) hdone
    rw [hmin] at hcall
    exact ⟨t', rest, .cons hcall hrest⟩

theorem sendPieces_wire (c : Client) (ps : List Bytes) :
    ∃ sent, (sendPieces c ps).2.wire = c.wire ++ sent ∧ ∀ b ∈ sent, b ∈ ps.flatten := by
  induction ps generalizing c with
  | nil => exact ⟨[], (List.append_nil _).symm, fun b hb => absurd hb List.not_mem_nil⟩
  | cons piece ps ih =>
    obtain ⟨k, r, t', rest, h⟩ := exists_call c.last_io piece.length c.output
    by_cases hr : k = 0 ∧ r = some (-1)
    · obtain ⟨rfl, rfl⟩ := hr
      rw [h.sendPieces_refused]
      exact ⟨[], rfl, fun b hb => absurd hb List.not_mem_nil⟩
    · obtain ⟨sent, hw, hmem⟩ := ih (c.after (piece.take k) t' rest)
      refine ⟨piece.take k ++ sent, ?_, fun b hb => ?_⟩
      · rw [h.sendPieces hr, hw, Client.after, List.append_assoc]
      · rw [List.flatten_cons]
        rcases List.mem_append.1 hb with hb | hb
        · exact List.mem_append_left _ (List.mem_of_mem_take hb)
        · exact List.mem_append_right _ (hmem b hb)

/-- Whether all pieces are refused depends on their sizes alone. -/
theorem refused_iff : Refused c.last_io (ps.map (·.length)) c.output ↔
    (sendPieces c ps).1 = false ∧ (sendPieces c ps).2.wire = c.wire := by
  induction ps generalizing c with
  | nil =>
    refine iff_of_false (fun h => ?_) fun h => Bool.noConfusion h.1
    cases h
  | cons piece ps ih =>
    obtain ⟨k, r, t', rest, h⟩ := exists_call c.last_io piece.length c.output
    by_cases hr : k = 0 ∧ r = some (-1)
    · obtain ⟨rfl, rfl⟩ := hr
      rw [h.sendPieces_refused]
      exact iff_of_true (.here h) ⟨rfl, List.append_nil _⟩
    · rw [h.sendPieces hr]
      constructor
      · intro href
        cases href with
        | here h' =>
          obtain ⟨hk, hr', -, -⟩ := h.unique h'
          exact absurd ⟨hk, hr'⟩ hr
        | later h' hr' href =>
          obtain ⟨rfl, rfl, rfl, rfl⟩ := h.unique h'
          obtain ⟨hret, hw⟩ := (ih (c := c.after [] _ _)).1 href
          rw [List.take_zero]
          exact ⟨hret, hw.trans (List.append_nil _)⟩
      · rintro ⟨hret, hw⟩
        obtain ⟨sent, hsent, -⟩ := sendPieces_wire (c.after (piece.take k) t' rest) ps
        have hnil : piece.take k ++ sent = [] := by
          rw [hw, Client.after, List.append_assoc] at hsent
          exact List.append_right_eq_self.1 hsent.symm
        obtain ⟨htake, -⟩ := List.append_eq_nil_iff.1 hnil
        have hk : k = 0 := by
          have hlen := congrArg List.length htake
          rw [List.length_take, List.length_nil] at hlen
          rcases h.taken with ⟨-, hk⟩ | ⟨-, hk⟩ <;> omega
        subst hk
        rw [htake] at hret hw
        exact .later h (fun h' => hr ⟨rfl, h'⟩) ((ih (c := c.after [] t' rest)).2 ⟨hret, hw.trans (List.append_nil _).symm⟩)

/-- The wire breaks nowhere if the calls say so. -/
theorem Unbroken.inOrder (h : Unbroken c.last_io (ps.map (·.length)) c.output) :
    InOrder c ps.flatten (sendPieces c ps) := by
  induction ps generalizing c with
  | nil => exact ⟨[], (List.append_nil _).symm, List.prefix_rfl, fun _ => rfl⟩
  | cons piece ps ih =>
    cases h with
    | @whole _ _ _ _ t' rest hcall h =>
      obtain ⟨sent, hw, hpre, hall⟩ := ih (c := c.after piece t' rest) h
      rw [hcall.sendPieces (by simp), List.take_length]
      refine ⟨piece ++ sent, ?_, ?_, fun hret => ?_⟩
      · rw [hw, Client.after, List.append_assoc]
      · exact (List.prefix_append_right_inj piece).2 hpre
      · rw [hall hret, List.flatten_cons]
    | refused hcall =>
      rw [hcall.sendPieces_refused]
      exact ⟨[], rfl, List.nil_prefix, fun hret => Bool.noConfusion hret⟩
    | @cut _ _ _ _ k r t' rest hcall href =>
      by_cases hr : k = 0 ∧ some r = some (-1)
      · obtain ⟨rfl, hr⟩ := hr
        cases hr
        rw [hcall.sendPieces_refused]
        exact ⟨[], rfl, List.nil_prefix, fun hret => Bool.noConfusion hret⟩
      · obtain ⟨hret, hw⟩ := (refused_iff (c := c.after (piece.take k) t' rest)).1 href
        rw [hcall.sendPieces hr]
        refine ⟨piece.take k, hw, ?_, fun h => ?_⟩
        · exact (List.take_prefix k piece).trans (List.prefix_append ..)
        · rw [hret] at h
          exact Bool.noConfusion h

/-- What is on the wire begins with what the first call has sent. -/
theorem sent_after {a sent : Bytes} (hw : (sendPieces (c.after a t' rest) ps).2.wire = c.wire ++ sent) :
    ∃ sent', sent = a ++ sent' ∧ (sendPieces (c.after a t' rest) ps).2.wire = (c.after a t' rest).wire ++ sent' ∧
      ∀ b ∈ sent', b ∈ ps.flatten := by
  obtain ⟨sent', hw', hmem⟩ := sendPieces_wire (c.after a t' rest) ps
  refine ⟨sent', ?_, hw', hmem⟩
  rw [hw', Client.after, List.append_assoc] at hw
  exact (List.append_cancel_left hw).symm

/-- A byte 1 where the call was cut and zeros everywhere else: anything sent after the cut shows. -/
theorem refused_of_inOrder {ns : List Nat} (hcall : SendCall c.last_io n c.output k r t' rest) (hk : k < n)
    (hr : ¬(k = 0 ∧ r = some (-1)))
    (h : ∀ ps : List Bytes, ps.map (·.length) = n :: ns → InOrder c ps.flatten (sendPieces c ps)) : Refused t' ns rest := by
  let piece : Bytes := List.replicate k 0 ++ 1 :: List.replicate (n - k - 1) 0
  let ps : List Bytes := ns.map (List.replicate · 0)
  have hlen : piece.length = n := by
    simp only [piece, List.length_append, List.length_cons, List.length_replicate]
    omega
  have hps : ps.map (·.length) = ns := by
    rw [List.map_map]
    exact (List.map_congr_left fun m _ => List.length_replicate).trans (List.map_id _)
  have htake : piece.take k = List.replicate k 0 := List.take_left' List.length_replicate
  obtain ⟨sent, hw, hpre, hall⟩ := h (piece :: ps) (by rw [List.map_cons, hlen, hps])
  rw [← hlen] at hcall
  rw [hcall.sendPieces hr, htake] at hw hall
  obtain ⟨sent', rfl, hw', hzero⟩ := sent_after hw
  have hnil : sent' = [] := by
    rw [List.flatten_cons, List.append_assoc] at hpre
    have hpre' := (List.prefix_append_right_inj _).1 hpre
    rcases List.prefix_cons_iff.1 hpre' with hnil | ⟨t, ht, -⟩
    · exact hnil
    · obtain ⟨l, hl, h1⟩ := List.mem_flatten.1 (hzero 1 (ht ▸ List.mem_cons_self))
      obtain ⟨m, -, rfl⟩ := List.mem_map.1 hl
      cases List.eq_of_mem_replicate h1
  subst hnil
  rw [← hps]
  refine (refused_iff (c := c.after (List.replicate k 0) t' rest)).2 ⟨?_, hw'.trans (List.append_nil _)⟩
  by_contra hret
  have heq := congrArg List.length (hall (Bool.not_eq_false _ ▸ hret))
  simp only [List.append_nil, List.length_replicate, List.flatten_cons, List.length_append, hlen] at heq
  omega

theorem unbroken_of_inOrder {ns : List Nat}
    (h : ∀ ps : List Bytes, ps.map (·.length) = ns → InOrder c ps.flatten (sendPieces c ps)) :
    Unbroken c.last_io ns c.output := by
  induction ns generalizing c with
  | nil => exact .nil
  | cons n ns ih =>
    obtain ⟨k, r, t', rest, hcall⟩ := exists_call c.last_io n c.output
    rcases hcall.taken with ⟨rfl, rfl⟩ | ⟨hr, hk⟩
    · refine .whole hcall (ih (c := c.after (List.replicate k 0) t' rest) fun ps hps => ?_)
      have hlen : (List.replicate k (0 : UInt8)).length = k := List.length_replicate
      obtain ⟨sent, hw, hpre, hall⟩ := h (List.replicate k 0 :: ps) (by rw [List.map_cons, hlen, hps])
      rw [← hlen] at hcall
      rw [hcall.sendPieces (by simp), List.take_length] at hw hall
      obtain ⟨sent', rfl, hw', -⟩ := sent_after hw
      rw [List.flatten_cons] at hpre hall
      exact ⟨sent', hw', (List.prefix_append_right_inj _).1 hpre, fun hret => List.append_cancel_left (hall hret)⟩
    · obtain ⟨r, rfl⟩ : ∃ r', r = some r' := by
        rcases hr with rfl | rfl <;> exact ⟨_, rfl⟩
      by_cases hr' : k = 0 ∧ some r = some (-1)
      · obtain ⟨rfl, hr'⟩ := hr'
        cases hr'
        exact .refused hcall
      · exact .cut hcall (refused_of_inOrder hcall hk hr' h)

theorem pieces_of_sizes {n : Nat} {ps : List Bytes} (h : ps.map (·.length) = pieceSizes n) :
    pieces ps.flatten = ps ∧ ps.flatten.length = n := by
  fun_induction pieceSizes n generalizing ps with
  | case1 =>
    rw [List.map_eq_nil_iff.1 h, List.flatten_nil, pieces]
    exact ⟨rfl, rfl⟩
  | case2 n hn ih =>
    obtain ⟨piece, ps, rfl, hpiece, hps⟩ := List.map_eq_cons_iff.1 h
    obtain ⟨hpieces, hlen⟩ := ih hps
    have hcut : piece.length = BUFFLEN ∨ ps.flatten = [] := by
      rcases Nat.le_total BUFFLEN n with hb | hb
      · exact .inl (hpiece.trans (Nat.min_eq_left hb))
      · exact .inr (List.length_eq_zero_iff.1 (by omega))
    have hne : piece ++ ps.flatten ≠ [] := by
      rw [ne_eq, ← List.length_eq_zero_iff, List.length_append, hlen, hpiece, BUFFLEN]
      omega
    rw [List.flatten_cons, pieces, if_neg hne, List.length_append, hlen, hpiece]
    refine ⟨?_, by omega⟩
    rcases hcut with hb | hnil
    · rw [List.take_left' hb, List.drop_left' hb, hpieces]
    · have hle : piece.length ≤ BUFFLEN := hpiece ▸ Nat.min_le_left ..
      rw [hnil, List.append_nil, List.take_of_length_le hle, List.drop_of_length_le hle, ← hnil, hpieces]

end Pieces

/-- Nothing is left out on the wire, whatever the bytes are, exactly when the calls for the sizes of the pieces are
unbroken. -/
theorem inOrder_iff (c : Client) :
    (∀ n, (∀ data : Bytes, data.length = n → InOrder c data (__b c data)) ↔
      Unbroken c.last_io (pieceSizes n) c.output) ∧
    (∀ ns, (∀ blocks : List Bytes, blocks.map (·.length) = ns →
      InOrder c blocks.flatten (sendFile c (some blocks))) ↔ Unbroken c.last_io ns c.output) ∧
    ∀ data, InOrder c data (sendFile c none) := by
  refine ⟨fun n => ⟨fun h => unbroken_of_inOrder fun ps hps => ?_, fun h data hn => ?_⟩, fun ns => ?_, fun data => ?_⟩
  · obtain ⟨hpieces, hlen⟩ := pieces_of_sizes hps
    have hb := h ps.flatten hlen
    rw [b_eq, hpieces] at hb
    exact hb
  · rw [b_eq]
    rw [← hn, ← pieces_length] at h
    have hp := h.inOrder
    rw [pieces_flatten] at hp
    exact hp
  · refine ⟨unbroken_of_inOrder, fun h blocks hns => ?_⟩
    subst hns
    exact h.inOrder
  · exact ⟨[], (List.append_nil _).symm, List.nil_prefix, fun h => Bool.noConfusion h⟩

/-- A client that takes half a piece, nothing for six seconds and then all it is given. -/
def stalledClient : Client :=
  ⟨5, false, .SERVE_FILE, 0, .CNONE, [], [.room 511 0, .again 6, .room 1023 6], [], []⟩

/-- The other half of the piece is left out, and 1 is returned. -/
theorem stalled_not_inOrder :
    ¬InOrder stalledClient (List.replicate 1024 0 ++ [1]) (__b stalledClient (List.replicate 1024 0 ++ [1])) := by
  have hsent : __b stalledClient (List.replicate 1024 0 ++ [1]) =
      (true, { stalledClient with last_io := 6, output := [], wire := List.replicate 512 0 ++ [1] }) := by decide +kernel
  rw [hsent]
  rintro ⟨sent, hw, -, hall⟩
  have heq := congrArg List.length (hw.trans (congrArg _ (hall rfl)))
  simp only [stalledClient, List.nil_append, List.length_append, List.length_replicate, List.length_singleton] at heq
  omega

end AntHttp
