import AntHttp.Handle
/-!
# What arrives on a connection

The bytes of a script are the stream the peer has sent. A call takes its bytes
from the front of the stream; it takes as many as it was asked for when they
arrive without a pause that is too long.
-/

namespace AntHttp

/-- The bytes of a script, in order. -/
def bytesOf : List RecvEv → Bytes
  | [] => []
  | .byte b _ _ :: evs => b :: bytesOf evs
  | .again _ :: evs | .closed _ _ :: evs | .error _ :: evs => bytesOf evs

/-- The bytes arrive one after another: `t` and `t'` are the times of the last
byte before and after them, `rest` is what the script goes on with. -/
inductive Arrives : Int → Bytes → List RecvEv → Int → List RecvEv → Prop
  | nil {t evs} : Arrives t [] evs t evs
  | byte {t b bs last now evs t' rest} :
    Arrives now bs evs t' rest → Arrives t (b :: bs) (.byte b last now :: evs) t' rest
  | again {t b bs now evs t' rest} :
    now - t ≤ MAX_IO_WAIT_TIME → Arrives t (b :: bs) evs t' rest → Arrives t (b :: bs) (.again now :: evs) t' rest

section

variable {t t' : Int} {bs : Bytes} {evs rest : List RecvEv}

/-- A call that asks for the bytes gets them. -/
theorem Arrives.recvLoop (h : Arrives t bs evs t' rest) : recvLoop t bs.length evs = ⟨bs, 0, t', rest⟩ := by
  induction h with
  | nil => simp [AntHttp.recvLoop]
  | byte _ ih => simp [AntHttp.recvLoop, ih]
  | again hnow _ ih =>
    rw [List.length_cons] at ih ⊢
    rw [AntHttp.recvLoop, if_neg (by omega), ih]

/-- Part of what arrives arrives first. -/
theorem Arrives.split {as : Bytes} (h : Arrives t (as ++ bs) evs t' rest) :
    ∃ t₁ evs₁, Arrives t as evs t₁ evs₁ ∧ Arrives t₁ bs evs₁ t' rest := by
  generalize hl : as ++ bs = l at h
  induction h generalizing as with
  | nil =>
    obtain ⟨rfl, rfl⟩ := List.append_eq_nil_iff.1 hl
    exact ⟨_, _, .nil, .nil⟩
  | @byte t b l last now evs t' rest h ih =>
    cases as with
    | nil => subst hl; exact ⟨_, _, .nil, .byte h⟩
    | cons a as =>
      obtain ⟨rfl, hl'⟩ := List.cons.inj hl
      obtain ⟨t₁, evs₁, h₁, h₂⟩ := ih hl'
      exact ⟨t₁, evs₁, .byte h₁, h₂⟩
  | again hnow h ih =>
    cases as with
    | nil => subst hl; exact ⟨_, _, .nil, .again hnow h⟩
    | cons a as =>
      obtain ⟨t₁, evs₁, h₁, h₂⟩ := ih hl
      exact ⟨t₁, evs₁, .again hnow h₁, h₂⟩

theorem Arrives.bytesOf (h : Arrives t bs evs t' rest) : bytesOf evs = bs ++ bytesOf rest := by
  induction h with
  | nil => rfl
  | byte _ ih => simp [AntHttp.bytesOf, ih]
  | again _ _ ih => simpa [AntHttp.bytesOf] using ih

/-- Bytes that come without any pause. -/
theorem arrives_bytes (t now : Int) (bs : Bytes) (rest : List RecvEv) :
    ∃ t', Arrives t bs (bs.map (RecvEv.byte · false now) ++ rest) t' rest := by
  induction bs generalizing t with
  | nil => exact ⟨t, .nil⟩
  | cons b bs ih =>
    obtain ⟨t', h⟩ := ih now
    exact ⟨t', .byte h⟩

end

/-! ## Calls take from the front of the stream -/

theorem recvLoop_bytesOf (t : Int) (n : Nat) (evs : List RecvEv) :
    bytesOf evs = (recvLoop t n evs).data ++ bytesOf (recvLoop t n evs).input := by
  fun_induction recvLoop t n evs with
  | case1 | case2 => rfl
  | case3 t n b last now evs r ih => simp only [bytesOf, ih, r, List.cons_append]
  | case4 | case6 | case8 => rfl
  | case5 t n now evs hlate ih | case7 t n stale now evs hlate ih => simpa only [bytesOf] using ih

/-- Without a byte the call has failed. -/
theorem recvLoop_received (t : Int) (n : Nat) (evs : List RecvEv) : (recvLoop t n evs).received ≤ 0 := by
  fun_induction recvLoop t n evs with
  | case1 | case2 | case4 | case6 | case8 => simp
  | case3 t n b last now evs r ih => exact ih
  | case5 t n now evs hlate ih | case7 t n stale now evs hlate ih => exact ih

/-- The call returns a positive number exactly when it has stored bytes. -/
theorem antd_recv_pos (c : Client) (n : Nat) : 0 < (antd_recv c n).1 ↔ (antd_recv c n).2.1 ≠ [] := by
  have h := recvLoop_received c.last_io n c.input
  unfold antd_recv
  dsimp only
  split
  · simp_all
  · rename_i hd
    simpa [hd] using List.length_pos_iff.2 hd

/-- A call that fails has stored nothing. -/
theorem antd_recv_nil (c : Client) (n : Nat) : (antd_recv c n).1 ≤ 0 ↔ (antd_recv c n).2.1 = [] := by
  have h := antd_recv_pos c n
  by_cases hd : (antd_recv c n).2.1 = []
  · simp_all
  · simp_all

theorem Arrives.antd_recv {c : Client} {bs : Bytes} {t' : Int} {rest : List RecvEv}
    (h : Arrives c.last_io bs c.input t' rest) :
    AntHttp.antd_recv c bs.length = ((bs.length : Int), bs, { c with last_io := t', input := rest }) := by
  unfold AntHttp.antd_recv
  rw [h.recvLoop]
  by_cases hb : bs = []
  · subst hb; rfl
  · simp [hb]

/-! ## A message in parts -/

/-- Successive calls for `ns` bytes each get all of them. -/
def Gets : List Nat → Client → Prop
  | [], _ => True
  | n :: ns, c => (antd_recv c n).2.1.length = n ∧ Gets ns (antd_recv c n).2.2

/-- None of the calls gets only part of its bytes, until one gets nothing. -/
def Whole : List Nat → Client → Prop
  | [], _ => True
  | n :: ns, c =>
    (antd_recv c n).2.1 = [] ∨ ((antd_recv c n).2.1.length = n ∧ Whole ns (antd_recv c n).2.2)

theorem Gets.whole {ns : List Nat} {c : Client} (h : Gets ns c) : Whole ns c := by
  induction ns generalizing c with
  | nil => trivial
  | cons n ns ih => exact .inr ⟨h.1, ih h.2⟩

/-- A call for one byte gets it or nothing. -/
theorem whole_one (c : Client) : Whole [1] c := by
  have h : (antd_recv c 1).2.1.length ≤ 1 := recvLoop_length ..
  rcases Nat.le_one_iff_eq_zero_or_eq_one.1 h with h | h
  · exact .inl (List.length_eq_zero_iff.1 h)
  · exact .inr ⟨h, trivial⟩

/-- What arrives in one go arrives in its parts. -/
theorem Arrives.gets {parts : List Bytes} {c : Client} {t' : Int} {rest : List RecvEv}
    (h : Arrives c.last_io parts.flatten c.input t' rest) : Gets (parts.map (·.length)) c := by
  induction parts generalizing c with
  | nil => trivial
  | cons part parts ih =>
    obtain ⟨t₁, evs₁, h₁, h₂⟩ := h.split
    rw [List.map_cons, Gets, h₁.antd_recv]
    exact ⟨rfl, ih h₂⟩

theorem antd_recv_bytesOf (c : Client) (n : Nat) :
    bytesOf c.input = (antd_recv c n).2.1 ++ bytesOf (antd_recv c n).2.2.input := recvLoop_bytesOf ..

theorem antd_recv_length (c : Client) (n : Nat) : (antd_recv c n).2.1.length ≤ n := recvLoop_length ..

/-! ## What is sent -/

theorem sendLoop_prefix (t : Int) (data : Bytes) (evs : List SendEv) : (sendLoop t data evs).data <+: data := by
  fun_induction sendLoop t data evs with
  | case1 | case2 | case4 | case6 | case8 => simp
  | case3 t c data n now evs k r ih =>
    obtain ⟨rest, h⟩ := ih
    refine ⟨rest, ?_⟩
    rw [List.append_assoc, h, List.take_append_drop]
  | case5 t c data now evs hlate ih | case7 t c data now evs hlate ih => exact ih

theorem sendLoop_count (t : Int) (data : Bytes) (evs : List SendEv) : (sendLoop t data evs).count ≤ 0 := by
  fun_induction sendLoop t data evs with
  | case1 | case2 | case4 | case6 | case8 => simp
  | case3 t c data n now evs k r ih => exact ih
  | case5 t c data now evs hlate ih | case7 t c data now evs hlate ih => exact ih

/-- A call that returns the length of its data has sent them all. -/
theorem antd_send_all {c : Client} {data : Bytes} (h : (antd_send c data).1 = data.length) :
    (antd_send c data).2.wire = c.wire ++ data := by
  have hp := sendLoop_prefix c.last_io data c.output
  have hc := sendLoop_count c.last_io data c.output
  have hlen : (sendLoop c.last_io data c.output).data.length = data.length := by
    unfold antd_send at h
    dsimp only at h
    split at h
    · rename_i hd
      rw [hd, List.length_nil]
      omega
    · omega
  exact congrArg (c.wire ++ ·) (hp.eq_of_length hlen)

end AntHttp
