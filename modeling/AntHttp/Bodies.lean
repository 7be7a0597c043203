import AntHttp.Limits
import AntHttp.Ports
/-!
# The body of a form

`post_data_decode` reads until it has the declared length, or until a receive
fails or nothing has come for too long. It returns what it has then, so its
caller sees a body that was cut only if not a byte of it has come.
-/

namespace AntHttp

open CString

/-- The bytes that arrive before a receive fails or times out. -/
def arrived : Int → List RecvEv → Bytes
  | _, [] => []
  | _, .byte b _ now :: evs => b :: arrived now evs
  | t, .again now :: evs => if now - t > MAX_IO_WAIT_TIME then [] else arrived t evs
  | _, .closed _ _ :: _ | _, .error _ :: _ => []

def body (c : Client) : Bytes := arrived c.last_io c.input

section

variable {c : Client} {len : Nat} {query : Bytes}

/-- What one receive takes comes first. -/
theorem arrived_recvBytes (t : Int) (n : Nat) (evs : List RecvEv) :
    arrived t evs = (recvBytes t n evs).1 ++ arrived (recvBytes t n evs).2.1 (recvBytes t n evs).2.2 := by
  fun_induction recvBytes t n evs with
  | case1 t n b now evs => rfl
  | case2 t n b last now evs hl r ih => simp only [arrived, ih, r, List.cons_append]
  | case3 => rfl

/-- A failed receive has nothing before it. -/
theorem body_failed {n : Nat} (hn : 0 < n) (h : (antd_recv_upto c n).1 < 0) : body c = [] := by
  obtain ⟨n, rfl⟩ := Nat.exists_eq_succ_of_ne_zero (Nat.ne_of_gt hn)
  unfold antd_recv_upto at h
  unfold body
  split at h
  · rename_i b last now evs hi
    have hne : (recvBytes c.last_io (n + 1) c.input).1 ≠ [] := by
      rw [hi, recvBytes]
      split <;> simp
    dsimp only at h
    rw [if_neg hne] at h
    exact absurd h (by omega)
  · cases h
  · rename_i hi
    rw [hi, arrived]
  · rename_i hi
    rw [hi, arrived]
  · rename_i hi
    rw [hi, arrived]

/-- A receive that finds nothing waits for what comes. -/
theorem body_waits {n : Nat} (h : (antd_recv_upto c n).1 = 0) :
    (antd_recv_upto c n).2.1 = [] ∧
      body c = if nextTime c - (antd_recv_upto c n).2.2.last_io > MAX_IO_WAIT_TIME then []
        else body (antd_recv_upto c n).2.2 := by
  unfold antd_recv_upto at h ⊢
  unfold body nextTime
  split at h
  · dsimp only at h
    split at h
    · cases h
    · rename_i hne
      exact absurd (List.length_eq_zero_iff.1 (Int.ofNat_eq_zero.1 h)) hne
  · rename_i hi
    rw [hi]
    exact ⟨rfl, rfl⟩
  all_goals cases h

theorem body_takes {n : Nat} (h : 0 < (antd_recv_upto c n).1) :
    body c = (antd_recv_upto c n).2.1 ++ body (antd_recv_upto c n).2.2 := by
  unfold antd_recv_upto at h ⊢
  unfold body
  split at h
  · rename_i b last now evs hi
    rw [hi]
    exact arrived_recvBytes ..
  all_goals cases h

/-- The loop adds what arrives, up to the length. -/
theorem postLoop_arrived (c : Client) (len : Nat) (query : Bytes) :
    (postLoop c len query).1 = query ++ (body c).take (len - query.length) := by
  fun_induction postLoop c len query with
  | case1 c q h => simp [Nat.sub_eq_zero_of_le h]
  | case2 c q h stat data c' hr hneg =>
    have hlt : (antd_recv_upto c (min BUFFLEN (len - q.length))).1 < 0 := by rw [hr]; exact hneg
    have hpos : 0 < min BUFFLEN (len - q.length) := Nat.lt_min.2 ⟨by decide, by omega⟩
    rw [body_failed hpos hlt]
    simp
  | case3 c q h stat data c' hr hneg hlate =>
    have hw := body_waits (c := c) (n := min BUFFLEN (len - q.length)) (by rw [hr]; exact hlate.1)
    rw [hr] at hw
    rw [hw.2, if_pos hlate.2]
    simp
  | case4 c q h stat data c' hr hneg hlate ih =>
    rw [ih]
    rcases Int.lt_or_eq_of_le (Int.not_lt.1 hneg) with hpos | hzero
    · have ht := body_takes (c := c) (n := min BUFFLEN (len - q.length)) (by rw [hr]; exact hpos)
      have hlen := antd_recv_upto_length c (min BUFFLEN (len - q.length))
      rw [hr] at ht hlen
      dsimp only at ht hlen
      have hall : data.take (len - q.length) = data := List.take_of_length_le (hlen.trans (Nat.min_le_right ..))
      rw [ht, List.take_append, hall, List.append_assoc, List.length_append, Nat.sub_sub]
    · have hw := body_waits (c := c) (n := min BUFFLEN (len - q.length)) (by rw [hr]; exact hzero.symm)
      rw [hr] at hw
      dsimp only at hw
      rw [hw.2, if_neg fun hl => hlate ⟨hzero.symm, hl⟩, hw.1]
      simp

theorem post_data_decode_eq (c : Client) (len : Int) :
    (post_data_decode c len).1 = if (body c).take len.toNat = [] then none else some ((body c).take len.toNat) := by
  have h := postLoop_arrived c len.toNat []
  rw [List.nil_append, List.length_nil, Nat.sub_zero] at h
  unfold post_data_decode
  dsimp only
  rw [h]

end

/-! ## The buffer -/

/-- The indices of `query` at which `post_data_decode` stores: those of the bytes read, and that of the NUL. -/
def post_data_decode_stores (client : Client) (len : Int) : List Nat :=
  let read := (postLoop client len.toNat []).1.length
  if read > 0 then List.range read ++ [read] else []

/-- The size that is handed to `malloc`, computed as an `int`. -/
def querySize (len : Int) : Int := int32 (len + 1)

theorem post_data_decode_stores_lt {c : Client} {len : Int} {n : Int} :
    (∀ i ∈ post_data_decode_stores c len, (i : Int) < n) ↔
      min len.toNat (body c).length = 0 ∨ (min len.toNat (body c).length : Nat) < n := by
  have h := congrArg List.length (postLoop_arrived c len.toNat [])
  rw [List.nil_append, List.length_nil, Nat.sub_zero, List.length_take] at h
  unfold post_data_decode_stores
  dsimp only
  rw [h, ← List.range_succ]
  split
  · constructor
    · intro hall
      exact .inr (hall _ (List.mem_range.2 (Nat.lt_succ_self _)))
    · rintro (h0 | hlt) i hi
      · omega
      · exact Int.lt_of_le_of_lt (Int.ofNat_le.2 (Nat.lt_succ_iff.1 (List.mem_range.1 hi))) hlt
  · refine iff_of_true nofun (.inl ?_)
    omega

/-- The buffer is large enough, unless its size overflows. -/
theorem post_data_decode_stores_lt_iff {c : Client} {len : Int} (hpos : 0 < len) (hlt : len < 2 ^ 31) :
    (∀ i ∈ post_data_decode_stores c len, (i : Int) < querySize len) ↔ body c = [] ∨ len + 1 < 2 ^ 31 := by
  have hsize : querySize len = if len + 1 < 2 ^ 31 then len + 1 else -2 ^ 31 := by
    unfold querySize int32
    rw [Int.bmod_def]
    split <;> split <;> omega
  rw [post_data_decode_stores_lt, hsize, ← List.length_eq_zero_iff]
  split <;> omega

/-! ## The request -/

/-- A request with the body of a form, of the declared length. -/
structure FormRequest (rq : Request) (clen : Int) : Prop where
  method : rq.METHOD.any (· ∈ [str "POST", str "PUT", str "PATCH"]) = true
  ctype : ∃ headers ctype, rq.REQUEST_HEADER = some headers ∧ headers.dvalue (str "Content-Type") = some ctype ∧
    strstr ctype FORM_URL_ENCODE = true
  declared : declared rq = clen
  pos : 0 < clen

/-- A complete body is decoded as it is; one that is cut is answered with 400, and nothing of it is decoded. -/
structure FormDecoded (rq : Request) (clen : Int) : Prop where
  complete : clen ≤ (body rq.client).length → (post_data_decode rq.client clen).1 = some ((body rq.client).take clen.toNat) ∧
    (·.2.REQUEST_DATA) <$> decode_post_request rq =
      decode_url_request (cstr ((body rq.client).take clen.toNat)) rq.REQUEST_DATA
  cut : (body rq.client).length < clen → ∃ t rq', decode_post_request rq = .ok (t, rq') ∧
    rq'.client.answers = rq.client.answers ++ [400] ∧ rq'.REQUEST_DATA = rq.REQUEST_DATA
  stores : ∀ i ∈ post_data_decode_stores rq.client clen, (i : Int) < querySize clen

section

variable {rq : Request} {clen : Int}

/-- What the handler of a form does with the bytes it has got. -/
theorem FormRequest.handled (h : FormRequest rq clen) :
    (∀ pquery, (post_data_decode rq.client clen).1 = some pquery → ∃ f : Option (Dictionary Bytes) → Task × Request,
      decode_post_request rq = f <$> decode_url_request (cstr pquery) rq.REQUEST_DATA ∧
        ∀ d, (f d).2.REQUEST_DATA = d ∧ (f d).2.client.answers = rq.client.answers) ∧
    ((post_data_decode rq.client clen).1 = none → ∃ t rq', decode_post_request rq = .ok (t, rq') ∧
      rq'.client.answers = rq.client.answers ++ [400] ∧ rq'.REQUEST_DATA = rq.REQUEST_DATA) := by
  obtain ⟨headers, ctype, hh, hc, hform⟩ := h.ctype
  have hdecl : (headers.dvalue (str "Content-Length")).elim (-1) atoi = clen := by
    rw [← h.declared, AntHttp.declared, hh]
    rfl
  have hr : (post_data_decode (rq.set_state .RQ_DATA_DECODE).client clen).1 = (post_data_decode rq.client clen).1 := by
    rw [post_data_decode_eq, post_data_decode_eq]
    rfl
  have hio : (post_data_decode (rq.set_state .RQ_DATA_DECODE).client clen).2.answers = rq.client.answers :=
    (postLoop_io (rq.set_state .RQ_DATA_DECODE).client clen.toNat []).answers
  have hpos := h.pos
  have hne : ¬ clen = -1 := by omega
  have hhs : deref (rq.set_state .RQ_DATA_DECODE).REQUEST_HEADER = .ok headers := deref_ok.2 hh
  have hm : (rq.set_state .RQ_DATA_DECODE).METHOD.any (· ∈ [str "POST", str "PUT", str "PATCH"]) = true := h.method
  rw [← hr]
  unfold decode_post_request
  dsimp only
  rw [hhs, Res.ok_bind, if_neg (not_not_intro hm), hc, hdecl]
  dsimp only
  rw [if_neg hne, if_pos hform]
  constructor
  · intro pquery hq
    rw [hq]
    let client := (post_data_decode (rq.set_state .RQ_DATA_DECODE).client clen).2
    exact ⟨fun d => ((antd_create_task none none rq.client.last_io).bindIo client.sock false true,
      { rq.set_state .RQ_DATA_DECODE with client, stored := rq.stored + pquery.length, REQUEST_DATA := d }),
      rfl, fun d => ⟨rfl, hio⟩⟩
  · intro hq
    rw [hq]
    dsimp only
    rw [if_pos hpos]
    refine ⟨_, _, rfl, ?_, rfl⟩
    rw [antd_error_answers, ← hio]

/-- A body that is cut, but not empty, is decoded without an answer. -/
theorem FormRequest.cut_decoded (h : FormRequest rq clen) (hb : body rq.client ≠ []) (hcut : (body rq.client).length < clen) :
    ¬ FormDecoded rq clen := by
  have hpos := h.pos
  have hlen := List.length_pos_iff.2 hb
  have heq := post_data_decode_eq rq.client clen
  have hne : (body rq.client).take clen.toNat ≠ [] := by
    rw [← List.length_pos_iff, List.length_take]
    omega
  rw [if_neg hne] at heq
  obtain ⟨f, hf, hd⟩ := h.handled.1 _ heq
  intro hdec
  obtain ⟨t, rq', he, hans, -⟩ := hdec.cut hcut
  rw [hf] at he
  obtain ⟨d, -, hfd⟩ := Res.map_ok.1 he
  have hans' := (hd d).2
  rw [hfd, hans] at hans'
  simp at hans'

/-- A body that arrives whole is decoded as it is. -/
theorem FormRequest.whole_decoded (h : FormRequest rq clen) (hle : clen ≤ (body rq.client).length) :
    (post_data_decode rq.client clen).1 = some ((body rq.client).take clen.toNat) ∧
      (·.2.REQUEST_DATA) <$> decode_post_request rq =
        decode_url_request (cstr ((body rq.client).take clen.toNat)) rq.REQUEST_DATA := by
  have hpos := h.pos
  have heq := post_data_decode_eq rq.client clen
  have hne : (body rq.client).take clen.toNat ≠ [] := by
    rw [← List.length_pos_iff, List.length_take]
    omega
  rw [if_neg hne] at heq
  obtain ⟨f, hf, hd⟩ := h.handled.1 _ heq
  have hid : (fun d => (f d).2.REQUEST_DATA) = id := funext fun d => (hd d).1
  refine ⟨heq, ?_⟩
  rw [hf, Functor.map_map, hid, id_map]

theorem FormRequest.lt (h : FormRequest rq clen) : clen < 2 ^ 31 := by
  rw [← h.declared, AntHttp.declared]
  cases rq.REQUEST_HEADER.bind (·.dvalue (str "Content-Length")) with
  | none => decide
  | some line => exact atoi_lt line

/-- A form is answered as it should exactly if its body arrives whole and the buffer can be
allocated, or if nothing of it arrives. -/
theorem decode_post_request_form_iff (h : FormRequest rq clen) :
    FormDecoded rq clen ↔ body rq.client = [] ∨ (clen ≤ (body rq.client).length ∧ clen + 1 < 2 ^ 31) := by
  have hpos := h.pos
  have hstores := @post_data_decode_stores_lt_iff rq.client clen hpos h.lt
  by_cases hb : body rq.client = []
  · have heq := post_data_decode_eq rq.client clen
    rw [hb, List.take_nil, if_pos rfl] at heq
    refine iff_of_true ⟨fun hle => h.whole_decoded hle, fun _ => h.handled.2 heq, hstores.2 (.inl hb)⟩ (.inl hb)
  · rw [or_iff_right hb] at hstores ⊢
    constructor
    · intro hdec
      exact ⟨Int.not_lt.1 fun hcut => h.cut_decoded hb hcut hdec, hstores.1 hdec.stores⟩
    · rintro ⟨hle, hsize⟩
      exact ⟨fun _ => h.whole_decoded hle, fun hcut => absurd hle (Int.not_le.2 hcut), hstores.2 hsize⟩

end

/-- A form of three bytes. -/
def formOf (s : Bytes) : Request := { (sampleConn none [] s).rq with
  METHOD := some (str "POST")
  REQUEST_HEADER := some (dictOf 30 [(str "Content-Type", FORM_URL_ENCODE), (str "Content-Length", str "3")])
  REQUEST_DATA := some .dict }

theorem formOf_request (s : Bytes) : FormRequest (formOf s) 3 where
  method := by
    have h : (some (str "POST")).any (· ∈ [str "POST", str "PUT", str "PATCH"]) = true := by decide
    exact h
  ctype := ⟨_, FORM_URL_ENCODE, rfl, by decide, by decide⟩
  declared := by
    have h : (dictOf 30 [(str "Content-Type", FORM_URL_ENCODE), (str "Content-Length", str "3")]).dvalue
      (str "Content-Length") = some (str "3") := by decide
    rw [declared, formOf, Option.bind_some, h]
    decide
  pos := by decide

theorem decode_post_request_form_iff_whole : FormDecoded (formOf (str "a=b")) 3 :=
  (decode_post_request_form_iff (formOf_request _)).2 (.inr (by decide))

/-- After two of the three bytes the peer is gone. -/
theorem decode_post_request_form_cut : ¬ ∀ (rq : Request) (clen : Int), FormRequest rq clen → FormDecoded rq clen := by
  intro hall
  have hreq := formOf_request (str "a=")
  exact hreq.cut_decoded (by decide) (by decide) (hall _ _ hreq)

end AntHttp
