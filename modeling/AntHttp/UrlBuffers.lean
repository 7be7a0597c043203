import AntHttp.Lib.Buffer
import AntHttp.Queries
/-!
# `url_encode` and `url_decode` in their buffers (`lib/utils.c`)

Both walk over a string with one pointer and store through another. A `char`
that is tested or shifted is an `int` first, below zero for half of the bytes
where `char` is signed.
-/

namespace AntHttp

open CString Buffer

namespace Pointer

/-! ## Characters as `int` -/

/-- What a `char` is promoted to. -/
def promote (signed : Bool) (c : UInt8) : BitVec 32 :=
  if signed then c.toBitVec.signExtend 32 else c.toBitVec.setWidth 32

/-- What is left of an `int` that is stored in a `char`. -/
def toChar (x : BitVec 32) : UInt8 := UInt8.ofBitVec (x.setWidth 8)

def between (lo hi : Char) (ch : BitVec 32) : Bool := (promote false (chr lo)).sle ch && ch.sle (promote false (chr hi))

def isdigit (ch : BitVec 32) : Bool := between '0' '9' ch
def isupper (ch : BitVec 32) : Bool := between 'A' 'Z' ch
def isalnum (ch : BitVec 32) : Bool := isdigit ch || isupper ch || between 'a' 'z' ch
def tolower (ch : BitVec 32) : BitVec 32 := if isupper ch then ch + 32 else ch

def from_hex (signed : Bool) (ch : UInt8) : UInt8 :=
  let ch := promote signed ch
  toChar (if isdigit ch then ch - 48 else tolower ch - 97 + 10)

def to_hex (signed : Bool) (code : UInt8) : UInt8 :=
  (str "0123456789abcdef").getD (promote signed code &&& 15).toNat 0

/-! ## The two walks -/

/-- What a round stores for the character at `pstr`, and how far it skips. -/
def decodeRound (signed : Bool) (str : Buffer) (pstr : Nat) (c : UInt8) : Except Buffer.Fault (Bytes × Nat) := do
  if c = 37 then
    let high ← str.get (pstr + 1)
    if high ≠ 0 then
      let low ← str.get (pstr + 2)
      if low ≠ 0 then
        return ([toChar (promote signed (from_hex signed high) <<< 4 ||| promote signed (from_hex signed low))], 2)
    return ([], 0)
  else if c = 43 then return ([32], 0)
  else return ([c], 0)

/-- `while (*pstr)`, with `*pbuf = 0` behind it. -/
def walk (round : Nat → UInt8 → Except Buffer.Fault (Bytes × Nat)) (str buf : Buffer) (pstr pbuf : Nat) :
    Except Buffer.Fault Buffer :=
  match _h : str.get pstr with
  | .error e => .error e
  | .ok c =>
    if c = 0 then buf.set pbuf 0
    else do
      let (stored, skip) ← round pstr c
      walk round str (← buf.put pbuf stored) (pstr + skip + 1) (pbuf + stored.length)
termination_by str.length - pstr
decreasing_by
  have hlt := get_lt ‹_›
  omega

def url_decode (signed : Bool) : Option Buffer → Except Buffer.Fault (Option Buffer)
  | none => .ok none
  | some str => do return some (← walk (decodeRound signed str) str (uninit ((← str.gets).length + 1)) 0 0)

def encodeRound (signed : Bool) (c : UInt8) : Bytes :=
  if isalnum (promote signed c) ∨ c = 45 ∨ c = 95 ∨ c = 46 ∨ c = 126 then [c]
  else if c = 32 then [43]
  else [37, to_hex signed (toChar ((promote signed c).sshiftRight 4)), to_hex signed (toChar (promote signed c &&& 15))]

def url_encode (signed : Bool) (str : Buffer) : Except Buffer.Fault Buffer := do
  walk (fun _ c => .ok (encodeRound signed c, 0)) str (uninit ((← str.gets).length * 3 + 1)) 0 0

/-! ## Both kinds of `char` -/

section

variable (signed : Bool)

theorem toChar_promote (c : UInt8) : toChar (promote signed c) = c := by
  unfold toChar promote
  apply UInt8.toBitVec_inj.1
  ext i hi
  cases signed with
  | false => simp
  | true =>
    have hi' : i < 32 := hi.trans (by decide)
    simp [BitVec.getElem_signExtend, hi, hi']

theorem toChar_or (x y : BitVec 32) : toChar (x ||| y) = toChar x ||| toChar y := by
  unfold toChar
  rw [BitVec.setWidth_or, UInt8.ofBitVec_or]

theorem toChar_shiftLeft (x : BitVec 32) : toChar (x <<< 4) = toChar x <<< 4 := by
  unfold toChar
  apply UInt8.toBitVec_inj.1
  simp

/-- The two hexadecimal digits of a byte are put together as they are for `unsigned char`. -/
theorem joined_digits (a b : UInt8) : toChar (promote signed a <<< 4 ||| promote signed b) = a <<< 4 ||| b := by
  rw [toChar_or, toChar_shiftLeft, toChar_promote, toChar_promote]

theorem from_hex_eq (c : UInt8) : from_hex signed c = AntHttp.from_hex c := by
  have h : ∀ n : Fin 256, from_hex signed (UInt8.ofNat n) = AntHttp.from_hex (UInt8.ofNat n) := by
    cases signed <;> decide +kernel
  simpa using h ⟨c.toNat, c.toNat_lt⟩

theorem encodeRound_eq (c : UInt8) : encodeRound signed c = encodeByte c := by
  have h : ∀ n : Fin 256, encodeRound signed (UInt8.ofNat n) = encodeByte (UInt8.ofNat n) := by
    cases signed <;> decide +kernel
  simpa using h ⟨c.toNat, c.toNat_lt⟩

/-! ## The walks to their ends -/

variable {round : Nat → UInt8 → Except Buffer.Fault (Bytes × Nat)} {str buf : Buffer} {pstr n : Nat} {s t w : Bytes}

/-- A round goes on behind what it stores. -/
theorem walk_round {c : UInt8} {stored : Bytes} {skip : Nat} (h : StringAt str pstr (c :: t)) (h0 : c ≠ 0)
    (hround : round pstr c = .ok (stored, skip)) (hn : w.length + stored.length ≤ n) :
    walk round str (holding w n) pstr w.length =
      walk round str (holding (w ++ stored) n) (pstr + skip + 1) (w ++ stored).length := by
  rw [walk]
  split
  · rename_i e he
    rw [h.head] at he
    cases he
  · rename_i c' hc'
    rw [h.head] at hc'
    cases hc'
    rw [if_neg h0, hround, ok_bind]
    dsimp only
    rw [put_holding hn, ok_bind, List.length_append]

theorem walk_nul (h : StringAt str pstr []) (hn : w.length < n) :
    walk round str (holding w n) pstr w.length = .ok (holding (w ++ [0]) n) := by
  rw [walk]
  split
  · rename_i e he
    rw [h.nul] at he
    cases he
  · rename_i c' hc'
    rw [h.nul] at hc'
    cases hc'
    rw [if_pos rfl, ← put_singleton]
    exact put_holding hn

variable {signed}

theorem decodeRound_escape {a b : UInt8} (h : StringAt str pstr (37 :: a :: b :: t)) (ha : a ≠ 0) (hb : b ≠ 0) :
    decodeRound signed str pstr 37 = .ok ([AntHttp.from_hex a <<< 4 ||| AntHttp.from_hex b], 2) := by
  have hhigh := h.tail.head
  have hlow := h.tail.tail.head
  simp only [decodeRound, if_true, hhigh, hlow, ok_bind, joined_digits, from_hex_eq, ne_eq, ha, hb, not_false_eq_true]
  rfl

/-- A percent sign without two characters behind it is left out. -/
theorem decodeRound_tail (h : StringAt str pstr (37 :: t)) (ht : t.length ≤ 1) :
    decodeRound signed str pstr 37 = .ok ([], 0) := by
  rcases t with _ | ⟨a, _ | ⟨b, t⟩⟩
  · have hhigh := h.tail.nul
    simp only [decodeRound, if_true, hhigh, ok_bind, ne_eq, not_true_eq_false, if_false]
    rfl
  · have hhigh := h.tail.head
    have hlow := h.tail.tail.nul
    simp only [decodeRound, if_true, hhigh, hlow, ok_bind, ne_eq, not_true_eq_false, if_false, ite_self]
    rfl
  · exact absurd ht (by simp)

theorem length_urlDecodeBytes (t : Bytes) : (urlDecodeBytes t).length ≤ t.length := by
  fun_induction urlDecodeBytes t with
  | case1 | case2 | case3 | case4 =>
    simp only [List.length_cons]
    omega
  | case5 => exact le_rfl

/-- From a place in the string the rest is decoded, behind what is stored. -/
theorem decode_walk (h : StringAt str pstr t) (h0 : 0 ∉ t) (hn : w.length + t.length < n) :
    walk (decodeRound signed str) str (holding w n) pstr w.length = .ok (holding (w ++ urlDecodeBytes t ++ [0]) n) := by
  fun_induction urlDecodeBytes t generalizing pstr w with
  | case1 a b s ih =>
    simp only [List.mem_cons, not_or] at h0
    obtain ⟨-, ha, hb, hs⟩ := h0
    rw [List.length_cons, List.length_cons, List.length_cons] at hn
    rw [walk_round h (by decide) (decodeRound_escape h (Ne.symm ha) (Ne.symm hb)) (by rw [List.length_singleton]; omega),
      ih h.tail.tail.tail hs (by rw [List.length_append, List.length_singleton]; omega), ← List.append_cons]
  | case2 s hs ih =>
    have ht : s.length ≤ 1 := by
      rcases s with _ | ⟨a, _ | ⟨b, s⟩⟩
      · exact Nat.zero_le _
      · exact le_rfl
      · exact absurd rfl (hs a b s)
    rw [List.length_cons] at hn
    rw [walk_round h (by decide) (decodeRound_tail h ht) (by rw [List.length_nil]; omega), List.append_nil,
      ih h.tail (fun hm => h0 (List.mem_cons_of_mem _ hm)) (by omega)]
  | case3 s ih =>
    rw [List.length_cons] at hn
    rw [walk_round h (by decide) rfl (by rw [List.length_singleton]; omega),
      ih h.tail (fun hm => h0 (List.mem_cons_of_mem _ hm)) (by rw [List.length_append, List.length_singleton]; omega),
      ← List.append_cons]
  | case4 c s h1 h2 h3 ih =>
    have hround : decodeRound signed str pstr c = .ok ([c], 0) := by
      rw [decodeRound, if_neg h2, if_neg h3]
      rfl
    have hc : c ≠ 0 := fun he => h0 (he ▸ List.mem_cons_self)
    rw [List.length_cons] at hn
    rw [walk_round h hc hround (by rw [List.length_singleton]; omega),
      ih h.tail (fun hm => h0 (List.mem_cons_of_mem _ hm)) (by rw [List.length_append, List.length_singleton]; omega),
      ← List.append_cons]
  | case5 =>
    rw [List.append_nil]
    exact walk_nul h hn

theorem length_encodeByte (c : UInt8) : (encodeByte c).length ≤ 3 := by
  unfold encodeByte
  split
  · simp
  · split <;> simp

theorem length_url_encode (s : Bytes) : (AntHttp.url_encode s).length ≤ s.length * 3 := by
  rw [url_encode_eq]
  induction s with
  | nil => exact le_rfl
  | cons c s ih =>
    have hc := length_encodeByte c
    rw [List.flatMap_cons, List.length_append, List.length_cons]
    omega

theorem encode_walk (h : StringAt str pstr s) (h0 : 0 ∉ s) (hn : w.length + s.length * 3 < n) :
    walk (fun _ c => .ok (encodeRound signed c, 0)) str (holding w n) pstr w.length =
      .ok (holding (w ++ AntHttp.url_encode s ++ [0]) n) := by
  rw [url_encode_eq]
  induction s generalizing pstr w with
  | nil =>
    rw [List.flatMap_nil, List.append_nil]
    exact walk_nul h hn
  | cons c s ih =>
    have hlen := length_encodeByte c
    obtain ⟨hc, hs⟩ := not_or.1 fun hm => h0 (List.mem_cons.2 hm)
    rw [List.length_cons] at hn
    rw [walk_round h (Ne.symm hc) rfl (by rw [encodeRound_eq]; omega), encodeRound_eq,
      ih h.tail hs (by rw [List.length_append]; omega), List.flatMap_cons, List.append_assoc w]

/-! ## What the callers get -/

theorem stringAt_holding (w : Bytes) (n : Nat) : StringAt (holding (w ++ [0]) n) 0 w := by
  refine ⟨uninit (n - (w ++ [0]).length), ?_⟩
  rw [List.drop_zero, holding, List.map_append, List.append_assoc]
  rfl

theorem stringAt_ofString (s : Bytes) : StringAt (ofString s) 0 s := ⟨[], rfl⟩

theorem gets_stringAt (h : StringAt str 0 s) (h0 : 0 ∉ s) : str.gets = .ok s := by
  obtain ⟨rest, h⟩ := h
  rw [List.drop_zero] at h
  rw [h, gets_append h0]

/-- The buffer of three times the length and one has the encoding in it. -/
theorem url_encode_ok (h : StringAt str 0 s) (h0 : 0 ∉ s) :
    url_encode signed str = .ok (holding (AntHttp.url_encode s ++ [0]) (s.length * 3 + 1)) := by
  have hn : ([] : Bytes).length + s.length * 3 < s.length * 3 + 1 := by
    rw [List.length_nil]
    omega
  unfold url_encode
  rw [gets_stringAt h h0, ok_bind]
  exact encode_walk h h0 hn

theorem url_decode_ok (h : StringAt str 0 t) (h0 : 0 ∉ t) :
    url_decode signed (some str) = .ok (some (holding (urlDecodeBytes t ++ [0]) (t.length + 1))) := by
  have hn : ([] : Bytes).length + t.length < t.length + 1 := by
    rw [List.length_nil]
    omega
  have hwalk : walk (decodeRound signed str) str (uninit (t.length + 1)) 0 0 = _ := decode_walk h h0 hn
  rw [url_decode, gets_stringAt h h0, ok_bind, hwalk]
  rfl

theorem zero_not_mem_url_encode (s : Bytes) : 0 ∉ AntHttp.url_encode s := by
  intro h
  rcases mem_url_encode h with h | h | h <;> revert h <;> decide

/-- The caller reads what is stored up to its first NUL. -/
theorem url_decode_gets (h : StringAt str 0 t) (h0 : 0 ∉ t) :
    ∃ d, url_decode signed (some str) = .ok (some d) ∧ d.gets = .ok (AntHttp.url_decode t) := by
  refine ⟨_, url_decode_ok h h0, ?_⟩
  rw [holding, List.map_append, List.append_assoc]
  exact gets_cstr _ _

/-- What is encoded is decoded again, whatever a `char` is; no string makes
either of them leave the string or the buffer. -/
theorem url_buffers (signed : Bool) :
    (∀ s, 0 ∉ s → ∃ e d n, url_encode signed (ofString s) = .ok (holding e (3 * s.length + 1)) ∧
      e.length ≤ 3 * s.length + 1 ∧ url_decode signed (some (holding e (3 * s.length + 1))) = .ok (some (holding d n)) ∧
      (holding d n).gets = .ok s) ∧
    ∀ t, 0 ∉ t → ∃ d, url_decode signed (some (ofString t)) = .ok (some (holding d (t.length + 1))) ∧
      d.length ≤ t.length + 1 := by
  constructor
  · intro s h
    have hlen := length_url_encode s
    have he := zero_not_mem_url_encode s
    have hat := stringAt_holding (AntHttp.url_encode s) (3 * s.length + 1)
    refine ⟨AntHttp.url_encode s ++ [0], _, _, ?_, ?_, url_decode_ok hat he, ?_⟩
    · rw [url_encode_ok (stringAt_ofString s) h, Nat.mul_comm]
    · rw [List.length_append, List.length_singleton]
      omega
    · rw [urlDecodeBytes_url_encode]
      exact gets_stringAt (stringAt_holding s _) h
  · intro t h
    have hlen := length_urlDecodeBytes t
    refine ⟨urlDecodeBytes t ++ [0], url_decode_ok (stringAt_ofString t) h, ?_⟩
    rw [List.length_append, List.length_singleton]
    omega

end

/-- An accented letter, a space and a slash; a percent sign with one character
behind it. -/
theorem url_buffers_sample :
    (∃ e d n, url_encode true (ofString [195, 169, 32, 47]) = .ok (holding e 13) ∧ e.length ≤ 13 ∧
      url_decode true (some (holding e 13)) = .ok (some (holding d n)) ∧ (holding d n).gets = .ok [195, 169, 32, 47]) ∧
    ∃ d, url_decode true (some (ofString (str "a%4"))) = .ok (some (holding d 4)) ∧ d.length ≤ 4 :=
  ⟨(url_buffers true).1 [195, 169, 32, 47] (by decide), (url_buffers true).2 (str "a%4") (by decide)⟩

end Pointer

end AntHttp
