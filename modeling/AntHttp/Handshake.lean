import AntHttp.Lib.Buffer
import AntHttp.Sample
/-!
# The answer to an upgrade, in its buffers (`decode.c`, `lib/base64.c`)

`ws_confirm_request` joins the key and the magic string in `rkey[128]`. The
copy of the key is bounded, but what is appended is bounded by the room for the
key, without the NUL that ends it.
-/

set_option linter.style.nameCheck false

namespace AntHttp

open CString Buffer

/-! ## Base64 -/

def basis_64 (i : UInt8) : UInt8 :=
  (str "ABCDEFGHIJKLMNOPQRSTUVWXYZabcdefghijklmnopqrstuvwxyz0123456789+/").getD i.toNat 0

/-- The characters that `Base64encode` stores, without the NUL. -/
def base64 : Bytes → Bytes
  | a :: b :: c :: string =>
    basis_64 ((a >>> 2) &&& 0x3F) :: basis_64 (((a &&& 0x3) <<< 4) ||| ((b &&& 0xF0) >>> 4)) ::
      basis_64 (((b &&& 0xF) <<< 2) ||| ((c &&& 0xC0) >>> 6)) :: basis_64 (c &&& 0x3F) :: base64 string
  | [a, b] =>
    [basis_64 ((a >>> 2) &&& 0x3F), basis_64 (((a &&& 0x3) <<< 4) ||| ((b &&& 0xF0) >>> 4)),
      basis_64 ((b &&& 0xF) <<< 2), 61]
  | [a] => [basis_64 ((a >>> 2) &&& 0x3F), basis_64 ((a &&& 0x3) <<< 4), 61, 61]
  | [] => []

def Base64encode (encoded string : Buffer) (len : Nat) : Except Buffer.Fault Buffer := do
  put encoded 0 (base64 (← getn string len) ++ [0])

theorem base64_length (s : Bytes) : (base64 s).length = (s.length + 2) / 3 * 4 := by
  fun_induction base64 s with
  | case1 a b c s ih =>
    simp only [List.length_cons, ih]
    omega
  | case2 | case3 | case4 => simp

/-- Six bits. -/
def Sextet (i : UInt8) : Prop := i.toNat < 64

theorem sextet_and (x : UInt8) : Sextet (x &&& 0x3F) := by
  have hle : x.toNat &&& 63 ≤ 63 := Nat.and_le_right
  rw [Sextet, UInt8.toNat_and]
  exact Nat.lt_succ_of_le hle

theorem sextet_high (x : UInt8) : Sextet ((x &&& 0x3) <<< 4) ∧ Sextet ((x &&& 0xF) <<< 2) := by
  have h3 : x.toNat &&& 3 ≤ 3 := Nat.and_le_right
  have h15 : x.toNat &&& 15 ≤ 15 := Nat.and_le_right
  simp only [Sextet, UInt8.toNat_shiftLeft, UInt8.toNat_and, UInt8.reduceToNat, Nat.reduceMod, Nat.shiftLeft_eq]
  omega

theorem sextet_low (x : UInt8) : Sextet ((x &&& 0xF0) >>> 4) ∧ Sextet ((x &&& 0xC0) >>> 6) := by
  have h240 : x.toNat &&& 240 ≤ 240 := Nat.and_le_right
  have h192 : x.toNat &&& 192 ≤ 192 := Nat.and_le_right
  simp only [Sextet, UInt8.toNat_shiftRight, UInt8.toNat_and, UInt8.reduceToNat, Nat.reduceMod, Nat.shiftRight_eq_div_pow]
  omega

theorem sextet_or {x y : UInt8} (hx : Sextet x) (hy : Sextet y) : Sextet (x ||| y) := by
  rw [Sextet, UInt8.toNat_or]
  exact Nat.or_lt_two_pow (n := 6) hx hy

theorem basis_64_ne {i : UInt8} (h : Sextet i) : basis_64 i ≠ 0 := by
  have hall : ∀ n : Fin 64, basis_64 (UInt8.ofNat n) ≠ 0 := by decide +kernel
  have hi : i = UInt8.ofNat i.toNat := by simp
  rw [hi]
  exact hall ⟨i.toNat, h⟩

theorem not_mem_base64 (s : Bytes) : 0 ∉ base64 s := by
  fun_induction base64 s with
  | case1 a b c s ih =>
    have h1 := basis_64_ne (sextet_and (a >>> 2))
    have h2 := basis_64_ne (sextet_or (sextet_high a).1 (sextet_low b).1)
    have h3 := basis_64_ne (sextet_or (sextet_high b).2 (sextet_low c).2)
    have h4 := basis_64_ne (sextet_and c)
    simp only [List.mem_cons, h1.symm, h2.symm, h3.symm, h4.symm, ih, or_self, not_false_eq_true]
  | case2 a b =>
    have h1 := basis_64_ne (sextet_and (a >>> 2))
    have h2 := basis_64_ne (sextet_or (sextet_high a).1 (sextet_low b).1)
    have h3 := basis_64_ne (sextet_high b).2
    simp [h1.symm, h2.symm, h3.symm]
  | case3 a =>
    have h1 := basis_64_ne (sextet_and (a >>> 2))
    have h2 := basis_64_ne (sextet_high a).1
    simp [h1.symm, h2.symm]
  | case4 => exact List.not_mem_nil

/-! ## The buffers -/

/-- The digest of a string, of 20 bytes. -/
structure Sha1 where
  digest : Bytes → Bytes
  length : ∀ s, (digest s).length = 20

/-- A text is printed into `buf` and sent as the string that is then there. -/
def printed (buf : Buffer) (text : Bytes) : Except Buffer.Fault (Bytes × Buffer) := do
  let buf ← sprintf buf text
  return (← gets buf, buf)

/-- `rkey`, with the key and as much of the magic string as `n` allows. -/
def joined (key : Bytes) : Except Buffer.Fault Buffer := do
  let rkey ← strncpy (uninit 128) key (128 - 1)
  let n := int32 (128 - int32 key.length)
  let n := if n < 0 then 0 else n
  strncat rkey WS_MAGIC_STRING n.toNat

/-- What `ws_confirm_request` sends, text after text. -/
def confirmTexts (sha : Sha1) (key : Bytes) : Except Buffer.Fault (List Bytes) := do
  let rkey ← joined key
  let sha_d ← put (uninit 20) 0 (sha.digest (← gets rkey))
  let base64 ← Base64encode (uninit 64) sha_d 20
  let (status, buf) ← printed (uninit 256) (str "HTTP/1.1 101 Switching Protocols\r\n")
  let (upgrade, buf) ← printed buf (str "Upgrade: websocket\r\n")
  let (connection, buf) ← printed buf (str "Connection: Upgrade\r\n")
  let (accept, buf) ← printed buf (str "Sec-WebSocket-Accept: " ++ (← gets base64) ++ [13, 10])
  let (last, _) ← printed buf [13, 10]
  return [status, upgrade, connection, accept, last]

/-- The texts of the answer to the key. -/
def answerTexts (sha : Sha1) (key : Bytes) : List Bytes :=
  [str "HTTP/1.1 101 Switching Protocols\r\n", str "Upgrade: websocket\r\n", str "Connection: Upgrade\r\n",
    str "Sec-WebSocket-Accept: " ++ base64 (sha.digest (key ++ WS_MAGIC_STRING)) ++ [13, 10], [13, 10]]

section

variable {sha : Sha1} {key : Bytes}

theorem WS_MAGIC_STRING_length : WS_MAGIC_STRING.length = 36 := by decide

/-- `strncpy` stores 127 bytes of the 128. -/
theorem rkey_eq (key : Bytes) : strncpy (uninit 128) key 127 =
    .ok ((key.take 127 ++ List.replicate (127 - key.length) 0).map some ++ [none]) := by
  have hlen : (key.take 127 ++ List.replicate (127 - key.length) (0 : UInt8)).length = 127 := by
    rw [List.length_append, List.length_take, List.length_replicate]
    omega
  have hfit : 0 + (key.take 127 ++ List.replicate (127 - key.length) (0 : UInt8)).length ≤ (uninit 128).length := by
    rw [hlen, uninit, List.length_replicate]
    decide
  rw [strncpy, put_ok hfit, hlen]
  rfl

/-- A key with room for its NUL. -/
theorem rkey_copied (h : key.length ≤ 126) : strncpy (uninit 128) key 127 =
    .ok (key.map some ++ some 0 :: (List.replicate (126 - key.length) (some 0) ++ [none])) := by
  obtain ⟨k, hk⟩ : ∃ k, 127 - key.length = k + 1 := ⟨126 - key.length, by omega⟩
  have hk' : 126 - key.length = k := by omega
  rw [rkey_eq, hk, hk', List.take_of_length_le (by omega), List.replicate_succ]
  simp only [List.map_append, List.map_cons, List.map_replicate, List.append_assoc, List.cons_append]

/-- A longer one is not ended. -/
theorem rkey_filled (h : 127 ≤ key.length) : strncpy (uninit 128) key 127 = .ok ((key.take 127).map some ++ [none]) := by
  rw [rkey_eq, Nat.sub_eq_zero_of_le h, List.replicate_zero, List.append_nil]

theorem room_eq (h : key.length ≤ 126) :
    (if int32 (128 - int32 key.length) < 0 then 0 else int32 (128 - int32 key.length)).toNat = 128 - key.length := by
  have hlen : int32 key.length = key.length := int32_eq (by omega) (by omega)
  have hroom : int32 (128 - int32 key.length) = 128 - key.length := by
    rw [hlen]
    exact int32_eq (by omega) (by omega)
  rw [hroom, if_neg (by omega)]
  omega

/-- What is printed is what is sent. -/
theorem printed_ok {b : Buffer} {text : Bytes} (h : 0 ∉ text) (hlen : text.length < 256) (hb : b.length = 256) :
    ∃ b', printed b text = .ok (text, b') ∧ b'.length = 256 := by
  obtain ⟨b', hb', hgets, hlen'⟩ := gets_sprintf h (hb ▸ hlen)
  refine ⟨b', ?_, hlen'.trans hb⟩
  rw [printed, hb', ok_bind, hgets]
  rfl

theorem joined_eq {b : Buffer} (h : key.length ≤ 126) (hcopy : strncpy (uninit 128) key 127 = .ok b) :
    joined key = strncat b WS_MAGIC_STRING (128 - key.length) := by
  unfold joined
  rw [hcopy, ← room_eq h]
  rfl

/-- A key that leaves room for the magic string and a NUL. -/
theorem joined_short (h0 : 0 ∉ key) (h : key.length ≤ 91) :
    ∃ b, joined key = .ok b ∧ gets b = .ok (key ++ WS_MAGIC_STRING) := by
  have hmagic : WS_MAGIC_STRING.take (128 - key.length) = WS_MAGIC_STRING :=
    List.take_of_length_le (by rw [WS_MAGIC_STRING_length]; omega)
  have hnot : 0 ∉ key ++ WS_MAGIC_STRING := by
    rw [List.mem_append]
    exact not_or.2 ⟨h0, by decide⟩
  rw [joined_eq (by omega) (rkey_copied (by omega)), strncat_ok h0]
  · rw [hmagic]
    exact ⟨_, rfl, gets_append hnot _⟩
  · rw [hmagic, WS_MAGIC_STRING_length, List.length_append, List.length_replicate, List.length_singleton]
    omega

/-- From 92 letters on the NUL is one of the bytes beyond `rkey`. -/
theorem joined_long (h0 : 0 ∉ key) (h : 92 ≤ key.length) (h' : key.length ≤ 126) : joined key = .error .bounds := by
  rw [joined_eq h' (rkey_copied h')]
  apply strncat_bounds h0
  simp only [List.length_append, List.length_replicate, List.length_take, List.length_singleton, WS_MAGIC_STRING_length]
  omega

/-- From 127 letters on the end of the key is looked for where nothing was stored. -/
theorem joined_longer (h0 : 0 ∉ key) (h : 127 ≤ key.length) : joined key = .error .uninit := by
  unfold joined
  rw [rkey_filled h, ok_bind]
  exact strncat_uninit (fun hm => h0 (List.mem_of_mem_take hm)) []

/-- The digest is stored, and encoded into a string of 28 letters. -/
theorem digest_encoded {digest : Bytes} (hlen : digest.length = 20) :
    put (uninit 20) 0 digest = .ok (digest.map some) ∧
      ∃ e, Base64encode (uninit 64) (digest.map some) 20 = .ok e ∧ gets e = .ok (base64 digest) := by
  have hput : put (uninit 20) 0 digest = .ok (digest.map some) := by
    rw [put_ok (by rw [hlen]; decide), hlen, List.take_zero, List.nil_append]
    exact congrArg _ (List.append_nil _)
  have hgetn : getn (digest.map some) 20 = .ok digest := by
    have hget := getn_append digest []
    rwa [List.append_nil, hlen] at hget
  have hfit : (base64 digest).length < (uninit 64).length := by
    rw [base64_length, hlen, uninit, List.length_replicate]
    decide
  obtain ⟨e, he, hgets, -⟩ := gets_sprintf (not_mem_base64 digest) hfit
  refine ⟨hput, e, ?_, hgets⟩
  rw [Base64encode, hgetn]
  exact he

theorem confirmTexts_of_joined (sha : Sha1) {b : Buffer} (h : joined key = .ok b)
    (hb : gets b = .ok (key ++ WS_MAGIC_STRING)) : confirmTexts sha key = .ok (answerTexts sha key) := by
  unfold confirmTexts answerTexts
  rw [h, ok_bind, hb, ok_bind]
  have hlen := sha.length (key ++ WS_MAGIC_STRING)
  generalize sha.digest (key ++ WS_MAGIC_STRING) = digest at hlen ⊢
  obtain ⟨hput, e, hencode, he⟩ := digest_encoded hlen
  have haccept : 0 ∉ str "Sec-WebSocket-Accept: " ++ base64 digest ++ [13, 10] := by
    have hhead : 0 ∉ str "Sec-WebSocket-Accept: " := by decide
    simp [not_mem_base64 digest, hhead]
  have hshort : (str "Sec-WebSocket-Accept: " ++ base64 digest ++ [13, 10]).length < 256 := by
    rw [List.length_append, List.length_append, base64_length, hlen]
    decide
  have hstatus : 0 ∉ str "HTTP/1.1 101 Switching Protocols\r\n" := by decide
  have hupgrade : 0 ∉ str "Upgrade: websocket\r\n" := by decide
  have hconnection : 0 ∉ str "Connection: Upgrade\r\n" := by decide
  have hlast : (0 : UInt8) ∉ [13, 10] := by decide
  have hb : (uninit 256).length = 256 := List.length_replicate
  obtain ⟨b₁, h₁, hb₁⟩ := printed_ok hstatus (by decide) hb
  obtain ⟨b₂, h₂, hb₂⟩ := printed_ok hupgrade (by decide) hb₁
  obtain ⟨b₃, h₃, hb₃⟩ := printed_ok hconnection (by decide) hb₂
  obtain ⟨b₄, h₄, hb₄⟩ := printed_ok haccept hshort hb₃
  obtain ⟨b₅, h₅, -⟩ := printed_ok hlast (by decide) hb₄
  simp only [hput, hencode, he, h₁, h₂, h₃, h₄, h₅, ok_bind]
  rfl

/-- The answer is the one to the key, within the buffers, for the keys of at
most 91 letters. -/
theorem confirmTexts_iff (sha : Sha1) {key : Bytes} (h : 0 ∉ key) :
    confirmTexts sha key = .ok (answerTexts sha key) ↔ key.length ≤ 91 := by
  constructor
  · intro hok
    by_contra hlong
    rcases Nat.lt_or_ge key.length 127 with h' | h'
    · rw [confirmTexts, joined_long h (by omega) (by omega)] at hok
      cases hok
    · rw [confirmTexts, joined_longer h h'] at hok
      cases hok
  · intro hlen
    obtain ⟨b, hb, hgets⟩ := joined_short h hlen
    exact confirmTexts_of_joined sha hb hgets

/-- The key of the example in the protocol's text, and the digest that it gives. -/
def sampleKey : Bytes := str "dGhlIHNhbXBsZSBub25jZQ=="

def sampleSha : Sha1 where
  digest _ := [0xB3, 0x7A, 0x4F, 0x2C, 0xC0, 0x62, 0x4F, 0x16, 0x90, 0xF6, 0x46, 0x06, 0xCF, 0x38, 0x59, 0x45, 0xB2,
    0xBE, 0xC4, 0xEA]
  length _ := rfl

theorem sampleKey_confirmed : (0 : UInt8) ∉ sampleKey ∧
    confirmTexts sampleSha sampleKey = .ok [str "HTTP/1.1 101 Switching Protocols\r\n", str "Upgrade: websocket\r\n",
      str "Connection: Upgrade\r\n", str "Sec-WebSocket-Accept: s3pPLMBiTxaQ9kYGzzhZRbK+xOo=\r\n", [13, 10]] := by
  have h : (0 : UInt8) ∉ sampleKey := by decide
  refine ⟨h, ((confirmTexts_iff sampleSha h).2 (by decide)).trans ?_⟩
  rw [answerTexts]
  exact congrArg _ (by decide +kernel)

/-- With 92 letters the NUL of the joined string is stored beyond `rkey`, and
with 127 the last byte of `rkey` is read though nothing was stored in it. -/
theorem rkey_overflow : confirmTexts sampleSha (List.replicate 92 65) = .error .bounds ∧
    confirmTexts sampleSha (List.replicate 127 65) = .error .uninit := by
  have h (n : Nat) : (0 : UInt8) ∉ List.replicate n 65 := by simp
  constructor
  · rw [confirmTexts, joined_long (h 92) (by decide) (by decide)]
    rfl
  · rw [confirmTexts, joined_longer (h 127) (by decide)]
    rfl

/-- The step that the request takes is the one that the buffers give. -/
theorem ws_confirm_request_eq {sys : Sys} (hsys : ∀ s, sys.sha1Base64 s = base64 (sha.digest s)) (h : 0 ∉ key)
    (client : Client) : ws_confirm_request sys client key =
      match confirmTexts sha key with
      | .ok texts =>
        .ok (texts.foldl (fun client buf => (antd_send client buf).2) { client with answers := client.answers ++ [101] })
      | .error _ => .error .bounds := by
  unfold ws_confirm_request
  rw [WS_MAGIC_STRING_length, hsys]
  rcases Nat.lt_or_ge key.length 92 with hlen | hlen
  · obtain ⟨b, hb, hgets⟩ := joined_short h (Nat.le_of_lt_succ hlen)
    rw [if_pos (by omega), confirmTexts_of_joined sha hb hgets]
    rfl
  · rw [if_neg (by omega), confirmTexts]
    rcases Nat.lt_or_ge key.length 127 with h' | h'
    · rw [joined_long h hlen (by omega)]
      rfl
    · rw [joined_longer h h']
      rfl

end

end AntHttp
