import AntHttp.Handshake
/-!
# Decoding Base64 (`lib/base64.c`)

`Base64decode` first counts the letters up to the first character that is none
of them, and decodes by four as long as more than four are left.
-/

namespace AntHttp

open CString Buffer

def pr2six (c : UInt8) : UInt8 :=
  [ 64, 64, 64, 64, 64, 64, 64, 64, 64, 64, 64, 64, 64, 64, 64, 64,
    64, 64, 64, 64, 64, 64, 64, 64, 64, 64, 64, 64, 64, 64, 64, 64,
    64, 64, 64, 64, 64, 64, 64, 64, 64, 64, 64, 62, 64, 64, 64, 63,
    52, 53, 54, 55, 56, 57, 58, 59, 60, 61, 64, 64, 64, 64, 64, 64,
    64,  0,  1,  2,  3,  4,  5,  6,  7,  8,  9, 10, 11, 12, 13, 14,
    15, 16, 17, 18, 19, 20, 21, 22, 23, 24, 25, 64, 64, 64, 64, 64,
    64, 26, 27, 28, 29, 30, 31, 32, 33, 34, 35, 36, 37, 38, 39, 40,
    41, 42, 43, 44, 45, 46, 47, 48, 49, 50, 51].getD c.toNat 64

/-- The characters that are counted, where the loop stops at the NUL at the latest. The counts are `int`s, exact below
2^31 - 3 letters. -/
def counted64 (bufcoded : Bytes) : Bytes := bufcoded.takeWhile fun c => pr2six c ≤ 63

def Base64decode_len (bufcoded : Bytes) : Nat := ((counted64 bufcoded).length + 3) / 4 * 3 + 1

def first8 (a b : UInt8) : UInt8 := (pr2six a <<< 2) ||| (pr2six b >>> 4)

def middle8 (b c : UInt8) : UInt8 := (pr2six b <<< 4) ||| (pr2six c >>> 2)

def last8 (c d : UInt8) : UInt8 := (pr2six c <<< 6) ||| pr2six d

/-- The bytes that are stored before the NUL, and `nprbytes` at the end. -/
def base64decode : Bytes → Bytes × Nat
  | a :: b :: c :: d :: e :: bufin =>
    let (out, nprbytes) := base64decode (e :: bufin)
    (first8 a b :: middle8 b c :: last8 c d :: out, nprbytes)
  | [a, b, c, d] => ([first8 a b, middle8 b c, last8 c d], 4)
  | [a, b, c] => ([first8 a b, middle8 b c], 3)
  | [a, b] => ([first8 a b], 2)
  | [_] => ([], 1)
  | [] => ([], 0)

/-- The number of bytes, and what they are stored in. -/
def Base64decode (bufplain : Buffer) (bufcoded : Bytes) : Except Buffer.Fault (Nat × Buffer) := do
  let coded := counted64 bufcoded
  let (out, nprbytes) := base64decode coded
  let bufplain ← put bufplain 0 (out ++ [0])
  return ((coded.length + 3) / 4 * 3 - ((4 - nprbytes) &&& 3), bufplain)

/-! ## What is stored -/

section

variable {coded bufcoded s : Bytes} {bufplain : Buffer}

theorem base64decode_four (a b c d : UInt8) (t : Bytes) : (base64decode (a :: b :: c :: d :: t)).1 =
    first8 a b :: middle8 b c :: last8 c d :: (base64decode t).1 := by
  cases t with
  | nil => rfl
  | cons e t => rw [base64decode]

/-- Four letters give three bytes, two or three that are left one or two, and one gives none. -/
theorem base64decode_length (coded : Bytes) :
    (base64decode coded).1.length = coded.length / 4 * 3 + (coded.length % 4 - 1) := by
  fun_induction base64decode coded with
  | case1 a b c d e bufin out nprbytes heq ih =>
    rw [heq, List.length_cons] at ih
    simp only [List.length_cons, ih]
    omega
  | case2 | case3 | case4 | case5 | case6 => simp

theorem nprbytes_eq (coded : Bytes) : (4 - (base64decode coded).2) &&& 3 = (4 - coded.length % 4) % 4 := by
  fun_induction base64decode coded with
  | case1 a b c d e bufin out nprbytes heq ih =>
    rw [heq, List.length_cons] at ih
    simp only [List.length_cons, ih]
    omega
  | case2 | case3 | case4 | case5 | case6 => simp

/-- The number that is returned is that of the bytes before the NUL. -/
theorem base64decode_count (coded : Bytes) :
    (coded.length + 3) / 4 * 3 - ((4 - (base64decode coded).2) &&& 3) = (base64decode coded).1.length := by
  rw [nprbytes_eq, base64decode_length]
  omega

/-! ## Letters and sextets -/

theorem pr2six_basis_64 {i : UInt8} (h : Sextet i) : pr2six (basis_64 i) = i := by
  have hall : ∀ n : Fin 64, pr2six (basis_64 (UInt8.ofNat n)) = UInt8.ofNat n := by decide +kernel
  have hi : i = UInt8.ofNat i.toNat := by simp
  rw [hi]
  exact hall ⟨i.toNat, h⟩

theorem pr2six_le {i : UInt8} (h : Sextet i) : pr2six (basis_64 i) ≤ 63 := by
  rw [pr2six_basis_64 h]
  exact UInt8.le_iff_toNat_le.2 (Nat.le_of_lt_succ h)

theorem eq_of_bits8 {x y : UInt8} (h : ∀ i < 8, x.toNat.testBit i = y.toNat.testBit i) : x = y := by
  apply UInt8.toBitVec_inj.1
  exact BitVec.eq_of_getLsbD_eq h

theorem mask_bits : ∀ i < 16, (3).testBit i = decide (i < 2) ∧ (15).testBit i = decide (i < 4) ∧
    (63).testBit i = decide (i < 6) ∧ (192).testBit i = decide (6 ≤ i ∧ i < 8) ∧
    (240).testBit i = decide (4 ≤ i ∧ i < 8) := by decide

/-- The sextets of three bytes, put together again. -/
theorem sextet_bits (a b c : UInt8) :
    (((a >>> 2) &&& 0x3F) <<< 2) ||| ((((a &&& 0x3) <<< 4) ||| ((b &&& 0xF0) >>> 4)) >>> 4) = a ∧
    ((((a &&& 0x3) <<< 4) ||| ((b &&& 0xF0) >>> 4)) <<< 4) |||
      ((((b &&& 0xF) <<< 2) ||| ((c &&& 0xC0) >>> 6)) >>> 2) = b ∧
    ((((b &&& 0xF) <<< 2) ||| ((c &&& 0xC0) >>> 6)) <<< 6) ||| (c &&& 0x3F) = c := by
  refine ⟨?_, ?_, ?_⟩
  all_goals
    apply eq_of_bits8
    intro i hi
    simp only [UInt8.toNat_or, UInt8.toNat_and, UInt8.toNat_shiftLeft, UInt8.toNat_shiftRight, UInt8.reduceToNat,
      Nat.reduceMod, Nat.testBit_or, Nat.testBit_and, Nat.testBit_mod_two_pow, Nat.testBit_shiftLeft,
      Nat.testBit_shiftRight]
    rcases (by omega : i = 0 ∨ i = 1 ∨ i = 2 ∨ i = 3 ∨ i = 4 ∨ i = 5 ∨ i = 6 ∨ i = 7) with
      rfl | rfl | rfl | rfl | rfl | rfl | rfl | rfl <;> simp [mask_bits]

theorem counted64_cons {i : UInt8} (h : Sextet i) (t : Bytes) : counted64 (basis_64 i :: t) = basis_64 i :: counted64 t := by
  rw [counted64, List.takeWhile_cons, if_pos (by simpa using pr2six_le h)]
  rfl

/-- The count stops at the padding. -/
theorem counted64_pad (t : Bytes) : counted64 (61 :: t) = [] := by
  rw [counted64, List.takeWhile_cons, if_neg (by decide)]

theorem base64decode_base64 (s : Bytes) : (base64decode (counted64 (base64 s))).1 = s := by
  fun_induction base64 s with
  | case1 a b c s ih =>
    have h1 := sextet_and (a >>> 2)
    have h2 := sextet_or (sextet_high a).1 (sextet_low b).1
    have h3 := sextet_or (sextet_high b).2 (sextet_low c).2
    have h4 := sextet_and c
    obtain ⟨ha, hb, hc⟩ := sextet_bits a b c
    rw [counted64_cons h1, counted64_cons h2, counted64_cons h3, counted64_cons h4, base64decode_four, ih]
    simp only [first8, middle8, last8, pr2six_basis_64 h1, pr2six_basis_64 h2, pr2six_basis_64 h3, pr2six_basis_64 h4,
      ha, hb, hc]
  | case2 a b =>
    have h1 := sextet_and (a >>> 2)
    have h2 := sextet_or (sextet_high a).1 (sextet_low b).1
    have h3 := (sextet_high b).2
    -- the third sextet has no bits of a third byte
    obtain ⟨ha, hb, -⟩ := sextet_bits a b 0
    have hzero : (((0 : UInt8) &&& 0xC0) >>> 6) = 0 := rfl
    rw [hzero, UInt8.or_zero] at hb
    rw [counted64_cons h1, counted64_cons h2, counted64_cons h3, counted64_pad]
    simp only [base64decode, first8, middle8, pr2six_basis_64 h1, pr2six_basis_64 h2, pr2six_basis_64 h3, ha, hb]
  | case3 a =>
    have h1 := sextet_and (a >>> 2)
    have h2 := (sextet_high a).1
    obtain ⟨ha, -, -⟩ := sextet_bits a 0 0
    have hzero : (((0 : UInt8) &&& 0xF0) >>> 4) = 0 := rfl
    rw [hzero, UInt8.or_zero] at ha
    rw [counted64_cons h1, counted64_cons h2, counted64_pad]
    simp only [base64decode, first8, pr2six_basis_64 h1, pr2six_basis_64 h2, ha]
  | case4 => rfl

/-- What `Base64decode` stores in front of the rest of the buffer, where there is room for it. -/
theorem Base64decode_ok (h : (base64decode (counted64 bufcoded)).1.length < bufplain.length) :
    Base64decode bufplain bufcoded = .ok ((base64decode (counted64 bufcoded)).1.length,
      ((base64decode (counted64 bufcoded)).1 ++ [0]).map some ++
        bufplain.drop ((base64decode (counted64 bufcoded)).1.length + 1)) := by
  have hcount := base64decode_count (counted64 bufcoded)
  generalize hout : base64decode (counted64 bufcoded) = out at h hcount ⊢
  have hlen : (out.1 ++ [0]).length = out.1.length + 1 := by rw [List.length_append, List.length_singleton]
  simp only [Base64decode, hout, hcount]
  rw [put_ok (by rw [hlen]; omega), List.take_zero, List.nil_append, Nat.zero_add, hlen]
  rfl

end

/-- Any string is decoded into three bytes for each four of its letters, without those of an incomplete byte. These
and the NUL are all that is stored, and they fit into what `Base64decode_len` asks for. In a smaller buffer one of
them is stored beyond its end. -/
theorem Base64decode_bounds (bufplain : Buffer) (bufcoded : Bytes) :
    (counted64 bufcoded).length * 3 / 4 + 1 ≤ Base64decode_len bufcoded ∧
    (Base64decode bufplain bufcoded = .error .bounds ↔ bufplain.length < (counted64 bufcoded).length * 3 / 4 + 1) ∧
    ((counted64 bufcoded).length * 3 / 4 + 1 ≤ bufplain.length → ∃ out, Base64decode bufplain bufcoded =
      .ok ((counted64 bufcoded).length * 3 / 4,
        (out ++ [0]).map some ++ bufplain.drop ((counted64 bufcoded).length * 3 / 4 + 1)) ∧
      out.length = (counted64 bufcoded).length * 3 / 4) := by
  have hlen : (base64decode (counted64 bufcoded)).1.length = (counted64 bufcoded).length * 3 / 4 := by
    rw [base64decode_length]
    omega
  refine ⟨?_, ?_, fun h => ⟨_, ?_, hlen⟩⟩
  · rw [Base64decode_len]
    omega
  · constructor
    · intro herr
      by_contra hfit
      rw [Base64decode_ok (by omega)] at herr
      cases herr
    · intro hsmall
      have hput : put bufplain 0 ((base64decode (counted64 bufcoded)).1 ++ [0]) = .error .bounds := by
        apply put_bounds (Nat.zero_le _)
        rw [List.length_append, List.length_singleton, hlen]
        omega
      simp only [Base64decode, hput]
      rfl
  · rw [← hlen]
    exact Base64decode_ok (by omega)

/-- What `Base64encode` stores, with the NUL. -/
def Base64encode_len (len : Int) : Int := int32 ((len + 2).tdiv 3 * 4 + 1)

theorem Base64encode_len_eq {n : Nat} (h : (n + 2) / 3 * 4 + 1 < 2 ^ 31) :
    Base64encode_len n = ((n + 2) / 3 * 4 + 1 : Nat) := by
  have hdiv : ((n : Int) + 2).tdiv 3 = ((n + 2) / 3 : Nat) := Int.ofNat_tdiv (n + 2) 3
  rw [Base64encode_len, hdiv, int32_eq (by omega) (by omega)]
  rfl

/-- What has been encoded is decoded again, by the sizes that the two length functions give. -/
theorem Base64decode_encode (s : Bytes) (encoded bufplain : Buffer) (hint : (s.length + 2) / 3 * 4 + 1 < 2 ^ 31)
    (he : Base64encode_len s.length ≤ encoded.length) (hp : Base64decode_len (base64 s) ≤ bufplain.length) :
    ∃ e, Base64encode encoded (s.map some) s.length = .ok e ∧ gets e = .ok (base64 s) ∧
      Base64decode bufplain (base64 s) = .ok (s.length, (s ++ [0]).map some ++ bufplain.drop (s.length + 1)) := by
  rw [Base64encode_len_eq hint] at he
  have hgetn : getn (s.map some) s.length = .ok s := by
    have hget := getn_append s []
    rwa [List.append_nil] at hget
  have hlen : (base64 s).length < encoded.length := by
    rw [base64_length]
    omega
  have hroom : s.length < bufplain.length := by
    have hcount := base64decode_length (counted64 (base64 s))
    rw [base64decode_base64] at hcount
    rw [Base64decode_len] at hp
    omega
  obtain ⟨e, he, hgets, -⟩ := gets_sprintf (not_mem_base64 s) hlen
  refine ⟨e, ?_, hgets, ?_⟩
  · rw [Base64encode, hgetn]
    exact he
  · have hfit : (base64decode (counted64 (base64 s))).1.length < bufplain.length := by rwa [base64decode_base64]
    have hdecode := Base64decode_ok hfit
    rwa [base64decode_base64] at hdecode

/-- Two letters that make one and a half byte, in buffers of just that size. -/
theorem Base64decode_encode_hi : ∃ e, Base64encode (Buffer.uninit 5) ((str "hi").map some) (str "hi").length = .ok e ∧
    Buffer.gets e = .ok (base64 (str "hi")) ∧
    Base64decode (Buffer.uninit 4) (base64 (str "hi")) =
      .ok ((str "hi").length, (str "hi" ++ [0]).map some ++ (Buffer.uninit 4).drop ((str "hi").length + 1)) :=
  Base64decode_encode (str "hi") (Buffer.uninit 5) (Buffer.uninit 4) (by decide) (by decide +kernel) (by decide +kernel)

end AntHttp
