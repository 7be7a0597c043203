import AntHttp.Lib.SecureHash
import AntHttp.Handshake
/-!
# SHA-1 (`lib/sha1.c`)

`SHA1_Transform` expands the block in place, sixteen words of it at a time, and
turns the roles of the five working variables instead of their values. The
block is the context's buffer or, since `SHA1HANDSOFF` is not defined, the
caller's data.
-/

namespace AntHttp

open CString Buffer Hash SecureHash

def rol (value bits : UInt32) : UInt32 := (value <<< bits) ||| (value >>> (32 - bits))

/-! ## One block -/

/-- The working variables. -/
inductive Reg where
  | a | b | c | d | e
  deriving DecidableEq

/-- The working variables, and the block as the words `l` of the union. -/
structure Scratch where
  reg : Reg → UInt32
  l : Fin 16 → UInt32

def blk0 (l : Fin 16 → UInt32) (i : Nat) : UInt32 :=
  (rol (l (Fin.ofNat 16 i)) 24 &&& 0xFF00FF00) ||| (rol (l (Fin.ofNat 16 i)) 8 &&& 0x00FF00FF)

def blk (l : Fin 16 → UInt32) (i : Nat) : UInt32 :=
  rol (l (Fin.ofNat 16 (i + 13)) ^^^ l (Fin.ofNat 16 (i + 8)) ^^^ l (Fin.ofNat 16 (i + 2)) ^^^ l (Fin.ofNat 16 i)) 1

/-- What `R0` to `R4` do: they store a word in the block, add to `z`, then turn `w`. -/
def R (word : (Fin 16 → UInt32) → Nat → UInt32) (mix : UInt32 → UInt32 → UInt32 → UInt32) (k : UInt32)
    (v w x y z : Reg) (i : Nat) (s : Scratch) : Scratch :=
  let blk := word s.l i
  let reg := Function.update s.reg z (s.reg z + (mix (s.reg w) (s.reg x) (s.reg y) + blk + k + rol (s.reg v) 5))
  ⟨Function.update reg w (rol (reg w) 30), Function.update s.l (Fin.ofNat 16 i) blk⟩

def R0 : Reg → Reg → Reg → Reg → Reg → Nat → Scratch → Scratch := R blk0 (fun w x y => (w &&& (x ^^^ y)) ^^^ y) 0x5A827999

def R1 : Reg → Reg → Reg → Reg → Reg → Nat → Scratch → Scratch := R blk (fun w x y => (w &&& (x ^^^ y)) ^^^ y) 0x5A827999

def R2 : Reg → Reg → Reg → Reg → Reg → Nat → Scratch → Scratch := R blk (fun w x y => w ^^^ x ^^^ y) 0x6ED9EBA1

def R3 : Reg → Reg → Reg → Reg → Reg → Nat → Scratch → Scratch :=
  R blk (fun w x y => ((w ||| x) &&& y) ||| (w &&& x)) 0x8F1BBCDC

def R4 : Reg → Reg → Reg → Reg → Reg → Nat → Scratch → Scratch := R blk (fun w x y => w ^^^ x ^^^ y) 0xCA62C1D6

open Reg in
/-- 4 rounds of 20 operations each. -/
def operations : List (Scratch → Scratch) :=
  [R0 a b c d e  0, R0 e a b c d  1, R0 d e a b c  2, R0 c d e a b  3,
   R0 b c d e a  4, R0 a b c d e  5, R0 e a b c d  6, R0 d e a b c  7,
   R0 c d e a b  8, R0 b c d e a  9, R0 a b c d e 10, R0 e a b c d 11,
   R0 d e a b c 12, R0 c d e a b 13, R0 b c d e a 14, R0 a b c d e 15,
   R1 e a b c d 16, R1 d e a b c 17, R1 c d e a b 18, R1 b c d e a 19,
   R2 a b c d e 20, R2 e a b c d 21, R2 d e a b c 22, R2 c d e a b 23,
   R2 b c d e a 24, R2 a b c d e 25, R2 e a b c d 26, R2 d e a b c 27,
   R2 c d e a b 28, R2 b c d e a 29, R2 a b c d e 30, R2 e a b c d 31,
   R2 d e a b c 32, R2 c d e a b 33, R2 b c d e a 34, R2 a b c d e 35,
   R2 e a b c d 36, R2 d e a b c 37, R2 c d e a b 38, R2 b c d e a 39,
   R3 a b c d e 40, R3 e a b c d 41, R3 d e a b c 42, R3 c d e a b 43,
   R3 b c d e a 44, R3 a b c d e 45, R3 e a b c d 46, R3 d e a b c 47,
   R3 c d e a b 48, R3 b c d e a 49, R3 a b c d e 50, R3 e a b c d 51,
   R3 d e a b c 52, R3 c d e a b 53, R3 b c d e a 54, R3 a b c d e 55,
   R3 e a b c d 56, R3 d e a b c 57, R3 c d e a b 58, R3 b c d e a 59,
   R4 a b c d e 60, R4 e a b c d 61, R4 d e a b c 62, R4 c d e a b 63,
   R4 b c d e a 64, R4 a b c d e 65, R4 e a b c d 66, R4 d e a b c 67,
   R4 c d e a b 68, R4 b c d e a 69, R4 a b c d e 70, R4 e a b c d 71,
   R4 d e a b c 72, R4 c d e a b 73, R4 b c d e a 74, R4 a b c d e 75,
   R4 e a b c d 76, R4 d e a b c 77, R4 c d e a b 78, R4 b c d e a 79]

/-- Bytes read as words, the lowest one first. -/
def loaded (c : Bytes) (i : Fin 16) : UInt32 :=
  SecureHash.bigEndian (c.getD (4 * i + 3) 0) (c.getD (4 * i + 2) 0) (c.getD (4 * i + 1) 0) (c.getD (4 * i) 0)

/-- Words as bytes, the lowest one first. -/
def stored (l : Fin 16 → UInt32) : Bytes := (List.ofFn l).flatMap fun w => (bytes w).reverse

/-- The working variables that start from `state`. -/
def copied (state : Vars) : Reg → UInt32
  | .a => state[0]
  | .b => state[1]
  | .c => state[2]
  | .d => state[3]
  | .e => state[4]

/-- The operations one after another. -/
def worked (state : Vars) (buffer : Bytes) : Scratch :=
  operations.foldl (fun s op => op s) ⟨copied state, loaded buffer⟩

/-- The new `state`, and what is then in `buffer`. -/
def SHA1_Transform (state : Vars) (buffer : Bytes) : Vars × Bytes :=
  let s := worked state buffer
  (#v[state[0] + s.reg .a, state[1] + s.reg .b, state[2] + s.reg .c, state[3] + s.reg .d, state[4] + s.reg .e],
    stored s.l)

/-! ### The operations as rounds -/

def Reg.next : Reg → Reg
  | .a => .b
  | .b => .c
  | .c => .d
  | .d => .e
  | .e => .a

/-- The variable that has the role of the first one in operation `t`. -/
def lead : Nat → Reg
  | 0 => .a
  | t + 1 => (lead t).next.next.next.next

theorem lead_mul (n : Nat) : lead (5 * n) = .a := by
  induction n with
  | zero => rfl
  | succ n ih =>
    rw [Nat.mul_succ, lead, lead, lead, lead, lead, ih]
    rfl

/-- The variables in their roles, where `v` has the first one. -/
def Scratch.vars (s : Scratch) (v : Reg) : Vars :=
  #v[s.reg v, s.reg v.next, s.reg v.next.next, s.reg v.next.next.next, s.reg v.next.next.next.next]

/-- The operation with the number `t`. -/
def operation (t : Nat) : Scratch → Scratch :=
  R (if t < 16 then blk0 else blk) (logical t) (K t) (lead t) (lead t).next (lead t).next.next
    (lead t).next.next.next (lead t).next.next.next.next t

theorem R_congr {word : (Fin 16 → UInt32) → Nat → UInt32} {mix mix' : UInt32 → UInt32 → UInt32 → UInt32} {k : UInt32}
    (h : ∀ w x y, mix w x y = mix' w x y) : R word mix k = R word mix' k := by
  have hmix : mix = mix' := by
    funext w x y
    exact h w x y
  rw [hmix]

theorem operations_eq : operations = (List.range 80).map operation := by
  have h0 : R0 = R blk0 Ch 0x5A827999 := R_congr Ch_eq
  have h1 : R1 = R blk Ch 0x5A827999 := R_congr Ch_eq
  have h3 : R3 = R blk Maj 0x8F1BBCDC := R_congr Maj_eq
  rw [operations, h0, h1, h3]
  rfl

/-- The variables move up by one role, and the last one takes the first. -/
theorem R_vars (word : (Fin 16 → UInt32) → Nat → UInt32) (mix : UInt32 → UInt32 → UInt32 → UInt32) (k : UInt32)
    (v : Reg) (i : Nat) (s : Scratch) :
    (R word mix k v v.next v.next.next v.next.next.next v.next.next.next.next i s).vars v.next.next.next.next =
      #v[s.reg v.next.next.next.next +
          (mix (s.reg v.next) (s.reg v.next.next) (s.reg v.next.next.next) + word s.l i + k + rol (s.reg v) 5),
        s.reg v, rol (s.reg v.next) 30, s.reg v.next.next, s.reg v.next.next.next] := by
  cases v <;> rfl

/-- One operation is one round. -/
theorem operation_vars (t : Nat) (s : Scratch) (W : Nat → UInt32) (h : (if t < 16 then blk0 else blk) s.l t = W t) :
    (operation t s).vars (lead (t + 1)) = round W (s.vars (lead t)) t := by
  have hadd (z x w k r : UInt32) : z + (x + w + k + r) = r + x + z + k + w := by ac_rfl
  rw [operation, lead, R_vars, h, hadd]
  rfl

/-- The words that have been expanded stand in the block, as far as it holds them, before those that have not. -/
structure Expanded (buffer : Bytes) (t : Nat) (l : Fin 16 → UInt32) : Prop where
  done : ∀ k < t, t ≤ k + 16 → l (Fin.ofNat 16 k) = schedule (word buffer) k
  left : ∀ k, t ≤ k → k < 16 → l (Fin.ofNat 16 k) = loaded buffer (Fin.ofNat 16 k)

section

variable {buffer : Bytes} {t : Nat} {l : Fin 16 → UInt32}

theorem ofNat_16 {i k : Nat} : Fin.ofNat 16 i = Fin.ofNat 16 k ↔ i % 16 = k % 16 := by
  rw [Fin.ext_iff]
  rfl

theorem Expanded.word (h : Expanded buffer t l) : (if t < 16 then blk0 else blk) l t = schedule (word buffer) t := by
  split
  · rename_i ht
    have hmod : ((Fin.ofNat 16 t : Fin 16) : Nat) = t := Nat.mod_eq_of_lt ht
    rw [blk0, h.left t (Nat.le_refl t) ht, loaded, hmod, schedule, if_pos ht]
    exact SecureHash.bigEndian_swap
  · rename_i ht
    have hback {i k : Nat} (hi : i % 16 = k % 16) (hk : k < t) (hk' : t ≤ k + 16) :
        l (Fin.ofNat 16 i) = schedule (SecureHash.word buffer) k := by
      rw [ofNat_16.2 hi, h.done k hk hk']
    rw [blk, schedule, if_neg ht, hback (by omega : (t + 13) % 16 = (t - 3) % 16) (by omega) (by omega),
      hback (by omega : (t + 8) % 16 = (t - 8) % 16) (by omega) (by omega),
      hback (by omega : (t + 2) % 16 = (t - 14) % 16) (by omega) (by omega),
      hback (by omega : t % 16 = (t - 16) % 16) (by omega) (by omega)]
    rfl

theorem Expanded.step (h : Expanded buffer t l) :
    Expanded buffer (t + 1) (Function.update l (Fin.ofNat 16 t) (schedule (SecureHash.word buffer) t)) where
  done k hk hk' := by
    by_cases hkt : k = t
    · rw [hkt, Function.update_self]
    · have hne : Fin.ofNat 16 k ≠ Fin.ofNat 16 t := fun he => by
        have := ofNat_16.1 he
        omega
      rw [Function.update_of_ne hne, h.done k (by omega) (by omega)]
  left k hk hk' := by
    have hne : Fin.ofNat 16 k ≠ Fin.ofNat 16 t := fun he => by
      have := ofNat_16.1 he
      omega
    rw [Function.update_of_ne hne, h.left k (by omega) hk']

end

/-- The state after the first `n` operations. -/
theorem operations_take (buffer : Bytes) (reg : Reg → UInt32) (n : Nat) :
    let s := ((List.range n).map operation).foldl (fun s op => op s) ⟨reg, loaded buffer⟩
    Expanded buffer n s.l ∧
      s.vars (lead n) = (List.range n).foldl (round (schedule (word buffer))) ((⟨reg, loaded buffer⟩ : Scratch).vars .a) := by
  induction n with
  | zero => exact ⟨⟨fun k hk => absurd hk (Nat.not_lt_zero k), fun _ _ _ => rfl⟩, rfl⟩
  | succ n ih =>
    obtain ⟨hl, hvars⟩ := ih
    simp only [List.range_succ, List.map_append, List.foldl_append, List.map_cons, List.map_nil, List.foldl_cons,
      List.foldl_nil]
    constructor
    · have hstep := hl.step
      rw [← hl.word] at hstep
      exact hstep
    · rw [operation_vars n _ _ hl.word, hvars]

/-- The words of the schedule that stay in the block. -/
def lastWords (buffer : Bytes) : Bytes := stored fun i : Fin 16 => schedule (word buffer) (64 + i.val)

/-- The block transform is the compression function, and leaves the last words of the schedule in the block. -/
theorem SHA1_Transform_eq (state : Vars) (buffer : Bytes) :
    SHA1_Transform state buffer = (compress state buffer, lastWords buffer) := by
  have hwork : Expanded buffer 80 (worked state buffer).l ∧ (worked state buffer).vars .a = (List.range 80).foldl
      (round (schedule (word buffer))) ((⟨copied state, loaded buffer⟩ : Scratch).vars .a) := by
    have htake := operations_take buffer (copied state) 80
    rw [lead_mul 16] at htake
    rw [worked, operations_eq]
    exact htake
  obtain ⟨hl, hvars⟩ := hwork
  have hring : ∀ i : Fin 16, (worked state buffer).l i = schedule (word buffer) (64 + i.val) := by
    intro i
    have hi : i = Fin.ofNat 16 (64 + i.val) := by
      apply Fin.ext
      simp only [Fin.ofNat]
      omega
    have := hl.done (64 + i.val) (by omega) (by omega)
    rwa [← hi] at this
  have hstart : (⟨copied state, loaded buffer⟩ : Scratch).vars .a = state := by
    apply Vector.ext
    intro i hi
    rcases (by omega : i = 0 ∨ i = 1 ∨ i = 2 ∨ i = 3 ∨ i = 4) with rfl | rfl | rfl | rfl | rfl <;> rfl
  rw [hstart] at hvars
  rw [SHA1_Transform, compress, ← hvars, lastWords, ← funext hring]
  congr 1
  apply Vector.ext
  intro i hi
  rw [Vector.getElem_zipWith]
  rcases (by omega : i = 0 ∨ i = 1 ∨ i = 2 ∨ i = 3 ∨ i = 4) with rfl | rfl | rfl | rfl | rfl <;> rfl

/-! ## The context -/

structure SHA1_CTX where
  state : Vars
  count : UInt32 × UInt32
  buffer : Buffer

/-- `buffer` is left as it is. -/
def SHA1_Init (context : SHA1_CTX) : SHA1_CTX :=
  { context with state := #v[0x67452301, 0xEFCDAB89, 0x98BADCFE, 0x10325476, 0xC3D2E1F0], count := (0, 0) }

/-- The count of bits, with a carry where the lower half ends up below what was added. -/
def counted (count : UInt32 × UInt32) (len : Nat) : UInt32 × UInt32 :=
  let low := UInt32.ofNat (count.1.toNat + len * 8 % 2 ^ 64)
  let high := if low.toNat < len * 8 % 2 ^ 64 then count.2 + 1 else count.2
  (low, high + UInt32.ofNat (len / 2 ^ 29))

/-- The loop of `SHA1_Update` from `data + i` on: the state, what the blocks become, and what is left. -/
def transformLoop (state : Vars) (data : Bytes) : Vars × Bytes × Bytes :=
  if 64 ≤ data.length then
    let (state, block) := SHA1_Transform state (data.take 64)
    let (state, blocks, left) := transformLoop state (data.drop 64)
    (state, block ++ blocks, left)
  else (state, [], data)
termination_by data.length
decreasing_by
  rw [List.length_drop]
  omega

/-- The context after `data`, and what is then in `data`. -/
def SHA1_Update (context : SHA1_CTX) (data : Bytes) : Except Buffer.Fault (SHA1_CTX × Bytes) := do
  let j := ((context.count.1 >>> 3) &&& 63).toNat
  let count := counted context.count data.length
  if j + data.length > 63 then
    let i := 64 - j
    let buffer ← put context.buffer j (data.take i)
    let (state, block) := SHA1_Transform context.state (← getn buffer 64)
    let (state, blocks, left) := transformLoop state (data.drop i)
    let buffer ← put (block.map some) 0 left
    return (⟨state, count, buffer⟩, data.take i ++ blocks ++ left)
  else
    let buffer ← put context.buffer j data
    return (⟨context.state, count, buffer⟩, data)

theorem bind_ok {α β : Type} {x : Except Buffer.Fault α} {f : α → Except Buffer.Fault β} {b : β}
    (h : (x >>= f) = .ok b) : ∃ a, x = .ok a ∧ f a = .ok b := by
  cases x with
  | error e => cases h
  | ok a => exact ⟨a, rfl, h⟩

theorem SHA1_Update_count {context : SHA1_CTX} {data : Bytes} {r : SHA1_CTX × Bytes}
    (h : SHA1_Update context data = .ok r) : r.1.count = counted context.count data.length := by
  simp only [SHA1_Update] at h
  split at h
  · obtain ⟨_, -, h⟩ := bind_ok h
    obtain ⟨_, -, h⟩ := bind_ok h
    obtain ⟨_, -, h⟩ := bind_ok h
    cases h
    rfl
  · obtain ⟨_, -, h⟩ := bind_ok h
    cases h
    rfl

/-- Where the next byte goes. -/
theorem offset_eq (x : UInt32) : ((x >>> 3) &&& 63).toNat = x.toNat / 8 % 64 := by
  rw [UInt32.toNat_and, UInt32.toNat_shiftRight, Nat.shiftRight_eq_div_pow]
  exact Nat.and_two_pow_sub_one_eq_mod _ 6

theorem and_504 (x : UInt32) : x &&& 504 = 448 ↔ x.toNat / 8 % 64 = 56 := by
  have hand : (x &&& 504).toNat = (x.toNat / 8 % 64) <<< 3 := by
    have hdiv : x.toNat / 8 % 64 = (x.toNat >>> 3) &&& 63 := by
      rw [Nat.shiftRight_eq_div_pow]
      exact (Nat.and_two_pow_sub_one_eq_mod _ 6).symm
    have h504 : (504 : UInt32).toNat = 63 <<< 3 := rfl
    rw [UInt32.toNat_and, h504, hdiv]
    apply Nat.eq_of_testBit_eq
    intro i
    simp only [Nat.testBit_and, Nat.testBit_shiftLeft, Nat.testBit_shiftRight]
    grind
  have h448 : (448 : UInt32).toNat = 448 := rfl
  rw [← UInt32.toNat_inj, hand, h448, Nat.shiftLeft_eq]
  omega

theorem counted_low (count : UInt32 × UInt32) (len : Nat) :
    (counted count len).1.toNat = (count.1.toNat + len * 8) % 2 ^ 32 := by
  simp only [counted, UInt32.toNat_ofNat']
  omega

/-- How many bytes are missing before the length field. -/
def missing (count : UInt32 × UInt32) : Nat := (120 - (count.1.toNat / 8) % 64) % 64

/-- The loop of `SHA1_Final`. -/
def padLoop (context : SHA1_CTX) : Except Buffer.Fault SHA1_CTX :=
  if context.count.1 &&& 504 = 448 then .ok context
  else
    match _h : SHA1_Update context [0] with
    | .ok (context', _) => padLoop context'
    | .error e => .error e
termination_by missing context.count
decreasing_by
  rename_i hne _
  have hcount : context'.count.1.toNat = (context.count.1.toNat + 8) % 2 ^ 32 := by
    rw [SHA1_Update_count _h]
    exact counted_low _ _
  rw [and_504] at hne
  simp only [missing]
  omega

def SHA1_Final (context : SHA1_CTX) : Except Buffer.Fault Bytes := do
  let finalcount := (List.range 8).map fun i =>
    (((if i ≥ 4 then context.count.1 else context.count.2) >>> UInt32.ofNat ((3 - i % 4) * 8)) &&& 255).toUInt8
  let (context, _) ← SHA1_Update context [0x80]
  let context ← padLoop context
  let (context, _) ← SHA1_Update context finalcount
  return List.ofFn fun i : Fin 20 => ((context.state[i.val / 4] >>> UInt32.ofNat ((3 - i % 4) * 8)) &&& 255).toUInt8

/-! ## What the context holds -/

/-- What `SHA1_Transform` makes of data that it runs over in place. -/
def overwritten (data : Bytes) : Bytes :=
  if 64 ≤ data.length then lastWords (data.take 64) ++ overwritten (data.drop 64) else data
termination_by data.length
decreasing_by
  rw [List.length_drop]
  omega

/-- The context after a message. -/
structure Absorbed (m : Bytes) (context : SHA1_CTX) : Prop where
  state : context.state = absorb compress 64 initial m
  count : context.count.2.toNat * 2 ^ 32 + context.count.1.toNat = m.length * 8 % 2 ^ 64
  buffer : ∃ old : Buffer, context.buffer = (rest 64 m).map some ++ old ∧ m.length % 64 + old.length = 64

section

variable {m data : Bytes} {context : SHA1_CTX}

theorem lastWords_length (buffer : Bytes) : (lastWords buffer).length = 64 := rfl

theorem transformLoop_eq (state : Vars) (data : Bytes) : ∃ blocks, transformLoop state data =
    (absorb compress 64 state data, blocks, rest 64 data) ∧ blocks ++ rest 64 data = overwritten data := by
  induction data using blocks_induction (n := 64) (by decide) generalizing state with
  | short m hm =>
    refine ⟨[], ?_, ?_⟩
    · rw [transformLoop, if_neg (by omega), absorb_short hm, rest_short hm]
    · rw [rest_short hm, overwritten, if_neg (by omega), List.nil_append]
  | block a m ha ih =>
    obtain ⟨blocks, hloop, hover⟩ := ih (compress state a)
    have hlen : 64 ≤ (a ++ m).length := by
      rw [List.length_append]
      omega
    have htake : (a ++ m).take 64 = a := List.take_left' ha
    have hdrop : (a ++ m).drop 64 = m := List.drop_left' ha
    refine ⟨lastWords a ++ blocks, ?_, ?_⟩
    · rw [transformLoop, if_pos hlen, htake, hdrop, SHA1_Transform_eq]
      simp only [hloop]
      rw [absorb_block (by decide) ha, rest_block (by decide) ha]
    · rw [overwritten, if_pos hlen, htake, hdrop, rest_block (by decide) ha, List.append_assoc, hover]

/-- The two halves of a count, with the carry. -/
theorem carry_eq {low high n : Nat} (hl : low < 2 ^ 32) (hh : high < 2 ^ 32) (hn : n < 2 ^ 32) :
    (if (low + n) % 2 ^ 32 < n then (high + 1) % 2 ^ 32 else high) * 2 ^ 32 + (low + n) % 2 ^ 32 =
      (high * 2 ^ 32 + low + n) % 2 ^ 64 := by
  split
  · have hwrap : (low + n) % 2 ^ 32 = low + n - 2 ^ 32 := by omega
    rw [hwrap]
    omega
  · have hsum : low + n < 2 ^ 32 := by omega
    omega

theorem counted_eq {count : UInt32 × UInt32} {bits len : Nat} (h : count.2.toNat * 2 ^ 32 + count.1.toNat = bits % 2 ^ 64)
    (hlen : len < 2 ^ 29) :
    (counted count len).2.toNat * 2 ^ 32 + (counted count len).1.toNat = (bits + len * 8) % 2 ^ 64 := by
  have hsize : len * 8 % 2 ^ 64 = len * 8 := Nat.mod_eq_of_lt (by omega)
  have hdiv : len / 2 ^ 29 = 0 := Nat.div_eq_of_lt hlen
  have hsucc : (count.2 + 1).toNat = (count.2.toNat + 1) % 2 ^ 32 := UInt32.toNat_add _ _
  have hhigh : (counted count len).2.toNat = if (counted count len).1.toNat < len * 8
      then (count.2.toNat + 1) % 2 ^ 32 else count.2.toNat := by
    rw [← hsucc, ← apply_ite UInt32.toNat]
    simp only [counted, hsize, hdiv]
    exact congrArg UInt32.toNat (UInt32.add_zero _)
  rw [hhigh, counted_low, carry_eq count.1.toNat_lt count.2.toNat_lt (by omega), h, Nat.mod_add_mod]

theorem Absorbed.offset (h : Absorbed m context) : ((context.count.1 >>> 3) &&& 63).toNat = m.length % 64 := by
  have hcount := h.count
  have h1 := context.count.1.toNat_lt
  rw [offset_eq]
  omega

variable {buf a b : Bytes} {old : Buffer}

/-- Data that fills the buffer. -/
theorem SHA1_Update_full (hj : ((context.count.1 >>> 3) &&& 63).toNat = buf.length)
    (hbuf : context.buffer = buf.map some ++ old) (hold : buf.length + old.length = 64)
    (ha : buf.length + a.length = 64) : ∃ old' : Buffer, SHA1_Update context (a ++ b) =
      .ok (⟨absorb compress 64 context.state (buf ++ (a ++ b)), counted context.count (a ++ b).length,
        (rest 64 b).map some ++ old'⟩, a ++ overwritten b) ∧ b.length % 64 + old'.length = 64 := by
  have hlen : 64 - buf.length = a.length := by omega
  have hfull : buf.length + (a ++ b).length > 63 := by
    rw [List.length_append]
    omega
  have hfit : buf.length + a.length ≤ (buf.map some ++ old).length := by
    rw [List.length_append, List.length_map]
    omega
  have hput : put context.buffer buf.length a = .ok ((buf ++ a).map some) := by
    rw [hbuf, put_ok hfit, List.take_left' (List.length_map _), List.map_append, List.drop_eq_nil_of_le, List.append_nil]
    rw [List.length_append, List.length_map]
    omega
  have hblock : (buf ++ a).length = 64 := by rw [List.length_append, ha]
  have hgetn : getn ((buf ++ a).map some) 64 = .ok (buf ++ a) := by
    have := getn_append (buf ++ a) []
    rwa [List.append_nil, hblock] at this
  obtain ⟨blocks, hloop, hover⟩ := transformLoop_eq (compress context.state (buf ++ a)) b
  have hrest : (rest 64 b).length = b.length % 64 := rest_length
  have hback : put ((lastWords (buf ++ a)).map some) 0 (rest 64 b) =
      .ok ((rest 64 b).map some ++ ((lastWords (buf ++ a)).map some).drop (rest 64 b).length) := by
    rw [put_ok, List.take_zero, List.nil_append, Nat.zero_add]
    rw [List.length_map, lastWords_length]
    omega
  refine ⟨((lastWords (buf ++ a)).map some).drop (rest 64 b).length, ?_, ?_⟩
  · simp only [SHA1_Update, hj, hlen]
    rw [if_pos hfull, List.take_left, List.drop_left, hput, ok_bind, hgetn, ok_bind, SHA1_Transform_eq]
    simp only [hloop]
    rw [hback, ok_bind, List.append_assoc a, hover, ← List.append_assoc buf, absorb_block (by decide) hblock]
    rfl
  · rw [List.length_drop, List.length_map, lastWords_length]
    omega

/-- Data that does not. -/
theorem SHA1_Update_short (hj : ((context.count.1 >>> 3) &&& 63).toNat = buf.length)
    (hbuf : context.buffer = buf.map some ++ old) (hold : buf.length + old.length = 64)
    (ha : buf.length + a.length < 64) : SHA1_Update context a =
      .ok (⟨context.state, counted context.count a.length, (buf ++ a).map some ++ old.drop a.length⟩, a) := by
  have hfit : buf.length + a.length ≤ (buf.map some ++ old).length := by
    rw [List.length_append, List.length_map]
    omega
  have hput : put context.buffer buf.length a = .ok ((buf ++ a).map some ++ old.drop a.length) := by
    rw [hbuf, put_ok hfit, List.take_left' (List.length_map _), List.map_append, ← List.drop_drop,
      List.drop_left' (List.length_map _)]
  simp only [SHA1_Update, hj]
  rw [if_neg (by omega), hput]
  rfl

/-- One update absorbs the data. The blocks of it that are computed in place are lost. -/
theorem SHA1_Update_ok (h : Absorbed m context) (hlen : data.length < 2 ^ 29) : ∃ context',
    SHA1_Update context data =
      .ok (context', data.take (64 - m.length % 64) ++ overwritten (data.drop (64 - m.length % 64))) ∧
    Absorbed (m ++ data) context' := by
  obtain ⟨old, hbuf, hold⟩ := h.buffer
  have hcount := counted_eq h.count hlen
  rw [← Nat.add_mul, ← List.length_append] at hcount
  have hrest : (rest 64 m).length = m.length % 64 := rest_length
  have hj := h.offset
  have hstate : absorb compress 64 initial (m ++ data) = absorb compress 64 context.state (rest 64 m ++ data) := by
    rw [absorb_append (by decide), h.state]
  have hleft : rest 64 (m ++ data) = rest 64 (rest 64 m ++ data) := rest_append (by decide)
  rw [← hrest] at hj hold ⊢
  by_cases hfull : (rest 64 m).length + data.length < 64
  · have hover : data.drop (64 - (rest 64 m).length) = [] := List.drop_eq_nil_of_le (by omega)
    have hshort : (rest 64 m ++ data).length < 64 := by rwa [List.length_append]
    have hup := SHA1_Update_short hj hbuf hold hfull
    have hdata : data.take (64 - (rest 64 m).length) ++ overwritten (data.drop (64 - (rest 64 m).length)) = data := by
      rw [hover, overwritten, if_neg (by decide), List.append_nil, List.take_of_length_le (by omega)]
    rw [hdata]
    refine ⟨_, hup, ?_, hcount, old.drop data.length, ?_, ?_⟩
    · rw [hstate, absorb_short hshort]
    · rw [hleft, rest_short hshort]
    · rw [List.length_append, List.length_drop]
      omega
  · obtain ⟨a, b, hdata, ha⟩ : ∃ a b, data = a ++ b ∧ (rest 64 m).length + a.length = 64 :=
      ⟨data.take (64 - (rest 64 m).length), data.drop (64 - (rest 64 m).length), (List.take_append_drop _ _).symm, by
        rw [List.length_take]
        omega⟩
    have ha' : a.length = 64 - (rest 64 m).length := by omega
    have hblock : (rest 64 m ++ a).length = 64 := by rw [List.length_append, ha]
    subst hdata
    obtain ⟨old', hup, hold'⟩ := SHA1_Update_full (b := b) hj hbuf hold ha
    rw [← ha', List.take_left, List.drop_left]
    refine ⟨_, hup, ?_, hcount, old', ?_, ?_⟩
    · rw [hstate]
    · rw [hleft, ← List.append_assoc, rest_block (by decide) hblock]
    · rw [List.length_append, List.length_append]
      omega

/-! ## The digest -/

theorem Absorbed.padded (h : Absorbed m context) : context.count.1 &&& 504 = 448 ↔ m.length % 64 = 56 := by
  rw [and_504, ← offset_eq, h.offset]

/-- Zeros are appended up to the length field. -/
theorem padLoop_ok {z : Nat} (h : Absorbed m context) (hz : z = (120 - m.length % 64) % 64) :
    ∃ context', padLoop context = .ok context' ∧ Absorbed (m ++ List.replicate z 0) context' := by
  induction z generalizing m context with
  | zero =>
    refine ⟨context, ?_, by rwa [List.replicate_zero, List.append_nil]⟩
    rw [padLoop, if_pos (h.padded.2 (by omega))]
  | succ z ih =>
    obtain ⟨next, hup, hnext⟩ := SHA1_Update_ok h (by decide : [(0 : UInt8)].length < 2 ^ 29)
    have hlen : (m ++ [0]).length = m.length + 1 := by rw [List.length_append, List.length_singleton]
    obtain ⟨context', hloop, hfinal⟩ := ih hnext (by omega)
    refine ⟨context', ?_, by rwa [List.append_assoc] at hfinal⟩
    rw [padLoop, if_neg (fun he => by have := h.padded.1 he; omega)]
    split
    · rename_i _ hnew
      rw [hup] at hnew
      cases hnew
      exact hloop
    · rename_i herr
      rw [hup] at herr
      cases herr

theorem zeros_eq (len : Nat) : zeros 64 8 len = (120 - (len + 1) % 64) % 64 := by
  rw [zeros]
  omega

theorem and_255 (x : UInt32) : (x &&& 255).toUInt8 = x.toUInt8 := by
  apply UInt8.toNat_inj.1
  have hand : x.toNat &&& 255 = x.toNat % 2 ^ 8 := Nat.and_two_pow_sub_one_eq_mod _ 8
  have h255 : (255 : UInt32).toNat = 255 := rfl
  rw [UInt32.toNat_toUInt8, UInt32.toNat_toUInt8, UInt32.toNat_and, h255, hand, Nat.mod_mod]

theorem shift_byte (x : UInt32) {k : Nat} (hk : k < 32) : (x >>> UInt32.ofNat k).toUInt8.toNat = x.toNat / 2 ^ k % 256 := by
  have hsize : (UInt32.ofNat k).toNat % 32 = k := by
    rw [UInt32.toNat_ofNat']
    omega
  rw [UInt32.toNat_toUInt8, UInt32.toNat_shiftRight, hsize, Nat.shiftRight_eq_div_pow]

/-- The count, as the bytes of the length field. -/
theorem finalcount_eq {count : UInt32 × UInt32} {len : Nat} (h : count.2.toNat * 2 ^ 32 + count.1.toNat = len * 8 % 2 ^ 64) :
    ((List.range 8).map fun i =>
      (((if i ≥ 4 then count.1 else count.2) >>> UInt32.ofNat ((3 - i % 4) * 8)) &&& 255).toUInt8) = bitLength len := by
  have hlow : count.1.toNat = 8 * len % 2 ^ 32 := by
    have := count.1.toNat_lt
    omega
  have hhigh : count.2.toNat = 8 * len / 2 ^ 32 % 2 ^ 32 := by
    have := count.1.toNat_lt
    omega
  rw [bitLength]
  apply List.map_congr_left
  intro i hi
  rw [List.mem_range] at hi
  apply UInt8.toNat_inj.1
  rw [and_255, shift_byte _ (by omega), UInt8.toNat_ofNat']
  rcases (by omega : i = 0 ∨ i = 1 ∨ i = 2 ∨ i = 3 ∨ i = 4 ∨ i = 5 ∨ i = 6 ∨ i = 7) with
    rfl | rfl | rfl | rfl | rfl | rfl | rfl | rfl
  all_goals
    simp only [ge_iff_le, Nat.reduceLeDiff, if_false, if_true, Nat.reduceMod, Nat.reduceSub, Nat.reduceMul, hlow, hhigh]
    omega

theorem digest_eq (state : Vars) :
    (List.ofFn fun i : Fin 20 => ((state[i.val / 4] >>> UInt32.ofNat ((3 - i % 4) * 8)) &&& 255).toUInt8) =
      state.toList.flatMap bytes := by
  have hwords : state.toList = [state[0], state[1], state[2], state[3], state[4]] := by
    apply List.ext_getElem
    · rw [Vector.length_toList]
      rfl
    · intro i hi _
      rw [Vector.length_toList] at hi
      rw [Vector.getElem_toList]
      rcases (by omega : i = 0 ∨ i = 1 ∨ i = 2 ∨ i = 3 ∨ i = 4) with rfl | rfl | rfl | rfl | rfl <;> rfl
  rw [hwords]
  simp only [and_255]
  simp [List.ofFn_succ, bytes]

/-- The digest of what the context has absorbed. -/
theorem SHA1_Final_ok (h : Absorbed m context) : SHA1_Final context = .ok (sha1Digest m) := by
  obtain ⟨marked, hmark, hmarked⟩ := SHA1_Update_ok h (by decide : [(0x80 : UInt8)].length < 2 ^ 29)
  have hlen : (m ++ [0x80]).length = m.length + 1 := by rw [List.length_append, List.length_singleton]
  obtain ⟨filled, hfill, hfilled⟩ := padLoop_ok hmarked rfl
  have hfield : (bitLength m.length).length = 8 := rfl
  have hshort : (bitLength m.length).length < 2 ^ 29 := by
    rw [hfield]
    decide
  obtain ⟨last, hlast, hdone⟩ := SHA1_Update_ok hfilled hshort
  have hpad : m ++ [0x80] ++ List.replicate ((120 - (m ++ [0x80]).length % 64) % 64) 0 ++ bitLength m.length =
      Hash.padded 64 0x80 0 bitLength m := by
    rw [Hash.padded, hfield, zeros_eq, hlen, List.append_assoc m, List.singleton_append]
  simp only [SHA1_Final]
  rw [finalcount_eq h.count, hmark, ok_bind, hfill, ok_bind, hlast, ok_bind, digest_eq, hdone.state, hpad]
  rfl

theorem SHA1_Init_ok (context : SHA1_CTX) (h : context.buffer.length = 64) : Absorbed [] (SHA1_Init context) := by
  refine ⟨?_, ?_, context.buffer, ?_, ?_⟩
  · rw [absorb_short (by decide)]
    rfl
  · simp [SHA1_Init]
  · rw [rest_short (by decide)]
    rfl
  · rw [List.length_nil, Nat.zero_mod, h]

end

/-- Calls of `SHA1_Update` one after another. -/
def updates (context : SHA1_CTX) (pieces : List Bytes) : Except Buffer.Fault SHA1_CTX :=
  pieces.foldlM (fun context data => do return (← SHA1_Update context data).1) context

theorem updates_ok {pieces : List Bytes} {m : Bytes} {context : SHA1_CTX} (h : Absorbed m context)
    (hlen : ∀ data ∈ pieces, data.length < 2 ^ 29) :
    ∃ context', updates context pieces = .ok context' ∧ Absorbed (m ++ pieces.flatten) context' := by
  induction pieces generalizing m context with
  | nil => exact ⟨context, rfl, by rwa [List.flatten_nil, List.append_nil]⟩
  | cons data pieces ih =>
    obtain ⟨next, hup, hnext⟩ := SHA1_Update_ok h (hlen data List.mem_cons_self)
    obtain ⟨context', hrest, hfinal⟩ := ih hnext fun d hd => hlen d (List.mem_cons_of_mem _ hd)
    refine ⟨context', ?_, by rwa [List.append_assoc] at hfinal⟩
    rw [updates, List.foldlM_cons, hup]
    exact hrest

/-- However a message is cut into pieces, the digest is the SHA-1 of the message: no access leaves the buffer and
no cell is read before it is stored, in a context that nothing has been stored in either. -/
theorem SHA1_digest (context : SHA1_CTX) (hbuf : context.buffer.length = 64) (pieces : List Bytes)
    (hlen : ∀ data ∈ pieces, data.length < 2 ^ 29) :
    (updates (SHA1_Init context) pieces >>= SHA1_Final) = .ok (sha1Digest pieces.flatten) := by
  obtain ⟨context', hup, hm⟩ := updates_ok (SHA1_Init_ok context hbuf) hlen
  rw [hup, ok_bind, SHA1_Final_ok hm, List.nil_append]

/-- A word in two pieces, with a context from the stack. -/
theorem SHA1_digest_abc : (updates (SHA1_Init ⟨initial, (0, 0), uninit 64⟩) [str "a", str "bc"] >>= SHA1_Final) =
    .ok (sha1Digest (str "abc")) :=
  SHA1_digest ⟨initial, (0, 0), uninit 64⟩ List.length_replicate [str "a", str "bc"] (by decide)

/-! ## The digest as text -/

/-- A byte as `%02x` prints it. -/
def hexByte (b : UInt8) : Bytes :=
  [(str "0123456789abcdef").getD (b.toNat / 16) 0, (str "0123456789abcdef").getD (b.toNat % 16) 0]

/-- The loop of `digest_to_hex`, where each `sprintf` ends what it prints by a NUL. -/
def hexLoop (output : Buffer) (c : Nat) : Bytes → Except Buffer.Fault Buffer
  | [] => set output c 0
  | b :: digest => do hexLoop (← put output c (hexByte b ++ [0])) (c + 2) digest

def digest_to_hex (digest : Bytes) (output : Buffer) : Except Buffer.Fault Buffer := hexLoop output 0 digest

/-- The text is what is then there, and so is `out`. -/
def sha1 (text : Bytes) (out : Buffer) : Except Buffer.Fault (Bytes × Buffer) := do
  let (context, text) ← SHA1_Update (SHA1_Init ⟨#v[0, 0, 0, 0, 0], (0, 0), uninit 64⟩) text
  let d ← SHA1_Final context
  return (text, ← digest_to_hex d out)

def hexDigits (digest : Bytes) : Bytes := digest.flatMap hexByte

section

variable {digest done : Bytes} {output : Buffer} {n : Nat}

theorem not_mem_hexByte (b : UInt8) : 0 ∉ hexByte b := by
  have hall : ∀ k : Fin 16, (str "0123456789abcdef").getD k 0 ≠ 0 := by decide +kernel
  have hb := b.toNat_lt
  have h1 := hall ⟨b.toNat / 16, by omega⟩
  have h2 := hall ⟨b.toNat % 16, by omega⟩
  simp only [hexByte, List.mem_cons, List.not_mem_nil, h1.symm, h2.symm, or_self, not_false_eq_true]

theorem not_mem_hexDigits (digest : Bytes) : 0 ∉ hexDigits digest := fun h => by
  obtain ⟨b, -, hb⟩ := List.mem_flatMap.1 h
  exact not_mem_hexByte b hb

/-- Each byte is printed over the NUL of the one before. -/
theorem hexLoop_ok {rest : Buffer} (hrest : 2 * digest.length < rest.length) :
    hexLoop (done.map some ++ rest) done.length digest =
      .ok ((done ++ hexDigits digest).map some ++ some 0 :: rest.drop (2 * digest.length + 1)) := by
  induction digest generalizing done rest with
  | nil =>
    obtain ⟨c, rest, rfl⟩ := List.exists_cons_of_length_pos (Nat.lt_of_le_of_lt (Nat.zero_le _) hrest)
    rw [hexLoop, set_ok (by simp), List.set_append_right _ _ (by simp)]
    simp [hexDigits]
  | cons b digest ih =>
    rw [List.length_cons] at hrest
    have hput : put (done.map some ++ rest) done.length (hexByte b ++ [0]) =
        .ok ((done ++ hexByte b).map some ++ some 0 :: rest.drop 3) := by
      have hfit : done.length + (hexByte b ++ [0]).length ≤ (done.map some ++ rest).length := by
        rw [List.length_append, List.length_append, List.length_map, List.length_singleton]
        change done.length + 3 ≤ _
        omega
      have hlen : (hexByte b ++ [0]).length = 3 := rfl
      rw [put_ok hfit, List.take_left' (List.length_map _), hlen, ← List.drop_drop, List.drop_left' (List.length_map _),
        List.map_append, List.map_append]
      simp only [List.map_cons, List.map_nil, List.append_assoc, List.cons_append, List.nil_append]
    have hlen : done.length + 2 = (done ++ hexByte b).length := by rw [List.length_append]; rfl
    have hroom : 2 * digest.length < (some 0 :: rest.drop 3).length := by
      rw [List.length_cons, List.length_drop]
      omega
    rw [hexLoop, hput, ok_bind, hlen, ih hroom, List.append_assoc, List.length_cons, Nat.mul_succ, List.drop_succ_cons,
      List.drop_drop]
    have hdrop : 3 + 2 * digest.length = 2 * digest.length + 2 + 1 := by omega
    rw [hdrop]
    rfl

/-- The text that `output` holds, where it has room for it. -/
theorem digest_to_hex_gets (h : 2 * digest.length < output.length) :
    ∃ output', digest_to_hex digest output = .ok output' ∧ gets output' = .ok (hexDigits digest) := by
  have hloop : hexLoop (([] : Bytes).map some ++ output) 0 digest =
      .ok (([] ++ hexDigits digest).map some ++ some 0 :: output.drop (2 * digest.length + 1)) := hexLoop_ok h
  refine ⟨_, hloop, ?_⟩
  exact gets_append (not_mem_hexDigits digest) _

end

/-- `sha1` prints the digest of the text, and leaves the text as it was up to 127 bytes: of a longer one it
overwrites the blocks behind the first 64 bytes. -/
theorem sha1_hex (text : Bytes) (out : Buffer) (hlen : text.length < 2 ^ 29) (hout : 40 < out.length) :
    ∃ out', sha1 text out = .ok (text.take 64 ++ overwritten (text.drop 64), out') ∧
      gets out' = .ok (hexDigits (sha1Digest text)) ∧
      (text.length < 128 → text.take 64 ++ overwritten (text.drop 64) = text) := by
  have hinit := SHA1_Init_ok ⟨#v[0, 0, 0, 0, 0], (0, 0), uninit 64⟩ List.length_replicate
  obtain ⟨context, hup, hm⟩ := SHA1_Update_ok hinit hlen
  have hdigest := sha1Digest_length text
  have hroom : 2 * (sha1Digest text).length < out.length := by omega
  obtain ⟨out', hhex, hgets⟩ := digest_to_hex_gets hroom
  refine ⟨out', ?_, hgets, fun hshort => ?_⟩
  · rw [sha1, hup, ok_bind]
    simp only [SHA1_Final_ok hm, ok_bind, List.nil_append, hhex]
    rfl
  · rw [overwritten, if_neg (by rw [List.length_drop]; omega), List.take_append_drop]

/-- A buffer that just has room for it. -/
theorem sha1_hex_abc : ∃ out', sha1 (str "abc") (uninit 41) =
      .ok ((str "abc").take 64 ++ overwritten ((str "abc").drop 64), out') ∧
    gets out' = .ok (hexDigits (sha1Digest (str "abc"))) ∧
    ((str "abc").length < 128 → (str "abc").take 64 ++ overwritten ((str "abc").drop 64) = str "abc") :=
  sha1_hex (str "abc") (uninit 41) (by decide) (by decide)

/-! ## The key of an upgrade -/

/-- The digest that `ws_confirm_request` computes. -/
def sha : Sha1 := ⟨sha1Digest, sha1Digest_length⟩

/-- What the client is sent is the digest that the calls compute, whatever they find on the stack. -/
theorem sha_digest (context : SHA1_CTX) (h : context.buffer.length = 64) {rkey : Bytes} (hlen : rkey.length < 128) :
    ∃ context', SHA1_Update (SHA1_Init context) rkey = .ok (context', rkey) ∧
      SHA1_Final context' = .ok (sha.digest rkey) := by
  have hlong : rkey.length < 2 ^ 29 := by omega
  obtain ⟨context', hup, hm⟩ := SHA1_Update_ok (SHA1_Init_ok context h) hlong
  have hshort : rkey.take 64 ++ overwritten (rkey.drop 64) = rkey := by
    rw [overwritten, if_neg (by rw [List.length_drop]; omega), List.take_append_drop]
  exact ⟨context', hup.trans (congrArg (fun d => Except.ok (context', d)) hshort), SHA1_Final_ok hm⟩

/-- A message of two blocks with its padding, by two block transforms. -/
theorem sha1Digest_two {m a b : Bytes} (hpad : Hash.padded 64 0x80 0 bitLength m = a ++ b) (ha : a.length = 64)
    (hb : b.length = 64) :
    sha1Digest m = (SHA1_Transform (SHA1_Transform initial a).1 b).1.toList.flatMap bytes := by
  have hnil : absorb compress 64 (compress (compress initial a) b) [] = compress (compress initial a) b :=
    absorb_short (by decide)
  rw [sha1Digest, hpad, absorb_block (by decide) ha, ← List.append_nil b, absorb_block (by decide) hb, List.append_nil,
    hnil, SHA1_Transform_eq, SHA1_Transform_eq]

/-- The key that every client of the library sends is answered by the key that it expects. -/
theorem SERVER_WS_KEY_eq : base64 (sha.digest (str "dGhlIHNhbXBsZSBub25jZQ==" ++ WS_MAGIC_STRING)) =
    str "s3pPLMBiTxaQ9kYGzzhZRbK+xOo=" := by
  have hpad : Hash.padded 64 0x80 0 bitLength (str "dGhlIHNhbXBsZSBub25jZQ==" ++ WS_MAGIC_STRING) =
      (str "dGhlIHNhbXBsZSBub25jZQ==" ++ WS_MAGIC_STRING ++ [0x80, 0, 0, 0]) ++
        (List.replicate 62 0 ++ [0x01, 0xE0]) := by decide +kernel
  have hdigest := sha1Digest_two hpad (by decide) (by decide)
  change base64 (sha1Digest _) = _
  rw [hdigest]
  decide +kernel

end AntHttp
