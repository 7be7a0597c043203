import Mathlib.Data.List.Basic
import Mathlib.Tactic.Common
/-!
# Hashes that absorb block after block

A compression function takes a state and a block of `n` to the next state.
`absorb` runs over the full blocks of a message, and `rest` is what does not
fill a block. A message that comes in pieces is absorbed with the `rest` kept
in between (`absorb_append`), so that the pieces do not matter.
-/

namespace Hash

variable {σ β : Type} (f : σ → List β → σ) (n : Nat)

/-- The state after the full blocks of a message. -/
def absorb (s : σ) (m : List β) : σ :=
  if 0 < n ∧ n ≤ m.length then absorb (f s (m.take n)) (m.drop n) else s
termination_by m.length
decreasing_by
  rw [List.length_drop]
  omega

/-- What is left of a message after its full blocks. -/
def rest (m : List β) : List β := m.drop (m.length / n * n)

section

variable {f : σ → List β → σ} {n : Nat} {s : σ} {m a b : List β}

theorem absorb_short (h : m.length < n) : absorb f n s m = s := by
  rw [absorb, if_neg (by omega)]

theorem absorb_block (hn : 0 < n) (ha : a.length = n) : absorb f n s (a ++ m) = absorb f n (f s a) m := by
  have hfull : 0 < n ∧ n ≤ (a ++ m).length := by
    rw [List.length_append]
    omega
  rw [absorb, if_pos hfull, ← ha, List.take_left, List.drop_left]

theorem rest_short (h : m.length < n) : rest n m = m := by
  rw [rest, Nat.div_eq_of_lt h, Nat.zero_mul, List.drop_zero]

theorem rest_block (hn : 0 < n) (ha : a.length = n) : rest n (a ++ m) = rest n m := by
  have hdiv : (a ++ m).length / n * n = a.length + m.length / n * n := by
    rw [List.length_append, ha, Nat.add_comm, Nat.add_div_right _ hn, Nat.succ_mul, Nat.add_comm]
  rw [rest, rest, hdiv, ← List.drop_drop, List.drop_left]

theorem rest_length : (rest n m).length = m.length % n := by
  rw [rest, List.length_drop]
  have := Nat.div_add_mod m.length n
  rw [Nat.mul_comm] at this
  omega

/-- A message is a block and another message, or it is too short. -/
theorem blocks_induction {P : List β → Prop} (hn : 0 < n) (short : ∀ m, m.length < n → P m)
    (block : ∀ a m, a.length = n → P m → P (a ++ m)) (m : List β) : P m := by
  induction hlen : m.length using Nat.strongRecOn generalizing m with
  | ind k ih =>
    by_cases hm : m.length < n
    · exact short m hm
    · have hdrop : (m.drop n).length < k := by
        rw [List.length_drop]
        omega
      have htake : (m.take n).length = n := by
        rw [List.length_take]
        omega
      have := block _ _ htake (ih _ hdrop _ rfl)
      rwa [List.take_append_drop] at this

/-- Absorbing in two pieces, with the rest of the first one in front of the second. -/
theorem absorb_append (hn : 0 < n) : absorb f n s (a ++ b) = absorb f n (absorb f n s a) (rest n a ++ b) := by
  induction a using blocks_induction (n := n) hn generalizing s with
  | short m hm => rw [absorb_short hm, rest_short hm]
  | block a m ha ih => rw [List.append_assoc, absorb_block hn ha, absorb_block hn ha, rest_block hn ha, ih]

theorem rest_append (hn : 0 < n) : rest n (a ++ b) = rest n (rest n a ++ b) := by
  induction a using blocks_induction (n := n) hn with
  | short m hm => rw [rest_short hm]
  | block a m ha ih => rw [List.append_assoc, rest_block hn ha, rest_block hn ha, ih]

end

/-! ## Padding -/

/-- How many zeros bring a message, its mark and a length field of `k` to full blocks. -/
def zeros (k len : Nat) : Nat := (n - (len + 1 + k) % n) % n

/-- A message with its mark, zeros and its length. -/
def padded (mark zero : β) (enc : Nat → List β) (m : List β) : List β :=
  m ++ mark :: List.replicate (zeros n (enc m.length).length m.length) zero ++ enc m.length

end Hash
