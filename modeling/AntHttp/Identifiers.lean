import AntHttp.Scheduler
import Mathlib.Algebra.Group.Basic
import Mathlib.Algebra.Ring.Int.Defs
/-!
# The identifiers of the scheduler (`lib/scheduler.c`)

`antd_scheduler_next_id` looks up an identifier and, while it is one of a
queued task, takes the next number of its allocator. The loop is given again as
a relation that counts the lookups. It ends because every number it passes is
a key of the queue, and fewer and fewer of those lie ahead.
-/

namespace AntHttp.Sched

open CString Bst

variable {α : Type} {task_queue : Node α} {sched : Sched α} {n fuel : Nat} {input id a : Int} {r : Int × Int}

/-- `Lookups task_queue n id a r`: from `id`, with the allocator at `a`, the loop of `antd_scheduler_next_id` calls
`bst_find` `n` times and leaves `r`, the identifier and the allocator. -/
inductive Lookups (task_queue : Node α) : Nat → Int → Int → Int × Int → Prop where
  | free {id a : Int} : bst_find task_queue id = none → Lookups task_queue 1 id a (id, a)
  | taken {n : Nat} {id a : Int} {r : Int × Int} : (bst_find task_queue id).isSome →
      Lookups task_queue n (int32 (a + 1)) (int32 (a + 1)) r → Lookups task_queue (n + 1) id a r

/-- The identifier and the allocator before the loop. -/
def first (sched : Sched α) (input : Int) : Int × Int :=
  let id_allocator := if sched.id_allocator < 0 then 0 else sched.id_allocator
  if input = 0 then (int32 (id_allocator + 1), int32 (id_allocator + 1)) else (input, id_allocator)

theorem first_zero (h₀ : 0 ≤ sched.id_allocator) :
    sched.first 0 = (int32 (sched.id_allocator + 1), int32 (sched.id_allocator + 1)) := by
  simp only [first, if_neg (not_lt.2 h₀), if_true]

theorem first_input (h₀ : 0 ≤ sched.id_allocator) (h0 : input ≠ 0) :
    sched.first input = (input, sched.id_allocator) := by
  simp only [first, if_neg (not_lt.2 h₀), if_neg h0]

/-- The call makes `n` lookups and returns `id`; the allocator is then at `a`. -/
def Allocates (sched : Sched α) (input : Int) (n : Nat) (id a : Int) : Prop :=
  Lookups sched.task_queue n (sched.first input).1 (sched.first input).2 (id, a)

/-! ## The lookups are those of the program -/

/-- With fuel for all lookups the loop does not run out of it. -/
theorem Lookups.nextFree_eq (h : Lookups task_queue n id a r) (hn : n ≤ fuel) : nextFree task_queue fuel id a = r := by
  induction h generalizing fuel with
  | free hf =>
    obtain ⟨fuel, rfl⟩ := Nat.exists_eq_add_of_le' hn
    rw [nextFree, hf]
    rfl
  | taken hq _ ih =>
    obtain ⟨fuel, rfl⟩ := Nat.exists_eq_add_of_le' hn
    rw [← Nat.add_assoc, nextFree, if_pos hq]
    exact ih (by omega)

theorem Allocates.next_id_eq (h : sched.Allocates input n id a) (hn : n ≤ (toList sched.task_queue).length + 2) :
    antd_scheduler_next_id sched input = (id, { sched with id_allocator := a }) := by
  have hr : nextFree sched.task_queue _ (sched.first input).1 (sched.first input).2 = (id, a) := h.nextFree_eq hn
  unfold antd_scheduler_next_id
  unfold first at hr
  simp only [hr]

/-! ## The loop leaves the queued identifiers behind -/

/-- Past `n` keys in a row the loop comes to the number behind them, without an overflow. -/
theorem lookups_past (ho : Ordered task_queue) (h₀ : 0 ≤ a) (hmax : a + n < 2 ^ 31)
    (htaken : ∀ m < n, a + (m : Int) ∈ Assoc.keys (toList task_queue))
    (hfree : a + (n : Int) ∉ Assoc.keys (toList task_queue)) :
    Lookups task_queue (n + 1) a a (a + n, a + n) := by
  induction n generalizing a with
  | zero =>
    rw [Int.natCast_zero, Int.add_zero] at hfree ⊢
    exact .free ((find_eq_none_iff ho).2 hfree)
  | succ n ih =>
    have hnext : int32 (a + 1) = a + 1 := int32_eq (by omega) (by omega)
    have hadd (m : Nat) : a + 1 + (m : Int) = a + ((m + 1 : Nat) : Int) := by omega
    refine .taken ((find_isSome_iff ho).2 (by simpa using htaken 0 n.succ_pos)) ?_
    rw [hnext, ← hadd n]
    apply ih (by omega) (by omega)
    · intro m hm
      rw [hadd m]
      exact htaken (m + 1) (by omega)
    · rwa [hadd n]

/-- From a number on, the loop passes each key once at most. -/
theorem exists_lookups (ho : Ordered task_queue) (h₀ : 0 ≤ a) (hmax : a + (toList task_queue).length < 2 ^ 31) :
    ∃ n ≤ (toList task_queue).length, a + (n : Int) ∉ Assoc.keys (toList task_queue) ∧
      Lookups task_queue (n + 1) a a (a + n, a + n) := by
  obtain ⟨n, hn, hfree, htaken⟩ := Assoc.exists_free Int.lt_succ (Assoc.keys (toList task_queue)) a
  have hiter (m : Nat) : (· + (1 : Int))^[m] a = a + m := by rw [add_right_iterate_apply, nsmul_one]
  have hlen : n ≤ (toList task_queue).length := by
    have hcount := hn.trans List.countP_le_length
    rwa [Assoc.keys, List.length_map] at hcount
  rw [hiter] at hfree
  exact ⟨n, hlen, hfree, lookups_past ho h₀ (by omega) (fun m hm => hiter m ▸ htaken m hm) hfree⟩

/-! ## A new identifier -/

/-- What the callers rely on. -/
structure Fresh (sched : Sched α) (input id a : Int) : Prop where
  nonzero : id ≠ 0
  free : id ∉ Assoc.keys (toList sched.task_queue)
  kept : input ≠ 0 → input ∉ Assoc.keys (toList sched.task_queue) → id = input
  allocator : sched.id_allocator ≤ a

/-- A task that is queued under the identifier takes no other task's place. -/
theorem Fresh.insert_perm (h : sched.Fresh input id a) (ho : Ordered sched.task_queue) (task : α) :
    (toList (sched.insert id task).task_queue).Perm ((id, task) :: toList sched.task_queue) :=
  Bst.insert_perm ho task ((find_eq_none_iff ho).2 h.free)

/-- An identifier of the allocator. -/
theorem Fresh.of_allocator (h₀ : 0 ≤ sched.id_allocator)
    (hfree : sched.id_allocator + 1 + (n : Int) ∉ Assoc.keys (toList sched.task_queue))
    (hinput : input = 0 ∨ input ∈ Assoc.keys (toList sched.task_queue)) :
    sched.Fresh input (sched.id_allocator + 1 + n) (sched.id_allocator + 1 + n) where
  nonzero := by omega
  free := hfree
  kept h0 hkey := by
    rcases hinput with rfl | hin
    · exact absurd rfl h0
    · exact absurd hin hkey
  allocator := by omega

section Allocate

variable (ho : Ordered sched.task_queue) (h₀ : 0 ≤ sched.id_allocator)
include ho h₀

theorem allocates_input (h0 : input ≠ 0) (hkey : input ∉ Assoc.keys (toList sched.task_queue)) :
    sched.Allocates input 1 input sched.id_allocator ∧ sched.Fresh input input sched.id_allocator := by
  refine ⟨?_, h0, hkey, fun _ _ => rfl, le_rfl⟩
  rw [Allocates, first_input h₀ h0]
  exact .free ((find_eq_none_iff ho).2 hkey)

/-- There is a lookup of the caller's number, one of each key on the way and one of the free number. -/
theorem allocates_next (hmax : sched.id_allocator + 1 + (toList sched.task_queue).length < 2 ^ 31)
    (hinput : input = 0 ∨ input ∈ Assoc.keys (toList sched.task_queue)) :
    ∃ n ≤ (toList sched.task_queue).length + 2, ∃ id a, sched.Allocates input n id a ∧ sched.Fresh input id a := by
  obtain ⟨n, hn, hfree, hlook⟩ := exists_lookups ho (a := sched.id_allocator + 1) (by omega) hmax
  have hnext : int32 (sched.id_allocator + 1) = sched.id_allocator + 1 := int32_eq (by omega) (by omega)
  have hfresh := Fresh.of_allocator h₀ hfree hinput
  by_cases h0 : input = 0
  · subst h0
    refine ⟨n + 1, by omega, _, _, ?_, hfresh⟩
    rw [Allocates, first_zero h₀, hnext]
    exact hlook
  · refine ⟨n + 2, by omega, _, _, ?_, hfresh⟩
    rw [Allocates, first_input h₀ h0]
    refine .taken ((find_isSome_iff ho).2 (hinput.resolve_left h0)) ?_
    rw [hnext]
    exact hlook

end Allocate

/-- The loop ends after at most two lookups more than there are queued tasks, with a number that is not zero and not
the identifier of a queued task, and with the caller's own number if that is one. -/
theorem next_id_fresh (sched : Sched α) (input : Int) (ho : Ordered sched.task_queue) (h₀ : 0 ≤ sched.id_allocator)
    (hmax : sched.id_allocator ≤ 2 ^ 31 - 1 - ((toList sched.task_queue).length + 1)) :
    ∃ n ≤ (toList sched.task_queue).length + 2, ∃ id a, sched.Allocates input n id a ∧
      antd_scheduler_next_id sched input = (id, { sched with id_allocator := a }) ∧ sched.Fresh input id a := by
  have hall : ∃ n ≤ (toList sched.task_queue).length + 2, ∃ id a,
      sched.Allocates input n id a ∧ sched.Fresh input id a := by
    by_cases hinput : input = 0 ∨ input ∈ Assoc.keys (toList sched.task_queue)
    · exact allocates_next ho h₀ (by omega) hinput
    · obtain ⟨h0, hkey⟩ := not_or.1 hinput
      exact ⟨1, by omega, _, _, allocates_input ho h₀ h0 hkey⟩
  obtain ⟨n, hn, id, a, halloc, hfresh⟩ := hall
  exact ⟨n, hn, id, a, halloc, halloc.next_id_eq hn, hfresh⟩

/-- A queue with the identifiers 5, 6 and 9. -/
def threeQueued : Sched Unit := ⟨.node 6 () (.node 5 () .nil .nil) (.node 9 () .nil .nil), 4, 3⟩

theorem next_id_fresh_seven : (antd_scheduler_next_id threeQueued 9).1 = 7 ∧
    ∃ n ≤ 5, ∃ id a, threeQueued.Allocates 9 n id a ∧
      antd_scheduler_next_id threeQueued 9 = (id, { threeQueued with id_allocator := a }) ∧
      threeQueued.Fresh 9 id a := by
  have ho : Ordered threeQueued.task_queue := by simp [Ordered, Assoc.Sorted, threeQueued, toList]
  exact ⟨by decide, next_id_fresh threeQueued 9 ho (by decide) (by decide)⟩

end AntHttp.Sched
