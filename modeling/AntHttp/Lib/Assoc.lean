import Mathlib.Data.List.Perm.Basic
import Mathlib.Logic.Function.Iterate
import Mathlib.Order.Lattice
/-!
# Sorted association lists

A finite map as a list of key-value pairs in strictly increasing key order.
`get`, `put` and `erase` are the map's operations; an ordered search tree is
compared with these through its in-order listing.
-/

namespace Assoc

variable {κ α : Type} [LinearOrder κ]

/-- Keys in strictly increasing order. -/
def Sorted (l : List (κ × α)) : Prop := l.Pairwise (fun a b => a.1 < b.1)

def keys (l : List (κ × α)) : List κ := l.map Prod.fst

def get : List (κ × α) → κ → Option α
  | [], _ => none
  | (k, v) :: l, x => if x = k then some v else get l x

def put : List (κ × α) → κ → α → List (κ × α)
  | [], x, w => [(x, w)]
  | (k, v) :: l, x, w =>
    if x < k then (x, w) :: (k, v) :: l else if x = k then (k, w) :: l else (k, v) :: put l x w

def erase (l : List (κ × α)) (x : κ) : List (κ × α) := l.filter (fun e => e.1 ≠ x)

/-! ## Splitting at a key -/

theorem get_append (l r : List (κ × α)) (x : κ) : get (l ++ r) x = (get l x).or (get r x) := by
  induction l with
  | nil => simp [get]
  | cons e l ih =>
    simp only [List.cons_append, get]
    split <;> simp [ih]

theorem get_eq_none {l : List (κ × α)} {x : κ} (h : ∀ e ∈ l, e.1 ≠ x) : get l x = none := by
  induction l with
  | nil => rfl
  | cons e l ih =>
    simp only [get, if_neg (Ne.symm (h e List.mem_cons_self))]
    exact ih (fun e' he => h e' (List.mem_cons_of_mem _ he))

theorem get_mem {l : List (κ × α)} {x : κ} {v : α} (h : get l x = some v) : (x, v) ∈ l := by
  induction l with
  | nil => cases h
  | cons e l ih =>
    simp only [get] at h
    split at h
    · rename_i hx; cases h; rw [hx]; exact List.mem_cons_self
    · exact List.mem_cons_of_mem _ (ih h)

theorem get_of_mem {l : List (κ × α)} (hs : Sorted l) {x : κ} {v : α} (h : (x, v) ∈ l) : get l x = some v := by
  induction l with
  | nil => cases h
  | cons e l ih =>
    rcases List.mem_cons.1 h with rfl | h
    · simp [get]
    · have hlt := (List.pairwise_cons.1 hs).1 _ h
      simp only [get, if_neg (ne_of_gt hlt)]
      exact ih (List.pairwise_cons.1 hs).2 h

theorem get_isSome_iff (l : List (κ × α)) (x : κ) : (get l x).isSome ↔ x ∈ keys l := by
  induction l with
  | nil => simp [get, keys]
  | cons e l ih =>
    simp only [get, keys, List.map_cons, List.mem_cons] at ih ⊢
    split <;> simp_all

theorem put_append_lt {l r : List (κ × α)} {k x : κ} {v w : α} (h : x < k) :
    put (l ++ (k, v) :: r) x w = put l x w ++ (k, v) :: r := by
  induction l with
  | nil => simp [put, h]
  | cons e l ih =>
    simp only [List.cons_append, put, ih]
    split
    · rfl
    · split <;> rfl

theorem put_append_gt {l r : List (κ × α)} {k x : κ} {v w : α} (hl : ∀ e ∈ l, e.1 < k) (h : k < x) :
    put (l ++ (k, v) :: r) x w = l ++ (k, v) :: put r x w := by
  induction l with
  | nil => simp [put, not_lt_of_gt h, ne_of_gt h]
  | cons e l ih =>
    have he := lt_trans (hl e List.mem_cons_self) h
    simp only [List.cons_append, put, if_neg (not_lt_of_gt he), if_neg (ne_of_gt he)]
    rw [ih (fun e' he' => hl e' (List.mem_cons_of_mem _ he'))]

theorem put_append_eq {l r : List (κ × α)} {k : κ} {v w : α} (hl : ∀ e ∈ l, e.1 < k) :
    put (l ++ (k, v) :: r) k w = l ++ (k, w) :: r := by
  induction l with
  | nil => simp [put]
  | cons e l ih =>
    have he := hl e List.mem_cons_self
    simp only [List.cons_append, put, if_neg (not_lt_of_gt he), if_neg (ne_of_gt he)]
    rw [ih (fun e' he' => hl e' (List.mem_cons_of_mem _ he'))]

/-- A key greater than all others goes to the end. -/
theorem put_of_gt {l : List (κ × α)} {x : κ} {w : α} (hl : ∀ e ∈ l, e.1 < x) : put l x w = l ++ [(x, w)] := by
  induction l with
  | nil => rfl
  | cons e l ih =>
    have he := hl e List.mem_cons_self
    simp only [List.cons_append, put, if_neg (not_lt_of_gt he), if_neg (ne_of_gt he)]
    rw [ih (fun e' he' => hl e' (List.mem_cons_of_mem _ he'))]

theorem erase_of_ne {l : List (κ × α)} {x : κ} (h : ∀ e ∈ l, e.1 ≠ x) : erase l x = l :=
  List.filter_eq_self.2 (fun e he => by simpa using h e he)

theorem erase_head {l : List (κ × α)} {k : κ} {v : α} (hs : Sorted ((k, v) :: l)) : erase ((k, v) :: l) k = l := by
  simp only [erase, List.filter_cons, ne_eq, not_true, decide_false, Bool.false_eq_true, if_false]
  exact erase_of_ne (fun e he => ne_of_gt ((List.pairwise_cons.1 hs).1 e he))

theorem erase_append (l r : List (κ × α)) (x : κ) : erase (l ++ r) x = erase l x ++ erase r x :=
  List.filter_append ..

/-! ## The operations against each other -/

theorem mem_put {l : List (κ × α)} {x : κ} {w : α} {e : κ × α} (h : e ∈ put l x w) : e = (x, w) ∨ e ∈ l := by
  induction l with
  | nil => simpa [put] using h
  | cons f l ih =>
    simp only [put] at h
    split at h
    · simpa using h
    · split at h
      · rename_i hx
        rcases List.mem_cons.1 h with rfl | h
        · exact .inl (by rw [hx])
        · exact .inr (List.mem_cons_of_mem _ h)
      · rcases List.mem_cons.1 h with rfl | h
        · exact .inr List.mem_cons_self
        · exact (ih h).imp_right (List.mem_cons_of_mem _)

theorem sorted_put {l : List (κ × α)} (hs : Sorted l) (x : κ) (w : α) : Sorted (put l x w) := by
  induction l with
  | nil => simp [put, Sorted]
  | cons e l ih =>
    obtain ⟨h1, h2⟩ := List.pairwise_cons.1 hs
    simp only [put]
    split
    · rename_i hx
      refine List.pairwise_cons.2 ⟨fun f hf => ?_, hs⟩
      rcases List.mem_cons.1 hf with rfl | hf
      · exact hx
      · exact lt_trans hx (h1 f hf)
    · split
      · exact List.pairwise_cons.2 ⟨h1, h2⟩
      · rename_i hx hne
        refine List.pairwise_cons.2 ⟨fun f hf => ?_, ih h2⟩
        rcases mem_put hf with rfl | hf
        · exact lt_of_le_of_ne (not_lt.1 hx) (Ne.symm hne)
        · exact h1 f hf

theorem sorted_erase {l : List (κ × α)} (hs : Sorted l) (x : κ) : Sorted (erase l x) :=
  hs.sublist List.filter_sublist

theorem erase_put (l : List (κ × α)) (x : κ) (w : α) : erase (put l x w) x = erase l x := by
  induction l with
  | nil => simp [put, erase]
  | cons e l ih =>
    obtain ⟨k, v⟩ := e
    simp only [put]
    split
    · simp [erase]
    · split
      · rename_i hx; simp [erase, hx]
      · simp only [erase, List.filter_cons] at ih ⊢
        rw [ih]

theorem get_put (l : List (κ × α)) (x y : κ) (w : α) :
    get (put l x w) y = if y = x then some w else get l y := by
  induction l with
  | nil => simp [put, get]
  | cons e l ih =>
    simp only [put]
    split
    · simp [get]
    · split
      · rename_i hx
        subst hx
        simp only [get]
        split <;> simp_all
      · simp only [get, ih]
        split <;> split <;> simp_all

theorem get_erase (l : List (κ × α)) (x y : κ) : get (erase l x) y = if y = x then none else get l y := by
  induction l with
  | nil => simp [erase, get]
  | cons e l ih =>
    simp only [erase, List.filter_cons] at ih ⊢
    by_cases hx : e.1 = x
    · subst hx
      simp only [ne_eq, not_true, decide_false, Bool.false_eq_true, if_false, ih, get]
      split <;> simp_all
    · simp only [ne_eq, hx, not_false_eq_true, decide_true, if_true, get, ih]
      split <;> split <;> simp_all

/-- Putting a new key adds one pair and moves none. -/
theorem put_perm {l : List (κ × α)} {x : κ} (w : α) (h : x ∉ keys l) : (put l x w).Perm ((x, w) :: l) := by
  induction l with
  | nil => exact .refl _
  | cons e l ih =>
    simp only [keys, List.map_cons, List.mem_cons, not_or] at h ih
    simp only [put]
    split
    · exact .refl _
    · rw [if_neg h.1]
      exact ((ih h.2).cons e).trans (.swap ..)

/-- Erasing a bound key takes away its pair and nothing else. -/
theorem erase_perm {l : List (κ × α)} (hs : Sorted l) {x : κ} {v : α} (h : (x, v) ∈ l) :
    l.Perm ((x, v) :: erase l x) := by
  induction l with
  | nil => cases h
  | cons e l ih =>
    obtain ⟨h1, h2⟩ := List.pairwise_cons.1 hs
    rcases List.mem_cons.1 h with rfl | hm
    · rw [erase_head hs]
    · have hne : e.1 ≠ x := ne_of_lt (h1 _ hm)
      have : erase (e :: l) x = e :: erase l x := by simp [erase, hne]
      rw [this]
      exact ((ih h2 hm).cons e).trans (.swap ..)

/-! ## A free key -/

section Free

variable {next : κ → κ}

/-- Behind a bound key, fewer of the keys lie ahead. -/
theorem countP_next_lt (hnext : ∀ x, x < next x) {l : List κ} {x : κ} (hx : x ∈ l) :
    l.countP (next x ≤ ·) < l.countP (x ≤ ·) := by
  have hmono (l : List κ) : l.countP (next x ≤ ·) ≤ l.countP (x ≤ ·) :=
    List.countP_mono_left fun y _ hy => decide_eq_true ((hnext x).le.trans (of_decide_eq_true hy))
  obtain ⟨l₁, l₂, rfl⟩ := List.append_of_mem hx
  have h₁ := hmono l₁
  have h₂ := hmono l₂
  have hlt : ¬ next x ≤ x := not_le_of_gt (hnext x)
  simp only [List.countP_append, List.countP_cons, hlt, le_refl, decide_true, decide_false, if_true]
  simp only [Bool.false_eq_true, if_false]
  omega

/-- From each key on, a free one is reached in as many steps as there are bound keys ahead; those before it are
bound. -/
theorem exists_free (hnext : ∀ x, x < next x) (l : List κ) (x : κ) :
    ∃ n ≤ l.countP (x ≤ ·), next^[n] x ∉ l ∧ ∀ m < n, next^[m] x ∈ l := by
  -- by induction on the number of bound keys ahead
  induction hm : l.countP (x ≤ ·) using Nat.strongRecOn generalizing x with
  | ind m ih =>
    by_cases hx : x ∈ l
    · have hlt := countP_next_lt hnext hx
      obtain ⟨n, hn, hfree, hbound⟩ := ih _ (hm ▸ hlt) (next x) rfl
      refine ⟨n + 1, by omega, hfree, fun i hi => ?_⟩
      cases i with
      | zero => exact hx
      | succ i => exact hbound i (by omega)
    · exact ⟨0, Nat.zero_le m, hx, nofun⟩

end Free

end Assoc
