import AntHttp.Lib.Assoc
import AntHttp.Lib.FinMap
import Mathlib.Algebra.Order.Ring.Int
/-!
# The binary search tree (`lib/bst.c`)

The scheduler keys its task queue, its list of scheduled tasks and its poll
list by integers. The functions here are those of `bst.c`; the tree's in-order
listing then relates each of them to a sorted association list.
-/

namespace AntHttp

/-- `bst_node_t`, with `nil` for the NULL pointer. -/
inductive Node (α : Type) where
  | nil
  | node (key : Int) (data : α) (left right : Node α)
  deriving Repr

namespace Bst

variable {α : Type}

def isNull : Node α → Bool
  | .nil => true
  | .node .. => false

def bst_insert (root : Node α) (key : Int) (data : α) : Node α :=
  match root with
  | .nil => .node key data .nil .nil
  | .node k d l r =>
    if key < k then .node k d (bst_insert l key data) r
    else if key > k then .node k d l (bst_insert r key data)
    else .node k data l r

/-- The key and data of the leftmost node. -/
def bst_find_min : Node α → Option (Int × α)
  | .nil => none
  | .node k d .nil _ => some (k, d)
  | .node _ _ l _ => bst_find_min l

def bst_find (root : Node α) (x : Int) : Option α :=
  match root with
  | .nil => none
  | .node k d l r => if x < k then bst_find l x else if x > k then bst_find r x else some d

def bst_delete (root : Node α) (x : Int) : Node α :=
  match root with
  | .nil => .nil
  | .node k d l r =>
    if x < k then .node k d (bst_delete l x) r
    else if x > k then .node k d l (bst_delete r x)
    else
      match bst_find_min r with
      | none => l
      | some (k', d') => if isNull l then r else .node k' d' l (bst_delete r k')

/-- The callback is called on each node with what it has made of the ones before. -/
def bst_for_each {σ : Type} (root : Node α) (callback : σ → Int → α → σ) (args : σ) : σ :=
  match root with
  | .nil => args
  | .node k d l r => bst_for_each r callback (callback (bst_for_each l callback args) k d)

/-- The bindings in the order `bst_for_each` visits them. -/
def toList : Node α → List (Int × α)
  | .nil => []
  | .node k d l r => toList l ++ (k, d) :: toList r

/-- Left keys are smaller than the root's, right keys are larger. -/
def Ordered (t : Node α) : Prop := Assoc.Sorted (toList t)

/-! ## Ordered subtrees -/

theorem ordered_nil : Ordered (.nil : Node α) := List.Pairwise.nil

theorem ordered_node {k : Int} {d : α} {l r : Node α} (h : Ordered (.node k d l r)) :
    Ordered l ∧ Ordered r ∧ (∀ e ∈ toList l, e.1 < k) ∧ ∀ e ∈ toList r, k < e.1 := by
  obtain ⟨hl, hr, hlr⟩ := List.pairwise_append.1 h
  obtain ⟨hk, hr⟩ := List.pairwise_cons.1 hr
  exact ⟨hl, hr, fun e he => hlr e he _ List.mem_cons_self, hk⟩

theorem isNull_iff {t : Node α} : isNull t = true ↔ t = .nil := by
  cases t <;> simp [isNull]

theorem find_min_none {t : Node α} : bst_find_min t = none ↔ t = .nil := by
  induction t with
  | nil => simp [bst_find_min]
  | node k d l r ihl _ => cases l <;> simp_all [bst_find_min]

theorem find_min_head {t : Node α} {k : Int} {d : α} (h : bst_find_min t = some (k, d)) :
    ∃ tl, toList t = (k, d) :: tl := by
  induction t with
  | nil => cases h
  | node k' d' l r ihl _ =>
    cases l with
    | nil => simp only [bst_find_min, Option.some.injEq] at h; exact ⟨toList r, by simp [toList, h]⟩
    | node kl dl ll lr =>
      obtain ⟨tl, htl⟩ := ihl h
      exact ⟨tl ++ (k', d') :: toList r, by rw [toList, htl]; rfl⟩

/-! ## The operations are those of a sorted association list -/

theorem toList_insert {t : Node α} (h : Ordered t) (x : Int) (w : α) :
    toList (bst_insert t x w) = Assoc.put (toList t) x w := by
  induction t with
  | nil => rfl
  | node k d l r ihl ihr =>
    obtain ⟨hl, hr, hlk, -⟩ := ordered_node h
    simp only [bst_insert]
    split
    · rename_i hx; rw [toList, toList, ihl hl, Assoc.put_append_lt hx]
    · split
      · rename_i hx; rw [toList, toList, ihr hr, Assoc.put_append_gt hlk hx]
      · have hx : x = k := by omega
        subst hx; rw [toList, toList, Assoc.put_append_eq hlk]

theorem find_eq_get {t : Node α} (h : Ordered t) (x : Int) : bst_find t x = Assoc.get (toList t) x := by
  induction t with
  | nil => rfl
  | node k d l r ihl ihr =>
    obtain ⟨hl, hr, hlk, hkr⟩ := ordered_node h
    have left_ne : k ≤ x → Assoc.get (toList l) x = none := fun hx =>
      Assoc.get_eq_none (fun e he => by have := hlk e he; omega)
    simp only [bst_find, toList, Assoc.get_append, Assoc.get]
    split
    · rename_i hx
      rw [ihl hl, if_neg (by omega), Assoc.get_eq_none (l := toList r) (fun e he => by have := hkr e he; omega)]
      simp
    · split
      · rw [ihr hr, left_ne (by omega), if_neg (by omega)]; rfl
      · rw [left_ne (by omega), if_pos (by omega)]; rfl

theorem toList_delete {t : Node α} (h : Ordered t) (x : Int) :
    toList (bst_delete t x) = Assoc.erase (toList t) x := by
  induction t generalizing x with
  | nil => rfl
  | node k d l r ihl ihr =>
    obtain ⟨hl, hr, hlk, hkr⟩ := ordered_node h
    have left_ne : k ≤ x → Assoc.erase (toList l) x = toList l := fun hx =>
      Assoc.erase_of_ne (fun e he => by have := hlk e he; omega)
    have right_ne : x ≤ k → Assoc.erase (toList r) x = toList r := fun hx =>
      Assoc.erase_of_ne (fun e he => by have := hkr e he; omega)
    have root : ∀ y : Int, Assoc.erase ((k, d) :: toList r) y =
        if k = y then Assoc.erase (toList r) y else (k, d) :: Assoc.erase (toList r) y := by
      intro y; simp only [Assoc.erase, List.filter_cons]; by_cases hy : k = y <;> simp [hy]
    rw [toList, Assoc.erase_append, root, bst_delete]
    split
    · rw [toList, ihl hl, if_neg (by omega), right_ne (by omega)]
    · split
      · rw [toList, ihr hr, if_neg (by omega), left_ne (by omega)]
      · rw [if_pos (by omega), left_ne (by omega), right_ne (by omega)]
        split
        · rename_i hmin
          rw [find_min_none.1 hmin]; simp [toList]
        · rename_i k' d' hmin
          split
          · rename_i hnull
            rw [isNull_iff.1 hnull]; rfl
          · -- two subtrees: the successor moves up and is deleted on the right
            obtain ⟨tl, htl⟩ := find_min_head hmin
            rw [toList, ihr hr, htl, Assoc.erase_head (htl ▸ hr)]

/-! ## What the scheduler relies on -/

theorem ordered_insert {t : Node α} (h : Ordered t) (x : Int) (w : α) : Ordered (bst_insert t x w) := by
  rw [Ordered, toList_insert h]; exact Assoc.sorted_put h x w

theorem ordered_delete {t : Node α} (h : Ordered t) (x : Int) : Ordered (bst_delete t x) := by
  rw [Ordered, toList_delete h]; exact Assoc.sorted_erase h x

theorem find_insert {t : Node α} (h : Ordered t) (x y : Int) (w : α) :
    bst_find (bst_insert t x w) y = if y = x then some w else bst_find t y := by
  rw [find_eq_get (ordered_insert h x w), toList_insert h, Assoc.get_put, find_eq_get h]

theorem find_delete {t : Node α} (h : Ordered t) (x y : Int) :
    bst_find (bst_delete t x) y = if y = x then none else bst_find t y := by
  rw [find_eq_get (ordered_delete h x), toList_delete h, Assoc.get_erase, find_eq_get h]

theorem find_mem {t : Node α} (h : Ordered t) {x : Int} {v : α} : bst_find t x = some v ↔ (x, v) ∈ toList t := by
  rw [find_eq_get h]; exact ⟨Assoc.get_mem, Assoc.get_of_mem h⟩

theorem find_isSome_iff {t : Node α} (h : Ordered t) {x : Int} : (bst_find t x).isSome ↔ x ∈ Assoc.keys (toList t) := by
  rw [find_eq_get h, Assoc.get_isSome_iff]

theorem find_eq_none_iff {t : Node α} (h : Ordered t) {x : Int} :
    bst_find t x = none ↔ x ∉ Assoc.keys (toList t) := by
  rw [← find_isSome_iff h, Option.not_isSome_iff_eq_none]

/-- Inserting a free key adds one binding. -/
theorem insert_perm {t : Node α} (h : Ordered t) {x : Int} (w : α) (hx : bst_find t x = none) :
    (toList (bst_insert t x w)).Perm ((x, w) :: toList t) := by
  rw [toList_insert h]
  exact Assoc.put_perm w ((find_eq_none_iff h).1 hx)

/-- Deleting a bound key takes away its binding. -/
theorem delete_perm {t : Node α} (h : Ordered t) {x : Int} {v : α} (hx : bst_find t x = some v) :
    (toList t).Perm ((x, v) :: toList (bst_delete t x)) := by
  rw [toList_delete h]; exact Assoc.erase_perm h ((find_mem h).1 hx)

/-! ## Any sequence of operations -/

theorem for_each_eq {σ : Type} (t : Node α) (callback : σ → Int → α → σ) (args : σ) :
    bst_for_each t callback args = (toList t).foldl (fun s e => callback s e.1 e.2) args := by
  induction t generalizing args with
  | nil => rfl
  | node k d l r ihl ihr => rw [bst_for_each, ihl, ihr, toList, List.foldl_append, List.foldl_cons]

/-- The bindings that a callback gets to see, in order. -/
def visits (t : Node α) : List (Int × α) := bst_for_each t (fun seen k d => seen ++ [(k, d)]) []

theorem visits_eq (t : Node α) : visits t = toList t := by
  have collect (l seen : List (Int × α)) : l.foldl (fun seen e => seen ++ [(e.1, e.2)]) seen = seen ++ l := by
    induction l generalizing seen with
    | nil => simp
    | cons e l ih => rw [List.foldl_cons, ih, List.append_assoc, List.singleton_append]
  rw [visits, for_each_eq, collect, List.nil_append]

def Op.run (t : Node α) : FinMap.Op Int α → Node α
  | .put key data => bst_insert t key data
  | .remove key => bst_delete t key

theorem run_ordered {t : Node α} (h : Ordered t) (op : FinMap.Op Int α) : Ordered (Op.run t op) := by
  cases op with
  | put key data => exact ordered_insert h key data
  | remove key => exact ordered_delete h key

theorem run_find {t : Node α} (h : Ordered t) (op : FinMap.Op Int α) (k : Int) :
    bst_find (Op.run t op) k = if k = op.key then op.value else bst_find t k := by
  cases op with
  | put key data => exact find_insert h key k data
  | remove key => exact find_delete h key k

/-- The tree is a finite map: after any operations each key has the data that the last operation on it has left, and
each binding is visited once, in the order of the keys. -/
theorem operations_refine (ops : List (FinMap.Op Int α)) :
    Ordered (ops.foldl Op.run .nil) ∧ (∀ k, bst_find (ops.foldl Op.run .nil) k = FinMap.last ops k) ∧
      Assoc.Sorted (visits (ops.foldl Op.run .nil)) ∧
      ∀ k d, (k, d) ∈ visits (ops.foldl Op.run .nil) ↔ FinMap.last ops k = some d := by
  have htrace : Runs.Trace (fun op t => some (Op.run t op)) (fun _ _ => True) (Node.nil : Node α) ops _ :=
    Runs.trace_foldl (fun _ _ => rfl) (fun _ _ => trivial) Node.nil ops
  obtain ⟨hord, hfind⟩ := FinMap.refines Ordered bst_find ordered_nil (fun _ => rfl)
    (fun op t t' ht _ hst => by cases hst; exact ⟨run_ordered ht op, run_find ht op⟩) htrace
  rw [visits_eq]
  exact ⟨hord, hfind, hord, fun k d => by rw [← hfind, find_mem hord]⟩

/-! ## Trees of data that know their keys -/

/-- Each datum is stored under its own key. -/
structure Keyed (id : α → Int) (t : Node α) : Prop where
  ordered : Ordered t
  keyed : ∀ e ∈ toList t, id e.2 = e.1

/-- Different data of the tree. -/
structure Chosen (id : α → Int) (t : Node α) (l : List α) : Prop where
  nodup : (l.map id).Nodup
  found : ∀ v ∈ l, bst_find t (id v) = some v

section Keyed

variable {id : α → Int} {t : Node α} {l : List α} {v w : α}

theorem Keyed.nil (id : α → Int) : Keyed id .nil := ⟨ordered_nil, fun _ he => (List.not_mem_nil he).elim⟩

theorem Keyed.insert (h : Keyed id t) (w : α) : Keyed id (bst_insert t (id w) w) where
  ordered := ordered_insert h.ordered ..
  keyed e he := by
    rw [toList_insert h.ordered] at he
    rcases Assoc.mem_put he with rfl | he
    · rfl
    · exact h.keyed e he

theorem Keyed.delete (h : Keyed id t) (x : Int) : Keyed id (bst_delete t x) where
  ordered := ordered_delete h.ordered x
  keyed e he := by
    rw [toList_delete h.ordered] at he
    exact h.keyed e (List.mem_of_mem_filter he)

/-- A datum is found under its key. -/
theorem Keyed.find (h : Keyed id t) (hv : v ∈ (toList t).map Prod.snd) : bst_find t (id v) = some v := by
  obtain ⟨e, he, rfl⟩ := List.mem_map.1 hv
  rw [h.keyed e he]
  exact (find_mem h.ordered).2 he

theorem Keyed.nodup (h : Keyed id t) : (((toList t).map Prod.snd).map id).Nodup := by
  have hid : ((toList t).map Prod.snd).map id = (toList t).map Prod.fst := by
    rw [List.map_map]
    exact List.map_congr_left h.keyed
  rw [hid, List.nodup_iff_pairwise_ne, List.pairwise_map]
  exact h.ordered.imp fun hlt => ne_of_lt hlt

/-- The tree grows by a new key. -/
theorem Chosen.insert (h : Chosen id t l) (ho : Ordered t) {x : Int} (hx : bst_find t x = none) (w : α) :
    Chosen id (bst_insert t x w) l where
  nodup := h.nodup
  found v hv := by
    have hf := h.found v hv
    have hne : id v ≠ x := fun he => by rw [he, hx] at hf; cases hf
    rw [find_insert ho, if_neg hne, hf]

/-- The first of the data leaves the tree. -/
theorem Chosen.delete (h : Chosen id t (v :: l)) (ho : Ordered t) : Chosen id (bst_delete t (id v)) l where
  nodup := (List.nodup_cons.1 (List.map_cons ▸ h.nodup)).2
  found u hu := by
    have hv := (List.nodup_cons.1 (List.map_cons ▸ h.nodup)).1
    have hne : id u ≠ id v := fun he => hv (he ▸ List.mem_map_of_mem hu)
    rw [find_delete ho, if_neg hne]
    exact h.found u (List.mem_cons_of_mem _ hu)

end Keyed

/-! ## Trees of data that are numbered -/

/-- The data are numbered from 0 on. -/
def Numbered (t : Node α) (l : List α) : Prop := toList t = l.zipIdx.map fun p => ((p.2 : Int), p.1)

section Numbered

variable {t : Node α} {l : List α}

theorem Numbered.nil : Numbered (.nil : Node α) [] := rfl

theorem Numbered.ordered (h : Numbered t l) : Ordered t := by
  unfold Ordered Assoc.Sorted
  rw [h, List.pairwise_map, List.pairwise_iff_getElem]
  intro i j hi hj hij
  simpa using hij

/-- The next number is greater than all before. -/
theorem Numbered.insert (h : Numbered t l) (v : α) : Numbered (bst_insert t l.length v) (l ++ [v]) := by
  have hlt : ∀ e ∈ toList t, e.1 < (l.length : Int) := by
    intro e he
    rw [h] at he
    obtain ⟨p, hp, rfl⟩ := List.mem_map.1 he
    exact Int.ofNat_lt.2 (List.snd_lt_of_mem_zipIdx hp)
  unfold Numbered
  rw [toList_insert h.ordered, Assoc.put_of_gt hlt, h, List.zipIdx_append, List.map_append, Nat.zero_add]
  rfl

theorem Numbered.find (h : Numbered t l) (i : Nat) : bst_find t i = l[i]? := by
  apply Option.ext
  intro v
  rw [find_mem h.ordered, h, List.mem_map]
  constructor
  · rintro ⟨p, hp, he⟩
    cases he
    exact List.mem_zipIdx_iff_getElem?.1 hp
  · intro hv
    exact ⟨(v, i), List.mem_zipIdx_iff_getElem?.2 hv, rfl⟩

end Numbered

/-! ## The same tree with other data -/

/-- The data are changed, the keys are not. -/
def map {β : Type} (f : α → β) : Node α → Node β
  | .nil => .nil
  | .node k d l r => .node k (f d) (map f l) (map f r)

section Map

variable {β : Type} (f : α → β) (t : Node α)

theorem map_insert (key : Int) (data : α) : map f (bst_insert t key data) = bst_insert (map f t) key (f data) := by
  induction t with
  | nil => rfl
  | node k d l r ihl ihr =>
    simp only [bst_insert, map]
    split
    · rw [map, ihl]
    · split
      · rw [map, ihr]
      · rw [map]

theorem map_find (x : Int) : bst_find (map f t) x = (bst_find t x).map f := by
  induction t with
  | nil => rfl
  | node k d l r ihl ihr =>
    simp only [bst_find, map]
    split
    · exact ihl
    · split
      · exact ihr
      · rfl

theorem toList_map : toList (map f t) = (toList t).map fun e => (e.1, f e.2) := by
  induction t with
  | nil => rfl
  | node k d l r ihl ihr => rw [map, toList, toList, ihl, ihr, List.map_append, List.map_cons]

end Map

end Bst
end AntHttp
