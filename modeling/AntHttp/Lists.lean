import AntHttp.Lib.Cells
import AntHttp.Lib.Runs
import AntHttp.Utils
import Mathlib.Data.List.Perm.Subperm
/-!
# Linked lists (`lib/list.c`)

Items are cells of a heap, and an address is never given out twice. Following
a pointer to a cell that has been freed is undefined: the functions return
`none` there. The payload of a freed item is put down in `released`; what is
freed with it (the text of a pointer, the list of an array) is not looked into.
-/

namespace AntHttp

open CString Cells

/-- The `value` of an item that is not `LIST_TYPE_NIL`. -/
inductive Value (δ : Type) where
  | int (i : Int)
  | double (d : δ)
  | ptr (ptr : Option Nat)
  | array (array : Option Nat)
  deriving DecidableEq

/-- The memory, with the list head in it; an item without a value is of `LIST_TYPE_NIL`. -/
structure Lists (δ : Type) where
  cells : Heap (Option (Value δ))
  fresh : Nat
  released : List (Value δ)
  list : Option Nat

namespace Lists

variable {δ : Type}

/-! ## The functions -/

def write (s : Lists δ) (p : Nat) (c : Cell (Option (Value δ))) : Lists δ :=
  { s with cells := Function.update s.cells p (some c) }

def free (s : Lists δ) (p : Nat) : Lists δ := { s with cells := Function.update s.cells p none }

def list_item (s : Lists δ) (value : Option (Value δ)) : Nat × Lists δ :=
  (s.fresh, { s with cells := Function.update s.cells s.fresh (some ⟨value, none⟩), fresh := s.fresh + 1 })

def list_init (s : Lists δ) : Lists δ :=
  let (ret, s) := s.list_item none
  { s with list := some ret }

/-- Follows `next` to the end, over at most `fuel` items. -/
def lastFrom (cells : Heap (Option (Value δ))) : Nat → Nat → Option Nat
  | 0, _ => none
  | fuel + 1, p =>
    match cells p with
    | none => none
    | some ⟨_, none⟩ => some p
    | some ⟨_, some q⟩ => lastFrom cells fuel q

def list_last (s : Lists δ) : Option (Option Nat) :=
  match s.list with
  | none => some none
  | some p => (lastFrom s.cells s.fresh p).map some

/-- The items up to NULL, at most `fuel`. -/
def countFrom (cells : Heap (Option (Value δ))) : Nat → Option Nat → Option Nat
  | _, none => some 0
  | 0, some _ => none
  | fuel + 1, some p => (cells p).bind fun c => (countFrom cells fuel c.next).map (· + 1)

def list_empty (s : Lists δ) : Option Bool :=
  match s.list with
  | none => some true
  | some p => (s.cells p).map fun c => c.value.isNone

/-- An `int` in the source: the lists have less than 2^31 items. -/
def list_size (s : Lists δ) : Option Nat :=
  (list_empty s).bind fun empty => if empty then some 0 else countFrom s.cells s.fresh s.list

/-- The item `i` steps on. -/
def stepTo (cells : Heap (Option (Value δ))) : Nat → Option Nat → Option (Option Nat)
  | _, none => some none
  | 0, some p => some (some p)
  | i + 1, some p => (cells p).bind fun c => stepTo cells i c.next

def list_at (s : Lists δ) (idx : Int) : Option (Option Nat) :=
  (list_size s).bind fun size => if idx < 0 ∨ idx ≥ size then some none else stepTo s.cells idx.toNat s.list

def list_put (s : Lists δ) (it : Nat) : Option (Lists δ) :=
  (list_empty s).bind fun empty =>
    if empty then
      -- the placeholder of `list_init` goes
      match s.list with
      | none => some { s with list := some it }
      | some p => some { s.free p with list := some it }
    else
      (list_last s).bind fun np => np.bind fun np => (s.cells np).map fun c => s.write np { c with next := some it }

def putValue (s : Lists δ) (v : Value δ) : Option (Lists δ) := (s.list_item (some v)).2.list_put (s.list_item (some v)).1

def list_put_i (s : Lists δ) (v : Int) : Option (Lists δ) := s.putValue (.int v)
def list_put_d (s : Lists δ) (v : δ) : Option (Lists δ) := s.putValue (.double v)
def list_put_ptr (s : Lists δ) (v : Option Nat) : Option (Lists δ) := s.putValue (.ptr v)
def list_put_array (s : Lists δ) (v : Option Nat) : Option (Lists δ) := s.putValue (.array v)

/-- What `list_put_special` makes of a string; `dup` is its copy. -/
def specialValue (regexec : Regexec) (atof : Bytes → δ) (dup : Nat) (str : Bytes) : Res (Value δ) := do
  if ← match_int regexec str then return .int (atoi str)
  else if ← match_float regexec str then return .double (atof str)
  else return .ptr (some dup)

def list_put_special (s : Lists δ) (regexec : Regexec) (atof : Bytes → δ) (dup : Nat) (str : Bytes) : Res (Option (Lists δ)) :=
  (specialValue regexec atof dup str).map s.putValue

/-- The item and those after it are freed with what they hold, at most `fuel`. -/
def freeFrom : Nat → Lists δ → Option Nat → Option (Lists δ)
  | _, s, none => some s
  | 0, _, some _ => none
  | fuel + 1, s, some p =>
    (s.cells p).bind fun c => freeFrom fuel ({ s with released := s.released ++ c.value.toList }.free p) c.next

/-- The value returned, and the list. -/
def list_remove (s : Lists δ) (idx : Int) : Option (Int × Lists δ) :=
  match s.list with
  | none => some (0, s)
  | some l =>
    (list_size s).bind fun size =>
      if idx < 0 ∨ idx ≥ size then some (0, s)
      else if idx = 0 then
        (s.cells l).bind fun c =>
          (freeFrom s.fresh (s.write l { c with next := none }) (some l)).map fun s => (1, { s with list := c.next })
      else
        (list_at s (idx - 1)).bind fun np =>
          match np with
          | none => some (0, s)
          | some np =>
            (s.cells np).bind fun c =>
              match c.next with
              | none => some (1, s)
              | some it =>
                (s.cells it).bind fun d => (freeFrom s.fresh (s.write it { d with next := none }) (some it)).bind fun s =>
                  -- `np->next` is still the item that has just been freed
                  (s.cells np).bind fun c => (s.cells it).map fun d => (1, s.write np { c with next := d.next })

/-! ## Following the cells -/

section Walks

variable {cells : Heap (Option (Value δ))} {l : Option Nat} {items : List (Nat × Option (Value δ))} {fuel : Nat}

theorem lastFrom_seg {p q : Nat} {v : Option (Value δ)} (h : Seg cells (some p) (items ++ [(q, v)]) none)
    (hf : items.length < fuel) : lastFrom cells fuel p = some q := by
  induction items generalizing p fuel with
  | nil =>
    obtain ⟨r, hp, hc, -, hs⟩ := h.of_cons
    cases hp
    rw [hs.of_nil] at hc
    cases fuel with
    | zero => cases hf
    | succ fuel => rw [lastFrom, hc]
  | cons e items ih =>
    obtain ⟨r, hp, hc, -, hs⟩ := h.of_cons
    cases hp
    cases fuel with
    | zero => cases hf
    | succ fuel =>
      have hne : items ++ [(q, v)] ≠ [] := by simp
      obtain ⟨e', items', he⟩ := List.exists_cons_of_ne_nil hne
      obtain ⟨r', rfl, -⟩ := (he ▸ hs : Seg cells r (e' :: items') none).of_cons
      rw [lastFrom, hc]
      exact ih hs (Nat.lt_of_succ_lt_succ hf)

theorem countFrom_seg (h : Seg cells l items none) (hf : items.length ≤ fuel) : countFrom cells fuel l = some items.length := by
  induction items generalizing l fuel with
  | nil =>
    cases h.of_nil
    cases fuel <;> rfl
  | cons e items ih =>
    obtain ⟨r, rfl, hc, -, hs⟩ := h.of_cons
    cases fuel with
    | zero => cases hf
    | succ fuel =>
      rw [countFrom, hc, Option.bind_some, ih hs (Nat.le_of_succ_le_succ hf)]
      rfl

theorem stepTo_seg (h : Seg cells l items none) (i : Nat) : stepTo cells i l = some (items[i]?.map Prod.fst) := by
  induction items generalizing l i with
  | nil =>
    cases h.of_nil
    cases i <;> rfl
  | cons e items ih =>
    obtain ⟨r, rfl, hc, -, hs⟩ := h.of_cons
    cases i with
    | zero => rfl
    | succ i =>
      rw [stepTo, hc, Option.bind_some, ih hs]
      rfl

end Walks

/-! ## What a list holds -/

def asCells (items : List (Nat × Value δ)) : List (Nat × Option (Value δ)) := items.map fun e => (e.1, some e.2)

/-- A list that `list_init` made, in which nothing has been put yet. -/
def Placeholder (s : Lists δ) : Prop := ∃ p, s.list = some p ∧ s.cells p = some ⟨none, none⟩

/-- The list is made of the items, or of a placeholder; addresses to come are free. -/
structure Rep (s : Lists δ) (items : List (Nat × Value δ)) : Prop where
  seg : Seg s.cells s.list (asCells items) none ∨ (items = [] ∧ s.Placeholder)
  fresh : ∀ p, (s.cells p).isSome → p < s.fresh

section Rep

variable {s : Lists δ} {items : List (Nat × Value δ)}

theorem Rep.of_ne_nil (h : Rep s items) (hne : items ≠ []) : Seg s.cells s.list (asCells items) none :=
  h.seg.resolve_right fun hp => hne hp.1

theorem Rep.not_placeholder (h : Rep s items) (hne : items ≠ []) : ¬ s.Placeholder := by
  obtain ⟨e, items', rfl⟩ := List.exists_cons_of_ne_nil hne
  obtain ⟨q, hl, hc, -, -⟩ := (h.of_ne_nil hne).of_cons
  rintro ⟨p, hp, hn⟩
  obtain rfl : e.1 = p := by simpa using hl.symm.trans hp
  cases hc.symm.trans hn

/-- There are at most as many items as addresses. -/
theorem Rep.length_le (h : Rep s items) : items.length ≤ s.fresh := by
  rcases h.seg with hs | ⟨rfl, -⟩
  · have hsub : (asCells items).map Prod.fst ⊆ List.range s.fresh := fun p hp => List.mem_range.2 (h.fresh p (hs.mem hp))
    have hle := (hs.nodup.subperm hsub).length_le
    simpa [asCells] using hle
  · exact Nat.zero_le _

theorem Rep.empty (h : Rep s items) : s.list_empty = some items.isEmpty := by
  rcases h.seg with hs | ⟨rfl, p, hl, hp⟩
  · cases items with
    | nil => rw [list_empty, hs.of_nil]; rfl
    | cons e items =>
      obtain ⟨q, hl, hc, -, -⟩ := hs.of_cons
      rw [list_empty, hl]
      simp only [hc]
      rfl
  · rw [list_empty, hl]
    simp only [hp]
    rfl

theorem Rep.size (h : Rep s items) : s.list_size = some items.length := by
  rw [list_size, h.empty, Option.bind_some]
  cases items with
  | nil => rfl
  | cons e items =>
    have hs := h.of_ne_nil (List.cons_ne_nil e items)
    have hlen : (asCells (e :: items)).length = (e :: items).length := List.length_map ..
    rw [List.isEmpty_cons, if_neg (by decide), countFrom_seg hs (hlen ▸ h.length_le), hlen]

theorem Rep.at (h : Rep s items) (i : Int) :
    s.list_at i = some (if i < 0 then none else items[i.toNat]?.map Prod.fst) := by
  rw [list_at, h.size, Option.bind_some]
  by_cases hi : i < 0
  · rw [if_pos (.inl hi), if_pos hi]
  · rw [if_neg hi]
    by_cases hle : i ≥ items.length
    · have hnone : items[i.toNat]? = none := List.getElem?_eq_none (by omega)
      rw [if_pos (.inr hle), hnone, Option.map_none]
    · have hne : items ≠ [] := by
        rintro rfl
        simp only [List.length_nil] at hle
        omega
      rw [if_neg (by omega), stepTo_seg (h.of_ne_nil hne)]
      simp only [asCells, List.getElem?_map, Option.map_map]
      rfl

/-- The last item is found, unless a placeholder stands for the empty list. -/
theorem Rep.last (h : Rep s items) : s.list_last = some (items.getLast?.map Prod.fst) ↔ ¬ s.Placeholder := by
  rcases h.seg with hs | ⟨rfl, p, hl, hp⟩
  · cases items using List.reverseRecOn with
    | nil =>
      have hl : s.list = none := hs.of_nil
      refine iff_of_true (by rw [list_last, hl]; rfl) ?_
      rintro ⟨p, hp, -⟩
      cases hl.symm.trans hp
    | append_singleton items e =>
      have hne : asCells (items ++ [e]) ≠ [] := by simp [asCells]
      have hnot := h.not_placeholder (by simp)
      obtain ⟨e', items', he⟩ := List.exists_cons_of_ne_nil hne
      obtain ⟨q, hl, hc, -, -⟩ := (he ▸ hs : Seg s.cells s.list (e' :: items') none).of_cons
      have hlen := h.length_le
      rw [List.length_append, List.length_singleton] at hlen
      have hcells : asCells (items ++ [e]) = asCells items ++ [(e.1, some e.2)] := by simp [asCells]
      rw [hl, hcells] at hs
      have hlast := lastFrom_seg hs (show (asCells items).length < s.fresh by rw [asCells, List.length_map]; omega)
      exact iff_of_true (by rw [list_last, hl]; simp [hlast]) hnot
  · refine iff_of_false (fun hlast => ?_) (fun hn => hn ⟨p, hl, hp⟩)
    rw [list_last, hl] at hlast
    have hpos := h.fresh p (by rw [hp]; rfl)
    obtain ⟨n, hn⟩ : ∃ n, s.fresh = n + 1 := ⟨s.fresh - 1, by omega⟩
    simp [hn, lastFrom, hp] at hlast

/-! ## Putting an item -/

theorem Rep.not_mem_fresh (h : Rep s items) : s.fresh ∉ (asCells items).map Prod.fst ∧ s.cells s.fresh = none := by
  have hnone : s.cells s.fresh = none := by
    rw [← Option.not_isSome_iff_eq_none]
    exact fun hs => lt_irrefl _ (h.fresh _ hs)
  refine ⟨fun hm => ?_, hnone⟩
  rcases h.seg with hs | ⟨rfl, -⟩
  · have := hs.mem hm
    rw [hnone] at this
    cases this
  · cases hm

/-- A new item changes no list. -/
theorem Rep.alloc (h : Rep s items) (v : Option (Value δ)) : Rep (s.list_item v).2 items := by
  obtain ⟨hmem, hnone⟩ := h.not_mem_fresh
  refine ⟨h.seg.imp (fun hs => hs.frame hmem) ?_, fun p hp => ?_⟩
  · rintro ⟨rfl, p, hl, hp⟩
    have hne : p ≠ s.fresh := by
      rintro rfl
      cases hp.symm.trans hnone
    exact ⟨rfl, p, hl, by simp only [list_item, Function.update_of_ne hne, hp]⟩
  · simp only [list_item] at hp ⊢
    by_cases hpf : p = s.fresh
    · omega
    · rw [Function.update_of_ne hpf] at hp
      have := h.fresh p hp
      omega

/-- The item becomes the last one. -/
theorem Rep.put {it : Nat} {v : Value δ} (h : Rep s items) (hit : s.cells it = some ⟨some v, none⟩)
    (hnew : it ∉ (asCells items).map Prod.fst) :
    ∃ s', s.list_put it = some s' ∧ Rep s' (items ++ [(it, v)]) ∧ s'.released = s.released := by
  rw [list_put, h.empty, Option.bind_some]
  have hlt := h.fresh it (by rw [hit]; rfl)
  have hone : Seg s.cells (some it) [(it, some v)] none := .cons hit nofun .nil
  by_cases hne : items = []
  · subst hne
    rw [List.isEmpty_nil, if_pos rfl]
    -- no list at all, or the placeholder that `list_init` has left
    rcases h.seg with hs | ⟨-, p, hl, hp⟩
    · have hl : s.list = none := hs.of_nil
      rw [hl]
      exact ⟨_, rfl, ⟨.inl hone, h.fresh⟩, rfl⟩
    · have hne : p ≠ it := by
        rintro rfl
        cases hp.symm.trans hit
      rw [hl]
      refine ⟨_, rfl, ⟨.inl (hone.frame (by simpa using hne)), fun q hq => ?_⟩, rfl⟩
      simp only [free, Function.update_apply] at hq
      split at hq
      · cases hq
      · exact h.fresh q hq
  · have hempty : items.isEmpty = false := by simpa using hne
    rw [hempty, if_neg (by decide), h.last.2 (h.not_placeholder hne), Option.bind_some]
    cases items using List.reverseRecOn with
    | nil => exact absurd rfl hne
    | append_singleton items e =>
      have hcells : asCells (items ++ [e]) = asCells items ++ [(e.1, some e.2)] := by simp [asCells]
      have hs := h.of_ne_nil hne
      rw [hcells] at hs hnew
      obtain ⟨m, -, he⟩ := hs.split
      obtain ⟨q, rfl, hc, -, hr⟩ := he.of_cons
      rw [hr.of_nil] at hc
      simp only [List.getLast?_append, List.getLast?_singleton, Option.some_or, Option.map_some, Option.bind_some, hc]
      have hitne : it ≠ e.1 := fun he => hnew (by simp [he])
      refine ⟨_, rfl, ⟨.inl ?_, fun p hp => ?_⟩, rfl⟩
      -- the last cell is linked to the new one
      · have hone' : Seg (Function.update s.cells e.1 (some ⟨some e.2, some it⟩)) (some it) [(it, some v)] none :=
          hone.frame (by simpa using Ne.symm hitne)
        have hall : asCells (items ++ [e] ++ [(it, v)]) = asCells items ++ [(e.1, some e.2)] ++ [(it, some v)] := by simp [asCells]
        rw [hall]
        refine (hs.relink (some it)).append hone' ?_
        rw [List.map_append]
        refine List.nodup_append.2 ⟨hs.nodup, by simp, fun a ha b hb hab => hnew ?_⟩
        have hb : b = it := by simpa using hb
        rw [← hb, ← hab]
        exact ha
      · simp only [write, Function.update_apply] at hp
        split at hp
        · rename_i hpe
          exact h.fresh p (by rw [hpe, hc]; rfl)
        · exact h.fresh p hp

theorem Rep.putValue (h : Rep s items) (v : Value δ) :
    ∃ s', s.putValue v = some s' ∧ Rep s' (items ++ [(s.fresh, v)]) ∧ s'.released = s.released :=
  (h.alloc (some v)).put (by simp [list_item]) h.not_mem_fresh.1

/-! ## Removing an item -/

/-- Outside the list nothing is removed. -/
theorem Rep.remove_outside (h : Rep s items) {idx : Int} (hi : idx < 0 ∨ idx ≥ items.length) : s.list_remove idx = some (0, s) := by
  rw [list_remove]
  cases s.list with
  | none => rfl
  | some l =>
    simp only
    rw [h.size, Option.bind_some, if_pos hi]

theorem freeFrom_one {fuel p : Nat} {v : Option (Value δ)} (hf : 0 < fuel) (hp : s.cells p = some ⟨v, none⟩) :
    freeFrom fuel s (some p) = some { s with cells := Function.update s.cells p none, released := s.released ++ v.toList } := by
  cases fuel with
  | zero => cases hf
  | succ fuel =>
    rw [freeFrom, hp, Option.bind_some]
    cases fuel <;> rfl

theorem Rep.remove_head {e : Nat × Value δ} (h : Rep s (e :: items)) :
    ∃ s', s.list_remove 0 = some (1, s') ∧ Rep s' items ∧ s'.released = s.released ++ [e.2] := by
  obtain ⟨q, hl, hc, hn, hs⟩ := (h.of_ne_nil (List.cons_ne_nil e items)).of_cons
  have hpos : 0 < s.fresh := lt_of_le_of_lt (Nat.zero_le _) (h.fresh e.1 (by rw [hc]; rfl))
  have hfree := freeFrom_one (s := s.write e.1 ⟨some e.2, none⟩) hpos (Function.update_self ..)
  rw [list_remove, hl]
  simp only
  rw [h.size, Option.bind_some, if_neg (by simp only [List.length_cons]; omega), if_true, hc, Option.bind_some]
  simp only
  rw [hfree]
  refine ⟨_, rfl, ⟨.inl ((hs.frame hn).frame hn), fun p hp => ?_⟩, rfl⟩
  simp only [write, Function.update_apply] at hp
  split at hp
  · cases hp
  · exact h.fresh p hp

/-- Removing an item inside the list looks at it after it has been freed. -/
theorem Rep.remove_inside (h : Rep s items) {idx : Int} (h0 : 0 < idx) (hi : idx < items.length) : s.list_remove idx = none := by
  obtain ⟨k, rfl⟩ : ∃ k : Nat, idx = k + 1 := ⟨(idx - 1).toNat, by omega⟩
  have hk : k + 1 < items.length := by omega
  have hne : items ≠ [] := by
    rintro rfl
    cases hk
  have hs := h.of_ne_nil hne
  have hsplit : items = items.take k ++ items[k] :: items[k + 1] :: items.drop (k + 2) := by
    rw [← List.drop_eq_getElem_cons hk, ← List.drop_eq_getElem_cons (by omega), List.take_append_drop]
  obtain ⟨l, hl⟩ : ∃ l, s.list = some l := by
    obtain ⟨e, items', rfl⟩ := List.exists_cons_of_ne_nil hne
    obtain ⟨q, hl, -⟩ := hs.of_cons
    exact ⟨_, hl⟩
  rw [hsplit, asCells, List.map_append, List.map_cons, List.map_cons] at hs
  obtain ⟨m, -, hs⟩ := hs.split
  obtain ⟨q, -, hc, hnot, hs⟩ := hs.of_cons
  obtain ⟨r, rfl, hd, -, -⟩ := hs.of_cons
  have hnot : items[k].1 ≠ items[k + 1].1 := fun he => hnot (List.mem_cons.2 (.inl he))
  have hpos : 0 < s.fresh := lt_of_le_of_lt (Nat.zero_le _) (h.fresh items[k].1 (by rw [hc]; rfl))
  have hfree := freeFrom_one (s := s.write items[k + 1].1 ⟨some items[k + 1].2, none⟩) hpos (Function.update_self ..)
  have hat : s.list_at ((k : Int) + 1 - 1) = some (some items[k].1) := by
    have hidx : (k : Int) + 1 - 1 = k := by omega
    rw [hidx, h.at, if_neg (by omega), Int.toNat_natCast, List.getElem?_eq_getElem (by omega), Option.map_some]
  rw [list_remove, hl]
  simp only
  rw [h.size, Option.bind_some, if_neg (by omega), if_neg (by omega), hat, Option.bind_some]
  simp only
  rw [hc, Option.bind_some]
  simp only
  rw [hd, Option.bind_some]
  simp only
  rw [hfree, Option.bind_some]
  simp only [write, Function.update_self, Function.update_of_ne hnot, hc, Option.bind_some, Option.map_none]

end Rep

/-! ## Any sequence of operations -/

/-- `dup` is the address of the copy that `list_put_special` keeps of a string. -/
inductive Op (δ : Type) where
  | put_i (v : Int)
  | put_d (v : δ)
  | put_ptr (v : Option Nat)
  | put_array (v : Option Nat)
  | put_special (dup : Nat) (str : Bytes)
  | remove (idx : Int)

/-- An integer, a number with a point, or a copy of the string. -/
def special (regexec : Regexec) (atof : Bytes → δ) (dup : Nat) (v : Bytes) : Value δ :=
  if (found regexec (str "^[-+]?[0-9]+$") v).isSome then .int (atoi v)
  else if (found regexec (str "^[+-]?[0-9]*\\.[0-9]+$") v).isSome then .double (atof v)
  else .ptr (some dup)

theorem specialValue_eq (regexec : Regexec) (atof : Bytes → δ) (dup : Nat) (v : Bytes) :
    specialValue regexec atof dup v = .ok (special regexec atof dup v) := by
  unfold specialValue match_int match_float special
  rw [regex_match_found compiles_number, regex_match_found compiles_float]
  simp only [bind, Except.bind, pure, Except.pure]
  split_ifs <;> rfl

section Runs

variable (regexec : Regexec) (atof : Bytes → δ)

def Op.run : Op δ → Lists δ → Option (Lists δ)
  | .put_i v, s => s.list_put_i v
  | .put_d v, s => s.list_put_d v
  | .put_ptr v, s => s.list_put_ptr v
  | .put_array v, s => s.list_put_array v
  | .put_special dup str, s => (s.list_put_special regexec atof dup str).toOption.join
  | .remove idx, s => (s.list_remove idx).map Prod.snd

/-- What is put, or the index that is removed. -/
def Op.effect : Op δ → Value δ ⊕ Int
  | .put_i v => .inl (.int v)
  | .put_d v => .inl (.double v)
  | .put_ptr v => .inl (.ptr v)
  | .put_array v => .inl (.array v)
  | .put_special dup str => .inl (special regexec atof dup str)
  | .remove idx => .inr idx

/-- A sequence of items, and what has been released of it. -/
structure Items (δ : Type) where
  items : List (Value δ)
  released : List (Value δ)

/-- Whether an item has the index. -/
def Items.Inside (a : Items δ) (idx : Int) : Prop := 0 ≤ idx ∧ idx < a.items.length

instance (a : Items δ) (idx : Int) : Decidable (a.Inside idx) := inferInstanceAs (Decidable (_ ∧ _))

/-- A put appends an item; removing an index takes its item out and releases it. -/
def Items.after (a : Items δ) : Value δ ⊕ Int → Items δ
  | .inl v => { a with items := a.items ++ [v] }
  | .inr idx => if a.Inside idx then ⟨a.items.eraseIdx idx.toNat, a.released ++ a.items[idx.toNat]?.toList⟩ else a

def Items.afterAll (a : Items δ) (ops : List (Op δ)) : Items δ := ops.foldl (fun a op => a.after (op.effect regexec atof)) a

/-- A removal is of the first item, or outside the list. -/
def Fits (op : Op δ) (s : Lists δ) : Prop :=
  match op with
  | .remove idx => idx ≤ 0 ∨ ∃ n, s.list_size = some n ∧ n ≤ idx
  | _ => True

/-- The list is made of the items of the sequence, and what has left the sequence is released. -/
def Holds (s : Lists δ) (a : Items δ) : Prop :=
  ∃ items, Rep s items ∧ items.map Prod.snd = a.items ∧ s.released = a.released

variable {s s' : Lists δ} {a : Items δ} {op : Op δ}

theorem Holds.putValue (h : Holds s a) (v : Value δ) : ∃ s', s.putValue v = some s' ∧ Holds s' (a.after (.inl v)) := by
  obtain ⟨items, hr, hi, hg⟩ := h
  obtain ⟨s', hs, hr', hg'⟩ := hr.putValue v
  refine ⟨s', hs, _, hr', ?_, hg'.trans hg⟩
  rw [List.map_append, hi]
  rfl

theorem Holds.remove_outside {idx : Int} (h : Holds s a) (hi : ¬ a.Inside idx) : s.list_remove idx = some (0, s) := by
  obtain ⟨items, hr, hmap, -⟩ := h
  have hlen : a.items.length = items.length := by rw [← hmap, List.length_map]
  apply hr.remove_outside
  unfold Items.Inside at hi
  omega

theorem Holds.remove_head (h : Holds s a) (hi : a.Inside 0) :
    ∃ s', s.list_remove 0 = some (1, s') ∧ Holds s' (a.after (.inr 0)) := by
  obtain ⟨items, hr, hmap, hg⟩ := h
  cases items with
  | nil =>
    have hlt := hi.2
    rw [← hmap] at hlt
    exact absurd hlt (by simp)
  | cons e items =>
    obtain ⟨s', hs, hr', hg'⟩ := hr.remove_head
    refine ⟨s', hs, items, hr', ?_⟩
    rw [Items.after, if_pos hi, hg', hg]
    simp [← hmap]

theorem Holds.remove_inside {idx : Int} (h : Holds s a) (h0 : 0 < idx) (hi : a.Inside idx) : s.list_remove idx = none := by
  obtain ⟨items, hr, hmap, -⟩ := h
  have hlen : a.items.length = items.length := by rw [← hmap, List.length_map]
  exact hr.remove_inside h0 (hlen ▸ hi.2)

theorem Holds.fits_iff (h : Holds s a) {idx : Int} : Fits (.remove idx) s ↔ ¬ (0 < idx ∧ a.Inside idx) := by
  obtain ⟨items, hr, hmap, -⟩ := h
  have hlen : a.items.length = items.length := by rw [← hmap, List.length_map]
  simp only [Fits, hr.size, Option.some.injEq, exists_eq_left', Items.Inside, hlen]
  omega

/-- An operation that fits does to the list what it does to the sequence. -/
theorem Holds.run (h : Holds s a) (hf : Fits op s) :
    ∃ s', op.run regexec atof s = some s' ∧ Holds s' (a.after (op.effect regexec atof)) := by
  cases op with
  | put_i v => exact h.putValue _
  | put_d v => exact h.putValue _
  | put_ptr v => exact h.putValue _
  | put_array v => exact h.putValue _
  | put_special dup v =>
    have hrun : (Op.put_special dup v).run regexec atof s = s.putValue (special regexec atof dup v) := by
      rw [Op.run, list_put_special, specialValue_eq]
      rfl
    rw [hrun]
    exact h.putValue _
  | remove idx =>
    by_cases hin : a.Inside idx
    · have h0 : ¬ 0 < idx := fun h0 => h.fits_iff.1 hf ⟨h0, hin⟩
      obtain rfl : idx = 0 := by
        have := hin.1
        omega
      obtain ⟨s', hs, hh⟩ := h.remove_head hin
      exact ⟨s', by rw [Op.run, hs]; rfl, hh⟩
    · refine ⟨s, by rw [Op.run, h.remove_outside hin]; rfl, ?_⟩
      rw [Op.effect, Items.after, if_neg hin]
      exact h

/-- An operation that does not fit is undefined. -/
theorem Holds.run_isSome (h : Holds s a) : (op.run regexec atof s).isSome ↔ Fits op s := by
  constructor
  · intro hs
    cases op with
    | remove idx =>
      apply h.fits_iff.2
      rintro ⟨h0, hin⟩
      rw [Op.run, h.remove_inside h0 hin] at hs
      cases hs
    | _ => trivial
  · intro hf
    obtain ⟨s', hs, -⟩ := h.run regexec atof hf
    rw [hs]
    rfl

/-- What an address holds. -/
def valueOf (s : Lists δ) (p : Nat) : Option (Value δ) := (s.cells p).bind Cell.value

/-- The functions see the sequence: a removal tells whether it has an item of the index. -/
structure Shows (s : Lists δ) (a : Items δ) : Prop where
  size : s.list_size = some a.items.length
  empty : s.list_empty = some a.items.isEmpty
  item : ∀ i, ∃ r, s.list_at i = some r ∧ r.map s.valueOf = if i < 0 then none else a.items[i.toNat]?.map some
  last : (∃ r, s.list_last = some r ∧ r.map s.valueOf = a.items.getLast?.map some) ↔ ¬ s.Placeholder
  removed : ∀ idx v s', s.list_remove idx = some (v, s') → v = if a.Inside idx then 1 else 0
  released : s.released = a.released

theorem Rep.valueOf {items : List (Nat × Value δ)} (h : Rep s items) {e : Nat × Value δ} (he : e ∈ items) :
    s.valueOf e.1 = some e.2 := by
  have hs := h.of_ne_nil (List.ne_nil_of_mem he)
  obtain ⟨xs, ys, rfl⟩ := List.append_of_mem he
  rw [asCells, List.map_append, List.map_cons] at hs
  obtain ⟨m, -, hs⟩ := hs.split
  obtain ⟨q, -, hc, -, -⟩ := hs.of_cons
  rw [Lists.valueOf, hc]
  rfl

theorem Rep.map_valueOf {items : List (Nat × Value δ)} (h : Rep s items) {e : Option (Nat × Value δ)} (he : ∀ x ∈ e, x ∈ items) :
    (e.map Prod.fst).map s.valueOf = (e.map Prod.snd).map some := by
  cases e with
  | none => rfl
  | some e =>
    have := h.valueOf (he e rfl)
    simp [this]

theorem Holds.shows (h : Holds s a) : Shows s a := by
  obtain ⟨items, hr, hmap, hg⟩ := id h
  refine ⟨?_, ?_, fun i => ?_, ?_, fun idx v s' hv => ?_, hg⟩
  · rw [hr.size, ← hmap, List.length_map]
  · rw [hr.empty, ← hmap, List.isEmpty_map]
  · refine ⟨_, hr.at i, ?_⟩
    split
    · rfl
    · rw [hr.map_valueOf fun x hx => List.mem_of_getElem? hx, ← hmap, List.getElem?_map]
  · rw [← hmap, List.getLast?_map, ← hr.map_valueOf fun x hx => List.mem_of_getLast? hx]
    constructor
    · rintro ⟨r, hlast, hv⟩
      by_cases hne : items = []
      · subst hne
        cases r with
        | none => exact hr.last.1 hlast
        | some p => cases hv
      · exact hr.not_placeholder hne
    · intro hn
      exact ⟨_, hr.last.2 hn, rfl⟩
  · by_cases hin : a.Inside idx
    · rw [if_pos hin]
      by_cases h0 : 0 < idx
      · rw [h.remove_inside h0 hin] at hv
        cases hv
      · obtain rfl : idx = 0 := by
          have := hin.1
          omega
        obtain ⟨s₁, hs, -⟩ := h.remove_head hin
        cases hs.symm.trans hv
        rfl
    · rw [h.remove_outside hin] at hv
      rw [if_neg hin]
      cases hv
      rfl

/-- A list is the sequence of its items as long as no item behind the first one is removed; `list_last` sees the
placeholder of `list_init`. -/
theorem trace_shows (regexec : Regexec) (atof : Bytes → δ) {m s₀ s : Lists δ} {ops : List (Op δ)} (hl : m.list = none)
    (hm : ∀ p, (m.cells p).isSome → p < m.fresh) (h0 : s₀ = m ∨ s₀ = m.list_init)
    (h : Runs.Trace (Op.run regexec atof) Fits s₀ ops s) :
    Shows s (Items.afterAll regexec atof ⟨[], m.released⟩ ops) ∧ ∀ op, (Op.run regexec atof op s).isSome ↔ Fits op s := by
  have hmem : Rep m [] := ⟨.inl (hl ▸ .nil), hm⟩
  have hstart : Holds s₀ ⟨[], m.released⟩ := by
    rcases h0 with rfl | rfl
    · exact ⟨[], hmem, rfl, rfl⟩
    · exact ⟨[], ⟨.inr ⟨rfl, m.fresh, rfl, Function.update_self ..⟩, (hmem.alloc none).fresh⟩, rfl, rfl⟩
  have hall : Holds s (Items.afterAll regexec atof ⟨[], m.released⟩ ops) := by
    induction h with
    | nil => exact hstart
    | snoc _ hf hs ih =>
      obtain ⟨s', hs', hh⟩ := ih.run regexec atof hf
      rw [hs] at hs'
      cases hs'
      rw [Items.afterAll, List.foldl_append]
      exact hh
  exact ⟨hall.shows, fun op => hall.run_isSome regexec atof⟩

/-- No memory is in use. -/
def nothing : Lists δ := ⟨fun _ => none, 0, [], none⟩

def sampleOps : List (Op Nat) := [.put_i 1, .put_special 7 (str "x"), .put_special 8 (str "-2"), .remove 0, .remove (-1)]

theorem sampleOps_fit : ∀ op ∈ sampleOps, ∀ s, Fits op s := by
  intro op hop s
  simp only [sampleOps, List.mem_cons, List.not_mem_nil, or_false] at hop
  rcases hop with rfl | rfl | rfl | rfl | rfl
  exacts [trivial, trivial, trivial, .inl (Int.le_refl 0), .inl (by decide)]

/-- Of three items the first one is removed. -/
theorem trace_shows_sampleOps : ∃ s : Lists Nat, s.list_size = some 2 ∧ s.released = [.int 1] ∧
    Shows s (Items.afterAll Ere.regexec (fun _ => 0) ⟨[], []⟩ sampleOps) ∧
    ∀ op, (Op.run Ere.regexec (fun _ => 0) op s).isSome ↔ Fits op s := by
  have hrun : ((Runs.runAll (Op.run Ere.regexec fun _ => 0) sampleOps nothing).any fun s =>
      decide (s.list_size = some 2 ∧ s.released = [.int 1])) = true := by decide +kernel
  obtain ⟨s, hs, hsize, hreleased⟩ := Runs.ends_in hrun
  exact ⟨s, hsize, hreleased, trace_shows Ere.regexec (fun _ => 0) (m := nothing) rfl (fun _ hp => Bool.noConfusion hp) (.inl rfl)
    (Runs.Trace.nil.runAll sampleOps_fit hs)⟩

/-- The second of two items is used after it has been freed. -/
theorem second_not_removed : ¬ ∀ (ops : List (Op Nat)) (s : Lists Nat),
    Runs.Trace (Op.run Ere.regexec (fun _ => 0)) (fun _ _ => True) nothing ops s →
    Shows s (Items.afterAll Ere.regexec (fun _ => 0) ⟨[], []⟩ ops) ∧
      ∀ op, (Op.run Ere.regexec (fun _ => 0) op s).isSome := by
  intro h
  have h0 : Holds (nothing : Lists Nat) ⟨[], []⟩ := ⟨[], ⟨.inl .nil, fun _ hp => Bool.noConfusion hp⟩, rfl, rfl⟩
  obtain ⟨s₁, h1, hh1⟩ := h0.putValue (.int 1)
  obtain ⟨s₂, h2, hh2⟩ := hh1.putValue (.int 2)
  have ht : Runs.Trace (Op.run Ere.regexec (fun _ => 0)) (fun _ _ => True) nothing ([] ++ [.put_i 1] ++ [.put_i 2]) s₂ :=
    .snoc (.snoc .nil trivial h1) trivial h2
  have hrun := (h _ s₂ ht).2 (.remove 1)
  rw [Op.run, hh2.remove_inside (by decide) (by decide)] at hrun
  cases hrun

end Runs

end Lists
end AntHttp
