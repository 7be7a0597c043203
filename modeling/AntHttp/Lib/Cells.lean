import Mathlib.Data.List.Basic
import Mathlib.Logic.Function.Basic
import Mathlib.Tactic.Common
/-!
# Linked cells

A heap of cells that point to each other. `Seg h l items r` says that the
cells from `l` on, up to the pointer `r`, are `items`: different addresses with
what is stored at them. Changing a cell elsewhere changes nothing, and the last
cell can be linked to something else.
-/

namespace Cells

variable {β : Type}

structure Cell (β : Type) where
  value : β
  next : Option Nat

abbrev Heap (β : Type) := Nat → Option (Cell β)

inductive Seg (h : Heap β) : Option Nat → List (Nat × β) → Option Nat → Prop
  | nil {r} : Seg h r [] r
  | cons {p v q items r} :
    h p = some ⟨v, q⟩ → p ∉ items.map Prod.fst → Seg h q items r → Seg h (some p) ((p, v) :: items) r

variable {h : Heap β} {l m r r' : Option Nat} {items xs ys : List (Nat × β)} {p : Nat} {v : β} {c : Option (Cell β)}

theorem Seg.nodup (hs : Seg h l items r) : (items.map Prod.fst).Nodup := by
  induction hs with
  | nil => exact List.nodup_nil
  | cons _ hp _ ih => exact List.nodup_cons.2 ⟨hp, ih⟩

theorem Seg.of_nil (hs : Seg h l [] r) : l = r := by
  cases hs
  rfl

/-- The first cell, and the rest. -/
theorem Seg.of_cons (hs : Seg h l ((p, v) :: items) r) :
    ∃ q, l = some p ∧ h p = some ⟨v, q⟩ ∧ p ∉ items.map Prod.fst ∧ Seg h q items r := by
  cases hs with
  | cons hp hn hs => exact ⟨_, rfl, hp, hn, hs⟩

theorem Seg.mem (hs : Seg h l items r) (hp : p ∈ items.map Prod.fst) : (h p).isSome := by
  induction hs with
  | nil => cases hp
  | cons hq _ _ ih =>
    rcases List.mem_cons.1 hp with rfl | hp
    · simp [hq]
    · exact ih hp

/-- A cell elsewhere may change. -/
theorem Seg.frame (hs : Seg h l items r) (hp : p ∉ items.map Prod.fst) : Seg (Function.update h p c) l items r := by
  induction hs with
  | nil => exact .nil
  | cons hq hn _ ih =>
    obtain ⟨hne, hp⟩ := not_or.1 fun hm => hp (List.mem_cons.2 hm)
    exact .cons (by rw [Function.update_of_ne (Ne.symm hne), hq]) hn (ih hp)

theorem Seg.append (hx : Seg h l xs m) (hy : Seg h m ys r) (hd : ((xs ++ ys).map Prod.fst).Nodup) : Seg h l (xs ++ ys) r := by
  induction hx with
  | nil => exact hy
  | cons hq _ _ ih =>
    obtain ⟨hn, hd⟩ := List.nodup_cons.1 hd
    exact .cons hq hn (ih hy hd)

theorem Seg.split (hs : Seg h l (xs ++ ys) r) : ∃ m, Seg h l xs m ∧ Seg h m ys r := by
  induction xs generalizing l with
  | nil => exact ⟨l, .nil, hs⟩
  | cons e xs ih =>
    obtain ⟨q, rfl, hq, hn, hs⟩ := hs.of_cons
    obtain ⟨m, hx, hy⟩ := ih hs
    have hsub : xs.map Prod.fst ⊆ (xs ++ ys).map Prod.fst := List.map_subset _ (List.subset_append_left ..)
    exact ⟨m, .cons hq (fun hm => hn (hsub hm)) hx, hy⟩

/-- The last cell is linked to something else. -/
theorem Seg.relink (hs : Seg h l (xs ++ [(p, v)]) r) (r' : Option Nat) :
    Seg (Function.update h p (some ⟨v, r'⟩)) l (xs ++ [(p, v)]) r' := by
  obtain ⟨m, hx, hp⟩ := hs.split
  obtain ⟨q, rfl, -, -, -⟩ := hp.of_cons
  have hd := hs.nodup
  have hnot : p ∉ xs.map Prod.fst := by
    rw [List.map_append, List.nodup_append] at hd
    exact fun hm => hd.2.2 p hm p (by simp) rfl
  exact (hx.frame hnot).append (.cons (by rw [Function.update_self]) nofun .nil) hd

end Cells
