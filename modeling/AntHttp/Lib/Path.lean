import AntHttp.Lib.CString
/-!
# Paths, resolved lexically

A path is a list of moves from a place: to stay, to go to the parent or to go
down to a name. The root is its own parent; a relative place goes up as far as
it is told. What a path does is known from where it leads from nowhere in
particular: first up, then down.
-/

namespace Path

inductive Move (α : Type) where
  | stay | up | down (name : α)

/-- `dir` is listed from the inside; `ups` counts the parents above the start of a relative place. -/
structure Place (α : Type) where
  absolute : Bool
  ups : Nat
  dir : List α
  deriving DecidableEq

variable {α : Type}

/-- Where a relative path starts. -/
def here : Place α := ⟨false, 0, []⟩

def move (p : Place α) : Move α → Place α
  | .stay => p
  | .down a => { p with dir := a :: p.dir }
  | .up =>
    match p.dir with
    | _ :: dir => { p with dir }
    | [] => if p.absolute then p else { p with ups := p.ups + 1 }

def walk (p : Place α) (ms : List (Move α)) : Place α := ms.foldl move p

/-- A place is the other one or lies below it. -/
def Inside (p root : Place α) : Prop := p.absolute = root.absolute ∧ p.ups = root.ups ∧ root.dir <:+ p.dir

instance [DecidableEq α] (p root : Place α) : Decidable (Inside p root) := inferInstanceAs (Decidable (_ ∧ _))

/-- From `p` to where the relative place `r` leads. -/
def enter (p r : Place α) : Place α where
  absolute := p.absolute
  ups := if p.absolute then p.ups else p.ups + (r.ups - p.dir.length)
  dir := r.dir ++ p.dir.drop r.ups

/-! ## Walking -/

@[simp] theorem walk_nil (p : Place α) : walk p [] = p := rfl

theorem walk_append (p : Place α) (ms ms' : List (Move α)) : walk p (ms ++ ms') = walk (walk p ms) ms' :=
  List.foldl_append

@[simp] theorem enter_here (p : Place α) : enter p here = p := by
  cases p
  simp [enter, here]

theorem move_absolute (p : Place α) (m : Move α) : (move p m).absolute = p.absolute := by
  cases m with
  | stay | down => rfl
  | up =>
    simp only [move]
    split
    · rfl
    · split <;> rfl

theorem move_enter (p : Place α) {r : Place α} (hr : r.absolute = false) (m : Move α) :
    move (enter p r) m = enter p (move r m) := by
  cases m with
  | stay | down => rfl
  | up =>
    obtain ⟨abs, ups, dir⟩ := r
    subst hr
    cases dir with
    | cons a dir => rfl
    | nil =>
      -- both go on in what is left of `p`
      by_cases hlt : ups < p.dir.length
      · have hdrop := List.drop_eq_getElem_cons hlt
        simp only [move, enter, List.nil_append, hdrop, Bool.false_eq_true, if_false]
        rw [Nat.sub_eq_zero_of_le (Nat.le_of_lt hlt), Nat.sub_eq_zero_of_le hlt]
      · have hdrop : p.dir.drop ups = [] := List.drop_eq_nil_of_le (by omega)
        have hdrop' : p.dir.drop (ups + 1) = [] := List.drop_eq_nil_of_le (by omega)
        simp only [move, enter, List.nil_append, hdrop, hdrop', Bool.false_eq_true, if_false]
        by_cases ha : p.absolute
        · simp only [ha, if_true]
        · simp only [ha, Bool.false_eq_true, if_false, Place.mk.injEq, true_and, and_true]
          omega

theorem walk_absolute (p : Place α) (ms : List (Move α)) : (walk p ms).absolute = p.absolute := by
  induction ms generalizing p with
  | nil => rfl
  | cons m ms ih => exact (ih (move p m)).trans (move_absolute p m)

/-- A path leads where its own first up and then down leads. -/
theorem walk_eq (p : Place α) (ms : List (Move α)) : walk p ms = enter p (walk here ms) := by
  have hgen : ∀ r : Place α, r.absolute = false → walk (enter p r) ms = enter p (walk r ms) := by
    induction ms with
    | nil => intro r _; rfl
    | cons m ms ih =>
      intro r hr
      have hm : (move r m).absolute = false := (move_absolute r m).trans hr
      change walk (move (enter p r) m) ms = enter p (walk (move r m) ms)
      rw [move_enter p hr, ih _ hm]
  have h := hgen here rfl
  rwa [enter_here] at h

theorem move_down_inj {p q : Place α} {a b : α} : move p (.down a) = move q (.down b) ↔ p = q ∧ a = b := by
  cases p
  cases q
  simp only [move, Place.mk.injEq, List.cons.injEq]
  tauto

/-! ## Staying inside -/

/-- A list taken apart and put under other names still ends as it did when the names are the same. -/
theorem suffix_append_drop (dir names : List α) (k : Nat) : dir <:+ names ++ dir.drop k ↔ dir.take k <:+ names := by
  constructor
  · rintro ⟨t, ht⟩
    refine ⟨t, ?_⟩
    have h := ht
    rw [← List.take_append_drop k dir, ← List.append_assoc] at h
    rw [List.take_append_drop k dir] at h
    exact List.append_cancel_right h
  · rintro ⟨t, ht⟩
    refine ⟨t, ?_⟩
    rw [← ht, List.append_assoc, List.take_append_drop]

/-- A path stays inside exactly when it goes down again by the names it has gone up. -/
theorem inside_walk (p : Place α) (ms : List (Move α)) :
    Inside (walk p ms) p ↔ (p.absolute ∨ (walk here ms).ups ≤ p.dir.length) ∧
      p.dir.take (walk here ms).ups <:+ (walk here ms).dir := by
  rw [walk_eq, Inside, enter]
  rw [suffix_append_drop]
  by_cases ha : p.absolute
  · simp [ha]
  · simp only [ha, Bool.false_eq_true, if_false, true_and, false_or]
    exact and_congr_left fun _ => by omega

/-- The last name lies strictly below what the path before it stays inside. -/
theorem inside_walk_down (p : Place α) (ms : List (Move α)) (a : α) :
    (Inside (walk p (ms ++ [.down a])) p ∧ walk p (ms ++ [.down a]) ≠ p) ↔ Inside (walk p ms) p := by
  have hwalk : walk p (ms ++ [.down a]) = { walk p ms with dir := a :: (walk p ms).dir } := walk_append ..
  rw [hwalk]
  constructor
  · rintro ⟨⟨ha, hu, hd⟩, hne⟩
    refine ⟨ha, hu, (List.suffix_cons_iff.1 hd).resolve_left fun he => hne ?_⟩
    exact congr (congr (congrArg Place.mk ha) hu) he.symm
  · rintro ⟨ha, hu, hd⟩
    refine ⟨⟨ha, hu, hd.trans (List.suffix_cons ..)⟩, fun he => ?_⟩
    have hlen := hd.length_le
    have hcons := congrArg (fun q : Place α => q.dir.length) he
    simp only [List.length_cons] at hcons
    omega

/-! ## Text -/

open CString

/-- An empty component and a dot lead nowhere. -/
def moveOf (c : Bytes) : Move Bytes :=
  if c = [] ∨ c = [46] then .stay else if c = [46, 46] then .up else .down c

/-- The moves of a path's components. -/
def moves (path : Bytes) : List (Move Bytes) := (split 47 path).map moveOf

/-- The place a path names, as seen from the working directory if it is relative. -/
def resolve (path : Bytes) : Place Bytes := walk ⟨path.head? = some 47, 0, []⟩ (moves path)

/-- A path below a directory goes on from there. -/
theorem resolve_append {dir : Bytes} (hd : dir ≠ []) (rest : Bytes) :
    resolve (dir ++ [47] ++ rest) = walk (resolve dir) (moves rest) := by
  have hhead : (dir ++ 47 :: rest).head? = dir.head? := by
    cases dir with
    | nil => exact absurd rfl hd
    | cons c dir => rfl
  rw [List.append_assoc, List.singleton_append, resolve, resolve, hhead, ← walk_append]
  rw [moves, moves, moves, split_append, List.map_append]

end Path
