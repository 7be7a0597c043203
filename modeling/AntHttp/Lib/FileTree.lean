import AntHttp.Lib.Path
import Mathlib.Data.List.Nodup
/-!
# A tree of files

Directories, files and symbolic links under a root. A path is walked from a
place, name by name; a link is followed to where its own path leads, and only so
many links are followed. An entry can be deleted if it is no directory or an
empty one.
-/

open CString
open Path (Move moveOf moves)

/-- Where an entry is: its name, then those of the directories around it. -/
abbrev Loc := List Bytes

namespace FileTree

inductive Kind where
  | file
  | dir
  | link (target : Bytes)
  deriving DecidableEq

/-- A name that an entry can have. -/
def Proper (name : Bytes) : Prop := 47 ∉ name ∧ name ≠ [] ∧ name ≠ [46] ∧ name ≠ [46, 46]

instance (name : Bytes) : Decidable (Proper name) := inferInstanceAs (Decidable (_ ∧ _))

def kindIn (entries : List (Loc × Kind)) : Loc → Option Kind
  | [] => some .dir
  | p => (entries.find? fun e => e.1 = p).map Prod.snd

end FileTree

structure FileTree where
  entries : List (Loc × FileTree.Kind)
  nodup : (entries.map Prod.fst).Nodup
  proper : ∀ e ∈ entries, e.1 ≠ [] ∧ ∀ name ∈ e.1, FileTree.Proper name
  nested : ∀ e ∈ entries, FileTree.kindIn entries e.1.tail = some .dir

namespace FileTree

def kindAt (t : FileTree) (p : Loc) : Option Kind := kindIn t.entries p

/-- The names in a directory. -/
def names (t : FileTree) (dir : Loc) : List Bytes :=
  (t.entries.filter fun e => e.1.tail = dir).filterMap fun e => e.1.head?

def childless (t : FileTree) (p : Loc) : Bool := (t.names p).isEmpty

/-! ## Walking -/

/-- Where a path starts when it is seen from a directory. -/
def start (dir : Loc) (path : Bytes) : Loc := if path.head? = some 47 then [] else dir

/-- A walk, with what to do at a link. The result is the place and how many
links may still be followed. -/
def walkWith (t : FileTree) (links : Nat) (follow : Loc → List (Move Bytes) → Option (Loc × Nat)) :
    Loc → List (Move Bytes) → Option (Loc × Nat)
  | p, [] => some (p, links)
  | p, m :: ms =>
    if t.kindAt p = some .dir then
      match m with
      | .stay => walkWith t links follow p ms
      | .up => walkWith t links follow p.tail ms
      | .down name =>
        match t.kindAt (name :: p) with
        | none => none
        | some (.link target) => if target = [] then none else follow (start p target) (moves target ++ ms)
        | some _ => walkWith t links follow (name :: p) ms
    else none

def walk (t : FileTree) : Nat → Loc → List (Move Bytes) → Option (Loc × Nat)
  | 0 => walkWith t 0 fun _ _ => none
  | links + 1 => walkWith t (links + 1) (walk t links)

/-! ## Entries -/

section

variable {t t' : FileTree} {p q : Loc} {kind : Kind} {name : Bytes}

theorem kindAt_iff (h : p ≠ []) : t.kindAt p = some kind ↔ (p, kind) ∈ t.entries := by
  obtain ⟨name, dir, rfl⟩ := List.exists_cons_of_ne_nil h
  rw [kindAt, kindIn, Option.map_eq_some_iff]
  · constructor
    · rintro ⟨e, he, rfl⟩
      have hp : e.1 = name :: dir := by simpa using List.find?_some he
      exact hp ▸ List.mem_of_find?_eq_some he
    · intro hm
      cases hf : t.entries.find? fun e => e.1 = name :: dir with
      | none =>
        have hnot := List.find?_eq_none.1 hf _ hm
        simp at hnot
      | some e =>
        have he : e.1 = name :: dir := by simpa using List.find?_some hf
        have hsame := List.inj_on_of_nodup_map t.nodup (List.mem_of_find?_eq_some hf) hm he
        exact ⟨e, rfl, by rw [hsame]⟩
  · exact h

theorem mem_names : name ∈ t.names p ↔ t.kindAt (name :: p) ≠ none := by
  rw [names, List.mem_filterMap, Option.ne_none_iff_exists']
  constructor
  · rintro ⟨e, he, hname⟩
    obtain ⟨he, hp⟩ := List.mem_filter.1 he
    obtain ⟨n, dir, hloc⟩ := List.exists_cons_of_ne_nil (t.proper e he).1
    rw [hloc, List.head?_cons, Option.some.injEq] at hname
    rw [hloc, List.tail_cons, decide_eq_true_eq] at hp
    refine ⟨e.2, (kindAt_iff (List.cons_ne_nil _ _)).2 ?_⟩
    rw [← hname, ← hp, ← hloc]
    exact he
  · rintro ⟨kind, hk⟩
    have hm := (kindAt_iff (List.cons_ne_nil _ _)).1 hk
    exact ⟨_, List.mem_filter.2 ⟨hm, by simp⟩, rfl⟩

theorem proper_of_mem (h : name ∈ t.names p) : Proper name := by
  obtain ⟨kind, hk⟩ := Option.ne_none_iff_exists'.1 (mem_names.1 h)
  exact (t.proper _ ((kindAt_iff (List.cons_ne_nil _ _)).1 hk)).2 name List.mem_cons_self

/-- What has an entry in it is a directory. -/
theorem kindAt_dir (h : t.kindAt (name :: p) ≠ none) : t.kindAt p = some .dir := by
  obtain ⟨kind, hk⟩ := Option.ne_none_iff_exists'.1 h
  exact t.nested _ ((kindAt_iff (List.cons_ne_nil _ _)).1 hk)

theorem childless_iff : t.childless p = true ↔ ∀ name, t.kindAt (name :: p) = none := by
  rw [childless, List.isEmpty_iff, List.eq_nil_iff_forall_not_mem]
  exact forall_congr' fun name => by rw [mem_names, not_not]

theorem childless_eq_false : t.childless p = false ↔ ∃ name, t.kindAt (name :: p) ≠ none := by
  rw [← Bool.not_eq_true, childless_iff, not_forall]

/-! ## Deleting -/

theorem kindIn_filter (entries : List (Loc × Kind)) (p q : Loc) :
    kindIn (entries.filter fun e => e.1 ≠ p) q = if q = p ∧ q ≠ [] then none else kindIn entries q := by
  cases q with
  | nil => simp [kindIn]
  | cons name dir =>
    simp only [kindIn, List.find?_filter, ne_eq, reduceCtorEq, not_false_eq_true, and_true]
    split
    · rename_i hp
      rw [Option.map_eq_none_iff, List.find?_eq_none]
      intro e _
      simp [hp]
    · rename_i hp
      congr 2
      funext e
      by_cases he : e.1 = name :: dir
      · simp [he, hp]
      · simp [he]

/-- The tree without an entry that has none in it. -/
def erase (t : FileTree) (p : Loc) (h : t.childless p = true) : FileTree where
  entries := t.entries.filter fun e => e.1 ≠ p
  nodup := t.nodup.sublist (List.filter_sublist.map _)
  proper e he := t.proper e (List.mem_of_mem_filter he)
  nested e he := by
    have hm := List.mem_of_mem_filter he
    have hne : e.1.tail ≠ p := by
      intro hp
      obtain ⟨name, dir, hloc⟩ := List.exists_cons_of_ne_nil (t.proper e hm).1
      have hnone := childless_iff.1 h name
      rw [← hp, hloc, List.tail_cons, ← hloc] at hnone
      have hsome := (kindAt_iff (t.proper e hm).1).2 (show (e.1, e.2) ∈ t.entries from hm)
      rw [hsome] at hnone
      cases hnone
    rw [kindIn_filter, if_neg fun hp => hne hp.1]
    exact t.nested e hm

/-- An entry is deleted unless there is something in it. -/
def delete (t : FileTree) (p : Loc) : FileTree := if h : t.childless p = true then t.erase p h else t

theorem kindAt_delete (t : FileTree) (p q : Loc) :
    (t.delete p).kindAt q = if t.childless p = true ∧ q = p ∧ q ≠ [] then none else t.kindAt q := by
  unfold delete
  split
  · rename_i h
    simp only [h, true_and]
    exact kindIn_filter ..
  · rename_i h
    rw [if_neg fun hc => h hc.1]

/-! ## Trees with fewer entries -/

/-- Nothing is there that was not. -/
def Within (t' t : FileTree) : Prop := ∀ p kind, t'.kindAt p = some kind → t.kindAt p = some kind

theorem Within.refl (t : FileTree) : Within t t := fun _ _ h => h

theorem Within.trans {t'' : FileTree} (h : Within t'' t') (h' : Within t' t) : Within t'' t :=
  fun p kind hk => h' p kind (h p kind hk)

theorem delete_within (t : FileTree) (p : Loc) : Within (t.delete p) t := by
  intro q kind hk
  rw [kindAt_delete] at hk
  split at hk
  · cases hk
  · exact hk

theorem Within.ne_none (h : Within t' t) (hk : t'.kindAt p ≠ none) : t.kindAt p ≠ none := by
  obtain ⟨kind, hk⟩ := Option.ne_none_iff_exists'.1 hk
  rw [h p kind hk]
  exact Option.some_ne_none kind

/-! ## Walks -/

variable {links : Nat} {ms ms' : List (Move Bytes)} {r : Loc × Nat}

theorem walk_nil (t : FileTree) (links : Nat) (p : Loc) : t.walk links p [] = some (p, links) := by
  cases links <;> rfl

/-- One link less. -/
def followed (t : FileTree) : Nat → Loc → List (Move Bytes) → Option (Loc × Nat)
  | 0 => fun _ _ => none
  | links + 1 => t.walk links

theorem walk_eq (t : FileTree) (links : Nat) : t.walk links = t.walkWith links (t.followed links) := by
  cases links <;> rfl

/-- What happens at a name. -/
def enter (t : FileTree) (links : Nat) (p : Loc) (name : Bytes) (ms : List (Move Bytes)) : Option (Loc × Nat) :=
  match t.kindAt (name :: p) with
  | none => none
  | some (.link target) => if target = [] then none else t.followed links (start p target) (moves target ++ ms)
  | some _ => t.walk links (name :: p) ms

theorem walk_cons (t : FileTree) (links : Nat) (p : Loc) (m : Move Bytes) (ms : List (Move Bytes)) :
    t.walk links p (m :: ms) = if t.kindAt p = some .dir then
      match m with
      | .stay => t.walk links p ms
      | .up => t.walk links p.tail ms
      | .down name => t.enter links p name ms
    else none := by
  unfold enter
  rw [walk_eq]
  cases m <;> rfl

/-- Walks by the links they may follow, then by what is left to walk. -/
theorem walk_induction {motive : Nat → Loc → List (Move Bytes) → Prop} (nil : ∀ links p, motive links p [])
    (cons : ∀ links p m ms, (∀ q, motive links q ms) → (∀ l < links, ∀ q ms, motive l q ms) → motive links p (m :: ms))
    (links : Nat) (p : Loc) (ms : List (Move Bytes)) : motive links p ms := by
  induction links using Nat.strong_induction_on generalizing p ms with
  | _ links ih =>
    induction ms generalizing p with
    | nil => exact nil links p
    | cons m ms ihm => exact cons links p m ms ihm ih

/-- A walk goes on where its first part has led. -/
theorem walk_append (t : FileTree) (links : Nat) (p : Loc) (ms ms' : List (Move Bytes)) :
    t.walk links p (ms ++ ms') = (t.walk links p ms).bind fun r => t.walk r.2 r.1 ms' := by
  induction links, p, ms using walk_induction with
  | nil links p => rw [walk_nil, List.nil_append, Option.bind_some]
  | cons links p m ms ih hlt =>
    rw [List.cons_append, walk_cons, walk_cons]
    by_cases hd : t.kindAt p = some .dir
    · rw [if_pos hd, if_pos hd]
      cases m with
      | stay => exact ih p
      | up => exact ih p.tail
      | down name =>
        dsimp only
        unfold enter
        cases t.kindAt (name :: p) with
        | none => rfl
        | some kind =>
          cases kind with
          | file | dir => exact ih (name :: p)
          | link target =>
            by_cases ht : target = []
            · simp only [ht, if_true, Option.bind_none]
            · simp only [ht, if_false, ← List.append_assoc]
              cases links with
              | zero => rfl
              | succ links => exact hlt links (Nat.lt_succ_self links) _ _
    · rw [if_neg hd, if_neg hd]
      rfl

/-- What is found in a tree with fewer entries is found in the whole. -/
theorem walk_within (h : Within t' t) (hw : t'.walk links p ms = some r) : t.walk links p ms = some r := by
  induction links, p, ms using walk_induction with
  | nil links p => rwa [walk_nil] at hw ⊢
  | cons links p m ms ih hlt =>
    rw [walk_cons] at hw ⊢
    split at hw
    · rename_i hd
      rw [if_pos (h p .dir hd)]
      cases m with
      | stay => exact ih p hw
      | up => exact ih p.tail hw
      | down name =>
        dsimp only at hw ⊢
        unfold enter at hw ⊢
        cases hk : t'.kindAt (name :: p) with
        | none =>
          rw [hk] at hw
          cases hw
        | some kind =>
          rw [hk] at hw
          rw [h _ _ hk]
          cases kind with
          | file | dir => exact ih (name :: p) hw
          | link target =>
            dsimp only at hw ⊢
            split at hw
            · cases hw
            · rename_i ht
              rw [if_neg ht]
              cases links with
              | zero => cases hw
              | succ links => exact hlt links (Nat.lt_succ_self links) _ _ hw
    · cases hw

theorem kindAt_tail (h : t.kindAt p ≠ none) : t.kindAt p.tail = some .dir := by
  cases p with
  | nil => rfl
  | cons name dir => exact kindAt_dir h

theorem kindAt_start (h : t.kindAt p ≠ none) (path : Bytes) : t.kindAt (start p path) ≠ none := by
  unfold start
  split
  · exact Option.some_ne_none Kind.dir
  · exact h

/-- A walk goes on from somewhere in the tree, with less to walk or with fewer links. -/
theorem walk_step {m : Move Bytes} (hw : t.walk links p (m :: ms) = some r) :
    ∃ l q ms', t.walk l q ms' = some r ∧ t.kindAt q ≠ none ∧ ((l = links ∧ ms' = ms) ∨ l < links) := by
  rw [walk_cons] at hw
  split at hw
  · rename_i hdir
    have hp : t.kindAt p ≠ none := by
      rw [hdir]
      exact Option.some_ne_none _
    cases m with
    | stay => exact ⟨links, p, ms, hw, hp, .inl ⟨rfl, rfl⟩⟩
    | up =>
      refine ⟨links, p.tail, ms, hw, ?_, .inl ⟨rfl, rfl⟩⟩
      rw [kindAt_tail hp]
      exact Option.some_ne_none _
    | down name =>
      dsimp only at hw
      unfold enter at hw
      split at hw
      · cases hw
      · rename_i target hk
        split at hw
        · cases hw
        · cases links with
          | zero => cases hw
          | succ l => exact ⟨l, start p target, _, hw, kindAt_start hp target, .inr (Nat.lt_succ_self l)⟩
      · rename_i kind hne hk
        refine ⟨links, name :: p, ms, hw, ?_, .inl ⟨rfl, rfl⟩⟩
        rw [hk]
        exact Option.some_ne_none _
  · cases hw

theorem walk_links (hw : t.walk links p ms = some r) : r.2 ≤ links := by
  induction links, p, ms using walk_induction with
  | nil links p =>
    rw [walk_nil] at hw
    cases hw
    exact le_rfl
  | cons links p m ms ih hlt =>
    obtain ⟨l, q, ms', hw', -, ⟨rfl, rfl⟩ | hl⟩ := walk_step hw
    · exact ih q hw'
    · exact (hlt l hl q ms' hw').trans (Nat.le_of_lt hl)

/-- The last name of a walk is looked up where the walk before it has led. -/
theorem walk_name (hw : t.walk links p (ms ++ [.down name]) = some r) :
    ∃ q, t.walk links p ms = some q ∧ t.kindAt (name :: q.1) ≠ none ∧ t.enter q.2 q.1 name [] = some r := by
  rw [walk_append, Option.bind_eq_some_iff] at hw
  obtain ⟨q, hq, hw⟩ := hw
  rw [walk_cons] at hw
  split at hw
  · refine ⟨q, hq, fun hnone => ?_, hw⟩
    dsimp only at hw
    unfold enter at hw
    rw [hnone] at hw
    cases hw
  · cases hw

theorem enter_dir (h : t.kindAt (name :: p) = some .dir) : t.enter links p name ms = t.walk links (name :: p) ms := by
  unfold enter
  rw [h]

/-- A name that is no link is entered, a link costs one. -/
theorem enter_cases (he : t.enter links p name [] = some r) :
    (r = (name :: p, links) ∧ ∀ target, t.kindAt (name :: p) ≠ some (.link target)) ∨
      (r.2 < links ∧ ∃ target, t.kindAt (name :: p) = some (.link target)) := by
  unfold enter at he
  split at he
  · cases he
  · rename_i target hk
    right
    split at he
    · cases he
    · cases links with
      | zero => cases he
      | succ links => exact ⟨Nat.lt_succ_of_le (walk_links he), target, hk⟩
  · rename_i kind hne hk
    left
    rw [walk_nil] at he
    cases he
    refine ⟨rfl, fun target ht => hne target ?_⟩
    rw [hk] at ht
    exact Option.some.inj ht

/-- A walk from somewhere in the tree leads somewhere in the tree. -/
theorem walk_found (h : t.kindAt p ≠ none) (hw : t.walk links p ms = some r) : t.kindAt r.1 ≠ none := by
  induction links, p, ms using walk_induction with
  | nil links p =>
    rw [walk_nil] at hw
    cases hw
    exact h
  | cons links p m ms ih hlt =>
    obtain ⟨l, q, ms', hw', hq, ⟨rfl, rfl⟩ | hl⟩ := walk_step hw
    · exact ih q hq hw'
    · exact hlt l hl q ms' hq hw'

/-- So does one from elsewhere, if it is a walk at all. -/
theorem walk_leads (hms : ms ≠ []) (hw : t.walk links p ms = some r) : t.kindAt r.1 ≠ none := by
  obtain ⟨m, ms, rfl⟩ := List.exists_cons_of_ne_nil hms
  obtain ⟨l, q, ms', hw', hq, -⟩ := walk_step hw
  exact walk_found hq hw'

/-- To stay in a directory. -/
theorem walk_stays (h : t.kindAt p = some .dir) (n : Nat) : t.walk links p (List.replicate n .stay) = some (p, links) := by
  induction n with
  | zero => exact walk_nil t links p
  | succ n ih => rw [List.replicate_succ, walk_cons, if_pos h, ih]

/-! ## Depth -/

def height (t : FileTree) : Nat := (t.entries.map fun e => e.1.length).foldr max 0

theorem length_le_height (h : t.kindAt p ≠ none) : p.length ≤ t.height := by
  have hle (l : List Nat) (n : Nat) (hn : n ∈ l) : n ≤ l.foldr max 0 := by
    induction l with
    | nil => cases hn
    | cons m l ih =>
      rcases List.mem_cons.1 hn with rfl | hn
      · exact le_max_left ..
      · exact (ih hn).trans (le_max_right ..)
  by_cases hp : p = []
  · rw [hp]
    exact Nat.zero_le _
  · obtain ⟨kind, hk⟩ := Option.ne_none_iff_exists'.1 h
    exact hle _ _ (List.mem_map_of_mem ((kindAt_iff hp).1 hk))

end

end FileTree
