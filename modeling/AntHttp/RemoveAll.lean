import AntHttp.Lib.FileTree
/-!
# Removing a directory (`removeAll` in `lib/utils.c`)

`stat` follows symbolic links, so `removeAll` goes down into the directory that
a link leads to, wherever that is. The tree here is the one under the root; the
process sees it from its working directory, may open some directories and may
remove some entries.
-/

namespace AntHttp

open CString FileTree
open Path (Move moveOf moves)

structure Process where
  cwd : Loc
  /-- The links that are followed in one path. -/
  maxLinks : Nat
  opens : Loc → Bool
  removes : Loc → Bool

namespace Process

/-! ## The code -/

/-- `stat`: the place of what the path leads to, and the links left. -/
def stat (pr : Process) (t : FileTree) (path : Bytes) : Option (Loc × Nat) :=
  if path = [] then none else t.walk pr.maxLinks (start pr.cwd path) (moves path)

/-- `remove` does not follow the last name. With a slash behind it the name has
to be that of a directory. -/
def remove (pr : Process) (t : FileTree) (path : Bytes) : FileTree :=
  match (split 47 path).reverse.dropWhile (· = []) with
  | [] => t
  | name :: rest =>
    match moveOf name, t.walk pr.maxLinks (start pr.cwd path) (rest.reverse.map moveOf) with
    | .down name, some (dir, _) =>
      if pr.removes (name :: dir) ∧ (path.getLast? = some 47 → t.kindAt (name :: dir) = some .dir) then
        t.delete (name :: dir)
      else t
    | _, _ => t

def removeAll (pr : Process) : Nat → FileTree → Bytes → Bool → Option FileTree
  | 0, _, _, _ => none
  | fuel + 1, t, path, mode =>
    match pr.stat t path with
    | none => some t
    | some (p, _) => do
      let t ← if t.kindAt p = some .dir ∧ pr.opens p then
          ([46] :: [46, 46] :: t.names p).foldlM (fun t name =>
            if name = [46] ∨ name = [46, 46] then some t else removeAll pr fuel t (path ++ 47 :: name) true) t
        else some t
      return if mode then pr.remove t path else t

/-! ## What it is for -/

/-- The entry that a path names, its last name not followed. -/
def lstat (pr : Process) (t : FileTree) (path : Bytes) : Option Loc :=
  match (moves path).getLast? with
  | some (.down name) =>
    (t.walk pr.maxLinks (start pr.cwd path) (moves path).dropLast).map fun r => name :: r.1
  | _ => (pr.stat t path).map Prod.fst

/-- What may be removed: what lies below the entry, and itself if `mode` says so. -/
def Own (own : Loc) (mode : Bool) (q : Loc) : Prop := own <:+ q ∧ (q = own → mode = true)

/-- The path that goes on by these names. -/
def joined (path : Bytes) (names : List Bytes) : Bytes := names.foldl (fun path name => path ++ 47 :: name) path

/-- The names that `removeAll` goes down by, as long as nothing is removed. -/
inductive Descends (pr : Process) (t : FileTree) (path : Bytes) : List Bytes → Prop where
  | self : Descends pr t path []
  | entry {names dir links name} : Descends pr t path names → pr.stat t (joined path names) = some (dir, links) →
      pr.opens dir = true → name ∈ t.names dir → Descends pr t path (names ++ [name])

/-- What is gone down to is the path's own, or it is a directory with something in it,
or it cannot be removed. -/
def Confined (pr : Process) (t : FileTree) (path : Bytes) (mode : Bool) : Prop :=
  ∀ own, pr.lstat t path = some own → ∀ names name dir links, Descends pr t path (names ++ [name]) →
    pr.stat t (joined path names) = some (dir, links) → pr.stat t (joined path (names ++ [name])) ≠ none →
      Own own mode (name :: dir) ∨ t.childless (name :: dir) = false ∨ pr.removes (name :: dir) = false

/-! ## Paths -/

section

variable {pr : Process} {t t' : FileTree} {path name : Bytes} {names : List Bytes} {r : Loc × Nat}

theorem moves_name (h : Proper name) : moves name = [.down name] := by
  obtain ⟨hslash, hne, hdot, hdots⟩ := h
  rw [moves, split_eq_self hslash, List.map_singleton, moveOf, if_neg (by simp [hne, hdot]), if_neg hdots]

theorem moves_below (path : Bytes) (h : Proper name) : moves (path ++ 47 :: name) = moves path ++ [.down name] := by
  rw [← moves_name h, moves, moves, moves, split_append, List.map_append]

theorem start_below (cwd : Loc) (h : path ≠ []) (name : Bytes) : start cwd (path ++ 47 :: name) = start cwd path := by
  cases path with
  | nil => exact absurd rfl h
  | cons c path => rfl

theorem joined_append (path : Bytes) (names : List Bytes) (name : Bytes) :
    joined path (names ++ [name]) = joined path names ++ 47 :: name := by
  rw [joined, List.foldl_append]
  rfl

theorem joined_ne_nil (h : path ≠ []) (names : List Bytes) : joined path names ≠ [] := by
  induction names using List.reverseRecOn with
  | nil => exact h
  | append_singleton names name _ =>
    rw [joined_append]
    simp

theorem Descends.proper (h : Descends pr t path names) : ∀ n ∈ names, Proper n := by
  induction h with
  | self => exact fun n hn => absurd hn List.not_mem_nil
  | entry _ _ _ hname ih =>
    intro n hn
    rcases List.mem_append.1 hn with hn | hn
    · exact ih n hn
    · rw [List.mem_singleton.1 hn]
      exact proper_of_mem hname

theorem Descends.init (h : Descends pr t path (names ++ [name])) : Descends pr t path names := by
  generalize hall : names ++ [name] = all at h
  cases h with
  | self => simp at hall
  | entry h =>
    obtain ⟨rfl, -⟩ := List.append_inj' hall rfl
    exact h

/-- A path that is gone on from is walked to its end first. -/
theorem stat_joined (h : path ≠ []) (hnames : ∀ n ∈ names, Proper n) : pr.stat t (joined path names) =
    t.walk pr.maxLinks (start pr.cwd path) (moves path ++ names.map .down) := by
  have hgen : start pr.cwd (joined path names) = start pr.cwd path ∧
      moves (joined path names) = moves path ++ names.map .down := by
    induction names using List.reverseRecOn with
    | nil => simp [joined]
    | append_singleton names name ih =>
      obtain ⟨hstart, hmoves⟩ := ih fun n hn => hnames n (List.mem_append_left _ hn)
      rw [joined_append, start_below _ (joined_ne_nil h names),
        moves_below _ (hnames name (List.mem_append_right _ (List.mem_singleton_self _))), hstart, hmoves]
      simp
  rw [stat, if_neg (joined_ne_nil h names), hgen.1, hgen.2]

theorem stat_ne_nil (h : pr.stat t path = some r) : path ≠ [] := by
  rintro rfl
  cases h

theorem stat_within (h : Within t' t) (hs : pr.stat t' path = some r) : pr.stat t path = some r := by
  have hne := stat_ne_nil hs
  rw [stat, if_neg hne] at hs ⊢
  exact walk_within h hs

/-- One name further. -/
theorem stat_below (h : Proper name) (hs : pr.stat t (path ++ 47 :: name) = some r) (hne : path ≠ []) :
    ∃ q, pr.stat t path = some q ∧ t.kindAt (name :: q.1) ≠ none ∧ t.enter q.2 q.1 name [] = some r := by
  rw [stat, if_neg (by simp), start_below _ hne, moves_below _ h] at hs
  rw [stat, if_neg hne]
  exact walk_name hs

/-- `remove` of a path below another one. -/
theorem remove_below (hne : path ≠ []) (h : Proper name) : pr.remove t (path ++ 47 :: name) =
    match pr.stat t path with
    | some (dir, _) => if pr.removes (name :: dir) = true then t.delete (name :: dir) else t
    | none => t := by
  obtain ⟨hslash, hnil, hdot, hdots⟩ := h
  have hrev : (split 47 (path ++ 47 :: name)).reverse.dropWhile (· = []) = name :: (split 47 path).reverse := by
    rw [split_append, split_eq_self hslash, List.reverse_append, List.reverse_singleton, List.singleton_append,
      List.dropWhile_cons_of_neg (by simp [hnil])]
  have hlast : (path ++ 47 :: name).getLast? ≠ some 47 := by
    rw [List.append_cons, List.getLast?_append_of_ne_nil _ hnil]
    exact fun hl => hslash (List.mem_of_getLast? hl)
  have hmove : moveOf name = .down name := by
    rw [moveOf, if_neg (by simp [hnil, hdot]), if_neg hdots]
  unfold remove
  rw [hrev]
  dsimp only
  rw [hmove, List.reverse_reverse, start_below _ hne, stat, if_neg hne, moves]
  cases t.walk pr.maxLinks (start pr.cwd path) ((split 47 path).map moveOf) with
  | none => rfl
  | some q =>
    have hiff : (pr.removes (name :: q.1) = true ∧
        ((path ++ 47 :: name).getLast? = some 47 → t.kindAt (name :: q.1) = some .dir)) ↔
        pr.removes (name :: q.1) = true := and_iff_left fun hl => absurd hl hlast
    simp only [hiff]

theorem moves_ne_nil (path : Bytes) : moves path ≠ [] := by
  rw [moves]
  simpa using split_ne_nil 47 path

/-! ### The entry of a path -/

variable {own : Loc} {ms : List (Move Bytes)}

theorem lstat_cases (h : pr.lstat t path = some own) :
    (∃ init name q, moves path = init ++ [.down name] ∧ t.walk pr.maxLinks (start pr.cwd path) init = some q ∧
      own = name :: q.1) ∨
      ∃ r, pr.stat t path = some r ∧ own = r.1 ∧ ∀ name, (moves path).getLast? ≠ some (.down name) := by
  unfold lstat at h
  split at h
  · rename_i name hlast
    obtain ⟨q, hq, rfl⟩ := Option.map_eq_some_iff.1 h
    have hmoves : moves path = (moves path).dropLast ++ [.down name] :=
      (List.dropLast_append_getLast? _ hlast).symm
    exact .inl ⟨_, name, q, hmoves, hq, rfl⟩
  · rename_i hlast
    obtain ⟨r, hr, rfl⟩ := Option.map_eq_some_iff.1 h
    exact .inr ⟨r, hr, rfl, hlast⟩

theorem lstat_of_stat (h : pr.stat t path = some r) : ∃ own, pr.lstat t path = some own := by
  unfold lstat
  split
  · rename_i name hlast
    have hmoves : moves path = (moves path).dropLast ++ [.down name] :=
      (List.dropLast_append_getLast? _ hlast).symm
    rw [stat, if_neg (stat_ne_nil h), hmoves] at h
    obtain ⟨q, hq, -⟩ := walk_name h
    exact ⟨_, by rw [hq]; rfl⟩
  · exact ⟨_, by rw [h]; rfl⟩

theorem lstat_ne_nil (h : pr.lstat t path = some own) : path ≠ [] := by
  rintro rfl
  cases h

/-- As long as the path leads somewhere its entry is there. -/
theorem own_present (h : Within t' t) (hown : pr.lstat t path = some own)
    (hw : t'.walk pr.maxLinks (start pr.cwd path) (moves path ++ ms) = some r) : t'.kindAt own ≠ none := by
  rw [walk_append, Option.bind_eq_some_iff] at hw
  obtain ⟨q, hq, -⟩ := hw
  rcases lstat_cases hown with ⟨init, name, q₀, hmoves, hq₀, rfl⟩ | ⟨r₀, hr₀, rfl, -⟩
  · rw [hmoves] at hq
    obtain ⟨q', hq', hk, -⟩ := walk_name hq
    have hsame := walk_within h hq'
    rw [hq₀] at hsame
    cases hsame
    exact hk
  · have hsame := walk_within h hq
    rw [stat, if_neg (stat_ne_nil hr₀)] at hr₀
    rw [hr₀] at hsame
    cases hsame
    exact walk_leads (moves_ne_nil path) hq

/-- A path whose entry is a directory leads to it. -/
theorem own_dir (hown : pr.lstat t path = some own) (hk : t.kindAt own = some .dir) (hs : pr.stat t path = some r) :
    r.1 = own := by
  rcases lstat_cases hown with ⟨init, name, q₀, hmoves, hq₀, rfl⟩ | ⟨r₀, hr₀, rfl, -⟩
  · rw [stat, if_neg (stat_ne_nil hs), hmoves] at hs
    obtain ⟨q, hq, -, he⟩ := walk_name hs
    rw [hq₀] at hq
    cases hq
    rcases enter_cases he with ⟨rfl, -⟩ | ⟨-, target, hlink⟩
    · rfl
    · rw [hk] at hlink
      cases hlink
  · rw [hr₀] at hs
    cases hs
    rfl

end

/-! ## Removing one entry -/

/-- Everything that is not the path's own is still there. -/
structure Keeps (t t' : FileTree) (own : Loc) (mode : Bool) : Prop where
  within : Within t' t
  kept : ∀ q, t.kindAt q ≠ none → ¬ Own own mode q → t'.kindAt q ≠ none

section

variable {pr : Process} {t t' : FileTree} {path name : Bytes} {names : List Bytes} {own : Loc} {mode : Bool}

theorem Keeps.delete_own (h : Keeps t t' own mode) {q : Loc} (hq : Own own mode q) : Keeps t (t'.delete q) own mode where
  within := (delete_within t' q).trans h.within
  kept p hp hnot := by
    rw [kindAt_delete, if_neg]
    · exact h.kept p hp hnot
    · rintro ⟨-, rfl, -⟩
      exact hnot hq

theorem Keeps.delete_full (h : Keeps t t' own mode) {q : Loc} (hq : t'.childless q = false) :
    Keeps t (t'.delete q) own mode := by
  rwa [delete, dif_neg (by simp [hq])]

/-- What leads on from the path leads through what is in its entry. -/
theorem own_full (h : Within t' t) (hown : pr.lstat t path = some own) (hk : t.kindAt own = some .dir)
    (hnames : ∀ n ∈ names, Proper n) {r : Loc × Nat} (hs : pr.stat t' (joined path names) = some r) (hr : r.1 ≠ own) :
    t'.childless own = false := by
  have hne := lstat_ne_nil hown
  have hw := hs
  rw [stat_joined hne hnames] at hw
  cases names with
  | nil => exact absurd (own_dir hown hk (stat_within h hs)) hr
  | cons n names =>
    rw [List.map_cons, List.append_cons, walk_append, Option.bind_eq_some_iff] at hw
    obtain ⟨q, hq, -⟩ := hw
    obtain ⟨q', hq', hn, -⟩ := walk_name hq
    have hpath : pr.stat t' path = some q' := by rw [stat, if_neg hne, hq']
    rw [own_dir hown hk (stat_within h hpath)] at hn
    exact childless_eq_false.2 ⟨n, hn⟩

/-- A directory that is not the path's own keeps something of what is in it. -/
theorem Keeps.full (h : Keeps t t' own mode) (hown : pr.lstat t path = some own)
    (hnames : ∀ n ∈ names, Proper n) {r : Loc × Nat} (hs : pr.stat t' (joined path names) = some r)
    (hq : ¬ Own own mode (name :: r.1)) (hfull : t.childless (name :: r.1) = false) :
    t'.childless (name :: r.1) = false := by
  obtain ⟨m, hm⟩ := childless_eq_false.1 hfull
  by_contra hless
  have hnone := childless_iff.1 ((Bool.not_eq_false _).mp hless)
  -- what was in it is gone, so it was the path's own
  have howned : Own own mode (m :: name :: r.1) := by
    by_contra hnot
    exact h.kept _ hm hnot (hnone m)
  rcases List.suffix_cons_iff.1 howned.1 with heq | hsuffix
  · rw [stat_joined (lstat_ne_nil hown) hnames] at hs
    exact own_present h.within hown hs (heq ▸ hnone m)
  · have heq : name :: r.1 = own := by
      by_contra hneq
      exact hq ⟨hsuffix, fun he => absurd he hneq⟩
    have hout : r.1 ≠ own := by
      intro he
      have hlen := congrArg List.length (heq.trans he.symm)
      simp at hlen
    rw [heq] at hless
    exact hless (own_full h.within hown (heq ▸ kindAt_dir hm) hnames hs hout)

/-- The path and a name in what it leads to. -/
theorem Keeps.remove_below (h : Keeps t t' own mode) (hconf : Confined pr t path mode)
    (hown : pr.lstat t path = some own) (hd : Descends pr t path (names ++ [name]))
    (hstat : pr.stat t (joined path (names ++ [name])) ≠ none) :
    Keeps t (pr.remove t' (joined path (names ++ [name]))) own mode := by
  have hname := hd.proper name (List.mem_append_right _ (List.mem_singleton_self _))
  rw [joined_append, Process.remove_below (joined_ne_nil (lstat_ne_nil hown) names) hname]
  cases hs : pr.stat t' (joined path names) with
  | none => exact h
  | some r =>
    dsimp only
    split
    · rename_i hremoves
      by_cases hq : Own own mode (name :: r.1)
      · exact h.delete_own hq
      · apply h.delete_full
        rcases hconf own hown names name r.1 r.2 hd (stat_within h.within hs) hstat with howned | hfull | hkept
        · exact absurd howned hq
        · exact h.full hown hd.init.proper hs hq hfull
        · rw [hremoves] at hkept
          cases hkept
    · exact h

/-- The components before the slashes at the end. -/
theorem split_slashes {rest : List Bytes} (h : (split 47 path).reverse.dropWhile (· = []) = name :: rest) :
    ∃ k, split 47 path = rest.reverse ++ name :: List.replicate k [] := by
  obtain ⟨k, hk⟩ : ∃ k, (split 47 path).reverse.takeWhile (fun c : Bytes => decide (c = [])) = List.replicate k [] :=
    ⟨_, List.eq_replicate_of_mem fun c hc => by simpa using List.mem_takeWhile_imp hc⟩
  refine ⟨k, ?_⟩
  calc split 47 path
      = ((split 47 path).reverse.takeWhile (fun c : Bytes => decide (c = [])) ++
          (split 47 path).reverse.dropWhile (fun c : Bytes => decide (c = []))).reverse := by
        rw [List.takeWhile_append_dropWhile, List.reverse_reverse]
    _ = (List.replicate k [] ++ name :: rest).reverse := by rw [h, hk]
    _ = rest.reverse ++ name :: List.replicate k [] := by
        rw [List.reverse_append, List.reverse_cons, List.reverse_replicate, List.append_assoc, List.singleton_append]

theorem getLast?_of_split {cs : List Bytes} (hne : path ≠ []) (h : split 47 path = cs ++ [[]]) : path.getLast? = some 47 := by
  obtain ⟨a, c, rfl⟩ := List.eq_nil_or_concat' path |>.resolve_left hne
  by_contra hlast
  have hc : 47 ∉ [c] := by
    rw [List.mem_singleton]
    rintro rfl
    exact hlast List.getLast?_concat
  rw [split_append_last 47 a hc] at h
  have hend := List.append_inj_right' h rfl
  simp at hend

/-- What `remove` finds is the entry of the path. -/
theorem own_of_walk (hown : pr.lstat t path = some own) {name' : Bytes} {rest : List Bytes} {dir : Loc} {links : Nat}
    (hcomps : (split 47 path).reverse.dropWhile (· = []) = name :: rest) (hmove : moveOf name = .down name')
    (hwalk : t.walk pr.maxLinks (start pr.cwd path) (rest.reverse.map moveOf) = some (dir, links))
    (hslash : path.getLast? = some 47 → t.kindAt (name' :: dir) = some .dir) : name' :: dir = own := by
  have hne := lstat_ne_nil hown
  obtain ⟨k, hk⟩ := split_slashes hcomps
  have hmoves : moves path = rest.reverse.map moveOf ++ .down name' :: List.replicate k .stay := by
    rw [moves, hk, List.map_append, List.map_cons, hmove, List.map_replicate]
    rfl
  cases k with
  | zero =>
    rw [List.replicate_zero] at hmoves
    rcases lstat_cases hown with ⟨init, nm, q, hinit, hq, rfl⟩ | ⟨r, -, -, hlast⟩
    · rw [hmoves] at hinit
      obtain ⟨rfl, hnm⟩ := List.append_inj' hinit rfl
      cases hnm
      rw [hwalk] at hq
      cases hq
      rfl
    · exact absurd (by rw [hmoves, List.getLast?_concat]) (hlast name')
  | succ k =>
    -- with slashes behind it the name is that of a directory, and the rest stays there
    have hcomps' : split 47 path = (rest.reverse ++ name :: List.replicate k []) ++ [[]] := by
      rw [hk, List.replicate_succ', List.append_assoc, List.cons_append]
    have hdir := hslash (getLast?_of_split hne hcomps')
    rcases lstat_cases hown with ⟨init, nm, q, hinit, -, -⟩ | ⟨r, hr, rfl, -⟩
    · rw [hmoves, List.replicate_succ', ← List.cons_append, ← List.append_assoc] at hinit
      have hnm := List.append_inj_right' hinit rfl
      cases hnm
    · rw [stat, if_neg hne, hmoves, walk_append, hwalk, Option.bind_some, walk_cons] at hr
      rw [if_pos (kindAt_dir (by rw [hdir]; exact Option.some_ne_none _))] at hr
      dsimp only at hr
      rw [enter_dir hdir, walk_stays hdir] at hr
      cases hr
      rfl

/-- The path itself. -/
theorem Keeps.remove_own (h : Keeps t t' own true) (hown : pr.lstat t path = some own) :
    Keeps t (pr.remove t' path) own true := by
  unfold Process.remove
  split
  · exact h
  · rename_i name rest hcomps
    split
    · rename_i name' dir links hmove hwalk
      split
      · rename_i hcond
        rw [own_of_walk hown hcomps hmove (walk_within h.within hwalk) fun hl => h.within _ _ (hcond.2 hl)]
        exact h.delete_own ⟨List.suffix_rfl, fun _ => rfl⟩
      · exact h
    · exact h

end

/-! ## Removing all -/

theorem foldlM_invariant {α σ : Type} {I : σ → Prop} {f : σ → α → Option σ} (l : List α)
    (h : ∀ a ∈ l, ∀ s, I s → ∃ s', f s a = some s' ∧ I s') {s : σ} (hs : I s) : ∃ s', l.foldlM f s = some s' ∧ I s' := by
  induction l generalizing s with
  | nil => exact ⟨s, rfl, hs⟩
  | cons a l ih =>
    obtain ⟨s₁, hs₁, hI⟩ := h a List.mem_cons_self s hs
    obtain ⟨s₂, hs₂, hI₂⟩ := ih (fun b hb => h b (List.mem_cons_of_mem _ hb)) hI
    refine ⟨s₂, ?_, hI₂⟩
    rw [List.foldlM_cons, hs₁]
    exact hs₂

/-- What is left to do: each link leads anywhere in the tree, each name goes down. -/
def weight (t : FileTree) (r : Loc × Nat) : Nat := r.2 * (t.height + 1) + (t.height - r.1.length)

section

variable {pr : Process} {t t' : FileTree} {path name : Bytes} {names : List Bytes} {own : Loc} {mode : Bool}

theorem weight_below {r r' : Loc × Nat} (hk : t.kindAt (name :: r.1) ≠ none) (he : t.enter r.2 r.1 name [] = some r') :
    weight t r' < weight t r := by
  have hlen := length_le_height hk
  rw [List.length_cons] at hlen
  unfold weight
  rcases enter_cases he with ⟨rfl, -⟩ | ⟨hlt, -⟩
  · dsimp only
    rw [List.length_cons]
    omega
  · have hmul : (r'.2 + 1) * (t.height + 1) ≤ r.2 * (t.height + 1) := Nat.mul_le_mul_right _ hlt
    rw [Nat.add_mul, Nat.one_mul] at hmul
    omega

theorem remove_within (pr : Process) (t : FileTree) (path : Bytes) : Within (pr.remove t path) t := by
  unfold remove
  split
  · exact Within.refl t
  · split
    · split
      · exact delete_within t _
      · exact Within.refl t
    · exact Within.refl t

/-- What the loop of a call leaves. -/
def emptied (pr : Process) (fuel : Nat) (t : FileTree) (path : Bytes) (p : Loc) : Option FileTree :=
  if t.kindAt p = some .dir ∧ pr.opens p = true then
    ([46] :: [46, 46] :: t.names p).foldlM (fun t name =>
      if name = [46] ∨ name = [46, 46] then some t else pr.removeAll fuel t (path ++ 47 :: name) true) t
  else some t

theorem removeAll_succ (pr : Process) (fuel : Nat) (t : FileTree) (path : Bytes) (mode : Bool) :
    pr.removeAll (fuel + 1) t path mode =
      match pr.stat t path with
      | none => some t
      | some (p, _) => (pr.emptied fuel t path p).map fun t' => if mode = true then pr.remove t' path else t' := by
  rw [removeAll]
  cases pr.stat t path with
  | none => rfl
  | some r =>
    dsimp only
    unfold emptied
    by_cases hdir : t.kindAt r.1 = some .dir ∧ pr.opens r.1 = true
    · rw [if_pos hdir, if_pos hdir]
      exact (Option.map_eq_bind ..).symm
    · rw [if_neg hdir, if_neg hdir]
      rfl

theorem foldlM_mono {α σ : Type} {f g : σ → α → Option σ} (h : ∀ s a s', f s a = some s' → g s a = some s') (l : List α)
    {s s' : σ} (hl : l.foldlM f s = some s') : l.foldlM g s = some s' := by
  induction l generalizing s with
  | nil => exact hl
  | cons a l ih =>
    rw [List.foldlM_cons] at hl ⊢
    obtain ⟨s₁, hs₁, hl⟩ := Option.bind_eq_some_iff.1 hl
    exact Option.bind_eq_some_iff.2 ⟨s₁, h _ _ _ hs₁, ih hl⟩

/-- A call that ends has no use for more fuel. -/
theorem removeAll_step {fuel : Nat} (h : pr.removeAll fuel t path mode = some t') :
    pr.removeAll (fuel + 1) t path mode = some t' := by
  induction fuel generalizing t path mode t' with
  | zero => cases h
  | succ fuel ih =>
    rw [removeAll_succ] at h ⊢
    cases hs : pr.stat t path with
    | none => rwa [hs] at h
    | some r =>
      rw [hs] at h
      obtain ⟨t₁, ht₁, rfl⟩ := Option.map_eq_some_iff.1 h
      refine Option.map_eq_some_iff.2 ⟨t₁, ?_, rfl⟩
      unfold emptied at ht₁ ⊢
      split at ht₁
      · rename_i hdir
        rw [if_pos hdir]
        refine foldlM_mono (fun s name s' hcall => ?_) _ ht₁
        split at hcall
        · rename_i hdots
          rwa [if_pos hdots]
        · rename_i hdots
          rw [if_neg hdots]
          exact ih hcall
      · rename_i hdir
        rwa [if_neg hdir]

theorem removeAll_mono {fuel fuel' : Nat} (hle : fuel ≤ fuel') (h : pr.removeAll fuel t path mode = some t') :
    pr.removeAll fuel' t path mode = some t' := by
  induction hle with
  | refl => exact h
  | step _ ih => exact removeAll_step ih

/-- What a call keeps: it only removes, and only what is the path's own if the path is confined. -/
def Result (pr : Process) (t : FileTree) (path : Bytes) (own : Loc) (mode : Bool) (t' : FileTree) : Prop :=
  Within t' t ∧ (Confined pr t path mode → Keeps t t' own mode)

/-- The call for a name that is gone down to. -/
def CallEnds (pr : Process) (t : FileTree) (path : Bytes) (own : Loc) (mode : Bool) (fuel : Nat) : Prop :=
  ∀ names t', names ≠ [] → Descends pr t path names → Result pr t path own mode t' → 0 < fuel →
    (∀ r, pr.stat t (joined path names) = some r → weight t r < fuel) →
      ∃ t'', pr.removeAll fuel t' (joined path names) true = some t'' ∧ Result pr t path own mode t''

/-- The loop over the names of a directory. -/
theorem loop_ends {fuel : Nat} (hcalls : CallEnds pr t path own mode fuel) (hne : path ≠ [])
    (hd : Descends pr t path names) (h : Result pr t path own mode t') {r : Loc × Nat}
    (hs : pr.stat t' (joined path names) = some r) (hopens : pr.opens r.1 = true) (hfuel : weight t r ≤ fuel) :
    ∃ t'', ([46] :: [46, 46] :: t'.names r.1).foldlM (fun t name =>
        if name = [46] ∨ name = [46, 46] then some t
        else pr.removeAll fuel t (joined path names ++ 47 :: name) true) t' = some t'' ∧ Result pr t path own mode t'' := by
  refine foldlM_invariant _ (fun name hname s hI => ?_) h
  by_cases hdots : name = [46] ∨ name = [46, 46]
  · rw [if_pos hdots]
    exact ⟨s, rfl, hI⟩
  · have hmem : name ∈ t'.names r.1 := by
      simp only [List.mem_cons] at hname
      tauto
    have hk := h.1.ne_none (mem_names.1 hmem)
    have hlen := length_le_height hk
    rw [List.length_cons] at hlen
    have hst := stat_within h.1 hs
    rw [if_neg hdots, ← joined_append]
    apply hcalls _ s (by simp) (.entry hd hst hopens (mem_names.2 hk)) hI
    · unfold weight at hfuel
      omega
    · intro r' hr'
      rw [joined_append] at hr'
      obtain ⟨q, hq, hkq, he⟩ := stat_below (proper_of_mem hmem) hr' (joined_ne_nil hne names)
      rw [hst] at hq
      cases hq
      exact lt_of_lt_of_le (weight_below hkq he) hfuel

theorem call_ends (hown : pr.lstat t path = some own) (fuel : Nat) :
    CallEnds pr t path own mode fuel := by
  induction fuel with
  | zero => exact fun _ _ _ _ _ hpos => absurd hpos (lt_irrefl 0)
  | succ fuel ih =>
    intro names t' hnil hd h _ hfuel
    rw [removeAll_succ]
    cases hs : pr.stat t' (joined path names) with
    | none => exact ⟨t', rfl, h⟩
    | some r =>
      have hst := stat_within h.1 hs
      have hloop : ∃ t₁, pr.emptied fuel t' (joined path names) r.1 = some t₁ ∧ Result pr t path own mode t₁ := by
        unfold emptied
        split
        · rename_i hdir
          exact loop_ends ih (lstat_ne_nil hown) hd h hs hdir.2 (Nat.le_of_lt_succ (hfuel r hst))
        · exact ⟨t', rfl, h⟩
      obtain ⟨t₁, ht₁, hres⟩ := hloop
      obtain ⟨init, name, rfl⟩ := List.eq_nil_or_concat' names |>.resolve_left hnil
      refine ⟨_, Option.map_eq_some_iff.2 ⟨t₁, ht₁, rfl⟩, Within.trans (remove_within pr t₁ _) hres.1, fun hconf => ?_⟩
      refine (hres.2 hconf).remove_below hconf hown hd ?_
      rw [hst]
      exact Option.some_ne_none r

theorem Result.refl (pr : Process) (t : FileTree) (path : Bytes) (own : Loc) (mode : Bool) : Result pr t path own mode t :=
  ⟨Within.refl t, fun _ => ⟨Within.refl t, fun _ hq _ => hq⟩⟩

/-- The call itself. -/
theorem removeAll_ends {r : Loc × Nat} (hs : pr.stat t path = some r) (hown : pr.lstat t path = some own) (mode : Bool) :
    ∃ n t', pr.removeAll n t path mode = some t' ∧ Result pr t path own mode t' := by
  have hne := stat_ne_nil hs
  have hloop : ∃ t₁, pr.emptied (weight t r) t path r.1 = some t₁ ∧ Result pr t path own mode t₁ := by
    unfold emptied
    split
    · rename_i hdir
      exact loop_ends (call_ends hown _) hne .self (Result.refl ..) hs hdir.2 le_rfl
    · exact ⟨t, rfl, Result.refl ..⟩
  obtain ⟨t₁, ht₁, hres⟩ := hloop
  refine ⟨weight t r + 1, if mode = true then pr.remove t₁ path else t₁, ?_, ?_⟩
  · rw [removeAll_succ, hs]
    exact Option.map_eq_some_iff.2 ⟨t₁, ht₁, rfl⟩
  · cases mode with
    | false => exact hres
    | true => exact ⟨Within.trans (remove_within pr t₁ path) hres.1, fun hconf => (hres.2 hconf).remove_own hown⟩

/-- A call ends in every tree. If the path is confined, what is gone is its own. -/
theorem removeAll_frame (pr : Process) (t : FileTree) (path : Bytes) (mode : Bool) :
    ∃ n t', (∀ fuel ≥ n, pr.removeAll fuel t path mode = some t') ∧ Within t' t ∧
      (Confined pr t path mode → ∀ q, t.kindAt q ≠ none → t'.kindAt q = none →
        ∃ own, pr.lstat t path = some own ∧ Own own mode q) := by
  cases hs : pr.stat t path with
  | none =>
    refine ⟨1, t, fun fuel hfuel => removeAll_mono hfuel ?_, Within.refl t, fun _ q hq hnone => absurd hnone hq⟩
    rw [removeAll_succ, hs]
  | some r =>
    obtain ⟨own, hown⟩ := lstat_of_stat hs
    obtain ⟨n, t', ht', hwithin, hkeeps⟩ := removeAll_ends hs hown mode
    refine ⟨n, t', fun fuel hfuel => removeAll_mono hfuel ht', hwithin, fun hconf q hq hnone => ⟨own, hown, ?_⟩⟩
    by_contra hnot
    exact (hkeeps hconf).kept q hq hnot hnone

/-- If the links in a directory lead to no directory, it is confined. -/
theorem confined_of_links (hown : pr.lstat t path = some own) (hdir : t.kindAt own = some .dir)
    (hlinks : ∀ dir name target links r, own <:+ dir → t.kindAt (name :: dir) = some (.link target) →
      t.enter links dir name [] = some r → t.kindAt r.1 ≠ some .dir) (mode : Bool) : Confined pr t path mode := by
  have hbelow (names : List Bytes) (r : Loc × Nat) (hd : Descends pr t path names)
      (hr : pr.stat t (joined path names) = some r) (hk : t.kindAt r.1 = some .dir) : own <:+ r.1 := by
    induction hd generalizing r with
    | self => rw [own_dir hown hdir hr]
    | entry hd hs _ hname ih =>
      rw [joined_append] at hr
      obtain ⟨q, hq, hkq, he⟩ := stat_below (proper_of_mem hname) hr (joined_ne_nil (lstat_ne_nil hown) _)
      rw [hs] at hq
      cases hq
      have hin := ih _ hs (kindAt_dir hkq)
      rcases enter_cases he with ⟨rfl, -⟩ | ⟨-, target, hlink⟩
      · exact hin.trans (List.suffix_cons ..)
      · exact absurd hk (hlinks _ _ target _ r hin hlink he)
  intro own' hown' names name dir links hd hs hstat
  left
  rw [hown] at hown'
  cases hown'
  obtain ⟨r, hr⟩ := Option.ne_none_iff_exists'.1 hstat
  have hne := joined_ne_nil (lstat_ne_nil hown) names
  have hname := hd.proper name (List.mem_append_right _ (List.mem_singleton_self _))
  rw [joined_append] at hr
  obtain ⟨q, hq, hkq, -⟩ := stat_below hname hr hne
  rw [hs] at hq
  cases hq
  have hin := hbelow names _ hd.init hs (kindAt_dir hkq)
  refine ⟨hin.trans (List.suffix_cons ..), fun heq => ?_⟩
  rw [← heq] at hin
  exact absurd hin.length_le (by simp)

end

/-! ## Two trees -/

def root : Process := ⟨[], 40, fun _ => true, fun _ => true⟩

/-- The link leads to a file beside it. -/
def linkedFile : FileTree where
  entries := [([str "t"], .dir), ([str "f", str "t"], .file), ([str "l", str "t"], .link (str "f"))]
  nodup := by decide
  proper := by decide
  nested := by decide

/-- The link leads to a directory elsewhere. -/
def linkedDir : FileTree where
  entries := [([str "t"], .dir), ([str "l", str "t"], .link (str "/o")), ([str "o"], .dir), ([str "f", str "o"], .file)]
  nodup := by decide
  proper := by decide
  nested := by decide

theorem linkedFile_confined : Confined root linkedFile (str "/t") false := by
  have hown : root.lstat linkedFile (str "/t") = some [str "t"] := by decide
  apply confined_of_links hown (by decide)
  intro dir name target links r _ hlink he
  have hmem := (kindAt_iff (List.cons_ne_nil _ _)).1 hlink
  have hplace : name = str "l" ∧ dir = [str "t"] ∧ target = str "f" := by
    simpa [linkedFile, and_assoc] using hmem
  obtain ⟨rfl, rfl, rfl⟩ := hplace
  unfold enter at he
  rw [hlink] at he
  cases links with
  | zero => cases he
  | succ links =>
    have hk : linkedFile.kindAt [str "f", str "t"] = some .file := by decide
    have hw : linkedFile.walk links [str "t"] [.down (str "f")] = some r := he
    rw [walk_cons, if_pos (by decide)] at hw
    dsimp only at hw
    unfold enter at hw
    rw [hk] at hw
    dsimp only at hw
    rw [walk_nil] at hw
    cases hw
    rw [hk]
    decide

theorem linkedFile_emptied : ∃ n t', (∀ fuel ≥ n, root.removeAll fuel linkedFile (str "/t") false = some t') ∧
    ∀ q, linkedFile.kindAt q ≠ none → t'.kindAt q = none → ∃ own, root.lstat linkedFile (str "/t") = some own ∧ Own own false q := by
  obtain ⟨n, t', ht', -, hkeeps⟩ := removeAll_frame root linkedFile (str "/t") false
  exact ⟨n, t', ht', hkeeps linkedFile_confined⟩

theorem linkedDir_emptied : ∃ n t', (∀ fuel ≥ n, root.removeAll fuel linkedDir (str "/t") false = some t') ∧
    root.lstat linkedDir (str "/t") = some [str "t"] ∧ linkedDir.kindAt [str "f", str "o"] = some .file ∧
      t'.kindAt [str "f", str "o"] = none ∧ ¬ Own [str "t"] false [str "f", str "o"] := by
  have heval : (root.removeAll 3 linkedDir (str "/t") false).map (kindAt · [str "f", str "o"]) = some none := by decide +kernel
  obtain ⟨t', ht', hnone⟩ := Option.map_eq_some_iff.1 heval
  refine ⟨3, t', fun fuel hfuel => removeAll_mono hfuel ht', by decide, by decide, hnone, fun h => ?_⟩
  exact absurd h.1 (by decide)

end Process

end AntHttp
