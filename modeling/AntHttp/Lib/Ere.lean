import AntHttp.Lib.CString
import Mathlib.Logic.Function.Basic
import Mathlib.Tactic.Common
/-!
# Extended regular expressions

Syntax, meaning and a matcher, for expressions compiled with `REG_EXTENDED |
REG_ICASE` in the C locale by the GNU library. The library compares the text in
upper case with characters that it has put in upper case when it read the
expression. `Matches` says which stretches of a text an expression matches and
with which groups. `Posix` is what the standard promises of `regexec`: the
leftmost match, the longest of those, and groups taken from a derivation of it.
`regexec` is one function that keeps it.

A back-reference is an extension for which nothing is promised, so it is given
no meaning here.
-/

namespace Ere

open CString

/-! ## Syntax -/

/-- A bracket expression or a single character. -/
structure CharSet where
  neg : Bool
  ranges : List (UInt8 × UInt8)
  deriving DecidableEq

def CharSet.has (cs : CharSet) (b : UInt8) : Bool := cs.ranges.any fun r => r.1 ≤ b ∧ b ≤ r.2

/-- A character of the text is looked for in upper case. -/
def CharSet.mem (cs : CharSet) (b : UInt8) : Bool := cs.has (toupper b) != cs.neg

inductive Assertion where
  | bol | eol | wordb | notWordb | wordStart | wordEnd
  deriving DecidableEq

end Ere

inductive Ere where
  | eps
  | set (cs : Ere.CharSet)
  | assert (a : Ere.Assertion)
  | cat (r s : Ere)
  | alt (r s : Ere)
  | star (r : Ere)
  | group (n : Nat) (r : Ere)
  | backref (n : Nat)
  deriving DecidableEq

namespace Ere

open CString

/-- A character of the expression that stands for itself, in either case. -/
def lit (b : UInt8) : Ere := .set ⟨false, [(toupper b, toupper b)]⟩

/-- A character after a backslash keeps its case. -/
def quoted (b : UInt8) : Ere := .set ⟨false, [(b, b)]⟩

/-- There is no back-reference. -/
def regular : Ere → Bool
  | .eps | .set _ | .assert _ => true
  | .cat r t | .alt r t => regular r && regular t
  | .star r | .group _ r => regular r
  | .backref _ => false

/-! ## Meaning -/

def isWord (b : UInt8) : Bool := isalnum b || b = 95

/-- There is a word character at position `i`. -/
def wordAt (s : Bytes) (i : Nat) : Bool := s[i]?.any isWord

def wordBefore (s : Bytes) (i : Nat) : Bool := i ≠ 0 && wordAt s (i - 1)

def Assertion.holds (s : Bytes) (i : Nat) : Assertion → Bool
  | bol => i = 0
  | eol => i = s.length
  | wordb => wordBefore s i != wordAt s i
  | notWordb => wordBefore s i == wordAt s i
  | wordStart => !wordBefore s i && wordAt s i
  | wordEnd => wordBefore s i && !wordAt s i

/-- The stretch each group matched last, from its start to its end. -/
abbrev Caps := Nat → Option (Nat × Nat)

def Caps.none : Caps := fun _ => Option.none

/-- `Matches s r i c j d`: `r` matches the text `s` from `i` to `j`, turning the
groups `c` into `d`. -/
inductive Matches (s : Bytes) : Ere → Nat → Caps → Nat → Caps → Prop
  | eps {i c} : Matches s .eps i c i c
  | set {cs i c b} : s[i]? = some b → cs.mem b = true → Matches s (.set cs) i c (i + 1) c
  | assert {a i c} : a.holds s i = true → Matches s (.assert a) i c i c
  | cat {r t i c j d k e} : Matches s r i c j d → Matches s t j d k e → Matches s (.cat r t) i c k e
  | altl {r t i c j d} : Matches s r i c j d → Matches s (.alt r t) i c j d
  | altr {r t i c j d} : Matches s t i c j d → Matches s (.alt r t) i c j d
  | done {r i c} : Matches s (.star r) i c i c
  | more {r i c j d k e} : Matches s r i c j d → Matches s (.star r) j d k e → Matches s (.star r) i c k e
  | group {n r i c j d} : Matches s r i c j d → Matches s (.group n r) i c j (Function.update d n (some (i, j)))

/-- The stretch lies inside the text. -/
def InText (s : Bytes) (p : Nat × Nat) : Prop := p.1 ≤ p.2 ∧ p.2 ≤ s.length

theorem Matches.inText {s : Bytes} {r : Ere} {i j : Nat} {c d : Caps} (h : Matches s r i c j d)
    (hi : i ≤ s.length) : InText s (i, j) := by
  induction h with
  | eps | assert | done => exact ⟨le_refl _, hi⟩
  | set hb => exact ⟨Nat.le_succ _, (List.getElem?_eq_some_iff.1 hb).1⟩
  | cat _ _ ih1 ih2 | more _ _ ih1 ih2 =>
    obtain ⟨h1, h2⟩ := ih1 hi
    obtain ⟨h3, h4⟩ := ih2 h2
    exact ⟨h1.trans h3, h4⟩
  | altl _ ih | altr _ ih | group _ ih => exact ih hi

/-! ## What POSIX promises of `regexec` -/

/-- A `regexec` that finds the leftmost match, at its longest, with the groups
of some derivation of it; group 0 is the whole match. -/
structure Posix (exec : Ere → Bytes → Option Caps) : Prop where
  sound : ∀ r s c, r.regular = true → exec r s = some c →
    ∃ i j d, i ≤ s.length ∧ Matches s r i Caps.none j d ∧ c = Function.update d 0 (some (i, j)) ∧
      ∀ i' j' d', i' ≤ s.length → Matches s r i' Caps.none j' d' → i ≤ i' ∧ (i' = i → j' ≤ j)
  complete : ∀ r s, r.regular = true → exec r s = none → ∀ i j d, i ≤ s.length → ¬ Matches s r i Caps.none j d

/-- It matches exactly when some stretch of the text matches. -/
theorem Posix.isSome_iff {exec : Ere → Bytes → Option Caps} (h : Posix exec) {r : Ere} (hr : r.regular = true) (s : Bytes) :
    (exec r s).isSome ↔ ∃ i j d, i ≤ s.length ∧ Matches s r i Caps.none j d := by
  constructor
  · intro hs
    obtain ⟨c, hc⟩ := Option.isSome_iff_exists.1 hs
    obtain ⟨i, j, d, hi, hm, -⟩ := h.sound r s c hr hc
    exact ⟨i, j, d, hi, hm⟩
  · rintro ⟨i, j, d, hi, hm⟩
    cases hc : exec r s with
    | some c => rfl
    | none => exact absurd hm (h.complete r s hr hc i j d hi)

/-! ## A matcher -/

/-- Iterate `f` as long as it moves forward, at most `fuel` times. -/
def iter (f : Nat → Caps → List (Nat × Caps)) : Nat → Nat → Caps → List (Nat × Caps)
  | 0, i, c => [(i, c)]
  | fuel + 1, i, c => ((f i c).filter (·.1 > i)).flatMap (fun p => iter f fuel p.1 p.2) ++ [(i, c)]

/-- Every end of a match that starts at `i`, with its groups. -/
def ends (s : Bytes) : Ere → Nat → Caps → List (Nat × Caps)
  | .eps, i, c => [(i, c)]
  | .set cs, i, c => if s[i]?.any cs.mem then [(i + 1, c)] else []
  | .assert a, i, c => if a.holds s i then [(i, c)] else []
  | .cat r t, i, c => (ends s r i c).flatMap fun p => ends s t p.1 p.2
  | .alt r t, i, c => ends s r i c ++ ends s t i c
  | .star r, i, c => iter (ends s r) (s.length - i) i c
  | .group n r, i, c => (ends s r i c).map fun p => (p.1, Function.update p.2 n (some (i, p.1)))
  | .backref _, _, _ => []

/-- The first of the pairs that reach furthest. -/
def furthest : List (Nat × Caps) → Option (Nat × Caps)
  | [] => none
  | p :: ps =>
    match furthest ps with
    | none => some p
    | some q => if q.1 > p.1 then some q else some p

def matchAt (s : Bytes) (r : Ere) (i : Nat) : Option Caps :=
  (furthest (ends s r i Caps.none)).map fun p => Function.update p.2 0 (some (i, p.1))

def regexec (r : Ere) (s : Bytes) : Option Caps := (List.range (s.length + 1)).findSome? (matchAt s r)

/-! ## The matcher finds the derivations and nothing else -/

theorem iter_sound {s : Bytes} {r : Ere} {f : Nat → Caps → List (Nat × Caps)}
    (hf : ∀ i c p, p ∈ f i c → Matches s r i c p.1 p.2) :
    ∀ fuel i c p, p ∈ iter f fuel i c → Matches s (.star r) i c p.1 p.2 := by
  intro fuel
  induction fuel with
  | zero => intro i c p hp; simp only [iter, List.mem_singleton] at hp; subst hp; exact .done
  | succ fuel ih =>
    intro i c p hp
    simp only [iter, List.mem_append, List.mem_flatMap, List.mem_filter, List.mem_singleton] at hp
    rcases hp with ⟨q, ⟨hq, -⟩, hp⟩ | rfl
    · exact .more (hf i c q hq) (ih _ _ _ hp)
    · exact .done

theorem ends_sound (s : Bytes) (r : Ere) :
    ∀ i c p, p ∈ ends s r i c → Matches s r i c p.1 p.2 := by
  induction r with
  | eps => intro i c p hp; simp only [ends, List.mem_singleton] at hp; subst hp; exact .eps
  | set cs =>
    intro i c p hp
    cases hb : s[i]? with
    | none => simp [ends, hb] at hp
    | some b =>
      simp only [ends, hb, Option.any_some] at hp
      split at hp
      · rename_i hm
        simp only [List.mem_singleton] at hp; subst hp; exact .set hb hm
      · cases hp
  | assert a =>
    intro i c p hp
    simp only [ends] at hp
    split at hp
    · simp only [List.mem_singleton] at hp; subst hp; exact .assert ‹_›
    · cases hp
  | cat r t ihr iht =>
    intro i c p hp
    obtain ⟨q, hq, hp⟩ := List.mem_flatMap.1 hp
    exact .cat (ihr _ _ _ hq) (iht _ _ _ hp)
  | alt r t ihr iht =>
    intro i c p hp
    rcases List.mem_append.1 hp with hp | hp
    · exact .altl (ihr _ _ _ hp)
    · exact .altr (iht _ _ _ hp)
  | star r ih => intro i c p hp; exact iter_sound ih _ i c p hp
  | group n r ih =>
    intro i c p hp
    obtain ⟨q, hq, rfl⟩ := List.mem_map.1 hp
    exact .group (ih _ _ _ hq)
  | backref n => intro i c p hp; cases hp

/-- More fuel than text left finds everything: an iteration that counts moves
forward by a character. -/
theorem iter_complete {s : Bytes} {r : Ere} {f : Nat → Caps → List (Nat × Caps)}
    (hf : ∀ i c j d, i ≤ s.length → Matches s r i c j d → ∀ c', ∃ d', (j, d') ∈ f i c')
    {i : Nat} {c : Caps} {j : Nat} {d : Caps} (h : Matches s (.star r) i c j d) (hi : i ≤ s.length) :
    ∀ fuel, s.length - i ≤ fuel → ∀ c', ∃ d', (j, d') ∈ iter f fuel i c' := by
  generalize hr : Ere.star r = r' at h
  induction h with
  | eps | set | assert | cat | altl | altr | group => cases hr
  | @done r0 i c0 =>
    intro fuel _ c'
    cases fuel <;> exact ⟨c', by simp [iter]⟩
  | @more r0 i c0 k d0 j e hk hj _ ihj =>
    cases hr
    have hik := hk.inText hi
    rcases Nat.lt_or_ge i k with hlt | hge
    · intro fuel hfuel c'
      obtain ⟨dk, hdk⟩ := hf i c0 k d0 hi hk c'
      cases fuel with
      | zero => have := hik.2; simp only at this; omega
      | succ fuel =>
        obtain ⟨dj, hdj⟩ := ihj hik.2 rfl fuel (by omega) dk
        refine ⟨dj, ?_⟩
        simp only [iter, List.mem_append, List.mem_flatMap, List.mem_filter, decide_eq_true_eq]
        exact .inl ⟨(k, dk), ⟨hdk, hlt⟩, hdj⟩
    · -- an empty iteration adds no end
      have hki : k = i := le_antisymm hge hik.1
      subst hki
      exact ihj hi rfl

theorem ends_complete (s : Bytes) (r : Ere) :
    ∀ i c j d, i ≤ s.length → Matches s r i c j d → ∀ c', ∃ d', (j, d') ∈ ends s r i c' := by
  induction r with
  | eps => intro i c j d _ h c'; cases h; exact ⟨c', by simp [ends]⟩
  | set cs =>
    intro i c j d _ h c'
    cases h with
    | set hb hm => exact ⟨c', by simp [ends, hb, hm]⟩
  | assert a =>
    intro i c j d _ h c'
    cases h with
    | assert ha => exact ⟨c', by simp [ends, ha]⟩
  | cat r t ihr iht =>
    intro i c j d hi h c'
    cases h with
    | cat h1 h2 =>
      obtain ⟨d1, hd1⟩ := ihr _ _ _ _ hi h1 c'
      obtain ⟨d2, hd2⟩ := iht _ _ _ _ (h1.inText hi).2 h2 d1
      exact ⟨d2, List.mem_flatMap.2 ⟨_, hd1, hd2⟩⟩
  | alt r t ihr iht =>
    intro i c j d hi h c'
    cases h with
    | altl h => obtain ⟨d', hd⟩ := ihr _ _ _ _ hi h c'; exact ⟨d', List.mem_append_left _ hd⟩
    | altr h => obtain ⟨d', hd⟩ := iht _ _ _ _ hi h c'; exact ⟨d', List.mem_append_right _ hd⟩
  | star r ih => intro i c j d hi h c'; exact iter_complete ih h hi _ (le_refl _) c'
  | group n r ih =>
    intro i c j d hi h c'
    cases h with
    | group h =>
      obtain ⟨d', hd⟩ := ih _ _ _ _ hi h c'
      exact ⟨_, List.mem_map.2 ⟨_, hd, rfl⟩⟩
  | backref n => intro i c j d _ h; cases h

theorem furthest_mem {l : List (Nat × Caps)} {p : Nat × Caps} (h : furthest l = some p) :
    p ∈ l ∧ ∀ q ∈ l, q.1 ≤ p.1 := by
  induction l generalizing p with
  | nil => cases h
  | cons a l ih =>
    simp only [furthest] at h
    split at h
    · rename_i hl
      cases h
      cases l with
      | nil => simp
      | cons b l => simp only [furthest] at hl; split at hl <;> (try split at hl) <;> cases hl
    · rename_i q hq
      obtain ⟨hm, hle⟩ := ih hq
      split at h <;> cases h
      · refine ⟨List.mem_cons_of_mem _ hm, fun x hx => ?_⟩
        rcases List.mem_cons.1 hx with rfl | hx
        · omega
        · exact hle x hx
      · refine ⟨List.mem_cons_self, fun x hx => ?_⟩
        rcases List.mem_cons.1 hx with rfl | hx
        · exact le_refl _
        · have := hle x hx; omega

theorem furthest_none {l : List (Nat × Caps)} (h : furthest l = none) : l = [] := by
  cases l with
  | nil => rfl
  | cons a l => simp only [furthest] at h; split at h <;> (try split at h) <;> cases h

theorem matchAt_none {s : Bytes} {r : Ere} {i j : Nat} {d : Caps} (h : matchAt s r i = none) (hi : i ≤ s.length) :
    ¬ Matches s r i Caps.none j d := by
  intro hm
  obtain ⟨d', hd⟩ := ends_complete s r i _ j d hi hm Caps.none
  rw [furthest_none (Option.map_eq_none_iff.1 h)] at hd
  cases hd

/-- The matcher keeps the promise. -/
theorem regexec_posix : Posix regexec where
  sound r s c _ h := by
    obtain ⟨l₁, i, l₂, hl, hi, hbefore⟩ := List.findSome?_eq_some_iff.1 h
    obtain ⟨⟨j, d⟩, hp, rfl⟩ := Option.map_eq_some_iff.1 hi
    obtain ⟨hmem, hfar⟩ := furthest_mem hp
    have hil : i ≤ s.length := by
      have : i ∈ List.range (s.length + 1) := by rw [hl]; simp
      have := List.mem_range.1 this; omega
    refine ⟨i, j, d, hil, ends_sound s r _ _ _ hmem, rfl, fun i' j' d' hi' hm => ⟨?_, ?_⟩⟩
    · -- the positions before `i` were tried without success
      by_contra hlt
      have hi1 : i' ∈ l₁ := by
        have hr : i' ∈ List.range (s.length + 1) := List.mem_range.2 (by omega)
        have hs : (l₁ ++ i :: l₂).Pairwise (· < ·) := hl ▸ List.pairwise_lt_range
        rw [hl] at hr
        rcases List.mem_append.1 hr with h1 | h1
        · exact h1
        · rcases List.mem_cons.1 h1 with rfl | h2
          · omega
          · have := (List.pairwise_cons.1 (List.pairwise_append.1 hs).2.1).1 i' h2; omega
      exact matchAt_none (hbefore i' hi1) hi' hm
    · rintro rfl
      obtain ⟨d'', hd⟩ := ends_complete s r _ _ _ _ hi' hm Caps.none
      exact hfar _ hd
  complete r s _ h i j d hi := by
    have := List.findSome?_eq_none_iff.1 h i (List.mem_range.2 (by omega))
    exact matchAt_none this hi

end Ere
