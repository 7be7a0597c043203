import AntHttp.Lib.EreSyntax
/-!
# Which expressions are well formed

An expression is read from left to right: every group that is opened is
closed, every repetition has something to repeat, every back-reference names a
group that is closed by then and not in another branch, no backslash comes
last, and the bracket expressions and intervals are complete. `regcomp`
compiles exactly the expressions of which this holds.
-/

namespace Ere

open CString

/-- An open group: its number, the groups closed before it, and those closed in its branches up to the last bar. -/
structure Level where
  number : Nat
  before : List Nat
  others : List Nat

/-- Where the reading has come to: the innermost open group, those around it, and the groups read so far. The whole
expression is the outermost level. -/
structure Scan where
  level : Level
  outer : List Level
  groups : Groups

namespace Scan

def depth (q : Scan) : Nat := q.outer.length

def start : Scan := ⟨⟨0, [], []⟩, [], ⟨1, []⟩⟩

/-- A group is opened. -/
def opened (q : Scan) : Scan := ⟨⟨q.groups.next, q.groups.closed, []⟩, q.level :: q.outer, q.groups.enter⟩

/-- The innermost group is closed, inside `l`. -/
def left (q : Scan) (l : Level) (outer : List Level) : Scan :=
  ⟨l, outer, (q.groups.merge q.level.others).leave q.level.number⟩

/-- Another branch of the same group. -/
def barred (q : Scan) : Scan :=
  ⟨⟨q.level.number, q.level.before, q.level.others ++ q.groups.closed⟩, q.outer, q.groups.restart q.level.before⟩

end Scan

/-- The digits that refer to a group after a backslash. -/
def BackRef (c : UInt8) : Prop := isdigit c = true ∧ c ≠ 48

instance : DecidablePred BackRef := fun _ => inferInstanceAs (Decidable (_ ∧ _))

/-- `Rest q again s`: `s` completes the expression, where `again` says whether a repetition may come first. -/
inductive Rest : Scan → Bool → Bytes → Prop
  | done {q again} : q.outer = [] → Rest q again []
  | opens {q again s} : Rest q.opened false s → Rest q again (40 :: s)
  | closes {q l outer again s} : q.outer = l :: outer → Rest (q.left l outer) true s → Rest q again (41 :: s)
  | bar {q again s} : Rest q.barred false s → Rest q again (124 :: s)
  | anchor {q again c s} : c = 94 ∨ c = 36 → Rest q false s → Rest q again (c :: s)
  | repeated {q c s} : c = 42 ∨ c = 43 ∨ c = 63 → Rest q true s → Rest q true (c :: s)
  | interval {q b s t} : bounds s = some (b, t) → Rest q true t → Rest q true (123 :: s)
  | bracket {q again r s t} : bracket s = some (r, t) → Rest q true t → Rest q again (91 :: s)
  | backref {q again c s} : BackRef c → c.toNat - 48 ∈ q.groups.closed → Rest q true s → Rest q again (92 :: c :: s)
  | escape {q again c s} : ¬ BackRef c → Rest q (escape c).2 s → Rest q again (92 :: c :: s)
  -- outside the groups a closing parenthesis is an ordinary character
  | char {q again c s} : c ∉ str "([|^$*+?\x7b\\" → (c = 41 → q.outer = []) → Rest q true s → Rest q again (c :: s)

def WellFormed (s : Bytes) : Prop := Rest .start false s

section

variable {q : Scan} {again : Bool} {s : Bytes}

/-- What need not begin with a repetition may also come where one could. -/
theorem Rest.free (h : Rest q false s) (again : Bool) : Rest q again s := by
  cases h with
  | done hq => exact .done hq
  | opens h => exact .opens h
  | closes hq h => exact .closes hq h
  | bar h => exact .bar h
  | anchor hc h => exact .anchor hc h
  | bracket hb h => exact .bracket hb h
  | backref hc hg h => exact .backref hc hg h
  | escape hc h => exact .escape hc h
  | char hc hd h => exact .char hc hd h

theorem Rest.unrepeated (h : Rest q again s) (hs : ∀ c ∈ s.head?, c ∉ str "*+?\x7b") : Rest q false s := by
  cases h with
  | done hq => exact .done hq
  | opens h => exact .opens h
  | closes hq h => exact .closes hq h
  | bar h => exact .bar h
  | anchor hc h => exact .anchor hc h
  | repeated hc h => rcases hc with rfl | rfl | rfl <;> exact absurd (hs _ rfl) (by decide)
  | interval hi h => exact absurd (hs _ rfl) (by decide)
  | bracket hb h => exact .bracket hb h
  | backref hc hg h => exact .backref hc hg h
  | escape hc h => exact .escape hc h
  | char hc hd h => exact .char hc hd h

/-- What a repetition leaves to be read. -/
theorem Rest.of_repetition {c : UInt8} (h : Rest q again (c :: s)) (hc : c ∈ str "*+?\x7b") :
    if c = 123 then ∃ b t, bounds s = some (b, t) ∧ Rest q true t else Rest q true s := by
  cases h with
  | opens | closes | bar | bracket | backref | escape => exact absurd hc (by decide)
  | anchor h => rcases h with rfl | rfl <;> exact absurd hc (by decide)
  | repeated hr h => rcases hr with rfl | rfl | rfl <;> exact h
  | interval hi h => exact ⟨_, _, hi, h⟩
  | char hn =>
    have hsub : str "*+?\x7b" ⊆ str "([|^$*+?\x7b\\" := by decide
    exact absurd (hsub hc) hn

theorem Rest.of_bar (h : Rest q again (124 :: s)) : Rest q.barred false s := by
  cases h with
  | bar h => exact h
  | anchor h => exact absurd h (by decide)
  | repeated h => exact absurd h (by decide)
  | char h => exact absurd h (by decide)

theorem Rest.of_close {l : Level} {outer : List Level} (hq : q.outer = l :: outer) (h : Rest q again (41 :: s)) :
    Rest (q.left l outer) true s := by
  cases h with
  | closes hq' h =>
    obtain ⟨rfl, rfl⟩ := List.cons.inj (hq.symm.trans hq')
    exact h
  | anchor h => exact absurd h (by decide)
  | repeated h => exact absurd h (by decide)
  | char _ h => cases hq.symm.trans (h rfl)

/-- Where a level ends, what was closed in its branches counts together. -/
theorem Rest.merged (hend : s = [] ∨ (s.head? = some 41 ∧ 0 < q.depth)) (h : Rest q again s) {q' : Scan}
    (hnumber : q'.level.number = q.level.number) (houter : q'.outer = q.outer)
    (hgroups : q'.groups.merge q'.level.others = q.groups.merge q.level.others) : Rest q' again s := by
  rcases hend with rfl | ⟨hclose, hd⟩
  · cases h with
    | done hq => exact .done (houter.trans hq)
  · obtain ⟨u, rfl⟩ := List.head?_eq_some_iff.1 hclose
    obtain ⟨l, outer, hq⟩ := List.exists_cons_of_length_pos hd
    refine .closes (houter.trans hq) ?_
    have hrest := h.of_close hq
    rwa [Scan.left, ← hgroups, ← hnumber] at hrest

end

/-! ## The scanners -/

theorem number_length {num m : Option Nat} {closed : Bool} {s t : Bytes} (h : number num s = some (m, closed, t)) :
    t.length < s.length := by
  fun_induction number num s with
  | case1 => cases h; exact Nat.lt_succ_self _
  | case2 => cases h; exact Nat.lt_succ_self _
  | case3 => cases h; simp only [List.length_cons]; omega
  | case4 num s ih => exact (ih h).trans (by simp only [List.length_cons]; omega)
  | case5 num c s _ _ _ _ _ ih => exact (ih h).trans (Nat.lt_succ_self _)
  | case6 | case7 => cases h

theorem bounds_length {b : Nat × Option Nat} {s t : Bytes} (h : bounds s = some (b, t)) : t.length < s.length := by
  unfold bounds at h
  split at h
  · rename_i hm
    split at h <;> cases h
    exact number_length hm
  · rename_i hm
    have hlt := number_length hm
    split at h
    · rename_i hn
      split at h <;> cases h
      exact (number_length hn).trans hlt
    · rename_i hn
      split at h <;> cases h
      exact (number_length hn).trans hlt
    · cases h
  · cases h

theorem bracketElem_length {e : Element} {s t : Bytes} (h : bracketElem s = some (e, t)) : t.length < s.length := by
  unfold bracketElem at h
  split at h
  · rename_i u
    simp only at h
    split at h
    · rename_i v hv
      obtain ⟨rs, -, h⟩ := Option.map_eq_some_iff.1 h
      cases h
      have hlen := congrArg List.length hv
      simp only [List.length_drop, List.length_cons] at hlen ⊢
      omega
    · cases h
  all_goals cases h <;> simp only [List.length_cons] <;> omega

theorem bracketRange_length {rs : List (UInt8 × UInt8)} {s t : Bytes} (h : bracketRange s = some (rs, t)) :
    t.length < s.length := by
  unfold bracketRange at h
  split at h
  · cases h
  · rename_i he
    cases h
    exact bracketElem_length he
  · rename_i u he
    have hlt := bracketElem_length he
    split at h
    · cases h
      exact hlt
    · split at h
      · rename_i hu
        have hlt' := bracketElem_length hu
        split at h <;> cases h
        rw [List.length_cons] at hlt
        omega
      · cases h
    · cases h
      exact hlt

theorem bracketItems_length {fuel : Nat} {first : Bool} {s t : Bytes} {rs : List (UInt8 × UInt8)}
    (h : bracketItems fuel first s = some (rs, t)) : t.length < s.length := by
  induction fuel generalizing first s rs with
  | zero => cases h
  | succ fuel ih =>
    unfold bracketItems at h
    split at h
    · rename_i hclose
      obtain ⟨u, rfl⟩ := List.head?_eq_some_iff.1 hclose.1
      cases h
      exact Nat.lt_succ_self _
    · split at h
      · cases h
      · obtain ⟨⟨rs₁, u⟩, hr, h⟩ := Option.bind_eq_some_iff.1 h
        obtain ⟨⟨more, w⟩, hw, h⟩ := Option.bind_eq_some_iff.1 h
        cases h
        exact (ih hw).trans (bracketRange_length hr)

theorem bracket_length {r : Ere} {s t : Bytes} (h : bracket s = some (r, t)) : t.length < s.length := by
  unfold bracket at h
  split at h
  · obtain ⟨⟨rs, u⟩, hu, h⟩ := Option.map_eq_some_iff.1 h
    cases h
    exact (bracketItems_length hu).trans (Nat.lt_succ_self _)
  · obtain ⟨⟨rs, u⟩, hu, h⟩ := Option.map_eq_some_iff.1 h
    cases h
    exact bracketItems_length hu

theorem dups_rest {fuel : Nat} {q : Scan} {r r' : Ere} {s t : Bytes} (h : dups fuel r s = some (r', t)) (ht : Rest q true t) :
    Rest q true s := by
  induction fuel generalizing r s with
  | zero => cases h
  | succ fuel ih =>
    unfold dups at h
    split at h
    · exact .repeated (.inl rfl) (ih h)
    · exact .repeated (.inr (.inl rfl)) (ih h)
    · exact .repeated (.inr (.inr rfl)) (ih h)
    · obtain ⟨⟨b, v⟩, hb, h⟩ := Option.bind_eq_some_iff.1 h
      exact .interval hb (ih h)
    · cases h
      exact ht

/-- The repetitions are read up to what is none. -/
theorem dups_complete {fuel : Nat} {q : Scan} {s : Bytes} (r : Ere) (h : Rest q true s) (hf : s.length < fuel) :
    ∃ r' t, dups fuel r s = some (r', t) ∧ Rest q false t ∧ t.length ≤ s.length := by
  induction fuel generalizing r s with
  | zero => cases hf
  | succ fuel ih =>
    -- the repetition, of one character or an interval, and those after it
    have hstep {r₁ : Ere} {c : UInt8} {u v : Bytes} (hd : dups (fuel + 1) r (c :: u) = dups fuel r₁ v) (hv : Rest q true v)
        (hle : v.length ≤ u.length) (hf : (c :: u).length < fuel + 1) :
        ∃ r' t, dups (fuel + 1) r (c :: u) = some (r', t) ∧ Rest q false t ∧ t.length ≤ (c :: u).length := by
      obtain ⟨r', t, hs, ht, hlt⟩ := ih r₁ hv (lt_of_le_of_lt hle (Nat.lt_of_succ_lt_succ hf))
      exact ⟨r', t, hd.trans hs, ht, hlt.trans (hle.trans (Nat.le_succ _))⟩
    by_cases hs : ∀ c ∈ s.head?, c ∉ str "*+?\x7b"
    · refine ⟨r, s, ?_, h.unrepeated hs, le_rfl⟩
      unfold dups
      split <;> first | rfl | exact absurd (by decide) (hs _ rfl)
    · obtain ⟨c, u, rfl⟩ : ∃ c u, s = c :: u := by
        cases s with
        | nil => exact absurd (fun _ hc => by cases hc) hs
        | cons c u => exact ⟨c, u, rfl⟩
      have hc : c ∈ str "*+?\x7b" := by simpa using hs
      have hrest := h.of_repetition hc
      have hc : c = 42 ∨ c = 43 ∨ c = 63 ∨ c = 123 := by simpa [str] using hc
      rcases hc with rfl | rfl | rfl | rfl
      · exact hstep rfl hrest le_rfl hf
      · exact hstep rfl hrest le_rfl hf
      · exact hstep rfl hrest le_rfl hf
      · obtain ⟨b, t, hb, ht⟩ := hrest
        exact hstep (by rw [dups, hb]; rfl) ht (le_of_lt (bounds_length hb)) hf

/-! ## What is read is well formed -/

/-- Where a branch ends. -/
def Stop (depth : Nat) (s : Bytes) : Prop := s = [] ∨ s.head? = some 124 ∨ (s.head? = some 41 ∧ 0 < depth)

/-- Where the last branch ends. -/
def Final (depth : Nat) (s : Bytes) : Prop := s = [] ∨ (s.head? = some 41 ∧ 0 < depth)

theorem Stop.unrepeated {depth : Nat} {s : Bytes} (h : Stop depth s) : ∀ c ∈ s.head?, c ∉ str "*+?\x7b" := by
  intro c hc
  rcases h with rfl | h | ⟨h, -⟩
  · cases hc
  · cases h.symm.trans hc
    decide
  · cases h.symm.trans hc
    decide

/-- The same place with other groups read. -/
def Scan.at (q : Scan) (g : Groups) : Scan := { q with groups := g }

@[simp] theorem Scan.at_groups (q : Scan) : q.at q.groups = q := rfl

/-- The rest completes what has been read of an expression, so the whole does. -/
structure Reads (fuel : Nat) : Prop where
  alt : ∀ {q : Scan} {s r g t}, parseAlt fuel q.depth q.groups s = some (r, g, t) → q.groups.closed = q.level.before →
    Final q.depth t ∧ (Rest (q.at g) true t → Rest q false s)
  branch : ∀ {q : Scan} {s r g t}, parseBranch fuel q.depth q.groups s = some (r, g, t) →
    Stop q.depth t ∧ (Rest (q.at g) true t → Rest q false s)
  atom : ∀ {q : Scan} {s r g t again}, parseAtom fuel q.depth q.groups s = some (r, g, t, again) → ¬ Stop q.depth s →
    Rest (q.at g) again t → Rest q false s

theorem reads (fuel : Nat) : Reads fuel := by
  induction fuel with
  | zero => exact ⟨nofun, nofun, nofun⟩
  | succ fuel ih =>
    -- alternatives, branches and atoms call each other; all three go down one unit of fuel
    refine ⟨fun {q s r g t} h hq => ?_, fun {q s r g t} h => ?_, fun {q s r g t again} h hs ht => ?_⟩
    · rw [parseAlt] at h
      obtain ⟨⟨r₁, g₁, u⟩, hb, h⟩ := Option.bind_eq_some_iff.1 h
      obtain ⟨hstop, hrest⟩ := ih.branch hb
      simp only at h
      split at h
      · obtain ⟨⟨r₂, g₂, v⟩, ha, h⟩ := Option.bind_eq_some_iff.1 h
        cases h
        rw [hq] at ha
        obtain ⟨hfinal, hmore⟩ := ih.alt (q := (q.at g₁).barred) ha rfl
        refine ⟨hfinal, fun ht => hrest (.bar (hmore ?_))⟩
        refine Rest.merged (q := q.at (g₂.merge g₁.closed)) hfinal ht rfl rfl ?_
        exact congrArg (Groups.mk g₂.next) (List.append_assoc ..)
      · rename_i hbar
        cases h
        refine ⟨?_, hrest⟩
        rcases hstop with hnil | h | hclose
        · exact .inl hnil
        · obtain ⟨v, rfl⟩ := List.head?_eq_some_iff.1 h
          exact absurd rfl (hbar v)
        · exact .inr hclose
    · rw [parseBranch] at h
      split at h
      · rename_i hstop
        cases h
        exact ⟨hstop, fun hr => hr.unrepeated (Stop.unrepeated hstop)⟩
      · rename_i hstop
        obtain ⟨⟨r₁, g₁, u, again⟩, ha, h⟩ := Option.bind_eq_some_iff.1 h
        cases again with
        | true =>
          obtain ⟨⟨r₂, v⟩, hd, h⟩ := Option.bind_eq_some_iff.1 h
          obtain ⟨⟨r₃, g₃, w⟩, hb, h⟩ := Option.bind_eq_some_iff.1 h
          cases h
          obtain ⟨hstop', hrest⟩ := ih.branch (q := q.at g₁) hb
          exact ⟨hstop', fun hr => ih.atom ha hstop (dups_rest hd ((hrest hr).free true))⟩
        | false =>
          obtain ⟨⟨r₃, g₃, w⟩, hb, h⟩ := Option.bind_eq_some_iff.1 h
          cases h
          obtain ⟨hstop', hrest⟩ := ih.branch (q := q.at g₁) hb
          exact ⟨hstop', fun hr => ih.atom ha hstop (hrest hr)⟩
    · unfold parseAtom at h
      split at h
      · obtain ⟨⟨r₁, g₁, u⟩, ha, h⟩ := Option.bind_eq_some_iff.1 h
        simp only at h
        split at h
        · cases h
          obtain ⟨-, hrest⟩ := ih.alt (q := q.opened) ha rfl
          exact .opens (hrest (.closes rfl ht))
        · cases h
      · cases h; exact .anchor (.inl rfl) ht
      · cases h; exact .anchor (.inr rfl) ht
      · cases h; exact .char (by decide) (fun h => absurd h (by decide)) ht
      · obtain ⟨⟨r₁, u⟩, hb, h⟩ := Option.map_eq_some_iff.1 h
        cases h
        exact .bracket hb ht
      · split at h
        · rename_i hc
          split at h
          · rename_i hg
            cases h
            exact .backref hc hg ht
          · cases h
        · rename_i hc
          cases h
          exact .escape hc ht
      all_goals try cases h
      -- any other character stands for itself: it is none of those above and none that ends a branch
      rename_i c h40 h94 h36 h46 h91 h42 h43 h63 h123 hesc hlast
      refine .char (fun hc => ?_) (fun h41 => ?_) ht
      · have hc : c = 40 ∨ c = 91 ∨ c = 124 ∨ c = 94 ∨ c = 36 ∨ c = 42 ∨ c = 43 ∨ c = 63 ∨ c = 123 ∨ c = 92 := by
          simpa [str] using hc
        rcases hc with h | h | h | h | h | h | h | h | h | h
        · exact h40 h
        · exact h91 h
        · exact hs (.inr (.inl (by rw [h]; rfl)))
        · exact h94 h
        · exact h36 h
        · exact h42 h
        · exact h43 h
        · exact h63 h
        · exact h123 h
        · cases t with
          | nil => exact hlast h rfl
          | cons b t => exact hesc b t h rfl
      · refine List.eq_nil_iff_length_eq_zero.2 (Nat.eq_zero_of_not_pos fun hd => hs (.inr (.inr ⟨by rw [h41]; rfl, hd⟩)))

/-! ## What is well formed is read -/

theorem parseAtom_char {fuel depth : Nat} {g : Groups} {c : UInt8} {s : Bytes} (hc : c ∉ str "([|^$*+?\x7b\\") :
    ∃ r, parseAtom (fuel + 1) depth g (c :: s) = some (r, g, s, true) := by
  unfold parseAtom
  split <;> simp_all [str]

/-- An expression is read up to where it ends, and the rest completes it. -/
structure Completes (fuel : Nat) : Prop where
  alt : ∀ {q : Scan} {s}, 3 * s.length + 3 ≤ fuel → q.groups.closed = q.level.before → Rest q false s →
    ∃ r g t, parseAlt fuel q.depth q.groups s = some (r, g, t) ∧ Final q.depth t ∧ Rest (q.at g) true t ∧
      t.length ≤ s.length
  branch : ∀ {q : Scan} {s}, 3 * s.length + 2 ≤ fuel → Rest q false s →
    ∃ r g t, parseBranch fuel q.depth q.groups s = some (r, g, t) ∧ Stop q.depth t ∧ Rest (q.at g) true t ∧
      t.length ≤ s.length
  atom : ∀ {q : Scan} {s}, 3 * s.length + 1 ≤ fuel → ¬ Stop q.depth s → Rest q false s →
    ∃ r g t again, parseAtom fuel q.depth q.groups s = some (r, g, t, again) ∧ Rest (q.at g) again t ∧
      t.length < s.length

theorem completes (fuel : Nat) : Completes fuel := by
  induction fuel with
  | zero => exact ⟨fun h => by omega, fun h => by omega, fun h => by omega⟩
  | succ fuel ih =>
    refine ⟨fun {q s} hf hq hs => ?_, fun {q s} hf hs => ?_, fun {q s} hf hstop hs => ?_⟩
    · obtain ⟨r, g, t, hb, hstop, ht, hle⟩ := ih.branch (by omega) hs
      rw [parseAlt, hb]
      rcases hstop with rfl | hbar | ⟨hclose, hd⟩
      · exact ⟨r, g, [], rfl, .inl rfl, ht, hle⟩
      · obtain ⟨u, rfl⟩ := List.head?_eq_some_iff.1 hbar
        rw [List.length_cons] at hle
        obtain ⟨r', g', v, ha, hfinal, hv, hle'⟩ := ih.alt (q := (q.at g).barred) (by omega) rfl ht.of_bar
        have ha : parseAlt fuel q.depth (g.restart q.groups.closed) u = some (r', g', v) := by rw [hq]; exact ha
        refine ⟨.alt r r', g'.merge g.closed, v, ?_, hfinal, ?_, by omega⟩
        · simp only [Option.bind_eq_bind, Option.bind_some, ha]
        · refine Rest.merged (q := (q.at g).barred.at g') hfinal hv rfl rfl ?_
          exact congrArg (Groups.mk g'.next) (List.append_assoc ..).symm
      · obtain ⟨u, rfl⟩ := List.head?_eq_some_iff.1 hclose
        exact ⟨r, g, _, rfl, .inr ⟨rfl, hd⟩, ht, hle⟩
    · by_cases hstop : Stop q.depth s
      · refine ⟨.eps, q.groups, s, ?_, hstop, hs.free true, le_rfl⟩
        unfold Stop at hstop
        rw [parseBranch, if_pos hstop]
      · obtain ⟨r, g, t, again, ha, ht, hlt⟩ := ih.atom (by omega) hstop hs
        unfold Stop at hstop
        rw [parseBranch, if_neg hstop, ha]
        simp only [Option.bind_eq_bind, Option.bind_some]
        cases again with
        | true =>
          obtain ⟨r', u, hd, hu, hle⟩ := dups_complete r ht (Nat.lt_succ_self _)
          obtain ⟨r'', g', v, hb, hstop', hv, hle'⟩ := ih.branch (by omega) hu
          refine ⟨.cat r' r'', g', v, ?_, hstop', hv, by omega⟩
          have hb : parseBranch fuel q.depth g u = some (r'', g', v) := hb
          rw [if_pos rfl, hd, Option.bind_some, hb]
          rfl
        | false =>
          obtain ⟨r'', g', v, hb, hstop', hv, hle'⟩ := ih.branch (by omega) ht
          refine ⟨.cat r r'', g', v, ?_, hstop', hv, by omega⟩
          have hb : parseBranch fuel q.depth g t = some (r'', g', v) := hb
          rw [if_neg (by decide), hb]
          rfl
    · cases hs with
      | done => exact absurd (.inl rfl) hstop
      | opens h =>
        rw [List.length_cons] at hf
        obtain ⟨r, g, t, ha, hfinal, ht, hle⟩ := ih.alt (q := q.opened) (by omega) rfl h
        -- the group is not the end of the text
        rcases hfinal with rfl | ⟨hclose, -⟩
        · cases ht with
          | done hq => cases hq
        · obtain ⟨u, rfl⟩ := List.head?_eq_some_iff.1 hclose
          rw [List.length_cons] at hle
          have ha : parseAlt fuel (q.depth + 1) q.groups.enter _ = some (r, g, 41 :: u) := ha
          refine ⟨.group q.groups.next r, g.leave q.groups.next, u, true, ?_, ht.of_close rfl, by rw [List.length_cons]; omega⟩
          simp only [parseAtom, Option.bind_eq_bind, ha, Option.bind_some]
      | closes hq h =>
        have hd : 0 < q.depth := by rw [Scan.depth, hq]; exact Nat.succ_pos _
        exact absurd (.inr (.inr ⟨rfl, hd⟩)) hstop
      | bar h => exact absurd (.inr (.inl rfl)) hstop
      | anchor hc h => rcases hc with rfl | rfl <;> exact ⟨_, _, _, _, rfl, h, Nat.lt_succ_self _⟩
      | bracket hb h =>
        rename_i r u t
        refine ⟨r, q.groups, t, true, ?_, h, (bracket_length hb).trans (Nat.lt_succ_self _)⟩
        simp only [parseAtom, hb, Option.map_some]
      | backref hc hg h =>
        rename_i c t
        refine ⟨.backref (c.toNat - 48), q.groups, t, true, ?_, h, by simp only [List.length_cons]; omega⟩
        unfold BackRef at hc
        rw [parseAtom, if_pos hc, if_pos hg]
      | escape hc h =>
        rename_i c t
        refine ⟨(escape c).1, q.groups, t, (escape c).2, ?_, h, by simp only [List.length_cons]; omega⟩
        unfold BackRef at hc
        rw [parseAtom, if_neg hc]
      | char hc hd h =>
        obtain ⟨r, hr⟩ := parseAtom_char hc
        exact ⟨r, q.groups, _, true, hr, h, Nat.lt_succ_self _⟩

/-- `regcomp` compiles what is well formed. -/
theorem regcomp_isSome_iff (s : Bytes) : (regcomp s).isSome ↔ WellFormed s := by
  unfold regcomp WellFormed
  constructor
  · intro h
    split at h
    · rename_i r g hp
      exact ((reads _).alt (q := .start) hp rfl).2 (.done rfl)
    · cases h
  · intro h
    obtain ⟨r, g, t, hp, hfinal, -, -⟩ := (completes _).alt (q := .start) le_rfl rfl h
    have hp : parseAlt (3 * s.length + 3) 0 ⟨1, []⟩ s = some (r, g, t) := hp
    rcases hfinal with rfl | ⟨-, hd⟩
    · rw [hp]
      rfl
    · exact absurd hd (lt_irrefl 0)

instance (s : Bytes) : Decidable (WellFormed s) := decidable_of_iff _ (regcomp_isSome_iff s)

end Ere
