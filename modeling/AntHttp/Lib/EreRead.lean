import AntHttp.Lib.EreForm
import AntHttp.Lib.EreWords
/-!
# Reading an expression piece by piece

Each piece of an expression is read before what follows it, whatever that is,
and what the piece matches comes before what the rest matches. So an
expression that is put together around a text is known for every such text, as
long as its characters all stand for themselves.
-/

namespace Ere

open CString

/-! ## What is read -/

/-- With fuel enough for `s`, alternatives are read as `r` up to `t`. -/
def AltReads (depth : Nat) (n : Groups) (s : Bytes) (r : Ere) (m : Groups) (t : Bytes) : Prop :=
  ∀ fuel, 3 * s.length + 3 ≤ fuel → parseAlt fuel depth n s = some (r, m, t)

/-- The same of the pieces of one branch. -/
def BranchReads (depth : Nat) (n : Groups) (s : Bytes) (r : Ere) (m : Groups) (t : Bytes) : Prop :=
  ∀ fuel, 3 * s.length + 2 ≤ fuel → parseBranch fuel depth n s = some (r, m, t)

/-- No repetition comes first. -/
def Single (s : Bytes) : Prop := ∀ c ∈ s.head?, c ∉ str "*+?\x7b"

/-- The character stands for itself wherever it is. -/
def Ordinary (c : UInt8) : Prop := c ∉ str "()*+.?[\\^\x7b|$"

instance : DecidablePred Ordinary := fun _ => inferInstanceAs (Decidable (_ ∉ _))

section Reading

variable {depth : Nat} {n m k : Groups} {s t u : Bytes} {r r' : Ere}

theorem dups_single (fuel : Nat) (r : Ere) (h : Single s) : dups (fuel + 1) r s = some (r, s) := by
  unfold dups
  split <;> first | rfl | exact absurd (by decide) (h _ rfl)

theorem single_cons {c : UInt8} (h : Ordinary c) (s : Bytes) : Single (c :: s) := by
  rintro b hb hmem
  have hsub : str "*+?\x7b" ⊆ str "()*+.?[\\^\x7b|$" := by decide
  obtain rfl : c = b := by simpa using hb
  exact h (hsub hmem)

theorem Ordinary.not_stop {c : UInt8} (h : Ordinary c) (depth : Nat) (s : Bytes) : ¬ Stop depth (c :: s) := by
  rintro (h0 | hbar | ⟨hclose, -⟩)
  · cases h0
  · obtain rfl : c = 124 := by simpa using hbar
    exact h (by decide)
  · obtain rfl : c = 41 := by simpa using hclose
    exact h (by decide)

theorem parseAtom_ordinary {c : UInt8} (fuel depth : Nat) (n : Groups) (s : Bytes) (h : Ordinary c) :
    parseAtom (fuel + 1) depth n (c :: s) = some (lit c, n, s, true) := by
  unfold parseAtom
  split <;> simp_all [Ordinary, str]

theorem BranchReads.stop (n : Groups) (h : Stop depth s) : BranchReads depth n s .eps n s := by
  intro fuel hf
  obtain ⟨fuel, rfl⟩ := Nat.exists_eq_add_of_lt (Nat.lt_of_lt_of_le (Nat.succ_pos _) hf)
  unfold Stop at h
  rw [Nat.zero_add, parseBranch, if_pos h]

/-- An atom that no repetition follows is read before the rest. -/
theorem BranchReads.atom (again : Bool) {v : Bytes} {j : Groups} (hs : ¬ Stop depth s)
    (ha : ∀ fuel, 3 * s.length + 1 ≤ fuel → parseAtom fuel depth n s = some (r, k, u, again)) (hu : Single u)
    (hlt : u.length < s.length) (hr : BranchReads depth k u r' j v) : BranchReads depth n s (.cat r r') j v := by
  intro fuel hf
  obtain ⟨fuel, rfl⟩ : ∃ f, fuel = f + 1 := ⟨fuel - 1, by omega⟩
  unfold Stop at hs
  rw [parseBranch, if_neg hs, ha fuel (by omega)]
  cases again <;> simp only [Option.bind_eq_bind, Option.bind_some, dups_single _ _ hu, hr fuel (by omega), if_true, Bool.false_eq_true,
    if_false]

theorem BranchReads.lit {c : UInt8} (hc : Ordinary c) (hs : Single s) (h : BranchReads depth n s r m t) :
    BranchReads depth n (c :: s) (.cat (lit c) r) m t := by
  apply h.atom true (hc.not_stop depth s) ?_ hs (Nat.lt_succ_self _)
  intro fuel hf
  obtain ⟨fuel, rfl⟩ : ∃ f, fuel = f + 1 := ⟨fuel - 1, by omega⟩
  exact parseAtom_ordinary fuel depth n s hc

theorem single_append {w : Bytes} (hw : ∀ c ∈ w, Ordinary c) (hs : Single s) : Single (w ++ s) := by
  cases w with
  | nil => exact hs
  | cons c w => exact single_cons (hw c List.mem_cons_self) _

theorem BranchReads.lits {w : Bytes} (hw : ∀ c ∈ w, Ordinary c) (hs : Single s) (h : BranchReads depth n s r m t) :
    BranchReads depth n (w ++ s) (lits w r) m t := by
  induction w with
  | nil => exact h
  | cons c w ih =>
    obtain ⟨hc, hw⟩ := List.forall_mem_cons.1 hw
    exact (ih hw).lit hc (single_append hw hs)

/-- `\s*` -/
theorem BranchReads.spaces (hs : Single s) (h : BranchReads depth n s r m t) :
    BranchReads depth n (str "\\s*" ++ s) (.cat (.star (spaceSet false)) r) m t := by
  intro fuel hf
  have hlen : (str "\\s*" ++ s).length = s.length + 3 := by simp [str]
  rw [hlen] at hf
  obtain ⟨fuel, rfl⟩ : ∃ f, fuel = f + 2 := ⟨fuel - 2, by omega⟩
  have hatom : parseAtom (fuel + 1) depth n (str "\\s*" ++ s) = some (spaceSet false, n, 42 :: s, true) := rfl
  have hstop : ¬ (str "\\s*" ++ s = [] ∨ (str "\\s*" ++ s).head? = some 124 ∨ ((str "\\s*" ++ s).head? = some 41 ∧ 0 < depth)) := by
    simp [str]
  have hdups : dups ((42 :: s).length + 1) (spaceSet false) (42 :: s) = some (.star (spaceSet false), s) :=
    dups_single s.length (.star (spaceSet false)) hs
  rw [parseBranch, if_neg hstop, hatom]
  simp only [Option.bind_eq_bind, Option.bind_some, if_true, hdups, h (fuel + 1) (by omega)]

theorem BranchReads.bol (hs : Single s) (h : BranchReads depth n s r m t) :
    BranchReads depth n (94 :: s) (.cat (.assert .bol) r) m t := by
  apply h.atom false (by simp [Stop]) ?_ hs (Nat.lt_succ_self _)
  intro fuel hf
  obtain ⟨fuel, rfl⟩ : ∃ f, fuel = f + 1 := ⟨fuel - 1, by omega⟩
  rfl

theorem BranchReads.eol (hs : Single s) (h : BranchReads depth n s r m t) :
    BranchReads depth n (36 :: s) (.cat (.assert .eol) r) m t := by
  apply h.atom false (by simp [Stop]) ?_ hs (Nat.lt_succ_self _)
  intro fuel hf
  obtain ⟨fuel, rfl⟩ : ∃ f, fuel = f + 1 := ⟨fuel - 1, by omega⟩
  rfl

/-- A group is read before the rest of its branch. -/
theorem BranchReads.group {v : Bytes} {j : Groups} (hg : AltReads (depth + 1) n.enter s r k (41 :: u))
    (hle : u.length < s.length) (hu : Single u) (h : BranchReads depth (k.leave n.next) u r' j v) :
    BranchReads depth n (40 :: s) (.cat (.group n.next r) r') j v := by
  apply h.atom true (by simp [Stop]) ?_ hu (hle.trans (Nat.lt_succ_self _))
  intro fuel hf
  rw [List.length_cons] at hf
  obtain ⟨fuel, rfl⟩ : ∃ f, fuel = f + 1 := ⟨fuel - 1, by omega⟩
  simp only [parseAtom, hg fuel (by omega), Option.bind_eq_bind, Option.bind_some]

theorem BranchReads.alone (h : BranchReads depth n s r m t) (ht : t.head? ≠ some 124) : AltReads depth n s r m t := by
  intro fuel hf
  obtain ⟨fuel, rfl⟩ : ∃ f, fuel = f + 1 := ⟨fuel - 1, by omega⟩
  rw [parseAlt, h fuel (by omega)]
  simp only [Option.bind_eq_bind, Option.bind_some]
  split
  · exact absurd rfl ht
  · rfl

theorem AltReads.bar (h : BranchReads depth n s r k (124 :: u)) (hlt : u.length < s.length)
    (hr : AltReads depth (k.restart n.closed) u r' m t) : AltReads depth n s (.alt r r') (m.merge k.closed) t := by
  intro fuel hf
  obtain ⟨fuel, rfl⟩ : ∃ f, fuel = f + 1 := ⟨fuel - 1, by omega⟩
  rw [parseAlt, h fuel (by omega)]
  simp only [Option.bind_eq_bind, Option.bind_some, hr fuel (by omega)]

theorem regcomp_of_reads (h : AltReads 0 ⟨1, []⟩ s r m []) : regcomp s = some r := by
  unfold regcomp
  rw [h _ le_rfl]

end Reading

/-! ## What is found -/

/-- `r` matches at the place between the two texts. -/
def Leads (r : Ere) (pre rest : Bytes) : Prop := ∃ j d, Matches (pre ++ rest) r pre.length Caps.none j d

section Finding

variable {r t : Ere} {pre rest s : Bytes}

theorem found_iff_leads : Found r s ↔ ∃ pre rest, s = pre ++ rest ∧ Leads r pre rest := by
  constructor
  · rintro ⟨i, j, d, hi, h⟩
    refine ⟨s.take i, s.drop i, (List.take_append_drop i s).symm, j, d, ?_⟩
    rwa [List.take_append_drop, List.length_take_of_le hi]
  · rintro ⟨pre, rest, rfl, j, d, h⟩
    exact ⟨pre.length, j, d, by simp, h⟩

theorem leads_eps : Leads .eps pre rest := ⟨_, _, .eps⟩

theorem leads_alt : Leads (.alt r t) pre rest ↔ Leads r pre rest ∨ Leads t pre rest := by
  constructor
  · rintro ⟨j, d, h⟩
    cases h with
    | altl h => exact .inl ⟨_, _, h⟩
    | altr h => exact .inr ⟨_, _, h⟩
  · rintro (⟨j, d, h⟩ | ⟨j, d, h⟩)
    · exact ⟨_, _, .altl h⟩
    · exact ⟨_, _, .altr h⟩

/-- A group at the end of a branch. -/
theorem leads_group {n : Nat} : Leads (.cat (.group n r) .eps) pre rest ↔ Leads r pre rest := by
  constructor
  · rintro ⟨j, d, h⟩
    obtain ⟨j, d, hg, -⟩ := matches_cat.1 h
    obtain ⟨d, hr, -⟩ := matches_group.1 hg
    exact ⟨_, _, hr⟩
  · rintro ⟨j, d, h⟩
    exact ⟨_, _, .cat (.group h) .eps⟩

theorem leads_bol : Leads (.cat (.assert .bol) t) pre rest ↔ pre = [] ∧ Leads t pre rest := by
  constructor
  · rintro ⟨k, e, h⟩
    obtain ⟨j, d, ha, ht⟩ := matches_cat.1 h
    cases ha with
    | assert ha => exact ⟨by simpa [Assertion.holds] using ha, _, _, ht⟩
  · rintro ⟨rfl, k, e, h⟩
    exact ⟨_, _, .cat (.assert rfl) h⟩

theorem leads_eol : Leads (.cat (.assert .eol) t) pre rest ↔ rest = [] ∧ Leads t pre rest := by
  constructor
  · rintro ⟨k, e, h⟩
    obtain ⟨j, d, ha, ht⟩ := matches_cat.1 h
    cases ha with
    | assert ha => exact ⟨by simpa [Assertion.holds] using ha, _, _, ht⟩
  · rintro ⟨rfl, k, e, h⟩
    exact ⟨_, _, .cat (.assert (by simp [Assertion.holds])) h⟩

theorem leads_shift {w v : Bytes} {j : Nat} {d : Caps} :
    Matches (pre ++ (w ++ v)) t (pre.length + w.length) Caps.none j d ↔
      Matches (pre ++ w ++ v) t (pre ++ w).length Caps.none j d := by
  rw [List.append_assoc, List.length_append]

theorem leads_lits {w : Bytes} :
    Leads (lits w t) pre rest ↔ ∃ m v, rest = m ++ v ∧ strcaseeq m w = true ∧ Leads t (pre ++ m) v := by
  constructor
  · rintro ⟨k, e, h⟩
    obtain ⟨m, hm, hmw, ht⟩ := matches_lits.1 h
    rw [List.drop_left] at hm
    obtain ⟨v, rfl⟩ := hm
    rw [← strcaseeq_length hmw] at ht
    exact ⟨m, v, rfl, hmw, _, _, leads_shift.1 ht⟩
  · rintro ⟨m, v, rfl, hmw, k, e, h⟩
    refine ⟨k, e, matches_lits.2 ⟨m, ?_, hmw, ?_⟩⟩
    · rw [List.drop_left]
      exact List.prefix_append m v
    · rw [← strcaseeq_length hmw]
      exact leads_shift.2 h

theorem leads_lit {b : UInt8} :
    Leads (.cat (lit b) t) pre rest ↔ ∃ x v, rest = x :: v ∧ tolower x = tolower b ∧ Leads t (pre ++ [x]) v := by
  change Leads (lits [b] t) pre rest ↔ _
  rw [leads_lits]
  constructor
  · rintro ⟨m, v, rfl, hm, h⟩
    obtain ⟨x, rfl⟩ := List.length_eq_one_iff.1 (strcaseeq_length hm)
    exact ⟨x, v, rfl, by simpa [strcaseeq] using hm, h⟩
  · rintro ⟨x, v, rfl, hx, h⟩
    exact ⟨[x], v, rfl, by simpa [strcaseeq] using hx, h⟩

theorem leads_star {cs : CharSet} :
    Leads (.cat (.star (.set cs)) t) pre rest ↔
      ∃ w v, rest = w ++ v ∧ (∀ x ∈ w, cs.mem x = true) ∧ Leads t (pre ++ w) v := by
  constructor
  · rintro ⟨k, e, h⟩
    obtain ⟨j, d, hs, ht⟩ := matches_cat.1 h
    obtain ⟨w, hw, hall, rfl, rfl⟩ := matches_star_set.1 hs
    rw [List.drop_left] at hw
    obtain ⟨v, rfl⟩ := hw
    exact ⟨w, v, rfl, hall, _, _, leads_shift.1 ht⟩
  · rintro ⟨w, v, rfl, hall, k, e, h⟩
    refine ⟨k, e, matches_cat.2 ⟨_, _, matches_star_set.2 ⟨w, ?_, hall, rfl, rfl⟩, leads_shift.2 h⟩⟩
    rw [List.drop_left]
    exact List.prefix_append w v

end Finding

end Ere
