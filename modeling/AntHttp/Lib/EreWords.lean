import AntHttp.Lib.EreSyntax
/-!
# Searching for a word

`\bw\b` finds a word `w` where the text has it, in any letter case, and no
character of a word stands beside it. So a longer word that contains it does
not count, and a character that is no part of words may stand on either side.
-/

namespace Ere

open CString

/-- Some stretch of the text matches. -/
def Found (r : Ere) (s : Bytes) : Prop := ∃ i j d, i ≤ s.length ∧ Matches s r i Caps.none j d

theorem Posix.found_iff {exec : Ere → Bytes → Option Caps} (h : Posix exec) {r : Ere} (hr : r.regular = true) (s : Bytes) :
    (exec r s).isSome ↔ Found r s := h.isSome_iff hr s

/-- What is found: a matching stretch, or, with a back-reference, what `exec` takes for one. -/
def FoundBy (exec : Ere → Bytes → Option Caps) (r : Ere) (s : Bytes) : Prop :=
  if r.regular then Found r s else (exec r s).isSome

theorem Posix.foundBy_iff {exec : Ere → Bytes → Option Caps} (h : Posix exec) (r : Ere) (s : Bytes) :
    (exec r s).isSome ↔ FoundBy exec r s := by
  unfold FoundBy
  split
  · rename_i hr
    exact h.found_iff hr s
  · exact Iff.rfl

theorem foundBy_regular (exec : Ere → Bytes → Option Caps) {r : Ere} (hr : r.regular = true) (s : Bytes) :
    FoundBy exec r s ↔ Found r s := by
  rw [FoundBy, if_pos hr]

/-- The text has the word, up to letter case, and no character of a word beside it. -/
def WholeWord (s w : Bytes) : Prop :=
  ∃ pre m post, s = pre ++ m ++ post ∧ strcaseeq m w = true ∧ (∀ c ∈ pre.getLast?, isWord c = false) ∧
    ∀ c ∈ post.head?, isWord c = false

/-! ## Letter case -/

theorem tolower_toNat (c : UInt8) : (tolower c).toNat = if 65 ≤ c.toNat ∧ c.toNat ≤ 90 then c.toNat + 32 else c.toNat := by
  simp only [tolower, isupper, decide_eq_true_eq, UInt8.le_iff_toNat_le]
  have hc : (65 : UInt8).toNat = 65 ∧ (90 : UInt8).toNat = 90 := ⟨rfl, rfl⟩
  rw [hc.1, hc.2]
  split
  · rw [UInt8.toNat_add]
    change (c.toNat + 32) % 256 = _
    omega
  · rfl

theorem toupper_toNat (c : UInt8) : (toupper c).toNat = if 97 ≤ c.toNat ∧ c.toNat ≤ 122 then c.toNat - 32 else c.toNat := by
  simp only [toupper, islower, decide_eq_true_eq, UInt8.le_iff_toNat_le]
  have hc : (97 : UInt8).toNat = 97 ∧ (122 : UInt8).toNat = 122 := ⟨rfl, rfl⟩
  rw [hc.1, hc.2]
  split
  · rename_i h
    exact UInt8.toNat_sub_of_le c 32 (UInt8.le_iff_toNat_le.2 (le_trans (by decide) h.1))
  · rfl

/-- Two characters are the same in upper case exactly if they are in lower case. -/
theorem toupper_eq_iff {b c : UInt8} : toupper c = toupper b ↔ tolower c = tolower b := by
  rw [← UInt8.toNat_inj, ← UInt8.toNat_inj, toupper_toNat, toupper_toNat, tolower_toNat, tolower_toNat]
  split_ifs <;> omega

theorem isWord_tolower (c : UInt8) : isWord (tolower c) = isWord c := by
  have hc : (65 : UInt8).toNat = 65 ∧ (90 : UInt8).toNat = 90 := ⟨rfl, rfl⟩
  have hd : (97 : UInt8).toNat = 97 ∧ (122 : UInt8).toNat = 122 := ⟨rfl, rfl⟩
  have he : (48 : UInt8).toNat = 48 ∧ (57 : UInt8).toNat = 57 ∧ (95 : UInt8).toNat = 95 := ⟨rfl, rfl, rfl⟩
  rw [Bool.eq_iff_iff]
  simp only [isWord, isalnum, isdigit, isupper, islower, Bool.or_eq_true, decide_eq_true_eq, UInt8.le_iff_toNat_le,
    ← UInt8.toNat_inj, tolower_toNat, hc, hd, he]
  split <;> omega

theorem lit_mem {b c : UInt8} : (⟨false, [(toupper b, toupper b)]⟩ : CharSet).mem c = true ↔ tolower c = tolower b := by
  rw [← toupper_eq_iff]
  simp only [CharSet.mem, CharSet.has, List.any_cons, List.any_nil, Bool.or_false, Bool.bne_false, decide_eq_true_eq]
  constructor
  · rintro ⟨h1, h2⟩
    exact UInt8.le_antisymm h2 h1
  · intro h
    rw [h]
    exact ⟨UInt8.le_refl _, UInt8.le_refl _⟩

/-- In another letter case a word is still one. -/
theorem isWord_of_strcaseeq {m w : Bytes} (h : strcaseeq m w = true) (hw : ∀ c ∈ w, isWord c = true) :
    ∀ c ∈ m, isWord c = true := by
  intro c hc
  have hm : m.map tolower = w.map tolower := of_decide_eq_true h
  have hc' : tolower c ∈ w.map tolower := hm ▸ List.mem_map_of_mem hc
  obtain ⟨b, hb, hbc⟩ := List.mem_map.1 hc'
  rw [← isWord_tolower, ← hbc, isWord_tolower]
  exact hw b hb

theorem strcaseeq_length {m w : Bytes} (h : strcaseeq m w = true) : m.length = w.length := by
  have hm : m.map tolower = w.map tolower := of_decide_eq_true h
  simpa using congrArg List.length hm

/-! ## Literal characters -/

theorem matches_lit {s : Bytes} {b : UInt8} {i j : Nat} {c d : Caps} :
    Matches s (lit b) i c j d ↔ (∃ x, s[i]? = some x ∧ tolower x = tolower b) ∧ j = i + 1 ∧ d = c := by
  constructor
  · intro h
    cases h with
    | set hx hm => exact ⟨⟨_, hx, lit_mem.1 hm⟩, rfl, rfl⟩
  · rintro ⟨⟨x, hx, hm⟩, rfl, rfl⟩
    exact .set hx (lit_mem.2 hm)

/-- The characters of a word match the text that is the word, up to letter case. -/
theorem matches_lits {s w : Bytes} {t : Ere} {i j : Nat} {c d : Caps} :
    Matches s (lits w t) i c j d ↔ ∃ m, m <+: s.drop i ∧ strcaseeq m w = true ∧ Matches s t (i + w.length) c j d := by
  induction w generalizing i with
  | nil =>
    constructor
    · intro h
      exact ⟨[], List.nil_prefix, rfl, h⟩
    · rintro ⟨m, -, -, h⟩
      exact h
  | cons b w ih =>
    have hlen : i + 1 + w.length = i + (b :: w).length := by rw [List.length_cons]; omega
    constructor
    · intro h
      cases h with
      | cat hb hw =>
        obtain ⟨⟨x, hx, hxb⟩, rfl, rfl⟩ := matches_lit.1 hb
        obtain ⟨m, hm, hmw, ht⟩ := ih.1 hw
        obtain ⟨hi, rfl⟩ := List.getElem?_eq_some_iff.1 hx
        refine ⟨s[i] :: m, ?_, ?_, hlen ▸ ht⟩
        · rw [List.drop_eq_getElem_cons hi]
          exact List.cons_prefix_cons.2 ⟨rfl, hm⟩
        · have hmw : m.map tolower = w.map tolower := of_decide_eq_true hmw
          simp [strcaseeq, hxb, hmw]
    · rintro ⟨m, hm, hmw, ht⟩
      cases m with
      | nil => exact absurd (strcaseeq_length hmw) (by simp)
      | cons x m =>
        have hmw : (x :: m).map tolower = (b :: w).map tolower := of_decide_eq_true hmw
        simp only [List.map_cons, List.cons.injEq] at hmw
        obtain ⟨rest, hrest⟩ := hm
        have hx : s[i]? = some x := by rw [← List.head?_drop, ← hrest]; rfl
        have hm' : m <+: s.drop (i + 1) := ⟨rest, by rw [← List.tail_drop, ← hrest]; rfl⟩
        exact .cat (matches_lit.2 ⟨⟨x, hx, hmw.1⟩, rfl, rfl⟩) (ih.2 ⟨m, hm', decide_eq_true hmw.2, hlen ▸ ht⟩)

/-! ## Between boundaries -/

/-- A boundary lies where a word begins or ends. -/
theorem wordb_append (pre t : Bytes) :
    Assertion.wordb.holds (pre ++ t) pre.length = (pre.getLast?.any isWord != t.head?.any isWord) := by
  have hat : wordAt (pre ++ t) pre.length = t.head?.any isWord := by
    rw [wordAt, List.getElem?_append_right (le_refl _), Nat.sub_self, List.head?_eq_getElem?]
  have hbefore : wordBefore (pre ++ t) pre.length = pre.getLast?.any isWord := by
    cases pre using List.reverseRecOn with
    | nil => rfl
    | append_singleton pre c => simp [wordBefore, wordAt]
  rw [Assertion.holds, hat, hbefore]

theorem any_eq_false_iff {o : Option UInt8} : o.any isWord = false ↔ ∀ c ∈ o, isWord c = false := by
  cases o <;> simp

theorem any_head?_word {w : Bytes} (hne : w ≠ []) (hw : ∀ c ∈ w, isWord c = true) (t : Bytes) :
    (w ++ t).head?.any isWord = true := by
  obtain ⟨c, w, rfl⟩ := List.exists_cons_of_ne_nil hne
  exact hw c List.mem_cons_self

theorem any_getLast?_word {w : Bytes} (hne : w ≠ []) (hw : ∀ c ∈ w, isWord c = true) (pre : Bytes) :
    (pre ++ w).getLast?.any isWord = true := by
  rw [List.getLast?_append_of_ne_nil _ hne, List.getLast?_eq_some_getLast hne]
  exact hw _ (List.getLast_mem hne)

/-- What `\bw\b` compiles to finds the word and nothing else. -/
theorem found_word_iff {s w : Bytes} (hne : w ≠ []) (hw : ∀ c ∈ w, isWord c = true) :
    Found (.cat (.assert .wordb) (lits w (.cat (.assert .wordb) .eps))) s ↔ WholeWord s w := by
  constructor
  · rintro ⟨i, j, d, hi, h⟩
    cases h with
    | cat hb h =>
      cases hb with
      | assert hb =>
        obtain ⟨m, ⟨post, hpost⟩, hmw, h⟩ := matches_lits.1 h
        cases h with
        | cat he _ =>
          cases he with
          | assert he =>
            have hm := isWord_of_strcaseeq hmw hw
            have hlen := strcaseeq_length hmw
            have hmne : m ≠ [] := by rintro rfl; exact hne (List.length_eq_zero_iff.1 hlen.symm)
            have hs : s = s.take i ++ (m ++ post) := by rw [hpost, List.take_append_drop]
            have hil : (s.take i).length = i := List.length_take_of_le hi
            generalize s.take i = pre at hs hil
            subst hs hil
            refine ⟨pre, m, post, by rw [List.append_assoc], hmw, ?_, ?_⟩
            · rw [wordb_append, any_head?_word hmne hm] at hb
              exact any_eq_false_iff.1 (by simpa using hb)
            · rw [← List.append_assoc, ← hlen, ← List.length_append, wordb_append, any_getLast?_word hmne hm] at he
              exact any_eq_false_iff.1 (by simpa using he)
  · rintro ⟨pre, m, post, rfl, hmw, hpre, hpost⟩
    have hm := isWord_of_strcaseeq hmw hw
    have hlen := strcaseeq_length hmw
    have hmne : m ≠ [] := by rintro rfl; exact hne (List.length_eq_zero_iff.1 hlen.symm)
    have hb : Assertion.wordb.holds (pre ++ m ++ post) pre.length = true := by
      rw [List.append_assoc, wordb_append, any_head?_word hmne hm]
      simp [any_eq_false_iff.2 hpre]
    have he : Assertion.wordb.holds (pre ++ m ++ post) (pre.length + w.length) = true := by
      rw [← hlen, ← List.length_append, wordb_append, any_getLast?_word hmne hm]
      simp [any_eq_false_iff.2 hpost]
    refine ⟨pre.length, _, _, by simp, .cat (.assert hb) (matches_lits.2 ⟨m, ?_, hmw, .cat (.assert he) .eps⟩)⟩
    rw [List.append_assoc, List.drop_left]
    exact List.prefix_append m post

/-! ## Repeated characters -/

theorem matches_cat {s : Bytes} {r t : Ere} {i k : Nat} {c e : Caps} :
    Matches s (.cat r t) i c k e ↔ ∃ j d, Matches s r i c j d ∧ Matches s t j d k e := by
  constructor
  · intro h
    cases h with
    | cat hr ht => exact ⟨_, _, hr, ht⟩
  · rintro ⟨j, d, hr, ht⟩
    exact .cat hr ht

theorem matches_eps {s : Bytes} {i j : Nat} {c d : Caps} : Matches s .eps i c j d ↔ j = i ∧ d = c := by
  constructor
  · intro h
    cases h
    exact ⟨rfl, rfl⟩
  · rintro ⟨rfl, rfl⟩
    exact .eps

theorem matches_group {s : Bytes} {r : Ere} {n i j : Nat} {c e : Caps} :
    Matches s (.group n r) i c j e ↔ ∃ d, Matches s r i c j d ∧ e = Function.update d n (some (i, j)) := by
  constructor
  · intro h
    cases h with
    | group h => exact ⟨_, h, rfl⟩
  · rintro ⟨d, h, rfl⟩
    exact .group h

theorem matches_set {s : Bytes} {cs : CharSet} {i j : Nat} {c d : Caps} :
    Matches s (.set cs) i c j d ↔ (∃ x, s[i]? = some x ∧ cs.mem x = true) ∧ j = i + 1 ∧ d = c := by
  constructor
  · intro h
    cases h with
    | set hx hm => exact ⟨⟨_, hx, hm⟩, rfl, rfl⟩
  · rintro ⟨⟨x, hx, hm⟩, rfl, rfl⟩
    exact .set hx hm

theorem getElem?_of_prefix {s w : Bytes} {x : UInt8} {i : Nat} : x :: w <+: s.drop i ↔ s[i]? = some x ∧ w <+: s.drop (i + 1) := by
  constructor
  · rintro ⟨rest, hrest⟩
    exact ⟨by rw [← List.head?_drop, ← hrest]; rfl, rest, by rw [← List.tail_drop, ← hrest]; rfl⟩
  · rintro ⟨hx, hw⟩
    obtain ⟨hi, rfl⟩ := List.getElem?_eq_some_iff.1 hx
    rw [List.drop_eq_getElem_cons hi]
    exact List.cons_prefix_cons.2 ⟨rfl, hw⟩

/-- The text that characters of a set match. -/
theorem matches_star_set {s : Bytes} {cs : CharSet} {i j : Nat} {c d : Caps} :
    Matches s (.star (.set cs)) i c j d ↔ ∃ w, w <+: s.drop i ∧ (∀ x ∈ w, cs.mem x = true) ∧ j = i + w.length ∧ d = c := by
  constructor
  · intro h
    generalize hr : star (.set cs) = r at h
    induction h with
    | done => exact ⟨[], List.nil_prefix, nofun, rfl, rfl⟩
    | more h1 _ _ ih =>
      cases hr
      obtain ⟨⟨x, hx, hm⟩, rfl, rfl⟩ := matches_set.1 h1
      obtain ⟨w, hw, hall, rfl, rfl⟩ := ih rfl
      refine ⟨x :: w, getElem?_of_prefix.2 ⟨hx, hw⟩, List.forall_mem_cons.2 ⟨hm, hall⟩, ?_, rfl⟩
      rw [List.length_cons]
      omega
    | _ => cases hr
  · rintro ⟨w, hw, hall, rfl, rfl⟩
    induction w generalizing i with
    | nil => exact .done
    | cons x w ih =>
      obtain ⟨hx, hw⟩ := getElem?_of_prefix.1 hw
      obtain ⟨hm, hall⟩ := List.forall_mem_cons.1 hall
      have hmore := ih hw hall
      rw [show i + 1 + w.length = i + (x :: w).length by rw [List.length_cons]; omega] at hmore
      exact .more (matches_set.2 ⟨⟨x, hx, hm⟩, rfl, rfl⟩) hmore

/-- The text that one or more characters of a set match. -/
theorem matches_plus_set {s : Bytes} {cs : CharSet} {i j : Nat} {c d : Caps} :
    Matches s (.cat (.set cs) (.star (.set cs))) i c j d ↔
      ∃ w, w ≠ [] ∧ w <+: s.drop i ∧ (∀ x ∈ w, cs.mem x = true) ∧ j = i + w.length ∧ d = c := by
  rw [matches_cat]
  constructor
  · rintro ⟨j₁, d₁, hone, hmore⟩
    obtain ⟨⟨x, hx, hm⟩, rfl, rfl⟩ := matches_set.1 hone
    obtain ⟨w, hw, hall, rfl, rfl⟩ := matches_star_set.1 hmore
    refine ⟨x :: w, nofun, getElem?_of_prefix.2 ⟨hx, hw⟩, List.forall_mem_cons.2 ⟨hm, hall⟩, ?_, rfl⟩
    rw [List.length_cons]
    omega
  · rintro ⟨w, hne, hw, hall, rfl, rfl⟩
    obtain ⟨x, w, rfl⟩ := List.exists_cons_of_ne_nil hne
    obtain ⟨hx, hw⟩ := getElem?_of_prefix.1 hw
    obtain ⟨hm, hall⟩ := List.forall_mem_cons.1 hall
    refine ⟨i + 1, _, matches_set.2 ⟨⟨x, hx, hm⟩, rfl, rfl⟩, matches_star_set.2 ⟨w, hw, hall, ?_, rfl⟩⟩
    rw [List.length_cons]
    omega

end Ere
