import AntHttp.Lib.EreRead
import AntHttp.Utils
import AntHttp.Sample
/-!
# The type of an extension (`mime_from_ext` in `lib/utils.c`)

The extension is put into a regular expression as it is, and the first type
whose list of extensions the expression matches is the file's. A character
that means something in an expression is not looked for in the list: it says
what else is taken for the extension.
-/

namespace AntHttp.Mime

open CString Ere

/-! ## The code -/

structure mime_t where
  type : Bytes
  ext : Option Bytes
  deriving DecidableEq

/-- The first type of the list whose extensions the pattern matches. -/
def mime_from_ext.find (regexec : Regexec) (ex : Bytes) : Chain Bytes → Res mime_t
  | [] => .ok ⟨OCTET_STREAM, none⟩
  | (type, value) :: its => do
    let v ← deref value
    let m ← regex_match regexec (mimePattern ex) v
    if m.isSome then .ok ⟨type, value⟩ else mime_from_ext.find regexec ex its

def mime_from_ext (regexec : Regexec) (mime_list : Dictionary Bytes) (ex : Bytes) : Res mime_t :=
  mime_from_ext.find regexec ex mime_list.assocs

/-- `mime` takes the type of what is found. -/
theorem mime_from_ext_type (regexec : Regexec) (mime_list : Dictionary Bytes) (ex : Bytes) :
    (mime_from_ext regexec mime_list ex).map mime_t.type = AntHttp.mime_from_ext regexec mime_list ex := by
  unfold mime_from_ext AntHttp.mime_from_ext
  induction mime_list.assocs with
  | nil => rfl
  | cons it its ih =>
    rw [mime_from_ext.find, AntHttp.mime_from_ext.find, ← ih]
    cases hv : it.2 with
    | none => rfl
    | some v =>
      simp only [deref_some, Res.ok_bind]
      cases hm : regex_match regexec (mimePattern ex) v with
      | error e => rfl
      | ok m =>
        simp only [Res.ok_bind]
        split <;> rfl

/-! ## What it is for -/

/-- A text without the white space around it. -/
def strip (s : Bytes) : Bytes := (s.rdropWhile isspace).dropWhile isspace

/-- The extension is an element of the list, up to letter case. -/
def Lists (v ex : Bytes) : Prop := ∃ e ∈ split 44 v, strcaseeq (strip e) ex = true

instance (v ex : Bytes) : Decidable (Lists v ex) := inferInstanceAs (Decidable (∃ e ∈ split 44 v, _))

/-- The first type that lists the extension. -/
def byElement (ex : Bytes) : Chain Bytes → mime_t
  | [] => ⟨OCTET_STREAM, none⟩
  | (type, value) :: its => if ∃ v ∈ value, Lists v ex then ⟨type, value⟩ else byElement ex its

/-- The entries up to the first that lists the extension. -/
def upTo (ex : Bytes) : Chain Bytes → Chain Bytes
  | [] => []
  | it :: its => it :: if ∃ v ∈ it.2, Lists v ex then [] else upTo ex its

/-- No character of it means anything in a regular expression. -/
def Plain (ex : Bytes) : Prop := ∀ c ∈ ex, Ordinary c

instance (ex : Bytes) : Decidable (Plain ex) := inferInstanceAs (Decidable (∀ c ∈ ex, Ordinary c))

/-- The pattern compiles and finds the extension among the elements, and nothing else for it. -/
def FindsElements (regexec : Regexec) (ex v : Bytes) : Prop :=
  ∃ r ∈ regcomp (mimePattern ex), (FoundBy regexec r v ↔ Lists v ex)

/-! ## The pattern of plain text -/

/-- What `\s*` compiles to. -/
def spaces : Ere := .star (spaceSet false)

/-- The extension with white space around it. -/
def padded (ex : Bytes) (r : Ere) : Ere := .cat spaces (lits ex (.cat spaces r))

/-- What the pattern compiles to: a first, a middle, an only and a last element. -/
def mimeEre (ex : Bytes) : Ere :=
  let comma r := Ere.cat (lit 44) r
  let one n r t := Ere.alt (.cat (.group n r) .eps) t
  one 1 (.cat (.assert .bol) (padded ex (comma .eps)))
    (one 2 (.cat spaces (comma (padded ex (comma (.cat spaces .eps)))))
      (one 3 (.cat (.assert .bol) (padded ex (.cat (.assert .eol) .eps)))
        (.cat (.group 4 (comma (padded ex (.cat (.assert .eol) .eps)))) .eps)))

section Reads

variable {ex s t : Bytes} {r : Ere} {depth : Nat} {n m : Groups}

theorem reads_padded (hex : Plain ex) (hs : Single s) (h : BranchReads depth n s r m t) :
    BranchReads depth n (str "\\s*" ++ (ex ++ (str "\\s*" ++ s))) (padded ex r) m t := by
  have hspace (u : Bytes) : Single (str "\\s*" ++ u) := fun c hc => by
    obtain rfl : 92 = c := by simpa [str] using hc
    decide
  exact ((h.spaces hs).lits hex (hspace s)).spaces (single_append hex (hspace s))

theorem reads_comma (hs : Single s) (h : BranchReads depth n s r m t) : BranchReads depth n (44 :: s) (.cat (lit 44) r) m t :=
  h.lit (by decide) hs

/-- One alternative of the pattern, before the others. -/
theorem reads_alternative {u v : Bytes} {j k : Groups} (h : BranchReads 1 n.enter s r k (41 :: 124 :: u))
    (hlt : u.length + 1 < s.length) {t : Ere} (ht : AltReads 0 ((k.leave n.next).restart n.closed) u t j v) :
    AltReads 0 n (40 :: s) (.alt (.cat (.group n.next r) .eps) t) (j.merge (k.leave n.next).closed) v := by
  have hend : BranchReads 0 (k.leave n.next) (124 :: u) .eps (k.leave n.next) (124 :: u) := .stop _ (.inr (.inl rfl))
  have hgroup := hend.group (h.alone (by simp)) hlt (by simp [Single, str])
  exact .bar hgroup (by rw [List.length_cons]; omega) ht

theorem regcomp_mimePattern (hex : Plain ex) : regcomp (mimePattern ex) = some (mimeEre ex) := by
  -- what follows a body: the end of its group
  have hclose (n : Groups) (s : Bytes) : BranchReads 1 n (41 :: s) .eps n (41 :: s) := .stop n (.inr (.inr ⟨rfl, Nat.one_pos⟩))
  have hsingle (s : Bytes) : Single (41 :: s) := by simp [Single, str]
  have hcomma (s : Bytes) : Single (44 :: s) := by simp [Single, str]
  have hdollar (s : Bytes) : Single (36 :: s) := by simp [Single, str]
  have hblank (s : Bytes) : Single (str "\\s*" ++ s) := by simp [Single, str]
  let tail (s : Bytes) := str "\\s*" ++ (ex ++ (str "\\s*" ++ s))
  have hlast : AltReads 0 ⟨4, []⟩ (40 :: 44 :: tail (36 :: [41])) _ ⟨5, [4]⟩ [] :=
    ((BranchReads.stop ⟨5, [4]⟩ (.inl rfl)).group
      ((reads_comma (hblank _) (reads_padded hex (hdollar _) ((hclose ⟨5, []⟩ []).eol (hsingle _)))).alone (by simp))
      (by simp) (by simp [Single])).alone (by simp)
  have honly := reads_alternative (n := ⟨3, []⟩)
    ((reads_padded hex (hdollar _) ((hclose ⟨4, []⟩ _).eol (hsingle _))).bol (hblank _)) (by simp [str]; omega) hlast
  have hmiddle := reads_alternative (n := ⟨2, []⟩)
    ((reads_comma (hblank _) (reads_padded hex (hcomma _)
      (reads_comma (hblank _) ((hclose ⟨3, []⟩ _).spaces (hsingle _))))).spaces (hcomma _)) (by simp [str]; omega) honly
  have hfirst := reads_alternative (n := ⟨1, []⟩)
    ((reads_padded hex (hcomma _) (reads_comma (hsingle _) (hclose ⟨2, []⟩ _))).bol (hblank _)) (by simp [str]; omega) hmiddle
  have htext : mimePattern ex = 40 :: 94 :: tail (44 :: 41 :: 124 :: 40 :: (str "\\s*" ++ 44 :: tail (44 :: (str "\\s*" ++
      41 :: 124 :: 40 :: 94 :: tail (36 :: 41 :: 124 :: 40 :: 44 :: tail (36 :: [41])))))) := by
    simp [mimePattern, tail, str]
  rw [htext]
  exact regcomp_of_reads hfirst

end Reads

/-! ## The elements of a list -/

section Elements

variable {d : UInt8} {ex e s v w pre rest : Bytes} {r : Ere}

/-- An element is the whole list, or it is the first, the last, or between two. -/
theorem mem_split : e ∈ split d s ↔
    d ∉ e ∧ (s = e ∨ (∃ b, s = e ++ d :: b) ∨ (∃ a, s = a ++ d :: e) ∨ ∃ a b, s = a ++ d :: (e ++ d :: b)) := by
  constructor
  · intro h
    induction hn : s.length using Nat.strong_induction_on generalizing s with
    | _ n ih =>
      by_cases hd : d ∈ s
      · obtain ⟨a, b, rfl, ha⟩ := List.eq_append_cons_of_mem hd
        rw [split_append, split_eq_self ha, List.singleton_append] at h
        rcases List.mem_cons.1 h with rfl | h
        · exact ⟨ha, .inr (.inl ⟨b, rfl⟩)⟩
        · have hlt : b.length < n := by rw [← hn, List.length_append, List.length_cons]; omega
          obtain ⟨he, hb⟩ := ih _ hlt h rfl
          refine ⟨he, ?_⟩
          rcases hb with rfl | ⟨c, rfl⟩ | ⟨c, rfl⟩ | ⟨c, f, rfl⟩
          · exact .inr (.inr (.inl ⟨a, rfl⟩))
          · exact .inr (.inr (.inr ⟨a, c, rfl⟩))
          · exact .inr (.inr (.inl ⟨a ++ d :: c, by simp⟩))
          · exact .inr (.inr (.inr ⟨a ++ d :: c, f, by simp⟩))
      · rw [split_eq_self hd] at h
        obtain rfl := List.mem_singleton.1 h
        exact ⟨hd, .inl rfl⟩
  · rintro ⟨he, rfl | ⟨b, rfl⟩ | ⟨a, rfl⟩ | ⟨a, b, rfl⟩⟩ <;> simp [split_append, split_eq_self he]

/-- The extension with white space around it, in any letter case. -/
def Padded (ex e : Bytes) : Prop :=
  ∃ w m u, e = w ++ (m ++ u) ∧ (∀ x ∈ w, isspace x = true) ∧ strcaseeq m ex = true ∧ ∀ x ∈ u, isspace x = true

theorem rdropWhile_append {p : UInt8 → Bool} (s : Bytes) {u : Bytes} (hu : ∀ x ∈ u, p x = true) :
    (s ++ u).rdropWhile p = s.rdropWhile p := by
  rw [List.rdropWhile, List.reverse_append, List.dropWhile_append_of_pos fun x hx => hu x (List.mem_reverse.1 hx), List.rdropWhile]

theorem strip_padded {w m u : Bytes} (hw : ∀ x ∈ w, isspace x = true) (hm : ∀ x ∈ m, isspace x = false)
    (hu : ∀ x ∈ u, isspace x = true) : strip (w ++ (m ++ u)) = m := by
  have hm' (x : UInt8) (hx : x ∈ m) : ¬ isspace x = true := by simp [hm x hx]
  rw [strip, ← List.append_assoc, rdropWhile_append _ hu]
  by_cases hnil : m = []
  · rw [hnil, List.append_nil, List.rdropWhile_eq_nil_iff.2 hw, List.dropWhile_nil]
  · have hlast : (w ++ m).rdropWhile isspace = w ++ m := by
      refine List.rdropWhile_eq_self_iff.2 fun hne => ?_
      rw [List.getLast_append_of_ne_nil hne hnil]
      exact hm' _ (List.getLast_mem hnil)
    rw [hlast, List.dropWhile_append_of_pos hw, List.dropWhile_eq_self_iff]
    intro hpos
    exact hm' _ (List.getElem_mem hpos)

theorem tolower_isspace (c : UInt8) : isspace (tolower c) = isspace c := by
  have h9 : (9 : UInt8).toNat = 9 ∧ (13 : UInt8).toNat = 13 ∧ (32 : UInt8).toNat = 32 := ⟨rfl, rfl, rfl⟩
  rw [Bool.eq_iff_iff]
  simp only [isspace, decide_eq_true_eq, UInt8.le_iff_toNat_le, ← UInt8.toNat_inj, tolower_toNat, h9]
  split <;> omega

/-- What holds of every character of a text in every case holds in another case. -/
theorem forall_of_strcaseeq {p : UInt8 → Prop} (hp : ∀ c, p (tolower c) ↔ p c) {m : Bytes} (h : strcaseeq m ex = true)
    (hex : ∀ c ∈ ex, p c) : ∀ c ∈ m, p c := by
  intro c hc
  have hm : m.map tolower = ex.map tolower := of_decide_eq_true h
  have hc' : tolower c ∈ ex.map tolower := hm ▸ List.mem_map_of_mem hc
  obtain ⟨b, hb, hbc⟩ := List.mem_map.1 hc'
  rw [← hp, ← hbc, hp]
  exact hex b hb

theorem strip_iff (hex : ∀ c ∈ ex, isspace c = false) : strcaseeq (strip e) ex = true ↔ Padded ex e := by
  constructor
  · intro h
    refine ⟨(e.rdropWhile isspace).takeWhile isspace, strip e, e.rtakeWhile isspace, ?_, fun x hx => List.mem_takeWhile_imp hx, h,
      fun x hx => List.mem_rtakeWhile_imp hx⟩
    rw [strip, ← List.append_assoc, List.takeWhile_append_dropWhile, List.rdropWhile_append_rtakeWhile]
  · rintro ⟨w, m, u, rfl, hw, hm, hu⟩
    have hsp := forall_of_strcaseeq (p := fun c => isspace c = false) (fun c => by rw [tolower_isspace]) hm hex
    rwa [strip_padded hw hsp hu]

theorem spaceSet_mem (c : UInt8) : (⟨false, [(9, 13), (32, 32)]⟩ : CharSet).mem c = isspace c := by
  have h9 : (9 : UInt8).toNat = 9 ∧ (13 : UInt8).toNat = 13 ∧ (32 : UInt8).toNat = 32 := ⟨rfl, rfl, rfl⟩
  rw [Bool.eq_iff_iff]
  simp only [isspace, CharSet.mem, CharSet.has, List.any_cons, List.any_nil, Bool.or_false, Bool.bne_false, Bool.or_eq_true,
    decide_eq_true_eq, UInt8.le_iff_toNat_le, ← UInt8.toNat_inj, toupper_toNat, h9]
  split_ifs <;> omega

theorem leads_spaces : Leads (.cat spaces r) pre rest ↔
    ∃ w v, rest = w ++ v ∧ (∀ x ∈ w, isspace x = true) ∧ Leads r (pre ++ w) v := by
  simp only [spaces, spaceSet, leads_star, spaceSet_mem]

theorem leads_padded : Leads (padded ex r) pre rest ↔ ∃ e v, rest = e ++ v ∧ Padded ex e ∧ Leads r (pre ++ e) v := by
  simp only [padded, leads_spaces, leads_lits]
  constructor
  · rintro ⟨w, _, rfl, hw, m, _, rfl, hm, u, v, rfl, hu, h⟩
    exact ⟨w ++ (m ++ u), v, by simp, ⟨w, m, u, rfl, hw, hm, hu⟩, by simpa using h⟩
  · rintro ⟨_, v, rfl, ⟨w, m, u, rfl, hw, hm, hu⟩, h⟩
    exact ⟨w, m ++ (u ++ v), by simp, hw, m, u ++ v, rfl, hm, u, v, rfl, hu, by simpa using h⟩

theorem tolower_comma (x : UInt8) : tolower x = 44 ↔ x = 44 := by
  have h44 : (44 : UInt8).toNat = 44 := rfl
  rw [← UInt8.toNat_inj, ← UInt8.toNat_inj, tolower_toNat, h44]
  split <;> omega

theorem leads_comma : Leads (.cat (lit 44) r) pre rest ↔ ∃ v, rest = 44 :: v ∧ Leads r (pre ++ [44]) v := by
  have h44 : tolower 44 = 44 := by decide
  rw [leads_lit, h44]
  simp only [tolower_comma]
  constructor
  · rintro ⟨x, v, hr, rfl, h⟩
    exact ⟨v, hr, h⟩
  · rintro ⟨v, hr, h⟩
    exact ⟨44, v, hr, rfl, h⟩

theorem Padded.no_comma (h : Padded ex e) (hex : 44 ∉ ex) : 44 ∉ e := by
  obtain ⟨w, m, u, rfl, hw, hm, hu⟩ := h
  have hne : ∀ c ∈ m, c ≠ 44 :=
    forall_of_strcaseeq (p := fun c => c ≠ 44) (fun c => not_congr (tolower_comma c)) hm fun c hc he => hex (he ▸ hc)
  have hspace : isspace 44 = false := by decide
  simp only [List.mem_append, not_or]
  refine ⟨fun h => ?_, fun h => hne 44 h rfl, fun h => ?_⟩
  · rw [hw 44 h] at hspace
    cases hspace
  · rw [hu 44 h] at hspace
    cases hspace

theorem lists_iff (hspace : ∀ c ∈ ex, isspace c = false) (hcomma : 44 ∉ ex) : Lists v ex ↔
    ∃ e, Padded ex e ∧ (v = e ∨ (∃ b, v = e ++ 44 :: b) ∨ (∃ a, v = a ++ 44 :: e) ∨ ∃ a b, v = a ++ 44 :: (e ++ 44 :: b)) := by
  constructor
  · rintro ⟨e, he, hstrip⟩
    exact ⟨e, (strip_iff hspace).1 hstrip, (mem_split.1 he).2⟩
  · rintro ⟨e, he, hv⟩
    exact ⟨e, mem_split.2 ⟨he.no_comma hcomma, hv⟩, (strip_iff hspace).2 he⟩

/-- The four alternatives are the four places an element may have. -/
theorem leads_mimeEre : Leads (mimeEre ex) pre rest ↔
    (pre = [] ∧ ∃ e b, rest = e ++ 44 :: b ∧ Padded ex e) ∨
      (∃ w e b, rest = w ++ 44 :: (e ++ 44 :: b) ∧ (∀ x ∈ w, isspace x = true) ∧ Padded ex e) ∨
        (pre = [] ∧ Padded ex rest) ∨ ∃ e, rest = 44 :: e ∧ Padded ex e := by
  simp only [mimeEre, leads_alt, leads_group, leads_bol, leads_padded, leads_comma, leads_spaces, leads_eol, leads_eps, and_true]
  refine or_congr ?_ (or_congr ?_ (or_congr ?_ ?_))
  · refine and_congr_right fun _ => ⟨?_, ?_⟩
    · rintro ⟨e, _, rfl, he, b, rfl⟩
      exact ⟨e, b, rfl, he⟩
    · rintro ⟨e, b, rfl, he⟩
      exact ⟨e, _, rfl, he, b, rfl⟩
  · constructor
    · rintro ⟨w, _, rfl, hw, _, rfl, e, _, rfl, he, b, rfl, -⟩
      exact ⟨w, e, b, rfl, hw, he⟩
    · rintro ⟨w, e, b, rfl, hw, he⟩
      exact ⟨w, _, rfl, hw, _, rfl, e, _, rfl, he, b, rfl, [], b, rfl, nofun⟩
  · refine and_congr_right fun _ => ⟨?_, ?_⟩
    · rintro ⟨e, _, rfl, he, rfl⟩
      rwa [List.append_nil]
    · intro he
      exact ⟨rest, [], (List.append_nil rest).symm, he, rfl⟩
  · constructor
    · rintro ⟨_, rfl, e, _, rfl, he, rfl⟩
      exact ⟨e, by rw [List.append_nil], he⟩
    · rintro ⟨e, rfl, he⟩
      exact ⟨e, rfl, e, [], (List.append_nil e).symm, he, rfl⟩

theorem found_mimeEre (hspace : ∀ c ∈ ex, isspace c = false) (hcomma : 44 ∉ ex) : Found (mimeEre ex) v ↔ Lists v ex := by
  rw [found_iff_leads, lists_iff hspace hcomma]
  simp only [leads_mimeEre]
  constructor
  · rintro ⟨pre, rest, rfl, ⟨rfl, e, b, rfl, he⟩ | ⟨w, e, b, rfl, -, he⟩ | ⟨rfl, he⟩ | ⟨e, rfl, he⟩⟩
    · exact ⟨e, he, .inr (.inl ⟨b, rfl⟩)⟩
    · exact ⟨e, he, .inr (.inr (.inr ⟨pre ++ w, b, by simp⟩))⟩
    · exact ⟨rest, he, .inl rfl⟩
    · exact ⟨e, he, .inr (.inr (.inl ⟨pre, rfl⟩))⟩
  · rintro ⟨e, he, rfl | ⟨b, rfl⟩ | ⟨a, rfl⟩ | ⟨a, b, rfl⟩⟩
    · exact ⟨[], v, rfl, .inr (.inr (.inl ⟨rfl, he⟩))⟩
    · exact ⟨[], _, rfl, .inl ⟨rfl, e, b, rfl, he⟩⟩
    · exact ⟨a, _, rfl, .inr (.inr (.inr ⟨e, rfl, he⟩))⟩
    · exact ⟨a, _, rfl, .inr (.inl ⟨[], e, b, rfl, nofun, he⟩)⟩

theorem regular_mimeEre (ex : Bytes) : (mimeEre ex).regular = true := by
  simp [mimeEre, padded, spaces, spaceSet, lit, regular, regular_lits]

/-- Plain text is looked for among the elements. -/
theorem Plain.findsElements (regexec : Regexec) (hex : Plain ex) (hspace : ∀ c ∈ ex, isspace c = false) (hcomma : 44 ∉ ex)
    (v : Bytes) : FindsElements regexec ex v :=
  ⟨mimeEre ex, regcomp_mimePattern hex,
    (foundBy_regular regexec (regular_mimeEre ex) v).trans (found_mimeEre hspace hcomma)⟩

end Elements

/-! ## The type -/

section Types

variable {regexec : Regexec} {ex v : Bytes} {its : Chain Bytes}

/-- What is served comes from an entry whose list the pattern matches. -/
theorem find_mem {type : Bytes} (h : mime_from_ext.find regexec ex its = .ok ⟨type, some v⟩) :
    ∃ m, regex_match regexec (mimePattern ex) v = .ok (some m) := by
  induction its with
  | nil => cases h
  | cons it its ih =>
    rw [mime_from_ext.find] at h
    obtain ⟨u, hu, h⟩ := Res.bind_ok.1 h
    obtain ⟨m, hm, h⟩ := Res.bind_ok.1 h
    split at h
    · rename_i hs
      obtain ⟨c, rfl⟩ := Option.isSome_iff_exists.1 hs
      obtain ⟨-, hv⟩ := mime_t.mk.inj (Except.ok.inj h)
      rw [deref_ok, hv] at hu
      cases hu
      exact ⟨c, hm⟩
    · exact ih h

theorem byElement_lists {type : Bytes} (h : byElement ex its = ⟨type, some v⟩) : Lists v ex := by
  induction its with
  | nil => cases h
  | cons it its ih =>
    rw [byElement] at h
    split at h
    · rename_i hv
      obtain ⟨u, hu, hl⟩ := hv
      obtain ⟨-, hv⟩ := mime_t.mk.inj h
      rw [hv] at hu
      cases hu
      exact hl
    · exact ih h

theorem byElement_cons (type v : Bytes) (its : Chain Bytes) :
    byElement ex ((type, some v) :: its) = if Lists v ex then ⟨type, some v⟩ else byElement ex its := by
  simp [byElement]

theorem upTo_cons (type v : Bytes) (its : Chain Bytes) :
    upTo ex ((type, some v) :: its) = (type, some v) :: if Lists v ex then [] else upTo ex its := by
  simp [upTo]

/-- Entry after entry, the code does as it should where the pattern tells the elements. -/
theorem find_eq_iff (hexec : Posix regexec) (hits : ∀ it ∈ its, it.2.isSome) :
    mime_from_ext.find regexec ex its = .ok (byElement ex its) ↔ ∀ it ∈ upTo ex its, ∀ v ∈ it.2, FindsElements regexec ex v := by
  induction its with
  | nil => exact iff_of_true rfl nofun
  | cons it its ih =>
    obtain ⟨type, value⟩ := it
    obtain ⟨hv, hrest⟩ := List.forall_mem_cons.1 hits
    obtain ⟨v, rfl⟩ := Option.isSome_iff_exists.1 hv
    rw [upTo_cons, byElement_cons, mime_from_ext.find, List.forall_mem_cons, deref_some, Res.ok_bind]
    simp only [Option.mem_def, Option.some.injEq, forall_eq']
    cases hr : regcomp (mimePattern ex) with
    | none =>
      have hm : regex_match regexec (mimePattern ex) v = .error .regex := by rw [regex_match, hr]
      rw [hm]
      refine iff_of_false nofun fun h => ?_
      obtain ⟨r, hr', -⟩ := h.1
      rw [hr] at hr'
      cases hr'
    | some r =>
      have hm : regex_match regexec (mimePattern ex) v = .ok (regexec r v) := by rw [regex_match, hr]
      have hfound := hexec.foundBy_iff r v
      have hfinds : FindsElements regexec ex v ↔ (FoundBy regexec r v ↔ Lists v ex) := by simp [FindsElements, hr]
      rw [hm, Res.ok_bind, hfinds]
      by_cases hf : FoundBy regexec r v
      · rw [if_pos (hfound.2 hf)]
        by_cases hl : Lists v ex
        · rw [if_pos hl, if_pos hl]
          exact iff_of_true rfl ⟨iff_of_true hf hl, nofun⟩
        · -- the code stops at an entry it should pass
          rw [if_neg hl]
          refine iff_of_false (fun h => hl ?_) fun h => hl (h.1.1 hf)
          exact byElement_lists (Except.ok.inj h).symm
      · rw [if_neg (mt hfound.1 hf)]
        by_cases hl : Lists v ex
        · -- the code passes an entry it should stop at
          rw [if_pos hl]
          refine iff_of_false (fun h => hf ?_) fun h => hf (h.1.2 hl)
          obtain ⟨m, hm'⟩ := find_mem h
          rw [hm] at hm'
          exact hfound.1 (by rw [Except.ok.inj hm']; rfl)
        · rw [if_neg hl, if_neg hl, ih hrest]
          exact (and_iff_right (iff_of_false hf hl)).symm

/-- The type is the one it should be. -/
def TypeOf (regexec : Regexec) (mime_list : Dictionary Bytes) (ex : Bytes) : Prop :=
  mime_from_ext regexec mime_list ex = .ok (byElement ex mime_list.assocs)

theorem Plain.typeOf (hex : Plain ex) (hexec : Posix regexec) {mime_list : Dictionary Bytes}
    (hlist : ∀ it ∈ mime_list.assocs, it.2.isSome) (hspace : ∀ c ∈ ex, isspace c = false) (hcomma : 44 ∉ ex) :
    TypeOf regexec mime_list ex :=
  (find_eq_iff hexec hlist).2 fun _ _ v _ => hex.findsElements regexec hspace hcomma v

/-- The pattern does not compile, or it has no back-reference and does not tell whether this list has the element. -/
def misses (ex v : Bytes) : Bool :=
  match regcomp (mimePattern ex) with
  | none => true
  | some r => r.regular && (Ere.regexec r v).isSome != decide (Lists v ex)

theorem assocs_one (v : Bytes) : (dictOf 0 [(OCTET_STREAM, v)]).assocs = [(OCTET_STREAM, some v)] := by
  simp [dictOf, Dictionary.dict_n, Dictionary.dput, Dictionary.assocs, Dictionary.bucket, Dictionary.cap, hash, Nat.mod_one,
    Dictionary.chainPut]

/-- A list of one entry, for which the answer is wrong. -/
theorem not_typeOf (hexec : Posix regexec) (h : misses ex v = true) :
    ¬ TypeOf regexec (dictOf 0 [(OCTET_STREAM, v)]) ex := by
  unfold TypeOf mime_from_ext
  rw [assocs_one]
  intro ht
  have hall := (find_eq_iff hexec (by simp)).1 ht
  obtain ⟨r, hr, hiff⟩ := hall _ (by rw [upTo_cons]; exact List.mem_cons_self) v rfl
  rw [misses, Option.mem_def.1 hr] at h
  simp only [Bool.and_eq_true, bne_iff_ne, ne_eq] at h
  obtain ⟨hregular, hne⟩ := h
  rw [foundBy_regular regexec hregular, ← regexec_posix.found_iff hregular] at hiff
  exact hne (by rw [Bool.eq_iff_iff, decide_eq_true_iff]; exact hiff)

/-- A character that means something, in an extension where no other does, and a list for which the answer is wrong. -/
def missed : List (UInt8 × Bytes × Bytes) :=
  [(40, str "a(", str "a"), (41, str "a)", str "a,)"), (42, str "a*", str "a"), (43, str "a+", str "a"),
    (46, str "a.", str "ab"), (63, str "a?", str "a"), (91, str "a[", str "a"), (92, str "a\\", str "a\\s"),
    (94, str "^a", str "a"), (123, str "a\x7b", str "a"), (124, str "a|b", str "a"), (36, str "a$", str "a")]

/-- The type of an extension is the first that lists it if no character of it means anything in a regular expression, and
none of these characters can be spared: each is in an extension without the others whose type is wrong for some list. -/
theorem mime_from_ext_plain (hexec : Posix regexec) :
    (∀ (mime_list : Dictionary Bytes) (ex : Bytes), (∀ it ∈ mime_list.assocs, it.2.isSome) →
      (∀ c ∈ ex, isspace c = false) → 44 ∉ ex → Plain ex → TypeOf regexec mime_list ex) ∧
    ∀ c, ¬ Ordinary c → ∃ (mime_list : Dictionary Bytes) (ex : Bytes), (∀ it ∈ mime_list.assocs, it.2.isSome) ∧
      (∀ x ∈ ex, isspace x = false) ∧ 44 ∉ ex ∧ c ∈ ex ∧ (∀ x ∈ ex, x ≠ c → Ordinary x) ∧ ¬ TypeOf regexec mime_list ex := by
  refine ⟨fun mime_list ex hlist hspace hcomma hex => hex.typeOf hexec hlist hspace hcomma, fun c hc => ?_⟩
  have hmissed : ∀ c ∈ str "()*+.?[\\^\x7b|$", ∃ m ∈ missed, m.1 = c ∧ m.1 ∈ m.2.1 ∧ (∀ x ∈ m.2.1, isspace x = false) ∧
      44 ∉ m.2.1 ∧ (∀ x ∈ m.2.1, x ≠ m.1 → Ordinary x) ∧ misses m.2.1 m.2.2 = true := by decide +kernel
  obtain ⟨⟨b, ex, v⟩, -, rfl, hmem, hspace, hcomma, hrest, hmiss⟩ := hmissed c (not_not.1 hc)
  refine ⟨dictOf 0 [(OCTET_STREAM, v)], ex, ?_, hspace, hcomma, hmem, hrest, not_typeOf hexec hmiss⟩
  simp [assocs_one]

end Types

/-- An extension in another letter case, and an element with white space before it. -/
theorem mime_from_ext_letters : TypeOf Ere.regexec (dictOf 0 [(str "text/html", str "htm, html")]) (str "HTML") :=
  (mime_from_ext_plain Ere.regexec_posix).1 _ _ (by decide +kernel) (by decide +kernel) (by decide) (by decide +kernel)

/-- A file whose name ends in `.html?` is served as text. -/
theorem mime_from_ext_question : ¬ ∀ (regexec : Regexec) (mime_list : Dictionary Bytes) (ex : Bytes), Posix regexec →
    (∀ it ∈ mime_list.assocs, it.2.isSome) → ex ≠ [] → (∀ c ∈ ex, isspace c = false) → 44 ∉ ex →
    mime_from_ext regexec mime_list ex = .ok (byElement ex mime_list.assocs) := by
  intro h
  have hcode : (mime_from_ext Ere.regexec (dictOf 0 [(str "text/html", str "html")]) (str "html?")).toOption =
      some ⟨str "text/html", some (str "html")⟩ := by decide +kernel
  have hspec : byElement (str "html?") (dictOf 0 [(str "text/html", str "html")]).assocs = ⟨OCTET_STREAM, none⟩ := by
    decide +kernel
  rw [h _ _ _ Ere.regexec_posix (by decide +kernel) (by decide) (by decide +kernel) (by decide), hspec] at hcode
  revert hcode
  decide

end AntHttp.Mime
