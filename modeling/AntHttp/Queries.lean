import AntHttp.Decode
/-!
# Encoded queries

A query is split at `&` and `=` before it is decoded, so the values come back
as they were encoded. The names are not decoded: a name comes back only if its
encoding does not change it.
-/

namespace AntHttp

open CString

/-! ## Encoding and decoding a text -/

/-- A character that is encoded as itself. -/
def unreserved (c : UInt8) : Bool := isalnum c || c ∈ str "-_.~"

/-- What one character is encoded as. -/
def encodeByte (c : UInt8) : Bytes :=
  if unreserved c then [c] else if c = 32 then [43] else [37, to_hex (c >>> 4), to_hex (c &&& 15)]

theorem url_encode_eq (s : Bytes) : url_encode s = s.flatMap encodeByte := by
  induction s with
  | nil => rfl
  | cons c s ih => simp [url_encode, encodeByte, unreserved, ih]

theorem hex_byte (c : UInt8) : from_hex (to_hex (c >>> 4)) <<< 4 ||| from_hex (to_hex (c &&& 15)) = c := by
  have h : ∀ n : Fin 256, from_hex (to_hex (UInt8.ofNat n >>> 4)) <<< 4 ||| from_hex (to_hex (UInt8.ofNat n &&& 15)) =
      UInt8.ofNat n := by
    decide +kernel
  simpa using h ⟨c.toNat, c.toNat_lt⟩

theorem urlDecodeBytes_cons {c : UInt8} (h : unreserved c = true) (s : Bytes) :
    urlDecodeBytes (c :: s) = c :: urlDecodeBytes s := by
  have hp : c ≠ 37 := by
    rintro rfl
    revert h
    decide
  have hq : c ≠ 43 := by
    rintro rfl
    revert h
    decide
  rw [urlDecodeBytes]
  · intro a b t he _
    exact hp he
  · exact hp
  · exact hq

theorem urlDecodeBytes_encodeByte (c : UInt8) (s : Bytes) : urlDecodeBytes (encodeByte c ++ s) = c :: urlDecodeBytes s := by
  unfold encodeByte
  split
  · rename_i h
    exact urlDecodeBytes_cons h s
  · split
    · rename_i h
      rw [h]
      rfl
    · have h := hex_byte c
      change (from_hex (to_hex (c >>> 4)) <<< 4 ||| from_hex (to_hex (c &&& 15))) :: urlDecodeBytes s = _
      rw [h]

theorem urlDecodeBytes_url_encode (s : Bytes) : urlDecodeBytes (url_encode s) = s := by
  rw [url_encode_eq]
  induction s with
  | nil => rfl
  | cons c s ih => rw [List.flatMap_cons, urlDecodeBytes_encodeByte, ih]

/-- A text without NUL is decoded from its encoding. -/
theorem url_decode_encode {s : Bytes} (h : 0 ∉ s) : url_decode (url_encode s) = s := by
  rw [url_decode, urlDecodeBytes_url_encode, cstr_eq_self h]

theorem url_encode_injective {s t : Bytes} (hs : 0 ∉ s) (ht : 0 ∉ t) (h : url_encode s = url_encode t) : s = t := by
  rw [← url_decode_encode hs, h, url_decode_encode ht]

/-! ## The encoded text -/

theorem unreserved_to_hex (c : UInt8) : unreserved (to_hex c) = true := by
  have h : ∀ n : Fin 256, unreserved (to_hex (UInt8.ofNat n)) = true := by decide +kernel
  simpa using h ⟨c.toNat, c.toNat_lt⟩

/-- An encoding is made of unreserved characters, plus signs and percent signs. -/
theorem mem_url_encode {s : Bytes} {b : UInt8} (h : b ∈ url_encode s) : unreserved b = true ∨ b = 43 ∨ b = 37 := by
  rw [url_encode_eq, List.mem_flatMap] at h
  obtain ⟨c, -, hb⟩ := h
  unfold encodeByte at hb
  split at hb
  · rename_i hc
    rw [List.mem_singleton.1 hb]
    exact .inl hc
  · split at hb
    · exact .inr (.inl (List.mem_singleton.1 hb))
    · simp only [List.mem_cons, List.not_mem_nil, or_false] at hb
      rcases hb with rfl | rfl | rfl
      · exact .inr (.inr rfl)
      · exact .inl (unreserved_to_hex _)
      · exact .inl (unreserved_to_hex _)

theorem not_mem_url_encode {d : UInt8} (hd : d ∈ str "&=") (s : Bytes) : d ∉ url_encode s := by
  intro h
  have hd : d = 38 ∨ d = 61 := by simpa [str] using hd
  rcases mem_url_encode h with h | h | h <;> rcases hd with rfl | rfl <;> revert h <;> decide

/-- A name whose encoding is the name itself. -/
def PlainText (s : Bytes) : Prop := ∀ c ∈ s, unreserved c = true

instance (s : Bytes) : Decidable (PlainText s) := inferInstanceAs (Decidable (∀ c ∈ s, unreserved c = true))

theorem PlainText.url_encode {s : Bytes} (h : PlainText s) : url_encode s = s := by
  rw [url_encode_eq]
  induction s with
  | nil => rfl
  | cons c s ih =>
    have hc := h c List.mem_cons_self
    rw [List.flatMap_cons, ih fun b hb => h b (List.mem_cons_of_mem _ hb), encodeByte, if_pos hc]
    rfl

theorem encodeByte_pos (c : UInt8) : 0 < (encodeByte c).length := by
  unfold encodeByte
  split
  · exact Nat.one_pos
  · split <;> simp

theorem length_le_url_encode (s : Bytes) : s.length ≤ (url_encode s).length := by
  rw [url_encode_eq]
  induction s with
  | nil => exact le_rfl
  | cons c s ih =>
    have hpos := encodeByte_pos c
    rw [List.flatMap_cons, List.length_append, List.length_cons]
    omega

/-- The encoding of another text is itself no such name. -/
theorem not_plain_url_encode {s : Bytes} (h : ¬ PlainText s) : ¬ PlainText (url_encode s) := by
  unfold PlainText at h ⊢
  push Not at h ⊢
  obtain ⟨c, hc, hu⟩ := h
  have hmem {b : UInt8} (hb : b ∈ encodeByte c) : b ∈ url_encode s := by
    rw [url_encode_eq]
    exact List.mem_flatMap.2 ⟨c, hc, hb⟩
  by_cases hs : c = 32
  · exact ⟨43, hmem (by rw [encodeByte, if_neg hu, if_pos hs]; exact List.mem_cons_self), by decide⟩
  · exact ⟨37, hmem (by rw [encodeByte, if_neg hu, if_neg hs]; exact List.mem_cons_self), by decide⟩

/-- A character that becomes three makes the encoding longer. -/
theorem length_lt_url_encode {s : Bytes} {b : UInt8} (hb : b ∈ s) (hu : ¬ unreserved b = true) (hs : b ≠ 32) :
    s.length < (url_encode s).length := by
  obtain ⟨pre, post, rfl⟩ := List.append_of_mem hb
  have hpre := length_le_url_encode pre
  have hpost := length_le_url_encode post
  have hthree : (encodeByte b).length = 3 := by rw [encodeByte, if_neg hu, if_neg hs]; rfl
  rw [url_encode_eq] at hpre hpost ⊢
  rw [List.flatMap_append, List.flatMap_cons]
  simp only [List.length_append, List.length_cons, hthree]
  omega

/-- Encoding another text twice makes it longer. -/
theorem length_lt_url_encode_twice {s : Bytes} (h : ¬ PlainText s) : s.length < (url_encode (url_encode s)).length := by
  have hn := not_plain_url_encode h
  unfold PlainText at hn
  push Not at hn
  obtain ⟨b, hb, hu⟩ := hn
  have hs : b ≠ 32 := by
    rintro rfl
    rcases mem_url_encode hb with h | h | h <;> revert h <;> decide
  exact lt_of_le_of_lt (length_le_url_encode s) (length_lt_url_encode hb hu hs)

/-! ## Decoding a query -/

def encodedPair (p : Bytes × Bytes) : Bytes := url_encode p.1 ++ 61 :: url_encode p.2

def urlQuery (pairs : List (Bytes × Bytes)) : Bytes := [38].intercalate (pairs.map encodedPair)

theorem split_intercalate {d : UInt8} {l : List Bytes} (hl : l ≠ []) (h : ∀ t ∈ l, d ∉ t) :
    split d ([d].intercalate l) = l := by
  induction l with
  | nil => exact absurd rfl hl
  | cons t l ih =>
    have ht := split_eq_self (h t List.mem_cons_self)
    cases l with
    | nil => simpa using ht
    | cons u l =>
      have hi : [d].intercalate (t :: u :: l) = t ++ d :: [d].intercalate (u :: l) := by
        simp [List.intercalate, List.intersperse]
      rw [hi, split_append, ht, ih (List.cons_ne_nil _ _) fun v hv => h v (List.mem_cons_of_mem _ hv)]
      rfl

/-- A pair is stored under its encoded name. -/
def storePair (d : Dictionary Bytes) (p : Bytes × Bytes) : Dictionary Bytes := d.dput (url_encode p.1) (some p.2)

theorem queryPair_encoded {p : Bytes × Bytes} (hne : p.1 ≠ []) (hnul : 0 ∉ p.2) (d : Dictionary Bytes) :
    queryPair (some d) (encodedPair p) = .ok (some (storePair d p)) := by
  have hkey := not_mem_url_encode (by decide : (61 : UInt8) ∈ str "&=") p.1
  have hval := not_mem_url_encode (by decide : (61 : UInt8) ∈ str "&=") p.2
  have hsep : strsep (some (encodedPair p)) 61 = (some (url_encode p.1), some (url_encode p.2)) := strsep_append hkey
  have hsep' : strsep (some (url_encode p.2)) 61 = (some (url_encode p.2), none) := strsep_eq_self hval
  obtain ⟨c, key, hc⟩ : ∃ c key, url_encode p.1 = c :: key := by
    refine List.exists_cons_of_ne_nil fun he => hne (List.length_eq_zero_iff.1 ?_)
    have := length_le_url_encode p.1
    rw [he] at this
    exact Nat.le_zero.1 this
  unfold queryPair storePair
  rw [hsep, hc]
  simp only [deref_some, hsep', Option.getD_some, url_decode_encode hnul]
  rfl

section

variable {pairs : List (Bytes × Bytes)}

theorem decode_urlQuery (hne : ∀ p ∈ pairs, p.1 ≠ []) (hnul : ∀ p ∈ pairs, 0 ∉ p.1 ∧ 0 ∉ p.2) (d : Dictionary Bytes) :
    decode_url_request (urlQuery pairs) (some d) = .ok (some (pairs.foldl storePair d)) := by
  cases hp : pairs with
  | nil => rfl
  | cons p ps =>
    have hnot : ∀ t ∈ pairs.map encodedPair, (38 : UInt8) ∉ t := by
      intro t ht
      obtain ⟨q, -, rfl⟩ := List.mem_map.1 ht
      have hkey := not_mem_url_encode (by decide : (38 : UInt8) ∈ str "&=") q.1
      have hval := not_mem_url_encode (by decide : (38 : UInt8) ∈ str "&=") q.2
      simp [encodedPair, hkey, hval]
    have hsplit : split 38 (urlQuery pairs) = pairs.map encodedPair := split_intercalate (by simp [hp]) hnot
    have hquery : urlQuery pairs ≠ [] := by
      intro he
      rw [he, hp] at hsplit
      have hone : encodedPair p = [] := by simpa [split] using (congrArg List.head? hsplit).symm
      simp [encodedPair] at hone
    rw [← hp, decode_url_request, if_neg hquery, hsplit]
    clear hp hnot hsplit hquery
    induction pairs generalizing d with
    | nil => rfl
    | cons q qs ih =>
      rw [List.map_cons, List.foldlM_cons, queryPair_encoded (hne q List.mem_cons_self) (hnul q List.mem_cons_self).2]
      exact ih (fun r hr => hne r (List.mem_cons_of_mem _ hr)) (fun r hr => hnul r (List.mem_cons_of_mem _ hr)) _

/-- The keys are the encoded names. -/
theorem isSome_foldl_storePair (d : Dictionary Bytes) (k : Bytes) :
    ((pairs.foldl storePair d).dlookup k).isSome ↔ (∃ p ∈ pairs, url_encode p.1 = k) ∨ (d.dlookup k).isSome := by
  induction pairs generalizing d with
  | nil => simp
  | cons p ps ih =>
    rw [List.foldl_cons, ih, storePair, Dictionary.dlookup_dput]
    by_cases hk : k = url_encode p.1
    · simp [hk]
    · simp [hk, Ne.symm hk]

theorem dvalue_foldl_storePair (hnodup : (pairs.map Prod.fst).Nodup) (hnul : ∀ p ∈ pairs, 0 ∉ p.1 ∧ 0 ∉ p.2) (d : Dictionary Bytes) :
    ∀ p ∈ pairs, (pairs.foldl storePair d).dvalue (url_encode p.1) = some p.2 := by
  induction pairs using List.reverseRecOn with
  | nil => exact fun _ hp => nomatch hp
  | append_singleton ps q ih =>
    intro p hp
    rw [List.foldl_append, List.foldl_cons, List.foldl_nil, storePair, Dictionary.dvalue_dput]
    rw [List.map_append, List.map_singleton, List.nodup_append] at hnodup
    rcases List.mem_append.1 hp with hmem | hmem
    · have hne : url_encode p.1 ≠ url_encode q.1 := by
        intro he
        have hpq := url_encode_injective (hnul p hp).1 (hnul q (by simp)).1 he
        exact hnodup.2.2 p.1 (List.mem_map_of_mem hmem) q.1 (by simp) hpq
      rw [if_neg hne]
      exact ih hnodup.1 (fun r hr => hnul r (by simp [hr])) p hmem
    · rw [List.mem_singleton.1 hmem, if_pos rfl]

/-- Each name has its value, and there is no other key. -/
structure Decodes (dic : Dictionary Bytes) (pairs : List (Bytes × Bytes)) : Prop where
  value : ∀ p ∈ pairs, dic.dvalue p.1 = some p.2
  only : ∀ k, (dic.dlookup k).isSome → k ∈ pairs.map Prod.fst

/-- Names among which the encoding of each is found are not changed by it. -/
theorem plain_of_closed {names : List Bytes} (h : ∀ s ∈ names, url_encode s ∈ names) : ∀ s ∈ names, PlainText s := by
  intro s hs
  by_contra hn
  -- there would be such names of any length
  have hlong : ∀ k, ∃ t ∈ names, ¬ PlainText t ∧ k ≤ t.length := by
    intro k
    induction k with
    | zero => exact ⟨s, hs, hn, Nat.zero_le _⟩
    | succ k ih =>
      obtain ⟨t, ht, hnt, hle⟩ := ih
      exact ⟨_, h _ (h t ht), not_plain_url_encode (not_plain_url_encode hnt), lt_of_le_of_lt hle (length_lt_url_encode_twice hnt)⟩
  obtain ⟨t, ht, -, hle⟩ := hlong (names.flatten.length + 1)
  have hsub : t.length ≤ names.flatten.length := (List.sublist_flatten_of_mem ht).length_le
  omega

/-- For distinct names, a query is decoded to what was encoded exactly if encoding leaves the names as they are. -/
theorem query_decodes_iff (n : Nat) (hnodup : (pairs.map Prod.fst).Nodup) (hne : ∀ p ∈ pairs, p.1 ≠ [])
    (hnul : ∀ p ∈ pairs, 0 ∉ p.1 ∧ 0 ∉ p.2) :
    (∃ dic, decode_url_request (urlQuery pairs) (some (.dict_n n)) = .ok (some dic) ∧ Decodes dic pairs) ↔
      ∀ p ∈ pairs, PlainText p.1 := by
  rw [decode_urlQuery hne hnul]
  constructor
  · rintro ⟨dic, hd, hdec⟩ p hp
    cases hd
    refine plain_of_closed (fun s hs => hdec.only _ ?_) p.1 (List.mem_map_of_mem hp)
    obtain ⟨q, hq, rfl⟩ := List.mem_map.1 hs
    exact (isSome_foldl_storePair _ _).2 (.inl ⟨q, hq, rfl⟩)
  · intro hplain
    refine ⟨_, rfl, fun p hp => ?_, fun k hk => ?_⟩
    · have hv := dvalue_foldl_storePair hnodup hnul (.dict_n n) p hp
      rwa [(hplain p hp).url_encode] at hv
    · rcases (isSome_foldl_storePair _ _).1 hk with ⟨p, hp, rfl⟩ | hnone
      · rw [(hplain p hp).url_encode]
        exact List.mem_map_of_mem hp
      · rw [Dictionary.dlookup_dict_n] at hnone
        cases hnone

end

/-- Values of any characters, under plain names. -/
theorem query_decodes_iff_pair : ∃ dic, decode_url_request (str "a=1%262&b=") (some .dict) = .ok (some dic) ∧
    Decodes dic [(str "a", str "1&2"), (str "b", [])] := by
  have hq : urlQuery [(str "a", str "1&2"), (str "b", [])] = str "a=1%262&b=" := by decide
  rw [← hq]
  exact (query_decodes_iff 15 (by decide) (by decide) (by decide)).2 (by decide +kernel)

/-- A name with a space comes back with a plus sign. -/
theorem name_not_decoded : ¬ ∀ (pairs : List (Bytes × Bytes)) (n : Nat), (pairs.map Prod.fst).Nodup →
    (∀ p ∈ pairs, p.1 ≠ []) → (∀ p ∈ pairs, 0 ∉ p.1 ∧ 0 ∉ p.2) →
    ∃ dic, decode_url_request (urlQuery pairs) (some (.dict_n n)) = .ok (some dic) ∧ Decodes dic pairs := by
  intro h
  obtain ⟨dic, hd, hdec⟩ := h [(str "a b", str "1")] 15 (by decide) (by decide) (by decide)
  have hrun : (decode_url_request (urlQuery [(str "a b", str "1")]) (some (.dict_n 15))).toOption.join.bind
      (·.dvalue (str "a b")) = none := by decide +kernel
  rw [hd] at hrun
  have hv := hdec.value (str "a b", str "1") List.mem_cons_self
  exact absurd (hv.symm.trans hrun) nofun

end AntHttp
