import AntHttp.Server
/-!
# The extension of a file (`ext` in `lib/utils.c`)

`ext` cuts the whole path at its dots, skips those at its start and stops at the
first piece that is empty. So a dot in the name of a directory counts as one in
the file's name, and two dots side by side end the search.
-/

namespace AntHttp

open CString

/-! ## What an extension is -/

/-- The text after the last `d`, all of it if there is none. -/
def afterLast (d : UInt8) (s : Bytes) : Bytes := s.rtakeWhile (· ≠ d)

/-- The last component of a path. -/
def baseName (file : Bytes) : Bytes := afterLast 47 file

def extension (file : Bytes) : Option Bytes :=
  if 46 ∈ baseName file then some (afterLast 46 (baseName file)) else none

/-- The dots of a path do no harm: there are none, or one is in the last component,
and either all of the path is dots, or none is at its end and none stands beside
another behind those at the start. Two dots side by side do no harm if the text
before the first ones goes on from its last dot as the path does. -/
def DotsHarmless (file : Bytes) : Prop :=
  46 ∉ file ∨ (46 ∈ baseName file ∧ (file.dropWhile (· = 46) = [] ∨ (file.getLast? ≠ some 46 ∧
    (¬ [46, 46] <:+: file.dropWhile (· = 46) ∨ ∃ u v, file.dropWhile (· = 46) = u ++ 46 :: 46 :: v ∧
      ¬ [46, 46] <:+: u ++ [46] ∧ afterLast 46 u = afterLast 46 file))))

/-- How a file is served if this is its extension. -/
def servedAs (sys : Sys) (cnf : Config) (rq : Request) (task : Task) (path : Bytes) (extension : Option Bytes) :
    Res (Task × Request) := do
  let mime_type ← match extension with
    | some ex => mime_from_ext sys.regexec cnf.mimes ex
    | none => .ok OCTET_STREAM
  let rq := { rq with RESOURCE_PATH := some path, RESOURCE_MIME := some mime_type }
  if mime_type = OCTET_STREAM then
    match extension.bind cnf.handlers.dvalue with
    | some h => execute_plugin sys cnf rq h
    | none => return (task, rq.antd_error 403 "Access forbidden")
  else
    let clen := (rq.REQUEST_HEADER.bind (·.dvalue (str "Content-Length"))).elim 0 atoi
    let rq := { rq with client := discardBody rq.client (UInt32.ofInt clen) 0 }
    return ({ task with handle := some .serve_file }.bindIo rq.client.sock false true, rq)

theorem serveResource_eq (sys : Sys) (cnf : Config) (rq : Request) (task : Task) (path : Bytes) :
    serveResource sys cnf rq task path = servedAs sys cnf rq task path (ext path) := by
  unfold serveResource servedAs mime
  cases ext path <;> rfl

/-! ## Pieces between delimiters -/

section

variable {d : UInt8} {s t u v : Bytes}

theorem afterLast_append (d : UInt8) (a b : Bytes) : afterLast d (a ++ d :: b) = afterLast d b := by
  induction b using List.reverseRecOn with
  | nil => exact List.rtakeWhile_concat_neg _ _ _ (by simp)
  | append_singleton b c ih =>
    have hassoc : a ++ d :: (b ++ [c]) = (a ++ d :: b) ++ [c] := by simp
    unfold afterLast at ih ⊢
    rw [hassoc, List.rtakeWhile_concat, List.rtakeWhile_concat, ih]

theorem not_mem_afterLast (d : UInt8) (s : Bytes) : d ∉ afterLast d s := by
  intro h
  simpa using List.mem_rtakeWhile_imp h

theorem afterLast_eq_self (h : d ∉ s) : afterLast d s = s := by
  refine List.rtakeWhile_eq_self_iff.2 fun c hc => decide_eq_true ?_
  rintro rfl
  exact h hc

/-- A text is its last piece or ends in a delimiter and that piece. -/
theorem afterLast_cases (d : UInt8) (s : Bytes) : afterLast d s = s ∨ ∃ a, s = a ++ d :: afterLast d s := by
  induction s using List.reverseRecOn with
  | nil => exact .inl rfl
  | append_singleton s c ih =>
    by_cases hc : c = d
    · subst hc
      exact .inr ⟨s, by rw [afterLast_append]; rfl⟩
    · have hlast : afterLast d (s ++ [c]) = afterLast d s ++ [c] := List.rtakeWhile_concat_pos _ _ _ (by simpa using hc)
      rw [hlast]
      refine ih.imp (fun h => by rw [h]) ?_
      rintro ⟨a, ha⟩
      exact ⟨a, by rw [← List.cons_append, ← List.append_assoc, ← ha]⟩

theorem getLast_split (d : UInt8) (s : Bytes) : (split d s).getLast (split_ne_nil d s) = afterLast d s := by
  induction s using List.reverseRecOn with
  | nil => rfl
  | append_singleton s c ih =>
    by_cases hc : c = d
    · subst hc
      simp [split_append, split, afterLast]
    · have hd : d ∉ [c] := by simpa using Ne.symm hc
      have hlast : afterLast d (s ++ [c]) = afterLast d s ++ [c] := List.rtakeWhile_concat_pos _ _ _ (by simpa using hc)
      simp only [split_append_last d s hd, List.getLast_append, hlast, ih]
      rfl

/-- A piece behind the first is empty only at the end or between two delimiters. -/
theorem nil_mem_tail_split (h : [] ∈ (split d s).tail) : s.getLast? = some d ∨ [d, d] <:+: s := by
  induction s with
  | nil => cases h
  | cons c s ih =>
    have lift (h : s.getLast? = some d ∨ [d, d] <:+: s) : (c :: s).getLast? = some d ∨ [d, d] <:+: c :: s := by
      refine h.imp (fun hl => ?_) fun hi => hi.trans (List.suffix_cons c s).isInfix
      rw [List.getLast?_cons, hl]
      rfl
    obtain ⟨t, ts, ht⟩ := List.exists_cons_of_ne_nil (split_ne_nil d s)
    by_cases hc : c = d
    · subst hc
      rw [split, if_pos rfl, List.tail_cons, ht] at h
      rcases List.mem_cons.1 h with h0 | h
      · cases s with
        | nil => exact .inl rfl
        | cons b s =>
          by_cases hb : b = c
          · subst hb
            exact .inr ⟨[], s, rfl⟩
          · -- a piece that begins with a character is not empty
            obtain ⟨t', ts', ht'⟩ := List.exists_cons_of_ne_nil (split_ne_nil c s)
            rw [split, if_neg hb, ht'] at ht
            rw [← h0] at ht
            cases ht
      · exact lift (ih (by rwa [ht]))
    · rw [split, if_neg hc, ht] at h
      exact lift (ih (by rwa [ht]))

theorem nil_mem_split (h : [] ∈ split d s) : s = [] ∨ s.head? = some d ∨ s.getLast? = some d ∨ [d, d] <:+: s := by
  obtain ⟨t, ts, ht⟩ := List.exists_cons_of_ne_nil (split_ne_nil d s)
  rw [ht] at h
  rcases List.mem_cons.1 h with h0 | h
  · cases s with
    | nil => exact .inl rfl
    | cons c s =>
      by_cases hc : c = d
      · exact .inr (.inl (congrArg some hc))
      · obtain ⟨t', ts', ht'⟩ := List.exists_cons_of_ne_nil (split_ne_nil d s)
        rw [split, if_neg hc, ht', ← h0] at ht
        cases ht
  · exact .inr (.inr (nil_mem_tail_split (by rwa [ht])))

/-- The first two delimiters side by side. -/
theorem exists_first_double (h : [d, d] <:+: s) : ∃ u v, s = u ++ d :: d :: v ∧ ¬ [d, d] <:+: u ++ [d] := by
  induction s with
  | nil => exact absurd h.length_le (by simp)
  | cons c s ih =>
    by_cases hd : [d, d] <:+: s
    · by_cases hpre : [d, d] <+: c :: s
      · obtain ⟨v, hv⟩ := hpre
        refine ⟨[], v, hv.symm, fun hi => ?_⟩
        exact absurd hi.length_le (by simp)
      · obtain ⟨u, v, rfl, hu⟩ := ih hd
        refine ⟨c :: u, v, rfl, fun hi => ?_⟩
        rcases List.infix_cons_iff.1 hi with hp | hi
        · exact hpre (hp.trans ⟨d :: v, by simp⟩)
        · exact hu hi
    · obtain ⟨v, hv⟩ := (List.infix_cons_iff.1 h).resolve_right hd
      refine ⟨[], v, hv.symm, fun hi => ?_⟩
      exact absurd hi.length_le (by simp)

/-! ## Where the search ends -/

/-- What `ext` finds in a text that does not begin with a dot. -/
def lastPiece (s : Bytes) : Bytes := ((split 46 s).takeWhile (· ≠ [])).getLastD []

theorem lastPiece_of_nil_not_mem (h : [] ∉ split 46 s) : lastPiece s = afterLast 46 s := by
  have hall : (split 46 s).takeWhile (· ≠ []) = split 46 s := by
    refine List.takeWhile_eq_self_iff.2 fun t ht => decide_eq_true ?_
    rintro rfl
    exact h ht
  rw [lastPiece, hall, ← getLast_split, List.getLastD_eq_getLast?, List.getLast?_eq_some_getLast (split_ne_nil 46 s)]
  rfl

theorem lastPiece_plain (hne : s ≠ []) (hhead : s.head? ≠ some 46) (hlast : s.getLast? ≠ some 46)
    (hd : ¬ [46, 46] <:+: s) : lastPiece s = afterLast 46 s := by
  apply lastPiece_of_nil_not_mem
  intro h
  rcases nil_mem_split h with h | h | h | h
  · exact hne h
  · exact hhead h
  · exact hlast h
  · exact hd h

/-- The search ends before the first two dots. -/
theorem lastPiece_double (hhead : (u ++ 46 :: 46 :: v).head? ≠ some 46) (hu : ¬ [46, 46] <:+: u ++ [46]) :
    lastPiece (u ++ 46 :: 46 :: v) = afterLast 46 u := by
  have hnil : [] ∉ split 46 u := by
    intro h
    rcases nil_mem_split h with rfl | h | h | h
    · exact hhead rfl
    · obtain ⟨c, u, rfl⟩ := List.exists_cons_of_ne_nil (List.ne_nil_of_mem (List.mem_of_head? h))
      exact hhead h
    · obtain ⟨w, rfl⟩ := List.getLast?_eq_some_iff.1 h
      exact hu ⟨w, [], by simp⟩
    · exact hu (h.trans (List.prefix_append u [46]).isInfix)
  have hall : ∀ t ∈ split 46 u, decide (t ≠ []) = true := by
    intro t ht
    refine decide_eq_true ?_
    rintro rfl
    exact hnil ht
  rw [← lastPiece_of_nil_not_mem hnil, lastPiece, lastPiece, split_append, List.takeWhile_append_of_pos hall,
    List.takeWhile_eq_self_iff.2 hall]
  simp [split]

theorem lastPiece_ne_nil (hne : s ≠ []) (hhead : s.head? ≠ some 46) : lastPiece s ≠ [] := by
  obtain ⟨c, s, rfl⟩ := List.exists_cons_of_ne_nil hne
  have hc : c ≠ 46 := fun he => hhead (congrArg some he)
  obtain ⟨t, ts, ht⟩ := List.exists_cons_of_ne_nil (split_ne_nil 46 s)
  rw [lastPiece, split, if_neg hc, ht]
  dsimp only
  rw [List.takeWhile_cons_of_pos (by simp), List.getLastD_cons]
  intro h
  have hm : (ts.takeWhile (· ≠ [])).getLastD (c :: t) ∈ (c :: t) :: ts.takeWhile (· ≠ []) := List.getLastD_mem_cons
  rw [h] at hm
  rcases List.mem_cons.1 hm with h0 | hm
  · cases h0
  · simpa using List.mem_takeWhile_imp hm

/-! ## The whole path -/

variable {file : Bytes}

theorem ext_eq (h : 46 ∈ file) : ext file = some (lastPiece (if file.head? = some 46 then trim file 46 else file)) := if_pos h

theorem head?_skipped (file : Bytes) : (file.dropWhile (· = 46)).head? ≠ some 46 := by
  intro h
  have hnot := List.head?_dropWhile_not (fun c : UInt8 => decide (c = 46)) file
  rw [h] at hnot
  simp at hnot

theorem getLast?_skipped (hne : file.dropWhile (· = 46) ≠ []) : (file.dropWhile (· = 46)).getLast? = file.getLast? := by
  obtain ⟨a, ha⟩ : file.dropWhile (· = 46) <:+ file := List.dropWhile_suffix _
  have h : (a ++ file.dropWhile (· = 46)).getLast? = (file.dropWhile (· = 46)).getLast? :=
    List.getLast?_append_of_ne_nil a hne
  rw [← h, ha]

/-- Dots at the end are not skipped if the path begins without a dot. -/
theorem ext_skipped (h : 46 ∈ file) (hlast : file.getLast? ≠ some 46) :
    ext file = some (lastPiece (file.dropWhile (· = 46))) := by
  rw [ext_eq h]
  split
  · have hr : file.rdropWhile (· = 46) = file := by
      refine List.rdropWhile_eq_self_iff.2 fun hne hd => hlast ?_
      rw [List.getLast?_eq_some_getLast hne, of_decide_eq_true hd]
    rw [trim, hr]
  · rename_i hhead
    cases file with
    | nil => rfl
    | cons c s =>
      have hc : c ≠ 46 := fun he => hhead (congrArg some he)
      rw [List.dropWhile_cons_of_neg (by simpa using hc)]

theorem ext_ends (h : 46 ∈ file) (hne : file.dropWhile (· = 46) ≠ []) : ext file ≠ some [] := by
  rw [ext_eq h]
  intro he
  have hnil := Option.some.inj he
  split at hnil
  · refine lastPiece_ne_nil (fun ht => hne (List.dropWhile_eq_nil_iff.2 fun c hc => ?_)) (head?_skipped _) hnil
    rw [← List.rdropWhile_append_rtakeWhile (p := fun c : UInt8 => decide (c = 46)) (l := file)] at hc
    rcases List.mem_append.1 hc with hc | hc
    · exact List.dropWhile_eq_nil_iff.1 ht c hc
    · exact List.mem_rtakeWhile_imp (p := fun c : UInt8 => decide (c = 46)) hc
  · rename_i hhead
    exact lastPiece_ne_nil (List.ne_nil_of_mem h) hhead hnil

theorem afterLast_skipped (file : Bytes) :
    afterLast 46 (file.dropWhile (· = 46)) = afterLast 46 file := by
  have hfile := List.takeWhile_append_dropWhile (p := fun c : UInt8 => decide (c = 46)) (l := file)
  rcases List.eq_nil_or_concat' (file.takeWhile (· = 46)) with hnil | ⟨a, c, hdots⟩
  · rw [hnil, List.nil_append] at hfile
    rw [hfile]
  · have hc : c = 46 := by
      have hm : c ∈ file.takeWhile (· = 46) := by simp [hdots]
      simpa using List.mem_takeWhile_imp hm
    subst hc
    rw [hdots, List.append_assoc, List.singleton_append] at hfile
    conv_rhs => rw [← hfile]
    rw [afterLast_append]

theorem afterLast_baseName (h : 46 ∈ baseName file) : afterLast 46 (baseName file) = afterLast 46 file := by
  rcases afterLast_cases 47 file with hself | ⟨a, ha⟩
  · rw [baseName, hself]
  · rcases afterLast_cases 46 (baseName file) with hnone | ⟨b, hb⟩
    · exact absurd (hnone ▸ h) (not_mem_afterLast 46 _)
    · have hfile : file = (a ++ 47 :: b) ++ 46 :: afterLast 46 (baseName file) := by
        calc file = a ++ 47 :: baseName file := ha
          _ = a ++ 47 :: (b ++ 46 :: afterLast 46 (baseName file)) := by rw [← hb]
          _ = (a ++ 47 :: b) ++ 46 :: afterLast 46 (baseName file) := by simp
      conv_rhs => rw [hfile]
      rw [afterLast_append, afterLast_eq_self (not_mem_afterLast 46 _)]

theorem extension_eq (h : 46 ∈ baseName file) : extension file = some (afterLast 46 file) := by
  rw [extension, if_pos h, afterLast_baseName h]

theorem mem_of_baseName (h : 46 ∈ baseName file) : 46 ∈ file := (List.rtakeWhile_suffix _ file).subset h

/-- A path of dots. -/
theorem ext_dots (h : 46 ∈ file) (hnil : file.dropWhile (· = 46) = []) : ext file = some (afterLast 46 file) := by
  have hall := List.dropWhile_eq_nil_iff.1 hnil
  have hhead : file.head? = some 46 := by
    obtain ⟨c, s, rfl⟩ := List.exists_cons_of_ne_nil (List.ne_nil_of_mem h)
    exact congrArg some (of_decide_eq_true (hall c List.mem_cons_self))
  have htrim : trim file 46 = [] := by
    rw [trim, List.dropWhile_eq_nil_iff]
    exact fun c hc => hall c ((List.rdropWhile_prefix _ file).subset hc)
  have hlast : afterLast 46 file = [] := by
    refine List.eq_nil_iff_forall_not_mem.2 fun c hc => ?_
    have hc46 : c = 46 := of_decide_eq_true (hall c ((List.rtakeWhile_suffix _ file).subset hc))
    exact not_mem_afterLast 46 file (hc46 ▸ hc)
  rw [ext_eq h, if_pos hhead, htrim, hlast]
  rfl

/-- A path that goes on behind its dots and does not end in one. -/
theorem ext_harmless_iff (hne : file.dropWhile (· = 46) ≠ []) (hlast : file.getLast? ≠ some 46) :
    lastPiece (file.dropWhile (· = 46)) = afterLast 46 file ↔
      ¬ [46, 46] <:+: file.dropWhile (· = 46) ∨ ∃ u v, file.dropWhile (· = 46) = u ++ 46 :: 46 :: v ∧
        ¬ [46, 46] <:+: u ++ [46] ∧ afterLast 46 u = afterLast 46 file := by
  have hhead := head?_skipped file
  by_cases hd : [46, 46] <:+: file.dropWhile (· = 46)
  · constructor
    · intro he
      obtain ⟨u, v, hs, hu⟩ := exists_first_double hd
      rw [hs] at hhead he
      rw [lastPiece_double hhead hu] at he
      exact .inr ⟨u, v, hs, hu, he⟩
    · rintro (hnot | ⟨u, v, hs, hu, he⟩)
      · exact absurd hd hnot
      · rw [hs] at hhead ⊢
        rw [lastPiece_double hhead hu, he]
  · refine iff_of_true ?_ (.inl hd)
    rw [lastPiece_plain hne hhead (by rwa [getLast?_skipped hne]) hd, afterLast_skipped]

theorem afterLast_of_getLast? (h : file.getLast? = some 46) : afterLast 46 file = [] := by
  obtain ⟨a, rfl⟩ := List.getLast?_eq_some_iff.1 h
  rw [afterLast_append]
  rfl

/-- The code finds the extension exactly where the dots do no harm. -/
theorem ext_eq_extension_iff : ext file = extension file ↔ DotsHarmless file := by
  by_cases h : 46 ∈ file
  · by_cases hb : 46 ∈ baseName file
    · simp only [DotsHarmless, h, hb, not_true_eq_false, false_or, true_and, extension_eq hb]
      by_cases hnil : file.dropWhile (· = 46) = []
      · exact iff_of_true (ext_dots h hnil) (.inl hnil)
      · simp only [hnil, false_or]
        by_cases hlast : file.getLast? = some 46
        · refine iff_of_false (fun he => ?_) fun hc => hc.1 hlast
          rw [afterLast_of_getLast? hlast] at he
          exact ext_ends h hnil he
        · rw [ext_skipped h hlast, Option.some.injEq, ext_harmless_iff hnil hlast]
          exact (and_iff_right hlast).symm
    · refine iff_of_false (fun he => ?_) fun hc => ?_
      · rw [ext_eq h, extension, if_neg hb] at he
        cases he
      · rcases hc with hnot | ⟨hb', -⟩
        · exact hnot h
        · exact hb hb'
  · have hb := mt mem_of_baseName h
    refine iff_of_true ?_ (.inl h)
    rw [ext, if_neg h, extension, if_neg hb]

/-- The extension is found if and only if the dots of the path do no harm, and then the file is served by it. -/
theorem ext_iff (sys : Sys) (cnf : Config) (rq : Request) (task : Task) (file : Bytes) :
    (ext file = extension file ↔ DotsHarmless file) ∧
      (DotsHarmless file → serveResource sys cnf rq task file = servedAs sys cnf rq task file (extension file)) := by
  refine ⟨ext_eq_extension_iff, fun h => ?_⟩
  rw [serveResource_eq, ext_eq_extension_iff.2 h]

end

/-- A name with two dots apart, in a directory without any. -/
theorem ext_archive : extension (str "/www/a.tar.gz") = some (str "gz") ∧
    ∀ sys cnf rq task, serveResource sys cnf rq task (str "/www/a.tar.gz") =
      servedAs sys cnf rq task (str "/www/a.tar.gz") (some (str "gz")) := by
  have hext : extension (str "/www/a.tar.gz") = some (str "gz") := by decide
  have hfound : ext (str "/www/a.tar.gz") = extension (str "/www/a.tar.gz") := by decide
  refine ⟨hext, fun sys cnf rq task => ?_⟩
  have hiff := ext_iff sys cnf rq task (str "/www/a.tar.gz")
  rw [hiff.2 (hiff.1.1 hfound), hext]

/-- The directory has the dot, the file has none. -/
theorem ext_of_directory : ext (str "/www/a.d/run") = some (str "d/run") ∧ extension (str "/www/a.d/run") = none := by
  decide

end AntHttp
