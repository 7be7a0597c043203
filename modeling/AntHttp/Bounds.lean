import AntHttp.Sample
/-!
# Fixed-size buffers

The URL is rewritten in a buffer of 2*BUFFLEN bytes, through `rep[10]` and
`key_matches[10]`; a proxy target goes through `buff[256]`, a resource path
through `path[2*BUFFLEN]`. None of the copies is limited by the room that is
left, except the first one into `path`. The conditions here say when they fit.
-/

namespace AntHttp

open CString

/-! ## What a template stands for -/

/-- A placeholder of a value: the text before it, its word, and the
placeholder as written. -/
structure Hole where
  before : Bytes
  word : Bytes
  kept : Bytes

/-- Where the word of the first placeholder starts and ends. -/
def firstWord (regexec : Regexec) (tmp : Bytes) : Option (Nat × Nat) := (found regexec PLACEHOLDER tmp).bind (· 1)

/-- The placeholders of a text, as `first` finds them, and the text after the last. -/
def holesOf (first : Bytes → Option (Nat × Nat)) (tmp : Bytes) : List Hole × Bytes :=
  if _h : tmp = [] then ([], tmp)
  else
    match first tmp with
    | none => ([], tmp)
    | some (so, eo) =>
      let r := holesOf first (tmp.drop (eo + 1))
      (⟨tmp.take (so - 1), (tmp.drop so).take (eo - so), (tmp.drop (so - 1)).take (eo + 2 - so)⟩ :: r.1, r.2)
termination_by tmp.length
decreasing_by
  have hpos := List.length_pos_iff.2 _h
  simp only [List.length_drop]
  omega

def holes (regexec : Regexec) : Bytes → List Hole × Bytes := holesOf (firstWord regexec)

/-- Each placeholder with the name it is read under: `rep` keeps the end of a
longer word that was there before. -/
def named (rep : Bytes) : List Hole → List (Hole × Bytes)
  | [] => []
  | h :: hs => (h, cstr (h.word ++ rep.drop h.word.length)) :: named (h.word ++ rep.drop h.word.length) hs

/-- What a name asks for. -/
inductive Meaning where
  | url | query | group (n : Nat) | nothing | kept
  deriving DecidableEq

def meaning (regexec : Regexec) (name : Bytes) : Meaning :=
  if strcaseeq name (str "url") then .url
  else if strcaseeq name (str "query") then .query
  else if (found regexec (str "^[-+]?[0-9]+$") name).isSome then .group (atoi name).toNat
  else if strcaseeq name (str "break") then .nothing
  else .kept

/-- The URL, the query and the text that was matched, with its groups. -/
structure Source where
  url : Bytes
  query : Bytes
  target : Bytes
  groups : Ere.Caps

def Source.text (src : Source) (kept : Bytes) : Meaning → Bytes
  | .url => src.url
  | .query => src.query
  | .group n => groupText src.target (src.groups n)
  | .nothing => []
  | .kept => kept

/-- The text of the placeholders and what stands before them. -/
def filled (regexec : Regexec) (src : Source) (hs : List (Hole × Bytes)) : Bytes :=
  hs.flatMap fun p => p.1.before ++ src.text p.1.kept (meaning regexec p.2)

/-- The words fit into `rep` and the numbers into `key_matches`. -/
def WordsFit (regexec : Regexec) (hs : List (Hole × Bytes)) : Prop :=
  ∀ p ∈ hs, p.1.word.length < 10 ∧ ∀ n, meaning regexec p.2 = .group n → n < 10

/-- The placeholders of a rule's value. -/
def template (regexec : Regexec) (v : Bytes) : List (Hole × Bytes) := named (List.replicate 10 0) (holes regexec v).1

/-- The value `v` of a matching rule can be expanded: its words fit, and so
does the new URL, if any text precedes the end of the last placeholder. -/
def ValueFits (regexec : Regexec) (src : Source) (v : Bytes) : Prop :=
  WordsFit regexec (template regexec v) ∧
    (filled regexec src (template regexec v) ≠ [] →
      (filled regexec src (template regexec v)).length + (holes regexec v).2.length < BUF_SIZE)

/-! ## The expansion is what fits -/

theorem compiles_placeholder : (Ere.regcomp PLACEHOLDER).isSome := by decide +kernel

theorem compiles_proxy : (Ere.regcomp PROXY_PATTERN).isSome := by decide +kernel

/-- What a name stands for, unless it is a number that is too large. -/
theorem replacement_cases (regexec : Regexec) (src : Source) (name kept : Bytes) :
    (replacement regexec src.url src.query src.target src.groups name kept = .ok (src.text kept (meaning regexec name)) ∧
      ∀ n, meaning regexec name = .group n → n < 10) ∨
    (replacement regexec src.url src.query src.target src.groups name kept = .error .bounds ∧
      ∃ n, meaning regexec name = .group n ∧ ¬ n < 10) := by
  unfold replacement match_int meaning
  rw [regex_match_found compiles_number]
  split
  · exact .inl ⟨rfl, nofun⟩
  · split
    · exact .inl ⟨rfl, nofun⟩
    · simp only [pure, Except.pure, bind, Except.bind]
      split
      · split
        · rename_i hlt
          exact .inl ⟨rfl, fun n hn => by cases hn; exact hlt⟩
        · rename_i hlt
          exact .inr ⟨rfl, _, rfl, hlt⟩
      · split
        · exact .inl ⟨rfl, nofun⟩
        · exact .inl ⟨rfl, nofun⟩

theorem holes_nil (regexec : Regexec) : holes regexec [] = ([], []) := by
  unfold holes holesOf
  rfl

theorem holes_none {regexec : Regexec} {tmp : Bytes} (h : firstWord regexec tmp = none) :
    holes regexec tmp = ([], tmp) := by
  unfold holes holesOf
  split
  · rfl
  · rw [h]

theorem holes_some {regexec : Regexec} {tmp : Bytes} {so eo : Nat} (hne : tmp ≠ [])
    (h : firstWord regexec tmp = some (so, eo)) :
    holes regexec tmp =
      (⟨tmp.take (so - 1), (tmp.drop so).take (eo - so), (tmp.drop (so - 1)).take (eo + 2 - so)⟩ ::
        (holes regexec (tmp.drop (eo + 1))).1, (holes regexec (tmp.drop (eo + 1))).2) := by
  conv_lhs => unfold holes holesOf
  rw [dif_neg hne, h]
  rfl

theorem wordsFit_cons {regexec : Regexec} {p : Hole × Bytes} {hs : List (Hole × Bytes)} :
    WordsFit regexec (p :: hs) ↔
      (p.1.word.length < 10 ∧ ∀ n, meaning regexec p.2 = .group n → n < 10) ∧ WordsFit regexec hs :=
  List.forall_mem_cons

theorem filled_cons (regexec : Regexec) (src : Source) (p : Hole × Bytes) (hs : List (Hole × Bytes)) :
    filled regexec src (p :: hs) = p.1.before ++ src.text p.1.kept (meaning regexec p.2) ++ filled regexec src hs := rfl

/-- One turn of the loop: the placeholder is written out if its word, its number
and the text fit, and leaves a buffer if one of them does not. -/
theorem expand_turn {regexec : Regexec} (src : Source) {e : Expand} {so eo : Nat} {h : Hole} {rep text : Bytes}
    (hne : e.tmp ≠ []) (hw : firstWord regexec e.tmp = some (so, eo))
    (hh : h = ⟨e.tmp.take (so - 1), (e.tmp.drop so).take (eo - so), (e.tmp.drop (so - 1)).take (eo + 2 - so)⟩)
    (hrep : rep = h.word ++ e.rep.drop h.word.length) (htext : text = src.text h.kept (meaning regexec (cstr rep))) :
    ((h.word.length < 10 ∧ ∀ n, meaning regexec (cstr rep) = .group n → n < 10) ∧
      (e.out ++ h.before ++ text).length ≤ BUF_SIZE ∧
      expand regexec src.url src.query src.target src.groups e =
        expand regexec src.url src.query src.target src.groups ⟨e.tmp.drop (eo + 1), rep, e.out ++ h.before ++ text⟩) ∨
    (expand regexec src.url src.query src.target src.groups e = .error .bounds ∧
      ¬ ((h.word.length < 10 ∧ ∀ n, meaning regexec (cstr rep) = .group n → n < 10) ∧
        (e.out ++ h.before ++ text).length ≤ BUF_SIZE)) := by
  have hturn : expand regexec src.url src.query src.target src.groups e = (do
      let out ← copyOut e.out h.before
      let rep ← copyRep e.rep h.word
      let text ← replacement regexec src.url src.query src.target src.groups (cstr rep) h.kept
      let out ← copyOut out text
      expand regexec src.url src.query src.target src.groups ⟨e.tmp.drop (eo + 1), rep, out⟩) := by
    conv_lhs => unfold expand
    rw [dif_neg hne, regex_match_found compiles_placeholder]
    unfold firstWord at hw
    simp only [bind, Except.bind, hw, hh]
  rw [hturn]
  simp only [bind, Except.bind]
  -- the text before the placeholder
  by_cases hb : e.out.length + h.before.length ≤ BUF_SIZE
  swap
  · refine .inr ⟨by simp only [copyOut, if_neg hb], fun hfit => hb ?_⟩
    have := hfit.2
    simp only [List.length_append] at this
    omega
  simp only [copyOut, if_pos hb]
  -- the word
  by_cases hword : h.word.length < 10
  swap
  · exact .inr ⟨by simp only [copyRep, if_neg hword], fun hfit => hword hfit.1.1⟩
  simp only [copyRep, if_pos hword, ← hrep]
  rcases replacement_cases regexec src (cstr rep) h.kept with ⟨ht, hnum⟩ | ⟨ht, n, hn, hlt⟩
  swap
  · exact .inr ⟨by rw [ht], fun hfit => hlt (hfit.1.2 n hn)⟩
  rw [ht, ← htext]
  simp only
  -- what it stands for
  by_cases hout : (e.out ++ h.before).length + text.length ≤ BUF_SIZE
  swap
  · refine .inr ⟨by rw [if_neg hout], fun hfit => hout ?_⟩
    rw [← List.length_append]
    exact hfit.2
  rw [if_pos hout]
  exact .inl ⟨⟨hword, hnum⟩, by rwa [List.length_append], rfl⟩

/-- The loop ends with what the placeholders stand for if the words and all that
it writes fit, and leaves a buffer if they do not. -/
theorem expand_cases (regexec : Regexec) (src : Source) (e : Expand) (he : e.out.length ≤ BUF_SIZE) :
    (∃ e', expand regexec src.url src.query src.target src.groups e = .ok e' ∧
      e'.out = e.out ++ filled regexec src (named e.rep (holes regexec e.tmp).1) ∧
      e'.tmp = (holes regexec e.tmp).2 ∧
      WordsFit regexec (named e.rep (holes regexec e.tmp).1) ∧ e'.out.length ≤ BUF_SIZE) ∨
    (expand regexec src.url src.query src.target src.groups e = .error .bounds ∧
      ¬ (WordsFit regexec (named e.rep (holes regexec e.tmp).1) ∧
        (e.out ++ filled regexec src (named e.rep (holes regexec e.tmp).1)).length ≤ BUF_SIZE)) := by
  induction hn : e.tmp.length using Nat.strong_induction_on generalizing e with
  | _ n ih =>
    subst hn
    by_cases hne : e.tmp = []
    · unfold expand
      rw [dif_pos hne, hne, holes_nil]
      exact .inl ⟨e, rfl, by simp [named, filled], hne, by simp [named, WordsFit], he⟩
    cases hw : firstWord regexec e.tmp with
    | none =>
      rw [holes_none hw]
      refine .inl ⟨e, ?_, by simp [named, filled], rfl, by simp [named, WordsFit], he⟩
      unfold firstWord at hw
      unfold expand
      rw [dif_neg hne, regex_match_found compiles_placeholder]
      simp only [bind, Except.bind, hw]
      rfl
    | some w =>
      obtain ⟨so, eo⟩ := w
      rw [holes_some hne hw]
      have hdrop : (e.tmp.drop (eo + 1)).length < e.tmp.length := by
        have := List.length_pos_iff.2 hne
        rw [List.length_drop]; omega
      simp only [named, wordsFit_cons, filled_cons]
      rcases expand_turn src hne hw rfl rfl rfl with ⟨hfit, hout, hturn⟩ | ⟨hturn, hnot⟩
      · rw [hturn]
        rcases ih _ hdrop ⟨_, _, _⟩ hout rfl with ⟨e', he', hout', htmp', hfit', hle⟩ | ⟨he', hnot⟩
        · exact .inl ⟨e', he', by simpa only [List.append_assoc] using hout', htmp', ⟨hfit, hfit'⟩, hle⟩
        · refine .inr ⟨he', fun h => hnot ⟨h.1.2, ?_⟩⟩
          simpa only [List.append_assoc] using h.2
      · -- what is written here is a part of all that is written
        refine .inr ⟨hturn, fun h => hnot ⟨h.1.1, ?_⟩⟩
        have hle := h.2
        simp only [List.length_append] at hle ⊢
        omega

/-! ## Rules -/

/-- The text that takes the place of the URL, if there is any. -/
def expansion (regexec : Regexec) (src : Source) (v : Bytes) : Option Bytes :=
  let out := filled regexec src (template regexec v)
  if out ≠ [] then some (out ++ (holes regexec v).2) else none

/-- A rule that matches leaves its value expanded, if it fits. -/
theorem rule_check_cases {regexec : Regexec} {k : Bytes} {host : Option Bytes} {url target : Bytes} {m : Ere.Caps}
    (v query : Bytes) (hm : matchTarget regexec k host url = .ok (some (target, m))) :
    (ValueFits regexec ⟨url, query, target, m⟩ v ∧
      rule_check regexec k v host url query = .ok (some (expansion regexec ⟨url, query, target, m⟩ v))) ∨
    (¬ ValueFits regexec ⟨url, query, target, m⟩ v ∧ rule_check regexec k v host url query = .error .bounds) := by
  unfold rule_check ValueFits expansion
  rw [hm]
  have hexp := expand_cases regexec ⟨url, query, target, m⟩ ⟨v, List.replicate 10 0, []⟩ (Nat.zero_le _)
  rw [show named (List.replicate 10 0) (holes regexec v).1 = template regexec v from rfl] at hexp
  simp only [List.nil_append] at hexp
  simp only [bind, Except.bind]
  rcases hexp with ⟨e, he, hout, htmp, hfit, hle⟩ | ⟨he, hnot⟩
  · rw [he]
    simp only [hout, htmp]
    by_cases hne : filled regexec ⟨url, query, target, m⟩ (template regexec v) = []
    · simp [hne, hfit, pure, Except.pure]
    · by_cases hlt : (filled regexec ⟨url, query, target, m⟩ (template regexec v)).length +
          (holes regexec v).2.length < BUF_SIZE
      · simp [hne, hlt, hfit, pure, Except.pure]
      · simp [hne, hlt, throw, throwThe, MonadExceptOf.throw]
  · rw [he]
    refine .inr ⟨fun h => hnot ⟨h.1, ?_⟩, rfl⟩
    by_cases hne : filled regexec ⟨url, query, target, m⟩ (template regexec v) = []
    · simp only [hne, List.length_nil, Nat.zero_le]
    · have := h.2 hne
      omega

/-- The rules in their order, each on the URL that those before it have left: a
rule that matches can be expanded. -/
def RulesFit (regexec : Regexec) (host : Option Bytes) : Chain Bytes → Rewrite → Prop
  | [], _ => True
  | (_, none) :: its, s => RulesFit regexec host its s
  | (k, some v) :: its, s =>
    let s := { s with should_break := s.should_break || (found regexec (str "<break>$") v).isSome }
    match matchTarget regexec k host s.url with
    -- another fault: the rule needs a host and there is none, or the library refuses its pattern, which is run all the same
    | .error _ => True
    | .ok none => RulesFit regexec host its s
    | .ok (some (target, m)) =>
      let src : Source := ⟨s.url, s.query, target, m⟩
      ValueFits regexec src v ∧
        (s.should_break = false → RulesFit regexec host its (s.resplit k v (expansion regexec src v)))

theorem rule_check_none {regexec : Regexec} {k v : Bytes} {host : Option Bytes} {url query : Bytes}
    (hm : matchTarget regexec k host url = .ok none) : rule_check regexec k v host url query = .ok none := by
  unfold rule_check
  rw [hm]
  rfl

theorem compiles_break : (Ere.regcomp (str "<break>$")).isSome := by decide +kernel

/-- The loop over the rules leaves a buffer exactly if a rule that it tries cannot be expanded. -/
theorem apply_rules_loop_bounds {regexec : Regexec} {host : Option Bytes} (its : Chain Bytes) (s : Rewrite) :
    apply_rules_loop regexec host its s = .error .bounds ↔ ¬ RulesFit regexec host its s := by
  induction its generalizing s with
  | nil => simp [apply_rules_loop, RulesFit]
  | cons it its ih =>
    obtain ⟨k, _ | v⟩ := it
    · exact ih s
    unfold apply_rules_loop applyRule RulesFit
    rw [regex_match_found compiles_break]
    simp only [bind, Except.bind]
    cases hm : matchTarget regexec k host s.url with
    | error e =>
      have hr : rule_check regexec k v host s.url s.query = .error e := by
        unfold rule_check; rw [hm]; rfl
      simp only [hr, Except.error.injEq, not_true_eq_false, iff_false]
      rintro rfl
      exact (matchTarget_avoids (by decide) k host s.url).ne hm
    | ok o =>
      cases o with
      | none =>
        simp only [rule_check_none hm]
        exact ih _
      | some p =>
        obtain ⟨target, m⟩ := p
        rcases rule_check_cases v s.query hm with ⟨hfit, hr⟩ | ⟨hfit, hr⟩
        · simp only [hr, hfit, true_and]
          cases hb : s.should_break || (found regexec (str "<break>$") v).isSome with
          | true => simp [pure, Except.pure]
          | false => simpa [pure, Except.pure] using ih _
        · simp only [hr, hfit, false_and, not_false_eq_true]

/-! ## The proxy target and the resource path -/

/-- The URL does not name a proxy, or names one by `https`, or its host and port
leave room for a NUL. -/
def ProxyFits (regexec : Regexec) (path : Bytes) : Prop :=
  ∀ m, found regexec PROXY_PATTERN path = some m → (groupText path (m 1)).length ≠ 5 →
    (groupText path (m 2)).length < 256 ∧ (groupText path (m 3)).length < 256

theorem copyCapture_bind {α : Type} (capture : Bytes) (f : Bytes → Res α) :
    (copyCapture capture >>= f) = if capture.length < 256 then f capture else .error .bounds := by
  unfold copyCapture
  split <;> rfl

theorem check_proxy_bounds {regexec : Regexec} {rq : Request} {path query : Bytes} :
    check_proxy regexec rq path query = .error .bounds ↔ ¬ ProxyFits regexec path := by
  unfold check_proxy ProxyFits
  rw [regex_match_found compiles_proxy]
  cases hm : found regexec PROXY_PATTERN path with
  | none => simp [bind, Except.bind, pure, Except.pure]
  | some m =>
    by_cases h5 : (groupText path (m 1)).length = 5
    · simp [h5, bind, Except.bind, pure, Except.pure]
    · simp only [copyCapture_bind]
      by_cases hh : (groupText path (m 2)).length < 256
      · by_cases hp : (groupText path (m 3)).length < 256
        · simp [h5, hh, hp, bind, Except.bind, pure, Except.pure]
        · simp [h5, hh, hp, bind, Except.bind]
      · simp [h5, hh, bind, Except.bind]

/-- What `resolve_request` appends to a directory leaves room for a NUL in `path`. -/
def PathFits (sys : Sys) (rq : Request) : Prop :=
  ∀ url root st, rq.REQUEST_URI = some url → rq.SERVER_WWW_ROOT = some root →
    sys.stat 0 (snprintf BUF_SIZE (root ++ [47] ++ url)) = some st → st.isDir = true →
    (snprintf BUF_SIZE (root ++ [47] ++ url)).length + 11 < BUF_SIZE

section Resolve

variable {sys : Sys} {cnf : Config} {rq : Request}

theorem execute_plugin_avoids_bounds (pname : Bytes) : Res.Avoids .bounds (execute_plugin sys cnf rq pname) := by
  unfold execute_plugin
  refine (port_avoids (by decide) _).bind fun o _ => ?_
  refine (Res.Avoids.deref_of_ne (by decide)).bind fun pcnf _ => ?_
  refine Res.Avoids.bind ?_ fun _ _ => ?_
  · unfold pluginEnabled
    split
    · exact .ok _ _
    · exact (regex_match_avoids (by decide)).bind fun _ _ => .ok _ _
  · split
    · simp only
      split
      · exact .ok _ _
      · split <;> exact .ok _ _
    · exact .ok _ _

theorem mime_avoids_bounds {regexec : Regexec} (mimes : Dictionary Bytes) (file : Bytes) :
    Res.Avoids .bounds (mime regexec mimes file) := by
  have hfind (ex : Bytes) (its : Chain Bytes) : Res.Avoids .bounds (mime_from_ext.find regexec ex its) := by
    induction its with
    | nil => exact .ok _ _
    | cons it its ih =>
      unfold mime_from_ext.find
      refine (Res.Avoids.deref_of_ne (by decide)).bind fun _ _ => (regex_match_avoids (by decide)).bind fun _ _ => ?_
      split
      · exact .ok _ _
      · exact ih
  unfold mime
  split
  · exact hfind _ _
  · exact .ok _ _

theorem serveResource_avoids_bounds (task : Task) (path : Bytes) :
    Res.Avoids .bounds (serveResource sys cnf rq task path) := by
  unfold serveResource
  refine (mime_avoids_bounds ..).bind fun _ _ => ?_
  simp only
  split
  · split
    · exact execute_plugin_avoids_bounds _
    · exact .ok _ _
  · exact .ok _ _

theorem resolve_request_bounds : resolve_request sys cnf rq = .error .bounds ↔ ¬ PathFits sys rq := by
  constructor
  · intro h hfit
    unfold resolve_request at h
    rcases Res.bind_error.1 h with h | ⟨url, hu, h⟩
    · exact (Res.Avoids.deref_of_ne (by decide)).ne h
    rcases Res.bind_error.1 h with h | ⟨root, hr, h⟩
    · exact (Res.Avoids.deref_of_ne (by decide)).ne h
    simp only at h
    split at h
    · exact (execute_plugin_avoids_bounds _).ne h
    · rename_i st hs
      split at h
      · rename_i hd
        split at h
        · rename_i hle
          have hlt := hfit url root st (deref_ok.1 hu) (deref_ok.1 hr) hs hd
          rw [List.length_append] at hle
          exact absurd hlt (not_lt.2 hle)
        · split at h
          · exact (serveResource_avoids_bounds ..).ne h
          · split at h
            · exact (serveResource_avoids_bounds ..).ne h
            · cases h
      · exact (serveResource_avoids_bounds ..).ne h
  · intro h
    unfold PathFits at h
    push Not at h
    obtain ⟨url, root, st, hu, hr, hs, hd, hle⟩ := h
    have hr' : (rq.set_state .RESOLVE_REQUEST).SERVER_WWW_ROOT = some root := hr
    have hle' : BUF_SIZE ≤ (snprintf BUF_SIZE (root ++ [47] ++ url) ++ str "/index.html").length := by
      rw [List.length_append]; exact hle
    unfold resolve_request
    rw [hu, deref_some]
    simp only [bind, Except.bind, hr', deref_some, hs, hd, if_true, if_pos hle']
    rfl

end Resolve

/-! ## Every request -/

/-- The rewriting rules stay inside `buf`, `rep` and `key_matches`, the proxy
target inside `buff` and the resource path inside `path`, exactly as long as
what is copied fits. -/
theorem rewriting_in_bounds_iff (sys : Sys) (cnf : Config) (rq : Request) (rules : Dictionary Bytes)
    (host : Option Bytes) (url path query : Bytes) :
    (apply_rules sys.regexec rules host url ≠ .error .bounds ↔ RulesFit sys.regexec host rules.assocs (.start url)) ∧
      (check_proxy sys.regexec rq path query ≠ .error .bounds ↔ ProxyFits sys.regexec path) ∧
      (resolve_request sys cnf rq ≠ .error .bounds ↔ PathFits sys rq) := by
  refine ⟨?_, ?_, ?_⟩
  · exact (not_congr (apply_rules_loop_bounds _ _)).trans not_not
  · exact (not_congr check_proxy_bounds).trans not_not
  · exact (not_congr resolve_request_bounds).trans not_not

/-- A client that names a proxy host of 256 characters. -/
def longHost : Conn :=
  sampleConn none [] (str "GET http://" ++ List.replicate 256 97 ++ str ":80/ HTTP/1.1\r\n\r\n")

theorem rewriting_out_of_bounds : ¬ ∀ (cnf : Config) (c : Conn), Conn.Reachable cnf c →
    c.task.handle = some .decode_request_header ∨ c.task.handle = some .resolve_request →
    ∀ sys : Sys, Ere.Posix sys.regexec → execute sys cnf c ≠ .error .bounds := by
  intro hall
  have hrun : ((Runs.runAll (Conn.step (sampleConfig none [])) [sampleSys []] longHost).any fun c =>
      c.task.handle = some .decode_request_header ∧
        (execute (sampleSys []) (sampleConfig none []) c).fault = some .bounds) = true := by decide +kernel
  obtain ⟨c, hc, hh, hf⟩ := Runs.ends_in hrun
  exact hall _ c (sampleConn_reachable hc) (.inl hh) _ Ere.regexec_posix (Res.fault_eq.1 hf)

end AntHttp
