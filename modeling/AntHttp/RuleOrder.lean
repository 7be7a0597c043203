import AntHttp.Bounds
import AntHttp.Ports
/-!
# The order of the rules

The rules of a port stand in a dictionary with one bucket, so the loop of
`apply_rules` takes them as the file declares them. It notes a value that ends in
`<break>` before it knows whether the rule matches, and does not forget it: a
later rule that matches stops the loop in its place.
-/

namespace AntHttp

open CString

/-! ## The rules of a port -/

/-- The port that a section names, as it is written. -/
def sectionPort (regexec : Regexec) (sec : Bytes) : Option Bytes :=
  (found regexec PORT_PATTERN sec).map fun m => groupText sec (m 1)

/-- The names that are not rules. -/
def settings : List Bytes := [str "htdocs", str "plugins", str "ssl.enable", str "protocol"]

/-- The rules in the sections of a port, line by line. -/
def ruleLines (regexec : Regexec) (key : Bytes) (lines : List IniLine) : List (Bytes × Bytes) :=
  lines.filterMap fun line => if sectionPort regexec line.1 = some key ∧ line.2.1 ∉ settings then some line.2 else none

/-- A pattern that is repeated keeps its first place and has its last value. -/
def declaredRules (rules : List (Bytes × Bytes)) : List (Bytes × Bytes) :=
  (rules.map Prod.fst).eraseDups.map fun k => (k, (rules.reverse.lookup k).getD [])

/-- The associations of these rules. -/
def assocsOf (rules : List (Bytes × Bytes)) : Chain Bytes := rules.map fun r => (r.1, some r.2)

/-- The rules that the configuration has for a port are those that its lines declare. -/
def RulesRead (regexec : Regexec) (conf : Ports) (lines : List IniLine) : Prop :=
  ∀ key, match conf.ports.dvalue key with
    | none => ruleLines regexec key lines = []
    | some p => p.rules.cap = 1 ∧ p.rules.assocs = assocsOf (declaredRules (ruleLines regexec key lines))

section

variable {α : Type}

theorem Dictionary.assocs_of_cap {d : Dictionary α} (h : d.cap = 1) : ∃ c, d.map = [c] ∧ d.assocs = c := by
  obtain ⟨c, hc⟩ := List.length_eq_one_iff.1 h
  exact ⟨c, hc, by rw [Dictionary.assocs, hc, List.flatten_singleton]⟩

/-- One bucket is one chain. -/
theorem Dictionary.assocs_dput {d : Dictionary α} (h : d.cap = 1) (key : Bytes) (value : Option α) :
    (d.dput key value).cap = 1 ∧ (d.dput key value).assocs = Dictionary.chainPut key value d.assocs := by
  obtain ⟨c, hc, ha⟩ := Dictionary.assocs_of_cap h
  have hslot : hash key d.cap = 0 := by rw [h]; exact Nat.mod_one _
  have hmap : (d.dput key value).map = [Dictionary.chainPut key value c] := by
    simp [Dictionary.dput, Dictionary.bucket, hslot, hc]
  exact ⟨by rw [Dictionary.cap, hmap]; rfl, by rw [Dictionary.assocs, hmap, ha, List.flatten_singleton]⟩

/-- Distinct names with their values: the name that is put takes its place, or comes last. -/
theorem chainPut_map {names : List Bytes} (h : names.Nodup) (f : Bytes → Option α) (key : Bytes) (value : Option α) :
    Dictionary.chainPut key value (names.map fun n => (n, f n)) =
      (if key ∈ names then names else names ++ [key]).map fun n => (n, if n = key then value else f n) := by
  induction names with
  | nil => simp [Dictionary.chainPut]
  | cons n names ih =>
    obtain ⟨hn, hnames⟩ := List.nodup_cons.1 h
    rw [List.map_cons, Dictionary.chainPut]
    by_cases hk : n = key
    · subst hk
      have hrest : names.map (fun m => (m, if m = n then value else f m)) = names.map fun m => (m, f m) :=
        List.map_congr_left fun m hm => by rw [if_neg (ne_of_mem_of_not_mem hm hn)]
      simp [hrest]
    · have hmem : key ∈ n :: names ↔ key ∈ names := by simp [Ne.symm hk]
      rw [if_neg hk, ih hnames]
      by_cases hin : key ∈ names
      · rw [if_pos hin, if_pos (hmem.2 hin), List.map_cons, if_neg hk]
      · rw [if_neg hin, if_neg (mt hmem.1 hin), List.cons_append, List.map_cons, if_neg hk]

end

theorem eraseDups_snoc (names : List Bytes) (k : Bytes) :
    (names ++ [k]).eraseDups = if k ∈ names.eraseDups then names.eraseDups else names.eraseDups ++ [k] := by
  rw [List.eraseDups_append]
  by_cases h : k ∈ names <;> simp [List.removeAll, List.eraseDups_cons, h]

theorem nodup_eraseDups (names : List Bytes) : names.eraseDups.Nodup := by
  induction names using List.reverseRecOn with
  | nil => exact List.nodup_nil
  | append_singleton names k ih =>
    rw [eraseDups_snoc]
    split
    · exact ih
    · rename_i hk
      simpa using ih.concat hk

/-- Another rule takes its place among those that were declared before. -/
theorem assocsOf_declaredRules_snoc (rules : List (Bytes × Bytes)) (r : Bytes × Bytes) :
    assocsOf (declaredRules (rules ++ [r])) = Dictionary.chainPut r.1 (some r.2) (assocsOf (declaredRules rules)) := by
  have hchain (names : List Bytes) (f : Bytes → Bytes) :
      assocsOf (names.map fun k => (k, f k)) = names.map fun k => (k, some (f k)) := List.map_map
  rw [declaredRules, declaredRules, hchain, hchain, chainPut_map (nodup_eraseDups _), List.map_append, List.map_singleton, eraseDups_snoc]
  apply List.map_congr_left
  intro k _
  rw [List.reverse_append, List.reverse_singleton, List.singleton_append]
  obtain ⟨name, value⟩ := r
  rw [List.lookup_cons]
  by_cases hk : k = name
  · simp [hk]
  · simp [hk, beq_eq_false_iff_ne.2 hk]

/-- A setting leaves the rules, and any other name is put among them. -/
theorem PortEntry.set_rules (host : Host) (p : PortEntry) (name value : Bytes) :
    (p.set host name value).rules = if name ∈ settings then p.rules else p.rules.dput name (some value) := by
  unfold PortEntry.set
  split_ifs <;> simp_all [settings]

theorem ruleLines_snoc (regexec : Regexec) (key : Bytes) (lines : List IniLine) (line : IniLine) :
    ruleLines regexec key (lines ++ [line]) = ruleLines regexec key lines ++
      if sectionPort regexec line.1 = some key ∧ line.2.1 ∉ settings then [line.2] else [] := by
  rw [ruleLines, List.filterMap_append]
  congr 1
  split <;> simp_all

section

variable {host : Host} {conf conf' : Ports} {lines : List IniLine}

theorem config_handler_rules (h : RulesRead host.regexec conf lines) {line : IniLine}
    (hc : config_handler host conf line.1 line.2.1 line.2.2 = .ok conf') : RulesRead host.regexec conf' (lines ++ [line]) := by
  obtain ⟨sec, name, value⟩ := line
  have hcomp : (Ere.regcomp PORT_PATTERN).isSome := by rw [compiles_port]; rfl
  rw [config_handler, regex_match_found hcomp, Res.ok_bind] at hc
  intro key
  rw [ruleLines_snoc]
  have hkey := h key
  cases hm : found host.regexec PORT_PATTERN sec with
  | none =>
    rw [hm] at hc
    cases hc
    have hsec : sectionPort host.regexec sec = none := by rw [sectionPort, hm]; rfl
    rw [hsec, if_neg (by simp), List.append_nil]
    exact hkey
  | some m =>
    rw [hm] at hc
    cases hc
    have hsec : sectionPort host.regexec sec = some (groupText sec (m 1)) := by rw [sectionPort, hm]; rfl
    generalize groupText sec (m 1) = buf at hsec ⊢
    rw [Dictionary.dvalue_dput, hsec]
    by_cases hb : key = buf
    swap
    · rw [if_neg hb, if_neg (fun hs => hb (Option.some.inj hs.1).symm), List.append_nil]
      exact hkey
    subst hb
    -- the entry that is there or a new one, before the line is read
    have hold : ((conf.ports.dvalue key).getD (newPort host key)).rules.cap = 1 ∧
        ((conf.ports.dvalue key).getD (newPort host key)).rules.assocs =
          assocsOf (declaredRules (ruleLines host.regexec key lines)) := by
      cases hd : conf.ports.dvalue key with
      | none =>
        rw [hd] at hkey
        rw [hkey]
        exact ⟨rfl, rfl⟩
      | some p =>
        rw [hd] at hkey
        exact hkey
    rw [if_pos rfl]
    simp only [PortEntry.set_rules, true_and]
    by_cases hname : name ∈ settings
    · rw [if_pos hname, if_neg (not_not_intro hname), List.append_nil]
      exact hold
    · obtain ⟨hcap, hassocs⟩ := Dictionary.assocs_dput hold.1 name (some value)
      rw [if_neg hname, if_pos hname]
      exact ⟨hcap, by rw [hassocs, hold.2, assocsOf_declaredRules_snoc]⟩

/-- The rules of every port are read as the lines declare them. -/
theorem load_config_rules (hl : load_config host lines = .ok conf) : RulesRead host.regexec conf lines := by
  induction lines using List.reverseRecOn generalizing conf with
  | nil =>
    cases hl
    intro key
    have hnone : (Dictionary.dict : Dictionary PortEntry).dvalue key = none := Dictionary.dvalue_dict_n ..
    rw [hnone]
    rfl
  | append_singleton lines line ih =>
    rw [load_config, List.foldlM_append] at hl
    obtain ⟨conf₁, h₁, hline⟩ := Res.bind_ok.1 hl
    obtain ⟨conf₂, h₂, hret⟩ := Res.bind_ok.1 hline
    cases hret
    exact config_handler_rules (ih h₁) h₂

end

/-! ## Where the rules end -/

/-- The value ends in `<break>`, in capitals or not. -/
def endsInBreak (v : Bytes) : Bool := strcaseeq (v.drop (v.length - (str "<break>").length)) (str "<break>")

theorem compiles_break_eol : Ere.regcomp (str "<break>$") = some (Ere.lits (str "<break>") (.cat (.assert .eol) .eps)) := by
  decide +kernel

theorem found_break {regexec : Regexec} (hx : Ere.Posix regexec) (v : Bytes) :
    (found regexec (str "<break>$") v).isSome = endsInBreak v := by
  rw [found, compiles_break_eol, Bool.eq_iff_iff]
  refine (hx.found_iff rfl v).trans ⟨?_, ?_⟩
  · rintro ⟨i, j, d, hi, hm⟩
    obtain ⟨w, hw, hcase, hend⟩ := Ere.matches_lits.1 hm
    obtain ⟨k, d', ha, -⟩ := Ere.matches_cat.1 hend
    have hlen := Ere.strcaseeq_length hcase
    cases ha with
    | assert heol =>
      have heq : i + (str "<break>").length = v.length := by simpa [Ere.Assertion.holds] using heol
      have hdrop : v.drop i = w := by
        refine (hw.eq_of_length ?_).symm
        rw [List.length_drop]
        omega
      have hat : v.length - (str "<break>").length = i := by omega
      rw [endsInBreak, hat, hdrop]
      exact hcase
  · intro hv
    have hlen := Ere.strcaseeq_length hv
    rw [List.length_drop] at hlen
    have hpos : (str "<break>").length ≠ 0 := by decide
    refine ⟨v.length - (str "<break>").length, v.length, .none, Nat.sub_le .., ?_⟩
    refine Ere.matches_lits.2 ⟨_, List.prefix_refl _, hv, ?_⟩
    rw [show v.length - (str "<break>").length + (str "<break>").length = v.length by omega]
    exact .cat (.assert (by simp [Ere.Assertion.holds])) .eps

/-- A URL and its query after the rules, and how many rules were not tried. -/
structure Folded where
  url : Bytes
  query : Bytes
  left : Nat
  deriving DecidableEq

/-- The rules in their order, up to the first that matches and ends in `<break>`. -/
def ruleFold (regexec : Regexec) (host : Option Bytes) : List (Bytes × Bytes) → Bytes × Bytes → Res Folded
  | [], s => .ok ⟨s.1, s.2, 0⟩
  | (k, v) :: rules, s => do
    match ← rule_check regexec k v host s.1 s.2 with
    | none => ruleFold regexec host rules s
    | some buf =>
      let s := splitQuery (buf.getD s.1)
      if endsInBreak v then return ⟨s.1, s.2, rules.length⟩ else ruleFold regexec host rules s

/-- The rules that the loop of `apply_rules` leaves untried. -/
def untried (regexec : Regexec) (host : Option Bytes) : Chain Bytes → Rewrite → Res Nat
  | [], _ => .ok 0
  | (_, none) :: its, s => untried regexec host its s
  | (k, some v) :: its, s => do
    match ← applyRule regexec host k v s with
    | (true, s) => untried regexec host its s
    | (false, _) => return its.length

/-- The result is that of the fold, and the loop ends at the same rule. -/
def AppliesInOrder (regexec : Regexec) (host : Option Bytes) (rules : Dictionary Bytes) (url : Bytes)
    (folded : Res Folded) : Prop :=
  (apply_rules regexec rules host url).map (fun s => (s.url, s.query)) = folded.map (fun o => (o.url, o.query)) ∧
    untried regexec host rules.assocs (.start url) = folded.map Folded.left

/-- Once a rule that ends in `<break>` has been passed over, one that matches without it comes last. -/
def NoneAfter (regexec : Regexec) (host : Option Bytes) : Bool → List (Bytes × Bytes) → Bytes × Bytes → Prop
  | _, [], _ => True
  | passed, (k, v) :: rules, s =>
    match rule_check regexec k v host s.1 s.2 with
    | .error _ => True
    | .ok none => NoneAfter regexec host (passed || endsInBreak v) rules s
    | .ok (some buf) =>
      endsInBreak v = true ∨ if passed then rules = [] else NoneAfter regexec host false rules (splitQuery (buf.getD s.1))

section

variable {regexec : Regexec} {host : Option Bytes}

instance NoneAfter.decidable : (passed : Bool) → (rules : List (Bytes × Bytes)) → (s : Bytes × Bytes) →
    Decidable (NoneAfter regexec host passed rules s)
  | _, [], _ => .isTrue trivial
  | passed, (k, v) :: rules, s =>
    match h : rule_check regexec k v host s.1 s.2 with
    | .error _ => .isTrue (by simp only [NoneAfter, h])
    | .ok none =>
      have := NoneAfter.decidable (passed || endsInBreak v) rules s
      decidable_of_iff (NoneAfter regexec host (passed || endsInBreak v) rules s) (by simp only [NoneAfter, h])
    | .ok (some buf) =>
      have := NoneAfter.decidable false rules (splitQuery (buf.getD s.1))
      decidable_of_iff (endsInBreak v = true ∨
        if passed then rules = [] else NoneAfter regexec host false rules (splitQuery (buf.getD s.1)))
        (by simp only [NoneAfter, h])

theorem ruleFold_left {rules : List (Bytes × Bytes)} {s : Bytes × Bytes} {o : Folded}
    (h : ruleFold regexec host rules s = .ok o) (hne : rules ≠ []) : o.left < rules.length := by
  induction rules generalizing s with
  | nil => exact absurd rfl hne
  | cons r rules ih =>
    obtain ⟨k, v⟩ := r
    have hrest {s : Bytes × Bytes} (h : ruleFold regexec host rules s = .ok o) : o.left < (rules.length + 1) := by
      rcases eq_or_ne rules [] with rfl | hne
      · cases h
        exact Nat.zero_lt_one
      · exact Nat.lt_succ_of_lt (ih h hne)
    rw [ruleFold] at h
    obtain ⟨m, -, h⟩ := Res.bind_ok.1 h
    cases m with
    | none => exact hrest h
    | some buf =>
      simp only at h
      split at h
      · cases h
        exact Nat.lt_succ_self _
      · exact hrest h

/-- One rule: the loop takes the fold's step, and ends with a rule that matches if a `<break>` has been noted. -/
theorem applyRule_eq (hx : Ere.Posix regexec) (k v : Bytes) (s : Rewrite) :
    applyRule regexec host k v s = (rule_check regexec k v host s.url s.query).map fun
      | none => (true, { s with should_break := s.should_break || endsInBreak v })
      | some buf => (!(s.should_break || endsInBreak v),
          { s with should_break := s.should_break || endsInBreak v }.resplit k v buf) := by
  rw [applyRule, regex_match_found compiles_break, Res.ok_bind, found_break hx]
  cases hr : rule_check regexec k v host s.url s.query with
  | error e => simp [hr, Except.map, bind, Except.bind]
  | ok m => cases m <;> simp [hr, Except.map, pure, Except.pure]

/-- The loop is the fold exactly as long as no other rule's `<break>` ends it early. -/
theorem apply_rules_loop_iff (hx : Ere.Posix regexec) (rules : List (Bytes × Bytes)) (s : Rewrite) :
    ((apply_rules_loop regexec host (assocsOf rules) s).map (fun s => (s.url, s.query)) =
        (ruleFold regexec host rules (s.url, s.query)).map (fun o => (o.url, o.query)) ∧
      untried regexec host (assocsOf rules) s = (ruleFold regexec host rules (s.url, s.query)).map Folded.left) ↔
    NoneAfter regexec host s.should_break rules (s.url, s.query) := by
  induction rules generalizing s with
  | nil => exact iff_of_true ⟨rfl, rfl⟩ trivial
  | cons r rules ih =>
    obtain ⟨k, v⟩ := r
    have hcons : assocsOf ((k, v) :: rules) = (k, some v) :: assocsOf rules := rfl
    have hlen : (assocsOf rules).length = rules.length := List.length_map ..
    rw [hcons, apply_rules_loop, untried, ruleFold, NoneAfter, applyRule_eq hx]
    cases hr : rule_check regexec k v host s.url s.query with
    | error e => simp [Except.map, bind, Except.bind]
    | ok m =>
      cases m with
      | none => exact ih _
      | some buf =>
        simp only [Except.map, Res.ok_bind]
        by_cases hv : endsInBreak v = true
        · simp [hv, hlen, Rewrite.resplit, pure, Except.pure]
        · have hv : endsInBreak v = false := Bool.eq_false_iff.2 hv
          cases hb : s.should_break with
          | false =>
            simp only [hv, Bool.or_self, Bool.not_false, Bool.false_eq_true, if_false, false_or]
            exact ih ({ s with should_break := false }.resplit k v buf)
          | true =>
            -- the loop ends at this rule, the fold at a later one unless there is none
            simp only [hv, hlen, Rewrite.resplit, Bool.or_false, Bool.not_true, Bool.false_eq_true, if_false, if_true, false_or]
            constructor
            · rintro ⟨-, hleft⟩
              obtain ⟨o, ho, hol⟩ := Res.map_ok.1 hleft.symm
              by_contra hne
              exact absurd hol (ruleFold_left ho hne).ne
            · rintro rfl
              exact ⟨rfl, rfl⟩

/-- The rules of a port are folded in the order of the file, each `<break>` ending them at its own rule,
exactly as long as no rule with further ones after it matches without `<break>` behind one with `<break>`
that did not. -/
theorem apply_rules_fold_iff {cfg : Host} (hx : Ere.Posix cfg.regexec) {lines : List IniLine} {conf : Ports}
    (hl : load_config cfg lines = .ok conf) {key : Bytes} {p : PortEntry} (hp : conf.ports.dvalue key = some p)
    (host : Option Bytes) (url : Bytes) :
    AppliesInOrder cfg.regexec host p.rules url
        (ruleFold cfg.regexec host (declaredRules (ruleLines cfg.regexec key lines)) (splitQuery url)) ↔
      NoneAfter cfg.regexec host false (declaredRules (ruleLines cfg.regexec key lines)) (splitQuery url) := by
  have hrules := load_config_rules hl key
  rw [hp] at hrules
  unfold AppliesInOrder apply_rules
  rw [hrules.2]
  exact apply_rules_loop_iff hx _ (.start url)

end

/-- Three rules of which the first ends every rewriting. -/
def breakLines : List IniLine :=
  [(str "PORT:80", str "^/a$", str "/<1>b<break>"), (str "PORT:80", str "^/x(.*)$", str "/y<1>"),
    (str "PORT:80", str "^/y(.*)$", str "/z<1>")]

theorem apply_rules_fold_iff_matched : ∃ conf p, load_config sampleHost breakLines = .ok conf ∧
    conf.ports.dvalue (str "80") = some p ∧
    AppliesInOrder sampleHost.regexec none p.rules (str "/a?q")
      (ruleFold sampleHost.regexec none (declaredRules (ruleLines sampleHost.regexec (str "80") breakLines)) (splitQuery (str "/a?q"))) := by
  have hread : ((load_config sampleHost breakLines).toOption.any fun conf => (conf.ports.dvalue (str "80")).isSome) = true := by
    decide +kernel
  obtain ⟨conf, hl, hp⟩ := (Option.any_eq_true ..).1 hread
  obtain ⟨p, hp⟩ := Option.isSome_iff_exists.1 hp
  have hl := Res.toOption_eq.1 hl
  exact ⟨conf, p, hl, hp, (apply_rules_fold_iff Ere.regexec_posix hl hp none _).2 (by decide +kernel)⟩

/-- The first rule does not match, but the second is the last because of it. -/
theorem break_of_another_rule : ¬ ∀ (cfg : Host) (lines : List IniLine) (conf : Ports) (key : Bytes) (p : PortEntry),
    Ere.Posix cfg.regexec → load_config cfg lines = .ok conf → conf.ports.dvalue key = some p →
    ∀ (host : Option Bytes) (url : Bytes), AppliesInOrder cfg.regexec host p.rules url
      (ruleFold cfg.regexec host (declaredRules (ruleLines cfg.regexec key lines)) (splitQuery url)) := by
  intro hall
  have hrun : ((load_config sampleHost breakLines).toOption.any fun conf => (conf.ports.dvalue (str "80")).any fun p =>
      decide ((apply_rules sampleHost.regexec p.rules none (str "/x1")).toOption.map Rewrite.url = some (str "/y1"))) = true := by
    decide +kernel
  have hfold : (ruleFold sampleHost.regexec none (declaredRules (ruleLines sampleHost.regexec (str "80") breakLines))
      (splitQuery (str "/x1"))).toOption.map Folded.url = some (str "/z1") := by decide +kernel
  obtain ⟨conf, hl, hrun⟩ := (Option.any_eq_true ..).1 hrun
  obtain ⟨p, hp, hrun⟩ := (Option.any_eq_true ..).1 hrun
  obtain ⟨r, hr, hurl⟩ := Option.map_eq_some_iff.1 (of_decide_eq_true hrun)
  obtain ⟨o, ho, hz⟩ := Option.map_eq_some_iff.1 hfold
  obtain ⟨hsame, -⟩ := hall _ _ conf _ p Ere.regexec_posix (Res.toOption_eq.1 hl) hp none (str "/x1")
  rw [Res.toOption_eq.1 hr, Res.toOption_eq.1 ho] at hsame
  have heq : r.url = o.url := congrArg Prod.fst (Except.ok.inj hsame)
  rw [hurl, hz] at heq
  exact absurd heq (by decide)

end AntHttp
