import AntHttp.Lib.EreWords
import AntHttp.Resolve
import AntHttp.Sample
/-!
# The plugins a port enables

The plugins setting of a port lists names, and `execute_plugin` searches it
for the name of the plugin with a regular expression. A name of word
characters is found where the setting has it as a whole word, so also as a
part of a listed name that has a dash or a dot; any other name is a pattern of
its own.
-/

namespace AntHttp

open CString

/-- The names of the plugins setting. -/
def listed (plugins : Option Bytes) : List Bytes := plugins.elim [] fun s => (split 44 s).map (trim · 32)

def Listed (plugins : Option Bytes) (pname : Bytes) : Prop := ∃ name ∈ listed plugins, strcaseeq name pname = true

instance (plugins : Option Bytes) (pname : Bytes) : Decidable (Listed plugins pname) :=
  inferInstanceAs (Decidable (∃ name ∈ listed plugins, strcaseeq name pname = true))

/-- A word that fits into the pattern. -/
structure PlainName (pname : Bytes) : Prop where
  ne_nil : pname ≠ []
  word : ∀ c ∈ pname, Ere.isWord c = true
  fits : pname.length ≤ 251

/-- The setting has the name as a word or, if it is none, what the name stands for as a pattern. -/
def NameFound (regexec : Regexec) (plugins pname : Bytes) : Prop :=
  (PlainName pname → Ere.WholeWord plugins pname) ∧
    (¬ PlainName pname → ∃ regex, Ere.regcomp (pluginPattern pname) = some regex ∧ Ere.FoundBy regexec regex plugins)

theorem PlainName.pattern {pname : Bytes} (h : PlainName pname) : pluginPattern pname = str "\\b" ++ pname ++ str "\\b" := by
  refine List.take_of_length_le ?_
  have hb : (str "\\b").length = 2 := rfl
  have hfits := h.fits
  simp only [List.length_append, hb]
  omega

/-- The name is found by the pattern that is made of it. -/
theorem nameFound_iff {regexec : Regexec} {plugins pname : Bytes} :
    NameFound regexec plugins pname ↔
      ∃ regex, Ere.regcomp (pluginPattern pname) = some regex ∧ Ere.FoundBy regexec regex plugins := by
  by_cases hp : PlainName pname
  · have hcomp := Ere.regcomp_word hp.word
    rw [← hp.pattern] at hcomp
    have hword := (Ere.foundBy_regular regexec (Ere.regular_word pname) plugins).trans
      (Ere.found_word_iff hp.ne_nil hp.word)
    rw [hcomp]
    constructor
    · intro h
      exact ⟨_, rfl, hword.2 (h.1 hp)⟩
    · rintro ⟨regex, hr, h⟩
      cases hr
      exact ⟨fun _ => hword.1 h, fun hn => absurd hp hn⟩
  · exact ⟨fun h => h.2 hp, fun h => ⟨fun h' => absurd h' hp, fun _ => h⟩⟩

section

variable {sys : Sys} {cnf : Config} {rq : Request} {pcnf : PortConfig} {pname : Bytes}

theorem pluginEnabled_iff (hx : Ere.Posix sys.regexec) :
    pluginEnabled sys pcnf pname = .ok true ↔ ∃ plugins, pcnf.plugins = some plugins ∧ NameFound sys.regexec plugins pname := by
  unfold pluginEnabled
  cases pcnf.plugins with
  | none => simp
  | some plugins =>
    simp only [Option.some.injEq, exists_eq_left', nameFound_iff, regex_match]
    cases Ere.regcomp (pluginPattern pname) with
    | none => simp [bind, Except.bind]
    | some regex =>
      simp only [Option.some.injEq, exists_eq_left', ← hx.foundBy_iff]
      change Except.ok (sys.regexec regex plugins).isSome = Except.ok true ↔ _
      rw [Except.ok.injEq]

/-- An enabled plugin is loaded, whatever comes of it. -/
theorem execute_plugin_enabled (hp : cnf.port rq.SERVER_PORT = .ok (some pcnf)) (he : pluginEnabled sys pcnf pname = .ok true) :
    ∃ t rq', execute_plugin sys cnf rq pname = .ok (t, rq') ∧ rq'.loads = rq.loads ++ [pname] := by
  simp only [execute_plugin, bind, Except.bind, hp, deref_some, he, if_true]
  cases sys.antd_plugin_load pname with
  | none => exact ⟨_, _, rfl, rfl⟩
  | some ctx =>
    simp only
    split
    · exact ⟨_, _, rfl, rfl⟩
    · exact ⟨_, _, rfl, rfl⟩

/-- A plugin is loaded only if the port's setting lists its name. -/
def LoadsListed (sys : Sys) (cnf : Config) (rq : Request) (pcnf : PortConfig) (pname : Bytes) : Prop :=
  ∀ t rq', execute_plugin sys cnf rq pname = .ok (t, rq') → rq'.loads = rq.loads ++ [pname] → Listed pcnf.plugins pname

/-- The name that is searched for is loaded exactly where it is found. -/
theorem loadsListed_iff (hx : Ere.Posix sys.regexec) (hp : cnf.port rq.SERVER_PORT = .ok (some pcnf)) :
    LoadsListed sys cnf rq pcnf pname ↔
      pcnf.plugins = none ∨ Listed pcnf.plugins pname ∨
        ∃ plugins, pcnf.plugins = some plugins ∧ ¬ NameFound sys.regexec plugins pname := by
  constructor
  · intro h
    cases hs : pcnf.plugins with
    | none => exact .inl rfl
    | some plugins =>
      by_cases hf : NameFound sys.regexec plugins pname
      · obtain ⟨t, rq', hok, hl⟩ := execute_plugin_enabled hp ((pluginEnabled_iff hx).2 ⟨plugins, hs, hf⟩)
        exact .inr (.inl (hs ▸ h t rq' hok hl))
      · exact .inr (.inr ⟨plugins, rfl, hf⟩)
  · intro h t rq' hok hl
    obtain ⟨pcnf', hp', hload⟩ := execute_plugin_loads hok
    obtain rfl : pcnf = pcnf' := by simpa using hp.symm.trans hp'
    rcases hload with ⟨he, -⟩ | ⟨-, hsame⟩
    · obtain ⟨plugins, hs, hf⟩ := (pluginEnabled_iff hx).1 he
      rcases h with hn | hlisted | ⟨plugins', hs', hf'⟩
      · cases hs.symm.trans hn
      · exact hlisted
      · cases hs.symm.trans hs'
        exact absurd hf hf'
    · rw [hsame] at hl
      simp at hl

end

/-! ## On one port -/

theorem samplePort_port (plugins : Option Bytes) (s : Bytes) :
    (sampleConfig plugins []).port (sampleConn plugins [] s).rq.SERVER_PORT = .ok (some (samplePort plugins [])) := by
  have hs : str "80" = decimal 80 := by decide
  change Except.ok ((sampleConfig plugins []).ports.dvalue (decimal 80)) = _
  simp [sampleConfig, dictOf, hs]

/-- A listed name is loaded in another letter case too. -/
theorem loadsListed_iff_fcgi : LoadsListed (sampleSys []) (sampleConfig (some (str "my-plugin, FCGI")) [])
    (sampleConn (some (str "my-plugin, FCGI")) [] []).rq (samplePort (some (str "my-plugin, FCGI")) []) (str "fcgi") :=
  (loadsListed_iff Ere.regexec_posix (samplePort_port ..)).2 (.inr (.inl (by decide)))

/-- A part of a listed name is enough. -/
theorem part_of_name_loaded : ¬ ∀ (sys : Sys) (cnf : Config) (rq : Request) (pcnf : PortConfig) (pname : Bytes),
    Ere.Posix sys.regexec → cnf.port rq.SERVER_PORT = .ok (some pcnf) → LoadsListed sys cnf rq pcnf pname := by
  intro h
  have hp := samplePort_port (some (str "my-plugin")) []
  have he : pluginEnabled (sampleSys []) (samplePort (some (str "my-plugin")) []) (str "plugin") = .ok true := by
    decide +kernel
  obtain ⟨t, rq', hok, hl⟩ := execute_plugin_enabled hp he
  have hlisted := h _ _ _ _ _ Ere.regexec_posix hp t rq' hok hl
  revert hlisted
  decide

end AntHttp
