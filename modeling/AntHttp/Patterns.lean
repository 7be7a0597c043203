import AntHttp.Lib.EreForm
import AntHttp.Documents
/-!
# Patterns made of what a client sends

The plugin's name and the extension of a file go into a pattern as they are.
`regex_match` uses the pattern even if it does not compile, which happens where
the text is no well formed expression, for a plugin's name once it is cut to
the size of the buffer.
-/

namespace AntHttp

open CString

theorem regex_match_error {regexec : Regexec} {expr search : Bytes} {e : Fault} :
    regex_match regexec expr search = .error e ↔ e = .regex ∧ ¬ Ere.WellFormed expr := by
  rw [← Ere.regcomp_isSome_iff]
  unfold regex_match
  cases Ere.regcomp expr <;> simp [eq_comm]

/-! ## The type of a file -/

section Mime

variable {regexec : Regexec} {ex : Bytes}

theorem find_avoids (h : Ere.WellFormed (mimePattern ex)) (its : Chain Bytes) :
    Res.Avoids .regex (mime_from_ext.find regexec ex its) := by
  induction its with
  | nil => exact .ok _ _
  | cons it its ih =>
    rw [mime_from_ext.find]
    apply (Res.Avoids.deref_of_ne (by decide)).bind
    intro value _
    have hm : Res.Avoids .regex (regex_match regexec (mimePattern ex) value) := ⟨fun he => (regex_match_error.1 he).2 h⟩
    apply hm.bind
    intro m _
    split
    · exact .ok _ _
    · exact ih

/-- A type is looked for as soon as the list of types has one. -/
theorem mime_from_ext_regex {mime_list : Dictionary Bytes} :
    mime_from_ext regexec mime_list ex = .error .regex ↔
      (∃ it ∈ mime_list.assocs.head?, it.2.isSome) ∧ ¬ Ere.WellFormed (mimePattern ex) := by
  unfold mime_from_ext
  by_cases hw : Ere.WellFormed (mimePattern ex)
  · exact iff_of_false (find_avoids hw _).ne fun h => h.2 hw
  · cases hl : mime_list.assocs with
    | nil => simp [mime_from_ext.find]
    | cons it its =>
      obtain ⟨type, value⟩ := it
      cases value with
      | none => simp [mime_from_ext.find, bind, Except.bind]
      | some value =>
        have he : regex_match regexec (mimePattern ex) value = .error .regex := regex_match_error.2 ⟨rfl, hw⟩
        simp [mime_from_ext.find, bind, Except.bind, he, hw]

/-- The pattern for the extension of a file is used. -/
def MimeFits (cnf : Config) (path : Bytes) : Prop :=
  (∃ it ∈ cnf.mimes.assocs.head?, it.2.isSome) → ∀ ex ∈ ext path, Ere.WellFormed (mimePattern ex)

theorem mime_regex {cnf : Config} {path : Bytes} : mime regexec cnf.mimes path = .error .regex ↔ ¬ MimeFits cnf path := by
  unfold mime MimeFits
  cases ext path with
  | none => simp
  | some ex =>
    rw [mime_from_ext_regex]
    simp only [Option.mem_def, Option.some.injEq, forall_eq', Classical.not_imp]

end Mime

/-! ## Resolving a request -/

/-- The pattern for the plugin's name is used where the port has a plugins setting. -/
def PluginFits (cnf : Config) (port : Option Bytes) (pname : Bytes) : Prop :=
  ∀ pcnf, cnf.port port = .ok (some pcnf) → pcnf.plugins.isSome → Ere.WellFormed (pluginPattern pname)

/-- A file of an unknown type goes to the plugin that the configuration names for its extension. -/
def FileFits (sys : Sys) (cnf : Config) (port : Option Bytes) (path : Bytes) : Prop :=
  MimeFits cnf path ∧ (mime sys.regexec cnf.mimes path = .ok OCTET_STREAM →
    ∀ h ∈ (ext path).bind cnf.handlers.dvalue, PluginFits cnf port h)

/-- The file whose type is looked for. -/
def located (sys : Sys) (cnf : Config) (root url : Bytes) (st : Stat) : Option Bytes :=
  let path := snprintf BUF_SIZE (root ++ [47] ++ url)
  if st.isDir then
    let index := path ++ str "/index.html"
    if BUF_SIZE ≤ index.length then none
    else if (sys.stat 1 index).isSome then some index
    else handlerIndex sys root url 2 cnf.handlers.assocs
  else some path

/-- The patterns that a request leads to are well formed. -/
def PatternsFit (sys : Sys) (cnf : Config) (rq : Request) : Prop :=
  ∀ url, rq.REQUEST_URI = some url → ∀ root, rq.SERVER_WWW_ROOT = some root →
    match sys.stat 0 (snprintf BUF_SIZE (root ++ [47] ++ url)) with
    | none => PluginFits cnf rq.SERVER_PORT (pluginTarget url).1
    | some st => ∀ path ∈ located sys cnf root url st, FileFits sys cnf rq.SERVER_PORT path

section Resolve

variable {sys : Sys} {cnf : Config} {rq : Request} {path : Bytes}

theorem pluginEnabled_regex {pcnf : PortConfig} {pname : Bytes} :
    pluginEnabled sys pcnf pname = .error .regex ↔ pcnf.plugins.isSome ∧ ¬ Ere.WellFormed (pluginPattern pname) := by
  unfold pluginEnabled
  cases pcnf.plugins with
  | none => simp
  | some plugins =>
    rw [Res.bind_error, regex_match_error]
    simp [pure, Except.pure]

theorem execute_plugin_regex {pname : Bytes} :
    execute_plugin sys cnf rq pname = .error .regex ↔ ¬ PluginFits cnf rq.SERVER_PORT pname := by
  unfold PluginFits
  push Not
  constructor
  · intro h
    unfold execute_plugin at h
    rcases Res.bind_error.1 h with h | ⟨o, ho, h⟩
    · exact absurd h (port_avoids (by decide) _).ne
    · rcases Res.bind_error.1 h with h | ⟨pcnf, hp, h⟩
      · cases (deref_error.1 h).2
      · rcases Res.bind_error.1 h with h | ⟨enabled, -, h⟩
        · rw [deref_ok] at hp
          exact ⟨pcnf, hp ▸ ho, pluginEnabled_regex.1 h⟩
        · -- nothing is matched after that
          exfalso
          split at h
          · simp only at h
            split at h
            · cases h
            · split at h <;> cases h
          · cases h
  · rintro ⟨pcnf, hp, hw⟩
    simp only [execute_plugin, bind, Except.bind, hp, deref_some, pluginEnabled_regex.2 hw]

theorem serveResource_regex {task : Task} :
    serveResource sys cnf rq task path = .error .regex ↔ ¬ FileFits sys cnf rq.SERVER_PORT path := by
  unfold serveResource FileFits
  rw [Res.bind_error, mime_regex]
  constructor
  · rintro (h | ⟨mime_type, hm, h⟩) ⟨hmime, hplugin⟩
    · exact h hmime
    · simp only at h
      split at h
      · rename_i ho
        subst ho
        split at h
        · rename_i g hg
          exact execute_plugin_regex.1 h (hplugin hm g hg)
        · cases h
      · cases h
  · intro h
    by_cases hmime : MimeFits cnf path
    · right
      have h : ¬ (mime sys.regexec cnf.mimes path = .ok OCTET_STREAM →
          ∀ g ∈ (ext path).bind cnf.handlers.dvalue, PluginFits cnf rq.SERVER_PORT g) := fun hp => h ⟨hmime, hp⟩
      push Not at h
      obtain ⟨hm, g, hg, hp⟩ := h
      refine ⟨_, hm, ?_⟩
      simp only [if_true]
      rw [Option.mem_def.1 hg]
      exact execute_plugin_regex.2 hp
    · exact .inl hmime

/-- A request is resolved without running a pattern that was not compiled exactly if the patterns it leads to are
well formed. -/
theorem resolve_request_regex_iff : resolve_request sys cnf rq ≠ .error .regex ↔ PatternsFit sys cnf rq := by
  unfold PatternsFit
  cases hu : rq.REQUEST_URI with
  | none =>
    refine iff_of_true (fun h => ?_) (fun _ h => by cases h)
    rw [resolve_request, hu] at h
    cases h
  | some url =>
    cases hr : (rq.set_state .RESOLVE_REQUEST).SERVER_WWW_ROOT with
    | none =>
      have hr' : rq.SERVER_WWW_ROOT = none := hr
      rw [hr']
      refine iff_of_true (fun h => ?_) (fun _ _ _ h => by cases h)
      simp only [resolve_request, bind, Except.bind, hu, deref_some, hr, deref_none] at h
      cases h
    | some root =>
      have hr' : rq.SERVER_WWW_ROOT = some root := hr
      -- wherever a file is found, what matters is the plugin of its suffix
      have hone {path : Bytes} {task : Task} : serveResource sys cnf (rq.set_state .RESOLVE_REQUEST) task path ≠ .error .regex ↔
          ∀ p ∈ some path, FileFits sys cnf rq.SERVER_PORT p := by
        rw [Ne, serveResource_regex, not_not]
        simp only [Option.mem_def, Option.some.injEq, forall_eq']
        exact Iff.rfl
      simp only [resolve_request, bind, Except.bind, hu, deref_some, hr, hr', Option.some.injEq, forall_eq']
      cases hs : sys.stat 0 (snprintf BUF_SIZE (root ++ [47] ++ url)) with
      | none =>
        simp only
        rw [Ne, execute_plugin_regex, not_not]
        exact Iff.rfl
      | some st =>
        simp only [located]
        by_cases hd : st.isDir
        · rw [if_pos hd, if_pos hd]
          by_cases hlen : BUF_SIZE ≤ (snprintf BUF_SIZE (root ++ [47] ++ url) ++ str "/index.html").length
          · rw [if_pos hlen, if_pos hlen]
            exact iff_of_true (fun h => by cases h) (fun _ hp => by cases hp)
          · rw [if_neg hlen, if_neg hlen]
            by_cases hi : (sys.stat 1 (snprintf BUF_SIZE (root ++ [47] ++ url) ++ str "/index.html")).isSome
            · rw [if_pos hi, if_pos hi]
              exact hone
            · rw [if_neg hi, if_neg hi]
              cases handlerIndex sys root url 2 cnf.handlers.assocs with
              | none => exact iff_of_true (fun h => by cases h) (fun _ hp => by cases hp)
              | some path => exact hone
        · rw [if_neg hd, if_neg hd]
          exact hone

end Resolve

/-- `GET /(`: the plugin's name is a parenthesis. -/
theorem parenthesis_not_compiled : ¬ ∀ (sys : Sys) (cnf : Config) (rq : Request),
    resolve_request sys cnf rq ≠ .error .regex := by
  intro h
  have hrun : (resolve_request (sampleSys []) (sampleConfig (some (str "fcgi")) []) (sampleUri (str "/("))).fault = some .regex := by
    decide +kernel
  exact h _ _ _ (Res.fault_eq.1 hrun)

end AntHttp
