import AntHttp.Headers
import AntHttp.Ini
import AntHttp.MimeTypes
import AntHttp.Ports
/-!
# The configuration (`config.c`)

The text of the configuration is read value by value. A value is the last of
its name: one that goes on in another line is replaced by that line, it is not
joined to it. The plugins' settings then say which extensions they handle.
-/

namespace AntHttp

open CString

/-! ## Reading the settings -/

/-- What the section `SERVER` sets. -/
structure ServerSettings where
  plugins_dir : Bytes
  plugins_ext : Bytes
  tmpdir : Bytes
  stat_fifo_path : Bytes
  max_upload_size : Int
  maxcon : Int
  backlog : Int
  n_workers : Int
  debug_enable : Int
  scheduler_timeout : Int
  gzip_enable : Int
  gzip_types : Option (List (Option Bytes))
  sslcert : Bytes
  sslkey : Bytes
  ssl_cipher : Option Bytes
  deriving DecidableEq

/-- `config_t`; `db_path` and `connection` are what they are at first. -/
structure Settings extends ServerSettings where
  mimes : Dictionary Bytes
  ports : Ports
  plugins : Dictionary (Dictionary Bytes)
  handlers : Dictionary Bytes

/-- The tokens that are left of a list when they are trimmed. -/
def tokens (value : Bytes) : List Bytes := ((split 44 value).map (trim · 32)).filter (· ≠ [])

/-- What `list_put_special` keeps as an `int` or a `double`, and not as a text. -/
def isNumber (regexec : Regexec) (token : Bytes) : Bool :=
  (found regexec (str "^[-+]?[0-9]+$") token).isSome || (found regexec (str "^[+-]?[0-9]*\\.[0-9]+$") token).isSome

/-- `split` of `lib/list.c`, with a comma; an item that is a number has no text. -/
def list_split (regexec : Regexec) (value : Bytes) : Option (List (Option Bytes)) :=
  if tokens value = [] then none else some ((tokens value).map fun token => if isNumber regexec token then none else some token)

namespace ServerSettings

/-- The names of the section `SERVER`, and what a value of each changes. -/
def rows (host : Host) : List (Bytes × (Bytes → ServerSettings → ServerSettings)) :=
  [(str "plugins", fun value cnf => { cnf with plugins_dir := (host.realpath value).getD cnf.plugins_dir }),
   (str "plugins_ext", fun value cnf => { cnf with plugins_ext := value }),
   (str "tmpdir", fun value cnf => { cnf with tmpdir := (host.realpath value).getD cnf.tmpdir }),
   (str "statistic_fifo", fun value cnf => { cnf with stat_fifo_path := value }),
   (str "max_upload_size", fun value cnf => { cnf with max_upload_size := atoi value }),
   (str "maxcon", fun value cnf => { cnf with maxcon := atoi value }),
   (str "backlog", fun value cnf => { cnf with backlog := atoi value }),
   (str "workers", fun value cnf => { cnf with n_workers := atoi value }),
   (str "debug_enable", fun value cnf => { cnf with debug_enable := atoi value }),
   (str "scheduler_timeout", fun value cnf => { cnf with scheduler_timeout := atoi value }),
   (str "gzip_enable", fun value cnf => { cnf with gzip_enable := atoi value }),
   (str "gzip_types", fun value cnf => { cnf with gzip_types := list_split host.regexec value }),
   (str "ssl.cert", fun value cnf => { cnf with sslcert := value }),
   (str "ssl.key", fun value cnf => { cnf with sslkey := value }),
   (str "ssl.cipher", fun value cnf => { cnf with ssl_cipher := some value })]

/-- The first row with the name. -/
def set (host : Host) (cnf : ServerSettings) (name value : Bytes) : Option ServerSettings :=
  ((rows host).find? (·.1 = name)).map fun row => row.2 value cnf

end ServerSettings

namespace Settings

def PLUGIN_PATTERN : Bytes := str "PLUGIN:\\s*(.*)"

/-- Whether the section and the name are known; a section that names a port is read as one. -/
def config_handler (host : Host) (cnf : Settings) (section_ name value : Bytes) : Res (Settings × Bool) := do
  match if section_ = str "SERVER" then cnf.toServerSettings.set host name value else none with
  | some s => return ({ cnf with toServerSettings := s }, true)
  | none =>
    if section_ = str "MIMES" then return ({ cnf with mimes := cnf.mimes.dput name (some value) }, true)
    else
      match ← regex_match host.regexec PORT_PATTERN section_ with
      | some _ =>
        let ports ← AntHttp.config_handler host cnf.ports section_ name value
        return ({ cnf with ports }, true)
      | none =>
        match ← regex_match host.regexec PLUGIN_PATTERN section_ with
        | some matches_ =>
          let buf := groupText section_ (matches_ 1)
          let p := (cnf.plugins.dvalue buf).getD .dict
          return ({ cnf with plugins := cnf.plugins.dput buf (some (p.dput name (some value))) }, true)
        | none => return (cnf, false)

/-- The handler of `ini_parse`. -/
def iniHandler (host : Host) : IniHandler (Res Settings) := fun cnf section_ name value =>
  match cnf.bind fun cnf => config_handler host cnf section_ name value with
  | .ok (cnf, known) => (.ok cnf, known)
  | .error e => (.error e, true)

/-- `_mimes` -/
def _mimes : List (Bytes × Bytes) :=
  [(str "image/bmp", str "bmp"),
   (str "image/jpeg", str "jpg,jpeg"),
   (str "text/css", str "css"),
   (str "text/markdown", str "md"),
   (str "text/csv", str "csv"),
   (str "application/pdf", str "pdf"),
   (str "image/gif", str "gif"),
   (str "text/html", str "html"),
   (str "application/json", str "json"),
   (str "application/javascript", str "js"),
   (str "image/png", str "png"),
   (str "text/plain", str "txt"),
   (str "application/xhtml+xml", str "xhtml"),
   (str "application/xml", str "xml"),
   (str "image/svg+xml", str "svg")]

def defaults : Settings where
  plugins_dir := str "plugins/"
  plugins_ext := str ".so"
  tmpdir := str "/tmp/"
  stat_fifo_path := []
  max_upload_size := 10000000
  maxcon := 100
  backlog := 1000
  n_workers := 4
  debug_enable := 0
  scheduler_timeout := 30
  gzip_enable := 0
  gzip_types := none
  sslcert := str "cert.pem"
  sslkey := str "key.pem"
  ssl_cipher := none
  mimes := putAll .dict _mimes
  ports := ⟨.dict, 0⟩
  plugins := .dict
  handlers := .dict

/-- A setting of a plugin that lists extensions. -/
def isFileType (key : Bytes) : Bool := strneq key (str "file_type") 9

/-- The extensions that the settings of a plugin list, in their order, each with the plugin. -/
def listings (plugins : Dictionary (Dictionary Bytes)) : List (Bytes × Bytes) :=
  plugins.assocs.flatMap fun it => (it.2.elim [] Dictionary.assocs).flatMap fun it2 =>
    if isFileType it2.1 then (it2.2.elim [] tokens).map (·, it.1) else []

/-- The `autoload` setting of a plugin is on. -/
def isOn (value : Bytes) : Bool := strneq value (str "1") 1 || strneq value (str "true") 3

/-- The settings, and the plugins that are loaded at once. -/
def init_plugins (cnf : Settings) : Settings × List Bytes :=
  ({ cnf with handlers := putAll cnf.handlers (listings cnf.plugins) },
    (cnf.plugins.assocs.filter fun it => (it.2.bind (·.dvalue (str "autoload"))).any isOn).map Prod.fst)

/-- The text is missing if the file cannot be opened. -/
def load_config (host : Host) (file : Option Bytes) : Res (Settings × List Bytes) := do
  let cnf ← (ini_parse (iniHandler host) (.ok defaults) file).1
  return init_plugins cnf

end Settings

/-! ## What a text of settings means -/

/-- The names and values of a section. -/
def inSection (section_ : Bytes) (es : List IniLine) : List (Bytes × Bytes) :=
  es.filterMap fun e => if e.1 = section_ then some e.2 else none

/-- The values that have a real path. -/
def realPaths (host : Host) (es : List (Bytes × Bytes)) : List (Bytes × Bytes) :=
  es.filterMap fun e => (host.realpath e.2).map (e.1, ·)

/-- Each setting is the last value of its name, or the default. -/
def ServerSettings.meant (host : Host) (es : List (Bytes × Bytes)) : ServerSettings where
  plugins_dir := (lastValue (realPaths host es) (str "plugins")).getD (str "plugins/")
  plugins_ext := (lastValue es (str "plugins_ext")).getD (str ".so")
  tmpdir := (lastValue (realPaths host es) (str "tmpdir")).getD (str "/tmp/")
  stat_fifo_path := (lastValue es (str "statistic_fifo")).getD []
  max_upload_size := (lastValue es (str "max_upload_size")).elim 10000000 atoi
  maxcon := (lastValue es (str "maxcon")).elim 100 atoi
  backlog := (lastValue es (str "backlog")).elim 1000 atoi
  n_workers := (lastValue es (str "workers")).elim 4 atoi
  debug_enable := (lastValue es (str "debug_enable")).elim 0 atoi
  scheduler_timeout := (lastValue es (str "scheduler_timeout")).elim 30 atoi
  gzip_enable := (lastValue es (str "gzip_enable")).elim 0 atoi
  gzip_types := (lastValue es (str "gzip_types")).bind (list_split host.regexec)
  sslcert := (lastValue es (str "ssl.cert")).getD (str "cert.pem")
  sslkey := (lastValue es (str "ssl.key")).getD (str "key.pem")
  ssl_cipher := lastValue es (str "ssl.cipher")

/-- One more value of the section. -/
theorem ServerSettings.meant_concat (host : Host) (es : List (Bytes × Bytes)) (e : Bytes × Bytes) :
    meant host (es ++ [e]) = ((meant host es).set host e.1 e.2).getD (meant host es) := by
  obtain ⟨name, value⟩ := e
  have hreal (k : Bytes) : lastValue (realPaths host (es ++ [(name, value)])) k =
      if name = k then (host.realpath value).or (lastValue (realPaths host es) k)
      else lastValue (realPaths host es) k := by
    rw [realPaths, List.filterMap_append]
    cases hr : host.realpath value with
    | none => simp [realPaths, hr]
    | some path => simpa [realPaths, hr] using lastValue_concat (realPaths host es) (name, path) k
  have hlast (k : Bytes) : lastValue (es ++ [(name, value)]) k = if name = k then some value else lastValue es k :=
    lastValue_concat es (name, value) k
  rw [ServerSettings.set]
  cases hf : (rows host).find? (·.1 = name) with
  | none =>
    have hne := List.find?_eq_none.1 hf
    simp only [rows, List.forall_mem_cons, decide_eq_true_eq] at hne
    simp [meant, hreal, hlast, Ne.symm, hne]
  | some row =>
    have hname := List.find?_some hf
    have hmem := List.mem_of_find?_eq_some hf
    simp only [decide_eq_true_eq] at hname
    simp only [rows, List.mem_cons, List.not_mem_nil, or_false] at hmem
    rcases hmem with
      rfl | rfl | rfl | rfl | rfl | rfl | rfl | rfl | rfl | rfl | rfl | rfl | rfl | rfl | rfl <;>
      subst hname <;> simp +decide [meant, hreal, hlast]

/-! ## The sections -/

namespace Settings

/-- The plugin of a section, unless the section names a port. -/
def pluginOf (host : Host) (section_ : Bytes) : Option Bytes :=
  if (found host.regexec PORT_PATTERN section_).isSome then none
  else (found host.regexec PLUGIN_PATTERN section_).map fun matches_ => groupText section_ (matches_ 1)

/-- The names and values of a plugin's sections. -/
def ofPlugin (host : Host) (p : Bytes) (es : List IniLine) : List (Bytes × Bytes) :=
  es.filterMap fun e => if pluginOf host e.1 = some p then some e.2 else none

/-- What is captured is anything after white space. -/
def captured : Ere :=
  .cat (.star (Ere.spaceSet false)) (.cat (.group 1 (.cat (.star (.set ⟨true, [(0, 0)]⟩)) .eps)) .eps)

theorem compiles_plugin : Ere.regcomp PLUGIN_PATTERN = some (Ere.lits (str "PLUGIN:") captured) := by decide +kernel

theorem tolower_colon {c : UInt8} (h : tolower c = 58) : c = 58 := by grind [tolower, isupper]

/-- A pattern that begins with text with a colon is only found in text with a colon. -/
theorem colon_mem {regexec : Regexec} (hx : Ere.Posix regexec) {expr w s : Bytes} {r : Ere}
    (hc : Ere.regcomp expr = some (Ere.lits w r)) (hr : r.regular = true) (hw : 58 ∈ w) (h : (found regexec expr s).isSome) : 58 ∈ s := by
  rw [found, hc, Option.bind_some, hx.found_iff ((Ere.regular_lits w r).trans hr)] at h
  obtain ⟨i, j, d, hi, hm⟩ := h
  obtain ⟨m, hpre, heq, -⟩ := Ere.matches_lits.1 hm
  have hlower : m.map tolower = w.map tolower := of_decide_eq_true heq
  have hcolon : (58 : UInt8) ∈ m.map tolower := hlower ▸ List.mem_map.2 ⟨58, hw, rfl⟩
  obtain ⟨c, hc, hl⟩ := List.mem_map.1 hcolon
  exact List.mem_of_mem_drop (hpre.subset (tolower_colon hl ▸ hc))

section

variable {host : Host} {s : Bytes}

theorem port_none (hx : Ere.Posix host.regexec) (hs : 58 ∉ s) : found host.regexec PORT_PATTERN s = none := by
  by_contra h
  exact hs (colon_mem hx compiles_port rfl (by decide) (Option.isSome_iff_ne_none.2 h))

theorem plugin_none (hx : Ere.Posix host.regexec) (hs : 58 ∉ s) : found host.regexec PLUGIN_PATTERN s = none := by
  by_contra h
  exact hs (colon_mem hx compiles_plugin rfl (by decide) (Option.isSome_iff_ne_none.2 h))

theorem pluginOf_none (hx : Ere.Posix host.regexec) (hs : 58 ∉ s) : pluginOf host s = none := by
  rw [pluginOf, plugin_none hx hs, Option.map_none, ite_self]

theorem regex_match_port (host : Host) (s : Bytes) :
    regex_match host.regexec PORT_PATTERN s = .ok (found host.regexec PORT_PATTERN s) :=
  regex_match_found (by rw [compiles_port]; rfl)

theorem regex_match_plugin (host : Host) (s : Bytes) :
    regex_match host.regexec PLUGIN_PATTERN s = .ok (found host.regexec PLUGIN_PATTERN s) :=
  regex_match_found (by rw [compiles_plugin]; rfl)

/-- A section that names no port leaves the ports. -/
theorem ports_kept (hp : found host.regexec PORT_PATTERN s = none) (conf : Ports) (name value : Bytes) :
    AntHttp.config_handler host conf s name value = .ok conf := by
  rw [AntHttp.config_handler, regex_match_port, hp]
  rfl

/-! ### A section of a plugin -/

/-- A word with a colon at its end, in text with one colon, ends there. -/
theorem ends_at_colon {u a b : Bytes} {r : Ere} {i j : Nat} {c d : Ere.Caps} (ha : 58 ∉ a) (hb : 58 ∉ b)
    (hi : i ≤ (a ++ 58 :: b).length) (hm : Ere.Matches (a ++ 58 :: b) (Ere.lits (u ++ [58]) r) i c j d) :
    strcaseeq (a.drop i) u = true ∧ i + u.length = a.length ∧
      Ere.Matches (a ++ 58 :: b) r (a.length + 1) c j d := by
  obtain ⟨m, ⟨rest, hrest⟩, heq, hr⟩ := Ere.matches_lits.1 hm
  have hlower : m.map tolower = u.map tolower ++ [58] := by
    have := of_decide_eq_true heq
    rwa [List.map_append] at this
  obtain ⟨m₁, m₂, rfl, hu, hlast⟩ := List.map_eq_append_iff.1 hlower
  obtain ⟨x, rfl, hx⟩ := List.map_eq_singleton_iff.1 hlast
  obtain rfl := tolower_colon hx
  have hsplit : a ++ 58 :: b = ((a ++ 58 :: b).take i ++ m₁) ++ 58 :: rest := by
    conv_lhs => rw [← List.take_append_drop i (a ++ 58 :: b), ← hrest]
    simp
  obtain ⟨htake, -, -⟩ := (List.append_cons_inj_of_notMem ha hb).1 hsplit
  have hlen : i + u.length = a.length := by
    have hm : m₁.length = u.length := by rw [← List.length_map (f := tolower), hu, List.length_map]
    rw [htake, List.length_append, List.length_take_of_le hi, hm]
  have hdrop : a.drop i = m₁ := by
    rw [htake, List.drop_append_of_le_length (by rw [List.length_take_of_le hi])]
    simp
  refine ⟨by rw [hdrop]; exact decide_eq_true hu, hlen, ?_⟩
  rw [List.length_append, List.length_singleton, ← Nat.add_assoc, hlen] at hr
  exact hr

theorem port_not_plugin (hx : Ere.Posix host.regexec) {p : Bytes} (hp : 58 ∉ p) :
    found host.regexec PORT_PATTERN (str "PLUGIN" ++ 58 :: p) = none := by
  by_contra h
  have hsome := Option.isSome_iff_ne_none.2 h
  rw [found, compiles_port, Option.bind_some, hx.found_iff rfl] at hsome
  obtain ⟨i, j, d, hi, hm⟩ := hsome
  obtain ⟨heq, hlen, -⟩ := ends_at_colon (u := str "PORT") (by decide) hp hi hm
  obtain rfl : i = 2 := by
    have h₁ : (str "PORT").length = 4 := rfl
    have h₂ : (str "PLUGIN").length = 6 := rfl
    omega
  exact absurd heq (by decide)

/-- A name of a plugin that can be written behind `PLUGIN:` as it is. -/
structure PluginName (p : Bytes) : Prop where
  colon : 58 ∉ p
  nul : 0 ∉ p
  space : ∀ c ∈ p.head?, isspace c = false

theorem any_char {c : UInt8} (h : c ≠ 0) : (⟨true, [(0, 0)]⟩ : Ere.CharSet).mem c = true := by
  grind [Ere.CharSet.mem, Ere.CharSet.has, tolower, toupper, isupper, islower]

/-- The whole text of a plugin's section matches. -/
theorem matches_plugin {p : Bytes} (h0 : 0 ∉ p) :
    ∃ d, Ere.Matches (str "PLUGIN" ++ 58 :: p) (Ere.lits (str "PLUGIN:") captured) 0 Ere.Caps.none
      (7 + p.length) d := by
  have hdrop : (str "PLUGIN" ++ 58 :: p).drop 7 = p := rfl
  have hany : ∀ c ∈ p, (⟨true, [(0, 0)]⟩ : Ere.CharSet).mem c = true :=
    fun c hc => any_char fun he => h0 (he ▸ hc)
  have hstar : Ere.Matches (str "PLUGIN" ++ 58 :: p) (.star (.set ⟨true, [(0, 0)]⟩)) 7 Ere.Caps.none
      (7 + p.length) Ere.Caps.none :=
    Ere.matches_star_set.2 ⟨p, hdrop ▸ List.prefix_rfl, hany, rfl, rfl⟩
  have hp := Ere.matches_cat.2 ⟨_, _, hstar, Ere.matches_eps.2 ⟨rfl, rfl⟩⟩
  have hspaces : Ere.Matches (str "PLUGIN" ++ 58 :: p) (.star (Ere.spaceSet false)) 7 Ere.Caps.none 7 Ere.Caps.none :=
    Ere.matches_star_set.2 ⟨[], List.nil_prefix, by simp, rfl, rfl⟩
  have hgroup := Ere.matches_cat.2
    ⟨_, _, (Ere.matches_group (n := 1)).2 ⟨_, hp, rfl⟩, Ere.matches_eps.2 ⟨rfl, rfl⟩⟩
  have hbody := Ere.matches_cat.2 ⟨_, _, hspaces, hgroup⟩
  exact ⟨_, Ere.matches_lits.2 ⟨str "PLUGIN:", ⟨p, rfl⟩, decide_eq_true rfl, hbody⟩⟩

/-- What is captured from where the white space ends, and where no white space is, from there on. -/
theorem captured_from {s : Bytes} {i j : Nat} {c d : Ere.Caps} (hs : ∀ c ∈ (s.drop i).head?, isspace c = false)
    (h : Ere.Matches s captured i c j d) : d 1 = some (i, j) := by
  obtain ⟨j₁, d₁, hs₁, hr⟩ := Ere.matches_cat.1 h
  obtain ⟨w, hw, hblank, rfl, rfl⟩ := Ere.matches_star_set.1 hs₁
  obtain ⟨j₂, d₂, hg, hend⟩ := Ere.matches_cat.1 hr
  obtain ⟨rfl, rfl⟩ := Ere.matches_eps.1 hend
  obtain ⟨d₃, -, rfl⟩ := Ere.matches_group.1 hg
  have hnil : w = [] := by
    cases w with
    | nil => rfl
    | cons c w =>
      obtain ⟨v, hv⟩ := hw
      have hhead : (s.drop i).head? = some c := congrArg List.head? hv.symm
      have := hblank c List.mem_cons_self
      rw [Mime.spaceSet_mem, hs c hhead] at this
      cases this
  subst hnil
  exact Function.update_self ..

theorem pluginOf_name (hx : Ere.Posix host.regexec) {p : Bytes} (h : PluginName p) :
    pluginOf host (str "PLUGIN" ++ 58 :: p) = some p := by
  obtain ⟨hcolon, h0, hspace⟩ := h
  have hdrop : (str "PLUGIN" ++ 58 :: p).drop 7 = p := rfl
  have hsize : (str "PLUGIN" ++ 58 :: p).length = 7 + p.length := by
    rw [List.length_append, List.length_cons, show (str "PLUGIN").length = 6 from rfl]
    omega
  rw [pluginOf, port_not_plugin hx hcolon, Option.isSome_none, if_neg Bool.false_ne_true, found, compiles_plugin,
    Option.bind_some]
  obtain ⟨e, he⟩ := matches_plugin h0
  cases hm : host.regexec _ (str "PLUGIN" ++ 58 :: p) with
  | none => exact absurd he (hx.complete _ _ rfl hm _ _ _ (Nat.zero_le _))
  | some m =>
    obtain ⟨i, j, d, hi, hmatch, rfl, hlong⟩ := hx.sound _ _ _ rfl hm
    obtain ⟨-, hzero, hr⟩ := ends_at_colon (u := str "PLUGIN") (r := captured) (by decide) hcolon hi hmatch
    obtain rfl : i = 0 := by omega
    have hj := (hlong 0 _ _ (Nat.zero_le _) he).2 rfl
    have hgroup : d 1 = some (7, j) := captured_from (s := str "PLUGIN" ++ 58 :: p) hspace hr
    rw [Option.map_some, Function.update_of_ne Nat.one_ne_zero, hgroup, groupText, hdrop]
    exact congrArg some (List.take_of_length_le (by omega))

/-! ## What the reader holds -/

end

/-- The settings after some values. -/
structure Holds (host : Host) (es : List IniLine) (cnf : Settings) : Prop where
  server : cnf.toServerSettings = .meant host (inSection (str "SERVER") es)
  mimes : cnf.mimes = putAll .dict (_mimes ++ inSection (str "MIMES") es)
  ports : AntHttp.load_config host es = .ok cnf.ports
  keyed : cnf.plugins.Keyed
  plugin : ∀ p, cnf.plugins.dvalue p =
    if ofPlugin host p es = [] then none else some (putAll .dict (ofPlugin host p es))
  handlers : cnf.handlers = .dict

theorem Holds.defaults (host : Host) : Holds host [] defaults where
  server := rfl
  mimes := rfl
  ports := rfl
  keyed := Dictionary.keyed_dict_n _
  plugin _ := Dictionary.dvalue_dict_n ..
  handlers := rfl

theorem putAll_append (d : Dictionary Bytes) (es es' : List (Bytes × Bytes)) :
    putAll d (es ++ es') = putAll (putAll d es) es' := by
  rw [putAll, List.foldl_append]
  rfl

section

variable {host : Host} {es : List IniLine} {cnf : Settings}

theorem load_concat (conf : Ports) (h : AntHttp.load_config host es = .ok conf) (e : IniLine) :
    AntHttp.load_config host (es ++ [e]) = AntHttp.config_handler host conf e.1 e.2.1 e.2.2 := by
  rw [AntHttp.load_config, List.foldlM_append, ← AntHttp.load_config, h, Res.ok_bind, List.foldlM_cons]
  exact bind_pure (AntHttp.config_handler host conf e.1 e.2.1 e.2.2)

theorem inSection_same (es : List IniLine) {section_ : Bytes} {e : IniLine} (h : e.1 ≠ section_) :
    inSection section_ (es ++ [e]) = inSection section_ es := by
  simp [inSection, h]

theorem inSection_concat (section_ : Bytes) (es : List IniLine) (e : Bytes × Bytes) :
    inSection section_ (es ++ [(section_, e)]) = inSection section_ es ++ [e] := by
  simp [inSection]

theorem ofPlugin_same {p : Bytes} {e : IniLine} (h : pluginOf host e.1 ≠ some p) :
    ofPlugin host p (es ++ [e]) = ofPlugin host p es := by
  simp [ofPlugin, h]

theorem ofPlugin_concat {p : Bytes} {e : IniLine} (h : pluginOf host e.1 = some p) :
    ofPlugin host p (es ++ [e]) = ofPlugin host p es ++ [e.2] := by
  simp [ofPlugin, h]

/-- A value that belongs neither to a port nor to a plugin. -/
theorem Holds.plain (hx : Ere.Posix host.regexec) (h : Holds host es cnf) {e : IniLine} (hc : 58 ∉ e.1)
    {server : ServerSettings} (hs : server = .meant host (inSection (str "SERVER") (es ++ [e])))
    {mimes : Dictionary Bytes} (hm : mimes = putAll .dict (_mimes ++ inSection (str "MIMES") (es ++ [e]))) :
    Holds host (es ++ [e]) { cnf with toServerSettings := server, mimes } where
  server := hs
  mimes := hm
  ports := by
    rw [load_concat _ h.ports]
    exact ports_kept (port_none hx hc) ..
  keyed := h.keyed
  plugin p := by
    rw [ofPlugin_same (by simp [pluginOf_none hx hc])]
    exact h.plugin p
  handlers := h.handlers

/-- A value of the server's section. -/
theorem Holds.step_server (hx : Ere.Posix host.regexec) (h : Holds host es cnf) (name value : Bytes) :
    ∃ cnf' known, config_handler host cnf (str "SERVER") name value = .ok (cnf', known) ∧
      Holds host (es ++ [(str "SERVER", name, value)]) cnf' := by
  have hcolon : 58 ∉ str "SERVER" := by decide
  have hmimes : inSection (str "MIMES") (es ++ [(str "SERVER", name, value)]) = inSection (str "MIMES") es :=
    inSection_same es (show str "SERVER" ≠ str "MIMES" by decide)
  have hmeant := ServerSettings.meant_concat host (inSection (str "SERVER") es) (name, value)
  rw [← inSection_concat, ← h.server] at hmeant
  have hplain := h.plain hx (e := (str "SERVER", name, value)) hcolon hmeant.symm (hmimes ▸ h.mimes)
  unfold config_handler
  rw [if_pos rfl]
  cases hset : cnf.toServerSettings.set host name value with
  | some s =>
    rw [hset] at hplain
    exact ⟨_, _, rfl, hplain⟩
  | none =>
    rw [hset] at hplain
    dsimp only
    rw [if_neg (by decide), regex_match_port, port_none hx hcolon, Res.ok_bind, regex_match_plugin,
      plugin_none hx hcolon]
    exact ⟨_, _, rfl, hplain⟩

/-- What is known of a plugin. -/
theorem Holds.config (h : Holds host es cnf) (p : Bytes) :
    (cnf.plugins.dvalue p).getD .dict = putAll .dict (ofPlugin host p es) := by
  rw [h.plugin]
  split
  · rename_i hnil
    rw [hnil]
    rfl
  · rfl

/-- A value of a plugin's section. -/
theorem Holds.put_plugin (h : Holds host es cnf) {p name value section_ : Bytes}
    (hof : pluginOf host section_ = some p) (q : Bytes) :
    (cnf.plugins.dput p (some (((cnf.plugins.dvalue p).getD .dict).dput name (some value)))).dvalue q =
      if ofPlugin host q (es ++ [(section_, name, value)]) = [] then none
      else some (putAll .dict (ofPlugin host q (es ++ [(section_, name, value)]))) := by
  rw [Dictionary.dvalue_dput, h.config]
  by_cases hq : q = p
  · subst hq
    rw [if_pos rfl, ofPlugin_concat hof, if_neg (List.append_ne_nil_of_right_ne_nil _ (by simp)), putAll_append]
    rfl
  · rw [if_neg hq, ofPlugin_same (by rw [hof]; exact fun he => hq (Option.some.inj he).symm)]
    exact h.plugin q

/-- One value is read. -/
theorem Holds.step (hx : Ere.Posix host.regexec) (h : Holds host es cnf) (e : IniLine) :
    ∃ cnf' known, config_handler host cnf e.1 e.2.1 e.2.2 = .ok (cnf', known) ∧ Holds host (es ++ [e]) cnf' := by
  obtain ⟨section_, name, value⟩ := e
  by_cases hserver : section_ = str "SERVER"
  · subst hserver
    exact h.step_server hx name value
  have hsame := congrArg (ServerSettings.meant host) (inSection_same es (e := (section_, name, value)) hserver)
  have hserver' := h.server.trans hsame.symm
  unfold config_handler
  rw [if_neg hserver]
  dsimp only
  by_cases hmimes : section_ = str "MIMES"
  · subst hmimes
    rw [if_pos rfl]
    refine ⟨_, _, rfl, h.plain hx (show 58 ∉ str "MIMES" by decide) hserver' ?_⟩
    rw [inSection_concat, ← List.append_assoc, putAll_append, ← h.mimes]
    rfl
  rw [if_neg hmimes, regex_match_port, Res.ok_bind]
  have hmimes' := h.mimes
  rw [← inSection_same es (e := (section_, name, value)) hmimes] at hmimes'
  have hload := load_concat cnf.ports h.ports (section_, name, value)
  have hplugin (hp : pluginOf host section_ = none) (p : Bytes) :
      ofPlugin host p (es ++ [(section_, name, value)]) = ofPlugin host p es :=
    ofPlugin_same (by simp [hp])
  cases hport : found host.regexec PORT_PATTERN section_ with
  | some m =>
    obtain ⟨ports, hports⟩ :
        ∃ ports, AntHttp.config_handler host cnf.ports section_ name value = .ok ports := by
      unfold AntHttp.config_handler
      rw [regex_match_port, hport]
      exact ⟨_, rfl⟩
    dsimp only
    rw [hports, Res.ok_bind]
    refine ⟨_, _, rfl, hserver', hmimes', hload.trans hports, h.keyed, fun p => ?_, h.handlers⟩
    rw [hplugin (by rw [pluginOf, hport]; rfl)]
    exact h.plugin p
  | none =>
    rw [ports_kept hport] at hload
    dsimp only
    rw [regex_match_plugin, Res.ok_bind]
    cases hm : found host.regexec PLUGIN_PATTERN section_ with
    | none =>
      refine ⟨_, _, rfl, hserver', hmimes', hload, h.keyed, fun p => ?_, h.handlers⟩
      rw [hplugin (by rw [pluginOf, hport, hm]; rfl)]
      exact h.plugin p
    | some m =>
      have hof : pluginOf host section_ = some (groupText section_ (m 1)) := by rw [pluginOf, hport, hm]; rfl
      exact ⟨_, _, rfl, hserver', hmimes', hload, h.keyed.dput .., h.put_plugin hof, h.handlers⟩

/-- The values of a text, in order. -/
theorem holds_handled (hx : Ere.Posix host.regexec) (h : Holds host es cnf) (error : Nat)
    (cs : List (Nat × IniLine)) :
    ∃ cnf', (handled (iniHandler host) (.ok cnf) error cs).1 = .ok cnf' ∧
      Holds host (es ++ cs.map Prod.snd) cnf' := by
  induction cs generalizing es cnf error with
  | nil => exact ⟨cnf, rfl, by simpa using h⟩
  | cons c cs ih =>
    obtain ⟨lineno, section_, name, value⟩ := c
    obtain ⟨cnf₁, known, hread, hstep⟩ := h.step hx (section_, name, value)
    have hini : iniHandler host (.ok cnf) section_ name value = (.ok cnf₁, known) := by
      simp only [iniHandler, Except.bind, hread]
    obtain ⟨cnf₂, hrest, hall⟩ := ih hstep (if known ∨ error ≠ 0 then error else lineno)
    refine ⟨cnf₂, ?_, by simpa using hall⟩
    rw [handled, hini]
    exact hrest

end

/-! ## The plugins' extensions -/

theorem mem_of_lastValue {es : List (Bytes × Bytes)} {k v : Bytes} (h : lastValue es k = some v) :
    (k, v) ∈ es := by
  obtain ⟨e, he, rfl⟩ := Option.map_eq_some_iff.1 h
  have hkey := List.find?_some he
  simp only [decide_eq_true_eq] at hkey
  subst hkey
  exact List.mem_reverse.1 (List.mem_of_find?_eq_some he)

theorem lastValue_isSome {es : List (Bytes × Bytes)} {k v : Bytes} (h : (k, v) ∈ es) :
    (lastValue es k).isSome := by
  rw [lastValue, Option.isSome_map, List.find?_isSome]
  exact ⟨(k, v), List.mem_reverse.2 h, by simp⟩

/-- A plugin's settings list the extension. -/
def Lists (host : Host) (es : List IniLine) (p ext : Bytes) : Prop :=
  ∃ key, isFileType key = true ∧ ∃ value ∈ lastValue (ofPlugin host p es) key, ext ∈ tokens value

/-- What the text of a configuration means for the server. -/
structure Meant (host : Host) (es : List IniLine) (cnf : Settings) (loaded : List Bytes) : Prop where
  server : cnf.toServerSettings = .meant host (inSection (str "SERVER") es)
  mimes : ∀ type, cnf.mimes.dvalue type = lastValue (_mimes ++ inSection (str "MIMES") es) type
  ports : AntHttp.load_config host es = .ok cnf.ports
  /-- A section `PLUGIN:p` is one of `p`. -/
  named : ∀ p, PluginName p → pluginOf host (str "PLUGIN" ++ 58 :: p) = some p
  plugins : ∀ p key, (cnf.plugins.dvalue p).bind (·.dvalue key) = lastValue (ofPlugin host p es) key
  /-- An extension is handled by a plugin that lists it, if there is one. -/
  lists : ∀ ext p, cnf.handlers.dvalue ext = some p → Lists host es p ext
  handled : ∀ ext p, Lists host es p ext → (cnf.handlers.dvalue ext).isSome
  autoload : ∀ p, p ∈ loaded ↔ ∃ value ∈ lastValue (ofPlugin host p es) (str "autoload"), isOn value = true
  once : loaded.Nodup

section

variable {host : Host} {es : List IniLine} {cnf : Settings}

theorem Holds.plugins (h : Holds host es cnf) (p key : Bytes) :
    (cnf.plugins.dvalue p).bind (·.dvalue key) = lastValue (ofPlugin host p es) key := by
  rw [h.plugin]
  split
  · rename_i hnil
    rw [hnil]
    rfl
  · exact (holdsEntries_putAll _).value key

theorem mem_assocs {α : Type} {d : Dictionary α} (h : d.Keyed) {key : Bytes} {v : α} :
    (key, some v) ∈ d.assocs ↔ d.dvalue key = some v := by
  constructor
  · intro hm
    rw [Dictionary.dvalue, h.dlookup_of_mem hm]
    rfl
  · intro hv
    obtain ⟨⟨k, v'⟩, hl, hsnd⟩ := Option.bind_eq_some_iff.1 hv
    have hkey := List.find?_some hl
    have hmem := List.mem_of_find?_eq_some hl
    simp only [decide_eq_true_eq] at hkey hsnd
    subst hkey hsnd
    rw [Dictionary.assocs, List.mem_flatten]
    rw [Dictionary.bucket, List.getD_eq_getElem?_getD] at hmem
    cases hb : d.map[hash k d.cap]? with
    | none => simp [hb] at hmem
    | some c =>
      rw [hb] at hmem
      exact ⟨c, List.mem_of_getElem? hb, hmem⟩

/-- The settings of a plugin, where there are any. -/
theorem Holds.mem_config (h : Holds host es cnf) {p : Bytes} {config : Dictionary Bytes}
    (hc : cnf.plugins.dvalue p = some config) :
    config.Keyed ∧ ∀ key, config.dvalue key = lastValue (ofPlugin host p es) key := by
  rw [h.plugin] at hc
  split at hc
  · cases hc
  · cases hc
    exact ⟨keyed_putAll _, (holdsEntries_putAll _).value⟩

theorem Holds.mem_listings (h : Holds host es cnf) {ext p : Bytes} :
    (ext, p) ∈ listings cnf.plugins ↔ Lists host es p ext := by
  have hvalue (key value : Bytes) : value ∈ lastValue (ofPlugin host p es) key ↔
      ∃ config, (p, some config) ∈ cnf.plugins.assocs ∧ (key, some value) ∈ config.assocs := by
    rw [← h.plugins, Option.mem_def, Option.bind_eq_some_iff]
    refine exists_congr fun config => ?_
    rw [mem_assocs h.keyed]
    refine and_congr_right fun hc => ?_
    rw [mem_assocs (h.mem_config hc).1]
  simp only [Lists, hvalue, listings, List.mem_flatMap]
  constructor
  · rintro ⟨⟨p', config⟩, hconfig, ⟨key, value⟩, hkey, hm⟩
    dsimp only at hkey hm
    split at hm
    · rename_i hfile
      obtain ⟨ext', hext, he⟩ := List.mem_map.1 hm
      cases he
      cases config with
      | none => cases hkey
      | some config =>
        cases value with
        | none => cases hext
        | some value => exact ⟨key, hfile, value, ⟨config, hconfig, hkey⟩, hext⟩
    · cases hm
  · rintro ⟨key, hfile, value, ⟨config, hconfig, hkey⟩, hext⟩
    refine ⟨(p, some config), hconfig, (key, some value), hkey, ?_⟩
    dsimp only
    rw [if_pos hfile]
    exact List.mem_map.2 ⟨ext, hext, rfl⟩

theorem Holds.init_plugins (hx : Ere.Posix host.regexec) (h : Holds host es cnf) :
    Meant host es (init_plugins cnf).1 (init_plugins cnf).2 where
  server := h.server
  mimes type := by
    rw [Settings.init_plugins, h.mimes]
    exact (holdsEntries_putAll _).value type
  ports := h.ports
  named _ := pluginOf_name hx
  plugins := h.plugins
  lists ext p hp := by
    rw [Settings.init_plugins, h.handlers, (holdsEntries_putAll _).value] at hp
    exact h.mem_listings.1 (mem_of_lastValue hp)
  handled ext p hp := by
    rw [Settings.init_plugins, h.handlers, (holdsEntries_putAll _).value]
    exact lastValue_isSome (h.mem_listings.2 hp)
  autoload p := by
    rw [Settings.init_plugins, ← h.plugins]
    simp only [List.mem_map, List.mem_filter, Option.any_eq_true]
    constructor
    · rintro ⟨⟨p, config⟩, ⟨hm, value, hv, hon⟩, rfl⟩
      obtain ⟨config, rfl, hv⟩ := Option.bind_eq_some_iff.1 hv
      refine ⟨value, ?_, hon⟩
      rw [(mem_assocs h.keyed).1 hm]
      exact hv
    · rintro ⟨value, hv, hon⟩
      obtain ⟨config, hc, hv⟩ := Option.bind_eq_some_iff.1 hv
      exact ⟨(p, some config), ⟨(mem_assocs h.keyed).2 hc, value, hv, hon⟩, rfl⟩
  once := h.keyed.distinct.sublist (List.filter_sublist.map _)

end

/-- A text of lines that are as they should be gives each setting its last value or its default. -/
theorem settings_read (host : Host) (hx : Ere.Posix host.regexec) (items : List Item) (h : Readable ⟨[], []⟩ items)
    (hbom : (fileOf items).take 3 ≠ [0xEF, 0xBB, 0xBF]) :
    ∃ cnf loaded, load_config host (some (fileOf items)) = .ok (cnf, loaded) ∧
      Meant host ((calls ⟨[], []⟩ 0 items).map Prod.snd) cnf loaded := by
  have hread : ini_parse_file (iniHandler host) (Except.ok defaults) (fileOf items) =
      handled (iniHandler host) (Except.ok defaults) 0 (calls ⟨[], []⟩ 0 items) :=
    lines_items items ⟨Except.ok defaults, [], [], 0, 0⟩ h fun _ => hbom
  obtain ⟨cnf, hcnf, hholds⟩ := holds_handled hx (.defaults host) 0 (calls ⟨[], []⟩ 0 items)
  refine ⟨_, _, ?_, hholds.init_plugins hx⟩
  rw [load_config, ini_parse, hread, hcnf]
  rfl

/-- Workers, and a plugin for an extension. -/
def sampleItems : List Item :=
  [.section_ (str "SERVER") [], .entry (str "workers") [32] 61 [] (str "8") [], .section_ (str "PLUGIN:php") [],
    .entry (str "file_type") [] 61 [] (str "php,phtml") []]

def sampleHost : Host := ⟨Ere.regexec, some, 0⟩

theorem settings_read_php : ∃ cnf loaded, load_config sampleHost (some (fileOf sampleItems)) = .ok (cnf, loaded) ∧
    Meant sampleHost ((calls ⟨[], []⟩ 0 sampleItems).map Prod.snd) cnf loaded := by
  refine settings_read sampleHost Ere.regexec_posix sampleItems ?_ (by decide)
  refine ⟨⟨⟨?_, ?_⟩, by decide, by decide, by decide⟩,
    ⟨⟨?_, ?_, ?_, .inl rfl, ?_, .inl ?_⟩, by decide, by decide, by decide⟩,
    ⟨⟨?_, ?_⟩, by decide, by decide, by decide⟩,
    ⟨⟨?_, ?_, ?_, .inl rfl, ?_, .inl ?_⟩, by decide, by decide, by decide⟩, trivial⟩ <;>
    decide +kernel

end Settings

end AntHttp
