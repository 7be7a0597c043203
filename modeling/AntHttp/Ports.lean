import AntHttp.Lib.EreWords
import AntHttp.Pipeline
/-!
# The ports of the configuration

A section `PORT:n` makes an entry under its digits as they are written, and
the entry keeps the number they stand for. A connection stores that number in
decimal, and the entry is looked up under it: it is found where the digits are
how the number is written and no port was assigned.
-/

namespace AntHttp

open CString

/-! ## Reading the sections -/

inductive Proto where
  | ALL | IP_4 | IP_6
  deriving DecidableEq

/-- `port_config_t` -/
structure PortEntry where
  port : Int
  usessl : Int
  htdocs : Option Bytes
  plugins : Option Bytes
  sock : Int
  type : Proto
  rules : Dictionary Bytes

/-- `config_t`, as far as the sections of ports change it. -/
structure Ports where
  ports : Dictionary PortEntry
  enable_ssl : Int

/-- What the sections are read with; `malloc` leaves `usessl` as it finds it. -/
structure Host where
  regexec : Regexec
  realpath : Bytes → Option Bytes
  usessl : Int

def PORT_PATTERN : Bytes := str "PORT:\\s*([0-9]+)"

def newPort (host : Host) (buf : Bytes) : PortEntry where
  port := atoi buf
  usessl := host.usessl
  htdocs := none
  plugins := none
  sock := -1
  type := .ALL
  rules := .dict_n 0

/-- One `name = value` of a section. -/
def PortEntry.set (host : Host) (p : PortEntry) (name value : Bytes) : PortEntry :=
  if name = str "htdocs" then { p with htdocs := some ((host.realpath value).getD value) }
  else if name = str "plugins" then { p with plugins := some value }
  else if name = str "ssl.enable" then { p with usessl := atoi value }
  else if name = str "protocol" then
    { p with type := if value = str "ipv4" then .IP_4 else if value = str "ipv6" then .IP_6 else p.type }
  else { p with rules := p.rules.dput name (some value) }

/-- `config_handler`, for a section that names a port; any other leaves the ports. -/
def config_handler (host : Host) (conf : Ports) (section_ name value : Bytes) : Res Ports := do
  match ← regex_match host.regexec PORT_PATTERN section_ with
  | none => return conf
  | some matches_ =>
    let buf := groupText section_ (matches_ 1)
    let p := ((conf.ports.dvalue buf).getD (newPort host buf)).set host name value
    return {
      ports := conf.ports.dput buf (some p)
      enable_ssl := if name = str "ssl.enable" ∧ p.usessl ≠ 0 then 1 else conf.enable_ssl }

/-- The section, name and value of each line that `ini_parse` reads. -/
abbrev IniLine := Bytes × Bytes × Bytes

def load_config (host : Host) (lines : List IniLine) : Res Ports :=
  lines.foldlM (fun conf line => config_handler host conf line.1 line.2.1 line.2.2) ⟨.dict, 0⟩

/-! ## Listening -/

/-- What `antd_listen` meets on one port; a port that is assigned is not 0. -/
structure Net where
  socket : Option Nat
  bind : Bool
  sin_port : Option { p : UInt16 // p ≠ 0 }
  listen : Bool

/-- The descriptor, or -1, and the port afterwards. -/
def antd_listen (net : Net) (port : Int) : Int × Int :=
  match net.socket with
  | none => (-1, port)
  | some httpd =>
    if net.bind = false then (-1, port)
    else if port = 0 then
      match net.sin_port with
      | none => (-1, port)
      | some p => (if net.listen then httpd else -1, p.1.toNat)
    else (if net.listen then httpd else -1, port)

def PortEntry.listen (net : Bool → Net) (p : PortEntry) : PortEntry :=
  let r := antd_listen (net (p.type ≠ .IP_4)) p.port
  { p with sock := r.1, port := r.2 }

/-- Every port is listened on; a connection is accepted where the descriptor is positive. -/
def listenAll (net : Bytes → Bool → Net) (ports : Dictionary PortEntry) : Dictionary PortEntry :=
  ports.updateAll fun key p => p.listen (net key)

/-- `SERVER_PORT` of a connection. -/
def PortEntry.server_port (p : PortEntry) : Bytes := decimalInt p.port

/-! ## The digits of a section -/

theorem compiles_port : Ere.regcomp PORT_PATTERN = some (Ere.lits (str "PORT:") (.cat (.star (Ere.spaceSet false))
    (.cat (.group 1 (.cat (.cat (.set ⟨false, [(48, 57)]⟩) (.star (.set ⟨false, [(48, 57)]⟩))) .eps)) .eps))) := by
  decide +kernel

theorem digit_set {x : UInt8} (h : (⟨false, [(48, 57)]⟩ : Ere.CharSet).mem x = true) : isdigit x = true := by
  grind [Ere.CharSet.mem, Ere.CharSet.has, tolower, toupper, isdigit, isupper, islower]

/-- The key of an entry is made of digits. -/
theorem portDigits {regexec : Regexec} (hx : Ere.Posix regexec) {s : Bytes} {m : Ere.Caps}
    (hm : regex_match regexec PORT_PATTERN s = .ok (some m)) :
    groupText s (m 1) ≠ [] ∧ ∀ c ∈ groupText s (m 1), isdigit c = true := by
  rw [regex_match, compiles_port] at hm
  obtain ⟨i, j, d, hi, hr, rfl, -⟩ := hx.sound _ _ _ rfl (Except.ok.inj hm)
  obtain ⟨w, hpre, hw, hr⟩ := Ere.matches_lits.1 hr
  have hfive : i + (str "PORT:").length ≤ s.length := by
    have hle := hpre.length_le
    have hlen := Ere.strcaseeq_length hw
    rw [List.length_drop] at hle
    omega
  obtain ⟨j₁, d₁, hs, hr⟩ := Ere.matches_cat.1 hr
  obtain ⟨j₂, d₂, hg, he⟩ := Ere.matches_cat.1 hr
  obtain ⟨rfl, rfl⟩ := Ere.matches_eps.1 he
  obtain ⟨d₃, hd, rfl⟩ := Ere.matches_group.1 hg
  obtain ⟨j₃, d₄, hd, he⟩ := Ere.matches_cat.1 hd
  obtain ⟨rfl, -⟩ := Ere.matches_eps.1 he
  have hget : Function.update (Function.update d₃ 1 (some (j₁, j))) 0 (some (i, j)) 1 = some (j₁, j) := by simp
  rw [hget, groupText]
  obtain ⟨w, hne, hw, hall, rfl, -⟩ := Ere.matches_plus_set.1 hd
  rw [Nat.add_sub_cancel_left, ← List.prefix_iff_eq_take.1 hw]
  exact ⟨hne, fun c hc => digit_set (hall c hc)⟩

/-! ## The entries -/

/-- The number of an entry is the one its key stands for. -/
structure Entries (conf : Ports) : Prop where
  keyed : Dictionary.Keyed conf.ports
  port : ∀ key p, conf.ports.dvalue key = some p → p.port = atoi key
  digits : ∀ key, (conf.ports.dvalue key).isSome → key ≠ [] ∧ ∀ c ∈ key, isdigit c = true

theorem PortEntry.set_port (host : Host) (p : PortEntry) (name value : Bytes) : (p.set host name value).port = p.port := by
  unfold PortEntry.set
  split_ifs <;> rfl

section

variable {host : Host} {conf : Ports}

theorem config_handler_entries (hx : Ere.Posix host.regexec) (h : Entries conf) (sec name value : Bytes) :
    ∃ conf', config_handler host conf sec name value = .ok conf' ∧ Entries conf' := by
  have hcomp : (Ere.regcomp PORT_PATTERN).isSome := by rw [compiles_port]; rfl
  have hm : regex_match host.regexec PORT_PATTERN sec = .ok (found host.regexec PORT_PATTERN sec) := regex_match_found hcomp
  unfold config_handler
  cases hf : found host.regexec PORT_PATTERN sec with
  | none =>
    rw [hm, hf]
    exact ⟨conf, rfl, h⟩
  | some m =>
    rw [hf] at hm
    rw [hm]
    refine ⟨_, rfl, h.keyed.dput _ _, fun key p hp => ?_, fun key hk => ?_⟩
    · rw [Dictionary.dvalue_dput] at hp
      split at hp
      · rename_i hkey
        cases hp
        rw [PortEntry.set_port, hkey]
        cases hd : conf.ports.dvalue (groupText sec (m 1)) with
        | none => rfl
        | some p => exact h.port _ p hd
      · exact h.port key p hp
    · rw [Dictionary.dvalue_dput] at hk
      split at hk
      · rename_i hkey
        exact hkey ▸ portDigits hx hm
      · exact h.digits key hk

theorem load_config_entries (hx : Ere.Posix host.regexec) (lines : List IniLine) :
    ∃ conf, load_config host lines = .ok conf ∧ Entries conf := by
  have hall : ∀ conf, Entries conf →
      ∃ conf', lines.foldlM (fun conf (line : IniLine) => config_handler host conf line.1 line.2.1 line.2.2) conf = .ok conf' ∧
        Entries conf' := by
    induction lines with
    | nil => exact fun conf h => ⟨conf, rfl, h⟩
    | cons line lines ih =>
      intro conf h
      obtain ⟨conf₁, h₁, he₁⟩ := config_handler_entries hx h line.1 line.2.1 line.2.2
      rw [List.foldlM_cons, h₁]
      exact ih conf₁ he₁
  apply hall
  have hnone (key : Bytes) : (Dictionary.dict : Dictionary PortEntry).dvalue key = none := Dictionary.dvalue_dict_n ..
  refine ⟨Dictionary.keyed_dict_n _, fun key p hp => ?_, fun key hk => ?_⟩
  · cases (hnone key).symm.trans hp
  · rw [hnone] at hk
    cases hk

end

/-! ## Looking an entry up -/

/-- How a number that a port can have is written. -/
def Canonical (key : Bytes) : Prop := ∃ n : Nat, 0 < n ∧ n < 2 ^ 31 ∧ key = decimal n

theorem atoi_of_digits {s : Bytes} (h : ∀ c ∈ s, isdigit c = true) : atoi s = int32 (min (digits s) (2 ^ 63 - 1) : Nat) := by
  have hskip : s.dropWhile isspace = s := by
    cases s with
    | nil => rfl
    | cons c s =>
      have hdigit := h c List.mem_cons_self
      have hc : isspace c = false := by grind [isspace, isdigit]
      exact List.dropWhile_cons_of_neg (by simp [hc])
  rw [atoi, hskip]
  split
  · exact absurd (h 45 List.mem_cons_self) (by decide)
  · exact absurd (h 43 List.mem_cons_self) (by decide)
  · rfl

/-- What digits stand for, as long as they fit. -/
theorem atoi_decimal {n : Nat} (h : n < 2 ^ 31) : atoi (decimal n) = n := by
  rw [atoi_of_digits decimal_isdigit, digits_decimal, Nat.min_eq_left (by omega)]
  exact int32_eq (by omega) (by omega)

theorem atoi_lt (s : Bytes) : atoi s < 2 ^ 31 := by
  unfold atoi
  split <;> exact int32_lt _

/-- A port that is listened on is the one that was asked for, or one that was assigned. -/
theorem antd_listen_port {net : Net} {port : Int} (hs : 0 < (antd_listen net port).1) :
    (port ≠ 0 ∧ (antd_listen net port).2 = port) ∨
      (port = 0 ∧ ∃ a : Nat, 0 < a ∧ a < 2 ^ 31 ∧ (antd_listen net port).2 = a) := by
  have hneg : ¬ (0 : Int) < -1 := by decide
  cases hn : net.socket with
  | none =>
    rw [antd_listen, hn] at hs
    exact absurd hs hneg
  | some httpd =>
    simp only [antd_listen, hn] at hs ⊢
    by_cases hb : net.bind = false
    · rw [if_pos hb] at hs
      exact absurd hs hneg
    · rw [if_neg hb] at hs ⊢
      by_cases hz : port = 0
      · rw [if_pos hz] at hs ⊢
        cases ha : net.sin_port with
        | none =>
          rw [ha] at hs
          exact absurd hs hneg
        | some a =>
          have hpos : 0 < a.1.toNat := Nat.pos_of_ne_zero fun h0 => a.2 (UInt16.toNat_inj.1 h0)
          exact .inr ⟨hz, a.1.toNat, hpos, lt_trans a.1.toNat_lt (by decide), rfl⟩
      · rw [if_neg hz]
        exact .inl ⟨hz, rfl⟩

/-- After listening the number is written as the key is exactly if the key is how a number is written. -/
theorem server_port_eq_iff {net : Bool → Net} {p : PortEntry} {key : Bytes} (hp : p.port = atoi key)
    (hd : ∀ c ∈ key, isdigit c = true) (hs : 0 < (p.listen net).sock) : (p.listen net).server_port = key ↔ Canonical key := by
  have hnat (n : Nat) : decimalInt (n : Int) = decimal n := by rw [decimalInt, if_neg (by omega), Int.natAbs_natCast]
  have hcanon : Canonical key → ∃ n : Nat, 0 < n ∧ p.port = n ∧ key = decimal n := by
    rintro ⟨n, h0, hn, rfl⟩
    exact ⟨n, h0, hp.trans (atoi_decimal hn), rfl⟩
  have hport : (p.listen net).server_port = decimalInt (antd_listen (net (p.type ≠ .IP_4)) p.port).2 := rfl
  rw [hport]
  rcases antd_listen_port hs with ⟨hz, he⟩ | ⟨hz, a, h0, ha, he⟩
  · rw [he]
    constructor
    · intro hk
      have hneg : ¬ p.port < 0 := by
        intro hneg
        rw [decimalInt, if_pos hneg] at hk
        exact absurd (hd 45 (hk ▸ List.mem_cons_self)) (by decide)
      rw [decimalInt, if_neg hneg] at hk
      have hlt := atoi_lt key
      exact ⟨p.port.natAbs, by omega, by omega, hk.symm⟩
    · intro hc
      obtain ⟨n, h0, hn, hk⟩ := hcanon hc
      rw [hn, hnat, hk]
  · rw [he, hnat]
    constructor
    · rintro rfl
      exact ⟨a, h0, ha, rfl⟩
    · intro hc
      obtain ⟨n, h0, hn, -⟩ := hcanon hc
      omega

section

variable {host : Host}

/-- The entry before its port was listened on. -/
theorem Entries.listening {conf : Ports} (he : Entries conf) {net : Bytes → Bool → Net} {key : Bytes} {p : PortEntry}
    (hmem : (key, some p) ∈ (listenAll net conf.ports).assocs) :
    ∃ q : PortEntry, p = q.listen (net key) ∧ q.port = atoi key ∧ ∀ c ∈ key, isdigit c = true := by
  obtain ⟨value, hold, hp⟩ := Dictionary.mem_assocs_updateAll.1 hmem
  cases value with
  | none => cases hp
  | some q =>
    have hq : conf.ports.dvalue key = some q := by rw [Dictionary.dvalue, he.keyed.dlookup_of_mem hold]; rfl
    exact ⟨q, Option.some.inj hp, he.port key q hq, (he.digits key (by rw [hq]; rfl)).2⟩

/-- An entry that listens is found under the port of its connections exactly if its section names the port the way
it is written. -/
theorem port_lookup_iff (hx : Ere.Posix host.regexec) (net : Bytes → Bool → Net) (lines : List IniLine) :
    ∃ conf, load_config host lines = .ok conf ∧ ∀ key p, (key, some p) ∈ (listenAll net conf.ports).assocs → 0 < p.sock →
      ((listenAll net conf.ports).dlookup p.server_port = some (key, some p) ↔ Canonical key) := by
  obtain ⟨conf, hl, he⟩ := load_config_entries hx lines
  refine ⟨conf, hl, fun key p hmem hs => ?_⟩
  have hfound := (he.keyed.updateAll fun key p => p.listen (net key)).dlookup_of_mem hmem
  obtain ⟨q, rfl, hp, hd⟩ := he.listening hmem
  rw [← server_port_eq_iff hp hd hs]
  constructor
  · intro h
    have hkey := List.find?_some h
    simpa using (of_decide_eq_true hkey).symm
  · intro h
    rw [h]
    exact hfound

/-- An entry as the handlers of a request see it. -/
def PortEntry.config (p : PortEntry) : PortConfig :=
  ⟨p.port.toNat, p.usessl = 1, p.htdocs.getD [], p.plugins, p.rules⟩

/-- A connection that a port of the file accepts is one of the configuration, if the section names the port the way
it is written. -/
theorem listening_accepted (hx : Ere.Posix host.regexec) {net : Bytes → Bool → Net} {lines : List IniLine} {conf : Ports}
    (hl : load_config host lines = .ok conf) {key : Bytes} {p : PortEntry}
    (hmem : (key, some p) ∈ (listenAll net conf.ports).assocs) (hs : 0 < p.sock) (hc : Canonical key) {cnf : Config}
    (hcnf : cnf.ports = (listenAll net conf.ports).updateAll fun _ p => p.config) (client_sock now : Int)
    (input : List RecvEv) (output : List SendEv) : Conn.Accepted cnf (antd_monitor p.config client_sock now input output) := by
  obtain ⟨conf', hl', he⟩ := load_config_entries hx lines
  obtain rfl : conf = conf' := by rw [hl] at hl'; exact Except.ok.inj hl'
  obtain ⟨q, rfl, hp, hd⟩ := he.listening hmem
  have hkey := (server_port_eq_iff hp hd hs).2 hc
  have hneg : ¬ (q.listen (net key)).port < 0 := by
    intro hneg
    rw [PortEntry.server_port, decimalInt, if_pos hneg] at hkey
    exact absurd (hd 45 (hkey ▸ List.mem_cons_self)) (by decide)
  have hnat : (q.listen (net key)).config.port = (q.listen (net key)).port.natAbs := by
    change (q.listen (net key)).port.toNat = _
    omega
  rw [PortEntry.server_port, decimalInt, if_neg hneg, ← hnat] at hkey
  refine ⟨_, client_sock, now, input, output, ?_, rfl⟩
  have hkeyed := (he.keyed.updateAll fun key p => p.listen (net key)).updateAll fun _ p => p.config
  have hin : (key, some (q.listen (net key)).config) ∈ cnf.ports.assocs := by
    rw [hcnf]
    exact Dictionary.mem_assocs_updateAll.2 ⟨_, hmem, rfl⟩
  rw [hkey, Dictionary.dvalue, (hcnf ▸ hkeyed : Dictionary.Keyed cnf.ports).dlookup_of_mem hin]
  rfl

end

/-- A host without links, where every port can be listened on. -/
def sampleHost : Host := ⟨Ere.regexec, fun path => some path, 0⟩

def sampleNet : Bytes → Bool → Net := fun _ _ => ⟨some 3, true, some ⟨40000, by decide⟩, true⟩

/-- The entry that one section makes. -/
theorem sampleEntry {sec : Bytes} {conf : Ports} (hl : load_config sampleHost [(sec, str "htdocs", str "/www")] = .ok conf)
    {key : Bytes} (hk : (load_config sampleHost [(sec, str "htdocs", str "/www")]).toOption.any (fun conf =>
      (listenAll sampleNet conf.ports).assocs.any fun np => np.1 = key && np.2.any fun p => decide (0 < p.sock)) = true) :
    ∃ p, (key, some p) ∈ (listenAll sampleNet conf.ports).assocs ∧ 0 < p.sock := by
  rw [hl] at hk
  obtain ⟨⟨k, value⟩, hmem, hp⟩ := List.any_eq_true.1 hk
  cases value with
  | none => simp at hp
  | some p =>
    simp only [Option.any_some, Bool.and_eq_true, decide_eq_true_eq] at hp
    exact ⟨p, hp.1 ▸ hmem, hp.2⟩

theorem port_lookup_iff_http : ∃ conf p, load_config sampleHost [(str "PORT:8080", str "htdocs", str "/www")] = .ok conf ∧
    (listenAll sampleNet conf.ports).dlookup p.server_port = some (str "8080", some p) := by
  obtain ⟨conf, hl, h⟩ := @port_lookup_iff sampleHost Ere.regexec_posix sampleNet [(str "PORT:8080", str "htdocs", str "/www")]
  obtain ⟨p, hmem, hs⟩ := @sampleEntry _ _ hl (str "8080") (by decide +kernel)
  exact ⟨conf, p, hl, (h (str "8080") p hmem hs).2 ⟨8080, by decide, by decide, by decide⟩⟩

/-- Under `PORT:080` the entry is not found. -/
theorem leading_zero_not_found : ¬ ∀ (host : Host) (net : Bytes → Bool → Net) (lines : List IniLine), Ere.Posix host.regexec →
    ∃ conf, load_config host lines = .ok conf ∧ ∀ key p, (key, some p) ∈ (listenAll net conf.ports).assocs → 0 < p.sock →
      (listenAll net conf.ports).dlookup p.server_port = some (key, some p) := by
  intro hall
  obtain ⟨conf, hl, h⟩ := hall sampleHost sampleNet [(str "PORT:080", str "htdocs", str "/www")] Ere.regexec_posix
  obtain ⟨p, hmem, hs⟩ := @sampleEntry _ _ hl (str "080") (by decide +kernel)
  have hother : ((load_config sampleHost [(str "PORT:080", str "htdocs", str "/www")]).toOption.any fun conf =>
      (listenAll sampleNet conf.ports).assocs.all fun np => np.2.all fun p => decide (p.server_port ≠ np.1)) = true := by
    decide +kernel
  rw [hl] at hother
  have hne : p.server_port ≠ str "080" := by simpa using List.all_eq_true.1 hother _ hmem
  have hkey := List.find?_some (h _ p hmem hs)
  exact hne (of_decide_eq_true hkey).symm

end AntHttp
