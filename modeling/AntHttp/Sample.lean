import AntHttp.Pipeline
/-!
# A small server

One port and surroundings in which everything works, to run the model on.
-/

namespace AntHttp

open CString

/-- A dictionary with the given associations. -/
def dictOf {α : Type} (n : Nat) (l : List (Bytes × α)) : Dictionary α :=
  l.foldl (fun d p => d.dput p.1 (some p.2)) (.dict_n n)

/-- Port 80 with its documents in `/www`. -/
def samplePort (plugins : Option Bytes) (rules : List (Bytes × Bytes)) : PortConfig :=
  ⟨80, false, str "/www", plugins, dictOf 0 rules⟩

def sampleConfig (plugins : Option Bytes) (rules : List (Bytes × Bytes)) : Config where
  ports := dictOf 15 [(str "80", samplePort plugins rules)]
  handlers := .dict
  mimes := dictOf 15 [(str "text/html", str "html")]
  tmpdir := str "/tmp"
  max_upload_size := 10
  scheduler_timeout := 30
  n_workers := 4

/-- Only the named files exist; every plugin loads. -/
def sampleSys (files : List Bytes) : Sys where
  regexec := Ere.regexec
  time := 0
  poll := .ready true true false false false false
  ssl_accept := .done
  stat _ path := if path ∈ files then some ⟨false, 0, 0⟩ else none
  antd_plugin_load name := some ⟨name, false⟩
  ip_from_hostname _ := some (str "127.0.0.1")
  antd_request_socket _ _ := some (9, [], [])
  parseDate _ := 0
  httpDate _ := []
  readFile _ := none
  openTemp _ := true
  oldData _ := []
  write := List.replicate 64 (.room 1023)
  sha1Base64 _ := []
  proxyPolls := []
  plugin _ _ rq := ⟨rq, none⟩

/-- Bytes that are all there at once. -/
def atOnce (s : Bytes) : List RecvEv := s.map fun b => .byte b false 0

/-- A connection on the port whose client sends `s`. -/
def sampleConn (plugins : Option Bytes) (rules : List (Bytes × Bytes)) (s : Bytes) : Conn :=
  antd_monitor (samplePort plugins rules) 4 0 (atOnce s) []

theorem sampleConn_accepted (plugins : Option Bytes) (rules : List (Bytes × Bytes)) (s : Bytes) :
    Conn.Accepted (sampleConfig plugins rules) (sampleConn plugins rules s) := by
  refine ⟨samplePort plugins rules, 4, 0, atOnce s, [], ?_, rfl⟩
  have hp : str "80" = decimal 80 := by decide
  simp [sampleConfig, samplePort, dictOf, hp]

/-- The connection after the given surroundings. -/
theorem sampleConn_reachable {plugins : Option Bytes} {rules : List (Bytes × Bytes)} {s : Bytes} {env : List Sys}
    {c : Conn} (h : Runs.runAll (Conn.step (sampleConfig plugins rules)) env (sampleConn plugins rules s) = some c) :
    Conn.Reachable (sampleConfig plugins rules) c :=
  Runs.reachable_runAll (.init (sampleConn_accepted ..)) h

end AntHttp
