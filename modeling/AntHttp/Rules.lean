import AntHttp.Request
/-!
# Rewriting rules (`rule_check`, `apply_rules`, `check_proxy` in `decode.c`)

`buf` is the 2*BUFFLEN buffer of `decode_request_header`. It is modelled by
the string it holds; a copy that would leave it, or `rep` or `key_matches`,
is a fault.
-/

namespace AntHttp

open CString

/-- The size of `buf`. -/
def BUF_SIZE : Nat := 2 * BUFFLEN

/-- The text of a group: empty if the group is unused. -/
def groupText (s : Bytes) : Option (Nat × Nat) → Bytes
  | some (so, eo) => (s.drop so).take (eo - so)
  | none => []

/-- `memcpy(buf + idx, src, |src|)` after `idx` bytes `out`. -/
def copyOut (out src : Bytes) : Res Bytes :=
  if out.length + src.length ≤ BUF_SIZE then .ok (out ++ src) else .error .bounds

/-- `<([a-zA-Z0-9]+)>` -/
def PLACEHOLDER : Bytes := str "<([a-zA-Z0-9]+)>"

/-- The locals of `rule_check` that its loop changes; `out` is `buf` up to `idx`. -/
structure Expand where
  tmp : Bytes
  rep : Bytes
  out : Bytes

/-- `memcpy(rep, word, |word|)`. The array is read as a string afterwards, so it
must keep a NUL. -/
def copyRep (rep word : Bytes) : Res Bytes :=
  if word.length < 10 then .ok (word ++ rep.drop word.length) else .error .bounds

/-- What the word stands for; `kept` is the placeholder as written. -/
def replacement (regexec : Regexec) (url query target : Bytes) (key_matches : Ere.Caps) (rep kept : Bytes) :
    Res Bytes := do
  if strcaseeq rep (str "url") then return url
  else if strcaseeq rep (str "query") then return query
  else if ← match_int regexec rep then
    let i := (atoi rep).toNat
    if i < 10 then return groupText target (key_matches i) else throw .bounds
  else if strcaseeq rep (str "break") then return []
  else return kept

/-- The placeholders of the value, one after the other; there is none in an empty rest. -/
def expand (regexec : Regexec) (url query target : Bytes) (key_matches : Ere.Caps) (e : Expand) : Res Expand :=
  if _h : e.tmp = [] then .ok e
  else do
    match (← regex_match regexec PLACEHOLDER e.tmp).bind (· 1) with
    | none => return e
    | some (so, eo) =>
      let out ← copyOut e.out (e.tmp.take (so - 1))
      let rep ← copyRep e.rep ((e.tmp.drop so).take (eo - so))
      let text ← replacement regexec url query target key_matches (cstr rep) ((e.tmp.drop (so - 1)).take (eo + 2 - so))
      let out ← copyOut out text
      expand regexec url query target key_matches ⟨e.tmp.drop (eo + 1), rep, out⟩
termination_by e.tmp.length
decreasing_by
  have hpos := List.length_pos_iff.2 _h
  simp only [List.length_drop]
  omega

def matchHost (regexec : Regexec) (k : Bytes) : Option Bytes → Res (Option (Bytes × Ere.Caps))
  | none => .ok none
  | some host => do return (← regex_match regexec k host).map fun m => (host, m)

/-- The host is tried first, then the URL. -/
def matchTarget (regexec : Regexec) (k : Bytes) (host : Option Bytes) (url : Bytes) :
    Res (Option (Bytes × Ere.Caps)) := do
  match ← matchHost regexec k host with
  | some m => return some m
  | none => return (← regex_match regexec k url).map fun m => (url, m)

/-- Matching a rule's pattern faults only if the pattern does not compile. -/
theorem matchTarget_avoids {regexec : Regexec} {e : Fault} (he : e ≠ .regex) (k : Bytes) (host : Option Bytes)
    (url : Bytes) : Res.Avoids e (matchTarget regexec k host url) := by
  unfold matchTarget
  refine Res.Avoids.bind ?_ fun _ _ => ?_
  · unfold matchHost
    split
    · exact .ok _ _
    · exact (regex_match_avoids he).bind fun _ _ => .ok _ _
  · split
    · exact .ok _ _
    · exact (regex_match_avoids he).bind fun _ _ => .ok _ _

/-- `none` for 0; for 1, the string written to `buf`, if the value gave some text. -/
def rule_check (regexec : Regexec) (k v : Bytes) (host : Option Bytes) (url query : Bytes) :
    Res (Option (Option Bytes)) := do
  match ← matchTarget regexec k host url with
  | none => return none
  | some (target, key_matches) =>
    let e ← expand regexec url query target key_matches ⟨v, List.replicate 10 0, []⟩
    if e.out ≠ [] then
      if e.out.length + e.tmp.length < BUF_SIZE then return some (some (e.out ++ e.tmp)) else throw .bounds
    else return some none

/-- Cuts the URL at its first question mark, and returns it with the query. -/
def splitQuery (url : Bytes) : Bytes × Bytes := (url.takeWhile (· ≠ 63), (url.dropWhile (· ≠ 63)).tail)

/-- The URL in `buf`, its query, whether a `<break>` value was seen, and the rule
that wrote the URL last. -/
structure Rewrite where
  url : Bytes
  query : Bytes
  should_break : Bool
  producer : Option (Bytes × Bytes)

/-- The URL before the first rule. -/
def Rewrite.start (url : Bytes) : Rewrite := ⟨(splitQuery url).1, (splitQuery url).2, false, none⟩

/-- After a match of the rule `k=v`, which wrote `buf` or left the URL there. -/
def Rewrite.resplit (s : Rewrite) (k v : Bytes) (buf : Option Bytes) : Rewrite :=
  { s with
    url := (splitQuery (buf.getD s.url)).1, query := (splitQuery (buf.getD s.url)).2
    producer := if buf.isSome then some (k, v) else s.producer }

/-- One rule: whether the loop goes on, and the URL and query it goes on with. -/
def applyRule (regexec : Regexec) (host : Option Bytes) (k v : Bytes) (s : Rewrite) : Res (Bool × Rewrite) := do
  let m ← regex_match regexec (str "<break>$") v
  let s := { s with should_break := s.should_break || m.isSome }
  match ← rule_check regexec k v host s.url s.query with
  | none => return (true, s)
  | some buf => return (!s.should_break, s.resplit k v buf)

def apply_rules_loop (regexec : Regexec) (host : Option Bytes) : Chain Bytes → Rewrite → Res Rewrite
  | [], s => .ok s
  | (_, none) :: its, s => apply_rules_loop regexec host its s
  | (k, some v) :: its, s => do
    match ← applyRule regexec host k v s with
    | (true, s) => apply_rules_loop regexec host its s
    | (false, s) => return s

/-- The URL left in the buffer, and the query. -/
def apply_rules (regexec : Regexec) (rules : Dictionary Bytes) (host : Option Bytes) (url : Bytes) : Res Rewrite :=
  apply_rules_loop regexec host rules.assocs (.start url)

/-- `^(https?)://([^:]+):([0-9]+)(.*)$` -/
def PROXY_PATTERN : Bytes := str "^(https?)://([^:]+):([0-9]+)(.*)$"

/-- A capture copied to `buff[256]`: its size is cut to 256, and a NUL follows it. -/
def copyCapture (capture : Bytes) : Res Bytes :=
  if capture.length < 256 then .ok capture else .error .bounds

/-- A proxy task, or an answer, if the URL is absolute. -/
def check_proxy (regexec : Regexec) (rq : Request) (path query : Bytes) : Res (Option Task × Request) := do
  let task := antd_create_task none none rq.client.last_io
  match ← regex_match regexec PROXY_PATTERN path with
  | none => return (none, rq)
  | some m =>
    if (groupText path (m 1)).length = 5 then
      return (some task, rq.antd_error 503 "Service Unavailable")
    let host ← copyCapture (groupText path (m 2))
    let port ← copyCapture (groupText path (m 3))
    let rq := { rq with
      PROXY_HOST := some host, PROXY_PORT := some port
      PROXY_PATH := some (path.drop ((m 4).elim 0 Prod.fst)), PROXY_QUERY := some query }
    return (some ({ task with handle := some .proxify }.bindIo rq.client.sock true true), rq)

end AntHttp
