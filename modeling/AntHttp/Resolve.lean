import AntHttp.Handle
import AntHttp.Server
/-!
# Where a request is resolved to

`resolve_request` decides from the URL and the file system whether a file is
served, a plugin is given the request, or neither. `resolved` is that decision
without its effects; a path goes with each outcome, the one the request keeps
as `RESOURCE_PATH`.
-/

namespace AntHttp

open CString

inductive Resolved where
  | file (path : Bytes)
  | plugin (pname path : Bytes)
  | forbidden (path : Bytes)
  | missing
  deriving DecidableEq

/-- A file of a known type is served, another one goes to its handler plugin. -/
def resolvedAt (sys : Sys) (cnf : Config) (path : Bytes) : Res Resolved :=
  (mime sys.regexec cnf.mimes path).map fun mime_type =>
    if mime_type = OCTET_STREAM then
      match (ext path).bind cnf.handlers.dvalue with
      | some h => .plugin h path
      | none => .forbidden path
    else .file path

def resolved (sys : Sys) (cnf : Config) (root url : Bytes) : Res Resolved :=
  let path := snprintf BUF_SIZE (root ++ [47] ++ url)
  match sys.stat 0 path with
  | none => .ok (.plugin (pluginTarget url).1 (root ++ [47] ++ (pluginTarget url).2))
  | some st =>
    if st.isDir then
      let index := path ++ str "/index.html"
      if BUF_SIZE ≤ index.length then .error .bounds
      else if (sys.stat 1 index).isSome then resolvedAt sys cnf index
      else
        match handlerIndex sys root url 2 cnf.handlers.assocs with
        | some path => resolvedAt sys cnf path
        | none => .ok .missing
    else resolvedAt sys cnf path

/-! ## Plugins -/

section Plugins

variable {sys : Sys} {cnf : Config} {rq rq' : Request} {t : Task} {pname : Bytes}

/-- The plugin is loaded exactly if the port's setting enables it. -/
theorem execute_plugin_loads (h : execute_plugin sys cnf rq pname = .ok (t, rq')) :
    ∃ pcnf, cnf.port rq.SERVER_PORT = .ok (some pcnf) ∧
      ((pluginEnabled sys pcnf pname = .ok true ∧ rq'.loads = rq.loads ++ [pname]) ∨
        (pluginEnabled sys pcnf pname = .ok false ∧ rq'.loads = rq.loads)) := by
  unfold execute_plugin at h
  obtain ⟨o, ho, h⟩ := Res.bind_ok.1 h
  obtain ⟨pcnf, hp, h⟩ := Res.bind_ok.1 h
  obtain ⟨enabled, he, h⟩ := Res.bind_ok.1 h
  rw [deref_ok] at hp
  subst hp
  refine ⟨pcnf, ho, ?_⟩
  cases enabled with
  | true =>
    refine .inl ⟨he, ?_⟩
    simp only [if_true] at h
    split at h
    · cases h; rfl
    · split at h <;> cases h <;> rfl
  | false =>
    cases h
    exact .inr ⟨he, rfl⟩

theorem execute_plugin_path (h : execute_plugin sys cnf rq pname = .ok (t, rq')) :
    rq'.RESOURCE_PATH = rq.RESOURCE_PATH := by
  unfold execute_plugin at h
  obtain ⟨o, -, h⟩ := Res.bind_ok.1 h
  obtain ⟨pcnf, -, h⟩ := Res.bind_ok.1 h
  obtain ⟨enabled, -, h⟩ := Res.bind_ok.1 h
  cases enabled with
  | true =>
    simp only [if_true] at h
    split at h
    · cases h; rfl
    · split at h <;> cases h <;> rfl
  | false => cases h; rfl

/-- An enabled plugin that loads is run next, or after the body is decoded; nothing is sent. -/
theorem execute_plugin_runs {pcnf : PortConfig} (h : execute_plugin sys cnf rq pname = .ok (t, rq'))
    (hp : cnf.port rq.SERVER_PORT = .ok (some pcnf)) (he : pluginEnabled sys pcnf pname = .ok true)
    (hl : (sys.antd_plugin_load pname).isSome) :
    rq'.client.answers = rq.client.answers ∧ t.handle.isSome ∧ t.handle ≠ some .serve_file := by
  unfold execute_plugin at h
  rw [hp] at h
  obtain ⟨ctx, hctx⟩ := Option.isSome_iff_exists.1 hl
  simp only [bind, Except.bind, deref_some, he, if_true, hctx] at h
  split at h <;> cases h
  · exact ⟨rfl, rfl, nofun⟩
  · exact ⟨rfl, rfl, nofun⟩

end Plugins

/-! ## The effects -/

section Resolve

variable {sys : Sys} {cnf : Config} {rq rq' : Request} {t : Task}

/-- The request that is given to `execute_plugin`. -/
structure Handed (sys : Sys) (cnf : Config) (rq : Request) (t : Task) (rq' : Request) (pname path : Bytes) : Prop where
  run : ∃ rq₁, execute_plugin sys cnf rq₁ pname = .ok (t, rq') ∧ rq₁.RESOURCE_PATH = some path ∧
    rq₁.SERVER_PORT = rq.SERVER_PORT ∧ rq₁.loads = rq.loads ∧ rq₁.client.answers = rq.client.answers

/-- What is left of a request that was resolved, and the task for it. -/
def Outcome (sys : Sys) (cnf : Config) (rq : Request) (t : Task) (rq' : Request) : Resolved → Prop
  | .file path => t.handle = some .serve_file ∧ rq'.RESOURCE_PATH = some path ∧ rq'.loads = rq.loads
  | .plugin pname path => Handed sys cnf rq t rq' pname path
  | .forbidden path => rq'.RESOURCE_PATH = some path ∧ rq'.loads = rq.loads
  | .missing => rq'.RESOURCE_PATH = rq.RESOURCE_PATH ∧ rq'.loads = rq.loads

theorem serveResource_outcome {task : Task} {path : Bytes} (h : serveResource sys cnf rq task path = .ok (t, rq')) :
    ∃ r, resolvedAt sys cnf path = .ok r ∧ Outcome sys cnf rq t rq' r := by
  unfold serveResource at h
  obtain ⟨mime_type, hm, h⟩ := Res.bind_ok.1 h
  unfold resolvedAt
  rw [hm]
  refine ⟨_, rfl, ?_⟩
  simp only at h ⊢
  split at h
  · rename_i ho
    rw [if_pos ho]
    cases hg : (ext path).bind cnf.handlers.dvalue with
    | some g =>
      rw [hg] at h
      exact ⟨_, h, rfl, rfl, rfl, rfl⟩
    | none =>
      rw [hg] at h
      cases h
      exact ⟨rfl, rfl⟩
  · rename_i ho
    rw [if_neg ho]
    cases h
    exact ⟨rfl, rfl, rfl⟩

theorem resolve_request_outcome {url root : Bytes} (hu : rq.REQUEST_URI = some url) (hr : rq.SERVER_WWW_ROOT = some root)
    (h : resolve_request sys cnf rq = .ok (t, rq')) :
    ∃ r, resolved sys cnf root url = .ok r ∧ Outcome sys cnf rq t rq' r := by
  unfold resolve_request at h
  obtain ⟨url', hu', h⟩ := Res.bind_ok.1 h
  rw [deref_ok, hu] at hu'
  cases hu'
  obtain ⟨root', hr', h⟩ := Res.bind_ok.1 h
  rw [deref_ok, show (rq.set_state .RESOLVE_REQUEST).SERVER_WWW_ROOT = some root from hr] at hr'
  cases hr'
  unfold resolved
  simp only at h ⊢
  -- the effects are those on a request whose state has changed
  have lift : ∀ r, Outcome sys cnf (rq.set_state .RESOLVE_REQUEST) t rq' r → Outcome sys cnf rq t rq' r := by
    intro r hr
    cases r with
    | plugin pname path => exact ⟨hr.run⟩
    | file | forbidden | missing => exact hr
  have serve {path : Bytes} {task : Task} (h : serveResource sys cnf (rq.set_state .RESOLVE_REQUEST) task path = .ok (t, rq')) :
      ∃ r, resolvedAt sys cnf path = .ok r ∧ Outcome sys cnf rq t rq' r := by
    obtain ⟨r, hr, ho⟩ := serveResource_outcome h
    exact ⟨r, hr, lift r ho⟩
  cases hs : sys.stat 0 (snprintf BUF_SIZE (root ++ [47] ++ url)) with
  | none =>
    rw [hs] at h
    exact ⟨_, rfl, ⟨_, h, rfl, rfl, rfl, rfl⟩⟩
  | some st =>
    rw [hs] at h
    simp only at h ⊢
    split at h
    · rename_i hd
      rw [if_pos hd]
      split at h
      · cases h
      · rename_i hle
        rw [if_neg hle]
        split at h
        · rename_i hi
          rw [if_pos hi]
          exact serve h
        · rename_i hi
          rw [if_neg hi]
          cases hx : handlerIndex sys root url 2 cnf.handlers.assocs with
          | some path => rw [hx] at h; exact serve h
          | none =>
            rw [hx] at h
            cases h
            exact ⟨_, rfl, rfl, rfl⟩
    · rename_i hd
      rw [if_neg hd]
      exact serve h

end Resolve

end AntHttp
