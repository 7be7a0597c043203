import AntHttp.Lib.Path
import AntHttp.Resolve
import AntHttp.Sample
/-!
# The path of a resource and the document root

`resolve_request` puts the URI after the document root as it is: the path stays
inside the root exactly when what stands after the root does. For a plugin that
is the URI without its first component.
-/

namespace AntHttp

open CString Path

/-! ## Below the root -/

/-- After its first ups the rest goes down again by the names it has gone up. -/
def Stays (root rest : Bytes) : Prop :=
  root ≠ [] ∧ ((resolve root).absolute ∨ (walk here (moves rest)).ups ≤ (resolve root).dir.length) ∧
    (resolve root).dir.take (walk here (moves rest)).ups <:+ (walk here (moves rest)).dir

instance (root rest : Bytes) : Decidable (Stays root rest) := inferInstanceAs (Decidable (_ ∧ (_ ∨ _) ∧ _ <:+ _))

/-- The same for what fits in the buffer; a root that fills it is cut itself. -/
def StaysCut (root rest : Bytes) : Prop :=
  if root.length < BUF_SIZE - 1 then Stays root (rest.take (BUF_SIZE - 2 - root.length))
  else Inside (resolve (root.take (BUF_SIZE - 1))) (resolve root)

instance (root rest : Bytes) : Decidable (StaysCut root rest) :=
  inferInstanceAs (Decidable (if root.length < BUF_SIZE - 1 then Stays root _ else Inside _ _))

theorem inside_iff_stays (root rest : Bytes) : Inside (resolve (root ++ [47] ++ rest)) (resolve root) ↔ Stays root rest := by
  unfold Stays
  by_cases hr : root = []
  · -- the path is absolute and the root is not
    subst hr
    have habs : (resolve ([] ++ [47] ++ rest)).absolute = true := by
      rw [resolve, walk_absolute]
      rfl
    have hrel : (resolve []).absolute = false := rfl
    refine iff_of_false (fun h => ?_) fun h => h.1 rfl
    exact absurd (habs.symm.trans (h.1.trans hrel)) (by decide)
  · rw [resolve_append hr, inside_walk]
    simp [hr]

theorem inside_iff_staysCut (root rest : Bytes) :
    Inside (resolve (snprintf BUF_SIZE (root ++ [47] ++ rest))) (resolve root) ↔ StaysCut root rest := by
  unfold StaysCut snprintf
  split
  · rename_i hlt
    have htake : (root ++ [47] ++ rest).take (BUF_SIZE - 1) = root ++ [47] ++ rest.take (BUF_SIZE - 2 - root.length) := by
      have hlen : BUF_SIZE - 1 - (root ++ [47]).length = BUF_SIZE - 2 - root.length := by
        rw [List.length_append, List.length_singleton]
        omega
      rw [List.take_append, List.take_of_length_le (by rw [List.length_append, List.length_singleton]; omega), hlen]
    rw [htake]
    exact inside_iff_stays ..
  · rename_i hge
    rw [List.append_assoc, List.take_append_of_le_length (not_lt.1 hge)]

/-! ## By the outcome of the lookups -/

/-- The extension of the first index file of a handler that is found. -/
def indexKey (sys : Sys) (root url : Bytes) : Nat → Chain Bytes → Option Bytes
  | _, [] => none
  | n, (key, _) :: its =>
    if (sys.stat n (snprintf BUF_SIZE (root ++ [47] ++ url ++ str "/index." ++ key))).isSome then some key
    else indexKey sys root url (n + 1) its

theorem handlerIndex_eq (sys : Sys) (root url : Bytes) (n : Nat) (its : Chain Bytes) :
    handlerIndex sys root url n its =
      (indexKey sys root url n its).map fun key => snprintf BUF_SIZE (root ++ [47] ++ (url ++ str "/index." ++ key)) := by
  induction its generalizing n with
  | nil => rfl
  | cons it its ih =>
    obtain ⟨key, value⟩ := it
    have htext : root ++ [47] ++ (url ++ str "/index." ++ key) = root ++ [47] ++ url ++ str "/index." ++ key := by simp
    unfold handlerIndex indexKey
    simp only
    split
    · rw [Option.map_some, htext]
    · exact ih (n + 1)

/-- What stands after the root stays inside: the URI of a file, that of an index file, or the URI without the
component that names the plugin. -/
def Contained (sys : Sys) (cnf : Config) (root url : Bytes) : Prop :=
  match sys.stat 0 (snprintf BUF_SIZE (root ++ [47] ++ url)) with
  | none => Stays root (pluginTarget url).2
  | some st =>
    if st.isDir then
      if (sys.stat 1 (snprintf BUF_SIZE (root ++ [47] ++ url) ++ str "/index.html")).isSome then
        Stays root (url ++ str "/index.html")
      else ∀ key ∈ indexKey sys root url 2 cnf.handlers.assocs, StaysCut root (url ++ str "/index." ++ key)
    else StaysCut root url

def Resolved.path : Resolved → Option Bytes
  | .file path | .plugin _ path | .forbidden path => some path
  | .missing => none

section

variable {sys : Sys} {cnf : Config} {rq rq' : Request} {t : Task} {root url path : Bytes} {r : Resolved}

theorem Outcome.path_eq (h : Outcome sys cnf rq t rq' r) : rq'.RESOURCE_PATH = r.path.or rq.RESOURCE_PATH := by
  cases r with
  | file path => exact h.2.1
  | plugin pname path =>
    obtain ⟨rq₁, hrun, hpath, -⟩ := h.run
    exact (execute_plugin_path hrun).trans hpath
  | forbidden path => exact h.1
  | missing => exact h.1

theorem resolvedAt_path (h : resolvedAt sys cnf path = .ok r) : r.path = some path := by
  obtain ⟨mime_type, -, rfl⟩ := Res.map_ok.1 h
  split
  · split <;> rfl
  · rfl

/-- The path that is decided on lies inside the root. -/
theorem resolved_inside_iff (h : resolved sys cnf root url = .ok r) :
    (∀ path ∈ r.path, Inside (resolve path) (resolve root)) ↔ Contained sys cnf root url := by
  have hone {path : Bytes} (hp : r.path = some path) :
      (∀ path ∈ r.path, Inside (resolve path) (resolve root)) ↔ Inside (resolve path) (resolve root) := by simp [hp]
  unfold resolved at h
  unfold Contained
  simp only at h
  cases hs : sys.stat 0 (snprintf BUF_SIZE (root ++ [47] ++ url)) with
  | none =>
    rw [hs] at h
    cases h
    exact (hone rfl).trans (inside_iff_stays ..)
  | some st =>
    rw [hs] at h
    simp only at h ⊢
    split at h
    · rename_i hd
      rw [if_pos hd]
      split at h
      · cases h
      · rename_i hfits
        split at h
        · rename_i hi
          rw [if_pos hi, hone (resolvedAt_path h), ← inside_iff_stays]
          -- the path was not cut, or nothing could be added to it
          have huncut : snprintf BUF_SIZE (root ++ [47] ++ url) = root ++ [47] ++ url := by
            refine List.take_of_length_le (not_lt.1 fun hlt => hfits ?_)
            have hindex : (str "/index.html").length = 11 := by decide
            rw [List.length_append, snprintf, List.length_take_of_le (le_of_lt hlt), hindex]
            decide
          rw [huncut, List.append_assoc]
        · rename_i hi
          rw [if_neg hi]
          rw [handlerIndex_eq] at h
          cases hk : indexKey sys root url 2 cnf.handlers.assocs with
          | none =>
            rw [hk] at h
            cases h
            simp [Resolved.path]
          | some key =>
            rw [hk] at h
            rw [hone (resolvedAt_path h), inside_iff_staysCut]
            simp
    · rename_i hd
      rw [if_neg hd, hone (resolvedAt_path h), inside_iff_staysCut]

/-- For every URI, root and outcome of the lookups, the stored path lies inside the root exactly when what
stands after the root does not lead out of it. -/
theorem resource_path_inside_iff (hu : rq.REQUEST_URI = some url) (hr : rq.SERVER_WWW_ROOT = some root)
    (hnew : rq.RESOURCE_PATH = none) (h : resolve_request sys cnf rq = .ok (t, rq')) :
    (∀ path, rq'.RESOURCE_PATH = some path → Inside (resolve path) (resolve root)) ↔ Contained sys cnf root url := by
  obtain ⟨r, hres, ho⟩ := resolve_request_outcome hu hr h
  rw [← resolved_inside_iff hres, ho.path_eq, hnew, Option.or_none]
  exact Iff.rfl

end

/-- A request for the URI, after its header has been decoded. -/
def sampleUri (url : Bytes) : Request := { (sampleConn none [] []).rq with REQUEST_URI := some url }

/-- The resource that is stored when the named files exist. -/
def sampleResource (files : List Bytes) (url : Bytes) : Option Bytes :=
  (resolve_request (sampleSys files) (sampleConfig none []) (sampleUri url)).toOption.bind (·.2.RESOURCE_PATH)

theorem sampleResource_run {files : List Bytes} {url path : Bytes} (h : sampleResource files url = some path) :
    ∃ t rq', resolve_request (sampleSys files) (sampleConfig none []) (sampleUri url) = .ok (t, rq') ∧
      rq'.RESOURCE_PATH = some path := by
  obtain ⟨⟨t, rq'⟩, hrun, hpath⟩ := Option.bind_eq_some_iff.1 h
  exact ⟨t, rq', Res.toOption_eq.1 hrun, hpath⟩

theorem resource_path_inside_iff_sub : Inside (resolve (str "/www//a/../b.html")) (resolve (str "/www")) := by
  have hstored : sampleResource [str "/www//a/../b.html"] (str "/a/../b.html") = some (str "/www//a/../b.html") := by
    decide +kernel
  obtain ⟨t, rq', hrun, hpath⟩ := sampleResource_run hstored
  have hcontained : Contained (sampleSys [str "/www//a/../b.html"]) (sampleConfig none []) (str "/www") (str "/a/../b.html") := by
    have hstat : (sampleSys [str "/www//a/../b.html"]).stat 0 (snprintf BUF_SIZE (str "/www" ++ [47] ++ str "/a/../b.html")) =
        some ⟨false, 0, 0⟩ := by decide +kernel
    unfold Contained
    rw [hstat]
    exact (by decide +kernel : StaysCut (str "/www") (str "/a/../b.html"))
  exact (resource_path_inside_iff rfl rfl rfl hrun).2 hcontained _ hpath

/-- What is stored for a file beside the root is its path. -/
theorem resource_path_outside : ¬ ∀ (sys : Sys) (cnf : Config) (rq rq' : Request) (t : Task) (url root path : Bytes),
    rq.REQUEST_URI = some url → rq.SERVER_WWW_ROOT = some root → rq.RESOURCE_PATH = none →
    resolve_request sys cnf rq = .ok (t, rq') → rq'.RESOURCE_PATH = some path → Inside (resolve path) (resolve root) := by
  intro hall
  have hstored : sampleResource [str "/www//../etc/x.html"] (str "/../etc/x.html") = some (str "/www//../etc/x.html") := by
    decide +kernel
  obtain ⟨t, rq', hrun, hpath⟩ := sampleResource_run hstored
  have hin := hall _ _ _ _ _ _ (str "/www") _ rfl rfl rfl hrun hpath
  exact absurd hin (by decide +kernel)

end AntHttp
