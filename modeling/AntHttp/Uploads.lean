import AntHttp.Lib.Path
import AntHttp.Sample
import AntHttp.Steps
/-!
# Where the parts of a body are stored

The file name of a part comes from the client and goes into a path as it is,
with the second in which the part arrives. A name with `..` leads out of the
temporary directory, and two names that lead to one place in one second lead to
the same file.
-/

namespace AntHttp

open CString Path

/-! ## The file of a part -/

/-- The file name that the header of the next part gives. -/
def uploadName (rq : Request) : Option Bytes :=
  let header := (readUntil (strstr · (str "Content-Disposition:")) rq.client).1
  match (split 59 (cstr header)).foldl partParam (none, none) with
  | (some _, part_file) => part_file
  | (none, _) => none

/-- The file at `path` is opened for the next part. -/
def Opens (sys : Sys) (cnf : Config) (rq : Request) (path : Bytes) : Prop :=
  ∃ t rq' data, decode_multi_part_request_data sys cnf rq = .ok (t, rq') ∧ rq'.files = rq.files ++ [(path, data)]

section

variable {sys : Sys} {cnf : Config} {rq rq' : Request} {t : Task} {line : Option Bytes} {boundary part_name name path : Bytes}

theorem textPart_files (h : textPart rq boundary part_name = .ok (line, rq')) : rq'.files = rq.files := by
  obtain ⟨data, -, h⟩ := Res.bind_ok.1 h
  cases h
  rfl

theorem filePart_files (h : filePart sys cnf rq boundary part_name name = .ok (line, rq')) :
    rq'.files = rq.files ∨ ∃ data, rq'.files = rq.files ++ [(uploadPath cnf.tmpdir name sys.time, data)] := by
  unfold filePart at h
  simp only at h
  split at h
  · obtain ⟨dic, -, h⟩ := Res.bind_ok.1 h
    cases h
    exact .inr ⟨_, rfl⟩
  · cases h
    exact .inl rfl

theorem partData_files {names : Option Bytes × Option Bytes} (h : partData sys cnf rq boundary names = .ok (line, rq')) :
    rq'.files = rq.files ∨ ∃ part_name part_file data, names = (some part_name, some part_file) ∧
      rq'.files = rq.files ++ [(uploadPath cnf.tmpdir part_file sys.time, data)] := by
  unfold partData at h
  split at h
  · cases h
    exact .inl rfl
  · rename_i part_name part_file
    simp only at h
    split at h
    · exact .inl (textPart_files h :)
    · rename_i file
      rcases filePart_files h with h | ⟨data, h⟩
      · exact .inl h
      · exact .inr ⟨part_name, file, data, rfl, h⟩

/-- The path that is opened is made from the name and the time. -/
theorem Opens.eq_uploadPath (h : Opens sys cnf rq path) (hn : uploadName rq = some name) :
    path = uploadPath cnf.tmpdir name sys.time := by
  obtain ⟨t, rq', data, h, hfiles⟩ := h
  have hne : rq'.files ≠ rq.files := fun he => by simpa [hfiles] using congrArg List.length he
  obtain ⟨rfl | ⟨boundary, line, -, hp⟩, -⟩ := decode_multi_part_request_data_of h
  · exact absurd rfl hne
  · rcases partData_files hp with hp | ⟨part_name, part_file, data', hnames, hp⟩
    · exact absurd hp hne
    · have hnames : (split 59 (cstr (readUntil (strstr · (str "Content-Disposition:")) rq.client).1)).foldl partParam
          (none, none) = (some part_name, some part_file) := hnames
      rw [uploadName, hnames] at hn
      cases hn
      rw [hfiles] at hp
      have hlast := List.append_cancel_left hp
      rw [List.cons.injEq, Prod.mk.injEq] at hlast
      exact hlast.1.1

end

/-! ## Where a path leads -/

/-- The path lies below the directory. -/
def Within (path dir : Bytes) : Prop := Inside (resolve path) (resolve dir) ∧ resolve path ≠ resolve dir

instance (path dir : Bytes) : Decidable (Within path dir) := inferInstanceAs (Decidable (_ ∧ _))

/-- After its first ups the directory part of the name goes down again by the names it has gone up. -/
def StaysBelow (tmpdir name : Bytes) : Prop :=
  let dirs := walk here ((split 47 name).dropLast.map moveOf)
  (resolve tmpdir).dir.take dirs.ups <:+ dirs.dir

instance (tmpdir name : Bytes) : Decidable (StaysBelow tmpdir name) := inferInstanceAs (Decidable (_ <:+ _))

/-- The last component of the name. -/
def fileName (name : Bytes) : Bytes := (split 47 name).getLast (split_ne_nil 47 name)

/-- Where the directory part of the name leads. -/
def uploadDir (tmpdir name : Bytes) : Place Bytes := walk (resolve tmpdir) ((split 47 name).dropLast.map moveOf)

theorem moves_uploadName (name : Bytes) (time : Nat) : moves (name ++ [46] ++ decimal time) =
    (split 47 name).dropLast.map moveOf ++ [.down (fileName name ++ 46 :: decimal time)] := by
  have hsuffix : (47 : UInt8) ∉ [46] ++ decimal time := by
    intro hmem
    rcases List.mem_append.1 hmem with h | h
    · exact absurd h (by decide)
    · exact absurd (decimal_isdigit _ h) (by decide)
  rw [fileName, moves, List.append_assoc, split_append_last 47 name hsuffix, List.map_append, List.map_singleton]
  -- a name with a time is neither empty nor made of dots
  obtain ⟨d, ds, hd⟩ := List.exists_cons_of_ne_nil (decimal_ne_nil time)
  have hdigit : d ≠ 46 := by
    rintro rfl
    exact absurd (decimal_isdigit 46 (by rw [hd]; exact List.mem_cons_self)) (by decide)
  have hdown : ∀ s : Bytes, moveOf (s ++ ([46] ++ d :: ds)) = .down (s ++ ([46] ++ d :: ds)) := by
    intro s
    unfold moveOf
    rw [if_neg, if_neg]
    · intro h
      rcases s with - | ⟨a, - | ⟨b, s⟩⟩
      · simp [hdigit] at h
      · simp at h
      · simp at h
    · rintro (h | h)
      · simp at h
      · cases s with
        | nil => simp at h
        | cons a s => simp at h
  rw [hd, hdown]
  rfl

/-- The file of a part is its last component and the time, in the directory of its name. -/
theorem resolve_uploadPath {tmpdir : Bytes} (hd : tmpdir.head? = some 47) (name : Bytes) (time : Nat) :
    resolve (uploadPath tmpdir name time) =
      move (uploadDir tmpdir name) (.down (fileName name ++ 46 :: decimal (time % 2 ^ 32))) := by
  have hne : tmpdir ≠ [] := by
    rintro rfl
    cases hd
  have hpath : uploadPath tmpdir name time = tmpdir ++ [47] ++ (name ++ [46] ++ decimal (time % 2 ^ 32)) := by
    simp [uploadPath]
  rw [hpath, resolve_append hne, moves_uploadName, walk_append]
  rfl

/-- The file lies below an absolute directory exactly when the directory part of its name does not lead out. -/
theorem uploadPath_below {tmpdir : Bytes} (hd : tmpdir.head? = some 47) (name : Bytes) (time : Nat) :
    Within (uploadPath tmpdir name time) tmpdir ↔ StaysBelow tmpdir name := by
  have habs : (resolve tmpdir).absolute = true := by
    rw [resolve, walk_absolute]
    exact decide_eq_true hd
  have hdown := inside_walk_down (resolve tmpdir) ((split 47 name).dropLast.map moveOf) (fileName name ++ 46 :: decimal (time % 2 ^ 32))
  rw [walk_append] at hdown
  rw [Within, resolve_uploadPath hd]
  refine hdown.trans ?_
  rw [inside_walk]
  simp only [habs, true_or, true_and]
  rfl

/-- Text is cut at its last separator in one way. -/
theorem last_sep_inj {α : Type} {a : α} {xs ys ps qs : List α} (hx : a ∉ xs) (hy : a ∉ ys)
    (h : ps ++ a :: xs = qs ++ a :: ys) : ps = qs ∧ xs = ys := by
  induction ps generalizing qs with
  | nil =>
    cases qs with
    | nil => exact ⟨rfl, (List.cons.inj h).2⟩
    | cons q qs =>
      refine absurd ?_ hx
      rw [(List.cons.inj h).2]
      simp
  | cons p ps ih =>
    cases qs with
    | nil =>
      refine absurd ?_ hy
      rw [← (List.cons.inj h).2]
      simp
    | cons q qs =>
      obtain ⟨hp, hrest⟩ := List.cons.inj h
      obtain ⟨hps, hxs⟩ := ih hrest
      exact ⟨by rw [hp, hps], hxs⟩

theorem fileName_time_inj {name name' : Bytes} {m n : Nat} :
    name ++ 46 :: decimal m = name' ++ 46 :: decimal n ↔ name = name' ∧ m = n := by
  constructor
  · intro h
    have hdot : ∀ n, (46 : UInt8) ∉ decimal n := fun n hmem => absurd (decimal_isdigit _ hmem) (by decide)
    obtain ⟨hn, hdec⟩ := last_sep_inj (hdot _) (hdot _) h
    exact ⟨hn, decimal_injective hdec⟩
  · rintro ⟨rfl, rfl⟩
    rfl

/-- Two names and times give the same path only if they are the same. -/
theorem uploadPath_inj {tmpdir name name' : Bytes} {time time' : Nat} :
    uploadPath tmpdir name time = uploadPath tmpdir name' time' ↔ name = name' ∧ time % 2 ^ 32 = time' % 2 ^ 32 := by
  constructor
  · intro h
    have hpath : tmpdir ++ [47] ++ (name ++ 46 :: decimal (time % 2 ^ 32)) =
        tmpdir ++ [47] ++ (name' ++ 46 :: decimal (time' % 2 ^ 32)) := by simpa [uploadPath] using h
    exact fileName_time_inj.1 (List.append_cancel_left hpath)
  · rintro ⟨rfl, h⟩
    rw [uploadPath, uploadPath, h]

/-- Two names and times lead to one file exactly when their directories, last components and seconds are the same. -/
theorem uploadPath_same {tmpdir name name' : Bytes} (hd : tmpdir.head? = some 47) {time time' : Nat} :
    resolve (uploadPath tmpdir name time) = resolve (uploadPath tmpdir name' time') ↔
      uploadDir tmpdir name = uploadDir tmpdir name' ∧ fileName name = fileName name' ∧ time % 2 ^ 32 = time' % 2 ^ 32 := by
  rw [resolve_uploadPath hd, resolve_uploadPath hd, move_down_inj]
  exact and_congr_right fun _ => fileName_time_inj

/-! ## Every pair of parts -/

/-- The files of two parts lie below the temporary directory and are two exactly
when neither name leads out of it and their directories, last components or
seconds differ. -/
theorem uploads_apart_iff {cnf : Config} (hd : cnf.tmpdir.head? = some 47) {sys₁ sys₂ : Sys} {rq₁ rq₂ : Request}
    {path₁ path₂ name₁ name₂ : Bytes} (h₁ : Opens sys₁ cnf rq₁ path₁) (h₂ : Opens sys₂ cnf rq₂ path₂)
    (hn₁ : uploadName rq₁ = some name₁) (hn₂ : uploadName rq₂ = some name₂) :
    (Within path₁ cnf.tmpdir ∧ Within path₂ cnf.tmpdir ∧ resolve path₁ ≠ resolve path₂) ↔
      (StaysBelow cnf.tmpdir name₁ ∧ StaysBelow cnf.tmpdir name₂ ∧
        ¬ (uploadDir cnf.tmpdir name₁ = uploadDir cnf.tmpdir name₂ ∧ fileName name₁ = fileName name₂ ∧
          sys₁.time % 2 ^ 32 = sys₂.time % 2 ^ 32)) := by
  rw [h₁.eq_uploadPath hn₁, h₂.eq_uploadPath hn₂, uploadPath_below hd, uploadPath_below hd, Ne, uploadPath_same hd]

/-- A request whose next part is a file with the given name and contents. -/
def sampleUpload (filename data : Bytes) : Request :=
  { (sampleConn none [] (str "Content-Disposition: form-data; name=\"n\"; filename=\"" ++ filename ++ str "\"\r\n\r\n" ++
      data ++ str "\r\n--B--\r\n")).rq with MULTI_PART_BOUNDARY := some (str "B") }

/-- What the handler writes for the part. -/
theorem sampleUpload_opens {filename data path : Bytes}
    (h : ((decode_multi_part_request_data (sampleSys []) (sampleConfig none []) (sampleUpload filename data)).toOption.any
      fun r => r.2.files = [(path, data)]) = true) :
    Opens (sampleSys []) (sampleConfig none []) (sampleUpload filename data) path := by
  obtain ⟨⟨t, rq'⟩, hr, hf⟩ := (Option.any_eq_true ..).1 h
  exact ⟨t, rq', data, Res.toOption_eq.1 hr, of_decide_eq_true hf⟩

/-- One last component in one second, in two directories. -/
theorem uploads_apart_iff_two : Within (str "/tmp/./a.0") (str "/tmp") ∧ Within (str "/tmp/x/../y/a.0") (str "/tmp") ∧
    resolve (str "/tmp/./a.0") ≠ resolve (str "/tmp/x/../y/a.0") := by
  have h₁ : Opens (sampleSys []) (sampleConfig none []) (sampleUpload (str "./a") (str "hi")) (str "/tmp/./a.0") :=
    sampleUpload_opens (by decide +kernel)
  have h₂ : Opens (sampleSys []) (sampleConfig none []) (sampleUpload (str "x/../y/a") (str "ho")) (str "/tmp/x/../y/a.0") :=
    sampleUpload_opens (by decide +kernel)
  have hn₁ : uploadName (sampleUpload (str "./a") (str "hi")) = some (str "./a") := by decide +kernel
  have hn₂ : uploadName (sampleUpload (str "x/../y/a") (str "ho")) = some (str "x/../y/a") := by decide +kernel
  have habs : (sampleConfig none []).tmpdir.head? = some 47 := by decide
  exact (uploads_apart_iff habs h₁ h₂ hn₁ hn₂).2 ⟨by decide +kernel, by decide +kernel, by decide +kernel⟩

/-- A name leads out of the directory, and two parts with one name have one path. -/
theorem uploads_escape_and_collide :
    (¬ ∀ (sys : Sys) (cnf : Config) (rq : Request) (path : Bytes), cnf.tmpdir.head? = some 47 → Opens sys cnf rq path →
      Within path cnf.tmpdir) ∧
    ¬ ∀ (sys₁ sys₂ : Sys) (cnf : Config) (rq₁ rq₂ : Request) (path₁ path₂ : Bytes), rq₁ ≠ rq₂ →
      Opens sys₁ cnf rq₁ path₁ → Opens sys₂ cnf rq₂ path₂ → path₁ ≠ path₂ := by
  constructor
  · intro hall
    have hopens : Opens (sampleSys []) (sampleConfig none []) (sampleUpload (str "../etc/x") (str "hi")) (str "/tmp/../etc/x.0") :=
      sampleUpload_opens (by decide +kernel)
    exact absurd (hall _ _ _ _ (by decide) hopens) (by decide +kernel)
  · intro hall
    have h₁ : Opens (sampleSys []) (sampleConfig none []) (sampleUpload (str "a") (str "hi")) (str "/tmp/a.0") :=
      sampleUpload_opens (by decide +kernel)
    have h₂ : Opens (sampleSys []) (sampleConfig none []) (sampleUpload (str "a") (str "ho")) (str "/tmp/a.0") :=
      sampleUpload_opens (by decide +kernel)
    refine hall _ _ _ _ _ _ _ (fun heq => ?_) h₁ h₂ rfl
    have hinput := congrArg (fun rq : Request => rq.client.input) heq
    exact absurd hinput (by decide +kernel)

end AntHttp
