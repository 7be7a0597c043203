import AntHttp.Dictionary
import AntHttp.Lib.Runs
import Mathlib.Data.List.Nodup
/-!
# The table of plugins (`plugin_manager.c`)

A plugin file that has been loaded has an entry in a hash table, and an entry
has a context for each plugin that was requested by a name of its own. The
section of a plugin in the configuration may name the file.

A context is named by the number of its allocation. A plugin may change the
status of its contexts at any time.
-/

namespace AntHttp

open CString

def HASHSIZE : Nat := 1024

def ANTD_PLUGIN_READY : Int := 0
def ANTD_PLUGIN_PANNIC : Int := 1
def ANTD_PLUGIN_INIT : Int := 2

/-- `antd_plugin_ctx_t`; the number stands for its address. -/
structure PluginCtx where
  ptr : Nat
  name : Bytes
  deriving DecidableEq

/-- `struct plugin_entry`; the handle is the path that was opened. -/
structure PluginEntry where
  name : Bytes
  handle : Bytes
  instances : Dictionary PluginCtx

/-- `plugins_dir`, `plugins_ext` and `plugins` of `g_server_config`. -/
structure PluginConfig where
  plugins_dir : Bytes
  plugins_ext : Bytes
  plugins : Dictionary (Dictionary Bytes)

structure Plugins where
  plugin_table : Nat → List PluginEntry
  /-- The number of contexts allocated. -/
  made : Nat
  /-- The contexts that have not been freed. -/
  live : List PluginCtx
  status : Nat → Int

/-- How a call fares: which files can be opened, which of the three functions
are found in one, and the status that the plugin's `create` leaves. -/
structure Loading where
  dlopen : Bytes → Bool
  dlsym : String → Bool
  create : Int

namespace Plugins

def start : Plugins := ⟨fun _ => [], 0, [], fun _ => 0⟩

/-- The entry of a chain with the name, changed. -/
def updateEntry (name : Bytes) (f : PluginEntry → PluginEntry) : List PluginEntry → List PluginEntry
  | [] => []
  | np :: next => if np.name = name then f np :: next else np :: updateEntry name f next

/-- `dput(np->instances, key, value)` for the entry `np` of a bucket. -/
def putInstance (s : Plugins) (bucket : Nat) (np : PluginEntry) (key : Bytes) (value : Option PluginCtx) : Plugins :=
  let f (np : PluginEntry) := { np with instances := np.instances.dput key value }
  { s with plugin_table := Function.update s.plugin_table bucket (updateEntry np.name f (s.plugin_table bucket)) }

def plugin_lookup (s : Plugins) (name : Bytes) : Option PluginEntry :=
  (s.plugin_table (hash name HASHSIZE)).find? (·.name = name)

def antd_plugin_ctx_drop (s : Plugins) (bucket : Nat) (np : PluginEntry) (ctx : PluginCtx) : Plugins :=
  let s := s.putInstance bucket np ctx.name none
  { s with live := s.live.erase ctx }

/-- A context is allocated. -/
def newCtx (s : Plugins) (name : Bytes) : Plugins :=
  { s with
    made := s.made + 1, live := ⟨s.made, name⟩ :: s.live
    status := Function.update s.status s.made ANTD_PLUGIN_INIT }

/-- The functions are looked up in the order handle, drop, create. -/
def antd_plugin_ctx_lookup (s : Plugins) (ld : Loading) (bucket : Nat) (np : PluginEntry) (name : Bytes) :
    Option PluginCtx × Plugins :=
  match np.instances.dvalue name with
  | some ctx => (some ctx, s)
  | none =>
    let ctx := ⟨s.made, name⟩
    let s := s.newCtx name
    if !ld.dlsym "handle" then (none, s.antd_plugin_ctx_drop bucket np ctx)
    else if !ld.dlsym "drop" then (none, s.antd_plugin_ctx_drop bucket np ctx)
    else if !ld.dlsym "create" then (none, s.antd_plugin_ctx_drop bucket np ctx)
    else if ld.create = ANTD_PLUGIN_PANNIC then (none, s.antd_plugin_ctx_drop bucket np ctx)
    else
      let s := { s with status := Function.update s.status ctx.ptr ANTD_PLUGIN_READY }
      (some ctx, s.putInstance bucket np name (some ctx))

/-- The second half of `antd_plugin_load`: the context of an entry, if it is ready. -/
def readyCtx (s : Plugins) (ld : Loading) (bucket : Nat) (np : PluginEntry) (name : Bytes) :
    Option PluginCtx × Plugins :=
  match s.antd_plugin_ctx_lookup ld bucket np name with
  | (none, s) => (none, s)
  | (some ctx, s) =>
    if s.status ctx.ptr ≠ ANTD_PLUGIN_READY then (none, s.antd_plugin_ctx_drop bucket np ctx) else (some ctx, s)

/-- The `name` setting of the plugin's section, or the name itself. -/
def plugin_file_name (cnf : PluginConfig) (name : Bytes) : Bytes :=
  ((cnf.plugins.dvalue name).bind (·.dvalue (str "name"))).getD name

def plugin_path (cnf : PluginConfig) (file : Bytes) : Bytes :=
  snprintf 1024 (cnf.plugins_dir ++ [47] ++ file ++ cnf.plugins_ext)

def antd_plugin_load (cnf : PluginConfig) (ld : Loading) (name : Bytes) (s : Plugins) : Option PluginCtx × Plugins :=
  let file := plugin_file_name cnf name
  match s.plugin_lookup file with
  | some np => s.readyCtx ld (hash file HASHSIZE) np name
  | none =>
    if !ld.dlopen (plugin_path cnf file) then (none, s)
    else
      let np : PluginEntry := ⟨file, plugin_path cnf file, .dict⟩
      let hashval := hash name HASHSIZE
      let s := { s with plugin_table := Function.update s.plugin_table hashval (np :: s.plugin_table hashval) }
      s.readyCtx ld hashval np name

/-! ## Runs -/

inductive Action where
  | load (ld : Loading) (name : Bytes)
  /-- A plugin sets the status of a context. -/
  | antd_plugin_set_status (ptr : Nat) (stat : Int)

def step (cnf : PluginConfig) : Action → Plugins → Option Plugins
  | .load ld name, s => some (s.antd_plugin_load cnf ld name).2
  | .antd_plugin_set_status ptr stat, s => some { s with status := Function.update s.status ptr stat }

/-- Every entry of the table. -/
def entries (s : Plugins) : List PluginEntry := (List.range HASHSIZE).flatMap s.plugin_table

/-- One entry a file, found by its name; one context a plugin, returned and kept while it is ready. -/
structure Kept (cnf : PluginConfig) (s : Plugins) : Prop where
  one : (s.entries.map (·.name)).Nodup
  found : ∀ np ∈ s.entries, s.plugin_lookup np.name = some np
  unique : (s.live.map (·.name)).Nodup
  same : ∀ ctx ∈ s.live, s.status ctx.ptr = ANTD_PLUGIN_READY → ∀ ld ctx',
    (s.antd_plugin_load cnf ld ctx.name).1 = some ctx' → ctx' = ctx
  stays : ∀ ctx ∈ s.live, s.status ctx.ptr = ANTD_PLUGIN_READY → ∀ ld name, ctx ∈ (s.antd_plugin_load cnf ld name).2.live

/-- A file is only loaded for a name that falls into the bucket of the file's name. -/
def SameBucket (cnf : PluginConfig) : Action → Plugins → Prop
  | .load ld name, s =>
    let file := plugin_file_name cnf name
    s.plugin_lookup file = none → ld.dlopen (plugin_path cnf file) = true → hash name HASHSIZE = hash file HASHSIZE
  | .antd_plugin_set_status .., _ => True

/-! ## The invariant -/

structure Inv (cnf : PluginConfig) (s : Plugins) : Prop where
  placed : ∀ b, ∀ np ∈ s.plugin_table b, hash np.name HASHSIZE = b
  distinct : ∀ b, ((s.plugin_table b).map (·.name)).Nodup
  /-- What an entry lists is a live context of a plugin that the file is for. -/
  listed : ∀ b, ∀ np ∈ s.plugin_table b, ∀ key ctx, np.instances.dvalue key = some ctx →
    ctx ∈ s.live ∧ ctx.name = key ∧ plugin_file_name cnf key = np.name
  held : ∀ ctx ∈ s.live, ∃ b, ∃ np ∈ s.plugin_table b, np.instances.dvalue ctx.name = some ctx
  known : ∀ ctx ∈ s.live, ctx.ptr < s.made
  once : s.live.Nodup

section Chains

variable {f : PluginEntry → PluginEntry} {np e : PluginEntry} {l : List PluginEntry}

theorem updateEntry_names (hf : ∀ np, (f np).name = np.name) (name : Bytes) (l : List PluginEntry) :
    (updateEntry name f l).map (·.name) = l.map (·.name) := by
  induction l with
  | nil => rfl
  | cons np next ih =>
    unfold updateEntry
    split
    · simp [hf]
    · simp [ih]

/-- With one entry a name, that entry is the one that changes. -/
theorem mem_updateEntry (hl : (l.map (·.name)).Nodup) (hnp : np ∈ l) :
    e ∈ updateEntry np.name f l ↔ e = f np ∨ (e ∈ l ∧ e ≠ np) := by
  induction l with
  | nil => cases hnp
  | cons a next ih =>
    rw [List.map_cons, List.nodup_cons] at hl
    have hne : ∀ b ∈ next, b.name ≠ a.name := by
      intro b hb he
      exact hl.1 (he ▸ List.mem_map_of_mem hb)
    unfold updateEntry
    by_cases ha : a = np
    · subst ha
      have hmem : ∀ b ∈ next, b ≠ a := fun b hb he => hne b hb (by rw [he])
      rw [if_pos rfl, List.mem_cons, List.mem_cons]
      constructor
      · rintro (he | he)
        · exact .inl he
        · exact .inr ⟨.inr he, hmem e he⟩
      · rintro (he | ⟨he, hea⟩)
        · exact .inl he
        · exact .inr (he.resolve_left hea)
    · have hnext : np ∈ next := (List.mem_cons.1 hnp).resolve_left (Ne.symm ha)
      rw [if_neg (Ne.symm (hne np hnext)), List.mem_cons, List.mem_cons, ih hl.2 hnext]
      constructor
      · rintro (rfl | he | he)
        · exact .inr ⟨.inl rfl, ha⟩
        · exact .inl he
        · exact .inr ⟨.inr he.1, he.2⟩
      · rintro (he | ⟨rfl | he, hne⟩)
        · exact .inr (.inl he)
        · exact .inl rfl
        · exact .inr (.inr ⟨he, hne⟩)

end Chains

section Preserved

variable {cnf : PluginConfig} {s s' : Plugins} {np e : PluginEntry} {b : Nat} {key : Bytes} {value : Option PluginCtx}

/-- The entry with a name is in the bucket of the name. -/
theorem Inv.eq_of_name (h : Inv cnf s) {b' : Nat} (hnp : np ∈ s.plugin_table b) (he : e ∈ s.plugin_table b')
    (hn : e.name = np.name) : e = np := by
  obtain rfl : b' = b := by rw [← h.placed b' e he, hn, h.placed b np hnp]
  exact List.inj_on_of_nodup_map (h.distinct b') he hnp hn

theorem Inv.lookup (h : Inv cnf s) (hnp : np ∈ s.plugin_table b) : s.plugin_lookup np.name = some np := by
  unfold plugin_lookup
  rw [h.placed b np hnp]
  cases hf : (s.plugin_table b).find? (·.name = np.name) with
  | none => simpa using List.find?_eq_none.1 hf np hnp
  | some e =>
    have hn : e.name = np.name := by simpa using List.find?_some hf
    rw [h.eq_of_name hnp (List.mem_of_find?_eq_some hf) hn]

/-- An entry found has the name, and is in the bucket of the name. -/
theorem lookup_mem {name : Bytes} (hs : s.plugin_lookup name = some np) :
    np ∈ s.plugin_table (hash name HASHSIZE) ∧ np.name = name :=
  ⟨List.mem_of_find?_eq_some hs, by simpa using List.find?_some hs⟩

/-- The entries after a `dput` in one of them. -/
theorem mem_putInstance (h : Inv cnf s) (hnp : np ∈ s.plugin_table b) {b' : Nat} :
    e ∈ (s.putInstance b np key value).plugin_table b' ↔
      (b' = b ∧ e = { np with instances := np.instances.dput key value }) ∨ (e ∈ s.plugin_table b' ∧ e ≠ np) := by
  unfold putInstance
  dsimp only
  by_cases hb : b' = b
  · subst hb
    rw [Function.update_self, mem_updateEntry (h.distinct b') hnp]
    simp
  · rw [Function.update_of_ne hb]
    have hne : e ∈ s.plugin_table b' → e ≠ np := by
      rintro he rfl
      exact hb (by rw [← h.placed b' e he, h.placed b e hnp])
    simp [hb]
    exact hne

/-- The context of one name in one entry changes, and the live contexts with it. -/
theorem Inv.put (h : Inv cnf s) (hnp : np ∈ s.plugin_table b) (hkey : plugin_file_name cnf key = np.name)
    (htable : s'.plugin_table = (s.putInstance b np key value).plugin_table) (hval : ∀ ctx ∈ value, ctx.name = key)
    (hlive : ∀ ctx, ctx ∈ s'.live ↔ (ctx ∈ s.live ∧ np.instances.dvalue key ≠ some ctx) ∨ value = some ctx)
    (hknown : ∀ ctx ∈ s'.live, ctx.ptr < s'.made) (honce : s'.live.Nodup) : Inv cnf s' where
  placed b' e he := by
    rw [htable, mem_putInstance h hnp] at he
    rcases he with ⟨rfl, rfl⟩ | ⟨he, -⟩
    · exact h.placed b' np hnp
    · exact h.placed b' e he
  distinct b' := by
    rw [htable]
    unfold putInstance
    dsimp only
    by_cases hb : b' = b
    · subst hb
      rw [Function.update_self, updateEntry_names]
      · exact h.distinct b'
      · intro np
        rfl
    · rw [Function.update_of_ne hb]
      exact h.distinct b'
  listed b' e he k ctx hk := by
    rw [htable, mem_putInstance h hnp] at he
    rw [hlive]
    rcases he with ⟨rfl, rfl⟩ | ⟨he, hne⟩
    -- the entry that changes: its key, or another one
    · rw [Dictionary.dvalue_dput] at hk
      split at hk
      · rename_i hkk
        subst hkk
        exact ⟨.inr hk, hval ctx hk, hkey⟩
      · rename_i hkk
        obtain ⟨hl, hn, hf⟩ := h.listed b' np hnp k ctx hk
        refine ⟨.inl ⟨hl, fun hc => hkk ?_⟩, hn, hf⟩
        rw [← hn, (h.listed b' np hnp key ctx hc).2.1]
    -- a context of another entry cannot be the one that is replaced: the file name tells them apart
    · obtain ⟨hl, hn, hf⟩ := h.listed b' e he k ctx hk
      refine ⟨.inl ⟨hl, fun hc => hne ?_⟩, hn, hf⟩
      obtain ⟨-, hn', hf'⟩ := h.listed b np hnp key ctx hc
      exact h.eq_of_name hnp he (by rw [← hf, ← hf', ← hn, ← hn'])
  held ctx hctx := by
    rcases (hlive ctx).1 hctx with ⟨hl, hne⟩ | hv
    · obtain ⟨b', e, he, hd⟩ := h.held ctx hl
      by_cases hnp' : e = np
      · subst hnp'
        have hb : b' = b := by rw [← h.placed b' e he, h.placed b e hnp]
        refine ⟨b, _, htable ▸ (mem_putInstance h hnp).2 (.inl ⟨rfl, rfl⟩), ?_⟩
        have hk : ctx.name ≠ key := fun hk => hne (hk ▸ hd)
        rw [Dictionary.dvalue_dput, if_neg hk, hd]
      · exact ⟨b', e, htable ▸ (mem_putInstance h hnp).2 (.inr ⟨he, hnp'⟩), hd⟩
    · refine ⟨b, _, htable ▸ (mem_putInstance h hnp).2 (.inl ⟨rfl, rfl⟩), ?_⟩
      rw [hval ctx hv, Dictionary.dvalue_dput_self, hv]
  known := hknown
  once := honce

theorem dvalue_dict (key : Bytes) : (Dictionary.dict : Dictionary PluginCtx).dvalue key = none := by
  have hb : (Dictionary.dict : Dictionary PluginCtx).bucket key = [] := by
    unfold Dictionary.bucket Dictionary.dict Dictionary.dict_n
    rw [List.getD_eq_getElem?_getD, List.getElem?_replicate]
    split <;> rfl
  simp [Dictionary.dvalue, Dictionary.dlookup, hb]

theorem mem_update {l : Nat → List PluginEntry} {b' : Nat} :
    e ∈ Function.update l b (np :: l b) b' ↔ (b' = b ∧ e = np) ∨ e ∈ l b' := by
  by_cases hb : b' = b
  · subst hb
    simp
  · simp [hb]

/-- A file is loaded. -/
theorem Inv.entry {file handle : Bytes} (h : Inv cnf s) (hs : s.plugin_lookup file = none)
    (hb : b = hash file HASHSIZE) :
    Inv cnf { s with plugin_table := Function.update s.plugin_table b (⟨file, handle, .dict⟩ :: s.plugin_table b) } where
  placed b' e he := by
    rcases mem_update.1 he with ⟨rfl, rfl⟩ | he
    · exact hb.symm
    · exact h.placed b' e he
  distinct b' := by
    dsimp only
    by_cases hbb : b' = b
    · subst hbb
      rw [Function.update_self, List.map_cons, List.nodup_cons]
      refine ⟨fun hm => ?_, h.distinct b'⟩
      obtain ⟨e, he, hn⟩ := List.mem_map.1 hm
      have hne := List.find?_eq_none.1 hs e (hb ▸ he)
      exact hne (by simpa using hn)
    · rw [Function.update_of_ne hbb]
      exact h.distinct b'
  listed b' e he k ctx hk := by
    rcases mem_update.1 he with ⟨rfl, rfl⟩ | he
    · rw [dvalue_dict] at hk
      cases hk
    · exact h.listed b' e he k ctx hk
  held ctx hctx := by
    obtain ⟨b', e, he, hd⟩ := h.held ctx hctx
    exact ⟨b', e, mem_update.2 (.inr he), hd⟩
  known := h.known
  once := h.once

/-- The status of a context is nothing to the table. -/
theorem Inv.set_status (h : Inv cnf s) (status : Nat → Int) : Inv cnf { s with status } :=
  ⟨h.placed, h.distinct, h.listed, h.held, h.known, h.once⟩

end Preserved

/-! ## One call -/

section Calls

variable {cnf : PluginConfig} {s : Plugins} {np : PluginEntry} {b : Nat} {name : Bytes} {ld : Loading}

/-- A listed context is freed. -/
theorem Inv.drop {ctx : PluginCtx} (h : Inv cnf s) (hnp : np ∈ s.plugin_table b)
    (hd : np.instances.dvalue name = some ctx) : Inv cnf (s.antd_plugin_ctx_drop b np ctx) := by
  obtain ⟨-, hn, hf⟩ := h.listed b np hnp name ctx hd
  subst hn
  have htable : (s.antd_plugin_ctx_drop b np ctx).plugin_table = (s.putInstance b np ctx.name none).plugin_table := rfl
  apply h.put hnp hf htable (by rintro _ ⟨⟩)
  · intro c
    change c ∈ s.live.erase ctx ↔ _
    rw [h.once.mem_erase_iff, hd]
    simp [and_comm, eq_comm]
  · intro c hc
    exact h.known c (List.mem_of_mem_erase hc)
  · exact h.once.erase ctx

/-- A new context is freed again. -/
theorem Inv.drop_new (h : Inv cnf s) (hnp : np ∈ s.plugin_table b) (hname : plugin_file_name cnf name = np.name)
    (hd : np.instances.dvalue name = none) : Inv cnf ((s.newCtx name).antd_plugin_ctx_drop b np ⟨s.made, name⟩) := by
  have htable : ((s.newCtx name).antd_plugin_ctx_drop b np ⟨s.made, name⟩).plugin_table =
    (s.putInstance b np name none).plugin_table := rfl
  have hlive : ((s.newCtx name).antd_plugin_ctx_drop b np ⟨s.made, name⟩).live = s.live := List.erase_cons_head ..
  apply h.put hnp hname htable (by rintro _ ⟨⟩)
  · intro c
    rw [hlive, hd]
    simp
  · intro c hc
    rw [hlive] at hc
    exact (h.known c hc).trans (Nat.lt_succ_self _)
  · rw [hlive]
    exact h.once

/-- The state in which a new context is listed, and ready. -/
def created (s : Plugins) (b : Nat) (np : PluginEntry) (name : Bytes) : Plugins :=
  putInstance { s.newCtx name with status := Function.update (s.newCtx name).status s.made ANTD_PLUGIN_READY } b np name
    (some ⟨s.made, name⟩)

theorem Inv.created (h : Inv cnf s) (hnp : np ∈ s.plugin_table b) (hname : plugin_file_name cnf name = np.name)
    (hd : np.instances.dvalue name = none) : Inv cnf (s.created b np name) := by
  have htable : (s.created b np name).plugin_table =
    (s.putInstance b np name (some ⟨s.made, name⟩)).plugin_table := rfl
  apply h.put hnp hname htable (by rintro _ ⟨⟩; rfl)
  · intro c
    change c ∈ _ :: s.live ↔ _
    rw [hd, List.mem_cons]
    simp [or_comm, eq_comm]
  · intro c hc
    rcases List.mem_cons.1 hc with rfl | hc
    · exact Nat.lt_succ_self _
    · exact (h.known c hc).trans (Nat.lt_succ_self _)
  · exact List.nodup_cons.2 ⟨fun hm => (h.known _ hm).ne rfl, h.once⟩

/-- A plugin that has a context gets it, or loses it because it is not ready. -/
theorem readyCtx_some {ctx : PluginCtx} (hd : np.instances.dvalue name = some ctx) :
    s.readyCtx ld b np name =
      if s.status ctx.ptr ≠ ANTD_PLUGIN_READY then (none, s.antd_plugin_ctx_drop b np ctx) else (some ctx, s) := by
  unfold readyCtx antd_plugin_ctx_lookup
  rw [hd]

/-- Another plugin gets a new one, unless something goes wrong. -/
theorem readyCtx_none (s : Plugins) (ld : Loading) (b : Nat) (hd : np.instances.dvalue name = none) :
    s.readyCtx ld b np name = (none, (s.newCtx name).antd_plugin_ctx_drop b np ⟨s.made, name⟩) ∨
      s.readyCtx ld b np name = (some ⟨s.made, name⟩, s.created b np name) := by
  unfold readyCtx antd_plugin_ctx_lookup
  rw [hd]
  dsimp only
  split_ifs
  iterate 4 exact .inl rfl
  right
  simp [putInstance]
  rfl

theorem readyCtx_inv (h : Inv cnf s) (hnp : np ∈ s.plugin_table b) (hname : plugin_file_name cnf name = np.name) :
    Inv cnf (s.readyCtx ld b np name).2 := by
  cases hd : np.instances.dvalue name with
  | some ctx =>
    rw [readyCtx_some hd]
    split
    · exact h.drop hnp hd
    · exact h
  | none =>
    rcases readyCtx_none s ld b hd with hr | hr
    · rw [hr]
      exact h.drop_new hnp hname hd
    · rw [hr]
      exact h.created hnp hname hd

/-- A context that is ready is not freed. -/
theorem readyCtx_live {ctx : PluginCtx} (hctx : ctx ∈ s.live)
    (hst : s.status ctx.ptr = ANTD_PLUGIN_READY) : ctx ∈ (s.readyCtx ld b np name).2.live := by
  cases hd : np.instances.dvalue name with
  | some ctx' =>
    rw [readyCtx_some hd]
    split
    · rename_i hst'
      have hne : ctx ≠ ctx' := fun he => hst' (he ▸ hst)
      exact (List.mem_erase_of_ne hne).2 hctx
    · exact hctx
  | none =>
    rcases readyCtx_none s ld b hd with hr | hr
    · have hlive : ((s.newCtx name).antd_plugin_ctx_drop b np ⟨s.made, name⟩).live = s.live :=
        List.erase_cons_head ..
      rw [hr, hlive]
      exact hctx
    · rw [hr]
      exact List.mem_cons_of_mem _ hctx

theorem load_inv (h : Inv cnf s) (hb : SameBucket cnf (.load ld name) s) : Inv cnf (s.antd_plugin_load cnf ld name).2 := by
  unfold antd_plugin_load
  dsimp only
  cases hs : s.plugin_lookup (plugin_file_name cnf name) with
  | some np =>
    obtain ⟨hm, hn⟩ := lookup_mem hs
    exact readyCtx_inv h hm hn.symm
  | none =>
    dsimp only
    split
    · exact h
    · rename_i hopen
      have hb := hb hs (by simpa using hopen)
      exact readyCtx_inv (h.entry hs hb) (mem_update.2 (.inl ⟨rfl, rfl⟩)) rfl

theorem load_live {ctx : PluginCtx} (hctx : ctx ∈ s.live)
    (hst : s.status ctx.ptr = ANTD_PLUGIN_READY) : ctx ∈ (s.antd_plugin_load cnf ld name).2.live := by
  unfold antd_plugin_load
  dsimp only
  cases hs : s.plugin_lookup (plugin_file_name cnf name) with
  | some np => exact readyCtx_live hctx hst
  | none =>
    dsimp only
    split
    · exact hctx
    · apply readyCtx_live
      · exact hctx
      · exact hst

end Calls

/-! ## Every run -/

section Runs

variable {cnf : PluginConfig} {s s' : Plugins}

theorem inv_start : Inv cnf start where
  placed := by rintro b np ⟨⟩
  distinct b := List.nodup_nil
  listed := by rintro b np ⟨⟩
  held := by rintro ctx ⟨⟩
  known := by rintro ctx ⟨⟩
  once := List.nodup_nil

theorem inv_step {a : Action} (h : Inv cnf s) (ha : SameBucket cnf a s) (hs : step cnf a s = some s') : Inv cnf s' := by
  cases a with
  | load ld name =>
    cases hs
    exact load_inv h ha
  | antd_plugin_set_status ptr stat =>
    cases hs
    exact h.set_status _

/-- The live contexts of one plugin are one. -/
theorem Inv.live_eq (h : Inv cnf s) {ctx ctx' : PluginCtx} (hc : ctx ∈ s.live) (hc' : ctx' ∈ s.live)
    (hn : ctx.name = ctx'.name) : ctx = ctx' := by
  obtain ⟨b, np, hnp, hd⟩ := h.held ctx hc
  obtain ⟨b', np', hnp', hd'⟩ := h.held ctx' hc'
  have hf := (h.listed b np hnp _ _ hd).2.2
  have hf' := (h.listed b' np' hnp' _ _ hd').2.2
  have he : np' = np := h.eq_of_name hnp hnp' (by rw [← hf, ← hf', hn])
  rw [he, ← hn, hd] at hd'
  exact Option.some.inj hd'

theorem Inv.kept (h : Inv cnf s) : Kept cnf s where
  one := by
    unfold entries
    rw [List.map_flatMap, List.nodup_flatMap]
    constructor
    · intro b _
      exact h.distinct b
    · apply List.nodup_range.imp
      intro b b' hne name hm hm'
      obtain ⟨np, hnp, rfl⟩ := List.mem_map.1 hm
      obtain ⟨np', hnp', hn⟩ := List.mem_map.1 hm'
      apply hne
      rw [← h.placed b np hnp, ← h.placed b' np' hnp', hn]
  found np hnp := by
    obtain ⟨b, -, hb⟩ := List.mem_flatMap.1 hnp
    exact h.lookup hb
  unique := List.Nodup.map_on (fun ctx hc ctx' hc' hn => h.live_eq hc hc' hn) h.once
  same ctx hc hst ld ctx' hl := by
    obtain ⟨b, np, hnp, hd⟩ := h.held ctx hc
    have hf := (h.listed b np hnp _ _ hd).2.2
    unfold antd_plugin_load at hl
    dsimp only at hl
    rw [hf, h.lookup hnp] at hl
    dsimp only at hl
    rw [readyCtx_some hd, if_neg (not_not.2 hst)] at hl
    exact (Option.some.inj hl).symm
  stays ctx hc hst ld name := load_live hc hst

/-- As long as every file is loaded into the bucket of its own name. -/
theorem kept_of_sameBucket (h : Runs.Run (step cnf) (SameBucket cnf) (· = start) s) : Kept cnf s :=
  (h.inv (Inv cnf) (by rintro _ rfl; exact inv_start) fun _ _ _ hi ha hs => inv_step hi ha hs).kept

/-- Everything can be loaded. -/
def allLoaded : Loading := ⟨fun _ => true, fun _ => true, ANTD_PLUGIN_READY⟩

def noSections : PluginConfig := ⟨str "plugins/", str ".so", .dict⟩

/-- Two plugins, each in a file of its own. -/
theorem kept_of_sameBucket_two : ∃ s, s.live.length = 2 ∧ Kept noSections s := by
  have h0 : Runs.Run (step noSections) (SameBucket noSections) (· = start) start := .init rfl
  have h1 := h0.step (i := Action.load allLoaded (str "chat")) (fun _ _ => rfl) rfl
  have h2 := h1.step (i := Action.load allLoaded (str "wiki")) (fun _ _ => rfl) rfl
  exact ⟨_, by decide +kernel, kept_of_sameBucket h2⟩

/-- The section of `wiki` names the file `pages`. -/
def namedFile : PluginConfig :=
  ⟨str "plugins/", str ".so",
    Dictionary.dict.dput (str "wiki") (some (Dictionary.dict.dput (str "name") (some (str "pages"))))⟩

/-- The file is loaded once more by the second request, and there are two contexts. -/
theorem loaded_twice : ¬ ∀ cnf s, Runs.Reachable (step cnf) (· = start) s → Kept cnf s := by
  intro hall
  have hrun : ((Runs.runAll (step namedFile) [.load allLoaded (str "wiki"), .load allLoaded (str "wiki")] start).any
      fun s => decide ¬ (s.live.map (·.name)).Nodup) = true := by decide +kernel
  obtain ⟨s, hs, hp⟩ := Runs.ends_in hrun
  exact hp (hall namedFile s (Runs.reachable_runAll (.init rfl) hs)).unique

end Runs

end Plugins

end AntHttp
