import AntHttp.PluginManager
import AntHttp.Lib.Resources
/-!
# Unloading the plugins (`plugin_manager.c`)

The log lists the calls that are made of the files and for the contexts, from
the first request of a plugin until every plugin is unloaded. Each of them is
allowed when it is made, also where a file is loaded more than once, and
nothing is left in the end.
-/

namespace AntHttp

open CString Resources

namespace Dictionary

variable {α : Type}

/-- The values that `freedict` frees. -/
def freedict_frees (d : Dictionary α) : List α := d.assocs.filterMap (·.2)

/-- In a chain, a value takes the place of the one before. -/
theorem filterMap_chainPut (key : Bytes) (value : Option α) (c : Chain α) :
    (((c.find? fun np => np.1 = key).bind Prod.snd).toList ++ (chainPut key value c).filterMap (·.2)).Perm
      (value.toList ++ c.filterMap (·.2)) := by
  induction c with
  | nil => cases value <;> exact .refl _
  | cons np it ih =>
    obtain ⟨k, v⟩ := np
    unfold chainPut
    split
    · rename_i hk
      rw [List.find?_cons_of_pos (by simpa using hk)]
      cases v <;> cases value <;> first | exact .refl _ | exact .swap ..
    · rename_i hk
      rw [List.find?_cons_of_neg (by simpa using hk)]
      cases v with
      | none => exact ih
      | some v => exact List.perm_middle.trans ((ih.cons v).trans List.perm_middle.symm)

theorem freedict_frees_dput (d : Dictionary α) (key : Bytes) (value : Option α) :
    ((d.dvalue key).toList ++ (d.dput key value).freedict_frees).Perm (value.toList ++ d.freedict_frees) := by
  have hold := (flatten_perm (d.hash_lt key)).filterMap (·.2)
  have hnew := (flatten_set_perm (d.hash_lt key) (chainPut key value (d.bucket key))).filterMap (·.2)
  rw [List.filterMap_append] at hold hnew
  refine (hnew.append_left _).trans (.trans ?_ (hold.append_left _).symm)
  rw [← List.append_assoc, ← List.append_assoc]
  exact (filterMap_chainPut key value (d.bucket key)).append_right _

theorem mem_freedict_frees {d : Dictionary α} {key : Bytes} {v : α} (h : d.dvalue key = some v) :
    v ∈ d.freedict_frees := by
  apply (d.freedict_frees_dput key none).subset
  rw [h]
  exact List.mem_cons_self

theorem freedict_frees_nil {d : Dictionary α} (hd : Keyed d) (h : ∀ key ∈ keys d.assocs, d.dvalue key = none) :
    d.freedict_frees = [] := by
  rw [freedict_frees, List.filterMap_eq_nil_iff]
  intro np hnp
  have hv := h np.1 (List.mem_map_of_mem hnp)
  rwa [dvalue, hd.dlookup_of_mem hnp] at hv

end Dictionary

/-! ## The calls -/

/-- The plugins, and the calls made so far of their files and for their contexts. -/
structure Ledger where
  plugins : Plugins
  log : List (Event Bytes PluginCtx)

namespace Ledger

def start : Ledger := ⟨.start, []⟩

def call (l : Ledger) (e : Event Bytes PluginCtx) : Ledger := { l with log := l.log ++ [e] }

/-- The plugin's `drop` is called if it was found. -/
def antd_plugin_ctx_drop (l : Ledger) (drop : Bool) (bucket : Nat) (np : PluginEntry) (ctx : PluginCtx) : Ledger :=
  let l := if drop then l.call (.drop np.handle ctx) else l
  { l with plugins := l.plugins.antd_plugin_ctx_drop bucket np ctx }.call (.free ctx)

def antd_plugin_ctx_lookup (l : Ledger) (ld : Loading) (bucket : Nat) (np : PluginEntry) (name : Bytes) :
    Option PluginCtx × Ledger :=
  match np.instances.dvalue name with
  | some ctx => (some ctx, l)
  | none =>
    let ctx := ⟨l.plugins.made, name⟩
    let l := { l with plugins := l.plugins.newCtx name }.call (.alloc ctx)
    if !ld.dlsym "handle" then (none, l.antd_plugin_ctx_drop false bucket np ctx)
    else if !ld.dlsym "drop" then (none, l.antd_plugin_ctx_drop false bucket np ctx)
    else if !ld.dlsym "create" then (none, l.antd_plugin_ctx_drop true bucket np ctx)
    else
      let l := l.call (.create np.handle ctx)
      if ld.create = ANTD_PLUGIN_PANNIC then (none, l.antd_plugin_ctx_drop true bucket np ctx)
      else
        let s := { l.plugins with status := Function.update l.plugins.status ctx.ptr ANTD_PLUGIN_READY }
        (some ctx, { l with plugins := s.putInstance bucket np name (some ctx) })

/-- A context that is in the table has a `drop`. -/
def readyCtx (l : Ledger) (ld : Loading) (bucket : Nat) (np : PluginEntry) (name : Bytes) :
    Option PluginCtx × Ledger :=
  match l.antd_plugin_ctx_lookup ld bucket np name with
  | (none, l) => (none, l)
  | (some ctx, l) =>
    if l.plugins.status ctx.ptr ≠ ANTD_PLUGIN_READY then (none, l.antd_plugin_ctx_drop true bucket np ctx)
    else (some ctx, l)

def setBucket (l : Ledger) (bucket : Nat) (chain : List PluginEntry) : Ledger :=
  { l with plugins := { l.plugins with plugin_table := Function.update l.plugins.plugin_table bucket chain } }

def antd_plugin_load (cnf : PluginConfig) (ld : Loading) (name : Bytes) (l : Ledger) : Option PluginCtx × Ledger :=
  let file := Plugins.plugin_file_name cnf name
  let path := Plugins.plugin_path cnf file
  match l.plugins.plugin_lookup file with
  | some np => l.readyCtx ld (hash file HASHSIZE) np name
  | none =>
    if !ld.dlopen path then (none, l)
    else
      let np : PluginEntry := ⟨file, path, .dict⟩
      let hashval := hash name HASHSIZE
      ((l.call (.opens path)).setBucket hashval (np :: l.plugins.plugin_table hashval)).readyCtx ld hashval np name

/-! ## Unloading -/

/-- A turn of the loop over the associations of an entry; `dput` leaves them where they are. -/
def dropInstance (ln : Ledger × PluginEntry) (key : Bytes) : Ledger × PluginEntry :=
  match ln.2.instances.dvalue key with
  | none => ln
  | some ctx =>
    ({ plugins := { ln.1.plugins with live := ln.1.plugins.live.erase ctx }
       log := ln.1.log ++ [.drop ln.2.handle ctx, .free ctx] },
      { ln.2 with instances := ln.2.instances.dput ctx.name none })

/-- The instances are dropped, then `freedict` frees what they still hold, then the file is closed. -/
def antd_plugin_entry_drop (l : Ledger) (np : PluginEntry) : Ledger :=
  let ln := (Dictionary.keys np.instances.assocs).foldl dropInstance (l, np)
  let frees := ln.2.instances.freedict_frees
  { plugins := { ln.1.plugins with live := ln.1.plugins.live.diff frees }
    log := ln.1.log ++ frees.map .free ++ [.closes np.handle] }

/-- Each entry is taken out of the bucket and dropped. -/
def unloadChain (bucket : Nat) : List PluginEntry → Ledger → Ledger
  | [], l => l.setBucket bucket []
  | curr :: next, l => unloadChain bucket next ((l.setBucket bucket next).antd_plugin_entry_drop curr)

/-- The first `n` buckets are emptied. -/
def unloadBuckets (n : Nat) (l : Ledger) : Ledger :=
  (List.range n).foldl (fun l i => unloadChain i (l.plugins.plugin_table i) l) l

def antd_unload_all_plugin (l : Ledger) : Ledger := l.unloadBuckets HASHSIZE

def act (cnf : PluginConfig) (l : Ledger) : Plugins.Action → Ledger
  | .load ld name => (l.antd_plugin_load cnf ld name).2
  | .antd_plugin_set_status ptr stat =>
    { l with plugins := { l.plugins with status := Function.update l.plugins.status ptr stat } }

/-! ### The plugins of the ledger -/

section

variable (cnf : PluginConfig) (l : Ledger) (ld : Loading) (bucket : Nat) (np : PluginEntry) (name : Bytes)

theorem ctx_drop_plugins (drop : Bool) (ctx : PluginCtx) :
    (l.antd_plugin_ctx_drop drop bucket np ctx).plugins = l.plugins.antd_plugin_ctx_drop bucket np ctx := by
  cases drop <;> rfl

theorem ctx_lookup_plugins :
    ((l.antd_plugin_ctx_lookup ld bucket np name).1, (l.antd_plugin_ctx_lookup ld bucket np name).2.plugins) =
      l.plugins.antd_plugin_ctx_lookup ld bucket np name := by
  unfold antd_plugin_ctx_lookup Plugins.antd_plugin_ctx_lookup
  cases np.instances.dvalue name with
  | some ctx => rfl
  | none =>
    dsimp only
    split_ifs <;> rfl

theorem readyCtx_plugins : ((l.readyCtx ld bucket np name).1, (l.readyCtx ld bucket np name).2.plugins) =
    l.plugins.readyCtx ld bucket np name := by
  unfold readyCtx Plugins.readyCtx
  rw [← ctx_lookup_plugins]
  cases l.antd_plugin_ctx_lookup ld bucket np name with
  | mk ctx l =>
    cases ctx with
    | none => rfl
    | some ctx =>
      dsimp only
      split <;> rfl

/-- The calls apart, the plugins are loaded as they are. -/
theorem load_plugins : ((l.antd_plugin_load cnf ld name).1, (l.antd_plugin_load cnf ld name).2.plugins) =
    l.plugins.antd_plugin_load cnf ld name := by
  unfold antd_plugin_load Plugins.antd_plugin_load
  dsimp only
  cases l.plugins.plugin_lookup (Plugins.plugin_file_name cnf name) with
  | some np => exact readyCtx_plugins ..
  | none =>
    dsimp only
    split
    · rfl
    · exact readyCtx_plugins ..

end

theorem act_plugins (cnf : PluginConfig) (l : Ledger) (a : Plugins.Action) :
    Plugins.step cnf a l.plugins = some (l.act cnf a).plugins := by
  cases a with
  | load ld name => exact congrArg (fun r => some r.2) (load_plugins cnf l ld name).symm
  | antd_plugin_set_status ptr stat => rfl

/-- A run of the ledger is one of the plugins. -/
theorem run_plugins (cnf : PluginConfig) (actions : List Plugins.Action) (l : Ledger) :
    Runs.runAll (Plugins.step cnf) actions l.plugins = some (actions.foldl (act cnf) l).plugins := by
  induction actions generalizing l with
  | nil => rfl
  | cons a actions ih =>
    rw [Runs.runAll, act_plugins, Option.bind_some, ih]
    rfl

/-! ## Keeping accounts -/

/-- Each entry's file is open, and each context that was begun is not ended. -/
def held (es : List PluginEntry) (live : List PluginCtx) : Custody Bytes PluginCtx where
  opened path := es.countP (·.handle = path)
  stage ctx := if ctx ∈ live then some .created else none

/-- The log of calls leads to the files of the entries and to the contexts that they list, each listed once. -/
structure Accounts (es : List PluginEntry) (live : List PluginCtx) (log : List (Event Bytes PluginCtx)) : Prop where
  accepted : Custody.Accepts log .nothing (held es live)
  keyed : ∀ np ∈ es, Dictionary.Keyed np.instances
  named : ∀ np ∈ es, ∀ key ctx, np.instances.dvalue key = some ctx → ctx.name = key
  listed : (es.flatMap fun np => np.instances.freedict_frees).Perm live
  once : live.Nodup

theorem held_put (np : PluginEntry) (instances : Dictionary PluginCtx) (es : List PluginEntry)
    (live : List PluginCtx) :
    held ({ np with instances } :: es) live = held (np :: es) live := by
  simp [held, List.countP_cons]

theorem held_none {es : List PluginEntry} {live : List PluginCtx} {ctx : PluginCtx} (h : ctx ∉ live) :
    (held es live).stage ctx = none := by
  simp [held, h]

theorem held_some {es : List PluginEntry} {live : List PluginCtx} {ctx : PluginCtx} (h : ctx ∈ live) :
    (held es live).stage ctx = some .created := by
  simp [held, h]

/-- An entry has its file open once more. -/
theorem held_open (np : PluginEntry) (es : List PluginEntry) (live : List PluginCtx) (path : Bytes) :
    (held (np :: es) live).opened path =
      if path = np.handle then (held es live).opened np.handle + 1 else (held es live).opened path := by
  simp only [held, List.countP_cons]
  by_cases hp : path = np.handle
  · simp [hp]
  · simp [hp, Ne.symm hp]

theorem held_opened (np : PluginEntry) (es : List PluginEntry) (live : List PluginCtx) :
    0 < (held (np :: es) live).opened np.handle := by
  rw [held_open, if_pos rfl]
  exact Nat.succ_pos _

theorem held_cons (es : List PluginEntry) (live : List PluginCtx) (ctx : PluginCtx) :
    (held es live).set ctx (some .created) = held es (ctx :: live) := by
  refine Custody.ext rfl (funext fun c => ?_)
  rw [Custody.set_stage, held, held]
  by_cases hc : c = ctx <;> simp [hc]

theorem held_erase {live : List PluginCtx} (h : live.Nodup) (es : List PluginEntry) (ctx : PluginCtx) :
    (held es live).set ctx none = held es (live.erase ctx) := by
  refine Custody.ext rfl (funext fun c => ?_)
  rw [Custody.set_stage, held, held]
  by_cases hc : c = ctx <;> simp [hc, h.mem_erase_iff]

section

variable {es es' : List PluginEntry} {live : List PluginCtx} {log : List (Event Bytes PluginCtx)} {np : PluginEntry}
  {key : Bytes} {ctx : PluginCtx}

theorem Accounts.start : Accounts [] [] [] where
  accepted := rfl
  keyed := by simp
  named := by simp
  listed := .refl _
  once := .nil

theorem Accounts.perm (h : Accounts es live log) (hp : es.Perm es') : Accounts es' live log where
  accepted := by
    have hheld : held es' live = held es live := Custody.ext (funext fun path => (hp.countP_eq _).symm) rfl
    rw [hheld]
    exact h.accepted
  keyed np hnp := h.keyed np (hp.symm.subset hnp)
  named np hnp := h.named np (hp.symm.subset hnp)
  listed := (hp.flatMap_right _).symm.trans h.listed
  once := h.once

/-- A value of an entry takes the place of the one before. -/
theorem Accounts.put (h : Accounts (np :: es) live log) {new : Option PluginCtx}
    (hname : ∀ ctx ∈ new, ctx.name = key) {live' : List PluginCtx}
    (hlive : ((np.instances.dvalue key).toList ++ live').Perm (new.toList ++ live))
    (hnodup : live'.Nodup) {evs : List (Event Bytes PluginCtx)}
    (hevs : Custody.Accepts evs (held (np :: es) live) (held (np :: es) live')) :
    Accounts ({ np with instances := np.instances.dput key new } :: es) live' (log ++ evs) where
  accepted := by
    rw [held_put]
    exact h.accepted.append hevs
  keyed := by
    rintro _ (_ | ⟨_, hm⟩)
    · exact (h.keyed np List.mem_cons_self).dput ..
    · exact h.keyed _ (List.mem_cons_of_mem _ hm)
  named := by
    rintro _ (_ | ⟨_, hm⟩) k c hc
    · dsimp only at hc
      rw [Dictionary.dvalue_dput] at hc
      split at hc
      · rename_i hk
        rw [hk, hname c hc]
      · exact h.named np List.mem_cons_self k c hc
    · exact h.named _ (List.mem_cons_of_mem _ hm) k c hc
  listed := by
    have hl := h.listed
    rw [List.flatMap_cons] at hl ⊢
    have hfrees := Dictionary.freedict_frees_dput np.instances key new
    apply (List.perm_append_left_iff (np.instances.dvalue key).toList).1
    calc (np.instances.dvalue key).toList ++ ((np.instances.dput key new).freedict_frees ++ _)
        = ((np.instances.dvalue key).toList ++ (np.instances.dput key new).freedict_frees) ++ _ := by
          rw [List.append_assoc]
      List.Perm _ ((new.toList ++ np.instances.freedict_frees) ++ _) := hfrees.append_right _
      _ = new.toList ++ (np.instances.freedict_frees ++ _) := by rw [List.append_assoc]
      List.Perm _ (new.toList ++ live) := hl.append_left _
      List.Perm _ _ := hlive.symm
  once := hnodup

/-- A context that is listed goes. -/
theorem Accounts.drop (h : Accounts (np :: es) live log) (hd : np.instances.dvalue key = some ctx) :
    Accounts ({ np with instances := np.instances.dput ctx.name none } :: es) (live.erase ctx)
      (log ++ [.drop np.handle ctx, .free ctx]) := by
  have hname := h.named np List.mem_cons_self key ctx hd
  have hmem : ctx ∈ live :=
    h.listed.subset (List.mem_flatMap.2 ⟨np, List.mem_cons_self, Dictionary.mem_freedict_frees hd⟩)
  subst hname
  apply h.put (by simp)
  · rw [hd]
    exact (List.perm_cons_erase hmem).symm
  · exact h.once.erase _
  · rw [← held_erase h.once]
    exact Custody.accepts_gone (held_some hmem) (held_opened ..)

/-- A context that was not finished goes again. -/
theorem Accounts.failed (h : Accounts (np :: es) live log) (hd : np.instances.dvalue key = none)
    {evs : List (Event Bytes PluginCtx)} (hevs : Custody.Accepts evs (held (np :: es) live) (held (np :: es) live)) :
    Accounts ({ np with instances := np.instances.dput key none } :: es) live (log ++ evs) := by
  apply h.put (by simp) _ h.once hevs
  rw [hd]

theorem Accounts.created (h : Accounts (np :: es) live log) {c : PluginCtx} (hd : np.instances.dvalue c.name = none)
    (hnew : c ∉ live) : Accounts ({ np with instances := np.instances.dput c.name (some c) } :: es) (c :: live)
      (log ++ [.alloc c, .create np.handle c]) := by
  apply h.put (by simp)
  · rw [hd]
    exact .refl _
  · exact List.nodup_cons.2 ⟨hnew, h.once⟩
  · rw [← held_cons]
    exact Custody.accepts_begun (held_none hnew) (held_opened ..)

theorem Accounts.loaded (h : Accounts es live log) (file path : Bytes) :
    Accounts (⟨file, path, .dict⟩ :: es) live (log ++ [.opens path]) where
  accepted := h.accepted.append (Custody.accepts_opens (held_open ⟨file, path, .dict⟩ es live) rfl)
  keyed := List.forall_mem_cons.2 ⟨Dictionary.keyed_dict_n _, h.keyed⟩
  named := by
    refine List.forall_mem_cons.2 ⟨fun key ctx hd => ?_, h.named⟩
    cases (Plugins.dvalue_dict key).symm.trans hd
  listed := h.listed
  once := h.once

/-- An entry that lists nothing goes, and its file is closed. -/
theorem Accounts.closed (h : Accounts (np :: es) live log) (hnil : np.instances.freedict_frees = []) :
    Accounts es live (log ++ [.closes np.handle]) where
  accepted := h.accepted.append (Custody.accepts_closes (held_open np es live) rfl)
  keyed := fun e he => h.keyed e (List.mem_cons_of_mem _ he)
  named := fun e he => h.named e (List.mem_cons_of_mem _ he)
  listed := by
    have hl := h.listed
    rwa [List.flatMap_cons, hnil] at hl
  once := h.once

end

/-! ## The table -/

/-- A bucket and the entries of the others. -/
theorem entries_perm {b : Nat} (hb : b < HASHSIZE) (table : Nat → List PluginEntry) :
    ∃ es, ∀ chain, ((List.range HASHSIZE).flatMap (Function.update table b chain)).Perm (chain ++ es) := by
  have hsplit : List.range HASHSIZE = List.range b ++ b :: (List.range (HASHSIZE - (b + 1))).map (b + 1 + ·) := by
    have hsum : HASHSIZE = b + 1 + (HASHSIZE - (b + 1)) := by omega
    conv_lhs => rw [hsum]
    rw [List.range_add, List.range_succ, List.append_assoc]
    rfl
  refine ⟨(List.range b).flatMap table ++ ((List.range (HASHSIZE - (b + 1))).map (b + 1 + ·)).flatMap table,
    fun chain => ?_⟩
  have hbelow : (List.range b).flatMap (Function.update table b chain) = (List.range b).flatMap table := by
    apply List.flatMap_congr
    intro i hi
    exact Function.update_of_ne (List.mem_range.1 hi).ne ..
  have habove : ((List.range (HASHSIZE - (b + 1))).map (b + 1 + ·)).flatMap (Function.update table b chain) =
      ((List.range (HASHSIZE - (b + 1))).map (b + 1 + ·)).flatMap table := by
    apply List.flatMap_congr
    intro i hi
    obtain ⟨j, -, rfl⟩ := List.mem_map.1 hi
    exact Function.update_of_ne (by omega) ..
  rw [hsplit, List.flatMap_append, List.flatMap_cons, hbelow, habove, Function.update_self]
  exact List.perm_append_comm_assoc ..

theorem updateEntry_first {chain : List PluginEntry} {np : PluginEntry}
    (hnp : chain.find? (·.name = np.name) = some np) (f : PluginEntry → PluginEntry) :
    ∃ es, chain.Perm (np :: es) ∧ (Plugins.updateEntry np.name f chain).Perm (f np :: es) := by
  induction chain with
  | nil => cases hnp
  | cons e next ih =>
    rw [Plugins.updateEntry]
    split
    · rename_i he
      rw [List.find?_cons_of_pos (by simpa using he)] at hnp
      cases hnp
      exact ⟨next, .refl _, .refl _⟩
    · rename_i he
      rw [List.find?_cons_of_neg (by simpa using he)] at hnp
      obtain ⟨es, hp, hp'⟩ := ih hnp
      exact ⟨e :: es, (hp.cons e).trans (.swap ..), (hp'.cons e).trans (.swap ..)⟩

/-- The table changes in the entry that is found. -/
theorem putInstance_entries {s : Plugins} {b : Nat} {np : PluginEntry} (hb : b < HASHSIZE)
    (hnp : (s.plugin_table b).find? (·.name = np.name) = some np) :
    ∃ es, s.entries.Perm (np :: es) ∧
      ∀ key value, (s.putInstance b np key value).entries.Perm
        ({ np with instances := np.instances.dput key value } :: es) := by
  obtain ⟨others, hothers⟩ := entries_perm hb s.plugin_table
  have hall := hothers (s.plugin_table b)
  rw [Function.update_eq_self] at hall
  obtain ⟨es, hes, -⟩ := updateEntry_first hnp id
  refine ⟨es ++ others, hall.trans (hes.append_right _), fun key value => ?_⟩
  obtain ⟨es', hes', hput⟩ := updateEntry_first hnp fun np => { np with instances := np.instances.dput key value }
  have hsame : es'.Perm es := (List.perm_cons np).1 (hes'.symm.trans hes)
  exact (hothers _).trans ((hput.trans (hsame.cons _)).append_right _)

/-! ## Loading -/

/-- The ledger's entries and contexts are accounted for, and a new context is one that is not there. -/
structure Inv (l : Ledger) : Prop where
  accounts : Accounts l.plugins.entries l.plugins.live l.log
  known : ∀ ctx ∈ l.plugins.live, ctx.ptr < l.plugins.made

section

variable {l : Ledger} {b : Nat} {np : PluginEntry} {name : Bytes}

/-- A context of an entry is dropped. -/
theorem Inv.ctx_drop (h : Inv l) (hb : b < HASHSIZE)
    (hnp : (l.plugins.plugin_table b).find? (·.name = np.name) = some np) {ctx : PluginCtx}
    (hd : np.instances.dvalue name = some ctx) : Inv (l.antd_plugin_ctx_drop true b np ctx) := by
  obtain ⟨es, hes, hput⟩ := putInstance_entries hb hnp
  constructor
  · have hdrop := ((h.accounts.perm hes).drop hd).perm (hput ctx.name none).symm
    rw [antd_plugin_ctx_drop, if_pos rfl]
    simp only [call, List.append_assoc, List.singleton_append]
    exact hdrop
  · intro c hc
    have hc' : c ∈ (l.plugins.antd_plugin_ctx_drop b np ctx).live := by
      rw [← ctx_drop_plugins l b np true ctx]
      exact hc
    rw [ctx_drop_plugins]
    exact h.known c (List.mem_of_mem_erase hc')

/-- A context that was not finished is gone again. -/
theorem Inv.failed (h : Inv l) (hb : b < HASHSIZE)
    (hnp : (l.plugins.plugin_table b).find? (·.name = np.name) = some np)
    (hd : np.instances.dvalue name = none) {evs : List (Event Bytes PluginCtx)}
    (hevs : ∀ h : Custody Bytes PluginCtx, h.stage ⟨l.plugins.made, name⟩ = none → 0 < h.opened np.handle →
      Custody.Accepts evs h h) :
    Inv ⟨(l.plugins.newCtx name).antd_plugin_ctx_drop b np ⟨l.plugins.made, name⟩, l.log ++ evs⟩ := by
  obtain ⟨es, hes, hput⟩ := putInstance_entries hb hnp
  have hnew : (⟨l.plugins.made, name⟩ : PluginCtx) ∉ l.plugins.live := fun hm => (h.known _ hm).ne rfl
  have hlive : ((l.plugins.newCtx name).antd_plugin_ctx_drop b np ⟨l.plugins.made, name⟩).live = l.plugins.live :=
    List.erase_cons_head ..
  constructor
  · rw [hlive]
    exact ((h.accounts.perm hes).failed hd (hevs _ (held_none hnew) (held_opened ..))).perm (hput name none).symm
  · intro c hc
    rw [hlive] at hc
    exact (h.known c hc).trans (Nat.lt_succ_self _)

theorem Inv.created (h : Inv l) (hb : b < HASHSIZE)
    (hnp : (l.plugins.plugin_table b).find? (·.name = np.name) = some np) (hd : np.instances.dvalue name = none) (status : Nat → Int) :
    Inv ⟨{ l.plugins.newCtx name with status }.putInstance b np name (some ⟨l.plugins.made, name⟩),
      l.log ++ [.alloc ⟨l.plugins.made, name⟩, .create np.handle ⟨l.plugins.made, name⟩]⟩ := by
  obtain ⟨es, hes, hput⟩ := putInstance_entries hb hnp
  have hnew : (⟨l.plugins.made, name⟩ : PluginCtx) ∉ l.plugins.live := fun hm => (h.known _ hm).ne rfl
  constructor
  · exact (Accounts.created (h.accounts.perm hes) (c := ⟨_, name⟩) hd hnew).perm (hput name _).symm
  · rintro c (_ | ⟨_, hc⟩)
    · exact Nat.lt_succ_self _
    · exact (h.known c hc).trans (Nat.lt_succ_self _)

theorem Inv.readyCtx (h : Inv l) (hb : b < HASHSIZE)
    (hnp : (l.plugins.plugin_table b).find? (·.name = np.name) = some np) (ld : Loading) (name : Bytes) :
    Inv (l.readyCtx ld b np name).2 := by
  unfold Ledger.readyCtx antd_plugin_ctx_lookup
  cases hd : np.instances.dvalue name with
  | some ctx =>
    dsimp only
    split
    · exact h.ctx_drop hb hnp hd
    · exact h
  | none =>
    have hunbegun := h.failed hb hnp hd fun _ ho _ => Custody.accepts_unbegun ho
    have hended := h.failed hb hnp hd fun _ ho hk => Custody.accepts_ended ho hk
    have hfinished := h.failed hb hnp hd fun _ ho hk => Custody.accepts_finished ho hk
    dsimp only
    split_ifs <;> simp only [antd_plugin_ctx_drop, call, Bool.false_eq_true, if_true, if_false, List.append_assoc,
      List.cons_append, List.nil_append]
    · exact hunbegun
    · exact hunbegun
    · exact hended
    · exact hfinished
    · rw [if_neg (by simp [Plugins.putInstance])]
      exact h.created hb hnp hd _

theorem Inv.load (h : Inv l) (cnf : PluginConfig) (ld : Loading) (name : Bytes) :
    Inv (l.antd_plugin_load cnf ld name).2 := by
  unfold antd_plugin_load
  dsimp only
  cases hs : l.plugins.plugin_lookup (Plugins.plugin_file_name cnf name) with
  | some np =>
    have hname := List.find?_some hs
    rw [decide_eq_true_iff] at hname
    apply h.readyCtx (Nat.mod_lt _ (by decide))
    rw [hname]
    exact hs
  | none =>
    dsimp only
    split
    · exact h
    · have hb : hash name HASHSIZE < HASHSIZE := Nat.mod_lt _ (by decide)
      apply readyCtx _ hb
      · simp [setBucket, call]
      · obtain ⟨es, hes⟩ := entries_perm hb l.plugins.plugin_table
        have hall := hes (l.plugins.plugin_table (hash name HASHSIZE))
        rw [Function.update_eq_self] at hall
        exact ⟨((h.accounts.perm hall).loaded _ _).perm (hes (_ :: _)).symm, h.known⟩

end

/-! ## Unloading -/

/-- An entry while its contexts are dropped: those of the keys passed are gone. -/
structure Dropped (es : List PluginEntry) (ks : List Bytes) (ln r : Ledger × PluginEntry) : Prop where
  accounts : Accounts (r.2 :: es) r.1.plugins.live r.1.log
  table : r.1.plugins.plugin_table = ln.1.plugins.plugin_table
  handle : r.2.handle = ln.2.handle
  gone : ∀ k, (r.2.instances.dvalue k).isSome → (ln.2.instances.dvalue k).isSome ∧ k ∉ ks

theorem dropInstance_accounts {es : List PluginEntry} {ln : Ledger × PluginEntry}
    (h : Accounts (ln.2 :: es) ln.1.plugins.live ln.1.log) (key : Bytes) :
    Dropped es [key] ln (dropInstance ln key) := by
  unfold dropInstance
  cases hd : ln.2.instances.dvalue key with
  | none =>
    refine ⟨h, rfl, rfl, fun k hk => ⟨hk, fun hm => ?_⟩⟩
    rw [List.mem_singleton.1 hm, hd] at hk
    cases hk
  | some ctx =>
    refine ⟨h.drop hd, rfl, rfl, fun k hk => ?_⟩
    have hname := h.named _ List.mem_cons_self key ctx hd
    dsimp only at hk
    rw [Dictionary.dvalue_dput, hname] at hk
    split at hk
    · cases hk
    · rename_i hne
      exact ⟨hk, fun hm => hne (List.mem_singleton.1 hm)⟩

theorem dropInstances_accounts {es : List PluginEntry} (ks : List Bytes) (ln : Ledger × PluginEntry)
    (h : Accounts (ln.2 :: es) ln.1.plugins.live ln.1.log) : Dropped es ks ln (ks.foldl dropInstance ln) := by
  induction ks generalizing ln with
  | nil => exact ⟨h, rfl, rfl, fun k hk => ⟨hk, List.not_mem_nil⟩⟩
  | cons key ks ih =>
    have hfirst := dropInstance_accounts h key
    have hrest := ih _ hfirst.accounts
    refine ⟨hrest.accounts, hrest.table.trans hfirst.table, hrest.handle.trans hfirst.handle, fun k hk => ?_⟩
    obtain ⟨hk', hks⟩ := hrest.gone k hk
    obtain ⟨hk, hne⟩ := hfirst.gone k hk'
    exact ⟨hk, fun hm => (List.mem_cons.1 hm).elim (fun he => hne (he ▸ List.mem_cons_self)) hks⟩

/-- An entry goes with its contexts and its file; `freedict` finds nothing more to free. -/
theorem entry_drop_accounts {es : List PluginEntry} {l : Ledger} {np : PluginEntry}
    (h : Accounts (np :: es) l.plugins.live l.log) :
    Accounts es (l.antd_plugin_entry_drop np).plugins.live (l.antd_plugin_entry_drop np).log ∧
      (l.antd_plugin_entry_drop np).plugins.plugin_table = l.plugins.plugin_table := by
  have hall := dropInstances_accounts (Dictionary.keys np.instances.assocs) (l, np) h
  have hnil : ((Dictionary.keys np.instances.assocs).foldl dropInstance (l, np)).2.instances.freedict_frees = [] := by
    apply Dictionary.freedict_frees_nil (hall.accounts.keyed _ List.mem_cons_self)
    intro k _
    by_contra hk
    obtain ⟨hsome, hnot⟩ := hall.gone k (Option.isSome_iff_ne_none.2 hk)
    apply hnot
    rw [(h.keyed np List.mem_cons_self).mem_keys]
    exact Option.isSome_of_isSome_bind hsome
  have hclosed := hall.accounts.closed hnil
  rw [hall.handle] at hclosed
  rw [antd_plugin_entry_drop, hnil]
  dsimp only
  rw [List.map_nil, List.append_nil, List.diff_nil]
  exact ⟨hclosed, hall.table⟩

/-- A bucket is emptied; the others stay. -/
theorem unloadChain_accounts {b : Nat} (hb : b < HASHSIZE) (chain : List PluginEntry) {l : Ledger}
    (hchain : l.plugins.plugin_table b = chain) (h : Accounts l.plugins.entries l.plugins.live l.log) :
    Accounts (unloadChain b chain l).plugins.entries (unloadChain b chain l).plugins.live
        (unloadChain b chain l).log ∧
      (unloadChain b chain l).plugins.plugin_table = Function.update l.plugins.plugin_table b [] := by
  induction chain generalizing l with
  | nil =>
    have hsame : l.setBucket b [] = l := by rw [setBucket, ← hchain, Function.update_eq_self]
    rw [unloadChain, hsame]
    refine ⟨h, ?_⟩
    rw [← hchain, Function.update_eq_self]
  | cons curr next ih =>
    obtain ⟨es, hes⟩ := entries_perm hb l.plugins.plugin_table
    have hall := hes (curr :: next)
    rw [← hchain, Function.update_eq_self, hchain] at hall
    have hcut : Accounts (curr :: (l.setBucket b next).plugins.entries) l.plugins.live l.log :=
      h.perm (hall.trans ((hes next).symm.cons curr))
    obtain ⟨hdrop, htable⟩ := entry_drop_accounts (l := l.setBucket b next) hcut
    have hentries : ((l.setBucket b next).antd_plugin_entry_drop curr).plugins.entries =
        (l.setBucket b next).plugins.entries := by
      rw [Plugins.entries, htable, Plugins.entries]
    obtain ⟨hrest, hempty⟩ := ih (l := (l.setBucket b next).antd_plugin_entry_drop curr)
      (by rw [htable]; exact Function.update_self ..) (by rw [hentries]; exact hdrop)
    refine ⟨hrest, hempty.trans ?_⟩
    rw [htable]
    exact Function.update_idem ..

theorem unloadBuckets_accounts {l : Ledger} (h : Accounts l.plugins.entries l.plugins.live l.log) {n : Nat}
    (hn : n ≤ HASHSIZE) :
    Accounts (l.unloadBuckets n).plugins.entries (l.unloadBuckets n).plugins.live (l.unloadBuckets n).log ∧
      ∀ b < n, (l.unloadBuckets n).plugins.plugin_table b = [] := by
  induction n with
  | zero => exact ⟨h, fun b hb => absurd hb (Nat.not_lt_zero b)⟩
  | succ n ih =>
    obtain ⟨hacc, hempty⟩ := ih (by omega)
    have hstep : l.unloadBuckets (n + 1) =
        unloadChain n ((l.unloadBuckets n).plugins.plugin_table n) (l.unloadBuckets n) := by
      rw [unloadBuckets, List.range_succ, List.foldl_append]
      rfl
    rw [hstep]
    obtain ⟨hlast, htable⟩ := unloadChain_accounts (b := n) hn _ rfl hacc
    refine ⟨hlast, fun b hb => ?_⟩
    rw [htable, Function.update_apply]
    split
    · rfl
    · exact hempty b (by omega)

/-- Nothing is left in the table, and none of the contexts. -/
theorem unload_all_nothing {l : Ledger} (h : Inv l) : l.antd_unload_all_plugin.plugins.entries = [] ∧
    l.antd_unload_all_plugin.plugins.live = [] ∧
      Custody.Accepts l.antd_unload_all_plugin.log .nothing .nothing := by
  rw [antd_unload_all_plugin]
  obtain ⟨hacc, hempty⟩ := unloadBuckets_accounts h.accounts (Nat.le_refl HASHSIZE)
  have hnil : (l.unloadBuckets HASHSIZE).plugins.entries = [] := by
    rw [Plugins.entries, List.flatMap_eq_nil_iff]
    intro b hb
    exact hempty b (List.mem_range.1 hb)
  rw [hnil] at hacc
  have hlive : (l.unloadBuckets HASHSIZE).plugins.live = [] := hacc.listed.symm.eq_nil
  have haccepted := hacc.accepted
  rw [hlive] at haccepted
  exact ⟨hnil, hlive, haccepted⟩

theorem Inv.act {l : Ledger} (h : Inv l) (cnf : PluginConfig) (a : Plugins.Action) : Inv (l.act cnf a) := by
  cases a with
  | load ld name => exact h.load cnf ld name
  | antd_plugin_set_status ptr stat => exact ⟨h.accounts, h.known⟩

theorem Inv.start : Inv start := by
  have hnil : Plugins.start.entries = [] := List.flatMap_eq_nil_iff.2 fun _ _ => rfl
  refine ⟨?_, fun ctx hctx => nomatch hctx⟩
  rw [Ledger.start, hnil]
  exact .start

theorem Inv.run {l : Ledger} (h : Inv l) (cnf : PluginConfig) (actions : List Plugins.Action) :
    Inv (actions.foldl (Ledger.act cnf) l) := by
  induction actions generalizing l with
  | nil => exact h
  | cons a actions ih => exact ih (h.act cnf a)

/-- However plugins were requested and fared, and whatever status they gave their contexts: each call is allowed when it
is made, and when all plugins are unloaded, no context is left, each file was closed as often as it was opened, and each
context was freed as often as it was allocated. -/
theorem plugins_unloaded (cnf : PluginConfig) (actions : List Plugins.Action) :
    let l := (actions.foldl (act cnf) start).antd_unload_all_plugin
    Custody.Accepts l.log .nothing .nothing ∧ l.plugins.entries = [] ∧ l.plugins.live = [] ∧
      (∀ path, l.log.count (.closes path) = l.log.count (.opens path)) ∧
      ∀ ctx, l.log.count (.free ctx) = l.log.count (.alloc ctx) := by
  obtain ⟨hnil, hlive, haccepted⟩ := unload_all_nothing (Inv.start.run cnf actions)
  exact ⟨haccepted, hnil, hlive, haccepted.closed, haccepted.freed⟩

end Ledger

end AntHttp
