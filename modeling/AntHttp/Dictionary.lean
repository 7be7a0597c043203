import AntHttp.Lib.CString
import AntHttp.Lib.FinMap
import Mathlib.Data.List.Nodup
/-!
# The dictionary (`lib/dictionary.c`)

A hash table of chains. A value may be NULL: a key can be bound to nothing.
A dictionary carries the fact that it has a bucket, so a lookup never leaves
the table.
-/

namespace AntHttp

open CString

/-- `simple_hash`; a `char` is signed. -/
def simple_hash (key : Bytes) : UInt32 :=
  key.foldl (fun h c => (if c < 128 then c.toUInt32 else c.toUInt32 + 0xffffff00) + 31 * h) 0

def hash (key : Bytes) (hash_size : Nat) : Nat := (simple_hash key).toNat % hash_size

/-- A bucket: the associations in chain order. -/
abbrev Chain (α : Type) := List (Bytes × Option α)

structure Dictionary (α : Type) where
  map : List (Chain α)
  size : UInt32
  cap_pos : 0 < map.length

namespace Dictionary

variable {α : Type}

def cap (d : Dictionary α) : Nat := d.map.length

/-- `dict_n(n)` for a positive capacity `n + 1`. -/
def dict_n (n : Nat) : Dictionary α := ⟨List.replicate (n + 1) [], 0, by simp⟩

/-- `DHASHSIZE` buckets. -/
def dict : Dictionary α := dict_n 15

def bucket (d : Dictionary α) (key : Bytes) : Chain α := d.map.getD (hash key d.cap) []

/-- The first association with the key. -/
def dlookup (d : Dictionary α) (key : Bytes) : Option (Bytes × Option α) :=
  (d.bucket key).find? (fun np => np.1 = key)

/-- A chain after `dput`: an association that is there takes the value, else one is added at the end. -/
def chainPut (key : Bytes) (value : Option α) : Chain α → Chain α
  | [] => [(key, value)]
  | np :: it => if np.1 = key then (np.1, value) :: it else np :: chainPut key value it

def dput (d : Dictionary α) (key : Bytes) (value : Option α) : Dictionary α where
  map := d.map.set (hash key d.cap) (chainPut key value (d.bucket key))
  size := if (d.dlookup key).isSome then d.size else d.size + 1
  cap_pos := by rw [List.length_set]; exact d.cap_pos

def dvalue (d : Dictionary α) (key : Bytes) : Option α := (d.dlookup key).bind Prod.snd

/-- The values that `dput` frees: one that is replaced. -/
def dput_frees (d : Dictionary α) (key : Bytes) (value : Option α) : List α :=
  match d.dvalue key, value with
  | some old, some _ => [old]
  | _, _ => []

/-- A chain without the first association with the key, and that association. -/
def chainRemove (key : Bytes) : Chain α → Option (Bytes × Option α) × Chain α
  | [] => (none, [])
  | np :: it => if np.1 = key then (some np, it) else ((chainRemove key it).1, np :: (chainRemove key it).2)

/-- The association taken out. `hashval` is an `int`: with a negative index nothing is defined. -/
def dremove (d : Dictionary α) (key : Bytes) : Option (Option (Bytes × Option α) × Dictionary α) :=
  let hashval := int32 (hash key d.cap)
  if hashval < 0 then none
  else
    let r := chainRemove key (d.map.getD hashval.toNat [])
    some (r.1, {
      map := d.map.set hashval.toNat r.2
      size := if r.1.isSome then d.size - 1 else d.size
      cap_pos := by rw [List.length_set]; exact d.cap_pos })

/-- `for_each_assoc`: bucket after bucket. -/
def assocs (d : Dictionary α) : List (Bytes × Option α) := d.map.flatten

/-- `for_each_assoc` with a body that changes what each value points to. -/
def updateAll {β : Type} (d : Dictionary α) (f : Bytes → α → β) : Dictionary β where
  map := d.map.map fun c => c.map fun np => (np.1, np.2.map (f np.1))
  size := d.size
  cap_pos := by rw [List.length_map]; exact d.cap_pos

/-! ## Lookups after an update -/

theorem dlookup_dict_n (n : Nat) (key : Bytes) : (dict_n n : Dictionary α).dlookup key = none := by
  have hb : (dict_n n : Dictionary α).bucket key = [] := by
    rw [bucket, dict_n, List.getD_eq_getElem?_getD, List.getElem?_replicate]
    split <;> rfl
  rw [dlookup, hb]
  rfl

theorem dvalue_dict_n (n : Nat) (key : Bytes) : (dict_n n : Dictionary α).dvalue key = none := by
  rw [dvalue, dlookup_dict_n]
  rfl

theorem hash_lt (d : Dictionary α) (key : Bytes) : hash key d.cap < d.map.length := Nat.mod_lt _ d.cap_pos

theorem bucket_set {d d' : Dictionary α} {key : Bytes} {c : Chain α} (h : d'.map = d.map.set (hash key d.cap) c)
    (k : Bytes) : d'.bucket k = if hash k d.cap = hash key d.cap then c else d.bucket k := by
  have hk := d.hash_lt key
  have hcap : d'.cap = d.cap := by rw [cap, cap, h, List.length_set]
  simp only [bucket, hcap, h, List.getD_eq_getElem?_getD, List.getElem?_set, hk, if_true]
  by_cases he : hash k d.cap = hash key d.cap
  · rw [if_pos he, if_pos he.symm]
    rfl
  · rw [if_neg he, if_neg (Ne.symm he)]

theorem bucket_dput (d : Dictionary α) (key k : Bytes) (value : Option α) :
    (d.dput key value).bucket k =
      if hash k d.cap = hash key d.cap then chainPut key value (d.bucket key) else d.bucket k := bucket_set rfl k

theorem find_chainPut (key k : Bytes) (value : Option α) (c : Chain α) :
    (chainPut key value c).find? (fun np => np.1 = k) =
      if k = key then some (key, value) else c.find? (fun np => np.1 = k) := by
  induction c with
  | nil =>
    by_cases h : k = key
    · simp [chainPut, h]
    · simp [chainPut, h, Ne.symm h]
  | cons np it ih =>
    simp only [chainPut]
    split
    · rename_i hnp
      by_cases h : k = key
      · simp [hnp, h]
      · simp [hnp, h, Ne.symm h]
    · rename_i hnp
      by_cases h : np.1 = k
      · have hk : k ≠ key := h ▸ hnp
        simp [h, hk]
      · simp [h, ih]

theorem dlookup_dput (d : Dictionary α) (key k : Bytes) (value : Option α) :
    (d.dput key value).dlookup k = if k = key then some (key, value) else d.dlookup k := by
  rw [dlookup, bucket_dput, dlookup]
  by_cases hh : hash k d.cap = hash key d.cap
  · rw [if_pos hh, find_chainPut, bucket, bucket, hh]
  · have hk : k ≠ key := fun h => hh (by rw [h])
    rw [if_neg hh, if_neg hk]

/-- An update is seen under its key and nowhere else. -/
theorem dvalue_dput (d : Dictionary α) (key k : Bytes) (value : Option α) :
    (d.dput key value).dvalue k = if k = key then value else d.dvalue k := by
  rw [dvalue, dlookup_dput]
  split <;> rfl

@[simp] theorem dvalue_dput_self (d : Dictionary α) (key : Bytes) (value : Option α) :
    (d.dput key value).dvalue key = value := by
  rw [dvalue_dput, if_pos rfl]

/-! ## Chains -/

section Chains

variable {key k : Bytes} {value : Option α} {c : Chain α}

def keys (c : Chain α) : List Bytes := c.map Prod.fst

theorem mem_keys_iff : k ∈ keys c ↔ (c.find? (fun np => np.1 = k)).isSome := by
  simp [keys]

theorem keys_chainPut (key : Bytes) (value : Option α) (c : Chain α) :
    keys (chainPut key value c) = if key ∈ keys c then keys c else keys c ++ [key] := by
  induction c with
  | nil => rfl
  | cons np it ih =>
    simp only [chainPut]
    split
    · rename_i h
      simp [keys, h]
    · rename_i h
      simp only [keys, List.map_cons, List.mem_cons, Ne.symm h, false_or] at ih ⊢
      rw [ih]
      by_cases hk : key ∈ it.map Prod.fst
      · simp [hk]
      · simp [hk]

theorem keys_chainRemove (key : Bytes) (c : Chain α) : keys (chainRemove key c).2 = (keys c).erase key := by
  induction c with
  | nil => rfl
  | cons np it ih =>
    simp only [chainRemove]
    split
    · rename_i h
      simp [keys, h]
    · rename_i h
      simp only [keys, List.map_cons] at ih ⊢
      rw [ih, List.erase_cons_tail (by simpa using h)]

theorem chainRemove_fst (key : Bytes) (c : Chain α) : (chainRemove key c).1 = c.find? (fun np => np.1 = key) := by
  induction c with
  | nil => rfl
  | cons np it ih =>
    simp only [chainRemove]
    split
    · rename_i h
      simp [h]
    · rename_i h
      simp [h, ih]

theorem find_chainRemove (hc : (keys c).Nodup) :
    (chainRemove key c).2.find? (fun np => np.1 = k) = if k = key then none else c.find? (fun np => np.1 = k) := by
  induction c with
  | nil => simp [chainRemove]
  | cons np it ih =>
    obtain ⟨hnp, hit⟩ := List.nodup_cons.1 (show (np.1 :: keys it).Nodup from hc)
    simp only [chainRemove]
    split
    · rename_i h
      by_cases hk : k = key
      · rw [if_pos hk, hk, ← h]
        exact Option.not_isSome_iff_eq_none.1 fun hs => hnp (mem_keys_iff.2 hs)
      · rw [if_neg hk, List.find?_cons_of_neg (by simpa [h] using Ne.symm hk)]
    · rename_i h
      by_cases hk : np.1 = k
      · have hne : k ≠ key := hk ▸ h
        rw [if_neg hne, List.find?_cons_of_pos (by simpa using hk), List.find?_cons_of_pos (by simpa using hk)]
      · rw [List.find?_cons_of_neg (by simpa using hk), List.find?_cons_of_neg (by simpa using hk), ih hit]

end Chains

/-! ## The table -/

/-- Each key has one association, in the bucket of its hash. -/
structure Keyed (d : Dictionary α) : Prop where
  placed : ∀ i, ∀ np ∈ d.map.getD i [], hash np.1 d.cap = i
  distinct : (keys d.assocs).Nodup

/-- Each key has one association, in the bucket of its hash, and `size` counts them. -/
structure Table (d : Dictionary α) : Prop where
  placed : ∀ i, ∀ np ∈ d.map.getD i [], hash np.1 d.cap = i
  distinct : (keys d.assocs).Nodup
  counted : d.size.toNat = d.assocs.length

theorem Table.toKeyed {d : Dictionary α} (h : Table d) : Keyed d := ⟨h.placed, h.distinct⟩

theorem table_dict_n (n : Nat) : Table (dict_n n : Dictionary α) := by
  have hnil : (dict_n n : Dictionary α).assocs = [] := by simp [assocs, dict_n]
  refine ⟨fun i np hnp => ?_, by simp [hnil, keys], by rw [hnil]; rfl⟩
  rw [dict_n, List.getD_eq_getElem?_getD, List.getElem?_replicate] at hnp
  split at hnp <;> cases hnp

/-- One bucket and the others. -/
theorem flatten_set_perm {β : Type} {l : List (List β)} {i : Nat} (h : i < l.length) (c : List β) :
    (l.set i c).flatten.Perm (c ++ (l.set i []).flatten) := by
  induction l generalizing i with
  | nil => cases h
  | cons a l ih =>
    cases i with
    | zero => exact .refl _
    | succ i =>
      simp only [List.set_cons_succ, List.flatten_cons]
      exact ((ih (Nat.lt_of_succ_lt_succ h)).append_left a).trans (List.perm_append_comm_assoc ..)

theorem flatten_perm {β : Type} {l : List (List β)} {i : Nat} (h : i < l.length) :
    l.flatten.Perm (l.getD i [] ++ (l.set i []).flatten) := by
  have hset := flatten_set_perm h l[i]
  rw [List.set_getElem_self] at hset
  rwa [List.getD_eq_getElem?_getD, List.getElem?_eq_getElem h, Option.getD_some]

/-- An association of another bucket. -/
theorem mem_others {d : Dictionary α} (h : Keyed d) {i : Nat} {np : Bytes × Option α}
    (hnp : np ∈ (d.map.set i []).flatten) : hash np.1 d.cap ≠ i := by
  obtain ⟨c, hc, hnp⟩ := List.mem_flatten.1 hnp
  obtain ⟨j, hj, rfl⟩ := List.mem_iff_getElem.1 hc
  rw [List.length_set] at hj
  by_cases hij : i = j
  · rw [List.getElem_set, if_pos hij] at hnp
    cases hnp
  · rw [List.getElem_set, if_neg hij] at hnp
    have hp := h.placed j np (by rwa [List.getD_eq_getElem?_getD, List.getElem?_eq_getElem hj])
    omega

section Updates

variable {d d' : Dictionary α} {key k : Bytes} {value : Option α}

theorem Keyed.mem_bucket (h : Keyed d) {np : Bytes × Option α} (hnp : np ∈ d.assocs) : np ∈ d.bucket np.1 := by
  obtain ⟨c, hc, hnp⟩ := List.mem_flatten.1 hnp
  obtain ⟨j, hj, rfl⟩ := List.mem_iff_getElem.1 hc
  have hget : d.map.getD j [] = d.map[j] := by rw [List.getD_eq_getElem?_getD, List.getElem?_eq_getElem hj]; rfl
  rw [bucket, h.placed j np (hget ▸ hnp), hget]
  exact hnp

/-- An association is found in the bucket of its hash. -/
theorem Keyed.mem_keys (h : Keyed d) : k ∈ keys d.assocs ↔ (d.dlookup k).isSome := by
  rw [dlookup, ← mem_keys_iff, bucket]
  constructor
  · intro hk
    obtain ⟨np, hnp, rfl⟩ := List.mem_map.1 hk
    exact List.mem_map_of_mem (h.mem_bucket hnp)
  · intro hk
    obtain ⟨np, hnp, rfl⟩ := List.mem_map.1 hk
    exact List.mem_map_of_mem ((flatten_perm (d.hash_lt np.1)).mem_iff.2 (List.mem_append_left _ hnp))

theorem Keyed.bucket_nodup (h : Keyed d) (key : Bytes) : (keys (d.bucket key)).Nodup := by
  have hd := ((flatten_perm (d.hash_lt key)).map Prod.fst).nodup_iff.1 h.distinct
  rw [List.map_append] at hd
  exact (List.nodup_append.1 hd).1

/-- An association is the one that is looked up. -/
theorem Keyed.dlookup_of_mem (h : Keyed d) {np : Bytes × Option α} (hnp : np ∈ d.assocs) : d.dlookup np.1 = some np := by
  have hmem := h.mem_bucket hnp
  cases hf : d.dlookup np.1 with
  | none => exact absurd (List.find?_eq_none.1 hf np hmem) (by simp)
  | some np' =>
    have hkey : np'.1 = np.1 := by simpa using List.find?_some hf
    rw [List.inj_on_of_nodup_map (h.bucket_nodup np.1) (List.mem_of_find?_eq_some hf) hmem hkey]

theorem keyed_dict_n (n : Nat) : Keyed (dict_n n : Dictionary α) := (table_dict_n n).toKeyed

theorem mem_assocs_updateAll {β : Type} {f : Bytes → α → β} {np : Bytes × Option β} :
    np ∈ (d.updateAll f).assocs ↔ ∃ value, (np.1, value) ∈ d.assocs ∧ np.2 = value.map (f np.1) := by
  have hassocs : (d.updateAll f).assocs = d.assocs.map fun np => (np.1, np.2.map (f np.1)) := List.map_flatten.symm
  rw [hassocs, List.mem_map]
  constructor
  · rintro ⟨⟨k, value⟩, hm, rfl⟩
    exact ⟨value, hm, rfl⟩
  · rintro ⟨value, hm, hv⟩
    exact ⟨_, hm, Prod.ext rfl hv.symm⟩

theorem Keyed.updateAll {β : Type} (h : Keyed d) (f : Bytes → α → β) : Keyed (d.updateAll f) := by
  have hcap : (d.updateAll f).cap = d.cap := List.length_map ..
  refine ⟨fun i np hnp => ?_, ?_⟩
  · have hget : (d.updateAll f).map.getD i [] = (d.map.getD i []).map fun np => (np.1, np.2.map (f np.1)) := by
      simp only [Dictionary.updateAll, List.getD_eq_getElem?_getD, List.getElem?_map]
      cases d.map[i]? <;> rfl
    rw [hget] at hnp
    obtain ⟨np', hnp', rfl⟩ := List.mem_map.1 hnp
    rw [hcap]
    exact h.placed i np' hnp'
  · have hkeys : keys (d.updateAll f).assocs = keys d.assocs := by
      simp only [keys, assocs, Dictionary.updateAll, List.map_flatten, List.map_map]
      congr 1
      apply List.map_congr_left
      intro c _
      simp
    rw [hkeys]
    exact h.distinct

/-- The bucket of a key takes other associations. -/
theorem Keyed.set (h : Keyed d) {c : Chain α} (hmap : d'.map = d.map.set (hash key d.cap) c) (hc : (keys c).Nodup)
    (hsub : ∀ k ∈ keys c, k = key ∨ k ∈ keys (d.bucket key)) : Keyed d' := by
  have hi := d.hash_lt key
  have hcap : d'.cap = d.cap := by rw [cap, cap, hmap, List.length_set]
  have hhash : ∀ np ∈ c, hash np.1 d.cap = hash key d.cap := by
    intro np hnp
    rcases hsub np.1 (List.mem_map_of_mem hnp) with he | hb
    · rw [he]
    · obtain ⟨np', hnp', he⟩ := List.mem_map.1 hb
      rw [← he, h.placed _ np' hnp']
  refine ⟨fun i np hnp => ?_, ?_⟩
  · rw [hmap, List.getD_eq_getElem?_getD, List.getElem?_set] at hnp
    rw [hcap]
    split at hnp
    · rename_i hi'
      rw [← hi']
      exact hhash np hnp
    · exact h.placed i np hnp
  · have hnew : (keys d'.assocs).Perm (keys c ++ keys (d.map.set (hash key d.cap) []).flatten) := by
      rw [assocs, hmap, keys, keys, keys, ← List.map_append]
      exact (flatten_set_perm hi c).map Prod.fst
    have hrest := ((flatten_perm hi).map Prod.fst).nodup_iff.1 h.distinct
    rw [List.map_append] at hrest
    rw [hnew.nodup_iff, List.nodup_append]
    refine ⟨hc, (List.nodup_append.1 hrest).2.1, fun k hk k' hk' he => ?_⟩
    obtain ⟨np, hnp, rfl⟩ := List.mem_map.1 hk
    obtain ⟨np', hnp', rfl⟩ := List.mem_map.1 hk'
    exact mem_others h hnp' (he ▸ hhash np hnp)

/-- The count follows the bucket that changes. -/
theorem Table.counted_set (h : Table d) {c : Chain α} (hmap : d'.map = d.map.set (hash key d.cap) c)
    (hsize : d'.size.toNat + (d.bucket key).length = d.size.toNat + c.length) : d'.size.toNat = d'.assocs.length := by
  have hi := d.hash_lt key
  have h₁ := (flatten_set_perm hi c).length_eq
  have h₂ := (flatten_perm hi).length_eq
  have hcount := h.counted
  rw [List.length_append] at h₁ h₂
  rw [assocs] at hcount
  rw [assocs, hmap, h₁]
  change d'.size.toNat + (d.map.getD (hash key d.cap) []).length = _ at hsize
  omega

theorem Table.set (h : Table d) {c : Chain α} (hmap : d'.map = d.map.set (hash key d.cap) c) (hc : (keys c).Nodup)
    (hsub : ∀ k ∈ keys c, k = key ∨ k ∈ keys (d.bucket key))
    (hsize : d'.size.toNat + (d.bucket key).length = d.size.toNat + c.length) : Table d' := by
  obtain ⟨hplaced, hdistinct⟩ := h.toKeyed.set hmap hc hsub
  exact ⟨hplaced, hdistinct, h.counted_set hmap hsize⟩

theorem Keyed.dput (h : Keyed d) (key : Bytes) (value : Option α) : Keyed (d.dput key value) := by
  have hkeys := keys_chainPut key value (d.bucket key)
  refine h.set rfl ?_ (fun k hk => ?_)
  · rw [hkeys]
    split
    · exact h.bucket_nodup key
    · rename_i hk
      refine List.nodup_append.2 ⟨h.bucket_nodup key, by simp, fun a ha b hb he => hk ?_⟩
      rwa [he, List.mem_singleton.1 hb] at ha
  · rw [hkeys] at hk
    split at hk
    · exact .inr hk
    · rw [List.mem_append, List.mem_singleton] at hk
      exact hk.symm

/-- There is room for one more key: the count of the keys is an `unsigned int`. -/
def Room (d : Dictionary α) (key : Bytes) : Prop := (d.dlookup key).isSome ∨ d.size.toNat + 1 < 2 ^ 32

theorem Table.dput (h : Table d) (hr : Room d key) (value : Option α) : Table (d.dput key value) := by
  obtain ⟨hplaced, hdistinct⟩ := h.toKeyed.dput key value
  refine ⟨hplaced, hdistinct, h.counted_set rfl ?_⟩
  have hl := congrArg List.length (keys_chainPut key value (d.bucket key))
  have hlen (c : Chain α) : (keys c).length = c.length := List.length_map ..
  have hfound : (d.dlookup key).isSome ↔ key ∈ keys (d.bucket key) := mem_keys_iff.symm
  by_cases hk : key ∈ keys (d.bucket key)
  · rw [if_pos hk, hlen, hlen] at hl
    simp only [Dictionary.dput, if_pos (hfound.2 hk), hl]
  · have hlt := hr.resolve_left fun hs => hk (hfound.1 hs)
    rw [if_neg hk, List.length_append, hlen, hlen, List.length_singleton] at hl
    simp only [Dictionary.dput, if_neg (mt hfound.1 hk), hl]
    rw [UInt32.toNat_add]
    change (d.size.toNat + 1) % 2 ^ 32 + _ = _
    omega

/-- The index of the bucket does not turn negative. -/
theorem dremove_eq (hkey : hash key d.cap < 2 ^ 31) :
    d.dremove key = some ((chainRemove key (d.bucket key)).1, {
      map := d.map.set (hash key d.cap) (chainRemove key (d.bucket key)).2
      size := if (chainRemove key (d.bucket key)).1.isSome then d.size - 1 else d.size
      cap_pos := by rw [List.length_set]; exact d.cap_pos }) := by
  have hint : int32 (hash key d.cap) = (hash key d.cap : Int) := int32_eq (by omega) (by omega)
  have hneg : ¬ int32 (hash key d.cap) < 0 := by omega
  have hidx : (int32 (hash key d.cap)).toNat = hash key d.cap := by rw [hint, Int.toNat_natCast]
  simp only [dremove, if_neg hneg, hidx]
  rfl

/-- With a negative index nothing is defined. -/
theorem dremove_negative (hkey : 2 ^ 31 ≤ hash key d.cap) : d.dremove key = none := by
  have hlt : hash key d.cap < 2 ^ 32 := lt_of_le_of_lt (Nat.mod_le ..) (simple_hash key).toNat_lt
  have hneg : int32 (hash key d.cap) < 0 := by
    rw [int32, Int.bmod_def]
    omega
  simp only [Dictionary.dremove, if_pos hneg]

theorem Table.dremove (h : Table d) (hkey : hash key d.cap < 2 ^ 31) {np : Option (Bytes × Option α)}
    (hd : d.dremove key = some (np, d')) :
    np = d.dlookup key ∧ Table d' ∧ ∀ k, d'.dlookup k = if k = key then none else d.dlookup k := by
  rw [dremove_eq hkey] at hd
  obtain ⟨rfl, rfl⟩ := Prod.mk.inj (Option.some.inj hd)
  have hfst := chainRemove_fst key (d.bucket key)
  have hkeys := keys_chainRemove key (d.bucket key)
  have hlen (c : Chain α) : (keys c).length = c.length := List.length_map ..
  refine ⟨hfst, h.set rfl ?_ (fun k hk => .inr ?_) ?_, fun k => ?_⟩
  · rw [hkeys]
    exact (h.toKeyed.bucket_nodup key).erase key
  · rw [hkeys] at hk
    exact List.mem_of_mem_erase hk
  · have hl := congrArg List.length hkeys
    rw [hlen, List.length_erase, hlen] at hl
    simp only [hfst, hl, ← mem_keys_iff]
    by_cases hk : key ∈ keys (d.bucket key)
    · have hpos : 0 < (d.bucket key).length := hlen (d.bucket key) ▸ List.length_pos_of_mem hk
      have hall := (flatten_perm (d.hash_lt key)).length_eq
      rw [List.length_append] at hall
      have hcount : d.size.toNat = _ := h.counted.trans hall
      have hbucket : (d.map.getD (hash key d.cap) []).length = (d.bucket key).length := rfl
      have hone : (1 : UInt32).toNat = 1 := rfl
      rw [if_pos hk, if_pos hk, UInt32.toNat_sub_of_le d.size 1 (UInt32.le_iff_toNat_le.2 (by omega))]
      omega
    · rw [if_neg hk, if_neg hk]
  · rw [dlookup, bucket_set rfl k, dlookup]
    by_cases hh : hash k d.cap = hash key d.cap
    · rw [if_pos hh, find_chainRemove (h.toKeyed.bucket_nodup key), bucket, bucket, hh]
    · have hk : k ≠ key := fun he => hh (by rw [he])
      rw [if_neg hh, if_neg hk]

end Updates

/-! ## Any sequence of operations -/

def Op.run (op : FinMap.Op Bytes (Option α)) (d : Dictionary α) : Option (Dictionary α) :=
  match op with
  | .put key value => some (d.dput key value)
  | .remove key => (d.dremove key).map Prod.snd

/-- A put has room for its key, and a removal has an index that is an `int`. -/
def Fits (op : FinMap.Op Bytes (Option α)) (d : Dictionary α) : Prop :=
  match op with
  | .put key _ => Room d key
  | .remove key => hash key d.cap < 2 ^ 31

/-- The dictionary holds what the operations have left: in a table, found by its key, visited once, and freed when
another value replaces it. -/
structure IsMap (d : Dictionary α) (ops : List (FinMap.Op Bytes (Option α))) : Prop where
  table : Table d
  lookup : ∀ k, (d.dlookup k).map Prod.snd = FinMap.last ops k
  value : ∀ k, d.dvalue k = (FinMap.last ops k).join
  visited : ∀ k, k ∈ keys d.assocs ↔ (FinMap.last ops k).isSome
  frees : ∀ key value a, a ∈ d.dput_frees key value ↔ FinMap.last ops key = some (some a) ∧ value.isSome

theorem Table.isMap {d : Dictionary α} {ops : List (FinMap.Op Bytes (Option α))} (h : Table d)
    (hl : ∀ k, (d.dlookup k).map Prod.snd = FinMap.last ops k) : IsMap d ops := by
  have hvalue (k : Bytes) : d.dvalue k = (FinMap.last ops k).join := by
    rw [dvalue, ← hl k]
    cases d.dlookup k <;> rfl
  refine ⟨h, hl, hvalue, fun k => ?_, fun key value a => ?_⟩
  · rw [h.toKeyed.mem_keys, ← hl k, Option.isSome_map]
  · unfold dput_frees
    rw [hvalue]
    cases value with
    | none => cases (FinMap.last ops key).join <;> simp
    | some b =>
      rcases FinMap.last ops key with _ | _ | old
      · simp
      · simp
      · simp [eq_comm]

theorem run_table {op : FinMap.Op Bytes (Option α)} {d d' : Dictionary α} (h : Table d) (hf : Fits op d)
    (hr : Op.run op d = some d') :
    Table d' ∧ ∀ k, (d'.dlookup k).map Prod.snd = if k = op.key then op.value else (d.dlookup k).map Prod.snd := by
  cases op with
  | put key value =>
    cases hr
    refine ⟨h.dput hf value, fun k => ?_⟩
    rw [dlookup_dput]
    by_cases hk : k = key
    · simp [FinMap.Op.key, FinMap.Op.value, hk]
    · simp [FinMap.Op.key, hk]
  | remove key =>
    have hf : hash key d.cap < 2 ^ 31 := hf
    rw [Op.run] at hr
    obtain ⟨⟨np, d₁⟩, hd, rfl⟩ := Option.map_eq_some_iff.1 hr
    obtain ⟨-, ht, hl⟩ := h.dremove hf hd
    refine ⟨ht, fun k => ?_⟩
    rw [hl k]
    by_cases hk : k = key
    · simp [FinMap.Op.key, FinMap.Op.value, hk]
    · simp [FinMap.Op.key, hk]

theorem run_isSome {op : FinMap.Op Bytes (Option α)} {d : Dictionary α} (hf : Fits op d) : (Op.run op d).isSome := by
  cases op with
  | put key value => rfl
  | remove key =>
    have hf : hash key d.cap < 2 ^ 31 := hf
    simp only [Op.run, dremove_eq hf]
    rfl

/-- A dictionary is a finite map as long as its operations fit. -/
theorem trace_isMap {n : Nat} {ops : List (FinMap.Op Bytes (Option α))} {d : Dictionary α}
    (h : Runs.Trace Op.run Fits (dict_n n) ops d) : IsMap d ops ∧ ∀ op, Fits op d → (Op.run op d).isSome := by
  have hnone (k : Bytes) : ((dict_n n : Dictionary α).dlookup k).map Prod.snd = none := by
    rw [dlookup_dict_n, Option.map_none]
  obtain ⟨ht, hl⟩ := FinMap.refines Table (fun d k => (d.dlookup k).map Prod.snd) (table_dict_n n) hnone
    (fun op d d' => run_table) h
  exact ⟨ht.isMap hl, fun op hf => run_isSome hf⟩

instance (op : FinMap.Op Bytes (Option α)) (d : Dictionary α) : Decidable (Fits op d) :=
  match op with
  | .put _ _ => inferInstanceAs (Decidable (_ ∨ _))
  | .remove _ => inferInstanceAs (Decidable (_ < _))

def sampleOps : List (FinMap.Op Bytes (Option Nat)) :=
  [.put (str "a") (some 1), .put (str "b") (some 2), .put (str "a") (some 3), .remove (str "b")]

/-- One key is given another value, and one is removed. -/
theorem trace_isMap_sampleOps : ∃ d : Dictionary Nat, d.dvalue (str "a") = some 3 ∧ d.dvalue (str "b") = none ∧
    IsMap d sampleOps ∧ ∀ op, Fits op d → (Op.run op d).isSome := by
  have hrun : ((Runs.runAll (Runs.checked Fits Op.run) sampleOps (dict_n 15)).any fun d =>
      decide (d.dvalue (str "a") = some 3 ∧ d.dvalue (str "b") = none)) = true := by decide +kernel
  obtain ⟨d, hd, ha, hb⟩ := Runs.ends_in hrun
  exact ⟨d, ha, hb, trace_isMap (Runs.Trace.nil.checked (fun _ _ _ hf => hf) hd)⟩

/-- In a table of more than 2^31 buckets a removal can take a negative index. -/
theorem negative_index : ¬ ∀ (n : Nat) (ops : List (FinMap.Op Bytes (Option Nat))) (d : Dictionary Nat),
    Runs.Trace Op.run (fun _ _ => True) (dict_n n) ops d → IsMap d ops ∧ ∀ op, (Op.run op d).isSome := by
  intro h
  have hcap : (dict_n (2 ^ 31) : Dictionary Nat).cap = 2 ^ 31 + 1 := List.length_replicate
  have hkey : (simple_hash (str "xfjfxtf")).toNat = 2 ^ 31 := by decide
  have hneg : (dict_n (2 ^ 31) : Dictionary Nat).dremove (str "xfjfxtf") = none := by
    have hslot : hash (str "xfjfxtf") (dict_n (2 ^ 31) : Dictionary Nat).cap = 2 ^ 31 % (2 ^ 31 + 1) := by
      rw [hash, hcap, hkey]
    refine dremove_negative ?_
    rw [hslot, Nat.mod_eq_of_lt (Nat.lt_succ_self _)]
  have hrun := (h (2 ^ 31) [] (dict_n (2 ^ 31)) .nil).2 (.remove (str "xfjfxtf"))
  rw [Op.run, hneg] at hrun
  cases hrun

end Dictionary
end AntHttp
