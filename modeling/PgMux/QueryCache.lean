import Mathlib.Data.Finset.Basic
import PgMux.Bytes

/-!
# The query cache

Entries in the order of their last use, and an index from tables to keys. A cache carries its two
invariants: one entry for each key, and every entry indexed under each of its tables.
-/

namespace PgMux.QueryCache

abbrev Key := UInt64

structure Entry where
  key : Key
  result : Bytes
  tables : List Bytes
  expiresAt : Int
  deriving DecidableEq, Repr

structure Config where
  maxEntries : Int
  ttl : Int
  maxSize : Int
  deriving DecidableEq, Repr

abbrev Index := Bytes → Finset Key

def Indexed (entries : List Entry) (tableIndex : Index) : Prop :=
  ∀ e ∈ entries, ∀ t ∈ e.tables, e.key ∈ tableIndex t

/-- A cache with the entry used last in front. -/
structure Cache where
  cfg : Config
  entries : List Entry
  tableIndex : Index
  keys_nodup : (entries.map Entry.key).Nodup
  indexed : Indexed entries tableIndex

/-! ## The index -/

def unindex (tableIndex : Index) (e : Entry) : Index :=
  fun t => if t ∈ e.tables then (tableIndex t).erase e.key else tableIndex t

def updateTableIndex (tableIndex : Index) (key : Key) (tables : List Bytes) : Index :=
  fun t => if t ∈ tables then insert key (tableIndex t) else tableIndex t

variable {e : Entry} {key : Key} {t : Bytes} {tableIndex : Index} {tables : List Bytes}

theorem mem_unindex :
    key ∈ unindex tableIndex e t ↔ key ∈ tableIndex t ∧ ¬ (key = e.key ∧ t ∈ e.tables) := by
  unfold unindex
  by_cases ht : t ∈ e.tables
  · simp [ht, and_comm]
  · simp [ht]

theorem mem_foldl_unindex {removed : List Entry} : key ∈ removed.foldl unindex tableIndex t ↔
      key ∈ tableIndex t ∧ ∀ e ∈ removed, ¬ (key = e.key ∧ t ∈ e.tables) := by
  induction removed generalizing tableIndex with
  | nil => simp
  | cons e removed ih => rw [List.foldl_cons, ih, mem_unindex, List.forall_mem_cons, and_assoc]

theorem mem_updateTableIndex {key' : Key} (h : key' ∈ tableIndex t) :
    key' ∈ updateTableIndex tableIndex key tables t := by
  unfold updateTableIndex
  split
  · exact Finset.mem_insert_of_mem h
  · exact h

theorem mem_updateTableIndex_self (h : t ∈ tables) :
    key ∈ updateTableIndex tableIndex key tables t := by
  simp [updateTableIndex, h]

theorem keys_nodup_filter {entries : List Entry} (h : (entries.map Entry.key).Nodup)
    (p : Entry → Bool) : ((entries.filter p).map Entry.key).Nodup :=
  h.sublist (List.filter_sublist.map Entry.key)

/-! ## Operations -/

namespace Cache

def new (cfg : Config) : Cache where
  cfg := cfg
  entries := []
  tableIndex := fun _ => ∅
  keys_nodup := List.nodup_nil
  indexed _ he := absurd he List.not_mem_nil

def find (c : Cache) (key : Key) : Option Entry := c.entries.find? (·.key == key)

def removeKeys (c : Cache) (gone : Key → Bool) : Cache where
  cfg := c.cfg
  entries := c.entries.filter fun e => !gone e.key
  tableIndex := (c.entries.filter fun e => gone e.key).foldl unindex c.tableIndex
  keys_nodup := keys_nodup_filter c.keys_nodup _
  indexed := by
    intro e he t ht
    obtain ⟨he, hkept⟩ := List.mem_filter.mp he
    refine mem_foldl_unindex.mpr ⟨c.indexed e he t ht, fun e' he' hboth => ?_⟩
    obtain ⟨_, hgone⟩ := List.mem_filter.mp he'
    simp [hboth.1, hgone] at hkept

def removeElement (c : Cache) (key : Key) : Cache := c.removeKeys (· == key)

def putFront (c : Cache) (e : Entry) : Cache where
  cfg := c.cfg
  entries := e :: c.entries.filter (·.key != e.key)
  tableIndex := updateTableIndex c.tableIndex e.key e.tables
  keys_nodup := by
    refine List.nodup_cons.mpr ⟨fun hmem => ?_, keys_nodup_filter c.keys_nodup _⟩
    obtain ⟨e', he', hkey⟩ := List.mem_map.mp hmem
    have hne := (List.mem_filter.mp he').2
    simp [hkey] at hne
  indexed := by
    intro e' he' t ht
    obtain rfl | he' := List.mem_cons.mp he'
    · exact mem_updateTableIndex_self ht
    · exact mem_updateTableIndex (c.indexed e' (List.mem_filter.mp he').1 t ht)

def get (c : Cache) (key : Key) (now : Int) : Option Bytes × Cache :=
  match c.find key with
  | none => (none, c)
  | some e => if e.expiresAt < now then (none, c.removeElement key)
      else (some e.result, c.putFront e)

def evictOldest (c : Cache) : Cache :=
  match c.entries.getLast? with
  | none => c
  | some e => c.removeElement e.key

def set (c : Cache) (key : Key) (result : Bytes) (tables : List Bytes) (now : Int) : Cache :=
  if 0 < c.cfg.maxSize ∧ c.cfg.maxSize < result.length then c
  else
    let e : Entry := ⟨key, result, tables, now + c.cfg.ttl⟩
    if (c.find key).isSome then c.putFront e
    else if 0 < c.cfg.maxEntries ∧ c.cfg.maxEntries ≤ c.entries.length then c.evictOldest.putFront e
    else c.putFront e

def invalidateTable (c : Cache) (table : Bytes) : Cache :=
  let gone := c.tableIndex table
  let kept := c.removeKeys (· ∈ gone)
  { kept with
    tableIndex := Function.update kept.tableIndex table ∅
    indexed := by
      intro e he t ht
      have hne : t ≠ table := by
        rintro rfl
        obtain ⟨he, hkept⟩ := List.mem_filter.mp he
        simp [gone, c.indexed e he t ht] at hkept
      rw [Function.update_of_ne hne]
      exact kept.indexed e he t ht }

def flushAll (c : Cache) : Cache := new c.cfg

def len (c : Cache) : Nat := c.entries.length

theorem cfg_evictOldest (c : Cache) : c.evictOldest.cfg = c.cfg := by
  unfold evictOldest
  split
  · rfl
  · rfl

theorem cfg_get (c : Cache) (key : Key) (now : Int) : (c.get key now).2.cfg = c.cfg := by
  unfold get
  split
  · rfl
  split
  · rfl
  · rfl

theorem cfg_set (c : Cache) (key : Key) (result : Bytes) (tables : List Bytes) (now : Int) :
    (c.set key result tables now).cfg = c.cfg := by
  unfold set
  split
  · rfl
  dsimp only
  split
  · rfl
  split
  · exact c.cfg_evictOldest
  · rfl

/-! ## What the entries are behind an operation -/

variable {c : Cache}

theorem find_eq_some (h : c.find key = some e) : e ∈ c.entries ∧ e.key = key :=
  ⟨List.mem_of_find?_eq_some h, by simpa using List.find?_some h⟩

theorem eq_of_key_eq {e' : Entry} (he : e ∈ c.entries) (he' : e' ∈ c.entries)
    (hkey : e.key = e'.key) :
    e = e' := List.inj_on_of_nodup_map c.keys_nodup he he' hkey

theorem find_of_mem (he : e ∈ c.entries) : c.find e.key = some e := by
  obtain ⟨e', hfind⟩ : ∃ e', c.find e.key = some e' := Option.isSome_iff_exists.mp (by
    rw [find, List.find?_isSome]
    exact ⟨e, he, beq_self_eq_true e.key⟩)
  obtain ⟨he', hkey⟩ := find_eq_some hfind
  rw [hfind, eq_of_key_eq he' he hkey]

theorem tableIndex_removeElement (he : e ∈ c.entries) :
    (c.removeElement e.key).tableIndex = unindex c.tableIndex e := by
  funext t
  ext key
  rw [removeElement, removeKeys, mem_foldl_unindex, mem_unindex]
  refine and_congr_right fun _ => ⟨fun h => h e ?_, fun h e' he' hboth => ?_⟩
  · exact List.mem_filter.mpr ⟨he, beq_self_eq_true e.key⟩
  · obtain ⟨he', hkey⟩ := List.mem_filter.mp he'
    obtain rfl := eq_of_key_eq he' he (by simpa using hkey)
    exact h hboth

theorem ext_entries {d : Cache} (hcfg : c.cfg = d.cfg) (hentries : c.entries = d.entries)
    (hindex : ∀ t key, key ∈ c.tableIndex t ↔ key ∈ d.tableIndex t) : c = d := by
  obtain ⟨_, _, index, _, _⟩ := c
  obtain ⟨_, _, index', _, _⟩ := d
  obtain rfl : index = index' := funext fun t => Finset.ext (hindex t)
  dsimp only at hcfg hentries
  subst hcfg hentries
  rfl

theorem removeKeys_removeKeys (c : Cache) (p r : Key → Bool) :
    (c.removeKeys p).removeKeys r = c.removeKeys fun key => p key || r key := by
  refine ext_entries rfl ?_ fun t key => ?_
  · simp only [removeKeys, List.filter_filter]
    refine List.filter_congr fun e _ => ?_
    simp [Bool.and_comm]
  · simp only [removeKeys, mem_foldl_unindex, and_assoc, List.mem_filter]
    refine and_congr_right fun _ =>
    ⟨fun ⟨hp, hr⟩ e he => ?_, fun h => ⟨fun e he => ?_, fun e he => ?_⟩⟩
    · cases hgone : p e.key with
      | true => exact hp e ⟨he.1, hgone⟩
      | false => exact hr e ⟨he.1, by simp [hgone], by simpa [hgone] using he.2⟩
    · exact h e ⟨he.1, by simp [he.2]⟩
    · exact h e ⟨he.1, by simp [he.2.2]⟩

theorem removeKeys_of_none {p : Key → Bool} (h : ∀ e ∈ c.entries, p e.key = false) :
    c.removeKeys p = c := by
  refine ext_entries rfl ?_ fun t key => ?_
  · exact List.filter_eq_self.mpr fun e he => by simp [h e he]
  · rw [removeKeys, mem_foldl_unindex]
    refine and_iff_left fun e he => ?_
    obtain ⟨he, hgone⟩ := List.mem_filter.mp he
    exact nomatch (h e he).symm.trans hgone

theorem foldl_removeElement (c : Cache) (keys : List Key) :
    keys.foldl removeElement c = c.removeKeys (· ∈ keys) := by
  induction keys generalizing c with
  | nil => exact (removeKeys_of_none fun _ _ => by simp).symm
  | cons key keys ih =>
    rw [List.foldl_cons, ih, removeElement, removeKeys_removeKeys]
    congr 1
    funext key'
    simp [Bool.decide_or, beq_eq_decide]

theorem updateTableIndex_of_mem (he : e ∈ c.entries) :
    updateTableIndex c.tableIndex e.key e.tables = c.tableIndex := by
  funext t
  unfold updateTableIndex
  split
  · rename_i ht
    exact Finset.insert_eq_of_mem (c.indexed e he t ht)
  · rfl

theorem mem_removeKeys {gone : Key → Bool} (h : e ∈ (c.removeKeys gone).entries) : e ∈ c.entries :=
  (List.mem_filter.mp h).1

theorem mem_putFront {e' : Entry} (h : e' ∈ (c.putFront e).entries) : e' = e ∨ e' ∈ c.entries :=
  (List.mem_cons.mp h).imp_right fun h => (List.mem_filter.mp h).1

theorem mem_evictOldest (h : e ∈ c.evictOldest.entries) : e ∈ c.entries := by
  unfold evictOldest at h
  split at h
  · exact h
  · exact mem_removeKeys h

theorem mem_get {now : Int} (h : e ∈ (c.get key now).2.entries) : e ∈ c.entries := by
  unfold get at h
  split at h
  · exact h
  · rename_i e' hfind
    split at h
    · exact mem_removeKeys h
    · obtain rfl | h := mem_putFront h
      · exact (find_eq_some hfind).1
      · exact h

theorem get_eq_some {now : Int} {result : Bytes} (h : (c.get key now).1 = some result) :
    ∃ e ∈ c.entries, e.key = key ∧ e.result = result := by
  unfold get at h
  split at h
  · simp at h
  · rename_i e hfind
    split at h
    · simp at h
    · exact ⟨e, (find_eq_some hfind).1, (find_eq_some hfind).2, Option.some.inj h⟩

theorem mem_set {result : Bytes} {now : Int} (h : e ∈ (c.set key result tables now).entries) :
    e ∈ c.entries ∨ e = ⟨key, result, tables, now + c.cfg.ttl⟩ := by
  unfold set at h
  split at h
  · exact .inl h
  dsimp only at h
  split at h
  · exact (mem_putFront h).symm
  split at h
  · exact (mem_putFront h).symm.imp_left mem_evictOldest
  · exact (mem_putFront h).symm

theorem invalidateTable_of_empty {table : Bytes} (h : c.tableIndex table = ∅) :
    c.invalidateTable table = c := by
  have hnone : c.removeKeys (· ∈ c.tableIndex table) = c :=
    removeKeys_of_none fun e _ => by simp [h]
  refine ext_entries rfl ?_ fun t key => ?_
  · change (c.removeKeys (· ∈ c.tableIndex table)).entries = c.entries
    rw [hnone]
  · by_cases ht : t = table
    · simp [invalidateTable, ht, h]
    · simp [invalidateTable, Function.update_of_ne ht, hnone]

theorem mem_invalidateTable {table : Bytes} (h : e ∈ (c.invalidateTable table).entries) :
    e ∈ c.entries ∧ table ∉ e.tables := by
  obtain ⟨he, hkept⟩ := List.mem_filter.mp h
  refine ⟨he, fun ht => ?_⟩
  simp [c.indexed e he table ht] at hkept

theorem mem_foldl_invalidateTable (h : e ∈ (tables.foldl invalidateTable c).entries) :
    e ∈ c.entries ∧ ∀ t ∈ tables, t ∉ e.tables := by
  induction tables generalizing c with
  | nil => exact ⟨h, fun t ht => absurd ht List.not_mem_nil⟩
  | cons t tables ih =>
    obtain ⟨he, hrest⟩ := ih h
    obtain ⟨he, ht⟩ := mem_invalidateTable he
    refine ⟨he, fun t' ht' => ?_⟩
    obtain rfl | ht' := List.mem_cons.mp ht'
    · exact ht
    · exact hrest t' ht'

end Cache

end PgMux.QueryCache
