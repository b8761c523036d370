import Mathlib.Data.Finset.Sort
import PgMux.Elements
import PgMux.QueryCache

/-!
# The cache in memory

A map from keys to elements of the eviction list, the list itself, and for each table the set of
keys indexed under it. Maps are walked in any order. Every operation does to the three what the
operation of the query cache does to its entries and its index.
-/

namespace PgMux.CacheMaps

open QueryCache (Key Entry Config)

abbrev TableIndex := Bytes → Option (Finset Key)

structure Cache where
  cfg : Config
  items : Key → Option Nat
  evictList : Elements Entry
  tableIndex : TableIndex

structure Order where
  walk : Finset Key → List Key
  walk_val : ∀ keys, (walk keys : Multiset Key) = keys.val

instance : IsTrans Key (· ≤ ·) := ⟨fun _ _ _ => UInt64.le_trans⟩

instance : Inhabited Order :=
  ⟨⟨fun keys => keys.sort (· ≤ ·), fun keys => Finset.sort_eq keys (· ≤ ·)⟩⟩

theorem Order.mem_walk (order : Order) (keys : Finset Key) (key : Key) :
    key ∈ order.walk keys ↔ key ∈ keys := by
  rw [← Multiset.mem_coe, order.walk_val, Finset.mem_val]

/-! ## Operations -/

def dropKey (key : Key) (tableIndex : TableIndex) (table : Bytes) : TableIndex :=
  match tableIndex table with
  | none => tableIndex
  | some keys =>
    Function.update tableIndex table (if keys.erase key = ∅ then none else some (keys.erase key))

def addKey (key : Key) (tableIndex : TableIndex) (table : Bytes) : TableIndex :=
  Function.update tableIndex table (some (insert key ((tableIndex table).getD ∅)))

namespace Cache

def new (cfg : Config) : Cache := ⟨cfg, fun _ => none, .empty Entry, fun _ => none⟩

def removeElement (c : Cache) (elem : Nat) : Cache :=
  match c.evictList.value elem with
  | none => c
  | some e =>
    { c with
      evictList := c.evictList.remove elem
      items := Function.update c.items e.key none
      tableIndex := e.tables.foldl (dropKey e.key) c.tableIndex }

def evictOldest (c : Cache) : Cache :=
  match c.evictList.back with
  | none => c
  | some elem => c.removeElement elem

def updateTableIndex (c : Cache) (key : Key) (tables : List Bytes) : Cache :=
  { c with tableIndex := tables.foldl (addKey key) c.tableIndex }

def get (c : Cache) (key : Key) (now : Int) : Option Bytes × Cache :=
  match c.items key with
  | none => (none, c)
  | some elem =>
    match c.evictList.value elem with
    | none => (none, c)
    | some e =>
      if e.expiresAt < now then (none, c.removeElement elem)
      else (some e.result, { c with evictList := c.evictList.moveToFront elem })

def insert (c : Cache) (e : Entry) : Cache :=
  let (elem, evictList) := c.evictList.pushFront e
  { c with
    evictList := evictList
    items := Function.update c.items e.key (some elem) }.updateTableIndex e.key e.tables

def set (c : Cache) (key : Key) (result : Bytes) (tables : List Bytes) (now : Int) : Cache :=
  if 0 < c.cfg.maxSize ∧ c.cfg.maxSize < result.length then c
  else
    match c.items key with
    | some elem =>
      let evictList := (c.evictList.moveToFront elem).modify elem fun e =>
        { e with result := result, tables := tables, expiresAt := now + c.cfg.ttl }
      { c with evictList := evictList }.updateTableIndex key tables
    | none =>
      let e : Entry := ⟨key, result, tables, now + c.cfg.ttl⟩
      if 0 < c.cfg.maxEntries ∧ c.cfg.maxEntries ≤ c.evictList.len then c.evictOldest.insert e
        else c.insert e

def removeKey (c : Cache) (key : Key) : Cache :=
  match c.items key with
  | none => c
  | some elem => c.removeElement elem

def invalidateTable (c : Cache) (order : Order) (table : Bytes) : Cache :=
  match c.tableIndex table with
  | none => c
  | some keys =>
    let c := (order.walk keys).foldl removeKey c
    { c with tableIndex := Function.update c.tableIndex table none }

def flushAll (c : Cache) : Cache :=
  { c with items := fun _ => none, evictList := c.evictList.init, tableIndex := fun _ => none }

def len (c : Cache) : Nat := c.evictList.len

end Cache

/-! ## The index -/

def keysOf (tableIndex : TableIndex) (table : Bytes) : Finset Key := (tableIndex table).getD ∅

def NoEmpty (tableIndex : TableIndex) : Prop := ∀ table, tableIndex table ≠ some ∅

section

variable {key : Key} {tableIndex : TableIndex} {table : Bytes}

theorem keysOf_dropKey (t : Bytes) :
    keysOf (dropKey key tableIndex table) t =
      if t = table then (keysOf tableIndex t).erase key else keysOf tableIndex t := by
  unfold dropKey keysOf
  by_cases ht : t = table
  · subst ht
    cases h : tableIndex t with
    | none => simp [h]
    | some keys =>
      by_cases hempty : keys.erase key = ∅
      · simp [hempty]
      · simp [hempty]
  · rw [if_neg ht]
    cases tableIndex table with
    | none => rfl
    | some keys => simp [Function.update_of_ne ht]

theorem NoEmpty.dropKey (h : NoEmpty tableIndex) : NoEmpty (dropKey key tableIndex table) := by
  intro t
  unfold CacheMaps.dropKey
  cases tableIndex table with
  | none => exact h t
  | some keys =>
    by_cases ht : t = table
    · subst ht
      by_cases hempty : keys.erase key = ∅
      · simp [hempty]
      · simp [hempty]
    · simpa [Function.update_of_ne ht] using h t

theorem keysOf_foldl_dropKey (tables : List Bytes) (t : Bytes) :
    keysOf (tables.foldl (dropKey key) tableIndex) t =
      if t ∈ tables then (keysOf tableIndex t).erase key else keysOf tableIndex t := by
  induction tables generalizing tableIndex with
  | nil => simp
  | cons table tables ih =>
    rw [List.foldl_cons, ih, keysOf_dropKey]
    by_cases ht : t = table
    · simp [ht]
    · simp [ht]

theorem NoEmpty.foldl_dropKey (h : NoEmpty tableIndex) (tables : List Bytes) :
    NoEmpty (tables.foldl (CacheMaps.dropKey key) tableIndex) := by
  induction tables generalizing tableIndex with
  | nil => exact h
  | cons table tables ih => exact ih h.dropKey

theorem keysOf_addKey (t : Bytes) :
    keysOf (addKey key tableIndex table) t =
      if t = table then insert key (keysOf tableIndex t) else keysOf tableIndex t := by
  unfold addKey keysOf
  by_cases ht : t = table
  · simp [ht]
  · simp [ht]

theorem keysOf_foldl_addKey (tables : List Bytes) (t : Bytes) :
    keysOf (tables.foldl (addKey key) tableIndex) t =
      if t ∈ tables then insert key (keysOf tableIndex t) else keysOf tableIndex t := by
  induction tables generalizing tableIndex with
  | nil => simp
  | cons table tables ih =>
    rw [List.foldl_cons, ih, keysOf_addKey]
    by_cases ht : t = table
    · simp [ht]
    · simp [ht]

theorem NoEmpty.foldl_addKey (h : NoEmpty tableIndex) (tables : List Bytes) :
    NoEmpty (tables.foldl (addKey key) tableIndex) := by
  induction tables generalizing tableIndex with
  | nil => exact h
  | cons table tables ih =>
    refine ih fun t => ?_
    by_cases ht : t = table
    · simp [addKey, ht]
    · simpa [addKey, Function.update_of_ne ht] using h t

end

/-! ## The query cache behind it -/

/-- The maps hold the entries of a query cache and its index. -/
structure Refines (c : Cache) (q : QueryCache.Cache) : Prop where
  cfg : c.cfg = q.cfg
  entries : c.evictList.values = q.entries
  items : ∀ key elem, c.items key = some elem ↔ ∃ e, (elem, e) ∈ c.evictList.elems ∧ e.key = key
  index : ∀ table, keysOf c.tableIndex table = q.tableIndex table
  noEmpty : NoEmpty c.tableIndex

theorem refines_new (cfg : Config) : Refines (.new cfg) (.new cfg) where
  cfg := rfl
  entries := rfl
  items key elem := by simp [Cache.new, Elements.empty]
  index _ := rfl
  noEmpty _ := nofun

section

variable {c : Cache} {q : QueryCache.Cache} {elem : Nat} {e : Entry}

theorem Refines.mem_entries (h : Refines c q) (he : (elem, e) ∈ c.evictList.elems) :
    e ∈ q.entries := by
  rw [← h.entries]
  exact List.mem_map_of_mem he

theorem Refines.find (h : Refines c q) (key : Key) :
    q.find key = (c.items key).bind c.evictList.value := by
  cases hitem : c.items key with
  | none =>
    refine List.find?_eq_none.mpr fun e he hkey => ?_
    rw [← h.entries] at he
    obtain ⟨p, hp, rfl⟩ := List.mem_map.mp he
    have hsome := (h.items key p.1).mpr ⟨p.2, hp, by simpa using hkey⟩
    simp [hitem] at hsome
  | some elem =>
    obtain ⟨e, he, rfl⟩ := (h.items key elem).mp hitem
    rw [Option.bind_some, Elements.value_eq_some.mpr he]
    exact QueryCache.Cache.find_of_mem (h.mem_entries he)

theorem Refines.name_eq_iff (h : Refines c q) (he : (elem, e) ∈ c.evictList.elems) {p : Nat × Entry}
    (hp : p ∈ c.evictList.elems) : p.1 = elem ↔ p.2.key = e.key := by
  refine ⟨fun hname => ?_, fun hkey => ?_⟩
  · rw [List.inj_on_of_nodup_map c.evictList.names_nodup hp he hname]
  · have hp' := (h.items p.2.key p.1).mpr ⟨p.2, hp, rfl⟩
    have he' := (h.items e.key elem).mpr ⟨e, he, rfl⟩
    rw [hkey] at hp'
    exact Option.some.inj (hp'.symm.trans he')

theorem Refines.others (h : Refines c q) (he : (elem, e) ∈ c.evictList.elems) :
    (c.evictList.elems.filter (·.1 != elem)).map Prod.snd = q.entries.filter (·.key != e.key) := by
  rw [← h.entries, Elements.values, List.filter_map]
  congr 1
  refine List.filter_congr fun p hp => ?_
  have hsame : (p.1 == elem) = (p.2.key == e.key) := by
    simpa using h.name_eq_iff he hp
  simp [bne, hsame]

theorem Refines.removeElement (h : Refines c q) (he : (elem, e) ∈ c.evictList.elems) :
    Refines (c.removeElement elem) (q.removeElement e.key) := by
  rw [Cache.removeElement, Elements.value_eq_some.mpr he]
  refine ⟨h.cfg, h.others he, fun key elem' => ?_, fun t => ?_, h.noEmpty.foldl_dropKey e.tables⟩
  · dsimp only
    by_cases hkey : key = e.key
    · subst hkey
      simp only [Function.update_self, reduceCtorEq, false_iff, Elements.remove, List.mem_filter]
      rintro ⟨e', ⟨he', hne⟩, hkey⟩
      have hname : elem' = elem := (h.name_eq_iff he he').mpr hkey
      simp [hname] at hne
    · rw [Function.update_of_ne hkey, h.items]
      refine exists_congr fun e' => and_congr_left fun hkey' => ?_
      simp only [Elements.remove, List.mem_filter, bne_iff_ne, ne_eq, iff_self_and]
      intro he' hname
      exact hkey (hkey'.symm.trans ((h.name_eq_iff he he').mp hname))
  · rw [keysOf_foldl_dropKey, QueryCache.Cache.tableIndex_removeElement (h.mem_entries he),
      QueryCache.unindex, h.index]

theorem Refines.putFront (h : Refines c q) (he : (elem, e) ∈ c.evictList.elems) (e' : Entry)
    (hkey : e'.key = e.key) {evictList : Elements Entry}
    (hlist : evictList.elems = (elem, e') :: c.evictList.elems.filter (·.1 != elem))
    {tableIndex : TableIndex}
    (hindex : ∀ t, keysOf tableIndex t =
      QueryCache.updateTableIndex q.tableIndex e'.key e'.tables t)
    (hempty : NoEmpty tableIndex) :
    Refines { c with evictList := evictList, tableIndex := tableIndex } (q.putFront e') := by
  refine ⟨h.cfg, ?_, fun key elem' => ?_, hindex, hempty⟩
  · rw [Elements.values, hlist, List.map_cons, h.others he, ← hkey]
    rfl
  · dsimp only
    rw [h.items, hlist]
    by_cases hname : elem' = elem
    · subst hname
      have huniq : ∀ e₁, (elem', e₁) ∈ c.evictList.elems → e₁.key = e.key := fun e₁ he₁ =>
      (h.name_eq_iff he he₁).mp rfl
      simp only [List.mem_cons, Prod.mk.injEq, true_and, List.mem_filter, bne_self_eq_false,
        Bool.false_eq_true, and_false, or_false, exists_eq_left, hkey]
      exact ⟨fun ⟨e₁, he₁, hkey₁⟩ => (huniq e₁ he₁).symm.trans hkey₁, fun hkey₁ => ⟨e, he, hkey₁⟩⟩
    · simp [hname]

theorem Refines.items_eq_none (h : Refines c q) {key : Key} :
    c.items key = none ↔ ∀ e ∈ q.entries, e.key ≠ key := by
  rw [← h.entries, Option.eq_none_iff_forall_ne_some]
  refine ⟨fun hnone e he hkey => ?_, fun hnone elem hitem => ?_⟩
  · obtain ⟨p, hp, rfl⟩ := List.mem_map.mp he
    exact hnone p.1 ((h.items key p.1).mpr ⟨p.2, hp, hkey⟩)
  · obtain ⟨e, he, hkey⟩ := (h.items key elem).mp hitem
    exact hnone e (List.mem_map_of_mem he) hkey

theorem Refines.insert (h : Refines c q) (hnone : c.items e.key = none) :
    Refines (c.insert e) (q.putFront e) := by
  have hothers := h.items_eq_none.mp hnone
  refine ⟨h.cfg, ?_, fun key elem => ?_, fun t => ?_, h.noEmpty.foldl_addKey e.tables⟩
  · have hfilter : q.entries.filter (·.key != e.key) = q.entries :=
      List.filter_eq_self.mpr fun e' he' => by simpa using hothers e' he'
    change e :: c.evictList.values = e :: q.entries.filter (·.key != e.key)
    rw [hfilter, h.entries]
  · change Function.update c.items e.key (some c.evictList.next) key = some elem ↔
      ∃ e', (elem, e') ∈ (c.evictList.next, e) :: c.evictList.elems ∧ e'.key = key
    by_cases hkey : key = e.key
    · subst hkey
      rw [Function.update_self, Option.some.injEq]
      refine ⟨fun hname => ⟨e, by simp [hname], rfl⟩, fun ⟨e', he', hkey⟩ => ?_⟩
      obtain hhead | he' := List.mem_cons.mp he'
      · exact (congrArg Prod.fst hhead).symm
      · exact absurd hkey (hothers e' (h.mem_entries he'))
    · rw [Function.update_of_ne hkey, h.items]
      refine exists_congr fun e' => and_congr_left fun hkey' => ?_
      refine ⟨List.mem_cons_of_mem _,
        fun he' => (List.mem_cons.mp he').resolve_left fun hhead => ?_⟩
      exact hkey (hkey'.symm.trans (congrArg (·.2.key) hhead))
  · exact (keysOf_foldl_addKey e.tables t).trans (by rw [h.index]; rfl)

theorem Refines.evictOldest (h : Refines c q) : Refines c.evictOldest q.evictOldest := by
  have hlast : q.entries.getLast? = c.evictList.elems.getLast?.map Prod.snd := by
    rw [← h.entries, Elements.values, List.getLast?_map]
  unfold Cache.evictOldest QueryCache.Cache.evictOldest Elements.back
  rw [hlast]
  cases hback : c.evictList.elems.getLast? with
  | none => exact h
  | some p => exact h.removeElement (List.mem_of_getLast? hback)

theorem Refines.get (h : Refines c q) (key : Key) (now : Int) :
    (c.get key now).1 = (q.get key now).1 ∧ Refines (c.get key now).2 (q.get key now).2 := by
  unfold Cache.get QueryCache.Cache.get
  rw [h.find key]
  cases hitem : c.items key with
  | none => exact ⟨rfl, h⟩
  | some elem =>
    obtain ⟨e, he, rfl⟩ := (h.items key elem).mp hitem
    simp only [Option.bind_some, Elements.value_eq_some.mpr he]
    split
    · exact ⟨rfl, h.removeElement he⟩
    · refine ⟨rfl, h.putFront he e rfl (Elements.elems_moveToFront he) (fun t => ?_) h.noEmpty⟩
      rw [QueryCache.Cache.updateTableIndex_of_mem (h.mem_entries he)]
      exact h.index t

theorem Refines.set (h : Refines c q) (key : Key) (result : Bytes) (tables : List Bytes)
    (now : Int) : Refines (c.set key result tables now) (q.set key result tables now) := by
  have hlen : c.evictList.len =
    q.entries.length := by rw [← h.entries, Elements.values, List.length_map]; rfl
  unfold Cache.set QueryCache.Cache.set
  rw [h.find key, ← h.cfg, hlen]
  split
  · exact h
  cases hitem : c.items key with
  | some elem =>
    obtain ⟨e, he, rfl⟩ := (h.items key elem).mp hitem
    simp only [Option.bind_some, Elements.value_eq_some.mpr he, Option.isSome_some, ↓reduceIte]
    have hlist := Elements.elems_modify_moveToFront he fun e =>
      { e with result := result, tables := tables, expiresAt := now + c.cfg.ttl }
    refine h.putFront he ⟨e.key, result, tables, now + c.cfg.ttl⟩ rfl hlist (fun t => ?_)
      (h.noEmpty.foldl_addKey tables)
    exact (keysOf_foldl_addKey tables t).trans (by rw [h.index]; rfl)
  | none =>
    have hnone := h.items_eq_none.mp hitem
    simp only [Option.bind_none, Option.isSome_none, Bool.false_eq_true, ↓reduceIte]
    split
    · refine h.evictOldest.insert (h.evictOldest.items_eq_none.mpr fun e he => ?_)
      exact hnone e (QueryCache.Cache.mem_evictOldest he)
    · exact h.insert hitem

theorem Refines.removeKey (h : Refines c q) (key : Key) :
    Refines (c.removeKey key) (q.removeElement key) := by
  unfold Cache.removeKey
  cases hitem : c.items key with
  | some elem =>
    obtain ⟨e, he, rfl⟩ := (h.items key elem).mp hitem
    exact h.removeElement he
  | none =>
    have hsame : q.removeElement key = q := QueryCache.Cache.removeKeys_of_none fun e he => by
      simpa using h.items_eq_none.mp hitem e he
    rw [hsame]
    exact h

theorem Refines.foldl_removeKey (h : Refines c q) (keys : List Key) :
    Refines (keys.foldl Cache.removeKey c) (q.removeKeys (· ∈ keys)) := by
  rw [← QueryCache.Cache.foldl_removeElement]
  induction keys generalizing c q with
  | nil => exact h
  | cons key keys ih => exact ih (h.removeKey key)

theorem Refines.invalidateTable (h : Refines c q) (order : Order) (table : Bytes) :
    Refines (c.invalidateTable order table) (q.invalidateTable table) := by
  unfold Cache.invalidateTable
  have hindex := h.index table
  cases hkeys : c.tableIndex table with
  | none =>
    have hgone : q.tableIndex table = ∅ := by rw [← hindex, keysOf, hkeys]; rfl
    rw [QueryCache.Cache.invalidateTable_of_empty hgone]
    exact h
  | some keys =>
    have hgone : q.tableIndex table = keys := by rw [← hindex, keysOf, hkeys]; rfl
    have hkept := h.foldl_removeKey (order.walk keys)
    have hwalk : (fun key => decide (key ∈ order.walk keys)) = fun key =>
        decide (key ∈ q.tableIndex table) := by
      funext key
      simp [hgone, order.mem_walk]
    rw [hwalk] at hkept
    refine ⟨hkept.cfg, hkept.entries, hkept.items, fun t => ?_, fun t => ?_⟩
    · by_cases ht : t = table
      · simp [keysOf, QueryCache.Cache.invalidateTable, ht]
      · simpa [keysOf, QueryCache.Cache.invalidateTable,
          Function.update_of_ne ht] using hkept.index t
    · by_cases ht : t = table
      · simp [ht]
      · simpa [Function.update_of_ne ht] using hkept.noEmpty t

theorem Refines.flushAll (h : Refines c q) : Refines c.flushAll q.flushAll where
  cfg := h.cfg
  entries := rfl
  items key elem := by simp [Cache.flushAll, Elements.init]
  index _ := rfl
  noEmpty _ := nofun

end

end PgMux.CacheMaps
