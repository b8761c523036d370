import PgMux.CacheRuns

/-!
# Cache keys

The simple queries, the extended ones and the Data API share one cache. A key is the exclusive or of
a hash of the query, a hash of the database's name and a constant for the format.
-/

namespace PgMux.CacheKeys

open QueryCache (Key Config)
open CacheRuns

def write (h : UInt64) (bytes : Bytes) : UInt64 :=
  bytes.foldl (fun h c => (h ^^^ c.toUInt64) * 1099511628211) h

def sum64 (bytes : Bytes) : UInt64 := write 14695981039346656037 bytes

def cacheKey (query : Bytes) (params : List (Option Bytes)) : Key :=
  params.foldl (fun h p => p.elim h (write h)) (sum64 query)

def withNamespace (key ns : Key) : Key := key ^^^ ns

def mixDBName (key : Key) (dbName : Bytes) : Key :=
  if dbName = [] then key else key ^^^ sum64 dbName

def hashLoop (h : UInt64) : Bytes → UInt64
  | [] => h
  | c :: w => hashLoop ((h ^^^ c.toUInt64) * 1099511628211) w

def mixDBNameDataAPI (key : Key) (dbName : Bytes) : Key :=
  if dbName = [] then key else key ^^^ hashLoop 14695981039346656037 dbName

inductive Namespace where
  | proxyWire | dataAPI | extended
  deriving DecidableEq, Repr

def Namespace.mask : Namespace → Key
  | .proxyWire => 0
  | .dataAPI => 0xa5a5a5a5a5a5a5a5
  | .extended => 0x5a5a5a5a5a5a5a5a

structure Query where
  ns : Namespace
  db : Bytes
  text : Bytes
  deriving DecidableEq, Repr

def Query.key (q : Query) : Key :=
  match q.ns with
  | .proxyWire => mixDBName (cacheKey q.text []) q.db
  | .dataAPI => withNamespace (mixDBNameDataAPI (cacheKey q.text []) q.db) Namespace.dataAPI.mask
  | .extended => withNamespace (mixDBName (cacheKey q.text []) q.db) Namespace.extended.mask

/-! ## Keys -/

theorem hashLoop_eq (h : UInt64) (bytes : Bytes) : hashLoop h bytes = write h bytes := by
  induction bytes generalizing h with
  | nil => rfl
  | cons c w ih => exact ih _

theorem mixDBNameDataAPI_eq (key : Key) (dbName : Bytes) :
    mixDBNameDataAPI key dbName = mixDBName key dbName := by
  simp only [mixDBNameDataAPI, mixDBName, hashLoop_eq, sum64]

def dbHash (dbName : Bytes) : Key := if dbName = [] then 0 else sum64 dbName

theorem mixDBName_eq (key : Key) (dbName : Bytes) :
    mixDBName key dbName = key ^^^ dbHash dbName := by
  unfold mixDBName dbHash
  split
  · rw [UInt64.xor_zero]
  · rfl

theorem key_eq (q : Query) : q.key = sum64 q.text ^^^ dbHash q.db ^^^ q.ns.mask := by
  unfold Query.key
  split
  · rename_i hns
    rw [hns, Namespace.mask, UInt64.xor_zero, mixDBName_eq]
    rfl
  · rename_i hns
    rw [hns, mixDBNameDataAPI_eq, mixDBName_eq]
    rfl
  · rename_i hns
    rw [hns, mixDBName_eq]
    rfl

theorem mask_injective {m n : Namespace} (h : m.mask = n.mask) : m = n := by
  cases m
  all_goals cases n
  all_goals first | rfl | exact absurd h (by decide)

def NoCollisions (a b : Query) : Prop :=
  ∀ x ∈ [a.text, b.text, a.db, b.db], ∀ y ∈ [a.text, b.text, a.db, b.db], sum64 x = sum64 y → x = y

/-- Two or three parts differ, and the differences of their hashes are the same. -/
def Cancels (a b : Query) : Prop :=
  (a.text = b.text ∧ a.db ≠ b.db ∧ a.ns ≠ b.ns ∧
    dbHash a.db ^^^ dbHash b.db = a.ns.mask ^^^ b.ns.mask) ∨
  (a.db = b.db ∧ a.text ≠ b.text ∧ a.ns ≠ b.ns ∧
    sum64 a.text ^^^ sum64 b.text = a.ns.mask ^^^ b.ns.mask) ∨
  (a.ns = b.ns ∧ a.text ≠ b.text ∧ a.db ≠ b.db ∧
    sum64 a.text ^^^ sum64 b.text = dbHash a.db ^^^ dbHash b.db) ∨
  (a.text ≠ b.text ∧ a.db ≠ b.db ∧ a.ns ≠ b.ns ∧
    sum64 a.text ^^^ sum64 b.text = (dbHash a.db ^^^ dbHash b.db) ^^^ (a.ns.mask ^^^ b.ns.mask))

def Vanishes (a b : Query) : Prop :=
  a.ns = b.ns ∧ a.text = b.text ∧
    ((a.db = [] ∧ b.db ≠ [] ∧ sum64 b.db = 0) ∨ (b.db = [] ∧ a.db ≠ [] ∧ sum64 a.db = 0))

theorem key_eq_iff (a b : Query) :
    a.key = b.key ↔ sum64 a.text ^^^ sum64 b.text =
      (dbHash a.db ^^^ dbHash b.db) ^^^ (a.ns.mask ^^^ b.ns.mask) := by
  rw [key_eq, key_eq, ← UInt64.xor_eq_zero_iff,
    ← UInt64.xor_eq_zero_iff (a := sum64 a.text ^^^ sum64 b.text)]
  have hreorder (x y d e m n : UInt64) :
    x ^^^ d ^^^ m ^^^ (y ^^^ e ^^^ n) = x ^^^ y ^^^ (d ^^^ e ^^^ (m ^^^ n)) := by ac_rfl
  rw [hreorder]

section

variable {a b : Query} (h : NoCollisions a b)

include h

theorem db_eq_of_dbHash (hdb : dbHash a.db = dbHash b.db) :
    a.db = b.db ∨ (a.db = [] ∧ b.db ≠ [] ∧ sum64 b.db = 0) ∨
    (b.db = [] ∧ a.db ≠ [] ∧ sum64 a.db = 0) := by
  unfold dbHash at hdb
  split at hdb
  · rename_i ha
    split at hdb
    · rename_i hb
      exact .inl (ha.trans hb.symm)
    · rename_i hb
      exact .inr (.inl ⟨ha, hb, hdb.symm⟩)
  · rename_i ha
    split at hdb
    · rename_i hb
      exact .inr (.inr ⟨hb, ha, hdb⟩)
    · exact .inl (h _ (by simp) _ (by simp) hdb)

theorem cancels_of_key_eq (hne : a ≠ b) (hkey : a.key = b.key) : Cancels a b ∨ Vanishes a b := by
  have hdiff := (key_eq_iff a b).mp hkey
  by_cases htext : a.text = b.text
  · rw [htext, UInt64.xor_self, eq_comm, UInt64.xor_eq_zero_iff] at hdiff
    by_cases hns : a.ns = b.ns
    · rw [hns, UInt64.xor_self, UInt64.xor_eq_zero_iff] at hdiff
      have hdb : a.db ≠ b.db := by
        intro hdb
        exact hne (by cases a; cases b; simp_all)
      exact .inr ⟨hns, htext, (db_eq_of_dbHash h hdiff).resolve_left hdb⟩
    · by_cases hdb : a.db = b.db
      · rw [hdb, UInt64.xor_self, eq_comm, UInt64.xor_eq_zero_iff] at hdiff
        exact absurd (mask_injective hdiff) hns
      · exact .inl (.inl ⟨htext, hdb, hns, hdiff⟩)
  · by_cases hdb : a.db = b.db
    · rw [hdb, UInt64.xor_self, UInt64.zero_xor] at hdiff
      by_cases hns : a.ns = b.ns
      · rw [hns, UInt64.xor_self, UInt64.xor_eq_zero_iff] at hdiff
        exact absurd (h _ (by simp) _ (by simp) hdiff) htext
      · exact .inl (.inr (.inl ⟨hdb, htext, hns, hdiff⟩))
    · by_cases hns : a.ns = b.ns
      · rw [hns, UInt64.xor_self, UInt64.xor_zero] at hdiff
        exact .inl (.inr (.inr (.inl ⟨hns, htext, hdb, hdiff⟩)))
      · exact .inl (.inr (.inr (.inr ⟨htext, hdb, hns, hdiff⟩)))

omit h in
theorem ne_of_cancels (hcancels : Cancels a b) : a ≠ b ∧ a.key = b.key := by
  rw [key_eq_iff]
  rcases hcancels with ⟨htext, hdb, hns, hdiff⟩ | ⟨hdb, htext, hns, hdiff⟩ | ⟨hns, htext,
    hdb, hdiff⟩ |
    ⟨htext, hdb, hns, hdiff⟩
  · exact ⟨fun hab => hdb (hab ▸ rfl), by rw [htext, hdiff, UInt64.xor_self, UInt64.xor_self]⟩
  · exact ⟨fun hab => htext (hab ▸ rfl), by rw [hdb, hdiff, UInt64.xor_self, UInt64.zero_xor]⟩
  · exact ⟨fun hab => htext (hab ▸ rfl), by rw [hns, hdiff, UInt64.xor_self, UInt64.xor_zero]⟩
  · exact ⟨fun hab => htext (hab ▸ rfl), hdiff⟩

omit h in
theorem ne_of_vanishes (hvanishes : Vanishes a b) : a ≠ b ∧ a.key = b.key := by
  obtain ⟨hns, htext, hdb⟩ := hvanishes
  have hdbHash : dbHash a.db = dbHash b.db := by
    obtain ⟨ha, hb, hzero⟩ | ⟨hb, ha, hzero⟩ := hdb
    · rw [dbHash, dbHash, if_pos ha, if_neg hb, hzero]
    · rw [dbHash, dbHash, if_neg ha, if_pos hb, hzero]
  refine ⟨?_, by rw [key_eq, key_eq, hns, htext, hdbHash]⟩
  rintro rfl
  obtain ⟨ha, hb, _⟩ | ⟨hb, ha, _⟩ := hdb
  · exact hb ha
  · exact ha hb

end

/-! ## Lookups -/

inductive Act where
  | lookup (q : Query) (now : Int)
  | store (q : Query) (result : Bytes) (tables : List Bytes) (now : Int)
  | invalidateTable (order : CacheMaps.Order) (table : Bytes)
  | flushAll

def Act.command : Act → Command
  | .lookup q now => .op (.get q.key now)
  | .store q result tables now => .op (.set q.key result tables now)
  | .invalidateTable order table => .invalidateTable order table
  | .flushAll => .op .flushAll

theorem entry_stored (cfg : Config) (acts : List Act) :
    ∀ e ∈ (queryAfter cfg (acts.map Act.command)).entries,
      ∃ q tables now, Act.store q e.result tables now ∈ acts ∧ q.key = e.key := by
  induction acts using List.reverseRecOn with
  | nil => exact fun e he => absurd he List.not_mem_nil
  | append_singleton acts act ih =>
    intro e he
    rw [queryAfter, List.map_append, List.foldl_append] at he
    have hold : e ∈ (queryAfter cfg (acts.map Act.command)).entries →
        ∃ q tables now, Act.store q e.result tables now ∈ acts ++ [act] ∧ q.key = e.key := by
      intro he
      obtain ⟨q, tables, now, hmem, hkey⟩ := ih e he
      exact ⟨q, tables, now, List.mem_append_left _ hmem, hkey⟩
    cases act with
    | lookup q now => exact hold (QueryCache.Cache.mem_get he)
    | store q result tables now =>
      obtain he | rfl := QueryCache.Cache.mem_set he
      · exact hold he
      · exact ⟨q, tables, now, by simp, rfl⟩
    | invalidateTable order table => exact hold (QueryCache.Cache.mem_invalidateTable he).1
    | flushAll => exact absurd he List.not_mem_nil

/-- Keys of different queries are equal just if differences cancel or a hash of a name is 0. -/
theorem keys_isolate_iff (cfg : Config) (acts : List Act) :
    (∀ a b, NoCollisions a b → ((a.key = b.key → a = b) ↔ ¬ (Cancels a b ∨ Vanishes a b))) ∧
      ∀ (a : Query) (now : Int) (result : Bytes),
        (∀ b r tables t, Act.store b r tables t ∈ acts → NoCollisions a b ∧
          ¬ (Cancels a b ∨ Vanishes a b)) →
        ((after cfg (acts.map Act.command)).get a.key now).1 = some result →
          ∃ tables t, Act.store a result tables t ∈ acts := by
  have hiff : ∀ a b, NoCollisions a b →
      ((a.key = b.key → a = b) ↔ ¬ (Cancels a b ∨ Vanishes a b)) := by
    intro a b h
    constructor
    · intro hkey hcancels
      obtain ⟨hne, heq⟩ := hcancels.elim ne_of_cancels ne_of_vanishes
      exact hne (hkey heq)
    · intro hnot hkey
      by_contra hne
      exact hnot (cancels_of_key_eq h hne hkey)
  refine ⟨hiff, fun a now result hacts hhit => ?_⟩
  have hrefines := refines_after cfg (acts.map Act.command)
  rw [(hrefines.get a.key now).1] at hhit
  obtain ⟨e, he, hkey, rfl⟩ := QueryCache.Cache.get_eq_some hhit
  obtain ⟨b, tables, t, hmem, hb⟩ := entry_stored cfg acts e he
  obtain ⟨hcollide, hnot⟩ := hacts b e.result tables t hmem
  obtain rfl : a = b := (hiff a b hcollide).mpr hnot (hkey.symm.trans hb.symm)
  exact ⟨tables, t, hmem⟩

def straight : Query := ⟨.proxyWire, ascii "b", ascii "a"⟩

def crossed : Query := ⟨.proxyWire, ascii "a", ascii "b"⟩

theorem keys_collide :
    NoCollisions straight crossed ∧ straight ≠ crossed ∧ straight.key = crossed.key ∧
      ((after ⟨100, 60, 0⟩ ([Act.store crossed [1] [] 0].map Act.command)).get straight.key 1).1 =
        some [1] := by
  have hcollide : NoCollisions straight crossed := by
    unfold NoCollisions
    decide
  exact ⟨hcollide, by decide, by decide, by decide⟩

end PgMux.CacheKeys
