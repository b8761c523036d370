import Mathlib.Data.Set.Card
import PgMux.CacheMaps
import PgMux.Lru

/-!
# Runs of the cache

Behind any sequence of operations the cache is a store with least recently used eviction, with an
index that misses no table of an entry. The index is exact as long as no entry is overwritten with
fewer tables.
-/

namespace PgMux.CacheRuns

open CacheMaps
open QueryCache (Key Entry Config)

/-! ## A store with least recently used eviction -/

inductive Op where
  | get (key : Key) (now : Int)
  | set (key : Key) (result : Bytes) (tables : List Bytes) (now : Int)
  | flushAll
  | len
  deriving DecidableEq, Repr

abbrev Answer := Lru.Answer Bytes

def exec : Op → Cache → Answer × Cache
  | .get key now, c => (.found (c.get key now).1, (c.get key now).2)
  | .set key result tables now, c => (.done, c.set key result tables now)
  | .flushAll, c => (.done, c.flushAll)
  | .len, c => (.count c.len, c)

abbrev Item := Lru.Item Key Bytes

def toItem (e : Entry) : Item := ⟨e.key, e.result, e.expiresAt⟩

def Op.toLru : Op → Lru.Op Key Bytes
  | .get key now => .get key now
  | .set key result _ now => .set key result now
  | .flushAll => .flush
  | .len => .len

def limits (cfg : Config) : Lru.Limits Bytes where
  maxEntries := cfg.maxEntries
  ttl := cfg.ttl
  tooLarge result := 0 < cfg.maxSize && cfg.maxSize < result.length

section

variable {q : QueryCache.Cache}

theorem find_toItem (key : Key) :
    Lru.find key (q.entries.map toItem) = (q.find key).map toItem := by
  rw [Lru.find, List.find?_map]
  rfl

theorem without_toItem (key : Key) (entries : List Entry) :
    Lru.without key (entries.map toItem) = (entries.filter (·.key != key)).map toItem := by
  rw [Lru.without, List.filter_map]
  rfl

theorem get_toItem (key : Key) (now : Int) :
    Lru.get key now (q.entries.map toItem) = ((q.get key now).1,
      (q.get key now).2.entries.map toItem) := by
  rw [Lru.get, find_toItem, QueryCache.Cache.get]
  cases hfind : q.find key with
  | none => rfl
  | some e =>
    obtain ⟨he, rfl⟩ := QueryCache.Cache.find_eq_some hfind
    simp only [Option.map_some, without_toItem]
    change (if e.expiresAt < now then _ else _) = _
    split
    · rfl
    · rfl

theorem entries_evictOldest : q.evictOldest.entries = q.entries.dropLast := by
  unfold QueryCache.Cache.evictOldest
  cases hlast : q.entries.getLast? with
  | none => simp [List.getLast?_eq_none_iff.mp hlast]
  | some e =>
    have hsplit : q.entries.dropLast ++ [e] = q.entries := List.dropLast_append_getLast? e hlast
    have hnodup := q.keys_nodup
    rw [← hsplit, List.map_append, List.nodup_append] at hnodup
    change q.entries.filter (fun e' => !(e'.key == e.key)) = q.entries.dropLast
    nth_rewrite 1 [← hsplit]
    rw [List.filter_append, List.filter_eq_self.mpr]
    · simp
    · intro e' he'
      simpa using hnodup.2.2 e'.key (List.mem_map_of_mem he') e.key (by simp)

theorem put_toItem (key : Key) (result : Bytes) (tables : List Bytes) (now : Int)
    (hsize : ¬ (0 < q.cfg.maxSize ∧ q.cfg.maxSize < result.length)) :
    Lru.put q.cfg.maxEntries ⟨key, result, now + q.cfg.ttl⟩ (q.entries.map toItem) =
      (q.set key result tables now).entries.map toItem := by
  rw [Lru.put, find_toItem, without_toItem, QueryCache.Cache.set, if_neg hsize, Option.isSome_map,
    List.length_map]
  split
  · rfl
  · rename_i hnone
    have hother : ∀ e ∈ q.entries, e.key ≠ key := by simpa [QueryCache.Cache.find] using hnone
    have hkept : ∀ entries : List Entry, (∀ e ∈ entries, e ∈ q.entries) →
        entries.filter (·.key != key) = entries :=
      fun entries hsub => List.filter_eq_self.mpr fun e he => by simpa using hother e (hsub e he)
    split
    · change _ = toItem _ :: (q.evictOldest.entries.filter (·.key != key)).map toItem
      rw [hkept _ fun e he => QueryCache.Cache.mem_evictOldest he, entries_evictOldest,
        List.map_dropLast]
      rfl
    · change _ = toItem _ :: (q.entries.filter (·.key != key)).map toItem
      rw [hkept _ fun e he => he]
      rfl

end

def Holds (cfg : Config) (c : Cache) (items : List Item) : Prop :=
  ∃ q, Refines c q ∧ q.cfg = cfg ∧ q.entries.map toItem = items

theorem exec_holds {cfg : Config} (o : Op) (c : Cache) (items : List Item) (h : Holds cfg c items) :
    (exec o c).1 = (Lru.exec (limits cfg) o.toLru items).1 ∧
      Holds cfg (exec o c).2 (Lru.exec (limits cfg) o.toLru items).2 := by
  obtain ⟨q, hrefines, rfl, rfl⟩ := h
  cases o with
  | get key now =>
    obtain ⟨hfound, hrefines⟩ := hrefines.get key now
    simp only [exec, Op.toLru, Lru.exec, get_toItem, hfound, true_and]
    exact ⟨_, hrefines, q.cfg_get key now, rfl⟩
  | set key result tables now =>
    refine ⟨rfl, _, hrefines.set key result tables now, q.cfg_set key result tables now, ?_⟩
    by_cases hsize : 0 < q.cfg.maxSize ∧ q.cfg.maxSize < result.length
    · simp [Lru.exec, Op.toLru, limits, hsize, QueryCache.Cache.set]
    · have hfits : (limits q.cfg).tooLarge result = false := by simpa [limits] using hsize
      simp only [Lru.exec, Op.toLru, hfits]
      exact (put_toItem key result tables now hsize).symm
  | flushAll => exact ⟨rfl, _, hrefines.flushAll, rfl, rfl⟩
  | len =>
    refine ⟨?_, _, hrefines, rfl, rfl⟩
    simp [exec, Op.toLru, Lru.exec, Cache.len, ← hrefines.entries, Elements.len, Elements.values]

def SameKeys (c : Cache) : Prop :=
  (c.evictList.values.map Entry.key).Nodup ∧
    ∀ key elem, c.items key = some elem ↔ ∃ e, (elem, e) ∈ c.evictList.elems ∧ e.key = key

theorem sameKeys_of_refines {c : Cache} {q : QueryCache.Cache} (h : Refines c q) : SameKeys c :=
  ⟨h.entries ▸ q.keys_nodup, h.items⟩

/-- The cache gives the answers of a store with least recently used eviction and holds its items. -/
theorem cache_refines_lru (cfg : Config) (ops : List Op) :
    (Lru.replay exec ops (.new cfg)).1 =
      (Lru.replay (fun o => Lru.exec (limits cfg) o.toLru) ops []).1 ∧
      (Lru.replay exec ops (.new cfg)).2.evictList.values.map toItem =
        (Lru.replay (fun o => Lru.exec (limits cfg) o.toLru) ops []).2 ∧
      SameKeys (Lru.replay exec ops (.new cfg)).2 ∧
      (0 < cfg.maxEntries → ((Lru.replay exec ops (.new cfg)).2.len : Int) ≤ cfg.maxEntries) := by
  have hnew : Holds cfg (.new cfg) [] := ⟨_, refines_new cfg, rfl, rfl⟩
  obtain ⟨hanswers, q, hrefines, -, hitems⟩ := Lru.replay_related exec_holds ops hnew
  have hbounded : Lru.Bounded (limits cfg)
      (Lru.replay (fun o => Lru.exec (limits cfg) o.toLru) ops []).2 :=
    Lru.replay_invariant (fun o _ h => h.exec o.toLru) ops fun hpos => Int.le_of_lt hpos
  refine ⟨hanswers, by rw [hrefines.entries, hitems], sameKeys_of_refines hrefines, fun hpos => ?_⟩
  have hlen := hbounded hpos
  rw [← hitems, ← hrefines.entries, Elements.values, List.map_map, List.length_map] at hlen
  exact hlen

/-! ## The table index -/

inductive Command where
  | op (o : Op)
  | invalidateTable (order : Order) (table : Bytes)

def Command.apply (c : Cache) : Command → Cache
  | .op o => (exec o c).2
  | .invalidateTable order table => c.invalidateTable order table

def Command.applyQuery (q : QueryCache.Cache) : Command → QueryCache.Cache
  | .op (.get key now) => (q.get key now).2
  | .op (.set key result tables now) => q.set key result tables now
  | .op .flushAll => q.flushAll
  | .op .len => q
  | .invalidateTable _ table => q.invalidateTable table

def after (cfg : Config) (commands : List Command) : Cache :=
  commands.foldl Command.apply (.new cfg)

def queryAfter (cfg : Config) (commands : List Command) : QueryCache.Cache :=
  commands.foldl Command.applyQuery (.new cfg)

theorem refines_apply {c : Cache} {q : QueryCache.Cache} (h : Refines c q) (command : Command) :
    Refines (command.apply c) (command.applyQuery q) := by
  cases command with
  | op o =>
    cases o with
    | get key now => exact (h.get key now).2
    | set key result tables now => exact h.set key result tables now
    | flushAll => exact h.flushAll
    | len => exact h
  | invalidateTable order table => exact h.invalidateTable order table

theorem refines_after (cfg : Config) (commands : List Command) :
    Refines (after cfg commands) (queryAfter cfg commands) := by
  have hrun : ∀ c q, Refines c q → Refines (commands.foldl Command.apply c)
      (commands.foldl Command.applyQuery q) := by
    induction commands with
    | nil => exact fun _ _ h => h
    | cons command commands ih => exact fun c q h => ih _ _ (refines_apply h command)
  exact hrun _ _ (refines_new cfg)

/-- An invalidation leaves no entry that lists the table, and the entries of other keys. -/
theorem invalidation_complete (cfg : Config) (commands : List Command) :
    (∀ e ∈ (after cfg commands).evictList.values, ∀ table ∈ e.tables,
      e.key ∈ keysOf (after cfg commands).tableIndex table) ∧
    ∀ order table,
      (∀ e ∈ ((after cfg commands).invalidateTable order table).evictList.values,
        table ∉ e.tables) ∧ ((after cfg commands).invalidateTable order table).evictList.values =
        (after cfg commands).evictList.values.filter fun e =>
        e.key ∉ keysOf (after cfg commands).tableIndex table := by
  have h := refines_after cfg commands
  refine ⟨fun e he table ht => ?_, fun order table => ⟨fun e he => ?_, ?_⟩⟩
  · rw [h.entries] at he
    rw [h.index]
    exact (queryAfter cfg commands).indexed e he table ht
  · rw [(h.invalidateTable order table).entries] at he
    exact (QueryCache.Cache.mem_invalidateTable he).2
  · rw [(h.invalidateTable order table).entries, h.entries, h.index]
    refine List.filter_congr fun e _ => ?_
    simp

/-! ## Keys without an entry -/

def Tight (q : QueryCache.Cache) : Prop :=
  ∀ t, ∀ key ∈ q.tableIndex t, ∃ e ∈ q.entries, e.key = key ∧ t ∈ e.tables

section

variable {q : QueryCache.Cache}

theorem Tight.removeKeys (h : Tight q) (gone : Key → Bool) : Tight (q.removeKeys gone) := by
  intro t key hkey
  obtain ⟨hkey, hkept⟩ := QueryCache.mem_foldl_unindex.mp hkey
  obtain ⟨e, he, rfl, ht⟩ := h t key hkey
  cases hgone : gone e.key with
  | true => exact absurd ⟨rfl, ht⟩ (hkept e (List.mem_filter.mpr ⟨he, hgone⟩))
  | false => exact ⟨e, List.mem_filter.mpr ⟨he, by simp [hgone]⟩, rfl, ht⟩

theorem Tight.putFront (h : Tight q) {e : Entry}
    (hold : ∀ old ∈ q.entries, old.key = e.key → old.tables ⊆ e.tables) : Tight (q.putFront e) := by
  intro t key hkey
  have hcases : (key = e.key ∧ t ∈ e.tables) ∨ key ∈ q.tableIndex t := by
    change key ∈ QueryCache.updateTableIndex q.tableIndex e.key e.tables t at hkey
    unfold QueryCache.updateTableIndex at hkey
    split at hkey
    · rename_i ht
      exact (Finset.mem_insert.mp hkey).imp_left fun h => ⟨h, ht⟩
    · exact .inr hkey
  obtain ⟨rfl, ht⟩ | hkey := hcases
  · exact ⟨e, List.mem_cons_self, rfl, ht⟩
  · obtain ⟨old, hmem, rfl, ht⟩ := h t key hkey
    by_cases hsame : old.key = e.key
    · exact ⟨e, List.mem_cons_self, hsame.symm, hold old hmem hsame ht⟩
    · exact ⟨old, List.mem_cons_of_mem e (List.mem_filter.mpr ⟨hmem, by simpa using hsame⟩), rfl,
        ht⟩

theorem Tight.evictOldest (h : Tight q) : Tight q.evictOldest := by
  unfold QueryCache.Cache.evictOldest
  split
  · exact h
  · exact h.removeKeys _

theorem Tight.get (h : Tight q) (key : Key) (now : Int) : Tight (q.get key now).2 := by
  unfold QueryCache.Cache.get
  split
  · exact h
  · rename_i e hfind
    split
    · exact h.removeKeys (· == key)
    · refine h.putFront fun old hold hkey => ?_
      rw [QueryCache.Cache.eq_of_key_eq hold (QueryCache.Cache.find_eq_some hfind).1 hkey]
      exact List.Subset.refl _

theorem Tight.set (h : Tight q) {key : Key} {result : Bytes} {tables : List Bytes} {now : Int}
    (hold : ¬ (0 < q.cfg.maxSize ∧ q.cfg.maxSize < result.length) →
      ∀ e ∈ q.entries, e.key = key → e.tables ⊆ tables) : Tight (q.set key result tables now) := by
  unfold QueryCache.Cache.set
  split
  · exact h
  · rename_i hsize
    split
    · exact h.putFront (hold hsize)
    split
    · exact h.evictOldest.putFront fun old hmem =>
        hold hsize old (QueryCache.Cache.mem_evictOldest hmem)
    · exact h.putFront (hold hsize)

theorem Tight.invalidateTable (h : Tight q) (table : Bytes) : Tight (q.invalidateTable table) := by
  intro t key hkey
  change key ∈ Function.update (q.removeKeys (· ∈ q.tableIndex table)).tableIndex table ∅ t at hkey
  by_cases ht : t = table
  · simp [ht] at hkey
  · rw [Function.update_of_ne ht] at hkey
    exact h.removeKeys _ t key hkey

theorem not_tight_set {e : Entry} (he : e ∈ q.entries) {result : Bytes}
    (hsize : ¬ (0 < q.cfg.maxSize ∧ q.cfg.maxSize < result.length)) {tables : List Bytes}
    {t : Bytes} (ht : t ∈ e.tables) (hnot : t ∉ tables) (now : Int) :
    ¬ Tight (q.set e.key result tables now) := by
  intro h
  have hset : q.set e.key result tables now = q.putFront ⟨e.key, result, tables,
      now + q.cfg.ttl⟩ := by
    rw [QueryCache.Cache.set, if_neg hsize, QueryCache.Cache.find_of_mem he]
    rfl
  rw [hset] at h
  obtain ⟨e', he', hkey, ht'⟩ := h t e.key (QueryCache.mem_updateTableIndex (q.indexed e he t ht))
  obtain rfl | he' := List.mem_cons.mp he'
  · exact hnot ht'
  · have hne := (List.mem_filter.mp he').2
    simp [hkey] at hne

end

def KeepsTables (c : Cache) : Command → Prop
  | .op (.set key result tables _) =>
    ¬ (0 < c.cfg.maxSize ∧ c.cfg.maxSize < result.length) →
      ∀ e ∈ c.evictList.values, e.key = key → e.tables ⊆ tables
  | _ => True

structure Exact (c : Cache) : Prop where
  live : ∀ table, ∀ key ∈ keysOf c.tableIndex table, ∃ e ∈ c.evictList.values, e.key = key ∧
    table ∈ e.tables
  noEmpty : NoEmpty c.tableIndex
  size_le : {p : Bytes × Key | p.2 ∈ keysOf c.tableIndex p.1}.encard ≤
    ((c.evictList.values.map fun e => e.tables.length).sum : ℕ)
  removes : ∀ order table, ∀ e ∈ c.evictList.values,
    e ∉ (c.invalidateTable order table).evictList.values → table ∈ e.tables

section

variable {c : Cache} {q : QueryCache.Cache}

theorem encard_le_of_tight (h : Tight q) :
    {p : Bytes × Key | p.2 ∈ q.tableIndex p.1}.encard ≤
      ((q.entries.map fun e => e.tables.length).sum : ℕ) := by
  let pairs := q.entries.flatMap fun e => e.tables.map fun t => (t, e.key)
  have hsub : {p : Bytes × Key | p.2 ∈ q.tableIndex p.1} ⊆
      (pairs.toFinset : Set (Bytes × Key)) := by
    rintro ⟨t, key⟩ hkey
    obtain ⟨e, he, rfl, ht⟩ := h t key hkey
    simpa [pairs] using ⟨e, he, ht, rfl⟩
  have hcard : pairs.toFinset.card ≤ (q.entries.map fun e => e.tables.length).sum := by
    refine (List.toFinset_card_le pairs).trans_eq ?_
    simp [pairs, List.length_flatMap]
  refine (Set.encard_le_encard hsub).trans ?_
  exact_mod_cast hcard

theorem exact_of_tight (h : Refines c q) (htight : Tight q) : Exact c where
  live table key hkey := by
    rw [h.index] at hkey
    rw [h.entries]
    exact htight table key hkey
  noEmpty := h.noEmpty
  size_le := by
    simp only [h.index, h.entries]
    exact encard_le_of_tight htight
  removes order table e he hgone := by
    rw [h.entries] at he
    rw [(h.invalidateTable order table).entries] at hgone
    have hkey : e.key ∈ q.tableIndex table := by
      by_contra hnot
      exact hgone (List.mem_filter.mpr ⟨he, by simp [hnot]⟩)
    obtain ⟨e', he', hsame, ht⟩ := htight table e.key hkey
    rwa [QueryCache.Cache.eq_of_key_eq he he' hsame.symm]

theorem tight_of_exact (h : Refines c q) (hexact : Exact c) : Tight q := by
  intro t key hkey
  rw [← h.index] at hkey
  rw [← h.entries]
  exact hexact.live t key hkey

theorem tight_apply (h : Refines c q) (htight : Tight q) {command : Command}
    (hkeeps : KeepsTables c command) : Tight (command.applyQuery q) := by
  cases command with
  | op o =>
    cases o with
    | get key now => exact htight.get key now
    | set key result tables now =>
      refine htight.set fun hsize => ?_
      rw [← h.cfg] at hsize
      rw [← h.entries]
      exact hkeeps hsize
    | flushAll => exact fun t key hkey => absurd hkey (Finset.notMem_empty key)
    | len => exact htight
  | invalidateTable order table => exact htight.invalidateTable table

theorem keepsTables_of_tight (h : Refines c q) {command : Command}
    (htight : Tight (command.applyQuery q)) : KeepsTables c command := by
  cases command with
  | op o =>
    cases o with
    | set key result tables now =>
      rintro hsize e he rfl t ht
      rw [h.entries] at he
      rw [h.cfg] at hsize
      by_contra hnot
      exact not_tight_set he hsize ht hnot now htight
    | get key now | flushAll | len => trivial
  | invalidateTable order table => trivial

end

theorem tight_queryAfter {cfg : Config} {commands : List Command}
    (h : ∀ front command, front ++ [command] <+: commands → KeepsTables (after cfg front) command)
    {front : List Command} (hfront : front <+: commands) : Tight (queryAfter cfg front) := by
  induction front using List.reverseRecOn with
  | nil => exact fun t key hkey => absurd hkey (Finset.notMem_empty key)
  | append_singleton front command ih =>
    have htight := ih ((List.prefix_append front [command]).trans hfront)
    have hstep := tight_apply (refines_after cfg front) htight (h front command hfront)
    rwa [queryAfter, List.foldl_append]

/-- The index stays exact just when every set of an entry that is there keeps its tables. -/
theorem index_exact_iff (cfg : Config) (commands : List Command) :
    (∀ front, front <+: commands → Exact (after cfg front)) ↔
      ∀ front command, front ++ [command] <+: commands → KeepsTables (after cfg front) command := by
  refine ⟨fun h front command hfront => ?_, fun h front hfront => ?_⟩
  · have htight := tight_of_exact (refines_after cfg _) (h (front ++ [command]) hfront)
    rw [queryAfter, List.foldl_append] at htight
    exact keepsTables_of_tight (refines_after cfg front) htight
  · exact exact_of_tight (refines_after cfg front) (tight_queryAfter h hfront)

def moved : List Command := [.op (.set 7 [1] [ascii "a"] 0), .op (.set 7 [2] [ascii "b"] 1)]

theorem moved_not_exact : ¬ Exact (after ⟨100, 60, 0⟩ moved) := by
  intro h
  obtain ⟨e, he, -, ht⟩ := h.live (ascii "a") 7 (by decide)
  have hvalues : (after ⟨100, 60, 0⟩ moved).evictList.values = [⟨7, [2], [ascii "b"], 61⟩] := rfl
  rw [hvalues, List.mem_singleton] at he
  subst he
  exact absurd ht (by decide)

end PgMux.CacheRuns
