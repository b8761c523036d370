import PgMux.QueryCache
import PgMux.TableNames

/-!
# Invalidation messages between instances

The payload that Publish sends for a list of tables, and what handleMessage does with it on another
instance.
-/

namespace PgMux.QueryCache

open GoStrings

def publish (tables : List Bytes) : Bytes := [comma].intercalate tables

def handleTable (c : Cache) (table : Bytes) : Cache :=
  if trimSpace table ≠ [] then c.invalidateTable (trimSpace table) else c

def handleMessage (c : Cache) (payload : Bytes) : Cache :=
  if payload = ascii "*" then c.flushAll else (payload.splitOn comma).foldl handleTable c

/-- A name that the payload carries as it is. -/
def travels (t : Bytes) : Bool := t ≠ [] ∧ comma ∉ t ∧ trimSpace t = t

/-- The message leaves what invalidating each table in turn leaves, and no entry of one of them. -/
def Invalidates (tables : List Bytes) (c : Cache) : Prop :=
  handleMessage c (publish tables) = tables.foldl Cache.invalidateTable c ∧
    ∀ e ∈ (handleMessage c (publish tables)).entries, ∀ t ∈ tables, t ∉ e.tables

variable {tables : List Bytes}

theorem publish_ne_star (hne : tables ≠ []) (hstar : tables ≠ [ascii "*"]) :
    publish tables ≠ ascii "*" := by
  intro heq
  cases tables with
  | nil => exact hne rfl
  | cons t rest =>
    cases rest with
    | nil => exact hstar (by simpa [publish] using heq)
    | cons u rest =>
      -- two names have a comma between them
      have hcomma : comma ∈ publish (t :: u :: rest) := by simp [publish, List.intercalate]
      rw [heq] at hcomma
      exact absurd hcomma (by decide)

theorem invalidates_of_travels (hne : tables ≠ []) (hnames : ∀ t ∈ tables, travels t)
    (hstar : tables ≠ [ascii "*"]) (c : Cache) : Invalidates tables c := by
  have hnames : ∀ t ∈ tables, t ≠ [] ∧ comma ∉ t ∧ trimSpace t = t :=
    fun t ht => of_decide_eq_true (hnames t ht)
  have hsplit : (publish tables).splitOn comma = tables :=
    List.splitOn_intercalate comma (fun t ht => (hnames t ht).2.1) hne
  have hfold : handleMessage c (publish tables) = tables.foldl Cache.invalidateTable c := by
    rw [handleMessage, if_neg (publish_ne_star hne hstar), hsplit]
    refine List.foldl_ext _ _ c fun d t ht => ?_
    obtain ⟨hfull, -, htrim⟩ := hnames t ht
    rw [handleTable, htrim, if_pos hfull]
  refine ⟨hfold, fun e he => ?_⟩
  rw [hfold] at he
  exact (Cache.mem_foldl_invalidateTable he).2

/-! ## What the payload loses -/

def filled (table : Bytes) : Cache := (Cache.new ⟨10, 60, 0⟩).set 1 (ascii "rows") [table] 0

theorem tableIndex_filled {t u : Bytes} (h : u ≠ t) : (filled t).tableIndex u = ∅ := by
  simp [filled, Cache.set, Cache.new, Cache.find, Cache.putFront, updateTableIndex, h]

theorem invalidateTable_filled {t u : Bytes} (h : u ≠ t) :
    (filled t).invalidateTable u = filled t :=
  Cache.invalidateTable_of_empty (tableIndex_filled h)

theorem comma_notMem_of_mem_splitOn {s u : Bytes} (hu : u ∈ s.splitOn comma) : comma ∉ u := by
  induction s generalizing u with
  | nil => simp_all
  | cons c s ih =>
    rw [List.splitOn_cons_eq_if_modifyHead] at hu
    split_ifs at hu with hc
    · rcases List.mem_cons.mp hu with rfl | hu
      · simp
      · exact ih hu
    · cases hrest : s.splitOn comma with
      | nil => exact absurd hrest (List.splitOn_ne_nil _ _)
      | cons first rest =>
        rw [hrest] at hu ih
        rcases List.mem_cons.mp hu with rfl | hu
        · rw [List.mem_cons, not_or]
          exact ⟨fun h => hc (by simp [h]), ih List.mem_cons_self⟩
        · exact ih (List.mem_cons_of_mem _ hu)

theorem foldl_handleTable_filled {t : Bytes} (ht : ¬ travels t) {pieces : List Bytes}
    (hpieces : ∀ u ∈ pieces, comma ∉ u) : pieces.foldl handleTable (filled t) = filled t := by
  induction pieces with
  | nil => rfl
  | cons u pieces ih =>
    rw [List.forall_mem_cons] at hpieces
    have hstep : handleTable (filled t) u = filled t := by
      unfold handleTable
      split_ifs with hfull
      · refine invalidateTable_filled ?_
        -- a trimmed piece without a comma travels
        rintro rfl
        obtain ⟨sp, sp', hsplit, -, -⟩ := trimSpace_split u
        refine ht (decide_eq_true ⟨hfull, fun hmem => hpieces.1 ?_, trimSpace_trimSpace u⟩)
        rw [hsplit]
        simp [hmem]
      · rfl
    rw [List.foldl_cons, hstep]
    exact ih hpieces.2

/-- The payload does the work of all invalidations just if every name travels and it is no flush. -/
theorem handleMessage_publish (hne : tables ≠ []) :
    (∀ c, Invalidates tables c) ↔ (∀ t ∈ tables, travels t) ∧ tables ≠ [ascii "*"] := by
  constructor
  · intro hall
    have hstar : tables ≠ [ascii "*"] := by
      rintro rfl
      -- the flush takes the entry of another table with it
      have hentries := congrArg Cache.entries (hall (filled (ascii "d"))).1
      exact absurd hentries (by decide +kernel)
    refine ⟨fun t ht => ?_, hstar⟩
    by_contra hlost
    have hmsg : handleMessage (filled t) (publish tables) = filled t := by
      rw [handleMessage, if_neg (publish_ne_star hne hstar)]
      exact foldl_handleTable_filled hlost fun u => comma_notMem_of_mem_splitOn
    have hleft := (hall (filled t)).2
    rw [hmsg] at hleft
    exact hleft ⟨1, ascii "rows", [t], 60⟩ List.mem_cons_self t ht List.mem_cons_self
  · rintro ⟨hnames, hstar⟩ c
    exact invalidates_of_travels hne hnames hstar c

theorem handleMessage_publish_two :
    Invalidates [ascii "a*", ascii "b c"] (filled (ascii "a*")) :=
  (handleMessage_publish (by decide)).mpr ⟨by decide, by decide⟩ _

/-- Names with a comma or with white space at an end, as the extractor returns them, stay in the
cache; the name `*` alone flushes what lists other tables. -/
theorem broadcast_loses_names :
    TableNames.extractTables id id (ascii "DELETE FROM \"a,b\"; DELETE FROM \"c \"") =
      some [ascii "a,b", ascii "c "] ∧
      (handleMessage (filled (ascii "a,b")) (publish [ascii "a,b", ascii "c "])).entries =
        (filled (ascii "a,b")).entries ∧
      (handleMessage (filled (ascii "c ")) (publish [ascii "a,b", ascii "c "])).entries =
        (filled (ascii "c ")).entries ∧ (filled (ascii "c ")).entries ≠ [] ∧
      TableNames.extractTables id id (ascii "DELETE FROM \"*\"") = some [ascii "*"] ∧
      (handleMessage (filled (ascii "d")) (publish [ascii "*"])).entries = [] := by
  decide +kernel

end PgMux.QueryCache
