import PgMux.StandbyWrites

/-!
# The tables that a tree writes

`extractTablesFromTree` has a case for the statements that change rows and for TRUNCATE and DROP,
and follows the WITH clauses of those. ALTER TABLE and RENAME are writes for `classifyTree`, but
their table is not collected.
-/

namespace PgMux.WriteTables

open GoStrings (toLower)
open Router (QueryType)

structure RangeVar where
  relname : Bytes
  deriving DecidableEq, Repr

inductive ObjectType where
  | table
  | other
  deriving DecidableEq, Repr

inductive Node where
  | selectStmt (ctes : List Node)
  | insertStmt (relation : Option RangeVar) (ctes : List Node)
  | updateStmt (relation : Option RangeVar) (ctes : List Node)
  | deleteStmt (relation : Option RangeVar) (ctes : List Node)
  | mergeStmt (relation : Option RangeVar) (ctes : List Node)
  | truncateStmt (relations : List Node)
  | dropStmt (removeType : ObjectType) (objects : List Node)
  | alterTableStmt (relation : Option RangeVar)
  | renameStmt (relation : Option RangeVar)
  | commonTableExpr (ctequery : Option Node)
  | rangeVar (rv : RangeVar)
  | list (items : List Node)
  | string (sval : Bytes)
  | utility (kind : StandbyWrites.Utility)

structure ParseResult where
  stmts : List (Option Node)

/-! ## The calls -/

def getRangeVar : Node → Option RangeVar
  | .rangeVar rv => some rv
  | _ => none

def getString : Node → Option Bytes
  | .string sval => some sval
  | _ => none

def getItems : Node → List Node
  | .list items => items
  | _ => []

def relnames (relation : Option RangeVar) : List Bytes := relation.toList.map RangeVar.relname

mutual

def extractWriteTables : Node → List Bytes
  | .insertStmt relation ctes | .updateStmt relation ctes | .deleteStmt relation ctes =>
    extractCTEWriteTables ctes ++ relnames relation
  | .truncateStmt relations => (relations.filterMap getRangeVar).map RangeVar.relname
  | .dropStmt _ objects => objects.flatMap fun obj => (getItems obj).filterMap getString
  | .selectStmt ctes => extractCTEWriteTables ctes
  | .mergeStmt _ _ | .alterTableStmt _ | .renameStmt _ | .commonTableExpr _ | .rangeVar _ | .list _
  | .string _ | .utility _ => []

def extractCTEWriteTables : List Node → List Bytes
  | [] => []
  | .commonTableExpr (some q) :: ctes => extractWriteTables q ++ extractCTEWriteTables ctes
  | _ :: ctes => extractCTEWriteTables ctes

end

section

variable (lowerRune : Nat → Nat)

def add (tables : List Bytes) (table : Bytes) : List Bytes :=
  let t := toLower lowerRune table
  if t ≠ [] ∧ t ∉ tables then tables ++ [t] else tables

def extractTablesFromTree (tree : ParseResult) : List Bytes :=
  tree.stmts.foldl (fun tables stmt =>
    (stmt.toList.flatMap extractWriteTables).foldl (add lowerRune) tables) []

end

/-! ## The statements of a tree -/

mutual

def shape : Node → StandbyWrites.Node
  | .selectStmt ctes => .selectStmt false false (shapes ctes)
  | .insertStmt _ ctes => .insertStmt (shapes ctes)
  | .updateStmt _ ctes => .updateStmt (shapes ctes)
  | .deleteStmt _ ctes => .deleteStmt (shapes ctes)
  | .mergeStmt _ ctes => .mergeStmt (shapes ctes)
  | .truncateStmt _ => .utility .truncateStmt
  | .dropStmt _ _ => .utility .dropStmt
  | .alterTableStmt _ => .utility .alterTableStmt
  | .renameStmt _ => .utility .renameStmt
  | .commonTableExpr none => .commonTableExpr none
  | .commonTableExpr (some q) => .commonTableExpr (some (shape q))
  | .utility kind => .utility kind
  | .rangeVar _ | .list _ | .string _ => .utility .other

def shapes : List Node → List StandbyWrites.Node
  | [] => []
  | n :: ns => shape n :: shapes ns

end

def classifyTree (tree : ParseResult) : QueryType :=
  StandbyWrites.classifyTree ⟨tree.stmts.map (Option.map shape)⟩

inductive Edge where
  | select | insert | update | delete | merge
  deriving DecidableEq, Repr

def withClause : Node → Option (Edge × List Node)
  | .selectStmt ctes => some (.select, ctes)
  | .insertStmt _ ctes => some (.insert, ctes)
  | .updateStmt _ ctes => some (.update, ctes)
  | .deleteStmt _ ctes => some (.delete, ctes)
  | .mergeStmt _ ctes => some (.merge, ctes)
  | _ => none

inductive Path : List Edge → Node → Node → Prop where
  | here (n : Node) : Path [] n n
  | step {e : Edge} {es : List Edge} {n q m : Node} {ctes : List Node}
      (hw : withClause n = some (e, ctes))
      (hq : .commonTableExpr (some q) ∈ ctes) (hp : Path es q m) : Path (e :: es) n m

def Has (tree : ParseResult) (es : List Edge) (m : Node) : Prop :=
  ∃ n, some n ∈ tree.stmts ∧ Path es n m

def lastName (obj : Node) : List Bytes := ((getItems obj).getLast?.bind getString).toList

def targets : Node → List Bytes
  | .insertStmt relation _ | .updateStmt relation _ | .deleteStmt relation _
  | .alterTableStmt relation | .renameStmt relation => relnames relation
  | .truncateStmt relations => (relations.filterMap getRangeVar).map RangeVar.relname
  | .dropStmt .table objects => objects.flatMap lastName
  | _ => []

def uncovered : Node → Bool
  | .alterTableStmt _ | .renameStmt _ => true
  | _ => false

/-! ## What is collected -/

def named : Node → List Bytes
  | .insertStmt relation _ | .updateStmt relation _ | .deleteStmt relation _ => relnames relation
  | .truncateStmt relations => (relations.filterMap getRangeVar).map RangeVar.relname
  | .dropStmt _ objects => objects.flatMap fun obj => (getItems obj).filterMap getString
  | _ => []

variable {name : Bytes}

theorem mem_extractCTEWriteTables {ctes : List Node} :
    name ∈ extractCTEWriteTables ctes ↔ ∃ q, .commonTableExpr (some q) ∈ ctes ∧
    name ∈ extractWriteTables q := by
  induction ctes with
  | nil => simp [extractCTEWriteTables]
  | cons n ctes ih =>
    cases n with
    | commonTableExpr q =>
      cases q with
      | none => simpa [extractCTEWriteTables] using ih
      | some q => simp [extractCTEWriteTables, ih, or_and_right, exists_or]
    | _ => simpa [extractCTEWriteTables] using ih

theorem mem_extractWriteTables {n : Node} : name ∈ extractWriteTables n ↔
      name ∈ named n ∨ ∃ e ctes, withClause n = some (e, ctes) ∧ e ≠ .merge ∧
      name ∈ extractCTEWriteTables ctes := by
  cases n with
  | insertStmt | updateStmt | deleteStmt => simp [extractWriteTables, named, withClause, or_comm]
  | selectStmt | truncateStmt | dropStmt | mergeStmt => simp [extractWriteTables, named, withClause]
  | _ => simp [extractWriteTables, named, withClause]

theorem mem_of_path {es : List Edge} {n m : Node} (hp : Path es n m) (hes : .merge ∉ es)
    (hm : name ∈ named m) : name ∈ extractWriteTables n := by
  induction hp with
  | here n => exact mem_extractWriteTables.mpr (.inl hm)
  | step hw hq _ ih =>
    rw [List.mem_cons, not_or] at hes
    refine mem_extractWriteTables.mpr (.inr ⟨_, _, hw, fun he => hes.1 he.symm, ?_⟩)
    exact mem_extractCTEWriteTables.mpr ⟨_, hq, ih hes.2 hm⟩

theorem sizeOf_nested {e : Edge} {n q : Node} {ctes : List Node}
    (hw : withClause n = some (e, ctes)) (hq : .commonTableExpr (some q) ∈ ctes) :
    sizeOf q < sizeOf n := by
  have hsize := List.sizeOf_lt_of_mem hq
  cases n with
  | selectStmt | insertStmt | updateStmt | deleteStmt | mergeStmt =>
    obtain ⟨-, rfl⟩ := by simpa [withClause] using hw
    simp at hsize ⊢
    omega
  | _ => cases hw

theorem path_of_mem (n : Node) (h : name ∈ extractWriteTables n) :
    ∃ es m, Path es n m ∧ .merge ∉ es ∧ name ∈ named m := by
  rcases mem_extractWriteTables.mp h with hown | ⟨e, ctes, hw, he, hctes⟩
  · exact ⟨[], n, .here n, by simp, hown⟩
  · obtain ⟨q, hq, hname⟩ := mem_extractCTEWriteTables.mp hctes
    obtain ⟨es, m, hp, hes, hm⟩ := path_of_mem q hname
    exact ⟨e :: es, m, .step hw hq hp, by simp [he.symm, hes], hm⟩
termination_by sizeOf n
decreasing_by exact sizeOf_nested hw hq

section

variable (lowerRune : Nat → Nat)

theorem mem_add {tables : List Bytes} {table t : Bytes} :
    t ∈ add lowerRune tables table ↔ t ∈ tables ∨ t ≠ [] ∧ toLower lowerRune table = t := by
  unfold add
  dsimp only
  split_ifs with h
  · rw [List.mem_append, List.mem_singleton]
    constructor
    · rintro (ht | rfl)
      · exact .inl ht
      · exact .inr ⟨h.1, rfl⟩
    · rintro (ht | ⟨-, rfl⟩)
      · exact .inl ht
      · exact .inr rfl
  · constructor
    · exact .inl
    · rintro (ht | ⟨hne, rfl⟩)
      · exact ht
      · by_contra hnot
        exact h ⟨hne, hnot⟩

theorem mem_foldl_add {names tables : List Bytes} {t : Bytes} :
    t ∈ names.foldl (add lowerRune) tables ↔ t ∈ tables ∨ t ≠ [] ∧ ∃ name ∈ names,
    toLower lowerRune name = t := by
  induction names generalizing tables with
  | nil => simp
  | cons name names ih =>
    rw [List.foldl_cons, ih, mem_add, List.exists_mem_cons_iff, and_or_left, or_assoc]

theorem mem_extractTablesFromTree {tree : ParseResult} {t : Bytes} :
    t ∈ extractTablesFromTree lowerRune tree ↔
      t ≠ [] ∧ ∃ es m, Has tree es m ∧ .merge ∉ es ∧ ∃ name ∈ named m,
      toLower lowerRune name = t := by
  have hfold (stmts : List (Option Node)) (tables : List Bytes) :
      t ∈ stmts.foldl (fun tables stmt =>
        (stmt.toList.flatMap extractWriteTables).foldl (add lowerRune) tables) tables ↔
        t ∈ tables ∨ t ≠ [] ∧ ∃ n, some n ∈ stmts ∧ ∃ name ∈ extractWriteTables n,
        toLower lowerRune name = t := by
    induction stmts generalizing tables with
    | nil => simp
    | cons stmt stmts ih =>
      rw [List.foldl_cons, ih, mem_foldl_add]
      cases stmt with
      | none => simp
      | some n =>
        simp only [Option.toList_some, List.flatMap_cons, List.flatMap_nil, List.append_nil,
          List.mem_cons, Option.some.injEq, or_and_right, exists_or, exists_eq_left]
        rw [and_or_left, or_assoc]
  rw [extractTablesFromTree, hfold]
  constructor
  · rintro (h | ⟨hne, n, hn, name, hname, ht⟩)
    · cases h
    · obtain ⟨es, m, hp, hes, hm⟩ := path_of_mem n hname
      exact ⟨hne, es, m, ⟨n, hn, hp⟩, hes, name, hm, ht⟩
  · rintro ⟨hne, es, m, ⟨n, hn, hp⟩, hes, name, hm, ht⟩
    exact .inr ⟨hne, n, hn, name, mem_of_path hp hes hm, ht⟩

theorem mem_named_of_targets {m : Node} (hm : uncovered m = false) (h : name ∈ targets m) :
    name ∈ named m := by
  cases m with
  | insertStmt | updateStmt | deleteStmt | truncateStmt => exact h
  | alterTableStmt | renameStmt => cases hm
  | dropStmt removeType objects =>
    cases removeType with
    | other => cases h
    | table =>
      obtain ⟨obj, hobj, hlast⟩ := List.mem_flatMap.mp h
      refine List.mem_flatMap.mpr ⟨obj, hobj, List.mem_filterMap.mpr ?_⟩
      obtain ⟨item, hitem, hname⟩ := Option.bind_eq_some_iff.mp (Option.mem_toList.mp hlast)
      exact ⟨item, List.mem_of_getLast? hitem, hname⟩
  | _ => cases h

/-- The table is listed just if a statement that the extraction reaches names it: the node itself
does, unless it is an ALTER TABLE or a RENAME or lies behind a MERGE. -/
theorem writeTables_complete {tree : ParseResult} {es : List Edge} {m : Node} {name : Bytes}
    (hm : Has tree es m) (hname : name ∈ targets m) :
    (toLower lowerRune name ∈ extractTablesFromTree lowerRune tree ↔
      name ≠ [] ∧ ∃ es' m', Has tree es' m' ∧ .merge ∉ es' ∧
        ∃ other ∈ named m', toLower lowerRune other = toLower lowerRune name) ∧
    (name ≠ [] → uncovered m = false → .merge ∉ es →
      toLower lowerRune name ∈ extractTablesFromTree lowerRune tree) := by
  have hiff : toLower lowerRune name ∈ extractTablesFromTree lowerRune tree ↔
      name ≠ [] ∧ ∃ es' m', Has tree es' m' ∧ .merge ∉ es' ∧
        ∃ other ∈ named m', toLower lowerRune other = toLower lowerRune name := by
    rw [mem_extractTablesFromTree]
    simp
  refine ⟨hiff, fun hne hcase hes => hiff.mpr ⟨hne, es, m, hm, hes, name, ?_, rfl⟩⟩
  exact mem_named_of_targets hcase hname

end

def nestedDelete : ParseResult where
  stmts := [some (.selectStmt [.commonTableExpr (some (.insertStmt (some ⟨ascii "u"⟩)
    [.commonTableExpr (some (.deleteStmt (some ⟨ascii "T"⟩) []))]))])]

theorem writeTables_complete_nested :
    classifyTree nestedDelete = .write ∧
    toLower id (ascii "T") ∈ extractTablesFromTree id nestedDelete := by
  have hnested : Has nestedDelete [.select, .insert] (.deleteStmt (some ⟨ascii "T"⟩) []) :=
    ⟨_, List.mem_cons_self, .step rfl List.mem_cons_self (.step rfl List.mem_cons_self (.here _))⟩
  have hcomplete := @writeTables_complete id _ _ _ (ascii "T") hnested List.mem_cons_self
  exact ⟨by decide +kernel, hcomplete.2 (by decide) rfl (by decide)⟩

def alterTable : ParseResult :=
  ⟨[some (.alterTableStmt (some ⟨ascii "t"⟩)), some (.renameStmt (some ⟨ascii "t"⟩))]⟩

def mergedDelete : ParseResult where
  stmts :=
    [some (.mergeStmt (some ⟨ascii "u"⟩)
    [.commonTableExpr (some (.deleteStmt (some ⟨ascii "t"⟩) []))]),
    some (.insertStmt (some ⟨ascii "v"⟩) [])]

theorem writeTables_missed :
    (classifyTree alterTable = .write ∧ (∃ m, Has alterTable [] m ∧ ascii "t" ∈ targets m) ∧
      extractTablesFromTree id alterTable = []) ∧
    (classifyTree mergedDelete = .write ∧
      (∃ m, Has mergedDelete [.merge] m ∧ ascii "t" ∈ targets m) ∧
      extractTablesFromTree id mergedDelete = [ascii "v"]) := by
  refine ⟨⟨by decide +kernel, ?_, by decide +kernel⟩, by decide +kernel, ?_, by decide +kernel⟩
  · exact ⟨_, ⟨_, List.mem_cons_self, .here _⟩, List.mem_cons_self⟩
  · exact ⟨_, ⟨_, List.mem_cons_self, .step rfl List.mem_cons_self (.here _)⟩, List.mem_cons_self⟩

end PgMux.WriteTables
