import PgMux.Router

/-!
# Statements that a standby refuses

The router calls a tree a write if a statement is of a listed kind, or if the WITH clauses of
SELECTs lead to one. A hot standby refuses more kinds, and EXPLAIN ANALYZE runs its statement.
-/

namespace PgMux.StandbyWrites

open Router (QueryType)

inductive Utility where
  | createStmt | createSchemaStmt | createSeqStmt | createFunctionStmt | createTrigStmt | indexStmt
  | viewStmt | createTableSpaceStmt | createExtensionStmt | createFdwStmt | createForeignServerStmt
  | createForeignTableStmt | createUserMappingStmt | createPolicyStmt | createAmStmt
  | createEventTrigStmt | createPLangStmt | createRoleStmt | defineStmt | createDomainStmt
  | createOpClassStmt | createOpFamilyStmt | createStatsStmt | ruleStmt | compositeTypeStmt
  | createEnumStmt | createRangeStmt | createdbStmt | createConversionStmt | createCastStmt
  | createTransformStmt | createPublicationStmt | createSubscriptionStmt | alterTableStmt
  | alterSeqStmt | renameStmt | alterCollationStmt | alterDomainStmt | alterDefaultPrivilegesStmt
  | alterTableSpaceOptionsStmt | alterTableMoveAllStmt | alterExtensionStmt
  | alterExtensionContentsStmt | alterFdwStmt | alterForeignServerStmt | alterUserMappingStmt
  | alterPolicyStmt | alterEventTrigStmt | alterRoleStmt | alterRoleSetStmt | alterOpFamilyStmt
  | alterStatsStmt | alterFunctionStmt | alterObjectDependsStmt | alterObjectSchemaStmt
  | alterOwnerStmt | alterOperatorStmt | alterTypeStmt | alterEnumStmt | alterDatabaseStmt
  | alterDatabaseRefreshCollStmt | alterDatabaseSetStmt | alterTSDictionaryStmt
  | alterTSConfigurationStmt | alterPublicationStmt | alterSubscriptionStmt | dropStmt
  | dropTableSpaceStmt | dropUserMappingStmt | dropRoleStmt | dropdbStmt | dropOwnedStmt
  | dropSubscriptionStmt | truncateStmt | grantStmt | grantRoleStmt | commentStmt | other
  deriving DecidableEq, Repr

inductive Node where
  | selectStmt (intoClause lockingClause : Bool) (ctes : List Node)
  | insertStmt (ctes : List Node)
  | updateStmt (ctes : List Node)
  | deleteStmt (ctes : List Node)
  | mergeStmt (ctes : List Node)
  | copyStmt (isFrom : Bool)
  | createTableAsStmt
  | explainStmt (analyze : Bool) (query : Option Node)
  | commonTableExpr (ctequery : Option Node)
  | utility (kind : Utility)

structure ParseResult where
  stmts : List (Option Node)

/-! ## The router -/

def isWriteUtility : Utility → Bool
  | .createStmt | .alterTableStmt | .dropStmt | .truncateStmt | .grantStmt | .grantRoleStmt
  | .createSchemaStmt | .indexStmt | .createSeqStmt | .alterSeqStmt | .viewStmt
  | .createFunctionStmt | .createTrigStmt | .renameStmt | .commentStmt => true
  | _ => false

mutual

def isWriteNode : Node → Bool
  | .insertStmt _ | .updateStmt _ | .deleteStmt _ => true
  | .utility kind => isWriteUtility kind
  | .selectStmt _ _ ctes => isWriteCtes ctes
  | .mergeStmt _ | .copyStmt _ | .createTableAsStmt | .explainStmt _ _ | .commonTableExpr _ => false

def isWriteCtes : List Node → Bool
  | [] => false
  | .commonTableExpr (some q) :: ctes => isWriteNode q || isWriteCtes ctes
  | _ :: ctes => isWriteCtes ctes

end

def classifyTree (tree : ParseResult) : QueryType :=
  if tree.stmts.any fun stmt => stmt.any isWriteNode then .write else .read

/-! ## The server -/

def Utility.refused : Utility → Bool
  | .commentStmt | .other => false
  | _ => true

def refused : Node → Bool
  | .insertStmt _ | .updateStmt _ | .deleteStmt _ | .mergeStmt _ | .createTableAsStmt => true
  | .copyStmt isFrom => isFrom
  | .selectStmt intoClause lockingClause _ => intoClause || lockingClause
  | .utility kind => kind.refused
  | .explainStmt _ _ | .commonTableExpr _ => false

inductive Edge where
  | selectWith | writeWith | analyze
  deriving DecidableEq, Repr

inductive Child : Edge → Node → Node → Prop where
  | select {intoClause lockingClause : Bool} {ctes : List Node} {q : Node}
      (h : .commonTableExpr (some q) ∈ ctes) :
      Child .selectWith (.selectStmt intoClause lockingClause ctes) q
  | insert {ctes : List Node} {q : Node} (h : .commonTableExpr (some q) ∈ ctes) :
      Child .writeWith (.insertStmt ctes) q
  | update {ctes : List Node} {q : Node} (h : .commonTableExpr (some q) ∈ ctes) :
      Child .writeWith (.updateStmt ctes) q
  | delete {ctes : List Node} {q : Node} (h : .commonTableExpr (some q) ∈ ctes) :
      Child .writeWith (.deleteStmt ctes) q
  | merge {ctes : List Node} {q : Node} (h : .commonTableExpr (some q) ∈ ctes) :
      Child .writeWith (.mergeStmt ctes) q
  | analyze {q : Node} : Child .analyze (.explainStmt true (some q)) q

inductive Path : List Edge → Node → Node → Prop where
  | here (n : Node) : Path [] n n
  | step {e : Edge} {es : List Edge} {n q m : Node} (hc : Child e n q) (hp : Path es q m) :
      Path (e :: es) n m

def Has (tree : ParseResult) (clauses : Edge → Prop) (kind : Node → Prop) : Prop :=
  ∃ n, some n ∈ tree.stmts ∧ ∃ es m, Path es n m ∧ (∀ e ∈ es, clauses e) ∧ kind m

def Refused (tree : ParseResult) : Prop := Has tree (fun _ => True) fun m => refused m = true

/-! ## What the router finds -/

def listedUtilities : List Utility :=
  [.createStmt, .createSchemaStmt, .createSeqStmt, .createFunctionStmt, .createTrigStmt, .indexStmt,
    .viewStmt, .alterTableStmt, .alterSeqStmt, .renameStmt, .dropStmt, .truncateStmt, .grantStmt,
    .grantRoleStmt, .commentStmt]

def listed : Node → Bool
  | .insertStmt _ | .updateStmt _ | .deleteStmt _ => true
  | .utility kind => kind ∈ listedUtilities
  | _ => false

theorem isWriteUtility_eq (kind : Utility) :
    isWriteUtility kind = decide (kind ∈ listedUtilities) := by
  cases kind <;> rfl

def Found (n : Node) : Prop := ∃ es m, Path es n m ∧ (∀ e ∈ es, e = .selectWith) ∧ listed m = true

theorem found_select {intoClause lockingClause : Bool} {ctes : List Node} :
    Found (.selectStmt intoClause lockingClause ctes) ↔ ∃ q, .commonTableExpr (some q) ∈ ctes ∧
    Found q := by
  constructor
  · rintro ⟨es, m, hp, hes, hm⟩
    cases hp with
    | here => simp [listed] at hm
    | step hc hp =>
      cases hc with
      | select hq => exact ⟨_, hq, _, m, hp, fun e he => hes e (List.mem_cons_of_mem _ he), hm⟩
  · rintro ⟨q, hq, es, m, hp, hes, hm⟩
    exact ⟨.selectWith :: es, m, .step (.select hq) hp, List.forall_mem_cons.mpr ⟨rfl, hes⟩, hm⟩

theorem found_of_ne_select {n : Node} (hn : ∀ i l ctes, n ≠ .selectStmt i l ctes) :
    Found n ↔ listed n = true := by
  constructor
  · rintro ⟨es, m, hp, hes, hm⟩
    cases hp with
    | here => exact hm
    | step hc hp =>
      have he := hes _ List.mem_cons_self
      cases hc with
      | select => exact absurd rfl (hn _ _ _)
      | _ => cases he
  · intro hm
    exact ⟨[], n, .here n, List.forall_mem_nil _, hm⟩

mutual

theorem isWriteNode_iff : (n : Node) → (isWriteNode n = true ↔ Found n)
  | .selectStmt _ _ ctes => by rw [isWriteNode, isWriteCtes_iff ctes, found_select]
  | .insertStmt _ | .updateStmt _ | .deleteStmt _ | .mergeStmt _ | .copyStmt _ | .createTableAsStmt
  | .explainStmt _ _ | .commonTableExpr _ | .utility _ => by
    rw [found_of_ne_select (by simp)]
    simp [isWriteNode, listed, isWriteUtility_eq]

theorem isWriteCtes_iff :
    (ctes : List Node) → (isWriteCtes ctes = true ↔ ∃ q, .commonTableExpr (some q) ∈ ctes ∧ Found q)
  | [] => by simp [isWriteCtes]
  | .commonTableExpr (some q) :: ctes => by
    rw [isWriteCtes, Bool.or_eq_true, isWriteNode_iff q, isWriteCtes_iff ctes]
    simp [or_and_right, exists_or]
  | .commonTableExpr none :: ctes | .selectStmt _ _ _ :: ctes | .insertStmt _ :: ctes
  | .updateStmt _ :: ctes | .deleteStmt _ :: ctes | .mergeStmt _ :: ctes | .copyStmt _ :: ctes
  | .createTableAsStmt :: ctes | .explainStmt _ _ :: ctes | .utility _ :: ctes => by
    simp [isWriteCtes, isWriteCtes_iff ctes]

end

theorem classifyTree_iff (tree : ParseResult) :
    classifyTree tree = .write ↔ Has tree (· = .selectWith) fun m => listed m = true := by
  have hany : (tree.stmts.any fun stmt => stmt.any isWriteNode) = true ↔
      ∃ n, some n ∈ tree.stmts ∧ isWriteNode n = true := by
    rw [List.any_eq_true]
    constructor
    · rintro ⟨stmt, hmem, hwrite⟩
      cases stmt with
      | none => simp at hwrite
      | some n => exact ⟨n, hmem, hwrite⟩
    · rintro ⟨n, hmem, hn⟩
      exact ⟨some n, hmem, hn⟩
  have hwrite : classifyTree tree = .write ↔ (tree.stmts.any fun stmt => stmt.any isWriteNode) =
      true := by
    unfold classifyTree
    split <;> simp_all
  rw [hwrite, hany]
  exact exists_congr fun n => and_congr_right fun _ => isWriteNode_iff n

/-- A refused tree is a write just if WITH clauses of SELECTs lead to a statement of a listed
kind. -/
theorem refused_is_write_iff (tree : ParseResult) :
    (Refused tree → classifyTree tree = .write) ↔
      (Refused tree → Has tree (· = .selectWith) fun m => listed m = true) := by
  rw [classifyTree_iff]

def single (n : Node) : ParseResult := ⟨[some n]⟩

theorem refused_single {n m : Node} {es : List Edge} (hp : Path es n m) (hm : refused m = true) :
    Refused (single n) :=
  ⟨n, List.mem_singleton_self _, es, m, hp, fun _ _ => trivial, hm⟩

theorem refused_but_read :
    (Refused (single (.mergeStmt [])) ∧ classifyTree (single (.mergeStmt [])) = .read) ∧
    (Refused (single (.copyStmt true)) ∧ classifyTree (single (.copyStmt true)) = .read) ∧
    (Refused (single .createTableAsStmt) ∧ classifyTree (single .createTableAsStmt) = .read) ∧
    (Refused (single (.selectStmt true false [])) ∧
      classifyTree (single (.selectStmt true false [])) = .read) ∧
    (Refused (single (.selectStmt false true [])) ∧
      classifyTree (single (.selectStmt false true [])) = .read) ∧
    (Refused (single (.utility .createExtensionStmt)) ∧
      classifyTree (single (.utility .createExtensionStmt)) = .read) ∧
    (Refused (single (.utility .dropRoleStmt)) ∧
      classifyTree (single (.utility .dropRoleStmt)) = .read) ∧
    (Refused (single (.explainStmt true (some (.deleteStmt [])))) ∧
      classifyTree (single (.explainStmt true (some (.deleteStmt [])))) = .read) := by
  refine ⟨⟨?_, rfl⟩, ⟨?_, rfl⟩, ⟨?_, rfl⟩, ⟨?_, rfl⟩, ⟨?_, rfl⟩, ⟨?_, rfl⟩, ⟨?_, rfl⟩, ?_, rfl⟩
  · exact refused_single (.here _) rfl
  · exact refused_single (.here _) rfl
  · exact refused_single (.here _) rfl
  · exact refused_single (.here _) rfl
  · exact refused_single (.here _) rfl
  · exact refused_single (.here _) rfl
  · exact refused_single (.here _) rfl
  · exact refused_single (.step .analyze (.here _)) rfl

end PgMux.StandbyWrites
