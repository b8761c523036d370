import PgMux.PgQuery

/-!
# The query firewall

`checkFirewallTree` and `checkNode` of the router. The check looks into the WITH clause of a SELECT
only, so a forbidden statement below an INSERT, UPDATE or DELETE or below an EXPLAIN stays unseen.
-/

namespace PgMux.Firewall

open PgQuery

inductive FirewallRule where
  | deleteNoWhere | updateNoWhere | dropTable | truncate
  deriving DecidableEq, Repr

structure FirewallConfig where
  enabled : Bool
  blockDeleteWithoutWhere : Bool
  blockUpdateWithoutWhere : Bool
  blockDropTable : Bool
  blockTruncate : Bool
  deriving DecidableEq, Repr

inductive Message where
  | deleteWithoutWhere (table : Bytes)
  | updateWithoutWhere (table : Bytes)
  | drop
  | truncate
  deriving DecidableEq, Repr

structure FirewallResult where
  blocked : Bool
  rule : Option FirewallRule
  message : Option Message
  deriving DecidableEq, Repr

def FirewallResult.allowed : FirewallResult := ⟨false, none, none⟩

def FirewallResult.block (rule : FirewallRule) (message : Message) : FirewallResult :=
  ⟨true, some rule, some message⟩

def tableName (relation : Option RangeVar) : Bytes := (relation.map RangeVar.relname).getD []

mutual

def checkNode (cfg : FirewallConfig) : Node → FirewallResult
  | .deleteStmt relation whereClause _ =>
    if cfg.blockDeleteWithoutWhere && whereClause.isNone then
      .block .deleteNoWhere (.deleteWithoutWhere (tableName relation))
    else .allowed
  | .updateStmt relation whereClause _ =>
    if cfg.blockUpdateWithoutWhere && whereClause.isNone then
      .block .updateNoWhere (.updateWithoutWhere (tableName relation))
    else .allowed
  | .dropStmt => if cfg.blockDropTable then .block .dropTable .drop else .allowed
  | .truncateStmt => if cfg.blockTruncate then .block .truncate .truncate else .allowed
  | .selectStmt ctes => checkCtes cfg ctes
  | _ => .allowed

def checkCtes (cfg : FirewallConfig) : List Node → FirewallResult
  | [] => .allowed
  | .commonTableExpr (some q) :: ctes =>
    let result := checkNode cfg q
    if result.blocked then result else checkCtes cfg ctes
  | _ :: ctes => checkCtes cfg ctes

end

def checkStmts (cfg : FirewallConfig) : List (Option Node) → FirewallResult
  | [] => .allowed
  | none :: stmts => checkStmts cfg stmts
  | some stmt :: stmts =>
    let result := checkNode cfg stmt
    if result.blocked then result else checkStmts cfg stmts

def checkFirewallTree (tree : ParseResult) (cfg : FirewallConfig) : FirewallResult :=
  checkStmts cfg tree.stmts

def checkFirewall (parse : Bytes → Option ParseResult) (query : Bytes) (cfg : FirewallConfig) :
    FirewallResult :=
  if !cfg.enabled then .allowed
  else
    match parse query with
    | none => .allowed
    | some tree => checkFirewallTree tree cfg

def checkFirewallWithTree (tree : ParseResult) (cfg : FirewallConfig) : FirewallResult :=
  if !cfg.enabled then .allowed else checkFirewallTree tree cfg

def offends (cfg : FirewallConfig) : Node → Bool
  | .deleteStmt _ whereClause _ => cfg.blockDeleteWithoutWhere && whereClause.isNone
  | .updateStmt _ whereClause _ => cfg.blockUpdateWithoutWhere && whereClause.isNone
  | .dropStmt => cfg.blockDropTable
  | .truncateStmt => cfg.blockTruncate
  | _ => false

def OffendsAlong (cfg : FirewallConfig) (kind : List Edge → Prop) (n : Node) : Prop :=
  ∃ es m, Path es n m ∧ kind es ∧ offends cfg m

def SelectsOnly (es : List Edge) : Prop := ∀ e ∈ es, e = .selectWith

theorem offendsAlong_selectsOnly {cfg : FirewallConfig} {n : Node}
    (hn : ∀ ctes, n ≠ .selectStmt ctes) : OffendsAlong cfg SelectsOnly n ↔ offends cfg n := by
  constructor
  · rintro ⟨es, m, hp, hs, hm⟩
    cases hp with
    | here => exact hm
    | step hc hp =>
      have he := hs _ (List.mem_cons_self ..)
      cases hc with
      | select => exact absurd rfl (hn _)
      | _ => cases he
  · exact fun hm => ⟨[], n, .here n, by simp [SelectsOnly], hm⟩

theorem offendsAlong_selectStmt {cfg : FirewallConfig} {ctes : List Node} :
    OffendsAlong cfg SelectsOnly (.selectStmt ctes) ↔
      ∃ q, .commonTableExpr (some q) ∈ ctes ∧ OffendsAlong cfg SelectsOnly q := by
  constructor
  · rintro ⟨es, m, hp, hs, hm⟩
    cases hp with
    | here => simp [offends] at hm
    | step hc hp =>
      cases hc with
      | select h => exact ⟨_, h, _, m, hp, fun e he => hs e (List.mem_cons_of_mem _ he), hm⟩
  · rintro ⟨q, hq, es, m, hp, hs, hm⟩
    refine ⟨.selectWith :: es, m, .step (.select hq) hp, ?_, hm⟩
    intro e he
    rcases List.mem_cons.mp he with rfl | he
    · rfl
    · exact hs e he

mutual

theorem blocked_checkNode (cfg : FirewallConfig) :
    (n : Node) → ((checkNode cfg n).blocked ↔ OffendsAlong cfg SelectsOnly n)
  | .selectStmt ctes => by
    rw [checkNode, blocked_checkCtes cfg ctes, offendsAlong_selectStmt]
  | .deleteStmt relation whereClause ctes => by
    rw [offendsAlong_selectsOnly (by simp), checkNode, offends]
    split_ifs with h <;> simp [h, FirewallResult.block, FirewallResult.allowed]
  | .updateStmt relation whereClause ctes => by
    rw [offendsAlong_selectsOnly (by simp), checkNode, offends]
    split_ifs with h <;> simp [h, FirewallResult.block, FirewallResult.allowed]
  | .dropStmt => by
    rw [offendsAlong_selectsOnly (by simp), checkNode, offends]
    split_ifs with h <;> simp [h, FirewallResult.block, FirewallResult.allowed]
  | .truncateStmt => by
    rw [offendsAlong_selectsOnly (by simp), checkNode, offends]
    split_ifs with h <;> simp [h, FirewallResult.block, FirewallResult.allowed]
  | .insertStmt relation ctes => by
    rw [offendsAlong_selectsOnly (by simp)]
    simp [checkNode, offends, FirewallResult.allowed]
  | .explainStmt query => by
    rw [offendsAlong_selectsOnly (by simp)]
    simp [checkNode, offends, FirewallResult.allowed]
  | .commonTableExpr ctequery => by
    rw [offendsAlong_selectsOnly (by simp)]
    simp [checkNode, offends, FirewallResult.allowed]
  | .other => by
    rw [offendsAlong_selectsOnly (by simp)]
    simp [checkNode, offends, FirewallResult.allowed]

theorem blocked_checkCtes (cfg : FirewallConfig) :
    (ctes : List Node) → ((checkCtes cfg ctes).blocked ↔
      ∃ q, .commonTableExpr (some q) ∈ ctes ∧ OffendsAlong cfg SelectsOnly q)
  | [] => by simp [checkCtes, FirewallResult.allowed]
  | .commonTableExpr (some q) :: ctes => by
    have hq := blocked_checkNode cfg q
    have hctes := blocked_checkCtes cfg ctes
    by_cases h : (checkNode cfg q).blocked
    · simp only [checkCtes, h, ↓reduceIte, true_iff]
      exact ⟨q, List.mem_cons_self .., hq.mp h⟩
    · have hnot := fun ho => h (hq.mpr ho)
      simp only [checkCtes, h, Bool.false_eq_true, ↓reduceIte, hctes]
      constructor
      · rintro ⟨p, hp, ho⟩
        exact ⟨p, List.mem_cons_of_mem _ hp, ho⟩
      · rintro ⟨p, hp, ho⟩
        rcases List.mem_cons.mp hp with heq | hp
        · obtain rfl : p = q := by simpa using heq
          exact absurd ho hnot
        · exact ⟨p, hp, ho⟩
  | .commonTableExpr none :: ctes | .selectStmt _ :: ctes | .insertStmt .. :: ctes |
    .updateStmt .. :: ctes | .deleteStmt .. :: ctes | .dropStmt :: ctes | .truncateStmt :: ctes |
    .explainStmt _ :: ctes | .other :: ctes => by
    have hctes := blocked_checkCtes cfg ctes
    simp [checkCtes, hctes]

end

theorem blocked_checkStmts (cfg : FirewallConfig) (stmts : List (Option Node)) :
    (checkStmts cfg stmts).blocked ↔ ∃ stmt, some stmt ∈ stmts ∧
    OffendsAlong cfg SelectsOnly stmt := by
  induction stmts with
  | nil => simp [checkStmts, FirewallResult.allowed]
  | cons stmt stmts ih =>
    cases stmt with
    | none => simp [checkStmts, ih]
    | some stmt =>
      by_cases h : (checkNode cfg stmt).blocked
      · simp only [checkStmts, h, ↓reduceIte, true_iff]
        exact ⟨stmt, List.mem_cons_self .., (blocked_checkNode cfg stmt).mp h⟩
      · have hnot : ¬ OffendsAlong cfg SelectsOnly stmt :=
          fun ho => h ((blocked_checkNode cfg stmt).mpr ho)
        simp [checkStmts, h, ih, hnot]

/-- Some clause on the way is not the WITH clause of a SELECT. -/
def LeavesSelects (es : List Edge) : Prop := ∃ e ∈ es, e ≠ .selectWith

def TreeOffends (cfg : FirewallConfig) (kind : List Edge → Prop) (tree : ParseResult) : Prop :=
  ∃ stmt, some stmt ∈ tree.stmts ∧ OffendsAlong cfg kind stmt

theorem treeOffends_any {cfg : FirewallConfig} {tree : ParseResult} :
    TreeOffends cfg (fun _ => True) tree ↔
      TreeOffends cfg SelectsOnly tree ∨ TreeOffends cfg LeavesSelects tree := by
  constructor
  · rintro ⟨stmt, hstmt, es, m, hp, -, hm⟩
    by_cases hs : SelectsOnly es
    · exact .inl ⟨stmt, hstmt, es, m, hp, hs, hm⟩
    · exact .inr ⟨stmt, hstmt, es, m, hp, by simpa [SelectsOnly, LeavesSelects] using hs, hm⟩
  · rintro (⟨stmt, hstmt, es, m, hp, -, hm⟩ | ⟨stmt, hstmt, es, m, hp, -, hm⟩) <;>
      exact ⟨stmt, hstmt, es, m, hp, trivial, hm⟩

/-- Exactly the trees with a forbidden statement are blocked, unless all of these lie below a clause
that is no WITH of a SELECT. -/
theorem blocked_iff_treeOffends (tree : ParseResult) (cfg : FirewallConfig) :
    ((checkFirewallTree tree cfg).blocked ↔ TreeOffends cfg (fun _ => True) tree) ↔
      TreeOffends cfg SelectsOnly tree ∨ ¬ TreeOffends cfg LeavesSelects tree := by
  have hblocked : (checkFirewallTree tree cfg).blocked ↔ TreeOffends cfg SelectsOnly tree :=
    blocked_checkStmts cfg tree.stmts
  rw [hblocked, treeOffends_any]
  tauto

def strictConfig : FirewallConfig := ⟨true, true, true, true, true⟩

def deleteInInsert : ParseResult :=
  ⟨[some (.insertStmt (some ⟨ascii "log"⟩)
    [.commonTableExpr (some (.deleteStmt (some ⟨ascii "t"⟩) none []))])]⟩

theorem deleteInInsert_not_blocked :
    ¬ ((checkFirewallTree deleteInInsert strictConfig).blocked ↔
      TreeOffends strictConfig (fun _ => True) deleteInInsert) := by
  have hdelete : TreeOffends strictConfig (fun _ => True) deleteInInsert :=
    ⟨_, List.mem_cons_self .., [.writeWith], _, .step (.insert (List.mem_cons_self ..)) (.here _),
      trivial, rfl⟩
  have hpass : (checkFirewallTree deleteInInsert strictConfig).blocked = false := by
    simp [deleteInInsert, checkFirewallTree, checkStmts, checkNode, FirewallResult.allowed]
  intro h
  simpa [hpass] using h.mpr hdelete

end PgMux.Firewall
