import PgMux.GoStrings

/-!
# Tables of a parse tree

`WalkNodes` on the tree type of pg_query, and the tables that `extractReadTablesFromTree` collects
on its way. A node is its kind, a table name and the nodes of its fields.
-/

namespace PgMux.AstTables

open GoStrings

inductive Kind where
  | selectStmt | insertStmt | updateStmt | deleteStmt
  | commonTableExpr | joinExpr | subLink | boolExpr | aExpr | resTarget | funcCall | list
  | rangeVar | rangeSubselect
  | other
  deriving DecidableEq, Repr

inductive Field where
  | targetList | fromClause | whereClause | windowClause | valuesLists | groupClause | havingClause
  | larg | rarg | ctes | relation | selectStmt | usingClause | ctequery | quals | subselect
  | testexpr | args | lexpr | rexpr | val | items
  | other
  deriving DecidableEq, Repr

inductive Node where
  | mk (kind : Kind) (relname : Bytes) (sub : Field → List Node)

namespace Node

def kind : Node → Kind
  | mk kind _ _ => kind

def relname : Node → Bytes
  | mk _ relname _ => relname

def sub : Node → Field → List Node
  | mk _ _ sub => sub

end Node

def visited : Kind → List Field
  | .selectStmt =>
    [.targetList, .fromClause, .whereClause, .windowClause, .valuesLists, .groupClause,
      .havingClause, .larg, .rarg, .ctes]
  | .insertStmt => [.relation, .selectStmt, .ctes]
  | .updateStmt => [.relation, .targetList, .whereClause, .fromClause, .ctes]
  | .deleteStmt => [.relation, .whereClause, .usingClause, .ctes]
  | .commonTableExpr => [.ctequery]
  | .joinExpr => [.larg, .rarg, .quals]
  | .subLink => [.subselect, .testexpr]
  | .boolExpr => [.args]
  | .aExpr => [.lexpr, .rexpr]
  | .resTarget => [.val]
  | .funcCall => [.args]
  | .list => [.items]
  | .rangeVar | .rangeSubselect | .other => []

section

variable {σ : Type} (fn : σ → Node → σ × Bool)

mutual

def walkNode (s : σ) : Node → σ × Bool
  | .mk kind relname sub =>
    (visited kind).foldl (fun r f => if r.2 then walkList r.1 (sub f) else r)
      (fn s (.mk kind relname sub))

def walkList (s : σ) : List Node → σ × Bool
  | [] => (s, true)
  | n :: ns => if (walkNode s n).2 then walkList (walkNode s n).1 ns else walkNode s n

end

def walkNodes (s : σ) : List (Option Node) → σ
  | [] => s
  | none :: stmts => walkNodes s stmts
  | some n :: stmts => if (walkNode fn s n).2 then walkNodes (walkNode fn s n).1 stmts
      else (walkNode fn s n).1

end

structure ParseResult where
  stmts : List (Option Node)

section

variable (lowerRune : Nat → Nat)

def collect (tables : List Bytes) (n : Node) : List Bytes × Bool :=
  let t := toLower lowerRune n.relname
  (if n.kind = .rangeVar ∧ t ≠ [] ∧ t ∉ tables then tables ++ [t] else tables, true)

def extractReadTablesFromTree (tree : ParseResult) : List Bytes :=
  walkNodes (collect lowerRune) [] tree.stmts

end

inductive Inside : Node → Node → Prop where
  | here (n : Node) : Inside n n
  | step {n c m : Node} (f : Field) (hc : c ∈ n.sub f) (h : Inside c m) : Inside n m

/-- The nodes of which a field is followed, field by field. -/
def followed : Field → List Kind
  | .targetList | .fromClause => [.selectStmt, .updateStmt]
  | .whereClause => [.selectStmt, .updateStmt, .deleteStmt]
  | .windowClause | .valuesLists | .groupClause | .havingClause => [.selectStmt]
  | .larg | .rarg => [.selectStmt, .joinExpr]
  | .ctes => [.selectStmt, .insertStmt, .updateStmt, .deleteStmt]
  | .relation => [.insertStmt, .updateStmt, .deleteStmt]
  | .selectStmt => [.insertStmt]
  | .usingClause => [.deleteStmt]
  | .ctequery => [.commonTableExpr]
  | .quals => [.joinExpr]
  | .subselect | .testexpr => [.subLink]
  | .args => [.boolExpr, .funcCall]
  | .lexpr | .rexpr => [.aExpr]
  | .val => [.resTarget]
  | .items => [.list]
  | .other => []

theorem mem_visited {kind : Kind} {f : Field} : f ∈ visited kind ↔ kind ∈ followed f := by
  cases f <;> cases kind <;> decide

inductive Reached : Node → Node → Prop where
  | here (n : Node) : Reached n n
  | step {n c m : Node} {f : Field} (hf : n.kind ∈ followed f) (hc : c ∈ n.sub f)
      (h : Reached c m) : Reached n m

namespace ParseResult

def Inside (tree : ParseResult) (m : Node) : Prop := ∃ n, some n ∈ tree.stmts ∧ AstTables.Inside n m

def Reached (tree : ParseResult) (m : Node) : Prop :=
  ∃ n, some n ∈ tree.stmts ∧ AstTables.Reached n m

end ParseResult

section

variable (lowerRune : Nat → Nat)

def Named (n : Node) (t : Bytes) : Prop :=
  t ≠ [] ∧ ∃ m, Reached n m ∧ m.kind = .rangeVar ∧ toLower lowerRune m.relname = t

structure Adds (names : Bytes → Prop) (s : List Bytes) (r : List Bytes × Bool) : Prop where
  goesOn : r.2 = true
  mem : ∀ t, t ∈ r.1 ↔ t ∈ s ∨ names t

theorem adds_collect (s : List Bytes) (n : Node) :
    Adds (fun t => t ≠ [] ∧ n.kind = .rangeVar ∧
      toLower lowerRune n.relname = t) s (collect lowerRune s n) := by
  refine ⟨rfl, fun t => ?_⟩
  unfold collect
  dsimp only
  split
  · rename_i h
    rw [List.mem_append, List.mem_singleton]
    constructor
    · rintro (ht | rfl)
      · exact .inl ht
      · exact .inr ⟨h.2.1, h.1, rfl⟩
    · rintro (ht | ⟨_, _, rfl⟩)
      · exact .inl ht
      · exact .inr rfl
  · rename_i h
    constructor
    · exact .inl
    · rintro (ht | ⟨hne, hkind, rfl⟩)
      · exact ht
      · by_contra hmem
        exact h ⟨hkind, hne, hmem⟩

theorem adds_fields {walk : List Bytes → List Node → List Bytes × Bool} {sub : Field → List Node}
    (h : ∀ f s, Adds (fun t => ∃ c ∈ sub f, Named lowerRune c t) s (walk s (sub f)))
    (fs : List Field) {names : Bytes → Prop} {s : List Bytes} {r : List Bytes × Bool}
    (hr : Adds names s r) :
    Adds (fun t => names t ∨ ∃ f ∈ fs, ∃ c ∈ sub f, Named lowerRune c t) s
      (fs.foldl (fun r f => if r.2 then walk r.1 (sub f) else r) r) := by
  induction fs generalizing names r with
  | nil => exact ⟨hr.goesOn, fun t => by simpa using hr.mem t⟩
  | cons f fs ih =>
    have hf := h f r.1
    have hstep : Adds (fun t => names t ∨ ∃ c ∈ sub f, Named lowerRune c t) s (walk r.1 (sub f)) :=
      ⟨hf.goesOn, fun t => by rw [hf.mem, hr.mem, or_assoc]⟩
    rw [List.foldl_cons, if_pos hr.goesOn]
    have hrest := ih hstep
    refine ⟨hrest.goesOn, fun t => ?_⟩
    rw [hrest.mem, or_assoc, List.exists_mem_cons_iff]

theorem named_iff (kind : Kind) (relname : Bytes) (sub : Field → List Node) (t : Bytes) :
    Named lowerRune (.mk kind relname sub) t ↔
      (t ≠ [] ∧ kind = .rangeVar ∧ toLower lowerRune relname = t) ∨
        ∃ f ∈ visited kind, ∃ c ∈ sub f, Named lowerRune c t := by
  constructor
  · rintro ⟨hne, m, hm, hkind, hname⟩
    cases hm with
    | here => exact .inl ⟨hne, hkind, hname⟩
    | step hf hc h => exact .inr ⟨_, mem_visited.mpr hf, _, hc, hne, m, h, hkind, hname⟩
  · rintro (⟨hne, hkind, hname⟩ | ⟨f, hf, c, hc, hne, m, hm, hkind, hname⟩)
    · exact ⟨hne, _, .here _, hkind, hname⟩
    · exact ⟨hne, m, .step (mem_visited.mp hf) hc hm, hkind, hname⟩

mutual

theorem adds_walkNode (s : List Bytes) :
    (n : Node) → Adds (Named lowerRune n) s (walkNode (collect lowerRune) s n)
  | .mk kind relname sub => by
    have hfields := adds_fields lowerRune (fun f s => adds_walkList s (sub f)) (visited kind)
      (adds_collect lowerRune s (.mk kind relname sub))
    rw [walkNode]
    refine ⟨hfields.goesOn, fun t => ?_⟩
    rw [hfields.mem, named_iff]
    rfl

theorem adds_walkList (s : List Bytes) :
    (ns : List Node) → Adds (fun t => ∃ c ∈ ns,
      Named lowerRune c t) s (walkList (collect lowerRune) s ns)
  | [] => ⟨rfl, fun t => by simp [walkList]⟩
  | n :: ns => by
    have hhead := adds_walkNode s n
    have htail := adds_walkList (walkNode (collect lowerRune) s n).1 ns
    rw [walkList, if_pos hhead.goesOn]
    refine ⟨htail.goesOn, fun t => ?_⟩
    rw [htail.mem, hhead.mem, or_assoc, List.exists_mem_cons_iff]

end

theorem mem_walkNodes (s : List Bytes) (stmts : List (Option Node)) (t : Bytes) :
    t ∈ walkNodes (collect lowerRune) s stmts ↔ t ∈ s ∨ ∃ n, some n ∈ stmts ∧
    Named lowerRune n t := by
  induction stmts generalizing s with
  | nil => simp [walkNodes]
  | cons n stmts ih =>
    cases n with
    | none =>
      rw [walkNodes, ih]
      simp
    | some n =>
      have hn := adds_walkNode lowerRune s n
      rw [walkNodes, if_pos hn.goesOn, ih, hn.mem, or_assoc]
      simp only [List.mem_cons, Option.some.injEq]
      constructor
      · rintro (ht | ht | ⟨m, hm, ht⟩)
        · exact .inl ht
        · exact .inr ⟨n, .inl rfl, ht⟩
        · exact .inr ⟨m, .inr hm, ht⟩
      · rintro (ht | ⟨m, rfl | hm, ht⟩)
        · exact .inl ht
        · exact .inr (.inl ht)
        · exact .inr (.inr ⟨m, hm, ht⟩)

theorem mem_extractReadTablesFromTree (tree : ParseResult) (t : Bytes) :
    t ∈ extractReadTablesFromTree lowerRune tree ↔
      t ≠ [] ∧ ∃ m, tree.Reached m ∧ m.kind = .rangeVar ∧ toLower lowerRune m.relname = t := by
  rw [extractReadTablesFromTree, mem_walkNodes]
  constructor
  · rintro (ht | ⟨n, hn, hne, m, hm, hkind, hname⟩)
    · exact absurd ht List.not_mem_nil
    · exact ⟨hne, m, ⟨n, hn, hm⟩, hkind, hname⟩
  · rintro ⟨hne, m, ⟨n, hn, hm⟩, hkind, hname⟩
    exact .inr ⟨n, hn, hne, m, hm, hkind, hname⟩

/-- Every table is extracted just if each has a name and shares it with one that the walk gets
to. -/
theorem extracts_all_iff (tree : ParseResult) :
    (∀ m, tree.Inside m → m.kind = .rangeVar →
        toLower lowerRune m.relname ∈ extractReadTablesFromTree lowerRune tree) ↔
      ∀ m, tree.Inside m → m.kind = .rangeVar → m.relname ≠ [] ∧
        ∃ m', tree.Reached m' ∧ m'.kind = .rangeVar ∧
          toLower lowerRune m'.relname = toLower lowerRune m.relname := by
  refine forall_congr' fun m => forall_congr' fun _ => forall_congr' fun _ => ?_
  rw [mem_extractReadTablesFromTree, ne_eq, toLower_eq_nil]

end

def Node.leaf (kind : Kind) (relname : Bytes) : Node := .mk kind relname fun _ => []

def Node.one (kind : Kind) (f : Field) (n : Node) : Node :=
  .mk kind [] fun g => if g = f then [n] else []

def subquery : ParseResult :=
  ⟨[some (.one .selectStmt .fromClause
    (.one .rangeSubselect .other (.one .selectStmt .fromClause (.leaf .rangeVar (ascii "t")))))]⟩

theorem subquery_not_extracted :
    ∃ m, subquery.Inside m ∧ m.kind = .rangeVar ∧
    toLower id m.relname ∉ extractReadTablesFromTree id subquery := by
  refine ⟨.leaf .rangeVar (ascii "t"), ⟨_, List.mem_singleton.mpr rfl, ?_⟩, rfl, by decide +kernel⟩
  refine .step .fromClause (List.mem_singleton.mpr rfl)
    (.step .other (List.mem_singleton.mpr rfl) ?_)
  exact .step .fromClause (List.mem_singleton.mpr rfl) (.here _)

end PgMux.AstTables
