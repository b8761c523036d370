import PgMux.Mirroring

/-!
# The mirror's filter on the written tables

The filter is asked about the tables a query writes. A read writes none, so with a filter no read is
mirrored.
-/

namespace PgMux.Mirroring

open GoStrings Relay TableNames
open Protocol (extractQueryText)
open Router (splitStatements)

variable {x : Extractor} {query stmt : Bytes}

theorem extractTables_select (hone : splitStatements query = [stmt])
    (hselect : ascii "SELECT" <+: toUpper x.upperRune (trimSpace stmt)) :
    extractTables x.upperRune x.lowerRune query = some [] := by
  obtain ⟨rest, hrest⟩ := hselect
  have hno (kw : Bytes) (hkw : kw.head?.any (· ≠ 83)) :
      kw.isPrefixOf (toUpper x.upperRune (trimSpace stmt)) = false := by
    cases kw with
    | nil => simp at hkw
    | cons c kw =>
      have hc : c ≠ 83 := by simpa using hkw
      have hfirst : toUpper x.upperRune (trimSpace stmt) = 83 :: (ascii "ELECT" ++ rest) :=
        hrest.symm
      rw [hfirst, List.isPrefixOf, beq_eq_false_iff_ne.mpr hc, Bool.false_and]
  rw [extractTables, tablesOf, hone]
  simp only [inEach, List.mapM_cons, List.mapM_nil, extractTablesFromStmt, hno (ascii "INSERT INTO")
    (by decide),
    hno (ascii "UPDATE") (by decide), hno (ascii "DELETE FROM") (by decide),
    hno (ascii "TRUNCATE") (by decide), hno (ascii "WITH") (by decide)]
  rfl

theorem classify_of_reader {env : Router.Env} {s : Router.Session} {now : Int}
    (hstring : s.astParser = false) (h : (Router.routeQueryLocked env s now query).1 = .reader) :
    env.classify query ≠ .write := by
  have htype (s' : Router.Session) (hs : s'.astParser = false)
      (h : (Router.routeByType env s' now query).1 = .reader) : env.classify query ≠ .write := by
    intro hwrite
    simp [Router.routeByType, Router.queryType, hs, hwrite] at h
  unfold Router.routeQueryLocked at h
  split at h
  · split at h
    · simp at h
    · simp at h
    · split at h
      · simp at h
      · exact htype s hstring h
  · dsimp only at h
    split_ifs at h
    exact htype (Router.updateTransactionState env s query) hstring h

/-- With a filter no SELECT is mirrored, and in read-only mode no write. -/
theorem filtered_reads (m : Mirror) (x : Extractor) :
    (∀ names cfg query stmt tables msg qtype pq, m.tables = some names → cfg.astParser = false →
      splitStatements query = [stmt] →
      ascii "SELECT" <+: toUpper x.upperRune (trimSpace stmt) →
      extractReadTables x.upperRune x.lowerRune query = some tables →
      (((mirrorQuery m x cfg msg query qtype pq).isSome ↔ ∃ t ∈ tables, t ∈ names) ↔ ∀ t ∈ tables,
        t ∉ names)) ∧
    ∀ env v i, i.cfg.astParser = false → v.session.astParser = false → m.isReadOnly →
      env.classify (extractQueryText i.msg.payload) = .write → passed env m x v i = none := by
  constructor
  · intro names cfg query stmt tables msg qtype pq hfilter hstring hone hselect hread
    have hnone : mirrorQuery m x cfg msg query qtype pq = none := by
      simp [mirrorQuery, extractQueryTablesParsed, hstring, extractTables_select hone hselect,
        Mirror.matchesTables, hfilter]
    simp [hnone]
  · intro env v i hi hv hmode hwrite
    have hroute :
    (Router.routeWithTxState env.toEnv v.session i.now (extractQueryText i.msg.payload)).1.route ≠
    .reader :=
      fun h => classify_of_reader hv h hwrite
    simp [passed, hroute, classifyQueryParsed, hi, hwrite, mirrorQuery, hmode]

def filtered : Mirror := new ⟨none, [ascii "t"], 1, 1⟩

theorem filtered_select : Router.splitStatements (ascii "SELECT * FROM t") =
    [ascii "SELECT * FROM t"] ∧
    extractReadTables id id (ascii "SELECT * FROM t") = some [ascii "t"] ∧
    filtered.matchesTables [ascii "t"] ∧
      passed stringEnv filtered noTables (Vars.init (Router.Session.new 0 false false))
        (plainQuery "SELECT * FROM t") = none := by
  decide +kernel

end PgMux.Mirroring
