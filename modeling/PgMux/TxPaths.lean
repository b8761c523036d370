import PgMux.TxTracking

/-!
# The two ways to the transaction flag

A single statement is compared with the control words byte by byte. Other queries are split, and
each statement is trimmed, upper-cased and tested for bare prefixes.
-/

namespace PgMux.TxPaths

open GoStrings (trimSpace toUpper isSolid isAsciiSpace)
open Router (Env Session hasTxPrefix keywordAt isSingleStatement splitStatements upperTrimmed
  startsTx endsTx trackStatement updateTransactionState containsTransactionKeyword)
open TxWords (startTransaction closers)

def fastState (s : Session) (query : Bytes) : Session :=
  match hasTxPrefix query with
  | .start => s.setInTransaction true
  | .finish => s.setInTransaction false
  | .other => s

def fastKeyword (query : Bytes) : Bool := hasTxPrefix query != .other

variable {query k : Bytes}

section

variable (env : Env)

def Agrees (query : Bytes) : Prop :=
  (∀ s : Session, (fastState s query).inTransaction =
    (updateTransactionState env s query).inTransaction) ∧
    fastKeyword query = containsTransactionKeyword env query

def phrases : List Bytes :=
  [ascii "BEGIN", startTransaction, ascii "COMMIT", ascii "ROLLBACK", ascii "END"]

def slowFinds (query k : Bytes) : Bool :=
  k.isPrefixOf (upperTrimmed env ((splitStatements query).headD []))

def plainControl (query : Bytes) : Bool :=
  let rest := query.dropWhile Router.isSpace
  (phrases.all fun k => !slowFinds env query k || keywordAt k rest) &&
    !(keywordAt startTransaction rest && (rest.take startTransaction.length).contains 0)

end

/-! ## The fast way -/

def foldByte (a : Byte) : Byte := if a = 0 then blank else upperByte a

theorem or_bit_fold {b : Byte} (hb : isUpper b ∨ b = blank) (a : Byte) :
    (a ||| 0x20 == b ||| 0x20) = (foldByte a == b) := by
  unfold foldByte
  split_ifs with ha
  · subst ha
    rcases hb with hb | rfl
    · have hne (x : Byte) (hx : isUpper x = false) : (x == b) = false := by
        rw [beq_eq_false_iff_ne]
        rintro rfl
        simp [hb] at hx
      rw [TxTracking.or_bit_eq (.inl hb), hne _ rfl, hne _ rfl]
    · rfl
  · exact TxTracking.or_bit_eq (hb.imp_right fun hb => ⟨hb, ha⟩)

theorem eqFoldN_fold (hk : ∀ b ∈ k, isUpper b ∨ b = blank) (text : Bytes) :
    Router.eqFoldN text k = k.isPrefixOf (text.map foldByte) :=
  TxTracking.eqFoldN_map fun a _ b hb => or_bit_fold (hk b hb) a

theorem of_foldByte {a : Byte} (h : isUpper (foldByte a)) :
    upperByte a = foldByte a ∧ isSolid a := by
  unfold foldByte at h ⊢
  split_ifs at h ⊢ with ha
  · exact absurd h (by decide)
  · exact ⟨rfl, TxWords.of_isUpper_upperByte h⟩

theorem lt_of_foldByte {a : Byte} (h : isUpper (foldByte a) ∨ foldByte a = blank) :
    a < 0x80 ∧ a ≠ semicolon := by
  have ha : (65 ≤ (foldByte a).toNat ∧ (foldByte a).toNat ≤ 90) ∨
      (foldByte a).toNat = blank.toNat := by
    simpa [isUpper, UInt8.le_iff_toNat_le, ← UInt8.toNat_inj] using h
  rw [UInt8.lt_iff_toNat_lt, ne_eq, ← UInt8.toNat_inj]
  change a.toNat < 128 ∧ ¬ a.toNat = 59
  unfold foldByte at ha
  split_ifs at ha with h0
  · rw [h0]
    decide
  · rw [TxTracking.toNat_upperByte] at ha
    have hblank : blank.toNat = 32 := rfl
    split_ifs at ha <;> omega

theorem of_mem_phrases : ∀ k ∈ phrases, k.head?.any isUpper ∧ k.getLast?.any isUpper ∧
    k.all fun c => isUpper c || c == blank := by decide

theorem fold_of_keywordAt {text : Bytes} (hk : k ∈ phrases) (h : keywordAt k text) :
    (text.take k.length).map foldByte = k := by
  obtain ⟨-, -, hall⟩ := of_mem_phrases k hk
  rw [keywordAt, Bool.and_eq_true, eqFoldN_fold (by simpa using List.all_eq_true.mp hall),
    List.isPrefixOf_iff_prefix] at h
  rw [List.map_take]
  exact (List.prefix_iff_eq_take.mp h.1).symm

/-! ## The slow way -/

theorem isAsciiSpace_of_routerSpace {c : Byte} (h : Router.isSpace c) : isAsciiSpace c := by
  grind [Router.isSpace, isAsciiSpace]

theorem isPrefix_of_stands {upperRune : Nat → Nat} {q text x y : Bytes} (hk : k ∈ phrases)
    (hsingle : Splitting.Single q text) (hq : q.dropWhile Router.isSpace = x ++ y)
    (hx : x.map foldByte = k) : x.map upperByte <+: toUpper upperRune (trimSpace text) := by
  subst hx
  obtain ⟨hhead, hlast, hall⟩ := of_mem_phrases _ hk
  have hspace : ∀ c ∈ q.takeWhile Router.isSpace, isAsciiSpace c := fun c hc =>
    isAsciiSpace_of_routerSpace (List.mem_takeWhile_imp hc)
  have hsplit : q = q.takeWhile Router.isSpace ++ (x ++ y) := by
    rw [← hq, List.takeWhile_append_dropWhile]
  have hascii : ∀ c ∈ x, c < 0x80 ∧ c ≠ semicolon := by
    intro c hc
    have hc := List.all_eq_true.mp hall (foldByte c) (List.mem_map_of_mem hc)
    exact lt_of_foldByte (by simpa using hc)
  -- the word and the white space before it are part of the statement
  obtain ⟨y', htext⟩ : ∃ y', text = q.takeWhile Router.isSpace ++ (x ++ y') := by
    rcases hsingle with rfl | ⟨sp, hsp, -, -⟩
    · exact ⟨y, hsplit⟩
    · have hpre : q.takeWhile Router.isSpace ++ x <+: text := by
        refine TxWords.isPrefix_of_append (p := (· != semicolon)) (z := semicolon :: sp) ?_ rfl ?_
        · intro c hc
          rcases List.mem_append.mp hc with hc | hc
          · have := hspace c hc
            grind [isAsciiSpace]
          · simpa using (hascii c hc).2
        · rw [← hsp]
          exact ⟨y, by rw [List.append_assoc]; exact hsplit.symm⟩
      obtain ⟨y', hy'⟩ := hpre
      exact ⟨y', by rw [← hy', List.append_assoc]⟩
  have hne : x ≠ [] := by
    rintro rfl
    simp at hhead
  have hfirst : (x ++ y').head?.all isSolid := by
    cases x with
    | nil => exact absurd rfl hne
    | cons c x => exact (of_foldByte (by simpa using hhead)).2
  have hend : isSolid (x.getLast hne) := by
    rw [List.getLast?_map, List.getLast?_eq_some_getLast hne] at hlast
    exact (of_foldByte (by simpa using hlast)).2
  have hconcat := List.dropLast_append_getLast hne
  obtain ⟨z, hz⟩ := GoStrings.isPrefix_trimSpace hspace hfirst hend (x := x.dropLast)
    (by rw [hconcat]; exact List.prefix_append _ _)
  rw [hconcat, ← htext] at hz
  rw [← hz, GoStrings.toUpper_append _ _ fun c hc => (hascii c hc).1]
  exact List.prefix_append _ _

/-! ## One flag for both ways -/

def flag (found : Bytes → Bool) : Option Bool :=
  if found (ascii "BEGIN") || found startTransaction then some true
  else if closers.any found then some false
  else none

theorem flag_congr {f g : Bytes → Bool} (h : ∀ k ∈ phrases, f k = g k) : flag f = flag g := by
  simp only [phrases, List.forall_mem_cons] at h
  simp [flag, closers, h]

theorem flag_isSome {f : Bytes → Bool} : (flag f).isSome ↔ ∃ k ∈ phrases, f k := by
  have hwords : (∃ k ∈ phrases, f k) ↔ f (ascii "BEGIN") ∨ f startTransaction ∨ f (ascii "COMMIT") ∨
      f (ascii "ROLLBACK") ∨ f (ascii "END") := by simp [phrases]
  rw [hwords, flag, closers, List.any_cons, List.any_cons, List.any_cons, List.any_nil]
  grind

theorem phrases_head : ∀ k ∈ phrases, ∀ k' ∈ phrases, k.head? = k'.head? → k = k' := by decide

theorem head?_of_isPrefix {u : Bytes} (hk : k ∈ phrases) (h : k <+: u) : k.head? = u.head? := by
  have hne : ∀ k ∈ phrases, k ≠ [] := by decide
  obtain ⟨v, rfl⟩ := h
  exact (List.head?_append_of_ne_nil k (hne k hk)).symm

theorem phrases_unique {k' u : Bytes} (hk : k ∈ phrases) (hk' : k' ∈ phrases) (h : k <+: u)
    (h' : k' <+: u) : k = k' := by
  apply phrases_head k hk k' hk'
  rw [head?_of_isPrefix hk h, head?_of_isPrefix hk' h']

section

variable (env : Env)

theorem fastState_inTransaction (s : Session) (query : Bytes) : (fastState s query).inTransaction =
      (flag fun k => keywordAt k (query.dropWhile Router.isSpace)).getD s.inTransaction := by
  rw [flag, ← TxTracking.flagOf_hasTxPrefix, fastState]
  cases hasTxPrefix query <;> rfl

theorem fastKeyword_eq (query : Bytes) :
    fastKeyword query = (flag fun k => keywordAt k (query.dropWhile Router.isSpace)).isSome := by
  rw [flag, ← TxTracking.flagOf_hasTxPrefix, fastKeyword]
  cases hasTxPrefix query <;> rfl

theorem trackStatement_eq (b : Bool) (stmt : Bytes) :
    trackStatement env b stmt = (flag fun k => k.isPrefixOf (upperTrimmed env stmt)).getD b := by
  have hunique : startsTx (upperTrimmed env stmt) → ¬ endsTx (upperTrimmed env stmt) := by
    intro hs he
    obtain ⟨k, hk, hpre⟩ := (TxWords.endsTx_iff_isPrefix _).mp he
    have hclosers : ∀ k ∈ closers, k ∈ phrases ∧ k ≠ ascii "BEGIN" ∧
      k ≠ startTransaction := by decide
    obtain ⟨hmem, hbegin, hstart⟩ := hclosers k hk
    rw [startsTx, Bool.or_eq_true, List.isPrefixOf_iff_prefix, List.isPrefixOf_iff_prefix] at hs
    rcases hs with hs | hs
    · exact hbegin (phrases_unique hmem (by decide) hpre hs)
    · exact hstart (phrases_unique hmem (by decide) hpre hs)
  have hends : endsTx (upperTrimmed env stmt) = closers.any fun k =>
      k.isPrefixOf (upperTrimmed env stmt) := by
    rw [Bool.eq_iff_iff, TxWords.endsTx_iff_isPrefix, List.any_eq_true]
    simp only [List.isPrefixOf_iff_prefix]
  rw [trackStatement, flag, ← hends]
  change (if _ then _ else if startsTx _ then _ else _) = (if startsTx _ then _
    else _ : Option Bool).getD b
  split_ifs with he hs hs
  · exact absurd he (hunique hs)
  · rfl
  · rfl
  · rfl

theorem flag_blank : (flag fun k => k.isPrefixOf (upperTrimmed env [])) = none := rfl

theorem updateTransactionState_single (h : isSingleStatement query) (s : Session) :
    (updateTransactionState env s query).inTransaction =
      (flag (slowFinds env query)).getD s.inTransaction := by
  obtain ⟨text, -, hsplit⟩ := Splitting.splitStatements_single h
  rw [updateTransactionState, Session.setInTransaction]
  unfold slowFinds
  rw [hsplit]
  split_ifs with htext
  · rw [List.headD_nil, flag_blank]
    rfl
  · exact trackStatement_eq env _ _

theorem containsTransactionKeyword_single (h : isSingleStatement query) :
    containsTransactionKeyword env query = (flag (slowFinds env query)).isSome := by
  obtain ⟨text, -, hsplit⟩ := Splitting.splitStatements_single h
  unfold containsTransactionKeyword slowFinds
  rw [hsplit]
  split_ifs with htext
  · rw [List.headD_nil, flag_blank]
    rfl
  · rw [Bool.eq_iff_iff, flag_isSome]
    simp [startsTx, endsTx, phrases, startTransaction, or_assoc]

theorem agrees_iff_flag (h : isSingleStatement query) : Agrees env query ↔
      (flag fun k => keywordAt k (query.dropWhile Router.isSpace)) =
        flag (slowFinds env query) := by
  simp only [Agrees, fastState_inTransaction, fastKeyword_eq, updateTransactionState_single env h,
    containsTransactionKeyword_single env h]
  generalize (flag fun k => keywordAt k (query.dropWhile Router.isSpace)) = fast
  generalize flag (slowFinds env query) = slow
  constructor
  · rintro ⟨hstate, hkeyword⟩
    -- both set the flag or neither does; if both do, any session shows the value
    have hflag := hstate (Session.new 0 false false)
    cases fast with
    | none =>
      cases slow with
      | none => rfl
      | some b => simp at hkeyword
    | some a =>
      cases slow with
      | none => simp at hkeyword
      | some b => exact congrArg some hflag
  · rintro rfl
    exact ⟨fun s => rfl, rfl⟩

theorem isPrefix_of_keywordAt (h : isSingleStatement query) (hk : k ∈ phrases)
    (hfast : keywordAt k (query.dropWhile Router.isSpace)) :
    ((query.dropWhile Router.isSpace).take k.length).map upperByte <+:
      upperTrimmed env ((splitStatements query).headD []) := by
  obtain ⟨text, hsingle, hsplit⟩ := Splitting.splitStatements_single h
  have hupper : upperTrimmed env ((splitStatements query).headD []) =
      toUpper env.upperRune (trimSpace text) := by
    rw [hsplit]
    split_ifs with htext
    · rw [htext]
      rfl
    · rw [List.headD_cons, upperTrimmed, GoStrings.trimSpace_trimSpace]
  rw [hupper]
  exact isPrefix_of_stands hk hsingle (List.take_append_drop k.length _).symm
    (fold_of_keywordAt hk hfast)

theorem map_foldByte {x : Bytes} (h : (0 : Byte) ∉ x) : x.map foldByte = x.map upperByte := by
  apply List.map_congr_left
  intro c hc
  apply if_neg
  rintro rfl
  exact h hc

theorem slowFinds_of_keywordAt (h : isSingleStatement query) (hk : k ∈ phrases)
    (hfast : keywordAt k (query.dropWhile Router.isSpace))
    (hnul : (0 : Byte) ∉ (query.dropWhile Router.isSpace).take k.length) :
    slowFinds env query k := by
  have hpre := isPrefix_of_keywordAt env h hk hfast
  rw [← map_foldByte hnul, fold_of_keywordAt hk hfast] at hpre
  exact List.isPrefixOf_iff_prefix.mpr hpre

theorem slowFinds_of_nul {k' : Bytes} (h : isSingleStatement query) (hk : k ∈ phrases)
    (hk' : k' ∈ phrases) (hfast : keywordAt k (query.dropWhile Router.isSpace))
    (hnul : (0 : Byte) ∈ (query.dropWhile Router.isSpace).take k.length) :
    slowFinds env query k' = false := by
  have hpre := isPrefix_of_keywordAt env h hk hfast
  have hfold := fold_of_keywordAt hk hfast
  generalize (query.dropWhile Router.isSpace).take k.length = x at hpre hfold hnul
  subst hfold
  rw [Bool.eq_false_iff]
  intro hslow
  rw [slowFinds, List.isPrefixOf_iff_prefix] at hslow
  have hupper : x.map upperByte = k' := by
    have hword : x.map foldByte = k' := by
      apply phrases_head _ hk k' hk'
      rw [head?_of_isPrefix hk' hslow]
      cases x with
      | nil => simp at hnul
      | cons c x =>
        obtain ⟨v, hv⟩ := hpre
        have hc := (of_mem_phrases _ hk).1
        rw [← hv, List.map_cons, List.head?_cons, List.map_cons, List.cons_append, List.head?_cons,
          (of_foldByte (by simpa using hc)).1]
    subst hword
    exact List.IsPrefix.eq_of_length (List.prefix_of_prefix_length_le hpre hslow (by simp))
      (by simp)
  have hnone : ∀ k ∈ phrases, (0 : Byte) ∉ k := by decide
  apply hnone k' hk'
  rw [← hupper]
  exact List.mem_map_of_mem hnul

theorem nul_notMem {text : Bytes} (hk : k ∈ phrases) (hfast : keywordAt k text)
    (hnul : keywordAt startTransaction text → (0 : Byte) ∉ text.take startTransaction.length) :
    (0 : Byte) ∉ text.take k.length := by
  have hblank : ∀ k ∈ phrases, blank ∈ k → k = startTransaction := by decide
  intro h0
  obtain rfl := hblank k hk (by rw [← fold_of_keywordAt hk hfast]; exact List.mem_map_of_mem h0)
  exact hnul hfast h0

theorem agrees_iff (h : isSingleStatement query) : Agrees env query ↔ plainControl env query := by
  have hplain : plainControl env query ↔
      (∀ k ∈ phrases, slowFinds env query k → keywordAt k (query.dropWhile Router.isSpace)) ∧
        (keywordAt startTransaction (query.dropWhile Router.isSpace) →
          (0 : Byte) ∉ (query.dropWhile Router.isSpace).take startTransaction.length) := by
    simp only [plainControl, Bool.and_eq_true, List.all_eq_true, Bool.or_eq_true, Bool.not_eq_true',
      Bool.and_eq_false_imp, imp_iff_not_or, Bool.not_eq_true, List.contains_eq_mem,
      decide_eq_false_iff_not]
  rw [agrees_iff_flag env h, hplain]
  constructor
  · intro hflag
    have hnul : keywordAt startTransaction (query.dropWhile Router.isSpace) →
        (0 : Byte) ∉ (query.dropWhile Router.isSpace).take startTransaction.length := by
      intro hfast h0
      have hsome : (flag (slowFinds env query)).isSome := by
        rw [← hflag]
        exact flag_isSome.mpr ⟨startTransaction, by decide, hfast⟩
      obtain ⟨k, hk, hslow⟩ := flag_isSome.mp hsome
      rw [slowFinds_of_nul env h (by decide) hk hfast h0] at hslow
      exact absurd hslow (by decide)
    refine ⟨?_, hnul⟩
    -- the fast way finds some word then, and the slow one finds that word too
    intro k hk hslow
    have hsome : (flag fun k => keywordAt k (query.dropWhile Router.isSpace)).isSome := by
      rw [hflag]
      exact flag_isSome.mpr ⟨k, hk, hslow⟩
    obtain ⟨k', hk', hfast⟩ := flag_isSome.mp hsome
    have hslow' := slowFinds_of_keywordAt env h hk' hfast (nul_notMem hk' hfast hnul)
    rw [slowFinds, List.isPrefixOf_iff_prefix] at hslow hslow'
    rw [phrases_unique hk hk' hslow hslow']
    exact hfast
  · rintro ⟨hslow, hnul⟩
    apply flag_congr
    intro k hk
    rw [Bool.eq_iff_iff]
    exact ⟨fun hfast => slowFinds_of_keywordAt env h hk hfast (nul_notMem hk hfast hnul),
      hslow k hk⟩

/-- On a single statement the two ways set the same flags just when the control words stand
plainly. -/
theorem tx_paths_agree {query : Bytes} (h : isSingleStatement query) :
    (splitStatements query).length ≤ 1 ∧ (Agrees env query ↔ plainControl env query) := by
  refine ⟨?_, agrees_iff env h⟩
  obtain ⟨text, -, hsplit⟩ := Splitting.splitStatements_single h
  rw [hsplit]
  split_ifs with htext
  · exact Nat.zero_le 1
  · exact Nat.le_refl 1

end

theorem tx_paths_agree_begin :
    isSingleStatement (ascii " begin isolation level serializable;") ∧
      plainControl TxTracking.plainEnv (ascii " begin isolation level serializable;") ∧
      Agrees TxTracking.plainEnv (ascii " begin isolation level serializable;") :=
  ⟨by decide +kernel, by decide +kernel,
    (tx_paths_agree TxTracking.plainEnv (by decide +kernel)).2.mpr (by decide +kernel)⟩

theorem tx_paths_differ_commit :
    isSingleStatement (ascii "COMMIT/* done */") ∧
    ¬ Agrees TxTracking.plainEnv (ascii "COMMIT/* done */") ∧
      (fastState ((Session.new 0 false false).setInTransaction true)
        (ascii "COMMIT/* done */")).inTransaction = true ∧
      (updateTransactionState TxTracking.plainEnv
        ((Session.new 0 false false).setInTransaction true)
        (ascii "COMMIT/* done */")).inTransaction = false := by
  have hfast : fastKeyword (ascii "COMMIT/* done */") = false := by decide +kernel
  have hslow : containsTransactionKeyword TxTracking.plainEnv (ascii "COMMIT/* done */") =
    true := by decide +kernel
  refine ⟨by decide +kernel, ?_, by decide +kernel, by decide +kernel⟩
  rintro ⟨-, hkeyword⟩
  exact absurd hkeyword (by decide)

end PgMux.TxPaths
