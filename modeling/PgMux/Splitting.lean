import PgMux.SplitAgreement

/-!
# Runs of the statement scanner

A part that the scanner leaves at top level is scanned the same way whatever follows its semicolon,
so joining and splitting are inverse.
-/

namespace PgMux.Splitting

open DollarTag (parseDollarTag)
open GoStrings (trimSpace isSpaceByte)
open Router (Mode nextMode splitFrom splitStatements isSingleStatement)

def modeAfter (m : Mode) : Bytes → Bytes → Mode
  | [], _ => m
  | c :: u, v => modeAfter (nextMode m c (u ++ v)) u v

def uncut (m : Mode) : Bytes → Bytes → Bool
  | [], _ => true
  | c :: u, v => !(m == .code && c == semicolon) && uncut (nextMode m c (u ++ v)) u v

/-- Scanned from top level the piece ends at top level, and no semicolon in it stands there. -/
def closed (piece : Bytes) : Bool := modeAfter .code piece [] == .code && uncut .code piece []

theorem uncut_append (m : Mode) (u u' v : Bytes) :
    uncut m (u ++ u') v = (uncut m u (u' ++ v) && uncut (modeAfter m u (u' ++ v)) u' v) := by
  induction u generalizing m with
  | nil => simp [uncut, modeAfter]
  | cons c u ih => simp only [List.cons_append, uncut, modeAfter, List.append_assoc, ih,
      Bool.and_assoc]

variable {c : Byte} {m : Mode} {u v w : Bytes}

theorem uncut_cons :
    uncut m (c :: u) v ↔ ¬ (m = .code ∧ c = semicolon) ∧ uncut (nextMode m c (u ++ v)) u v := by
  simp [uncut, imp_iff_not_or]

theorem splitFrom_append (cur : Bytes) (h : uncut m u v) :
    splitFrom m cur (u ++ v) = splitFrom (modeAfter m u v) (cur ++ u) v := by
  induction u generalizing m cur with
  | nil => simp [modeAfter]
  | cons c u ih =>
    obtain ⟨hcut, hu⟩ := uncut_cons.mp h
    rw [List.cons_append, splitFrom, if_neg hcut, ih _ hu, modeAfter]
    simp

theorem splitFrom_of_uncut (cur : Bytes) (h : uncut m u []) : splitFrom m cur u = [cur ++ u] := by
  have happend := splitFrom_append cur h
  rw [List.append_nil] at happend
  rw [happend, splitFrom]

/-! ## What the scanner sees of the text ahead -/

def stops (c : Byte) : Bool :=
  !(DollarTag.isTagChar c || c == dollar || c == minus || c == star || c == slash || c == quote)

theorem head_append_eq {b : Byte} (hv : v.head?.all stops) (hb : stops b = false) :
    (w ++ v).head? = some b ↔ w.head? = some b := by
  cases w with
  | cons c w => rfl
  | nil =>
    cases v with
    | nil => rfl
    | cons c v =>
      have hc : stops c := by simpa using hv
      have hne : c ≠ b := by
        rintro rfl
        simp [hb] at hc
      simp [hne]

theorem span_append {p : Byte → Bool} (hv : v.head?.all fun c => !p c) (w : Bytes) :
    (w ++ v).takeWhile p = w.takeWhile p ∧ (w ++ v).dropWhile p = w.dropWhile p ++ v := by
  induction w with
  | nil =>
    cases v with
    | nil => simp
    | cons c v => simp [show p c = false by simpa using hv]
  | cons c w ih =>
    cases hc : p c with
    | true => simpa [hc] using ih
    | false => simp [hc]

theorem parseDollarTag_append (hv : v.head?.all stops) :
    parseDollarTag (c :: (w ++ v)) = parseDollarTag (c :: w) := by
  have hletter : v.head?.all fun c => !DollarTag.isTagChar c := by
    cases v with
    | nil => rfl
    | cons c v => simp_all [stops]
  obtain ⟨htake, hdrop⟩ := span_append hletter w
  have hstart : (w ++ v).head?.any DollarTag.isTagStart = w.head?.any DollarTag.isTagStart := by
    cases w with
    | cons c w => rfl
    | nil =>
      cases v with
      | nil => rfl
      | cons c v =>
        have hc : DollarTag.isTagChar c = false := by simpa using hletter
        simp_all [DollarTag.isTagChar]
  have hdollar : (w ++ v).head? = some dollar ↔ w.head? = some dollar :=
    head_append_eq hv (by decide)
  have hend : (w.dropWhile DollarTag.isTagChar ++ v).head? = some dollar ↔
      (w.dropWhile DollarTag.isTagChar).head? = some dollar := head_append_eq hv (by decide)
  simp only [parseDollarTag, htake, hdrop, hstart, hdollar, Bool.and_eq_true, beq_iff_eq, hend]

theorem copies_of_open {k : Nat} (v : Bytes) (hk : w.length ≤ k) : uncut (.copy k) w v := by
  induction w generalizing k with
  | nil => rfl
  | cons c w ih =>
    have hk0 : k ≠ 0 := by
      rintro rfl
      simp at hk
    refine uncut_cons.mpr ⟨by simp, ?_⟩
    rw [nextMode, if_neg hk0]
    exact ih (by simp at hk; omega)

theorem modeAfter_copy {k : Nat} (v : Bytes) (hk : w.length ≤ k) :
    modeAfter (.copy k) w v = .copy (k - w.length) := by
  induction w generalizing k with
  | nil => rfl
  | cons c w ih =>
    have hlen : w.length + 1 ≤ k := by simpa using hk
    rw [modeAfter, nextMode, if_neg (by omega), ih (by omega), List.length_cons]
    congr 1
    omega

theorem nextMode_append (hv : v.head?.all stops) :
    nextMode m c (w ++ v) = nextMode m c w ∨ m = .code ∧ nextMode m c w = .copy w.length := by
  have hminus : (w ++ v).head? = some minus ↔ w.head? = some minus := head_append_eq hv (by decide)
  have hstar : (w ++ v).head? = some star ↔ w.head? = some star := head_append_eq hv (by decide)
  have hslash : (w ++ v).head? = some slash ↔ w.head? = some slash := head_append_eq hv (by decide)
  have hquote : (w ++ v).head? = some quote ↔ w.head? = some quote := head_append_eq hv (by decide)
  cases m with
  | code =>
    simp only [nextMode, parseDollarTag_append hv]
    cases ht : parseDollarTag (c :: w) with
    | none => simp only [hminus, hstar, true_or]
    | some tag =>
      cases hi : index tag (w.drop (tag.length - 1)) with
      | none => exact .inr ⟨trivial, by simp only [hi]⟩
      | some k =>
        have hle := index_le hi
        have hdrop : (w ++ v).drop (tag.length - 1) = w.drop (tag.length - 1) ++ v := by
          rw [List.length_drop] at hle
          exact List.drop_append_of_le_length (by omega)
        exact .inl (by simp only [hdrop, index_append_right v hi, hi])
  | single => exact .inl (by simp only [nextMode, hquote])
  | block d => exact .inl (by simp only [nextMode, hstar, hslash])
  | singlePair | double | line | blockPair d | copy k => exact .inl rfl

theorem modeAfter_of_stops (hv : v.head?.all stops) (h : modeAfter m u [] = .code) :
    modeAfter m u v = .code := by
  induction u generalizing m with
  | nil => exact h
  | cons c u ih =>
    rw [modeAfter, List.append_nil] at h
    rw [modeAfter]
    rcases nextMode_append (m := m) (c := c) (w := u) hv with hsame | ⟨-, hopen⟩
    · rw [hsame]
      exact ih h
    · rw [hopen, modeAfter_copy [] le_rfl] at h
      cases h

theorem uncut_of_stops (hv : v.head?.all stops) (hm : modeAfter m u [] = .code) (h : uncut m u []) :
    uncut m u v := by
  induction u generalizing m with
  | nil => rfl
  | cons c u ih =>
    rw [modeAfter, List.append_nil] at hm
    rw [uncut_cons, List.append_nil] at h
    refine uncut_cons.mpr ⟨h.1, ?_⟩
    rcases nextMode_append (m := m) (c := c) (w := u) hv with hsame | ⟨-, hopen⟩
    · rw [hsame]
      exact ih hm h.2
    · rw [hopen, modeAfter_copy [] le_rfl] at hm
      cases hm

theorem uncut_alone (hv : v.head?.all stops) (h : uncut m u v) : uncut m u [] := by
  induction u generalizing m with
  | nil => rfl
  | cons c u ih =>
    rw [uncut_cons] at h
    rw [uncut_cons, List.append_nil]
    refine ⟨h.1, ?_⟩
    rcases nextMode_append (m := m) (c := c) (w := u) hv with hsame | ⟨-, hopen⟩
    · rw [hsame] at h
      exact ih h.2
    · rw [hopen]
      exact copies_of_open [] le_rfl

theorem uncut_of_notMem (m : Mode) (h : semicolon ∉ u) (v : Bytes) : uncut m u v := by
  induction u generalizing m with
  | nil => rfl
  | cons c u ih =>
    obtain ⟨hc, hu⟩ := by simpa using h
    exact uncut_cons.mpr ⟨fun hcut => hc hcut.2.symm, ih _ hu⟩

theorem cases_of_isSingleStatement {q : Bytes} (h : isSingleStatement q) :
    semicolon ∉ q ∨ ∃ a sp, q = a ++ semicolon :: sp ∧ semicolon ∉ a ∧ semicolon ∉ sp ∧
    trimSpace sp = [] := by
  rw [isSingleStatement] at h
  cases hi : indexByte semicolon q with
  | none => exact .inl (indexByte_eq_none hi)
  | some i =>
    obtain ⟨a, sp, rfl, ha, rfl⟩ := indexByte_eq_some_iff.mp hi
    have htrim : trimSpace sp = [] := by simpa [hi] using h
    refine .inr ⟨a, sp, rfl, ha, fun hm => ?_, htrim⟩
    have := GoStrings.mem_trimSpace (show GoStrings.isSolid semicolon by decide) hm
    simp [htrim] at this

theorem splitFrom_single {q : Bytes} (h : isSingleStatement q) : splitFrom .code [] q = [q] ∨
      ∃ a sp, q = a ++ semicolon :: sp ∧ semicolon ∉ a ∧ trimSpace sp = [] ∧
      splitFrom .code [] q = [a, sp] := by
  rcases cases_of_isSingleStatement h with hq | ⟨a, sp, rfl, ha, hsp, htrim⟩
  · exact .inl (splitFrom_of_uncut [] (uncut_of_notMem _ hq []))
  · have hsplit := splitFrom_append [] (uncut_of_notMem .code ha (semicolon :: sp))
    rw [splitFrom] at hsplit
    split_ifs at hsplit with hcut
    · rw [splitFrom_of_uncut [] (uncut_of_notMem _ hsp []), List.nil_append] at hsplit
      exact .inr ⟨a, sp, rfl, ha, htrim, hsplit⟩
    · rw [splitFrom_of_uncut _ (uncut_of_notMem _ hsp []), List.append_assoc,
        List.singleton_append] at hsplit
      exact .inl hsplit

def Single (query text : Bytes) : Prop :=
  query = text ∨ ∃ sp, query = text ++ semicolon :: sp ∧ semicolon ∉ text ∧ trimSpace sp = []

theorem splitStatements_single {q : Bytes} (h : isSingleStatement q) :
    ∃ text, Single q text ∧ splitStatements q = if trimSpace text = [] then []
    else [trimSpace text] := by
  rcases splitFrom_single h with hsplit | ⟨a, sp, hq, ha, hsp, hsplit⟩
  · refine ⟨q, .inl rfl, ?_⟩
    rw [splitStatements, hsplit]
    split_ifs with htext
    · simp [htext]
    · simp [htext]
  · refine ⟨a, .inr ⟨sp, hq, ha, hsp⟩, ?_⟩
    rw [splitStatements, hsplit]
    split_ifs with htext
    · simp [htext, hsp]
    · simp [htext, hsp]

/-! ## Joined pieces -/

theorem stops_semicolon : stops semicolon := by decide

def join (pieces : List Bytes) : Bytes := [semicolon].intercalate pieces

theorem join_cons_cons (r r' : Bytes) (rs : List Bytes) :
    join (r :: r' :: rs) = r ++ semicolon :: join (r' :: rs) := by
  simp [join, List.intercalate]

theorem splitFrom_join (r : Bytes) (rs : List Bytes) (h : ∀ p ∈ r :: rs, closed p) :
    splitFrom .code [] (join (r :: rs)) = r :: rs := by
  induction rs generalizing r with
  | nil =>
    have hr := h r List.mem_cons_self
    have huncut : uncut .code r [] := by simp_all [closed]
    simpa [join, List.intercalate] using splitFrom_of_uncut [] huncut
  | cons r' rs ih =>
    obtain ⟨hend, huncut⟩ : modeAfter .code r [] = .code ∧ uncut .code r [] := by
      simpa [closed] using h r List.mem_cons_self
    have hv : (semicolon :: join (r' :: rs)).head?.all stops := stops_semicolon
    rw [join_cons_cons, splitFrom_append [] (uncut_of_stops hv hend huncut),
      modeAfter_of_stops hv hend, splitFrom,
      if_pos ⟨rfl, rfl⟩, List.nil_append, ih r' fun p hp => h p (List.mem_cons_of_mem r hp)]

theorem splitStatements_join {pieces : List Bytes} (h : ∀ p ∈ pieces, closed p) :
    splitStatements (join pieces) = (pieces.map trimSpace).filter (· ≠ []) := by
  cases pieces with
  | nil => decide
  | cons r rs => rw [splitStatements, splitFrom_join r rs h]

/-! ## Statements -/

theorem uncut_of_mem_splitFrom {cur x : Bytes} (h : x ∈ splitFrom m cur w) :
    (∃ u v, w = u ++ v ∧ x = cur ++ u ∧ v.head?.all stops ∧ uncut m u v) ∨ ∃ v, v.head?.all stops ∧
    uncut .code x v := by
  induction w generalizing m cur with
  | nil =>
    rw [splitFrom, List.mem_singleton] at h
    exact .inl ⟨[], [], rfl, by simpa using h, rfl, rfl⟩
  | cons c w ih =>
    rw [splitFrom] at h
    split_ifs at h with hcut
    · rcases List.mem_cons.mp h with rfl | hx
      · refine .inl ⟨[], c :: w, rfl, by simp, ?_, rfl⟩
        rw [hcut.2]
        exact stops_semicolon
      · rcases ih hx with ⟨u, v, -, rfl, hv, hu⟩ | hrest
        · exact .inr ⟨v, hv, hu⟩
        · exact .inr hrest
    · rcases ih h with ⟨u, v, rfl, rfl, hv, hu⟩ | hrest
      · exact .inl ⟨c :: u, v, rfl, by simp, hv, uncut_cons.mpr ⟨hcut, hu⟩⟩
      · exact .inr hrest

theorem nextMode_of_isSpaceByte (h : isSpaceByte c) (w : Bytes) : nextMode .code c w = .code := by
  obtain ⟨hd, hm, hs, hq, hdq⟩ : c ≠ dollar ∧ c ≠ minus ∧ c ≠ slash ∧ c ≠ quote ∧ c ≠ dquote := by
    refine ⟨?_, ?_, ?_, ?_, ?_⟩ <;> rintro rfl <;> exact absurd h (by decide)
  rw [SplitAgreement.nextMode_code (SplitAgreement.parseDollarTag_of_ne hd)]
  simp [hm, hs, hq, hdq]

theorem modeAfter_of_isSpaceByte {sp : Bytes} (h : ∀ c ∈ sp, isSpaceByte c) (v : Bytes) :
    modeAfter .code sp v = .code := by
  induction sp with
  | nil => rfl
  | cons c sp ih =>
    rw [modeAfter, nextMode_of_isSpaceByte (h c List.mem_cons_self)]
    exact ih fun d hd => h d (List.mem_cons_of_mem c hd)

theorem stops_of_isSpaceByte (h : isSpaceByte c) : stops c := by
  revert c
  apply forall_byte
  decide +kernel

theorem uncut_trimSpace {x : Bytes} (hv : v.head?.all stops) (h : uncut .code x v) :
    uncut .code (trimSpace x) [] := by
  obtain ⟨sp, sp', hx, hsp, hsp'⟩ := GoStrings.trimSpace_split x
  rw [hx, uncut_append, modeAfter_of_isSpaceByte hsp, Bool.and_eq_true] at h
  have hrest := h.2
  rw [uncut_append, Bool.and_eq_true] at hrest
  refine uncut_alone (v := sp' ++ v) ?_ hrest.1
  cases sp' with
  | nil => exact hv
  | cons c sp' => exact stops_of_isSpaceByte (hsp' c List.mem_cons_self)

theorem splitStatements_of_mem {q s : Bytes} (h : s ∈ splitStatements q) :
    splitStatements s = [s] := by
  obtain ⟨hs, hne⟩ := List.mem_filter.mp h
  obtain ⟨x, hx, rfl⟩ := List.mem_map.mp hs
  have huncut : uncut .code (trimSpace x) [] := by
    rcases uncut_of_mem_splitFrom hx with ⟨u, v, -, rfl, hv, hu⟩ | ⟨v, hv, hu⟩
    · exact uncut_trimSpace hv hu
    · exact uncut_trimSpace hv hu
  rw [splitStatements, splitFrom_of_uncut [] huncut, List.nil_append, List.map_singleton,
    GoStrings.trimSpace_trimSpace]
  simpa using hne

/-- Splitting gives back the pieces that are not blank, and leaves each statement as it is. -/
theorem splitting_lossless :
    (∀ pieces : List Bytes, (∀ p ∈ pieces, closed p) →
      splitStatements (join pieces) = (pieces.map trimSpace).filter (· ≠ [])) ∧
    ∀ q : Bytes, ∀ s ∈ splitStatements q, splitStatements s = [s] :=
  ⟨fun _ h => splitStatements_join h, fun _ _ h => splitStatements_of_mem h⟩

def script : List Bytes := [ascii " SELECT 'a;b'", ascii " ", ascii "-- a;b\n DO $x$;$x$ "]

theorem splitting_lossless_script :
    (∀ p ∈ script, closed p) ∧
      splitStatements (join script) = [ascii "SELECT 'a;b'", ascii "-- a;b\n DO $x$;$x$"] ∧
      splitStatements (ascii "SELECT 'a;b'") = [ascii "SELECT 'a;b'"] := by
  have hclosed : ∀ p ∈ script, closed p := by decide +kernel
  have hsplit : splitStatements (join script) = [ascii "SELECT 'a;b'",
      ascii "-- a;b\n DO $x$;$x$"] :=
    (splitting_lossless.1 script hclosed).trans (by decide +kernel)
  exact ⟨hclosed, hsplit,
    splitting_lossless.2 (join script) _ (by rw [hsplit]; exact List.mem_cons_self)⟩

end PgMux.Splitting
