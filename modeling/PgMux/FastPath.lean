import PgMux.Stripping

/-!
# The fast path of the classifier

`Classify` answers most queries from their first word, without the slow path over hints, comments
and statements. The two paths delimit that word differently: the fast path ends it at a blank, a
tab, a line feed or an opening parenthesis, the slow path at the white space of `strings.Fields` or
at the end of the statement. `Misled` says of a text where this changes the answer.
-/

namespace PgMux.FastPath

open Classifier
open GoStrings (decodeRune encodeRune isAsciiSpace isCont isSpace2 isSpace3 leadingSpace mapUpper
  toUpper trimSpace)
open Router (QueryType splitStatements isSingleStatement)
open Splitting (Single)

def classifySlow (upperRune : Nat → Nat) (query : Bytes) : QueryType :=
  match extractHint query with
  | some .writer => .write
  | some .reader => .read
  | none => if (splitStatements query).any (isWriteStatement upperRune) then .write else .read

theorem classify_eq (upperRune : Nat → Nat) (query : Bytes) :
    classify upperRune query =
      (classifyFast upperRune query).getD (classifySlow upperRune query) := by
  rw [classify]
  cases classifyFast upperRune query <;> rfl

def isStop (c : Byte) : Bool := c == blank || c == tab || c == lineFeed

def fastWord (query : Bytes) : Bytes :=
  (query.dropWhile Router.isSpace).takeWhile fun c => !(isStop c || c == 40)

/-! ## Misleading texts -/

variable (upperRune : Nat → Nat)

/-- The upper case of white space beyond ASCII is beyond ASCII, as `unicode.ToUpper` has it. -/
def KeepsSpace : Prop :=
  ∀ r, 0x80 ≤ r → leadingSpace (encodeRune r) ≠ 0 → 0x80 ≤ upperRune r

/-- The first field makes the statement a write. -/
def Writes (stmt : Bytes) : Prop :=
  toUpper upperRune (firstField stmt) ∈ writeKeywords ∨
    toUpper upperRune (firstField stmt) = ascii "WITH" ∧ containsWriteKeyword upperRune stmt

/-- The text begins with `w` and goes on with `rest`, behind blanks, tabs and line ends. -/
def Begins (w rest query : Bytes) : Prop :=
  ∃ sp, query = sp ++ (w ++ rest) ∧ ∀ c ∈ sp, Router.isSpace c

/-- Either a write keyword begins the text in front of an opening parenthesis, or the first field
of the statement makes it a write but does not begin the text in front of a blank, a tab, a line
feed or the end: other white space stands before or behind it, or a semicolon behind it. -/
def Misled (query : Bytes) : Prop :=
  (∃ w rest, Begins w (40 :: rest) query ∧ toUpper upperRune w ∈ writeKeywords) ∨
    ∃ stmt ∈ splitStatements query, Writes upperRune stmt ∧
      ¬ ∃ rest, Begins (firstField stmt) rest query ∧ rest.head?.all isStop

/-! ## The two answers -/

theorem not_infix_of_isSpace {a b : Byte} {q : Bytes} (ha : Router.isSpace a = false)
    (h : q.dropWhile Router.isSpace = []) : ¬ [a, b] <:+: q := by
  intro hpart
  rw [List.dropWhile_eq_nil_iff] at h
  have hspace := h a (hpart.subset List.mem_cons_self)
  rw [ha] at hspace
  exact absurd hspace (by decide)

theorem isSingleStatement_of_isSpace {q : Bytes} (h : q.dropWhile Router.isSpace = []) :
    isSingleStatement q := by
  rw [List.dropWhile_eq_nil_iff] at h
  cases hi : indexByte semicolon q with
  | none => rw [isSingleStatement, hi]
  | some i =>
    obtain ⟨u, w, hu, -⟩ := indexByte_eq_some_iff.mp hi
    have hspace := h semicolon (by rw [hu]; simp)
    exact absurd hspace (by decide)

theorem classifyFast_eq (q : Bytes) :
    classifyFast upperRune q =
      if q.dropWhile Router.isSpace = [] then some .read
      else if contains (ascii "/*") q || contains (ascii "--") q then none
      else if !isSingleStatement q then none
      else if fastWord q = [] then some .read
      else if toUpper upperRune (fastWord q) ∈ writeKeywords then some .write
      else if toUpper upperRune (fastWord q) = ascii "WITH" then none
      else some .read := rfl

theorem toUpper_nil_notMem : toUpper upperRune [] ∉ writeKeywords := by
  change [] ∉ writeKeywords
  decide

theorem of_classifyFast {q : Bytes} {t : QueryType} (h : classifyFast upperRune q = some t) :
    ¬ [slash, star] <:+: q ∧ ¬ [minus, minus] <:+: q ∧ isSingleStatement q ∧
      toUpper upperRune (fastWord q) ≠ ascii "WITH" ∧
      (t = .write ↔ toUpper upperRune (fastWord q) ∈ writeKeywords) := by
  have hempty (hw : fastWord q = []) (ht : t = .read) :
      toUpper upperRune (fastWord q) ≠ ascii "WITH" ∧
        (t = .write ↔ toUpper upperRune (fastWord q) ∈ writeKeywords) := by
    rw [hw, ht, iff_false_intro (toUpper_nil_notMem upperRune)]
    refine ⟨?_, by decide⟩
    change [] ≠ ascii "WITH"
    decide
  rw [classifyFast_eq] at h
  by_cases hrest : q.dropWhile Router.isSpace = []
  · rw [if_pos hrest] at h
    exact ⟨not_infix_of_isSpace (by decide) hrest, not_infix_of_isSpace (by decide) hrest,
      isSingleStatement_of_isSpace hrest,
      hempty (by rw [fastWord, hrest]; rfl) (Option.some.inj h).symm⟩
  rw [if_neg hrest] at h
  by_cases hmarks : contains (ascii "/*") q || contains (ascii "--") q
  · rw [if_pos hmarks] at h
    cases h
  rw [if_neg hmarks] at h
  simp only [Bool.or_eq_true, not_or, Stripping.contains_iff] at hmarks
  by_cases hsingle : isSingleStatement q
  case neg =>
    rw [if_pos (by simpa using hsingle)] at h
    cases h
  rw [if_neg (by simpa using hsingle)] at h
  refine ⟨hmarks.1, hmarks.2, hsingle, ?_⟩
  by_cases hword : fastWord q = []
  · rw [if_pos hword] at h
    exact hempty hword (Option.some.inj h).symm
  rw [if_neg hword] at h
  by_cases hwrite : toUpper upperRune (fastWord q) ∈ writeKeywords
  · rw [if_pos hwrite] at h
    refine ⟨?_, iff_of_true (Option.some.inj h).symm hwrite⟩
    intro hwith
    rw [hwith] at hwrite
    exact absurd hwrite (by decide)
  rw [if_neg hwrite] at h
  by_cases hwith : toUpper upperRune (fastWord q) = ascii "WITH"
  · rw [if_pos hwith] at h
    cases h
  · rw [if_neg hwith] at h
    refine ⟨hwith, iff_of_false ?_ hwrite⟩
    rw [← Option.some.inj h]
    decide

theorem infix_of_single {q text : Bytes} (h : Single q text) : trimSpace text <:+: q := by
  obtain ⟨sp, sp', hsplit, -, -⟩ := GoStrings.trimSpace_split text
  have htext : trimSpace text <:+: text := ⟨sp, sp', by rw [List.append_assoc]; exact hsplit.symm⟩
  rcases h with rfl | ⟨rest, rfl, -, -⟩
  · exact htext
  · exact htext.trans (List.prefix_append text _).isInfix

theorem classifySlow_iff {q : Bytes} (hblock : ¬ [slash, star] <:+: q)
    (hline : ¬ [minus, minus] <:+: q) (hsingle : isSingleStatement q) :
    classifySlow upperRune q = .write ↔ ∃ stmt ∈ splitStatements q, Writes upperRune stmt := by
  obtain ⟨text, htext, hsplit⟩ := Splitting.splitStatements_single hsingle
  have hpart := infix_of_single htext
  have hword : firstKeyword upperRune (trimSpace text) =
      toUpper upperRune (firstField (trimSpace text)) := by
    rw [firstKeyword, Stripping.stripComments_of_no_marks (fun h => hblock (h.trans hpart))
      (fun h => hline (h.trans hpart)), GoStrings.trimSpace_trimSpace]
  rw [classifySlow, Stripping.extractHint_of_no_mark hblock, hsplit]
  by_cases hempty : trimSpace text = []
  · simp [hempty]
  · rw [if_neg hempty, List.any_cons, List.any_nil, Bool.or_false, isWriteStatement, hword]
    simp [Writes, ← or_iff_not_imp_left]

/-! ## The word that begins the text -/

section

variable {upperRune} {q w rest : Bytes}

theorem isLetter_of_keyword (hw : toUpper upperRune w ∈ ascii "WITH" :: writeKeywords) {c : Byte}
    (hc : c ∈ w) (hlow : c < 0x80) : isLetter c := by
  have hkeywords : ∀ k ∈ ascii "WITH" :: writeKeywords, ∀ b ∈ k, isUpper b := by decide
  have hbyte : ∀ c : Byte, isUpper (upperByte c) → isLetter c := by
    grind [isUpper, isLower, isLetter, upperByte]
  obtain ⟨u, v, rfl⟩ := List.append_of_mem hc
  refine hbyte c (hkeywords _ hw _ ?_)
  rw [GoStrings.toUpper_append_cons upperRune hlow]
  simp

theorem fastWord_of_begins (hw : toUpper upperRune w ∈ ascii "WITH" :: writeKeywords)
    (h : Begins w rest q) (hrest : rest.head?.all fun c => isStop c || c == 40) :
    fastWord q = w := by
  have hbyte : ∀ c : Byte, (c < 0x80 → isLetter c) → Router.isSpace c = false ∧
      (isStop c || c == 40) = false := by
    grind [isUpper, isLower, isLetter, Router.isSpace, isStop]
  have hletters (c : Byte) (hc : c ∈ w) := hbyte c (isLetter_of_keyword hw hc)
  obtain ⟨sp, rfl, hsp⟩ := h
  have hdrop : (w ++ rest).dropWhile Router.isSpace = w ++ rest := by
    cases w with
    | nil => exact absurd (show [] ∈ ascii "WITH" :: writeKeywords from hw) (by decide)
    | cons c w => exact List.dropWhile_cons_of_neg (by simp [(hletters c List.mem_cons_self).1])
  rw [fastWord, List.dropWhile_append_of_pos hsp, hdrop, List.takeWhile_append_of_pos]
  · cases rest with
    | nil => simp
    | cons c rest =>
      have hc : isStop c || c == 40 := by simpa using hrest
      rw [List.takeWhile_cons_of_neg (by simp [hc]), List.append_nil]
  · intro c hc
    simp only [(hletters c hc).2, Bool.not_false]

theorem begins_fastWord (q : Bytes) :
    ∃ rest, Begins (fastWord q) rest q ∧ rest.head?.all fun c => isStop c || c == 40 := by
  refine ⟨(q.dropWhile Router.isSpace).dropWhile fun c => !(isStop c || c == 40),
    ⟨q.takeWhile Router.isSpace, ?_, fun c hc => List.mem_takeWhile_imp hc⟩, ?_⟩
  · rw [fastWord, List.takeWhile_append_dropWhile, List.takeWhile_append_dropWhile]
  · have hhead := List.head?_dropWhile_not (fun c => !(isStop c || c == 40))
      (q.dropWhile Router.isSpace)
    split at hhead
    · rename_i c hc
      rw [hc]
      simpa only [Option.all_some, Bool.not_eq_eq_eq_not, Bool.not_false] using hhead
    · rename_i hnone
      rw [hnone]
      rfl

theorem firstField_append (hw : firstField w = w) {a : Byte} (ha : isHighBit a = false)
    (v : Bytes) : firstField (w ++ a :: v) = w ++ firstField (a :: v) := by
  induction w with
  | nil => rfl
  | cons c w ih =>
    rw [firstField] at hw
    split_ifs at hw with hc
    have hsame := GoStrings.leadingSpace_append ha (List.cons_ne_nil c w) v
    rw [List.cons_append] at hsame ⊢
    rw [firstField, hsame, if_pos hc, ih (List.cons.inj hw).2]
    rfl

theorem leadingSpace_of_field (hw : firstField w = w) {u v : Bytes} (huv : w = u ++ v)
    (hv : v ≠ []) : leadingSpace v = 0 := by
  induction u generalizing w with
  | nil =>
    obtain ⟨c, v, rfl⟩ := List.exists_cons_of_ne_nil hv
    rw [huv, List.nil_append, firstField] at hw
    split_ifs at hw with hc
    exact hc
  | cons c u ih =>
    rw [huv, List.cons_append, firstField] at hw
    split_ifs at hw
    exact ih (List.cons.inj hw).2 rfl

/-- A field has no white space at its end either. -/
theorem trailingSpace_of_field (hw : firstField w = w) :
    GoStrings.trailingSpace w.reverse = 0 := by
  have hsuffix (v : Bytes) (u : Bytes) (hv : w.reverse = v.reverse ++ u) (hne : v ≠ []) :
      leadingSpace v = 0 := by
    refine leadingSpace_of_field hw (u := u.reverse) ?_ hne
    rw [← List.reverse_reverse w, hv]
    simp
  rcases hrev : w.reverse with _ | ⟨c, _ | ⟨b, _ | ⟨a, x⟩⟩⟩
  · rfl
  · have h1 := hsuffix [c] [] hrev (by simp)
    grind [leadingSpace, GoStrings.trailingSpace]
  · have h1 := hsuffix [c] [b] hrev (by simp)
    have h2 := hsuffix [b, c] [] hrev (by simp)
    grind [leadingSpace, GoStrings.trailingSpace]
  · have h1 := hsuffix [c] (b :: a :: x) hrev (by simp)
    have h2 := hsuffix [b, c] (a :: x) hrev (by simp)
    have h3 := hsuffix [a, b, c] x hrev (by simp)
    grind [leadingSpace, GoStrings.trailingSpace]

theorem trimSpace_field {sp r : Bytes} (hsp : ∀ c ∈ sp, isAsciiSpace c) (hw : firstField w = w)
    (hne : w ≠ []) (hr : r.head?.any isHighBit = false) :
    ∃ r', trimSpace (sp ++ (w ++ r)) = w ++ r' ∧
      (r' = [] ∧ r.head?.all isAsciiSpace ∨ ∃ a v v', r = a :: v ∧ r' = a :: v') := by
  have hlead := leadingSpace_of_field hw (u := []) rfl hne
  have hend : GoStrings.trimRightReversed 0 w.reverse = w.reverse := by
    rw [GoStrings.trimRightReversed_eq]
    exact GoStrings.dropLead_of_lead
      ((GoStrings.trailingSpace_eq _).symm.trans (trailingSpace_of_field hw))
  cases r with
  | nil =>
    refine ⟨[], ?_, .inl ⟨rfl, rfl⟩⟩
    rw [List.append_nil, trimSpace, GoStrings.trimLeft_append hsp hlead, hend,
      List.reverse_reverse]
  | cons a v =>
    have ha : isHighBit a = false := by simpa using hr
    have hlead : leadingSpace (w ++ a :: v) = 0 := by
      rw [GoStrings.leadingSpace_append ha hne, hlead]
    have hreverse : (w ++ a :: v).reverse = v.reverse ++ a :: w.reverse := by simp
    rw [trimSpace, GoStrings.trimLeft_append hsp hlead, hreverse, GoStrings.trimRightReversed_eq,
      GoStrings.dropLead_append
        (GoStrings.spaceBytes_append GoStrings.beyondAscii_trailing ha)
        GoStrings.spaceBytes_le_length v.reverse w.reverse (Nat.zero_le _),
      ← GoStrings.trimRightReversed_eq]
    split_ifs with hv
    · by_cases hspace : isAsciiSpace a
      · refine ⟨[], ?_, .inl ⟨rfl, by simpa using hspace⟩⟩
        have hdrop : GoStrings.trimRightReversed 0 (a :: w.reverse) = w.reverse := by
          rw [GoStrings.trimRightReversed]
          simp [GoStrings.trailingSpace, hspace, hend]
        rw [hdrop, List.reverse_reverse, List.append_nil]
      · refine ⟨[a], ?_, .inr ⟨a, v, [], rfl, rfl⟩⟩
        have hsolid : GoStrings.isSolid a := by
          simpa [GoStrings.isSolid, hspace, isHighBit] using ha
        rw [show a :: w.reverse = [] ++ a :: w.reverse from rfl,
          GoStrings.trimRightReversed_solid hsolid]
        simp [GoStrings.trimRightReversed]
    · refine ⟨a :: (GoStrings.trimRightReversed 0 v.reverse).reverse, ?_,
        .inr ⟨a, v, _, rfl, rfl⟩⟩
      simp

theorem semicolon_notMem (hw : toUpper upperRune w ∈ writeKeywords) : semicolon ∉ w :=
  fun hmem => absurd (isLetter_of_keyword (List.mem_cons_of_mem _ hw) hmem (by decide)) (by decide)

/-- The text of the one statement begins as the query does. -/
theorem text_of_begins {text sp : Bytes} (hw : toUpper upperRune w ∈ writeKeywords)
    (hsp : ∀ c ∈ sp, Router.isSpace c) (hrest : rest.head?.all fun c => isStop c || c == 40)
    (h : Single (sp ++ (w ++ rest)) text) : ∃ r, text = sp ++ (w ++ r) ∧ r.head? = rest.head? := by
  rcases h with rfl | ⟨tail, heq, -, -⟩
  · exact ⟨rest, rfl, rfl⟩
  have hsemicolon : semicolon ∉ sp ++ w := by
    rw [List.mem_append, not_or]
    exact ⟨fun hmem => absurd (hsp _ hmem) (by decide), semicolon_notMem hw⟩
  have hstop : rest.head? ≠ some semicolon := by
    intro hhead
    rw [hhead] at hrest
    exact absurd hrest (by decide)
  rw [← List.append_assoc] at heq
  rcases List.append_eq_append_iff.mp heq with ⟨r, htext, hr⟩ | ⟨cut, hcut, htail⟩
  · refine ⟨r, by rw [htext, List.append_assoc], ?_⟩
    cases r with
    | nil => exact absurd (by rw [hr]; rfl) hstop
    | cons a r => rw [hr]; rfl
  · cases cut with
    | nil => exact absurd (by rw [← List.nil_append rest, ← htail]; rfl) hstop
    | cons c cut =>
      obtain ⟨rfl, -⟩ := List.cons.inj htail
      exact absurd (by rw [hcut]; simp) hsemicolon

/-- White space beyond ASCII is the encoding of the rune that it decodes to. -/
theorem rune_of_leadingSpace {a : Byte} (ha : isAsciiSpace a = false)
    (h : leadingSpace (a :: w) ≠ 0) : 0x80 ≤ (decodeRune a w).1 ∧
      leadingSpace (encodeRune (decodeRune a w).1) ≠ 0 := by
  have htwo : ∀ b : Byte, isSpace2 0xC2 b → 0x80 ≤ (decodeRune 0xC2 [b]).1 ∧
      leadingSpace (encodeRune (decodeRune 0xC2 [b]).1) ≠ 0 := by
    apply forall_byte
    decide +kernel
  have hthree : ∀ a ∈ [(0xE1 : Byte), 0xE2, 0xE3], ∀ b ∈ [(0x80 : Byte), 0x81, 0x9A], ∀ c : Byte,
      isSpace3 a b c → 0x80 ≤ (decodeRune a [b, c]).1 ∧
        leadingSpace (encodeRune (decodeRune a [b, c]).1) ≠ 0 := by
    intro a ha b hb
    apply forall_byte
    revert a b
    decide +kernel
  rcases w with _ | ⟨b, w⟩
  · simp [leadingSpace, ha] at h
  by_cases hb : isSpace2 a b
  · obtain ⟨rfl, hcont⟩ : a = 0xC2 ∧ isCont b := by grind [isSpace2, isCont]
    have hsame : decodeRune 0xC2 (b :: w) = decodeRune 0xC2 [b] := by
      simp [decodeRune, hcont]
    rw [hsame]
    exact htwo b hb
  rcases w with _ | ⟨c, w⟩
  · simp [leadingSpace, ha, hb] at h
  have hc : isSpace3 a b c := by simpa [leadingSpace, ha, hb] using h
  obtain ⟨hamem, hbmem, hconts⟩ : a ∈ [(0xE1 : Byte), 0xE2, 0xE3] ∧
      b ∈ [(0x80 : Byte), 0x81, 0x9A] ∧ isCont b ∧ isCont c := by
    grind [isSpace3, isCont]
  have hsame : decodeRune a (b :: c :: w) = decodeRune a [b, c] := by
    simp only [List.mem_cons, List.not_mem_nil, or_false] at hamem
    rcases hamem with rfl | rfl | rfl <;> simp [decodeRune, hconts]
  rw [hsame]
  exact hthree a hamem b hbmem c hc

theorem isCont_of_decodeRune (a : Byte) (w : Bytes) :
    ∀ c ∈ w.take ((decodeRune a w).2 - 1), isCont c := by
  rcases w with _ | ⟨b, _ | ⟨c, _ | ⟨d, w⟩⟩⟩ <;> simp [decodeRune] <;> split_ifs <;>
    simp_all

/-- A text whose runes become letters has no white space in it. -/
theorem firstField_of_mapUpper (hkeeps : KeepsSpace upperRune) {skip : Nat}
    (hskip : ∀ c ∈ w.take skip, isCont c)
    (hupper : ∀ b ∈ mapUpper upperRune skip w, isUpper b) : firstField w = w := by
  have hcont : ∀ c : Byte, isCont c → isAsciiSpace c = false ∧ c ≠ 0xC2 ∧ c ≠ 0xE1 ∧
      c ≠ 0xE2 ∧ c ≠ 0xE3 := by
    grind [isCont, isAsciiSpace]
  have hascii : ∀ c : Byte, isAsciiSpace c → c < 0x80 ∧ ¬ isUpper (upperByte c) := by
    grind [isUpper, isLower, isAsciiSpace, upperByte]
  induction w generalizing skip with
  | nil => rfl
  | cons a w ih =>
    cases skip with
    | succ skip =>
      obtain ⟨ha, hskip⟩ : isCont a ∧ ∀ c ∈ w.take skip, isCont c := by
        simpa using hskip
      have hlead : leadingSpace (a :: w) = 0 := by
        have := hcont a ha
        rcases w with _ | ⟨b, _ | ⟨c, w⟩⟩ <;>
          grind [leadingSpace, isSpace2, isSpace3]
      rw [firstField, if_pos hlead, ih hskip hupper]
    | zero =>
      have hlead : leadingSpace (a :: w) = 0 := by
        by_contra hlead
        cases ha : isAsciiSpace a with
        | true =>
          have hmem := GoStrings.mapUpper_cons upperRune w (hascii a ha).1
          exact (hascii a ha).2 (hupper _ (by rw [hmem]; exact List.mem_cons_self))
        | false =>
          obtain ⟨hle, hrune⟩ := rune_of_leadingSpace ha hlead
          obtain ⟨b, u, heq, hb⟩ := GoStrings.encodeRune_of_le (hkeeps _ hle hrune)
          have hb' : isUpper b := by
            refine hupper b (List.mem_append_left _ ?_)
            rw [GoStrings.upperOf, if_neg (Nat.not_lt.mpr hle), heq]
            exact List.mem_cons_self
          grind [isUpper]
      rw [firstField, if_pos hlead,
        ih (isCont_of_decodeRune a w) fun b hb => hupper b (List.mem_append_right _ hb)]

theorem field_of_keyword (hkeeps : KeepsSpace upperRune)
    (hw : toUpper upperRune w ∈ writeKeywords) : firstField w = w := by
  have hkeywords : ∀ k ∈ writeKeywords, ∀ b ∈ k, isUpper b := by decide
  rw [GoStrings.toUpper_eq_mapUpper] at hw
  exact firstField_of_mapUpper hkeeps (by simp) (hkeywords _ hw)

theorem statement_of_begins (hkeeps : KeepsSpace upperRune)
    (hw : toUpper upperRune w ∈ writeKeywords) (h : Begins w rest q)
    (hrest : rest.head?.all fun c => isStop c || c == 40) (hsingle : isSingleStatement q) :
    ∃ stmt, splitStatements q = [stmt] ∧ (rest.head?.all isStop → firstField stmt = w) ∧
      (rest.head? = some 40 → 40 ∈ firstField stmt) := by
  have hfield := field_of_keyword hkeeps hw
  have hne : w ≠ [] := by
    rintro rfl
    exact toUpper_nil_notMem upperRune hw
  have hbyte : ∀ c : Byte, (Router.isSpace c → isAsciiSpace c) ∧
      (isStop c || c == 40 → isHighBit c = false) ∧ (isStop c → isAsciiSpace c) := by
    grind [Router.isSpace, isAsciiSpace, isStop, isHighBit]
  obtain ⟨text, htext, hsplit⟩ := Splitting.splitStatements_single hsingle
  obtain ⟨sp, rfl, hsp⟩ := h
  obtain ⟨r, rfl, hhead⟩ := text_of_begins hw hsp hrest htext
  have hlow : r.head?.any isHighBit = false := by
    rw [hhead]
    cases hc : rest.head? with
    | none => rfl
    | some c => exact (hbyte c).2.1 (by simpa [hc] using hrest)
  obtain ⟨r', htrim, hr'⟩ :=
    trimSpace_field (fun c hc => (hbyte c).1 (hsp c hc)) hfield hne hlow
  rw [htrim, if_neg (by simp [hne])] at hsplit
  refine ⟨_, hsplit, fun hstop => ?_, fun hparen => ?_⟩
  · rcases hr' with ⟨rfl, -⟩ | ⟨a, v, v', rfl, rfl⟩
    · rw [List.append_nil, hfield]
    · rw [← hhead] at hstop
      have ha : isAsciiSpace a := (hbyte a).2.2 (by simpa using hstop)
      rw [firstField_append hfield (by simpa using hlow)]
      simp [firstField, leadingSpace, ha]
  · rcases hr' with ⟨-, hspace⟩ | ⟨a, v, v', rfl, rfl⟩
    · rw [hhead, hparen] at hspace
      exact absurd hspace (by decide)
    · obtain rfl : a = 40 := by simpa using hhead.trans hparen
      rw [firstField_append hfield (by decide), firstField,
        if_pos (GoStrings.leadingSpace_of_isSolid (by decide) v')]
      simp

theorem keyword_of_writes {stmt : Bytes} (h : Writes upperRune stmt) :
    toUpper upperRune (firstField stmt) ∈ ascii "WITH" :: writeKeywords := by
  rcases h with h | ⟨h, -⟩
  · exact List.mem_cons_of_mem _ h
  · exact h ▸ List.mem_cons_self

theorem misled_of_keyword (hkeeps : KeepsSpace upperRune) (hsingle : isSingleStatement q)
    (hword : toUpper upperRune (fastWord q) ∈ writeKeywords) :
    (∃ stmt ∈ splitStatements q, Writes upperRune stmt) ↔ ¬ Misled upperRune q := by
  obtain ⟨rest, hbegins, hrest⟩ := begins_fastWord q
  obtain ⟨stmt, hsplit, hstop, hparen⟩ := statement_of_begins hkeeps hword hbegins hrest hsingle
  have hopen (w : Bytes) (hw : toUpper upperRune w ∈ ascii "WITH" :: writeKeywords) : 40 ∉ w :=
    fun hmem => absurd (isLetter_of_keyword hw hmem (by decide)) (by decide)
  simp only [hsplit, List.mem_singleton, exists_eq_left]
  by_cases h40 : rest.head? = some 40
  · refine iff_of_false (fun hwrite => hopen _ (keyword_of_writes hwrite) (hparen h40))
      (not_not_intro (.inl ⟨fastWord q, rest.tail, ?_, hword⟩))
    rwa [List.cons_head?_tail h40]
  · have hend : rest.head?.all isStop := by
      cases hc : rest.head? with
      | none => rfl
      | some c =>
        rw [hc] at hrest h40
        simpa [Option.some_inj.not.mp h40] using hrest
    have hfield := hstop hend
    refine iff_of_true (.inl (by rwa [hfield])) ?_
    rintro (⟨w, rest', hbegins', hw⟩ | ⟨stmt', hmem, hwrite, hnot⟩)
    · obtain ⟨stmt', hsplit', -, hparen'⟩ :=
        statement_of_begins hkeeps hw hbegins' rfl hsingle
      obtain rfl : stmt = stmt' := by simpa [hsplit] using hsplit'
      refine hopen _ ?_ (hparen' rfl)
      rw [hfield]
      exact List.mem_cons_of_mem _ hword
    · rw [hsplit, List.mem_singleton] at hmem
      subst hmem
      exact hnot ⟨rest, by rwa [hfield], hend⟩

end

/-- Whatever the fast path answers, the slow path answers the same exactly on the texts that do
not mislead it. -/
theorem classifyFast_conservative (hkeeps : KeepsSpace upperRune) {q : Bytes} {t : QueryType}
    (hfast : classifyFast upperRune q = some t) :
    classifySlow upperRune q = t ↔ ¬ Misled upperRune q := by
  obtain ⟨hblock, hline, hsingle, hwith, ht⟩ := of_classifyFast upperRune hfast
  have hslow := classifySlow_iff upperRune hblock hline hsingle
  by_cases hword : toUpper upperRune (fastWord q) ∈ writeKeywords
  · rw [ht.mpr hword, hslow]
    exact misled_of_keyword hkeeps hsingle hword
  · have hread : t = .read := by
      cases t with
      | read => rfl
      | write => exact absurd (ht.mp rfl) hword
    have hnot : classifySlow upperRune q = .read ↔ ¬ classifySlow upperRune q = .write := by
      cases classifySlow upperRune q <;> decide
    rw [hread, hnot, hslow, not_iff_not]
    constructor
    · rintro ⟨stmt, hstmt, hwrite⟩
      refine .inr ⟨stmt, hstmt, hwrite, ?_⟩
      rintro ⟨rest, hbegins, hstop⟩
      have hsame := fastWord_of_begins (keyword_of_writes hwrite) hbegins (by
        cases hc : rest.head? with
        | none => rfl
        | some c => simp_all)
      rw [hsame] at hword hwith
      rcases hwrite with hwrite | ⟨hwrite, -⟩
      · exact hword hwrite
      · exact hwith hwrite
    · rintro (⟨w, rest, hbegins, hw⟩ | ⟨stmt, hstmt, hwrite, -⟩)
      · have hsame := fastWord_of_begins (List.mem_cons_of_mem _ hw) hbegins rfl
        rw [hsame] at hword
        exact absurd hw hword
      · exact ⟨stmt, hstmt, hwrite⟩

theorem classifyFast_conservative_insert :
    KeepsSpace id ∧ classifyFast id (ascii "\n insert into t values (1);") = some .write ∧
      ¬ Misled id (ascii "\n insert into t values (1);") := by
  have hfast : classifyFast id (ascii "\n insert into t values (1);") = some .write := by
    decide +kernel
  exact ⟨fun _ hr _ => hr, hfast,
    (classifyFast_conservative id (fun _ hr _ => hr) hfast).mp (by decide +kernel)⟩

theorem classifyFast_misses_delete :
    classifyFast id (ascii "DELETE\r\nFROM t") = some .read ∧
      classifySlow id (ascii "DELETE\r\nFROM t") = .write ∧
      classifyFast id (ascii "DROP(t)") = some .write ∧
      classifySlow id (ascii "DROP(t)") = .read := by
  decide +kernel

end PgMux.FastPath
