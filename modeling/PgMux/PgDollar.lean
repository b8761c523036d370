import PgMux.PgLexeme

/-!
# Dollar quotes

The body that a tag opens ends with the first occurrence of the same tag: the lexer keeps the text
since the last `$` pending while it can still be a start of the closing tag.
-/

namespace PgMux.PgLexer

structure TagText (t : Bytes) : Prop where
  chars : ∀ c ∈ t, isTagChar c
  head : t.head?.all isIdentStart

theorem isTagChar_dollar : isTagChar PgMux.dollar = false := by decide

theorem tagText_nil : TagText [] := ⟨by simp, rfl⟩

variable {t x : Bytes} {pend : Option Bytes}

theorem TagText.dollar_notMem (h : TagText t) : PgMux.dollar ∉ t := by
  intro hm
  simpa [isTagChar_dollar] using h.chars _ hm

theorem TagText.of_isPrefix (h : TagText t) (hx : x <+: t) : TagText x := by
  refine ⟨fun c hc => h.chars c (hx.subset hc), ?_⟩
  cases x with
  | nil => rfl
  | cons c x =>
    obtain ⟨v, rfl⟩ := hx
    exact h.head

theorem TagText.length_le_of_isPrefix {v : Bytes} (hx : TagText x)
    (h : t ++ [PgMux.dollar] <+: x ++ v) : x.length ≤ t.length := by
  by_contra hlt
  have hp : t ++ [PgMux.dollar] <+: x :=
    List.prefix_of_prefix_length_le h (List.prefix_append x v) (by simp; omega)
  exact hx.dollar_notMem (hp.subset (by simp))

theorem TagText.eq_of_isPrefix {v : Bytes} (ht : TagText t) (hx : TagText x)
    (h : t ++ [PgMux.dollar] <+: x ++ PgMux.dollar :: v) : t = x := by
  have hle := hx.length_le_of_isPrefix h
  have hxd : x ++ [PgMux.dollar] <+: x ++ PgMux.dollar :: v := by simp
  have hge : t.length ≤ x.length := by
    by_contra hlt
    have hp : x ++ [PgMux.dollar] <+: t ++ [PgMux.dollar] :=
      List.prefix_of_prefix_length_le hxd h (by simp; omega)
    have hp' : x ++ [PgMux.dollar] <+: t :=
      List.prefix_of_prefix_length_le hp (List.prefix_append t _) (by simp; omega)
    exact ht.dollar_notMem (hp'.subset (by simp))
  have heq : t ++ [PgMux.dollar] = x ++ [PgMux.dollar] :=
    (List.prefix_of_prefix_length_le h hxd (by simp; omega)).eq_of_length (by simp; omega)
  simpa using heq

theorem TagText.concat_of_isPrefix {v : Bytes} {c : Byte} (ht : TagText t) (hx : TagText x)
    (hc : c ≠ PgMux.dollar) (h : t ++ [PgMux.dollar] <+: x ++ c :: v) : TagText (x ++ [c]) := by
  have hle := hx.length_le_of_isPrefix h
  have hxc : x ++ [c] <+: x ++ c :: v := by simp
  have hp : x ++ [c] <+: t ++ [PgMux.dollar] :=
    List.prefix_of_prefix_length_le hxc h (by simp; omega)
  have hlt : x.length ≠ t.length := by
    intro hl
    have heq := hp.eq_of_length (by simp [hl])
    exact hc (by simpa using (List.append_inj_right' heq rfl))
  exact ht.of_isPrefix (List.prefix_of_prefix_length_le hp (List.prefix_append t _)
    (by simp; omega))

theorem TagText.concat_iff (hx : TagText x) (c : Byte) :
    TagText (x ++ [c]) ↔ (if (PgMux.dollar :: x).length = 1 then isIdentStart c else isTagChar c) =
      true := by
  cases x with
  | nil =>
    refine ⟨fun h => by simpa using h.head, fun h => ⟨?_, by simpa using h⟩⟩
    have hc : isIdentStart c := by simpa using h
    simp [isTagChar, hc]
  | cons b x =>
    refine ⟨fun h => by simpa using h.chars c (by simp), fun h => ⟨?_, by simpa using hx.head⟩⟩
    have hc : isTagChar c := by simpa using h
    intro d hd
    rcases List.mem_append.mp hd with hd | hd
    · exact hx.chars d hd
    · rwa [List.mem_singleton.mp hd]

def closingTag (t : Bytes) : Bytes := PgMux.dollar :: t ++ [PgMux.dollar]

/-- Text that may be the start of the closing tag. -/
def Pending (pend : Option Bytes) : Prop :=
  ∀ p, pend = some p → ∃ x, p = PgMux.dollar :: x ∧ TagText x

theorem pending_none : Pending none := by simp [Pending]

theorem pending_some (hx : TagText x) : Pending (some (PgMux.dollar :: x)) := by
  intro p hp
  exact ⟨x, by simpa using hp.symm, hx⟩

theorem bodyStep_index (ht : TagText t) (acc : Bytes) (hp : Pending pend) (c : Byte) :
    (pend.getD [] ++ [c] = closingTag t ∧ bodyStep (closingTag t) acc pend c = ([.str .dollar acc],
      .start)) ∨
      ∃ acc' pend' d, bodyStep (closingTag t) acc pend c =
        ([], .dollarBody (closingTag t) acc' pend') ∧
        Pending pend' ∧ d + (pend'.getD []).length = (pend.getD []).length + 1 ∧
        ∀ v, index (closingTag t) (pend.getD [] ++ c :: v) =
          (index (closingTag t) (pend'.getD [] ++ v)).map (· + d) := by
  cases pend with
  | none =>
    by_cases hc : c = PgMux.dollar
    · subst hc
      exact .inr ⟨acc, some [PgMux.dollar],
        0, by simp [bodyStep], pending_some tagText_nil, rfl, by simp⟩
    · refine .inr ⟨acc ++ [c], none, 1, by simp [bodyStep, hc], pending_none, rfl, fun v => ?_⟩
      have hx : PgMux.dollar ∉ [c] := by simpa using Ne.symm hc
      simpa [closingTag] using index_append hx (t ++ [PgMux.dollar]) v
  | some p =>
    obtain ⟨x, rfl, hx⟩ := hp p rfl
    have hskip (v : Bytes) (hn : ¬ closingTag t <+: PgMux.dollar :: (x ++ v)) :
        index (closingTag t) (PgMux.dollar :: (x ++ v)) =
          (index (closingTag t) v).map (· + (x.length + 1)) := by
      rw [index_cons_of_not_isPrefix hn]
      have := index_append hx.dollar_notMem (t ++ [PgMux.dollar]) v
      rw [show index (closingTag t) (x ++ v) = _ from this, Option.map_map]
      rfl
    by_cases hc : c = PgMux.dollar
    · subst hc
      by_cases heq : PgMux.dollar :: x ++ [PgMux.dollar] = closingTag t
      · exact .inl ⟨heq, by simp [bodyStep, heq]⟩
      · refine .inr ⟨acc ++ PgMux.dollar :: x, some [PgMux.dollar], x.length + 1, ?_,
          pending_some tagText_nil, by simp, fun v => ?_⟩
        · simp only [bodyStep, ↓reduceIte, heq]
        · refine hskip (PgMux.dollar :: v) fun hpre => heq ?_
          have hpre' : t ++ [PgMux.dollar] <+: x ++ PgMux.dollar :: v := by
            simpa [closingTag, List.cons_prefix_cons] using hpre
          simp [closingTag, ht.eq_of_isPrefix hx hpre']
    · by_cases hcat : TagText (x ++ [c])
      · refine .inr ⟨acc, some (PgMux.dollar :: (x ++ [c])), 0, ?_,
          pending_some hcat, by simp, by simp⟩
        simp only [bodyStep, hc, ↓reduceIte, (hx.concat_iff c).mp hcat]
        simp
      · refine .inr ⟨acc ++ PgMux.dollar :: x ++ [c], none, x.length + 2, ?_,
          pending_none, by simp, fun v => ?_⟩
        · simp only [bodyStep, hc, ↓reduceIte, mt (hx.concat_iff c).mpr hcat]
          simp
        · have hn : ¬ closingTag t <+: PgMux.dollar :: (x ++ c :: v) := by
            intro hpre
            have hpre' : t ++ [PgMux.dollar] <+: x ++ c :: v := by
              simpa [closingTag, List.cons_prefix_cons] using hpre
            exact hcat (ht.concat_of_isPrefix hx hc hpre')
          have hcv : index (closingTag t) (c :: v) = (index (closingTag t) v).map (· + 1) := by
            have hx : PgMux.dollar ∉ [c] := by simpa using Ne.symm hc
            simpa [closingTag] using index_append hx (t ++ [PgMux.dollar]) v
          have := hskip (c :: v) hn
          simp only [Option.getD_some, List.cons_append, this, hcv, Option.map_map]
          simp [Function.comp_def, Nat.add_comm, Nat.add_left_comm]

theorem index_pending_eq_none (hp : Pending pend) : index (closingTag t) (pend.getD []) = none := by
  cases pend with
  | none => simp [index, closingTag]
  | some p =>
    obtain ⟨x, rfl, hx⟩ := hp p rfl
    have hn : ¬ closingTag t <+: PgMux.dollar :: x := by
      intro hpre
      have hpre' : t ++ [PgMux.dollar] <+: x := by
        simpa [closingTag, List.cons_prefix_cons] using hpre
      exact hx.dollar_notMem (hpre'.subset (by simp))
    have hx' := index_append hx.dollar_notMem (t ++ [PgMux.dollar]) []
    rw [Option.getD_some, index_cons_of_not_isPrefix hn]
    simpa [closingTag, index] using hx'

theorem dollarBody_closed (ht : TagText t) (acc : Bytes) (hp : Pending pend) (v : Bytes) {k : Nat}
    (hk : index (closingTag t) (pend.getD [] ++ v) = some k) :
    ∃ u w body, v = u ++ w ∧ (pend.getD []).length + u.length = k + (closingTag t).length ∧
      lexer.emitted (.dollarBody (closingTag t) acc pend) u = [.str .dollar body] ∧
      lexer.after (.dollarBody (closingTag t) acc pend) u = .start := by
  induction v generalizing acc pend k with
  | nil => simp [index_pending_eq_none hp] at hk
  | cons c v ih =>
    rcases bodyStep_index ht acc hp c with ⟨htag, hb⟩ | ⟨acc', pend', d, hb, hp', hd, hidx⟩
    · have hzero : index (closingTag t) (pend.getD [] ++ c :: v) = some 0 := by
        refine index_of_isPrefix (by simp [closingTag]) ⟨v, ?_⟩
        rw [← htag]
        simp
      rw [hzero] at hk
      refine ⟨[c], v, acc, rfl, ?_, by simp [step, hb], by simp [step, hb]⟩
      rw [← Option.some.inj hk, ← htag]
      simp
    · rw [hidx] at hk
      obtain ⟨k', hk', rfl⟩ := Option.map_eq_some_iff.mp hk
      obtain ⟨u, w, body, rfl, hlen, hem, haf⟩ := ih acc' hp' hk'
      refine ⟨c :: u, w, body, rfl, ?_, by simp [step, hb, hem], by simp [step, hb, haf]⟩
      rw [List.length_cons]
      omega

theorem dollarBody_open (ht : TagText t) (acc : Bytes) (hp : Pending pend) (v : Bytes)
    (hk : index (closingTag t) (pend.getD [] ++ v) = none) :
    lexer.emitted (.dollarBody (closingTag t) acc pend) v = [] ∧
      ∃ acc' pend', lexer.after (.dollarBody (closingTag t) acc pend) v =
        .dollarBody (closingTag t) acc' pend' := by
  induction v generalizing acc pend with
  | nil => exact ⟨rfl, acc, pend, rfl⟩
  | cons c v ih =>
    rcases bodyStep_index ht acc hp c with ⟨htag, _⟩ | ⟨acc', pend', d, hb, hp', _, hidx⟩
    · have hzero : index (closingTag t) (pend.getD [] ++ c :: v) = some 0 := by
        refine index_of_isPrefix (by simp [closingTag]) ⟨v, ?_⟩
        rw [← htag]
        simp
      rw [hzero] at hk
      cases hk
    · rw [hidx, Option.map_eq_none_iff] at hk
      obtain ⟨hem, acc'', pend'', haf⟩ := ih acc' hp' hk
      exact ⟨by simp [step, hb, hem], acc'', pend'', by simp [step, hb, haf]⟩

def openingTag (w : Bytes) : Option Bytes :=
  if w.head? = some PgMux.dollar then some []
  else if w.head?.any isIdentStart && (w.dropWhile isTagChar).head? == some PgMux.dollar then
    some (w.takeWhile isTagChar)
  else none

theorem isTagChar_of_isIdentStart {c : Byte} (h : isIdentStart c) : isTagChar c := by
  simp [isTagChar, h]

theorem openingTag_iff {w : Bytes} :
    openingTag w = some t ↔ TagText t ∧ ∃ v, w = t ++ PgMux.dollar :: v := by
  rw [show openingTag w = nameBefore isIdentStart isTagChar PgMux.dollar w from rfl,
    nameBefore_eq_some_iff isTagChar_dollar fun _ => isTagChar_of_isIdentStart]
  exact and_congr_left' ⟨fun h => ⟨h.2, h.1⟩, fun h => ⟨h.head, h.chars⟩⟩

theorem after_dollarTag (acc : Bytes) (h : ∀ c ∈ t, isTagChar c) :
    lexer.emitted (.dollarTag acc) t = [] ∧
    lexer.after (.dollarTag acc) t = .dollarTag (acc ++ t) := by
  induction t generalizing acc with
  | nil => simp
  | cons c t ih =>
    have hc : isTagChar c := h c (by simp)
    obtain ⟨he, ha⟩ := ih (acc ++ [c]) fun d hd => h d (by simp [hd])
    simp [step, hc, he, ha]

theorem isIdentStart_not_digit {c : Byte} (h : isIdentStart c) : isDigit c = false := by
  grind [isIdentStart, isDigit, isLetter, isUpper, isLower, isHighBit]

theorem openingTag_run (ht : TagText t) : lexer.emitted .dollar (t ++ [PgMux.dollar]) = [] ∧
      lexer.after .dollar (t ++ [PgMux.dollar]) = .dollarBody (closingTag t) [] none := by
  cases t with
  | nil => exact ⟨rfl, rfl⟩
  | cons c t =>
    have hc : isIdentStart c := by simpa using ht.head
    have hdollar : c ≠ PgMux.dollar := by
      rintro rfl
      exact ht.dollar_notMem (by simp)
    have hstep : step .dollar c = ([], .dollarTag [c]) := by
      simp [step, isIdentStart_not_digit hc, hdollar, hc]
    obtain ⟨he, ha⟩ := after_dollarTag [c] fun d hd => ht.chars d (List.mem_cons_of_mem c hd)
    have hlast : step (.dollarTag (c :: t)) PgMux.dollar =
        ([], .dollarBody (closingTag (c :: t)) [] none) := by
      simp [step, isTagChar_dollar, closingTag]
    constructor
    · simp [hstep, Transducer.emitted_append, he, ha, hlast]
    · simp [hstep, Transducer.after_append, ha, hlast]

end PgMux.PgLexer
