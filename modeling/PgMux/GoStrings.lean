import PgMux.Bytes

/-!
# String functions of the Go library

`strings.TrimSpace`, `strings.ToUpper` and `strings.ToLower` on byte strings. Case goes rune by
rune, and an invalid byte becomes U+FFFD; the letter tables beyond ASCII are parameters.
-/

namespace PgMux.GoStrings

def isAsciiSpace (c : Byte) : Bool := c == blank || (9 ≤ c && c ≤ 13)

def isSpace2 (a b : Byte) : Bool := a == 0xC2 && (b == 0x85 || b == 0xA0)

def isSpace3 (a b c : Byte) : Bool :=
  (a == 0xE1 && b == 0x9A && c == 0x80) ||
    (a == 0xE2 && b == 0x80 && ((0x80 ≤ c && c ≤ 0x8A) || c == 0xA8 || c == 0xA9 || c == 0xAF)) ||
    (a == 0xE2 && b == 0x81 && c == 0x9F) || (a == 0xE3 && b == 0x80 && c == 0x80)

def leadingSpace : Bytes → Nat
  | a :: w =>
    if isAsciiSpace a then 1
    else
      match w with
      | b :: w => if isSpace2 a b then 2 else match w with
        | c :: _ => if isSpace3 a b c then 3 else 0
        | [] => 0
      | [] => 0
  | [] => 0

def trimLeft : Nat → Bytes → Bytes
  | _, [] => []
  | skip + 1, _ :: w => trimLeft skip w
  | 0, a :: w =>
    match leadingSpace (a :: w) with
    | 0 => a :: w
    | k + 1 => trimLeft k w

def trailingSpace : Bytes → Nat
  | c :: w =>
    if isAsciiSpace c then 1
    else
      match w with
      | b :: w => if isSpace2 b c then 2 else match w with
        | a :: _ => if isSpace3 a b c then 3 else 0
        | [] => 0
      | [] => 0
  | [] => 0

def trimRightReversed : Nat → Bytes → Bytes
  | _, [] => []
  | skip + 1, _ :: w => trimRightReversed skip w
  | 0, c :: w =>
    match trailingSpace (c :: w) with
    | 0 => c :: w
    | k + 1 => trimRightReversed k w

def trimSpace (s : Bytes) : Bytes := (trimRightReversed 0 (trimLeft 0 s).reverse).reverse

def isSolid (c : Byte) : Bool := c < 0x80 && !isAsciiSpace c

variable {a : Byte} {n : Nat} {x s : Bytes}

theorem of_isSolid (h : isSolid a) : a < 0x80 ∧ isAsciiSpace a = false := by
  simpa [isSolid] using h

theorem isHighBit_of_isSolid (h : isSolid a) : isHighBit a = false := by
  simpa [isHighBit] using (of_isSolid h).1

/-! ## Dropping from the head -/

section

variable {α : Type}

def dropLead (lead : List α → Nat) : Nat → List α → List α
  | _, [] => []
  | skip + 1, _ :: w => dropLead lead skip w
  | 0, a :: w =>
    match lead (a :: w) with
    | 0 => a :: w
    | k + 1 => dropLead lead k w

variable {lead : List α → Nat} {a : α}

theorem eq_dropLead {f : Nat → List α → List α} (hnil : ∀ n, f n [] = [])
    (hskip : ∀ n a w, f (n + 1) (a :: w) = f n w)
    (hstop : ∀ a w, lead (a :: w) = 0 → f 0 (a :: w) = a :: w)
    (hdrop : ∀ a w k, lead (a :: w) = k + 1 → f 0 (a :: w) = f k w) : f = dropLead lead := by
  funext n x
  induction x generalizing n with
  | nil => rw [hnil, dropLead]
  | cons a w ih =>
    cases n with
    | succ n => rw [hskip, dropLead, ih]
    | zero =>
      rw [dropLead]
      split
      · exact hstop a w (by assumption)
      · exact (hdrop a w _ (by assumption)).trans (ih _)

theorem dropLead_of_lead {x : List α} (h : lead x = 0) : dropLead lead 0 x = x := by
  cases x with
  | nil => rfl
  | cons a w => simp [dropLead, h]

theorem lead_dropLead (hnil : lead [] = 0) (n : Nat) (x : List α) :
    lead (dropLead lead n x) = 0 := by
  induction x generalizing n with
  | nil => cases n <;> exact hnil
  | cons a w ih =>
    cases n with
    | succ n => exact ih n
    | zero =>
      simp only [dropLead]
      split
      · assumption
      · exact ih _

theorem dropLead_split {p : α → Prop} (hlead : ∀ w : List α, ∀ c ∈ w.take (lead w), p c)
    (x : List α) (hn : ∀ c ∈ x.take n, p c) :
    ∃ sp, x = sp ++ dropLead lead n x ∧ ∀ c ∈ sp, p c := by
  induction x generalizing n with
  | nil => exact ⟨[], by cases n <;> rfl, by simp⟩
  | cons a w ih =>
    cases n with
    | succ n =>
      obtain ⟨ha, hw⟩ := by simpa using hn
      obtain ⟨sp, hsp, hall⟩ := ih (n := n) (by simpa using hw)
      exact ⟨a :: sp, by rw [dropLead, List.cons_append, ← hsp], by simpa using ⟨ha, hall⟩⟩
    | zero =>
      have htake := hlead (a :: w)
      simp only [dropLead]
      split
      · exact ⟨[], rfl, by simp⟩
      · rename_i k hk
        rw [hk] at htake
        obtain ⟨ha, hw⟩ := by simpa using htake
        obtain ⟨sp, hsp, hall⟩ := ih (n := k) (by simpa using hw)
        exact ⟨a :: sp, by rw [List.cons_append, ← hsp], by simpa using ⟨ha, hall⟩⟩

theorem dropLead_isSuffix (n : Nat) (x : List α) : dropLead lead n x <:+ x := by
  obtain ⟨sp, hsp, -⟩ : ∃ sp, x = sp ++ dropLead lead n x ∧ ∀ c ∈ sp, True :=
    dropLead_split (by simp) x (by simp)
  exact ⟨sp, hsp.symm⟩

theorem dropLead_append (happend : ∀ u ≠ [], ∀ v, lead (u ++ a :: v) = lead u)
    (hle : ∀ x, lead x ≤ x.length) (u v : List α) (hn : n ≤ u.length) :
    dropLead lead n (u ++ a :: v) =
      if dropLead lead n u = [] then dropLead lead 0 (a :: v) else dropLead lead n u ++ a :: v := by
  induction u generalizing n with
  | nil =>
    obtain rfl : n = 0 := by simpa using hn
    rfl
  | cons c u ih =>
    cases n with
    | succ n => exact ih (by simpa using hn)
    | zero =>
      have hfit := hle (c :: u)
      have hsame := happend (c :: u) (List.cons_ne_nil c u) v
      rw [List.cons_append] at hsame ⊢
      rw [dropLead, dropLead, hsame]
      cases hk : lead (c :: u) with
      | zero => simp
      | succ k => exact ih (by simp [hk] at hfit; omega)

theorem dropLead_of_stop (ha : ∀ w, lead (a :: w) = 0)
    (happend : ∀ u ≠ [], ∀ v, lead (u ++ a :: v) = lead u) (hle : ∀ x, lead x ≤ x.length)
    (u v : List α) : dropLead lead 0 (u ++ a :: v) = dropLead lead 0 u ++ a :: v := by
  rw [dropLead_append happend hle u v (Nat.zero_le _), dropLead_of_lead (ha v)]
  split_ifs with hu
  · rw [hu]
    rfl
  · rfl

end

/-! ## White space -/

def isSpaceByte (c : Byte) : Bool := isAsciiSpace c || isHighBit c

def spaceBytes (two : Byte → Byte → Bool) (three : Byte → Byte → Byte → Bool) : Bytes → Nat
  | a :: w =>
    if isAsciiSpace a then 1
    else
      match w with
      | b :: w => if two a b then 2 else match w with
        | c :: _ => if three a b c then 3 else 0
        | [] => 0
      | [] => 0
  | [] => 0

theorem leadingSpace_eq (x : Bytes) : leadingSpace x = spaceBytes isSpace2 isSpace3 x := by
  rcases x with _ | ⟨c, _ | ⟨b, _ | ⟨d, x⟩⟩⟩ <;> rfl

theorem trailingSpace_eq (x : Bytes) :
    trailingSpace x = spaceBytes (fun c b => isSpace2 b c) (fun c b a => isSpace3 a b c) x := by
  rcases x with _ | ⟨c, _ | ⟨b, _ | ⟨d, x⟩⟩⟩ <;> rfl

structure BeyondAscii (two : Byte → Byte → Bool) (three : Byte → Byte → Byte → Bool) : Prop where
  two : ∀ a b, two a b → isHighBit a ∧ isHighBit b
  three : ∀ a b c, three a b c → isHighBit a ∧ isHighBit b ∧ isHighBit c

theorem beyondAscii_leading : BeyondAscii isSpace2 isSpace3 :=
  ⟨by grind [isSpace2, isHighBit], by grind [isSpace3, isHighBit]⟩

theorem beyondAscii_trailing :
    BeyondAscii (fun c b => isSpace2 b c) (fun c b a => isSpace3 a b c) :=
  ⟨by grind [isSpace2, isHighBit], by grind [isSpace3, isHighBit]⟩

section

variable {two : Byte → Byte → Bool} {three : Byte → Byte → Byte → Bool}

theorem spaceBytes_le_length (x : Bytes) : spaceBytes two three x ≤ x.length := by
  rcases x with _ | ⟨c, _ | ⟨b, _ | ⟨d, x⟩⟩⟩
  · rfl
  all_goals
    simp only [spaceBytes, List.length_cons, List.length_nil]
    split_ifs <;> omega

theorem spaceBytes_of_isSolid (h : BeyondAscii two three) (ha : isSolid a) (w : Bytes) :
    spaceBytes two three (a :: w) = 0 := by
  have hspace := (of_isSolid ha).2
  have hlow := isHighBit_of_isSolid ha
  have htwo := h.two a
  have hthree := h.three a
  rcases w with _ | ⟨b, _ | ⟨c, w⟩⟩ <;> grind [spaceBytes]

theorem spaceBytes_append (h : BeyondAscii two three) (hlow : isHighBit a = false) (u : Bytes)
    (hu : u ≠ []) (v : Bytes) : spaceBytes two three (u ++ a :: v) = spaceBytes two three u := by
  have htwo (b : Byte) := h.two b a
  have hsecond (b c : Byte) := h.three b a c
  have hthird (b c : Byte) := h.three b c a
  rcases u with _ | ⟨c, _ | ⟨b, _ | ⟨d, u⟩⟩⟩
  · exact absurd rfl hu
  · cases v <;> grind [spaceBytes]
  · grind [spaceBytes]
  · rfl

theorem take_spaceBytes (h : BeyondAscii two three) (w : Bytes) :
    ∀ c ∈ w.take (spaceBytes two three w), isSpaceByte c := by
  rcases w with _ | ⟨a, _ | ⟨b, _ | ⟨c, w⟩⟩⟩
  · simp [spaceBytes]
  · simp only [spaceBytes]
    split_ifs with ha <;> simp [isSpaceByte, *]
  · simp only [spaceBytes]
    split_ifs with ha h2
    · simp [isSpaceByte, ha]
    · simp [isSpaceByte, h.two a b h2]
    · simp
  · simp only [spaceBytes]
    split_ifs with ha h2 h3
    · simp [isSpaceByte, ha]
    · simp [isSpaceByte, h.two a b h2]
    · simp [isSpaceByte, h.three a b c h3]
    · simp

end

theorem leadingSpace_of_isSolid (h : isSolid a) (w : Bytes) : leadingSpace (a :: w) = 0 := by
  rw [leadingSpace_eq, spaceBytes_of_isSolid beyondAscii_leading h]

theorem leadingSpace_append (h : isHighBit a = false) {u : Bytes} (hu : u ≠ []) (v : Bytes) :
    leadingSpace (u ++ a :: v) = leadingSpace u := by
  rw [leadingSpace_eq, leadingSpace_eq, spaceBytes_append beyondAscii_leading h u hu]

/-! ## What is trimmed -/

theorem trimLeft_eq : trimLeft = dropLead (spaceBytes isSpace2 isSpace3) := by
  rw [← funext leadingSpace_eq]
  exact eq_dropLead (fun n => by cases n <;> rfl) (fun _ _ _ => rfl)
    (by simp +contextual [trimLeft])
    (by simp +contextual [trimLeft])

theorem trimRightReversed_eq :
    trimRightReversed = dropLead (spaceBytes (fun c b => isSpace2 b c)
      (fun c b a => isSpace3 a b c)) := by
  rw [← funext trailingSpace_eq]
  exact eq_dropLead (fun n => by cases n <;> rfl) (fun _ _ _ => rfl)
    (by simp +contextual [trimRightReversed])
    (by simp +contextual [trimRightReversed])

theorem trimLeft_solid (h : isSolid a) (u v : Bytes) :
    trimLeft 0 (u ++ a :: v) = trimLeft 0 u ++ a :: v := by
  rw [trimLeft_eq]
  exact dropLead_of_stop (spaceBytes_of_isSolid beyondAscii_leading h)
    (spaceBytes_append beyondAscii_leading (isHighBit_of_isSolid h)) spaceBytes_le_length u v

theorem trimRightReversed_solid (h : isSolid a) (u v : Bytes) :
    trimRightReversed 0 (u ++ a :: v) = trimRightReversed 0 u ++ a :: v := by
  rw [trimRightReversed_eq]
  exact dropLead_of_stop (spaceBytes_of_isSolid beyondAscii_trailing h)
    (spaceBytes_append beyondAscii_trailing (isHighBit_of_isSolid h)) spaceBytes_le_length u v

theorem trimLeft_split (x : Bytes) : ∃ sp, x = sp ++ trimLeft 0 x ∧ ∀ c ∈ sp, isSpaceByte c := by
  rw [trimLeft_eq]
  exact dropLead_split (take_spaceBytes beyondAscii_leading) x (by simp)

theorem trimRightReversed_split (x : Bytes) :
    ∃ sp, x = sp ++ trimRightReversed 0 x ∧ ∀ c ∈ sp, isSpaceByte c := by
  rw [trimRightReversed_eq]
  exact dropLead_split (take_spaceBytes beyondAscii_trailing) x (by simp)

theorem trimRightReversed_isSuffix (x : Bytes) : trimRightReversed 0 x <:+ x := by
  rw [trimRightReversed_eq]
  exact dropLead_isSuffix 0 x

theorem trimLeft_append {sp lead : Bytes} (hsp : ∀ c ∈ sp, isAsciiSpace c)
    (hl : leadingSpace lead = 0) : trimLeft 0 (sp ++ lead) = lead := by
  induction sp with
  | nil =>
    cases lead with
    | nil => rfl
    | cons a w => simp [trimLeft, hl]
  | cons c sp ih =>
    have hc : isAsciiSpace c := hsp c (by simp)
    simpa [trimLeft, leadingSpace, hc] using ih fun d hd => hsp d (by simp [hd])

theorem leadingSpace_of_head {lead : Bytes} (h : lead.head?.all isSolid) :
    leadingSpace lead = 0 := by
  cases lead with
  | nil => rfl
  | cons a w => exact leadingSpace_of_isSolid (by simpa using h) w

theorem trimSpace_isPrefix {sp lead : Bytes} (hsp : ∀ c ∈ sp, isAsciiSpace c)
    (hl : lead.head?.all isSolid) : trimSpace (sp ++ lead) <+: lead := by
  rw [trimSpace, trimLeft_append hsp (leadingSpace_of_head hl), ← List.reverse_suffix,
    List.reverse_reverse]
  exact trimRightReversed_isSuffix lead.reverse

theorem isPrefix_trimSpace {sp lead : Bytes} (hsp : ∀ c ∈ sp, isAsciiSpace c)
    (hl : lead.head?.all isSolid) (ha : isSolid a) (hx : x ++ [a] <+: lead) :
    x ++ [a] <+: trimSpace (sp ++ lead) := by
  obtain ⟨y, rfl⟩ := hx
  have hreverse : (x ++ [a] ++ y).reverse = y.reverse ++ a :: x.reverse := by simp
  rw [trimSpace, trimLeft_append hsp (leadingSpace_of_head hl), hreverse,
    trimRightReversed_solid ha]
  simp

theorem trimSpace_split (x : Bytes) :
    ∃ sp sp', x = sp ++ (trimSpace x ++ sp') ∧ (∀ c ∈ sp, isSpaceByte c) ∧ ∀ c ∈ sp',
    isSpaceByte c := by
  obtain ⟨sp, hsp, hall⟩ := trimLeft_split x
  obtain ⟨sp', hsp', hall'⟩ := trimRightReversed_split (trimLeft 0 x).reverse
  refine ⟨sp, sp'.reverse, ?_, hall, by simpa using hall'⟩
  rw [trimSpace, ← List.reverse_append, ← hsp', List.reverse_reverse]
  exact hsp

theorem mem_trimSpace (ha : isSolid a) (hx : a ∈ x) : a ∈ trimSpace x := by
  obtain ⟨u, v, rfl⟩ := List.append_of_mem hx
  have hreverse : (trimLeft 0 u ++ a :: v).reverse =
    v.reverse ++ a :: (trimLeft 0 u).reverse := by simp
  rw [trimSpace, trimLeft_solid ha u v, hreverse, trimRightReversed_solid ha]
  simp

theorem leadingSpace_of_append {y : Bytes} (h : leadingSpace (x ++ y) = 0) :
    leadingSpace x = 0 := by
  rcases x with _ | ⟨a, _ | ⟨b, _ | ⟨c, x⟩⟩⟩
  · rfl
  · simp only [List.cons_append, leadingSpace] at h ⊢
    split_ifs at h ⊢
    rfl
  · simp only [List.cons_append, leadingSpace] at h ⊢
    split_ifs at h ⊢
    rfl
  · exact h

theorem leadingSpace_trimSpace (x : Bytes) : leadingSpace (trimSpace x) = 0 := by
  obtain ⟨sp, hsp⟩ := trimRightReversed_isSuffix (trimLeft 0 x).reverse
  refine leadingSpace_of_append (y := sp.reverse) ?_
  rw [trimSpace, ← List.reverse_append, hsp, List.reverse_reverse, leadingSpace_eq, trimLeft_eq]
  exact lead_dropLead rfl 0 x

theorem trimSpace_trimSpace (x : Bytes) : trimSpace (trimSpace x) = trimSpace x := by
  have hleft : trimLeft 0 (trimSpace x) = trimSpace x := by
    rw [trimLeft_eq]
    exact dropLead_of_lead ((leadingSpace_eq _).symm.trans (leadingSpace_trimSpace x))
  have hright (y : Bytes) : trimRightReversed 0 (trimRightReversed 0 y) =
      trimRightReversed 0 y := by
    rw [trimRightReversed_eq]
    exact dropLead_of_lead (lead_dropLead rfl 0 y)
  conv_lhs => rw [trimSpace, hleft]
  rw [trimSpace, List.reverse_reverse, hright]

/-! ## Case -/

def isCont (c : Byte) : Bool := 0x80 ≤ c && c ≤ 0xBF

/-- The first rune and its width; an invalid byte is U+FFFD. -/
def decodeRune (a : Byte) (w : Bytes) : Nat × Nat :=
  let invalid := (0xFFFD, 1)
  if a < 0x80 then (a.toNat, 1)
  else
    match w with
    | b :: w =>
      if 0xC2 ≤ a ∧ a ≤ 0xDF ∧ isCont b then ((a.toNat - 0xC0) * 64 + (b.toNat - 0x80), 2)
      else
        match w with
        | c :: w =>
          if 0xE0 ≤ a ∧ a ≤ 0xEF ∧ isCont b ∧ isCont c ∧ (a = 0xE0 → 0xA0 ≤ b) ∧
            (a = 0xED → b ≤ 0x9F) then
            ((a.toNat - 0xE0) * 4096 + (b.toNat - 0x80) * 64 + (c.toNat - 0x80), 3)
          else
            match w with
            | d :: _ =>
              if 0xF0 ≤ a ∧ a ≤ 0xF4 ∧ isCont b ∧ isCont c ∧ isCont d ∧ (a = 0xF0 → 0x90 ≤ b) ∧
                  (a = 0xF4 → b ≤ 0x8F) then
                ((a.toNat - 0xF0) * 262144 + (b.toNat - 0x80) * 4096 + (c.toNat - 0x80) * 64 +
                  (d.toNat - 0x80), 4)
              else invalid
            | [] => invalid
        | [] => invalid
    | [] => invalid

def encodeRune (r : Nat) : Bytes :=
  if r < 0x80 then [r.toUInt8]
  else if r < 0x800 then [(0xC0 + r / 64).toUInt8, (0x80 + r % 64).toUInt8]
  else if r < 0x10000 ∧ ¬ (0xD800 ≤ r ∧ r ≤ 0xDFFF) then
    [(0xE0 + r / 4096).toUInt8, (0x80 + r / 64 % 64).toUInt8, (0x80 + r % 64).toUInt8]
  else if 0x10000 ≤ r ∧ r ≤ 0x10FFFF then
    [(0xF0 + r / 262144).toUInt8, (0x80 + r / 4096 % 64).toUInt8, (0x80 + r / 64 % 64).toUInt8,
      (0x80 + r % 64).toUInt8]
  else [0xEF, 0xBF, 0xBD]

def mapRunes (f : Nat → Nat) : Nat → Bytes → Bytes
  | _, [] => []
  | skip + 1, _ :: w => mapRunes f skip w
  | 0, a :: w => encodeRune (f (decodeRune a w).1) ++ mapRunes f ((decodeRune a w).2 - 1) w

theorem isCont_of_lt (h : a < 0x80) : isCont a = false := by
  grind [isCont]

theorem decodeRune_append (h : a < 0x80) (b : Byte) (u v : Bytes) :
    decodeRune b (u ++ a :: v) = decodeRune b u ∧ (decodeRune b u).2 - 1 ≤ u.length := by
  have hcont := isCont_of_lt h
  rcases u with _ | ⟨c, _ | ⟨d, _ | ⟨e, u⟩⟩⟩
  · rcases v with _ | ⟨v₁, _ | ⟨v₂, v⟩⟩ <;> simp [decodeRune, hcont] <;> split_ifs <;> simp
  · rcases v with _ | ⟨v₁, v⟩ <;> simp [decodeRune, hcont] <;> split_ifs <;> simp
  · simp [decodeRune, hcont]
    split_ifs <;> simp
  · simp [decodeRune]
    split_ifs <;> simp

theorem mapRunes_append (f : Nat → Nat) (h : a < 0x80) (u v : Bytes) (hn : n ≤ u.length) :
    mapRunes f n (u ++ a :: v) = mapRunes f n u ++ mapRunes f 0 (a :: v) := by
  induction u generalizing n with
  | nil =>
    obtain rfl : n = 0 := by simpa using hn
    rfl
  | cons b u ih =>
    cases n with
    | succ n => exact ih (by simpa using hn)
    | zero =>
      obtain ⟨hsame, hlen⟩ := decodeRune_append h b u v
      rw [List.cons_append, mapRunes, mapRunes, hsame, ih hlen, List.append_assoc]

section upper

variable (upperRune : Nat → Nat)

def upperOf (r : Nat) : Nat := if r < 0x80 then (upperByte r.toUInt8).toNat else upperRune r

def mapUpper : Nat → Bytes → Bytes := mapRunes (upperOf upperRune)

def toUpper (s : Bytes) : Bytes :=
  if s.all fun c => c < 0x80 then s.map upperByte else mapUpper upperRune 0 s

theorem upperByte_lt (h : a < 0x80) : upperByte a < 0x80 := by
  grind [upperByte, isLower]

theorem mapUpper_cons (w : Bytes) (h : a < 0x80) :
    mapUpper upperRune 0 (a :: w) = upperByte a :: mapUpper upperRune 0 w := by
  have hn : a.toNat < 0x80 := by simpa [UInt8.lt_iff_toNat_lt] using h
  have hup : (upperByte a).toNat < 0x80 := by simpa [UInt8.lt_iff_toNat_lt] using upperByte_lt h
  simp [mapUpper, mapRunes, decodeRune, h, upperOf, hn, encodeRune, hup]

theorem mapUpper_of_ascii (h : ∀ c ∈ s, c < 0x80) : mapUpper upperRune 0 s = s.map upperByte := by
  induction s with
  | nil => rfl
  | cons a s ih =>
    rw [mapUpper_cons upperRune s (h a (by simp)), ih fun c hc => h c (by simp [hc]), List.map_cons]

theorem toUpper_eq_mapUpper (s : Bytes) : toUpper upperRune s = mapUpper upperRune 0 s := by
  unfold toUpper
  split
  · rename_i h
    exact (mapUpper_of_ascii upperRune (by simpa using h)).symm
  · rfl

theorem toUpper_append {u : Bytes} (v : Bytes) (h : ∀ c ∈ u, c < 0x80) :
    toUpper upperRune (u ++ v) = u.map upperByte ++ toUpper upperRune v := by
  simp only [toUpper_eq_mapUpper]
  induction u with
  | nil => rfl
  | cons a u ih =>
    rw [List.cons_append, mapUpper_cons upperRune _ (h a (by simp)),
      ih fun c hc => h c (by simp [hc])]
    rfl

theorem toUpper_append_cons (h : a < 0x80) (u v : Bytes) :
    toUpper upperRune (u ++ a :: v) =
      toUpper upperRune u ++ upperByte a :: toUpper upperRune v := by
  simp only [toUpper_eq_mapUpper, ← mapUpper_cons upperRune v h]
  exact mapRunes_append _ h u v (Nat.zero_le _)

end upper

theorem encodeRune_of_le {r : Nat} (hr : 0x80 ≤ r) : ∃ b w, encodeRune r = b :: w ∧ 0x80 ≤ b := by
  unfold encodeRune
  rw [if_neg (by omega)]
  split
  · exact ⟨_, _, rfl, by rw [UInt8.le_iff_toNat_le, Nat.toUInt8, UInt8.toNat_ofNat']; simp; omega⟩
  split
  · exact ⟨_, _, rfl, by rw [UInt8.le_iff_toNat_le, Nat.toUInt8, UInt8.toNat_ofNat']; simp; omega⟩
  split
  · exact ⟨_, _, rfl, by rw [UInt8.le_iff_toNat_le, Nat.toUInt8, UInt8.toNat_ofNat']; simp; omega⟩
  · exact ⟨_, _, rfl, by decide⟩

section lower

variable (lowerRune : Nat → Nat)

def lowerOf (r : Nat) : Nat := if r < 0x80 then (lowerByte r.toUInt8).toNat else lowerRune r

def toLower (s : Bytes) : Bytes :=
  if s.all fun c => c < 0x80 then s.map lowerByte else mapRunes (lowerOf lowerRune) 0 s

theorem encodeRune_ne_nil (r : Nat) : encodeRune r ≠ [] := by
  unfold encodeRune
  split
  · simp
  split
  · simp
  split
  · simp
  split
  · simp
  · simp

@[simp] theorem toLower_eq_nil : toLower lowerRune s = [] ↔ s = [] := by
  cases s with
  | nil => simp [toLower]
  | cons a w =>
    unfold toLower
    split
    · simp
    · simp [mapRunes, encodeRune_ne_nil]

end lower

/-! ## Valid UTF-8 -/

def IsScalar (r : Nat) : Prop := r < 0xD800 ∨ (0xE000 ≤ r ∧ r ≤ 0x10FFFF)

theorem isScalar_decodeRune (a : Byte) (w : Bytes) : IsScalar (decodeRune a w).1 := by
  rcases w with _ | ⟨b, _ | ⟨c, _ | ⟨d, w⟩⟩⟩ <;> simp [decodeRune] <;> split_ifs <;>
    simp_all [IsScalar, isCont, UInt8.le_iff_toNat_le, UInt8.lt_iff_toNat_lt,
      ← UInt8.toNat_inj] <;> omega

theorem exists_byte {k : Nat} (h : k < 256) : ∃ a : Byte, k.toUInt8 = a ∧ a.toNat = k :=
  ⟨_, rfl, Nat.mod_eq_of_lt h⟩

theorem decodeRune_encodeRune {r : Nat} (hr : IsScalar r) (t : Bytes) :
    ∃ a u, encodeRune r = a :: u ∧
    decodeRune a (u ++ t) = (r, u.length + 1) := by
  unfold IsScalar at hr
  unfold encodeRune
  split_ifs with h1 h2 h3 h4
  · obtain ⟨a, ha, hval⟩ := exists_byte (show r < 256 by omega)
    refine ⟨_, _, rfl, ?_⟩
    rw [ha]
    simp [decodeRune, UInt8.lt_iff_toNat_lt, hval, h1]
  · obtain ⟨a, ha, hval⟩ := exists_byte (show 0xC0 + r / 64 < 256 by omega)
    obtain ⟨b, hb, hvalb⟩ := exists_byte (show 0x80 + r % 64 < 256 by omega)
    refine ⟨_, _, rfl, ?_⟩
    rw [ha, hb]
    simp [decodeRune, isCont, UInt8.lt_iff_toNat_lt, UInt8.le_iff_toNat_le, hval, hvalb]
    rw [if_neg (by omega), if_pos (by omega)]
    exact congrArg (·, 2) (by omega)
  · obtain ⟨a, ha, hval⟩ := exists_byte (show 0xE0 + r / 4096 < 256 by omega)
    obtain ⟨b, hb, hvalb⟩ := exists_byte (show 0x80 + r / 64 % 64 < 256 by omega)
    obtain ⟨c, hc, hvalc⟩ := exists_byte (show 0x80 + r % 64 < 256 by omega)
    refine ⟨_, _, rfl, ?_⟩
    rw [ha, hb, hc]
    simp [decodeRune, isCont, UInt8.lt_iff_toNat_lt, UInt8.le_iff_toNat_le, ← UInt8.toNat_inj, hval,
      hvalb, hvalc]
    rw [if_neg (by omega), if_neg (by omega), if_pos (by omega)]
    exact congrArg (·, 3) (by omega)
  · obtain ⟨a, ha, hval⟩ := exists_byte (show 0xF0 + r / 262144 < 256 by omega)
    obtain ⟨b, hb, hvalb⟩ := exists_byte (show 0x80 + r / 4096 % 64 < 256 by omega)
    obtain ⟨c, hc, hvalc⟩ := exists_byte (show 0x80 + r / 64 % 64 < 256 by omega)
    obtain ⟨d, hd, hvald⟩ := exists_byte (show 0x80 + r % 64 < 256 by omega)
    refine ⟨_, _, rfl, ?_⟩
    rw [ha, hb, hc, hd]
    simp [decodeRune, isCont, UInt8.lt_iff_toNat_lt, UInt8.le_iff_toNat_le, ← UInt8.toNat_inj, hval,
      hvalb, hvalc, hvald]
    rw [if_neg (by omega), if_neg (by omega), if_neg (by omega), if_pos (by omega)]
    exact congrArg (·, 4) (by omega)
  · omega

theorem mapRunes_skip (f : Nat → Nat) (u t : Bytes) :
    mapRunes f u.length (u ++ t) = mapRunes f 0 t := by
  induction u with
  | nil => rfl
  | cons a u ih => exact ih

def sanitize (s : Bytes) : Bytes := mapRunes id 0 s

theorem sanitize_sanitize (s : Bytes) : sanitize (sanitize s) = sanitize s := by
  have hmap (k : Nat) : mapRunes id 0 (mapRunes id k s) = mapRunes id k s := by
    induction s generalizing k with
    | nil => cases k <;> rfl
    | cons a w ih =>
      cases k with
      | succ k => exact ih k
      | zero =>
        obtain ⟨b, u, heq, hdecode⟩ :=
          decodeRune_encodeRune (isScalar_decodeRune a w) (mapRunes id ((decodeRune a w).2 - 1) w)
        rw [mapRunes, id_eq, heq, List.cons_append, mapRunes, hdecode, id_eq, heq,
          Nat.add_sub_cancel, mapRunes_skip, ih]
        rfl
  exact hmap 0

end PgMux.GoStrings
