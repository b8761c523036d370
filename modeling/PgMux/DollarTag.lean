import PgMux.Bytes

/-!
# Dollar-quote tags as the scanners see them

The proxy and the router each have a copy of `parseDollarTag`; they differ only in how they report
the end of the tag, so one definition serves both.
-/

namespace PgMux.DollarTag

def isTagStart (c : Byte) : Bool := isLetter c || c == underscore

def isTagChar (c : Byte) : Bool := isTagStart c || isDigit c

def parseDollarTag : Bytes → Option Bytes
  | [] => none
  | c :: w =>
    if c ≠ dollar then none
    else if w.head? = some dollar then some [dollar, dollar]
    else if w.head?.any isTagStart && (w.dropWhile isTagChar).head? == some dollar then
      some (dollar :: w.takeWhile isTagChar ++ [dollar])
    else none

theorem parseDollarTag_iff {w tag : Bytes} :
    parseDollarTag w = some tag ↔ ∃ t v, (t.head?.all isTagStart ∧ ∀ c ∈ t, isTagChar c) ∧
      w = dollar :: (t ++ dollar :: v) ∧ tag = dollar :: t ++ [dollar] := by
  cases w with
  | nil => simp [parseDollarTag]
  | cons c w =>
    by_cases hc : c = dollar
    · subst hc
      have hname : parseDollarTag (dollar :: w) =
          (nameBefore isTagStart isTagChar dollar w).map fun t => dollar :: t ++ [dollar] := by
        unfold parseDollarTag nameBefore
        split_ifs <;> simp_all
      have hdollar : isTagChar dollar = false := by decide
      have hstart : ∀ c, isTagStart c → isTagChar c := by simp +contextual [isTagChar]
      simp only [hname, Option.map_eq_some_iff, nameBefore_eq_some_iff hdollar hstart,
        List.cons.injEq, true_and]
      constructor
      · rintro ⟨t, ⟨ht, v, hw⟩, rfl⟩
        exact ⟨t, v, ht, hw, rfl⟩
      · rintro ⟨t, v, ht, hw, rfl⟩
        exact ⟨t, ⟨ht, v, hw⟩, rfl⟩
    · simp [parseDollarTag, hc]

end PgMux.DollarTag
