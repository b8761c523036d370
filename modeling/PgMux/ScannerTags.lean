import PgMux.DollarTag
import PgMux.PgDollar

/-!
# Tags of the scanners and tags of PostgreSQL

Every tag the scanners know opens a dollar quote for PostgreSQL too, whose tags may also have bytes
outside ASCII.
-/

namespace PgMux.ScannerTags

open DollarTag (parseDollarTag)
open PgLexer (openingTag closingTag isIdentStart)

def highTag (w : Bytes) : Bool := ((openingTag w).getD []).any isHighBit

theorem isTagChar_eq (c : Byte) : PgLexer.isTagChar c = (DollarTag.isTagChar c || isHighBit c) := by
  simp only [PgLexer.isTagChar, isIdentStart, DollarTag.isTagChar, DollarTag.isTagStart]
  cases isLetter c <;> cases isHighBit c <;> cases c == underscore <;> simp

theorem isIdentStart_eq (c : Byte) : isIdentStart c = (DollarTag.isTagStart c || isHighBit c) := by
  simp only [isIdentStart, DollarTag.isTagStart]
  cases isLetter c <;> cases isHighBit c <;> cases c == underscore <;> rfl

theorem parseDollarTag_eq_none {w : Bytes} (h : openingTag w = none) :
    parseDollarTag (dollar :: w) = none := by
  by_contra hsome
  obtain ⟨tag, htag⟩ := Option.ne_none_iff_exists'.mp hsome
  obtain ⟨t, v, ⟨hhead, hall⟩, hw, -⟩ := DollarTag.parseDollarTag_iff.mp htag
  have ht : PgLexer.TagText t := by
    refine ⟨fun c hc => by simp [isTagChar_eq, hall c hc], ?_⟩
    cases t with
    | nil => rfl
    | cons c t => simp_all [isIdentStart_eq]
  have hopen := PgLexer.openingTag_iff.mpr ⟨ht, v, (List.cons.inj hw).2⟩
  rw [h] at hopen
  cases hopen

theorem parseDollarTag_eq_some {w t : Bytes} (h : openingTag w = some t) (hh : highTag w = false) :
    parseDollarTag (dollar :: w) = some (closingTag t) := by
  obtain ⟨ht, v, rfl⟩ := PgLexer.openingTag_iff.mp h
  have hlow : ∀ c ∈ t, isHighBit c = false := by simpa [highTag, h] using hh
  refine DollarTag.parseDollarTag_iff.mpr ⟨t, v, ⟨?_, fun c hc => ?_⟩, rfl, by simp [closingTag]⟩
  · have hhead := ht.head
    cases t with
    | nil => rfl
    | cons c t => simpa [isIdentStart_eq, hlow c List.mem_cons_self] using hhead
  · simpa [isTagChar_eq, hlow c hc] using ht.chars c hc

end PgMux.ScannerTags
