import PgMux.GoStrings

/-!
# The client's address at the admin server

What package net decides about texts is a parameter. A proxy appends the address of its peer to the
header it received.
-/

namespace PgMux.ClientAddress

open GoStrings

structure Net (Ip : Type) where
  splitHostPort : Bytes → Option Bytes
  parseIP : Bytes → Option Ip
  parseCIDR : Bytes → Option (Ip → Bool)

variable {Ip : Type} (net : Net Ip)

def listed (ip : Bytes) (entries : List Bytes) : Bool :=
  match net.parseIP ip with
  | none => false
  | some parsed => entries.any fun entry =>
    match net.parseCIDR entry with
    | some contains => contains parsed
    | none => (net.parseIP entry).isSome && entry = ip

def isTrustedProxy (ip : Bytes) (trustedProxies : List Bytes) : Bool := listed net ip trustedProxies

def isIPAllowed (clientIP : Bytes) (allowlist : List Bytes) : Bool := listed net clientIP allowlist

def remoteIP (remoteAddr : Bytes) : Bytes := (net.splitHostPort remoteAddr).getD remoteAddr

def extractClientIP (remoteAddr xff : Bytes) (trustedProxies : List Bytes) : Bytes :=
  if trustedProxies ≠ [] ∧ isTrustedProxy net (remoteIP net remoteAddr) trustedProxies ∧
    xff ≠ [] then
    trimSpace (xff.takeWhile (· ≠ comma))
  else remoteIP net remoteAddr

/-- The header behind a proxy whose peer has the address `a` and sent the header `x`. -/
def forwarded (x a : Bytes) : Bytes := if x = [] then a else x ++ ascii ", " ++ a

/-- An address as text: neither empty nor with a comma or white space around it. -/
def isAddress (a : Bytes) : Bool := a ≠ [] ∧ comma ∉ a ∧ trimSpace a = a

/-- The result is the real address just if the client sent nothing, or that address first. -/
theorem extractClientIP_eq_iff {remoteAddr a : Bytes} {trustedProxies : List Bytes}
    (ha : isAddress a) (htrusted : isTrustedProxy net (remoteIP net remoteAddr) trustedProxies)
    (x : Bytes) :
    extractClientIP net remoteAddr (forwarded x a) trustedProxies = a ↔
      x = [] ∨ trimSpace (x.takeWhile (· ≠ comma)) = a := by
  obtain ⟨hne, hcomma, htrim⟩ : a ≠ [] ∧ comma ∉ a ∧ trimSpace a = a := of_decide_eq_true ha
  have hproxies : trustedProxies ≠ [] := by
    rintro rfl
    unfold isTrustedProxy listed at htrusted
    split at htrusted <;> simp at htrusted
  by_cases hx : x = []
  · have hall : a.takeWhile (· ≠ comma) = a :=
      List.takeWhile_eq_self_iff.mpr fun c hc => by simpa using ne_of_mem_of_not_mem hc hcomma
    rw [extractClientIP, forwarded, if_pos hx, if_pos ⟨hproxies, htrusted, hne⟩, hall, htrim]
    simp [hx]
  · have hfirst : (x ++ ascii ", " ++ a).takeWhile (· ≠ comma) = x.takeWhile (· ≠ comma) := by
      rw [List.append_assoc, List.takeWhile_append]
      split
      · rename_i hlen
        have hself : x.takeWhile (· ≠ comma) = x := (List.takeWhile_prefix _).eq_of_length hlen
        rw [hself]
        exact List.append_nil x
      · rfl
    have hfull : x ++ ascii ", " ++ a ≠ [] := by simp [hx]
    rw [extractClientIP, forwarded, if_neg hx, if_pos ⟨hproxies, htrusted, hfull⟩, hfirst]
    simp [hx]

def textNet : Net Bytes := ⟨fun _ => none, some, fun _ => none⟩

theorem extractClientIP_of_own_entry :
    extractClientIP textNet (ascii "10.0.0.1")
      (forwarded (ascii " 6.6.6.6 ,10.9.9.9") (ascii "6.6.6.6")) [ascii "10.0.0.1"] =
      ascii "6.6.6.6" :=
  (extractClientIP_eq_iff textNet (by decide) (by decide) _).mpr (.inr (by decide))

/-- The first address of the header is the client's own: it passes the allowlist with an address it
does not have. -/
theorem allowed_by_own_header :
    isIPAllowed textNet (extractClientIP textNet (ascii "10.0.0.1")
      (forwarded (ascii "10.9.9.9") (ascii "6.6.6.6"))
      [ascii "10.0.0.1"]) [ascii "10.9.9.9"] = true ∧
    isIPAllowed textNet (ascii "6.6.6.6") [ascii "10.9.9.9"] = false := by
  decide

end PgMux.ClientAddress
