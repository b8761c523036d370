import Mathlib.Algebra.GroupWithZero.Nat
import Mathlib.Data.Finmap
import PgMux.Decoding

/-!
# Startup parameters

A map is built in any order of its entries: an `AList` is one such order, and the `Finmap` it stands
for is the map.
-/

namespace PgMux.Protocol

open Decoding Literal

abbrev Params := Finmap fun _ : Bytes => Bytes

def paramBytes (p : Σ _ : Bytes, Bytes) : Bytes := p.1 ++ 0 :: (p.2 ++ [0])

def startupBody (params : AList fun _ : Bytes => Bytes) : Bytes :=
  putUint 2 3 ++ putUint 2 0 ++ params.entries.flatMap paramBytes ++ [0]

def buildStartupMessage (params : AList fun _ : Bytes => Bytes) : Bytes :=
  putUint 4 (4 + (startupBody params).length) ++ startupBody params

def readParams : Nat → Bytes → Params → Params
  | 0, _, params => params
  | n + 1, rest, params =>
    if 1 < rest.length then
      match cstring rest with
      | none => params
      | some (key, rest) =>
        match cstring rest with
        | none => params
        | some (val, rest) => readParams n rest (params.insert key val)
    else params

def parseStartupParams (payload : Bytes) : Nat × Nat × Option Params :=
  if payload.length < 4 then (0, 0, none)
  else (bigEndian (payload.take 2), bigEndian ((payload.take 4).drop 2),
    some (readParams payload.length (payload.drop 4) ∅))

variable {n : Nat} {l : List (Σ _ : Bytes, Bytes)}

/-- Each pair is at least two bytes long, so the length test stops the loop at the terminator and
nowhere else. -/
theorem readParams_flatMap (hn : (l.flatMap paramBytes).length < n)
    (hl : ∀ p ∈ l, 0 ∉ p.1 ∧ 0 ∉ p.2) (params : Params) :
    readParams n (l.flatMap paramBytes ++ [0]) params =
      l.foldl (fun m p => m.insert p.1 p.2) params := by
  induction l generalizing n params with
  | nil =>
    obtain ⟨n, rfl⟩ := Nat.exists_eq_add_of_lt hn
    rfl
  | cons p l ih =>
    obtain ⟨n, rfl⟩ := Nat.exists_eq_add_of_lt hn
    obtain ⟨hkey, hval⟩ := hl p List.mem_cons_self
    have hbytes : (p :: l).flatMap paramBytes ++ [0] =
        p.1 ++ 0 :: (p.2 ++ 0 :: (l.flatMap paramBytes ++ [0])) := by
      simp [paramBytes]
    have hlen : 1 < (p.1 ++ 0 :: (p.2 ++ 0 :: (l.flatMap paramBytes ++ [0]))).length := by
      simp only [List.length_append, List.length_cons]
      omega
    rw [hbytes, readParams, if_pos hlen, cstring_eq_some_iff.mpr ⟨hkey, rfl⟩]
    dsimp only
    rw [cstring_eq_some_iff.mpr ⟨hval, rfl⟩]
    refine ih ?_ (fun q hq => hl q (List.mem_cons_of_mem p hq)) _
    simp only [List.flatMap_cons, paramBytes, List.length_append, List.length_cons]
    omega

theorem lookup_foldl_insert (hl : l.NodupKeys) (params : Params) (k : Bytes) :
    (l.foldl (fun m p => m.insert p.1 p.2) params).lookup k =
      (l.dlookup k).or (params.lookup k) := by
  induction l generalizing params with
  | nil => rfl
  | cons p l ih =>
    obtain ⟨key, val⟩ := p
    obtain ⟨hkey, hl⟩ := List.nodupKeys_cons.mp hl
    rw [List.foldl_cons, ih hl]
    by_cases hk : k = key
    · subst hk
      rw [List.dlookup_eq_none.mpr hkey, List.dlookup_cons_eq, Finmap.lookup_insert]
      rfl
    · rw [Finmap.lookup_insert_of_ne _ hk,
        List.dlookup_cons_ne l (⟨key, val⟩ : Σ _ : Bytes, Bytes) hk]

theorem length_buildStartupMessage (order : AList fun _ : Bytes => Bytes) :
    (buildStartupMessage order).length =
      9 + (order.entries.map fun p => p.1.length + p.2.length + 2).sum := by
  have hpairs (l : List (Σ _ : Bytes, Bytes)) :
      (l.flatMap paramBytes).length = (l.map fun p => p.1.length + p.2.length + 2).sum := by
    rw [List.length_flatMap]
    refine congrArg List.sum (List.map_congr_left fun p _ => ?_)
    simp only [paramBytes, List.length_append, List.length_cons, List.length_nil]
    omega
  simp only [buildStartupMessage, startupBody, List.length_append, length_putUint, hpairs,
    List.length_singleton]
  omega

theorem length_word_iff (order : AList fun _ : Bytes => Bytes) :
    bigEndian ((buildStartupMessage order).take 4) = (buildStartupMessage order).length ↔
      (buildStartupMessage order).length < 2 ^ 32 := by
  have hbody : (buildStartupMessage order).length = 4 + (startupBody order).length := by
    rw [buildStartupMessage, List.length_append, length_putUint]
  constructor
  · intro h
    have hword := (putUint_bigEndian ((buildStartupMessage order).take 4)).2
    rw [h] at hword
    exact Nat.lt_of_lt_of_le hword (Nat.pow_le_pow_right (by decide) (List.length_take_le _ _))
  · intro hlen
    rw [hbody] at hlen ⊢
    rw [buildStartupMessage, List.take_left' length_putUint, bigEndian_putUint hlen]

/-- The parameters come back in any order, and the length word is right below 2 ^ 32. -/
theorem startup_round_trip (order : AList fun _ : Bytes => Bytes)
    (hnul : ∀ p ∈ order.entries, 0 ∉ p.1 ∧ 0 ∉ p.2) :
    parseStartupParams ((buildStartupMessage order).drop 4) = (3, 0, some order.toFinmap) ∧
      (bigEndian ((buildStartupMessage order).take 4) = (buildStartupMessage order).length ↔
        9 + (order.entries.map fun p => p.1.length + p.2.length + 2).sum < 2 ^ 32) := by
  have hbody : (buildStartupMessage order).drop 4 =
      0 :: 3 :: 0 :: 0 :: (order.entries.flatMap paramBytes ++ [0]) :=
    List.drop_left' length_putUint
  have hmap : order.entries.foldl (fun m p => m.insert p.1 p.2) ∅ = order.toFinmap := by
    refine Finmap.ext_lookup fun k => ?_
    rw [lookup_foldl_insert order.nodupKeys, Finmap.lookup_empty, Option.or_none]
    exact (Finmap.lookup_toFinmap k order).symm
  have hfuel : (order.entries.flatMap paramBytes).length <
      (0 :: 3 :: 0 :: 0 :: (order.entries.flatMap paramBytes ++ [0])).length := by
    simp only [List.length_append, List.length_cons]
    omega
  refine ⟨?_, length_buildStartupMessage order ▸ length_word_iff order⟩
  rw [hbody, parseStartupParams, if_neg (by simp)]
  refine Prod.ext rfl (Prod.ext rfl (congrArg some ?_))
  exact (readParams_flatMap hfuel hnul ∅).trans hmap

def emptyParams : AList fun _ : Bytes => Bytes :=
  ⟨[⟨ascii "user", []⟩, ⟨[], []⟩], List.nodupKeys_cons.mpr ⟨by decide, List.nodupKeys_singleton _⟩⟩

theorem startup_round_trip_empty :
    parseStartupParams ((buildStartupMessage emptyParams).drop 4) = (3, 0,
      some emptyParams.toFinmap) :=
  (startup_round_trip emptyParams (by decide)).1

def userParam (n : Nat) : AList fun _ : Bytes => Bytes :=
  ⟨[⟨ascii "user", List.replicate n 97⟩], List.nodupKeys_singleton _⟩

theorem le_length_userParam (n : Nat) : n ≤ (buildStartupMessage (userParam n)).length := by
  rw [length_buildStartupMessage]
  simp only [userParam, List.map_cons, List.sum_cons, List.length_replicate]
  omega

/-- The length word has 32 bits; the parameters may be longer. -/
theorem long_length_word : bigEndian ((buildStartupMessage (userParam (2 ^ 32))).take 4) ≠
    (buildStartupMessage (userParam (2 ^ 32))).length :=
  (length_word_iff _).not.mpr (Nat.not_lt.mpr (le_length_userParam (2 ^ 32)))

end PgMux.Protocol
