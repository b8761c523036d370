import PgMux.Decoding
import PgMux.Wire

/-!
# Authentication between a client and a backend

The loop passes the backend's requests to the client and the client's answers back, until the
backend accepts or refuses.
-/

namespace PgMux.Authentication

open Decoding Effects Protocol Wire

abbrev msgAuthentication : Byte := 82
abbrev msgBackendKeyData : Byte := 75

abbrev Key := UInt32 × UInt32

def keyData (key : Key) : Message :=
  ⟨msgBackendKeyData, putUint 4 key.1.toNat ++ putUint 4 key.2.toNat⟩

def authNeedsResponse (authType : Nat) : Bool :=
  authType == 3 || authType == 5 || authType == 10 || authType == 11

def asks (m : Message) : Bool :=
  m.type = msgAuthentication && (uint 4 m.payload).any (authNeedsResponse ·.1)

def relayAuth (key : Key) : Nat → Talk (Option Bool)
  | 0 => return none
  | n + 1 => do
    match ← read with
    | none => return some false
    | some msg =>
      if msg.type = msgBackendKeyData then
        if ← toClient (keyData key) then relayAuth key n else return some false
      else if ← toClient msg then
        if msg.type = msgErrorResponse then return some false
        else if msg.type = msgReadyForQuery then return some true
        else if asks msg then
          match ← fromClient with
          | none => return some false
          | some clientMsg => if ← request clientMsg then relayAuth key n else return some false
        else relayAuth key n
      else return some false

structure Transcript where
  fromBackend : List Message
  toClient : List Message
  fromClient : List Message
  toBackend : List Message

namespace Transcript

def next : (o : WireOp) → Transcript → WireAns o → Transcript
  | .read, s, msg => { s with fromBackend := s.fromBackend ++ msg.toList }
  | .toClient m, s, sent => if sent then { s with toClient := s.toClient ++ [m] } else s
  | .fromClient, s, msg => { s with fromClient := s.fromClient ++ msg.toList }
  | .request m, s, sent => if sent then { s with toBackend := s.toBackend ++ [m] } else s
  | _, s, _ => s

def ends (m : Message) : Bool := m.type = msgErrorResponse || m.type = msgReadyForQuery

/-- What the client is to have: the backend's messages with the key replaced. -/
def passed (key : Key) (s : Transcript) : List Message :=
  s.fromBackend.map fun m => if m.type = msgBackendKeyData then keyData key else m

structure Settled (key : Key) (s : Transcript) : Prop where
  client : s.toClient = s.passed key
  backend : s.toBackend = s.fromClient
  asked : s.fromClient.length = s.fromBackend.countP asks

/-- When each side is read and written. -/
def Due (key : Key) : WireOp → Transcript → Prop
  | .read, s => s.Settled key ∧ ∀ m ∈ s.fromBackend, ends m = false
  | .toClient m, s => s.toClient ++ [m] = s.passed key
  | .fromClient, s => s.toClient = s.passed key ∧ s.toBackend = s.fromClient ∧
      s.fromClient.length + 1 = s.fromBackend.countP asks
  | .request m, s => s.toBackend ++ [m] = s.fromClient
  | _, _ => False

/-- What may be returned once at most `n` messages were read. -/
structure Over (key : Key) (n : Nat) (r : Option Bool) (s : Transcript) : Prop where
  ready : r = some true → s.Settled key ∧ ∃ before m, s.fromBackend = before ++ [m] ∧
    m.type = msgReadyForQuery ∧ ∀ m ∈ before, ends m = false
  stuck : r = none → s.fromBackend.length = n

variable (key : Key) {s : Transcript}

theorem safe_relayAuth (n : Nat) (h : s.Due key .read) :
    Safe (.ofFun next) (Due key) (relayAuth key n) (Over key (s.fromBackend.length + n)) s := by
  induction n generalizing s with
  | zero => exact ⟨by simp, fun _ => rfl⟩
  | succ n ih =>
    -- a round is one message of the backend; the invariant is `Due key .read`
    refine ⟨h, ?_⟩
    obtain ⟨⟨hclient, hbackend, hasked⟩, hends⟩ := h
    have hfail (l : Nat) (s : Transcript) : s.Over key l (some false) := ⟨by simp, by simp⟩
    rintro (_ | msg) _ rfl
    · exact hfail ..
    have hfuel : s.fromBackend.length + (n + 1) =
      (s.fromBackend ++ [msg]).length + n := by simp; omega
    have hopen (hmsg : ends msg = false) : ∀ m ∈ s.fromBackend ++ [msg], ends m = false := by
      simpa [or_imp, forall_and, hmsg] using hends
    have hplain (hmsg : asks msg = false) :
      s.fromClient.length = (s.fromBackend ++ [msg]).countP asks := by simp [hmsg, hasked]
    have hsent : s.toClient ++ [if msg.type = msgBackendKeyData then keyData key else msg] =
        passed key { s with fromBackend := s.fromBackend ++ [msg] } := by
      simp [hclient, passed]
    rw [hfuel]
    by_cases hkey : msg.type = msgBackendKeyData
    · rw [if_pos hkey] at hsent
      simp only [Prog.bind, hkey, if_true]
      refine ⟨hsent, ?_⟩
      rintro (_ | _) _ rfl
      · exact hfail ..
      · refine ih (s := ⟨_, _, _, _⟩) ⟨⟨hsent, hbackend, hplain ?_⟩, hopen ?_⟩ <;> simp only [asks,
          ends, hkey] <;> rfl
    rw [if_neg hkey] at hsent
    simp only [Prog.bind, hkey, if_false]
    refine ⟨hsent, ?_⟩
    rintro (_ | _) _ rfl
    · exact hfail ..
    by_cases herror : msg.type = msgErrorResponse
    · simp only [Prog.bind, herror, if_true]
      exact hfail ..
    by_cases hready : msg.type = msgReadyForQuery
    · have hnone : asks msg = false := by simp only [asks, hready]; rfl
      simp only [Prog.bind, hready]
      exact ⟨fun _ => ⟨⟨hsent, hbackend, hplain hnone⟩, _, _, rfl, hready, hends⟩, by simp⟩
    replace hopen := hopen (by simp [ends, herror, hready])
    cases hasks : asks msg with
    | true =>
      have hcount : s.fromClient.length + 1 =
        (s.fromBackend ++ [msg]).countP asks := by simp [hasks, hasked]
      simp only [Prog.bind, herror, hready, if_true, if_false]
      refine ⟨⟨hsent, hbackend, hcount⟩, ?_⟩
      rintro (_ | clientMsg) _ rfl
      · exact hfail ..
      have hpassed : s.toBackend ++ [clientMsg] = s.fromClient ++ [clientMsg] := by rw [hbackend]
      refine ⟨hpassed, ?_⟩
      rintro (_ | _) _ rfl
      · exact hfail ..
      · exact ih (s := ⟨_, _, _, _⟩) ⟨⟨hsent, hpassed, List.length_append.trans hcount⟩, hopen⟩
    | false =>
      simp only [Prog.bind, herror, hready, if_true, if_false]
      exact ih (s := ⟨_, _, _, _⟩) ⟨⟨hsent, hbackend, hplain hasks⟩, hopen⟩

/-- In every run each side is written what the other one sent, with the key replaced, and is read
when it is due. -/
theorem relayAuth_transcript (key : Key) (n : Nat) :
    Safe (.ofFun next) (Due key) (relayAuth key n) (Over key n) ⟨[], [], [], []⟩ := by
  simpa using safe_relayAuth key n (s := ⟨[], [], [], []⟩) ⟨⟨rfl, rfl, rfl⟩, by simp⟩

end Transcript

end PgMux.Authentication
