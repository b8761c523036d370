import PgMux.Requests

/-!
# Connections on loan

The functions that serve a read borrow one connection at a time. `Loans` lists what a machine must
do at each point for a property to hold again when such a function returns, whatever failed on the
way.
-/

namespace PgMux.Relay

open Effects Protocol
open Router (Session)
open Synthesizer (Registry)
open Pools (Conn Pool)

inductive LoanPhase where
  | fresh | asked | answered | spent
  deriving DecidableEq, Repr

def LoanPhase.after (phase : LoanPhase) (ok : Bool) : LoanPhase := if ok then phase else .spent

def Aside : Op → Prop
  | .client _ | .writerPool | .lookup _ _ | .store _ _ => True
  | _ => False

/-- `P` holds while nothing is on loan, `Loan` while something is. -/
structure Loans {σ : Type} (M : Machine Ans σ) (pre : Op → σ → Prop) (P : σ → Prop)
    (Loan : LoanPhase → Conn → Pool → σ → Prop) : Prop where
  aside : Stable M pre Aside P
  acquire : ∀ p s, P s → Safe M pre (acquire p) (fun c t => c.elim (P t) (Loan .fresh · p t)) s
  acquireReader : ∀ minLSN s, P s →
    Safe M pre (acquireReader minLSN) (fun r t => r.elim (P t) fun (c, p) => Loan .fresh c p t) s
  send : ∀ c p r s, Loan .fresh c p s →
    Safe M pre (send c r) (fun ok => Loan (LoanPhase.after .asked ok) c p) s
  relay : ∀ c p s, Loan .asked c p s → Safe M pre (relayUntilReady c)
    (fun ok => Loan (LoanPhase.after .answered ok) c p) s
  collect : ∀ c p s, Loan .asked c p s →
    Safe M pre (relayAndCollect c) (fun r => Loan (LoanPhase.after .answered r.isSome) c p) s
  reset : ∀ c p s, Loan .answered c p s →
    Safe M pre (resetConn c) (fun ok => Loan (LoanPhase.after .answered ok) c p) s
  release : ∀ c p s, Loan .answered c p s → Safe M pre (release c p) (fun _ => P) s
  discard : ∀ c p s, Loan .spent c p s → Safe M pre (discard c p) (fun _ => P) s

namespace Loans

variable {σ : Type} {M : Machine Ans σ} {pre : Op → σ → Prop} {P : σ → Prop}
  {Loan : LoanPhase → Conn → Pool → σ → Prop} (h : Loans M pre P Loan) {env : Env} {c : Conn}
    {p : Pool} {s : σ}

include h

theorem ask {relay : Run Bool} (r : Request)
    (hrelay : ∀ t, Loan .asked c p t →
      Safe M pre relay (fun ok => Loan (LoanPhase.after .answered ok) c p) t)
    (hs : Loan .fresh c p s) :
    Safe M pre (do if ← Relay.send c r then relay else return false)
      (fun ok => Loan (LoanPhase.after .answered ok) c p) s := by
  refine (h.send c p r s hs).bind fun ok t ht => ?_
  cases ok with
  | true => exact hrelay t ht
  | false => exact ht

theorem relayReply (collects : Bool) (hs : Loan .asked c p s) :
    Safe M pre (relayReply collects c)
      (fun r => Loan (LoanPhase.after .answered r.isSome) c p) s := by
  cases collects with
  | true => exact h.collect c p s hs
  | false =>
    refine (h.relay c p s hs).bind fun ok t ht => ?_
    cases ok <;> exact ht

theorem giveBack (resets : Bool) (hs : Loan .answered c p s) :
    Safe M pre (giveBack resets c (some p)) (fun _ => P) s := by
  cases resets with
  | false => exact (h.release c p s hs).bind fun _ _ ht => ht
  | true =>
    refine (h.reset c p s hs).bind fun ok t ht => ?_
    cases ok with
    | true => exact (h.release c p t ht).bind fun _ _ hu => hu
    | false => exact (h.discard c p t ht).bind fun _ _ hu => hu

theorem failWith (text : ErrorText) (goOn : Bool) (hs : P s) :
    Safe M pre (failWith text goOn) (fun _ => P) s :=
  Prog.All.safe (.bind (.bind (.perform trivial) fun _ => .pure _) fun _ => .pure _) h.aside hs

theorem onWriterPool {text : ErrorText} {goOn : Bool} {use : Conn → Run Bool} (resets : Bool)
    (huse : ∀ c p t, Loan .fresh c p t →
      Safe M pre (use c) (fun ok => Loan (LoanPhase.after .answered ok) c p) t)
    (hs : P s) :
    Safe M pre (onWriterPool (Relay.failWith text goOn) use resets) (fun _ => P) s := by
  refine Prog.All.then (.perform trivial) h.aside hs fun p t ht =>
    (h.acquire p t ht).bind fun conn u hu => ?_
  cases conn with
  | none => exact h.failWith text goOn hu
  | some c =>
    refine (huse c p u hu).bind fun ok x hx => ?_
    cases ok with
    | true => exact h.giveBack resets hx
    | false => exact (h.discard c p x hx).bind fun _ _ hy => hy

theorem fallbackToWriter (r : Request) (resets : Bool) (hs : P s) :
    Safe M pre (fallbackToWriter r resets) (fun _ => P) s :=
  h.onWriterPool resets (fun c p _ ht => h.ask r (fun t ht => h.relay c p t ht) ht) hs

theorem readFrom (minLSN : Option Nat) (r : Request) (collects resets : Bool) {keep : Run Unit}
    (hkeep : keep.All Aside) (hs : P s) :
    Safe M pre (readFrom minLSN r collects keep (Relay.fallbackToWriter r resets))
      (fun _ => P) s := by
  refine (h.acquireReader minLSN s hs).bind fun reader t ht => ?_
  cases reader with
  | none => exact h.fallbackToWriter r resets ht
  | some reader =>
    refine (h.send _ _ r t ht).bind fun ok u hu => ?_
    cases ok with
    | false => exact (h.discard _ _ u hu).bind fun _ _ hx => h.fallbackToWriter r resets hx
    | true =>
      refine (h.relayReply collects hu).bind fun reply x hx => ?_
      cases reply with
      | none => exact (h.discard _ _ x hx).bind fun _ _ hy => hy
      | some collected =>
        refine (h.release _ _ x hx).bind fun _ y hy => ?_
        exact Prog.All.then (all_onlyIf collected hkeep) h.aside hy fun _ _ hz => hz

theorem cachedOr (key : Option (Bool × Bytes)) {rest : Run Bool}
    (hrest : ∀ t, P t → Safe M pre rest (fun _ => P) t) (hs : P s) :
    Safe M pre (cachedOr key rest) (fun _ => P) s := by
  refine safe_cachedOr (fun _ _ => by trivial) h.aside (fun extended query t ht => ?_) hrest hs
  exact (Prog.All.perform trivial).safe h.aside ht

theorem handleReadQuery (cfg : Config) (msg : Message) (query : Bytes) (session : Session)
    (hs : P s) : Safe M pre (handleReadQuery env cfg msg query session) (fun _ => P) s :=
  h.cachedOr _ (fun _ ht => h.readFrom _ _ _ _ (.perform trivial) ht) hs

theorem handleExtendedRead (buf : List Message) (sync : Message) (hs : P s) :
    Safe M pre (handleExtendedRead env buf sync) (fun _ => P) s := by
  refine h.cachedOr _ (fun _ ht => h.readFrom _ _ _ _ ?_ ht) hs
  split
  · cases batchKey buf with
    | none => exact .pure _
    | some query => exact .perform trivial
  · exact .pure _

theorem handleSynthesizedRead (query : Bytes) (hs : P s) :
    Safe M pre (handleSynthesizedRead query) (fun _ => P) s :=
  h.readFrom _ _ _ _ (.pure _) hs

theorem handleMultiplexDescribe (payload : Bytes) (synth : Registry)
    (hdescribe : ∀ c p s, Loan .asked c p s → Safe M pre (relayDescribe c)
      (fun ok => Loan (LoanPhase.after .answered ok) c p) s)
    (hs : P s) : Safe M pre (handleMultiplexDescribe payload synth) (fun _ => P) s := by
  obtain ⟨text, hfail⟩ | ⟨stmt, _, hserve⟩ := handleMultiplexDescribe_cases payload synth
  · rw [hfail]
    exact h.failWith text true hs
  · rw [hserve]
    exact h.onWriterPool true (fun c p _ ht => h.ask _ (fun t ht => hdescribe c p t ht) ht) hs

end Loans

end PgMux.Relay
