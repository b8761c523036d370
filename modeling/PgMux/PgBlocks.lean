import PgMux.ClientView

/-!
# Transaction blocks of a server session

What a request does to the transaction block of a session is up to the server: it depends on the
grammar, on the tables and on what fails. The results about open blocks therefore take the server as
a parameter and hold for every server. `command` is the one of the concrete runs, whose texts are
BEGIN, COMMIT and single statements.
-/

namespace PgMux.PgBlocks

open Protocol Relay

inductive Status where
  | idle | inTx | failed
  deriving DecidableEq, Repr

def Status.fail : Status → Status
  | .idle => .idle
  | .inTx | .failed => .failed

/-- Every status that a server can leave behind a request, by what the client's messages stand for
and by the status the session had before. -/
abbrev Server := View → Status → Request → List Status

def Server.EndsIdle (server : Server) (w : View) (st : Status) (r : Request) : Prop :=
  ∀ st' ∈ server w st r, st' = .idle

instance (server : Server) (w : View) (st : Status) (r : Request) :
    Decidable (server.EndsIdle w st r) :=
  inferInstanceAs (Decidable (∀ _ ∈ _, _))

/-- A text of one command: it opens a block, closes the block, or is a statement that runs or fails.
-/
def command (st : Status) (query : Bytes) : List Status :=
  if query = ascii "BEGIN" then [if st = .failed then .failed else .inTx]
  else if query = ascii "COMMIT" then [.idle]
  else [st, st.fail]

def commands : Server
  | _, st, .forward msg => command st (extractQueryText msg.payload)
  | _, st, _ => [st, st.fail]

end PgMux.PgBlocks
