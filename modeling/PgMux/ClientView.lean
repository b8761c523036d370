import PgMux.Requests

/-!
# What the client executes

Statements and portals as the client's messages set them up, and the statement texts that a request
has executed. The proxy keeps no such record in the proxy mode.
-/

namespace PgMux.Relay

open Protocol

/-- Texts of the statements and portals, and of what was executed. -/
structure View where
  stmts : Bytes → Option Bytes
  portals : Bytes → Option Bytes
  executed : List Bytes
  batch : List Bytes

namespace View

def new : View := ⟨fun _ => none, fun _ => none, [], []⟩

def portalName (payload : Bytes) : Bytes := ((cstring payload).map Prod.fst).getD []

def next (w : View) (msg : Message) : View :=
  if msg.type = msgParse then
    { w with
      stmts := Function.update w.stmts (parseParseMessage msg.payload).1
        (parseParseMessage msg.payload).2 }
  else if msg.type = msgBind then
    { w with
      portals := Function.update w.portals (parseBindMessage msg.payload).1
        (w.stmts (parseBindMessage msg.payload).2) }
  else if msg.type = msgExecute then
    { w with executed := w.executed ++ (w.portals (portalName msg.payload)).toList }
  else if msg.type = msgClose then
    let close := parseCloseMessage msg.payload
    if close.1 = kindStatement then { w with stmts := Function.update w.stmts close.2 none }
    else { w with portals := Function.update w.portals close.2 none }
  else if msg.type = msgSync then { w with executed := [], batch := w.executed }
  else w

def texts (w : View) : Request → List Bytes
  | .forward msg =>
      extractQueryText msg.payload :: Router.splitStatements (extractQueryText msg.payload)
  | .synthesized query => [query]
  | .batch _ _ => w.batch
  | .describe _ => []

end View

structure Views where
  view : View
  ahead : View

namespace Views

def new : Views := ⟨View.new, View.new⟩

def read (w : Views) (msg : Message) : Views := { w with ahead := w.view.next msg }

def accept (w : Views) (admitted : Bool) : Views :=
  if admitted then { w with view := w.ahead } else w

@[simp] theorem ahead_accept (w : Views) (admitted : Bool) :
    (w.accept admitted).ahead = w.ahead := by
  cases admitted <;> rfl

end Views

end PgMux.Relay
