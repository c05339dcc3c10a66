import ToySQL.Spec.WQueue
import ToySQL.Spec.Connection

/-!
# The server

`main` of `server.cpp` with the workers `τ` it starts: the main thread accepts connections and
adds a `WorkItem` for each of them to the queue, a worker runs `ConnectionHandler::run`. The steps
are the sections of the queue, the calls of `accept`, and, in a worker, one result of `receive`
with what it leads to. A connection is named by the call of `accept` it comes from, a socket by
its descriptor; the kernel gives a descriptor that is not open to a new connection, and the
results of `receive` on a connection come from its peer.
-/

namespace ToySQL

/-- A `WorkItem`, which owns the stream with the socket `sd`. -/
structure WorkItem where
  conn : ℕ
  sd : ℕ
deriving DecidableEq

/-- A worker that has got an item, and its `char` array `input`. -/
structure Busy where
  item : WorkItem
  input : Str

structure Server (τ : Type) where
  /-- How many connections were accepted. -/
  accepted : ℕ := 0
  /-- What the main thread has made of `accept` and not added yet. -/
  item : Option WorkItem := none
  /-- The main thread is `none` there. -/
  queue : WQueue (Option τ) WorkItem := {}
  busy : τ → Option Busy := fun _ => none
  /-- The connections behind the open sockets. -/
  sockets : ℕ → Option ℕ := fun _ => none
  /-- What `receive` will return on a connection, before it returns 0 or less. -/
  unread : ℕ → List Str
  /-- The process has ended. -/
  ended : Bool := false

inductive ServerEvent (τ : Type) where
  | accept (item : WorkItem)
  | acceptFailed
  | queue (event : WEvent (Option τ) WorkItem)
  /-- A value was read from the connection `conn`, and the response was sent to it. -/
  | answer (t : τ) (conn : ℕ) (json : Json)
  | close (t : τ) (item : WorkItem)
  /-- An exception left `run`, which ends the process. -/
  | escape (t : τ) (conn : ℕ)
  /-- The peer does not read any more, and `send` ends the process. -/
  | sigpipe (t : τ) (conn : ℕ)
  /-- `receive` on a socket that is not open. -/
  | badSocket (t : τ) (item : WorkItem)

namespace Server

variable {τ : Type} [DecidableEq τ] (J : JsonText)

/-- The results of `receive` on the connections are `net`. -/
def start (net : ℕ → List Str) : Server τ := { unread := net }

/-- The body of the loop ends, and `item` is destroyed: the stream is deleted and its socket is
closed. -/
def release (s : Server τ) (t : τ) (item : WorkItem) : Server τ :=
  { s with
    busy := Function.update s.busy t none
    sockets := Function.update s.sockets item.sd none }

inductive Step : Server τ → ServerEvent τ → Server τ → Prop
  | accept {s sd} : s.ended = false → s.item = none → s.sockets sd = none →
      Step s (.accept ⟨s.accepted, sd⟩)
        { s with
          accepted := s.accepted + 1
          item := some ⟨s.accepted, sd⟩
          sockets := Function.update s.sockets sd (some s.accepted) }
  | acceptFailed {s} : s.ended = false → s.item = none → Step s .acceptFailed s
  | add {s item queue} : s.ended = false → s.item = some item →
    s.queue.Step (.add none item) queue →
      Step s (.queue (.add none item)) { s with item := none, queue }
  | wake {s ts queue} : s.ended = false → s.queue.Step (.wake ts) queue →
    Step s (.queue (.wake ts)) { s with queue }
  | wait {s t queue} : s.ended = false → s.busy t = none → s.queue.Step (.wait (some t)) queue →
      Step s (.queue (.wait (some t))) { s with queue }
  | remove {s t item queue input} : s.ended = false → s.busy t = none →
    s.queue.Step (.remove (some t) item) queue →
      Step s (.queue (.remove (some t) item))
        { s with queue, busy := Function.update s.busy t (some ⟨item, input⟩) }
  | answer {s t item input conn piece pieces json} :
    s.ended = false → s.busy t = some ⟨item, input⟩ →
      s.sockets item.sd = some conn → s.unread conn = piece :: pieces →
      J.parse (cString (ConnectionHandler.fill input piece)) = some json →
      Step s (.answer t conn json)
        { s with
          busy := Function.update s.busy t (some ⟨item, ConnectionHandler.fill input piece⟩)
          unread := Function.update s.unread conn pieces }
  | escape {s t item input conn piece pieces} : s.ended = false → s.busy t = some ⟨item, input⟩ →
      s.sockets item.sd = some conn → s.unread conn = piece :: pieces →
      J.parse (cString (ConnectionHandler.fill input piece)) = none →
      Step s (.escape t conn) { s with ended := true }
  | sigpipe {s t item input conn piece pieces json} :
    s.ended = false → s.busy t = some ⟨item, input⟩ →
      s.sockets item.sd = some conn → s.unread conn = piece :: pieces →
      J.parse (cString (ConnectionHandler.fill input piece)) = some json →
      Step s (.sigpipe t conn) { s with ended := true }
  | close {s t item input conn} : s.ended = false → s.busy t = some ⟨item, input⟩ →
      s.sockets item.sd = some conn → s.unread conn = [] → Step s (.close t item) (s.release t item)
  | badSocket {s t item input} : s.ended = false → s.busy t = some ⟨item, input⟩ →
    s.sockets item.sd = none →
      Step s (.badSocket t item) (s.release t item)

/-- An interleaving of the threads, from the start on. -/
inductive Run (net : ℕ → List Str) : List (ServerEvent τ) → Server τ → Prop
  | start : Run net [] (.start net)
  | step {events s event s'} : Run net events s → Step J s event s' → Run net (events ++ [event]) s'

end Server

/-! ## What a run shows -/

section Observations

variable {τ : Type} (events : List (ServerEvent τ))

def queueEvents : List (WEvent (Option τ) WorkItem) :=
  events.filterMap fun
    | .queue event => some event
    | _ => none

/-- The items of the accepted connections, in their order. -/
def acceptedItems : List WorkItem :=
  events.filterMap fun
    | .accept item => some item
    | _ => none

/-- The items the workers have got, in their order. -/
def takenItems : List WorkItem := removed (queueEvents events)

/-- The items whose sockets were closed. -/
def closedItems : List WorkItem :=
  events.filterMap fun
    | .close _ item => some item
    | _ => none

/-- The values read from a connection, each of which was answered. -/
def answersOn (conn : ℕ) : List Json :=
  events.filterMap fun
    | .answer _ c json => if c = conn then some json else none
    | _ => none

/-- The values read, each with its connection, in the order of reading. -/
def transcript : List (ℕ × Json) :=
  events.filterMap fun
    | .answer _ c json => some (c, json)
    | _ => none

/-- What was read of the connection of an item. -/
def soFar (item : WorkItem) : List (ℕ × Json) :=
  (answersOn events item.conn).map fun json => (item.conn, json)

end Observations

/-- What `run` reads of the connection of an item alone. -/
def alone (J : JsonText) (net : ℕ → List Str) (item : WorkItem) : List (ℕ × Json) :=
  (ConnectionHandler.run J [] (net item.conn)).parsed.map fun json => (item.conn, json)

/-- Work of a worker, other than waiting for an item. -/
def ServerEvent.serves {τ : Type} : ServerEvent τ → Bool
  | .queue (.remove _ _) | .answer _ _ _ | .close _ _ | .escape _ _ | .sigpipe _ _
    | .badSocket _ _ => true
  | _ => false

end ToySQL
