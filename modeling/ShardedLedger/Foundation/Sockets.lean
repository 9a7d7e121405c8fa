import Mathlib.Order.Basic
set_option autoImplicit false

/-!
# Foundation: sending on a socket whose other end may be gone

A connected stream socket as the process that sends on it has it.  The first send to
an end that has been closed raises no signal: what it sends is lost, and a reset comes
back.  Behind a send, or behind a reset that arrived after the end of the stream, the
next send raises `SIGPIPE`, which ends a process that has not provided for it.
-/

namespace ShardedLedger.Sockets

/-- A connected socket. -/
inductive Socket where
  /-- The other end is open. -/
  | connected
  /-- The other end is closed, and nothing was sent to it since. -/
  | closed
  /-- The other end is closed, and the next send raises the signal. -/
  | reset
  deriving DecidableEq, Repr

namespace Socket

/-- The other end is closed; if it `aborted`, the reset has arrived as well. -/
def peerCloses (aborted : Bool) : Socket → Socket
  | reset => reset
  | _ => if aborted then reset else closed

/-- A send.  Where it raises `SIGPIPE` there is no socket after it. -/
def send : Socket → Option Socket
  | connected => some connected
  | closed => some reset
  | reset => none

@[simp] theorem send_connected : send connected = some connected := rfl

@[simp] theorem send_closed : send closed = some reset := rfl

@[simp] theorem send_reset : send reset = none := rfl

theorem send_eq_none_iff {socket : Socket} : socket.send = none ↔ socket = reset := by
  cases socket <;> simp [send]

end Socket

end ShardedLedger.Sockets
