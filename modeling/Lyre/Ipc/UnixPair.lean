import Lyre.Ipc.Pipe
import Lyre.Lib.Event

/-!
# Readers and writers of a connected pair of `ipc/socket/unix.c`

Two sockets, each the peer of the other, and threads that call `unix_read`, `unix_recvmsg` and
`unix_write` on them. A socket has one event. What happens to the buffers is in `Lyre.Ipc.Pipe`;
here are the locks, the events and the order of the steps: a locked section up to its
`event_trigger`, the trigger itself, and the sections of `event_await`.
-/

namespace Lyre.UnixPair

open Events Pipes

/-- The two sockets. -/
inductive End where
  | a
  | b
  deriving DecidableEq, Repr

def End.peer : End → End
  | .a => .b
  | .b => .a

@[simp] theorem End.peer_peer (e : End) : e.peer.peer = e := by cases e <;> rfl

theorem End.peer_ne (e : End) : e.peer ≠ e := by cases e <;> decide

theorem End.eq_or_eq_peer (e e' : End) : e' = e ∨ e' = e.peer := by
  cases e <;> cases e' <;> decide

/-- The number of the socket's event. -/
def End.event : End → Nat
  | .a => 0
  | .b => 1

/-- A call on a socket; `allocated` says that `alloc` returns memory. -/
inductive Op where
  | read (count : Nat)
  | recvmsg (lens : List Nat) (allocated : Bool)
  | write (buf : List Byte)
  deriving DecidableEq, Repr

/-- A call that takes bytes out of the buffer of its own socket. -/
def Op.reads : Op → Bool
  | .read _ => true
  | .recvmsg .. => true
  | .write _ => false

/-- The socket whose buffer and lock the call uses. -/
def Op.buffer (op : Op) (e : End) : End := if op.reads then e else e.peer

/-- `&this->event` for a reader, `&peer->event` for a writer. -/
def Op.awaited : Op → End → Nat
  | .read _, e => e.event
  | .recvmsg .., e => e.event
  | .write _, e => e.peer.event

/-- `&this->peer->event` for a reader, `&peer->event` for a writer. -/
def Op.triggered : Op → End → Nat
  | .read _, e => e.peer.event
  | .recvmsg .., e => e.peer.event
  | .write _, e => e.peer.event

/-- Where a thread is. -/
inductive Pc where
  | idle
  /-- Before `spinlock_acquire`. -/
  | locking (op : Op) (e : End) (nonblock : Bool)
  /-- Before `event_trigger`, the lock being held; `again` says that the call goes on to
  `event_await`. -/
  | triggering (op : Op) (e : End) (nonblock again : Bool)
  /-- Before or inside of `event_await`. -/
  | awaiting (op : Op) (e : End) (nonblock : Bool)
  deriving DecidableEq, Repr

structure State where
  sys : System
  ring : End → Ring
  status : End → Status
  locked : End → Bool
  pc : Nat → Pc

def State.setPc (s : State) (t : Nat) (p : Pc) : State := { s with pc := Function.update s.pc t p }

def State.setLocked (s : State) (e : End) (b : Bool) : State :=
  { s with locked := Function.update s.locked e b }

/-- The socket as the functions of `Lyre.Ipc.Pipe` see it. -/
def State.socket (s : State) (e : End) : UnixSocket := ⟨s.ring e, s.status e, s.status e.peer⟩

def State.setSocket (s : State) (e : End) (u : UnixSocket) : State :=
  { s with
    ring := Function.update s.ring e u.ring
    status := Function.update (Function.update s.status e u.status) e.peer u.peer }

/-- The call on the buffer, up to `event_trigger` or `event_await`. -/
def Op.run (op : Op) (nonblock : Bool) (u : UnixSocket) : Result × UnixSocket :=
  match op with
  | .read count => unixRead u nonblock false count
  | .recvmsg lens allocated => unixRecvmsg u nonblock false allocated lens
  | .write buf => unixWrite u nonblock false buf

/-- `unix_recvmsg` triggers the event of its peer also if there is nothing to read. -/
def Op.triggersEmpty : Op → Bool
  | .recvmsg .. => true
  | _ => false

/-- Where a call goes on with the lock of the buffer held: to its trigger, to `event_await`, or
back to its caller. -/
def State.leave (s : State) (t : Nat) (op : Op) (e : End) (nonblock : Bool) : Result → State
  | .bytes _ | .count _ => s.setPc t (.triggering op e nonblock false)
  | .failed => (s.setLocked (op.buffer e) false).setPc t .idle
  | .wait =>
    if op.triggersEmpty then s.setPc t (.triggering op e nonblock true)
    else (s.setLocked (op.buffer e) false).setPc t (.awaiting op e nonblock)
  | .error _ =>
    if op.triggersEmpty then s.setPc t (.triggering op e nonblock false)
    else (s.setLocked (op.buffer e) false).setPc t .idle

/-- The locked section of a call. -/
def State.section (s : State) (t : Nat) (op : Op) (e : End) (nonblock : Bool) : State :=
  let (r, u) := op.run nonblock (s.socket (op.buffer e))
  ((s.setSocket (op.buffer e) u).setLocked (op.buffer e) true).leave t op e nonblock r

/-! ## Steps -/

inductive Step where
  | call (op : Op) (e : End) (nonblock : Bool)
  | lock
  | trigger (slot : Nat → Bool)
  | await
  | wake
  | detach
  /-- A signal for the thread. -/
  | signal (slot : Bool)

/-- The state after a step of thread `t`, if the step can be taken. -/
def next (s : State) (t : Nat) : Step → Option State
  | .call op e nonblock =>
    if s.pc t = .idle then some (s.setPc t (.locking op e nonblock)) else none
  | .lock =>
    match s.pc t with
    | .locking op e nonblock =>
      if s.locked (op.buffer e) then none else some (s.section t op e nonblock)
    | _ => none
  | .trigger slot =>
    match s.pc t with
    | .triggering op e nonblock again =>
      let s := { s with sys := s.sys.trigger (op.triggered e) false slot }.setLocked (op.buffer e) false
      some (s.setPc t (if again then .awaiting op e nonblock else .idle))
    | _ => none
  | .await =>
    match s.pc t with
    | .awaiting op e nonblock =>
      if s.sys.pc t = .idle then
        (s.sys.await t [op.awaited e] true).map fun r =>
          match r.1 with
          | .blocked => { s with sys := r.2 }
          | _ => { s with sys := r.2 }.setPc t (.locking op e nonblock)
      else none
    | _ => none
  | .wake => (s.sys.wake t).map fun sys => { s with sys }
  | .detach =>
    match s.pc t with
    | .awaiting op e nonblock =>
      (s.sys.detach t).map fun r =>
        match r.1 with
        | some _ => { s with sys := r.2 }.setPc t (.locking op e nonblock)
        -- `EINTR`: the lock is released once more.
        | none => ({ s with sys := r.2 }.setLocked (op.buffer e) false).setPc t .idle
    | _ => none
  | .signal slot => some { s with sys := s.sys.enqueue t true slot }

/-- Two sockets that were just connected. Connecting has triggered events and set status bits. -/
def start (pending : Nat → Nat) (status : End → Status) : State where
  sys := System.start pending (fun _ => ⟨true, false, 0, []⟩)
  ring := fun _ => socketCreateUnix.ring
  status := status
  locked := fun _ => false
  pc := fun _ => .idle

end Lyre.UnixPair
