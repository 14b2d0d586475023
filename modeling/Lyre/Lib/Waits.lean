import Lyre.Ipc.Pipe
import Lyre.Lib.Event
import Lyre.Lib.Resource
import Lyre.Sched.Process

/-!
# System calls that wait

`syscall_ppoll`, `syscall_waitpid`, `syscall_futex_wait`, `pipe_read` and `pipe_write` up to
`event_await`, and the threads inside of it. What the calls return is modelled where each of them is;
here it is the events that count, and how many of them there are. The array `events` of
`syscall_ppoll` has `MAX_PPOLL_FDS` elements. `attach_listeners` panics when a thread waits for more
than `MAX_EVENTS` events, and when an event has `EVENT_MAX_LISTENERS` listeners.

`lock_events` takes the lock of each event in turn. A thread that waits for an event twice never gets
the lock the second time.
-/

namespace Lyre.Waits

open Events Descriptors

/-- What the calls look at. Events are numbers, those of resources and processes as well. -/
structure World where
  files : Descriptors.State
  procs : Procs.State
  pipe : Nat → Pipes.Pipe
  /-- `status` of a resource. -/
  status : Nat → BitVec 16
  resEvent : Nat → Nat
  procEvent : Nat → Nat
  futexHashmap : Nat → Option Nat

/-- A call that waits: for which events, in a loop that may wait once more, and with the
descriptions that `syscall_ppoll` has taken. -/
structure Waiting where
  events : List Nat
  again : Bool
  held : List (Nat × Nat)

/-- Where a thread is. -/
inductive Pc where
  | idle
  /-- Inside of `event_await`. -/
  | inside (w : Waiting)
  /-- `event_await` has returned. -/
  | returned (w : Waiting)
  /-- In `lock_events`, for a lock that the thread holds. -/
  | spinning

inductive Fault where
  /-- A write behind the end of an array. -/
  | overrun
  | panic
  deriving DecidableEq, Repr

structure State where
  sys : Events.System
  world : World
  pc : Nat → Pc
  fault : Option Fault

variable (H : Headers)

def State.setPc (s : State) (t : Nat) (pc : Pc) : State :=
  { s with pc := Function.update s.pc t pc }

/-- `event_await` up to `sched_yield`. -/
def State.await (s : State) (t : Nat) (w : Waiting) (block : Bool) : State :=
  if w.events.Nodup then
    match s.sys.await t w.events block with
    | none => { s with fault := some .panic }
    | some (.blocked, sys) => { s with sys }.setPc t (.inside w)
    | some (_, sys) => { s with sys }.setPc t (.returned w)
  else s.setPc t .spinning

/-! ## The calls -/

/-- `events[event_count++] = event`. -/
def writeEvent (events : List Nat) (event : Nat) : Option (List Nat) :=
  if events.length < maxPpollFds then some (events ++ [event]) else none

def writeEvents : List Nat → List Nat → Option (List Nat)
  | events, [] => some events
  | events, e :: es => (writeEvent events e).bind fun events => writeEvents events es

/-- The events of the descriptors that `syscall_ppoll` has to wait for. -/
def polled (s : State) (files : Descriptors.State) (scan : Scan) : List Nat :=
  scan.held.map fun h => s.world.resEvent (files.description h.2).res

/-- `timeout` is what `timer_new` returns, the event of the timer or `NULL`, if there is a timeout. -/
def syscallPpoll (s : State) (t p : Nat) (fds : List Pollfd) (timeout : Option (Option Nat)) :
    State :=
  if fds.length = 0 ∨ maxPpollFds < fds.length then s
  else
    let (files, scan) := ppollScan H p s.world.status s.world.files 0 fds
    let cleanup := { s with world := { s.world with files := releaseHeld files scan.held } }
    let s := { s with world := { s.world with files } }
    match writeEvents [] (polled s files scan) with
    | none => { s with fault := some .overrun }
    | some events =>
      if scan.ret ≠ 0 then cleanup
      else
        match timeout with
        | none => s.await t ⟨events, true, scan.held⟩ true
        | some none => cleanup
        | some (some timer) =>
          match writeEvent events timer with
          | none => { s with fault := some .overrun }
          | some events => s.await t ⟨events, true, scan.held⟩ true

def syscallWaitpid (s : State) (t p : Nat) (pid : Int) (wnohang : Bool) : State :=
  match Procs.waitpidTarget s.world.procs p pid with
  | .error _ => s
  | .ok none =>
    s.await t ⟨(s.world.procs.proc p).childEvents.map s.world.procEvent, false, []⟩ (!wnohang)
  | .ok (some child) => s.await t ⟨[s.world.procEvent child], false, []⟩ (!wnohang)

/-- `expected` says that `*ptr` is the expected value; a new event gets the number `addr`. -/
def syscallFutexWait (s : State) (t phys addr : Nat) (expected : Bool) : State :=
  if expected = false then s
  else
    match s.world.futexHashmap phys with
    | some e => s.await t ⟨[e], false, []⟩ true
    | none =>
      { s with
        sys := { s.sys with state := setEvent s.sys.state addr .zero }
        world := { s.world with
          futexHashmap := Function.update s.world.futexHashmap phys (some addr) } }.await
        t ⟨[addr], false, []⟩ true

/-- A read or a write of a pipe that has come to a result, or has to wait for the pipe. -/
def pipeResult (s : State) (t pipe : Nat) : Pipes.Result × Pipes.Pipe → State
  | (.wait, _) => s.await t ⟨[s.world.resEvent pipe], true, []⟩ true
  | (_, v) => { s with world := { s.world with pipe := Function.update s.world.pipe pipe v } }

def pipeRead (s : State) (t pipe count : Nat) (nonblock : Bool) : State :=
  pipeResult s t pipe (Pipes.pipeRead (s.world.pipe pipe) nonblock false count)

def pipeWrite (s : State) (t pipe : Nat) (buf : List Pipes.Byte) : State :=
  pipeResult s t pipe (Pipes.pipeWrite (s.world.pipe pipe) false buf)

/-! ## Steps -/

inductive Request where
  | ppoll (fds : List Pollfd) (timeout : Option (Option Nat))
  | waitpid (pid : Int) (wnohang : Bool)
  | futexWait (phys addr : Nat) (expected : Bool)
  | pipeRead (pipe count : Nat) (nonblock : Bool)
  | pipeWrite (pipe : Nat) (buf : List Pipes.Byte)

def Request.run (s : State) (t p : Nat) : Request → State
  | .ppoll fds timeout => syscallPpoll H s t p fds timeout
  | .waitpid pid wnohang => syscallWaitpid s t p pid wnohang
  | .futexWait phys addr expected => syscallFutexWait s t phys addr expected
  | .pipeRead pipe count nonblock => Waits.pipeRead s t pipe count nonblock
  | .pipeWrite pipe buf => Waits.pipeWrite s t pipe buf

inductive Step where
  /-- A thread of the process `p` makes a call. -/
  | request (t p : Nat) (r : Request)
  | wake (t : Nat)
  | detach (t : Nat)
  /-- The loop around `event_await` takes another turn. -/
  | again (t : Nat)
  /-- The call returns. -/
  | leave (t : Nat)
  | trigger (e : Nat) (drop : Bool) (slot : Nat → Bool)
  | enqueue (t : Nat) (bySignal slot : Bool)
  /-- Processes, descriptors, pipes and futexes come and go. -/
  | world (v : World)

/-- The state after a step, if the step can be taken. After a fault there is none. -/
def next (s : State) (c : Step) : Option State :=
  if s.fault.isSome then none
  else
    match c with
    | .request t p r =>
      match s.pc t with
      | .idle => some (r.run H s t p)
      | _ => none
    | .wake t => (s.sys.wake t).map fun sys => { s with sys }
    | .detach t =>
      match s.pc t with
      | .inside w => (s.sys.detach t).map fun r => { s with sys := r.2 }.setPc t (.returned w)
      | _ => none
    | .again t =>
      match s.pc t with
      | .returned w => if w.again then some (s.await t w true) else none
      | _ => none
    | .leave t =>
      match s.pc t with
      | .returned w =>
        some ({ s with world := { s.world with
          files := releaseHeld s.world.files w.held } }.setPc t .idle)
      | _ => none
    | .trigger e drop slot => some { s with sys := s.sys.trigger e drop slot }
    | .enqueue t bySignal slot => some { s with sys := s.sys.enqueue t bySignal slot }
    | .world v => some { s with world := v }

/-- Nobody waits yet. -/
def start (pending : Nat → Nat) (thread : Nat → Thread) (world : World) : State where
  sys := System.start pending thread
  world := world
  pc := fun _ => .idle
  fault := none

end Lyre.Waits
