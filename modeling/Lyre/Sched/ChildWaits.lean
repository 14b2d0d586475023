import Lyre.Lib.Event
import Lyre.Sched.Process

/-!
# `waitpid` and `exit` of any process in `sched/sched.c`

The table of processes with the events of `lib/event.c` and the threads that wait for them. Any thread
may call `waitpid` for the process that it belongs to, and the sections of the calls of all threads come
in any order. An event is named by its process here, too; `pending` of the table is not used, as
`event_await` looks at the event.

`event_await` takes the lock of each event that it is passed, so that it does not return when it is
passed one of them twice.
-/

namespace Lyre.ChildWaits

open Events (setEvent)

structure World where
  procs : Procs.State
  sys : Events.System
  /-- The process has called `exit`. -/
  exited : Nat → Bool
  /-- The thread is in `waitpid`: its process, and the child that it waits for, or `none` for -1. -/
  call : Nat → Option (Nat × Option Nat)

namespace World

/-- `sched_new_process`. -/
def create (w : World) (oldProc : Option Nat) (addr : Nat) : World :=
  { w with
    procs := Procs.schedNewProcess w.procs oldProc addr
    sys := { w.sys with state := setEvent w.sys.state addr .zero }
    exited := Function.update w.exited addr false }

/-- `syscall_fork` that fails after the process has been created. -/
def forkFail (w : World) (oldProc addr : Nat) (garbage : Procs.Process) (event : Events.Event) :
    World :=
  let w := w.create (some oldProc) addr
  { w with
    procs := Procs.forkFail w.procs addr garbage
    sys := { w.sys with state := setEvent w.sys.state addr event } }

/-- `syscall_exit`; `slot` tells which threads find a free slot of the run queue. -/
def exit (w : World) (a : Nat) (slot : Nat → Bool) : Option World :=
  (Procs.syscallExit w.procs a).map fun procs =>
    { w with
      procs := procs
      sys := w.sys.trigger a false slot
      exited := Function.update w.exited a true }

/-- What `waitpid` passes to `event_await`. -/
def events (w : World) (a : Nat) (child : Option Nat) : List Nat :=
  child.elim (w.procs.proc a).childEvents fun c => [c]

/-- The child that `waitpid` takes for an index. -/
def childAt (w : World) (a : Nat) (child : Option Nat) (which : Nat) : Option Nat :=
  child.elim ((w.procs.proc a).children[which]?) some

/-- The end of `waitpid`, with an index of `event_await`. -/
def finish (w : World) (t a : Nat) (child : Option Nat) (which : Nat) : Option World :=
  (w.childAt a child which).map fun c =>
    { w with procs := Procs.reap w.procs a c, call := Function.update w.call t none }

/-- `waitpid` up to where it blocks or returns. -/
def waitpid (w : World) (t a : Nat) (pid : Int) (block : Bool) : Option World :=
  match Procs.waitpidTarget w.procs a pid with
  | .error _ => some w
  | .ok child =>
    if (w.events a child).Nodup then
      match w.sys.await t (w.events a child) block with
      | none => none
      | some (.ready which, sys) => { w with sys := sys }.finish t a child which
      | some (.wouldBlock, sys) => some { w with sys := sys }
      | some (.blocked, sys) =>
        some { w with sys := sys, call := Function.update w.call t (some (a, child)) }
    else none

/-- The second locked section of `event_await`, and the rest of `waitpid`. -/
def detach (w : World) (t : Nat) : Option World :=
  match w.sys.detach t, w.call t with
  | some (none, sys), _ => some { w with sys := sys, call := Function.update w.call t none }
  | some (some which, sys), some (a, child) => { w with sys := sys }.finish t a child which
  | _, _ => none

end World

/-! ## Steps -/

inductive Step where
  /-- `sched_new_process` without an old process, or `syscall_fork`. -/
  | create (oldProc : Option Nat) (addr : Nat)
  | forkFail (oldProc addr : Nat) (garbage : Procs.Process) (event : Events.Event)
  | exit (a : Nat) (slot : Nat → Bool)
  | waitpid (t a : Nat) (pid : Int) (block : Bool)
  /-- The scheduler runs the thread again. -/
  | wake (t : Nat)
  | detach (t : Nat)
  /-- A signal. -/
  | signal (t : Nat) (slot : Bool)

/-- The state after a step, if it can be taken: `ALLOC` returns memory that is not in use, a process
that calls is there, and a thread is inside of one call at most. -/
def next (w : World) : Step → Option World
  | .create oldProc addr => if w.procs.live addr then none else some (w.create oldProc addr)
  | .forkFail oldProc addr garbage event =>
    if w.procs.live addr then none else some (w.forkFail oldProc addr garbage event)
  | .exit a slot => if w.procs.live a then w.exit a slot else none
  | .waitpid t a pid block =>
    if w.sys.pc t = .idle ∧ w.procs.live a = true then w.waitpid t a pid block else none
  | .wake t => (w.sys.wake t).map fun sys => { w with sys := sys }
  | .detach t => w.detach t
  | .signal t slot => some { w with sys := w.sys.enqueue t true slot }

/-- Before the first process. -/
def start : World where
  procs := Procs.boot
  sys := Events.System.start (fun _ => 0) fun _ => ⟨true, false, 0, []⟩
  exited := fun _ => false
  call := fun _ => none

end Lyre.ChildWaits
