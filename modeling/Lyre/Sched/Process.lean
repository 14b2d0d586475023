import Lyre.Lib.Errno
import Lyre.Lib.Vector
import Mathlib.Logic.Function.Basic

/-!
# The table of processes in `sched/sched.c`

A `struct process` is named by its address. The pid of a process is its index in `processes` at the
time of its creation, as an `int`, and `waitpid` uses a pid as an index. A child that has been
waited for leaves `processes`, and its memory is not freed.

What `event_await` returns is an argument of `waitpid`: an index of an event that is pending.
-/

namespace Lyre.Procs

/-- The fields of `struct process` that are looked at; an event is named by its process. -/
structure Process where
  pid : Int
  ppid : Int
  children : List Nat
  childEvents : List Nat
  /-- `event.pending`. -/
  pending : Nat
  deriving DecidableEq, Repr

structure State where
  proc : Nat → Process
  processes : List Nat
  /-- The address is in use. -/
  live : Nat → Bool

def setProc (s : State) (a : Nat) (v : Process) : State :=
  { s with proc := Function.update s.proc a v }

/-- A `size_t` that is stored in an `int`. -/
def toInt32 (n : Nat) : Int := (BitVec.ofNat 32 n).toInt

/-- The child is put in the two vectors of its parent. -/
def addChild (s : State) (parent child : Nat) : State :=
  setProc s parent { s.proc parent with
    children := (s.proc parent).children ++ [child]
    childEvents := (s.proc parent).childEvents ++ [child] }

/-- `sched_new_process`, if there is memory for it; `addr` is what `ALLOC` returns. -/
def schedNewProcess (s : State) (oldProc : Option Nat) (addr : Nat) : State :=
  let ppid := match oldProc with
    | some old => (s.proc old).pid
    | none => 0
  let s := { s with
    proc := Function.update s.proc addr ⟨toInt32 s.processes.length, ppid, [], [], 0⟩
    processes := s.processes ++ [addr]
    live := Function.update s.live addr true }
  match oldProc with
  | some old => addChild s old addr
  | none => s

/-- `fail` in `syscall_fork`: the new process is freed, and stays in `processes` and in the vectors
of its parent. What is in its memory then is arbitrary. -/
def forkFail (s : State) (addr : Nat) (garbage : Process) : State :=
  { setProc s addr garbage with live := Function.update s.live addr false }

/-- The loop of `syscall_exit` over the children. -/
def reparent (s : State) (pid1 : Nat) (children : List Nat) : State :=
  children.foldl (fun s child => addChild s pid1 child) s

/-- `syscall_exit`; `none` if there is no second process, or if the process is that one and the
loop over its own children does not end. -/
def syscallExit (s : State) (a : Nat) : Option State :=
  match vectorItem s.processes 1 with
  | none => none
  | some pid1 =>
    if pid1 = a ∧ (s.proc a).children ≠ [] then none
    else
      let s := reparent s pid1 (s.proc a).children
      some (setProc s a { s.proc a with pending := (s.proc a).pending + 1 })

/-- The process that `waitpid` waits for before `event_await`, or -1 with the error number; `none`
if it waits for every child. -/
def waitpidTarget (s : State) (a : Nat) (pid : Int) : Except Errno (Option Nat) :=
  if pid = -1 then
    if (s.proc a).children.length = 0 then .error .echild else .ok none
  else if pid < -1 ∨ pid = 0 then .error .einval
  else if (s.proc a).children.length = 0 then .error .echild
  else
    match vectorItem s.processes pid with
    | none => .error .echild
    | some child => if (s.proc child).ppid ≠ (s.proc a).pid then .error .echild else .ok (some child)

/-- The event that `event_await` returns the index of, and the child that is taken for it. -/
def waitpidChild (s : State) (a : Nat) (pid : Int) (which : Nat) : Option (Nat × Nat) :=
  match waitpidTarget s a pid with
  | .error _ => none
  | .ok (some child) => some (child, child)
  | .ok none =>
    match (s.proc a).childEvents[which]?, (s.proc a).children[which]? with
    | some event, some child => some (event, child)
    | _, _ => none

/-- The child leaves the vectors. -/
def reap (s : State) (a child : Nat) : State :=
  let s := setProc s a { s.proc a with
    childEvents := vectorRemoveByValue (s.proc a).childEvents child
    children := vectorRemoveByValue (s.proc a).children child }
  { s with processes := vectorRemoveByValue s.processes child }

/-- `syscall_waitpid` where `event_await` returns an index: the trigger of that event is consumed.
In all other cases nothing changes. -/
def syscallWaitpid (s : State) (a : Nat) (pid : Int) (which : Nat) : State :=
  match waitpidChild s a pid which with
  | none => s
  | some (event, child) =>
    if (s.proc event).pending = 0 then s
    else
      reap (setProc s event { s.proc event with pending := (s.proc event).pending - 1 }) a child

/-! ## Runs -/

inductive Call where
  /-- `sched_new_process` without an old process, or `syscall_fork`. -/
  | create (oldProc : Option Nat) (addr : Nat)
  /-- `syscall_fork` that fails after the process has been created. -/
  | forkFail (oldProc addr : Nat) (garbage : Process)
  | exit (a : Nat)
  | waitpid (a : Nat) (pid : Int) (which : Nat)

/-- `none` if the call does not return; `ALLOC` returns memory that is not in use. -/
def next (s : State) : Call → Option State
  | .create oldProc addr => if s.live addr then none else some (schedNewProcess s oldProc addr)
  | .forkFail oldProc addr garbage =>
    if s.live addr then none
    else some (forkFail (schedNewProcess s (some oldProc) addr) addr garbage)
  | .exit a => syscallExit s a
  | .waitpid a pid which => some (syscallWaitpid s a pid which)

/-- Before the first process. -/
def boot : State := ⟨fun _ => ⟨0, 0, [], [], 0⟩, [], fun _ => false⟩

end Lyre.Procs
