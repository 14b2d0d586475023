import Lyre.Lib.Event
import Lyre.Lib.Vector

/-!
# `waitpid(-1)` and `exit` in `sched/sched.c`

A parent with one thread and its children, each a number that also names the event of the process.
The parent forks, calls `waitpid(-1)` and runs through its sections; the children exit at any
time. The parent is not process 1, so that the children of an exiting child go elsewhere.

`waitpid` takes its index from `child_events` and uses it on `children`.
-/

namespace Lyre.Waitpid

open Events

/-- Where the parent is. -/
inductive Pc where
  /-- Outside of `waitpid`. -/
  | running
  /-- In `sched_yield`: blocked, or enqueued again. -/
  | waiting
  /-- Running again, with the result of `event_await`, before the listeners are detached. -/
  | woken (ret : Option Nat)
  /-- `event_await` has returned the index. -/
  | reaping (which : Nat)
  deriving DecidableEq, Repr

structure State where
  ev : Events.State
  children : List Nat
  childEvents : List Nat
  exited : Nat → Bool
  pc : Pc

/-- The number of the parent's thread. -/
def parent : Nat := 0

inductive Step where
  /-- A child is forked. -/
  | fork (c : Nat)
  /-- `waitpid(-1, …)` up to where it blocks or has an index; `block` is false with `WNOHANG`. -/
  | waitpid (block : Bool)
  /-- The scheduler runs the parent again. -/
  | wake
  /-- The second locked section of `event_await`. -/
  | detach
  /-- The rest of `waitpid`: the child leaves the parent's lists. -/
  | reap
  /-- A child exits; `slot` tells whether the run queue has a free slot. -/
  | exit (c : Nat) (slot : Bool)
  deriving DecidableEq, Repr

/-- `sched_new_process`, as far as it concerns the parent. -/
def fork (s : State) (c : Nat) : State :=
  { s with
    ev := setEvent s.ev c .zero
    exited := Function.update s.exited c false
    children := s.children ++ [c]
    childEvents := s.childEvents ++ [c] }

/-- `syscall_waitpid` with `pid == -1`. Where it returns without a child, the parent goes on. -/
def syscallWaitpid (s : State) (block : Bool) : Option State :=
  if s.children.length = 0 then some s
  else
    match eventAwait s.childEvents block parent s.ev with
    | .ready which ev => some { s with ev, pc := .reaping which }
    | .wouldBlock ev => some { s with ev }
    | .blocked ev => some { s with ev, pc := .waiting }
    | .panic => none

/-- The second locked section, and the way back to `waitpid`. -/
def detach (s : State) (ret : Option Nat) : State :=
  { s with
    ev := detachListeners parent s.ev
    pc := match ret with
      | none => .running
      | some which => .reaping which }

/-- `child = VECTOR_ITEM(&proc->children, which)`, which then leaves both vectors. -/
def reap (s : State) (which : Nat) : Option State :=
  s.children[which]?.map fun c =>
    { s with
      childEvents := vectorRemoveByValue s.childEvents c
      children := vectorRemoveByValue s.children c
      pc := .running }

/-- `syscall_exit` of a child, from where it triggers its event. -/
def syscallExit (s : State) (c : Nat) (slot : Bool) : State :=
  { s with
    exited := Function.update s.exited c true
    ev := (eventTrigger c false (fun _ => slot) s.ev).2 }

/-- The state after a step, if the step can be taken. -/
def next (s : State) : Step → Option State
  | .fork c => if s.pc = .running ∧ c ∉ s.children then some (fork s c) else none
  | .waitpid block => if s.pc = .running then syscallWaitpid s block else none
  | .wake =>
    if s.pc = .waiting ∧ (s.ev.thread parent).enqueued then
      some { s with pc := .woken (awaitResult parent s.ev) }
    else none
  | .detach =>
    match s.pc with
    | .woken ret => some (detach s ret)
    | _ => none
  | .reap =>
    match s.pc with
    | .reaping which => reap s which
    | _ => none
  | .exit c slot =>
    if c ∈ s.children ∧ s.exited c = false then some (syscallExit s c slot) else none

/-- The parent before its first fork. -/
def start : State where
  ev := { event := fun _ => .zero, thread := fun _ => ⟨true, false, 0, []⟩ }
  children := []
  childEvents := []
  exited := fun _ => false
  pc := .running

end Lyre.Waitpid
