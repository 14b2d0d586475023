import Lyre.Lib.Event
import Mathlib.Data.Int.Init

/-!
# `futex_wait` and `futex_wake` of `sched/proc.c`

Threads that call `futex_wait(ptr, expected)`, and one thread that stores another value and then
calls `futex_wake(ptr)`. The event of a futex is found by the physical page that `vmm_virt2phys`
returns for `ptr`, the number `phys` here, which all of them agree on.

The steps are the test of the value, the lookup under `futex_lock`, the locked sections of
`event_await`, the store, and the two halves of `futex_wake`: its lookup, and `event_trigger` with
`futex_lock` still held.
-/

namespace Lyre.Futex

open Events

/-- Where a thread that calls `futex_wait` is. -/
inductive Pc where
  | idle
  /-- `*ptr` was the expected value. -/
  | tested
  /-- The thread has the event: before or inside of `event_await`. -/
  | found (e : Nat)
  deriving DecidableEq, Repr

/-- Where the thread that stores and wakes is. -/
inductive Waker where
  | before
  | stored
  /-- Inside of `futex_wake`, with the event and `futex_lock`. -/
  | holding (e : Nat)
  | done
  deriving DecidableEq, Repr

structure State where
  sys : System
  /-- `*ptr`. -/
  value : Int
  futexHashmap : Nat → Option Nat
  /-- The number of the next `struct event` that `ALLOC` returns. -/
  allocated : Nat
  pc : Nat → Pc
  waker : Waker

def State.setPc (s : State) (t : Nat) (p : Pc) : State := { s with pc := Function.update s.pc t p }

/-- `futex_lock` is held over a step only by `futex_wake`. -/
def State.futexLocked (s : State) : Bool :=
  match s.waker with
  | .holding _ => true
  | _ => false

/-- The lookup of `futex_wait`: an event that is not there is made. -/
def State.lookup (s : State) (phys t : Nat) : State :=
  match s.futexHashmap phys with
  | some e => s.setPc t (.found e)
  | none =>
    { s with
      sys := { s.sys with state := setEvent s.sys.state s.allocated .zero }
      futexHashmap := Function.update s.futexHashmap phys (some s.allocated)
      allocated := s.allocated + 1 }.setPc t (.found s.allocated)

/-- `futex_wait` returns unless it blocks. -/
def State.afterAwait (s : State) (t : Nat) : Outcome × System → State
  | (.blocked, sys) => { s with sys }
  | (_, sys) => { s with sys }.setPc t .idle

inductive Step where
  /-- `futex_wait` up to its test. -/
  | test (t : Nat)
  | lookup (t : Nat)
  | await (t : Nat)
  | wake (t : Nat)
  | detach (t : Nat)
  | signal (t : Nat) (slot : Bool)
  /-- A value different from the expected one is stored. -/
  | store (value : Int)
  /-- The lookup of `futex_wake`. -/
  | find
  /-- `event_trigger`; `slot` tells which threads find a free slot of the run queue. -/
  | trigger (slot : Nat → Bool)

/-- The state after a step, if the step can be taken. -/
def next (phys : Nat) (expected : Int) (s : State) : Step → Option State
  | .test t =>
    if s.pc t = .idle then
      -- `EAGAIN` if it is another value
      some (if s.value = expected then s.setPc t .tested else s)
    else none
  | .lookup t =>
    if s.pc t = .tested ∧ s.futexLocked = false then some (s.lookup phys t) else none
  | .await t =>
    match s.pc t with
    | .found e =>
      if s.sys.pc t = .idle then
        (s.sys.await t [e] true).map (s.afterAwait t)
      else none
    | _ => none
  | .wake t => (s.sys.wake t).map fun sys => { s with sys }
  | .detach t =>
    match s.pc t with
    | .found _ => (s.sys.detach t).map fun r => { s with sys := r.2 }.setPc t .idle
    | _ => none
  | .signal t slot => some { s with sys := s.sys.enqueue t true slot }
  | .store value =>
    if s.waker = .before ∧ value ≠ expected then some { s with value, waker := .stored } else none
  | .find =>
    if s.waker = .stored then
      match s.futexHashmap phys with
      | none => some { s with waker := .done }
      | some e => some { s with waker := .holding e }
    else none
  | .trigger slot =>
    match s.waker with
    | .holding e => some { s with sys := s.sys.trigger e false slot, waker := .done }
    | _ => none

/-- Nobody waits yet. Events may be there from before, with triggers that nobody has consumed. -/
def start (value : Int) (futexHashmap : Nat → Option Nat) (allocated : Nat) (pending : Nat → Nat) :
    State where
  sys := System.start pending (fun _ => ⟨true, false, 0, []⟩)
  value := value
  futexHashmap := futexHashmap
  allocated := allocated
  pc := fun _ => .idle
  waker := .before

end Lyre.Futex
