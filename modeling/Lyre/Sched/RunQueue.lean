import Lyre.Lib.Event
import Mathlib.Data.Int.Init

/-!
# The run queue of `sched/sched.c`

`running_queue` is an array of slots, each empty or with a thread in it. A thread enters the first
slot that a `CAS` finds empty and leaves the first one that holds it; its flag `enqueued` says the
same once more. Every processor remembers the slot it took its last thread from and looks for the
next thread from there on.

Each of the functions is one step. Between two of them the locks of the threads may change, since
`sched_entry` and others release and take them.
-/

namespace Lyre.RunQueue

def maxRunningThreads : Nat := 65536

/-- The run queue, the threads, their locks and what `struct cpu_local` knows of the queue. -/
structure State where
  runningQueue : Nat → Option Nat
  thread : Nat → Events.Thread
  locked : Nat → Bool
  lastRunQueueIndex : Nat → Int

/-! ## Entering and leaving -/

/-- The loop over the slots from `i` on, `n` of them: the first `CAS` that succeeds ends it. -/
def casFrom (q : Nat → Option Nat) (old new : Option Nat) : Nat → Nat → Option (Nat → Option Nat)
  | 0, _ => none
  | n + 1, i => if q i = old then some (Function.update q i new) else casFrom q old new n (i + 1)

/-- The flag changes after the slot. -/
def setEnqueued (s : State) (t : Nat) (q : Nat → Option Nat) (b : Bool) : State :=
  { s with
    runningQueue := q
    thread := Function.update s.thread t { s.thread t with enqueued := b } }

def schedEnqueueThread (s : State) (t : Nat) (bySignal : Bool) : Bool × State :=
  if (s.thread t).enqueued then (true, s)
  else
    let s := { s with
      thread := Function.update s.thread t { s.thread t with enqueuedBySignal := bySignal } }
    match casFrom s.runningQueue none (some t) maxRunningThreads 0 with
    | some q => (true, setEnqueued s t q true)
    | none => (false, s)

def schedDequeueThread (s : State) (t : Nat) : Bool × State :=
  if (s.thread t).enqueued = false then (true, s)
  else
    match casFrom s.runningQueue (some t) none maxRunningThreads 0 with
    | some q => (true, setEnqueued s t q false)
    | none => (false, s)

/-! ## The next thread -/

/-- `spinlock_test_and_acq` on the thread in the slot, if there is one. -/
def testAndAcq (s : State) (i : Int) : Option (Nat × State) :=
  match s.runningQueue i.toNat with
  | none => none
  | some t =>
    if s.locked t then none else some (t, { s with locked := Function.update s.locked t true })

def setLastIndex (s : State) (cpu : Nat) (i : Int) : State :=
  { s with lastRunQueueIndex := Function.update s.lastRunQueueIndex cpu i }

/-- An index that is out of range counts as 0. -/
def wrapIndex (i : Int) : Int := if (maxRunningThreads : Int) ≤ i then 0 else i

/-- The loop of `get_next_thread`; `none` if it is not done after `n` rounds. -/
def getNextThreadFrom (s : State) (cpu : Nat) (orig : Int) :
    Nat → Int → Option (Option Nat × State)
  | 0, _ => none
  | n + 1, index =>
    match testAndAcq s (wrapIndex index) with
    | some (t, s) => some (some t, setLastIndex s cpu (wrapIndex index))
    | none =>
      if wrapIndex index = orig then some (none, setLastIndex s cpu (wrapIndex index))
      else getNextThreadFrom s cpu orig n (wrapIndex index + 1)

/-- Where the processor starts to look. -/
def origIndex (s : State) (cpu : Nat) : Int := wrapIndex (s.lastRunQueueIndex cpu)

/-- `get_next_thread` with `n` rounds to go. -/
def getNextThread (s : State) (cpu n : Nat) : Option (Option Nat × State) :=
  getNextThreadFrom s cpu (origIndex s cpu) n (origIndex s cpu + 1)

/-! ## Steps -/

inductive Call where
  | enqueue (t : Nat) (bySignal : Bool)
  | dequeue (t : Nat)
  | getNext (cpu : Nat)
  /-- Somebody takes or releases the lock of a thread. -/
  | lock (t : Nat) (taken : Bool)
  deriving DecidableEq, Repr

/-- The state after a call; `get_next_thread` has as many rounds as it takes. -/
def Step (s : State) : Call → State → Prop
  | .enqueue t bySignal, s' => (schedEnqueueThread s t bySignal).2 = s'
  | .dequeue t, s' => (schedDequeueThread s t).2 = s'
  | .getNext cpu, s' => ∃ n r, getNextThread s cpu n = some (r, s')
  | .lock t taken, s' => { s with locked := Function.update s.locked t taken } = s'

/-- Nothing runs yet; the locks and the indices of the processors are what memory holds, the indices
not being negative. -/
def start (locked : Nat → Bool) (last : Nat → Nat) : State where
  runningQueue := fun _ => none
  thread := fun _ => ⟨false, false, 0, []⟩
  locked := locked
  lastRunQueueIndex := fun cpu => last cpu

end Lyre.RunQueue
