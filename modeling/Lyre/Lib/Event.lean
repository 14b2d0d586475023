import Mathlib.Logic.Function.Basic

/-!
# `lib/event.c`: waiting for one of several events

Events and threads are named by numbers. The spinlocks of the events make each locked section one
step, so that `event_await` is two functions here: what it does before it gives up the processor,
and what it does when it runs again. A thread runs again when it is enqueued.

`sched_enqueue_thread` looks for a free slot of the run queue. Whether a thread finds one is an
argument (`slot`); without one the thread is not enqueued.
-/

namespace Lyre.Events

def eventMaxListeners : Nat := 32
def maxEvents : Nat := 32

/-- `struct event_listener`. -/
structure Listener where
  thread : Nat
  which : Nat
  deriving DecidableEq, Repr

/-- `struct event`. The listeners in use are the list. -/
structure Event where
  pending : Nat
  listeners : List Listener
  deriving DecidableEq, Repr

/-- What `event.c` and the scheduler look at in a `struct thread`. -/
structure Thread where
  enqueued : Bool
  enqueuedBySignal : Bool
  whichEvent : Nat
  attachedEvents : List Nat
  deriving DecidableEq, Repr

structure State where
  event : Nat → Event
  thread : Nat → Thread

/-- A new `struct event` is all zeros. -/
def Event.zero : Event := ⟨0, []⟩

def setEvent (s : State) (e : Nat) (v : Event) : State :=
  { s with event := Function.update s.event e v }

def setThread (s : State) (t : Nat) (v : Thread) : State :=
  { s with thread := Function.update s.thread t v }

/-! ## The scheduler -/

def schedEnqueueThread (s : State) (t : Nat) (bySignal slot : Bool) : State :=
  if (s.thread t).enqueued then s
  else setThread s t { s.thread t with enqueuedBySignal := bySignal, enqueued := slot }

def schedDequeueThread (s : State) (t : Nat) : State :=
  if (s.thread t).enqueued then setThread s t { s.thread t with enqueued := false } else s

/-! ## Waiting -/

/-- The loop of `check_for_pending` from index `i` on. -/
def checkForPendingFrom : Nat → List Nat → State → Option Nat × State
  | _, [], s => (none, s)
  | i, e :: events, s =>
    if 0 < (s.event e).pending then
      (some i, setEvent s e { s.event e with pending := (s.event e).pending - 1 })
    else checkForPendingFrom (i + 1) events s

/-- The index of the first event that is pending, one of its triggers being consumed. -/
def checkForPending (events : List Nat) (s : State) : Option Nat × State :=
  checkForPendingFrom 0 events s

/-- The loop of `attach_listeners` from index `i` on; `none` where the kernel panics. -/
def attachListenersFrom (t : Nat) : Nat → List Nat → State → Option State
  | _, [], s => some s
  | i, e :: events, s =>
    if (s.event e).listeners.length = eventMaxListeners then none
    else
      let s := setEvent s e
        { s.event e with listeners := (s.event e).listeners ++ [⟨t, i⟩] }
      if (s.thread t).attachedEvents.length = maxEvents then none
      else
        attachListenersFrom t (i + 1) events
          (setThread s t
            { s.thread t with attachedEvents := (s.thread t).attachedEvents ++ [e] })

def attachListeners (events : List Nat) (t : Nat) (s : State) : Option State :=
  attachListenersFrom t 0 events (setThread s t { s.thread t with attachedEvents := [] })

/-- The first listener of the thread is overwritten by the last listener of all. -/
def removeListener (t : Nat) (ls : List Listener) : List Listener :=
  match ls.findIdx? (fun l => l.thread = t), ls.getLast? with
  | some j, some last => (ls.set j last).dropLast
  | _, _ => ls

def detachListeners (t : Nat) (s : State) : State :=
  let s' := (s.thread t).attachedEvents.foldl
    (fun s e => setEvent s e { s.event e with listeners := removeListener t (s.event e).listeners })
    s
  setThread s' t { s'.thread t with attachedEvents := [] }

/-- How the first locked section of `event_await` ends. -/
inductive Await where
  /-- The index of a pending event is returned. -/
  | ready (which : Nat) (s : State)
  /-- Nothing is pending and the caller does not want to block. -/
  | wouldBlock (s : State)
  /-- The thread listens to the events and has left the run queue. -/
  | blocked (s : State)
  | panic

/-- `event_await` up to `sched_yield`. -/
def eventAwait (events : List Nat) (block : Bool) (t : Nat) (s : State) : Await :=
  match checkForPending events s with
  | (some i, s) => .ready i s
  | (none, s) =>
    if block = false then .wouldBlock s
    else
      match attachListeners events t s with
      | none => .panic
      | some s => .blocked (schedDequeueThread s t)

/-- What `event_await` returns when the thread runs again, `none` for -1; it reads this before it
takes the locks. -/
def awaitResult (t : Nat) (s : State) : Option Nat :=
  if (s.thread t).enqueuedBySignal then none else some (s.thread t).whichEvent

/-! ## Triggering -/

/-- `event_trigger`, with the number of threads it has woken. -/
def eventTrigger (e : Nat) (drop : Bool) (slot : Nat → Bool) (s : State) : Nat × State :=
  let ls := (s.event e).listeners
  if ls.length = 0 then
    if drop then (0, s)
    else (0, setEvent s e { s.event e with pending := (s.event e).pending + 1 })
  else
    let s := ls.foldl
      (fun s l =>
        schedEnqueueThread (setThread s l.thread { s.thread l.thread with whichEvent := l.which })
          l.thread false (slot l.thread)) s
    (ls.length, setEvent s e { s.event e with listeners := [] })

end Lyre.Events

/-!
## Threads inside `event_await`

The sections of `event.c` as the threads of a machine run through them: each locked section is one
step, and the steps of the threads come in any order. A thread is inside of one `event_await` at
most, and the array of events it has passed stays as it is.
-/

namespace Lyre.Events

/-- Where a thread is. -/
inductive Pc where
  /-- Outside of `event_await`. -/
  | idle
  /-- In `sched_yield`: blocked, or enqueued again. -/
  | waiting (events : List Nat)
  /-- Running again, with the result of `event_await`, before the listeners are detached. -/
  | woken (events : List Nat) (ret : Option Nat)
  deriving DecidableEq, Repr

/-- The events of the call the thread is in. -/
def Pc.events : Pc → Option (List Nat)
  | .idle => none
  | .waiting events => some events
  | .woken events _ => some events

structure System where
  state : State
  pc : Nat → Pc

def System.setPc (x : System) (t : Nat) (p : Pc) : System :=
  { x with pc := Function.update x.pc t p }

/-- How a call of `event_await` goes on after its first locked section. -/
inductive Outcome where
  | ready (which : Nat)
  | wouldBlock
  | blocked
  deriving DecidableEq, Repr

/-- The first locked section of `event_await`; `none` where the kernel panics. -/
def System.await (x : System) (t : Nat) (events : List Nat) (block : Bool) :
    Option (Outcome × System) :=
  match eventAwait events block t x.state with
  | .ready which s => some (.ready which, { x with state := s })
  | .wouldBlock s => some (.wouldBlock, { x with state := s })
  | .blocked s => some (.blocked, { x with state := s }.setPc t (.waiting events))
  | .panic => none

/-- The scheduler runs the thread again, which reads why. -/
def System.wake (x : System) (t : Nat) : Option System :=
  match x.pc t with
  | .waiting events =>
    if (x.state.thread t).enqueued then some (x.setPc t (.woken events (awaitResult t x.state)))
    else none
  | _ => none

/-- The second locked section, and what `event_await` returns. -/
def System.detach (x : System) (t : Nat) : Option (Option Nat × System) :=
  match x.pc t with
  | .woken _ ret => some (ret, { x with state := detachListeners t x.state }.setPc t .idle)
  | _ => none

/-- `event_trigger`; `slot` tells which threads find a free slot of the run queue. -/
def System.trigger (x : System) (e : Nat) (drop : Bool) (slot : Nat → Bool) : System :=
  { x with state := (eventTrigger e drop slot x.state).2 }

/-- `sched_enqueue_thread`, as signals and the creation of threads call it. -/
def System.enqueue (x : System) (t : Nat) (bySignal slot : Bool) : System :=
  { x with state := schedEnqueueThread x.state t bySignal slot }

/-! ## Steps -/

inductive Step where
  | await (t : Nat) (events : List Nat) (block : Bool)
  | wake (t : Nat)
  | detach (t : Nat)
  | trigger (e : Nat) (drop : Bool) (slot : Nat → Bool)
  | enqueue (t : Nat) (bySignal slot : Bool)

/-- The state after a step, if the step can be taken: a thread waits for distinct events, and not
while it waits already. -/
def System.next (x : System) : Step → Option System
  | .await t events block =>
    if x.pc t = .idle ∧ events.Nodup then (x.await t events block).map Prod.snd else none
  | .wake t => x.wake t
  | .detach t => (x.detach t).map Prod.snd
  | .trigger e drop slot => some (x.trigger e drop slot)
  | .enqueue t bySignal slot => some (x.enqueue t bySignal slot)

/-- Nobody waits; events may have been triggered already, and any of the threads may run. -/
def System.start (pending : Nat → Nat) (thread : Nat → Thread) : System where
  state := { event := fun e => ⟨pending e, []⟩, thread := thread }
  pc := fun _ => .idle

end Lyre.Events
