import Lyre.Lib.Vector
import Mathlib.Algebra.Ring.Int.Defs
import Mathlib.Logic.Function.Basic

/-!
# `time/time.c`, `time/time.k.h`: the clocks and the timers

A timer is named by its address. What `event_trigger` does is not looked at here: the timers whose
event has been triggered are written down in a list, the latest one last.

`timers_lock` is taken by every function but `timer_handler`, which does without the timers when it
does not get it at once. Whether it does is its argument.
-/

namespace Lyre.Time

/-- The value of type `long` that the machine keeps of a result. -/
def long (x : Int) : Int := (x + 2 ^ 63) % 2 ^ 64 - 2 ^ 63

/-- `struct timespec`. -/
structure Timespec where
  tvSec : Int
  tvNsec : Int
  deriving DecidableEq, Repr

def timespecAdd (a b : Timespec) : Timespec :=
  let a :=
    if 999999999 < long (a.tvNsec + b.tvNsec) then
      { tvSec := long (a.tvSec + 1), tvNsec := long (long (a.tvNsec + b.tvNsec) - 1000000000) }
    else { a with tvNsec := long (a.tvNsec + b.tvNsec) }
  { a with tvSec := long (a.tvSec + b.tvSec) }

/-- The second half of `timespec_sub`, where the nanoseconds are done. -/
def timespecSubSec (a b : Timespec) : Timespec :=
  if a.tvSec < b.tvSec then ⟨0, 0⟩ else { a with tvSec := long (a.tvSec - b.tvSec) }

def timespecSub (a b : Timespec) : Timespec :=
  if a.tvNsec < b.tvNsec then
    -- a second is borrowed as 999999999 nanoseconds
    if a.tvSec = 0 then ⟨0, 0⟩
    else
      timespecSubSec
        { tvSec := long (a.tvSec - 1), tvNsec := long (999999999 - long (b.tvNsec - a.tvNsec)) } b
  else timespecSubSec { a with tvNsec := long (a.tvNsec - b.tvNsec) } b

/-! ## The timers -/

def timerFreq : Int := 1000

/-- The time from one `timer_handler` to the next. -/
def interval : Timespec := { tvSec := 0, tvNsec := 1000000000 / timerFreq }

/-- `struct timer`, less its event. -/
structure Timer where
  index : Int
  fired : Bool
  when : Timespec
  deriving DecidableEq, Repr

structure State where
  timeMonotonic : Timespec
  timeRealtime : Timespec
  armedTimers : List Nat
  timer : Nat → Timer
  /-- The timers whose event has been triggered. -/
  triggered : List Nat

def State.setTimer (s : State) (t : Nat) (v : Timer) : State :=
  { s with timer := Function.update s.timer t v }

/-- Before the first timer; `boot_time` comes from the boot loader. -/
def timeInit (bootTime : Int) : State :=
  ⟨⟨0, 0⟩, ⟨bootTime, 0⟩, [], fun _ => ⟨-1, false, ⟨0, 0⟩⟩, []⟩

def timerArm (s : State) (t : Nat) : State :=
  let s := s.setTimer t { s.timer t with index := s.armedTimers.length, fired := false }
  { s with armedTimers := s.armedTimers ++ [t] }

/-- `timer_new`, where the allocator returns `t`. -/
def timerNew (s : State) (t : Nat) (when : Timespec) : State :=
  timerArm (s.setTimer t ⟨-1, false, when⟩) t

def timerDisarm (s : State) (t : Nat) : State :=
  let index := (s.timer t).index
  if s.armedTimers.length = 0 ∨ index = -1 ∨ (s.armedTimers.length : Int) ≤ index % 2 ^ 64 then s
  else
    let last := s.armedTimers.getLastD 0
    let s := { s with armedTimers := s.armedTimers.set index.toNat last }
    let s := s.setTimer last { s.timer last with index := index }
    let s := { s with armedTimers := vectorRemove s.armedTimers (s.armedTimers.length - 1) }
    s.setTimer t { s.timer t with index := -1 }

/-- One turn of the loop of `timer_handler`. -/
def countDown (s : State) (t : Nat) : State :=
  if (s.timer t).fired then s
  else
    let s := s.setTimer t { s.timer t with when := timespecSub (s.timer t).when interval }
    if (s.timer t).when.tvSec = 0 ∧ (s.timer t).when.tvNsec = 0 then
      let s := { s with triggered := s.triggered ++ [t] }
      s.setTimer t { s.timer t with fired := true }
    else s

def timerHandler (acquired : Bool) (s : State) : State :=
  let s := { s with
    timeMonotonic := timespecAdd s.timeMonotonic interval
    timeRealtime := timespecAdd s.timeRealtime interval }
  if acquired then s.armedTimers.foldl countDown s else s

/-! ## Sleeping -/

/-- The duration that `time_nsleep` asks for. -/
def nsleepDuration (ns : BitVec 64) : Timespec :=
  { tvSec := long (ns.toNat / 1000000000 : Nat), tvNsec := long ns.toNat }

/-- `time_nsleep` up to the wait for the event, where the allocator returns `t`. After the wait the
timer is disarmed and freed. -/
def timeNsleep (s : State) (t : Nat) (ns : BitVec 64) : State := timerNew s t (nsleepDuration ns)

end Lyre.Time
