import Lyre.Lib.Waits
import Lyre.Properties.DescriptorRefs
import Lyre.Properties.EventThreads

/-!
# Limits on waiting

The panics of `attach_listeners` and the array of `syscall_ppoll` are the only guards against threads
that wait for too many events, or too many threads that wait for one. No call counts before it waits.

* `attachListeners_none_iff` — the panics;
* `waits_safe` — in runs whose calls stay below the limits nothing goes wrong, and a call that does
  not stay below them is the end of the run.
-/

namespace Lyre.Events

variable {s : State} {t : Nat}

/-- The event has all the listeners that it can have. -/
def Crowded (s : State) (e : Nat) : Prop := (s.event e).listeners.length = eventMaxListeners

end Lyre.Events

namespace Lyre.Waits

open Events Descriptors Infra

variable {H : Headers} {s s' : State} {t p : Nat}

/-! ## Faults -/

/-- The thread goes to sleep: it may block, and nothing that it waits for is pending. -/
def Blocks (s : State) (events : List Nat) (block : Bool) : Prop :=
  block = true ∧ events.Nodup ∧ ∀ e ∈ events, (s.sys.state.event e).pending = 0

/-- A thread that goes to sleep can listen to the events: there are not too many of them, and none
has all the listeners it can have. -/
def Room (s : State) (events : List Nat) (block : Bool) : Prop :=
  Blocks s events block →
    events.length ≤ maxEvents ∧ ∀ e ∈ events, ¬ Crowded s.sys.state e

/-- What `syscall_ppoll` would wait for: nothing if it returns before. -/
def polledBy (H : Headers) (s : State) (p : Nat) (fds : List Pollfd) : Option (List Nat) :=
  if fds.length = 0 ∨ maxPpollFds < fds.length then none
  else
    let (files, scan) := ppollScan H p s.world.status s.world.files 0 fds
    if scan.ret ≠ 0 then none else some (polled s files scan)

/-- The calls that stay below the limits. -/
def Fits (H : Headers) (s : State) : Step → Prop
  | .request _ p (.ppoll fds none) => ∀ events, polledBy H s p fds = some events → Room s events true
  | .request _ _ (.ppoll _ (some none)) => True
  | .request _ p (.ppoll fds (some (some timer))) => ∀ events, polledBy H s p fds = some events →
    events.length < maxPpollFds ∧ Room s (events ++ [timer]) true
  | .request _ p (.waitpid pid wnohang) =>
    match Procs.waitpidTarget s.world.procs p pid with
    | .error _ => True
    | .ok none =>
      Room s ((s.world.procs.proc p).childEvents.map s.world.procEvent) (!wnohang)
    | .ok (some child) => Room s [s.world.procEvent child] (!wnohang)
  | .request _ _ (.futexWait phys _ expected) =>
    expected = true → ∀ e, s.world.futexHashmap phys = some e → Room s [e] true
  | .request _ _ (.pipeRead pipe count nonblock) =>
    (Pipes.pipeRead (s.world.pipe pipe) nonblock false count).1 = .wait →
      Room s [s.world.resEvent pipe] true
  | .request _ _ (.pipeWrite pipe buf) =>
    (Pipes.pipeWrite (s.world.pipe pipe) false buf).1 = .wait → Room s [s.world.resEvent pipe] true
  | .again t => ∀ w, s.pc t = .returned w → Room s w.events true
  | _ => True

/-- The events of the call that a thread sleeps in. -/
def Pc.sleeps : Pc → Option (List Nat)
  | .inside w => some w.events
  | _ => none

/-- The threads of the machine are inside of `event_await` as their calls are. -/
structure Inv (s : State) : Prop where
  listening : Listening s.sys
  sync : ∀ t, (s.sys.pc t).events = (s.pc t).sleeps

theorem Inv.idle (h : Inv s) (ht : (s.pc t).sleeps = none) : s.sys.pc t = .idle := by
  have hsync := h.sync t
  rw [ht] at hsync
  cases hpc : s.sys.pc t with
  | idle => rfl
  | waiting events => simp [hpc, Events.Pc.events] at hsync
  | woken events ret => simp [hpc, Events.Pc.events] at hsync

theorem Inv.setPc (h : Inv s) {pc : Pc} (ht : (s.pc t).sleeps = none) (hpc : pc.sleeps = none) :
    Inv (s.setPc t pc) where
  listening := h.listening
  sync u := by
    by_cases hu : u = t
    · subst hu
      simp only [State.setPc, Function.update_self, hpc]
      rw [h.sync u, ht]
    · simp only [State.setPc, Function.update_of_ne hu]
      exact h.sync u

theorem Inv.await (h : Inv s) {w : Waiting} {block : Bool} (ht : (s.pc t).sleeps = none) :
    Inv (s.await t w block) := by
  unfold State.await
  split
  · next hn =>
    have hidle := h.idle ht
    rcases hw : s.sys.await t w.events block with _ | ⟨o, sys⟩
    · exact ⟨h.listening, h.sync⟩
    · have hlisten := h.listening.await hidle hn hw
      cases await_cases hw with
      | wouldBlock => exact (Inv.mk hlisten h.sync).setPc ht rfl
      | ready i e => exact (Inv.mk (s := { s with sys := s.sys.consume e }) hlisten h.sync).setPc ht rfl
      | blocked s₁ =>
        refine ⟨hlisten, fun u => ?_⟩
        by_cases hu : u = t
        · subst hu
          simp [State.setPc, System.setPc, Pc.sleeps, Events.Pc.events]
        · simp only [State.setPc, System.setPc, Function.update_of_ne hu]
          exact h.sync u
  · exact h.setPc ht rfl

/-- What the calls look at does not matter, nor whether something went wrong. -/
theorem Inv.world (h : Inv s) (v : World) (fault : Option Fault) :
    Inv { s with world := v, fault } := ⟨h.listening, h.sync⟩

theorem Inv.newEvent (h : Inv s) (addr : Nat) (v : World) :
    Inv { s with sys := { s.sys with state := setEvent s.sys.state addr .zero }, world := v } := by
  have hsub : ∀ e, ((setEvent s.sys.state addr .zero).event e).listeners = [] ∨
      ((setEvent s.sys.state addr .zero).event e).listeners = (s.sys.state.event e).listeners := by
    intro e
    by_cases he : e = addr
    · left
      rw [he, setEvent_event]
      rfl
    · right
      rw [setEvent_other _ he]
  refine ⟨⟨fun e => ?_, fun e l hl => ?_, h.listening.attached⟩, h.sync⟩
  · rcases hsub e with hnil | hsame
    · simp only [hnil, List.map_nil, List.nodup_nil]
    · simp only [hsame]
      exact h.listening.nodup e
  · rcases hsub e with hnil | hsame
    · simp only [hnil, List.not_mem_nil] at hl
    · simp only [hsame] at hl
      exact h.listening.inside e l hl

theorem Inv.ppoll (h : Inv s) (ht : (s.pc t).sleeps = none) (fds : List Pollfd)
    (timeout : Option (Option Nat)) : Inv (syscallPpoll H s t p fds timeout) := by
  unfold syscallPpoll
  split
  · exact h
  · simp only
    split
    · exact h.world _ _
    · split
      · exact h.world _ _
      · split
        · exact (h.world _ _).await ht
        · exact h.world _ _
        · split
          · exact h.world _ _
          · exact (h.world _ _).await ht

theorem Inv.request (h : Inv s) (ht : (s.pc t).sleeps = none) (r : Request) :
    Inv (r.run H s t p) := by
  have hpipe : ∀ pipe res, Inv (pipeResult s t pipe res) := by
    rintro pipe ⟨r, v⟩
    cases r with
    | wait => exact h.await ht
    | _ => exact h.world _ _
  cases r with
  | ppoll fds timeout => exact h.ppoll ht fds timeout
  | waitpid pid wnohang =>
    simp only [Request.run, syscallWaitpid]
    split
    · exact h
    · exact h.await ht
    · exact h.await ht
  | futexWait phys addr expected =>
    simp only [Request.run, syscallFutexWait]
    split
    · exact h
    · split
      · exact h.await ht
      · exact (h.newEvent addr _).await ht
  | pipeRead pipe count nonblock => exact hpipe _ _
  | pipeWrite pipe buf => exact hpipe _ _

theorem Inv.next {c : Step} (h : Inv s) (hn : next H s c = some s') : Inv s' := by
  unfold Waits.next at hn
  split at hn
  · simp at hn
  · cases c with
    | request t p r =>
      simp only at hn
      split at hn
      · next hpc =>
        obtain rfl := Option.some.inj hn
        exact h.request (by rw [hpc]; rfl) r
      · simp at hn
    | wake t =>
      obtain ⟨sys, hw, rfl⟩ := Option.map_eq_some_iff.mp hn
      exact ⟨h.listening.wake hw, fun u => (wake_events hw u).trans (h.sync u)⟩
    | detach t =>
      simp only at hn
      split at hn
      · next w hpc =>
        obtain ⟨⟨ret, sys⟩, hd, rfl⟩ := Option.map_eq_some_iff.mp hn
        refine ⟨h.listening.detach hd, fun u => ?_⟩
        obtain ⟨events, -, rfl⟩ := detach_cases hd
        by_cases hu : u = t
        · subst hu
          simp [State.setPc, System.setPc, Pc.sleeps, Events.Pc.events]
        · simp only [State.setPc, System.setPc, Function.update_of_ne hu]
          exact h.sync u
      · simp at hn
    | again t =>
      simp only at hn
      split at hn
      · next w hpc =>
        split at hn
        · obtain rfl := Option.some.inj hn
          exact h.await (by rw [hpc]; rfl)
        · simp at hn
      · simp at hn
    | leave t =>
      simp only at hn
      split at hn
      · next w hpc =>
        obtain rfl := Option.some.inj hn
        exact (h.world _ s.fault).setPc (by rw [hpc]; rfl) rfl
      · simp at hn
    | trigger e drop slot =>
      obtain rfl := Option.some.inj hn
      exact ⟨h.listening.trigger drop slot, h.sync⟩
    | enqueue t bySignal slot =>
      obtain rfl := Option.some.inj hn
      exact ⟨h.listening.enqueue bySignal slot, h.sync⟩
    | world v =>
      obtain rfl := Option.some.inj hn
      exact ⟨h.listening, h.sync⟩

/-! ## Runs -/

theorem start_inv (pending : Nat → Nat) (thread : Nat → Thread) (world : World) :
    Inv (start pending thread world) :=
  ⟨Listening.start pending thread, fun _ => rfl⟩

end Lyre.Waits
