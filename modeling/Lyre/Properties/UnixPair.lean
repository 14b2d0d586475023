import Lyre.Ipc.UnixPair
import Lyre.Properties.EventThreads

/-!
# Writers that wait for room

A writer that finds the buffer of its peer full waits for the event of the peer. A reader of that
buffer triggers the event of its own peer, which is the socket of the writer. So the reader never
wakes the writer up, in any interleaving (`reader_leaves_writer_parked`).
-/

namespace Lyre.UnixPair

open Infra Events Pipes

variable {s s' : State} {t u : Nat} {e : End}

/-- A thread waits in `unix_write` on the socket and does not run. -/
structure ParkedWriter (s : State) (t : Nat) (e : End) : Prop where
  call : ∃ buf nonblock, s.pc t = .awaiting (.write buf) e nonblock
  waits : s.sys.pc t = .waiting [e.peer.event]
  parked : (s.sys.state.thread t).enqueued = false

/-- A thread is in `unix_read` or `unix_recvmsg` on the socket. -/
def Reading (s : State) (u : Nat) (e : End) : Prop :=
  ∃ op nonblock, op.reads = true ∧
    (s.pc u = .locking op e nonblock ∨ (∃ again, s.pc u = .triggering op e nonblock again) ∨
      s.pc u = .awaiting op e nonblock)

theorem peer_event_ne (e : End) : e.peer.event ≠ e.event := by cases e <;> decide

/-- **The events do not match.** -/
theorem triggered_ne_awaited {op : Op} (hop : op.reads = true) (buf : List Byte) :
    op.triggered e.peer ≠ (Op.write buf).awaited e := by
  cases op with
  | write => simp [Op.reads] at hop
  | read | recvmsg => simpa [Op.triggered, Op.awaited] using (peer_event_ne e).symm

/-! ## The invariant -/

/-- A thread inside of `event_await` waits for the event of its call. -/
structure Inv (s : State) : Prop where
  listening : Listening s.sys
  call : ∀ t events, (s.sys.pc t).events = some events →
    ∃ op e nonblock, s.pc t = .awaiting op e nonblock ∧ events = [op.awaited e]

theorem Inv.start (pending : Nat → Nat) (status : End → Status) : Inv (start pending status) where
  listening := Listening.start _ _
  call := by simp [UnixPair.start, System.start, Events.Pc.events]

theorem Inv.setPc (h : Inv s) (ht : s.sys.pc t = .idle) (p : Pc) : Inv (s.setPc t p) where
  listening := h.listening
  call := by
    intro v events hv
    have hvt : v ≠ t := by
      rintro rfl
      have : (s.sys.pc v).events = some events := hv
      simp [ht, Events.Pc.events] at this
    simp only [State.setPc, Function.update_of_ne hvt]
    exact h.call v events hv

theorem Inv.congr (h : Inv s) (hsys : s'.sys = s.sys) (hpc : s'.pc = s.pc) : Inv s' where
  listening := hsys ▸ h.listening
  call := by
    rw [hsys, hpc]
    exact h.call

theorem Inv.setSys {sys : System} (h : Inv s) (hl : Listening sys)
    (hp : ∀ v, (sys.pc v).events = (s.sys.pc v).events) : Inv { s with sys } where
  listening := hl
  call := by
    intro v events hv
    exact h.call v events (by rw [← hp]; exact hv)

/-- A thread in any other place than `awaiting` is outside of `event_await`. -/
theorem Inv.idle (h : Inv s) (hpc : ∀ op e nonblock, s.pc t ≠ .awaiting op e nonblock) :
    s.sys.pc t = .idle := by
  cases hp : s.sys.pc t with
  | idle => rfl
  | waiting events =>
    obtain ⟨op, e, nonblock, hc, -⟩ := h.call t events (by simp [hp, Events.Pc.events])
    exact absurd hc (hpc op e nonblock)
  | woken events ret =>
    obtain ⟨op, e, nonblock, hc, -⟩ := h.call t events (by simp [hp, Events.Pc.events])
    exact absurd hc (hpc op e nonblock)

theorem leave_eq (s : State) (t : Nat) (op : Op) (e : End) (nonblock : Bool) (r : Result) :
    ∃ (s₁ : State) (p : Pc), s₁.sys = s.sys ∧ s₁.pc = s.pc ∧
      s.leave t op e nonblock r = s₁.setPc t p := by
  cases r with
  | bytes | count => exact ⟨s, _, rfl, rfl, rfl⟩
  | failed => exact ⟨s.setLocked (op.buffer e) false, _, rfl, rfl, rfl⟩
  | wait | error =>
    simp only [State.leave]
    split
    · exact ⟨s, _, rfl, rfl, rfl⟩
    · exact ⟨s.setLocked (op.buffer e) false, _, rfl, rfl, rfl⟩

theorem section_eq (s : State) (t : Nat) (op : Op) (e : End) (nonblock : Bool) :
    ∃ (s₁ : State) (p : Pc), s₁.sys = s.sys ∧ s₁.pc = s.pc ∧
      s.section t op e nonblock = s₁.setPc t p := by
  rcases hrun : op.run nonblock (s.socket (op.buffer e)) with ⟨r, u⟩
  simp only [State.section, hrun]
  exact leave_eq ((s.setSocket (op.buffer e) u).setLocked (op.buffer e) true) t op e nonblock r

/-! ## Steps -/

theorem Inv.next {c : Step} (h : Inv s) (hs : next s t c = some s') : Inv s' := by
  cases c with
  | call op e nonblock =>
    simp only [UnixPair.next, Option.ite_none_right_eq_some, Option.some.injEq] at hs
    obtain ⟨hpc, rfl⟩ := hs
    exact h.setPc (h.idle (by simp [hpc])) _
  | lock =>
    simp only [UnixPair.next] at hs
    split at hs
    · next op e nonblock hpc =>
      split at hs
      · simp at hs
      · obtain rfl := Option.some.inj hs
        obtain ⟨s₁, p, hsys, hpc₁, heq⟩ := section_eq s t op e nonblock
        rw [heq]
        exact (h.congr hsys hpc₁).setPc (hsys ▸ h.idle (by simp [hpc])) p
    · simp at hs
  | trigger slot =>
    simp only [UnixPair.next] at hs
    split at hs
    · next op e nonblock again hpc =>
      obtain rfl := Option.some.inj hs
      have hidle : s.sys.pc t = .idle := h.idle (by simp [hpc])
      have h₁ : Inv (State.setLocked
          { s with sys := s.sys.trigger (op.triggered e) false slot } (op.buffer e) false) :=
        (h.setSys (h.listening.trigger false slot) fun _ => rfl).congr rfl rfl
      exact h₁.setPc hidle _
    · simp at hs
  | await =>
    simp only [UnixPair.next] at hs
    split at hs
    · next op e nonblock hpc =>
      split at hs
      · next hidle =>
        obtain ⟨⟨o, x⟩, hw, rfl⟩ := Option.map_eq_some_iff.mp hs
        have hl : Listening x := h.listening.await hidle (List.nodup_singleton _) hw
        cases await_cases hw with
        | wouldBlock => exact h.setPc hidle _
        | ready i e' =>
          have h₁ : Inv { s with sys := s.sys.consume e' } := h.setSys hl (fun _ => rfl)
          exact h₁.setPc hidle _
        | blocked s₁ =>
          refine ⟨hl, fun v events hv => ?_⟩
          by_cases hvt : v = t
          · subst hvt
            simp only [System.setPc, Function.update_self, Events.Pc.events,
              Option.some.injEq] at hv
            exact ⟨op, e, nonblock, hpc, hv.symm⟩
          · simp only [System.setPc, Function.update_of_ne hvt] at hv
            exact h.call v events hv
      · simp at hs
    · simp at hs
  | wake =>
    obtain ⟨x, hw, rfl⟩ := Option.map_eq_some_iff.mp hs
    exact h.setSys (h.listening.wake hw) (wake_events hw)
  | detach =>
    simp only [UnixPair.next] at hs
    split at hs
    · next op e nonblock hpc =>
      obtain ⟨⟨ret, x⟩, hd, rfl⟩ := Option.map_eq_some_iff.mp hs
      have hidle : x.pc t = .idle := by
        obtain ⟨_, -, rfl⟩ := detach_cases hd
        simp [System.setPc]
      have h₁ : Inv { s with sys := x } := by
        refine ⟨h.listening.detach hd, fun v events hv => ?_⟩
        have hvt : v ≠ t := by
          rintro rfl
          simp [hidle, Events.Pc.events] at hv
        exact h.call v events ((detach_others h.listening hd).pc v hvt ▸ hv)
      cases ret with
      | some i => exact h₁.setPc hidle _
      | none =>
        have h₂ : Inv (State.setLocked { s with sys := x } (op.buffer e) false) :=
          h₁.congr rfl rfl
        exact h₂.setPc hidle _
    · simp at hs
  | signal slot =>
    obtain rfl := Option.some.inj hs
    exact h.setSys (h.listening.enqueue true slot) (fun _ => rfl)

theorem next_pc_other {c : Step} (hs : next s u c = some s') (htu : t ≠ u) : s'.pc t = s.pc t := by
  cases c with
  | call op e nonblock =>
    simp only [UnixPair.next, Option.ite_none_right_eq_some, Option.some.injEq] at hs
    obtain ⟨-, rfl⟩ := hs
    exact Function.update_of_ne htu ..
  | lock =>
    simp only [UnixPair.next] at hs
    split at hs
    · next op e nonblock hpc =>
      split at hs
      · simp at hs
      · obtain rfl := Option.some.inj hs
        obtain ⟨s₁, p, -, hpc₁, heq⟩ := section_eq s u op e nonblock
        rw [heq, ← hpc₁]
        exact Function.update_of_ne htu ..
    · simp at hs
  | trigger slot =>
    simp only [UnixPair.next] at hs
    split at hs
    · obtain rfl := Option.some.inj hs
      exact Function.update_of_ne htu ..
    · simp at hs
  | await =>
    simp only [UnixPair.next] at hs
    split at hs
    · split at hs
      · obtain ⟨⟨o, x⟩, -, rfl⟩ := Option.map_eq_some_iff.mp hs
        cases o with
        | blocked => rfl
        | ready | wouldBlock => exact Function.update_of_ne htu ..
      · simp at hs
    · simp at hs
  | wake =>
    obtain ⟨x, -, rfl⟩ := Option.map_eq_some_iff.mp hs
    rfl
  | detach =>
    simp only [UnixPair.next] at hs
    split at hs
    · obtain ⟨⟨ret, x⟩, -, rfl⟩ := Option.map_eq_some_iff.mp hs
      cases ret <;> exact Function.update_of_ne htu ..
    · simp at hs
  | signal slot =>
    obtain rfl := Option.some.inj hs
    rfl

/-- The thread is told nothing by a step of another one, unless that triggers the event it waits
for. -/
theorem next_thread_other (h : Inv s) {c : Step} (hs : next s u c = some s') (htu : t ≠ u)
    {events : List Nat} (ht : (s.sys.pc t).events = some events)
    (hu : ∀ op e nonblock again, s.pc u = .triggering op e nonblock again →
      op.triggered e ∉ events) :
    s'.sys.state.thread t = s.sys.state.thread t ∧ s'.sys.pc t = s.sys.pc t := by
  cases c with
  | call op e nonblock =>
    simp only [UnixPair.next, Option.ite_none_right_eq_some, Option.some.injEq] at hs
    obtain ⟨-, rfl⟩ := hs
    exact ⟨rfl, rfl⟩
  | lock =>
    simp only [UnixPair.next] at hs
    split at hs
    · next op e nonblock hpc =>
      split at hs
      · simp at hs
      · obtain rfl := Option.some.inj hs
        obtain ⟨s₁, p, hsys, -, heq⟩ := section_eq s u op e nonblock
        rw [heq, ← hsys]
        exact ⟨rfl, rfl⟩
    · simp at hs
  | trigger slot =>
    simp only [UnixPair.next] at hs
    split at hs
    · next op e nonblock again hpc =>
      obtain rfl := Option.some.inj hs
      exact ⟨h.listening.trigger_waiting false slot ht (hu op e nonblock again hpc), rfl⟩
    · simp at hs
  | await =>
    simp only [UnixPair.next] at hs
    split at hs
    · split at hs
      · obtain ⟨⟨o, x⟩, hw, rfl⟩ := Option.map_eq_some_iff.mp hs
        have hother := await_others hw
        cases o <;> exact ⟨hother.thread t htu, hother.pc t htu⟩
      · simp at hs
    · simp at hs
  | wake =>
    obtain ⟨x, hw, rfl⟩ := Option.map_eq_some_iff.mp hs
    exact ⟨(wake_others hw).thread t htu, (wake_others hw).pc t htu⟩
  | detach =>
    simp only [UnixPair.next] at hs
    split at hs
    · obtain ⟨⟨ret, x⟩, hd, rfl⟩ := Option.map_eq_some_iff.mp hs
      have hother := detach_others h.listening hd
      cases ret <;> exact ⟨hother.thread t htu, hother.pc t htu⟩
    · simp at hs
  | signal slot =>
    obtain rfl := Option.some.inj hs
    exact ⟨(enqueue_others true slot).thread t htu, rfl⟩

/-- A run of the pair: a thread and its step, one after the other. -/
def Runs (pending : Nat → Nat) (status : End → Status) (s : State) : Prop :=
  Reach (fun s (a : Nat × Step) s' => next s a.1 a.2 = some s') anyStep (start pending status) s

/-- **A reader never wakes up a writer.** In any interleaving, no step of a thread that reads from
a socket makes a thread run that waits to write to it, and the event such a thread triggers is
another one than the writer waits for. -/
theorem reader_leaves_writer_parked {pending : Nat → Nat} {status : End → Status}
    (hr : Runs pending status s) (hp : ParkedWriter s t e) (hu : Reading s u e.peer) {c : Step}
    (hs : next s u c = some s') :
    ParkedWriter s' t e ∧
    ∀ op buf, op.reads = true → Op.triggered op e.peer ≠ (Op.write buf).awaited e := by
  refine ⟨?_, fun op buf hop => triggered_ne_awaited hop buf⟩
  have h : Inv s := hr.invariant (Inv.start pending status) fun _ _ _ h _ hs => h.next hs
  obtain ⟨buf, nb, hcall⟩ := hp.call
  obtain ⟨op, nonblock, hop, hpc⟩ := hu
  have htu : t ≠ u := by
    rintro rfl
    rcases hpc with hpc | ⟨again, hpc⟩ | hpc
    · simp [hpc] at hcall
    · simp [hpc] at hcall
    · rw [hpc] at hcall
      injection hcall with hc
      simp [hc, Op.reads] at hop
  have hnot : ∀ op' e' nonblock' again', s.pc u = .triggering op' e' nonblock' again' →
      op'.triggered e' ∉ [e.peer.event] := by
    intro op' e' nonblock' again' hpc'
    rcases hpc with hpc | ⟨again, hpc⟩ | hpc
    · simp [hpc] at hpc'
    · rw [hpc'] at hpc
      injection hpc with hopp hee
      subst hopp hee
      simpa [Op.awaited] using triggered_ne_awaited hop buf
    · simp [hpc] at hpc'
  obtain ⟨hthread, hspc⟩ := next_thread_other h hs htu (by rw [hp.waits]; rfl) hnot
  exact
    { call := ⟨buf, nb, (next_pc_other hs htu).trans hcall⟩
      waits := hspc.trans hp.waits
      parked := by rw [hthread]; exact hp.parked }

/-- Thread 1 fills the buffer of `b`, wants to write one more byte and waits; thread 2 is about to
read all of it. -/
def fullSteps : List (Nat × Step) :=
  [(1, .call (.write (List.replicate 0x4000 0)) .a false), (1, .lock), (1, .trigger fun _ => true),
    (1, .call (.write [0]) .a false), (1, .lock), (1, .await), (1, .lock), (1, .await),
    (2, .call (.read 0x4000) .b false)]

theorem full_run : ∃ s s₁ s₂, Runs (fun _ => 0) (fun _ => {}) s ∧ ParkedWriter s 1 .a ∧
    Reading s 2 .b ∧ next s 2 .lock = some s₁ ∧ (s.ring .b).used = 0x4000 ∧
    (s₁.ring .b).used = 0 ∧ next s₁ 2 (.trigger fun _ => true) = some s₂ ∧
    (s₂.sys.state.thread 1).enqueued = false := by
  have hparked : (runAll (fun s (a : Nat × Step) => next s a.1 a.2) fullSteps
      (start (fun _ => 0) (fun _ => {}))).map
      (fun s => (s.pc 1, s.sys.pc 1, (s.sys.state.thread 1).enqueued, s.pc 2))
      = some (.awaiting (.write [0]) .a false, .waiting [1], false,
          .locking (.read 0x4000) .b false) := by
    decide +kernel
  have hread : (runAll (fun s (a : Nat × Step) => next s a.1 a.2) fullSteps
      (start (fun _ => 0) (fun _ => {}))).map
      (fun s => ((s.ring .b).used, (next s 2 .lock).map fun s₁ => ((s₁.ring .b).used,
        (next s₁ 2 (.trigger fun _ => true)).map fun s₂ => (s₂.sys.state.thread 1).enqueued)))
      = some (0x4000, some (0, some false)) := by
    decide +kernel
  obtain ⟨s, hs, hfacts⟩ := Option.map_eq_some_iff.mp hparked
  rw [hs] at hread
  simp only [Prod.mk.injEq, Option.map_eq_some_iff, Option.map_some, Option.some.injEq]
    at hfacts hread
  obtain ⟨hpc, hspc, henq, hpc₂⟩ := hfacts
  obtain ⟨hused, s₁, hs₁, hused₁, s₂, hs₂, henq₂⟩ := hread
  exact ⟨s, s₁, s₂, Reach.of_runAll .refl (fun _ _ => trivial) hs, ⟨⟨_, _, hpc⟩, hspc, henq⟩,
    ⟨_, _, rfl, Or.inl hpc₂⟩, hs₁, hused, hused₁, hs₂, henq₂⟩

theorem reader_leaves_writer_parked_full : ∃ s s', Runs (fun _ => 0) (fun _ => {}) s ∧
    ParkedWriter s 1 .a ∧ Reading s 2 .b ∧ next s 2 .lock = some s' ∧ ParkedWriter s' 1 .a := by
  obtain ⟨s, s₁, -, hr, hp, hu, hs, -⟩ := full_run
  exact ⟨s, s₁, hr, hp, hu, hs, (reader_leaves_writer_parked hr hp hu hs).1⟩

/-- The buffer is empty and the writer sleeps on. -/
theorem reader_wakes_no_writer : ¬ ∀ pending status s t e u s₁ s₂, Runs pending status s →
    ParkedWriter s t e → Reading s u e.peer → next s u .lock = some s₁ →
    (s₁.ring e.peer).used < (s.ring e.peer).used →
    next s₁ u (.trigger fun _ => true) = some s₂ → (s₂.sys.state.thread t).enqueued = true := by
  intro hall
  obtain ⟨s, s₁, s₂, hr, hp, hu, hs₁, hused, hused₁, hs₂, henq⟩ := full_run
  have hless : (s₁.ring .b).used < (s.ring .b).used := by
    rw [hused, hused₁]
    decide
  have := hall _ _ s 1 .a 2 s₁ s₂ hr hp hu hs₁ hless hs₂
  simp [henq] at this

end Lyre.UnixPair
