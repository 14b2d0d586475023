import Lyre.Properties.EventThreads
import Lyre.Sched.Futex

/-!
# Waiters that a wake must not miss

A waiter has tested `*ptr` before it looks for the event, and it has the event before it listens to
it. A wake that comes in between finds no event, and nothing is left of it; or it finds an event,
and what it leaves depends on who listens: one trigger if nobody does, and nothing at all otherwise.

* `Covered`: the wake that leaves enough for the waiters in between.
* `no_waiter_blocked`: after such a wake nobody stays blocked, whatever the order of the steps.
-/

namespace Lyre.Futex

open Infra Events

variable {phys : Nat} {expected : Int} {s s' : State} {t : Nat}

/-- The waiter has tested the value and does not listen to the event yet. -/
def InWindow (s : State) (t : Nat) : Prop :=
  s.pc t = .tested ∨ ∃ e, s.pc t = .found e ∧ s.sys.pc t = .idle

/-- At most `n` waiters are in between. -/
def Few (s : State) (n : Nat) : Prop :=
  ∃ ws : List Nat, (∀ t, InWindow s t → t ∈ ws) ∧ ws.length ≤ n

/-- The thread waits, and nothing makes it run. -/
def Blocked (s : State) (t : Nat) : Prop :=
  (∃ events, s.sys.pc t = .waiting events) ∧ (s.sys.state.thread t).enqueued = false

/-- A wake that nobody in between misses: no waiter is in between if the event is not there yet or
if somebody listens to it, and otherwise no more of them than there are triggers afterwards. The
threads that are woken up find room in the run queue. -/
def Covered (phys : Nat) (s : State) : Step → Prop
  | .find => s.futexHashmap phys = none → Few s 0
  | .trigger slot => ∀ e, s.waker = .holding e →
      ((s.sys.state.event e).listeners = [] → Few s ((s.sys.state.event e).pending + 1)) ∧
      ((s.sys.state.event e).listeners ≠ [] → Few s 0) ∧
      ∀ l ∈ (s.sys.state.event e).listeners, slot l.thread = true
  | _ => True

/-! ## The invariant -/

/-- The triggers that wait for a waiter. -/
def pendingAt (phys : Nat) (s : State) : Nat :=
  ((s.futexHashmap phys).map fun e => (s.sys.state.event e).pending).getD 0

/-- Enough triggers for all that are in between, and nobody listens. -/
def Served (phys : Nat) (s : State) : Prop :=
  Few s (pendingAt phys s) ∧
  ∀ e, s.futexHashmap phys = some e → (s.sys.state.event e).listeners = []

structure Inv (phys : Nat) (expected : Int) (s : State) : Prop where
  listening : Listening s.sys
  listed : Listed s.sys
  call : ∀ t events, (s.sys.pc t).events = some events → ∃ e, s.pc t = .found e ∧ events = [e]
  key : ∀ t e, s.pc t = .found e → s.futexHashmap phys = some e
  held : ∀ e, s.waker = .holding e → s.futexHashmap phys = some e
  value : s.waker ≠ .before → s.value ≠ expected
  served : s.waker = .done → Served phys s

theorem Inv.start (phys : Nat) (expected value : Int) (futexHashmap : Nat → Option Nat)
    (allocated : Nat) (pending : Nat → Nat) :
    Inv phys expected (start value futexHashmap allocated pending) where
  listening := Listening.start _ _
  listed := Listed.start _ _
  call := by simp [Futex.start, System.start, Events.Pc.events]
  key := by simp [Futex.start]
  held := by simp [Futex.start]
  value := by simp [Futex.start]
  served := by simp [Futex.start]

/-- **Nobody sleeps** once the wake has served all. -/
theorem Inv.not_blocked (h : Inv phys expected s) (hd : s.waker = .done) (t : Nat) :
    ¬ Blocked s t := by
  rintro ⟨⟨events, hpc⟩, hq⟩
  obtain ⟨e, hfound, rfl⟩ := h.call t events (by simp [hpc, Events.Pc.events])
  have hl := h.listed t [e] hpc hq 0 e rfl
  rw [(h.served hd).2 e (h.key t e hfound)] at hl
  exact List.not_mem_nil hl

/-- A thread that has no event is outside of `event_await`. -/
theorem Inv.idle (h : Inv phys expected s) (hpc : ∀ e, s.pc t ≠ .found e) :
    s.sys.pc t = .idle := by
  cases hp : s.sys.pc t with
  | idle => rfl
  | waiting events | woken events ret =>
    obtain ⟨e, hc, -⟩ := h.call t events (by simp [hp, Events.Pc.events])
    exact absurd hc (hpc e)

theorem Few.mono {n m : Nat} (h : Few s n) (hnm : n ≤ m)
    (hw : ∀ t, InWindow s' t → InWindow s t) : Few s' m := by
  obtain ⟨ws, hall, hlen⟩ := h
  exact ⟨ws, fun t ht => hall t (hw t ht), Nat.le_trans hlen hnm⟩

/-- A thread outside of `event_await` goes on to another place. -/
theorem Inv.setPc (h : Inv phys expected s) (ht : s.sys.pc t = .idle) {p : Pc}
    (hp : ∀ e, p = .found e → s.futexHashmap phys = some e)
    (hw : s.waker = .done → p = .idle ∨ InWindow s t) : Inv phys expected (s.setPc t p) where
  listening := h.listening
  listed := h.listed
  call := by
    intro v events hv
    have hvt : v ≠ t := by
      rintro rfl
      have : (s.sys.pc v).events = some events := hv
      simp [ht, Events.Pc.events] at this
    simp only [State.setPc, Function.update_of_ne hvt]
    exact h.call v events hv
  key := by
    intro v e hv
    by_cases hvt : v = t
    · subst hvt
      exact hp e (by simpa [State.setPc] using hv)
    · simp only [State.setPc, Function.update_of_ne hvt] at hv
      exact h.key v e hv
  held := h.held
  value := h.value
  served := by
    intro hd
    obtain ⟨hfew, hnil⟩ := h.served hd
    refine ⟨hfew.mono (Nat.le_refl _) fun v hv => ?_, hnil⟩
    by_cases hvt : v = t
    · subst hvt
      rcases hw hd with rfl | hwin
      · simp [InWindow, State.setPc] at hv
      · exact hwin
    · simpa [InWindow, State.setPc, Function.update_of_ne hvt] using hv

theorem Inv.setSys {x : System} (h : Inv phys expected s) (hl : Listening x) (hd : Listed x)
    (hp : ∀ v, (x.pc v).events = (s.sys.pc v).events)
    (he : ∀ e, (x.state.event e).listeners = (s.sys.state.event e).listeners ∧
      (x.state.event e).pending = (s.sys.state.event e).pending) :
    Inv phys expected { s with sys := x } where
  listening := hl
  listed := hd
  call := by
    intro v events hv
    exact h.call v events (by rw [← hp]; exact hv)
  key := h.key
  held := h.held
  value := h.value
  served := by
    intro hdone
    obtain ⟨hfew, hnil⟩ := h.served hdone
    refine ⟨hfew.mono (by simp [pendingAt, he]) fun v hv => ?_, fun e hkey => ?_⟩
    · refine hv.imp id fun ⟨e, hfound, hidle⟩ => ⟨e, hfound, ?_⟩
      have := hp v
      rw [show x.pc v = .idle from hidle] at this
      cases hc : s.sys.pc v with
      | idle => rfl
      | waiting | woken => simp [hc, Events.Pc.events] at this
    · rw [(he e).1]
      exact hnil e hkey

/-! ## The steps of a waiter -/

theorem Inv.test (h : Inv phys expected s) (hpc : s.pc t = .idle) :
    Inv phys expected (if s.value = expected then s.setPc t .tested else s) := by
  split
  · next hv =>
    have hbefore : s.waker = .before := by
      by_contra hne
      exact h.value hne hv
    exact h.setPc (h.idle (by simp [hpc])) (by simp) (by simp [hbefore])
  · exact h

theorem Inv.no_event (h : Inv phys expected s) (hnone : s.futexHashmap phys = none) (v : Nat) :
    s.sys.pc v = .idle :=
  h.idle fun e he => by simp [h.key v e he] at hnone

theorem Inv.lookup (h : Inv phys expected s) (hpc : s.pc t = .tested) :
    Inv phys expected (s.lookup phys t) := by
  unfold State.lookup
  have hwin : InWindow s t := Or.inl hpc
  have hidle : s.sys.pc t = .idle := h.idle (by simp [hpc])
  split
  · next e hkey =>
    refine h.setPc hidle (fun e' he' => ?_) (fun _ => Or.inr hwin)
    obtain rfl : e = e' := by simpa using he'
    exact hkey
  · next hnone =>
    have hout := h.no_event hnone
    have hnil : ∀ e, (s.sys.state.event e).listeners = [] := by
      intro e
      refine List.eq_nil_iff_forall_not_mem.mpr fun l hl => ?_
      exact h.listening.idle (hout l.thread) hl rfl
    have hnew : Inv phys expected { s with
        sys := { s.sys with state := setEvent s.sys.state s.allocated .zero }
        futexHashmap := Function.update s.futexHashmap phys (some s.allocated)
        allocated := s.allocated + 1 } := by
      refine ⟨?_, ?_, fun v events hv => ?_, fun v e hv => ?_, fun e he => ?_, h.value,
        fun hd => ?_⟩
      · refine h.listening.congr (fun e => ?_) (fun _ => rfl) (fun _ => rfl)
        by_cases he : e = s.allocated
        · subst he; simp [hnil, Event.zero]
        · simp [setEvent_other _ he]
      · intro v events hv
        simp [hout v] at hv
      · simp [hout v, Events.Pc.events] at hv
      · simp [h.key v e hv] at hnone
      · simp [h.held e he] at hnone
      · -- Nothing was kept for the thread, so the wake has not come yet.
        obtain ⟨ws, hall, hlen⟩ := (h.served hd).1
        have := List.length_pos_of_mem (hall t hwin)
        simp only [pendingAt, hnone, Option.map_none, Option.getD_none] at hlen
        omega
    exact hnew.setPc hidle (fun e he => by simpa using he) fun _ => Or.inr (Or.inl hpc)

/-- A waiter that takes a trigger leaves one less for the others, and is one less of them. -/
theorem Served.consume {e : Nat} (h : Served phys s) (hkey : s.futexHashmap phys = some e)
    (hwin : InWindow s t) :
    Served phys ({ s with sys := s.sys.consume e }.setPc t .idle) := by
  obtain ⟨⟨ws, hall, hlen⟩, hnil⟩ := h
  have hmem := hall t hwin
  refine ⟨⟨ws.erase t, fun v hv => ?_, ?_⟩, fun e' he' => ?_⟩
  · have hvt : v ≠ t := by
      rintro rfl
      simp [InWindow, State.setPc] at hv
    refine (List.mem_erase_of_ne hvt).mpr (hall v ?_)
    simpa [InWindow, State.setPc, Function.update_of_ne hvt, System.consume] using hv
  · have hpos := List.length_pos_of_mem hmem
    rw [List.length_erase_of_mem hmem]
    simp only [pendingAt, hkey, Option.map_some, Option.getD_some] at hlen
    simp only [pendingAt, State.setPc, hkey, Option.map_some, Option.getD_some, System.consume,
      setEvent_event]
    omega
  · obtain rfl : e = e' := by simpa [State.setPc, hkey] using he'
    simpa [State.setPc, System.consume] using hnil e hkey

theorem Inv.await (h : Inv phys expected s) {e : Nat} (hpc : s.pc t = .found e)
    (hidle : s.sys.pc t = .idle) {o : Outcome} {x : System}
    (hw : s.sys.await t [e] true = some (o, x)) :
    Inv phys expected (s.afterAwait t (o, x)) := by
  have hkey := h.key t e hpc
  have hwin : InWindow s t := Or.inr ⟨e, hpc, hidle⟩
  have hl := h.listening.await hidle (List.nodup_singleton e) hw
  have hd := h.listed.await (List.nodup_singleton e) hw
  cases await_cases hw with
  | wouldBlock => exact h.setPc hidle (by simp) fun _ => Or.inl rfl
  | ready i e' he' =>
    obtain rfl : e = e' := by
      cases i with
      | zero => simpa using he'
      | succ i => simp at he'
    have h₁ := h.setPc hidle (p := .idle) (by simp) fun _ => Or.inl rfl
    exact
      { listening := hl
        listed := hd
        call := h₁.call
        key := h₁.key
        held := h₁.held
        value := h₁.value
        served := fun hdone => (h.served hdone).consume hkey hwin }
  | blocked s₁ hp =>
    refine ⟨hl, hd, fun v events hv => ?_, h.key, h.held, h.value, fun hdone => ?_⟩
    · by_cases hvt : v = t
      · subst hvt
        simp only [State.afterAwait, System.setPc, Function.update_self, Events.Pc.events,
          Option.some.injEq] at hv
        exact ⟨e, hpc, hv.symm⟩
      · simp only [State.afterAwait, System.setPc, Function.update_of_ne hvt] at hv
        exact h.call v events hv
    · -- After the wake there is a trigger for everybody who comes here.
      obtain ⟨ws, hall, hlen⟩ := (h.served hdone).1
      have hpos := List.length_pos_of_mem (hall t hwin)
      simp only [pendingAt, hkey, Option.map_some, Option.getD_some,
        hp e List.mem_cons_self] at hlen
      omega

theorem Inv.detach (h : Inv phys expected s) {ret : Option Nat} {x : System}
    (hd : s.sys.detach t = some (ret, x)) :
    Inv phys expected ({ s with sys := x }.setPc t .idle) := by
  have hl := h.listening.detach hd
  have hlisted := h.listed.detach h.listening hd
  have hothers := detach_others h.listening hd
  obtain ⟨events, hpc, rfl⟩ := detach_cases hd
  refine ⟨hl, hlisted, fun v events hv => ?_, fun v e hv => ?_, h.held, h.value, fun hdone => ?_⟩
  · have hvt : v ≠ t := by
      rintro rfl
      simp [State.setPc, System.setPc, Events.Pc.events] at hv
    simp only [State.setPc, Function.update_of_ne hvt] at hv ⊢
    exact h.call v events (hothers.pc v hvt ▸ hv)
  · have hvt : v ≠ t := by
      rintro rfl
      simp [State.setPc] at hv
    simp only [State.setPc, Function.update_of_ne hvt] at hv
    exact h.key v e hv
  · obtain ⟨hfew, hnil⟩ := h.served hdone
    have hsame := detachListeners_pending h.listening hpc
    refine ⟨hfew.mono ?_ fun v hv => ?_, fun e hkey => (hsame e).2 (hnil e hkey)⟩
    · simp only [pendingAt, State.setPc, System.setPc, hsame]
      exact Nat.le_refl _
    · by_cases hvt : v = t
      · subst hvt
        simp [InWindow, State.setPc] at hv
      · simpa [InWindow, State.setPc, System.setPc, Function.update_of_ne hvt] using hv

/-! ## The steps of the waker -/

theorem Inv.trigger (h : Inv phys expected s) {e : Nat} {slot : Nat → Bool}
    (hw : s.waker = .holding e) (hc : Covered phys s (.trigger slot)) :
    Inv phys expected { s with sys := s.sys.trigger e false slot, waker := .done } := by
  obtain ⟨hempty, hfull, hslot⟩ := hc e hw
  have hkey := h.held e hw
  refine ⟨h.listening.trigger false slot, h.listed.trigger hslot, h.call, h.key, by simp,
    fun _ => h.value (by simp [hw]), fun _ => ⟨?_, fun e' he' => ?_⟩⟩
  · rcases eventTrigger_cases e false slot s.sys.state with ⟨hnil, heq⟩ | ⟨hne, heq⟩
    · refine (hempty hnil).mono ?_ fun _ hv => hv
      simp [pendingAt, hkey, System.trigger, heq]
    · refine (hfull hne).mono (Nat.zero_le _) fun _ hv => hv
  · obtain rfl : e = e' := by simpa [hkey] using he'
    exact trigger_listeners ..

theorem Inv.next {c : Step} (h : Inv phys expected s) (hc : Covered phys s c)
    (hs : next phys expected s c = some s') : Inv phys expected s' := by
  cases c with
  | test t =>
    simp only [Futex.next, Option.ite_none_right_eq_some, Option.some.injEq] at hs
    obtain ⟨hpc, rfl⟩ := hs
    exact h.test hpc
  | lookup t =>
    simp only [Futex.next, Option.ite_none_right_eq_some, Option.some.injEq] at hs
    obtain ⟨⟨hpc, -⟩, rfl⟩ := hs
    exact h.lookup hpc
  | await t =>
    simp only [Futex.next] at hs
    split at hs
    · next e hpc =>
      split at hs
      · next hidle =>
        obtain ⟨⟨o, x⟩, hw, rfl⟩ := Option.map_eq_some_iff.mp hs
        exact h.await hpc hidle hw
      · simp at hs
    · simp at hs
  | wake t =>
    obtain ⟨x, hw, rfl⟩ := Option.map_eq_some_iff.mp hs
    refine h.setSys (h.listening.wake hw) (h.listed.wake hw) (wake_events hw) ?_
    obtain ⟨events, -, -, rfl⟩ := wake_cases hw
    exact fun _ => ⟨rfl, rfl⟩
  | detach t =>
    simp only [Futex.next] at hs
    split at hs
    · obtain ⟨⟨ret, x⟩, hd, rfl⟩ := Option.map_eq_some_iff.mp hs
      exact h.detach hd
    · simp at hs
  | signal t slot =>
    obtain rfl := Option.some.inj hs
    exact h.setSys (h.listening.enqueue true slot) (h.listed.enqueue true slot) (fun _ => rfl)
      (by simp [System.enqueue])
  | store value =>
    simp only [Futex.next, Option.ite_none_right_eq_some, Option.some.injEq] at hs
    obtain ⟨⟨-, hv⟩, rfl⟩ := hs
    exact ⟨h.listening, h.listed, h.call, h.key, by simp, fun _ => hv, by simp⟩
  | find =>
    simp only [Futex.next, Option.ite_none_right_eq_some] at hs
    obtain ⟨hw, hs⟩ := hs
    have hv := h.value (by simp [hw])
    split at hs
    · next hnone =>
      obtain rfl := Option.some.inj hs
      refine ⟨h.listening, h.listed, h.call, h.key, by simp, fun _ => hv, fun _ => ⟨?_, ?_⟩⟩
      · exact (hc hnone).mono (Nat.zero_le _) fun _ hv => hv
      · simp [hnone]
    · next e hkey =>
      obtain rfl := Option.some.inj hs
      exact ⟨h.listening, h.listed, h.call, h.key, by simp [hkey], fun _ => hv, by simp⟩
  | trigger slot =>
    simp only [Futex.next] at hs
    split at hs
    · next e hw =>
      obtain rfl := Option.some.inj hs
      exact h.trigger hw hc
    · simp at hs

/-- **No waiter stays blocked**, as long as the wake leaves enough for those that have tested the
value and do not listen yet: in every state that such steps lead to after the wake, nobody sleeps.
All who wait then have tested the value before the store. -/
theorem no_waiter_blocked {value : Int} {futexHashmap : Nat → Option Nat} {allocated : Nat}
    {pending : Nat → Nat}
    (hr : Reach (fun s c s' => next phys expected s c = some s') (Covered phys)
      (start value futexHashmap allocated pending) s) (hd : s.waker = .done) (t : Nat) :
    ¬ Blocked s t := by
  have h : Inv phys expected s :=
    hr.invariant (Inv.start ..) fun _ _ _ h hc hs => h.next hc hs
  exact h.not_blocked hd t

/-- The steps that ask for nothing. -/
def Step.waits : Step → Prop
  | .find => False
  | .trigger _ => False
  | _ => True

theorem covered_of_waits {c : Step} (h : c.waits) (s : State) : Covered phys s c := by
  cases c <;> trivial

/-- Thread 1 sleeps when the wake comes. -/
theorem no_waiter_blocked_one : ∃ s,
    Reach (fun s c s' => next 5 7 s c = some s') (Covered 5)
      (start 7 (fun _ => none) 0 (fun _ => 0)) s ∧
    s.waker = .done ∧ s.sys.pc 1 = .waiting [0] ∧ ¬ Blocked s 1 := by
  obtain ⟨s, hs, hwaker, hkey, hpc, hsys⟩ : ∃ s, runAll (next 5 7)
      [.test 1, .lookup 1, .await 1, .store 8] (start 7 (fun _ => none) 0 (fun _ => 0)) = some s ∧
      s.waker = .stored ∧ s.futexHashmap 5 = some 0 ∧
      (∀ t, s.pc t = if t = 1 then .found 0 else .idle) ∧ s.sys.pc 1 = .waiting [0] := by
    refine ⟨_, rfl, rfl, rfl, fun t => ?_, rfl⟩
    by_cases ht : t = 1
    · subst ht; rfl
    · exact (Function.update_of_ne ht ..).trans ((Function.update_of_ne ht ..).trans
        (if_neg ht).symm)
  have hwaits : Reach (fun s c s' => next 5 7 s c = some s') (fun _ c => Step.waits c)
      (start 7 (fun _ => none) 0 (fun _ => 0)) s :=
    Reach.of_runAll .refl (by simp [Step.waits]) hs
  have hreach : Reach (fun s c s' => next 5 7 s c = some s') (Covered 5)
      (start 7 (fun _ => none) 0 (fun _ => 0)) s :=
    hwaits.mono fun s _ h => covered_of_waits h s
  have hfew : ∀ n, Few { s with waker := .holding 0 } n := by
    refine fun n => ⟨[], fun t ht => ?_, Nat.zero_le n⟩
    by_cases ht₁ : t = 1
    · subst ht₁
      simp [InWindow, hpc, hsys] at ht
    · simp [InWindow, hpc, ht₁] at ht
  have hfind : next 5 7 s .find = some { s with waker := .holding 0 } := by
    simp [next, hwaker, hkey]
  have hholding := hreach.tail (a := .find) (by simp [Covered, hkey]) hfind
  have hcovered : Covered 5 { s with waker := .holding 0 } (.trigger fun _ => true) :=
    fun e _ => ⟨fun _ => hfew _, fun _ => hfew _, fun _ _ => rfl⟩
  have hdone := hholding.tail (a := .trigger fun _ => true) hcovered rfl
  exact ⟨_, hdone, rfl, hsys, no_waiter_blocked hdone rfl 1⟩

/-- Thread 1 has tested the value when the wake comes and finds no event. It then makes one, and
waits for it. -/
theorem waiter_blocked_one : ¬ ∀ s,
    Reach (fun s c s' => next 5 7 s c = some s') anyStep
      (start 7 (fun _ => none) 0 (fun _ => 0)) s →
    s.waker = .done → ∀ t, ¬ Blocked s t := by
  intro hall
  have hrun : (runAll (next 5 7) [.test 1, .store 8, .find, .lookup 1, .await 1]
      (start 7 (fun _ => none) 0 (fun _ => 0))).map
      (fun s => (s.waker, s.sys.pc 1, (s.sys.state.thread 1).enqueued))
      = some (.done, .waiting [0], false) := by
    decide +kernel
  obtain ⟨s, hs, hfacts⟩ := Option.map_eq_some_iff.mp hrun
  simp only [Prod.mk.injEq] at hfacts
  obtain ⟨hd, hpc, hq⟩ := hfacts
  exact hall s (Reach.of_runAll .refl (fun _ _ => trivial) hs) hd 1 ⟨⟨_, hpc⟩, hq⟩

end Lyre.Futex
