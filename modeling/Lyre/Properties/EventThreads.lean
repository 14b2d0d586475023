import Lyre.Infra.Run
import Lyre.Lib.Event
import Mathlib.Data.List.Nodup
import Mathlib.Data.List.Perm.Basic

/-!
# What the functions of `event.c` do

Each section of `event_await` and `event_trigger`, for a thread that waits for a list of distinct
events.
-/

namespace Lyre.Events

variable {s s' : State} {t e i : Nat} {events : List Nat}

@[simp] theorem setEvent_thread (v : Event) : (setEvent s e v).thread = s.thread := rfl
@[simp] theorem setThread_event (v : Thread) : (setThread s t v).event = s.event := rfl
@[simp] theorem setEvent_event (v : Event) : (setEvent s e v).event e = v :=
  Function.update_self ..
@[simp] theorem setThread_thread (v : Thread) : (setThread s t v).thread t = v :=
  Function.update_self ..

theorem setEvent_other {e' : Nat} (v : Event) (h : e' ≠ e) :
    (setEvent s e v).event e' = s.event e' :=
  Function.update_of_ne h ..

/-! ## Pending events -/

theorem checkForPendingFrom_none : ∀ {events : List Nat} {i : Nat},
    checkForPendingFrom i events s = (none, s') →
    s' = s ∧ ∀ e ∈ events, (s.event e).pending = 0
  | [], _, h => ⟨(Prod.mk.inj h).2.symm, fun e he => absurd he List.not_mem_nil⟩
  | e :: events, i, h => by
    rw [checkForPendingFrom] at h
    split at h
    · simp at h
    · next hp =>
      obtain ⟨hs, hrest⟩ := checkForPendingFrom_none h
      refine ⟨hs, fun e' he' => ?_⟩
      rcases List.mem_cons.mp he' with rfl | he'
      · omega
      · exact hrest e' he'

theorem checkForPendingFrom_some : ∀ {events : List Nat} {i j : Nat},
    checkForPendingFrom i events s = (some j, s') →
    ∃ e, i ≤ j ∧ events[j - i]? = some e ∧ 0 < (s.event e).pending ∧
      s' = setEvent s e { s.event e with pending := (s.event e).pending - 1 }
  | [], _, _, h => by simp [checkForPendingFrom] at h
  | e :: events, i, j, h => by
    rw [checkForPendingFrom] at h
    split at h
    · next hp =>
      obtain ⟨hj, hs⟩ := Prod.mk.inj h
      obtain rfl : i = j := Option.some.inj hj
      exact ⟨e, Nat.le_refl _, by simp, hp, hs.symm⟩
    · obtain ⟨e', hij, he', hp, hs⟩ := checkForPendingFrom_some h
      refine ⟨e', by omega, ?_, hp, hs⟩
      rw [show j - i = (j - (i + 1)) + 1 by omega, List.getElem?_cons_succ]
      exact he'

/-! ## Listeners -/

/-- The thread has become a listener of the events, each with its index counted from `k`. -/
structure Attached (s s' : State) (t k : Nat) (events : List Nat) : Prop where
  event : ∀ i e, events[i]? = some e →
    s'.event e = { s.event e with listeners := (s.event e).listeners ++ [⟨t, k + i⟩] }
  thread : s'.thread t
    = { s.thread t with attachedEvents := (s.thread t).attachedEvents ++ events }

theorem attachListenersFrom_spec : ∀ {events : List Nat} {k : Nat} {s : State}, events.Nodup →
    attachListenersFrom t k events s = some s' →
    Attached s s' t k events ∧ ∀ e, e ∉ events → s'.event e = s.event e
  | [], k, s, _, h => by
    obtain rfl : s = s' := Option.some.inj h
    exact ⟨⟨fun i e he => by simp at he, by simp⟩, fun _ _ => rfl⟩
  | e₀ :: events, k, s, hn, h => by
    obtain ⟨hne, hn⟩ := List.nodup_cons.mp hn
    rw [attachListenersFrom] at h
    split at h
    · simp at h
    · simp only at h
      split at h
      · simp at h
      · obtain ⟨hatt, hrest⟩ := attachListenersFrom_spec hn h
        simp only [setThread_event, setEvent_thread] at hatt hrest
        have hfirst := hrest e₀ hne
        rw [setEvent_event] at hfirst
        refine ⟨⟨fun i e he => ?_, ?_⟩, fun e he => ?_⟩
        · cases i with
          | zero =>
            obtain rfl : e₀ = e := by simpa using he
            exact hfirst
          | succ i =>
            rw [List.getElem?_cons_succ] at he
            have hee : e ≠ e₀ := fun hc => hne (hc ▸ List.mem_of_getElem? he)
            rw [hatt.event i e he, setThread_event, setEvent_other _ hee]
            simp [Nat.add_assoc, Nat.add_comm 1 i]
        · rw [hatt.thread]
          simp
        · obtain ⟨hee, he⟩ := List.ne_and_not_mem_of_not_mem_cons he
          rw [hrest e he, setEvent_other _ hee]

theorem attachListeners_spec (hn : events.Nodup) (h : attachListeners events t s = some s') :
    (∀ i e, events[i]? = some e →
      s'.event e = { s.event e with listeners := (s.event e).listeners ++ [⟨t, i⟩] }) ∧
    s'.thread t = { s.thread t with attachedEvents := events } := by
  obtain ⟨hatt, -⟩ := attachListenersFrom_spec hn h
  refine ⟨fun i e he => ?_, ?_⟩
  · rw [hatt.event i e he, Nat.zero_add]
    rfl
  · rw [hatt.thread]
    simp

@[simp] theorem removeListener_nil : removeListener t [] = [] := rfl

@[simp] theorem removeListener_singleton (w : Nat) : removeListener t [⟨t, w⟩] = [] := by
  simp [removeListener, List.findIdx?_cons]

/-- The loop of `detach_listeners`. -/
theorem detach_fold : ∀ {events : List Nat} {s : State}, events.Nodup →
    let s' := events.foldl (fun s e => setEvent s e
      { s.event e with listeners := removeListener t (s.event e).listeners }) s
    s'.thread = s.thread ∧
      (∀ e ∈ events, s'.event e
        = { s.event e with listeners := removeListener t (s.event e).listeners }) ∧
      ∀ e, e ∉ events → s'.event e = s.event e
  | [], s, _ => ⟨rfl, fun e he => absurd he List.not_mem_nil, fun _ _ => rfl⟩
  | e₀ :: events, s, hn => by
    obtain ⟨hne, hn⟩ := List.nodup_cons.mp hn
    obtain ⟨hthread, hin, hout⟩ := detach_fold (s := setEvent s e₀
      { s.event e₀ with listeners := removeListener t (s.event e₀).listeners }) hn
    refine ⟨hthread, fun e he => ?_, fun e he => ?_⟩
    · rcases List.mem_cons.mp he with rfl | he
      · exact (hout _ hne).trans (setEvent_event _)
      · have hee : e ≠ e₀ := fun hc => hne (hc ▸ he)
        refine (hin e he).trans ?_
        rw [setEvent_other _ hee]
    · obtain ⟨hee, he⟩ := List.ne_and_not_mem_of_not_mem_cons he
      exact (hout e he).trans (setEvent_other _ hee)

theorem detachListeners_spec (hn : (s.thread t).attachedEvents.Nodup) :
    (detachListeners t s).thread t = { s.thread t with attachedEvents := [] } ∧
    ∀ e ∈ (s.thread t).attachedEvents, (detachListeners t s).event e
      = { s.event e with listeners := removeListener t (s.event e).listeners } := by
  obtain ⟨hthread, hin, -⟩ := detach_fold (t := t) (s := s) hn
  refine ⟨?_, hin⟩
  unfold detachListeners
  rw [setThread_thread, hthread]

/-! ## Triggers -/

theorem eventTrigger_pending {slot : Nat → Bool} (h : (s.event e).listeners = []) :
    (eventTrigger e false slot s).2
      = setEvent s e { s.event e with pending := (s.event e).pending + 1 } := by
  simp [eventTrigger, h]

theorem eventTrigger_wake {slot : Nat → Bool} {w : Nat} (h : (s.event e).listeners = [⟨t, w⟩])
    (hq : (s.thread t).enqueued = false) :
    (eventTrigger e false slot s).2 = setEvent (setThread s t
      { s.thread t with whichEvent := w, enqueuedBySignal := false, enqueued := slot t }) e
      { s.event e with listeners := [] } := by
  simp [eventTrigger, h, schedEnqueueThread, hq]
  simp [setThread, setEvent]

end Lyre.Events

/-!
## Who listens to an event

* `Listening`: the listeners of an event are distinct threads, each inside of an `event_await` on
  that event and with the index the event has there.
* The sections of `event_await` and `event_trigger` keep this, in whatever order they come. A thread
  whose `event_await` has returned listens to nothing.
-/

namespace Lyre.Events

open Infra

variable {x x' : System} {s s' : State} {t e : Nat} {events : List Nat}

/-! ## Frames -/

theorem attachListenersFrom_other : ∀ {events : List Nat} {k : Nat} {s : State},
    attachListenersFrom t k events s = some s' → ∀ u, u ≠ t → s'.thread u = s.thread u
  | [], _, s, h => by
    obtain rfl : s = s' := Option.some.inj h
    exact fun _ _ => rfl
  | e :: events, k, s, h => by
    rw [attachListenersFrom] at h
    split at h
    · simp at h
    · simp only at h
      split at h
      · simp at h
      · intro u hu
        rw [attachListenersFrom_other h u hu]
        exact Function.update_of_ne hu ..

theorem attachListeners_other (h : attachListeners events t s = some s') {u : Nat} (hu : u ≠ t) :
    s'.thread u = s.thread u := by
  rw [attachListenersFrom_other h u hu]
  exact Function.update_of_ne hu ..

theorem detachListeners_other {u : Nat} (hn : (s.thread t).attachedEvents.Nodup) (hu : u ≠ t) :
    (detachListeners t s).thread u = s.thread u := by
  obtain ⟨hthread, -⟩ := detach_fold (t := t) (s := s) hn
  exact (Function.update_of_ne hu ..).trans (congrFun hthread u)

@[simp] theorem schedEnqueueThread_event (bySignal slot : Bool) :
    (schedEnqueueThread s t bySignal slot).event = s.event := by
  unfold schedEnqueueThread
  split <;> rfl

@[simp] theorem schedDequeueThread_event : (schedDequeueThread s t).event = s.event := by
  unfold schedDequeueThread
  split <;> rfl

@[simp] theorem schedEnqueueThread_attached (bySignal slot : Bool) (u : Nat) :
    ((schedEnqueueThread s t bySignal slot).thread u).attachedEvents
      = (s.thread u).attachedEvents := by
  unfold schedEnqueueThread
  split
  · rfl
  · by_cases hu : u = t
    · subst hu; simp
    · simp [setThread, Function.update_of_ne hu]

@[simp] theorem schedDequeueThread_attached (u : Nat) :
    ((schedDequeueThread s t).thread u).attachedEvents = (s.thread u).attachedEvents := by
  unfold schedDequeueThread
  split
  · by_cases hu : u = t
    · subst hu; simp
    · simp [setThread, Function.update_of_ne hu]
  · rfl

/-- The loop of `event_trigger`. -/
def wakeListeners (slot : Nat → Bool) (ls : List Listener) (s : State) : State :=
  ls.foldl
    (fun s l =>
      schedEnqueueThread (setThread s l.thread { s.thread l.thread with whichEvent := l.which })
        l.thread false (slot l.thread)) s

theorem wakeListeners_frame (slot : Nat → Bool) : ∀ (ls : List Listener) (s : State),
    (wakeListeners slot ls s).event = s.event ∧
    ∀ u, ((wakeListeners slot ls s).thread u).attachedEvents = (s.thread u).attachedEvents
  | [], _ => ⟨rfl, fun _ => rfl⟩
  | l :: ls, s => by
    obtain ⟨hevent, hthread⟩ := wakeListeners_frame slot ls (schedEnqueueThread
      (setThread s l.thread { s.thread l.thread with whichEvent := l.which })
      l.thread false (slot l.thread))
    refine ⟨hevent.trans (by simp), fun u => (hthread u).trans ?_⟩
    rw [schedEnqueueThread_attached]
    by_cases hu : u = l.thread
    · subst hu; simp
    · simp [setThread, Function.update_of_ne hu]

/-- A trigger either is kept or dropped, nobody listening, or it wakes up all listeners. -/
theorem eventTrigger_cases (e : Nat) (drop : Bool) (slot : Nat → Bool) (s : State) :
    (s.event e).listeners = [] ∧
      (eventTrigger e drop slot s).2
        = setEvent s e { s.event e with
            pending := if drop then (s.event e).pending else (s.event e).pending + 1 } ∨
    (s.event e).listeners ≠ [] ∧
      (eventTrigger e drop slot s).2
        = setEvent (wakeListeners slot (s.event e).listeners s) e
            { s.event e with listeners := [] } := by
  by_cases h : (s.event e).listeners = []
  · refine Or.inl ⟨h, ?_⟩
    cases drop with
    | true =>
      have hself : setEvent s e (s.event e) = s := by simp [setEvent]
      simp only [eventTrigger, h, List.length_nil, if_true]
      rw [← h]
      exact hself.symm
    | false => simp [eventTrigger, h]
  · refine Or.inr ⟨h, ?_⟩
    have hlen : (s.event e).listeners.length ≠ 0 := by simpa using h
    simp only [eventTrigger, hlen, if_false]
    rw [← wakeListeners, (wakeListeners_frame slot _ s).1]

/-! ## Leaving a list -/

/-- A listener that leaves is replaced by the last one; the others stay, in another order. -/
theorem removeListener_perm (t : Nat) (ls : List Listener) :
    (removeListener t ls).Perm (ls.eraseP (fun l => l.thread = t)) := by
  unfold removeListener
  cases hf : ls.findIdx? (fun l => decide (l.thread = t)) with
  | none =>
    rw [List.findIdx?_eq_none_iff] at hf
    rw [List.eraseP_of_forall_not fun l hl => by simpa using hf l hl]
  | some j =>
    rw [List.eraseP_eq_eraseIdx, hf]
    obtain ⟨hj, -⟩ := List.findIdx?_eq_some_iff_findIdx_eq.mp hf
    rcases List.eq_nil_or_concat ls with rfl | ⟨init, last, rfl⟩
    · simp at hj
    · simp only [List.concat_eq_append, List.getLast?_concat] at hj ⊢
      rcases Nat.lt_or_ge j init.length with hlt | hge
      · rw [List.set_append_left _ _ hlt, List.dropLast_concat,
          List.eraseIdx_append_of_lt_length hlt]
        exact (List.set_perm_cons_eraseIdx hlt last).trans
          (List.perm_append_singleton last (init.eraseIdx j)).symm
      · have hj' : j = init.length := by
          rw [List.length_append, List.length_singleton] at hj
          omega
        subst hj'
        simp [List.eraseIdx_append_of_length_le]

theorem mem_removeListener {ls : List Listener} (hn : (ls.map Listener.thread).Nodup)
    {l : Listener} : l ∈ removeListener t ls ↔ l ∈ ls ∧ l.thread ≠ t := by
  rw [(removeListener_perm t ls).mem_iff]
  induction ls with
  | nil => simp
  | cons a ls ih =>
    obtain ⟨ha, hn⟩ := List.nodup_cons.mp hn
    by_cases hat : a.thread = t
    · have hother : l ∈ ls → l.thread ≠ t := by
        rintro hl rfl
        exact ha (List.mem_map.mpr ⟨l, hl, hat.symm⟩)
      have hne : l.thread ≠ t → l ≠ a := by
        rintro hlt rfl
        exact hlt hat
      rw [List.eraseP_cons_of_pos (by simpa using hat), List.mem_cons]
      exact ⟨fun hl => ⟨Or.inr hl, hother hl⟩, fun hl => hl.1.resolve_left (hne hl.2)⟩
    · rw [List.eraseP_cons_of_neg (by simpa using hat), List.mem_cons, ih hn, List.mem_cons]
      constructor
      · rintro (rfl | ⟨hl, hlt⟩)
        · exact ⟨Or.inl rfl, hat⟩
        · exact ⟨Or.inr hl, hlt⟩
      · rintro ⟨rfl | hl, hlt⟩
        · exact Or.inl rfl
        · exact Or.inr ⟨hl, hlt⟩

theorem nodup_removeListener {ls : List Listener} (hn : (ls.map Listener.thread).Nodup) :
    ((removeListener t ls).map Listener.thread).Nodup := by
  rw [((removeListener_perm t ls).map _).nodup_iff]
  exact hn.sublist (List.eraseP_sublist.map _)

/-! ## The invariant -/

/-- **Who listens to an event.** -/
structure Listening (x : System) : Prop where
  nodup : ∀ e, ((x.state.event e).listeners.map Listener.thread).Nodup
  inside : ∀ e, ∀ l ∈ (x.state.event e).listeners,
    ∃ events, (x.pc l.thread).events = some events ∧ events[l.which]? = some e
  attached : ∀ t events, (x.pc t).events = some events →
    (x.state.thread t).attachedEvents = events ∧ events.Nodup

theorem Listening.start (pending : Nat → Nat) (thread : Nat → Thread) :
    Listening (System.start pending thread) where
  nodup := by simp [System.start]
  inside := by simp [System.start]
  attached := by simp [System.start, Pc.events]

/-- What the events hold besides their listeners does not count, nor why a thread runs. -/
theorem Listening.congr (h : Listening x)
    (hl : ∀ e, (x'.state.event e).listeners = (x.state.event e).listeners)
    (ha : ∀ t, (x'.state.thread t).attachedEvents = (x.state.thread t).attachedEvents)
    (hp : ∀ t, (x'.pc t).events = (x.pc t).events) : Listening x' where
  nodup := by
    intro e
    rw [hl]
    exact h.nodup e
  inside := by
    intro e l hle
    rw [hl] at hle
    rw [hp]
    exact h.inside e l hle
  attached := by
    intro t events ht
    rw [hp] at ht
    rw [ha]
    exact h.attached t events ht

/-- A thread outside of `event_await` listens to nothing. -/
theorem Listening.idle (h : Listening x) (ht : x.pc t = .idle) {l : Listener}
    (hl : l ∈ (x.state.event e).listeners) : l.thread ≠ t := by
  rintro rfl
  obtain ⟨events, hevents, -⟩ := h.inside e l hl
  simp [ht, Pc.events] at hevents

theorem setPc_events_same {p : Pc} (h : p.events = (x.pc t).events) (u : Nat) :
    ((x.setPc t p).pc u).events = (x.pc u).events := by
  by_cases hu : u = t
  · subst hu; simp [System.setPc, h]
  · simp [System.setPc, Function.update_of_ne hu]

/-! ## The sections -/

theorem wake_cases (hw : x.wake t = some x') :
    ∃ events, x.pc t = .waiting events ∧ (x.state.thread t).enqueued = true ∧
      x' = x.setPc t (.woken events (awaitResult t x.state)) := by
  unfold System.wake at hw
  split at hw
  · next events hpc =>
    split at hw
    · next henq => exact ⟨events, hpc, henq, (Option.some.inj hw).symm⟩
    · simp at hw
  · simp at hw

theorem wake_events (hw : x.wake t = some x') (u : Nat) : (x'.pc u).events = (x.pc u).events := by
  obtain ⟨events, hpc, -, rfl⟩ := wake_cases hw
  exact setPc_events_same (by simp [hpc, Pc.events]) u

theorem Listening.wake (h : Listening x) (hw : x.wake t = some x') : Listening x' := by
  have hevents := wake_events hw
  obtain ⟨events, -, -, rfl⟩ := wake_cases hw
  exact h.congr (fun _ => rfl) (fun _ => rfl) hevents

theorem Listening.enqueue (h : Listening x) (bySignal slot : Bool) :
    Listening (x.enqueue t bySignal slot) :=
  h.congr (by simp [System.enqueue]) (by simp [System.enqueue]) (fun _ => rfl)

theorem Listening.trigger (h : Listening x) (drop : Bool) (slot : Nat → Bool) :
    Listening (x.trigger e drop slot) := by
  rcases eventTrigger_cases e drop slot x.state with ⟨-, heq⟩ | ⟨-, heq⟩
  · refine h.congr (fun e' => ?_) (fun u => ?_) (fun _ => rfl)
    · by_cases he : e' = e
      · subst he; simp [System.trigger, heq]
      · simp [System.trigger, heq, setEvent_other _ he]
    · simp [System.trigger, heq]
  · obtain ⟨hevent, hthread⟩ := wakeListeners_frame slot (x.state.event e).listeners x.state
    -- The list of `e` is cleared, the others stay.
    have hsub : ∀ e', ((x.trigger e drop slot).state.event e').listeners
        ⊆ (x.state.event e').listeners ∧
        (((x.trigger e drop slot).state.event e').listeners.map Listener.thread).Nodup := by
      intro e'
      by_cases he : e' = e
      · subst he; simp [System.trigger, heq]
      · simp [System.trigger, heq, setEvent_other _ he, hevent, h.nodup e']
    exact
      { nodup := fun e' => (hsub e').2
        inside := fun e' l hl => h.inside e' l ((hsub e').1 hl)
        attached := by
          intro u events hu
          simp only [System.trigger, heq, setEvent_thread]
          rw [hthread]
          exact h.attached u events hu }

theorem detach_cases {ret : Option Nat} (hd : x.detach t = some (ret, x')) :
    ∃ events, x.pc t = .woken events ret ∧
      x' = System.setPc { x with state := detachListeners t x.state } t .idle := by
  unfold System.detach at hd
  split at hd
  · next events ret' hpc =>
    obtain ⟨rfl, rfl⟩ := Prod.mk.inj (Option.some.inj hd)
    exact ⟨events, hpc, rfl⟩
  · simp at hd

theorem Listening.detach (h : Listening x) {ret : Option Nat}
    (hd : x.detach t = some (ret, x')) : Listening x' := by
  obtain ⟨events, hpc, rfl⟩ := detach_cases hd
  obtain ⟨hatt, hn⟩ := h.attached t events (by simp [hpc, Pc.events])
  subst hatt
  obtain ⟨hthread, hin⟩ := detachListeners_spec hn
  have hout : ∀ e, e ∉ (x.state.thread t).attachedEvents →
      (detachListeners t x.state).event e = x.state.event e :=
    (detach_fold (t := t) (s := x.state) hn).2.2
  have hmem : ∀ e, ∀ l ∈ ((detachListeners t x.state).event e).listeners,
      l ∈ (x.state.event e).listeners ∧ l.thread ≠ t := by
    intro e l hl
    by_cases he : e ∈ (x.state.thread t).attachedEvents
    · rw [hin e he] at hl
      exact (mem_removeListener (h.nodup e)).mp hl
    · rw [hout e he] at hl
      refine ⟨hl, ?_⟩
      rintro rfl
      -- A thread listens only to what it is attached to.
      obtain ⟨events, hevents, hw⟩ := h.inside e l hl
      rw [← (h.attached l.thread events hevents).1] at hw
      exact he (List.mem_of_getElem? hw)
  exact
    { nodup := by
        intro e
        by_cases he : e ∈ (x.state.thread t).attachedEvents
        · simp only [System.setPc, hin e he]
          exact nodup_removeListener (h.nodup e)
        · simp only [System.setPc, hout e he]
          exact h.nodup e
      inside := by
        intro e l hl
        obtain ⟨hl, hlt⟩ := hmem e l hl
        simp only [System.setPc, Function.update_of_ne hlt]
        exact h.inside e l hl
      attached := by
        intro u events hu
        by_cases hut : u = t
        · simp [System.setPc, hut, Pc.events] at hu
        · simp only [System.setPc, Function.update_of_ne hut] at hu ⊢
          rw [detachListeners_other hn hut]
          exact h.attached u events hu }

/-- One trigger of an event is consumed. -/
def System.consume (x : System) (e : Nat) : System :=
  { x with state :=
      setEvent x.state e { x.state.event e with pending := (x.state.event e).pending - 1 } }

/-- What the first locked section of `event_await` can do. -/
inductive Awaited (x : System) (t : Nat) (events : List Nat) : Outcome → System → Prop
  | wouldBlock : Awaited x t events .wouldBlock x
  | ready (i e : Nat) (he : events[i]? = some e) (hp : 0 < (x.state.event e).pending) :
      Awaited x t events (.ready i) (x.consume e)
  | blocked (s : State) (hp : ∀ e ∈ events, (x.state.event e).pending = 0)
      (ha : attachListeners events t x.state = some s) :
      Awaited x t events .blocked
        (System.setPc { x with state := schedDequeueThread s t } t (.waiting events))

theorem await_cases {block : Bool} {o : Outcome} (hw : x.await t events block = some (o, x')) :
    Awaited x t events o x' := by
  unfold System.await eventAwait at hw
  cases hc : checkForPending events x.state with
  | mk r s =>
    simp only [hc] at hw
    cases r with
    | some i =>
      obtain ⟨rfl, rfl⟩ := Prod.mk.inj (Option.some.inj hw)
      obtain ⟨e, -, he, hp, rfl⟩ := checkForPendingFrom_some hc
      exact .ready i e (by simpa using he) hp
    | none =>
      obtain ⟨rfl, hpending⟩ := checkForPendingFrom_none hc
      cases block with
      | false =>
        obtain ⟨rfl, rfl⟩ := Prod.mk.inj (Option.some.inj hw)
        exact .wouldBlock
      | true =>
        cases ha : attachListeners events t x.state with
        | none => simp [ha] at hw
        | some s =>
          simp only [ha] at hw
          obtain ⟨rfl, rfl⟩ := Prod.mk.inj (Option.some.inj hw)
          exact .blocked s hpending ha

theorem Listening.attach (h : Listening x) (hpc : x.pc t = .idle) (hn : events.Nodup)
    (ha : attachListeners events t x.state = some s) :
    Listening (System.setPc { x with state := schedDequeueThread s t } t (.waiting events)) := by
  obtain ⟨hin, hthread⟩ := attachListeners_spec hn ha
  have hout : ∀ e, e ∉ events → s.event e = x.state.event e := (attachListenersFrom_spec hn ha).2
  have hnew : ∀ e, t ∉ (x.state.event e).listeners.map Listener.thread := by
    intro e hc
    obtain ⟨l, hl, hlt⟩ := List.mem_map.mp hc
    exact h.idle hpc hl hlt
  exact
    { nodup := by
        intro e
        simp only [System.setPc, schedDequeueThread_event]
        by_cases he : e ∈ events
        · obtain ⟨i, hi⟩ := List.mem_iff_getElem?.mp he
          rw [hin i e hi]
          simp only [List.map_append, List.map_cons, List.map_nil]
          exact List.concat_eq_append ▸ (h.nodup e).concat (hnew e)
        · rw [hout e he]
          exact h.nodup e
      inside := by
        intro e l hl
        simp only [System.setPc, schedDequeueThread_event] at hl ⊢
        have hold : l ∈ (x.state.event e).listeners →
            ∃ events', (Function.update x.pc t (.waiting events) l.thread).events = some events' ∧
              events'[l.which]? = some e := by
          intro hl
          rw [Function.update_of_ne (h.idle hpc hl)]
          exact h.inside e l hl
        by_cases he : e ∈ events
        · obtain ⟨i, hi⟩ := List.mem_iff_getElem?.mp he
          rw [hin i e hi] at hl
          rcases List.mem_append.mp hl with hl | hl
          · exact hold hl
          · obtain rfl := List.mem_singleton.mp hl
            exact ⟨events, by simp [Pc.events], hi⟩
        · rw [hout e he] at hl
          exact hold hl
      attached := by
        intro u events' hu
        simp only [System.setPc, schedDequeueThread_attached] at hu ⊢
        by_cases hut : u = t
        · subst hut
          obtain rfl : events = events' := by simpa [Pc.events] using hu
          exact ⟨by rw [hthread], hn⟩
        · rw [Function.update_of_ne hut] at hu
          rw [attachListeners_other ha hut]
          exact h.attached u events' hu }

theorem Listening.await (h : Listening x) (hpc : x.pc t = .idle) (hn : events.Nodup)
    {block : Bool} {o : Outcome} (hw : x.await t events block = some (o, x')) : Listening x' := by
  cases await_cases hw with
  | wouldBlock => exact h
  | ready i e he =>
    refine h.congr (fun e' => ?_) (fun _ => rfl) (fun _ => rfl)
    by_cases hee : e' = e
    · subst hee; simp [System.consume]
    · simp [System.consume, setEvent_other _ hee]
  | blocked s _ ha => exact h.attach hpc hn ha

/-! ## Runs -/

theorem Listening.next {c : Step} (h : Listening x) (hs : x.next c = some x') :
    Listening x' := by
  cases c with
  | await t events block =>
    simp only [System.next] at hs
    split at hs
    · next hok =>
      obtain ⟨⟨o, x''⟩, hw, rfl⟩ := Option.map_eq_some_iff.mp hs
      exact h.await hok.1 hok.2 hw
    · simp at hs
  | wake t => exact h.wake hs
  | detach t =>
    obtain ⟨⟨ret, x''⟩, hd, rfl⟩ := Option.map_eq_some_iff.mp hs
    exact h.detach hd
  | trigger e drop slot => exact Option.some.inj hs ▸ h.trigger drop slot
  | enqueue t bySignal slot => exact Option.some.inj hs ▸ h.enqueue bySignal slot

/-- **Listeners.** In any interleaving an event's listeners are distinct threads, each inside of an
`event_await` on that event with the index it has there; a thread outside of `event_await` listens
to nothing. -/
theorem listeners_correct {pending : Nat → Nat} {thread : Nat → Thread}
    (hr : Reach (fun x c x' => x.next c = some x') anyStep (System.start pending thread) x) :
    (∀ e, ((x.state.event e).listeners.map Listener.thread).Nodup) ∧
    (∀ e, ∀ l ∈ (x.state.event e).listeners, ∃ events,
      (x.pc l.thread).events = some events ∧ events.Nodup ∧ events[l.which]? = some e) ∧
    ∀ t, x.pc t = .idle → ∀ e, ∀ l ∈ (x.state.event e).listeners, l.thread ≠ t := by
  have h : Listening x :=
    hr.invariant (Listening.start pending thread) fun _ _ _ h _ hs => h.next hs
  refine ⟨h.nodup, fun e l hl => ?_, fun t ht e l hl => h.idle ht hl⟩
  obtain ⟨events, hevents, hw⟩ := h.inside e l hl
  exact ⟨events, hevents, (h.attached _ _ hevents).2, hw⟩

/-- Thread 3 waits for the events 0 and 1, thread 5 for 1 alone, and 0 is triggered: thread 3 is
still in the list of 1. It then returns. -/
theorem listeners_correct_two : ∃ x x' : System,
    Reach (fun x c x' => x.next c = some x') anyStep
      (System.start (fun _ => 0) (fun _ => ⟨true, false, 0, []⟩)) x' ∧
    (x.state.event 1).listeners = [⟨3, 1⟩, ⟨5, 0⟩] ∧
    (x'.state.event 1).listeners = [⟨5, 0⟩] ∧ x'.pc 3 = .idle ∧
    (∀ e, ((x.state.event e).listeners.map Listener.thread).Nodup) ∧
    ∀ e, ∀ l ∈ (x'.state.event e).listeners, l.thread ≠ 3 := by
  have hrun : (runAll System.next [.await 3 [0, 1] true, .await 5 [1] true,
      .trigger 0 false (fun _ => true)]
      (System.start (fun _ => 0) (fun _ => ⟨true, false, 0, []⟩))).map
      (fun x => ((x.state.event 1).listeners, (runAll System.next [.wake 3, .detach 3] x).map
        fun x => ((x.state.event 1).listeners, x.pc 3)))
      = some ([⟨3, 1⟩, ⟨5, 0⟩], some ([⟨5, 0⟩], .idle)) := by
    decide +kernel
  obtain ⟨x, hx, hfacts⟩ := Option.map_eq_some_iff.mp hrun
  simp only [Prod.mk.injEq, Option.map_eq_some_iff] at hfacts
  obtain ⟨hone, x', hx', hone', hidle⟩ := hfacts
  have hreach : Reach (fun x c x' => x.next c = some x') anyStep
      (System.start (fun _ => 0) (fun _ => ⟨true, false, 0, []⟩)) x :=
    Reach.of_runAll .refl (fun _ _ => trivial) hx
  have hreach' : Reach (fun x c x' => x.next c = some x') anyStep
      (System.start (fun _ => 0) (fun _ => ⟨true, false, 0, []⟩)) x' :=
    Reach.of_runAll hreach (fun _ _ => trivial) hx'
  exact ⟨x, x', hreach', hone, hone', hidle, (listeners_correct hreach).1,
    (listeners_correct hreach').2.2 3 hidle⟩

/-! ## The other threads -/

/-- What `event_await` and the scheduler do for one thread leaves the others alone. -/
structure System.Others (x x' : System) (t : Nat) : Prop where
  thread : ∀ u, u ≠ t → x'.state.thread u = x.state.thread u
  pc : ∀ u, u ≠ t → x'.pc u = x.pc u

theorem setPc_other (x : System) (p : Pc) {u : Nat} (hu : u ≠ t) : (x.setPc t p).pc u = x.pc u :=
  Function.update_of_ne hu ..

theorem schedEnqueueThread_other (bySignal slot : Bool) {u : Nat} (hu : u ≠ t) :
    (schedEnqueueThread s t bySignal slot).thread u = s.thread u := by
  unfold schedEnqueueThread
  split
  · rfl
  · exact Function.update_of_ne hu ..

theorem schedDequeueThread_other {u : Nat} (hu : u ≠ t) :
    (schedDequeueThread s t).thread u = s.thread u := by
  unfold schedDequeueThread
  split
  · exact Function.update_of_ne hu ..
  · rfl

theorem await_others {block : Bool} {o : Outcome} (hw : x.await t events block = some (o, x')) :
    x.Others x' t := by
  cases await_cases hw with
  | wouldBlock => exact ⟨fun _ _ => rfl, fun _ _ => rfl⟩
  | ready => exact ⟨fun _ _ => rfl, fun _ _ => rfl⟩
  | blocked s _ ha =>
    refine ⟨fun u hu => ?_, fun u hu => setPc_other _ _ hu⟩
    exact (schedDequeueThread_other hu).trans (attachListeners_other ha hu)

theorem wake_others (hw : x.wake t = some x') : x.Others x' t := by
  obtain ⟨events, -, -, rfl⟩ := wake_cases hw
  exact ⟨fun _ _ => rfl, fun u hu => setPc_other _ _ hu⟩

theorem detach_others (h : Listening x) {ret : Option Nat}
    (hd : x.detach t = some (ret, x')) : x.Others x' t := by
  obtain ⟨events, hpc, rfl⟩ := detach_cases hd
  obtain ⟨hatt, hn⟩ := h.attached t events (by simp [hpc, Pc.events])
  exact ⟨fun u hu => detachListeners_other (hatt ▸ hn) hu, fun u hu => setPc_other _ _ hu⟩

theorem enqueue_others (bySignal slot : Bool) : x.Others (x.enqueue t bySignal slot) t :=
  ⟨fun _ hu => schedEnqueueThread_other bySignal slot hu, fun _ _ => rfl⟩

theorem wakeListeners_other (slot : Nat → Bool) : ∀ (ls : List Listener) (s : State),
    (∀ l ∈ ls, l.thread ≠ t) → (wakeListeners slot ls s).thread t = s.thread t
  | [], _, _ => rfl
  | l :: ls, s, h => by
    have hl := (h l List.mem_cons_self).symm
    refine (wakeListeners_other slot ls _ fun l' hl' => h l' (List.mem_cons_of_mem l hl')).trans ?_
    rw [schedEnqueueThread_other false _ hl]
    exact Function.update_of_ne hl ..

theorem trigger_other (drop : Bool) (slot : Nat → Bool)
    (h : ∀ l ∈ (x.state.event e).listeners, l.thread ≠ t) :
    (x.trigger e drop slot).state.thread t = x.state.thread t := by
  unfold System.trigger
  rcases eventTrigger_cases e drop slot x.state with ⟨-, heq⟩ | ⟨-, heq⟩
  · simp [heq]
  · simp [heq, wakeListeners_other slot _ _ h]

theorem Listening.trigger_waiting (h : Listening x) (drop : Bool) (slot : Nat → Bool)
    (ht : (x.pc t).events = some events) (he : e ∉ events) :
    (x.trigger e drop slot).state.thread t = x.state.thread t := by
  refine trigger_other drop slot fun l hl hlt => ?_
  obtain ⟨events', hevents, hw⟩ := h.inside e l hl
  rw [hlt, ht, Option.some.injEq] at hevents
  exact he (hevents ▸ List.mem_of_getElem? hw)

end Lyre.Events

/-!
## Threads that sleep

A thread that waits for events and does not run is in the lists of all of them (`Listed`), so that
each of them can wake it up. This is kept as long as the run queue has room for the threads that
are woken up.
-/

namespace Lyre.Events

open Infra

variable {x x' : System} {s s' : State} {t e : Nat} {events : List Nat}

/-- A thread that waits and does not run is in the lists of all its events. -/
def Listed (x : System) : Prop :=
  ∀ t events, x.pc t = .waiting events → (x.state.thread t).enqueued = false →
    ∀ i e, events[i]? = some e → ⟨t, i⟩ ∈ (x.state.event e).listeners

theorem Listed.start (pending : Nat → Nat) (thread : Nat → Thread) :
    Listed (System.start pending thread) := by
  intro t events ht
  simp [System.start] at ht

theorem Listed.mono (h : Listed x)
    (hw : ∀ t events, x'.pc t = .waiting events → (x'.state.thread t).enqueued = false →
      x.pc t = .waiting events ∧ (x.state.thread t).enqueued = false)
    (hl : ∀ t events, x'.pc t = .waiting events → (x'.state.thread t).enqueued = false →
      ∀ e, ∀ l ∈ (x.state.event e).listeners, l.thread = t →
        l ∈ (x'.state.event e).listeners) : Listed x' := by
  intro t events ht hq i e hi
  obtain ⟨ht₀, hq₀⟩ := hw t events ht hq
  exact hl t events ht hq e ⟨t, i⟩ (h t events ht₀ hq₀ i e hi) rfl

theorem Listed.await (h : Listed x) (hn : events.Nodup) {block : Bool} {o : Outcome}
    (hw : x.await t events block = some (o, x')) : Listed x' := by
  cases await_cases hw with
  | wouldBlock => exact h
  | ready i e he =>
    refine h.mono (fun _ _ ht hq => ⟨ht, hq⟩) fun _ _ _ _ e' l hl _ => ?_
    by_cases hee : e' = e
    · subst hee; simpa [System.consume] using hl
    · simpa [System.consume, setEvent_other _ hee] using hl
  | blocked s _ ha =>
    obtain ⟨hin, hthread⟩ := attachListeners_spec hn ha
    have hout : ∀ e, e ∉ events → s.event e = x.state.event e :=
      (attachListenersFrom_spec hn ha).2
    intro u events' hu hq i e hi
    simp only [System.setPc, schedDequeueThread_event] at hu hq ⊢
    by_cases hut : u = t
    · subst hut
      obtain rfl : events = events' := by simpa using hu
      rw [hin i e hi]
      exact List.mem_append_right _ List.mem_cons_self
    · rw [Function.update_of_ne hut] at hu
      rw [schedDequeueThread_other hut, attachListeners_other ha hut] at hq
      have hl := h u events' hu hq i e hi
      by_cases he : e ∈ events
      · obtain ⟨j, hj⟩ := List.mem_iff_getElem?.mp he
        rw [hin j e hj]
        exact List.mem_append_left _ hl
      · rw [hout e he]
        exact hl

theorem Listed.wake (h : Listed x) (hw : x.wake t = some x') : Listed x' := by
  obtain ⟨events, -, -, rfl⟩ := wake_cases hw
  refine h.mono (fun u events' hu hq => ?_) (fun _ _ _ _ _ _ hl _ => hl)
  by_cases hut : u = t
  · simp [System.setPc, hut] at hu
  · exact ⟨by simpa [System.setPc, Function.update_of_ne hut] using hu, hq⟩

theorem Listed.detach (h : Listed x) (hx : Listening x) {ret : Option Nat}
    (hd : x.detach t = some (ret, x')) : Listed x' := by
  have hothers := detach_others hx hd
  obtain ⟨events, hpc, rfl⟩ := detach_cases hd
  obtain ⟨hatt, hn⟩ := hx.attached t events (by simp [hpc, Pc.events])
  subst hatt
  have hut : ∀ u events', (System.setPc { x with state := detachListeners t x.state } t .idle).pc u
      = .waiting events' → u ≠ t := by
    rintro u events' hu rfl
    simp [System.setPc] at hu
  refine h.mono (fun u events' hu hq => ?_) (fun u events' hu _ e l hl hlu => ?_)
  · rw [hothers.thread u (hut u events' hu)] at hq
    exact ⟨hothers.pc u (hut u events' hu) ▸ hu, hq⟩
  · have hlt : l.thread ≠ t := hlu ▸ hut u events' hu
    by_cases he : e ∈ (x.state.thread t).attachedEvents
    · have := (mem_removeListener (hx.nodup e)).mpr ⟨hl, hlt⟩
      simpa [System.setPc, (detachListeners_spec hn).2 e he] using this
    · have hsame : (detachListeners t x.state).event e = x.state.event e :=
        (detach_fold (t := t) (s := x.state) hn).2.2 e he
      simpa [System.setPc, hsame] using hl

theorem schedEnqueueThread_enqueued {bySignal slot : Bool} {u : Nat}
    (h : ((schedEnqueueThread s t bySignal slot).thread u).enqueued = false) :
    (s.thread u).enqueued = false := by
  unfold schedEnqueueThread at h
  split at h
  · exact h
  · next hq =>
    by_cases hut : u = t
    · subst hut; simpa using hq
    · simpa [setThread, Function.update_of_ne hut] using h

theorem Listed.enqueue (h : Listed x) (bySignal slot : Bool) :
    Listed (x.enqueue t bySignal slot) :=
  h.mono (fun _ _ hu hq => ⟨hu, schedEnqueueThread_enqueued hq⟩)
    (fun _ _ _ _ _ _ hl _ => by simpa [System.enqueue] using hl)

theorem wakeListeners_enqueued {slot : Nat → Bool} : ∀ (ls : List Listener) (s : State),
    (∀ l ∈ ls, slot l.thread = true) → ∀ u,
    ((wakeListeners slot ls s).thread u).enqueued = false →
    (s.thread u).enqueued = false ∧ ∀ l ∈ ls, l.thread ≠ u
  | [], _, _, _, hq => ⟨hq, fun l hl => absurd hl List.not_mem_nil⟩
  | l :: ls, s, hslot, u, hq => by
    obtain ⟨hq, hls⟩ := wakeListeners_enqueued ls _
      (fun l' hl' => hslot l' (List.mem_cons_of_mem l hl')) u hq
    beta_reduce at hq
    have hlu : l.thread ≠ u := by
      rintro rfl
      unfold schedEnqueueThread at hq
      split at hq
      · next hon =>
        rw [hq] at hon
        simp at hon
      · simp [hslot l List.mem_cons_self] at hq
    have hq₀ := schedEnqueueThread_enqueued hq
    simp only [setThread, Function.update_of_ne hlu.symm] at hq₀
    refine ⟨hq₀, fun l' hl' => ?_⟩
    rcases List.mem_cons.mp hl' with rfl | hl'
    · exact hlu
    · exact hls l' hl'

theorem Listed.trigger (h : Listed x) {drop : Bool} {slot : Nat → Bool}
    (hslot : ∀ l ∈ (x.state.event e).listeners, slot l.thread = true) :
    Listed (x.trigger e drop slot) := by
  rcases eventTrigger_cases e drop slot x.state with ⟨-, heq⟩ | ⟨-, heq⟩
  · refine h.mono (fun u _ hu hq => ⟨hu, ?_⟩) (fun _ _ _ _ e' l hl _ => ?_)
    · simpa [System.trigger, heq] using hq
    · by_cases he : e' = e
      · subst he; simpa [System.trigger, heq] using hl
      · simpa [System.trigger, heq, setEvent_other _ he] using hl
  · have hq : ∀ u, ((x.trigger e drop slot).state.thread u).enqueued = false →
        (x.state.thread u).enqueued = false ∧
          ∀ l ∈ (x.state.event e).listeners, l.thread ≠ u := by
      intro u hq
      simp only [System.trigger, heq, setEvent_thread] at hq
      exact wakeListeners_enqueued _ _ hslot u hq
    refine h.mono (fun u _ hu hqu => ⟨hu, (hq u hqu).1⟩) (fun u _ _ hqu e' l hl hlu => ?_)
    by_cases he : e' = e
    · subst he
      exact absurd hlu ((hq u hqu).2 l hl)
    · simpa [System.trigger, heq, setEvent_other _ he, (wakeListeners_frame slot _ _).1] using hl

theorem trigger_listeners (x : System) (e : Nat) (drop : Bool) (slot : Nat → Bool) :
    ((x.trigger e drop slot).state.event e).listeners = [] := by
  rcases eventTrigger_cases e drop slot x.state with ⟨hnil, heq⟩ | ⟨-, heq⟩
  · simp [System.trigger, heq, hnil]
  · simp [System.trigger, heq]

theorem detachListeners_pending (hx : Listening x)
    {ret : Option Nat} (hpc : x.pc t = .woken events ret) (e : Nat) :
    ((detachListeners t x.state).event e).pending = (x.state.event e).pending ∧
    ((x.state.event e).listeners = [] → ((detachListeners t x.state).event e).listeners = []) := by
  obtain ⟨hatt, hn⟩ := hx.attached t events (by simp [hpc, Pc.events])
  subst hatt
  by_cases he : e ∈ (x.state.thread t).attachedEvents
  · rw [(detachListeners_spec hn).2 e he]
    exact ⟨rfl, fun hnil => by simp [hnil]⟩
  · have hsame : (detachListeners t x.state).event e = x.state.event e :=
      (detach_fold (t := t) (s := x.state) hn).2.2 e he
    rw [hsame]
    exact ⟨rfl, id⟩

end Lyre.Events
