import Lyre.Infra.Run
import Lyre.Properties.Timers

/-!
# `armed_timers` and the indices of the timers

The callers of `timer_new` get memory that is in use by nobody else, and free a timer only after
`timer_disarm`. Under these two rules `armed_timers` holds just the timers that have been created
and not been disarmed since, each of them once and at its index; all others have the index -1. So
`timer_disarm` takes out its argument and nothing else, and nothing at all when it is called again.
-/

namespace Lyre.Time

variable {s : State} {t u : Nat}

/-! ## Runs -/

/-- What has become of the memory at an address. -/
inductive Stage where
  /-- There is no timer. -/
  | free
  /-- `timer_new` has returned it. -/
  | created
  /-- `timer_disarm` has been called for it since. -/
  | disarmed
  deriving DecidableEq

/-- The timers, and what the callers have done with them. -/
structure World where
  time : State
  stage : Nat → Stage

namespace World

def start (bootTime : Int) : World := ⟨timeInit bootTime, fun _ => .free⟩

def setStage (w : World) (t : Nat) (v : Stage) : World :=
  { w with stage := Function.update w.stage t v }

@[simp] theorem setStage_time (w : World) (t : Nat) (v : Stage) : (w.setStage t v).time = w.time := rfl

@[simp] theorem setStage_self (w : World) (t : Nat) (v : Stage) : (w.setStage t v).stage t = v :=
  Function.update_self ..

theorem setStage_of_ne {w : World} (v : Stage) (h : u ≠ t) : (w.setStage t v).stage u = w.stage u :=
  Function.update_of_ne h ..

end World

inductive Call where
  /-- The allocator returns the given memory, or `NULL`. -/
  | timerNew (mem : Option Nat) (when : Timespec)
  | timerDisarm (t : Nat)
  /-- `free`, and what is in the memory afterwards. -/
  | free (t : Nat) (v : Timer)
  | timerHandler (acquired : Bool)

namespace Call

/-- The callers' rules. -/
def Allowed (w : World) : Call → Prop
  | timerNew mem _ => ∀ t ∈ mem, w.stage t = .free
  | timerDisarm t => w.stage t ≠ .free
  | free t _ => w.stage t = .disarmed
  | timerHandler _ => True

def perform (w : World) : Call → World
  | timerNew none _ => w
  | timerNew (some t) when => { w with time := Time.timerNew w.time t when }.setStage t .created
  | timerDisarm t => { w with time := Time.timerDisarm w.time t }.setStage t .disarmed
  | free t v => { w with time := w.time.setTimer t v }.setStage t .free
  | timerHandler acquired => { w with time := Time.timerHandler acquired w.time }

end Call

def World.Reachable (bootTime : Int) : World → Prop :=
  Infra.Reach (fun w (c : Call) w' => w' = c.perform w) (fun w c => c.Allowed w) (.start bootTime)

/-! ## `timer_disarm` -/

theorem timerDisarm_unarmed (h : (s.timer t).index = -1) : timerDisarm s t = s := by
  unfold timerDisarm
  rw [h]
  simp

theorem timerDisarm_index (hs : Indexed s) (ht : t ∈ s.armedTimers) :
    ((timerDisarm s t).timer t).index = -1 := by
  obtain ⟨i, last, hi, hlast⟩ := exists_place ht
  rw [timerDisarm_eq hs hi hlast]
  show (State.timer (State.setTimer _ t _) t).index = _
  rw [setTimer_self]

theorem not_mem_timerDisarm (hs : Indexed s) (ht : t ∈ s.armedTimers) :
    t ∉ (timerDisarm s t).armedTimers := by
  intro hmem
  obtain ⟨i, hi⟩ := List.mem_iff_getElem?.mp hmem
  have hplace := timerDisarm_indexed hs ht i t hi
  rw [timerDisarm_index hs ht] at hplace
  omega

theorem timerDisarm_index_of_not_mem (hs : Indexed s) (ht : t ∈ s.armedTimers)
    (hu : u ∉ s.armedTimers) : ((timerDisarm s t).timer u).index = (s.timer u).index := by
  obtain ⟨i, last, hi, hlast⟩ := exists_place ht
  have hut : u ≠ t := fun h => hu (h ▸ ht)
  have hul : u ≠ last := fun h => hu (h ▸ List.mem_of_getLast? hlast)
  rw [timerDisarm_eq hs hi hlast]
  show (State.timer (State.setTimer _ t _) u).index = _
  rw [setTimer_of_ne _ hut, setTimer_of_ne _ hul]

theorem mem_of_timerDisarm (hs : Indexed s) (ht : t ∈ s.armedTimers)
    (hu : u ∈ (timerDisarm s t).armedTimers) : u ∈ s.armedTimers := by
  obtain ⟨i, last, hi, hlast⟩ := exists_place ht
  obtain ⟨k, hk⟩ := List.mem_iff_getElem?.mp hu
  rw [timerDisarm_eq hs hi hlast] at hk
  obtain ⟨-, hget⟩ := (disarmed_get s.armedTimers i k last u).mp hk
  split at hget
  · rw [hget]
    exact List.mem_of_getLast? hlast
  · exact List.mem_of_getElem? hget

theorem mem_timerDisarm_iff (hs : Indexed s) (ht : t ∈ s.armedTimers) :
    u ∈ (timerDisarm s t).armedTimers ↔ u ≠ t ∧ u ∈ s.armedTimers := by
  constructor
  · intro hu
    refine ⟨?_, mem_of_timerDisarm hs ht hu⟩
    rintro rfl
    exact not_mem_timerDisarm hs ht hu
  · intro h
    exact timerDisarm_mem hs ht h.2 h.1

theorem timerDisarm_perm (hs : Indexed s) (ht : t ∈ s.armedTimers) :
    (timerDisarm s t).armedTimers.Perm (s.armedTimers.erase t) := by
  rw [List.perm_ext_iff_of_nodup (timerDisarm_indexed hs ht).nodup (hs.nodup.erase t)]
  intro u
  rw [mem_timerDisarm_iff hs ht, hs.nodup.mem_erase_iff]

/-- The clocks, the triggered timers and all but the index of the other timers stay. -/
structure Beside (s s' : State) (t : Nat) : Prop where
  timeMonotonic : s'.timeMonotonic = s.timeMonotonic
  timeRealtime : s'.timeRealtime = s.timeRealtime
  triggered : s'.triggered = s.triggered
  others : ∀ u, u ≠ t → (s'.timer u).fired = (s.timer u).fired ∧ (s'.timer u).when = (s.timer u).when

theorem Beside.refl (s : State) (t : Nat) : Beside s s t := ⟨rfl, rfl, rfl, fun _ _ => ⟨rfl, rfl⟩⟩

theorem timerDisarm_beside (hs : Indexed s) (ht : t ∈ s.armedTimers) :
    Beside s (timerDisarm s t) t := by
  obtain ⟨i, last, hi, hlast⟩ := exists_place ht
  have hothers : ∀ u, u ≠ t → ((timerDisarm s t).timer u).fired = (s.timer u).fired ∧
      ((timerDisarm s t).timer u).when = (s.timer u).when :=
    fun u hu => timerDisarm_of_ne hs ht hu
  rw [timerDisarm_eq hs hi hlast] at hothers ⊢
  exact ⟨rfl, rfl, rfl, hothers⟩

/-! ## The invariant -/

/-- `armed_timers` holds the timers that are created and not disarmed, at their indices. -/
structure Sound (w : World) : Prop where
  indexed : Indexed w.time
  armed : ∀ t, t ∈ w.time.armedTimers ↔ w.stage t = .created
  disarmed : ∀ t, w.stage t = .disarmed → (w.time.timer t).index = -1

namespace Sound

variable {w : World}

theorem start (bootTime : Int) : Sound (.start bootTime) where
  indexed := indexed_init bootTime
  armed t := by simp [World.start, timeInit]
  disarmed t h := by simp [World.start] at h

theorem index_of_not_mem (hw : Sound w) (ht : t ∉ w.time.armedTimers) (hlive : w.stage t ≠ .free) :
    (w.time.timer t).index = -1 := by
  cases hstage : w.stage t with
  | free => exact absurd hstage hlive
  | created => exact absurd ((hw.armed t).mpr hstage) ht
  | disarmed => exact hw.disarmed t hstage

theorem of_new (hw : Sound w) (ht : w.stage t = .free) (when : Timespec) :
    Sound ((Call.timerNew (some t) when).perform w) := by
  have hnot : t ∉ w.time.armedTimers := by
    rw [hw.armed, ht]
    simp
  refine ⟨timerNew_indexed hw.indexed hnot when, ?_, ?_⟩
  · intro u
    simp only [Call.perform, World.setStage_time, timerNew_armedTimers, List.mem_append,
      List.mem_singleton]
    by_cases h : u = t
    · simp [h]
    · rw [World.setStage_of_ne _ h, hw.armed]
      simp [h]
  · intro u hu
    by_cases h : u = t
    · subst h
      simp [Call.perform] at hu
    · simp only [Call.perform, World.setStage_time, World.setStage_of_ne _ h] at hu ⊢
      rw [timerNew_of_ne w.time when h]
      exact hw.disarmed u hu

theorem disarm_unarmed (hw : Sound w) (ht : t ∉ w.time.armedTimers)
    (hlive : w.stage t ≠ .free) : timerDisarm w.time t = w.time :=
  timerDisarm_unarmed (hw.index_of_not_mem ht hlive)

theorem of_disarm (hw : Sound w) (hlive : w.stage t ≠ .free) :
    Sound ((Call.timerDisarm t).perform w) := by
  by_cases ht : t ∈ w.time.armedTimers
  · refine ⟨timerDisarm_indexed hw.indexed ht, ?_, ?_⟩
    · intro u
      simp only [Call.perform, World.setStage_time, mem_timerDisarm_iff hw.indexed ht]
      by_cases h : u = t
      · simp [h]
      · rw [World.setStage_of_ne _ h, hw.armed]
        simp [h]
    · intro u hu
      simp only [Call.perform, World.setStage_time]
      by_cases h : u = t
      · rw [h]
        exact timerDisarm_index hw.indexed ht
      · simp only [Call.perform, World.setStage_of_ne _ h] at hu
        -- the last timer, which gets a new index, is armed
        have hnot : u ∉ w.time.armedTimers := by
          rw [hw.armed, hu]
          simp
        rw [timerDisarm_index_of_not_mem hw.indexed ht hnot]
        exact hw.disarmed u hu
  · have hstage : w.stage t = .disarmed := by
      cases h : w.stage t with
      | free => exact absurd h hlive
      | created => exact absurd ((hw.armed t).mpr h) ht
      | disarmed => rfl
    have hsame : (Call.timerDisarm t).perform w = w := by
      show World.setStage ⟨timerDisarm w.time t, w.stage⟩ t .disarmed = w
      unfold World.setStage
      rw [hw.disarm_unarmed ht hlive, ← hstage, Function.update_eq_self]
    rw [hsame]
    exact hw

theorem of_free (hw : Sound w) (ht : w.stage t = .disarmed) (v : Timer) :
    Sound ((Call.free t v).perform w) := by
  have hnot : t ∉ w.time.armedTimers := by
    rw [hw.armed, ht]
    simp
  have hother : ∀ u, u ≠ t → (w.time.setTimer t v).timer u = w.time.timer u :=
    fun u hu => setTimer_of_ne v hu
  refine ⟨?_, ?_, ?_⟩
  · intro i u hu
    simp only [Call.perform, World.setStage_time, setTimer_armedTimers] at hu ⊢
    rw [hother u (fun h => hnot (h ▸ List.mem_of_getElem? hu))]
    exact hw.indexed i u hu
  · intro u
    simp only [Call.perform, World.setStage_time, setTimer_armedTimers]
    by_cases h : u = t
    · simp [h, hnot]
    · rw [World.setStage_of_ne _ h]
      exact hw.armed u
  · intro u hu
    by_cases h : u = t
    · subst h
      simp [Call.perform] at hu
    · simp only [Call.perform, World.setStage_of_ne _ h, World.setStage_time] at hu ⊢
      rw [hother u h]
      exact hw.disarmed u hu

theorem of_handler (hw : Sound w) (acquired : Bool) :
    Sound ((Call.timerHandler acquired).perform w) := by
  cases acquired with
  | false => exact ⟨hw.indexed, hw.armed, hw.disarmed⟩
  | true =>
    refine ⟨timerHandler_indexed hw.indexed, ?_, ?_⟩
    · intro u
      obtain ⟨harmed, -⟩ := timerHandler_spec hw.indexed.nodup u
      simp only [Call.perform, harmed]
      exact hw.armed u
    · intro u hu
      obtain ⟨-, htimer, -⟩ := timerHandler_spec hw.indexed.nodup u
      have hnot : u ∉ w.time.armedTimers := by
        rw [hw.armed]
        simp only [Call.perform] at hu
        simp [hu]
      simp only [Call.perform, htimer, if_neg hnot]
      exact hw.disarmed u hu

theorem perform (hw : Sound w) {c : Call} (hc : c.Allowed w) : Sound (c.perform w) := by
  cases c with
  | timerNew mem when =>
    cases mem with
    | none => exact hw
    | some t => exact hw.of_new (hc t rfl) when
  | timerDisarm t => exact hw.of_disarm hc
  | free t v => exact hw.of_free hc v
  | timerHandler acquired => exact hw.of_handler acquired

end Sound

theorem World.Reachable.sound {bootTime : Int} {w : World} (h : w.Reachable bootTime) : Sound w :=
  h.invariant (.start bootTime) fun _ _ _ hw hc hstep => hstep ▸ hw.perform hc

/-- In every state that the kernel gets to, `armed_timers` and the indices of the timers agree, and
`timer_disarm` takes out its argument only. -/
theorem armedTimers_indexed {bootTime : Int} {w : World} (h : w.Reachable bootTime) :
    w.time.armedTimers.Nodup ∧
    (∀ t ∈ w.time.armedTimers, w.stage t ≠ .free) ∧
    (∀ i t : Nat, w.time.armedTimers[i]? = some t → (w.time.timer t).index = i) ∧
    (∀ t, t ∉ w.time.armedTimers → w.stage t ≠ .free → (w.time.timer t).index = -1) ∧
    ∀ t, w.stage t ≠ .free →
      (timerDisarm w.time t).armedTimers.Perm (w.time.armedTimers.erase t) ∧
      Beside w.time (timerDisarm w.time t) t ∧
      timerDisarm (timerDisarm w.time t) t = timerDisarm w.time t := by
  have hw := h.sound
  refine ⟨hw.indexed.nodup, ?_, hw.indexed, fun t => hw.index_of_not_mem, ?_⟩
  · intro t ht hfree
    rw [hw.armed, hfree] at ht
    cases ht
  · intro t hlive
    by_cases ht : t ∈ w.time.armedTimers
    · exact ⟨timerDisarm_perm hw.indexed ht, timerDisarm_beside hw.indexed ht,
        timerDisarm_unarmed (timerDisarm_index hw.indexed ht)⟩
    · rw [hw.disarm_unarmed ht hlive, hw.disarm_unarmed ht hlive,
        List.erase_of_not_mem ht]
      exact ⟨.refl _, .refl _ _, rfl⟩

/-- Two timers, of which the first is disarmed. -/
theorem armedTimers_indexed_two :
    let first := Call.perform (.start 0) (.timerNew (some 0) ⟨1, 0⟩)
    let second := Call.perform first (.timerNew (some 1) ⟨2, 0⟩)
    let w := Call.perform second (.timerDisarm 0)
    w.time.armedTimers = [1] ∧ (w.time.timer 1).index = 0 ∧ (w.time.timer 0).index = -1 := by
  intro first second w
  have hfirst : first.Reachable 0 :=
    .tail (a := .timerNew (some 0) ⟨1, 0⟩) .refl (fun t _ => rfl) rfl
  have hsecond : second.Reachable 0 :=
    .tail (a := .timerNew (some 1) ⟨2, 0⟩) hfirst (fun t ht => by cases ht; rfl) rfl
  have hlive : second.stage 0 ≠ .free := by decide
  have hw : w.Reachable 0 := .tail (a := .timerDisarm 0) hsecond hlive rfl
  obtain ⟨-, -, hindex, houtside, -⟩ := armedTimers_indexed hw
  exact ⟨rfl, hindex 0 1 rfl, houtside 0 (by decide) (by decide)⟩

end Lyre.Time
