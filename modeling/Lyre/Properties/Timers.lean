import Lyre.Properties.Timespec
import Mathlib.Data.List.Nodup

/-!
# The timers, and how long `time_nsleep` sleeps

Timers are armed and disarmed in any order between the calls of `timer_handler`. As each armed
timer knows its place in `armed_timers`, disarming one loses no other, and what a call does to a
timer depends on that timer alone. So the timer of a sleeper is `elapse` of its duration, and the
call that fires it is the first one that leaves nothing.
-/

namespace Lyre.Time

@[simp] theorem setTimer_armedTimers (s : State) (t : Nat) (v : Timer) :
    (s.setTimer t v).armedTimers = s.armedTimers := rfl

@[simp] theorem setTimer_triggered (s : State) (t : Nat) (v : Timer) :
    (s.setTimer t v).triggered = s.triggered := rfl

@[simp] theorem setTimer_self (s : State) (t : Nat) (v : Timer) : (s.setTimer t v).timer t = v :=
  Function.update_self ..

theorem setTimer_of_ne {s : State} {t u : Nat} (v : Timer) (h : u ≠ t) :
    (s.setTimer t v).timer u = s.timer u :=
  Function.update_of_ne h ..

/-! ## One call of `timer_handler` -/

namespace Timer

/-- The timer after one call of `timer_handler`. -/
def counted (v : Timer) : Timer :=
  if v.fired then v
  else
    { v with
      when := timespecSub v.when interval
      fired := decide (timespecSub v.when interval = ⟨0, 0⟩) }

/-- The call triggers the event of the timer. -/
def Fires (v : Timer) : Prop := v.fired = false ∧ timespecSub v.when interval = ⟨0, 0⟩

instance (v : Timer) : Decidable v.Fires := inferInstanceAs (Decidable (_ ∧ _))

/-- The timer at another place of `armed_timers`. -/
def place (v : Timer) (i : Int) : Timer := ⟨i, v.fired, v.when⟩

theorem place_index (v : Timer) : v.place v.index = v := rfl

@[simp] theorem place_place (v : Timer) (i j : Int) : (v.place i).place j = v.place j := rfl

theorem counted_place (v : Timer) (i : Int) : (v.place i).counted = v.counted.place i := by
  unfold counted place
  dsimp only
  split <;> rfl

theorem fires_place (v : Timer) (i : Int) : (v.place i).Fires ↔ v.Fires := Iff.rfl

theorem counted_index (v : Timer) : v.counted.index = v.index := by
  unfold counted
  split <;> rfl

theorem counted_fired (v : Timer) : v.counted.fired = true ↔ v.fired = true ∨ v.Fires := by
  unfold counted Fires
  cases h : v.fired <;> simp [h]

end Timer

theorem timespec_zero_iff (a : Timespec) : a.tvSec = 0 ∧ a.tvNsec = 0 ↔ a = ⟨0, 0⟩ := by
  obtain ⟨sec, nsec⟩ := a
  simp

theorem countDown_eq (s : State) (t : Nat) :
    countDown s t =
      { s.setTimer t (s.timer t).counted with
        triggered := s.triggered ++ if (s.timer t).Fires then [t] else [] } := by
  unfold countDown Timer.counted Timer.Fires
  by_cases hfired : (s.timer t).fired
  · have hself : s.setTimer t (s.timer t) = s := by
      unfold State.setTimer
      rw [Function.update_eq_self]
    simp [hfired, hself]
  · rw [if_neg hfired]
    simp only [setTimer_self, timespec_zero_iff]
    by_cases hzero : timespecSub (s.timer t).when interval = ⟨0, 0⟩
    · simp [hfired, hzero, State.setTimer]
    · simp [hfired, hzero, State.setTimer]

theorem countDown_armedTimers (s : State) (t : Nat) :
    (countDown s t).armedTimers = s.armedTimers := by
  rw [countDown_eq]
  rfl

theorem countDown_timer (s : State) (t u : Nat) :
    (countDown s t).timer u = if u = t then (s.timer u).counted else s.timer u := by
  rw [countDown_eq]
  show (s.setTimer t (s.timer t).counted).timer u = _
  by_cases h : u = t
  · rw [if_pos h, h, setTimer_self]
  · rw [if_neg h, setTimer_of_ne _ h]

theorem countDown_count (s : State) (t u : Nat) :
    (countDown s t).triggered.count u =
      s.triggered.count u + if u = t ∧ (s.timer u).Fires then 1 else 0 := by
  rw [countDown_eq]
  show (s.triggered ++ if (s.timer t).Fires then [t] else []).count u = _
  rw [List.count_append]
  congr 1
  by_cases hu : u = t
  · subst hu
    by_cases hf : (s.timer u).Fires <;> simp [hf]
  · have htu : t ≠ u := fun h => hu h.symm
    by_cases hf : (s.timer t).Fires <;> simp [hf, hu, htu]

/-- The loop of `timer_handler` over different timers counts each of them down once. -/
theorem foldl_countDown {l : List Nat} (hnd : l.Nodup) (s : State) :
    (l.foldl countDown s).armedTimers = s.armedTimers ∧ ∀ u,
      (l.foldl countDown s).timer u = (if u ∈ l then (s.timer u).counted else s.timer u) ∧
      (l.foldl countDown s).triggered.count u =
        s.triggered.count u + if u ∈ l ∧ (s.timer u).Fires then 1 else 0 := by
  induction l generalizing s with
  | nil => simp
  | cons t l ih =>
    obtain ⟨htl, hnd'⟩ := List.nodup_cons.mp hnd
    obtain ⟨harmed, hu⟩ := ih hnd' (countDown s t)
    rw [List.foldl_cons]
    refine ⟨harmed.trans (countDown_armedTimers s t), fun u => ?_⟩
    obtain ⟨htimer, hcount⟩ := hu u
    rw [htimer, hcount, countDown_count, countDown_timer]
    by_cases h : u = t
    · subst h
      simp [htl]
    · simp [h]

theorem timerHandler_spec {s : State} (hnd : s.armedTimers.Nodup) (u : Nat) :
    (timerHandler true s).armedTimers = s.armedTimers ∧
      (timerHandler true s).timer u =
        (if u ∈ s.armedTimers then (s.timer u).counted else s.timer u) ∧
      (timerHandler true s).triggered.count u =
        s.triggered.count u + if u ∈ s.armedTimers ∧ (s.timer u).Fires then 1 else 0 := by
  obtain ⟨harmed, htimer⟩ := foldl_countDown hnd
    { s with
      timeMonotonic := timespecAdd s.timeMonotonic interval
      timeRealtime := timespecAdd s.timeRealtime interval }
  exact ⟨harmed, htimer u⟩

/-! ## Arming and disarming -/

/-- Each armed timer knows its place. -/
def Indexed (s : State) : Prop :=
  ∀ (i : Nat) (t : Nat), s.armedTimers[i]? = some t → (s.timer t).index = i

namespace Indexed

theorem inj {s : State} (hs : Indexed s) {i j t : Nat} (hi : s.armedTimers[i]? = some t)
    (hj : s.armedTimers[j]? = some t) : i = j := by
  have h1 := hs i t hi
  have h2 := hs j t hj
  omega

theorem nodup {s : State} (hs : Indexed s) : s.armedTimers.Nodup := by
  rw [List.nodup_iff_getElem?_ne_getElem?]
  intro i j hij hj heq
  have hget := List.getElem?_eq_getElem hj
  have := hs.inj (heq.trans hget) hget
  omega

end Indexed

theorem timerHandler_indexed {s : State} (hs : Indexed s) : Indexed (timerHandler true s) := by
  intro i t ht
  obtain ⟨harmed, htimer, -⟩ := timerHandler_spec hs.nodup t
  rw [harmed] at ht
  rw [htimer, if_pos (List.mem_of_getElem? ht), Timer.counted_index]
  exact hs i t ht

theorem indexed_init (bootTime : Int) : Indexed (timeInit bootTime) := by
  intro i t h
  simp [timeInit] at h

theorem timerNew_armedTimers (s : State) (t : Nat) (when : Timespec) :
    (timerNew s t when).armedTimers = s.armedTimers ++ [t] := rfl

theorem timerNew_self (s : State) (t : Nat) (when : Timespec) :
    (timerNew s t when).timer t = ⟨s.armedTimers.length, false, when⟩ := by
  unfold timerNew timerArm
  dsimp only
  rw [setTimer_self, setTimer_self, setTimer_armedTimers]

theorem timerNew_of_ne (s : State) {t u : Nat} (when : Timespec) (h : u ≠ t) :
    (timerNew s t when).timer u = s.timer u := by
  unfold timerNew timerArm
  dsimp only
  rw [setTimer_of_ne _ h, setTimer_of_ne _ h]

theorem timerNew_indexed {s : State} (hs : Indexed s) {t : Nat} (ht : t ∉ s.armedTimers)
    (when : Timespec) : Indexed (timerNew s t when) := by
  intro i u hu
  rw [timerNew_armedTimers] at hu
  rcases Nat.lt_or_ge i s.armedTimers.length with hi | hi
  · rw [List.getElem?_append_left hi] at hu
    have hne : u ≠ t := fun h => ht (h ▸ List.mem_of_getElem? hu)
    rw [timerNew_of_ne s when hne]
    exact hs i u hu
  · rw [List.getElem?_append_right hi, List.getElem?_singleton] at hu
    split at hu
    · obtain rfl := Option.some.inj hu
      rw [timerNew_self]
      dsimp only
      omega
    · cases hu

theorem exists_place {l : List Nat} {t : Nat} (ht : t ∈ l) :
    ∃ (i : Nat) (last : Nat), l[i]? = some t ∧ l.getLast? = some last := by
  obtain ⟨i, hi⟩ := List.mem_iff_getElem?.mp ht
  exact ⟨i, _, hi, List.getLast?_eq_some_getLast (List.ne_nil_of_mem ht)⟩

/-- Disarming the timer at index `i`: the last timer takes its place. -/
theorem timerDisarm_eq {s : State} (hs : Indexed s) {i t last : Nat}
    (hi : s.armedTimers[i]? = some t) (hlast : s.armedTimers.getLast? = some last) :
    timerDisarm s t =
      let moved := s.setTimer last { s.timer last with index := i }
      { moved.setTimer t { moved.timer t with index := -1 } with
        armedTimers := (s.armedTimers.set i last).dropLast } := by
  have hlt : i < s.armedTimers.length := (List.getElem?_eq_some_iff.mp hi).1
  have hindex := hs i t hi
  unfold timerDisarm
  rw [hindex, List.getLastD_eq_getLast?, hlast]
  dsimp only
  rw [if_neg (by omega)]
  unfold vectorRemove
  rw [setTimer_armedTimers]
  dsimp only
  rw [if_pos (by rw [List.length_set]; omega), List.eraseIdx_length_sub_one]
  rfl

/-- Where the timers are after timer `t` at index `i` has been disarmed. -/
theorem disarmed_get (l : List Nat) (i k last u : Nat) :
    (l.set i last).dropLast[k]? = some u ↔
      k < l.length - 1 ∧ if k = i then u = last else l[k]? = some u := by
  rw [List.getElem?_dropLast, List.length_set, List.getElem?_set]
  by_cases hk : k < l.length - 1
  · rw [if_pos hk]
    by_cases hki : k = i
    · subst hki
      have hlt : k < l.length := by omega
      simp [hk, hlt, eq_comm]
    · have hik : ¬ i = k := fun h => hki h.symm
      simp [hk, hki, hik]
  · simp [hk]

theorem timerDisarm_of_ne {s : State} (hs : Indexed s) {t u : Nat} (ht : t ∈ s.armedTimers)
    (h : u ≠ t) :
    ((timerDisarm s t).timer u).fired = (s.timer u).fired ∧
      ((timerDisarm s t).timer u).when = (s.timer u).when := by
  obtain ⟨i, last, hi, hlast⟩ := exists_place ht
  rw [timerDisarm_eq hs hi hlast]
  show (State.timer (State.setTimer _ t _) u).fired = _ ∧
    (State.timer (State.setTimer _ t _) u).when = _
  rw [setTimer_of_ne _ h]
  by_cases hl : u = last
  · subst hl
    rw [setTimer_self]
    exact ⟨rfl, rfl⟩
  · rw [setTimer_of_ne _ hl]
    exact ⟨rfl, rfl⟩

theorem timerDisarm_indexed {s : State} (hs : Indexed s) {t : Nat} (ht : t ∈ s.armedTimers) :
    Indexed (timerDisarm s t) := by
  obtain ⟨i, last, hi, hlast⟩ := exists_place ht
  have hend := List.getLast?_eq_getElem?.symm.trans hlast
  intro k u hu
  rw [timerDisarm_eq hs hi hlast] at hu ⊢
  obtain ⟨hk, hget⟩ := (disarmed_get s.armedTimers i k last u).mp hu
  show (State.timer (State.setTimer _ t _) u).index = _
  by_cases hki : k = i
  · rw [if_pos hki] at hget
    subst hget hki
    have hne : u ≠ t := by
      rintro rfl
      have := hs.inj hi hend
      omega
    rw [setTimer_of_ne _ hne, setTimer_self]
  · rw [if_neg hki] at hget
    have hne : u ≠ t := by
      rintro rfl
      exact hki (hs.inj hget hi)
    have hnl : u ≠ last := by
      rintro rfl
      have := hs.inj hget hend
      omega
    rw [setTimer_of_ne _ hne, setTimer_of_ne _ hnl]
    exact hs k u hget

theorem timerDisarm_mem {s : State} (hs : Indexed s) {t u : Nat} (ht : t ∈ s.armedTimers)
    (hu : u ∈ s.armedTimers) (h : u ≠ t) : u ∈ (timerDisarm s t).armedTimers := by
  obtain ⟨i, last, hi, hlast⟩ := exists_place ht
  obtain ⟨k, hk⟩ := List.mem_iff_getElem?.mp hu
  have hend := List.getLast?_eq_getElem?.symm.trans hlast
  have hilt : i < s.armedTimers.length := (List.getElem?_eq_some_iff.mp hi).1
  have hklt : k < s.armedTimers.length := (List.getElem?_eq_some_iff.mp hk).1
  have hne : k ≠ i := by
    rintro rfl
    exact h (Option.some.inj (hk.symm.trans hi))
  rw [timerDisarm_eq hs hi hlast]
  by_cases hkend : k = s.armedTimers.length - 1
  · -- the last timer is found in the place that has become free
    subst hkend
    obtain rfl := Option.some.inj (hk.symm.trans hend)
    have hget := (disarmed_get s.armedTimers i i u u).mpr ⟨by omega, by rw [if_pos rfl]⟩
    exact List.mem_of_getElem? hget
  · have hget := (disarmed_get s.armedTimers i k last u).mpr
      ⟨by omega, by rw [if_neg hne]; exact hk⟩
    exact List.mem_of_getElem? hget

/-! ## Runs -/

/-- What happens to the timers. Memory of an armed timer is not handed out again, since a timer is
disarmed before it is freed. -/
inductive Action where
  /-- `timer_new` with the memory at `t`. -/
  | create (t : Nat) (when : Timespec)
  /-- `timer_disarm` and `free`. -/
  | dispose (t : Nat)
  /-- `timer_handler`, which gets `timers_lock`. -/
  | tick
  deriving DecidableEq

namespace Action

def Allowed (s : State) : Action → Prop
  | create t _ => t ∉ s.armedTimers
  | dispose t => t ∈ s.armedTimers
  | tick => True

def perform (s : State) : Action → State
  | create t when => timerNew s t when
  | dispose t => timerDisarm s t
  | tick => timerHandler true s

theorem perform_indexed {s : State} (hs : Indexed s) {a : Action} (ha : a.Allowed s) :
    Indexed (a.perform s) := by
  cases a with
  | create t when => exact timerNew_indexed hs ha when
  | dispose t => exact timerDisarm_indexed hs ha
  | tick => exact timerHandler_indexed hs

end Action

inductive Run (s : State) : List Action → State → Prop where
  | refl : Run s [] s
  | step {acts : List Action} {s' : State} {a : Action} :
      Run s acts s' → a.Allowed s' → Run s (acts ++ [a]) (a.perform s')

theorem Run.indexed {s s' : State} {acts : List Action} (h : Run s acts s') (hs : Indexed s) :
    Indexed s' := by
  induction h with
  | refl => exact hs
  | step _ ha ih => exact Action.perform_indexed ih ha

/-- The states that the kernel can be in. -/
def Reachable (s : State) : Prop := ∃ bootTime acts, Run (timeInit bootTime) acts s

theorem Reachable.indexed {s : State} (h : Reachable s) : Indexed s := by
  obtain ⟨bootTime, acts, hrun⟩ := h
  exact hrun.indexed (indexed_init bootTime)

/-- The calls of `timer_handler` in a run. -/
def ticks (acts : List Action) : Nat := acts.count .tick

/-- The next call of `timer_handler` fires timer `t`. -/
def FiresNext (s : State) (t : Nat) : Prop :=
  s.triggered.count t < (timerHandler true s).triggered.count t

theorem firesNext_iff {s : State} (hs : Indexed s) {t : Nat} (ht : t ∈ s.armedTimers) :
    FiresNext s t ↔ (s.timer t).Fires := by
  unfold FiresNext
  rw [(timerHandler_spec hs.nodup t).2.2]
  by_cases hf : (s.timer t).Fires <;> simp [hf, ht]

/-- An action that does not dispose of an armed timer does nothing to it but count it down. -/
theorem perform_keeps {s : State} (hs : Indexed s) {t : Nat} (ht : t ∈ s.armedTimers) {a : Action}
    (ha : a.Allowed s) (hkeep : a ≠ .dispose t) :
    t ∈ (a.perform s).armedTimers ∧
      ∃ i, (a.perform s).timer t =
        (if a = .tick then (s.timer t).counted else s.timer t).place i := by
  cases a with
  | create u when =>
    have hne : t ≠ u := fun h => ha (h ▸ ht)
    refine ⟨List.mem_append_left _ ht, (s.timer t).index, ?_⟩
    show (timerNew s u when).timer t = _
    rw [timerNew_of_ne s when hne, if_neg (by simp), Timer.place_index]
  | dispose u =>
    have hne : t ≠ u := fun h => hkeep (h ▸ rfl)
    obtain ⟨hfired, hwhen⟩ := timerDisarm_of_ne hs ha hne
    refine ⟨timerDisarm_mem hs ha ht hne, ((timerDisarm s u).timer t).index, ?_⟩
    show (timerDisarm s u).timer t = _
    rw [if_neg (by simp)]
    unfold Timer.place
    rw [← hfired, ← hwhen]
  | tick =>
    obtain ⟨harmed, htimer, -⟩ := timerHandler_spec hs.nodup t
    refine ⟨harmed ▸ ht, (s.timer t).counted.index, ?_⟩
    show (timerHandler true s).timer t = _
    rw [htimer, if_pos ht, if_pos rfl, Timer.place_index]

/-- As long as a timer is not disposed of, it is what the calls of `timer_handler` make of it. -/
theorem Run.keeps {s s' : State} {acts : List Action} (hrun : Run s acts s') (hs : Indexed s)
    {t : Nat} (ht : t ∈ s.armedTimers) (hkeep : .dispose t ∉ acts) :
    t ∈ s'.armedTimers ∧
      ∃ i, s'.timer t = (Timer.counted^[ticks acts] (s.timer t)).place i := by
  induction hrun with
  | refl => exact ⟨ht, (s.timer t).index, rfl⟩
  | @step acts s' a hrun ha ih =>
    rw [List.mem_append, not_or] at hkeep
    obtain ⟨hmem, i, htimer⟩ := ih hkeep.1
    have hne : a ≠ .dispose t := fun h => hkeep.2 (h ▸ List.mem_singleton_self a)
    obtain ⟨hmem', j, hj⟩ := perform_keeps (hrun.indexed hs) hmem ha hne
    refine ⟨hmem', j, ?_⟩
    rw [hj, htimer]
    by_cases htick : a = .tick
    · have hcount : ticks (acts ++ [a]) = ticks acts + 1 := by
        rw [htick]
        exact List.count_append ..
      rw [if_pos htick, hcount, Function.iterate_succ_apply', Timer.counted_place,
        Timer.place_place]
    · have hcount : ticks (acts ++ [a]) = ticks acts := by
        have hnone : [a].count .tick = 0 := by
          rw [List.count_eq_zero, List.mem_singleton]
          exact fun h => htick h.symm
        unfold ticks
        rw [List.count_append, hnone, Nat.add_zero]
      rw [if_neg htick, hcount, Timer.place_place]

end Lyre.Time
