import Lyre.Properties.Timers
import Mathlib.Data.Nat.Find

/-!
# `time_nsleep`: which call of `timer_handler` fires the timer

The call that fires is the first one after which `elapse` of the duration is zero. The nanoseconds
of the duration are not reduced: from one second on the seconds are counted down a second time,
and from `2 ^ 63` nanoseconds on the nanoseconds are negative.
-/

namespace Lyre.Time

namespace Timer

/-- A timer that has just been armed. -/
def armed (when : Timespec) : Timer := ⟨0, false, when⟩

theorem iterate_counted {when : Timespec} {n : Nat}
    (h : ∀ m, m < n → elapse (m + 1) when ≠ ⟨0, 0⟩) :
    counted^[n] (armed when) = armed (elapse n when) := by
  induction n with
  | zero => rfl
  | succ n ih =>
    have hne : timespecSub (elapse n when) interval ≠ ⟨0, 0⟩ := by
      rw [← elapse_succ]
      exact h n (Nat.lt_succ_self n)
    rw [Function.iterate_succ_apply', ih fun m hm => h m (Nat.lt_succ_of_lt hm), elapse_succ]
    simp [counted, armed, hne]

theorem iterate_counted_fired {v : Timer} (h : v.fired = true) (n : Nat) :
    (counted^[n] v).fired = true := by
  induction n with
  | zero => exact h
  | succ n ih =>
    rw [Function.iterate_succ_apply', counted_fired]
    exact .inl ih

theorem fires_iff (when : Timespec) (n : Nat) :
    (counted^[n] (armed when)).Fires ↔
      elapse (n + 1) when = ⟨0, 0⟩ ∧ ∀ m, m < n → elapse (m + 1) when ≠ ⟨0, 0⟩ := by
  by_cases h : ∀ m, m < n → elapse (m + 1) when ≠ ⟨0, 0⟩
  · rw [iterate_counted h, elapse_succ]
    exact ⟨fun hf => ⟨hf.2, h⟩, fun hz => ⟨rfl, hz.1⟩⟩
  · refine iff_of_false ?_ fun hboth => h hboth.2
    -- the first call that leaves no time has fired the timer
    have hex : ∃ m, m < n ∧ elapse (m + 1) when = ⟨0, 0⟩ := by
      by_contra hnone
      exact h fun m hm heq => hnone ⟨m, hm, heq⟩
    obtain ⟨k, ⟨hlt, hzero⟩, hmin⟩ : ∃ k, (k < n ∧ elapse (k + 1) when = ⟨0, 0⟩) ∧
        ∀ m, m < k → elapse (m + 1) when ≠ ⟨0, 0⟩ :=
      ⟨Nat.find hex, Nat.find_spec hex, fun m hm heq =>
        Nat.find_min hex hm ⟨Nat.lt_trans hm (Nat.find_spec hex).1, heq⟩⟩
    have hfires : (counted^[k] (armed when)).Fires := by
      rw [iterate_counted hmin]
      rw [elapse_succ] at hzero
      exact ⟨rfl, hzero⟩
    have hfired : (counted^[k + 1] (armed when)).fired = true := by
      rw [Function.iterate_succ_apply', counted_fired]
      exact .inr hfires
    obtain ⟨d, hd⟩ : ∃ d, n = d + (k + 1) := ⟨n - (k + 1), by omega⟩
    have hlater := iterate_counted_fired hfired d
    rw [← Function.iterate_add_apply, ← hd] at hlater
    intro hf
    rw [hf.1] at hlater
    cases hlater

end Timer

/-- In any run in which the sleeper has not been woken, the next call fires its timer if it is the
first one that leaves no time. -/
theorem nsleep_firesNext {s s' : State} (hs : Indexed s) {t : Nat} (ht : t ∉ s.armedTimers)
    {ns : BitVec 64} {acts : List Action} (hrun : Run (timeNsleep s t ns) acts s')
    (hkeep : .dispose t ∉ acts) :
    FiresNext s' t ↔ elapse (ticks acts + 1) (nsleepDuration ns) = ⟨0, 0⟩ ∧
      ∀ m, m < ticks acts → elapse (m + 1) (nsleepDuration ns) ≠ ⟨0, 0⟩ := by
  have hidx : Indexed (timeNsleep s t ns) := timerNew_indexed hs ht (nsleepDuration ns)
  have hmem : t ∈ (timeNsleep s t ns).armedTimers :=
    List.mem_append_right _ (List.mem_singleton_self t)
  obtain ⟨hmem', i, htimer⟩ := hrun.keeps hidx hmem hkeep
  have hstart : (timeNsleep s t ns).timer t =
      (Timer.armed (nsleepDuration ns)).place s.armedTimers.length :=
    timerNew_self s t (nsleepDuration ns)
  have hplace : ∀ n, ∃ j, Timer.counted^[n] ((timeNsleep s t ns).timer t) =
      (Timer.counted^[n] (Timer.armed (nsleepDuration ns))).place j := by
    intro n
    induction n with
    | zero => exact ⟨_, hstart⟩
    | succ n ih =>
      obtain ⟨j, hj⟩ := ih
      rw [Function.iterate_succ_apply', Function.iterate_succ_apply', hj, Timer.counted_place]
      exact ⟨j, rfl⟩
  obtain ⟨j, hj⟩ := hplace (ticks acts)
  rw [firesNext_iff (hrun.indexed hidx) hmem', htimer, hj, Timer.place_place, Timer.fires_place,
    Timer.fires_iff]

/-! ## When the duration is used up -/

/-- The number of milliseconds, rounded up. -/
def nsleepCalls (ns : BitVec 64) : Nat := (ns.toNat + 999999) / 1000000

theorem nsleepDuration_of_lt {ns : BitVec 64} (h : ns.toNat < 2 ^ 63) :
    nsleepDuration ns = ⟨(ns.toNat / 1000000000 : Nat), ns.toNat⟩ := by
  unfold nsleepDuration
  rw [long_of_bounds (by omega) (by omega), long_of_bounds (by omega) (by omega)]

theorem nsleepDuration_of_ge {ns : BitVec 64} (h : 2 ^ 63 ≤ ns.toNat) :
    nsleepDuration ns = ⟨(ns.toNat / 1000000000 : Nat), (ns.toNat : Int) - 2 ^ 64⟩ := by
  have hlt := ns.isLt
  have hneg : long (ns.toNat : Int) = (ns.toNat : Int) - 2 ^ 64 := by
    unfold long
    omega
  unfold nsleepDuration
  rw [long_of_bounds (by omega) (by omega), hneg]

theorem elapse_nsleep_of_lt {ns : BitVec 64} (h : ns.toNat < 1000000000) (n : Nat) :
    elapse n (nsleepDuration ns) = ⟨0, 0⟩ ↔ nsleepCalls ns ≤ n := by
  have hdur : nsleepDuration ns = ⟨0, ns.toNat⟩ := by
    rw [nsleepDuration_of_lt (by omega), Nat.div_eq_of_lt h]
    rfl
  have hvalid : (nsleepDuration ns).Valid := by
    rw [hdur]
    constructor <;> dsimp only <;> omega
  obtain ⟨hsec, hns⟩ := elapse_ns_of_sec hvalid (by rw [hdur]) n
  have htotal : (nsleepDuration ns).ns = ns.toNat := by
    rw [hdur]
    unfold Timespec.ns
    dsimp only
    omega
  rw [htotal] at hns
  unfold Timespec.ns at hns
  rw [← timespec_zero_iff]
  unfold nsleepCalls
  omega

/-- From one second on, the call that should use up the duration leaves time. -/
theorem elapse_nsleep_calls {ns : BitVec 64} (h : 1000000000 ≤ ns.toNat)
    (hlt : ns.toNat < 2 ^ 63) : elapse (nsleepCalls ns) (nsleepDuration ns) ≠ ⟨0, 0⟩ := by
  rw [nsleepDuration_of_lt hlt]
  have hfloor : elapse (ns.toNat / 1000000) ⟨(ns.toNat / 1000000000 : Nat), ns.toNat⟩ =
      ⟨(ns.toNat / 1000000000 : Nat), ns.toNat - (ns.toNat / 1000000 : Nat) * 1000000⟩ :=
    elapse_of_le (by dsimp only; omega) (by dsimp only; omega) (by dsimp only; omega)
      (by dsimp only; omega)
  by_cases hdvd : ns.toNat % 1000000 = 0
  · have hcalls : nsleepCalls ns = ns.toNat / 1000000 := by
      unfold nsleepCalls
      omega
    rw [hcalls, hfloor]
    intro hzero
    have hsec := congrArg Timespec.tvSec hzero
    dsimp only at hsec
    omega
  · have hcalls : nsleepCalls ns = ns.toNat / 1000000 + 1 := by
      unfold nsleepCalls
      omega
    have hvalid : Timespec.Valid
        ⟨(ns.toNat / 1000000000 : Nat), ns.toNat - (ns.toNat / 1000000 : Nat) * 1000000⟩ := by
      constructor <;> dsimp only <;> omega
    rw [hcalls, elapse_succ, hfloor]
    intro hzero
    -- a second is borrowed, which leaves more than 998999999 nanoseconds
    have hns := timespecSub_ns hvalid interval_valid
    rw [hzero, interval_ns] at hns
    unfold Timespec.ns at hns
    dsimp only at hns
    split at hns <;> omega

theorem borrow_interval {a : Timespec} (h0 : 0 < a.tvSec) (h1 : a.tvSec < 2 ^ 63)
    (h2 : -2 ^ 63 ≤ a.tvNsec) (h3 : a.tvNsec < 1000000) :
    timespecSub a interval = ⟨a.tvSec - 1, a.tvNsec + 998999999⟩ := by
  have hi : interval = ⟨0, 1000000⟩ := by decide
  have hnsec : long (999999999 - long (1000000 - a.tvNsec)) = a.tvNsec + 998999999 := by
    unfold long
    omega
  have hsec : long (a.tvSec - 1) = a.tvSec - 1 := long_of_bounds (by omega) (by omega)
  have hsec' : long (a.tvSec - 1 - 0) = a.tvSec - 1 := by
    rw [Int.sub_zero, hsec]
  unfold timespecSub timespecSubSec
  rw [hi]
  dsimp only
  rw [if_pos h3, if_neg (by omega), hsec, if_neg (by omega), hnsec, hsec']

theorem elapse_low {a : Timespec} (h0 : 0 ≤ a.tvSec) (h1 : a.tvSec < 2 ^ 63)
    (h2 : -2 ^ 63 ≤ a.tvNsec) (h3 : a.tvNsec < 2 ^ 63) :
    ∃ (j : Nat) (low : Int), elapse j a = ⟨a.tvSec, low⟩ ∧ -2 ^ 63 ≤ low ∧ low < 1000000 ∧
      (j = 0 ∨ (j : Int) * 1000000 ≤ a.tvNsec) := by
  by_cases hlow : a.tvNsec < 1000000
  · exact ⟨0, a.tvNsec, rfl, h2, hlow, .inl rfl⟩
  · obtain ⟨j, hj⟩ : ∃ j : Nat, (j : Int) = a.tvNsec / 1000000 :=
      ⟨(a.tvNsec / 1000000).toNat, by omega⟩
    exact ⟨j, _, elapse_of_le h0 h1 h3 (by omega), by omega, by omega, .inr (by omega)⟩

/-- Once the nanoseconds are less than an interval, a second takes at most a thousand calls. -/
theorem elapse_used_up (sec : Nat) : ∀ {a : Timespec}, a.tvSec = sec → sec < 2 ^ 63 →
    -2 ^ 63 ≤ a.tvNsec → a.tvNsec < 1000000 →
    ∃ m, m ≤ 1000 * sec ∧ elapse (m + 1) a = ⟨0, 0⟩ := by
  induction sec with
  | zero =>
    intro a hsec _ _ hnsec
    refine ⟨0, Nat.zero_le _, ?_⟩
    have hi : interval = ⟨0, 1000000⟩ := by decide
    show timespecSub a interval = ⟨0, 0⟩
    unfold timespecSub
    rw [hi, if_pos hnsec, if_pos (by omega)]
  | succ sec ih =>
    intro a hsec hlt hlo hhi
    have hborrow := borrow_interval (a := a) (by omega) (by omega) hlo hhi
    obtain ⟨j, low, hj, hlow, hlow', hjle⟩ :=
      elapse_low (a := ⟨a.tvSec - 1, a.tvNsec + 998999999⟩) (by dsimp only; omega)
        (by dsimp only; omega) (by dsimp only; omega) (by dsimp only; omega)
    obtain ⟨m, hm, hzero⟩ := ih (a := ⟨a.tvSec - 1, low⟩) (by dsimp only; omega) (by omega)
      hlow hlow'
    dsimp only at hjle
    refine ⟨m + j + 1, by omega, ?_⟩
    have hsplit : m + j + 1 + 1 = m + 1 + j + 1 := by omega
    rw [hsplit, elapse_add, elapse_add]
    show elapse (m + 1) (elapse j (timespecSub a interval)) = _
    rw [hborrow, hj, hzero]

/-- From `2 ^ 63` nanoseconds on, the duration is used up too early. -/
theorem elapse_nsleep_early {ns : BitVec 64} (h : 2 ^ 63 ≤ ns.toNat) :
    ∃ m, m + 1 < nsleepCalls ns ∧ elapse (m + 1) (nsleepDuration ns) = ⟨0, 0⟩ := by
  have hns := ns.isLt
  rw [nsleepDuration_of_ge h]
  have hborrow := borrow_interval
    (a := ⟨(ns.toNat / 1000000000 : Nat), (ns.toNat : Int) - 2 ^ 64⟩) (by dsimp only; omega)
    (by dsimp only; omega) (by dsimp only; omega) (by dsimp only; omega)
  obtain ⟨j, low, hj, hlow, hlow', hjle⟩ :=
    elapse_low (a := ⟨((ns.toNat / 1000000000 : Nat) : Int) - 1,
        (ns.toNat : Int) - 2 ^ 64 + 998999999⟩) (by dsimp only; omega)
      (by dsimp only; omega) (by dsimp only; omega) (by dsimp only; omega)
  obtain ⟨m, hm, hzero⟩ := elapse_used_up (ns.toNat / 1000000000 - 1)
    (a := ⟨((ns.toNat / 1000000000 : Nat) : Int) - 1, low⟩) (by dsimp only; omega) (by omega)
    hlow hlow'
  dsimp only at hjle
  refine ⟨m + j + 1, ?_, ?_⟩
  · unfold nsleepCalls
    omega
  · have hsplit : m + j + 1 + 1 = m + 1 + j + 1 := by omega
    rw [hsplit, elapse_add, elapse_add]
    show elapse (m + 1) (elapse j (timespecSub _ interval)) = _
    rw [hborrow, hj, hzero]

/-! ## The law of `time_nsleep` -/

/-- Some run has as many calls of `timer_handler` as one likes. -/
theorem run_ticks (s : State) (n : Nat) :
    ∃ acts s', Run s acts s' ∧ (∀ t, .dispose t ∉ acts) ∧ ticks acts = n := by
  induction n with
  | zero => exact ⟨[], s, .refl, by simp, rfl⟩
  | succ n ih =>
    obtain ⟨acts, s', hrun, hnone, hticks⟩ := ih
    refine ⟨acts ++ [.tick], Action.tick.perform s', hrun.step (a := .tick) trivial, ?_, ?_⟩
    · intro t hmem
      rw [List.mem_append, List.mem_singleton] at hmem
      rcases hmem with hmem | hmem
      · exact hnone t hmem
      · cases hmem
    · unfold ticks at hticks ⊢
      rw [List.count_append, hticks]
      rfl

/-- As long as the sleeper has not been woken, its timer is fired by the call it should be, and by no
other one. -/
def NsleepLaw (s : State) (t : Nat) (ns : BitVec 64) : Prop :=
  ∀ acts s', Run (timeNsleep s t ns) acts s' → .dispose t ∉ acts →
    (FiresNext s' t ↔ ticks acts + 1 = (ns.toNat + 999999) / 1000000)

theorem nsleep_late_or_early {s s' : State} (hs : Indexed s) {t : Nat} (ht : t ∉ s.armedTimers)
    {ns : BitVec 64} (hge : 1000000000 ≤ ns.toNat) {acts : List Action}
    (hrun : Run (timeNsleep s t ns) acts s') (hkeep : .dispose t ∉ acts)
    (hticks : ticks acts + 1 = nsleepCalls ns) : ¬ FiresNext s' t := by
  rw [nsleep_firesNext hs ht hrun hkeep, hticks]
  rintro ⟨hzero, hfirst⟩
  rcases Nat.lt_or_ge ns.toNat (2 ^ 63) with hlt | hbig
  · exact elapse_nsleep_calls hge hlt hzero
  · obtain ⟨m, hm, hearly⟩ := elapse_nsleep_early hbig
    exact hfirst m (by omega) hearly

theorem nsleep_fires_iff {s : State} (hs : Reachable s) {t : Nat} (ht : t ∉ s.armedTimers)
    {ns : BitVec 64} (hns : 0 < ns.toNat) : NsleepLaw s t ns ↔ ns.toNat < 1000000000 := by
  constructor
  · intro hlaw
    by_contra hge
    obtain ⟨acts, s', hrun, hnone, hticks⟩ := run_ticks (timeNsleep s t ns) (nsleepCalls ns - 1)
    have hcalls : ticks acts + 1 = nsleepCalls ns := by
      rw [hticks]
      unfold nsleepCalls
      omega
    exact nsleep_late_or_early hs.indexed ht (by omega) hrun (hnone t) hcalls
      ((hlaw acts s' hrun (hnone t)).mpr hcalls)
  · intro hlt acts s' hrun hkeep
    rw [nsleep_firesNext hs.indexed ht hrun hkeep, elapse_nsleep_of_lt hlt]
    constructor
    · rintro ⟨hle, hfirst⟩
      by_contra hne
      have hpos : 0 < ticks acts := by
        unfold nsleepCalls at hle
        omega
      refine hfirst (ticks acts - 1) (by omega) ?_
      rw [elapse_nsleep_of_lt hlt]
      unfold nsleepCalls at hle ⊢
      omega
    · intro heq
      refine ⟨by unfold nsleepCalls; omega, fun m hm => ?_⟩
      rw [ne_eq, elapse_nsleep_of_lt hlt]
      unfold nsleepCalls
      omega

/-- Ten milliseconds, as the network drivers wait. -/
theorem nsleep_ten_milliseconds : NsleepLaw (timeInit 0) 1 10000000#64 :=
  (nsleep_fires_iff ⟨0, [], .refl⟩ List.not_mem_nil (by decide)).mpr (by decide)

/-- One second, as between two looks at the fragments: the thousandth call does not fire the
timer. -/
theorem nsleep_one_second : ∃ acts s', Run (timeNsleep (timeInit 0) 1 1000000000#64) acts s' ∧
    .dispose 1 ∉ acts ∧ ticks acts + 1 = (1000000000 + 999999) / 1000000 ∧ ¬ FiresNext s' 1 := by
  obtain ⟨acts, s', hrun, hnone, hticks⟩ :=
    run_ticks (timeNsleep (timeInit 0) 1 1000000000#64) 999
  refine ⟨acts, s', hrun, hnone 1, by rw [hticks], ?_⟩
  exact nsleep_late_or_early (indexed_init 0) List.not_mem_nil (by decide) hrun (hnone 1)
    (by rw [hticks]; rfl)

end Lyre.Time
