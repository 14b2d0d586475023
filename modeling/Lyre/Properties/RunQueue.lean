import Lyre.Infra.Run
import Lyre.Sched.RunQueue
import Mathlib.Tactic.SplitIfs

/-!
# The run queue in every run

* `Consistent`: a thread occupies at most one slot, and its flag is set exactly when it occupies
  one. The three functions keep this.
* `getNextThread_spec`: `get_next_thread` ends within one turn around the queue, with the first
  thread after the last index whose lock is free.
-/

namespace Lyre.RunQueue

open Infra

variable {s s' : State} {t cpu : Nat} {q q' : Nat → Option Nat} {old new : Option Nat}

/-! ## The loop of `CAS` -/

theorem casFrom_some : ∀ {n i : Nat}, casFrom q old new n i = some q' →
    ∃ j, j < i + n ∧ q j = old ∧ q' = Function.update q j new
  | 0, _, h => by simp [casFrom] at h
  | n + 1, i, h => by
    rw [casFrom] at h
    split at h
    · next hold => exact ⟨i, by omega, hold, (Option.some.inj h).symm⟩
    · obtain ⟨j, hj, hold, hq⟩ := casFrom_some h
      exact ⟨j, by omega, hold, hq⟩

theorem casFrom_none : ∀ {n i : Nat}, casFrom q old new n i = none →
    ∀ j, i ≤ j → j < i + n → q j ≠ old
  | 0, _, _ => fun j hj hji => by omega
  | n + 1, i, h => by
    rw [casFrom] at h
    split at h
    · simp at h
    · next hne =>
      intro j hij hj
      rcases Nat.eq_or_lt_of_le hij with rfl | hij
      · exact hne
      · exact casFrom_none h j hij (by omega)

/-! ## One slot for each thread -/

/-- **The slots and the flags say the same.** -/
structure Consistent (s : State) : Prop where
  once : ∀ t i j, i < maxRunningThreads → j < maxRunningThreads →
    s.runningQueue i = some t → s.runningQueue j = some t → i = j
  flag : ∀ t, (s.thread t).enqueued = true ↔ ∃ i < maxRunningThreads, s.runningQueue i = some t
  index : ∀ cpu, 0 ≤ s.lastRunQueueIndex cpu

theorem Consistent.congr (h : Consistent s) (hq : s'.runningQueue = s.runningQueue)
    (hf : ∀ t, (s'.thread t).enqueued = (s.thread t).enqueued)
    (hi : ∀ cpu, 0 ≤ s'.lastRunQueueIndex cpu) : Consistent s' where
  once := by rw [hq]; exact h.once
  flag := by
    intro t
    rw [hq, hf]
    exact h.flag t
  index := hi

theorem Consistent.enter (h : Consistent s) (ht : (s.thread t).enqueued = false) {j : Nat}
    (hj : j < maxRunningThreads) (hfree : s.runningQueue j = none) :
    Consistent (setEnqueued s t (Function.update s.runningQueue j (some t)) true) where
  once := by
    have hout : ∀ i < maxRunningThreads, s.runningQueue i ≠ some t := by
      intro i hi hc
      have := (h.flag t).mpr ⟨i, hi, hc⟩
      simp [ht] at this
    intro u i k hi hk hiu hku
    simp only [setEnqueued, Function.update_apply] at hiu hku
    split_ifs at hiu hku with hij hkj hkj
    · exact hij.trans hkj.symm
    · exact absurd (hiu ▸ hku) (hout k hk)
    · exact absurd (hku ▸ hiu) (hout i hi)
    · exact h.once u i k hi hk hiu hku
  flag := by
    intro u
    by_cases hu : u = t
    · subst hu
      simp only [setEnqueued, Function.update_self, true_iff]
      exact ⟨j, hj, by simp⟩
    · simp only [setEnqueued, Function.update_of_ne hu, h.flag u]
      constructor
      · rintro ⟨i, hi, hiu⟩
        have hij : i ≠ j := by rintro rfl; simp [hfree] at hiu
        exact ⟨i, hi, by rw [Function.update_of_ne hij]; exact hiu⟩
      · rintro ⟨i, hi, hiu⟩
        have hij : i ≠ j := by rintro rfl; simp at hiu; exact hu hiu.symm
        exact ⟨i, hi, by rwa [Function.update_of_ne hij] at hiu⟩
  index := h.index

theorem Consistent.leave (h : Consistent s) {j : Nat} (hj : j < maxRunningThreads)
    (hjt : s.runningQueue j = some t) :
    Consistent (setEnqueued s t (Function.update s.runningQueue j none) false) where
  once := by
    intro u i k hi hk hiu hku
    simp only [setEnqueued, Function.update_apply] at hiu hku
    split_ifs at hiu hku with hij hkj
    exact h.once u i k hi hk hiu hku
  flag := by
    intro u
    by_cases hu : u = t
    · subst hu
      simp only [setEnqueued, Function.update_self, Bool.false_eq_true, false_iff]
      rintro ⟨i, hi, hiu⟩
      by_cases hij : i = j
      · simp [hij] at hiu
      · rw [Function.update_of_ne hij] at hiu
        exact hij (h.once u i j hi hj hiu hjt)
    · simp only [setEnqueued, Function.update_of_ne hu, h.flag u]
      refine exists_congr fun i => and_congr_right fun _ => ?_
      by_cases hij : i = j
      · subst hij
        simp [hjt, Ne.symm hu]
      · rw [Function.update_of_ne hij]
  index := h.index

theorem Consistent.enqueue (h : Consistent s) (bySignal : Bool) :
    Consistent (schedEnqueueThread s t bySignal).2 := by
  unfold schedEnqueueThread
  split
  · exact h
  · next ht =>
    -- The reason is stored before a slot is looked for.
    have hs : Consistent { s with
        thread := Function.update s.thread t
          { s.thread t with enqueuedBySignal := bySignal } } := by
      refine h.congr rfl (fun u => ?_) h.index
      by_cases hu : u = t
      · subst hu; simp
      · simp [Function.update_of_ne hu]
    simp only
    split
    · next q' hq =>
      obtain ⟨j, hj, hfree, rfl⟩ := casFrom_some hq
      exact hs.enter (by simpa using ht) (by omega) hfree
    · exact hs

theorem Consistent.dequeue (h : Consistent s) : Consistent (schedDequeueThread s t).2 := by
  unfold schedDequeueThread
  split
  · exact h
  · split
    · next q' hq =>
      obtain ⟨j, hj, hjt, rfl⟩ := casFrom_some hq
      exact h.leave (by omega) hjt
    · exact h

theorem schedDequeueThread_ok (h : Consistent s) : (schedDequeueThread s t).1 = true := by
  unfold schedDequeueThread
  split
  · rfl
  · next ht =>
    split
    · rfl
    · next hn =>
      obtain ⟨i, hi, hit⟩ := (h.flag t).mp (by simpa using ht)
      exact absurd hit (casFrom_none hn i (Nat.zero_le i) (by omega))

/-! ## The threads as `event.c` sees them -/

/-- Whether a `CAS` finds an empty slot. -/
def hasSlot (s : State) : Bool := (casFrom s.runningQueue none none maxRunningThreads 0).isSome

theorem casFrom_isSome (new' : Option Nat) : ∀ n i,
    (casFrom q old new n i).isSome = (casFrom q old new' n i).isSome
  | 0, _ => rfl
  | n + 1, i => by
    rw [casFrom, casFrom]
    split
    · rfl
    · exact casFrom_isSome new' n (i + 1)

/-- **To the threads, entering the queue is what `event.c` takes it for**, the free slot of the
queue being its argument. -/
theorem schedEnqueueThread_events (event : Nat → Events.Event) (bySignal : Bool) :
    (schedEnqueueThread s t bySignal).2.thread
      = (Events.schedEnqueueThread ⟨event, s.thread⟩ t bySignal (hasSlot s)).thread := by
  unfold schedEnqueueThread Events.schedEnqueueThread hasSlot
  rw [casFrom_isSome (some t)]
  cases ht : (s.thread t).enqueued with
  | true => simp
  | false =>
    cases hq : casFrom s.runningQueue none (some t) maxRunningThreads 0 with
    | some q' => simp [ht, hq, setEnqueued, Events.setThread]
    | none =>
      -- The flag is off before and after.
      simp [ht, hq, Events.setThread]

theorem schedDequeueThread_events (h : Consistent s) (event : Nat → Events.Event) :
    (schedDequeueThread s t).2.thread
      = (Events.schedDequeueThread ⟨event, s.thread⟩ t).thread := by
  have hok := schedDequeueThread_ok (t := t) h
  unfold schedDequeueThread at hok ⊢
  unfold Events.schedDequeueThread
  split at hok
  · next ht => rw [if_pos ht, if_neg (by simp [ht])]
  · next ht =>
    rw [if_neg ht, if_pos (by simpa using ht)]
    split at hok
    · simp [setEnqueued, Events.setThread]
    · simp at hok

/-! ## The next thread -/

/-- The slot holds a thread that can be taken. -/
def Free (s : State) (i : Nat) : Prop := ∃ t, s.runningQueue i = some t ∧ s.locked t = false

/-- The slots after an index in cyclic order, the index itself being the last of them. -/
def slotAfter (i k : Nat) : Nat := (i + 1 + k) % maxRunningThreads

theorem slotAfter_lt (i k : Nat) : slotAfter i k < maxRunningThreads :=
  Nat.mod_lt _ (by simp [maxRunningThreads])

theorem exists_slotAfter {o i : Nat} (ho : o < maxRunningThreads) (hi : i < maxRunningThreads) :
    ∃ k < maxRunningThreads, slotAfter o k = i := by
  unfold slotAfter maxRunningThreads at *
  by_cases h : o < i
  · exact ⟨i - o - 1, by omega, by omega⟩
  · exact ⟨i + 65536 - o - 1, by omega, by omega⟩

/-- How a search from the `k`-th slot after `o` ends. -/
inductive Found (s : State) (cpu o k : Nat) : Option Nat → State → Prop
  | thread (j t : Nat) (hj : k ≤ j ∧ j < maxRunningThreads)
      (hfirst : ∀ m, k ≤ m → m < j → ¬ Free s (slotAfter o m))
      (ht : s.runningQueue (slotAfter o j) = some t) (hl : s.locked t = false) :
      Found s cpu o k (some t)
        (setLastIndex { s with locked := Function.update s.locked t true } cpu (slotAfter o j))
  | nothing (h : ∀ m, k ≤ m → m < maxRunningThreads → ¬ Free s (slotAfter o m)) :
      Found s cpu o k none (setLastIndex s cpu o)

theorem testAndAcq_cases (i : Nat) :
    (testAndAcq s i = none ∧ ¬ Free s i) ∨
    ∃ t, s.runningQueue i = some t ∧ s.locked t = false ∧
      testAndAcq s i = some (t, { s with locked := Function.update s.locked t true }) := by
  unfold testAndAcq
  rw [Int.toNat_natCast]
  cases hq : s.runningQueue i with
  | none => exact Or.inl ⟨rfl, by simp [Free, hq]⟩
  | some t =>
    cases hl : s.locked t with
    | true => exact Or.inl ⟨by simp [hl], by simp [Free, hq, hl]⟩
    | false => exact Or.inr ⟨t, rfl, hl, by simp [hl]⟩

theorem getNextThreadFrom_spec {o : Nat} (ho : o < maxRunningThreads) :
    ∀ {n k : Nat} {index : Int}, k < maxRunningThreads → maxRunningThreads ≤ k + n →
      wrapIndex index = (slotAfter o k : Nat) →
      ∃ r s', getNextThreadFrom s cpu o n index = some (r, s') ∧ Found s cpu o k r s' := by
  intro n
  induction n with
  | zero => intro k index hk hn; omega
  | succ n ih =>
    intro k index hk hn hindex
    simp only [getNextThreadFrom, hindex]
    rcases testAndAcq_cases (s := s) (slotAfter o k) with ⟨ht, hbusy⟩ | ⟨t, hq, hl, ht⟩
    · simp only [ht]
      split
      · -- One turn is over: the slot is the one the search has started behind.
        next hlast =>
        refine ⟨_, _, rfl, hlast ▸ .nothing fun m hkm hm => ?_⟩
        have : m = k := by
          unfold slotAfter maxRunningThreads at *
          omega
        exact this ▸ hbusy
      · next hlast =>
        have hk' : k + 1 < maxRunningThreads := by
          unfold slotAfter maxRunningThreads at *
          omega
        have hnext : wrapIndex ((slotAfter o k : Nat) + 1) = (slotAfter o (k + 1) : Nat) := by
          unfold wrapIndex slotAfter maxRunningThreads at *
          split <;> omega
        obtain ⟨r, s', hrun, hfound⟩ := ih hk' (by omega) hnext
        refine ⟨r, s', hrun, ?_⟩
        have hskip : ∀ m, k ≤ m → k + 1 ≤ m ∨ m = k := fun m hm => by omega
        cases hfound with
        | thread j t hj hfirst hq hl =>
          refine .thread j t ⟨by omega, hj.2⟩ (fun m hkm hm => ?_) hq hl
          rcases hskip m hkm with hkm | rfl
          · exact hfirst m hkm hm
          · exact hbusy
        | nothing h =>
          refine .nothing fun m hkm hm => ?_
          rcases hskip m hkm with hkm | rfl
          · exact h m hkm hm
          · exact hbusy
    · simp only [ht]
      exact ⟨_, _, rfl, .thread k t ⟨Nat.le_refl k, hk⟩ (fun m hkm hm => by omega) hq hl⟩

/-- The slot whose successor is looked at first. -/
def lastSlot (s : State) (cpu : Nat) : Nat := (origIndex s cpu).toNat

theorem origIndex_eq (h : 0 ≤ s.lastRunQueueIndex cpu) :
    origIndex s cpu = (lastSlot s cpu : Nat) ∧ lastSlot s cpu < maxRunningThreads := by
  unfold lastSlot origIndex wrapIndex maxRunningThreads
  split <;> omega

/-- **`get_next_thread` ends within one turn**, and has looked at the slots in order. -/
theorem getNextThread_spec (h : 0 ≤ s.lastRunQueueIndex cpu) {n : Nat}
    (hn : maxRunningThreads ≤ n) :
    ∃ r s', getNextThread s cpu n = some (r, s') ∧ Found s cpu (lastSlot s cpu) 0 r s' := by
  obtain ⟨ho, hlt⟩ := origIndex_eq h
  unfold getNextThread
  rw [ho]
  refine getNextThreadFrom_spec hlt (by simp [maxRunningThreads]) (by omega) ?_
  unfold wrapIndex slotAfter maxRunningThreads at *
  split <;> omega

theorem getNextThreadFrom_mono {o : Int} {r : Option Nat × State} : ∀ {n m : Nat} {index : Int},
    n ≤ m → getNextThreadFrom s cpu o n index = some r →
    getNextThreadFrom s cpu o m index = some r
  | 0, _, _, _, h => by simp [getNextThreadFrom] at h
  | n + 1, 0, _, hm, _ => by omega
  | n + 1, m + 1, index, hm, h => by
    simp only [getNextThreadFrom] at h ⊢
    cases ht : testAndAcq s (wrapIndex index) with
    | some ts => rwa [ht] at h
    | none =>
      simp only [ht] at h ⊢
      split at h
      · next hi => rwa [if_pos hi]
      · next hi =>
        rw [if_neg hi]
        exact getNextThreadFrom_mono (by omega) h

theorem getNextThread_found (h : 0 ≤ s.lastRunQueueIndex cpu) {n : Nat} {r : Option Nat}
    (hrun : getNextThread s cpu n = some (r, s')) : Found s cpu (lastSlot s cpu) 0 r s' := by
  obtain ⟨r', s'', hmax, hfound⟩ := getNextThread_spec h (Nat.le_max_right n maxRunningThreads)
  have := (getNextThreadFrom_mono (Nat.le_max_left n maxRunningThreads) hrun).symm.trans hmax
  obtain ⟨rfl, rfl⟩ := Prod.mk.inj (Option.some.inj this)
  exact hfound

theorem Found.frame {o k : Nat} {r : Option Nat} (h : Found s cpu o k r s') :
    s'.runningQueue = s.runningQueue ∧ s'.thread = s.thread := by
  cases h <;> exact ⟨rfl, rfl⟩

theorem Found.index {o k : Nat} {r : Option Nat} (h : Found s cpu o k r s')
    (hi : ∀ c, 0 ≤ s.lastRunQueueIndex c) (c : Nat) : 0 ≤ s'.lastRunQueueIndex c := by
  cases h <;>
  · simp only [setLastIndex, Function.update_apply]
    split
    · exact Int.natCast_nonneg _
    · exact hi c

/-! ## Runs -/

theorem Consistent.step {c : Call} (h : Consistent s) (hs : Step s c s') : Consistent s' := by
  cases c with
  | enqueue t bySignal => exact hs ▸ h.enqueue bySignal
  | dequeue t => exact hs ▸ h.dequeue
  | getNext cpu =>
    obtain ⟨n, r, hrun⟩ := hs
    have hfound := getNextThread_found (h.index cpu) hrun
    obtain ⟨hq, ht⟩ := hfound.frame
    exact h.congr hq (fun u => by rw [ht]) (hfound.index h.index)
  | lock t taken => exact hs ▸ h.congr rfl (fun _ => rfl) h.index

theorem Consistent.start (locked : Nat → Bool) (last : Nat → Nat) :
    Consistent (start locked last) where
  once := by simp [RunQueue.start]
  flag := by simp [RunQueue.start]
  index := by simp [RunQueue.start]

/-- **The run queue.** After any calls each thread occupies at most one slot, and its flag is set
exactly when it occupies one. `get_next_thread` ends within one turn, returns the thread of the
first slot after the last index whose lock is free, `NULL` exactly when there is none, and leaves
the queue as it was. -/
theorem runQueue_correct {locked : Nat → Bool} {last : Nat → Nat}
    (hr : Reach Step anyStep (start locked last) s) :
    (∀ t i j, i < maxRunningThreads → j < maxRunningThreads →
      s.runningQueue i = some t → s.runningQueue j = some t → i = j) ∧
    (∀ t, (s.thread t).enqueued = true ↔
      ∃ i < maxRunningThreads, s.runningQueue i = some t) ∧
    ∀ cpu n, maxRunningThreads ≤ n → ∃ r s', getNextThread s cpu n = some (r, s') ∧
      s'.runningQueue = s.runningQueue ∧ s'.thread = s.thread ∧
      (r = none ↔ ∀ i < maxRunningThreads, ¬ Free s i) ∧
      ∀ t, r = some t → ∃ k < maxRunningThreads,
        s.runningQueue (slotAfter (lastSlot s cpu) k) = some t ∧ s.locked t = false ∧
        ∀ j < k, ¬ Free s (slotAfter (lastSlot s cpu) j) := by
  have h : Consistent s :=
    hr.invariant (Consistent.start locked last) fun _ _ _ h _ hs => h.step hs
  refine ⟨h.once, h.flag, fun cpu n hn => ?_⟩
  obtain ⟨r, s', hrun, hfound⟩ := getNextThread_spec (h.index cpu) hn
  obtain ⟨hqueue, hthread⟩ := hfound.frame
  refine ⟨r, s', hrun, hqueue, hthread, ?_⟩
  cases hfound with
  | thread j t hj hfirst ht hl =>
    refine ⟨⟨fun hc => by simp at hc, fun hc => ?_⟩, fun u hu => ?_⟩
    · exact absurd ⟨t, ht, hl⟩ (hc _ (slotAfter_lt _ j))
    · obtain rfl : t = u := Option.some.inj hu
      exact ⟨j, hj.2, ht, hl, fun m hm => hfirst m (Nat.zero_le m) hm⟩
  | nothing hnone =>
    refine ⟨⟨fun _ i hi => ?_, fun _ => rfl⟩, fun u hu => by simp at hu⟩
    obtain ⟨k, hk, rfl⟩ := exists_slotAfter (origIndex_eq (h.index cpu)).2 hi
    exact hnone k (Nat.zero_le k) hk

/-- Threads 7 and 9 are enqueued and 7 leaves again; the processor has an index out of range. -/
def exampleState : State :=
  let s := (schedEnqueueThread (start (fun _ => false) (fun _ => 70000)) 7 false).2
  (schedDequeueThread (schedEnqueueThread s 9 false).2 7).2

theorem runQueue_correct_example :
    exampleState.runningQueue 0 = none ∧ exampleState.runningQueue 1 = some 9 ∧
    ((exampleState.thread 9).enqueued = true ↔
      ∃ i < maxRunningThreads, exampleState.runningQueue i = some 9) ∧
    ∃ r s', getNextThread exampleState 0 maxRunningThreads = some (r, s') ∧
      s'.runningQueue = exampleState.runningQueue := by
  have hr : Reach Step anyStep (start (fun _ => false) (fun _ => 70000)) exampleState := by
    refine .tail (a := .dequeue 7) ?_ trivial rfl
    refine .tail (a := .enqueue 9 false) ?_ trivial rfl
    exact .tail (a := .enqueue 7 false) .refl trivial rfl
  obtain ⟨-, hflag, hnext⟩ := runQueue_correct hr
  obtain ⟨r, s', hrun, hq, -⟩ := hnext 0 maxRunningThreads (Nat.le_refl _)
  exact ⟨by decide, by decide, hflag 9, r, s', hrun, hq⟩

/-- **In every run the threads see of the run queue what `event.c` takes it for.** -/
theorem threads_as_events {s : State} {locked : Nat → Bool} {last : Nat → Nat}
    (hr : Reach Step anyStep (start locked last) s) (event : Nat → Events.Event) (t : Nat)
    (bySignal : Bool) :
    (schedEnqueueThread s t bySignal).2.thread =
        (Events.schedEnqueueThread ⟨event, s.thread⟩ t bySignal (hasSlot s)).thread ∧
      (schedDequeueThread s t).2.thread =
        (Events.schedDequeueThread ⟨event, s.thread⟩ t).thread := by
  have h : Consistent s :=
    hr.invariant (Consistent.start locked last) fun _ _ _ h _ hs => h.step hs
  exact ⟨schedEnqueueThread_events event bySignal, schedDequeueThread_events h event⟩

theorem threads_as_events_empty :
    (schedEnqueueThread (start (fun _ => false) fun _ => 0) 7 false).2.thread =
      (Events.schedEnqueueThread ⟨fun _ => .zero, (start (fun _ => false) fun _ => 0).thread⟩ 7 false
        (hasSlot (start (fun _ => false) fun _ => 0))).thread :=
  (threads_as_events .refl (fun _ => .zero) 7 false).1

end Lyre.RunQueue
