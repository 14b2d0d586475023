import Lyre.Infra.Run
import Lyre.Properties.EventThreads
import Lyre.Sched.Waitpid

/-!
# Exit notifications of children

A parent that waits for any of its children listens to all of their events. It is told about the
first exit by its `which_event`, and it stops listening only when it runs again. A child that exits
in between finds the listener still there: its trigger is not kept, and it takes the place of the
one before in `which_event`, or comes too late to be seen.

* `Quiet` — an exit that does not fall in between;
* `no_exit_lost` — with such exits no notification is lost, whatever the order of the steps.
-/

namespace Lyre.Waitpid

open Infra Events

variable {s s' : State}

/-- The child the parent is about to reap. -/
def Designated (s : State) (c : Nat) : Prop :=
  match s.pc with
  | .running => False
  | .waiting =>
    (s.ev.thread parent).enqueued = true ∧
      s.children[(s.ev.thread parent).whichEvent]? = some c
  | .woken ret => ret.bind (s.children[·]?) = some c
  | .reaping which => s.children[which]? = some c

/-- Every child that has exited and was not reaped is pending, or it is the one to be reaped. -/
def NoneLost (s : State) : Prop :=
  ∀ c ∈ s.children, s.exited c = true → 0 < (s.ev.event c).pending ∨ Designated s c

/-- An exit that finds no listener, or finds the parent asleep and a slot of the run queue to wake
it up. -/
def Quiet (s : State) : Step → Bool
  | .exit c slot =>
    decide ((s.ev.event c).listeners = []) || (!(s.ev.thread parent).enqueued && slot)
  | _ => true

/-! ## The invariant -/

/-- The parent sleeps: it listens to every child and none has exited. -/
def Asleep (s : State) : Prop :=
  ∀ i c, s.children[i]? = some c →
    (s.ev.event c).listeners = [⟨parent, i⟩] ∧ s.exited c = false

/-- One child has exited since, the one at index `w`. -/
def Chosen (s : State) (w : Nat) : Prop :=
  ∃ c₀, s.children[w]? = some c₀ ∧ (s.ev.event c₀).listeners = [] ∧ s.exited c₀ = true ∧
    ∀ i c, s.children[i]? = some c → c ≠ c₀ →
      (s.ev.event c).listeners = [⟨parent, i⟩] ∧ s.exited c = false

/-- Nobody listens, and exits are pending, but perhaps for the child at hand. -/
def Idle (s : State) (except : Nat → Prop) : Prop :=
  ∀ c ∈ s.children, (s.ev.event c).listeners = [] ∧
    (¬ except c → s.exited c = true → 0 < (s.ev.event c).pending)

/-- What is true in each section. -/
def Phase (s : State) : Prop :=
  match s.pc with
  | .running => (s.ev.thread parent).enqueued = true ∧ Idle s fun _ => False
  | .waiting =>
    (s.ev.thread parent).attachedEvents = s.children ∧
      (((s.ev.thread parent).enqueued = false ∧ Asleep s) ∨
        ((s.ev.thread parent).enqueued = true ∧
          (s.ev.thread parent).enqueuedBySignal = false ∧
          Chosen s (s.ev.thread parent).whichEvent))
  | .woken ret =>
    (s.ev.thread parent).attachedEvents = s.children ∧ (s.ev.thread parent).enqueued = true ∧
      ∃ w, ret = some w ∧ Chosen s w
  | .reaping which =>
    (s.ev.thread parent).enqueued = true ∧
      ∃ c₀, s.children[which]? = some c₀ ∧ Idle s (· = c₀)

structure Inv (s : State) : Prop where
  events : s.childEvents = s.children
  nodup : s.children.Nodup
  phase : Phase s

theorem Inv.noneLost (h : Inv s) : NoneLost s := by
  intro c hc hex
  obtain ⟨i, hi⟩ := List.mem_iff_getElem?.mp hc
  have hphase := h.phase
  unfold Phase at hphase
  unfold Designated
  -- with one child chosen, no other has exited
  have hchosen : ∀ {w}, Chosen s w → s.children[w]? = some c := by
    rintro w ⟨c₀, hw, -, -, hother⟩
    by_cases hcc : c = c₀
    · rw [hw, hcc]
    · rw [(hother i c hi hcc).2] at hex
      simp at hex
  split at hphase
  · exact Or.inl ((hphase.2 c hc).2 not_false hex)
  · rcases hphase.2 with ⟨-, hsleep⟩ | ⟨henq, -, hch⟩
    · rw [(hsleep i c hi).2] at hex
      simp at hex
    · exact Or.inr ⟨henq, hchosen hch⟩
  · obtain ⟨-, -, w, rfl, hch⟩ := hphase
    exact Or.inr (hchosen hch)
  · obtain ⟨-, c₀, hw, hidle⟩ := hphase
    by_cases hcc : c = c₀
    · exact Or.inr (by rw [hw, hcc])
    · exact Or.inl ((hidle c hc).2 hcc hex)

theorem start_inv : Inv start :=
  ⟨rfl, List.nodup_nil, rfl, fun _ hc => absurd hc List.not_mem_nil⟩

/-! ## The steps of the parent -/

theorem Inv.fork {c : Nat} (h : Inv s) (hpc : s.pc = .running) (hc : c ∉ s.children) :
    Inv (fork s c) := by
  have hphase := h.phase
  unfold Phase at hphase
  rw [hpc] at hphase
  refine ⟨by simp [Waitpid.fork, h.events], ?_, ?_⟩
  · show (s.children ++ [c]).Nodup
    exact List.nodup_append.mpr ⟨h.nodup, List.nodup_singleton c, fun a ha b hb => by
      rw [List.mem_singleton.mp hb]
      exact fun he => hc (he ▸ ha)⟩
  · unfold Phase
    rw [show (Waitpid.fork s c).pc = .running from hpc]
    refine ⟨hphase.1, fun x hx => ?_⟩
    rcases List.mem_append.mp hx with hx | hx
    · have hxc : x ≠ c := fun he => hc (he ▸ hx)
      have hev : (Waitpid.fork s c).ev.event x = s.ev.event x := setEvent_other _ hxc
      have hex : (Waitpid.fork s c).exited x = s.exited x := Function.update_of_ne hxc ..
      rw [hev, hex]
      exact hphase.2 x hx
    · obtain rfl := List.mem_singleton.mp hx
      have hev : (Waitpid.fork s x).ev.event x = .zero := setEvent_event _
      have hex : (Waitpid.fork s x).exited x = false := Function.update_self ..
      rw [hev, hex]
      exact ⟨rfl, fun _ hf => by simp at hf⟩

/-- `waitpid` up to where it blocks or has an index. -/
theorem Inv.waitpid {block : Bool} (h : Inv s) (hpc : s.pc = .running)
    (hres : syscallWaitpid s block = some s') : Inv s' := by
  have hphase := h.phase
  unfold Phase at hphase
  rw [hpc] at hphase
  obtain ⟨henq, hidle⟩ := hphase
  unfold syscallWaitpid at hres
  split at hres
  · obtain rfl := Option.some.inj hres
    exact h
  · unfold eventAwait at hres
    rcases hcheck : checkForPending s.childEvents s.ev with ⟨_ | i, ev⟩
    · -- nothing is pending, so that no child has exited
      obtain ⟨rfl, hzero⟩ := checkForPendingFrom_none hcheck
      rw [hcheck] at hres
      simp only at hres
      rw [h.events] at hzero
      cases block with
      | false =>
        obtain rfl : s = s' := by simpa using hres
        exact h
      | true =>
        simp only [Bool.true_eq_false, if_false] at hres
        cases hatt : attachListeners s.childEvents parent s.ev with
        | none => simp [hatt] at hres
        | some ev =>
          rw [hatt] at hres
          obtain rfl := Option.some.inj hres
          rw [h.events] at hatt
          obtain ⟨hevent, hthread⟩ := attachListeners_spec h.nodup hatt
          have henq' : (ev.thread parent).enqueued = true := by rw [hthread]; exact henq
          have hdeq : schedDequeueThread ev parent
              = setThread ev parent { ev.thread parent with enqueued := false } := if_pos henq'
          refine ⟨h.events, h.nodup, ?_, Or.inl ⟨?_, fun i c hi => ?_⟩⟩
          · simp [hdeq, hthread]
          · simp [hdeq]
          · have hmem := List.mem_of_getElem? hi
            simp only [hdeq, setThread_event, hevent i c hi, (hidle c hmem).1, List.nil_append]
            refine ⟨trivial, Bool.eq_false_iff.mpr fun hex => ?_⟩
            have := (hidle c hmem).2 not_false hex
            rw [hzero c hmem] at this
            exact absurd this (Nat.lt_irrefl 0)
    · obtain ⟨c₀, -, hc₀, -, rfl⟩ := checkForPendingFrom_some hcheck
      rw [hcheck] at hres
      obtain rfl := Option.some.inj hres
      rw [Nat.sub_zero, h.events] at hc₀
      refine ⟨h.events, h.nodup, henq, c₀, hc₀, fun c hc => ?_⟩
      by_cases hcc : c = c₀
      · subst hcc
        refine ⟨?_, fun hne => absurd rfl hne⟩
        simp only [setEvent_event]
        exact (hidle c hc).1
      · simp only [setEvent_other _ hcc]
        exact ⟨(hidle c hc).1, fun _ => (hidle c hc).2 not_false⟩

theorem Inv.detach {ret : Option Nat} (h : Inv s) (hpc : s.pc = .woken ret) :
    Inv (detach s ret) := by
  have hphase := h.phase
  unfold Phase at hphase
  rw [hpc] at hphase
  obtain ⟨hatt, henq, w, rfl, c₀, hw, hnone, hex, hother⟩ := hphase
  obtain ⟨hthread, hevent⟩ := detachListeners_spec (s := s.ev) (t := parent)
    (by rw [hatt]; exact h.nodup)
  refine ⟨h.events, h.nodup, ?_, c₀, hw, fun c hc => ?_⟩
  · show ((detachListeners parent s.ev).thread parent).enqueued = true
    rw [hthread]
    exact henq
  · have hev : (Waitpid.detach s (some w)).ev.event c
        = { s.ev.event c with
            listeners := removeListener parent (s.ev.event c).listeners } :=
      hevent c (by rw [hatt]; exact hc)
    obtain ⟨i, hi⟩ := List.mem_iff_getElem?.mp hc
    by_cases hcc : c = c₀
    · subst hcc
      rw [hev, hnone]
      exact ⟨rfl, fun hne => absurd rfl hne⟩
    · rw [hev, (hother i c hi hcc).1, removeListener_singleton]
      refine ⟨rfl, fun _ hexc => ?_⟩
      rw [show (Waitpid.detach s (some w)).exited c = s.exited c from rfl,
        (hother i c hi hcc).2] at hexc
      simp at hexc

theorem Inv.reap {which : Nat} (h : Inv s) (hpc : s.pc = .reaping which)
    (hres : reap s which = some s') : Inv s' := by
  have hphase := h.phase
  unfold Phase at hphase
  rw [hpc] at hphase
  obtain ⟨henq, c₀, hw, hidle⟩ := hphase
  unfold Waitpid.reap at hres
  rw [hw, Option.map_some] at hres
  obtain rfl := Option.some.inj hres
  have hmem := List.mem_of_getElem? hw
  have herase : vectorRemoveByValue s.children c₀ = s.children.erase c₀ :=
    vectorRemoveByValue_of_mem hmem
  refine ⟨?_, ?_, henq, fun c hc => ?_⟩
  · simp only [h.events]
  · simp only [herase]
    exact h.nodup.erase c₀
  · simp only [herase] at hc
    obtain ⟨hne, hc⟩ := (h.nodup.mem_erase_iff).mp hc
    exact ⟨(hidle c hc).1, fun _ => (hidle c hc).2 hne⟩

/-! ## Exits -/

theorem Idle.exit {except : Nat → Prop} {c : Nat} {slot : Bool} (h : Idle s except)
    (hc : c ∈ s.children) : Idle (syscallExit s c slot) except := by
  have hev : (syscallExit s c slot).ev = setEvent s.ev c
      { s.ev.event c with pending := (s.ev.event c).pending + 1 } :=
    eventTrigger_pending (h c hc).1
  intro x hx
  rw [hev]
  by_cases hxc : x = c
  · subst hxc
    rw [setEvent_event]
    exact ⟨(h x hx).1, fun _ _ => Nat.succ_pos _⟩
  · rw [setEvent_other _ hxc, show (syscallExit s c slot).exited x = s.exited x from
      Function.update_of_ne hxc ..]
    exact h x hx

/-- With a child chosen, every other child that could exit still has its listener. -/
theorem Chosen.not_quiet {w c : Nat} {slot : Bool} (h : Chosen s w) (hc : c ∈ s.children)
    (hlive : s.exited c = false) (henq : (s.ev.thread parent).enqueued = true) :
    Quiet s (.exit c slot) = false := by
  obtain ⟨c₀, -, -, hex, hother⟩ := h
  obtain ⟨i, hi⟩ := List.mem_iff_getElem?.mp hc
  have hcc : c ≠ c₀ := by
    rintro rfl
    rw [hlive] at hex
    simp at hex
  simp [Quiet, (hother i c hi hcc).1, henq]

theorem Inv.exit {c : Nat} {slot : Bool} (h : Inv s) (hc : c ∈ s.children)
    (hlive : s.exited c = false) (hq : Quiet s (.exit c slot) = true) :
    Inv (syscallExit s c slot) := by
  refine ⟨h.events, h.nodup, ?_⟩
  have hphase := h.phase
  unfold Phase at hphase ⊢
  rw [show (syscallExit s c slot).pc = s.pc from rfl]
  -- where nobody listens, threads are left alone
  have hthread : (s.ev.event c).listeners = [] →
      (syscallExit s c slot).ev.thread parent = s.ev.thread parent := by
    intro hl
    rw [show (syscallExit s c slot).ev = _ from eventTrigger_pending hl]
    rfl
  split at hphase
  · rw [hthread (hphase.2 c hc).1]
    exact ⟨hphase.1, hphase.2.exit hc⟩
  · obtain ⟨hatt, ⟨hsleep, hasleep⟩ | ⟨henq, -, hch⟩⟩ := hphase
    · -- the parent is woken up and told which child it was
      obtain ⟨i, hi⟩ := List.mem_iff_getElem?.mp hc
      have hl := (hasleep i c hi).1
      have hslot : slot = true := by
        simpa [Quiet, hl, hsleep] using hq
      have hev : (syscallExit s c slot).ev = _ := eventTrigger_wake hl hsleep
      have hpar : (syscallExit s c slot).ev.thread parent = { s.ev.thread parent with
          whichEvent := i, enqueuedBySignal := false, enqueued := slot } := by
        rw [hev]
        simp
      rw [hpar]
      refine ⟨hatt, Or.inr ⟨hslot, rfl, c, hi, ?_, Function.update_self .., fun j x hj hxc => ?_⟩⟩
      · rw [hev]
        simp
      · rw [hev, setEvent_other _ hxc, setThread_event,
          show (syscallExit s c slot).exited x = s.exited x from Function.update_of_ne hxc ..]
        exact hasleep j x hj
    · rw [hch.not_quiet hc hlive henq] at hq
      simp at hq
  · obtain ⟨-, henq, w, -, hch⟩ := hphase
    rw [hch.not_quiet hc hlive henq] at hq
    simp at hq
  · obtain ⟨henq, c₀, hw, hidle⟩ := hphase
    rw [hthread (hidle c hc).1]
    exact ⟨henq, c₀, hw, hidle.exit hc⟩

/-! ## Runs -/

theorem Inv.next {a : Step} (h : Inv s) (hq : Quiet s a = true) (hs : next s a = some s') :
    Inv s' := by
  unfold Waitpid.next at hs
  cases a with
  | fork c =>
    simp only [Option.ite_none_right_eq_some, Option.some.injEq] at hs
    obtain ⟨⟨hpc, hc⟩, rfl⟩ := hs
    exact h.fork hpc hc
  | waitpid block =>
    simp only [Option.ite_none_right_eq_some] at hs
    exact h.waitpid hs.1 hs.2
  | wake =>
    simp only [Option.ite_none_right_eq_some, Option.some.injEq] at hs
    obtain ⟨⟨hpc, henq⟩, rfl⟩ := hs
    have hphase := h.phase
    unfold Phase at hphase
    rw [hpc] at hphase
    obtain ⟨hatt, ⟨hsleep, -⟩ | ⟨-, hsig, hch⟩⟩ := hphase
    · rw [hsleep] at henq
      simp at henq
    · exact ⟨h.events, h.nodup, hatt, henq, _, by simp [awaitResult, hsig], hch⟩
  | detach =>
    simp only at hs
    split at hs
    · next ret hpc =>
      obtain rfl := Option.some.inj hs
      exact h.detach hpc
    · simp at hs
  | reap =>
    simp only at hs
    split at hs
    · next which hpc => exact h.reap hpc hs
    · simp at hs
  | exit c slot =>
    simp only [Option.ite_none_right_eq_some, Option.some.injEq] at hs
    obtain ⟨⟨hc, hlive⟩, rfl⟩ := hs
    exact h.exit hc hlive hq

/--
**No exit is lost**, as long as every child exits while nobody listens to it, or while the parent
is asleep: in every state that such steps lead to, a child that has exited and was not reaped has a
pending event or is the one that the parent is about to reap.
-/
theorem no_exit_lost
    (hrun : Reach (fun s a s' => next s a = some s') (fun s a => Quiet s a = true) start s) :
    NoneLost s :=
  (hrun.invariant start_inv fun _ _ _ h hq hs => h.next hq hs).noneLost

/-- Three children; the second exits while the parent waits for it, the first when it has been
reaped. -/
theorem no_exit_lost_three : ∃ s,
    Reach (fun s a s' => next s a = some s') (fun s a => Quiet s a = true) start s ∧
    s.children = [1, 3] ∧ s.exited 1 = true ∧ NoneLost s := by
  have hrun : (runIf next Quiet [.fork 1, .fork 2, .fork 3, .waitpid true, .exit 2 true, .wake,
      .detach, .exit 1 true, .reap] start).map (fun s => (s.children, s.exited 1))
      = some ([1, 3], true) := by
    decide +kernel
  obtain ⟨s, hs, hfacts⟩ := Option.map_eq_some_iff.mp hrun
  simp only [Prod.mk.injEq] at hfacts
  have hreach := Reach.of_runIf .refl hs
  exact ⟨s, hreach, hfacts.1, hfacts.2, no_exit_lost hreach⟩

/-- Two children exit before the parent runs again: it reaps the second one, and nothing is left of
the exit of the first. -/
theorem exit_lost_two : ¬ ∀ s,
    Reach (fun s a s' => next s a = some s') anyStep start s → NoneLost s := by
  intro hall
  have hrun : (runAll next [.fork 1, .fork 2, .waitpid true, .exit 1 true, .exit 2 true, .wake,
      .detach, .reap] start).map
      (fun s => (s.children, s.exited 1, (s.ev.event 1).pending, s.pc))
      = some ([1], true, 0, .running) := by
    decide +kernel
  obtain ⟨s, hs, hfacts⟩ := Option.map_eq_some_iff.mp hrun
  simp only [Prod.mk.injEq] at hfacts
  obtain ⟨hlist, hex, hpend, hpc⟩ := hfacts
  have hreach : Reach (fun s a s' => next s a = some s') anyStep start s :=
    Reach.of_runAll .refl (fun _ _ => trivial) hs
  rcases hall s hreach 1 (by rw [hlist]; simp) hex with h | h
  · rw [hpend] at h
    exact absurd h (Nat.lt_irrefl 0)
  · unfold Designated at h
    rw [hpc] at h
    exact h

end Lyre.Waitpid
