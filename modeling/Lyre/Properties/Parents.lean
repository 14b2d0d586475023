import Lyre.Infra.Run
import Lyre.Sched.Process
import Mathlib.Data.List.Nodup

/-!
# Parents and children

Who is whose child is stored twice: in the vectors of the parent, and in `ppid` of the child. The
pid 0, of the kernel's own process, stands for no parent. `Family` says that the two agree. A process
that exits hands its children to the second process, and leaves their `ppid` as it is; so the two
agree in runs in which processes without children exit (`Orderly`), where no pid is given again.
-/

namespace Lyre.Procs

open Infra

variable {s s' : State} {a b c p child addr : Nat}

/-! ## The invariant -/

structure Family (s : State) : Prop where
  nodup : s.processes.Nodup
  live : ∀ a ∈ s.processes, s.live a = true
  pid_inj : ∀ p ∈ s.processes, ∀ q ∈ s.processes, (s.proc p).pid = (s.proc q).pid → p = q
  children_nodup : ∀ p ∈ s.processes, (s.proc p).children.Nodup
  events : ∀ p ∈ s.processes, (s.proc p).childEvents = (s.proc p).children
  mem_children : ∀ p ∈ s.processes, ∀ c, c ∈ (s.proc p).children ↔
    c ∈ s.processes ∧ (s.proc c).ppid = (s.proc p).pid ∧ (s.proc p).pid ≠ 0

/-- A process in the table, other than the kernel's. -/
def Caller (s : State) (a : Nat) : Prop := a ∈ s.processes ∧ (s.proc a).pid ≠ 0

/-- The pid of the next process is not in use, neither as a pid nor as a `ppid`. -/
def PidFree (s : State) : Prop :=
  ∀ b ∈ s.processes, (s.proc b).pid ≠ toInt32 s.processes.length ∧
    (s.proc b).ppid ≠ toInt32 s.processes.length

/-- The calls that keep the two views together. -/
def Orderly (s : State) : Call → Prop
  | .create none _ => PidFree s
  | .create (some old) _ => Caller s old ∧ PidFree s
  | .forkFail _ _ _ => False
  | .exit a => (s.proc a).children = []
  | .waitpid a _ _ => Caller s a

theorem addChild_pid (s : State) (parent child b : Nat) :
    ((addChild s parent child).proc b).pid = (s.proc b).pid := by
  simp only [addChild, setProc, Function.update_apply]
  split
  · next heq => rw [heq]
  · rfl

theorem addChild_ppid (s : State) (parent child b : Nat) :
    ((addChild s parent child).proc b).ppid = (s.proc b).ppid := by
  simp only [addChild, setProc, Function.update_apply]
  split
  · next heq => rw [heq]
  · rfl

theorem addChild_self (s : State) (parent child : Nat) :
    ((addChild s parent child).proc parent).children = (s.proc parent).children ++ [child] ∧
    ((addChild s parent child).proc parent).childEvents
      = (s.proc parent).childEvents ++ [child] := by
  constructor
  · simp [addChild, setProc]
  · simp [addChild, setProc]

/-- The process before its parent knows of it. -/
def pushed (s : State) (ppid : Int) (addr : Nat) : State :=
  { s with
    proc := Function.update s.proc addr ⟨toInt32 s.processes.length, ppid, [], [], 0⟩
    processes := s.processes ++ [addr]
    live := Function.update s.live addr true }

theorem pushed_proc (ppid : Int) (hne : b ≠ addr) : (pushed s ppid addr).proc b = s.proc b :=
  Function.update_of_ne hne _ _

theorem pushed_self (s : State) (ppid : Int) (addr : Nat) :
    (pushed s ppid addr).proc addr = ⟨toInt32 s.processes.length, ppid, [], [], 0⟩ :=
  Function.update_self _ _ _

theorem mem_pushed (ppid : Int) :
    b ∈ (pushed s ppid addr).processes ↔ b ∈ s.processes ∨ b = addr := by
  show b ∈ s.processes ++ [addr] ↔ _
  rw [List.mem_append, List.mem_singleton]

theorem family_pushed (h : Family s) (ppid : Int) (hfresh : addr ∉ s.processes)
    (hfree : PidFree s) :
    let t := pushed s ppid addr
    t.processes.Nodup ∧ (∀ a ∈ t.processes, t.live a = true) ∧
    (∀ p ∈ t.processes, ∀ q ∈ t.processes, (t.proc p).pid = (t.proc q).pid → p = q) ∧
    (∀ p ∈ t.processes, (t.proc p).children.Nodup ∧ (t.proc p).childEvents = (t.proc p).children) ∧
    (∀ p ∈ t.processes, ∀ c, c ∈ (t.proc p).children ↔
      c ∈ s.processes ∧ (t.proc c).ppid = (t.proc p).pid ∧ (t.proc p).pid ≠ 0) := by
  intro t
  have hold : ∀ b ∈ s.processes, t.proc b = s.proc b := by
    intro b hb
    exact pushed_proc ppid fun heq => hfresh (heq ▸ hb)
  have hself : t.proc addr = ⟨toInt32 s.processes.length, ppid, [], [], 0⟩ := pushed_self s ppid addr
  refine ⟨?_, fun b hb => ?_, fun p hp q hq hpid => ?_, fun p hp => ?_, fun p hp c => ?_⟩
  · refine List.nodup_append.mpr ⟨h.nodup, List.nodup_singleton addr, ?_⟩
    intro b hb b' hb'
    rw [List.mem_singleton.mp hb']
    exact fun heq => hfresh (heq ▸ hb)
  · show Function.update s.live addr true b = true
    by_cases heq : b = addr
    · rw [heq, Function.update_self]
    · rw [Function.update_of_ne heq]
      exact h.live b (((mem_pushed _).mp hb).resolve_right heq)
  · rcases (mem_pushed _).mp hp with hp' | hp' <;> rcases (mem_pushed _).mp hq with hq' | hq'
    · rw [hold p hp', hold q hq'] at hpid
      exact h.pid_inj p hp' q hq' hpid
    · rw [hold p hp', hq', hself] at hpid
      exact absurd hpid (hfree p hp').1
    · rw [hold q hq', hp', hself] at hpid
      exact absurd hpid.symm (hfree q hq').1
    · rw [hp', hq']
  · rcases (mem_pushed _).mp hp with hp | rfl
    · rw [hold p hp]
      exact ⟨h.children_nodup p hp, h.events p hp⟩
    · rw [hself]
      exact ⟨List.nodup_nil, rfl⟩
  · rcases (mem_pushed _).mp hp with hp | rfl
    · rw [hold p hp, h.mem_children p hp c]
      constructor
      · rintro ⟨hc, hrest⟩
        rw [hold c hc]
        exact ⟨hc, hrest⟩
      · rintro ⟨hc, hrest⟩
        rw [hold c hc] at hrest
        exact ⟨hc, hrest⟩
    · rw [hself]
      simp only [List.not_mem_nil, false_iff]
      rintro ⟨hc, heq, -⟩
      rw [hold c hc] at heq
      exact (hfree c hc).2 heq

theorem Family.create (h : Family s) (oldProc : Option Nat) (hlive : s.live addr ≠ true)
    (hfree : PidFree s) (hcaller : ∀ old ∈ oldProc, Caller s old) :
    Family (schedNewProcess s oldProc addr) := by
  have hfresh : addr ∉ s.processes := fun hmem => hlive (h.live addr hmem)
  cases oldProc with
  | none =>
    obtain ⟨hnodup, hlive', hinj, hvec, hmem⟩ := family_pushed h 0 hfresh hfree
    refine ⟨hnodup, hlive', hinj, fun p hp => (hvec p hp).1, fun p hp => (hvec p hp).2,
      fun p hp c => (hmem p hp c).trans ?_⟩
    constructor
    · rintro ⟨hc, hrest⟩
      exact ⟨(mem_pushed _).mpr (.inl hc), hrest⟩
    · rintro ⟨hc, hppid, hpid⟩
      refine ⟨((mem_pushed _).mp hc).resolve_right fun heq => ?_, hppid, hpid⟩
      -- the new process has no parent
      change ((pushed s 0 addr).proc c).ppid = _ at hppid
      rw [heq, pushed_self] at hppid
      exact hpid hppid.symm
  | some old =>
    obtain ⟨hold, hpid0⟩ := hcaller old rfl
    have hne : old ≠ addr := fun heq => hfresh (heq ▸ hold)
    obtain ⟨hnodup, hlive', hinj, hvec, hmem⟩ :=
      family_pushed h (s.proc old).pid hfresh hfree
    have hppid : ∀ b, ((schedNewProcess s (some old) addr).proc b).ppid
        = ((pushed s (s.proc old).pid addr).proc b).ppid := addChild_ppid _ old addr
    have hpid : ∀ b, ((schedNewProcess s (some old) addr).proc b).pid
        = ((pushed s (s.proc old).pid addr).proc b).pid := addChild_pid _ old addr
    have hother : ∀ b, b ≠ old → (schedNewProcess s (some old) addr).proc b
        = (pushed s (s.proc old).pid addr).proc b := fun b hb => Function.update_of_ne hb _ _
    have hnot : addr ∉ ((pushed s (s.proc old).pid addr).proc old).children := by
      intro hin
      exact hfresh ((hmem old ((mem_pushed _).mpr (.inl hold)) addr).mp hin).1
    have hself := addChild_self (pushed s (s.proc old).pid addr) old addr
    have hchildren : ((schedNewProcess s (some old) addr).proc old).children
        = ((pushed s (s.proc old).pid addr).proc old).children ++ [addr] := hself.1
    have hevents : ((schedNewProcess s (some old) addr).proc old).childEvents
        = ((pushed s (s.proc old).pid addr).proc old).childEvents ++ [addr] := hself.2
    refine ⟨hnodup, hlive', fun p hp q hq heq => ?_, fun p hp => ?_, fun p hp => ?_,
      fun p hp c => ?_⟩
    · rw [hpid, hpid] at heq
      exact hinj p hp q hq heq
    · by_cases hpo : p = old
      · rw [hpo, hchildren]
        refine List.nodup_append.mpr ⟨(hvec old (hpo ▸ hp)).1, List.nodup_singleton addr, ?_⟩
        intro b hb b' hb'
        rw [List.mem_singleton.mp hb']
        exact fun heq => hnot (heq ▸ hb)
      · rw [hother p hpo]
        exact (hvec p hp).1
    · by_cases hpo : p = old
      · rw [hpo, hchildren, hevents, (hvec old (hpo ▸ hp)).2]
      · rw [hother p hpo]
        exact (hvec p hp).2
    · have hsplit : c ∈ ((schedNewProcess s (some old) addr).proc p).children ↔
          c ∈ ((pushed s (s.proc old).pid addr).proc p).children ∨ (p = old ∧ c = addr) := by
        by_cases hpo : p = old
        · rw [hpo, hchildren, List.mem_append, List.mem_singleton]
          simp
        · rw [hother p hpo]
          simp [hpo]
      rw [hsplit, hppid, hpid, hmem p hp c]
      have hnew : ((pushed s (s.proc old).pid addr).proc addr).ppid = (s.proc old).pid := by
        rw [pushed_self]
      have hpold : ((pushed s (s.proc old).pid addr).proc old).pid = (s.proc old).pid := by
        rw [pushed_proc _ hne]
      have hlisted : c ∈ (schedNewProcess s (some old) addr).processes ↔
          c ∈ s.processes ∨ c = addr := mem_pushed 0
      rw [hlisted]
      constructor
      · rintro (⟨hc, hrest⟩ | ⟨rfl, rfl⟩)
        · exact ⟨.inl hc, hrest⟩
        · refine ⟨.inr rfl, hnew.trans hpold.symm, ?_⟩
          rw [hpold]
          exact hpid0
      · rintro ⟨hc | rfl, hrest⟩
        · exact .inl ⟨hc, hrest⟩
        · refine .inr ⟨?_, rfl⟩
          have heq := hpold.trans (hnew.symm.trans hrest.1)
          exact (hinj old ((mem_pushed _).mpr (.inl hold)) p hp heq).symm

/-! ## Exit and `waitpid` -/

theorem Family.setProc (h : Family s) {v : Process} (hpid : v.pid = (s.proc a).pid)
    (hppid : v.ppid = (s.proc a).ppid) (hchildren : v.children = (s.proc a).children)
    (hevents : v.childEvents = (s.proc a).childEvents) : Family (setProc s a v) := by
  have hsame : ∀ b, ((Procs.setProc s a v).proc b).pid = (s.proc b).pid ∧
      ((Procs.setProc s a v).proc b).ppid = (s.proc b).ppid ∧
      ((Procs.setProc s a v).proc b).children = (s.proc b).children ∧
      ((Procs.setProc s a v).proc b).childEvents = (s.proc b).childEvents := by
    intro b
    simp only [Procs.setProc, Function.update_apply]
    split
    · next heq =>
      rw [heq]
      exact ⟨hpid, hppid, hchildren, hevents⟩
    · exact ⟨rfl, rfl, rfl, rfl⟩
  refine ⟨h.nodup, h.live, fun p hp q hq heq => ?_, fun p hp => ?_, fun p hp => ?_,
    fun p hp c => ?_⟩
  · rw [(hsame p).1, (hsame q).1] at heq
    exact h.pid_inj p hp q hq heq
  · rw [(hsame p).2.2.1]
    exact h.children_nodup p hp
  · rw [(hsame p).2.2.1, (hsame p).2.2.2]
    exact h.events p hp
  · rw [(hsame p).2.2.1, (hsame p).1, (hsame c).2.1]
    exact h.mem_children p hp c

theorem Family.exit (h : Family s) (hnone : (s.proc a).children = [])
    (hcall : syscallExit s a = some s') : Family s' := by
  unfold syscallExit at hcall
  split at hcall
  · exact absurd hcall (by simp)
  · rw [hnone] at hcall
    simp only [ne_eq, not_true_eq_false, and_false, if_false] at hcall
    obtain rfl := Option.some.inj hcall
    exact h.setProc rfl rfl rfl rfl

theorem Family.reap (h : Family s) (ha : Caller s a) (hchild : child ∈ (s.proc a).children) :
    Family (reap s a child) := by
  obtain ⟨hmem, hpid0⟩ := ha
  obtain ⟨hlisted, hppid, -⟩ := (h.mem_children a hmem child).mp hchild
  have hprocs : (Procs.reap s a child).processes = s.processes.erase child :=
    vectorRemoveByValue_of_mem hlisted
  have hproc : (Procs.reap s a child).proc = Function.update s.proc a { s.proc a with
      childEvents := vectorRemoveByValue (s.proc a).childEvents child
      children := vectorRemoveByValue (s.proc a).children child } := rfl
  have hvec : ((Procs.reap s a child).proc a).children = (s.proc a).children.erase child := by
    rw [← vectorRemoveByValue_of_mem hchild, hproc, Function.update_self]
  have hevents : ((Procs.reap s a child).proc a).childEvents = (s.proc a).children.erase child := by
    rw [← vectorRemoveByValue_of_mem hchild, hproc, Function.update_self, h.events a hmem]
  have hother : ∀ b, b ≠ a → (Procs.reap s a child).proc b = s.proc b := fun b hb =>
    Function.update_of_ne hb _ _
  have hsame : ∀ b, ((Procs.reap s a child).proc b).pid = (s.proc b).pid ∧
      ((Procs.reap s a child).proc b).ppid = (s.proc b).ppid := by
    intro b
    by_cases hb : b = a
    · rw [hb, hproc, Function.update_self]
      exact ⟨rfl, rfl⟩
    · rw [hother b hb]
      exact ⟨rfl, rfl⟩
  have hold : ∀ b, b ∈ (Procs.reap s a child).processes ↔ b ≠ child ∧ b ∈ s.processes := by
    intro b
    rw [hprocs]
    exact h.nodup.mem_erase_iff
  refine ⟨?_, fun b hb => h.live b ((hold b).mp hb).2, fun p hp q hq heq => ?_, fun p hp => ?_,
    fun p hp => ?_, fun p hp c => ?_⟩
  · rw [hprocs]
    exact h.nodup.erase child
  · rw [(hsame p).1, (hsame q).1] at heq
    exact h.pid_inj p ((hold p).mp hp).2 q ((hold q).mp hq).2 heq
  · by_cases hpa : p = a
    · rw [hpa, hvec]
      exact (h.children_nodup a hmem).erase child
    · rw [hother p hpa]
      exact h.children_nodup p ((hold p).mp hp).2
  · by_cases hpa : p = a
    · rw [hpa, hvec, hevents]
    · rw [hother p hpa]
      exact h.events p ((hold p).mp hp).2
  · rw [(hsame p).1, (hsame c).2, hold c]
    by_cases hpa : p = a
    · rw [hpa, hvec, (h.children_nodup a hmem).mem_erase_iff, h.mem_children a hmem c, and_assoc]
    · rw [hother p hpa, h.mem_children p ((hold p).mp hp).2 c]
      constructor
      · rintro ⟨hc, heq, hne⟩
        refine ⟨⟨?_, hc⟩, heq, hne⟩
        -- the child has one parent
        rintro rfl
        exact hpa (h.pid_inj p ((hold p).mp hp).2 a hmem (heq.symm.trans hppid))
      · rintro ⟨⟨-, hc⟩, hrest⟩
        exact ⟨hc, hrest⟩

/-- The child that `waitpid` takes is one of the caller's, and the event is its own. -/
theorem waitpidChild_mem (h : Family s) (ha : Caller s a) {pid : Int} {which event : Nat}
    (hwait : waitpidChild s a pid which = some (event, child)) :
    child ∈ (s.proc a).children ∧ event = child := by
  unfold waitpidChild at hwait
  split at hwait
  · exact absurd hwait (by simp)
  · next target htarget =>
    obtain ⟨hevent, hchild⟩ := Prod.mk.inj (Option.some.inj hwait)
    rw [← hevent, ← hchild]
    refine ⟨?_, rfl⟩
    unfold waitpidTarget at htarget
    split at htarget
    · split at htarget <;> simp at htarget
    · split at htarget
      · simp at htarget
      · split at htarget
        · simp at htarget
        · split at htarget
          · simp at htarget
          · next item hitem =>
            split at htarget
            · simp at htarget
            · next hppid =>
              obtain rfl := Option.some.inj (Except.ok.inj htarget)
              refine (h.mem_children a ha.1 item).mpr ⟨?_, not_not.mp hppid, ha.2⟩
              unfold vectorItem at hitem
              split at hitem
              · exact List.mem_of_getElem? hitem
              · exact absurd hitem (by simp)
  · rw [h.events a ha.1] at hwait
    split at hwait
    · next e c he hc =>
      obtain ⟨hevent, hchild⟩ := Prod.mk.inj (Option.some.inj hwait)
      rw [← hevent, ← hchild]
      exact ⟨List.mem_of_getElem? hc, Option.some.inj (he.symm.trans hc)⟩
    · exact absurd hwait (by simp)

theorem Family.waitpid (h : Family s) (ha : Caller s a) (pid : Int) (which : Nat) :
    Family (syscallWaitpid s a pid which) := by
  unfold syscallWaitpid
  cases hwait : waitpidChild s a pid which with
  | none => exact h
  | some r =>
    obtain ⟨event, child⟩ := r
    obtain ⟨hchild, rfl⟩ := waitpidChild_mem h ha hwait
    simp only
    split
    · exact h
    · have htaken : Family (Procs.setProc s event { s.proc event with
          pending := (s.proc event).pending - 1 }) := h.setProc rfl rfl rfl rfl
      have hsame : ∀ b, ((Procs.setProc s event { s.proc event with
          pending := (s.proc event).pending - 1 }).proc b).children = (s.proc b).children ∧
          ((Procs.setProc s event { s.proc event with
            pending := (s.proc event).pending - 1 }).proc b).pid = (s.proc b).pid := by
        intro b
        simp only [Procs.setProc, Function.update_apply]
        split
        · next heq => rw [heq]; exact ⟨rfl, rfl⟩
        · exact ⟨rfl, rfl⟩
      refine htaken.reap ⟨ha.1, ?_⟩ ?_
      · rw [(hsame a).2]
        exact ha.2
      · rw [(hsame a).1]
        exact hchild

/-! ## Runs -/

theorem Family.next {call : Call} (h : Family s) (hok : Orderly s call)
    (hs : next s call = some s') : Family s' := by
  cases call with
  | create oldProc addr =>
    rw [Procs.next] at hs
    split at hs
    · exact absurd hs (by simp)
    · next hlive =>
      obtain rfl := Option.some.inj hs
      cases oldProc with
      | none => exact h.create none hlive hok fun _ ho => absurd ho (by simp)
      | some old =>
        refine h.create (some old) hlive hok.2 fun o ho => ?_
        rw [← Option.some.inj ho]
        exact hok.1
  | forkFail oldProc addr garbage => exact absurd hok id
  | exit a => exact h.exit hok hs
  | waitpid a pid which =>
    obtain rfl := Option.some.inj hs
    exact h.waitpid hok pid which

instance (s : State) (a : Nat) : Decidable (Caller s a) := by
  unfold Caller
  infer_instance

instance (s : State) : Decidable (PidFree s) := by
  unfold PidFree
  infer_instance

instance (s : State) : ∀ call, Decidable (Orderly s call)
  | .create none _ => inferInstanceAs (Decidable (PidFree s))
  | .create (some old) _ => inferInstanceAs (Decidable (Caller s old ∧ PidFree s))
  | .forkFail _ _ _ => inferInstanceAs (Decidable False)
  | .exit a => inferInstanceAs (Decidable ((s.proc a).children = []))
  | .waitpid a _ _ => inferInstanceAs (Decidable (Caller s a))

end Lyre.Procs
