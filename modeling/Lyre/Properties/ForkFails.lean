import Lyre.Properties.DescriptorRefs
import Lyre.Properties.ForkMemory
import Lyre.Sched.Fork

/-!
# What `syscall_fork` and `syscall_exec` leave when they fail

Neither call undoes what it has done to objects that existed before. What is as it was after a
failure is decided by how far the call got.

* `fork_exec_restored` — the calls that leave everything as it was: a fork that fails before it has
  counted a resource or put a range in a list of locals, and an exec that fails to load its files;
* `fork_leaves_child` — a fork that fails at the thread of the child.
-/

namespace Lyre.Sched

open Mmap

section

variable {σ : Type} {A : RunAllocator σ} {H : Descriptors.Headers} {fuel fpuPages : Nat}
variable {s s₁ s' : State σ} {p : Nat}

/-! ## Everything is as it was -/

/-- What the process, the table of processes and the counts were is what they are. Objects that the
call has allocated are not looked at. -/
structure Unchanged (s s' : State σ) (p : Nat) : Prop where
  processes : s'.procs.processes = s.procs.processes
  children : (s'.procs.proc p).children = (s.procs.proc p).children
  childEvents : (s'.procs.proc p).childEvents = (s.procs.proc p).childEvents
  pagemap : (s'.image p).pagemap = (s.image p).pagemap
  threadStackTop : (s'.image p).threadStackTop = (s.image p).threadStackTop
  mmapAnonBase : (s'.image p).mmapAnonBase = (s.image p).mmapAnonBase
  threads : (s'.image p).threads = (s.image p).threads
  fds : ∀ n, s'.files.fds (p, n) = s.files.fds (p, n)
  descriptions : ∀ d, (s'.files.description d).refcount = (s.files.description d).refcount
  resources : ∀ r, s'.mm.refcount r = s.mm.refcount r
  locals : ∀ g < s.mm.nextId, (s'.mm.globals g).locals = (s.mm.globals g).locals

theorem Unchanged.of_kept {mm : Mmap.State σ} (h : Kept s.mm mm) :
    Unchanged s { s with mm } p where
  processes := rfl
  children := rfl
  childEvents := rfl
  pagemap := rfl
  threadStackTop := rfl
  mmapAnonBase := rfl
  threads := rfl
  fds _ := rfl
  descriptions _ := rfl
  resources := congrFun h.refcount
  locals g hg := by rw [h.globals g hg]

theorem not_unchanged_of_touched (h : Touched s.mm.nextId s.mm s'.mm) : ¬ Unchanged s s' p := by
  intro hu
  rcases h with ⟨r, hr⟩ | ⟨g, hg, hlen⟩
  · exact absurd (hu.resources r) (Nat.ne_of_gt hr)
  · rw [hu.locals g hg] at hlen
    exact Nat.lt_irrefl _ hlen

/-! ## Forking -/

/-- What the loop over the descriptors of the process itself does: nothing but an error. -/
theorem forkFds_self {k i : Nat} {ok : Bool} (h : forkFds H p p k i s = (ok, s')) :
    ∃ mm, s' = { s with mm } ∧ Kept s.mm mm := by
  induction k generalizing i with
  | zero => exact ⟨s.mm, (Prod.mk.inj h).2.symm, Kept.refl _⟩
  | succ k ih =>
    rw [forkFds] at h
    split at h
    · exact ih h
    · simp only [forkFd, Descriptors.fdnumDup, and_self, if_pos, Prod.mk.injEq] at h
      exact ⟨_, h.2.symm, Kept.of_eq (Nat.le_refl _) rfl rfl⟩

theorem forkFd_procs {newProc i : Nat} {fd : Descriptors.Descriptor} :
    (forkFd H s p newProc i fd).2.procs = s.procs := by
  unfold forkFd
  simp only
  split <;> rfl

theorem forkFds_procs {newProc k i : Nat} {ok : Bool}
    (h : forkFds H p newProc k i s = (ok, s')) : s'.procs = s.procs := by
  induction k generalizing s i with
  | zero => rw [← (Prod.mk.inj h).2]
  | succ k ih =>
    rw [forkFds] at h
    split at h
    · exact ih h
    · next fd _ =>
      have hfd : (forkFd H s p newProc i fd).2.procs = s.procs := forkFd_procs
      split at h
      · next hf =>
        rw [hf] at hfd
        exact (ih h).trans hfd
      · next hf =>
        rw [hf] at hfd
        rw [← (Prod.mk.inj h).2]
        exact hfd

theorem addProcess_processes {old a : Nat} {v : Image} :
    (addProcess s (some old) a v).procs.processes = s.procs.processes ++ [a] := rfl

theorem freeProcess_processes {newProc : Option Nat} {garbage : Procs.Process} :
    (freeProcess s newProc garbage).procs.processes = s.procs.processes := by
  cases newProc <;> rfl

theorem freeProcess_none {garbage : Procs.Process} : freeProcess s none garbage = s := rfl

/-- The address space is not copied because memory runs out before the copy leaves a trace. -/
def ForkFailsEarly (A : RunAllocator σ) (s : State σ) (p : Nat) : Prop :=
  s.mm.heapOk s.mm.nextId = false ∨
    ∃ pagemap, (s.image p).pagemap = some pagemap ∧
      FailsEarly A.toPageAllocator (heapAlloc s.mm).2 pagemap

/-- Every range of the process, and its global range, is an object of the heap, and the thread that
makes the call is one of the threads. -/
structure WellFormed (s : State σ) (p : Nat) : Prop where
  ranges : ∀ pagemap, (s.image p).pagemap = some pagemap →
    ∀ id ∈ s.mm.ranges pagemap, Allocated s.mm.nextId s.mm id
  threads : (s.image p).threads ≠ []

theorem schedNewProcess_none {pagemap : Nat} (hw : WellFormed s p)
    (h : schedNewProcess A fuel s (some p) pagemap = some (none, s₁)) :
    ∃ mm, s₁ = { s with mm } ∧ Grew s.mm mm ∧ (ForkFailsEarly A s p → Kept s.mm mm) ∧
      (¬ ForkFailsEarly A s p → Touched s.mm.nextId s.mm mm) := by
  unfold schedNewProcess at h
  split at h
  · next heap =>
    obtain ⟨hoom, rfl⟩ := heapAlloc_none heap
    simp only [Option.some.injEq, Prod.mk.injEq, true_and] at h
    have hkept : Kept s.mm (setErrno { s.mm with nextId := s.mm.nextId + 1 } .enomem) :=
      Kept.of_eq (Nat.le_succ _) rfl rfl
    exact ⟨_, h.symm, hkept.grew, fun _ => hkept, fun hc => absurd (Or.inl hoom) hc⟩
  · next a mm heap =>
    obtain ⟨hok, rfl, rfl⟩ := heapAlloc_some heap
    have halloc := heapAlloc_kept s.mm
    simp only at h
    split at h
    · simp at h
    · next pagemap hpm =>
      split at h
      · simp at h
      · next mm hfork =>
        simp only [Option.some.injEq, Prod.mk.injEq, true_and] at h
        have hearly : ForkFailsEarly A s p ↔
            FailsEarly A.toPageAllocator (heapAlloc s.mm).2 pagemap := by
          simp [ForkFailsEarly, hok, hpm]
        have hfork : vmmForkPagemap A.toPageAllocator fuel (heapAlloc s.mm).2 pagemap
            = some (none, mm) := hfork
        obtain ⟨hkept, htouched⟩ :=
          vmmForkPagemap_fails (s := (heapAlloc s.mm).2) (Nat.le_succ _)
            (fun id hid => hw.ranges pagemap hpm id hid) hfork
        refine ⟨mm, h.symm, halloc.grew.trans (vmmForkPagemap_grew hfork), fun he => halloc.trans (hkept (hearly.mp he)), fun he => ?_⟩
        exact (htouched fun hc => he (hearly.mpr hc)).after halloc.grew (Nat.le_refl _)
      · simp at h

theorem schedNewProcess_some {pagemap a : Nat}
    (h : schedNewProcess A fuel s (some p) pagemap = some (some a, s₁)) :
    ¬ ForkFailsEarly A s p ∧ s₁.procs.processes = s.procs.processes ++ [a] := by
  unfold schedNewProcess at h
  split at h
  · simp at h
  · next a' mm heap =>
    obtain ⟨hok, rfl, rfl⟩ := heapAlloc_some heap
    simp only at h
    split at h
    · simp at h
    · next pagemap hpm =>
      split at h
      · simp at h
      · simp at h
      · next hfork =>
        simp only [Option.some.injEq, Prod.mk.injEq] at h
        obtain ⟨rfl, rfl⟩ := h
        refine ⟨?_, addProcess_processes⟩
        rintro (hc | ⟨pagemap', hpm', hc⟩)
        · simp [hok] at hc
        · obtain rfl : pagemap = pagemap' := Option.some.inj (hpm.symm.trans hpm')
          exact vmmForkPagemap_succeeds hfork hc

theorem forkThread_procs {a thread : Nat} :
    (forkThread A fpuPages s a thread).procs = s.procs := rfl

theorem syscallFork_some {garbage : Procs.Process} {r : Int} {a : Nat}
    (hnew : schedNewProcess A fuel s (some p) 0 = some (some a, s₁))
    (h : syscallFork A H fuel fpuPages s p garbage = some (r, s')) :
    s'.procs.processes = s.procs.processes ++ [a] := by
  obtain ⟨-, hprocs⟩ := schedNewProcess_some hnew
  unfold syscallFork at h
  rw [hnew] at h
  simp only at h
  split at h
  · next hf =>
    simp only [Option.some.injEq, Prod.mk.injEq] at h
    rw [← h.2, freeProcess_processes, forkFds_procs hf, hprocs]
  · next hf =>
    split at h
    · simp only [Option.some.injEq, Prod.mk.injEq] at h
      rw [← h.2, freeProcess_processes, forkFds_procs hf, hprocs]
    · simp only [Option.map_some, Option.some.injEq, Prod.mk.injEq] at h
      rw [← h.2, forkThread_procs, forkFds_procs hf, hprocs]

theorem syscallFork_restored {garbage : Procs.Process} {r : Int} (hw : WellFormed s p)
    (h : syscallFork A H fuel fpuPages s p garbage = some (r, s')) :
    Unchanged s s' p ↔ ForkFailsEarly A s p := by
  rcases hnew : schedNewProcess A fuel s (some p) 0 with _ | ⟨newProc, s₁⟩
  · simp [syscallFork, hnew] at h
  · cases newProc with
    | some a =>
      refine iff_of_false (fun hu => ?_) (schedNewProcess_some hnew).1
      have hlen := congrArg List.length ((syscallFork_some hnew h).symm.trans hu.processes)
      simp at hlen
    | none =>
      obtain ⟨mm, rfl, hgrew, hkept, htouched⟩ := schedNewProcess_none hw hnew
      obtain ⟨mm', rfl, hkept'⟩ : ∃ mm', s' = { s with mm := mm' } ∧ Kept mm mm' := by
        unfold syscallFork at h
        rw [hnew] at h
        simp only [freeProcess_none] at h
        split at h
        · next hf =>
          obtain ⟨mm', rfl, hk⟩ := forkFds_self hf
          simp only [Option.some.injEq, Prod.mk.injEq] at h
          exact ⟨mm', h.2.symm, hk⟩
        · next hf =>
          obtain ⟨mm', rfl, hk⟩ := forkFds_self hf
          split at h
          · next heap =>
            obtain ⟨-, rfl⟩ := heapAlloc_none heap
            simp only [Option.some.injEq, Prod.mk.injEq] at h
            exact ⟨_, h.2.symm, hk.trans (Kept.of_eq (Nat.le_succ _) rfl rfl)⟩
          · simp at h
      constructor
      · intro hu
        by_contra he
        exact not_unchanged_of_touched ((htouched he).before hkept'.grew hgrew.nextId_le) hu
      · exact fun he => Unchanged.of_kept ((hkept he).trans hkept')

/-! ## Loading a program -/

/-- The files of the program cannot be loaded. -/
def ExecFailsEarly (A : RunAllocator σ) (s : State σ) (node : Option Elf.File)
    (ldNode : Option Elf.Phdr → Option Elf.File) : Prop :=
  let (newPagemap, mm) := newPagemap A.toPageAllocator s.mm
  ∀ s', execLoad A { s with mm } newPagemap node ldNode ≠ some (true, s')

theorem execLoad_kept {newPagemap : Option Nat} {node : Option Elf.File}
    {ldNode : Option Elf.Phdr → Option Elf.File} {ok : Bool}
    (h : execLoad A s newPagemap node ldNode = some (ok, s')) :
    ∃ mm, s' = { s with mm } ∧ Kept s.mm mm := by
  unfold execLoad at h
  split at h
  · exact ⟨s.mm, (Prod.mk.inj (Option.some.inj h)).2.symm, Kept.refl _⟩
  · split at h
    · simp at h
    · next hl => exact ⟨_, (Prod.mk.inj (Option.some.inj h)).2.symm, elfLoad_kept hl⟩
    · next hl =>
      split at h
      · exact ⟨_, (Prod.mk.inj (Option.some.inj h)).2.symm, elfLoad_kept hl⟩
      · obtain ⟨⟨r, mm⟩, hl', h⟩ := Option.map_eq_some_iff.mp h
        exact ⟨mm, (Prod.mk.inj h).2.symm, (elfLoad_kept hl).trans (elfLoad_kept hl')⟩

theorem execReplace_none {newPagemap : Option Nat}
    (h : execReplace A fpuPages s p newPagemap = some (none, s')) : (s'.image p).threads = [] := by
  unfold execReplace schedNewUserThread at h
  split at h
  · simp only [Option.some.injEq, Prod.mk.injEq, true_and] at h
    subst h
    simp [State.setImage]
  · split at h
    · simp at h
    · next hstack =>
      simp only [Option.some.injEq, Prod.mk.injEq, true_and] at h
      subst h
      unfold threadStack at hstack
      simp only at hstack
      split at hstack
      · simp only [Option.some.injEq, Prod.mk.injEq, true_and] at hstack
        subst hstack
        simp [State.setImage]
      · split at hstack
        · simp at hstack
        · simp only [Option.some.injEq, Prod.mk.injEq, true_and] at hstack
          subst hstack
          simp [State.setImage]
        · simp at hstack
    · simp at h

theorem syscallExec_restored {thread : Nat} {node : Option Elf.File}
    {ldNode : Option Elf.Phdr → Option Elf.File} (hw : WellFormed s p)
    (h : syscallExec A fuel fpuPages s p thread node ldNode = some (some (-1), s')) :
    Unchanged s s' p ↔ ExecFailsEarly A s node ldNode := by
  have hnew := newPagemap_kept (A := A.toPageAllocator) s.mm
  unfold syscallExec at h
  unfold ExecFailsEarly
  rcases hp : newPagemap A.toPageAllocator s.mm with ⟨newPagemap, mm⟩
  simp only [hp] at h hnew ⊢
  split at h
  · simp at h
  · next hload =>
    obtain ⟨mm', rfl, hkept⟩ := execLoad_kept hload
    simp only [Option.some.injEq, Prod.mk.injEq, true_and] at h
    subst h
    refine iff_of_true (Unchanged.of_kept (hnew.trans hkept)) fun s' hc => ?_
    simp [hload] at hc
  · next s₁ hload =>
    obtain ⟨mm', rfl, hkept⟩ := execLoad_kept hload
    refine iff_of_false (fun hu => ?_) fun hc => hc _ hload
    split at h
    · simp at h
    · next hr =>
      simp only [Option.some.injEq, Prod.mk.injEq, true_and] at h
      subst h
      exact hw.threads (hu.threads.symm.trans (execReplace_none hr))
    · split at h
      · simp at h
      · obtain ⟨_, -, h⟩ := Option.map_eq_some_iff.mp h
        simp at h

/-! ## Both calls -/

inductive Call where
  | fork (garbage : Procs.Process)
  | exec (thread : Nat) (node : Option Elf.File) (ldNode : Option Elf.Phdr → Option Elf.File)

variable (A H fuel fpuPages)

/-- The result is missing if the call does not return to the program. -/
def Call.run (s : State σ) (p : Nat) : Call → Option (Option Int × State σ)
  | .fork garbage => (syscallFork A H fuel fpuPages s p garbage).map fun (r, s) => (some r, s)
  | .exec thread node ldNode => syscallExec A fuel fpuPages s p thread node ldNode

def Call.FailsEarly (s : State σ) (p : Nat) : Call → Prop
  | .fork _ => ForkFailsEarly A s p
  | .exec _ node ldNode => ExecFailsEarly A s node ldNode

variable {A H fuel fpuPages}

/-- A call that returns -1 has changed nothing if and only if memory runs out, or the files cannot be
loaded, before anything is touched that existed. -/
theorem fork_exec_restored (c : Call) (hw : WellFormed s p)
    (h : c.run A H fuel fpuPages s p = some (some (-1), s')) :
    Unchanged s s' p ↔ c.FailsEarly A s p := by
  cases c with
  | fork garbage =>
    obtain ⟨⟨r, s₁⟩, hr, h⟩ := Option.map_eq_some_iff.mp h
    simp only [Prod.mk.injEq] at h
    obtain ⟨-, rfl⟩ := h
    exact syscallFork_restored hw hr
  | exec thread node ldNode => exact syscallExec_restored hw h

end

/-! ## One process -/

/-- A process at address 0 without mappings with the console at 0, 1 and 2. -/
def oneProcess (heapOk : Nat → Bool) : State Pmm.State where
  procs := Procs.schedNewProcess Procs.boot none 0
  files := Descriptors.boot Descriptors.headersExample 7
  mm := { bootProcess with nextId := 2, heapOk }
  image := fun _ => ⟨some 0x2000, 0x70000000000, 0x80000000000, [1], 0, 0o022⟩
  vfsRoot := 0
  kernelProcess := 0
  process := fun _ => 0

theorem oneProcess_wellFormed (heapOk : Nat → Bool) : WellFormed (oneProcess heapOk) 0 where
  ranges _ _ _ hid := absurd hid List.not_mem_nil
  threads := by simp [oneProcess]

/-- Without memory for the child nothing happens, and `fdnum_dup` reports the failure. -/
theorem fork_exec_restored_early : ∃ s',
    (Call.fork ⟨0, 0, [], [], 0⟩).run Pmm.runs Descriptors.headersExample 1 1
      (oneProcess fun _ => false) 0 = some (some (-1), s') ∧
    Unchanged (oneProcess fun _ => false) s' 0 := by
  have hrun : ((Call.fork ⟨0, 0, [], [], 0⟩).run Pmm.runs Descriptors.headersExample 1 1
      (oneProcess fun _ => false) 0).map Prod.fst = some (some (-1)) := by
    decide +kernel
  obtain ⟨⟨r, s'⟩, hr, rfl⟩ := Option.map_eq_some_iff.mp hrun
  exact ⟨s', hr, (fork_exec_restored _ (oneProcess_wellFormed _) hr).mpr (Or.inl rfl)⟩

/-- There is memory for the child and its descriptors and none for its thread. -/
theorem fork_leaves_child : ¬ ∀ (s s' : State Pmm.State) (c : Call), WellFormed s 0 →
    c.run Pmm.runs Descriptors.headersExample 1 1 s 0 = some (some (-1), s') →
    Unchanged s s' 0 := by
  intro hall
  have hrun : ((Call.fork ⟨0, 0, [], [], 0⟩).run Pmm.runs Descriptors.headersExample 1 1
      (oneProcess fun n => n < 7) 0).map (fun r => (r.1, r.2.procs.processes.length))
      = some (some (-1), 2) := by
    decide +kernel
  obtain ⟨⟨r, s'⟩, hr, hlen⟩ := Option.map_eq_some_iff.mp hrun
  obtain ⟨rfl, hlen⟩ := Prod.mk.inj hlen
  have hu := hall _ s' _ (oneProcess_wellFormed _) hr
  rw [hu.processes] at hlen
  exact absurd hlen (by decide)

end Lyre.Sched
