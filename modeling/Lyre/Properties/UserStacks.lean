import Lyre.Infra.Run
import Lyre.Properties.ForkFails
import Lyre.Properties.MmapRange

/-!
# The user stacks of a process

`sched_new_user_thread` maps a stack below `thread_stack_top` when its caller has none, and then
moves the top by a page less than the stack is long. The stacks of a process as a transition system:
threads are made with and without a stack of their own, and the program is replaced, in any order,
with whatever else happens to the mappings in between.

* `newThread_iff` — with memory, a call succeeds if and only if no page of the new stack is mapped;
* `user_stacks` — in every state reached there is at most one stack, and when there is one the next
  call without a stack fails.
-/

namespace Lyre.Sched

open Infra Infra.Radix Mmap Vmm

section

variable {σ : Type} {A : RunAllocator σ} {fpuPages : Nat} {roots : Nat → Prop}

/-! ## What a new thread does to the mappings -/

/-- The pagemaps are in order, and what was mapped in them still is. -/
structure Upholds (A : PageAllocator σ) (roots : Nat → Prop) (s s' : Mmap.State σ) : Prop where
  ready : Ready A roots s'
  present : ∀ r v, roots r → Present s.vm r v → Present s'.vm r v

theorem Upholds.trans {A : PageAllocator σ} {s s₁ s' : Mmap.State σ} (h : Upholds A roots s s₁)
    (h' : Upholds A roots s₁ s') : Upholds A roots s s' :=
  ⟨h'.ready, fun r v hr hp => h'.present r v hr (h.present r v hr hp)⟩

theorem Upholds.of_maintains {A : PageAllocator σ} {s s' : Mmap.State σ}
    (h : Maintains A roots roots s s') : Upholds A roots s s' :=
  ⟨h.ready, fun r v hr hp => h.present r v hr hr hp⟩

theorem pmmFreeRun_upholds {s : Mmap.State σ} (page n : Nat) (hA : A.Lawful)
    (h : Ready A.toPageAllocator roots s)
    (hrun : ∀ q, InRun page n q → A.Owned s.vm.pmm q ∧ ¬ TablePage roots s.vm q) :
    Upholds A.toPageAllocator roots s (pmmFreeRun A s page n) := by
  have howned : ∀ q, InRun page n q → A.Owned s.vm.pmm q := fun q hq => (hrun q hq).1
  refine ⟨⟨⟨h.wf.forest, hA.inv_freeRun h.wf.alloc howned, fun t ht => ?_⟩, h.kernel, h.unfreed⟩,
    fun r v _ hp => hp⟩
  exact (hA.owned_freeRun h.wf.alloc howned).mpr ⟨h.wf.owned t ht, fun hq => (hrun t hq).2 ht⟩

theorem forkThread_maintains {s : State σ} (p thread : Nat) (hA : A.Lawful) (hfpu : 0 < fpuPages)
    (h : Ready A.toPageAllocator roots s.mm) :
    Maintains A.toPageAllocator roots roots s.mm (forkThread A fpuPages s p thread).mm := by
  have h₁ := pmmAllocRun_maintains (n := stackSize / pageSize) hA (by decide) h rfl
  have h₂ := pmmAllocRun_maintains (n := stackSize / pageSize) hA (by decide) h₁.ready rfl
  have h₃ := pmmAllocRun_maintains (n := fpuPages) hA hfpu h₂.ready rfl
  exact (h₁.trans h₂ fun _ hr _ => hr).trans h₃ fun _ hr _ => hr

theorem forkThread_upholds {s : State σ} (p thread : Nat) (hA : A.Lawful) (hfpu : 0 < fpuPages)
    (h : Ready A.toPageAllocator roots s.mm) :
    Upholds A.toPageAllocator roots s.mm (forkThread A fpuPages s p thread).mm :=
  .of_maintains (forkThread_maintains p thread hA hfpu h)

/-! ## The stack of a new thread -/

/-- The address is in the stack below `top`. -/
def InStack (top v : Nat) : Prop := top - stackSize ≤ v ∧ v < top

/-- No page of the stack below `top` is mapped. -/
def StackFree (s : Mmap.State σ) (pm top : Nat) : Prop := ∀ v, InStack top v → ¬ Present s.vm pm v

/-- The stack below `top` can be mapped: whole pages in the lower half. -/
structure StackTop (top : Nat) : Prop where
  dvd : pageSize ∣ top
  room : stackSize ≤ top
  low : top ≤ lowEnd

theorem StackTop.lowPages {top : Nat} (h : StackTop top) : LowPages (top - stackSize) stackSize := by
  refine ⟨Nat.dvd_sub h.dvd (by decide), by decide, ?_⟩
  have := h.low
  have := h.room
  omega

theorem StackTop.sub {top : Nat} (h : StackTop top) : sub64 top stackSize = top - stackSize := by
  refine sub64_of_le h.room (Nat.lt_of_le_of_lt h.low (by decide))

theorem threadStack_spec {s s' : State σ} {p pm : Nat} {ok : Bool} (hA : A.Lawful)
    (h : Ready A.toPageAllocator roots s.mm) (himage : (s.image p).pagemap = some pm)
    (hpm : roots pm) (htop : StackTop (s.image p).threadStackTop)
    (hs : threadStack A s p none = some (ok, s')) :
    Upholds A.toPageAllocator roots s.mm s'.mm ∧
      (s'.image p).pagemap = some pm ∧
      (ok = false → (s'.image p).threadStackTop = (s.image p).threadStackTop) ∧
      (ok = true → (s'.image p).threadStackTop
          = sub64 (s.image p).threadStackTop (stackSize - pageSize) ∧
        StackFree s.mm pm (s.image p).threadStackTop ∧
        ∀ v, InStack (s.image p).threadStackTop v → Present s'.mm.vm pm v) := by
  unfold threadStack at hs
  simp only at hs
  split at hs
  · next mm halloc =>
    obtain ⟨rfl, rfl⟩ := Prod.mk.inj (Option.some.inj hs)
    have hkept := pmmAllocRun_maintains hA (by decide) h halloc
    exact ⟨.of_maintains (hkept.trans (hkept.ready.setErrno .enomem) fun _ hr _ => hr), himage,
      fun _ => rfl, fun hc => by simp at hc⟩
  · next stackPhys mm halloc =>
    have hkept := pmmAllocRun_maintains hA (by decide) h halloc
    obtain ⟨-, -, -, hrun⟩ := pmmAllocRun_ext hA (by decide) h.wf halloc
    rw [himage, htop.sub] at hs
    split at hs
    · simp at hs
    · next mm' hmap =>
      obtain ⟨rfl, rfl⟩ := Prod.mk.inj (Option.some.inj hs)
      have hmapped := mmapRange_maintains hkept.ready hpm hmap
      have hfree := pmmFreeRun_upholds stackPhys (stackSize / pageSize) hA
        hmapped.ready fun q hq => by
          obtain ⟨ho, ht⟩ := hrun stackPhys rfl q hq
          exact hmapped.data q ho ht
      exact ⟨((Upholds.of_maintains hkept).trans (.of_maintains hmapped)).trans hfree, himage,
        fun _ => rfl, fun hc => by simp at hc⟩
    · next mm' hmap =>
      obtain ⟨rfl, rfl⟩ := Prod.mk.inj (Option.some.inj hs)
      have hmapped := mmapRange_maintains hkept.ready hpm hmap
      have hnew := mmapRange_new hkept.ready hpm htop.lowPages hmap
      have hroom := htop.room
      refine ⟨(Upholds.of_maintains hkept).trans (.of_maintains hmapped), by simp [State.setImage],
        fun hc => by simp at hc, fun _ => ⟨by simp [State.setImage], fun v hv hp => ?_, fun v hv => ?_⟩⟩
      · exact (hnew v hv.1 (by have := hv.2; omega)).1 (hkept.present pm v hpm hpm hp)
      · exact (hnew v hv.1 (by have := hv.2; omega)).2

/-- Memory for a thread with a stack of its own: the thread, the three objects of `mmap_range`, the
pages of the stack, and after them those for the tables. -/
structure StackMemory (A : RunAllocator σ) (s : Mmap.State σ) : Prop where
  heap : ∀ id, s.nextId ≤ id → id < s.nextId + 4 → s.heapOk id = true
  stack : (A.allocRun s.vm.pmm (stackSize / pageSize)).1 ≠ 0
  pages : A.Supplies (A.allocRun s.vm.pmm (stackSize / pageSize)).2
    (1 + 6 * (stackSize / pageSize))

theorem stackMemory_iff {s : Mmap.State σ} : StackMemory A s ↔
    (∀ k < 4, s.heapOk (s.nextId + k) = true) ∧
      (A.allocRun s.vm.pmm (stackSize / pageSize)).1 ≠ 0 ∧
      A.Supplies (A.allocRun s.vm.pmm (stackSize / pageSize)).2
        (1 + 6 * (stackSize / pageSize)) := by
  constructor
  · exact fun h => ⟨fun k hk => h.heap _ (by omega) (by omega), h.stack, h.pages⟩
  · rintro ⟨hheap, hstack, hpages⟩
    refine ⟨fun id hid hlt => ?_, hstack, hpages⟩
    have := hheap (id - s.nextId) (by omega)
    rwa [Nat.add_sub_cancel' hid] at this

instance (s : Mmap.State σ) : Decidable (StackMemory A s) :=
  decidable_of_iff _ stackMemory_iff.symm

theorem threadStack_succeeds {s : State σ} {p pm : Nat} (hA : A.Lawful)
    (h : Ready A.toPageAllocator roots s.mm) (himage : (s.image p).pagemap = some pm)
    (hpm : roots pm) (htop : StackTop (s.image p).threadStackTop)
    (hheap : ∀ id, s.mm.nextId ≤ id → id < s.mm.nextId + 3 → s.mm.heapOk id = true)
    (hstack : (A.allocRun s.mm.vm.pmm (stackSize / pageSize)).1 ≠ 0)
    (hpages : A.Supplies (A.allocRun s.mm.vm.pmm (stackSize / pageSize)).2
      (1 + 6 * (stackSize / pageSize)))
    (hfree : StackFree s.mm pm (s.image p).threadStackTop) :
    ∃ s', threadStack A s p none = some (true, s') := by
  have halloc : pmmAllocRun A s.mm (stackSize / pageSize) =
      (some (A.allocRun s.mm.vm.pmm (stackSize / pageSize)).1,
        (pmmAllocRun A s.mm (stackSize / pageSize)).2) := by
    simp [pmmAllocRun, hstack]
  obtain ⟨hframe, hwf, hext, -⟩ := pmmAllocRun_ext hA (by decide) h.wf halloc
  have hkept := pmmAllocRun_maintains hA (by decide) h halloc
  have hmem : RangeMemory A.toPageAllocator (pmmAllocRun A s.mm (stackSize / pageSize)).2
      (stackSize / pageSize) := by
    simp only [pmmAllocRun, hstack, if_false]
    exact ⟨hheap, hpages⟩
  have hroom := htop.room
  have hnone : ∀ v, (s.image p).threadStackTop - stackSize ≤ v →
      v < (s.image p).threadStackTop - stackSize + stackSize →
      ¬ Present (pmmAllocRun A s.mm (stackSize / pageSize)).2.vm pm v := by
    intro v hv hv' hp
    unfold Present at hp
    rw [hext.pte_eq hpm] at hp
    exact hfree v ⟨hv, by omega⟩ hp
  obtain ⟨mm', hmap, -⟩ := mmapRange_maps (A.allocRun s.mm.vm.pmm (stackSize / pageSize)).1
    ⟨true, false, 1⟩ Elf.anonymous hkept.ready hpm htop.lowPages (by decide) hmem hnone
  unfold threadStack
  rw [halloc]
  simp only [himage, htop.sub, hmap]
  exact ⟨_, rfl⟩

/-! ## Threads -/

/-- What `sched_new_user_thread` has done for a caller without a stack. -/
theorem newThread_spec {s s' : State σ} {p pm : Nat} {r : Option Nat} (hA : A.Lawful)
    (hfpu : 0 < fpuPages) (h : Ready A.toPageAllocator roots s.mm)
    (himage : (s.image p).pagemap = some pm) (hpm : roots pm)
    (htop : StackTop (s.image p).threadStackTop)
    (hs : schedNewUserThread A fpuPages s p none = some (r, s')) :
    Upholds A.toPageAllocator roots s.mm s'.mm ∧ (s'.image p).pagemap = some pm ∧
      (r = none → (s'.image p).threadStackTop = (s.image p).threadStackTop) ∧
      (r ≠ none → (s'.image p).threadStackTop
          = sub64 (s.image p).threadStackTop (stackSize - pageSize) ∧
        StackFree s.mm pm (s.image p).threadStackTop ∧
        ∀ v, InStack (s.image p).threadStackTop v → Present s'.mm.vm pm v) := by
  unfold schedNewUserThread at hs
  split at hs
  · next mm hheap =>
    obtain ⟨rfl, rfl⟩ := Prod.mk.inj (Option.some.inj hs)
    have hkept := h.heapAlloc hheap
    exact ⟨.of_maintains (hkept.trans (hkept.ready.setErrno .enomem) fun _ hr _ => hr), himage,
      fun _ => rfl, fun hc => absurd rfl hc⟩
  · next thread mm hheap =>
    have hkept := h.heapAlloc hheap
    -- the number of the thread changes no table
    have hvm : mm.vm = s.mm.vm := by
      obtain ⟨-, -, rfl⟩ := heapAlloc_some hheap
      rfl
    have hspec := fun ok s₁ (hs : threadStack A { s with mm } p none = some (ok, s₁)) =>
      threadStack_spec (s := { s with mm }) hA hkept.ready himage hpm htop hs
    split at hs
    · simp at hs
    · next s₁ hstack =>
      obtain ⟨rfl, rfl⟩ := Prod.mk.inj (Option.some.inj hs)
      obtain ⟨hup, hpagemap, hfail, -⟩ := hspec _ _ hstack
      exact ⟨(Upholds.of_maintains hkept).trans hup, hpagemap, fun _ => hfail rfl,
        fun hc => absurd rfl hc⟩
    · next s₁ hstack =>
      obtain ⟨rfl, rfl⟩ := Prod.mk.inj (Option.some.inj hs)
      obtain ⟨hup, hpagemap, -, hok⟩ := hspec _ _ hstack
      obtain ⟨hmoved, hfree, hpres⟩ := hok rfl
      have hfork := forkThread_upholds p thread hA hfpu hup.ready
      refine ⟨((Upholds.of_maintains hkept).trans hup).trans hfork, ?_, fun hc => by simp at hc,
        fun _ => ⟨?_, ?_, fun v hv => hfork.present pm v hpm (hpres v hv)⟩⟩
      · simpa [forkThread, State.setImage] using hpagemap
      · simpa [forkThread, State.setImage] using hmoved
      · unfold StackFree at *
        rwa [hvm] at hfree

/-- **With memory, a thread without a stack is made if and only if no page of its stack is
mapped.** -/
theorem newThread_iff {s : State σ} {p pm : Nat} (hA : A.Lawful) (hfpu : 0 < fpuPages)
    (h : Ready A.toPageAllocator roots s.mm) (himage : (s.image p).pagemap = some pm)
    (hpm : roots pm) (htop : StackTop (s.image p).threadStackTop) (hmem : StackMemory A s.mm) :
    (∃ thread s', schedNewUserThread A fpuPages s p none = some (some thread, s')) ↔
      StackFree s.mm pm (s.image p).threadStackTop := by
  constructor
  · rintro ⟨thread, s', hs⟩
    obtain ⟨-, -, -, hok⟩ := newThread_spec hA hfpu h himage hpm htop hs
    exact (hok (by simp)).2.1
  · intro hfree
    have hheap := heapAlloc_ok (hmem.heap s.mm.nextId (Nat.le_refl _) (by omega))
    have hkept := h.heapAlloc hheap
    obtain ⟨s', hs⟩ := threadStack_succeeds
      (s := { s with mm := { s.mm with nextId := s.mm.nextId + 1 } }) hA hkept.ready himage hpm htop
      (fun id hid hlt => hmem.heap id (by simp at hid; omega) (by simp at hlt; omega)) hmem.stack
      hmem.pages hfree
    unfold schedNewUserThread
    rw [hheap]
    simp only [hs]
    exact ⟨_, _, rfl⟩

theorem newThread_own {s s' : State σ} {p sp : Nat} {r : Option Nat} (hA : A.Lawful)
    (hfpu : 0 < fpuPages) (h : Ready A.toPageAllocator roots s.mm)
    (hs : schedNewUserThread A fpuPages s p (some sp) = some (r, s')) :
    Upholds A.toPageAllocator roots s.mm s'.mm ∧ (s'.image p).pagemap = (s.image p).pagemap ∧
      (s'.image p).threadStackTop = (s.image p).threadStackTop := by
  unfold schedNewUserThread threadStack at hs
  split at hs
  · next mm hheap =>
    obtain ⟨-, rfl⟩ := Prod.mk.inj (Option.some.inj hs)
    have hkept := h.heapAlloc hheap
    exact ⟨.of_maintains (hkept.trans (hkept.ready.setErrno .enomem) fun _ hr _ => hr), rfl, rfl⟩
  · next thread mm hheap =>
    obtain ⟨-, rfl⟩ := Prod.mk.inj (Option.some.inj hs)
    have hkept := h.heapAlloc hheap
    have hfork := forkThread_upholds (s := { s with mm }) p thread hA hfpu hkept.ready
    exact ⟨(Upholds.of_maintains hkept).trans hfork,
      by simp [forkThread, State.setImage], by simp [forkThread, State.setImage]⟩

/-! ## The system -/

/-- `thread_stack_top` of a new program. -/
def execStackTop : Nat := 0x70000000000

/-- A process, and the tops of the stacks that have been mapped for it in its present pagemap. -/
structure Stacks (σ : Type) where
  sys : State σ
  proc : Nat
  tops : List Nat

inductive StackCall
  | newThread (sp : Option Nat)
  | exec (pagemap : Nat)
  | other

/-- The pagemap of the process is one of those that are in order, and has the stacks. -/
structure Stacks.Mapped (A : PageAllocator σ) (t : Stacks σ) (roots : Nat → Prop) (pm : Nat) :
    Prop where
  image : (t.sys.image t.proc).pagemap = some pm
  ready : Ready A roots t.sys.mm
  root : roots pm
  present : ∀ top ∈ t.tops, ∀ v, InStack top v → Present t.sys.mm.vm pm v

variable (A fpuPages) in
/--
What happens to a process: a thread is made; the program is replaced, with a pagemap that has been
filled by then; or anything else goes on that keeps the pagemaps in order and the stacks mapped. A
fork is such a thing, after which the process may be the child.
-/
inductive StackStep : Stacks σ → StackCall → Stacks σ → Prop
  | newThread {t : Stacks σ} {sp r : Option Nat} {s' : State σ}
    (hs : schedNewUserThread A fpuPages t.sys t.proc sp = some (r, s')) :
    StackStep t (.newThread sp) ⟨s', t.proc,
      if sp = none ∧ r ≠ none then (t.sys.image t.proc).threadStackTop :: t.tops else t.tops⟩
  | exec {t : Stacks σ} {roots : Nat → Prop} {pagemap : Nat} {r : Option Nat} {s' : State σ}
    (hready : Ready A.toPageAllocator roots t.sys.mm) (hroot : roots pagemap)
    (hfresh : (t.sys.image t.proc).pagemap ≠ some pagemap)
    (hs : execReplace A fpuPages t.sys t.proc (some pagemap) = some (r, s')) :
    StackStep t (.exec pagemap) ⟨s', t.proc, if r ≠ none then [execStackTop] else []⟩
  | other {t : Stacks σ} {roots : Nat → Prop} {pm p' : Nat} {s' : State σ}
    (htop : (s'.image p').threadStackTop = (t.sys.image t.proc).threadStackTop)
    (hmapped : Stacks.Mapped A.toPageAllocator ⟨s', p', t.tops⟩ roots pm) :
    StackStep t .other ⟨s', p', t.tops⟩

/-- A process without a stack, in a new pagemap. -/
def Started (A : PageAllocator σ) (t : Stacks σ) : Prop :=
  t.tops = [] ∧ (t.sys.image t.proc).threadStackTop = execStackTop ∧
    ∃ roots pm, t.Mapped A roots pm

/-- The invariant of the system: there is one stack at most. -/
structure Stacks.Sound (A : PageAllocator σ) (t : Stacks σ) : Prop where
  mapped : ∃ roots pm, t.Mapped A roots pm
  tops : (t.tops = [] ∧ (t.sys.image t.proc).threadStackTop = execStackTop) ∨
    (t.tops = [execStackTop] ∧
      (t.sys.image t.proc).threadStackTop = execStackTop - (stackSize - pageSize))

theorem Started.sound {t : Stacks σ} (h : Started A.toPageAllocator t) : t.Sound A.toPageAllocator := by
  obtain ⟨htops, htop, hm⟩ := h
  exact ⟨hm, Or.inl ⟨htops, htop⟩⟩

/-- A process with a new program, before its first thread. -/
def replaced (s : State σ) (p pagemap : Nat) : State σ :=
  s.setImage p { s.image p with
    pagemap := some pagemap
    threadStackTop := execStackTop
    mmapAnonBase := 0x80000000000
    threads := [] }

theorem execReplace_eq {s : State σ} {p pagemap : Nat} : execReplace A fpuPages s p (some pagemap)
    = schedNewUserThread A fpuPages (replaced s p pagemap) p none := rfl

theorem stackTop_exec : StackTop execStackTop := ⟨by decide, by decide, by decide⟩

namespace Stacks

variable {t t' : Stacks σ}

theorem Sound.stackTop (h : t.Sound A.toPageAllocator) :
    StackTop (t.sys.image t.proc).threadStackTop := by
  rcases h.tops with ⟨-, htop⟩ | ⟨-, htop⟩ <;> rw [htop]
  · exact stackTop_exec
  · exact ⟨by decide, by decide, by decide⟩

theorem Sound.not_free {roots : Nat → Prop} {pm : Nat} (h : t.Sound A.toPageAllocator)
    (hm : t.Mapped A.toPageAllocator roots pm) (hne : t.tops ≠ []) :
    ¬ StackFree t.sys.mm pm (t.sys.image t.proc).threadStackTop := by
  rcases h.tops with ⟨hnil, -⟩ | ⟨htops, htop⟩
  · exact absurd hnil hne
  · intro hfree
    rw [htop] at hfree
    exact hfree (execStackTop - stackSize) ⟨by decide, by decide⟩
      (hm.present execStackTop (by rw [htops]; exact List.mem_singleton_self _) _
        ⟨by decide, by decide⟩)

theorem sound_replaced {s : State σ} {p pm : Nat} {roots : Nat → Prop}
    (hready : Ready A.toPageAllocator roots s.mm) (hroot : roots pm) :
    Sound A.toPageAllocator ⟨replaced s p pm, p, []⟩ :=
  ⟨⟨roots, pm, by simp [replaced, State.setImage], hready, hroot,
    fun _ ht => absurd ht List.not_mem_nil⟩, Or.inl ⟨rfl, by simp [replaced, State.setImage]⟩⟩

theorem Sound.newThread {r : Option Nat} {s' : State σ} (hA : A.Lawful) (hfpu : 0 < fpuPages)
    (h : t.Sound A.toPageAllocator)
    (hs : schedNewUserThread A fpuPages t.sys t.proc none = some (r, s')) :
    Sound A.toPageAllocator ⟨s', t.proc,
      if r ≠ none then (t.sys.image t.proc).threadStackTop :: t.tops else t.tops⟩ := by
  obtain ⟨roots, pm, hm⟩ := h.mapped
  obtain ⟨hup, himage, hfail, hok⟩ :=
    newThread_spec hA hfpu hm.ready hm.image hm.root h.stackTop hs
  by_cases hr : r = none
  · rw [if_neg fun hc => hc hr]
    refine ⟨⟨roots, pm, himage, hup.ready, hm.root, fun top ht v hv => ?_⟩, ?_⟩
    · exact hup.present pm v hm.root (hm.present top ht v hv)
    · simp only [hfail hr]
      exact h.tops
  · obtain ⟨hmoved, hfree, hpres⟩ := hok hr
    rw [if_pos hr]
    -- there was no stack before, or this one could not have been mapped
    rcases h.tops with ⟨hnil, htop⟩ | ⟨htops, -⟩
    · rw [hnil, htop]
      rw [htop] at hmoved hpres
      refine ⟨⟨roots, pm, himage, hup.ready, hm.root, fun top ht v hv => ?_⟩,
        Or.inr ⟨rfl, hmoved.trans (by decide)⟩⟩
      rw [List.mem_singleton] at ht
      exact hpres v (ht ▸ hv)
    · exact absurd hfree (h.not_free hm (by simp [htops]))

theorem Sound.step {c : StackCall} (hA : A.Lawful) (hfpu : 0 < fpuPages)
    (h : t.Sound A.toPageAllocator) (hs : StackStep A fpuPages t c t') :
    t'.Sound A.toPageAllocator := by
  cases hs with
  | @newThread sp r s' hs =>
    cases sp with
    | none =>
      have := h.newThread hA hfpu hs
      simpa using this
    | some sp =>
      obtain ⟨roots, pm, hm⟩ := h.mapped
      obtain ⟨hup, himage, htop⟩ := newThread_own hA hfpu hm.ready hs
      simp only [reduceCtorEq, false_and, if_false]
      refine ⟨⟨roots, pm, himage.trans hm.image, hup.ready, hm.root, fun top ht v hv => ?_⟩, ?_⟩
      · exact hup.present pm v hm.root (hm.present top ht v hv)
      · simp only [htop]
        exact h.tops
  | exec hready hroot hfresh hs =>
    rw [execReplace_eq] at hs
    have hsound := (sound_replaced hready hroot).newThread hA hfpu hs
    simpa [replaced, State.setImage] using hsound
  | other htop hmapped =>
    refine ⟨⟨_, _, hmapped⟩, ?_⟩
    simp only [htop]
    exact h.tops

end Stacks

/--
**The stacks of a process.** Whatever threads are made and programs replaced, the stacks that are
mapped do not overlap, for there is never more than one: with memory, a call without a stack succeeds
if and only if no page of the `STACK_SIZE` bytes below `thread_stack_top` is mapped, and when a stack
has been mapped one of them is. The same goes for the first thread of a new program.
-/
theorem user_stacks (hA : A.Lawful) (hfpu : 0 < fpuPages) {t₀ t : Stacks σ}
    (h₀ : Started A.toPageAllocator t₀) (hrun : Reach (StackStep A fpuPages) anyStep t₀ t) :
    (∃ pm, (t.sys.image t.proc).pagemap = some pm ∧
      (∀ top ∈ t.tops, ∀ v, InStack top v → Present t.sys.mm.vm pm v) ∧
      t.tops.Pairwise (fun top top' => ∀ v, ¬ (InStack top v ∧ InStack top' v)) ∧
      (StackMemory A t.sys.mm →
        ((∃ thread s', schedNewUserThread A fpuPages t.sys t.proc none = some (some thread, s')) ↔
          StackFree t.sys.mm pm (t.sys.image t.proc).threadStackTop)) ∧
      (t.tops ≠ [] → ¬ StackFree t.sys.mm pm (t.sys.image t.proc).threadStackTop)) ∧
    ∀ roots pagemap, Ready A.toPageAllocator roots t.sys.mm → roots pagemap →
      StackMemory A t.sys.mm →
        ((∃ thread s', execReplace A fpuPages t.sys t.proc (some pagemap)
            = some (some thread, s')) ↔
          StackFree t.sys.mm pagemap execStackTop) := by
  have h : t.Sound A.toPageAllocator :=
    hrun.invariant h₀.sound fun _ _ _ hI _ hs => hI.step hA hfpu hs
  constructor
  · obtain ⟨roots, pm, hm⟩ := h.mapped
    refine ⟨pm, hm.image, hm.present, ?_, fun hmem => ?_, h.not_free hm⟩
    · rcases h.tops with ⟨htops, -⟩ | ⟨htops, -⟩
      · rw [htops]
        exact List.Pairwise.nil
      · rw [htops]
        exact List.pairwise_singleton _ _
    · exact newThread_iff hA hfpu hm.ready hm.image hm.root h.stackTop hmem
  · intro roots pagemap hready hroot hmem
    have htop : ((replaced t.sys t.proc pagemap).image t.proc).threadStackTop = execStackTop := by
      simp [replaced, State.setImage]
    have himage : ((replaced t.sys t.proc pagemap).image t.proc).pagemap = some pagemap := by
      simp [replaced, State.setImage]
    have htop' : StackTop ((replaced t.sys t.proc pagemap).image t.proc).threadStackTop := by
      rw [htop]
      exact stackTop_exec
    rw [execReplace_eq, newThread_iff (s := replaced t.sys t.proc pagemap) hA hfpu hready himage hroot
      htop' hmem, htop]
    rfl

end

/-- A process without mappings on a machine with sixteen megabytes. -/
def sixteenMegabytes : Stacks Pmm.State where
  sys :=
    { oneProcess fun _ => true with
      mm := { bootProcess with
        nextId := 2
        vm := { bootState with pmm := { bootPmm with highestPageIndex := 4096 } } } }
  proc := 0
  tops := []

theorem sixteenMegabytes_ready : Ready Pmm.allocator bootRoots sixteenMegabytes.sys.mm where
  wf := by
    refine (bootState_wf.frame { bootState with pmm := { bootPmm with highestPageIndex := 4096 } }
      ?_ ?_ fun _ _ _ => rfl).1
    · exact { cursor := by decide, zero := by decide, addressable := by decide }
    · rintro q ⟨i, rfl, hne, hlt, htaken⟩
      exact ⟨i, rfl, hne, Nat.lt_trans hlt (by decide), htaken⟩
  kernel := Or.inl rfl
  unfreed _ _ := rfl

theorem sixteenMegabytes_started : Started Pmm.allocator sixteenMegabytes :=
  ⟨rfl, rfl, bootRoots, 0x2000, rfl, sixteenMegabytes_ready, Or.inr rfl,
    fun _ ht => absurd ht List.not_mem_nil⟩

theorem sixteenMegabytes_call : ∃ thread s',
    schedNewUserThread Pmm.runs 1 sixteenMegabytes.sys 0 none = some (some thread, s') ∧
      StackMemory Pmm.runs s'.mm := by
  have hrun : (schedNewUserThread Pmm.runs 1 sixteenMegabytes.sys 0 none).map (fun r =>
      (r.1, decide (StackMemory Pmm.runs r.2.mm))) = some (some 2, true) := by
    decide +kernel
  obtain ⟨⟨r, s'⟩, hs, he⟩ := Option.map_eq_some_iff.mp hrun
  obtain ⟨rfl, hmem⟩ := Prod.mk.inj he
  exact ⟨2, s', hs, of_decide_eq_true hmem⟩

/-- The process has a stack after one call, and so the next one without a stack fails. -/
theorem user_stacks_sixteenMegabytes : ∃ t : Stacks Pmm.State,
    Reach (StackStep Pmm.runs 1) anyStep sixteenMegabytes t ∧ t.tops = [execStackTop] ∧
      ¬ ∃ thread s', schedNewUserThread Pmm.runs 1 t.sys t.proc none = some (some thread, s') := by
  obtain ⟨thread, s', hs, hmem⟩ := sixteenMegabytes_call
  have hrun : Reach (StackStep Pmm.runs 1) anyStep sixteenMegabytes ⟨s', 0, [execStackTop]⟩ :=
    .tail .refl (a := .newThread none) trivial (.newThread hs)
  obtain ⟨⟨pm, -, -, -, hiff, hnot⟩, -⟩ :=
    user_stacks Pmm.runs_lawful (by decide) sixteenMegabytes_started hrun
  exact ⟨_, hrun, rfl, fun hc => hnot (by simp) ((hiff hmem).mp hc)⟩

/-- The second call fails for want of nothing but room: the stacks overlap by a page. -/
theorem second_stack_fails : ¬ ∀ t₀ t : Stacks Pmm.State, Started Pmm.allocator t₀ →
    Reach (StackStep Pmm.runs 1) anyStep t₀ t →
    t.tops.Pairwise (fun top top' => ∀ v, ¬ (InStack top v ∧ InStack top' v)) ∧
      (StackMemory Pmm.runs t.sys.mm → ∃ thread s',
        schedNewUserThread Pmm.runs 1 t.sys t.proc none = some (some thread, s')) := by
  intro hall
  obtain ⟨thread, s', hs, hmem⟩ := sixteenMegabytes_call
  have hrun : Reach (StackStep Pmm.runs 1) anyStep sixteenMegabytes ⟨s', 0, [execStackTop]⟩ :=
    .tail .refl (a := .newThread none) trivial (.newThread hs)
  have hagain := (hall _ _ sixteenMegabytes_started hrun).2 hmem
  have hsound : Stacks.Sound Pmm.runs.toPageAllocator ⟨s', 0, [execStackTop]⟩ :=
    sixteenMegabytes_started.sound.newThread Pmm.runs_lawful (by decide) hs
  obtain ⟨roots, pm, hm⟩ := hsound.mapped
  exact hsound.not_free hm (by simp) ((newThread_iff Pmm.runs_lawful (by decide) hm.ready hm.image
    hm.root hsound.stackTop hmem).mp hagain)

end Lyre.Sched
