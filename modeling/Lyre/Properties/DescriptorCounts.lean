import Lyre.Properties.Descriptors

/-!
# Reference counts, call by call

What each function does to the counts, and from that what a call does (`Counted.next`): the counts
stay right, with references that nobody gives back. Which calls leave such references is said by the
second half of a lemma, where it has one.
-/

namespace Lyre.Descriptors

open Infra

variable {H : Headers} {s s' : State} {p a n d : Nat} {x : Nat → Nat} {fd fd' : Descriptor}
  {fdnum : Int}

/-! ## What the functions do to the counts -/

theorem Counted.fdnumClose (h : Counted s x) (p : Nat) (fdnum : Int) :
    Counted (fdnumClose s p fdnum).2 x := by
  rcases fdnumClose_spec s p fdnum with ⟨n, fd, hopen, heq⟩ | ⟨-, heq⟩
  · rw [heq]
    exact h.close (openAt_eq_some.mp hopen).2
  · rw [heq]
    exact h

theorem fdnumClose_processes (s : State) (p : Nat) (fdnum : Int) :
    (fdnumClose s p fdnum).2.processes = s.processes := by
  rcases fdnumClose_spec s p fdnum with ⟨n, fd, -, heq⟩ | ⟨-, heq⟩
  · rw [heq]
    rfl
  · rw [heq]

theorem fdnumClose_slot (s : State) (p : Nat) (hn : n < maxFds) :
    (fdnumClose s p n).2.fds = Function.update s.fds (p, n) none := by
  have hslot : slotOf n = some n := slotOf_eq_some.mpr ⟨rfl, hn⟩
  rcases fdnumClose_spec s p n with ⟨m, fd, hopen, heq⟩ | ⟨hnone, heq⟩
  · obtain ⟨hm, -⟩ := openAt_eq_some.mp hopen
    obtain rfl := Option.some.inj (hslot.symm.trans hm)
    rw [heq]
    rfl
  · rw [heq]
    have hempty : s.fds (p, n) = none := by
      by_contra hne
      obtain ⟨fd, hfd⟩ := Option.ne_none_iff_exists'.mp hne
      rw [openAt_eq_some.mpr ⟨hslot, hfd⟩] at hnone
      exact absurd hnone (by simp)
    rw [← hempty, Function.update_eq_self]

theorem fdnumClose_live (h : Counted s x) (p : Nat) (fdnum : Int) (hlive : s.live d = true)
    (hx : 0 < x d) : (fdnumClose s p fdnum).2.live d = true := by
  rcases fdnumClose_spec s p fdnum with ⟨n, fd, hopen, heq⟩ | ⟨-, heq⟩
  · rw [heq]
    refine closeSlot_live.mpr ⟨hlive, ?_⟩
    rintro ⟨rfl, hlast⟩
    have hpos := h.slots_pos (openAt_eq_some.mp hopen).2
    have hcount := h.refcount fd.description hlive
    omega
  · rw [heq]
    exact hlive

theorem Counted.placed (h : Counted s x) (hp : p ∈ s.processes) {specific : Bool} {r : Ret}
    (hplaced : Placed s p fd fdnum specific r s') (hlive : s.live fd.description = true)
    (hx : 0 < x fd.description) :
    ((∃ k, r = .value k) ∧
      Counted s' (Function.update x fd.description (x fd.description - 1))) ∨
    ((∀ k, r ≠ .value k) ∧ s' = s) := by
  cases hplaced with
  | specific n hn =>
    refine .inl ⟨⟨n, rfl⟩, (h.fdnumClose p n).put ?_ ?_ (fdnumClose_live h p n hlive hx) hx⟩
    · rw [mem_places, fdnumClose_processes]
      exact ⟨hp, hn⟩
    · rw [fdnumClose_slot s p hn, Function.update_self]
  | lowest start n hfree =>
    exact .inl ⟨⟨n, rfl⟩, h.put (mem_places.mpr ⟨hp, hfree.2.1⟩) hfree.2.2.1 hlive hx⟩
  | full => exact .inr ⟨fun _ => by simp, rfl⟩
  | refused => exact .inr ⟨fun _ => by simp, rfl⟩

theorem Placed.processes {specific : Bool} {r : Ret} (h : Placed s p fd fdnum specific r s') :
    s'.processes = s.processes := by
  cases h with
  | specific n _ => exact fdnumClose_processes s p n
  | lowest => rfl
  | full => rfl
  | refused => rfl

theorem Dup.processes {newProc : Nat} {newFdnum : Int} {flags : BitVec 32}
    {specific cloexec memory : Bool} {r : Ret}
    (hdup : Dup H s p fdnum newProc newFdnum flags specific cloexec memory r s') :
    s'.processes = s.processes := by
  cases hdup with
  | same => rfl
  | notOpen => rfl
  | noMemory => rfl
  | placed n fd k t _ _ hp => exact hp.processes
  | refused n fd r t _ _ hp => exact hp.processes

/-- `fdnum_dup` keeps the counts, with references that nobody gives back. -/
theorem Counted.dup (h : Counted s x) {newProc : Nat} (hp : newProc ∈ s.processes) {newFdnum : Int}
    {flags : BitVec 32} {specific cloexec memory : Bool} {r : Ret}
    (hdup : Dup H s p fdnum newProc newFdnum flags specific cloexec memory r s') :
    ∃ y, Counted s' y := by
  cases hdup with
  | same => exact ⟨x, h⟩
  | notOpen => exact ⟨x, h⟩
  | noMemory n fd => exact ⟨_, h.ref fd.description⟩
  | placed n fd k t _ hopen hplaced =>
    have hlive := h.live (openAt_eq_some.mp hopen).2
    rcases (h.ref fd.description).placed hp hplaced hlive (by simp) with ⟨-, ht⟩ | ⟨hnot, -⟩
    · exact ⟨_, ht.ref fd.description⟩
    · exact absurd rfl (hnot k)
  | refused n fd r t hopen hnot hplaced =>
    have hlive := h.live (openAt_eq_some.mp hopen).2
    rcases (h.ref fd.description).placed hp hplaced hlive (by simp) with ⟨⟨k, hk⟩, -⟩ | ⟨-, rfl⟩
    · exact absurd hk (hnot k)
    · exact ⟨_, h.ref fd.description⟩

/-- What `fdnum_create_from_resource` does, and the end of `syscall_openat`. -/
inductive Created (H : Headers) (s : State) (p res : Nat) (flags : BitVec 32) (fdnum : Int)
    (specific : Bool) : Option Nat → Ret → State → Prop
  | noMemory : Created H s p res flags fdnum specific none .failed s
  | made (d : Nat) (r : Ret) (t : State) :
    Placed (s.alloc d ⟨1, 0, flags &&& H.fileStatusFlagsMask, res⟩) p
      ⟨d, flags &&& H.fileDescriptorFlagsMask⟩ fdnum specific r t →
    Created H s p res flags fdnum specific (some d) r t

theorem fdnumCreateFromResource_created (H : Headers) (s : State) (p res : Nat)
    (flags : BitVec 32) (fdnum : Int) (specific : Bool) (memory : Option Nat) :
    Created H s p res flags fdnum specific memory
      (fdnumCreateFromResource H s p res flags fdnum specific memory).1
      (fdnumCreateFromResource H s p res flags fdnum specific memory).2 := by
  cases memory with
  | none => exact .noMemory
  | some d => exact .made d _ _ (fdnumCreateFromFd_placed _ p _ fdnum specific)

theorem Created.processes {res : Nat} {flags : BitVec 32} {specific : Bool} {memory : Option Nat}
    {r : Ret} (h : Created H s p res flags fdnum specific memory r s') :
    s'.processes = s.processes := by
  cases h with
  | noMemory => rfl
  | made d r t hplaced => exact hplaced.processes

/-- A description is made for a slot; without a slot for it nobody gives the reference back. -/
theorem Counted.created (h : Counted s x) (hp : p ∈ s.processes) {res : Nat} {flags : BitVec 32}
    {specific : Bool} {memory : Option Nat} {r : Ret}
    (hcreated : Created H s p res flags fdnum specific memory r s')
    (hfresh : ∀ d ∈ memory, s.live d = false) :
    ∃ y, Counted s' y ∧ ((∃ k, r = .value k) ∨ memory = none →
      (x = fun _ => 0) → y = fun _ => 0) := by
  cases hcreated with
  | noMemory => exact ⟨x, h, fun _ hx => hx⟩
  | made d r t hplaced =>
    have halloc := h.alloc (v := ⟨1, 0, flags &&& H.fileStatusFlagsMask, res⟩)
      (hfresh d rfl) rfl
    rcases halloc.placed hp hplaced (by simp [State.alloc]) (by simp) with ⟨-, ht⟩ | ⟨hnot, rfl⟩
    · refine ⟨_, ht, fun _ hx => ?_⟩
      rw [Function.update_self, Function.update_idem, hx]
      exact Function.update_eq_self d 0
    · refine ⟨_, halloc, fun hk _ => ?_⟩
      rcases hk with ⟨k, hk⟩ | hk
      · exact absurd hk (hnot k)
      · exact absurd hk (by simp)

/-! ## Calls -/

theorem Counted.transfer (h : Counted s x) (fdnum ret : Int) :
    ∃ y, Counted (transfer s p fdnum ret).2 y := by
  unfold Descriptors.transfer fdFromFdnum
  cases openAt s p fdnum with
  | none => exact ⟨x, h⟩
  | some r =>
    have href := h.ref r.2.description
    simp only [Option.map_some]
    split
    · exact ⟨_, href⟩
    · exact ⟨_, href.setDescription rfl⟩

theorem Counted.syscallSeek (h : Counted s x) (fdnum offset : Int) (whence : Whence)
    (stSize : Option Int) : ∃ y, Counted (syscallSeek s p fdnum offset whence stSize).2 y := by
  unfold Descriptors.syscallSeek fdFromFdnum
  cases openAt s p fdnum with
  | none => exact ⟨x, h⟩
  | some r =>
    have href := h.ref r.2.description
    simp only [Option.map_some]
    split
    · exact ⟨_, href⟩
    · split
      · exact ⟨_, href⟩
      · split
        · exact ⟨_, href⟩
        · exact ⟨_, href.setDescription rfl⟩

theorem Counted.syscallFcntl (h : Counted s x) (hp : p ∈ s.processes) (fdnum : Int)
    (request : Request) (arg : BitVec 64) (memory : Bool) :
    ∃ y, Counted (syscallFcntl H s p fdnum request arg memory).2 y := by
  unfold Descriptors.syscallFcntl
  cases hopen : openAt s p fdnum with
  | none => exact ⟨x, h⟩
  | some r =>
    obtain ⟨n, fd⟩ := r
    have href := h.ref fd.description
    cases request with
    | dupfd => exact href.dup hp (fdnumDup_dup _ _ _ _ _ _ _ _ _ _)
    | dupfdCloexec => exact href.dup hp (fdnumDup_dup _ _ _ _ _ _ _ _ _ _)
    | getfd => exact ⟨_, href⟩
    | setfd => exact ⟨_, href.setFlags (openAt_eq_some.mp hopen).2 rfl⟩
    | getfl => exact ⟨_, href⟩
    | setfl => exact ⟨_, href.setDescription rfl⟩
    | other => exact ⟨_, href⟩

theorem getParentDir_spec {dir : Dir} (h : getParentDir s p dir = some s') :
    s' = s ∨ ∃ fdnum isDir n fd, dir = .fd fdnum isDir ∧ openAt s p fdnum = some (n, fd) ∧
      s' = s.ref fd.description := by
  cases dir with
  | empty => exact .inl (Option.some.inj h).symm
  | root => exact .inl (Option.some.inj h).symm
  | cwd => exact .inl (Option.some.inj h).symm
  | fd fdnum isDir =>
    simp only [getParentDir, fdFromFdnum] at h
    cases hopen : openAt s p fdnum with
    | none =>
      rw [hopen] at h
      exact absurd h (by simp)
    | some r =>
      obtain ⟨n, fd⟩ := r
      rw [hopen] at h
      simp only [Option.map_some, Option.ite_none_right_eq_some, Option.some.injEq] at h
      exact .inr ⟨fdnum, isDir, n, fd, rfl, hopen, h.2.symm⟩

/-! ### `syscall_ppoll` -/

/-- No descriptor that is polled is ready when it is looked at. -/
def NoneReady (s : State) (p : Nat) (status : Nat → BitVec 16) (fds : List Pollfd) : Prop :=
  ∀ f ∈ fds, ∀ n fd, openAt s p f.fd = some (n, fd) →
    status (s.description fd.description).res &&& f.events = 0

/-- How often a description is in `fd_list`. -/
def heldCount (held : List (Nat × Nat)) (d : Nat) : Nat := (held.map Prod.snd).count d

theorem ref_res (s : State) (d e : Nat) : ((s.ref d).description e).res = (s.description e).res := by
  simp only [State.ref, State.setDescription, Function.update_apply]
  split
  · next heq => rw [heq]
  · rfl

theorem NoneReady.ref {status : Nat → BitVec 16} {f : Pollfd} {fds : List Pollfd}
    (h : NoneReady s p status (f :: fds)) (d : Nat) : NoneReady (s.ref d) p status fds := by
  intro g hg n fd hopen
  rw [ref_res]
  exact h g (List.mem_cons_of_mem f hg) n fd hopen

/-- The first loop takes a reference for each descriptor that is open. It leaves one for each entry
of `fd_list`, and one for each descriptor that is ready. -/
theorem Counted.ppollScan (H : Headers) (p : Nat) (status : Nat → BitVec 16) (fds : List Pollfd)
    (i : Nat) (h : Counted s x) :
    (ppollScan H p status s i fds).1.fds = s.fds ∧
    (ppollScan H p status s i fds).1.processes = s.processes ∧
    (∀ d ∈ (ppollScan H p status s i fds).2.held.map Prod.snd, 0 < s.slots d) ∧
    ∃ y : Nat → Nat, Counted (ppollScan H p status s i fds).1
        (fun d => x d + y d + heldCount (ppollScan H p status s i fds).2.held d) ∧
      (NoneReady s p status fds → y = fun _ => 0) := by
  induction fds generalizing s x i with
  | nil => exact ⟨rfl, rfl, by simp [Descriptors.ppollScan], fun _ => 0, h, fun _ => rfl⟩
  | cons f fds ih =>
    have hrest : NoneReady s p status (f :: fds) → NoneReady s p status fds := fun hready g hg =>
      hready g (List.mem_cons_of_mem f hg)
    unfold Descriptors.ppollScan
    split
    · obtain ⟨hfds, hprocs, hheld, y, hy, hnone⟩ := ih (i + 1) h
      exact ⟨hfds, hprocs, hheld, y, hy, fun hready => hnone (hrest hready)⟩
    · unfold fdFromFdnum
      cases hopen : openAt s p f.fd with
      | none =>
        obtain ⟨hfds, hprocs, hheld, y, hy, hnone⟩ := ih (i + 1) h
        exact ⟨hfds, hprocs, hheld, y, hy, fun hready => hnone (hrest hready)⟩
      | some r =>
        obtain ⟨n, fd⟩ := r
        obtain ⟨hfds, hprocs, hheld, y, hy, hnone⟩ := ih (i + 1) (h.ref fd.description)
        simp only [Option.map_some, ref_res]
        split
        · next hready =>
          refine ⟨hfds, hprocs, hheld, Function.update y fd.description (y fd.description + 1), ?_,
            fun hall => absurd (hall f List.mem_cons_self n fd hopen) hready⟩
          refine hy.recount rfl rfl rfl fun e _ hcount hpos => ?_
          simp only [Function.update_apply] at hcount hpos ⊢
          by_cases heq : e = fd.description
          · subst heq
            simp only [if_true] at hcount hpos ⊢
            omega
          · simp only [heq, if_false] at hcount hpos ⊢
            exact ⟨hcount, hpos⟩
        · next hwait =>
          refine ⟨hfds, hprocs, ?_, y, ?_, fun hall => hnone (hall.ref fd.description)⟩
          · intro d hd
            rcases List.mem_cons.mp hd with rfl | hd
            · exact h.slots_pos (openAt_eq_some.mp hopen).2
            · exact hheld d hd
          · refine hy.recount rfl rfl rfl fun e _ hcount hpos => ?_
            simp only [Function.update_apply, heldCount, List.map_cons, List.count_cons,
              beq_iff_eq] at hcount hpos ⊢
            by_cases heq : e = fd.description
            · subst heq
              simp only [if_true] at hcount hpos ⊢
              omega
            · simp only [heq, Ne.symm heq, if_false] at hcount hpos ⊢
              exact ⟨hcount, hpos⟩

/-- The references of `fd_list` are given back. -/
theorem Counted.releaseHeld {held : List (Nat × Nat)} (h : Counted s fun d => x d + heldCount held d)
    (hheld : ∀ d ∈ held.map Prod.snd, 0 < s.slots d) : Counted (releaseHeld s held) x := by
  induction held generalizing s with
  | nil => exact h
  | cons r held ih =>
    refine ih (s := s.unref r.2) ?_ fun d hd => hheld d (List.mem_cons_of_mem _ hd)
    have hcount : heldCount (r :: held) r.2 = heldCount held r.2 + 1 := by
      simp [heldCount]
    have hslot := hheld r.2 List.mem_cons_self
    refine (h.unref hslot (by simp only [hcount]; omega)).recount rfl rfl rfl
      fun e _ hcount' hpos => ?_
    simp only [Function.update_apply, heldCount, List.map_cons, List.count_cons,
      beq_iff_eq] at hcount' hpos ⊢
    by_cases heq : e = r.2
    · subst heq
      simp only [if_true] at hcount' hpos ⊢
      omega
    · simp only [heq, Ne.symm heq, if_false] at hcount' hpos ⊢
      exact ⟨hcount', hpos⟩

theorem releaseHeld_fds (s : State) (held : List (Nat × Nat)) :
    (releaseHeld s held).fds = s.fds := by
  induction held generalizing s with
  | nil => rfl
  | cons r held ih => exact ih (s.unref r.2)

/-- `syscall_ppoll` keeps the slots, and the counts but for descriptors that are ready. -/
theorem Counted.syscallPpoll (h : Counted s x) {fds : List Pollfd} {status : Nat → BitVec 16}
    {wait : Wait} {r : Ret × List Pollfd} (hcall : syscallPpoll H s p fds status wait = some (r, s')) :
    s'.fds = s.fds ∧ ∃ y : Nat → Nat, Counted s' (fun d => x d + y d) ∧
      (maxPpollFds < fds.length ∨ NoneReady s p status fds → y = fun _ => 0) := by
  have hsame : ∃ y : Nat → Nat, Counted s (fun d => x d + y d) ∧
      (maxPpollFds < fds.length ∨ NoneReady s p status fds → y = fun _ => 0) :=
      ⟨fun _ => 0, h, fun _ => rfl⟩
  unfold Descriptors.syscallPpoll at hcall
  split at hcall
  · obtain ⟨-, rfl⟩ := Prod.mk.inj (Option.some.inj hcall)
    exact ⟨rfl, hsame⟩
  · split at hcall
    · obtain ⟨-, rfl⟩ := Prod.mk.inj (Option.some.inj hcall)
      exact ⟨rfl, hsame⟩
    · next hmax =>
      obtain ⟨hfds, hprocs, hheld, y, hy, hnone⟩ := h.ppollScan H p status fds 0
      generalize Descriptors.ppollScan H p status s 0 fds = t at hcall hfds hprocs hheld hy
      obtain ⟨t, scan⟩ := t
      have hslots : ∀ d ∈ scan.held.map Prod.snd, 0 < t.slots d := by
        intro d hd
        rw [slots_of_fds hfds hprocs]
        exact hheld d hd
      have hend := Counted.releaseHeld hy hslots
      simp only at hcall
      split at hcall
      · obtain ⟨-, rfl⟩ := Prod.mk.inj (Option.some.inj hcall)
        refine ⟨(releaseHeld_fds _ _).trans hfds, y, hend, fun hor => ?_⟩
        exact hnone (hor.resolve_left hmax)
      · obtain ⟨r', -, heq⟩ := Option.map_eq_some_iff.mp hcall
        obtain ⟨-, rfl⟩ := Prod.mk.inj heq
        refine ⟨(releaseHeld_fds _ _).trans hfds, y, hend, fun hor => ?_⟩
        exact hnone (hor.resolve_left hmax)

/-! ### Processes -/

theorem Counted.forkLoop (H : Headers) (p : Nat) {newProc : Nat} (memory : Nat → Bool) (k i : Nat)
    (h : Counted s x) (hp : newProc ∈ s.processes) : ∃ y, Counted (forkLoop H p newProc memory k i s).2 y := by
  induction k generalizing s x i with
  | zero => exact ⟨x, h⟩
  | succ k ih =>
    unfold Descriptors.forkLoop
    split
    · exact ih (i + 1) h hp
    · have hdup := fdnumDup_dup H s p i newProc i 0 true false (memory i)
      obtain ⟨y, hy⟩ := h.dup hp hdup
      have hprocs := hdup.processes
      generalize fdnumDup H s p i newProc i 0 true false (memory i) = t at hy hprocs ⊢
      obtain ⟨r, t⟩ := t
      cases r with
      | value n => exact ih (i + 1) hy (hprocs ▸ hp)
      | error e => exact ⟨y, hy⟩
      | failed => exact ⟨y, hy⟩

theorem Counted.syscallFork (h : Counted s x) (hp : p ∈ s.processes) {newProc : Option Nat}
    {memory : Nat → Bool} {thread : Bool} {r : Ret} (hfresh : ∀ a ∈ newProc, a ∉ s.processes)
    (hcall : syscallFork H s p newProc memory thread = some (r, s')) : ∃ y, Counted s' y := by
  unfold Descriptors.syscallFork at hcall
  cases newProc with
  | none =>
    obtain ⟨y, hy⟩ := h.forkLoop H p memory maxFds 0 hp
    simp only at hcall
    generalize Descriptors.forkLoop H p p memory maxFds 0 s = t at hcall hy
    obtain ⟨b, t⟩ := t
    cases b with
    | true =>
      cases thread with
      | true => exact absurd hcall (by simp)
      | false =>
        obtain ⟨-, rfl⟩ := Prod.mk.inj (Option.some.inj hcall)
        exact ⟨y, hy⟩
    | false =>
      obtain ⟨-, rfl⟩ := Prod.mk.inj (Option.some.inj hcall)
      exact ⟨y, hy⟩
  | some a =>
    obtain ⟨y, hy⟩ := (h.addProcess (hfresh a rfl)).forkLoop H p memory maxFds 0
      (Finset.mem_insert_self a s.processes)
    simp only at hcall
    generalize Descriptors.forkLoop H p a memory maxFds 0 (s.addProcess a) = t at hcall hy
    obtain ⟨b, t⟩ := t
    cases b with
    | true =>
      cases thread with
      | true =>
        obtain ⟨-, rfl⟩ := Prod.mk.inj (Option.some.inj hcall)
        exact ⟨y, hy⟩
      | false =>
        obtain ⟨-, rfl⟩ := Prod.mk.inj (Option.some.inj hcall)
        exact hy.freeProcess a
    | false =>
      obtain ⟨-, rfl⟩ := Prod.mk.inj (Option.some.inj hcall)
      exact hy.freeProcess a

theorem Counted.syscallExit (h : Counted s x) (p : Nat) : Counted (syscallExit s p) x := by
  unfold Descriptors.syscallExit
  generalize List.range maxFds = slots
  induction slots generalizing s with
  | nil => exact h
  | cons n slots ih => exact ih (h.fdnumClose p n)

/-- What `syscall_pipe` does. -/
inductive PipeMade (H : Headers) (s : State) (p : Nat) (flags rdonly wronly : BitVec 32) :
    Option Nat → Option Nat → Option Nat → PipeRet → State → Prop
  | noPipe (memory memory' : Option Nat) :
    PipeMade H s p flags rdonly wronly none memory memory' .failed s
  | first (pipe : Nat) (memory memory' : Option Nat) (r : Ret) (t : State) : (∀ k, r ≠ .value k) →
    Created H s p pipe (flags ||| rdonly) 0 false memory r t →
    PipeMade H s p flags rdonly wronly (some pipe) memory memory' .failed t
  | second (pipe : Nat) (memory memory' : Option Nat) (k : Int) (r : Ret) (t t' : State) :
    (∀ k, r ≠ .value k) → Created H s p pipe (flags ||| rdonly) 0 false memory (.value k) t →
    Created H t p pipe (flags ||| wronly) 0 false memory' r t' →
    PipeMade H s p flags rdonly wronly (some pipe) memory memory' .failed t'
  | both (pipe : Nat) (memory memory' : Option Nat) (k k' : Int) (t t' : State) :
    Created H s p pipe (flags ||| rdonly) 0 false memory (.value k) t →
    Created H t p pipe (flags ||| wronly) 0 false memory' (.value k') t' →
    PipeMade H s p flags rdonly wronly (some pipe) memory memory' (.fds k k') t'

theorem syscallPipe_made (H : Headers) (s : State) (p : Nat) (flags rdonly wronly : BitVec 32)
    (pipe memory memory' : Option Nat) : PipeMade H s p flags rdonly wronly pipe memory memory'
      (syscallPipe H s p flags rdonly wronly pipe memory memory').1
      (syscallPipe H s p flags rdonly wronly pipe memory memory').2 := by
  unfold syscallPipe
  cases pipe with
  | none => exact .noPipe memory memory'
  | some pipe =>
    have hfirst := fdnumCreateFromResource_created H s p pipe (flags ||| rdonly) 0 false memory
    simp only
    generalize fdnumCreateFromResource H s p pipe (flags ||| rdonly) 0 false memory = c at hfirst ⊢
    obtain ⟨r, t⟩ := c
    cases r with
    | error e => exact .first pipe memory memory' (.error e) t (fun _ => by simp) hfirst
    | failed => exact .first pipe memory memory' .failed t (fun _ => by simp) hfirst
    | value k =>
      have hsecond := fdnumCreateFromResource_created H t p pipe (flags ||| wronly) 0 false memory'
      simp only
      generalize fdnumCreateFromResource H t p pipe (flags ||| wronly) 0 false memory' = c
        at hsecond ⊢
      obtain ⟨r', t'⟩ := c
      cases r' with
      | value k' => exact .both pipe memory memory' k k' t t' hfirst hsecond
      | error e =>
        exact .second pipe memory memory' k (.error e) t t' (fun _ => by simp) hfirst hsecond
      | failed => exact .second pipe memory memory' k .failed t t' (fun _ => by simp) hfirst hsecond

/-- Nothing but `ALLOC` takes an address into use. -/
theorem Placed.dead {specific : Bool} {r : Ret} (h : Placed s p fd fdnum specific r s')
    (hdead : s.live d = false) : s'.live d = false := by
  cases h with
  | specific n _ =>
    show (fdnumClose s p n).2.live d = false
    rcases fdnumClose_spec s p n with ⟨m, fd', -, heq⟩ | ⟨-, heq⟩
    · rw [heq, ← Bool.not_eq_true]
      intro hlive
      rw [(closeSlot_live.mp hlive).1] at hdead
      exact absurd hdead (by simp)
    · rw [heq]
      exact hdead
  | lowest => exact hdead
  | full => exact hdead
  | refused => exact hdead

theorem Created.dead {res : Nat} {flags : BitVec 32} {specific : Bool} {memory : Option Nat}
    {r : Ret} (h : Created H s p res flags fdnum specific memory r s') (hd : d ∉ memory)
    (hdead : s.live d = false) : s'.live d = false := by
  cases h with
  | noMemory => exact hdead
  | made e r t hplaced =>
    have hne : d ≠ e := fun heq => hd (by rw [heq]; rfl)
    refine hplaced.dead ?_
    show Function.update s.live e true d = false
    rw [Function.update_of_ne hne]
    exact hdead

/-- The second description of a pipe is still free when the first one is made. -/
theorem Created.fresh_second {res : Nat} {flags : BitVec 32} {memory memory' : Option Nat} {r : Ret}
    (h : Created H s p res flags fdnum false memory r s')
    (hfresh : ∀ d ∈ memory.toList ++ memory'.toList, s.live d = false)
    (hnodup : (memory.toList ++ memory'.toList).Nodup) : ∀ d ∈ memory', s'.live d = false := by
  intro d hd
  have hd' : d ∈ memory'.toList := Option.mem_toList.mpr hd
  refine h.dead (fun hmem => ?_) (hfresh d (List.mem_append_right _ hd'))
  exact (List.nodup_append.mp hnodup).2.2 d (Option.mem_toList.mpr hmem) d hd' rfl

theorem Counted.pipeMade (h : Counted s x) (hp : p ∈ s.processes) {flags rdonly wronly : BitVec 32}
    {pipe memory memory' : Option Nat} {r : PipeRet}
    (hmade : PipeMade H s p flags rdonly wronly pipe memory memory' r s')
    (hfresh : ∀ d ∈ memory.toList ++ memory'.toList, s.live d = false)
    (hnodup : (memory.toList ++ memory'.toList).Nodup) : ∃ y, Counted s' y := by
  have hfst : ∀ d ∈ memory, s.live d = false := fun d hd =>
    hfresh d (List.mem_append_left _ (Option.mem_toList.mpr hd))
  cases hmade with
  | noPipe => exact ⟨x, h⟩
  | first pipe memory memory' r t hnot hc =>
    obtain ⟨y, hy, -⟩ := h.created hp hc hfst
    exact ⟨y, hy⟩
  | second pipe memory memory' k r t t' hnot hc hc' =>
    obtain ⟨y, hy, -⟩ := h.created hp hc hfst
    obtain ⟨z, hz, -⟩ := hy.created (hc.processes ▸ hp) hc' (hc.fresh_second hfresh hnodup)
    exact ⟨z, hz⟩
  | both pipe memory memory' k k' t t' hc hc' =>
    obtain ⟨y, hy, -⟩ := h.created hp hc hfst
    obtain ⟨z, hz, -⟩ := hy.created (hc.processes ▸ hp) hc' (hc.fresh_second hfresh hnodup)
    exact ⟨z, hz⟩

/-! ## Runs -/

/-- A call of a process. -/
def Step (H : Headers) (s : State) (c : Nat × Call) (s' : State) : Prop :=
  c.1 ∈ s.processes ∧ c.2.Fresh s ∧ ∃ r, next H s c.1 c.2 = some (r, s')

theorem syscallOpenat_created {dir : Dir} {found : Option Nat} {flags : BitVec 32}
    {memory : Option Nat} {r : Ret}
    (h : syscallOpenat H s p dir found flags memory = some (r, s')) :
    ∃ t, getParentDir s p dir = some t ∧
      ((found = none ∧ r = .failed ∧ s' = t) ∨
        ∃ res, found = some res ∧ Created H t p res flags 0 false memory r s') := by
  obtain ⟨t, hdir, heq⟩ := Option.map_eq_some_iff.mp h
  refine ⟨t, hdir, ?_⟩
  cases found with
  | none =>
    obtain ⟨rfl, rfl⟩ := Prod.mk.inj heq
    exact .inl ⟨rfl, rfl, rfl⟩
  | some res =>
    have hcreated := fdnumCreateFromResource_created H t p res flags 0 false memory
    change fdnumCreateFromResource H t p res flags 0 false memory = (r, s') at heq
    rw [heq] at hcreated
    exact .inr ⟨res, rfl, hcreated⟩

/-- **A call keeps the counts**, with references that nobody gives back. -/
theorem Counted.next {c : Nat × Call} (h : Counted s x) (hstep : Step H s c s') :
    ∃ y, Counted s' y := by
  obtain ⟨p, c⟩ := c
  obtain ⟨hp, hfresh, r, hnext⟩ := hstep
  simp only at hp hfresh hnext
  cases c with
  | openat dir found flags memory =>
    obtain ⟨⟨r', t⟩, hcall, heq⟩ := Option.map_eq_some_iff.mp hnext
    obtain ⟨-, rfl⟩ := Prod.mk.inj heq
    obtain ⟨t₀, hdir, hmade⟩ := syscallOpenat_created hcall
    have ht₀ : t₀.processes = s.processes ∧ t₀.live = s.live ∧ ∃ y, Counted t₀ y := by
      rcases getParentDir_spec hdir with rfl | ⟨_, _, _, fd, _, _, rfl⟩
      · exact ⟨rfl, rfl, x, h⟩
      · exact ⟨rfl, rfl, _, h.ref fd.description⟩
    obtain ⟨hprocs, hlive, y, hy⟩ := ht₀
    rcases hmade with ⟨-, -, rfl⟩ | ⟨res, -, hc⟩
    · exact ⟨y, hy⟩
    · obtain ⟨z, hz, -⟩ := hy.created (hprocs ▸ hp) hc fun d hd => by
        rw [hlive]
        exact hfresh.1 d (Option.mem_toList.mpr hd)
      exact ⟨z, hz⟩
  | read fdnum ret =>
    obtain ⟨-, rfl⟩ := Prod.mk.inj (Option.some.inj hnext)
    exact h.transfer fdnum ret
  | write fdnum ret =>
    obtain ⟨-, rfl⟩ := Prod.mk.inj (Option.some.inj hnext)
    exact h.transfer fdnum ret
  | seek fdnum offset whence stSize =>
    obtain ⟨-, rfl⟩ := Prod.mk.inj (Option.some.inj hnext)
    exact h.syscallSeek fdnum offset whence stSize
  | ioctl fdnum ret =>
    obtain ⟨-, rfl⟩ := Prod.mk.inj (Option.some.inj hnext)
    unfold fdFromFdnum
    cases openAt s p fdnum with
    | none => exact ⟨x, h⟩
    | some r => exact ⟨_, h.ref r.2.description⟩
  | fcntl fdnum request arg memory =>
    obtain ⟨-, rfl⟩ := Prod.mk.inj (Option.some.inj hnext)
    exact h.syscallFcntl hp fdnum request arg memory
  | dup3 oldFdnum newFdnum flags memory =>
    obtain ⟨-, rfl⟩ := Prod.mk.inj (Option.some.inj hnext)
    exact h.dup hp (fdnumDup_dup H s p oldFdnum p newFdnum flags true false memory)
  | ppoll fds status wait =>
    obtain ⟨⟨r', t⟩, hcall, heq⟩ := Option.map_eq_some_iff.mp hnext
    obtain ⟨-, rfl⟩ := Prod.mk.inj heq
    obtain ⟨-, y, hy, -⟩ := h.syscallPpoll hcall
    exact ⟨_, hy⟩
  | socket type sock memory =>
    obtain ⟨-, rfl⟩ := Prod.mk.inj (Option.some.inj hnext)
    cases sock with
    | none => exact ⟨x, h⟩
    | some sock =>
      obtain ⟨y, hy, -⟩ := h.created hp (fdnumCreateFromResource_created H s p sock _ 0 false memory)
        fun d hd => hfresh.1 d (Option.mem_toList.mpr hd)
      exact ⟨y, hy⟩
  | pipe flags rdonly wronly pipe memory memory' =>
    obtain ⟨-, rfl⟩ := Prod.mk.inj (Option.some.inj hnext)
    exact h.pipeMade hp (syscallPipe_made H s p flags rdonly wronly pipe memory memory') hfresh.1
      hfresh.2.1
  | fork newProc memory thread =>
    obtain ⟨⟨r', t⟩, hcall, heq⟩ := Option.map_eq_some_iff.mp hnext
    obtain ⟨-, rfl⟩ := Prod.mk.inj heq
    exact h.syscallFork hp hfresh.2.2 hcall
  | exec loads =>
    obtain ⟨-, rfl⟩ := Prod.mk.inj (Option.some.inj hnext)
    exact ⟨x, h⟩
  | exit =>
    obtain ⟨-, rfl⟩ := Prod.mk.inj (Option.some.inj hnext)
    exact ⟨x, h.syscallExit p⟩
  | close fdnum =>
    obtain ⟨-, rfl⟩ := Prod.mk.inj (Option.some.inj hnext)
    have hclose := h.fdnumClose p fdnum
    generalize Descriptors.fdnumClose s p fdnum = t at hclose ⊢
    obtain ⟨b, t⟩ := t
    cases b <;> exact ⟨x, hclose⟩

end Lyre.Descriptors
