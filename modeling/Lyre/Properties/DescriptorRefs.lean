import Lyre.Properties.DescriptorCounts

/-!
# When a reference count is the number of slots

Most calls take a reference that they do not give back: `fd_from_fdnum` in reading, writing, seeking,
`ioctl`, `fcntl` and `openat`, and the one in `fdnum_dup` beside the one of the new slot. `Balanced`
says which calls do not. In runs of these the counts are the numbers of slots.
-/

namespace Lyre.Descriptors

open Infra

variable {H : Headers} {s s' : State} {p a n d : Nat} {x : Nat → Nat} {fd fd' : Descriptor}
  {fdnum : Int}

/-! ## The first process -/

theorem counted_empty (description : Nat → Description) :
    Counted ⟨{0}, fun _ => none, description, fun _ => false⟩ fun _ => 0 := by
  refine ⟨fun _ h => ?_, fun _ h => ?_, fun e _ => ?_, fun _ h => absurd rfl h⟩
  · exact absurd h (by simp)
  · exact absurd h (by simp)
  · exact holders_eq_zero.mpr fun i _ => by simp [State.pointsAt]

theorem Created.specific {res : Nat} {flags : BitVec 32} {r : Ret} (hn : n < maxFds)
    (h : Created H s p res flags n true (some d) r s') : r = .value n := by
  cases h with
  | made d r t hplaced =>
    cases hplaced with
    | specific m _ => rfl
    | refused _ _ hnone =>
      rw [slotOf_eq_some.mpr ⟨rfl, hn⟩] at hnone
      exact absurd hnone (by simp)

theorem counted_boot (H : Headers) (console : Nat) : Counted (boot H console) (fun _ => 0) := by
  have hone : ∀ {s : State} {n : Nat}, (Counted s fun _ => 0) → 0 ∈ s.processes → n < maxFds →
      s.live n = false →
      Counted (fdnumCreateFromResource H s 0 console 0 n true (some n)).2 (fun _ => 0) := by
    intro s n h hp hn hfresh
    have hmade := fdnumCreateFromResource_created H s 0 console 0 n true (some n)
    obtain ⟨y, hy, hzero⟩ := h.created hp hmade fun d hd => by
      rw [← Option.some.inj hd]
      exact hfresh
    rw [← hzero (.inl ⟨n, hmade.specific hn⟩) rfl]
    exact hy
  have h₀ := hone (counted_empty fun _ => ⟨0, 0, 0, 0⟩) (Finset.mem_singleton_self 0)
    (show 0 < maxFds by decide) rfl
  have h₁ := hone (n := 1) h₀ (Finset.mem_singleton_self 0) (by decide) rfl
  exact hone (n := 2) h₁ (Finset.mem_singleton_self 0) (by decide) rfl

/-! ## Calls that give back what they take -/

def HasFree (s : State) (p : Nat) : Prop := ∃ n, n < maxFds ∧ s.fds (p, n) = none

def HasTwoFree (s : State) (p : Nat) : Prop :=
  ∃ m n, m ≠ n ∧ m < maxFds ∧ n < maxFds ∧ s.fds (p, m) = none ∧ s.fds (p, n) = none

/-- Calls on a number that is not open, polls that find nothing ready, new descriptions that find a
slot, and forks without descriptors. `openat` does not start at a descriptor. -/
def Balanced (s : State) (p : Nat) : Call → Prop
  | .openat dir found _ memory =>
    (∀ fdnum isDir, dir ≠ .fd fdnum isDir) ∧ (found = none ∨ memory = none ∨ HasFree s p)
  | .read fdnum _ => openAt s p fdnum = none
  | .write fdnum _ => openAt s p fdnum = none
  | .seek fdnum _ _ _ => openAt s p fdnum = none
  | .ioctl fdnum _ => openAt s p fdnum = none
  | .fcntl fdnum _ _ _ => openAt s p fdnum = none
  | .dup3 oldFdnum newFdnum _ _ => oldFdnum = newFdnum ∨ openAt s p oldFdnum = none
  | .ppoll fds status _ => maxPpollFds < fds.length ∨ NoneReady s p status fds
  | .socket _ sock memory => sock = none ∨ memory = none ∨ HasFree s p
  | .pipe _ _ _ pipe memory memory' =>
    pipe = none ∨ memory = none ∨ (HasFree s p ∧ memory' = none) ∨ HasTwoFree s p
  | .fork newProc _ _ => newProc = none ∨ ∀ n < maxFds, s.fds (p, n) = none
  | .exec _ => True
  | .exit => True
  | .close _ => True

theorem Created.found {res : Nat} {flags : BitVec 32} {memory : Option Nat} {r : Ret}
    (h : Created H s p res flags 0 false memory r s') (hfree : memory = none ∨ HasFree s p) :
    (∃ k, r = .value k) ∨ memory = none := by
  cases h with
  | noMemory => exact .inr rfl
  | made d r t hplaced =>
    obtain ⟨n, hn, hnone⟩ := hfree.resolve_left (by simp)
    generalize hstart : (0 : Int) = start at hplaced
    cases hplaced with
    | lowest start m hlow => exact .inl ⟨m, rfl⟩
    | full start _ hfull =>
      have hzero : start = 0 := by omega
      exact absurd hnone (hfull n (by omega) hn)
    | refused _ _ hrefused =>
      rw [← hstart] at hrefused
      exact absurd hrefused (by decide)

theorem Created.hasFree {res : Nat} {flags : BitVec 32} {memory : Option Nat} {k : Int}
    (h : Created H s p res flags 0 false memory (.value k) s') (htwo : HasTwoFree s p) :
    HasFree s' p := by
  obtain ⟨m, n, hne, hm, hn, hfm, hfn⟩ := htwo
  cases h with
  | made d r t hplaced =>
    generalize (0 : Int) = start, hspec : false = specific at hplaced
    cases hplaced with
    | specific => exact absurd hspec (by simp)
    | lowest start i hlow =>
      by_cases hmi : m = i
      · refine ⟨n, hn, ?_⟩
        show Function.update s.fds (p, i) _ (p, n) = none
        rw [Function.update_of_ne (fun heq => hne (hmi.trans (Prod.mk.inj heq).2.symm)), hfn]
      · refine ⟨m, hm, ?_⟩
        show Function.update s.fds (p, i) _ (p, m) = none
        rw [Function.update_of_ne (fun heq => hmi (Prod.mk.inj heq).2), hfm]

theorem forkLoop_of_empty {newProc : Nat} {memory : Nat → Bool} (k i : Nat)
    (h : ∀ n < i + k, s.fds (p, n) = none) :
    forkLoop H p newProc memory k i s = (true, s) := by
  induction k generalizing i with
  | zero => rfl
  | succ k ih =>
    unfold forkLoop
    rw [if_pos (by rw [h i (by omega)]; rfl)]
    exact ih (i + 1) fun n hn => h n (by omega)

/-- The process itself is taken for `NULL`, and nothing is copied. -/
theorem forkLoop_self (H : Headers) (s : State) (p : Nat) (memory : Nat → Bool) (k i : Nat) :
    (forkLoop H p p memory k i s).2 = s := by
  induction k generalizing i with
  | zero => rfl
  | succ k ih =>
    unfold forkLoop
    split
    · exact ih (i + 1)
    · have hsame : fdnumDup H s p i p i 0 true false (memory i) = (.error .einval, s) := by
        unfold fdnumDup
        rw [if_pos ⟨rfl, rfl, rfl⟩]
      rw [hsame]

theorem counted_fork (h : Counted s x) {newProc : Option Nat} {memory : Nat → Bool} {thread : Bool}
    {r : Ret} (hfresh : ∀ a ∈ newProc, a ∉ s.processes)
    (hempty : newProc = none ∨ ∀ n < maxFds, s.fds (p, n) = none)
    (hcall : syscallFork H s p newProc memory thread = some (r, s')) : Counted s' x := by
  unfold syscallFork at hcall
  cases newProc with
  | none =>
    have hself := forkLoop_self H s p memory maxFds 0
    simp only at hcall
    generalize forkLoop H p p memory maxFds 0 s = t at hcall hself
    obtain ⟨b, t⟩ := t
    obtain rfl : t = s := hself
    cases b with
    | true =>
      cases thread with
      | true => exact absurd hcall (by simp)
      | false =>
        obtain ⟨-, rfl⟩ := Prod.mk.inj (Option.some.inj hcall)
        exact h
    | false =>
      obtain ⟨-, rfl⟩ := Prod.mk.inj (Option.some.inj hcall)
      exact h
  | some a =>
    have ha := hfresh a rfl
    have hrow := hempty.resolve_left (by simp)
    have hcopy : forkLoop H p a memory maxFds 0 (s.addProcess a) = (true, s.addProcess a) := by
      refine forkLoop_of_empty maxFds 0 fun n hn => ?_
      simp only [State.addProcess]
      split
      · rfl
      · exact hrow n (by omega)
    have hadd := h.addProcess ha
    simp only [hcopy, Option.some.injEq] at hcall
    cases thread with
    | true =>
      obtain ⟨-, rfl⟩ := Prod.mk.inj hcall
      exact hadd
    | false =>
      obtain ⟨-, rfl⟩ := Prod.mk.inj hcall
      exact hadd.freeProcess_of_empty fun n => if_pos rfl

theorem counted_pipe (h : Counted s fun _ => 0) (hp : p ∈ s.processes) {flags rdonly wronly : BitVec 32}
    {pipe memory memory' : Option Nat} {r : PipeRet}
    (hmade : PipeMade H s p flags rdonly wronly pipe memory memory' r s')
    (hfresh : ∀ d ∈ memory.toList ++ memory'.toList, s.live d = false)
    (hnodup : (memory.toList ++ memory'.toList).Nodup)
    (hfree : pipe = none ∨ memory = none ∨ (HasFree s p ∧ memory' = none) ∨ HasTwoFree s p) :
    Counted s' (fun _ => 0) := by
  have hone : HasTwoFree s p → HasFree s p := by
    rintro ⟨m, n, -, hm, -, hfm, -⟩
    exact ⟨m, hm, hfm⟩
  have hfst : ∀ d ∈ memory, s.live d = false := fun d hd =>
    hfresh d (List.mem_append_left _ (Option.mem_toList.mpr hd))
  have hfirst : ∀ {r : Ret} {t : State} {res : Nat} {fl : BitVec 32},
      Created H s p res fl 0 false memory r t → pipe ≠ none → Counted t (fun _ => 0) := by
    intro r t res fl hc hpipe
    obtain ⟨y, hy, hzero⟩ := h.created hp hc hfst
    have hslot : memory = none ∨ HasFree s p := by
      rcases hfree.resolve_left hpipe with hnone | ⟨hone', -⟩ | htwo
      · exact .inl hnone
      · exact .inr hone'
      · exact .inr (hone htwo)
    rw [← hzero (hc.found hslot) rfl]
    exact hy
  have hsecond : ∀ {k : Int} {r : Ret} {t t' : State} {res : Nat} {fl fl' : BitVec 32},
      Created H s p res fl 0 false memory (.value k) t →
      Created H t p res fl' 0 false memory' r t' → pipe ≠ none → Counted t' (fun _ => 0) := by
    intro k r t t' res fl fl' hc hc' hpipe
    obtain ⟨z, hz, hzero⟩ := (hfirst hc hpipe).created (hc.processes ▸ hp) hc'
      (hc.fresh_second hfresh hnodup)
    have hslot : memory' = none ∨ HasFree t p := by
      rcases hfree.resolve_left hpipe with hnone | ⟨-, hnone⟩ | htwo
      · rw [hnone] at hc
        cases hc
      · exact .inl hnone
      · exact .inr (hc.hasFree htwo)
    rw [← hzero (hc'.found hslot) rfl]
    exact hz
  cases hmade with
  | noPipe => exact h
  | first pipe memory memory' r t hnot hc => exact hfirst hc (by simp)
  | second pipe memory memory' k r t t' hnot hc hc' => exact hsecond hc hc' (by simp)
  | both pipe memory memory' k k' t t' hc hc' => exact hsecond hc hc' (by simp)

/-- **A balanced call** leaves no reference behind. -/
theorem counted_balanced {c : Nat × Call} (h : Counted s fun _ => 0) (hc : Balanced s c.1 c.2)
    (hstep : Step H s c s') : Counted s' (fun _ => 0) := by
  obtain ⟨p, c⟩ := c
  obtain ⟨hp, hfresh, r, hnext⟩ := hstep
  simp only at hp hc hfresh hnext
  cases c with
  | openat dir found flags memory =>
    obtain ⟨⟨r', t⟩, hcall, heq⟩ := Option.map_eq_some_iff.mp hnext
    obtain ⟨-, rfl⟩ := Prod.mk.inj heq
    obtain ⟨t₀, hdir, hmade⟩ := syscallOpenat_created hcall
    rcases getParentDir_spec hdir with rfl | ⟨fdnum, isDir, _, _, rfl, _, _⟩
    · rcases hmade with ⟨-, -, rfl⟩ | ⟨res, hres, hcreated⟩
      · exact h
      · obtain ⟨y, hy, hzero⟩ := h.created hp hcreated fun d hd =>
          hfresh.1 d (Option.mem_toList.mpr hd)
        have hfree := hc.2.resolve_left (by rw [hres]; simp)
        rw [← hzero (hcreated.found hfree) rfl]
        exact hy
    · exact absurd rfl (hc.1 fdnum isDir)
  | read fdnum ret =>
    simp only [next, syscallRead, transfer, fdFromFdnum, show openAt s p fdnum = none from hc,
      Option.map_none, Option.some.injEq, Prod.mk.injEq] at hnext
    exact hnext.2 ▸ h
  | write fdnum ret =>
    simp only [next, syscallWrite, transfer, fdFromFdnum, show openAt s p fdnum = none from hc,
      Option.map_none, Option.some.injEq, Prod.mk.injEq] at hnext
    exact hnext.2 ▸ h
  | seek fdnum offset whence stSize =>
    simp only [next, syscallSeek, fdFromFdnum, show openAt s p fdnum = none from hc,
      Option.map_none, Option.some.injEq, Prod.mk.injEq] at hnext
    exact hnext.2 ▸ h
  | ioctl fdnum ret =>
    simp only [next, syscallIoctl, fdFromFdnum, show openAt s p fdnum = none from hc,
      Option.map_none, Option.some.injEq, Prod.mk.injEq] at hnext
    exact hnext.2 ▸ h
  | fcntl fdnum request arg memory =>
    simp only [next, syscallFcntl, show openAt s p fdnum = none from hc, Option.some.injEq,
      Prod.mk.injEq] at hnext
    exact hnext.2 ▸ h
  | dup3 oldFdnum newFdnum flags memory =>
    obtain ⟨-, rfl⟩ := Prod.mk.inj (Option.some.inj hnext)
    change Counted (fdnumDup H s p oldFdnum p newFdnum flags true false memory).2 (fun _ => 0)
    have hself : (fdnumDup H s p oldFdnum p newFdnum flags true false memory).2 = s := by
      unfold fdnumDup
      split
      · rfl
      · next hdiff =>
        have hnone := hc.resolve_left fun heq => hdiff ⟨rfl, heq, rfl⟩
        rw [fdFromFdnum, hnone, Option.map_none]
    rw [hself]
    exact h
  | ppoll fds status wait =>
    obtain ⟨⟨r', t⟩, hcall, heq⟩ := Option.map_eq_some_iff.mp hnext
    obtain ⟨-, rfl⟩ := Prod.mk.inj heq
    obtain ⟨-, y, hy, hzero⟩ := h.syscallPpoll hcall
    rw [hzero hc] at hy
    exact hy
  | socket type sock memory =>
    obtain ⟨-, rfl⟩ := Prod.mk.inj (Option.some.inj hnext)
    cases sock with
    | none => exact h
    | some sock =>
      have hcreated := fdnumCreateFromResource_created H s p sock
        (if type &&& H.sockNonblock ≠ 0 then
          (if type &&& H.sockCloexec ≠ 0 then H.oCloexec else 0) ||| H.oNonblock
        else if type &&& H.sockCloexec ≠ 0 then H.oCloexec else 0) 0 false memory
      obtain ⟨y, hy, hzero⟩ := h.created hp hcreated fun d hd =>
        hfresh.1 d (Option.mem_toList.mpr hd)
      rw [← hzero (hcreated.found (hc.resolve_left (by simp))) rfl]
      exact hy
  | pipe flags rdonly wronly pipe memory memory' =>
    obtain ⟨-, rfl⟩ := Prod.mk.inj (Option.some.inj hnext)
    have hmade := syscallPipe_made H s p flags rdonly wronly pipe memory memory'
    exact counted_pipe h hp hmade hfresh.1 hfresh.2.1 hc
  | fork newProc memory thread =>
    obtain ⟨⟨r', t⟩, hcall, heq⟩ := Option.map_eq_some_iff.mp hnext
    obtain ⟨-, rfl⟩ := Prod.mk.inj heq
    exact counted_fork h hfresh.2.2 hc hcall
  | exec loads =>
    obtain ⟨-, rfl⟩ := Prod.mk.inj (Option.some.inj hnext)
    exact h
  | exit =>
    obtain ⟨-, rfl⟩ := Prod.mk.inj (Option.some.inj hnext)
    exact h.syscallExit p
  | close fdnum =>
    obtain ⟨-, rfl⟩ := Prod.mk.inj (Option.some.inj hnext)
    have hclose := h.fdnumClose p fdnum
    generalize Descriptors.fdnumClose s p fdnum = t at hclose ⊢
    obtain ⟨b, t⟩ := t
    cases b <;> exact hclose

/-! ## Runs -/

/-- Calls that leave no reference behind. -/
def BalancedRun (H : Headers) (console : Nat) : State → Prop :=
  Reach (Step H) (fun s c => Balanced s c.1 c.2) (boot H console)

/-- **In runs of balanced calls, the reference count of a description is the number of slots that
point at it**, and it is in use as long as there is one. -/
theorem refcount_eq_slots (H : Headers) (console : Nat) (h : BalancedRun H console s) (d : Nat) :
    (s.live d = true → (s.description d).refcount = s.slots d) ∧
    (s.live d = true ↔ 0 < s.slots d) := by
  have hcounted : Counted s (fun _ => 0) :=
    h.invariant (counted_boot H console) fun _ _ _ hs hok hstep => counted_balanced hs hok hstep
  refine ⟨fun hlive => hcounted.refcount d hlive, fun hlive => hcounted.pos d hlive, fun hpos => ?_⟩
  by_contra hdead
  have hzero := hcounted.dead d (by simpa using hdead)
  omega

def headersExample : Headers := ⟨0x80000, 0x800, 0x80000, 0x800, 0x302c0, 0x20, by decide⟩

/-- The first process closes its input. -/
theorem refcount_eq_slots_close :
    (syscallClose (boot headersExample 0) 0 0).2.slots 0 = 0 := by
  have hrun : BalancedRun headersExample 0 (syscallClose (boot headersExample 0) 0 0).2 := by
    refine Reach.tail (a := (0, .close 0)) .refl trivial ⟨?_, ?_, .ret (.value 0), ?_⟩
    · exact Finset.mem_singleton_self 0
    · exact ⟨fun _ h => absurd h (by simp [Call.addresses]), List.nodup_nil,
        fun _ h => absurd h (by simp [Call.process])⟩
    · rfl
  have hdead : (syscallClose (boot headersExample 0) 0 0).2.live 0 = false := rfl
  have hiff := (refcount_eq_slots headersExample 0 hrun 0).2
  rw [hdead] at hiff
  simpa using hiff

/-- The first process reads its input: the description has one slot, and the count says two. -/
theorem refcount_ne_slots_read : ∃ s d, Reach (Step headersExample) anyStep (boot headersExample 0) s ∧
    s.live d = true ∧ (s.description d).refcount ≠ s.slots d := by
  have hstep : Step headersExample (boot headersExample 0) (0, .read 0 1)
      (syscallRead (boot headersExample 0) 0 0 1).2 := by
    refine ⟨Finset.mem_singleton_self 0, ?_, .ret (.value 1), rfl⟩
    exact ⟨fun _ h => absurd h (by simp [Call.addresses]), List.nodup_nil,
      fun _ h => absurd h (by simp [Call.process])⟩
  refine ⟨_, 0, Reach.tail .refl trivial hstep, rfl, ?_⟩
  have hone := (counted_boot headersExample 0).refcount 0 rfl
  have hslots : (syscallRead (boot headersExample 0) 0 0 1).2.slots 0
      = (boot headersExample 0).slots 0 := rfl
  have hread : ((syscallRead (boot headersExample 0) 0 0 1).2.description 0).refcount = 2 := rfl
  have hboot : ((boot headersExample 0).description 0).refcount = 1 := rfl
  rw [hslots, hread]
  rw [hboot] at hone
  omega

end Lyre.Descriptors
