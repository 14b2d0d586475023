import Lyre.Properties.DescriptorRefs

/-!
# The tables of descriptors

What the calls are for, without reference counts: a process has a partial map from numbers to
descriptors, and `Table` says what each call does to the maps of all processes, and what it returns.
The code does that (`next_table`); whatever happens to the counts, a slot never points at a
description that has been freed.
-/

namespace Lyre.Descriptors

open Infra

variable {H : Headers} {s s' : State} {p a n d : Nat} {x : Nat → Nat} {fd fd' : Descriptor}
  {fdnum : Int}

abbrev Tables := Nat × Nat → Option Descriptor

/-- What a number stands for. -/
def lookup (f : Tables) (p : Nat) (fdnum : Int) : Option (Nat × Descriptor) :=
  (slotOf fdnum).bind fun n => (f (p, n)).map fun fd => (n, fd)

/-- The slots of a process. -/
def row (f : Tables) (p : Nat) : Nat → Option Descriptor := fun i => f (p, i)

/-- The flags of a descriptor that `socket` makes. -/
def socketFlags (H : Headers) (type : BitVec 32) : BitVec 32 :=
  let flags := if type &&& H.sockCloexec ≠ 0 then H.oCloexec else 0
  if type &&& H.sockNonblock ≠ 0 then flags ||| H.oNonblock else flags

/-- The calls that are not about the tables. -/
def Call.KeepsTables : Call → Prop
  | .read _ _ => True
  | .write _ _ => True
  | .seek _ _ _ _ => True
  | .ioctl _ _ => True
  | .fcntl _ request _ _ => request = .getfl ∨ request = .setfl ∨ request = .other
  | .ppoll _ _ _ => True
  | .exec _ => True
  | _ => False

/-- A new descriptor at the lowest free number. -/
inductive Opens (H : Headers) (f : Tables) (p : Nat) (flags : BitVec 32) (d : Nat) :
    Nat → Tables → Prop
  | lowest (n : Nat) : LowestFree (row f p) 0 n → Opens H f p flags d n
    (Function.update f (p, n) (some ⟨d, flags &&& H.fileDescriptorFlagsMask⟩))

/-- **What a call does to the tables, and what it returns.** -/
inductive Table (H : Headers) (f : Tables) (p : Nat) : Call → Result → Tables → Prop
  | opened (dir : Dir) (res : Nat) (flags : BitVec 32) (d n : Nat) (f' : Tables) :
    Opens H f p flags d n f' →
    Table H f p (.openat dir (some res) flags (some d)) (.ret (.value n)) f'
  | notOpened (dir : Dir) (found : Option Nat) (flags : BitVec 32) (memory : Option Nat) :
    found = none ∨ memory = none ∨ Full (row f p) 0 →
    Table H f p (.openat dir found flags memory) (.ret .failed) f
  | socket (type : BitVec 32) (sock d n : Nat) (f' : Tables) :
    Opens H f p (socketFlags H type) d n f' →
    Table H f p (.socket type (some sock) (some d)) (.ret (.value n)) f'
  | noSocket (type : BitVec 32) (sock memory : Option Nat) :
    sock = none ∨ memory = none ∨ Full (row f p) 0 →
    Table H f p (.socket type sock memory) (.ret .failed) f
  | pipe (flags rdonly wronly : BitVec 32) (pipe d d' n n' : Nat) (f' f'' : Tables) :
    Opens H f p (flags ||| rdonly) d n f' → Opens H f' p (flags ||| wronly) d' n' f'' →
    Table H f p (.pipe flags rdonly wronly (some pipe) (some d) (some d')) (.pipe (.fds n n')) f''
  | halfPipe (flags rdonly wronly : BitVec 32) (pipe d n : Nat) (memory' : Option Nat)
    (f' : Tables) : Opens H f p (flags ||| rdonly) d n f' →
    memory' = none ∨ Full (row f' p) 0 →
    Table H f p (.pipe flags rdonly wronly (some pipe) (some d) memory') (.pipe .failed) f'
  | noPipe (flags rdonly wronly : BitVec 32) (pipe memory memory' : Option Nat) :
    pipe = none ∨ memory = none ∨ Full (row f p) 0 →
    Table H f p (.pipe flags rdonly wronly pipe memory memory') (.pipe .failed) f
  | dupfd (fdnum : Int) (request : Request) (arg : BitVec 64) (m start n : Nat) (fd : Descriptor) :
    request = .dupfd ∨ request = .dupfdCloexec → lookup f p fdnum = some (m, fd) →
    (arg.setWidth 32).toInt = start → LowestFree (row f p) start n →
    Table H f p (.fcntl fdnum request arg true) (.ret (.value n))
      (Function.update f (p, n) (some ⟨fd.description, 0⟩))
  | notDupfd (fdnum : Int) (request : Request) (arg : BitVec 64) (memory : Bool) (r : Ret) :
    request = .dupfd ∨ request = .dupfdCloexec → (∀ k, r ≠ .value k) →
    memory = false ∨ slotOf (arg.setWidth 32).toInt = none ∨
      (∃ start, (arg.setWidth 32).toInt = (start : Nat) ∧ Full (row f p) start) →
    Table H f p (.fcntl fdnum request arg memory) (.ret r) f
  | dup3 (oldFdnum : Int) (m n : Nat) (fd : Descriptor) (flags : BitVec 32) :
    oldFdnum ≠ n → n < maxFds → lookup f p oldFdnum = some (m, fd) →
    Table H f p (.dup3 oldFdnum n flags true) (.ret (.value n))
      (Function.update f (p, n) (some ⟨fd.description, flags &&& H.fileDescriptorFlagsMask⟩))
  | notDup3 (oldFdnum newFdnum : Int) (flags : BitVec 32) (memory : Bool) (r : Ret) :
    (∀ k, r ≠ .value k) →
    oldFdnum = newFdnum ∨ lookup f p oldFdnum = none ∨ memory = false ∨ slotOf newFdnum = none →
    Table H f p (.dup3 oldFdnum newFdnum flags memory) (.ret r) f
  | getfd (fdnum : Int) (arg : BitVec 64) (memory : Bool) (m : Nat) (fd : Descriptor) :
    lookup f p fdnum = some (m, fd) →
    Table H f p (.fcntl fdnum .getfd arg memory)
      (.ret (.value (if fd.flags &&& H.oCloexec ≠ 0 then H.oCloexec.toInt else 0))) f
  | setfd (fdnum : Int) (arg : BitVec 64) (memory : Bool) (m : Nat) (fd : Descriptor) :
    lookup f p fdnum = some (m, fd) →
    Table H f p (.fcntl fdnum .setfd arg memory) (.ret (.value 0))
      (Function.update f (p, m) (some ⟨fd.description,
        if arg &&& H.oCloexec.signExtend 64 ≠ 0 then H.oCloexec else 0⟩))
  | notFcntl (fdnum : Int) (request : Request) (arg : BitVec 64) (memory : Bool) :
    lookup f p fdnum = none →
    Table H f p (.fcntl fdnum request arg memory) (.ret (.error .ebadf)) f
  | fork (a : Nat) (memory : Nat → Bool) : (∀ i, f (p, i) ≠ none → memory i = true) →
    Table H f p (.fork (some a) memory true) (.ret (.value a)) fun i =>
      if i.1 = a then (f (p, i.2)).map fun fd => ⟨fd.description, 0⟩ else f i
  | notForked (newProc : Option Nat) (memory : Nat → Bool) (thread : Bool) (r : Ret) :
    (∀ k, r ≠ .value k) →
    newProc = none ∨ thread = false ∨ (∃ i, f (p, i) ≠ none ∧ memory i = false) →
    Table H f p (.fork newProc memory thread) (.ret r) f
  | closed (fdnum : Int) (m : Nat) (fd : Descriptor) : lookup f p fdnum = some (m, fd) →
    Table H f p (.close fdnum) (.ret (.value 0)) (Function.update f (p, m) none)
  | notClosed (fdnum : Int) : lookup f p fdnum = none →
    Table H f p (.close fdnum) (.ret (.error .ebadf)) f
  | exit : Table H f p .exit .none fun i => if i.1 = p then none else f i
  | other (c : Call) (r : Result) : c.KeepsTables → Table H f p c r f

/-! ## The functions -/

theorem Created.opens {res : Nat} {flags : BitVec 32} {memory : Option Nat} {r : Ret}
    (h : Created H s p res flags 0 false memory r s') :
    (∃ d n, memory = some d ∧ r = .value (n : Nat) ∧ Opens H s.fds p flags d n s'.fds) ∨
    (r = .failed ∧ s'.fds = s.fds ∧ (memory = none ∨ Full (row s.fds p) 0)) := by
  cases h with
  | noMemory => exact .inr ⟨rfl, rfl, .inl rfl⟩
  | made d r t hplaced =>
    generalize hstart : (0 : Int) = start at hplaced
    cases hplaced with
    | lowest start n hlow =>
      obtain rfl : start = 0 := by omega
      exact .inl ⟨d, n, rfl, rfl, .lowest n hlow⟩
    | full start _ hfull =>
      obtain rfl : start = 0 := by omega
      exact .inr ⟨rfl, rfl, .inr hfull⟩
    | refused _ _ hrefused =>
      rw [← hstart] at hrefused
      exact absurd hrefused (by decide)

theorem specific_fds (s : State) (p : Nat) (fd : Descriptor) (hn : n < maxFds) :
    ((fdnumClose s p n).2.setSlot p n (some fd)).fds = Function.update s.fds (p, n) (some fd) := by
  show Function.update (fdnumClose s p n).2.fds (p, n) (some fd) = _
  rw [fdnumClose_slot s p hn, Function.update_idem]

theorem dupFlags_zero (H : Headers) (cloexec : Bool) : dupFlags H 0 cloexec = 0 := by
  unfold dupFlags
  cases cloexec <;> simp

theorem dup3_table {oldFdnum newFdnum : Int} {flags : BitVec 32} {memory : Bool} {r : Ret}
    (h : Dup H s p oldFdnum p newFdnum flags true false memory r s') :
    Table H s.fds p (.dup3 oldFdnum newFdnum flags memory) (.ret r) s'.fds := by
  cases h with
  | same _ _ heq _ => exact .notDup3 _ _ _ _ _ (fun _ => by simp) (.inl heq)
  | notOpen _ hnone => exact .notDup3 _ _ _ _ _ (fun _ => by simp) (.inr (.inl hnone))
  | noMemory m fd hopen =>
    exact .notDup3 _ _ _ _ _ (fun _ => by simp) (.inr (.inr (.inl rfl)))
  | placed m fd k t hdiff hopen hplaced =>
    generalize hspec : true = specific at hplaced
    cases hplaced with
    | specific n hn =>
      have hne : oldFdnum ≠ n := fun heq => hdiff ⟨rfl, heq, rfl⟩
      have hfds := specific_fds (s.ref fd.description) p
        ⟨fd.description, dupFlags H flags false⟩ hn
      have htable := Table.dup3 (H := H) oldFdnum m n fd flags hne hn hopen
      change Table H s.fds p _ _ ((fdnumClose (s.ref fd.description) p n).2.setSlot p n _).fds
      rw [hfds]
      exact htable
    | lowest => exact absurd hspec (by simp)
  | refused m fd r t hopen hnot hplaced =>
    generalize hspec : true = specific at hplaced
    cases hplaced with
    | specific n hn => exact absurd rfl (hnot n)
    | lowest => exact absurd hspec (by simp)
    | full => exact absurd hspec (by simp)
    | refused _ _ hnone =>
      exact .notDup3 _ _ _ _ _ (fun _ => by simp) (.inr (.inr (.inr hnone)))

theorem dupfd_table {request : Request} {arg : BitVec 64} {cloexec memory : Bool} {m : Nat} {r : Ret}
    (hrequest : request = .dupfd ∨ request = .dupfdCloexec) (hopen : openAt s p fdnum = some (m, fd))
    (h : Dup H (s.ref fd.description) p fdnum p (arg.setWidth 32).toInt 0 false cloexec memory r s') :
    Table H s.fds p (.fcntl fdnum request arg memory) (.ret r) s'.fds := by
  have hopen' : openAt (s.ref fd.description) p fdnum = some (m, fd) := hopen
  generalize hstart : (arg.setWidth 32).toInt = start at h
  cases h with
  | same _ hspec _ _ => exact absurd hspec (by simp)
  | notOpen _ hnone =>
    rw [hopen'] at hnone
    exact absurd hnone (by simp)
  | noMemory => exact .notDupfd _ _ _ _ _ hrequest (fun _ => by simp) (.inl rfl)
  | placed m' fd' k t _ hopen'' hplaced =>
    obtain ⟨rfl, rfl⟩ := Prod.mk.inj (Option.some.inj (hopen'.symm.trans hopen''))
    cases hplaced with
    | lowest start n hlow =>
      have htable := Table.dupfd (H := H) fdnum request arg m start n fd hrequest hopen hstart hlow
      rw [dupFlags_zero]
      exact htable
  | refused m' fd' r t hopen'' hnot hplaced =>
    cases hplaced with
    | lowest start n hlow => exact absurd rfl (hnot n)
    | full start hlt hfull =>
      exact .notDupfd _ _ _ _ _ hrequest (fun _ => by simp) (.inr (.inr ⟨start, hstart, hfull⟩))
    | refused _ _ hnone =>
      exact .notDupfd _ _ _ _ _ hrequest (fun _ => by simp) (.inr (.inl (hstart ▸ hnone)))

theorem fcntl_table (request : Request) (arg : BitVec 64) (memory : Bool) :
    Table H s.fds p (.fcntl fdnum request arg memory)
      (.ret (syscallFcntl H s p fdnum request arg memory).1)
      (syscallFcntl H s p fdnum request arg memory).2.fds := by
  unfold syscallFcntl
  cases hopen : openAt s p fdnum with
  | none => exact .notFcntl fdnum request arg memory hopen
  | some c =>
    obtain ⟨m, fd⟩ := c
    cases request with
    | dupfd => exact dupfd_table (.inl rfl) hopen (fdnumDup_dup _ _ _ _ _ _ _ _ _ _)
    | dupfdCloexec => exact dupfd_table (.inr rfl) hopen (fdnumDup_dup _ _ _ _ _ _ _ _ _ _)
    | getfd => exact .getfd fdnum arg memory m fd hopen
    | setfd => exact .setfd fdnum arg memory m fd hopen
    | getfl => exact .other _ _ (.inl rfl)
    | setfl => exact .other _ _ (.inr (.inl rfl))
    | other => exact .other _ _ (.inr (.inr rfl))

theorem pipe_table {flags rdonly wronly : BitVec 32} {pipe memory memory' : Option Nat} {r : PipeRet}
    (h : PipeMade H s p flags rdonly wronly pipe memory memory' r s') :
    Table H s.fds p (.pipe flags rdonly wronly pipe memory memory') (.pipe r) s'.fds := by
  cases h with
  | noPipe => exact .noPipe _ _ _ _ _ _ (.inl rfl)
  | first pipe memory memory' r t hnot hc =>
    rcases hc.opens with ⟨d, n, -, rfl, -⟩ | ⟨-, hfds, hwhy⟩
    · exact absurd rfl (hnot n)
    · rw [hfds]
      exact .noPipe _ _ _ _ _ _ (.inr hwhy)
  | second pipe memory memory' k r t t' hnot hc hc' =>
    rcases hc.opens with ⟨d, n, rfl, -, hopens⟩ | ⟨hfailed, -⟩
    · rcases hc'.opens with ⟨d', n', -, rfl, -⟩ | ⟨-, hfds, hwhy⟩
      · exact absurd rfl (hnot n')
      · rw [hfds]
        exact .halfPipe _ _ _ _ _ _ _ _ hopens hwhy
    · exact absurd hfailed (by simp)
  | both pipe memory memory' k k' t t' hc hc' =>
    rcases hc.opens with ⟨d, n, rfl, hk, hopens⟩ | ⟨hfailed, -⟩
    · rcases hc'.opens with ⟨d', n', rfl, hk', hopens'⟩ | ⟨hfailed, -⟩
      · obtain rfl := Ret.value.inj hk
        obtain rfl := Ret.value.inj hk'
        exact .pipe _ _ _ _ _ _ _ _ _ _ hopens hopens'
      · exact absurd hfailed (by simp)
    · exact absurd hfailed (by simp)

/-! ## `syscall_fork` and `syscall_exit` -/

/-- A copy of a descriptor in a child. -/
def inherited (fd : Descriptor) : Descriptor := ⟨fd.description, 0⟩

theorem fork_dup {i : Nat} {memory : Bool} {r : Ret} (hpa : p ≠ a) (hi : i < maxFds)
    (hfd : s.fds (p, i) = some fd) (h : Dup H s p i a i 0 true false memory r s') :
    (memory = true ∧ r = .value i ∧ s'.fds = Function.update s.fds (a, i) (some (inherited fd))) ∨
    (memory = false ∧ (∀ k, r ≠ .value k) ∧ s'.fds = s.fds) := by
  have hopen : openAt s p i = some (i, fd) := openAt_eq_some.mpr ⟨slotOf_eq_some.mpr ⟨rfl, hi⟩, hfd⟩
  cases h with
  | same _ _ _ heq => exact absurd heq hpa
  | notOpen _ hnone =>
    rw [hopen] at hnone
    exact absurd hnone (by simp)
  | noMemory => exact .inr ⟨rfl, fun _ => by simp, rfl⟩
  | placed m fd' k t _ hopen' hplaced =>
    obtain ⟨rfl, rfl⟩ := Prod.mk.inj (Option.some.inj (hopen.symm.trans hopen'))
    generalize hnum : (i : Int) = num, hspec : true = specific at hplaced
    cases hplaced with
    | specific n hn =>
      obtain rfl : i = n := by omega
      refine .inl ⟨rfl, rfl, ?_⟩
      have hfds := specific_fds (s.ref fd.description) a ⟨fd.description, dupFlags H 0 false⟩ hn
      rw [dupFlags_zero] at hfds
      rw [dupFlags_zero]
      exact hfds
    | lowest => exact absurd hspec (by simp)
  | refused m fd' r t hopen' hnot hplaced =>
    generalize hnum : (i : Int) = num, hspec : true = specific at hplaced
    cases hplaced with
    | specific n hn => exact absurd rfl (hnot n)
    | lowest => exact absurd hspec (by simp)
    | full => exact absurd hspec (by simp)
    | refused _ _ hnone =>
      rw [← hnum, slotOf_eq_some.mpr ⟨rfl, hi⟩] at hnone
      exact absurd hnone (by simp)

/-- The loop of `syscall_fork` copies slot by slot, until there is no memory. -/
theorem forkLoop_fds {memory : Nat → Bool} {k i : Nat} {b : Bool} (hpa : p ≠ a)
    (hle : i + k ≤ maxFds) (h : forkLoop H p a memory k i s = (b, s')) :
    (∀ j, j.1 ≠ a → s'.fds j = s.fds j) ∧
    (b = true → ∀ n, s'.fds (a, n) =
      if i ≤ n ∧ n < i + k then ((s.fds (p, n)).map inherited).or (s.fds (a, n))
      else s.fds (a, n)) ∧
    (b = true → ∀ n, i ≤ n → n < i + k → s.fds (p, n) ≠ none → memory n = true) ∧
    (b = false → ∃ n, s.fds (p, n) ≠ none ∧ memory n = false) := by
  induction k generalizing s i with
  | zero =>
    obtain ⟨rfl, rfl⟩ := Prod.mk.inj h
    exact ⟨fun _ _ => rfl, fun _ n => (if_neg (by omega)).symm, fun _ n _ _ => by omega,
      fun hb => absurd hb (by simp)⟩
  | succ k ih =>
    unfold forkLoop at h
    cases hfd : s.fds (p, i) with
    | none =>
      rw [hfd] at h
      obtain ⟨hother, hrow, hmemory, hfail⟩ := ih (by omega) h
      refine ⟨hother, fun hb n => ?_, fun hb n hle' hlt hne => ?_, hfail⟩
      · rw [hrow hb n]
        by_cases hni : n = i
        · subst hni
          rw [if_neg (by omega), if_pos (by omega), hfd]
          rfl
        · by_cases hin : i + 1 ≤ n ∧ n < i + 1 + k
          · rw [if_pos hin, if_pos (by omega)]
          · rw [if_neg hin, if_neg (by omega)]
      · by_cases hni : n = i
        · exact absurd (hni ▸ hfd) hne
        · exact hmemory hb n (by omega) (by omega) hne
    | some fd =>
      rw [hfd, if_neg (by simp)] at h
      have hdup := fork_dup hpa (by omega) hfd (fdnumDup_dup H s p i a i 0 true false (memory i))
      generalize fdnumDup H s p i a i 0 true false (memory i) = c at hdup h
      obtain ⟨r, t⟩ := c
      rcases hdup with ⟨hmem, hr, hfds⟩ | ⟨hmem, hnot, hfds⟩
      · obtain rfl : r = .value i := hr
        obtain ⟨hother, hrow, hmemory, hfail⟩ := ih (by omega) h
        have hkeep : ∀ j, j ≠ (a, i) → t.fds j = s.fds j := by
          intro j hj
          rw [show t.fds = _ from hfds, Function.update_of_ne hj]
        have hsource : ∀ n, t.fds (p, n) = s.fds (p, n) := fun n =>
          hkeep (p, n) fun heq => hpa (Prod.mk.inj heq).1
        simp only [hsource] at hmemory hfail
        refine ⟨fun j hj => ?_, fun hb n => ?_, fun hb n hle' hlt hne => ?_, hfail⟩
        · rw [hother j hj]
          exact hkeep j fun heq => hj (by rw [heq])
        · rw [hrow hb n]
          by_cases hni : n = i
          · subst hni
            rw [if_neg (by omega), if_pos (by omega), hfd, show t.fds = _ from hfds,
              Function.update_self]
            rfl
          · rw [hsource, hkeep (a, n) fun heq => hni (Prod.mk.inj heq).2]
            by_cases hin : i + 1 ≤ n ∧ n < i + 1 + k
            · rw [if_pos hin, if_pos (by omega)]
            · rw [if_neg hin, if_neg (by omega)]
        · by_cases hni : n = i
          · rw [hni]
            exact hmem
          · exact hmemory hb n (by omega) (by omega) hne
      · have hb : (false, t) = (b, s') := by
          cases r with
          | value n => exact absurd rfl (hnot n)
          | error e => exact h
          | failed => exact h
        obtain ⟨rfl, rfl⟩ := Prod.mk.inj hb
        have hsame : t.fds = s.fds := hfds
        exact ⟨fun j _ => by rw [hsame], fun hb => absurd hb (by simp),
          fun hb => absurd hb (by simp), fun _ => ⟨i, by rw [hfd]; simp, hmem⟩⟩

theorem fork_table (h : Counted s x) (hp : p ∈ s.processes) {newProc : Option Nat}
    {memory : Nat → Bool} {thread : Bool} {r : Ret} (hfresh : ∀ a ∈ newProc, a ∉ s.processes)
    (hcall : syscallFork H s p newProc memory thread = some (r, s')) :
    Table H s.fds p (.fork newProc memory thread) (.ret r) s'.fds := by
  unfold syscallFork at hcall
  cases newProc with
  | none =>
    have hself := forkLoop_self H s p memory maxFds 0
    simp only at hcall
    generalize forkLoop H p p memory maxFds 0 s = t at hcall hself
    obtain ⟨b, t⟩ := t
    obtain rfl : t = s := hself
    cases b with
    | true =>
      cases thread with
      | true => exact absurd hcall (by simp)
      | false =>
        obtain ⟨rfl, rfl⟩ := Prod.mk.inj (Option.some.inj hcall)
        exact .notForked _ _ _ _ (fun _ => by simp) (.inl rfl)
    | false =>
      obtain ⟨rfl, rfl⟩ := Prod.mk.inj (Option.some.inj hcall)
      exact .notForked _ _ _ _ (fun _ => by simp) (.inl rfl)
  | some a =>
    have ha := hfresh a rfl
    have hpa : p ≠ a := fun heq => ha (heq ▸ hp)
    have hrow : ∀ n, s.fds (a, n) = none := by
      intro n
      by_contra hne
      exact ha (mem_places.mp (h.inside (a, n) hne)).1
    have hadd : (s.addProcess a).fds = s.fds := by
      funext j
      obtain ⟨b, n⟩ := j
      simp only [State.addProcess]
      split
      · next heq => rw [heq, hrow]
      · rfl
    generalize hloop : forkLoop H p a memory maxFds 0 (s.addProcess a) = c
    obtain ⟨b, t⟩ := c
    obtain ⟨hother, hcopy, hmemory, hfail⟩ := forkLoop_fds hpa (by omega) hloop
    rw [hadd] at hother hcopy hmemory hfail
    have hfree : (t.freeProcess a).fds = s.fds := by
      funext j
      simp only [State.freeProcess]
      split
      · next heq =>
        obtain ⟨b, n⟩ := j
        rw [show b = a from heq, hrow]
      · next hne => exact hother j hne
    simp only [hloop] at hcall
    cases b with
    | false =>
      obtain ⟨rfl, rfl⟩ := Prod.mk.inj (Option.some.inj hcall)
      rw [hfree]
      exact .notForked _ _ _ _ (fun _ => by simp) (.inr (.inr (hfail rfl)))
    | true =>
      cases thread with
      | false =>
        obtain ⟨rfl, rfl⟩ := Prod.mk.inj (Option.some.inj hcall)
        rw [hfree]
        exact .notForked _ _ _ _ (fun _ => by simp) (.inr (.inl rfl))
      | true =>
        obtain ⟨rfl, rfl⟩ := Prod.mk.inj (Option.some.inj hcall)
        have hfds : t.fds = fun i =>
            if i.1 = a then (s.fds (p, i.2)).map inherited else s.fds i := by
          funext j
          obtain ⟨b, n⟩ := j
          split
          · next heq =>
            obtain rfl : b = a := heq
            rw [hcopy rfl n, hrow]
            split
            · cases s.fds (p, n) <;> rfl
            · next hout =>
              by_cases hnone : s.fds (p, n) = none
              · rw [hnone]
                rfl
              · have hn := (mem_places.mp (h.inside (p, n) hnone)).2
                omega
          · next hne => exact hother (b, n) hne
        rw [hfds]
        refine .fork a memory fun n hne => hmemory rfl n (Nat.zero_le n) ?_ hne
        have hn := (mem_places.mp (h.inside (p, n) hne)).2
        omega

/-- The loop of `syscall_exit`, for a list of slots. -/
theorem closeLoop_fds (p : Nat) (slots : List Nat) (hslots : ∀ n ∈ slots, n < maxFds) (s : State) :
    (slots.foldl (fun s (n : Nat) => (fdnumClose s p n).2) s).fds =
      fun i => if i.1 = p ∧ i.2 ∈ slots then none else s.fds i := by
  induction slots generalizing s with
  | nil =>
    funext i
    simp
  | cons n slots ih =>
    rw [List.foldl_cons, ih (fun m hm => hslots m (List.mem_cons_of_mem n hm)),
      fdnumClose_slot s p (hslots n List.mem_cons_self)]
    funext i
    by_cases hrest : i.1 = p ∧ i.2 ∈ slots
    · rw [if_pos hrest, if_pos ⟨hrest.1, List.mem_cons_of_mem n hrest.2⟩]
    · rw [if_neg hrest, Function.update_apply]
      by_cases hi : i = (p, n)
      · rw [if_pos hi, hi, if_pos ⟨rfl, List.mem_cons_self⟩]
      · rw [if_neg hi, if_neg]
        rintro ⟨hp, hmem⟩
        rcases List.mem_cons.mp hmem with hn | hmem
        · exact hi (Prod.ext hp hn)
        · exact hrest ⟨hp, hmem⟩

theorem exit_fds (h : Counted s x) (p : Nat) :
    (syscallExit s p).fds = fun i => if i.1 = p then none else s.fds i := by
  have hloop := closeLoop_fds p (List.range maxFds) (fun n hn => List.mem_range.mp hn) s
  refine hloop.trans (funext fun i => ?_)
  by_cases hp : i.1 = p
  · rw [if_pos hp]
    split
    · rfl
    · next hout =>
      by_contra hne
      have hn := (mem_places.mp (h.inside (i.1, i.2) hne)).2
      exact hout ⟨hp, List.mem_range.mpr hn⟩
  · rw [if_neg hp, if_neg fun h' => hp h'.1]

/-! ## All calls -/

theorem transfer_fds (s : State) (p : Nat) (fdnum ret : Int) :
    (transfer s p fdnum ret).2.fds = s.fds := by
  unfold transfer fdFromFdnum
  cases openAt s p fdnum with
  | none => rfl
  | some c =>
    simp only [Option.map_some]
    split <;> rfl

theorem syscallSeek_fds (s : State) (p : Nat) (fdnum offset : Int) (whence : Whence)
    (stSize : Option Int) : (syscallSeek s p fdnum offset whence stSize).2.fds = s.fds := by
  unfold syscallSeek fdFromFdnum
  cases openAt s p fdnum with
  | none => rfl
  | some c =>
    simp only [Option.map_some]
    split
    · rfl
    · split
      · rfl
      · split <;> rfl

/-- **The code does to the tables what it is for.** -/
theorem next_table {c : Call} {r : Result} (h : Counted s x) (hp : p ∈ s.processes)
    (hfresh : c.Fresh s) (hnext : next H s p c = some (r, s')) : Table H s.fds p c r s'.fds := by
  cases c with
  | openat dir found flags memory =>
    obtain ⟨⟨r', t⟩, hcall, heq⟩ := Option.map_eq_some_iff.mp hnext
    obtain ⟨rfl, rfl⟩ := Prod.mk.inj heq
    obtain ⟨t₀, hdir, hmade⟩ := syscallOpenat_created hcall
    have hfds : t₀.fds = s.fds := by
      rcases getParentDir_spec hdir with rfl | ⟨_, _, _, _, _, _, rfl⟩ <;> rfl
    rcases hmade with ⟨rfl, rfl, rfl⟩ | ⟨res, rfl, hc⟩
    · rw [hfds]
      exact .notOpened _ _ _ _ (.inl rfl)
    · rcases hc.opens with ⟨d, n, rfl, rfl, hopens⟩ | ⟨rfl, hsame, hwhy⟩
      · rw [hfds] at hopens
        exact .opened _ _ _ _ _ _ hopens
      · rw [hsame, hfds]
        rw [hfds] at hwhy
        exact .notOpened _ _ _ _ (.inr hwhy)
  | read fdnum ret =>
    obtain ⟨-, hs⟩ := Prod.mk.inj (Option.some.inj hnext)
    have hfds : s'.fds = s.fds := by
      rw [← hs]
      exact transfer_fds s p fdnum ret
    rw [hfds]
    exact .other _ _ trivial
  | write fdnum ret =>
    obtain ⟨-, hs⟩ := Prod.mk.inj (Option.some.inj hnext)
    have hfds : s'.fds = s.fds := by
      rw [← hs]
      exact transfer_fds s p fdnum ret
    rw [hfds]
    exact .other _ _ trivial
  | seek fdnum offset whence stSize =>
    obtain ⟨-, hs⟩ := Prod.mk.inj (Option.some.inj hnext)
    have hfds : s'.fds = s.fds := by
      rw [← hs]
      exact syscallSeek_fds s p fdnum offset whence stSize
    rw [hfds]
    exact .other _ _ trivial
  | ioctl fdnum ret =>
    obtain ⟨-, hs⟩ := Prod.mk.inj (Option.some.inj hnext)
    have hfds : s'.fds = s.fds := by
      rw [← hs]
      unfold fdFromFdnum
      cases openAt s p fdnum <;> rfl
    rw [hfds]
    exact .other _ _ trivial
  | fcntl fdnum request arg memory =>
    obtain ⟨rfl, rfl⟩ := Prod.mk.inj (Option.some.inj hnext)
    exact fcntl_table request arg memory
  | dup3 oldFdnum newFdnum flags memory =>
    obtain ⟨rfl, rfl⟩ := Prod.mk.inj (Option.some.inj hnext)
    exact dup3_table (fdnumDup_dup H s p oldFdnum p newFdnum flags true false memory)
  | ppoll fds status wait =>
    obtain ⟨⟨⟨r', fds'⟩, t⟩, hcall, heq⟩ := Option.map_eq_some_iff.mp hnext
    obtain ⟨rfl, rfl⟩ := Prod.mk.inj heq
    rw [(h.syscallPpoll hcall).1]
    exact .other _ _ trivial
  | socket type sock memory =>
    obtain ⟨rfl, rfl⟩ := Prod.mk.inj (Option.some.inj hnext)
    cases sock with
    | none => exact .noSocket _ _ _ (.inl rfl)
    | some sock =>
      have hc := fdnumCreateFromResource_created H s p sock (socketFlags H type) 0 false memory
      change Table H s.fds p _
        (.ret (fdnumCreateFromResource H s p sock (socketFlags H type) 0 false memory).1)
        (fdnumCreateFromResource H s p sock (socketFlags H type) 0 false memory).2.fds
      generalize fdnumCreateFromResource H s p sock (socketFlags H type) 0 false memory = t at hc ⊢
      obtain ⟨r', t⟩ := t
      rcases hc.opens with ⟨d, n, rfl, hr, hopens⟩ | ⟨hr, hsame, hwhy⟩
      · obtain rfl : r' = _ := hr
        exact .socket _ _ _ _ _ hopens
      · obtain rfl : r' = _ := hr
        rw [show t.fds = s.fds from hsame]
        exact .noSocket _ _ _ (.inr hwhy)
  | pipe flags rdonly wronly pipe memory memory' =>
    obtain ⟨rfl, rfl⟩ := Prod.mk.inj (Option.some.inj hnext)
    exact pipe_table (syscallPipe_made H s p flags rdonly wronly pipe memory memory')
  | fork newProc memory thread =>
    obtain ⟨⟨r', t⟩, hcall, heq⟩ := Option.map_eq_some_iff.mp hnext
    obtain ⟨rfl, rfl⟩ := Prod.mk.inj heq
    exact fork_table h hp hfresh.2.2 hcall
  | exec loads =>
    obtain ⟨-, rfl⟩ := Prod.mk.inj (Option.some.inj hnext)
    exact .other _ _ trivial
  | exit =>
    obtain ⟨rfl, rfl⟩ := Prod.mk.inj (Option.some.inj hnext)
    rw [exit_fds h p]
    exact .exit
  | close fdnum =>
    obtain ⟨rfl, rfl⟩ := Prod.mk.inj (Option.some.inj hnext)
    unfold fdnumClose
    cases hopen : openAt s p fdnum with
    | none => exact .notClosed fdnum hopen
    | some c =>
      obtain ⟨m, fd⟩ := c
      exact .closed fdnum m fd hopen

/-! ## Runs -/

/-- All calls of all processes. -/
def Run (H : Headers) (console : Nat) : State → Prop :=
  Reach (Step H) anyStep (boot H console)

theorem counted_run {console : Nat} (h : Run H console s) : ∃ x, Counted s x :=
  h.invariant (I := fun s => ∃ x, Counted s x) ⟨fun _ => 0, counted_boot H console⟩
    fun _ _ _ ⟨_, hs⟩ _ hstep => hs.next hstep

/-- **The descriptors of all processes are partial maps**, in every state that calls lead to: no slot
points at a description that has been freed, and every call does to the maps what `Table` says. -/
theorem descriptor_tables (H : Headers) (console : Nat) (h : Run H console s) :
    (∀ i fd, s.fds i = some fd → s.live fd.description = true) ∧
    ∀ p c r s', p ∈ s.processes → c.Fresh s → next H s p c = some (r, s') →
      Table H s.fds p c r s'.fds ∧ Run H console s' := by
  obtain ⟨x, hx⟩ := counted_run h
  refine ⟨fun i fd hfd => hx.live (p := i.1) (n := i.2) hfd, fun p c r s' hp hfresh hnext => ?_⟩
  exact ⟨next_table hx hp hfresh hnext, h.tail (a := (p, c)) trivial ⟨hp, hfresh, r, hnext⟩⟩

/-- The first process, which has its console. -/
theorem descriptor_tables_boot :
    ∃ fd, (boot headersExample 0).fds (0, 0) = some fd
      ∧ (boot headersExample 0).live fd.description = true := by
  have hopen : ((boot headersExample 0).fds (0, 0)).isSome = true := by decide +kernel
  obtain ⟨fd, hfd⟩ := Option.isSome_iff_exists.mp hopen
  exact ⟨fd, hfd, (descriptor_tables headersExample 0 .refl).1 (0, 0) fd hfd⟩

end Lyre.Descriptors
