import Lyre.Properties.DescriptorTables

/-!
# Close-on-exec

Beside the tables, `Marks` remembers for which slots close-on-exec has been requested and not been
cleared: a request belongs to a slot, and a child inherits those of its parent. The flags of the
slots keep up with it for all calls but three kinds (`Keeps`): `F_DUPFD_CLOEXEC` that makes a
descriptor, and `fork` and `exec` of a process with a descriptor that has the flag.
-/

namespace Lyre.Descriptors

open Infra

variable {H : Headers} {s s' : State} {f f' : Tables} {p a n d : Nat} {fd fd' : Descriptor}
  {fdnum : Int}

/-- The slots for which close-on-exec is requested. -/
abbrev Marks := Nat × Nat → Prop

/-- The requests after a call with this result. After `exec`, nothing of what was marked is there. -/
def marksAfter (H : Headers) (p : Nat) (q : Marks) : Call → Result → Marks
  | .openat _ _ flags _, .ret (.value n) =>
    Function.update q (p, n.toNat) (flags &&& H.oCloexec ≠ 0)
  | .socket type _ _, .ret (.value n) =>
    Function.update q (p, n.toNat) (type &&& H.sockCloexec ≠ 0)
  | .pipe flags _ _ _ _ _, .pipe (.fds n n') =>
    Function.update (Function.update q (p, n.toNat) (flags &&& H.oCloexec ≠ 0)) (p, n'.toNat)
      (flags &&& H.oCloexec ≠ 0)
  | .fcntl _ .dupfd _ _, .ret (.value n) => Function.update q (p, n.toNat) False
  | .fcntl _ .dupfdCloexec _ _, .ret (.value n) => Function.update q (p, n.toNat) True
  | .fcntl fdnum .setfd arg _, .ret (.value _) =>
    Function.update q (p, fdnum.toNat) (arg &&& H.oCloexec.signExtend 64 ≠ 0)
  | .dup3 _ newFdnum flags _, .ret (.value _) =>
    Function.update q (p, newFdnum.toNat) (flags &&& H.oCloexec ≠ 0)
  | .fork (some a) _ _, .ret (.value _) => fun i => if i.1 = a then q (p, i.2) else q i
  | .close fdnum, .ret (.value _) => Function.update q (p, fdnum.toNat) False
  | .exec _, .none => fun i => i.1 ≠ p ∧ q i
  | .exit, .none => fun i => i.1 ≠ p ∧ q i
  | _, _ => q

/-- `F_GETFD` reports the flag for the slot. -/
def Reports (H : Headers) (f : Tables) (i : Nat × Nat) : Prop :=
  ∃ fd, f i = some fd ∧ fd.flags &&& H.oCloexec ≠ 0

/-- Every request is reported. -/
def Marked (H : Headers) (f : Tables) (q : Marks) : Prop := ∀ i, q i → Reports H f i

/-- `F_DUPFD_CLOEXEC` finds a descriptor and a number for its copy. -/
def Duplicates (s : State) (p : Nat) (fdnum : Int) (arg : BitVec 64) (memory : Bool) : Prop :=
  openAt s p fdnum ≠ none ∧ memory = true ∧
    ∃ start n : Nat, (arg.setWidth 32).toInt = start ∧ LowestFree (row s.fds p) start n

/-- The calls after which the flags still say what has been requested. -/
def Keeps (H : Headers) (s : State) (p : Nat) : Call → Prop
  | .fcntl fdnum .dupfdCloexec arg memory => ¬ Duplicates s p fdnum arg memory
  | .fork newProc memory thread =>
    newProc = none ∨ thread = false ∨ (∃ i, s.fds (p, i) ≠ none ∧ memory i = false) ∨
      ∀ n, ¬ Reports H s.fds (p, n)
  | .exec loads => loads = true → ∀ n, ¬ Reports H s.fds (p, n)
  | _ => True

/-! ## One call -/

theorem Marked.update {q : Marks} (h : Marked H f q) {i : Nat × Nat} {want : Prop}
    (hfd : want → fd.flags &&& H.oCloexec ≠ 0) :
    Marked H (Function.update f i (some fd)) (Function.update q i want) := by
  intro j hj
  by_cases heq : j = i
  · subst heq
    rw [Function.update_self] at hj
    exact ⟨fd, Function.update_self _ _ _, hfd hj⟩
  · rw [Function.update_of_ne heq] at hj
    obtain ⟨fd', hfd', hflags⟩ := h j hj
    exact ⟨fd', by rw [Function.update_of_ne heq, hfd'], hflags⟩

theorem Marked.fill {q : Marks} (h : Marked H f q) {i : Nat × Nat} (hfree : f i = none) :
    Marked H (Function.update f i (some fd)) q := by
  intro j hj
  obtain ⟨fd', hfd', hflags⟩ := h j hj
  refine ⟨fd', ?_, hflags⟩
  rw [Function.update_of_ne, hfd']
  rintro rfl
  rw [hfree] at hfd'
  exact absurd hfd' (by simp)

theorem mask_ne_zero {flags : BitVec 32} (h : flags &&& H.oCloexec ≠ 0) :
    (flags &&& H.fileDescriptorFlagsMask) &&& H.oCloexec ≠ 0 := by
  unfold Headers.fileDescriptorFlagsMask
  rw [BitVec.and_assoc, BitVec.and_self]
  exact h

theorem or_and_ne_zero {u v w : BitVec 32} (h : u &&& w ≠ 0) : (u ||| v) &&& w ≠ 0 := by
  intro hzero
  refine h (BitVec.eq_of_getLsbD_eq fun i _ => ?_)
  have hbit := congrArg (fun v => v.getLsbD i) hzero
  simp only [BitVec.getLsbD_and, BitVec.getLsbD_or] at hbit ⊢
  cases hu : u.getLsbD i with
  | false => simp
  | true =>
    rw [hu, Bool.true_or, Bool.true_and] at hbit
    rw [Bool.true_and, hbit]

theorem socketFlags_ne_zero {type : BitVec 32} (h : type &&& H.sockCloexec ≠ 0) :
    socketFlags H type &&& H.oCloexec ≠ 0 := by
  have hself : H.oCloexec &&& H.oCloexec ≠ 0 := by
    rw [BitVec.and_self]
    exact H.oCloexec_ne
  unfold socketFlags
  simp only
  rw [if_pos h]
  split
  · exact or_and_ne_zero hself
  · exact hself

theorem Marked.opens {q : Marks} {flags : BitVec 32} {want : Prop} (h : Marked H f q)
    (hopens : Opens H f p flags d n f') (hflags : want → flags &&& H.oCloexec ≠ 0) :
    Marked H f' (Function.update q (p, n) want) := by
  cases hopens with
  | lowest _ => exact h.update fun hwant => mask_ne_zero (hflags hwant)

theorem Marked.mono {q q' : Marks} (h : Marked H f q) (hq : ∀ i, q' i → q i) : Marked H f q' :=
  fun i hi => h i (hq i hi)

theorem lookup_eq_some {m : Nat} (h : lookup f p fdnum = some (m, fd)) :
    fdnum.toNat = m ∧ f (p, m) = some fd := by
  obtain ⟨k, hslot, hmap⟩ := Option.bind_eq_some_iff.mp h
  obtain ⟨fd', hfd, heq⟩ := Option.map_eq_some_iff.mp hmap
  obtain ⟨rfl, rfl⟩ := Prod.mk.inj heq
  obtain ⟨rfl, -⟩ := slotOf_eq_some.mp hslot
  exact ⟨rfl, hfd⟩

/-- **One call**: requests are still reported. -/
theorem Marked.step {q : Marks} {c : Call} {r : Result} (h : Marked H s.fds q)
    (hkeeps : Keeps H s p c) (htable : Table H s.fds p c r f') :
    Marked H f' (marksAfter H p q c r) := by
  cases htable with
  | opened dir res flags d n f' hopens => exact h.opens hopens id
  | notOpened => exact h
  | socket type sock d n f' hopens => exact h.opens hopens socketFlags_ne_zero
  | noSocket => exact h
  | pipe flags rdonly wronly pipe d d' n n' f₁ f₂ hopens hopens' =>
    exact (h.opens hopens or_and_ne_zero).opens hopens' or_and_ne_zero
  | halfPipe flags rdonly wronly pipe d n memory' f' hopens _ =>
    cases hopens with
    | lowest hlow => exact h.fill hlow.2.2.1
  | noPipe => exact h
  | dupfd fdnum request arg m start n fd hrequest hlookup hstart hlow =>
    rcases hrequest with rfl | rfl
    · exact h.update False.elim
    · refine absurd ⟨?_, rfl, start, n, hstart, hlow⟩ hkeeps
      rw [show openAt s p fdnum = some (m, fd) from hlookup]
      simp
  | notDupfd fdnum request arg memory r hrequest hnot _ =>
    rcases hrequest with rfl | rfl <;> cases r with
    | value k => exact absurd rfl (hnot k)
    | error e => exact h
    | failed => exact h
  | dup3 oldFdnum m n fd flags _ _ _ => exact h.update mask_ne_zero
  | notDup3 oldFdnum newFdnum flags memory r hnot _ =>
    cases r with
    | value k => exact absurd rfl (hnot k)
    | error e => exact h
    | failed => exact h
  | getfd => exact h
  | setfd fdnum arg memory m fd hlookup =>
    simp only [marksAfter, (lookup_eq_some hlookup).1]
    refine h.update fun hwant => ?_
    simp only [if_pos hwant, BitVec.and_self]
    exact H.oCloexec_ne
  | notFcntl fdnum request arg memory _ => cases request <;> exact h
  | fork a memory hmemory =>
    have hnone : ∀ n, ¬ Reports H s.fds (p, n) := by
      rcases hkeeps with hnp | hthread | ⟨i, hi, hmem⟩ | hnone
      · exact absurd hnp (by simp)
      · exact absurd hthread (by simp)
      · rw [hmemory i hi] at hmem
        exact absurd hmem (by simp)
      · exact hnone
    rintro ⟨b, n⟩ hi
    simp only [marksAfter] at hi
    split at hi
    · exact absurd (h (p, n) hi) (hnone n)
    · next hne =>
      obtain ⟨fd, hfd, hflags⟩ := h (b, n) hi
      exact ⟨fd, (if_neg hne).trans hfd, hflags⟩
  | notForked newProc memory thread r hnot _ =>
    cases newProc <;> cases r with
    | value k => exact absurd rfl (hnot k)
    | error e => exact h
    | failed => exact h
  | closed fdnum m fd hlookup =>
    simp only [marksAfter, (lookup_eq_some hlookup).1]
    intro i hi
    by_cases heq : i = (p, m)
    · rw [heq, Function.update_self] at hi
      exact hi.elim
    · rw [Function.update_of_ne heq] at hi
      obtain ⟨fd', hfd, hflags⟩ := h i hi
      exact ⟨fd', by rw [Function.update_of_ne heq, hfd], hflags⟩
  | notClosed => exact h
  | exit =>
    rintro i ⟨hne, hi⟩
    obtain ⟨fd', hfd, hflags⟩ := h i hi
    exact ⟨fd', (if_neg hne).trans hfd, hflags⟩
  | other c r hc =>
    refine h.mono fun i hi => ?_
    cases c with
    | fcntl fdnum request arg memory =>
      rcases hc with rfl | rfl | rfl <;> exact hi
    | exec loads =>
      cases r with
      | none => exact hi.2
      | ret r => exact hi
      | pipe r => exact hi
      | ppoll r fds => exact hi
    | read => exact hi
    | write => exact hi
    | seek => exact hi
    | ioctl => exact hi
    | ppoll => exact hi
    | openat => exact hc.elim
    | dup3 => exact hc.elim
    | socket => exact hc.elim
    | pipe => exact hc.elim
    | fork => exact hc.elim
    | exit => exact hc.elim
    | close => exact hc.elim

/-! ## Runs -/

/-- The descriptors of all processes, with the requests that have been made. -/
def MarkStep (H : Headers) (s : State × Marks) (c : Nat × Call) (s' : State × Marks) : Prop :=
  c.1 ∈ s.1.processes ∧ c.2.Fresh s.1 ∧
    ∃ r, next H s.1 c.1 c.2 = some (r, s'.1) ∧ s'.2 = marksAfter H c.1 s.2 c.2 r

/-- Calls after which the flags still say what has been requested. -/
def KeepsRun (H : Headers) (console : Nat) : State × Marks → Prop :=
  Reach (MarkStep H) (fun s c => Keeps H s.1 c.1 c.2) (boot H console, fun _ => False)

/-- **In runs of such calls, every request is reported**, and what has been marked is not open after
`exec`. -/
theorem requests_reported (H : Headers) (console : Nat) {s : State × Marks}
    (h : KeepsRun H console s) :
    (∀ i, s.2 i → Reports H s.1.fds i) ∧
    ∀ p s', Keeps H s.1 p (.exec true) → next H s.1 p (.exec true) = some (.none, s') →
      ∀ n, s.2 (p, n) → s'.fds (p, n) = none := by
  have hinv : (∃ x, Counted s.1 x) ∧ Marked H s.1.fds s.2 := by
    induction h with
    | refl => exact ⟨⟨fun _ => 0, counted_boot H console⟩, fun i hi => hi.elim⟩
    | tail _ hkeeps hstep ih =>
      obtain ⟨⟨x, hx⟩, hmarked⟩ := ih
      obtain ⟨hp, hfresh, r, hnext, hq⟩ := hstep
      refine ⟨hx.next ⟨hp, hfresh, r, hnext⟩, ?_⟩
      rw [hq]
      exact hmarked.step hkeeps (next_table hx hp hfresh hnext)
  refine ⟨hinv.2, fun p s' hkeeps _ n hn => ?_⟩
  exact absurd (hinv.2 (p, n) hn) (hkeeps rfl n)

/-- The first process requests it for its input. -/
theorem requests_reported_setfd :
    Reports headersExample
      (syscallFcntl headersExample (boot headersExample 0) 0 0 .setfd 0x80000 false).2.fds (0, 0) := by
  have hrun : KeepsRun headersExample 0
      ((syscallFcntl headersExample (boot headersExample 0) 0 0 .setfd 0x80000 false).2,
        marksAfter headersExample 0 (fun _ => False) (.fcntl 0 .setfd 0x80000 false)
          (.ret (.value 0))) := by
    refine Reach.tail (a := (0, .fcntl 0 .setfd 0x80000 false)) .refl trivial
      ⟨Finset.mem_singleton_self 0, ?_, .ret (.value 0), rfl, rfl⟩
    exact ⟨fun _ h => absurd h (by simp [Call.addresses]), List.nodup_nil,
      fun _ h => absurd h (by simp [Call.process])⟩
  refine (requests_reported headersExample 0 hrun).1 (0, 0) ?_
  exact show (0x80000 : BitVec 64) &&& headersExample.oCloexec.signExtend 64 ≠ 0 by decide

/-- The first process copies its input with `F_DUPFD_CLOEXEC`: the copy does not have the flag. -/
theorem dupfd_cloexec_not_reported : ∃ s, Reach (MarkStep headersExample) anyStep
    (boot headersExample 0, fun _ => False) s ∧
    ∃ i, s.2 i ∧ ¬ Reports headersExample s.1.fds i := by
  have hstep : MarkStep headersExample (boot headersExample 0, fun _ => False)
      (0, .fcntl 0 .dupfdCloexec 0 true)
      ((syscallFcntl headersExample (boot headersExample 0) 0 0 .dupfdCloexec 0 true).2,
        marksAfter headersExample 0 (fun _ => False) (.fcntl 0 .dupfdCloexec 0 true)
          (.ret (.value 3))) := by
    refine ⟨Finset.mem_singleton_self 0, ?_, .ret (.value 3), rfl, rfl⟩
    exact ⟨fun _ h => absurd h (by simp [Call.addresses]), List.nodup_nil,
      fun _ h => absurd h (by simp [Call.process])⟩
  refine ⟨_, Reach.tail .refl trivial hstep, (0, 3), trivial, ?_⟩
  rintro ⟨fd, hfd, hflags⟩
  obtain rfl : (⟨0, 0⟩ : Descriptor) = fd := Option.some.inj hfd
  exact hflags (by decide)

end Lyre.Descriptors
