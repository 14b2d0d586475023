import Lyre.Lib.NewDescriptors
import Lyre.Properties.DescriptorRefs

/-!
# Calls that find no slot

A call that makes descriptors and has too few slots for them should fail and leave no trace.

* `Made` — what `fdnum_create_from_resource` does: without a slot the reference of the resource is not
  given back;
* `few_slots_iff` — which calls leave no trace: `socket` always, `pipe` if there is no slot at all,
  `openat` if it does not get to the descriptor, and `socketpair` only if it is refused at once.
-/

namespace Lyre.NewDescriptors

open Descriptors

variable {H : Headers} {M : Modes} {s s' : State} {p : Nat} {c : Call}

/-! ## No trace -/

/-- The table, the user's array and the resources that were there are as they were, and every slot
leads to the resource that it led to. What the call has made is freed, or has no more references than
at the start. -/
structure Unchanged (c : Call) (s s' : State) (p : Nat) : Prop where
  table : ∀ n, s'.files.fds (p, n) = s.files.fds (p, n)
  behind : ∀ n fd, s.files.fds (p, n) = some fd →
    (s'.files.description fd.description).res = (s.files.description fd.description).res
  fds : s'.fds = s.fds
  resources : ∀ r, (s.res r).live = true → s'.res r = s.res r
  made : ∀ r ∈ c.resources, (s'.res r).live = true → (s'.res r).refcount = c.initialRefs

/-- Every slot leads to a description in use, and that to a resource in use. -/
def Sane (s : State) (p : Nat) : Prop :=
  ∀ n fd, s.files.fds (p, n) = some fd →
    s.files.live fd.description = true ∧
      (s.res (s.files.description fd.description).res).live = true

/-! ## Slots -/

theorem fdnumCreateFromFd_cases (s : State) (p : Nat) (fd : Descriptor) :
    ¬ HasFree s.files p ∧ fdnumCreateFromFd s p fd = (.failed, s) ∨
      ∃ n, n < maxFds ∧ s.files.fds (p, n) = none ∧
        fdnumCreateFromFd s p fd = (.value n, { s with files := s.files.setSlot p n (some fd) }) := by
  have hslot : slotOf 0 = some 0 := by decide
  unfold fdnumCreateFromFd Descriptors.fdnumCreateFromFd
  rw [hslot]
  simp only [Nat.sub_zero, Bool.false_eq_true, if_false]
  cases hfree : firstFree (fun i => s.files.fds (p, i)) maxFds 0 with
  | none =>
    refine .inl ⟨?_, rfl⟩
    rintro ⟨n, hn, hnone⟩
    exact firstFree_none hfree n.zero_le (by omega) hnone
  | some n =>
    obtain ⟨-, hlt, hnone, -⟩ := firstFree_some hfree
    exact .inr ⟨n, by omega, hnone, rfl⟩

/-! ## References -/

/-- A description `d` has been made for the resource `r`, which has one more reference. -/
structure Took (s s' : State) (r d : Nat) : Prop where
  refcount : (s'.res r).refcount = (s.res r).refcount + 1
  live : (s'.res r).live = (s.res r).live
  resources : ∀ r', r' ≠ r → s'.res r' = s.res r'
  descriptions : ∀ e, e ≠ d → s'.files.description e = s.files.description e
  fds : s'.fds = s.fds

theorem setRes_self (r : Nat) (v : Resource) : (s.setRes r v).res r = v := Function.update_self ..

theorem setRes_of_ne {r r' : Nat} (h : r' ≠ r) (v : Resource) :
    (s.setRes r v).res r' = s.res r' := Function.update_of_ne h ..

/-- A reference is one more in the count, and nothing but the resource changes. -/
theorem ref_eq_some {r : Nat} {flags : BitVec 32} (h : ref M s r flags = some s') :
    ∃ v : Resource, v.refcount = (s.res r).refcount + 1 ∧ v.live = (s.res r).live ∧
      s' = s.setRes r v := by
  unfold ref pipeRef at h
  split at h
  · split at h
    · exact absurd h (by simp)
    · obtain rfl := Option.some.inj h
      refine ⟨_, ?_, ?_, rfl⟩
      · simp only
        split <;> rfl
      · simp only
        split <;> rfl
  · obtain rfl := Option.some.inj h
    exact ⟨{ s.res r with refcount := (s.res r).refcount + 1 }, rfl, rfl, rfl⟩

/-- The assertion of `pipe_ref` holds. -/
def Asserted (H : Headers) (M : Modes) (v : Resource) (flags : BitVec 32) : Prop :=
  v.isPipe = true → flags &&& H.fileStatusFlagsMask &&& M.rdwr = 0

theorem ref_isSome {r : Nat} {flags : BitVec 32} :
    (ref M s r flags).isSome ↔ ((s.res r).isPipe = true → flags &&& M.rdwr = 0) := by
  unfold ref pipeRef
  split
  · split <;> simp_all
  · simp_all

theorem fdCreateFromResource_some {r d : Nat} {flags : BitVec 32} {fd : Option Descriptor}
    (h : fdCreateFromResource H M s r flags (some d) = some (fd, s')) :
    (∃ fd', fd = some fd') ∧ s'.files.fds = s.files.fds ∧ Took s s' r d := by
  simp only [fdCreateFromResource, Descriptors.fdCreateFromResource, Option.map_some,
    Option.map_eq_some_iff, Prod.mk.injEq] at h
  obtain ⟨s₁, href, rfl, rfl⟩ := h
  obtain ⟨v, hcount, hlive, rfl⟩ := ref_eq_some href
  refine ⟨⟨_, rfl⟩, rfl, ?_⟩
  constructor
  · rw [setRes_self, hcount]
  · rw [setRes_self, hlive]
  · exact fun r' hr => setRes_of_ne hr v
  · exact fun e he => Function.update_of_ne he ..
  · rfl

/-- What `fdnum_create_from_resource` comes to: there is no memory, or no slot, or a slot is taken. -/
inductive Made (s s' : State) (p r : Nat) : Option Nat → Ret → Prop where
  | noMemory : s' = s → Made s s' p r none .failed
  | full (d : Nat) : ¬ HasFree s.files p → s'.files.fds = s.files.fds → Took s s' r d →
    Made s s' p r (some d) .failed
  | placed (d n : Nat) : n < maxFds → s.files.fds (p, n) = none → s'.files.fds (p, n) ≠ none →
    (∀ m, m ≠ n → s'.files.fds (p, m) = s.files.fds (p, m)) → Took s s' r d →
    Made s s' p r (some d) (.value n)

theorem fdnumCreateFromResource_made {r : Nat} {flags : BitVec 32} {memory : Option Nat} {ret : Ret}
    (h : fdnumCreateFromResource H M s p r flags memory = some (ret, s')) :
    Made s s' p r memory ret := by
  obtain ⟨⟨fd, s₁⟩, hfd, he⟩ := Option.map_eq_some_iff.mp h
  cases memory with
  | none =>
    obtain ⟨rfl, rfl⟩ := Prod.mk.inj (Option.some.inj hfd)
    obtain ⟨rfl, rfl⟩ := Prod.mk.inj he
    exact .noMemory rfl
  | some d =>
    obtain ⟨⟨fd, rfl⟩, htable, htook⟩ := fdCreateFromResource_some hfd
    change fdnumCreateFromFd s₁ p fd = _ at he
    rcases fdnumCreateFromFd_cases s₁ p fd with ⟨hfull, hf⟩ | ⟨n, hn, hnone, hf⟩
    · rw [hf] at he
      obtain ⟨rfl, rfl⟩ := Prod.mk.inj he
      refine .full d ?_ htable htook
      unfold HasFree at *
      rwa [← htable]
    · rw [hf] at he
      obtain ⟨rfl, rfl⟩ := Prod.mk.inj he
      rw [htable] at hnone
      refine .placed d n hn hnone ?_ (fun m hm => ?_) ⟨htook.refcount, htook.live, htook.resources,
        htook.descriptions, htook.fds⟩
      · simp [State.setSlot]
      · rw [← htable]
        exact Function.update_of_ne (by simpa using hm) ..

theorem fdCreateFromResource_isSome {r d : Nat} {flags : BitVec 32} :
    (fdCreateFromResource H M s r flags (some d)).isSome ↔ Asserted H M (s.res r) flags := by
  rw [fdCreateFromResource, Descriptors.fdCreateFromResource]
  simp only [Option.map_some, Option.isSome_map]
  exact ref_isSome

theorem fdnumCreateFromResource_isSome {r d : Nat} {flags : BitVec 32} :
    (fdnumCreateFromResource H M s p r flags (some d)).isSome ↔ Asserted H M (s.res r) flags := by
  rw [fdnumCreateFromResource, Option.isSome_map]
  exact fdCreateFromResource_isSome

/-! ## The calls -/

/-- The addresses that `ALLOC` returns are not in use, and the nodes that are found are. -/
structure Call.Fresh (c : Call) (s : State) : Prop where
  resources : ∀ r ∈ c.resources, (s.res r).live = false
  descriptions : ∀ d ∈ c.descriptions, s.files.live d = false
  found : ∀ dir r flags memory, c = .openat dir (.existing r) flags memory → (s.res r).live = true

/-- There are too few slots for what the call makes. -/
def Call.TooFew (s : State) (p : Nat) : Call → Prop
  | .pipe .. => ¬ HasTwoFree s.files p
  | .openat .. => ¬ HasFree s.files p
  | .socket .. => ¬ HasFree s.files p
  | .socketpair .. => ¬ HasTwoFree s.files p

/-- `get_parent_dir` returns a node. -/
def Starts (s : State) (p : Nat) : Dir → Prop
  | .fd fdnum isDir => openAt s.files p fdnum ≠ none ∧ isDir = true
  | _ => True

/-- The call takes no reference that it does not give back, and fills no slot before it fails. -/
def Call.Clean (H : Headers) (M : Modes) (s : State) (p : Nat) : Call → Prop
  | .pipe flags addr memory _ =>
    addr = none ∨ memory = none ∨
      (¬ HasFree s.files p ∧ (flags ||| M.rdonly) &&& H.fileStatusFlagsMask &&& M.rdwr = 0)
  | .openat dir found _ memory => Starts s p dir ∧ (found = .nothing ∨ memory = none)
  | .socket .. => True
  | .socketpair unix .. => unix = false

theorem Unchanged.refl (hfresh : c.Fresh s) : Unchanged c s s p := by
  refine ⟨fun _ => rfl, fun _ _ _ => rfl, rfl, fun _ _ => rfl, fun r hr hlive => ?_⟩
  rw [hfresh.resources r hr] at hlive
  exact absurd hlive (by simp)

/-- A resource `r` that the call has made for itself is freed again. -/
theorem unchanged_freed {r : Nat} (hfresh : c.Fresh s) (hr : c.resources = [r])
    (htable : ∀ n, s'.files.fds (p, n) = s.files.fds (p, n))
    (hbehind : ∀ e, s.files.live e = true → s'.files.description e = s.files.description e)
    (hs : Sane s p) (hfds : s'.fds = s.fds) (hres : ∀ r', r' ≠ r → s'.res r' = s.res r') :
    Unchanged c s (s'.free r) p := by
  refine ⟨htable, fun n fd hfd => ?_, hfds, fun r' hlive => ?_, fun r' hr' hlive => ?_⟩
  · change (s'.files.description fd.description).res = _
    rw [hbehind _ (hs n fd hfd).1]
  · have hne : r' ≠ r := by
      rintro rfl
      rw [hfresh.resources r' (by simp [hr])] at hlive
      exact absurd hlive (by simp)
    rw [State.free, setRes_of_ne hne, hres r' hne]
  · rw [hr, List.mem_singleton] at hr'
    rw [hr', State.free, setRes_self] at hlive
    exact absurd hlive (by simp)

/-- The first half of `pipe` and all of `socket`: there is no memory or no slot, and the resource is
freed. -/
theorem Made.unchanged_freed {r : Nat} {v : Resource} {memory : Option Nat} (hs : Sane s p)
    (hfresh : c.Fresh s) (hr : c.resources = [r]) (hmem : ∀ d ∈ memory, d ∈ c.descriptions)
    (h : Made (s.setRes r v) s' p r memory .failed) : Unchanged c s (s'.free r) p := by
  cases h with
  | noMemory h =>
    subst h
    exact NewDescriptors.unchanged_freed hfresh hr (fun _ => rfl) (fun _ _ => rfl) hs rfl
      fun r' hne => setRes_of_ne hne v
  | full d _ htable htook =>
    refine NewDescriptors.unchanged_freed hfresh hr (fun n => ?_) (fun e he => ?_) hs htook.fds
      fun r' hne => ?_
    · rw [htable]
      rfl
    · refine htook.descriptions e ?_
      rintro rfl
      rw [hfresh.descriptions e (hmem e rfl)] at he
      exact absurd he (by simp)
    · rw [htook.resources r' hne, setRes_of_ne hne]

theorem Made.not_unchanged {s₀ s₁ : State} {r n d : Nat} (h : Made s₀ s₁ p r (some d) (.value n))
    (htable : ∀ n, s₀.files.fds (p, n) = s.files.fds (p, n))
    (hkeep : ∀ n, s₁.files.fds (p, n) ≠ none → s'.files.fds (p, n) = s₁.files.fds (p, n)) :
    ¬ Unchanged c s s' p := by
  intro hun
  cases h with
  | placed _ _ _ hnone hsome _ _ =>
    have := hun.table n
    rw [hkeep n hsome, ← htable, hnone] at this
    exact hsome this

theorem Made.failed_of_full {r : Nat} {memory : Option Nat} {ret : Ret}
    (h : Made s s' p r memory ret) (hfull : ¬ HasFree s.files p) : ret = .failed := by
  cases h with
  | noMemory => rfl
  | full => rfl
  | placed d n hn hnone => exact absurd ⟨n, hn, hnone⟩ hfull

theorem Made.table {r : Nat} {memory : Option Nat} (h : Made s s' p r memory .failed) :
    s'.files.fds = s.files.fds := by
  cases h with
  | noMemory h => rw [h]
  | full _ _ htable => exact htable

theorem syscallSocket_unchanged {type : BitVec 32} {sock memory : Option Nat} (hs : Sane s p)
    (hfresh : (Call.socket type sock memory).Fresh s) (hfull : ¬ HasFree s.files p) :
    ∃ s', syscallSocket H M s p type sock memory = some (-1, s') ∧
      Unchanged (.socket type sock memory) s s' p := by
  unfold syscallSocket
  cases sock with
  | none => exact ⟨s, rfl, .refl hfresh⟩
  | some sock =>
    have hsome : (fdnumCreateFromResource H M (s.setRes sock .socket) p sock (socketFlags H type)
        memory).isSome := by
      cases memory with
      | none => rfl
      | some d =>
        rw [fdnumCreateFromResource_isSome]
        intro hpipe
        rw [setRes_self] at hpipe
        exact absurd hpipe (by decide)
    obtain ⟨⟨ret, s₁⟩, heq⟩ := Option.isSome_iff_exists.mp hsome
    have hmade := fdnumCreateFromResource_made heq
    obtain rfl := hmade.failed_of_full hfull
    refine ⟨s₁.free sock, ?_, hmade.unchanged_freed hs hfresh rfl fun d hd => ?_⟩
    · simp only [heq]
    · simpa [Call.descriptions] using hd

theorem syscallSocketpair_iff {unix : Bool} {type : BitVec 32}
    {sock0 sock1 memory memory' : Option Nat}
    (hfresh : (Call.socketpair unix type sock0 sock1 memory memory').Fresh s) :
    (∃ s', syscallSocketpair H M s p unix type sock0 sock1 memory memory' = some (-1, s') ∧
      Unchanged (.socketpair unix type sock0 sock1 memory memory') s s' p) ↔ unix = false := by
  constructor
  · rintro ⟨s', hrun, -⟩
    by_contra hunix
    unfold syscallSocketpair at hrun
    rw [if_neg hunix] at hrun
    -- it returns 0 if it returns
    split at hrun
    · split at hrun
      · exact absurd hrun (by simp)
      · obtain ⟨_, -, hret⟩ := Option.map_eq_some_iff.mp hrun
        exact absurd (Prod.mk.inj hret).1 (by decide)
    · exact absurd hrun (by simp)
  · intro hunix
    exact ⟨s, if_pos hunix, .refl hfresh⟩

/-! ### `openat` -/

/-- The reference of `get_parent_dir` is one of the descriptor's description. -/
theorem getParentDir_some {dir : Dir} {t : Descriptors.State}
    (h : getParentDir s.files p dir = some t) :
    t.fds = s.files.fds ∧ ∀ e, (t.description e).res = (s.files.description e).res := by
  cases dir with
  | empty | root | cwd =>
    obtain rfl := Option.some.inj h
    exact ⟨rfl, fun _ => rfl⟩
  | fd fdnum isDir =>
    simp only [getParentDir, fdFromFdnum] at h
    cases hopen : openAt s.files p fdnum with
    | none => simp [hopen] at h
    | some fd =>
      obtain ⟨n, fd⟩ := fd
      rw [hopen] at h
      cases isDir with
      | false => exact absurd h (by simp)
      | true =>
        obtain rfl := Option.some.inj h
        refine ⟨rfl, fun e => ?_⟩
        by_cases he : e = fd.description
        · simp [State.ref, State.setDescription, he]
        · simp [State.ref, State.setDescription, Function.update_of_ne he]

theorem getParentDir_isSome {dir : Dir} :
    (getParentDir s.files p dir).isSome ↔ Starts s p dir := by
  cases dir with
  | empty | root | cwd => exact ⟨fun _ => trivial, fun _ => rfl⟩
  | fd fdnum isDir =>
    simp only [getParentDir, fdFromFdnum, Starts]
    rcases openAt s.files p fdnum with _ | fd
    · simp
    · cases isDir <;> simp

theorem fdnumCreateFromFd_res (s : State) (p : Nat) (fd : Descriptor) :
    (fdnumCreateFromFd s p fd).2.res = s.res := rfl

theorem openNode_took {r d : Nat} {flags : BitVec 32} {ret : Int}
    (h : openNode H M s p r flags (some d) = some (ret, s')) :
    (s'.res r).refcount = (s.res r).refcount + 1 ∧ (s'.res r).live = (s.res r).live := by
  unfold openNode at h
  cases hfd : fdCreateFromResource H M s r flags (some d) with
  | none => simp [hfd] at h
  | some made =>
    obtain ⟨fd, s₁⟩ := made
    obtain ⟨⟨fd, rfl⟩, -, htook⟩ := fdCreateFromResource_some hfd
    rw [hfd] at h
    simp only [Option.some.injEq, Prod.mk.injEq] at h
    obtain ⟨-, rfl⟩ := h
    rw [fdnumCreateFromFd_res]
    split
    · rw [State.truncate, setRes_self]
      exact ⟨htook.refcount, htook.live⟩
    · exact ⟨htook.refcount, htook.live⟩

theorem syscallOpenat_iff {dir : Dir} {found : Found} {flags : BitVec 32} {memory : Option Nat}
    (hfresh : (Call.openat dir found flags memory).Fresh s) :
    (∃ s', syscallOpenat H M s p dir found flags memory = some (-1, s') ∧
      Unchanged (.openat dir found flags memory) s s' p) ↔
    Starts s p dir ∧ (found = .nothing ∨ memory = none) := by
  unfold syscallOpenat
  rw [← getParentDir_isSome]
  cases hdir : getParentDir s.files p dir with
  | none => simp
  | some t =>
    obtain ⟨hfds, hdescription⟩ := getParentDir_some hdir
    -- nothing but the description of the directory has changed
    have hkept : ∀ s' : State, s'.files = t → s'.fds = s.fds →
        (∀ r, (s.res r).live = true → s'.res r = s.res r) →
        (∀ r ∈ (Call.openat dir found flags memory).resources, (s'.res r).refcount =
          (Call.openat dir found flags memory).initialRefs) →
        Unchanged (.openat dir found flags memory) s s' p := by
      intro s' hfiles harray hres hmade
      refine ⟨fun n => ?_, fun n fd _ => ?_, harray, hres, fun r hr _ => hmade r hr⟩
      · rw [hfiles, hfds]
      · rw [hfiles, hdescription]
    simp only [Option.isSome_some, true_and]
    cases found with
    | nothing =>
      refine iff_of_true ⟨_, rfl, hkept _ rfl rfl (fun _ _ => rfl) ?_⟩ (.inl rfl)
      exact fun r hr => absurd hr List.not_mem_nil
    | existing r =>
      have hlive := hfresh.found dir r flags memory rfl
      cases memory with
      | none =>
        refine iff_of_true ⟨_, rfl, hkept _ rfl rfl (fun _ _ => rfl) ?_⟩ (.inr rfl)
        exact fun r hr => absurd hr List.not_mem_nil
      | some d =>
        refine iff_of_false ?_ (by simp)
        rintro ⟨s', hrun, hun⟩
        have hcount := (openNode_took hrun).1
        rw [hun.resources r hlive] at hcount
        exact absurd hcount (Nat.ne_of_lt (Nat.lt_succ_self _))
    | created r refcount =>
      cases memory with
      | none =>
        refine iff_of_true ⟨_, rfl, hkept _ rfl rfl (fun r' hr' => ?_) ?_⟩ (.inr rfl)
        · refine setRes_of_ne ?_ _
          rintro rfl
          rw [hfresh.resources r' (List.mem_singleton_self _)] at hr'
          exact absurd hr' (by simp)
        · intro r' hr'
          rw [List.mem_singleton.mp hr', setRes_self]
          rfl
      | some d =>
        refine iff_of_false ?_ (by simp)
        rintro ⟨s', hrun, hun⟩
        obtain ⟨hcount, hlive⟩ := openNode_took hrun
        rw [setRes_self] at hcount hlive
        rw [hun.made r (List.mem_singleton_self _) hlive] at hcount
        exact absurd hcount (Nat.ne_of_lt (Nat.lt_succ_self _))

/-! ### `pipe` -/

theorem syscallPipeWrite_table {r : Nat} {readFd : Int} {flags : BitVec 32} {memory' : Option Nat}
    (h : syscallPipeWrite H M s p flags r readFd memory' = some (-1, s')) (n : Nat) :
    s'.files.fds (p, n) = s.files.fds (p, n) := by
  unfold syscallPipeWrite at h
  cases hwrite : fdnumCreateFromResource H M s p r (flags ||| M.wronly) memory' with
  | none => simp [hwrite] at h
  | some made =>
    obtain ⟨ret, s₁⟩ := made
    have hmade := fdnumCreateFromResource_made hwrite
    rw [hwrite] at h
    cases ret with
    | value m => exact absurd (Prod.mk.inj (Option.some.inj h)).1 (by decide)
    | error e => cases hmade
    | failed =>
      obtain ⟨-, rfl⟩ := Prod.mk.inj (Option.some.inj h)
      exact congrFun hmade.table (p, n)

theorem syscallPipe_iff {flags : BitVec 32} {addr memory memory' : Option Nat} (hs : Sane s p)
    (hfresh : (Call.pipe flags addr memory memory').Fresh s) :
    (∃ s', syscallPipe H M s p flags addr memory memory' = some (-1, s') ∧
      Unchanged (.pipe flags addr memory memory') s s' p) ↔
    addr = none ∨ memory = none ∨
      (¬ HasFree s.files p ∧ (flags ||| M.rdonly) &&& H.fileStatusFlagsMask &&& M.rdwr = 0) := by
  unfold syscallPipe
  cases addr with
  | none => exact iff_of_true ⟨s, rfl, .refl hfresh⟩ (.inl rfl)
  | some r =>
    have hasserted : Asserted H M ((s.setRes r .pipe).res r) (flags ||| M.rdonly) ↔
        (flags ||| M.rdonly) &&& H.fileStatusFlagsMask &&& M.rdwr = 0 := by
      rw [setRes_self]
      exact ⟨fun h => h rfl, fun h _ => h⟩
    cases memory with
    | none =>
      refine iff_of_true ⟨_, rfl, ?_⟩ (.inr (.inl rfl))
      exact (Made.noMemory rfl).unchanged_freed hs hfresh rfl (by simp)
    | some d =>
      rw [← hasserted, ← fdnumCreateFromResource_isSome]
      cases hread : fdnumCreateFromResource H M (s.setRes r .pipe) p r (flags ||| M.rdonly)
          (some d) with
      | none => simp [hread]
      | some made =>
        obtain ⟨ret, s₁⟩ := made
        have hmade := fdnumCreateFromResource_made hread
        simp only [hread, Option.isSome_some, and_true]
        cases hmade with
        | full d hfull htable htook =>
          refine iff_of_true ⟨_, rfl, ?_⟩ (.inr (.inr hfull))
          exact (Made.full d hfull htable htook).unchanged_freed hs hfresh rfl
            (by simp [Call.descriptions])
        | placed d n hn hnone hsome hother htook =>
          refine iff_of_false ?_ ?_
          · rintro ⟨s', hrun, hun⟩
            have hplaced := Made.placed d n hn hnone hsome hother htook
            refine absurd hun (hplaced.not_unchanged (fun _ => rfl) fun m _ => ?_)
            exact syscallPipeWrite_table hrun m
          · rintro (h | h | h)
            · exact absurd h (by simp)
            · exact absurd h (by simp)
            · exact h ⟨n, hn, hnone⟩

/-- **A call that finds too few slots returns -1 and leaves no trace if and only if it is clean.**
`socket` always is. `pipe` is not with one slot, `openat` is not once it has made a description, and
`socketpair` returns 0. -/
theorem few_slots_iff (hs : Sane s p) (hfresh : c.Fresh s) (hfew : c.TooFew s p) :
    (∃ s', c.run H M s p = some (-1, s') ∧ Unchanged c s s' p) ↔ c.Clean H M s p := by
  cases c with
  | pipe flags addr memory memory' => exact syscallPipe_iff hs hfresh
  | openat dir found flags memory => exact syscallOpenat_iff hfresh
  | socket type sock memory => exact iff_of_true (syscallSocket_unchanged hs hfresh hfew) trivial
  | socketpair unix type sock0 sock1 memory memory' => exact syscallSocketpair_iff hfresh

/-! ## A crowded table -/

def modesExample : Modes := ⟨0, 1, 2, 0x200⟩

/-- All slots are at one file of ten bytes, but for those of which `free` says that they are free. -/
def crowded (free : Nat → Bool) : State where
  files :=
    { processes := {0}
      fds := fun (_, n) => if free n then none else some ⟨0, 0⟩
      description := fun _ => ⟨256, 0, 0, 0⟩
      live := fun d => d = 0 }
  res := fun r => { Resource.file 256 with size := 10, live := r = 0 }
  fds := (7, 7)

theorem crowded_sane (free : Nat → Bool) : Sane (crowded free) 0 := by
  intro n fd hfd
  change (if free n then none else some (⟨0, 0⟩ : Descriptor)) = some fd at hfd
  split at hfd
  · exact absurd hfd (by simp)
  · obtain rfl := Option.some.inj hfd
    exact ⟨rfl, rfl⟩

theorem crowded_full : ¬ HasFree (crowded fun _ => false).files 0 := by
  rintro ⟨n, -, hnone⟩
  exact absurd hnone (by simp [crowded])

/-- A socket without a slot. -/
theorem few_slots_socket : ∃ s', (Call.socket 1 (some 1) (some 1)).run headersExample modesExample
    (crowded fun _ => false) 0 = some (-1, s') ∧
    Unchanged (.socket 1 (some 1) (some 1)) (crowded fun _ => false) s' 0 := by
  have hfresh : (Call.socket 1 (some 1) (some 1)).Fresh (crowded fun _ => false) := by
    refine ⟨?_, ?_, ?_⟩
    · decide
    · decide
    · exact fun dir r flags memory h => absurd h (by simp)
  exact (few_slots_iff (c := .socket 1 (some 1) (some 1)) (crowded_sane _) hfresh
    crowded_full).mpr trivial

set_option maxRecDepth 4000 in
/-- With one free slot, a pipe is freed and stays in the slot. -/
theorem one_slot_pipe :
    let s := crowded fun n => n = 0
    let c := Call.pipe 0 (some 1) (some 1) (some 2)
    Sane s 0 ∧ c.Fresh s ∧ c.TooFew s 0 ∧ ∃ s' fd,
      c.run headersExample modesExample s 0 = some (-1, s') ∧ s'.files.fds (0, 0) = some fd ∧
        (s'.res (s'.files.description fd.description).res).live = false ∧ ¬ Unchanged c s s' 0 := by
  refine ⟨crowded_sane _, ⟨?_, ?_, ?_⟩, ?_, ?_⟩
  · decide
  · decide
  · exact fun dir r flags memory h => absurd h (by simp)
  · rintro ⟨m, n, hne, -, -, hm, hn⟩
    have hm : m = 0 := by simpa [crowded] using hm
    have hn : n = 0 := by simpa [crowded] using hn
    exact hne (hm.trans hn.symm)
  · refine ⟨_, ⟨1, 0⟩, rfl, ?_, ?_, fun hun => ?_⟩
    · decide
    · decide
    · exact absurd (hun.table 0) (by decide)

end Lyre.NewDescriptors
