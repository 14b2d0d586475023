import Lyre.Infra.Holders
import Lyre.Infra.Run
import Lyre.Lib.Resource
import Mathlib.Data.Finset.Prod
import Mathlib.Data.Finset.Range

/-!
# Reference counts of descriptions

A reference count is the number of slots that point at the description, and of those references that
nobody gives back: `Counted s x` says that the description `d` has `x d` of them. Every call keeps
this for some `x`, so that nothing is freed that a slot points at (`next_counted`).

A call changes the state through a few things only: a reference is taken or given back, a description
is made, a slot is filled or emptied, and a process comes or goes. There is one lemma for each.
-/

namespace Lyre.Descriptors

open Infra

variable {H : Headers} {s s' : State} {p a n d : Nat} {x : Nat → Nat} {fd fd' : Descriptor}
  {fdnum : Int}

/-! ## The invariant -/

/-- The slots that there are. -/
def State.places (s : State) : Finset (Nat × Nat) := s.processes ×ˢ Finset.range maxFds

/-- What a slot points at. -/
def State.pointsAt (s : State) (i : Nat × Nat) : Option Nat := (s.fds i).map Descriptor.description

/-- The number of slots that point at a description. -/
def State.slots (s : State) (d : Nat) : Nat := holders s.places s.pointsAt d

structure Counted (s : State) (x : Nat → Nat) : Prop where
  refcount : ∀ d, s.live d = true → (s.description d).refcount = s.slots d + x d
  pos : ∀ d, s.live d = true → 0 < s.slots d + x d
  dead : ∀ d, s.live d = false → s.slots d = 0
  inside : ∀ i, s.fds i ≠ none → i ∈ s.places

theorem mem_places : (p, n) ∈ s.places ↔ p ∈ s.processes ∧ n < maxFds := by
  rw [State.places, Finset.mem_product, Finset.mem_range]

theorem slots_congr (hplaces : s'.places = s.places) (hfds : s'.pointsAt = s.pointsAt) :
    s'.slots d = s.slots d := by
  rw [State.slots, State.slots, hplaces, hfds]

theorem slots_of_fds (hfds : s'.fds = s.fds) (hprocs : s'.processes = s.processes) :
    s'.slots d = s.slots d := by
  refine slots_congr ?_ ?_
  · unfold State.places
    rw [hprocs]
  · unfold State.pointsAt
    rw [hfds]

theorem Counted.slots_pos (h : Counted s x) (hfd : s.fds (p, n) = some fd) :
    0 < s.slots fd.description := by
  refine holders_pos.mpr ⟨(p, n), h.inside (p, n) ?_, ?_⟩
  · rw [hfd]
    simp
  · rw [State.pointsAt, hfd, Option.map_some]

theorem Counted.live (h : Counted s x) (hfd : s.fds (p, n) = some fd) :
    s.live fd.description = true := by
  by_contra hdead
  have hzero := h.dead fd.description (by simpa using hdead)
  have hpos := h.slots_pos hfd
  omega

theorem slots_setSlot (hin : (p, n) ∈ s.places) (fd : Option Descriptor) (d : Nat) :
    (s.setSlot p n fd).slots d + (if s.pointsAt (p, n) = some d then 1 else 0)
      = s.slots d + if fd.map Descriptor.description = some d then 1 else 0 := by
  have hfds : (s.setSlot p n fd).pointsAt
      = Function.update s.pointsAt (p, n) (fd.map Descriptor.description) := by
    funext i
    simp only [State.pointsAt, State.setSlot, Function.update_apply]
    split <;> rfl
  rw [State.slots, hfds]
  exact holders_update hin

/-! ## References -/

theorem refcount_ref (s : State) (d e : Nat) : ((s.ref d).description e).refcount
    = (s.description e).refcount + if e = d then 1 else 0 := by
  simp only [State.ref, State.setDescription, Function.update_apply]
  split
  · next heq => rw [heq]
  · rfl

theorem refcount_unref (s : State) (d e : Nat) : ((s.unref d).description e).refcount
    = (s.description e).refcount - if e = d then 1 else 0 := by
  simp only [State.unref, State.setDescription, Function.update_apply]
  split
  · next heq => rw [heq]
  · rfl

theorem Counted.recount {y : Nat → Nat} (h : Counted s x) (hplaces : s'.places = s.places)
    (hfds : s'.fds = s.fds) (hlive : s'.live = s.live)
    (hcount : ∀ e, s.live e = true → (s.description e).refcount = s.slots e + x e →
      0 < s.slots e + x e → (s'.description e).refcount = s.slots e + y e ∧ 0 < s.slots e + y e) :
    Counted s' y := by
  have hslots : ∀ e, s'.slots e = s.slots e := fun e =>
    slots_congr hplaces (by unfold State.pointsAt; rw [hfds])
  refine ⟨fun e he => ?_, fun e he => ?_, fun e he => ?_, fun i hi => ?_⟩
  · rw [hlive] at he
    rw [hslots]
    exact (hcount e he (h.refcount e he) (h.pos e he)).1
  · rw [hlive] at he
    rw [hslots]
    exact (hcount e he (h.refcount e he) (h.pos e he)).2
  · rw [hlive] at he
    rw [hslots]
    exact h.dead e he
  · rw [hfds] at hi
    rw [hplaces]
    exact h.inside i hi

theorem Counted.setDescription (h : Counted s x) {v : Description}
    (hv : v.refcount = (s.description d).refcount) : Counted (s.setDescription d v) x := by
  refine h.recount rfl rfl rfl fun e _ hold hpos => ⟨?_, hpos⟩
  simp only [State.setDescription, Function.update_apply]
  split
  · next heq =>
    rw [hv, ← heq]
    exact hold
  · exact hold

theorem Counted.ref (h : Counted s x) (d : Nat) :
    Counted (s.ref d) (Function.update x d (x d + 1)) := by
  refine h.recount rfl rfl rfl fun e _ hold hpos => ?_
  rw [refcount_ref, Function.update_apply]
  split
  · next heq =>
    subst heq
    omega
  · exact ⟨hold, hpos⟩

theorem Counted.unref (h : Counted s x) (hslot : 0 < s.slots d) (hx : 0 < x d) :
    Counted (s.unref d) (Function.update x d (x d - 1)) := by
  refine h.recount rfl rfl rfl fun e _ hold hpos => ?_
  rw [refcount_unref, Function.update_apply]
  split
  · next heq =>
    subst heq
    omega
  · exact ⟨hold, hpos⟩

/-! ## Slots -/

theorem Counted.put (h : Counted s x) (hin : (p, n) ∈ s.places) (hfree : s.fds (p, n) = none)
    (hlive : s.live fd.description = true) (hx : 0 < x fd.description) :
    Counted (s.setSlot p n (some fd))
      (Function.update x fd.description (x fd.description - 1)) := by
  have hslots : ∀ e, (s.setSlot p n (some fd)).slots e
      = s.slots e + if fd.description = e then 1 else 0 := by
    intro e
    have hone := slots_setSlot hin (some fd) e
    rw [State.pointsAt, hfree, Option.map_none, if_neg (by simp), Option.map_some] at hone
    simpa using hone
  have hsum : ∀ e, (s.setSlot p n (some fd)).slots e
      + Function.update x fd.description (x fd.description - 1) e = s.slots e + x e := by
    intro e
    rw [hslots, Function.update_apply]
    by_cases heq : e = fd.description
    · subst heq
      rw [if_pos rfl, if_pos rfl]
      omega
    · rw [if_neg (fun h' => heq h'.symm), if_neg heq]
      omega
  refine ⟨fun e he => ?_, fun e he => ?_, fun e he => ?_, fun i hi => ?_⟩
  · rw [hsum]
    exact h.refcount e he
  · rw [hsum]
    exact h.pos e he
  · have hdead : s.live e = false := he
    rw [hslots, h.dead e hdead, if_neg]
    rintro rfl
    rw [hlive] at hdead
    exact absurd hdead (by simp)
  · by_cases heq : i = (p, n)
    · rw [heq]
      exact hin
    · exact h.inside i (by simpa [State.setSlot, Function.update_of_ne heq] using hi)

theorem Counted.setFlags (h : Counted s x) (hfd : s.fds (p, n) = some fd)
    (hsame : fd'.description = fd.description) : Counted (s.setSlot p n (some fd')) x := by
  have hpoints : (s.setSlot p n (some fd')).pointsAt = s.pointsAt := by
    funext i
    simp only [State.pointsAt, State.setSlot, Function.update_apply]
    split
    · next heq => rw [heq, hfd, Option.map_some, Option.map_some, hsame]
    · rfl
  have hslots : ∀ e, (s.setSlot p n (some fd')).slots e = s.slots e := fun e =>
    slots_congr rfl hpoints
  refine ⟨fun e he => ?_, fun e he => ?_, fun e he => ?_, fun i hi => ?_⟩
  · rw [hslots]
    exact h.refcount e he
  · rw [hslots]
    exact h.pos e he
  · rw [hslots]
    exact h.dead e he
  · by_cases heq : i = (p, n)
    · rw [heq]
      exact h.inside (p, n) (by rw [hfd]; simp)
    · exact h.inside i (by simpa [State.setSlot, Function.update_of_ne heq] using hi)

theorem closeSlot_live : (closeSlot s p n fd).live d = true ↔
    s.live d = true ∧ ¬ (d = fd.description ∧ (s.description fd.description).refcount = 1) := by
  unfold closeSlot
  simp only
  split
  · next hlast =>
    rw [Function.update_apply]
    split
    · next heq => simp [heq, hlast]
    · next hne => simp [hne]
  · next hmore => simp [hmore]

/-- **A slot is emptied**, and the description is freed if it has no reference left. -/
theorem Counted.close (h : Counted s x) (hfd : s.fds (p, n) = some fd) :
    Counted (closeSlot s p n fd) x := by
  have hin : (p, n) ∈ s.places := h.inside (p, n) (by rw [hfd]; simp)
  have hslots : ∀ e, (closeSlot s p n fd).slots e + (if fd.description = e then 1 else 0)
      = s.slots e := by
    intro e
    have hone := slots_setSlot hin none e
    rw [State.pointsAt, hfd, Option.map_some, Option.map_none] at hone
    simp only [Option.some.injEq, reduceCtorEq, if_false, Nat.add_zero] at hone
    exact hone
  have hcount : ∀ e, ((closeSlot s p n fd).description e).refcount
      = (s.description e).refcount - if e = fd.description then 1 else 0 :=
    refcount_unref s fd.description
  have hrefs : ∀ e, s.live e = true →
      ((closeSlot s p n fd).description e).refcount = (closeSlot s p n fd).slots e + x e := by
    intro e he
    have hold := h.refcount e he
    have hone := hslots e
    rw [hcount]
    by_cases heq : e = fd.description
    · rw [if_pos heq.symm] at hone
      rw [if_pos heq]
      omega
    · rw [if_neg (Ne.symm heq)] at hone
      rw [if_neg heq]
      omega
  refine ⟨fun e he => hrefs e (closeSlot_live.mp he).1, fun e he => ?_, fun e he => ?_,
    fun i hi => ?_⟩
  · obtain ⟨hlive, hlast⟩ := closeSlot_live.mp he
    have hpos := h.pos e hlive
    have hold := h.refcount e hlive
    have hone := hslots e
    by_cases heq : e = fd.description
    · rw [if_pos heq.symm] at hone
      have hmore : (s.description e).refcount ≠ 1 := fun h1 => hlast ⟨heq, heq ▸ h1⟩
      omega
    · rw [if_neg (Ne.symm heq)] at hone
      omega
  · have hone := hslots e
    cases hlive : s.live e with
    | false =>
      have hzero := h.dead e hlive
      omega
    | true =>
      -- it was the last reference
      have hlast : e = fd.description ∧ (s.description fd.description).refcount = 1 := by
        by_contra hnot
        rw [closeSlot_live.mpr ⟨hlive, hnot⟩] at he
        exact absurd he (by simp)
      have hold := h.refcount e hlive
      rw [if_pos hlast.1.symm] at hone
      rw [hlast.1] at hold hone ⊢
      omega
  · by_cases heq : i = (p, n)
    · rw [heq]
      exact hin
    · refine h.inside i ?_
      have hsame : (closeSlot s p n fd).fds i = s.fds i := Function.update_of_ne heq _ _
      rw [← hsame]
      exact hi

/-! ## Descriptions and processes -/

theorem Counted.alloc (h : Counted s x) (hdead : s.live d = false) {v : Description}
    (hv : v.refcount = 1) :
    Counted (s.alloc d v) (Function.update x d 1) := by
  have hslots : ∀ e, (s.alloc d v).slots e = s.slots e := fun _ => rfl
  have hzero := h.dead d hdead
  refine ⟨fun e he => ?_, fun e he => ?_, fun e he => ?_, h.inside⟩
  · rw [hslots]
    simp only [State.alloc, State.setDescription, Function.update_apply] at he ⊢
    by_cases heq : e = d
    · rw [if_pos heq, if_pos heq, hv, heq, hzero]
    · rw [if_neg heq] at he ⊢
      rw [if_neg heq]
      exact h.refcount e he
  · rw [hslots]
    simp only [State.alloc, Function.update_apply] at he ⊢
    by_cases heq : e = d
    · rw [if_pos heq]
      omega
    · rw [if_neg heq] at he ⊢
      exact h.pos e he
  · rw [hslots]
    simp only [State.alloc, Function.update_apply] at he
    by_cases heq : e = d
    · rw [heq]
      exact hzero
    · rw [if_neg heq] at he
      exact h.dead e he

theorem slots_addProcess (h : Counted s x) (ha : a ∉ s.processes) (d : Nat) :
    (s.addProcess a).slots d = s.slots d := by
  have hrow : ∀ n, s.fds (a, n) = none := by
    intro n
    by_contra hne
    exact ha (mem_places.mp (h.inside (a, n) hne)).1
  have hpoints : (s.addProcess a).pointsAt = s.pointsAt := by
    funext i
    obtain ⟨b, n⟩ := i
    simp only [State.pointsAt, State.addProcess]
    split
    · next heq => rw [heq, hrow]
    · rfl
  unfold State.slots
  rw [hpoints]
  refine holders_subset ?_ fun i hi hni => ?_
  · intro i hi
    rw [mem_places (p := i.1) (n := i.2)] at hi ⊢
    exact ⟨Finset.mem_insert_of_mem hi.1, hi.2⟩
  · unfold State.pointsAt
    by_cases hnone : s.fds i = none
    · rw [hnone, Option.map_none]
    · exact absurd (h.inside i hnone) hni

theorem Counted.addProcess (h : Counted s x) (ha : a ∉ s.processes) :
    Counted (s.addProcess a) x := by
  have hslots := slots_addProcess h ha
  refine ⟨fun e he => ?_, fun e he => ?_, fun e he => ?_, fun i hi => ?_⟩
  · rw [hslots]
    exact h.refcount e he
  · rw [hslots]
    exact h.pos e he
  · rw [hslots]
    exact h.dead e he
  · obtain ⟨b, n⟩ := i
    simp only [State.addProcess] at hi
    split at hi
    · exact absurd rfl hi
    · have hold := mem_places.mp (h.inside (b, n) hi)
      exact mem_places.mpr ⟨Finset.mem_insert_of_mem hold.1, hold.2⟩

theorem freeProcess_pointsAt {i : Nat × Nat} (h : (s.freeProcess a).pointsAt i = some d) :
    s.pointsAt i = some d := by
  unfold State.pointsAt State.freeProcess at h
  simp only at h
  split at h
  · exact absurd h (by simp)
  · exact h

theorem slots_freeProcess_le (s : State) (a d : Nat) : (s.freeProcess a).slots d ≤ s.slots d := by
  refine holders_le (fun i hi => ?_) fun i _ hi => freeProcess_pointsAt hi
  rw [mem_places (p := i.1) (n := i.2)] at hi ⊢
  exact ⟨Finset.mem_of_mem_erase hi.1, hi.2⟩

theorem freeProcess_inside (h : Counted s x) {i : Nat × Nat}
    (hi : (s.freeProcess a).fds i ≠ none) : i ∈ (s.freeProcess a).places := by
  obtain ⟨b, n⟩ := i
  simp only [State.freeProcess] at hi
  split at hi
  · exact absurd rfl hi
  · next hne =>
    have hold := mem_places.mp (h.inside (b, n) hi)
    exact mem_places.mpr ⟨Finset.mem_erase.mpr ⟨hne, hold.1⟩, hold.2⟩

/-- The references of the slots of a process that is freed are given back by nobody. -/
theorem Counted.freeProcess (h : Counted s x) (a : Nat) : ∃ y, Counted (s.freeProcess a) y := by
  refine ⟨fun d => (s.description d).refcount - (s.freeProcess a).slots d, fun e he => ?_,
    fun e he => ?_, fun e he => ?_, fun i hi => freeProcess_inside h hi⟩
  · have hle := slots_freeProcess_le s a e
    have hold := h.refcount e he
    show (s.description e).refcount = _
    omega
  · have hold := h.refcount e he
    have hpos := h.pos e he
    show 0 < _ + ((s.description e).refcount - (s.freeProcess a).slots e)
    omega
  · have hle := slots_freeProcess_le s a e
    have hzero := h.dead e he
    omega

theorem Counted.freeProcess_of_empty (h : Counted s x) (hrow : ∀ n, s.fds (a, n) = none) :
    Counted (s.freeProcess a) x := by
  have hpoints : (s.freeProcess a).pointsAt = s.pointsAt := by
    funext i
    obtain ⟨b, n⟩ := i
    simp only [State.pointsAt, State.freeProcess]
    split
    · next heq => rw [heq, hrow]
    · rfl
  have hslots : ∀ e, (s.freeProcess a).slots e = s.slots e := by
    intro e
    unfold State.slots
    rw [hpoints]
    refine (holders_subset (fun i hi => ?_) fun i hi hni => ?_).symm
    · rw [mem_places (p := i.1) (n := i.2)] at hi ⊢
      exact ⟨Finset.mem_of_mem_erase hi.1, hi.2⟩
    · by_cases hnone : (s.freeProcess a).fds i = none
      · rw [← hpoints, State.pointsAt, hnone, Option.map_none]
      · exact absurd (freeProcess_inside h hnone) hni
  refine ⟨fun e he => ?_, fun e he => ?_, fun e he => ?_, fun i hi => freeProcess_inside h hi⟩
  · rw [hslots]
    exact h.refcount e he
  · rw [hslots]
    exact h.pos e he
  · rw [hslots]
    exact h.dead e he

/-! ## What the functions do to the slots -/

theorem slotOf_eq_some : slotOf fdnum = some n ↔ fdnum = n ∧ n < maxFds := by
  unfold slotOf maxFds
  split
  · next h =>
    constructor
    · exact fun h' => absurd h' (by simp)
    · rintro ⟨rfl, hlt⟩
      exact absurd h (by omega)
  · next h =>
    rw [Option.some.injEq]
    omega

theorem openAt_eq_some :
    openAt s p fdnum = some (n, fd) ↔ slotOf fdnum = some n ∧ s.fds (p, n) = some fd := by
  rw [openAt, Option.bind_eq_some_iff]
  constructor
  · rintro ⟨m, hm, h⟩
    obtain ⟨fd', hfd, heq⟩ := Option.map_eq_some_iff.mp h
    obtain ⟨rfl, rfl⟩ := Prod.mk.inj heq
    exact ⟨hm, hfd⟩
  · rintro ⟨hn, hfd⟩
    exact ⟨n, hn, by rw [hfd, Option.map_some]⟩

/-- The lowest free slot from a start on. -/
def LowestFree (row : Nat → Option Descriptor) (start n : Nat) : Prop :=
  start ≤ n ∧ n < maxFds ∧ row n = none ∧ ∀ m, start ≤ m → m < n → row m ≠ none

def Full (row : Nat → Option Descriptor) (start : Nat) : Prop :=
  ∀ m, start ≤ m → m < maxFds → row m ≠ none

theorem firstFree_some {row : Nat → Option Descriptor} {k i : Nat}
    (h : firstFree row k i = some n) :
    i ≤ n ∧ n < i + k ∧ row n = none ∧ ∀ m, i ≤ m → m < n → row m ≠ none := by
  induction k generalizing i with
  | zero => exact absurd h (by simp [firstFree])
  | succ k ih =>
    rw [firstFree] at h
    split at h
    · next hfree =>
      obtain rfl := Option.some.inj h
      exact ⟨Nat.le_refl i, by omega, Option.isNone_iff_eq_none.mp hfree, fun m _ _ => by omega⟩
    · next hused =>
      obtain ⟨hle, hlt, hfree, hbelow⟩ := ih h
      refine ⟨by omega, by omega, hfree, fun m hm hmn => ?_⟩
      by_cases heq : m = i
      · rw [heq]
        exact fun hnone => hused (Option.isNone_iff_eq_none.mpr hnone)
      · exact hbelow m (by omega) hmn

theorem firstFree_none {row : Nat → Option Descriptor} {k i : Nat} (h : firstFree row k i = none)
    {m : Nat} (hi : i ≤ m) (hk : m < i + k) : row m ≠ none := by
  induction k generalizing i with
  | zero => omega
  | succ k ih =>
    rw [firstFree] at h
    split at h
    · exact absurd h (by simp)
    · next hused =>
      by_cases heq : m = i
      · rw [heq]
        exact fun hnone => hused (Option.isNone_iff_eq_none.mpr hnone)
      · exact ih h (by omega) (by omega)

/-- What `fdnum_create_from_fd` does. -/
inductive Placed (s : State) (p : Nat) (fd : Descriptor) : Int → Bool → Ret → State → Prop
  | specific (n : Nat) : n < maxFds →
    Placed s p fd n true (.value n) ((fdnumClose s p n).2.setSlot p n (some fd))
  | lowest (start n : Nat) : LowestFree (fun i => s.fds (p, i)) start n →
    Placed s p fd start false (.value n) (s.setSlot p n (some fd))
  | full (start : Nat) : start < maxFds → Full (fun i => s.fds (p, i)) start →
    Placed s p fd start false .failed s
  | refused (fdnum : Int) (specific : Bool) : slotOf fdnum = none →
    Placed s p fd fdnum specific (.error .ebadf) s

theorem fdnumCreateFromFd_placed (s : State) (p : Nat) (fd : Descriptor) (fdnum : Int)
    (specific : Bool) : Placed s p fd fdnum specific (fdnumCreateFromFd s p fd fdnum specific).1
      (fdnumCreateFromFd s p fd fdnum specific).2 := by
  unfold fdnumCreateFromFd
  cases hslot : slotOf fdnum with
  | none => exact .refused fdnum specific hslot
  | some n =>
    obtain ⟨rfl, hlt⟩ := slotOf_eq_some.mp hslot
    cases specific with
    | true => exact .specific n hlt
    | false =>
      simp only [Bool.false_eq_true, if_false]
      cases hfree : firstFree (fun i => s.fds (p, i)) (maxFds - n) n with
      | none =>
        exact .full n hlt fun m hm hlt' => firstFree_none hfree hm (by omega)
      | some i =>
        obtain ⟨hle, hlt', hnone, hbelow⟩ := firstFree_some hfree
        exact .lowest n i ⟨hle, by omega, hnone, hbelow⟩

theorem fdnumClose_spec (s : State) (p : Nat) (fdnum : Int) :
    (∃ n fd, openAt s p fdnum = some (n, fd) ∧ fdnumClose s p fdnum = (true, closeSlot s p n fd)) ∨
    (openAt s p fdnum = none ∧ fdnumClose s p fdnum = (false, s)) := by
  unfold fdnumClose
  cases hopen : openAt s p fdnum with
  | none => exact .inr ⟨rfl, rfl⟩
  | some r =>
    obtain ⟨n, fd⟩ := r
    exact .inl ⟨n, fd, rfl, rfl⟩

/-- What `fdnum_dup` does. -/
inductive Dup (H : Headers) (s : State) (p : Nat) (fdnum : Int) (newProc : Nat) (newFdnum : Int)
    (flags : BitVec 32) (specific cloexec : Bool) : Bool → Ret → State → Prop
  | same (memory : Bool) : specific = true → fdnum = newFdnum → p = newProc →
    Dup H s p fdnum newProc newFdnum flags specific cloexec memory (.error .einval) s
  | notOpen (memory : Bool) : openAt s p fdnum = none →
    Dup H s p fdnum newProc newFdnum flags specific cloexec memory (.error .ebadf) s
  | noMemory (n : Nat) (fd : Descriptor) : openAt s p fdnum = some (n, fd) →
    Dup H s p fdnum newProc newFdnum flags specific cloexec false (.error .enomem)
      (s.ref fd.description)
  | placed (n : Nat) (fd : Descriptor) (k : Int) (t : State) :
    ¬ (specific = true ∧ fdnum = newFdnum ∧ p = newProc) →
    openAt s p fdnum = some (n, fd) →
    Placed (s.ref fd.description) newProc ⟨fd.description, dupFlags H flags cloexec⟩ newFdnum
      specific (.value k) t →
    Dup H s p fdnum newProc newFdnum flags specific cloexec true (.value k) (t.ref fd.description)
  | refused (n : Nat) (fd : Descriptor) (r : Ret) (t : State) :
    openAt s p fdnum = some (n, fd) → (∀ k, r ≠ .value k) →
    Placed (s.ref fd.description) newProc ⟨fd.description, dupFlags H flags cloexec⟩ newFdnum
      specific r t →
    Dup H s p fdnum newProc newFdnum flags specific cloexec true r t

theorem fdnumDup_dup (H : Headers) (s : State) (p : Nat) (fdnum : Int) (newProc : Nat)
    (newFdnum : Int) (flags : BitVec 32) (specific cloexec memory : Bool) :
    Dup H s p fdnum newProc newFdnum flags specific cloexec memory
      (fdnumDup H s p fdnum newProc newFdnum flags specific cloexec memory).1
      (fdnumDup H s p fdnum newProc newFdnum flags specific cloexec memory).2 := by
  unfold fdnumDup
  split
  · next hsame => exact .same memory hsame.1 hsame.2.1 hsame.2.2
  · next hdiff =>
    unfold fdFromFdnum
    cases hopen : openAt s p fdnum with
    | none => exact .notOpen memory hopen
    | some r =>
      obtain ⟨n, fd⟩ := r
      simp only [Option.map_some]
      cases memory with
      | false => exact .noMemory n fd hopen
      | true =>
        have hplaced := fdnumCreateFromFd_placed (s.ref fd.description) newProc
          ⟨fd.description, dupFlags H flags cloexec⟩ newFdnum specific
        simp only [if_true]
        generalize fdnumCreateFromFd (s.ref fd.description) newProc
          ⟨fd.description, dupFlags H flags cloexec⟩ newFdnum specific = c at hplaced ⊢
        obtain ⟨r, t⟩ := c
        cases r with
        | value k => exact .placed n fd k t hdiff hopen hplaced
        | error e => exact .refused n fd (.error e) t hopen (fun _ => by simp) hplaced
        | failed => exact .refused n fd .failed t hopen (fun _ => by simp) hplaced

end Lyre.Descriptors
